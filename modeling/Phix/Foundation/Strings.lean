import Mathlib.Data.BitVec

/-! # Strings that end in a zero byte

The bytes of a string are read one after the other until a zero byte. `Strings.length` is how
many are read when reading stops at a limit, and depends on the bytes that are read only
(`Strings.length_congr`).
-/

namespace Strings

/-- The length of the string of these bytes, cut at `n`. -/
def length (byte : ℕ → BitVec 8) : ℕ → ℕ
  | 0 => 0
  | n + 1 => if byte 0 = 0 then 0 else length (fun i => byte (i + 1)) n + 1

/-- The first `count` bytes and zeros behind them. -/
def terminated (byte : ℕ → BitVec 8) (count i : ℕ) : BitVec 8 := if i < count then byte i else 0

variable {byte other : ℕ → BitVec 8} {n i : ℕ}

theorem length_succ_of_zero (zero : byte 0 = 0) : length byte (n + 1) = 0 := if_pos zero

theorem length_succ_of_ne_zero (more : byte 0 ≠ 0) :
    length byte (n + 1) = length (fun i => byte (i + 1)) n + 1 := if_neg more

theorem length_le (byte : ℕ → BitVec 8) (n : ℕ) : length byte n ≤ n := by
  induction n generalizing byte with
  | zero => exact le_rfl
  | succ n ih =>
      by_cases zero : byte 0 = 0
      · rw [length_succ_of_zero zero]
        exact Nat.zero_le _
      · rw [length_succ_of_ne_zero zero]
        exact Nat.succ_le_succ (ih _)

theorem ne_zero_of_lt (inside : i < length byte n) : byte i ≠ 0 := by
  induction n generalizing byte i with
  | zero => exact absurd inside (Nat.not_lt_zero i)
  | succ n ih =>
      by_cases zero : byte 0 = 0
      · rw [length_succ_of_zero zero] at inside
        exact absurd inside (Nat.not_lt_zero i)
      · rw [length_succ_of_ne_zero zero] at inside
        cases i with
        | zero => exact zero
        | succ i => exact @ih (fun i => byte (i + 1)) i (Nat.lt_of_succ_lt_succ inside)

/-- A string that is shorter than the limit ends in a zero byte. -/
theorem at_length (shorter : length byte n < n) : byte (length byte n) = 0 := by
  induction n generalizing byte with
  | zero => exact absurd shorter (Nat.not_lt_zero _)
  | succ n ih =>
      by_cases zero : byte 0 = 0
      · rw [length_succ_of_zero zero]
        exact zero
      · rw [length_succ_of_ne_zero zero] at shorter ⊢
        exact @ih (fun i => byte (i + 1)) (Nat.lt_of_succ_lt_succ shorter)

/-- The length depends on the bytes up to the end of the string only. -/
theorem length_congr (same : ∀ i ≤ length byte n, other i = byte i) :
    length other n = length byte n := by
  induction n generalizing byte other with
  | zero => rfl
  | succ n ih =>
      have first := same 0 (Nat.zero_le _)
      by_cases zero : byte 0 = 0
      · rw [length_succ_of_zero zero, length_succ_of_zero (first.trans zero)]
      · rw [length_succ_of_ne_zero zero] at same
        rw [length_succ_of_ne_zero zero, length_succ_of_ne_zero (first ▸ zero)]
        exact congrArg Nat.succ (ih fun i inside => same (i + 1) (Nat.succ_le_succ inside))

/-- Of a string with `count` bytes before the zero byte, those up to the limit are read. -/
theorem length_eq_min {count : ℕ} (bytes : ∀ i < count, byte i ≠ 0) (last : byte count = 0) :
    length byte n = min count n := by
  have notMore : length byte n ≤ count := by
    by_contra more
    exact ne_zero_of_lt (not_le.mp more) last
  have limit := length_le byte n
  rcases lt_or_ge (length byte n) n with shorter | whole
  · have stops := at_length shorter
    have notLess : ¬ length byte n < count := fun less => bytes _ less stops
    omega
  · omega

/-- Writing the cut string with its zero byte gives a string of that length. -/
theorem length_terminated {count : ℕ} (bytes : ∀ i < count, byte i ≠ 0) (fits : count ≤ n) :
    length (terminated byte count) n = count := by
  have nonzero : ∀ i < count, terminated byte count i ≠ 0 := fun i inside => by
    rw [terminated, if_pos inside]
    exact bytes i inside
  have zero : terminated byte count count = 0 := if_neg (Nat.lt_irrefl count)
  rw [length_eq_min nonzero zero]
  exact Nat.min_eq_left fits

end Strings
