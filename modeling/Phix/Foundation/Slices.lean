import Mathlib.Data.List.Basic
import Mathlib.Tactic.Common

/-! # Slices of a sequence and of a concatenation

`slice f start len` lists `len` consecutive values of a sequence. A slice splits at
every point (`slice_append`), so a reader that delivers adjacent slices one after the
other delivers their union. A slice of a concatenation of lists of one length that stays
inside one of them is a slice of that one (`take_drop_flatMap`).
-/

namespace Slices

variable {α β : Type*}

/-- The values of `f` at `start`, ..., `start + len - 1`. -/
def slice (f : ℕ → α) (start len : ℕ) : List α := (List.range len).map fun i => f (start + i)

@[simp] theorem length_slice (f : ℕ → α) (start len : ℕ) : (slice f start len).length = len := by
  simp [slice]

@[simp] theorem slice_zero (f : ℕ → α) (start : ℕ) : slice f start 0 = [] := rfl

theorem getD_slice (f : ℕ → α) {start len i : ℕ} (inside : i < len) (default : α) :
    (slice f start len).getD i default = f (start + i) := by
  simp [slice, inside]

theorem slice_append (f : ℕ → α) (start m n : ℕ) :
    slice f start m ++ slice f (start + m) n = slice f start (m + n) := by
  unfold slice
  rw [List.range_add, List.map_append, List.map_map]
  congr 1
  exact List.map_congr_left fun i _ => by rw [Function.comp_apply, Nat.add_assoc]

/-- A slice of a slice. -/
theorem take_drop_slice (f : ℕ → α) {start len r t : ℕ} (inside : r + t ≤ len) :
    ((slice f start len).drop r).take t = slice f (start + r) t := by
  obtain ⟨rest, split⟩ : ∃ rest, len = r + (t + rest) := ⟨len - r - t, by omega⟩
  rw [split, ← slice_append, ← slice_append, List.drop_left' (length_slice f start r),
    List.take_left' (length_slice f (start + r) t)]

/-- Consecutive pieces of a list. -/
theorem take_drop_append (xs : List α) (start m n : ℕ) :
    (xs.drop start).take m ++ (xs.drop (start + m)).take n = (xs.drop start).take (m + n) := by
  rw [← List.drop_drop, List.take_add]

/-- A slice of a concatenation of lists of one length that stays inside the list `q`. -/
theorem take_drop_flatMap {f : α → List β} {size : ℕ} {xs : List α}
    (lengths : ∀ x ∈ xs, (f x).length = size) {q r t : ℕ} {x : α} (member : xs[q]? = some x)
    (inside : r + t ≤ size) :
    ((xs.flatMap f).drop (q * size + r)).take t = ((f x).drop r).take t := by
  induction xs generalizing q with
  | nil => simp at member
  | cons y ys ih =>
      have head := lengths y List.mem_cons_self
      rw [List.flatMap_cons]
      cases q with
      | zero =>
          obtain rfl : y = x := by simpa using member
          rw [Nat.zero_mul, Nat.zero_add, List.drop_append_of_le_length (by omega),
            List.take_append_of_le_length (by rw [List.length_drop]; omega)]
      | succ q =>
          have step : (q + 1) * size + r = (f y).length + (q * size + r) := by
            rw [head, Nat.succ_mul]
            omega
          rw [step, ← List.drop_drop, List.drop_left]
          exact ih (fun z inTail => lengths z (List.mem_cons_of_mem y inTail))
            (by simpa using member)

end Slices
