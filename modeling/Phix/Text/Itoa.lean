import Mathlib.Tactic.IntervalCases
import Phix.Common
import Phix.Foundation.Numerals

/-! # `itoa`

The decimal conversion of `string/string.c`, of which the user library's `stdio.c` has a copy.
It works on the negated absolute value, so that the least `int` needs no case of its own, and
fills a static buffer of 12 bytes from its end; what earlier calls have left there is arbitrary.
The result is the numeral in base ten with a sign (`Phix.itoa_is_canonical_decimal`).
-/

namespace Phix

open Backwards

/-- `while (i) { text[--loc] = '0' - (i % 10); i /= 10; }` -/
def itoa.loop : (rounds : ℕ) → (i : Word) → Backwards Byte → Option (Backwards Byte)
  | 0, _, _ => none
  | rounds + 1, i, text =>
      if i = 0 then some text
      else loop rounds (i.sdiv 10) (text.put ((0x30 - i.srem 10).setWidth 8))

/-- `itoa`: the buffer, and the index of the character that the result points to. A round divides
by ten, so an `int` is zero after less than 32 rounds. -/
def itoa (text : Int → Byte) (i : Word) : Option (Backwards Byte) :=
  let start : Backwards Byte := { text := Function.update text 11 0, loc := 11 }
  let neg := if 0 ≤ i.toInt then false else true
  let i := if 0 ≤ i.toInt then -i else i
  (itoa.loop 32 i start).map fun text =>
    let text := if text.loc = 11 then text.put 0x30 else text
    if neg then text.put 0x2D else text

namespace Stdlib

/-- The copy in `stdio.c`. -/
def itoa (text : Int → Byte) (i : Word) : Option (Backwards Byte) := Phix.itoa text i

end Stdlib

/-- The character of a decimal digit. -/
def decimalChar (digit : ℕ) : Byte := BitVec.ofNat 8 (0x30 + digit)

/-- The sign of a number in decimal. -/
def sign (i : Int) : List Byte := if i < 0 then [0x2D] else []

/-- The result is a sign for a negative number only, the numeral of the absolute value and a NUL
at the end of the twelve bytes; no other byte is written. -/
structure CanonicalDecimal (i : Int) (before : Int → Byte) (after : Backwards Byte) : Prop where
  inside : 0 ≤ after.loc
  string : ∃ digits, Numeral 10 i.natAbs digits ∧
    after.loc + (sign i ++ digits.map decimalChar).length = 11 ∧
    Holds after.text after.loc (sign i ++ digits.map decimalChar ++ [0])
  kept : ∀ j, j < 0 ∨ 12 ≤ j → after.text j = before j

/-- A digit is the remainder of the negated number, subtracted from `'0'`. -/
theorem remainder_char {i : Word} {m : ℕ} (negated : i.toInt = -(m : Int)) :
    ((0x30 - i.srem 10).setWidth 8 : Byte) = decimalChar (m % 10) := by
  have below : m % 10 < 10 := Nat.mod_lt m (by decide)
  have value : (i.srem 10).toInt = -((m % 10 : ℕ) : Int) := by
    rw [BitVec.toInt_srem, negated, Int.neg_tmod]
    rfl
  have remainder : i.srem 10 = BitVec.ofInt 32 (-((m % 10 : ℕ) : Int)) := by
    apply BitVec.eq_of_toInt_eq
    rw [value, BitVec.toInt_ofInt, Int.bmod_eq_of_le (by omega) (by omega)]
  rw [remainder]
  generalize m % 10 = digit at below
  interval_cases digit <;> decide

theorem quotient_toInt {i : Word} {m : ℕ} (negated : i.toInt = -(m : Int)) :
    (i.sdiv 10).toInt = -((m / 10 : ℕ) : Int) := by
  rw [BitVec.toInt_sdiv_of_ne_or_ne i 10 (.inr (by decide)), negated, Int.neg_tdiv]
  rfl

/-- On the negated number the loop is the one that writes its digits. -/
theorem itoa.loop_eq {i : Word} {m : ℕ} (negated : i.toInt = -(m : Int)) (rounds : ℕ)
    (text : Backwards Byte) : loop rounds i text = writeDigits 10 decimalChar rounds m text := by
  induction rounds generalizing i m text with
  | zero => rfl
  | succ rounds ih =>
      unfold loop writeDigits
      by_cases zero : m = 0
      · have none : i = 0 := BitVec.eq_of_toInt_eq (by rw [negated, zero]; rfl)
        rw [if_pos none, if_pos zero]
      · have some : i ≠ 0 := by
          rintro rfl
          change (0 : Int) = -(m : Int) at negated
          omega
        rw [if_neg some, if_neg zero, remainder_char negated]
        exact ih (quotient_toInt negated) _

/-- The digits, with one digit for zero. -/
theorem itoa_digits (start : Backwards Byte) (last : start.loc = 11) {m : ℕ} (bound : m < 10 ^ 10) :
    ∃ text, writeDigits 10 decimalChar 32 m start = some text ∧
      Wrote start (if text.loc = 11 then text.put 0x30 else text)
        ((numeralDigits 10 m).map decimalChar) := by
  have enough : m < 10 ^ 31 := lt_trans bound (by decide)
  obtain ⟨text, returned, wrote⟩ :=
    writeDigits_spec (show 1 < 10 by decide) decimalChar 31 m enough start
  refine ⟨text, returned, ?_⟩
  have loc := wrote.loc
  rw [List.length_map, List.length_reverse] at loc
  unfold numeralDigits
  by_cases zero : m = 0
  · rw [zero, Nat.digits_zero] at wrote loc
    rw [List.length_nil] at loc
    rw [if_pos zero, if_pos (by omega)]
    exact wrote.trans (wrote_put text 0x30)
  · have nonempty : Nat.digits 10 m ≠ [] := Nat.digits_ne_nil_iff_ne_zero.mpr zero
    have positive := List.length_pos_iff.mpr nonempty
    rw [if_neg zero, if_neg (by omega)]
    exact wrote

theorem numeralDigits_length {m : ℕ} (bound : m < 10 ^ 10) :
    (numeralDigits 10 m).length ≤ 10 := by
  unfold numeralDigits
  split
  · decide
  · rw [List.length_reverse]
    exact (Nat.digits_length_le_iff (by decide) m).mpr bound

/-- The loop runs on the negated absolute value. -/
theorem negated_toInt (i : Word) :
    (if 0 ≤ i.toInt then -i else i).toInt = -(i.toInt.natAbs : Int) := by
  have upper : i.toInt < 2 ^ 31 := BitVec.toInt_lt
  by_cases nonnegative : 0 ≤ i.toInt
  · rw [if_pos nonnegative, BitVec.toInt_neg, Int.bmod_eq_of_le (by omega) (by omega)]
    omega
  · rw [if_neg nonnegative]
    omega

theorem natAbs_toInt_lt (i : Word) : i.toInt.natAbs < 10 ^ 10 := by
  have lower : -2 ^ 31 ≤ i.toInt := BitVec.le_toInt i
  have upper : i.toInt < 2 ^ 31 := BitVec.toInt_lt
  omega

/-- What the call leaves in the buffer. -/
theorem itoa_spec (text : Int → Byte) (i : Word) :
    ∃ after, itoa text i = some after ∧
      Wrote { text := Function.update text 11 0, loc := 11 } after
        (sign i.toInt ++ (numeralDigits 10 i.toInt.natAbs).map decimalChar) := by
  obtain ⟨after, returned, wrote⟩ :=
    itoa_digits { text := Function.update text 11 0, loc := 11 } rfl (natAbs_toInt_lt i)
  unfold itoa
  simp only [itoa.loop_eq (negated_toInt i), returned, Option.map_some]
  refine ⟨_, rfl, ?_⟩
  unfold sign
  by_cases nonnegative : 0 ≤ i.toInt
  · simp only [if_pos nonnegative, if_neg (show ¬ i.toInt < 0 by omega)]
    exact wrote
  · simp only [if_neg nonnegative, if_pos (show i.toInt < 0 by omega)]
    exact wrote.trans (wrote_put _ 0x2D)

theorem canonicalDecimal_of_wrote {text : Int → Byte} {i : Int} {after : Backwards Byte}
    (bound : i.natAbs < 10 ^ 10)
    (wrote : Wrote { text := Function.update text 11 0, loc := 11 } after
      (sign i ++ (numeralDigits 10 i.natAbs).map decimalChar)) :
    CanonicalDecimal i text after := by
  have loc := wrote.loc
  have digits := numeralDigits_length bound
  have signs : (sign i).length ≤ 1 := by
    unfold sign
    split <;> decide
  have length : (sign i ++ (numeralDigits 10 i.natAbs).map decimalChar).length ≤ 11 := by
    rw [List.length_append, List.length_map]
    omega
  change _ = (11 : Int) at loc
  have holds := wrote.snoc (Function.update_self (11 : Int) (0 : Byte) text)
  refine ⟨by omega, ⟨_, numeral_numeralDigits (by decide) i.natAbs, loc, holds⟩,
    fun j outside => ?_⟩
  · rw [wrote.kept j (by change j < after.loc ∨ 11 ≤ j; omega)]
    have different : j ≠ 11 := by omega
    exact Function.update_of_ne different _ _

/-- **`itoa` is the canonical decimal for every `int`**, in the kernel and in the library. -/
theorem itoa_is_canonical_decimal (text : Int → Byte) (i : Word) :
    (∃ after, itoa text i = some after ∧ CanonicalDecimal i.toInt text after) ∧
      ∃ after, Stdlib.itoa text i = some after ∧ CanonicalDecimal i.toInt text after := by
  obtain ⟨after, returned, wrote⟩ := itoa_spec text i
  have canonical := canonicalDecimal_of_wrote (natAbs_toInt_lt i) wrote
  exact ⟨⟨after, returned, canonical⟩, after, returned, canonical⟩

/-- The least `int` takes all twelve bytes. -/
example : (itoa (fun _ => 0) 0x80000000).map (fun after => after.loc) = some 0 := by rfl

end Phix
