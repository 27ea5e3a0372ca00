import Mathlib.Data.Nat.Digits.Lemmas
import Mathlib.Logic.Function.Basic

/-! # Numerals that are written backwards

The numeral of a number in a base is its digits, the first of which is zero for the number zero
only (`Numeral`); every number has one (`numeral_numeralDigits`). A conversion that divides by the
base again and again finds the last digit first and fills a buffer from its end
(`Backwards.writeDigits`); `Backwards.writeDigits_spec` says what it leaves there.
-/

/-- The digits, the first one first, are the numeral of the number. -/
structure Numeral (base n : ℕ) (digits : List ℕ) : Prop where
  bounded : ∀ digit ∈ digits, digit < base
  nonempty : digits ≠ []
  leading : digits.head? = some 0 → digits = [0]
  value : Nat.ofDigits base digits.reverse = n

/-- The digits of the number, with one digit for zero. -/
def numeralDigits (base n : ℕ) : List ℕ := if n = 0 then [0] else (Nat.digits base n).reverse

theorem numeral_numeralDigits {base : ℕ} (positive : 1 < base) (n : ℕ) :
    Numeral base n (numeralDigits base n) := by
  unfold numeralDigits
  by_cases zero : n = 0
  · rw [if_pos zero, zero]
    refine ⟨fun digit listed => ?_, List.cons_ne_nil 0 [], fun _ => rfl, Nat.ofDigits_singleton⟩
    rw [List.mem_singleton.mp listed]
    omega
  · rw [if_neg zero]
    have nonempty : Nat.digits base n ≠ [] := Nat.digits_ne_nil_iff_ne_zero.mpr zero
    refine ⟨fun digit listed => ?_, ?_, fun leads => ?_, ?_⟩
    · exact Nat.digits_lt_base positive (List.mem_reverse.mp listed)
    · exact fun empty => nonempty (List.reverse_eq_nil_iff.mp empty)
    · rw [List.head?_reverse, List.getLast?_eq_some_getLast nonempty, Option.some_inj] at leads
      exact absurd leads (Nat.getLast_digit_ne_zero base zero)
    · rw [List.reverse_reverse]
      exact Nat.ofDigits_digits base n

/-- A buffer and the index of the last cell that was written. -/
structure Backwards (Cell : Type) where
  text : Int → Cell
  loc : Int

namespace Backwards

variable {Cell : Type}

/-- Write the cell before. -/
def put (buffer : Backwards Cell) (c : Cell) : Backwards Cell where
  text := Function.update buffer.text (buffer.loc - 1) c
  loc := buffer.loc - 1

/-- Write the digits of a number, the last one first. -/
def writeDigits (base : ℕ) (char : ℕ → Cell) : (rounds : ℕ) → (n : ℕ) → Backwards Cell →
    Option (Backwards Cell)
  | 0, _, _ => none
  | rounds + 1, n, buffer =>
      if n = 0 then some buffer
      else writeDigits base char rounds (n / base) (buffer.put (char (n % base)))

/-- The cells from `loc` on. -/
def Holds (text : Int → Cell) (loc : Int) : List Cell → Prop
  | [] => True
  | c :: rest => text loc = c ∧ Holds text (loc + 1) rest

/-- `after` has come from `before` by writing the cells in front. -/
structure Wrote (before after : Backwards Cell) (cells : List Cell) : Prop where
  loc : after.loc + cells.length = before.loc
  holds : Holds after.text after.loc cells
  kept : ∀ j, j < after.loc ∨ before.loc ≤ j → after.text j = before.text j

theorem Holds.congr {text other : Int → Cell} {loc : Int} {cells : List Cell}
    (holds : Holds text loc cells) (same : ∀ j, loc ≤ j → j < loc + cells.length →
      other j = text j) : Holds other loc cells := by
  induction cells generalizing loc with
  | nil => trivial
  | cons c rest ih =>
      rw [List.length_cons] at same
      refine ⟨(same loc (Int.le_refl loc) (by omega)).trans holds.1,
        ih holds.2 fun j lower upper => ?_⟩
      exact same j (by omega) (by omega)

theorem Holds.append {text : Int → Cell} {loc : Int} {first second : List Cell} :
    Holds text loc (first ++ second) ↔
      Holds text loc first ∧ Holds text (loc + first.length) second := by
  induction first generalizing loc with
  | nil =>
      rw [List.nil_append, List.length_nil, Int.natCast_zero, Int.add_zero]
      exact (and_iff_right trivial).symm
  | cons c rest ih =>
      have position : loc + 1 + rest.length = loc + (rest.length + 1 : ℕ) := by omega
      rw [List.cons_append, List.length_cons, ← position]
      change text loc = c ∧ Holds text (loc + 1) (rest ++ second) ↔
        (text loc = c ∧ Holds text (loc + 1) rest) ∧ _
      rw [ih, and_assoc]

theorem wrote_put (buffer : Backwards Cell) (c : Cell) : Wrote buffer (buffer.put c) [c] := by
  refine ⟨Int.sub_add_cancel buffer.loc 1, ⟨Function.update_self _ _ _, trivial⟩,
    fun j outside => ?_⟩
  have different : j ≠ buffer.loc - 1 := by
    change j < buffer.loc - 1 ∨ buffer.loc ≤ j at outside
    omega
  exact Function.update_of_ne different _ _

theorem Wrote.trans {before middle after : Backwards Cell} {first second : List Cell}
    (early : Wrote before middle first) (late : Wrote middle after second) :
    Wrote before after (second ++ first) := by
  have later := late.loc
  have earlier := early.loc
  refine ⟨?_, Holds.append.mpr ⟨late.holds, ?_⟩, fun j outside => ?_⟩
  · rw [List.length_append]
    omega
  · rw [later]
    exact early.holds.congr fun j lower upper => late.kept j (.inr lower)
  · rw [late.kept j (by omega), early.kept j (by omega)]

theorem wrote_refl (buffer : Backwards Cell) : Wrote buffer buffer [] :=
  ⟨Int.add_zero buffer.loc, trivial, fun _ _ => rfl⟩

/-- The cells in front of a last one. -/
theorem Wrote.snoc {before after : Backwards Cell} {cells : List Cell} {last : Cell}
    (wrote : Wrote before after cells) (final : before.text before.loc = last) :
    Holds after.text after.loc (cells ++ [last]) := by
  rw [Holds.append, wrote.loc]
  refine ⟨wrote.holds, ?_, trivial⟩
  rw [wrote.kept _ (.inr (Int.le_refl _)), final]

theorem Holds.getElem {text : Int → Cell} {loc : Int} {cells : List Cell}
    (holds : Holds text loc cells) (k : ℕ) (inside : k < cells.length) :
    text (loc + k) = cells[k] := by
  induction cells generalizing loc k with
  | nil => exact absurd inside (Nat.not_lt_zero k)
  | cons c rest ih =>
      cases k with
      | zero =>
          rw [Int.natCast_zero, Int.add_zero]
          exact holds.1
      | succ k =>
          rw [show loc + (k + 1 : ℕ) = loc + 1 + k by omega]
          exact ih holds.2 k (Nat.lt_of_succ_lt_succ inside)

/-- **The loop writes the digits of the number in front.** -/
theorem writeDigits_spec {base : ℕ} (positive : 1 < base) (char : ℕ → Cell) (rounds n : ℕ)
    (enough : n < base ^ rounds) (buffer : Backwards Cell) :
    ∃ after, writeDigits base char (rounds + 1) n buffer = some after ∧
      Wrote buffer after ((Nat.digits base n).reverse.map char) := by
  induction rounds generalizing n buffer with
  | zero =>
      have zero : n = 0 := by
        rw [Nat.pow_zero] at enough
        omega
      refine ⟨buffer, if_pos zero, ?_⟩
      rw [zero, Nat.digits_zero]
      exact wrote_refl buffer
  | succ rounds ih =>
      unfold writeDigits
      by_cases zero : n = 0
      · refine ⟨buffer, if_pos zero, ?_⟩
        rw [zero, Nat.digits_zero]
        exact wrote_refl buffer
      · have smaller : n / base < base ^ rounds := by
          rw [Nat.div_lt_iff_lt_mul (by omega), ← Nat.pow_succ]
          exact enough
        obtain ⟨after, returned, wrote⟩ := ih (n / base) smaller (buffer.put (char (n % base)))
        rw [if_neg zero]
        refine ⟨after, returned, ?_⟩
        rw [Nat.digits_def' positive (Nat.pos_of_ne_zero zero), List.reverse_cons, List.map_append]
        exact (wrote_put buffer (char (n % base))).trans wrote

end Backwards
