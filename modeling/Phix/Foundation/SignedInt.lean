import Mathlib.Algebra.Group.Int.Defs
import Mathlib.Algebra.Group.Nat.Defs
import Mathlib.Data.Int.Basic
import Mathlib.Tactic.Common

/-! # Signed 32-bit integers

A signed 32-bit value is an integer in `[-2 ^ 31, 2 ^ 31)`. `int32` brings the exact value of
an expression into this range by two's complement; a value in the range is itself.
-/

/-- The signed 32-bit value of an integer expression. -/
def int32 (x : Int) : Int := x.bmod (2 ^ 32)

theorem int32_eq_self {x : Int} (low : -2 ^ 31 ≤ x) (high : x < 2 ^ 31) : int32 x = x := by
  unfold int32
  rw [Int.bmod_eq_of_le] <;> omega

/-- A sum may be brought into the range in steps. -/
theorem int32_add (x y : Int) : int32 (int32 x + y) = int32 (x + y) := Int.bmod_add_bmod

theorem int32_int32 (x : Int) : int32 (int32 x) = int32 x := Int.bmod_bmod

theorem int32_lt (x : Int) : int32 x < 2 ^ 31 := Int.bmod_lt (by decide)

/-- Two expressions have one value when they differ by a multiple of `2 ^ 32`. -/
theorem int32_eq_int32_iff {x y : Int} : int32 x = int32 y ↔ 2 ^ 32 ∣ x - y := by
  unfold int32
  rw [Int.bmod_eq_bmod_iff_bmod_sub_eq_zero, ← Int.dvd_iff_bmod_eq_zero]
  rfl

/-- A multiple of a power of two stays one. -/
theorem dvd_int32 {d x : Int} (power : d ∣ 2 ^ 32) (divides : d ∣ x) : d ∣ int32 x := by
  have same : int32 x % 2 ^ 32 = x % 2 ^ 32 := Int.bmod_emod
  rw [Int.dvd_iff_emod_eq_zero, ← Int.emod_emod_of_dvd _ power, same, Int.emod_emod_of_dvd _ power]
  exact Int.emod_eq_zero_of_dvd divides

/-- The integer is a signed 32-bit value. -/
def IsInt32 (x : Int) : Prop := -2 ^ 31 ≤ x ∧ x < 2 ^ 31

theorem IsInt32.int32_eq {x : Int} (value : IsInt32 x) : int32 x = x :=
  int32_eq_self value.1 value.2

theorem isInt32_int32 (x : Int) : IsInt32 (int32 x) := by
  refine ⟨?_, int32_lt x⟩
  have low : -(((2 ^ 32 : ℕ) : Int) / 2) ≤ x.bmod (2 ^ 32) := Int.le_bmod (by decide)
  unfold int32
  omega
