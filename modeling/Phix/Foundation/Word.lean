import Mathlib.Data.BitVec

/-! # Aligned machine words

Bit masks on machine words read as division and remainder by a power of two.
Clearing the low `k` bits rounds a word down to a multiple of `2 ^ k`
(`MachineWord.and_high_toNat`), keeping only them takes the remainder
(`MachineWord.and_low_toNat`), and a word below `2 ^ k` is packed into the clear
low bits of an aligned one without a carry (`MachineWord.or_toNat_of_aligned`),
so that both parts are read back.
-/

namespace MachineWord

variable {w : Nat}

theorem and_high_eq_shift (x : BitVec w) (k : Nat) :
    x &&& (BitVec.allOnes w <<< k) = (x >>> k) <<< k := by
  ext i inside
  simp only [BitVec.getElem_and, BitVec.getElem_shiftLeft, BitVec.getElem_allOnes]
  grind

/-- Clearing the low `k` bits rounds down to a multiple of `2 ^ k`. -/
theorem and_high_toNat (x : BitVec w) (k : Nat) :
    (x &&& (BitVec.allOnes w <<< k)).toNat = x.toNat / 2 ^ k * 2 ^ k := by
  rw [and_high_eq_shift, BitVec.toNat_shiftLeft, BitVec.toNat_ushiftRight,
    Nat.shiftRight_eq_div_pow, Nat.shiftLeft_eq]
  exact Nat.mod_eq_of_lt (lt_of_le_of_lt (Nat.div_mul_le_self _ _) x.isLt)

/-- Keeping only the low `k` bits takes the remainder by `2 ^ k`. -/
theorem and_low_toNat (x : BitVec w) (k : Nat) (bound : 2 ^ k - 1 < 2 ^ w) :
    (x &&& BitVec.ofNat w (2 ^ k - 1)).toNat = x.toNat % 2 ^ k := by
  rw [BitVec.toNat_and, BitVec.toNat_ofNat, Nat.mod_eq_of_lt bound,
    Nat.and_two_pow_sub_one_eq_mod]

/-- Packing a word below `2 ^ k` into an aligned word adds it. -/
theorem or_toNat_of_aligned (x y : BitVec w) (k : Nat) (aligned : 2 ^ k ∣ x.toNat)
    (low : y.toNat < 2 ^ k) : (x ||| y).toNat = x.toNat + y.toNat := by
  obtain ⟨q, factored⟩ := aligned
  rw [BitVec.toNat_or, factored, Nat.two_pow_add_eq_or_of_lt low]

/-- The aligned part of a packed word. -/
theorem or_and_high_of_aligned (x y : BitVec w) (k : Nat) (aligned : 2 ^ k ∣ x.toNat)
    (low : y.toNat < 2 ^ k) : (x ||| y) &&& (BitVec.allOnes w <<< k) = x := by
  apply BitVec.eq_of_toNat_eq
  rw [and_high_toNat, or_toNat_of_aligned x y k aligned low]
  obtain ⟨q, factored⟩ := aligned
  have positive : 0 < 2 ^ k := Nat.two_pow_pos k
  rw [factored, Nat.mul_add_div positive, Nat.div_eq_of_lt low, Nat.add_zero, Nat.mul_comm]

/-- The low part of a packed word. -/
theorem or_and_low_of_aligned (x y : BitVec w) (k : Nat) (bound : 2 ^ k - 1 < 2 ^ w)
    (aligned : 2 ^ k ∣ x.toNat) (low : y.toNat < 2 ^ k) :
    (x ||| y) &&& BitVec.ofNat w (2 ^ k - 1) = y := by
  apply BitVec.eq_of_toNat_eq
  rw [and_low_toNat _ _ bound, or_toNat_of_aligned x y k aligned low]
  obtain ⟨q, factored⟩ := aligned
  rw [factored, Nat.mul_add_mod, Nat.mod_eq_of_lt low]

/-- Truncated signed division of a nonnegative word is unsigned division. -/
theorem sdiv_toNat_of_msb_false (x y : BitVec w) (left : x.msb = false) (right : y.msb = false) :
    (x.sdiv y).toNat = x.toNat / y.toNat := by
  rw [BitVec.sdiv_eq, left, right]
  exact BitVec.toNat_udiv

/-- Truncated signed division of a negative word by a positive one negates the
quotient of the magnitudes. -/
theorem sdiv_toNat_of_msb_true (x y : BitVec w) (left : x.msb = true) (right : y.msb = false) :
    (x.sdiv y).toNat = (2 ^ w - (2 ^ w - x.toNat) / y.toNat) % 2 ^ w := by
  have positive : 0 < x.toNat := by
    rcases Nat.eq_zero_or_pos x.toNat with zero | positive
    · rw [BitVec.eq_of_toNat_eq (x := x) (y := 0#w) (by simpa using zero), BitVec.msb_zero] at left
      cases left
    · exact positive
  rw [BitVec.sdiv_eq, left, right]
  change (-(-x / y)).toNat = _
  rw [BitVec.toNat_neg, BitVec.toNat_udiv, BitVec.toNat_neg,
    Nat.mod_eq_of_lt (Nat.sub_lt (Nat.two_pow_pos w) positive)]

end MachineWord
