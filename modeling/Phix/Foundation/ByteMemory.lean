import Mathlib.Data.BitVec
import Mathlib.Logic.Function.Basic

/-! # A flat little-endian byte memory

Memory is a function from 32-bit addresses to bytes; addresses wrap. A word is
four consecutive bytes, lowest first. `ByteMemory.write` stores a sequence of bytes
upwards from an address, one at a time as a copy or fill loop does;
`ByteMemory.write_apply` gives its closed form.
-/

/-- The bytes of a 32-bit address space. -/
abbrev ByteMemory := BitVec 32 → BitVec 8

namespace ByteMemory

def load16 (memory : ByteMemory) (a : BitVec 32) : BitVec 16 := memory (a + 1) ++ memory a

def load32 (memory : ByteMemory) (a : BitVec 32) : BitVec 32 :=
  memory (a + 3) ++ memory (a + 2) ++ memory (a + 1) ++ memory a

def store16 (memory : ByteMemory) (a : BitVec 32) (v : BitVec 16) : ByteMemory :=
  Function.update (Function.update memory a (v.extractLsb' 0 8)) (a + 1) (v.extractLsb' 8 8)

def store32 (memory : ByteMemory) (a v : BitVec 32) : ByteMemory :=
  Function.update (Function.update (Function.update (Function.update memory
    a (v.extractLsb' 0 8)) (a + 1) (v.extractLsb' 8 8)) (a + 2) (v.extractLsb' 16 8))
    (a + 3) (v.extractLsb' 24 8)

/-- Store `bytes 0`, ..., `bytes (n - 1)` upwards from `p`. -/
def write (memory : ByteMemory) (p : BitVec 32) (bytes : ℕ → BitVec 8) : ℕ → ByteMemory
  | 0 => memory
  | n + 1 => Function.update (write memory p bytes n) (p + BitVec.ofNat 32 n) (bytes n)

/-- Store the byte `c` at the `size` addresses from `p` upwards. -/
def memset (memory : ByteMemory) (p : BitVec 32) (c : BitVec 8) (size : ℕ) : ByteMemory :=
  memory.write p (fun _ => c) size

theorem write_apply (memory : ByteMemory) (p : BitVec 32) (bytes : ℕ → BitVec 8) {n : ℕ}
    (bound : n ≤ 2 ^ 32) (x : BitVec 32) :
    memory.write p bytes n x = if (x - p).toNat < n then bytes (x - p).toNat else memory x := by
  induction n with
  | zero => rfl
  | succ n ih =>
      unfold write
      have position : (BitVec.ofNat 32 n).toNat = n := by
        rw [BitVec.toNat_ofNat, Nat.mod_eq_of_lt (by omega)]
      by_cases here : x = p + BitVec.ofNat 32 n
      · have offset : (x - p).toNat = n := by
          rw [here, add_sub_cancel_left, position]
        rw [here, Function.update_self, ← here, offset, if_pos (Nat.lt_succ_self n)]
      · have offset : (x - p).toNat ≠ n := by
          intro equal
          refine here ?_
          rw [← equal, BitVec.ofNat_toNat, BitVec.setWidth_eq, BitVec.add_comm,
            BitVec.sub_add_cancel]
        rw [Function.update_of_ne here, ih (by omega)]
        by_cases below : (x - p).toNat < n
        · rw [if_pos below, if_pos (by omega)]
        · rw [if_neg below, if_neg (by omega)]

theorem write_congr (memory : ByteMemory) (p : BitVec 32) {first second : ℕ → BitVec 8} {n : ℕ}
    (same : ∀ i < n, first i = second i) : memory.write p first n = memory.write p second n := by
  induction n with
  | zero => rfl
  | succ n ih =>
      unfold write
      rw [ih fun i small => same i (small.trans (Nat.lt_succ_self n)), same n (Nat.lt_succ_self n)]

/-- A sequence is stored in two pieces, the second one behind the first. -/
theorem write_append (memory : ByteMemory) (p : BitVec 32) (bytes : ℕ → BitVec 8) (m n : ℕ) :
    (memory.write p bytes m).write (p + BitVec.ofNat 32 m) (fun i => bytes (m + i)) n =
      memory.write p bytes (m + n) := by
  induction n with
  | zero => rfl
  | succ n ih =>
      rw [← Nat.add_assoc]
      unfold write
      rw [ih, BitVec.add_assoc, ← BitVec.ofNat_add]

/-- The next two bytes of a sequence are stored as a halfword. -/
theorem write_store16 (memory : ByteMemory) (p : BitVec 32) (bytes : ℕ → BitVec 8) (n : ℕ) :
    (memory.write p bytes n).store16 (p + BitVec.ofNat 32 n) (bytes (n + 1) ++ bytes n) =
      memory.write p bytes (n + 2) := by
  unfold store16
  rw [BitVec.extractLsb'_append_eq_right, BitVec.extractLsb'_append_eq_left, BitVec.add_assoc]
  change _ = Function.update (Function.update _ _ _) (p + BitVec.ofNat 32 (n + 1)) _
  rw [BitVec.ofNat_add]
  rfl

theorem memset_apply (memory : ByteMemory) (p : BitVec 32) (c : BitVec 8) {size : ℕ}
    (bound : size ≤ 2 ^ 32) (x : BitVec 32) :
    memory.memset p c size x = if (x - p).toNat < size then c else memory x :=
  memory.write_apply p _ bound x

theorem load32_congr {first second : ByteMemory} {a : BitVec 32}
    (same : ∀ k : BitVec 32, k.toNat < 4 → first (a + k) = second (a + k)) :
    first.load32 a = second.load32 a := by
  have zero := same 0 (by decide)
  rw [add_zero] at zero
  unfold load32
  rw [zero, same 1 (by decide), same 2 (by decide), same 3 (by decide)]

theorem load16_congr {first second : ByteMemory} {a : BitVec 32}
    (same : ∀ k : BitVec 32, k.toNat < 2 → first (a + k) = second (a + k)) :
    first.load16 a = second.load16 a := by
  have zero := same 0 (by decide)
  rw [add_zero] at zero
  unfold load16
  rw [zero, same 1 (by decide)]

/-- A halfword store changes only the two bytes from its address. -/
theorem store16_apply_of_far (memory : ByteMemory) {a x : BitVec 32} (v : BitVec 16)
    (far : 2 ≤ (x - a).toNat) : memory.store16 a v x = memory x := by
  have apart : ∀ k : BitVec 32, k.toNat < 2 → x ≠ a + k := by
    rintro k small rfl
    rw [add_sub_cancel_left] at far
    omega
  have zero := apart 0 (by decide)
  rw [add_zero] at zero
  unfold store16
  rw [Function.update_of_ne (apart 1 (by decide)), Function.update_of_ne zero]

/-- A store changes only the four bytes from its address. -/
theorem store32_apply_of_far (memory : ByteMemory) {a x : BitVec 32} (v : BitVec 32)
    (far : 4 ≤ (x - a).toNat) : memory.store32 a v x = memory x := by
  have apart : ∀ k : BitVec 32, k.toNat < 4 → x ≠ a + k := by
    rintro k small rfl
    rw [add_sub_cancel_left] at far
    omega
  have zero := apart 0 (by decide)
  rw [add_zero] at zero
  unfold store32
  rw [Function.update_of_ne (apart 3 (by decide)), Function.update_of_ne (apart 2 (by decide)),
    Function.update_of_ne (apart 1 (by decide)), Function.update_of_ne zero]

theorem load16_store16_self (memory : ByteMemory) (a : BitVec 32) (v : BitVec 16) :
    (memory.store16 a v).load16 a = v := by
  have apart : a ≠ a + 1 := fun same => by
    have one : (1 : BitVec 32) = 0 := left_eq_add.mp same
    exact absurd one (by decide)
  have first : memory.store16 a v a = v.extractLsb' 0 8 := by
    unfold store16
    rw [Function.update_of_ne apart, Function.update_self]
  have second : memory.store16 a v (a + 1) = v.extractLsb' 8 8 := Function.update_self ..
  unfold load16
  rw [first, second, BitVec.extractLsb'_append_extractLsb'_eq_extractLsb' (by decide)]
  exact BitVec.extractLsb'_eq_self

theorem load32_store32_self (memory : ByteMemory) (a v : BitVec 32) :
    (memory.store32 a v).load32 a = v := by
  have apart : ∀ k l : BitVec 32, k ≠ l → a + k ≠ a + l :=
    fun k l different same => different (BitVec.add_right_inj a |>.mp same)
  have apartZero : ∀ k : BitVec 32, k ≠ 0 → a ≠ a + k := fun k nonzero same => by
    have cancel := apart 0 k (Ne.symm nonzero)
    rw [add_zero] at cancel
    exact cancel same
  have first : memory.store32 a v a = v.extractLsb' 0 8 := by
    unfold store32
    rw [Function.update_of_ne (apartZero 3 (by decide)),
      Function.update_of_ne (apartZero 2 (by decide)),
      Function.update_of_ne (apartZero 1 (by decide)), Function.update_self]
  have second : memory.store32 a v (a + 1) = v.extractLsb' 8 8 := by
    unfold store32
    rw [Function.update_of_ne (apart 1 3 (by decide)),
      Function.update_of_ne (apart 1 2 (by decide)), Function.update_self]
  have third : memory.store32 a v (a + 2) = v.extractLsb' 16 8 := by
    unfold store32
    rw [Function.update_of_ne (apart 2 3 (by decide)), Function.update_self]
  have fourth : memory.store32 a v (a + 3) = v.extractLsb' 24 8 := Function.update_self ..
  unfold load32
  rw [first, second, third, fourth]
  ext i inside
  simp only [BitVec.getElem_append, BitVec.getElem_extractLsb']
  split
  · simp [BitVec.getLsbD_eq_getElem inside]
  · split
    · rw [← BitVec.getLsbD_eq_getElem inside]
      congr 1
      omega
    · split
      · rw [← BitVec.getLsbD_eq_getElem inside]
        congr 1
        omega
      · rw [← BitVec.getLsbD_eq_getElem inside]
        congr 1
        omega

/-- A word is unchanged by a store that shares no byte with it. -/
theorem load32_store32_of_far (memory : ByteMemory) {a b : BitVec 32} (v : BitVec 32)
    (above : 4 ≤ (b - a).toNat) (below : 4 ≤ (a - b).toNat) :
    (memory.store32 a v).load32 b = memory.load32 b := by
  refine load32_congr fun k small => memory.store32_apply_of_far v ?_
  rw [BitVec.toNat_sub] at above below ⊢
  rw [BitVec.toNat_add]
  have := a.isLt
  have := b.isLt
  omega

theorem append_inj {v w : ℕ} {high high' : BitVec v} {low low' : BitVec w}
    (same : high ++ low = high' ++ low') : high = high' ∧ low = low' := by
  have left := congrArg (BitVec.extractLsb' w v) same
  have right := congrArg (BitVec.extractLsb' 0 w) same
  rw [BitVec.extractLsb'_append_eq_left, BitVec.extractLsb'_append_eq_left] at left
  rw [BitVec.extractLsb'_append_eq_right, BitVec.extractLsb'_append_eq_right] at right
  exact ⟨left, right⟩

/-- Words that are equal consist of equal bytes. -/
theorem eq_of_load32_eq {first second : ByteMemory} {a : BitVec 32}
    (same : first.load32 a = second.load32 a) {k : BitVec 32} (small : k.toNat < 4) :
    first (a + k) = second (a + k) := by
  obtain ⟨upper, zero⟩ := append_inj same
  obtain ⟨upper, one⟩ := append_inj upper
  obtain ⟨three, two⟩ := append_inj upper
  have cases : k = 0 ∨ k = 1 ∨ k = 2 ∨ k = 3 := by
    rw [← BitVec.toNat_inj, ← BitVec.toNat_inj, ← BitVec.toNat_inj, ← BitVec.toNat_inj]
    change k.toNat = 0 ∨ k.toNat = 1 ∨ k.toNat = 2 ∨ k.toNat = 3
    omega
  obtain rfl | rfl | rfl | rfl := cases
  · rw [add_zero]
    exact zero
  · exact one
  · exact two
  · exact three

/-- Storing back what a word was restores it. -/
theorem store32_load32 {memory other : ByteMemory} {a x : BitVec 32}
    (same : 4 ≤ (x - a).toNat → other x = memory x) :
    other.store32 a (memory.load32 a) x = memory x := by
  by_cases far : 4 ≤ (x - a).toNat
  · rw [other.store32_apply_of_far _ far]
    exact same far
  · have equal := eq_of_load32_eq (other.load32_store32_self a (memory.load32 a)) (not_le.mp far)
    rwa [BitVec.add_comm, BitVec.sub_add_cancel] at equal

end ByteMemory
