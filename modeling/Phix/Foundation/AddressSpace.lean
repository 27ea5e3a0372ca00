import Phix.Foundation.PageDirectory

/-! # Address spaces

An address space gives every virtual address the entry of its page: the number of a
frame in the high 20 bits and flags in the low 12. `AddressSpace.map` maps a run of
pages onto a run of frames; `AddressSpace.map_succ` maps the first page and then the
others, as a loop does. The addresses of a mapped run are translated by the offset
between the two runs (`AddressSpace.translate_map`).
-/

/-- The entry of the page of each virtual address. -/
abbrev AddressSpace := BitVec 32 → BitVec 32

/-- The address space that a directory holds in memory. -/
def PageDirectory.space (directory : PageDirectory) (memory : ByteMemory) : AddressSpace :=
  directory.entry memory

namespace AddressSpace

variable (space : AddressSpace)

/-- Every page is mapped to itself. -/
def identity (flags : BitVec 32) : AddressSpace := fun u => (u &&& 0xfffff000) ||| flags

/-- One page gets a new entry. -/
def set (v value : BitVec 32) : AddressSpace :=
  fun u => if pageNumber u = pageNumber v then value else space u

/-- Map the `n` pages from `v` onto the frames from `p`. -/
def map (v p flags : BitVec 32) (n : ℕ) : AddressSpace := fun u =>
  if (u - v).toNat < 4096 * n then
    (p + BitVec.ofNat 32 ((u - v).toNat / 4096 * 4096)) ||| flags
  else space u

/-- The physical address of a virtual one. -/
def translate (u : BitVec 32) : BitVec 32 := (space u &&& 0xfffff000) + u % 4096

/-- The flags of the page of an address. -/
def flags (u : BitVec 32) : BitVec 32 := space u &&& 0xfff

theorem high_eq : (0xfffff000 : BitVec 32) = BitVec.allOnes 32 <<< 12 := by decide

theorem low_eq : (0xfff : BitVec 32) = BitVec.ofNat 32 (2 ^ 12 - 1) := by decide

/-- The upper bits are the address rounded down to a page. -/
theorem high_toNat (x : BitVec 32) : (x &&& 0xfffff000).toNat = x.toNat / 4096 * 4096 := by
  rw [high_eq, MachineWord.and_high_toNat]
  rfl

/-- The frame of a packed entry. -/
theorem or_high {x flags : BitVec 32} (aligned : x.toNat % 4096 = 0) (low : flags.toNat < 4096) :
    (x ||| flags) &&& 0xfffff000 = x := by
  rw [high_eq]
  exact MachineWord.or_and_high_of_aligned x flags 12 (Nat.dvd_of_mod_eq_zero aligned) low

/-- The flags of a packed entry. -/
theorem or_low {x flags : BitVec 32} (aligned : x.toNat % 4096 = 0) (low : flags.toNat < 4096) :
    (x ||| flags) &&& 0xfff = flags := by
  rw [low_eq]
  exact MachineWord.or_and_low_of_aligned x flags 12 (by decide) (Nat.dvd_of_mod_eq_zero aligned)
    low

@[simp] theorem map_zero (v p flags : BitVec 32) : space.map v p flags 0 = space := by
  funext u
  simp [map]

/-- The addresses of an aligned page. -/
theorem offset_lt_iff {v : BitVec 32} (aligned : v.toNat % 4096 = 0) (u : BitVec 32) :
    (u - v).toNat < 4096 ↔ pageNumber u = pageNumber v := by
  have left := u.isLt
  have right := v.isLt
  unfold pageNumber
  rw [BitVec.toNat_sub]
  omega

/-- Mapping a run maps its first page and then the others. -/
theorem map_succ {v : BitVec 32} (p flags : BitVec 32) (aligned : v.toNat % 4096 = 0) {n : ℕ}
    (bound : n < 2 ^ 20) :
    (space.set v (p ||| flags)).map (v + 4096) (p + 4096) flags n =
      space.map v p flags (n + 1) := by
  funext u
  have first := offset_lt_iff aligned u
  have shifted : (u - (v + 4096)).toNat = ((u - v).toNat + (2 ^ 32 - 4096)) % 2 ^ 32 := by
    rw [← sub_sub, BitVec.toNat_sub]
    change (2 ^ 32 - 4096 + (u - v).toNat) % 2 ^ 32 = _
    rw [Nat.add_comm]
  have size := (u - v).isLt
  unfold map set
  rw [shifted]
  by_cases onFirst : pageNumber u = pageNumber v
  · have near := first.mpr onFirst
    have quotient : (u - v).toNat / 4096 * 4096 = 0 := by omega
    rw [if_neg (by omega), if_pos onFirst, if_pos (by omega), quotient, BitVec.add_zero]
  · have far := mt first.mp onFirst
    have quotient : 4096 + ((u - v).toNat + (2 ^ 32 - 4096)) % 2 ^ 32 / 4096 * 4096 =
        (u - v).toNat / 4096 * 4096 := by omega
    have address : p + 4096 +
        BitVec.ofNat 32 (((u - v).toNat + (2 ^ 32 - 4096)) % 2 ^ 32 / 4096 * 4096) =
        p + BitVec.ofNat 32 ((u - v).toNat / 4096 * 4096) := by
      rw [← quotient, BitVec.ofNat_add, ← BitVec.add_assoc]
      rfl
    rw [if_neg onFirst, address]
    by_cases inside : (u - v).toNat < 4096 * (n + 1)
    · rw [if_pos (by omega), if_pos inside]
    · rw [if_neg (by omega), if_neg inside]

/-- Outside the range nothing changes. -/
theorem map_of_notMem {v p flags : BitVec 32} {n : ℕ} {u : BitVec 32}
    (outside : ¬ (u - v).toNat < 4096 * n) : space.map v p flags n u = space u := if_neg outside

section Mapped

variable {v p flags u : BitVec 32} {n : ℕ} (inside : (u - v).toNat < 4096 * n)
  (aligned : v.toNat % 4096 = 0) (frame : p.toNat % 4096 = 0) (low : flags.toNat < 4096)

include inside frame low

/-- In the range the frames follow each other. -/
theorem map_high : space.map v p flags n u &&& 0xfffff000 =
    p + BitVec.ofNat 32 ((u - v).toNat / 4096 * 4096) := by
  unfold map
  rw [if_pos inside, or_high _ low]
  rw [BitVec.toNat_add, BitVec.toNat_ofNat]
  omega

/-- In the range the flags are the new ones. -/
theorem flags_map : (space.map v p flags n).flags u = flags := by
  unfold AddressSpace.flags map
  rw [if_pos inside, or_low _ low]
  rw [BitVec.toNat_add, BitVec.toNat_ofNat]
  omega

include aligned

/-- A mapped run is translated by the offset between its pages and its frames. -/
theorem translate_map : (space.map v p flags n).translate u = p + (u - v) := by
  have difference : (u - v).toNat % 4096 = u.toNat % 4096 := by
    rw [BitVec.toNat_sub]
    omega
  unfold translate
  rw [map_high space inside frame low, BitVec.add_assoc]
  congr 1
  apply BitVec.eq_of_toNat_eq
  rw [BitVec.toNat_add, BitVec.toNat_ofNat, BitVec.toNat_umod]
  change (_ + u.toNat % 4096) % 2 ^ 32 = _
  have := (u - v).isLt
  omega

end Mapped

/-- The identity translates every address to itself. -/
theorem translate_identity {flags : BitVec 32} (low : flags.toNat < 4096) (u : BitVec 32) :
    (identity flags).translate u = u := by
  have high := high_toNat u
  unfold translate identity
  rw [or_high (by rw [high]; omega) low]
  apply BitVec.eq_of_toNat_eq
  rw [BitVec.toNat_add, high, BitVec.toNat_umod]
  change (_ + u.toNat % 4096) % 2 ^ 32 = _
  have := u.isLt
  omega

/-- The identity has the same flags everywhere. -/
theorem flags_identity {flags : BitVec 32} (low : flags.toNat < 4096) (u : BitVec 32) :
    (identity flags).flags u = flags := by
  have high := high_toNat u
  unfold AddressSpace.flags identity
  rw [or_low (by rw [high]; omega) low]

end AddressSpace
