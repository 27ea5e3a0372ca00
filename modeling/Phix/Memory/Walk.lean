import Phix.Memory.Neutral

/-! # The page walk of the processor

With paging switched to a directory the processor finds the byte of a virtual address through the
directory and a page table, and faults where an entry of either is not present. Through a chunk
whose page tables are present the walk is the lookup of the chunk's address space
(`Phix.walk_eq`); the page tables of a new chunk are present if its pages are
(`Phix.Machine.HeapSound.pagingNewChunk_present`).
-/

namespace Phix

/-- The byte of an address under a directory, or a page fault. -/
def walk (directory : Word) (memory : ByteMemory) (v : Word) : Option Word :=
  let entry := memory.load32 (directory + 4 * (v / (pagingTotalEntriesPerTable * pagingPageSize)))
  if entry &&& 1 = 0 ∨ pagingGetFlags memory directory v &&& 1 = 0 then none
  else some (pagingGetPaddr memory directory v)

/-- With paging as after `kernel_page`, every byte is found at its own address. -/
def physical (_ : ByteMemory) (v : Word) : Option Word := some v

variable {directory : PageDirectory} {memory other : ByteMemory}

/-- The walk finds what the address space says. -/
theorem walk_eq (wired : directory.Wired memory) (present : directory.Present memory) (v : Word) :
    walk directory.base memory v =
      if (directory.space memory).flags v &&& 1 = 0 then none
      else some ((directory.space memory).translate v) := by
  have index : v / (pagingTotalEntriesPerTable * pagingPageSize) =
      BitVec.ofNat 32 (v.toNat / 2 ^ 22) := by
    apply BitVec.eq_of_toNat_eq
    rw [BitVec.toNat_udiv]
    change v.toNat / 4194304 = _
    rw [BitVec.toNat_ofNat]
    have := v.isLt
    omega
  have entry := present _ (PageDirectory.index_lt v)
  unfold PageDirectory.pointer at entry
  rw [BitVec.ofNat_mul] at entry
  unfold walk
  rw [index, pagingGetFlags_eq wired, pagingGetPaddr_eq wired]
  dsimp only
  by_cases absent : (directory.space memory).flags v &&& 1 = 0
  · rw [if_pos (.inr absent), if_pos absent]
  · rw [if_neg fun either => either.elim entry absent, if_neg absent]

/-- The bit that marks an entry as present. -/
theorem and_one_ne_zero_iff {w : ℕ} (x : BitVec (w + 1)) :
    x &&& 1 ≠ 0 ↔ x.getLsbD 0 = true := by
  have one : (1 : BitVec (w + 1)).toNat = 1 := by
    change 1 % 2 ^ (w + 1) = 1
    exact Nat.mod_eq_of_lt (Nat.one_lt_two_pow (Nat.succ_ne_zero w))
  have zero : (0 : BitVec (w + 1)).toNat = 0 := by simp
  rw [Ne, ← BitVec.toNat_inj, BitVec.toNat_and, one, zero, Nat.and_one_is_mod, BitVec.getLsbD,
    Nat.testBit_zero, decide_eq_true_iff]
  omega

theorem pointerWord_present (entry : Word) {flags : Byte} (present : flags &&& 1 ≠ 0) :
    pointerWord entry flags &&& 1 ≠ 0 := by
  rw [and_one_ne_zero_iff] at present ⊢
  unfold pointerWord flagWord
  rw [BitVec.getLsbD_or, BitVec.getLsbD_or, BitVec.getLsbD_setWidth, present]
  simp

/-- The page tables of a new chunk. -/
theorem Machine.HeapSound.pagingNewChunk_present {machine next : Machine}
    (sound : machine.HeapSound) {flags : Byte} (present : flags &&& 1 ≠ 0) {chunk : Word}
    (made : machine.pagingNewChunk flags = some (chunk, next)) :
    ∃ directory, machine.NewChunk flags chunk directory next ∧
      directory.Present next.memory := by
  obtain ⟨middle, offset, found, tables, foundChunk, rfl, rfl⟩ := Machine.pagingNewChunk_cases made
  have cleared := sound.kzalloc .directory tableSize_proper found
  obtain ⟨_, table, building⟩ := (cleared.building flags).newTables le_rfl tables
  have last := building.grown.sound.kzalloc (.chunk _) (show Proper 4 by decide) foundChunk
  refine ⟨_, building.finish last, fun i inside => ?_⟩
  have base := last.grown.kept _ _ building.held
  have apart := last.sound.pageNumber_ne base last.held (by simp)
  have pointer : ByteMemory.load32 _ _ = pointerWord (table i) flags :=
    building.pointers i inside
  refine (congrArg (· &&& 1) ?_).trans_ne (pointerWord_present (table i) present)
  rw [← pointer]
  refine ByteMemory.load32_congr fun k small => ?_
  have place := PageDirectory.pageNumber_word (k := k) (last.sound.aligned base) inside small
  refine (ByteMemory.store32_apply_of_far _ _ ?_).trans (last.grown.agree building.held ?_)
  · by_contra near
    have atChunk := (AddressSpace.offset_lt_iff (last.sound.aligned last.held) _).mp
      ((not_le.mp near).trans (by decide))
    exact apart (place.symm.trans atChunk)
  · exact (AddressSpace.offset_lt_iff (last.sound.aligned base) _).mpr place

end Phix
