import Phix.Interrupts.System

/-! # What a program stores

A program that can write only to what has been allocated for it changes, whatever it stores, neither
the heap nor an address space (`Phix.Machine.Confined.store`).
-/

namespace Phix

open AddressSpace

/-- A write of the user goes where the address space says, through a page that is exposed. -/
theorem userWalk_eq_some {directory : PageDirectory} {memory : ByteMemory}
    (wired : directory.Wired memory) {v x : Word}
    (walked : userWalk directory.base memory v = some x) :
    Exposed (directory.space memory v) ∧ x = frameOf (directory.space memory v) + v % 4096 := by
  unfold userWalk at walked
  rw [pagingGetFlags_eq wired, pagingGetPaddr_eq wired] at walked
  dsimp only at walked
  split at walked
  · rename_i exposed
    cases walked
    refine ⟨?_, rfl⟩
    have flags := exposed.2
    unfold Exposed AddressSpace.flags at flags
    rw [BitVec.and_assoc] at flags
    exact flags
  · cases walked

namespace Machine

/-- The bytes of an allocation are in the pool. -/
theorem HeapSound.pool_le {machine : Machine} (sound : machine.HeapSound) {p x : Word}
    {allocation : Allocation} (held : machine.live p = some allocation)
    (inside : InBlocks p x allocation) : 0x01000000 ≤ x.toNat := by
  obtain ⟨_, low, high, _⟩ := Kernel.allocationEnd (sound.proper held) (sound.pool held)
  have count := blockCount_le (sound.proper held).2
  have small := x.isLt
  unfold InBlocks at inside
  rw [BitVec.toNat_sub] at inside
  omega

/-- The offset in a page stays in the blocks of the page. -/
theorem InBlocks.offset {machine : Machine} (sound : machine.HeapSound) {p frame : Word}
    {allocation : Allocation} (held : machine.live p = some allocation)
    (inside : InBlocks p frame allocation) (aligned : frame.toNat % 4096 = 0) (v : Word) :
    InBlocks p (frame + v % 4096) allocation := by
  have start := sound.aligned held
  have small := frame.isLt
  have place := p.isLt
  have offset : (v % 4096).toNat = v.toNat % 4096 := BitVec.toNat_umod
  unfold InBlocks at inside ⊢
  rw [BitVec.toNat_sub] at inside ⊢
  rw [BitVec.toNat_add, offset]
  omega

/-- A byte in what has been allocated for a program is in no page table and not in the block
table. -/
theorem PagingSound.programWrite {machine : Machine} (paging : machine.PagingSound)
    {process p x : Word} {allocation : Allocation} (held : machine.live p = some allocation)
    (program : allocation.owner.program = some process) (inside : InBlocks p x allocation)
    (value : Byte) :
    machine.SamePaging { machine with memory := Function.update machine.memory x value } := by
  have chunks : ∀ {chunk directory}, machine.HasChunk chunk directory →
      ({ machine with memory := Function.update machine.memory x value } : Machine).HasChunk chunk
        directory ∧ directory.space (Function.update machine.memory x value) =
          directory.space machine.memory := by
    intro chunk directory has
    refine has.congr paging.sound fun q other heldOther part => ⟨heldOther, fun y within => ?_⟩
    refine Function.update_of_ne ?_ ..
    rintro rfl
    have different : p ≠ q := by
      rintro rfl
      have paging : allocation.owner.IsPaging := by
        rcases part with rfl | rfl | ⟨i, small, rfl⟩
        · cases held.symm.trans has.held
          trivial
        · cases held.symm.trans has.base
          trivial
        · cases held.symm.trans (has.tables i small)
          trivial
      exact (Owner.program_plain program).2 paging
    refine paging.sound.blocks_disjoint different held heldOther inside (within.trans_le ?_) rfl
    unfold blockCount
    omega
  refine ⟨⟨HeapInv.congr paging.sound rfl rfl fun i inTable => ?_, fun chunk base isChunk => ?_,
    paging.unique⟩, rfl, chunks⟩
  · have table : i < 25600 := inTable
    refine Function.update_of_ne (fun same => ?_) ..
    have low := paging.sound.pool_le held inside
    rw [← same] at low
    have address := entryAddress_toNat table
    change 0x01000000 ≤ (entryAddress i).toNat at low
    omega
  · obtain ⟨table, has⟩ := paging.chunks chunk base isChunk
    exact ⟨table, (chunks has).1⟩

/-- **A confined program changes neither the heap nor an address space.** -/
theorem Confined.store {machine : Machine} (paging : machine.PagingSound) {process chunk : Word}
    (confined : machine.Confined process chunk) {directory : PageDirectory}
    (has : machine.HasChunk chunk directory) {v x : Word} (value : Byte)
    (walked : userWalk directory.base machine.memory v = some x) :
    machine.SamePaging { machine with memory := Function.update machine.memory x value } := by
  obtain ⟨exposed, rfl⟩ := userWalk_eq_some (has.chunkAt paging.sound).wired walked
  obtain ⟨_, other, hasOther, backed⟩ := confined
  rw [hasOther.space_eq has] at backed
  obtain ⟨p, allocation, held, inside, program, _⟩ := backed v exposed
  have aligned : (frameOf (directory.space machine.memory v)).toNat % 4096 = 0 := by
    unfold frameOf
    rw [AddressSpace.high_toNat]
    omega
  exact paging.programWrite held program (inside.offset paging.sound held aligned v) value

end Machine

end Phix
