import Phix.Task.Malloc
import Phix.Task.NewTask

/-! # What freeing an allocation unmaps

`process_free` clears the pages of an allocation with `paging_map_to`, whose length is
the difference of its two physical bounds; with 0 as the lower bound this is the end of the
allocation, not its size. The pages from `p` on that are remapped therefore reach up to
`p + PAGE_ALIGN(p + size)`, and the frame of the call is right exactly where these pages
already have the entries it writes (`Phix.Kernel.process_free_frame_iff`).
-/

namespace Phix

namespace Kernel

/-- The first slot of the process's table that records an allocation of `size` bytes at
`p`, which is live. -/
structure Recorded (kernel : Kernel) (process : Word) (slot : ℕ) (p size : Word) : Prop where
  inside : slot < phixMaxProgramAllocations
  recorded : (kernel.processAt process).allocations slot = ⟨size, p⟩
  first : ∀ k < slot, ((kernel.processAt process).allocations k).p ≠ p
  held : kernel.machine.live p = some ⟨size, .user process⟩

/-- A call with a pointer that no slot records. -/
theorem processFree_unknown {kernel : Kernel} {process p : Word}
    (search : findAllocation (kernel.processAt process) p phixMaxProgramAllocations 0 = none) :
    kernel.processFree process p = kernel := by
  unfold processFree
  rw [search]

/-- A call with a pointer that a slot records. -/
theorem processFree_found {kernel : Kernel} {process p : Word} {slot : ℕ}
    (search : findAllocation (kernel.processAt process) p phixMaxProgramAllocations 0 = some slot) :
    kernel.processFree process p = (((kernel.mapTo process p 0
      (pageAlign (p + ((kernel.processAt process).allocations slot).size)) 0).2).setProcess process
      { kernel.processAt process with
        allocations := Function.update (kernel.processAt process).allocations slot
          ⟨0, null⟩ }).kfree p := by
  unfold processFree
  rw [search]
  rfl

section Free

variable {kernel : Kernel} {process p size : Word} {slot : ℕ}
  (recorded : kernel.Recorded process slot p size)

include recorded

theorem Recorded.processFree_eq : kernel.processFree process p =
    (((kernel.mapTo process p 0 (pageAlign (p + size)) 0).2).setProcess process
      { kernel.processAt process with
        allocations := Function.update (kernel.processAt process).allocations slot
          ⟨0, null⟩ }).kfree
      p := by
  have found : findAllocation (kernel.processAt process) p phixMaxProgramAllocations 0 =
      some slot := by
    rw [findAllocation_eq_some]
    refine ⟨Nat.zero_le _, by rw [Nat.zero_add]; exact recorded.inside, ?_, fun k _ before =>
      recorded.first k before⟩
    rw [recorded.recorded]
  rw [processFree_found found, recorded.recorded]

variable {directory : PageDirectory} (paging : kernel.machine.PagingSound)
  (has : kernel.machine.HasChunk (kernel.chunkOf process) directory)

include paging

/-- The end of a recorded allocation, in pages. -/
theorem Recorded.bounds : p.toNat % 4096 = 0 ∧ 0x01000000 ≤ p.toNat ∧ p.toNat < 0x07400000 ∧
    (pageAlign (p + size)).toNat = (p.toNat + size.toNat + 4095) / 4096 * 4096 := by
  obtain ⟨s, bounded, pointer, _⟩ := paging.sound.pointer recorded.held
  exact allocationEnd (paging.sound.sized _ _ (Machine.sizes_of_live recorded.held))
    ⟨s, bounded, pointer⟩

include has

/-- `process_free` maps as many pages from `p` on as there are below the end of the
allocation. -/
theorem Recorded.processFree_space :
    (kernel.processFree process p).chunkOf process = kernel.chunkOf process ∧
    (kernel.processFree process p).machine.PagingSound ∧
    (kernel.processFree process p).machine.HasChunk (kernel.chunkOf process) directory ∧
    directory.space (kernel.processFree process p).machine.memory =
      (directory.space kernel.machine.memory).map p 0 0
        ((pageAlign (p + size)).toNat / 4096) := by
  obtain ⟨aligned, low, high, stop⟩ := recorded.bounds paging
  have accepts : MapToAccepts p 0 (pageAlign (p + size)) :=
    ⟨aligned, rfl, by omega, BitVec.le_def.mpr (Nat.zero_le _)⟩
  obtain ⟨_, update⟩ := mapTo_update kernel process paging has accepts 0
  have pages : mapToPages 0 (pageAlign (p + size)) = (pageAlign (p + size)).toNat / 4096 := by
    unfold mapToPages
    rw [sub_zero]
  have mapped := paging.write has update
  have present := Machine.PagingSound.write_self has update
  have held : (kernel.mapTo process p 0 (pageAlign (p + size)) 0).2.machine.live p =
      some ⟨size, .user process⟩ := recorded.held
  obtain ⟨kept, same⟩ := mapped.kfree_hasChunk held id present
  rw [recorded.processFree_eq]
  refine ⟨?_, mapped.kfree held id, kept, ?_⟩
  · unfold chunkOf kfree setProcess
    simp only [Function.update_self]
    rfl
  · exact same.trans (update.mapped.trans (by rw [pages]; rfl))

end Free

/-- The entry of a page in the directory of the process's task. -/
def pageEntry (kernel : Kernel) (process vaddr : Word) : Except Int Word :=
  pagingGet kernel.machine.memory (kernel.directoryOf process) vaddr

/-- `process_free` changes no entry of a page outside the allocation. -/
def FreesOnly (kernel : Kernel) (process p size : Word) : Prop :=
  ∀ v : Word, ¬ (p ≤ v ∧ v < pageAlign (p + size)) →
    (kernel.processFree process p).pageEntry process v = kernel.pageEntry process v

/-- The `p / 4096` pages that follow the allocation have the entries that `process_free`
writes to them: not present, and without flags. -/
def FollowingCleared (kernel : Kernel) (process p size : Word) : Prop :=
  ∀ v : Word, v.toNat % 4096 = 0 → pageAlign (p + size) ≤ v →
    v.toNat < p.toNat + (pageAlign (p + size)).toNat → kernel.pageEntry process v = .ok (v - p)

theorem pageEntry_eq {kernel : Kernel} {process : Word} {directory : PageDirectory}
    (paging : kernel.machine.PagingSound)
    (has : kernel.machine.HasChunk (kernel.chunkOf process) directory) (v : Word) :
    kernel.pageEntry process v = if v.toNat % 4096 = 0 then
      .ok (directory.space kernel.machine.memory v) else .error (-EINVAL) := by
  unfold pageEntry directoryOf
  rw [has.root]
  exact pagingGet_eq (has.chunkAt paging.sound).wired v

theorem Recorded.freesOnly_iff {kernel : Kernel} {process p size : Word} {slot : ℕ}
    (recorded : kernel.Recorded process slot p size) (paging : kernel.machine.PagingSound)
    (live : kernel.machine.LiveChunk (kernel.chunkOf process)) :
    kernel.FreesOnly process p size ↔ kernel.FollowingCleared process p size := by
  obtain ⟨directory, has⟩ := paging.directory live
  obtain ⟨aligned, low, high, stop⟩ := recorded.bounds paging
  obtain ⟨chunk, pagingNext, hasNext, space⟩ := recorded.processFree_space paging has
  rw [← chunk] at hasNext
  have before := pageEntry_eq paging has
  have after := pageEntry_eq pagingNext hasNext
  have limit := (paging.sound.sized _ _ (Machine.sizes_of_live recorded.held)).2
  have limit : size.toNat ≤ 2 ^ 31 - 4096 := limit
  have offset : ∀ v : Word, (v - p).toNat = (2 ^ 32 - p.toNat + v.toNat) % 2 ^ 32 := fun v =>
    BitVec.toNat_sub v p
  -- The entry of a page after the call.
  have written : ∀ v : Word, v.toNat % 4096 = 0 →
      (kernel.processFree process p).pageEntry process v =
        if (v - p).toNat < (pageAlign (p + size)).toNat then .ok (v - p)
        else kernel.pageEntry process v := by
    intro v page
    have entry : (0 : Word) + BitVec.ofNat 32 ((v - p).toNat / 4096 * 4096) ||| 0 = v - p := by
      have whole : (v - p).toNat / 4096 * 4096 = (v - p).toNat := by
        have := offset v
        omega
      rw [whole, BitVec.ofNat_toNat, BitVec.setWidth_eq, zero_add]
      exact BitVec.or_zero
    rw [after, before, if_pos page, if_pos page, space]
    unfold AddressSpace.map
    rw [entry]
    by_cases inside : (v - p).toNat < (pageAlign (p + size)).toNat
    · rw [if_pos inside, if_pos (by omega)]
    · rw [if_neg inside, if_neg (by omega)]
  constructor
  · intro only v page above below
    have outside : ¬ (p ≤ v ∧ v < pageAlign (p + size)) := fun inside =>
      BitVec.not_lt.mpr above inside.2
    have same := only v outside
    rw [BitVec.le_def] at above
    have := offset v
    rw [written v page, if_pos (by omega)] at same
    exact same.symm
  · intro cleared v outside
    by_cases page : v.toNat % 4096 = 0
    · rw [written v page]
      split
      · rename_i near
        rw [BitVec.le_def, BitVec.lt_def] at outside
        have := offset v
        have := v.isLt
        exact (cleared v page (BitVec.le_def.mpr (by omega)) (by omega)).symm
      · rfl
    · rw [after, before, if_neg page, if_neg page]

/-- With the entries that `process_free` writes in the pages that follow, the condition holds. -/
theorem Recorded.mapTo_following {kernel : Kernel} {process p size : Word} {slot : ℕ}
    (recorded : kernel.Recorded process slot p size) (paging : kernel.machine.PagingSound)
    (live : kernel.machine.LiveChunk (kernel.chunkOf process)) :
    let stop := pageAlign (p + size)
    let next := (kernel.mapTo process stop (stop - p) stop 0).2
    next.machine.PagingSound ∧ next.machine.LiveChunk (next.chunkOf process) ∧
      next.Recorded process slot p size ∧ next.FollowingCleared process p size := by
  intro stop next
  obtain ⟨directory, has⟩ := paging.directory live
  obtain ⟨aligned, low, high, bound⟩ := recorded.bounds paging
  have limit : size.toNat ≤ 2 ^ 31 - 4096 :=
    (paging.sound.sized _ _ (Machine.sizes_of_live recorded.held)).2
  have bound : stop.toNat = (p.toNat + size.toNat + 4095) / 4096 * 4096 := bound
  have length : (stop - p).toNat = stop.toNat - p.toNat := by
    rw [BitVec.toNat_sub]
    omega
  have accepts : MapToAccepts stop (stop - p) stop :=
    ⟨by omega, by omega, by omega, BitVec.le_def.mpr (by omega)⟩
  obtain ⟨_, update⟩ := mapTo_update kernel process paging has accepts 0
  have pagingNext := paging.write has update
  have hasNext : next.machine.HasChunk (next.chunkOf process) directory :=
    Machine.PagingSound.write_self has update
  refine ⟨pagingNext, ⟨_, hasNext.isChunk⟩,
    ⟨recorded.inside, recorded.recorded, recorded.first, recorded.held⟩, fun v page above below =>
      ?_⟩
  have above : stop.toNat ≤ v.toNat := BitVec.le_def.mp above
  have below : v.toNat < p.toNat + stop.toNat := below
  have offset : (v - stop).toNat = v.toNat - stop.toNat := by
    rw [BitVec.toNat_sub]
    omega
  have pages : mapToPages (stop - p) stop = p.toNat / 4096 := by
    unfold mapToPages
    rw [sub_sub_cancel]
  have whole : (v - stop).toNat / 4096 * 4096 = (v - stop).toNat := by omega
  rw [pageEntry_eq pagingNext hasNext, if_pos page, Except.ok.injEq]
  refine (congrFun update.mapped v).trans ?_
  unfold AddressSpace.map
  rw [pages, if_pos (by omega), whole, BitVec.ofNat_toNat, BitVec.setWidth_eq, sub_add_sub_comm,
    add_comm stop v, add_sub_add_right_eq_sub]
  exact BitVec.or_zero

/-- A first allocation of a process whose task has a new directory: the pages that follow it
still have the entries of `paging_new_chunk`. -/
theorem firstMalloc_not_cleared {kernel : Kernel} {process : Word} {directory : PageDirectory}
    (paging : kernel.machine.PagingSound)
    (has : kernel.machine.HasChunk (kernel.chunkOf process) directory)
    (fresh : directory.space kernel.machine.memory = AddressSpace.identity 5)
    (empty : ((kernel.processAt process).allocations 0).p = null)
    (room : kernel.machine.freeBlocks.Nonempty) :
    ∃ p, (kernel.processMalloc process 4096).2.machine.PagingSound ∧
      (kernel.processMalloc process 4096).2.machine.LiveChunk
        ((kernel.processMalloc process 4096).2.chunkOf process) ∧
      (kernel.processMalloc process 4096).2.Recorded process 0 p 4096 ∧
      ¬ (kernel.processMalloc process 4096).2.FollowingCleared process p 4096 := by
  have proper : Proper 4096 := by decide
  have found := (paging.sound.kzalloc_block (.user process) proper.1 le_rfl room).1
  have free : findAllocation (kernel.processAt process) null phixMaxProgramAllocations 0 =
      some 0 :=
    findAllocation_eq_some.mpr ⟨le_rfl, by decide, empty, fun k lower upper => by omega⟩
  obtain ⟨_, served⟩ := processMalloc_served paging has proper found free
  generalize (kernel.machine.kzalloc (.user process) 4096).1 = p at served
  generalize (kernel.processMalloc process 4096).2 = next at served
  obtain ⟨aligned, low, high, stop⟩ := allocationEnd proper served.pool
  have stop : (pageAlign (p + 4096)).toNat = p.toNat + 4096 := by
    rw [stop]
    change (p.toNat + 4096 + 4095) / 4096 * 4096 = _
    omega
  have record := congrFun served.processAt process
  rw [Function.update_self] at record
  have chunk : next.chunkOf process = kernel.chunkOf process := by
    unfold chunkOf
    rw [record, served.taskAt]
  have has := served.has
  rw [← chunk] at has
  refine ⟨p, served.paging, ⟨_, has.isChunk⟩, ⟨by decide, ?_, by omega, ?_⟩, fun cleared => ?_⟩
  · simp only [record, Function.update_self]
  · rw [served.live, Function.update_self]
  · -- The page after the allocation.
    have page : (pageAlign (p + 4096)).toNat % 4096 = 0 := by omega
    have entry := cleared _ page (BitVec.le_def.mpr le_rfl) (by omega)
    have offset : (pageAlign (p + 4096) - p).toNat = 4096 := by
      rw [BitVec.toNat_sub, stop]
      omega
    rw [pageEntry_eq served.paging has, if_pos page, Except.ok.injEq, served.space, fresh,
      AddressSpace.map_of_notMem] at entry
    · have flags := AddressSpace.flags_identity (show (5 : Word).toNat < 4096 by decide)
        (pageAlign (p + 4096))
      have distance : pageAlign (p + 4096) - p = 4096#32 := BitVec.eq_of_toNat_eq offset
      unfold AddressSpace.flags at flags
      rw [entry, distance] at flags
      exact absurd flags (by decide)
    · unfold mapToPages
      rw [offset]
      decide

/-- The first allocation of the first process, after `kheap_init`. -/
theorem booted_firstMalloc : ∃ (kernel : Kernel) (process p : Word),
    kernel.machine.PagingSound ∧ kernel.machine.LiveChunk (kernel.chunkOf process) ∧
      kernel.Recorded process 0 p 4096 ∧ ¬ kernel.FollowingCleared process p 4096 := by
  obtain ⟨kernel, process, _, _, _, loaded, free⟩ := loaded_some (Kernel.booted fun _ => 0)
    (Machine.booted_pagingSound _) (Machine.booted_freeFrom _) (by decide : Proper 4096) (by decide)
    fun _ => 0x90
  obtain ⟨p, served⟩ := firstMalloc_not_cleared loaded.paging loaded.has loaded.space
    (loaded.allocations 0) ⟨_, free _ le_rfl (by decide)⟩
  exact ⟨_, process, p, served⟩

/-- **Freeing one allocation.** `process_free` changes only the entries of the pages of the
allocation exactly when the `p / 4096` pages that follow it already have the entries it
writes. -/
theorem process_free_frame_iff {kernel : Kernel} {process p size : Word} {slot : ℕ}
    (paging : kernel.machine.PagingSound)
    (live : kernel.machine.LiveChunk (kernel.chunkOf process))
    (recorded : kernel.Recorded process slot p size) :
    kernel.FreesOnly process p size ↔ kernel.FollowingCleared process p size :=
  recorded.freesOnly_iff paging live

/-- A first allocation, with cleared pages behind it, can be freed. -/
theorem process_free_frame_iff_cleared :
    ∃ (kernel : Kernel) (process p size : Word) (slot : ℕ),
      kernel.Recorded process slot p size ∧ kernel.FreesOnly process p size := by
  obtain ⟨kernel, process, p, paging, live, recorded, _⟩ := booted_firstMalloc
  obtain ⟨pagingNext, liveNext, recordedNext, cleared⟩ := recorded.mapTo_following paging live
  exact ⟨_, process, p, 4096, 0, recordedNext,
    (process_free_frame_iff pagingNext liveNext recordedNext).mpr cleared⟩

/-- Freeing the first allocation of a new process changes pages that are not its own. -/
theorem process_free_frame_fails : ∃ (kernel : Kernel) (process p size : Word) (slot : ℕ),
    kernel.machine.PagingSound ∧ kernel.machine.LiveChunk (kernel.chunkOf process) ∧
      kernel.Recorded process slot p size ∧ ¬ kernel.FreesOnly process p size := by
  obtain ⟨kernel, process, p, paging, live, recorded, dirty⟩ := booted_firstMalloc
  exact ⟨kernel, process, p, 4096, 0, paging, live, recorded, fun only =>
    dirty ((recorded.freesOnly_iff paging live).mp only)⟩

end Kernel

end Phix
