import Phix.Task.Free

/-! # What an allocation publishes

A call of `process_malloc` that the heap can serve either records the new block in one
empty slot and maps it onto itself for the task, cleared, or finds the table full and
leaves the slots and every page table as they were. `Phix.Kernel.process_malloc_publishes`
states both, with the frame over the slots and over all page tables.
-/

namespace Phix

namespace Kernel

/-- The heap has a run of free blocks for `size` bytes. -/
def HasRun (kernel : Kernel) (size : Word) : Prop :=
  ∃ s, (kernelHeap kernel.machine.memory).table.FreeRun s (blockCount size)

/-- The slot of the process's table is empty. -/
def EmptySlot (kernel : Kernel) (process : Word) (slot : ℕ) : Prop :=
  slot < phixMaxProgramAllocations ∧ ((kernel.processAt process).allocations slot).p = null

theorem exists_findAllocation {kernel : Kernel} {process : Word}
    (room : ∃ slot, kernel.EmptySlot process slot) : ∃ slot < phixMaxProgramAllocations,
      ((kernel.processAt process).allocations slot).p = null ∧
      findAllocation (kernel.processAt process) null phixMaxProgramAllocations 0 = some slot := by
  obtain ⟨slot, inside, empty⟩ := room
  cases searched : findAllocation (kernel.processAt process) null phixMaxProgramAllocations 0 with
  | none =>
      exact absurd empty (findAllocation_eq_none.mp searched slot (Nat.zero_le slot)
        (by rw [Nat.zero_add]; exact inside))
  | some first =>
      obtain ⟨-, bound, here, -⟩ := findAllocation_eq_some.mp searched
      rw [Nat.zero_add] at bound
      exact ⟨first, bound, here, rfl⟩

theorem findAllocation_of_noSlot {kernel : Kernel} {process : Word}
    (full : ¬ ∃ slot, kernel.EmptySlot process slot) :
    findAllocation (kernel.processAt process) null phixMaxProgramAllocations 0 = none := by
  refine findAllocation_eq_none.mpr fun slot _ inside empty => full ⟨slot, ?_, empty⟩
  rw [Nat.zero_add] at inside
  exact inside

/-- The pages of a block reach from its start to its end, rounded up. -/
theorem block_pages {p size : Word} (proper : Proper size)
    (pool : ∃ s < 25600, p = poolBlock s) (v : Word) :
    (v - p).toNat < 4096 * mapToPages p (pageAlign (p + size)) ↔
      p ≤ v ∧ v < pageAlign (p + size) := by
  obtain ⟨aligned, low, high, stop⟩ := allocationEnd proper pool
  have limit : size.toNat ≤ 2 ^ 31 - 4096 := proper.2
  have length : (pageAlign (p + size) - p).toNat = (pageAlign (p + size)).toNat - p.toNat := by
    rw [BitVec.toNat_sub]
    omega
  have bound := v.isLt
  unfold mapToPages
  rw [length, BitVec.toNat_sub, BitVec.le_def, BitVec.lt_def]
  omega

section Served

variable {kernel next : Kernel} {process size p : Word} {slot : ℕ} {directory : PageDirectory}
  (served : kernel.Served process size p slot directory next)

include served

theorem Served.chunkOf : next.chunkOf process = kernel.chunkOf process := by
  unfold Kernel.chunkOf
  rw [served.processAt, served.taskAt, Function.update_self]

variable (proper : Proper size)

include proper

/-- The bytes of the block translate to themselves. -/
theorem Served.lookup {k : Word} (small : k < size) :
    pagingGetPaddr next.machine.memory (next.directoryOf process) (p + k) = p + k ∧
      pagingGetFlags next.machine.memory (next.directoryOf process) (p + k) =
        flagWord userFlags := by
  obtain ⟨aligned, low, high, stop⟩ := allocationEnd proper served.pool
  have limit : size.toNat ≤ 2 ^ 31 - 4096 := proper.2
  have wired := (served.has.chunkAt served.paging.sound).wired
  have inside : (p + k - p).toNat < 4096 * mapToPages p (pageAlign (p + size)) := by
    rw [BitVec.lt_def] at small
    rw [block_pages proper served.pool, BitVec.le_def, BitVec.lt_def, BitVec.toNat_add]
    omega
  unfold directoryOf
  rw [served.chunkOf, served.has.root, pagingGetPaddr_eq wired, pagingGetFlags_eq wired,
    served.space, AddressSpace.translate_map _ inside aligned aligned (flagWord_lt userFlags),
    AddressSpace.flags_map _ inside aligned (flagWord_lt userFlags), add_sub_cancel]
  exact ⟨rfl, rfl⟩

/-- The entries of the other pages stay. -/
theorem Served.pageEntry (paging : kernel.machine.PagingSound)
    (has : kernel.machine.HasChunk (kernel.chunkOf process) directory) {v : Word}
    (outside : ¬ (p ≤ v ∧ v < pageAlign (p + size))) :
    next.pageEntry process v = kernel.pageEntry process v := by
  have hasNext := served.has
  rw [← served.chunkOf] at hasNext
  rw [pageEntry_eq served.paging hasNext, pageEntry_eq paging has, served.space,
    AddressSpace.map_of_notMem _ (mt (block_pages proper served.pool v).mp outside)]

end Served

section Publishing

variable {kernel : Kernel} {process size : Word} (paging : kernel.machine.PagingSound)
  (proper : Proper size) (found : (kernel.machine.kzalloc (.user process) size).1 ≠ null)

include paging proper found

/-- A call that finds the table full changes no lookup of any chunk. -/
theorem processMalloc_full_sameLookups
    (full : findAllocation (kernel.processAt process) null phixMaxProgramAllocations 0 = none)
    {chunk : Word} {directory : PageDirectory} (has : kernel.machine.HasChunk chunk directory) :
    SameLookups kernel.machine (kernel.processMalloc process size).2.machine chunk := by
  have cleared := paging.sound.kzalloc (.user process) proper found
  have served := paging.cleared cleared id
  obtain ⟨kept, same⟩ := cleared.grown.hasChunk has paging.sound
  obtain ⟨still, again⟩ := served.kfree_hasChunk cleared.held id kept
  rw [processMalloc_full found full]
  exact has.sameLookups paging (served.kfree cleared.held id) still (again.trans same)

variable {directory : PageDirectory}
  (has : kernel.machine.HasChunk (kernel.chunkOf process) directory) {slot : ℕ}
  (free : findAllocation (kernel.processAt process) null phixMaxProgramAllocations 0 = some slot)

include has free

/-- The memory of a served call is that of `paging_map_to` after the block is cleared. -/
theorem processMalloc_update :
    ChunkUpdate (kernel.machine.kzalloc (.user process) size).2.memory
      (kernel.processMalloc process size).2.machine.memory (kernel.chunkOf process) directory
      ((directory.space (kernel.machine.kzalloc (.user process) size).2.memory).map
        (kernel.machine.kzalloc (.user process) size).1
        (kernel.machine.kzalloc (.user process) size).1 (flagWord userFlags)
        (mapToPages (kernel.machine.kzalloc (.user process) size).1
          (pageAlign ((kernel.machine.kzalloc (.user process) size).1 + size)))) := by
  have cleared := paging.sound.kzalloc (.user process) proper found
  have accepts := allocation_accepts (allocationEnd proper cleared.pool).1 proper cleared.pool
  have kept := (cleared.grown.hasChunk has paging.sound).1
  rw [processMalloc_eq found accepts free]
  exact (mapTo_update (kernel.kzalloc (.user process) size).2 process
    (paging.cleared cleared id) kept accepts userFlags).2

/-- The block of a served call holds zeros. -/
theorem processMalloc_cleared {k : Word} (small : k < size) :
    (kernel.processMalloc process size).2.machine.memory
      ((kernel.machine.kzalloc (.user process) size).1 + k) = 0 := by
  have cleared := paging.sound.kzalloc (.user process) proper found
  have update := processMalloc_update paging proper found has free
  have kept := (cleared.grown.hasChunk has paging.sound).1
  generalize (kernel.machine.kzalloc (.user process) size).1 = p at *
  have inside : (p + k - p).toNat < size.toNat := by
    rw [add_sub_cancel_left]
    exact BitVec.lt_def.mp small
  -- No page table is in the block, which was not live.
  have noTable : ∀ i < 1024, p ≠ directory.table i := by
    rintro i bound rfl
    have absent := cleared.fresh
    rw [has.tables i bound] at absent
    cases absent
  rw [(paging.cleared cleared id).write_outside kept update cleared.held noTable inside,
    cleared.memory _ (cleared.sound.tableLimit_le cleared.held inside), if_pos inside]

/-- A served call changes no lookup of the other chunks. -/
theorem processMalloc_other {other : Word} (different : other ≠ kernel.chunkOf process)
    {second : PageDirectory} (hasOther : kernel.machine.HasChunk other second) :
    SameLookups kernel.machine (kernel.processMalloc process size).2.machine other := by
  have cleared := paging.sound.kzalloc (.user process) proper found
  have update := processMalloc_update paging proper found has free
  have served := (processMalloc_served paging has proper found free).2.paging
  have kept := (cleared.grown.hasChunk has paging.sound).1
  have accepts := allocation_accepts (allocationEnd proper cleared.pool).1 proper cleared.pool
  obtain ⟨keptOther, same⟩ := cleared.grown.hasChunk hasOther paging.sound
  obtain ⟨still, again⟩ :=
    (paging.cleared cleared id).write_other kept update keptOther different
  have machine : (kernel.processMalloc process size).2.machine =
      { (kernel.machine.kzalloc (.user process) size).2 with
        memory := (kernel.processMalloc process size).2.machine.memory } := by
    rw [processMalloc_eq found accepts free]
    rfl
  rw [← machine] at still
  exact hasOther.sameLookups paging served still (again.trans same)

end Publishing

/-- **`process_malloc` publishes exactly one allocation.** When the heap has a run of free
blocks for the size: if a slot of the process's table is empty, the call returns a page
aligned `p` and records it with its size in such a slot, and nothing else in any process
changes; each byte of the block is zero and translates to itself, present, writable and
accessible to the user; and no page-table entry of any task outside the pages of the block
changes. If no slot is empty, the call returns null with the slots and every page-table
entry as they were. -/
theorem process_malloc_publishes {kernel : Kernel} {process size : Word}
    (paging : kernel.machine.PagingSound)
    (live : kernel.machine.LiveChunk (kernel.chunkOf process))
    (positive : 1 ≤ size.toNat) (bounded : size.toNat ≤ 2 ^ 31 - 4096)
    (run : kernel.HasRun size) :
    let result := kernel.processMalloc process size
    let p := result.1
    let next := result.2
    ((∃ slot, kernel.EmptySlot process slot) → p ≠ null ∧ p.toNat % 4096 = 0 ∧
      (∃ slot, kernel.EmptySlot process slot ∧
        next.processAt = Function.update kernel.processAt process
          { kernel.processAt process with
            allocations :=
              Function.update (kernel.processAt process).allocations slot ⟨size, p⟩ }) ∧
      (∀ k, k < size → next.machine.memory (p + k) = 0 ∧
        pagingGetPaddr next.machine.memory (next.directoryOf process) (p + k) = p + k ∧
        pagingGetFlags next.machine.memory (next.directoryOf process) (p + k) =
          flagWord (pagingIsPresent ||| pagingIsWritable ||| pagingAccessFromAll)) ∧
      (∀ v, ¬ (p ≤ v ∧ v < pageAlign (p + size)) →
        next.pageEntry process v = kernel.pageEntry process v) ∧
      ∀ chunk, kernel.machine.LiveChunk chunk → chunk ≠ kernel.chunkOf process →
        SameLookups kernel.machine next.machine chunk) ∧
    ((¬ ∃ slot, kernel.EmptySlot process slot) → p = null ∧ next.processAt = kernel.processAt ∧
      ∀ chunk, kernel.machine.LiveChunk chunk →
        SameLookups kernel.machine next.machine chunk) := by
  intro result p next
  have proper : Proper size := ⟨positive, bounded⟩
  have found := (paging.sound.kzalloc_takes (.user process) proper run).1
  obtain ⟨directory, has⟩ := paging.directory live
  refine ⟨fun room => ?_, fun none => ?_⟩
  · obtain ⟨slot, inside, empty, first⟩ := exists_findAllocation room
    obtain ⟨pointer, served⟩ := processMalloc_served paging has proper found first
    have address : p = (kernel.machine.kzalloc (.user process) size).1 := pointer
    rw [← address] at served
    have zero := fun k small => processMalloc_cleared paging proper found has first (k := k) small
    rw [← address] at zero
    refine ⟨address ▸ found, (allocationEnd proper served.pool).1, ⟨slot, ⟨inside, empty⟩,
      served.processAt⟩, fun k small => ⟨zero k small, served.lookup proper small⟩,
      fun v outside => served.pageEntry proper paging has outside, ?_⟩
    rintro chunk isChunk different
    obtain ⟨second, hasOther⟩ := paging.directory isChunk
    exact processMalloc_other paging proper found has first different hasOther
  · have full := findAllocation_of_noSlot none
    have refused := processMalloc_full found full
    refine ⟨congrArg Prod.fst refused, ?_, fun chunk isChunk => ?_⟩
    · exact congrArg (fun result : Word × Kernel => result.2.processAt) refused
    · obtain ⟨second, hasOther⟩ := paging.directory isChunk
      exact processMalloc_full_sameLookups paging proper found full hasOther

/-- An allocation of two pages by the first process, after `kheap_init`. -/
theorem process_malloc_publishes_booted : ∃ (kernel : Kernel) (process p : Word) (next : Kernel),
    kernel.processMalloc process 0x1001 = (p, next) ∧ p ≠ null ∧
      (∃ slot, (next.processAt process).allocations slot = ⟨0x1001, p⟩) ∧
      next.machine.memory (p + 0x1000) = 0 ∧
      pagingGetPaddr next.machine.memory (next.directoryOf process) (p + 0x1000) = p + 0x1000 := by
  obtain ⟨kernel, process, _, _, _, loaded, free⟩ := loaded_some (Kernel.booted fun _ => 0)
    (Machine.booted_pagingSound _) (Machine.booted_freeFrom _) (by decide : Proper 4096) (by decide)
    fun _ => 0x90
  have empty : kernel.EmptySlot process 0 := ⟨by decide, loaded.allocations 0⟩
  have run : kernel.HasRun 0x1001 := ⟨_, free.freeRun (by decide)⟩
  obtain ⟨nonNull, -, ⟨slot, -, recorded⟩, published, -⟩ := (process_malloc_publishes loaded.paging
    ⟨_, loaded.has.isChunk⟩ (by decide) (by decide) run).1 ⟨0, empty⟩
  refine ⟨kernel, process, _, _, rfl, nonNull, ⟨slot, ?_⟩, (published 0x1000 (by decide)).1,
    (published 0x1000 (by decide)).2.1⟩
  rw [recorded, Function.update_self]
  exact Function.update_self ..

end Kernel

end Phix
