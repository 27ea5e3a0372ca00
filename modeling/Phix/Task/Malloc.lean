import Phix.Memory.Directories
import Phix.Task.Process

/-! # Serving the allocations of a process

`process_malloc` records an allocation in the first empty slot of the process's table and
maps it onto itself. `Phix.Kernel.processMalloc_eq` says once what a call that the heap
serves and the table has room for does; the other calls return null
(`Phix.Kernel.processMalloc_full`, `Phix.Kernel.processMalloc_null`).
-/

namespace Phix

namespace Kernel

theorem findAllocation_eq_some {process : Process} {p : Word} {rounds i j : ℕ} :
    findAllocation process p rounds i = some j ↔
      i ≤ j ∧ j < i + rounds ∧ (process.allocations j).p = p ∧
        ∀ k, i ≤ k → k < j → (process.allocations k).p ≠ p := by
  induction rounds generalizing i with
  | zero => exact iff_of_false (fun absent => by cases absent) fun ⟨_, _, _⟩ => by omega
  | succ rounds ih =>
      unfold findAllocation
      by_cases here : (process.allocations i).p = p
      · rw [if_pos here, Option.some_inj]
        constructor
        · rintro rfl
          exact ⟨le_rfl, by omega, here, fun k lower upper => by omega⟩
        · rintro ⟨lower, _, _, earlier⟩
          by_contra different
          exact earlier i le_rfl (by omega) here
      · rw [if_neg here, ih]
        constructor
        · rintro ⟨lower, upper, found, earlier⟩
          refine ⟨by omega, by omega, found, fun k from_i before => ?_⟩
          rcases Nat.eq_or_lt_of_le from_i with rfl | later
          · exact here
          · exact earlier k later before
        · rintro ⟨lower, upper, found, earlier⟩
          have different : i ≠ j := fun same => here (same ▸ found)
          exact ⟨by omega, by omega, found, fun k from_i before => earlier k (by omega) before⟩

theorem findAllocation_eq_none {process : Process} {p : Word} {rounds i : ℕ} :
    findAllocation process p rounds i = none ↔
      ∀ k, i ≤ k → k < i + rounds → (process.allocations k).p ≠ p := by
  induction rounds generalizing i with
  | zero => exact iff_of_true rfl fun k lower upper => by omega
  | succ rounds ih =>
      unfold findAllocation
      by_cases here : (process.allocations i).p = p
      · rw [if_pos here]
        exact iff_of_false (by simp) fun absent => absent i le_rfl (by omega) here
      · rw [if_neg here, ih]
        constructor
        · intro absent k lower upper
          rcases Nat.eq_or_lt_of_le lower with rfl | later
          · exact here
          · exact absent k later (by omega)
        · exact fun absent k lower upper => absent k (by omega) (by omega)

/-- The pages of the process's chunk that `mapTo` maps. -/
theorem mapTo_update (kernel : Kernel) (q : Word) {directory : PageDirectory}
    (paging : kernel.machine.PagingSound)
    (has : kernel.machine.HasChunk (kernel.chunkOf q) directory)
    {vaddr paddr pend : Word} (accepts : MapToAccepts vaddr paddr pend) (flags : Byte) :
    (kernel.mapTo q vaddr paddr pend flags).1 = 0 ∧
      ChunkUpdate kernel.machine.memory (kernel.mapTo q vaddr paddr pend flags).2.machine.memory
        (kernel.chunkOf q) directory
        ((directory.space kernel.machine.memory).map vaddr paddr (flagWord flags)
          (mapToPages paddr pend)) :=
  (has.chunkAt paging.sound).pagingMapTo accepts flags

/-- The end of an allocation, rounded up to a page. -/
theorem allocationEnd {p size : Word} (proper : Proper size)
    (pool : ∃ s < 25600, p = poolBlock s) :
    p.toNat % 4096 = 0 ∧ 0x01000000 ≤ p.toNat ∧ p.toNat < 0x07400000 ∧
      (pageAlign (p + size)).toNat = (p.toNat + size.toNat + 4095) / 4096 * 4096 := by
  obtain ⟨s, bounded, rfl⟩ := pool
  have bound := proper.2
  have address := poolBlock_toNat bounded
  unfold maxRequest at bound
  have sum : (poolBlock s + size).toNat = (poolBlock s).toNat + size.toNat := by
    rw [BitVec.toNat_add]
    omega
  refine ⟨by omega, by omega, by omega, ?_⟩
  unfold pageAlign pagingPageSize
  rw [align_toNat_of_le _ (by omega), sum]

section Malloc

variable (kernel : Kernel) (process size : Word)

/-- A call for which the heap returns null. -/
theorem processMalloc_null (refused : (kernel.machine.kzalloc (.user process) size).1 = null) :
    kernel.processMalloc process size = (null, (kernel.kzalloc (.user process) size).2) := by
  have refused : (kernel.kzalloc (.user process) size).1 = null := refused
  unfold processMalloc
  simp only [refused, if_true]

variable {kernel process size}

/-- A call for which the process's table is full. -/
theorem processMalloc_full (found : (kernel.machine.kzalloc (.user process) size).1 ≠ null)
    (full : findAllocation (kernel.processAt process) null phixMaxProgramAllocations 0 = none) :
    kernel.processMalloc process size =
      (null, (kernel.kzalloc (.user process) size).2.kfree
        (kernel.kzalloc (.user process) size).1) := by
  have found : (kernel.kzalloc (.user process) size).1 ≠ null := found
  have index : processFindFreeAllocatationIndex
      ((kernel.kzalloc (.user process) size).2.processAt process) = -ENOMEM := by
    unfold processFindFreeAllocatationIndex
    simp only [show (kernel.kzalloc (.user process) size).2.processAt = kernel.processAt from rfl,
      full]
  have negative : -ENOMEM < 0 := by decide
  unfold processMalloc
  simp only [found, index, negative, if_true, if_false]

/-- A call that is served. -/
theorem processMalloc_eq (found : (kernel.machine.kzalloc (.user process) size).1 ≠ null)
    (accepts : MapToAccepts (kernel.machine.kzalloc (.user process) size).1
      (kernel.machine.kzalloc (.user process) size).1
      (pageAlign ((kernel.machine.kzalloc (.user process) size).1 + size)))
    {slot : ℕ}
    (free : findAllocation (kernel.processAt process) null phixMaxProgramAllocations 0 =
    some slot) :
    let p := (kernel.machine.kzalloc (.user process) size).1
    kernel.processMalloc process size =
      (p, ((kernel.kzalloc (.user process) size).2.mapTo process p p (pageAlign (p + size))
        userFlags).2.setProcess process { kernel.processAt process with
          allocations := Function.update (kernel.processAt process).allocations slot
              ⟨size, p⟩ }) := by
  intro p
  have index : processFindFreeAllocatationIndex
      ((kernel.kzalloc (.user process) size).2.processAt process) = slot := by
    unfold processFindFreeAllocatationIndex
    simp only [show (kernel.kzalloc (.user process) size).2.processAt = kernel.processAt from rfl,
      free]
  have status : ((kernel.kzalloc (.user process) size).2.mapTo process p p (pageAlign (p + size))
      userFlags).1 = 0 := by
    unfold mapTo
    rw [pagingMapTo_accepted _ _ accepts]
    rfl
  have start : (kernel.kzalloc (.user process) size).1 = p := rfl
  have nonnegative : ¬ (slot : Int) < 0 := by omega
  unfold processMalloc
  simp only [show p ≠ null from found, index, start, status, nonnegative, lt_irrefl, if_false,
    Int.toNat_natCast]
  rfl

/-- What a served call does to the machine, to the task's address space and to the table of
the process. -/
structure Served (kernel : Kernel) (process size p : Word) (slot : ℕ) (directory : PageDirectory)
    (next : Kernel) : Prop where
  pool : ∃ s < 25600, p = poolBlock s
  fresh : kernel.machine.live p = none
  live : next.machine.live = Function.update kernel.machine.live p (some ⟨size, .user process⟩)
  paging : next.machine.PagingSound
  has : next.machine.HasChunk (kernel.chunkOf process) directory
  space : directory.space next.machine.memory =
    (directory.space kernel.machine.memory).map p p (flagWord userFlags)
      (mapToPages p (pageAlign (p + size)))
  processAt : next.processAt = Function.update kernel.processAt process
    { kernel.processAt process with
      allocations := Function.update (kernel.processAt process).allocations slot ⟨size, p⟩ }
  taskAt : next.taskAt = kernel.taskAt

/-- The frames of an allocation can be mapped at any page. -/
theorem allocation_accepts {vaddr p size : Word} (page : vaddr.toNat % 4096 = 0)
    (proper : Proper size) (pool : ∃ s < 25600, p = poolBlock s) :
    MapToAccepts vaddr p (pageAlign (p + size)) := by
  obtain ⟨aligned, _, _, stop⟩ := allocationEnd proper pool
  exact ⟨page, aligned, by omega, BitVec.le_def.mpr (by omega)⟩

theorem processMalloc_served {directory : PageDirectory} {slot : ℕ}
    (paging : kernel.machine.PagingSound)
    (has : kernel.machine.HasChunk (kernel.chunkOf process) directory) (proper : Proper size)
    (found : (kernel.machine.kzalloc (.user process) size).1 ≠ null)
    (free : findAllocation (kernel.processAt process) null phixMaxProgramAllocations 0 =
    some slot) :
    (kernel.processMalloc process size).1 = (kernel.machine.kzalloc (.user process) size).1 ∧
    kernel.Served process size (kernel.machine.kzalloc (.user process) size).1 slot directory
      (kernel.processMalloc process size).2 := by
  have cleared := paging.sound.kzalloc (.user process) proper found
  have accepts := allocation_accepts (allocationEnd proper cleared.pool).1 proper cleared.pool
  have pagingNext := paging.cleared cleared id
  obtain ⟨hasNext, same⟩ := cleared.grown.hasChunk has paging.sound
  have update := (mapTo_update (kernel.kzalloc (.user process) size).2 process
    pagingNext hasNext accepts userFlags).2
  rw [processMalloc_eq found accepts free]
  refine ⟨rfl, cleared.pool, cleared.fresh, cleared.live, pagingNext.write hasNext update,
    Machine.PagingSound.write_self hasNext update, ?_, rfl, rfl⟩
  refine update.mapped.trans ?_
  rw [show directory.space (kernel.kzalloc (.user process) size).2.machine.memory = _ from same]

end Malloc

end Kernel

end Phix
