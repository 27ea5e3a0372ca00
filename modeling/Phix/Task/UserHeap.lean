import Phix.Foundation.Traces
import Phix.Task.Loading
import Phix.Task.Publishing

/-! # The heap under the allocations of processes

Processes allocate and free with sizes and pointers of their own choice, while the kernel
allocates and frees for itself. While every request is served by a run of free blocks or refused
without harm, a pointer from `process_malloc` owns blocks that were free, and `process_free`
releases no block but those of the allocation it is asked for
(`Phix.Kernel.user_heap_undisturbed`).
-/

namespace Phix

open Traces Runs Extents

/-- The block is marked as free. -/
def Machine.BlockFree (machine : Machine) (i : ℕ) : Prop :=
  (kernelHeap machine.memory).table.IsFree i

/-- The block is marked as taken. -/
def Machine.BlockTaken (machine : Machine) (i : ℕ) : Prop :=
  (kernelHeap machine.memory).table.IsTaken i

/-- Block `i` holds a byte of the allocation at `p`. -/
def Machine.HoldsBlock (machine : Machine) (p : Word) (allocation : Allocation) (i : ℕ) : Prop :=
  (kernelHeap machine.memory).HoldsBlock p allocation.size i

/-- The pointer owns as many blocks as the size asks for, and at least one: they were free before,
are marked as taken after, and hold no byte of another allocation. -/
structure Granted (before after : Machine) (owner : Owner) (size p : Word) : Prop where
  held : after.live p = some ⟨size, owner⟩
  blocks : ∃ s, p = poolBlock s ∧ s + max 1 ((size.toNat + 4095) / 4096) ≤ 25600 ∧
    ∀ i, s ≤ i → i < s + max 1 ((size.toNat + 4095) / 4096) →
      before.BlockFree i ∧ after.BlockTaken i ∧
      ∀ q allocation, q ≠ p → after.live q = some allocation → ¬ after.HoldsBlock q allocation i

/-- Only blocks of the allocation at `p` of this owner become free, and every other allocation
stays, with its blocks taken. -/
structure ReleasesOnly (before after : Machine) (owner : Owner) (p : Word) : Prop where
  own : ∀ i < 25600, before.BlockTaken i → ¬ after.BlockTaken i →
    ∃ size, before.live p = some ⟨size, owner⟩ ∧ before.HoldsBlock p ⟨size, owner⟩ i
  others : ∀ q allocation, before.live q = some allocation → (q = p → allocation.owner ≠ owner) →
    after.live q = some allocation ∧
      ∀ i < 25600, after.HoldsBlock q allocation i → after.BlockTaken i

section Heap

variable {machine : Machine} (sound : machine.HeapSound)

include sound

theorem Machine.HeapSound.holdsBlock_iff {p : Word} {allocation : Allocation}
    (held : machine.live p = some allocation) (i : ℕ) : machine.HoldsBlock p allocation i ↔
      i ∈ ((kernelHeap machine.memory).extent p allocation.size).indices :=
  HeapInv.holdsBlock_iff sound (Machine.sizes_of_live held) i

/-- The blocks of an allocation are taken. -/
theorem Machine.HeapSound.blockTaken {p : Word} {allocation : Allocation}
    (held : machine.live p = some allocation) {i : ℕ} (inside : i < 25600)
    (holds : machine.HoldsBlock p allocation i) : machine.BlockTaken i :=
  sound.placed.covered _ _ ((kernelHeap machine.memory).extents_of_live
    (Machine.sizes_of_live held)) i ((sound.holdsBlock_iff held i).mp holds) inside

/-- A served request. -/
theorem Machine.HeapSound.kzalloc_granted (owner : Owner) {size : Word}
    (served : (machine.request size).Served) :
    Granted machine (machine.kzalloc owner size).2 owner size (machine.kzalloc owner size).1 := by
  obtain ⟨proper, present⟩ : Proper size ∧
    ∃ s, (kernelHeap machine.memory).table.FreeRun s (blockCount size) := served
  obtain ⟨found, cleared⟩ := sound.kzalloc_served owner ⟨proper, present⟩
  obtain ⟨s, fits, pointer, _, free, rest⟩ := Machine.HeapSound.kmalloc_found owner proper present
  have count : max 1 ((size.toNat + 4095) / 4096) = blockCount size :=
    Nat.max_eq_right (one_le_blockCount proper.1)
  have start : (machine.kzalloc owner size).1 = poolBlock s := pointer
  refine ⟨cleared.held, s, start, by rw [count]; exact fits, fun i lower upper => ?_⟩
  rw [count] at upper
  have isFree := (Machine.mem_freeBlocks.mp (free i lower upper)).2
  have holds : (machine.kzalloc owner size).2.HoldsBlock (machine.kzalloc owner size).1
      ⟨size, owner⟩ i := by
    rw [cleared.sound.holdsBlock_iff cleared.held, Extent.mem_indices]
    have index : (kernelHeap (machine.kzalloc owner size).2.memory).blockIndex
        (machine.kzalloc owner size).1 = s := by
      rw [start]
      exact (kernelHeap_pool _).blockIndex_blockAddress (show s < 25600 by omega)
    unfold Heap.extent
    rw [index]
    exact ⟨lower, upper⟩
  refine ⟨isFree, cleared.sound.blockTaken cleared.held (by omega) holds,
    fun q allocation different held other => ?_⟩
  have before : machine.live q = some allocation := by
    rw [cleared.live, Function.update_of_ne different] at held
    exact held
  have same : machine.HoldsBlock q allocation i := other
  exact isFree.not_taken (sound.blockTaken before (by omega) same)

end Heap

/-- Nothing is released where no entry of the block table changes. -/
theorem ReleasesOnly.of_agree {machine next : Machine} (after : next.HeapSound)
    (live : next.live = machine.live)
    (agree : ∀ x : Word, x.toNat < tableLimit → next.memory x = machine.memory x) (owner : Owner)
    (p : Word) : ReleasesOnly machine next owner p := by
  refine ⟨fun i inside taken gone => ?_, fun q allocation held _ => ?_⟩
  · have entry := kernelHeap_entries_congr agree inside
    unfold Machine.BlockTaken HeapTable.IsTaken at taken gone
    rw [entry] at gone
    exact absurd taken gone
  · have still : next.live q = some allocation := by rw [live, held]
    exact ⟨still, fun i inside holds => after.blockTaken still inside holds⟩

/-- A live allocation of the owner that is released. -/
theorem ReleasesOnly.kfree {machine : Machine} (sound : machine.HeapSound) {owner : Owner}
    {size p : Word} (held : machine.live p = some ⟨size, owner⟩) :
    ReleasesOnly machine (machine.kfree p) owner p := by
  have after := sound.kfree held
  have entries := HeapInv.free_entries sound (Machine.sizes_of_live held)
  have table : ∀ i < 25600, (kernelHeap (machine.kfree p).memory).table.entries i =
      (heapFree (kernelHeap machine.memory) p).table.entries i := fun i inside =>
    kernelHeap_storeTable_entries _ (by omega)
  refine ⟨fun i inside taken gone => ⟨size, held, ?_⟩, fun q allocation isLive other => ?_⟩
  · rw [sound.holdsBlock_iff held]
    unfold Machine.BlockTaken HeapTable.IsTaken at taken gone
    rw [table i inside, entries] at gone
    split at gone
    · by_cases here : i = (kernelHeap machine.memory).blockIndex p
      · rw [here]
        exact ⟨le_rfl, Nat.lt_add_of_pos_right
          (one_le_blockCount (sound.sized _ _ (Machine.sizes_of_live held)).1)⟩
      · rw [Function.update_of_ne here] at gone
        exact absurd taken gone
    · exact absurd taken gone
  · have different : q ≠ p := by
      rintro rfl
      rw [held] at isLive
      cases isLive
      exact other rfl rfl
    have still : (machine.kfree p).live q = some allocation := by
      rw [machine.kfree_live_of_ne different]
      exact isLive
    exact ⟨still, fun i inside holds => after.blockTaken still inside holds⟩

/-- What is released after a change that leaves the block table alone. -/
theorem ReleasesOnly.after {machine middle next : Machine} {owner : Owner} {p : Word}
    (live : middle.live = machine.live)
    (agree : ∀ x : Word, x.toNat < tableLimit → middle.memory x = machine.memory x)
    (released : ReleasesOnly middle next owner p) : ReleasesOnly machine next owner p := by
  refine ⟨fun i inside taken gone => ?_, fun q allocation held other =>
    released.others q allocation (by rw [live, held]) other⟩
  have entry := kernelHeap_entries_congr agree inside
  have same : middle.BlockTaken i := by
    unfold Machine.BlockTaken HeapTable.IsTaken at taken ⊢
    rw [entry]
    exact taken
  obtain ⟨size, held, holds⟩ := released.own i inside same gone
  exact ⟨size, live ▸ held, holds⟩

/-- A grant stays one where neither the live allocations nor the block table change. -/
theorem Granted.congr {before after last : Machine} {owner : Owner} {size p : Word}
    (granted : Granted before after owner size p) (live : last.live = after.live)
    (agree : ∀ x : Word, x.toNat < tableLimit → last.memory x = after.memory x) :
    Granted before last owner size p := by
  obtain ⟨held, s, pointer, fits, blocks⟩ := granted
  refine ⟨by rw [live, held], s, pointer, fits, fun i lower upper => ?_⟩
  obtain ⟨free, taken, apart⟩ := blocks i lower upper
  refine ⟨free, ?_, fun q allocation different isLive => apart q allocation different
    (live ▸ isLive)⟩
  unfold Machine.BlockTaken HeapTable.IsTaken at taken ⊢
  rw [kernelHeap_entries_congr agree (by omega)]
  exact taken

namespace Kernel

/-- A mapping writes page tables only, not the block table. -/
theorem mapTo_low (kernel : Kernel) (q : Word) {directory : PageDirectory}
    (paging : kernel.machine.PagingSound)
    (has : kernel.machine.HasChunk (kernel.chunkOf q) directory) (vaddr paddr pend : Word)
    (flags : Byte) {x : Word} (low : x.toNat < tableLimit) :
    (kernel.mapTo q vaddr paddr pend flags).2.machine.memory x = kernel.machine.memory x := by
  by_cases accepts : MapToAccepts vaddr paddr pend
  · obtain ⟨_, update⟩ := mapTo_update kernel q paging has accepts flags
    refine update.outside x ?_
    rintro ⟨i, inside, same⟩
    exact paging.sound.pageNumber_ne_of_low (has.tables i inside) low same.symm
  · unfold mapTo
    rw [pagingMapTo_refused _ _ accepts]

/-- A call on the heap: of a process, with a size or a pointer of its choice, or of the kernel for
itself. -/
inductive HeapCall where
  | malloc (process size : Word)
  | free (process p : Word)
  | kzalloc (size : Word)
  | kfree (p : Word)

def heapStep (kernel : Kernel) : HeapCall → Kernel
  | .malloc process size => (kernel.processMalloc process size).2
  | .free process p => kernel.processFree process p
  | .kzalloc size => (kernel.kzalloc .kernel size).2
  | .kfree p => kernel.kfree p

/-- The calls of processes are made by one of these, and the kernel frees what it has allocated. -/
def HeapLegal (processes : Set Word) (kernel : Kernel) : HeapCall → Prop
  | .malloc process _ => process ∈ processes
  | .free process _ => process ∈ processes
  | .kzalloc _ => True
  | .kfree p => ∃ size, kernel.machine.live p = some ⟨size, .kernel⟩

/-- A request of the call is served by a run of free blocks or refused without harm; the kernel
may ask for nothing, and so may a process whose table is full. -/
def Answered (kernel : Kernel) : HeapCall → Prop
  | .malloc process size => (kernel.machine.request size).Served ∨
      (kernel.machine.request size).Refused ∨ size = 0 ∧ ¬ ∃ slot, kernel.EmptySlot process slot
  | .free _ _ => True
  | .kzalloc size => (kernel.machine.request size).Harmless
  | .kfree _ => True

/-- A pointer from `process_malloc` owns its blocks, and `process_free` releases no others. -/
def Undisturbed (kernel : Kernel) : HeapCall → Prop
  | .malloc process size =>
      let (p, next) := kernel.processMalloc process size
      p ≠ null → Granted kernel.machine next.machine (.user process) size p
  | .free process p =>
      ReleasesOnly kernel.machine (kernel.processFree process p).machine (.user process) p
  | .kzalloc _ => True
  | .kfree _ => True

/-- The heap is sound, each process has its task, and the slots of its table record different
live allocations of the process. -/
structure Accounts (kernel : Kernel) (processes : Set Word) : Prop where
  paging : kernel.machine.PagingSound
  chunk : ∀ q ∈ processes, kernel.machine.LiveChunk (kernel.chunkOf q)
  recorded : ∀ q ∈ processes, ∀ i < phixMaxProgramAllocations,
    ((kernel.processAt q).allocations i).p ≠ null →
      kernel.machine.live ((kernel.processAt q).allocations i).p =
        some ⟨((kernel.processAt q).allocations i).size, .user q⟩
  distinct : ∀ q ∈ processes, ∀ i < phixMaxProgramAllocations, ∀ j < phixMaxProgramAllocations,
    ((kernel.processAt q).allocations i).p ≠ null →
      ((kernel.processAt q).allocations i).p = ((kernel.processAt q).allocations j).p → i = j

namespace Accounts

variable {kernel next : Kernel} {processes : Set Word} (accounts : kernel.Accounts processes)

include accounts

/-- Calls that keep the allocations of the processes, and their records. -/
theorem keeps (kept : kernel.machine.Keeps next.machine)
    (records : next.processAt = kernel.processAt)
    (tasks : next.taskAt = kernel.taskAt) : next.Accounts processes where
  paging := kept.paging
  chunk q member := by
    obtain ⟨base, size, held⟩ := accounts.chunk q member
    unfold chunkOf at held ⊢
    rw [records, tasks]
    exact ⟨base, size, kept.kept _ _ held Owner.noConfusion⟩
  recorded q member i inside nonNull := by
    rw [records] at nonNull ⊢
    exact kept.kept _ _ (accounts.recorded q member i inside nonNull) Owner.noConfusion
  distinct q member i insideI j insideJ nonNull same := by
    rw [records] at nonNull same
    exact accounts.distinct q member i insideI j insideJ nonNull same

/-- The first slot with a pointer that is not null records a live allocation. -/
theorem found {process p : Word} {slot : ℕ} (member : process ∈ processes) (nonNull : p ≠ null)
    (search : findAllocation (kernel.processAt process) p phixMaxProgramAllocations 0 = some slot) :
    kernel.Recorded process slot p ((kernel.processAt process).allocations slot).size := by
  obtain ⟨_, inside, here, earlier⟩ := findAllocation_eq_some.mp search
  rw [Nat.zero_add] at inside
  have held := accounts.recorded process member slot inside (by rw [here]; exact nonNull)
  rw [here] at held
  refine ⟨inside, ?_, fun k before => earlier k (Nat.zero_le k) before, held⟩
  rw [← here]

/-- The table after an allocation of a process is recorded. -/
theorem served {process size p : Word} {slot : ℕ} {directory : PageDirectory}
    (served : kernel.Served process size p slot directory next) : next.Accounts processes := by
  have kept : ∀ q allocation, kernel.machine.live q = some allocation →
      next.machine.live q = some allocation := by
    intro q allocation held
    have different : q ≠ p := by
      rintro rfl
      rw [served.fresh] at held
      cases held
    rw [served.live, Function.update_of_ne different, held]
  -- The slots of `process` record what they did, or `p`, which no slot of it recorded.
  have slots : ∀ q i, (next.processAt q).allocations i = (kernel.processAt q).allocations i ∨
      q = process ∧ i = slot ∧ (next.processAt q).allocations i = ⟨size, p⟩ := by
    intro q i
    rw [served.processAt]
    by_cases here : q = process
    · rw [here, Function.update_self]
      by_cases same : i = slot
      · exact .inr ⟨rfl, same, by rw [same]; exact Function.update_self ..⟩
      · exact .inl (Function.update_of_ne same ..)
    · exact .inl (by rw [Function.update_of_ne here])
  have fresh : ∀ q ∈ processes, ∀ i < phixMaxProgramAllocations, p ≠ null →
      ((kernel.processAt q).allocations i).p ≠ p := by
    intro q member i inside nonNull same
    have held := accounts.recorded q member i inside (same ▸ nonNull)
    rw [same, served.fresh] at held
    cases held
  refine ⟨served.paging, fun q member => ?_, fun q member i inside nonNull => ?_,
    fun q member i insideI j insideJ nonNull same => ?_⟩
  · obtain ⟨base, chunkSize, held⟩ := accounts.chunk q member
    have task : (next.processAt q).task = (kernel.processAt q).task := by
      rw [served.processAt]
      by_cases here : q = process
      · rw [here, Function.update_self]
      · rw [Function.update_of_ne here]
    unfold chunkOf at held ⊢
    rw [served.taskAt, task]
    exact ⟨base, chunkSize, kept _ _ held⟩
  · rcases slots q i with still | ⟨rfl, _, recorded⟩
    · rw [still] at nonNull ⊢
      exact kept _ _ (accounts.recorded q member i inside nonNull)
    · rw [recorded, served.live]
      exact Function.update_self ..
  · rcases slots q i with stillI | ⟨rfl, rfl, recordedI⟩ <;>
      rcases slots q j with stillJ | ⟨_, rfl, recordedJ⟩
    · rw [stillI] at nonNull same
      rw [stillJ] at same
      exact accounts.distinct q member i insideI j insideJ nonNull same
    · rw [stillI] at nonNull same
      rw [recordedJ] at same
      exact absurd same (fresh q member i insideI fun isNull => nonNull (same.trans isNull))
    · rw [recordedI] at nonNull same
      rw [stillJ] at same
      exact absurd same.symm (fresh q member j insideJ nonNull)
    · rfl

/-- A call of `process_malloc`. -/
theorem malloc {process size : Word} (member : process ∈ processes)
    (answered : kernel.Answered (.malloc process size)) :
    kernel.Undisturbed (.malloc process size) ∧
      (kernel.heapStep (.malloc process size)).Accounts processes := by
  obtain ⟨directory, has⟩ := accounts.paging.directory (accounts.chunk process member)
  have harmless : (kernel.machine.request size).Harmless :=
    answered.imp_right (Or.imp_right And.left)
  obtain ⟨kept, disposable⟩ :=
    (Machine.Keeps.refl accounts.paging).kzalloc (show ¬ (Owner.user process).IsPaging from id)
      harmless
  change ((kernel.processMalloc process size).1 ≠ null → Granted kernel.machine
      (kernel.processMalloc process size).2.machine (.user process) size
      (kernel.processMalloc process size).1) ∧
    (kernel.processMalloc process size).2.Accounts processes
  by_cases isNull : (kernel.machine.kzalloc (.user process) size).1 = null
  · rw [processMalloc_null kernel process size isNull]
    exact ⟨fun absurdity => absurd rfl absurdity, accounts.keeps kept rfl rfl⟩
  cases search : findAllocation (kernel.processAt process) null phixMaxProgramAllocations 0 with
  | none =>
      rw [processMalloc_full isNull search]
      exact ⟨fun absurdity => absurd rfl absurdity,
        accounts.keeps (kept.discard disposable) rfl rfl⟩
  | some slot =>
      have served : (kernel.machine.request size).Served := by
        rcases answered with served | refused | ⟨_, full⟩
        · exact served
        · exact absurd (kernel.machine.kzalloc_refused (.user process) refused) isNull
        · rw [findAllocation_of_noSlot full] at search
          cases search
      have cleared := (accounts.paging.sound.kzalloc_served (.user process) served).2
      have proper : Proper size := served.1
      have accepts := allocation_accepts (allocationEnd proper cleared.pool).1 proper cleared.pool
      obtain ⟨pointer, last⟩ := processMalloc_served accounts.paging has proper isNull search
      refine ⟨?_, accounts.served last⟩
      rw [processMalloc_eq isNull accepts search]
      intro _
      exact (accounts.paging.sound.kzalloc_granted (.user process) served).congr rfl fun x =>
        mapTo_low (kernel.kzalloc (.user process) size).2 process kept.paging
          (cleared.grown.hasChunk has accounts.paging.sound).1 _ _ _ _

/-- The table after the first slot that records `p` is emptied. -/
theorem emptied {process p : Word} {slot : ℕ} (inside : slot < phixMaxProgramAllocations)
    (member : process ∈ processes) (here : ((kernel.processAt process).allocations slot).p = p)
    (paging : next.machine.PagingSound)
    (kept : ∀ q allocation, kernel.machine.live q = some allocation → (p ≠ null → q ≠ p) →
      next.machine.live q = some allocation)
    (records : next.processAt = Function.update kernel.processAt process
      { kernel.processAt process with
        allocations := Function.update (kernel.processAt process).allocations slot ⟨0, null⟩ })
    (tasks : next.taskAt = kernel.taskAt) : next.Accounts processes := by
  -- A slot that is not empty now recorded the same allocation before, and not the one at `p`.
  have slots : ∀ q ∈ processes, ∀ i < phixMaxProgramAllocations,
      ((next.processAt q).allocations i).p ≠ null →
      (next.processAt q).allocations i = (kernel.processAt q).allocations i ∧
        (p ≠ null → ((kernel.processAt q).allocations i).p ≠ p) := by
    intro q memberQ i insideI nonNull
    rw [records] at nonNull ⊢
    by_cases own : q = process
    · subst own
      rw [Function.update_self] at nonNull ⊢
      by_cases same : i = slot
      · rw [same] at nonNull
        exact absurd (congrArg ProcessAllocation.p
          (Function.update_self slot ⟨0, null⟩ (kernel.processAt q).allocations)) nonNull
      · have still : Function.update (kernel.processAt q).allocations slot ⟨0, null⟩ i =
            (kernel.processAt q).allocations i := Function.update_of_ne same ..
        refine ⟨still, fun _ equal => same ?_⟩
        have present : ((kernel.processAt q).allocations i).p ≠ null := still ▸ nonNull
        exact accounts.distinct q member i insideI slot inside present (equal.trans here.symm)
    · rw [Function.update_of_ne own] at nonNull ⊢
      refine ⟨rfl, fun isPointer equal => own ?_⟩
      have mine := accounts.recorded process member slot inside (by rw [here]; exact isPointer)
      have other := accounts.recorded q memberQ i insideI nonNull
      rw [equal, ← here, mine] at other
      exact (Owner.user.inj (congrArg Allocation.owner (Option.some.inj other))).symm
  refine ⟨paging, fun q memberQ => ?_, fun q memberQ i insideI nonNull => ?_,
    fun q memberQ i insideI j insideJ nonNull same => ?_⟩
  · obtain ⟨base, chunkSize, held⟩ := accounts.chunk q memberQ
    have task : (next.processAt q).task = (kernel.processAt q).task := by
      rw [records]
      by_cases own : q = process
      · rw [own, Function.update_self]
      · rw [Function.update_of_ne own]
    unfold chunkOf at held ⊢
    rw [tasks, task]
    refine ⟨base, chunkSize, kept _ _ held fun isPointer equal => ?_⟩
    have mine := accounts.recorded process member slot inside (by rw [here]; exact isPointer)
    rw [here, ← equal, held] at mine
    cases mine
  · obtain ⟨still, different⟩ := slots q memberQ i insideI nonNull
    rw [still] at nonNull ⊢
    exact kept _ _ (accounts.recorded q memberQ i insideI nonNull) different
  · obtain ⟨stillI, _⟩ := slots q memberQ i insideI nonNull
    obtain ⟨stillJ, _⟩ := slots q memberQ j insideJ (same ▸ nonNull)
    rw [stillI] at nonNull same
    rw [stillJ] at same
    exact accounts.distinct q memberQ i insideI j insideJ nonNull same

/-- A call of `process_free`. -/
theorem free {process : Word} (member : process ∈ processes) (p : Word) :
    kernel.Undisturbed (.free process p) ∧
      (kernel.heapStep (.free process p)).Accounts processes := by
  change ReleasesOnly kernel.machine (kernel.processFree process p).machine (.user process) p ∧
    (kernel.processFree process p).Accounts processes
  cases search : findAllocation (kernel.processAt process) p phixMaxProgramAllocations 0 with
  | none =>
      rw [processFree_unknown search]
      exact ⟨.of_agree accounts.paging.sound rfl (fun _ _ => rfl) _ _, accounts⟩
  | some slot =>
      obtain ⟨directory, has⟩ := accounts.paging.directory (accounts.chunk process member)
      obtain ⟨_, inside, here, _⟩ := findAllocation_eq_some.mp search
      rw [Nat.zero_add] at inside
      have low := fun x => mapTo_low kernel process accounts.paging has p 0
        (pageAlign (p + ((kernel.processAt process).allocations slot).size)) 0 (x := x)
      obtain ⟨mapped, _⟩ := mapTo_keeps kernel process p 0
        (pageAlign (p + ((kernel.processAt process).allocations slot).size)) 0 accounts.paging
        directory has
      rw [processFree_found search]
      generalize unmapped : (kernel.mapTo process p 0
        (pageAlign (p + ((kernel.processAt process).allocations slot).size)) 0).2 = middle
        at low mapped
      have live : middle.machine.live = kernel.machine.live := by rw [← unmapped]; rfl
      have records : middle.processAt = kernel.processAt := by rw [← unmapped]; rfl
      have tasks : middle.taskAt = kernel.taskAt := by rw [← unmapped]; rfl
      have table : (middle.setProcess process { kernel.processAt process with
          allocations := Function.update (kernel.processAt process).allocations slot
            ⟨0, null⟩ }).processAt = Function.update kernel.processAt process
          { kernel.processAt process with
            allocations := Function.update (kernel.processAt process).allocations slot
              ⟨0, null⟩ } := by
        unfold setProcess
        rw [records]
      by_cases isNull : p = null
      · have same : middle.machine.kfree p = middle.machine := by
          rw [isNull, mapped.paging.sound.kfree_null_eq]
        refine ⟨?_, accounts.emptied inside member here (?_ : (middle.machine.kfree p).PagingSound)
          (fun q allocation held _ => ?_) table tasks⟩
        · change ReleasesOnly kernel.machine (middle.machine.kfree p) _ _
          rw [same]
          exact .of_agree mapped.paging.sound live low _ _
        · rw [same]
          exact mapped.paging
        · change (middle.machine.kfree p).live q = _
          rw [same, live, held]
      · have held : middle.machine.live p = _ := live ▸ (accounts.found member isNull search).held
        refine ⟨.after live low (.kfree mapped.paging.sound held),
          accounts.emptied inside member here (mapped.paging.kfree held id)
            (fun q allocation isLive other => ?_) table tasks⟩
        change (middle.machine.kfree p).live q = _
        rw [middle.machine.kfree_live_of_ne (other isNull), live, isLive]

/-- A call of the kernel for itself. -/
theorem kernelCall (size p : Word) :
    ((kernel.machine.request size).Harmless →
      (kernel.kzalloc .kernel size).2.Accounts processes) ∧
    ((∃ size, kernel.machine.live p = some ⟨size, .kernel⟩) →
      (kernel.kfree p).Accounts processes) := by
  have refl := Machine.Keeps.refl accounts.paging
  refine ⟨fun harmless => accounts.keeps (refl.kzalloc id harmless).1 rfl rfl, ?_⟩
  rintro ⟨stored, held⟩
  have spare : kernel.machine.Spare p := by
    intro allocation isLive
    rw [held] at isLive
    cases isLive
    rfl
  exact accounts.keeps (refl.discard (.inr (.inl ⟨spare, _, held, id⟩))) rfl rfl

/-- Every call. -/
theorem step (call : HeapCall) (legal : kernel.HeapLegal processes call)
    (answered : kernel.Answered call) :
    kernel.Undisturbed call ∧ (kernel.heapStep call).Accounts processes := by
  cases call with
  | malloc process size => exact accounts.malloc legal answered
  | free process p => exact accounts.free legal p
  | kzalloc size => exact ⟨trivial, (accounts.kernelCall size null).1 answered⟩
  | kfree p => exact ⟨trivial, (accounts.kernelCall 0 p).2 legal⟩

end Accounts

/-- A process that is loaded has recorded nothing yet. -/
theorem Loaded.accounts {kernel : Kernel} {process file image size : Word} {content : ℕ → Byte}
    {directory : PageDirectory}
    (loaded : kernel.Loaded process file image size content directory) :
    kernel.Accounts {process} where
  paging := loaded.paging
  chunk := by
    rintro q rfl
    exact ⟨_, loaded.has.isChunk⟩
  recorded := by
    rintro q rfl i _ nonNull
    exact absurd (loaded.allocations i) nonNull
  distinct := by
    rintro q rfl i _ j _ nonNull
    exact absurd (loaded.allocations i) nonNull

/-- **Allocations of processes disturb nobody while every request is answered.** In every run of
calls of `process_malloc` and `process_free` by any of the processes, with any sizes and any
pointers, and of the kernel on the heap: when each request is served by a run of free blocks or
refused without harm, a pointer from `process_malloc` owns as many blocks as its size asks for and
at least one, which were free before and are taken after, and `process_free` releases no block of
another allocation. -/
theorem user_heap_undisturbed {kernel : Kernel} {processes : Set Word}
    (accounts : kernel.Accounts processes) {calls : List HeapCall}
    (legal : Along heapStep (HeapLegal processes) kernel calls)
    (answered : Along heapStep Answered kernel calls) :
    Along heapStep Undisturbed kernel calls :=
  along_of_invariant (fun kernel => kernel.Accounts processes)
    (fun _ call accounts allowed => accounts.step call allowed.1 allowed.2) accounts
    (legal.and answered)

/-- A process allocates, the kernel does too, and the process frees what it has twice. -/
theorem user_heap_undisturbed_double_free : ∃ (kernel : Kernel) (process : Word),
    (kernel.processMalloc process 0x1001).1 ≠ null ∧
      Along heapStep Undisturbed kernel [.malloc process 0x1001, .kzalloc 16,
        .free process (kernel.processMalloc process 0x1001).1,
        .free process (kernel.processMalloc process 0x1001).1] := by
  obtain ⟨kernel, process, _, _, _, loaded, free⟩ := loaded_some (Kernel.booted fun _ => 0)
    (Machine.booted_pagingSound _) (Machine.booted_freeFrom _) (by decide : Proper 4096) (by decide)
    fun _ => 0x90
  have proper : Proper 0x1001 := by decide
  have served : (kernel.machine.request 0x1001).Served :=
    ⟨proper, _, free.freeRun (show _ + blockCount 0x1001 ≤ 25600 by decide)⟩
  have empty : kernel.EmptySlot process 0 := ⟨by decide, loaded.allocations 0⟩
  obtain ⟨_, _, _, search⟩ := exists_findAllocation ⟨0, empty⟩
  have found := (loaded.paging.sound.kzalloc_served (.user process) served).1
  have pointer := (processMalloc_served loaded.paging loaded.has proper found search).1
  refine ⟨kernel, process, by rw [pointer]; exact found, user_heap_undisturbed loaded.accounts
    ⟨rfl, trivial, rfl, rfl, trivial⟩ ⟨.inl served, ?_, trivial, trivial, trivial⟩⟩
  exact Machine.request_block_harmless _ (by decide) (by decide)

/-- A request of a process for no bytes returns a block that stays free. -/
theorem process_malloc_zero_grants_nothing : ∃ (kernel : Kernel) (process : Word) (s : ℕ),
    kernel.Accounts {process} ∧
      Along heapStep (HeapLegal {process}) kernel [.malloc process 0] ∧ s < 25600 ∧
      (kernel.processMalloc process 0).1 = poolBlock s ∧
      (kernel.processMalloc process 0).2.machine.BlockFree s ∧
      ¬ Along heapStep Undisturbed kernel [.malloc process 0] := by
  obtain ⟨kernel, process, _, _, directory, loaded, free⟩ := loaded_some (Kernel.booted fun _ => 0)
    (Machine.booted_pagingSound _) (Machine.booted_freeFrom _) (by decide : Proper 4096) (by decide)
    fun _ => 0x90
  have empty : kernel.EmptySlot process 0 := ⟨by decide, loaded.allocations 0⟩
  obtain ⟨slot, _, _, search⟩ := exists_findAllocation ⟨0, empty⟩
  have tail : (kernelHeap kernel.machine.memory).table.TailFree :=
    ⟨show 0 < totalTableEntries.toNat by decide,
      (Machine.mem_freeBlocks.mp (free 25599 (by decide) (by decide))).2⟩
  obtain ⟨taken, _⟩ | ⟨_, s, inside, pointer, unmarked⟩ :=
    loaded.paging.sound.kzalloc_zero (.user process)
  · exact absurd tail taken
  have harmless : (kernel.machine.request 0).Harmless := .inr (.inr rfl)
  obtain ⟨kept, _⟩ := (Machine.Keeps.refl loaded.paging).kzalloc
    (show ¬ (Owner.user process).IsPaging from id) harmless
  have grown := (loaded.paging.sound.kzalloc_harmless (.user process) harmless).1
  have has := (grown.hasChunk loaded.has loaded.paging.sound).1
  have found : (kernel.machine.kzalloc (.user process) 0).1 ≠ null := by
    rw [pointer]
    exact poolBlock_ne_null inside
  have accepts : MapToAccepts (kernel.machine.kzalloc (.user process) 0).1
      (kernel.machine.kzalloc (.user process) 0).1
      (pageAlign ((kernel.machine.kzalloc (.user process) 0).1 + 0)) := by
    rw [pointer, add_zero]
    have address := poolBlock_toNat inside
    have stop : (pageAlign (poolBlock s)).toNat = (poolBlock s).toNat := by
      unfold pageAlign pagingPageSize
      rw [align_toNat_of_le _ (by omega)]
      omega
    exact ⟨by omega, by omega, by omega, BitVec.le_def.mpr stop.ge⟩
  have result := processMalloc_eq found accepts search
  have returned : (kernel.processMalloc process 0).1 = poolBlock s := by rw [result, pointer]
  have still : (kernel.processMalloc process 0).2.machine.BlockFree s := by
    rw [result]
    unfold HeapTable.IsFree at unmarked
    unfold Machine.BlockFree HeapTable.IsFree
    rw [← unmarked]
    exact congrArg _ (kernelHeap_entries_congr (fun x low => mapTo_low
      (kernel.kzalloc (.user process) 0).2 process kept.paging has _ _ _ _ low) inside)
  refine ⟨kernel, process, s, loaded.accounts, ⟨rfl, trivial⟩, inside, returned, still, ?_⟩
  rintro ⟨undisturbed, _⟩
  have nonNull : (kernel.processMalloc process 0).1 ≠ null := by
    rw [returned]
    exact poolBlock_ne_null inside
  obtain ⟨start, same, fits, blocks⟩ := (undisturbed nonNull).blocks
  obtain rfl : s = start := poolBlock_injective inside (by omega) (returned.symm.trans same)
  exact still.not_taken (blocks s le_rfl (by omega)).2.1

end Kernel

end Phix
