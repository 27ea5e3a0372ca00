import Phix.Foundation.Traces
import Phix.Memory.Directories
import Phix.Memory.FreeBlocks

/-! # Paging and the heap as one system

A machine stepped by creating and freeing chunks, by writes through live chunks, and by
other allocations and releases. In every reachable state a write through one chunk
leaves every lookup in every other chunk alone, and a chunk that is never written
through stays the identity map (`Phix.paging_non_interference`).
-/

namespace Phix

open Traces

/-- An update of a chunk: `paging_map_to`, or `paging_set` on its directory. -/
inductive ChunkWrite where
  | mapTo (vaddr paddr pend : Word) (flags : Byte)
  | set (vaddr val : Word)

def ChunkWrite.apply (memory : ByteMemory) (chunk : Word) : ChunkWrite → ByteMemory
  | .mapTo vaddr paddr pend flags => (pagingMapTo memory chunk vaddr paddr pend flags).2
  | .set vaddr val => (pagingSet memory (memory.load32 chunk) vaddr val).2

inductive PagingOp where
  | newChunk (flags : Byte)
  | freeChunk (chunk : Word)
  | write (chunk : Word) (write : ChunkWrite)
  | malloc (size : Word)
  | free (p : Word)

/-- The machine after `kheap_init`: nothing is live. -/
def Machine.booted (memory : ByteMemory) : Machine where
  memory := (kheapInit memory).2
  live := fun _ => none
  requests := []

def Machine.pagingStep (machine : Machine) : PagingOp → Machine
  | .newChunk flags =>
      match machine.pagingNewChunk flags with
      | some (_, next) => next
      | none => machine
  | .freeChunk chunk => machine.pagingFreeChunk chunk
  | .write chunk write => { machine with memory := write.apply machine.memory chunk }
  | .malloc size => (machine.kmalloc .kernel size).2
  | .free p => machine.kfree p

def Machine.LiveChunk (machine : Machine) (chunk : Word) : Prop :=
  ∃ base, machine.IsChunk chunk base

/-- A new chunk needs 1026 free blocks, writes and `paging_free_chunk` need a live chunk, and
the other releases are of live pointers that are no part of a chunk. -/
def Machine.PagingLegal (machine : Machine) : PagingOp → Prop
  | .newChunk _ => 1026 ≤ machine.freeBlocks.card
  | .freeChunk chunk => machine.LiveChunk chunk
  | .write chunk _ => machine.LiveChunk chunk
  | .malloc size => 1 ≤ size.toNat ∧ size.toNat ≤ maxRequest
  | .free p => ∃ size, machine.live p = some ⟨size, .kernel⟩

/-- The operation writes through the chunk or frees it. -/
def PagingOp.Touches (chunk : Word) : PagingOp → Prop
  | .freeChunk touched => touched = chunk
  | .write touched _ => touched = chunk
  | _ => False

/-- Every lookup in the chunk gives the same result in both machines. -/
def SameLookups (machine next : Machine) (chunk : Word) : Prop :=
  let directory := machine.memory.load32 chunk
  let after := next.memory.load32 chunk
  ∀ vaddr, pagingGet next.memory after vaddr = pagingGet machine.memory directory vaddr ∧
    pagingGetPaddr next.memory after vaddr = pagingGetPaddr machine.memory directory vaddr ∧
    pagingGetFlags next.memory after vaddr = pagingGetFlags machine.memory directory vaddr

/-! The heap after `kheap_init`. -/

/-- The heap `kheap_init` creates: every block of the pool is free. -/
def bootedHeap (memory : ByteMemory) : Heap where
  table :=
    { entries := fun i => if i < totalTableEntries.toNat then heapBlockTableEntryFree
        else (kernelHeap memory).table.entries i
      total := totalTableEntries }
  saddr := phixHeapSaddress

theorem kheapInit_created (memory : ByteMemory) :
    heapCreate (kernelHeap memory) phixHeapSaddress (phixHeapSaddress + phixHeapSizeBytes)
      (kernelHeap memory).table = (0, bootedHeap memory) := by
  have aligned : (!heapValidateAlignment phixHeapSaddress ||
      !heapValidateAlignment (phixHeapSaddress + phixHeapSizeBytes)) = false := by decide
  unfold heapCreate heapValidateTable
  simp [aligned, totalTableEntries, bootedHeap]

theorem Machine.booted_memory (memory : ByteMemory) :
    (Machine.booted memory).memory = storeTable (bootedHeap memory).table :=
  congrArg (fun result : Int × Heap => storeTable result.2.table) (kheapInit_created memory)

theorem Machine.booted_sound (memory : ByteMemory) : (Machine.booted memory).HeapSound := by
  have pool := (heapCreate_pool (kheapInit_created memory) (by decide)).1
  unfold Machine.HeapSound
  rw [Machine.booted_memory]
  exact (heapInv_none pool).of_storeTable rfl rfl

theorem Machine.booted_freeBlocks (memory : ByteMemory) :
    (Machine.booted memory).freeBlocks = Finset.range 25600 := by
  unfold Machine.freeBlocks
  rw [Machine.booted_memory]
  refine Finset.filter_true_of_mem fun i inside => HeapTable.isFree_of_entry ?_
  rw [Finset.mem_range] at inside
  exact (kernelHeap_storeTable_entries _ (by omega)).trans (if_pos inside)

theorem Machine.booted_card (memory : ByteMemory) :
    (Machine.booted memory).freeBlocks.card = 25600 := by
  rw [Machine.booted_freeBlocks, Finset.card_range]

theorem Machine.booted_freeFrom (memory : ByteMemory) : (Machine.booted memory).FreeFrom 0 := by
  intro i _ inside
  rw [Machine.booted_freeBlocks, Finset.mem_range]
  exact inside

theorem Machine.booted_pagingSound (memory : ByteMemory) :
    (Machine.booted memory).PagingSound where
  sound := Machine.booted_sound memory
  chunks _ _ := fun ⟨_, absent⟩ => by cases absent
  unique _ _ _ := fun ⟨_, absent⟩ => by cases absent

/-! One step. -/

theorem Machine.HeapSound.kmalloc_grown {machine : Machine} (sound : machine.HeapSound)
    (owner : Owner) (size : Word) :
    machine.Grown (machine.kmalloc owner size).2 ∧
      ∀ p allocation, (machine.kmalloc owner size).2.live p = some allocation →
        machine.live p = some allocation ∨ allocation.owner = owner := by
  have live := machine.kmalloc_live owner size
  refine ⟨⟨sound.kmalloc owner size, fun p allocation held => ?_, fun x beyond _ =>
    machine.kmalloc_memory owner size beyond⟩, fun p allocation present => ?_⟩
  · rw [live]
    split
    · rename_i grants
      rw [Function.update_of_ne, held]
      rintro rfl
      rw [sound.kmalloc_fresh owner grants.1] at held
      cases held
    · exact held
  · rw [live] at present
    split at present
    · by_cases here : p = (machine.kmalloc owner size).1
      · rw [here, Function.update_self] at present
        cases present
        exact .inr rfl
      · rw [Function.update_of_ne here] at present
        exact .inl present
    · exact .inl present

section Step

variable {machine : Machine} (paging : machine.PagingSound)

include paging

theorem Machine.PagingSound.directory {chunk : Word} (live : machine.LiveChunk chunk) :
    ∃ directory, machine.HasChunk chunk directory := by
  obtain ⟨base, isChunk⟩ := live
  obtain ⟨table, has⟩ := paging.chunks chunk base isChunk
  exact ⟨_, has⟩

/-- A write through a live chunk updates its address space. -/
theorem Machine.PagingSound.write_update {chunk : Word} {directory : PageDirectory}
    (has : machine.HasChunk chunk directory) (write : ChunkWrite) :
    ∃ space, ChunkUpdate machine.memory
        (write.apply machine.memory chunk) chunk directory space := by
  have chunkAt := has.chunkAt paging.sound
  cases write with
  | mapTo vaddr paddr pend flags =>
      by_cases accepts : MapToAccepts vaddr paddr pend
      · exact ⟨_, (chunkAt.pagingMapTo accepts flags).2⟩
      · refine ⟨directory.space machine.memory, ?_⟩
        simp only [ChunkWrite.apply, pagingMapTo_refused _ _ accepts]
        exact ChunkUpdate.refl chunkAt
  | set vaddr val =>
      simp only [ChunkWrite.apply, has.root]
      by_cases aligned : vaddr.toNat % 4096 = 0
      · exact ⟨_, (chunkAt.pagingSet aligned val).2⟩
      · refine ⟨directory.space machine.memory, ?_⟩
        unfold pagingSet
        rw [if_pos (mt (pagingAligned_iff vaddr).mp aligned)]
        exact ChunkUpdate.refl chunkAt

theorem Machine.PagingSound.step {op : PagingOp} (legal : machine.PagingLegal op) :
    (machine.pagingStep op).PagingSound := by
  cases op with
  | newChunk flags =>
      rcases made : machine.pagingNewChunk flags with _ | ⟨chunk, next⟩ <;>
        simp only [Machine.pagingStep, made]
      · exact paging
      · obtain ⟨directory, new⟩ := paging.sound.pagingNewChunk made
        exact paging.newChunk new
  | freeChunk chunk =>
      obtain ⟨directory, has⟩ := paging.directory legal
      exact paging.freeChunk has
  | write chunk write =>
      obtain ⟨directory, has⟩ := paging.directory legal
      obtain ⟨space, update⟩ := paging.write_update has write
      exact paging.write has update
  | malloc size =>
      obtain ⟨grown, origin⟩ := paging.sound.kmalloc_grown .kernel size
      refine paging.grown grown fun chunk base ⟨size, present⟩ => ?_
      rcases origin chunk _ present with before | absent
      · exact ⟨size, before⟩
      · cases absent
  | free p =>
      obtain ⟨size, held⟩ := legal
      exact paging.kfree held id

/-- Chunks with the same address space give the same lookups. -/
theorem Machine.HasChunk.sameLookups {next : Machine} {chunk : Word} {directory : PageDirectory}
    (has : machine.HasChunk chunk directory) (nextPaging : next.PagingSound)
    (hasNext : next.HasChunk chunk directory)
    (same : directory.space next.memory = directory.space machine.memory) :
    SameLookups machine next chunk := by
  intro v
  have wired := (has.chunkAt paging.sound).wired
  have wiredNext := (hasNext.chunkAt nextPaging.sound).wired
  have entry : directory.entry next.memory v = directory.entry machine.memory v := congrFun same v
  rw [has.root, hasNext.root]
  refine ⟨?_, ?_, ?_⟩
  · rw [pagingGet_eq wired, pagingGet_eq wiredNext, entry]
  · rw [pagingGetPaddr_eq wired, pagingGetPaddr_eq wiredNext, same]
  · rw [pagingGetFlags_eq wired, pagingGetFlags_eq wiredNext, same]

/-- A chunk that is not touched keeps its address space. -/
theorem Machine.HasChunk.step_untouched {chunk : Word} {directory : PageDirectory}
    (has : machine.HasChunk chunk directory) {op : PagingOp} (legal : machine.PagingLegal op)
    (untouched : ¬ op.Touches chunk) : (machine.pagingStep op).HasChunk chunk directory ∧
      directory.space (machine.pagingStep op).memory = directory.space machine.memory := by
  cases op with
  | newChunk flags =>
      rcases made : machine.pagingNewChunk flags with _ | ⟨fresh, next⟩ <;>
        simp only [Machine.pagingStep, made]
      · exact ⟨has, trivial⟩
      · obtain ⟨added, new⟩ := paging.sound.pagingNewChunk made
        exact new.grown.hasChunk has paging.sound
  | freeChunk other =>
      obtain ⟨second, hasOther⟩ := paging.directory legal
      have different : chunk ≠ other := fun same => untouched same.symm
      have apart := paging.base_ne different has.isChunk hasOther.isChunk
      have parts := fun p => has.parts_disjoint hasOther apart (p := p)
      exact (hasOther.pagingFreeChunk paging.sound).hasChunk paging.sound has (parts _ (.inl rfl))
        (parts _ (.inr (.inl rfl))) fun i inside => parts _ (.inr (.inr ⟨i, inside, rfl⟩))
  | write other write =>
      obtain ⟨second, hasOther⟩ := paging.directory legal
      obtain ⟨space, update⟩ := paging.write_update hasOther write
      exact paging.write_other hasOther update has fun same => untouched same.symm
  | malloc size =>
      exact (paging.sound.kmalloc_grown .kernel size).1.hasChunk has paging.sound
  | free p =>
      obtain ⟨size, held⟩ := legal
      exact paging.kfree_hasChunk held id has

end Step

/-- The chunk translates every virtual address to itself, with these flags. -/
def IdentityChunk (machine : Machine) (chunk : Word) (flags : Byte) : Prop :=
  let directory := machine.memory.load32 chunk
  ∀ vaddr, pagingGetPaddr machine.memory directory vaddr = vaddr ∧
    pagingGetFlags machine.memory directory vaddr = flagWord flags

theorem Machine.PagingSound.write_sameLookups {machine : Machine} (paging : machine.PagingSound)
    {chunk other : Word} (live : machine.LiveChunk chunk) (liveOther : machine.LiveChunk other)
    (different : other ≠ chunk) (write : ChunkWrite) :
    SameLookups machine (machine.pagingStep (.write chunk write)) other := by
  obtain ⟨directory, has⟩ := paging.directory live
  obtain ⟨second, hasOther⟩ := paging.directory liveOther
  obtain ⟨space, update⟩ := paging.write_update has write
  obtain ⟨hasNext, same⟩ := paging.write_other has update hasOther different
  exact hasOther.sameLookups paging (paging.write has update) hasNext same

/-- A chunk of identity entries stays one along a trace that does not touch it. -/
theorem Machine.PagingSound.identity_exec {machine : Machine} (paging : machine.PagingSound)
    {chunk : Word} {directory : PageDirectory} (has : machine.HasChunk chunk directory)
    {flags : Byte}
    (identity : directory.space machine.memory = AddressSpace.identity (flagWord flags))
    {ops : List PagingOp} (legal : Along Machine.pagingStep Machine.PagingLegal machine ops)
    (untouched : ∀ op ∈ ops, ¬ op.Touches chunk) :
    IdentityChunk (exec Machine.pagingStep machine ops) chunk flags := by
  induction ops generalizing machine with
  | nil =>
      intro v
      have wired := (has.chunkAt paging.sound).wired
      rw [exec, has.root, pagingGetPaddr_eq wired, pagingGetFlags_eq wired, identity]
      exact ⟨AddressSpace.translate_identity (flagWord_lt flags) v,
        AddressSpace.flags_identity (flagWord_lt flags) v⟩
  | cons op ops ih =>
      obtain ⟨permitted, rest⟩ := legal
      obtain ⟨kept, same⟩ := has.step_untouched paging permitted (untouched op List.mem_cons_self)
      exact ih (paging.step permitted) kept (same.trans identity) rest
        fun later member => untouched later (List.mem_cons_of_mem op member)

/-- **Page directories do not interfere.** In every state reached from a freshly created
kernel heap, a write through one live chunk changes no lookup in another live chunk; and a
chunk that has not been written through or freed since `paging_new_chunk` returned it is
the identity map with the flags it was created with. -/
theorem paging_non_interference (memory : ByteMemory) {ops : List PagingOp}
    (legal : Along Machine.pagingStep Machine.PagingLegal (Machine.booted memory) ops) :
    let machine := exec Machine.pagingStep (Machine.booted memory) ops
    (∀ chunk other write, machine.LiveChunk chunk → machine.LiveChunk other → other ≠ chunk →
      SameLookups machine (machine.pagingStep (.write chunk write)) other) ∧
    (∀ before flags after chunk next, ops = before ++ .newChunk flags :: after →
      (exec Machine.pagingStep (Machine.booted memory) before).pagingNewChunk flags =
        some (chunk, next) →
      (∀ op ∈ after, ¬ op.Touches chunk) → IdentityChunk machine chunk flags) := by
  have reached : ∀ {ops : List PagingOp},
      Along Machine.pagingStep Machine.PagingLegal (Machine.booted memory) ops →
        (exec Machine.pagingStep (Machine.booted memory) ops).PagingSound :=
    invariant_exec Machine.PagingSound (fun _ _ paging legal => paging.step legal)
      (Machine.booted_pagingSound memory)
  intro machine
  refine ⟨fun chunk other write live liveOther different =>
    (reached legal).write_sameLookups live liveOther different write, ?_⟩
  rintro before flags after chunk next rfl made untouched
  obtain ⟨legalBefore, permitted, legalAfter⟩ := Along.append_iff.mp legal
  have paging := reached legalBefore
  obtain ⟨directory, new⟩ := paging.sound.pagingNewChunk made
  have step : (exec Machine.pagingStep (Machine.booted memory) before).pagingStep
      (.newChunk flags) = next := by
    simp only [Machine.pagingStep, made]
  rw [step] at legalAfter
  have whole : machine = exec Machine.pagingStep next after := by
    rw [← step]
    exact exec_append _ before (.newChunk flags :: after)
  rw [whole]
  exact (paging.newChunk new).identity_exec new.has new.space legalAfter untouched

/-- Two chunks and a write through the second one, with enough free blocks. -/
theorem Machine.PagingSound.secondChunk_legal {machine : Machine} (paging : machine.PagingSound)
    (enough : 2052 ≤ machine.freeBlocks.card) (write : ChunkWrite) : ∃ chunk other next,
    machine.pagingNewChunk 7 = some (chunk, next) ∧ other ≠ chunk ∧
      Along Machine.pagingStep Machine.PagingLegal machine
        [.newChunk 7, .newChunk 5, .write other write] := by
  obtain ⟨chunk, next, made, left⟩ := paging.sound.pagingNewChunk_some 7 (by omega)
  have left := left.card
  obtain ⟨first, new⟩ := paging.sound.pagingNewChunk made
  obtain ⟨other, last, again, _⟩ := new.grown.sound.pagingNewChunk_some 5 (by omega)
  obtain ⟨second, newOther⟩ := new.grown.sound.pagingNewChunk again
  have stepFirst : machine.pagingStep (.newChunk 7) = next := by
    simp only [Machine.pagingStep, made]
  have stepSecond : next.pagingStep (.newChunk 5) = last := by
    simp only [Machine.pagingStep, again]
  have different : other ≠ chunk := by
    rintro rfl
    have absent := newOther.fresh
    rw [new.has.held] at absent
    cases absent
  have enoughFirst : machine.PagingLegal (.newChunk 7) := show 1026 ≤ _ by omega
  have enoughSecond : next.PagingLegal (.newChunk 5) := show 1026 ≤ _ by omega
  have live : last.PagingLegal (.write other write) := ⟨_, newOther.has.isChunk⟩
  refine ⟨chunk, other, next, made, different, enoughFirst, ?_, ?_, trivial⟩
  · rw [stepFirst]
    exact enoughSecond
  · rw [stepFirst, stepSecond]
    exact live
/-- A first chunk is the identity after a second one has been written through. -/
theorem paging_non_interference_booted : ∃ chunk other next,
    (Machine.booted fun _ => 0).pagingNewChunk 7 = some (chunk, next) ∧ other ≠ chunk ∧
      IdentityChunk (exec Machine.pagingStep (Machine.booted fun _ => 0)
        [.newChunk 7, .newChunk 5, .write other (.mapTo 0x400000 0x01000000 0x01001000 7)])
        chunk 7 := by
  have enough : 2052 ≤ (Machine.booted fun _ => 0).freeBlocks.card := by
    rw [Machine.booted_card]
    decide
  obtain ⟨chunk, other, next, made, different, legal⟩ :=
    (Machine.booted_pagingSound fun _ => 0).secondChunk_legal enough
      (.mapTo 0x400000 0x01000000 0x01001000 7)
  refine ⟨chunk, other, next, made, different, ?_⟩
  have untouched : ∀ op ∈ [PagingOp.newChunk 5,
      .write other (.mapTo 0x400000 0x01000000 0x01001000 7)], ¬ op.Touches chunk := by
    intro op member
    simp only [List.mem_cons, List.not_mem_nil, or_false] at member
    rcases member with rfl | rfl
    · exact id
    · exact different
  exact (paging_non_interference (fun _ => 0) legal).2 [] 7 _ chunk next rfl made untouched

end Phix
