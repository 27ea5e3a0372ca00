import Phix.Memory.PagingSystem
import Phix.Memory.Refusal

/-! # Creating and freeing a chunk leaves the heap as it was

`paging_new_chunk` marks the entries of 1026 free blocks, and `paging_free_chunk` clears the
entries of the same blocks, whose addresses it reads back from words that no mapping call
writes. A free block's entry is zero in every state the heap is brought to
(`Phix.HeapReached.clearEntries`), so the block table is what it was, and so is all memory
outside the blocks that were free (`Phix.paging_chunk_heap_neutral`).
-/

namespace Phix

open Traces

/-- The address of the entry of a block. -/
def entryAddress (i : ℕ) : Word := phixHeapTableAddress + BitVec.ofNat 32 i

theorem entryAddress_toNat {i : ℕ} (inside : i < 25600) : (entryAddress i).toNat = 0x7E00 + i := by
  unfold entryAddress
  rw [BitVec.toNat_add, BitVec.toNat_ofNat]
  change (0x7E00 + i % 2 ^ 32) % 2 ^ 32 = _
  omega

theorem entryAddress_low {i : ℕ} (inside : i < 25600) : (entryAddress i).toNat < tableLimit := by
  rw [entryAddress_toNat inside]
  unfold tableLimit
  omega

/-- The address is that of the entry of a pool block in the set. -/
def IsEntryOf (parts : Set Word) (x : Word) : Prop :=
  ∃ i < 25600, poolBlock i ∈ parts ∧ x = entryAddress i

theorem isEntryOf_iff {parts : Set Word} {i : ℕ} (inside : i < 25600) :
    IsEntryOf parts (entryAddress i) ↔ poolBlock i ∈ parts := by
  constructor
  · rintro ⟨j, bound, member, same⟩
    have value := congrArg BitVec.toNat same
    rw [entryAddress_toNat inside, entryAddress_toNat bound] at value
    obtain rfl : i = j := by omega
    exact member
  · exact fun member => ⟨i, inside, member, rfl⟩

theorem entryAddress_index {x : Word} {i : ℕ} (inside : i < 25600) :
    (x - phixHeapTableAddress).toNat = i ↔ x = entryAddress i := by
  unfold entryAddress
  constructor
  · rintro rfl
    rw [BitVec.ofNat_toNat, BitVec.setWidth_eq, add_sub_cancel]
  · rintro rfl
    rw [add_sub_cancel_left, BitVec.toNat_ofNat]
    exact Nat.mod_eq_of_lt (by omega)

/-- Free blocks were taken for the allocations in `parts`, each of one block, and of the memory
below the table limit only their entries were written. -/
structure Machine.Marks (machine next : Machine) (parts : Set Word) : Prop where
  free : ∀ p ∈ parts, ∃ i < 25600, p = poolBlock i ∧ (kernelHeap machine.memory).table.IsFree i
  low : ∀ x : Word, x.toNat < tableLimit → ¬ IsEntryOf parts x → next.memory x = machine.memory x
  origin : ∀ p allocation, next.live p = some allocation →
    machine.live p = some allocation ∨ p ∈ parts ∧ allocation.size.toNat ≤ 4096

namespace Machine.Marks

variable {machine middle next : Machine} {earlier later : Set Word}

theorem isFree (marks : machine.Marks middle earlier) {i : ℕ} (inside : i < 25600)
    (free : (kernelHeap middle.memory).table.IsFree i) :
    (kernelHeap machine.memory).table.IsFree i := by
  by_cases part : poolBlock i ∈ earlier
  · obtain ⟨j, bound, same, isFree⟩ := marks.free _ part
    exact poolBlock_injective inside bound same ▸ isFree
  · have entry := marks.low _ (entryAddress_low inside) (mt (isEntryOf_iff inside).mp part)
    unfold HeapTable.IsFree at free ⊢
    change heapType (middle.memory (entryAddress i)) = _ at free
    rwa [entry] at free

theorem trans (first : machine.Marks middle earlier) (second : middle.Marks next later) :
    machine.Marks next (earlier ∪ later) where
  free p member := by
    rcases member with before | after
    · exact first.free p before
    · obtain ⟨i, inside, same, free⟩ := second.free p after
      exact ⟨i, inside, same, first.isFree inside free⟩
  low x below outside := by
    have apart : ∀ {parts}, parts ⊆ earlier ∪ later → ¬ IsEntryOf parts x :=
      fun within ⟨i, inside, member, same⟩ => outside ⟨i, inside, within member, same⟩
    exact (second.low x below (apart Set.subset_union_right)).trans
      (first.low x below (apart Set.subset_union_left))
  origin p allocation held := by
    rcases second.origin p allocation held with before | ⟨part, small⟩
    · exact (first.origin p allocation before).imp_right fun ⟨part, small⟩ => ⟨.inl part, small⟩
    · exact .inr ⟨.inr part, small⟩

/-- A write above the table limit. -/
theorem write (marks : machine.Marks next earlier) {memory : ByteMemory}
    (low : ∀ x : Word, x.toNat < tableLimit → memory x = next.memory x) :
    machine.Marks { next with memory } earlier where
  free := marks.free
  low x below outside := (low x below).trans (marks.low x below outside)
  origin := marks.origin

end Machine.Marks

/-- `kzalloc` of at most a block takes one free block. -/
theorem Machine.HeapSound.kzalloc_marks {machine : Machine} (sound : machine.HeapSound)
    (owner : Owner) {size : Word} (positive : 1 ≤ size.toNat) (small : size.toNat ≤ 4096)
    (found : (machine.kzalloc owner size).1 ≠ null) :
    machine.Marks (machine.kzalloc owner size).2 {(machine.kzalloc owner size).1} := by
  have proper : Proper size := ⟨positive, by unfold maxRequest; omega⟩
  have single : blockCount size = 1 := by
    unfold blockCount
    omega
  have free := mt (machine.kzalloc_eq_null_iff owner positive small).mpr found
  obtain ⟨i, member⟩ := Finset.nonempty_iff_ne_empty.mpr free
  rw [Machine.mem_freeBlocks] at member
  have present : ∃ s, (kernelHeap machine.memory).table.FreeRun s (blockCount size) := by
    rw [single]
    exact ⟨i, member.1, Runs.isRun_one member.2⟩
  obtain ⟨s, after, ⟨fits, run⟩, _, result, _, _, entries⟩ :=
    heapMalloc_found (kernelHeap_pool machine.memory) proper.1 proper.2 present
  rw [single] at fits run entries
  rw [kernelHeap_total, totalTableEntries_toNat] at fits
  have inside : s < 25600 := fits
  have pointer : (machine.kzalloc owner size).1 = poolBlock s := congrArg Prod.fst result
  have table : (machine.kmalloc owner size).2.memory = storeTable after.table :=
    congrArg (fun result : Word × Heap => storeTable result.2.table) result
  have cleared := sound.kzalloc owner proper found
  refine ⟨fun p member => ?_, fun x below outside => ?_, fun p allocation held => ?_⟩
  · exact ⟨s, inside, member.trans pointer, run s le_rfl (Nat.lt_succ_self s)⟩
  · have elsewhere : (x - phixHeapTableAddress).toNat ≠ s := by
      intro index
      exact outside ⟨s, inside, pointer.symm, (entryAddress_index inside).mp index⟩
    rw [sound.kzalloc_low owner proper found below, table]
    refine storeTable_apply ((entries _).trans (if_neg ?_))
    rw [Extents.Extent.mem_indices]
    dsimp only
    omega
  · rw [cleared.live] at held
    by_cases here : p = (machine.kzalloc owner size).1
    · rw [here, Function.update_self] at held
      cases held
      exact .inr ⟨here, small⟩
    · rw [Function.update_of_ne here] at held
      exact .inl held

/-- The tables of a new directory take one free block each. -/
theorem Machine.Building.newTables_marks {machine start : Machine} {base : Word} {flags : Byte}
    {table : ℕ → Word} (initial : machine.Building start base flags 0 table) {i : ℕ}
    (bound : i ≤ 1024) {next : Machine} {offset : Word}
    (made : start.newTables base flags i = some (next, offset)) :
    ∃ table, machine.Building next base flags i table ∧
      start.Marks next {p | ∃ j < i, p = table j} := by
  refine (initial.newTables_invariant (I := fun i table next =>
    start.Marks next {p | ∃ j < i, p = table j}) ?_ ?_ bound made).2
  · exact ⟨fun p ⟨j, absent, _⟩ => absurd absent (Nat.not_lt_zero j), fun _ _ _ => rfl,
      fun _ _ held => .inl held⟩
  · intro i table middle inside building found marks
    have sound := building.grown.sound
    have cleared := sound.kzalloc (.table base i) tableSize_proper found
    have heldBase := cleared.grown.kept _ _ building.held
    have added := sound.kzalloc_marks (.table base i) tableSize_proper.1 tableSize_toNat.le found
    have parts : ∀ entry : Word, {p | ∃ j < i, p = table j} ∪ {entry} =
        {p | ∃ j < i + 1, p = Function.update table i entry j} := by
      intro entry
      ext p
      constructor
      · rintro (⟨j, before, rfl⟩ | rfl)
        · exact ⟨j, by omega, (Function.update_of_ne before.ne ..).symm⟩
        · exact ⟨i, Nat.lt_succ_self i, by rw [Function.update_self]⟩
      · rintro ⟨j, below, rfl⟩
        rcases Nat.lt_succ_iff_lt_or_eq.mp below with before | rfl
        · exact .inl ⟨j, before, Function.update_of_ne before.ne ..⟩
        · exact .inr (Function.update_self ..)
    rw [← parts]
    refine (marks.trans added).write fun x low => ?_
    exact setTable_apply (cleared.sound.aligned cleared.held) (cleared.sound.aligned heldBase) _
      flags _ inside (cleared.sound.pageNumber_ne_of_low cleared.held low)
      (cleared.sound.pageNumber_ne_of_low heldBase low)

/-- A new chunk takes the blocks of its parts. -/
theorem Machine.HeapSound.pagingNewChunk_marks {machine next : Machine} (sound : machine.HeapSound)
    {flags : Byte} {chunk : Word} (made : machine.pagingNewChunk flags = some (chunk, next)) :
    ∃ directory, machine.NewChunk flags chunk directory next ∧
      machine.Marks next {p | ChunkPart chunk directory p} := by
  obtain ⟨middle, offset, found, tables, foundChunk, rfl, rfl⟩ := Machine.pagingNewChunk_cases made
  have cleared := sound.kzalloc .directory tableSize_proper found
  have first := sound.kzalloc_marks .directory tableSize_proper.1 tableSize_toNat.le found
  obtain ⟨table, building, marks⟩ := (cleared.building flags).newTables_marks le_rfl tables
  generalize (machine.kzalloc .directory (4 * pagingTotalEntriesPerTable)).1 = base at *
  have last := building.grown.sound.kzalloc (.chunk base) (show Proper 4 by decide) foundChunk
  have added := building.grown.sound.kzalloc_marks (.chunk base)
    (show 1 ≤ (4 : Word).toNat by decide) (by decide) foundChunk
  refine ⟨_, building.finish last, ?_⟩
  have parts : {base} ∪ {p | ∃ j < 1024, p = table j} ∪
      {(middle.kzalloc (.chunk base) 4).1} =
      {p | ChunkPart (middle.kzalloc (.chunk base) 4).1 ⟨base, table⟩ p} := by
    ext p
    constructor
    · rintro ((rfl | tables) | rfl)
      · exact .inr (.inl rfl)
      · exact .inr (.inr tables)
      · exact .inl rfl
    · rintro (rfl | rfl | tables)
      · exact .inr rfl
      · exact .inl (.inl rfl)
      · exact .inl (.inr tables)
  rw [← parts]
  refine ((first.trans marks).trans added).write fun x low => ?_
  apply ByteMemory.store32_apply_of_far
  by_contra near
  exact absurd (last.sound.tableLimit_le last.held (not_le.mp near)) (not_le.mpr low)

/-- Of the memory below the table limit exactly the entries of the blocks in `parts` were
written, with zero. -/
structure Machine.Clears (machine next : Machine) (parts : Set Word) : Prop where
  zero : ∀ x : Word, IsEntryOf parts x → next.memory x = 0
  same : ∀ x : Word, x.toNat < tableLimit → ¬ IsEntryOf parts x → next.memory x = machine.memory x

theorem Machine.Clears.trans {machine middle next : Machine} {earlier later : Set Word}
    (first : machine.Clears middle earlier) (second : middle.Clears next later) :
    machine.Clears next (earlier ∪ later) where
  zero x member := by
    by_cases last : IsEntryOf later x
    · exact second.zero x last
    · obtain ⟨i, inside, part, same⟩ := member
      have before : IsEntryOf earlier x :=
        ⟨i, inside, part.resolve_right fun after => last ⟨i, inside, after, same⟩, same⟩
      rw [second.same x (same ▸ entryAddress_low inside) last, first.zero x before]
  same x below outside := by
    have apart : ∀ {parts}, parts ⊆ earlier ∪ later → ¬ IsEntryOf parts x :=
      fun within ⟨i, inside, member, same⟩ => outside ⟨i, inside, within member, same⟩
    exact (second.same x below (apart Set.subset_union_right)).trans
      (first.same x below (apart Set.subset_union_left))

theorem Machine.kfree_clears (machine : Machine) {s : ℕ} (inside : s < 25600) :
    machine.Clears (machine.kfree (poolBlock s)) {poolBlock s} := by
  have entries : (heapFree (kernelHeap machine.memory) (poolBlock s)).table.entries =
      Function.update (kernelHeap machine.memory).table.entries s heapBlockTableEntryFree :=
    (heapFree_blockAddress_entries (kernelHeap_pool machine.memory) inside
      (poolBlock_ne_null inside)).trans (if_pos (by omega))
  constructor
  · rintro x ⟨i, bound, member, rfl⟩
    obtain rfl := poolBlock_injective bound inside member
    change storeTable (heapFree (kernelHeap machine.memory) (poolBlock i)).table _ = 0
    unfold storeTable
    rw [entries, (entryAddress_index bound).mpr rfl, Function.update_self]
    rfl
  · intro x _ outside
    refine storeTable_apply ?_
    rw [entries, Function.update_of_ne]
    exact fun index => outside ⟨s, inside, rfl, (entryAddress_index inside).mp index⟩

section Free

variable {machine : Machine} (sound : machine.HeapSound) {chunk : Word}
  {directory : PageDirectory} (has : machine.HasChunk chunk directory)

include sound has

theorem Machine.HasChunk.freeTables_clears {i : ℕ} (bound : i ≤ 1024) :
    machine.Clears (machine.freeTables chunk i) {p | ∃ j < i, p = directory.table j} := by
  induction i with
  | zero =>
      exact ⟨fun _ ⟨_, _, ⟨_, absent, _⟩, _⟩ => absurd absent (Nat.not_lt_zero _), fun _ _ _ => rfl⟩
  | succ i ih =>
      obtain ⟨s, inside, pointer, _⟩ := sound.pointer (has.tables i (by omega))
      have parts : {p | ∃ j < i, p = directory.table j} ∪ {poolBlock s} =
          {p | ∃ j < i + 1, p = directory.table j} := by
        ext p
        rw [← pointer]
        exact Nat.exists_lt_succ_right.symm
      rw [has.freeTables_succ sound (by omega) (has.freeTables sound (by omega)), ← parts, pointer]
      exact (ih (by omega)).trans (Machine.kfree_clears _ inside)

/-- Freeing a chunk clears the entries of its parts. -/
theorem Machine.HasChunk.pagingFreeChunk_clears :
    machine.Clears (machine.pagingFreeChunk chunk) {p | ChunkPart chunk directory p} := by
  obtain ⟨s, baseInside, basePointer, _⟩ := sound.pointer has.base
  obtain ⟨t, chunkInside, chunkPointer, _⟩ := sound.pointer has.held
  have parts : {p | ∃ j < 1024, p = directory.table j} ∪ {poolBlock s} ∪ {poolBlock t} =
      {p | ChunkPart chunk directory p} := by
    ext p
    rw [← basePointer, ← chunkPointer]
    constructor
    · rintro ((table | base) | atChunk)
      · exact .inr (.inr table)
      · exact .inr (.inl base)
      · exact .inl atChunk
    · rintro (atChunk | base | table)
      · exact .inr atChunk
      · exact .inl (.inr base)
      · exact .inl (.inl table)
  have all := ((has.freeTables_clears sound le_rfl).trans (Machine.kfree_clears _ baseInside)).trans
    (Machine.kfree_clears _ chunkInside)
  rw [parts, ← basePointer, ← chunkPointer] at all
  rw [has.pagingFreeChunk_eq sound]
  exact all

end Free

/-- A call that maps through a chunk. -/
inductive ChunkCall where
  | set (vaddr val : Word)
  | map (vaddr paddr : Word) (flags : Byte)
  | mapTo (vaddr paddr pend : Word) (flags : Byte)

def ChunkCall.apply (chunk : Word) (memory : ByteMemory) : ChunkCall → ByteMemory
  | .set vaddr val => (pagingSet memory (memory.load32 chunk) vaddr val).2
  | .map vaddr paddr flags => (pagingMap memory chunk vaddr paddr flags).2
  | .mapTo vaddr paddr pend flags => (pagingMapTo memory chunk vaddr paddr pend flags).2

theorem ChunkAt.call {memory : ByteMemory} {chunk : Word} {directory : PageDirectory}
    (chunkAt : ChunkAt memory chunk directory) (call : ChunkCall) :
    ∃ space, ChunkUpdate memory (call.apply chunk memory) chunk directory space := by
  have idle := ChunkUpdate.refl chunkAt
  cases call with
  | set vaddr val =>
      simp only [ChunkCall.apply, chunkAt.root]
      by_cases aligned : vaddr.toNat % 4096 = 0
      · exact ⟨_, (chunkAt.pagingSet aligned val).2⟩
      · unfold Phix.pagingSet
        rw [if_pos (mt (pagingAligned_iff vaddr).mp aligned)]
        exact ⟨_, idle⟩
  | map vaddr paddr flags =>
      by_cases aligned : vaddr.toNat % 4096 = 0 ∧ paddr.toNat % 4096 = 0
      · exact ⟨_, (chunkAt.pagingMap aligned.1 aligned.2 flags).2⟩
      · simp only [ChunkCall.apply]
        unfold Phix.pagingMap
        rw [if_pos]
        · exact ⟨_, idle⟩
        · rwa [pagingAligned_iff, pagingAligned_iff, ← not_and_or]
  | mapTo vaddr paddr pend flags =>
      by_cases accepts : MapToAccepts vaddr paddr pend
      · exact ⟨_, (chunkAt.pagingMapTo accepts flags).2⟩
      · simp only [ChunkCall.apply, pagingMapTo_refused _ _ accepts]
        exact ⟨_, idle⟩

/-- Calls through a chunk write its page tables only. -/
theorem ChunkAt.calls {memory : ByteMemory} {chunk : Word} {directory : PageDirectory}
    (chunkAt : ChunkAt memory chunk directory) (calls : List ChunkCall) :
    ∃ space, ChunkUpdate memory (calls.foldl (ChunkCall.apply chunk) memory) chunk directory
      space := by
  induction calls generalizing memory with
  | nil => exact ⟨_, ChunkUpdate.refl chunkAt⟩
  | cons call calls ih =>
      obtain ⟨_, update⟩ := chunkAt.call call
      obtain ⟨space, rest⟩ := ih update.chunkAt
      exact ⟨space, rest.chunkAt, rest.mapped,
        fun x outside => (rest.outside x outside).trans (update.outside x outside)⟩

/-- The entry of a free block is `HEAP_BLOCK_TABLE_ENTRY_FREE`, with no flag set. -/
def ClearEntries (memory : ByteMemory) : Prop :=
  ∀ i < 25600, (kernelHeap memory).table.IsFree i → memory (entryAddress i) = 0

/-- The address lies in a block that is free. -/
def InFreeBlock (memory : ByteMemory) (x : Word) : Prop :=
  ∃ i < 25600, (kernelHeap memory).table.IsFree i ∧ (x - poolBlock i).toNat < 4096

/-- The machine after `paging_new_chunk`, calls through the chunk and `paging_free_chunk`. -/
def Machine.afterChunk (next : Machine) (chunk : Word) (calls : List ChunkCall) : Machine :=
  { next with memory := calls.foldl (ChunkCall.apply chunk) next.memory }.pagingFreeChunk chunk

section AfterChunk

variable {machine next : Machine} (sound : machine.HeapSound) {flags : Byte} {chunk : Word}
  (made : machine.pagingNewChunk flags = some (chunk, next)) (calls : List ChunkCall)

include sound made

/-- The chunk is still there after the calls, and only its page tables were written. -/
theorem Machine.HeapSound.mappedChunk : ∃ directory,
    machine.NewChunk flags chunk directory next ∧
      machine.Marks next {p | ChunkPart chunk directory p} ∧
      ({ next with memory := calls.foldl (ChunkCall.apply chunk) next.memory } :
        Machine).HeapSound ∧
      ({ next with memory := calls.foldl (ChunkCall.apply chunk) next.memory } :
        Machine).HasChunk chunk directory ∧
      ∀ x, pageNumber x ∉ directory.tableFrames →
        calls.foldl (ChunkCall.apply chunk) next.memory x = next.memory x := by
  obtain ⟨directory, new, marks⟩ := sound.pagingNewChunk_marks made
  obtain ⟨_, update⟩ := (new.has.chunkAt new.grown.sound).calls calls
  refine ⟨directory, new, marks, new.grown.sound.of_agree rfl fun x low => update.outside x ?_,
    ⟨new.has.held, new.has.base, new.has.tables, update.chunkAt.root,
      update.chunkAt.wired.pointers⟩, update.outside⟩
  rintro ⟨i, inside, same⟩
  exact new.grown.sound.pageNumber_ne_of_low (new.has.tables i inside) low same.symm

/-- On a sound heap a chunk that has come and gone leaves all memory outside the blocks that were
free as it was. -/
theorem Machine.HeapSound.afterChunk_memory (clear : ClearEntries machine.memory) {x : Word}
    (outside : ¬ InFreeBlock machine.memory x) :
    (next.afterChunk chunk calls).memory x = machine.memory x := by
  obtain ⟨directory, new, marks, mapped, has, kept⟩ := sound.mappedChunk made calls
  have apart : ∀ p, ChunkPart chunk directory p → 4096 ≤ (x - p).toNat := by
    intro p part
    obtain ⟨i, inside, rfl, free⟩ := marks.free p part
    by_contra near
    exact outside ⟨i, inside, free, not_le.mp near⟩
  have untouched : pageNumber x ∉ directory.tableFrames := by
    rintro ⟨i, inside, same⟩
    have near :=
      (AddressSpace.offset_lt_iff (new.grown.sound.aligned (new.has.tables i inside)) x).mpr
      same.symm
    exact absurd (apart _ (.inr (.inr ⟨i, inside, rfl⟩))) (not_le.mpr near)
  rcases lt_or_ge x.toNat tableLimit with low | high
  · have clears := has.pagingFreeChunk_clears mapped
    by_cases entry : IsEntryOf {p | ChunkPart chunk directory p} x
    · obtain ⟨i, inside, part, rfl⟩ := entry
      obtain ⟨j, bound, same, free⟩ := marks.free _ part
      obtain rfl := poolBlock_injective inside bound same
      rw [clear i inside free]
      exact clears.zero _ ⟨i, inside, part, rfl⟩
    · exact ((clears.same x low entry).trans (kept x untouched)).trans (marks.low x low entry)
  · have released := (has.pagingFreeChunk mapped).memory x high
    refine (released.trans (kept x untouched)).trans (new.grown.memory x high ?_)
    rintro ⟨q, allocation, absent, present, inside⟩
    rcases marks.origin q allocation present with before | ⟨part, small⟩
    · rw [absent] at before
      cases before
    · exact absurd (apart q part) (not_le.mpr (inside.trans_le small))

/-- The allocations are what they were. -/
theorem Machine.HeapSound.afterChunk_live : (next.afterChunk chunk calls).live = machine.live := by
  obtain ⟨directory, new, marks, mapped, has, _⟩ := sound.mappedChunk made calls
  have released := has.pagingFreeChunk mapped
  funext p
  by_cases part : ChunkPart chunk directory p
  · obtain ⟨i, inside, rfl, free⟩ := marks.free p part
    rw [sound.not_live_of_free inside free]
    exact released.dropped _ part
  · refine (released.kept p part).trans ?_
    change next.live p = machine.live p
    rcases present : next.live p with _ | allocation
    · rcases before : machine.live p with _ | earlier
      · rfl
      · rw [new.grown.kept p earlier before] at present
        cases present
    · exact ((marks.origin p allocation present).resolve_right fun added => part added.1).symm

end AfterChunk

/-! Heap calls keep the entries of free blocks clear. -/

/-- A state of the kernel heap after `kheap_init`: reached by any heap calls, also ones that fail,
overrun the table or free what is not allocated, and by writes that spare the block table. -/
inductive HeapReached : Machine → Prop where
  | booted (memory : ByteMemory) : HeapReached (Machine.booted memory)
  | call {machine : Machine} (reached : HeapReached machine) (call : HeapCall) :
      HeapReached (machine.heapStep call)
  | store {machine : Machine} (reached : HeapReached machine) (memory : ByteMemory)
      (spared : ∀ i < 25600, memory (entryAddress i) = machine.memory (entryAddress i)) :
      HeapReached { machine with memory }

theorem heapMalloc_entry (heap : Heap) (size : Word) (i : ℕ) :
    (heapMalloc heap size).2.table.entries i = heap.table.entries i ∨
      heapType ((heapMalloc heap size).2.table.entries i) = heapBlockTableEntryTaken := by
  unfold heapMalloc heapMallocBlocks
  dsimp only
  split
  · exact .inl rfl
  · rw [heapMarkBlocksTaken_entries_count]
    split
    · exact .inr (heapType_markedEntry _ _)
    · exact .inl rfl

theorem ClearEntries.of_entries {memory other : ByteMemory} (clear : ClearEntries memory)
    (entries : ∀ i < 25600, other (entryAddress i) = memory (entryAddress i) ∨
      other (entryAddress i) = 0 ∨ heapType (other (entryAddress i)) = heapBlockTableEntryTaken) :
    ClearEntries other := by
  intro i inside free
  change heapType (other (entryAddress i)) = heapBlockTableEntryFree at free
  rcases entries i inside with same | zero | taken
  · rw [same] at free ⊢
    exact clear i inside free
  · exact zero
  · rw [taken] at free
    exact absurd free (by decide)

theorem ClearEntries.kmalloc {machine : Machine} (clear : ClearEntries machine.memory)
    (owner : Owner) (size : Word) : ClearEntries (machine.kmalloc owner size).2.memory := by
  refine clear.of_entries fun i inside => ?_
  have entry : (machine.kmalloc owner size).2.memory (entryAddress i) =
      (heapMalloc (kernelHeap machine.memory) size).2.table.entries i :=
    kernelHeap_storeTable_entries _ (by omega)
  rw [entry]
  exact (heapMalloc_entry (kernelHeap machine.memory) size i).imp_right .inr

theorem ClearEntries.step {machine : Machine} (clear : ClearEntries machine.memory)
    (call : HeapCall) : ClearEntries (machine.heapStep call).memory := by
  cases call with
  | kmalloc size => exact clear.kmalloc .kernel size
  | kzalloc size =>
      refine (clear.kmalloc .kernel size).of_entries fun i _ => ?_
      simp only [Machine.heapStep, machine.kzalloc_apply]
      split
      · exact .inr (.inl rfl)
      · exact .inl rfl
  | kfree p =>
      refine clear.of_entries fun i inside => ?_
      have entry : (machine.kfree p).memory (entryAddress i) =
          (heapFree (kernelHeap machine.memory) p).table.entries i :=
        kernelHeap_storeTable_entries _ (by omega)
      simp only [Machine.heapStep]
      rw [entry, heapFree_entries]
      split
      · rw [Function.update_apply]
        split
        · exact .inr (.inl rfl)
        · exact .inl rfl
      · exact .inl rfl

/-- In every state of the heap the entry of a free block is zero. -/
theorem HeapReached.clearEntries {machine : Machine} (reached : HeapReached machine) :
    ClearEntries machine.memory := by
  induction reached with
  | booted memory =>
      intro i inside _
      rw [Machine.booted_memory]
      have entry := kernelHeap_storeTable_entries (bootedHeap memory).table
        (lt_trans inside (show 25600 < 2 ^ 32 by decide))
      exact entry.trans (if_pos inside)
  | call _ call ih => exact ih.step call
  | store _ memory spared ih => exact ih.of_entries fun i inside => .inl (spared i inside)

/-! The code reads memory only, so the journal and the live allocations play no part. -/

theorem Machine.kzalloc_same {first second : Machine} (same : first.memory = second.memory)
    (owner : Owner) (size : Word) :
    (first.kzalloc owner size).1 = (second.kzalloc owner size).1 ∧
      (first.kzalloc owner size).2.memory = (second.kzalloc owner size).2.memory := by
  unfold Machine.kzalloc Machine.kmalloc
  rw [same]
  exact ⟨rfl, rfl⟩

theorem Machine.kfree_same {first second : Machine} (same : first.memory = second.memory)
    (p : Word) : (first.kfree p).memory = (second.kfree p).memory := by
  unfold Machine.kfree
  rw [same]

theorem Machine.newTables_same {first second : Machine} (same : first.memory = second.memory)
    (directory : Word) (flags : Byte) {i : ℕ} {next : Machine} {offset : Word}
    (made : first.newTables directory flags i = some (next, offset)) :
    ∃ other, second.newTables directory flags i = some (other, offset) ∧
      next.memory = other.memory := by
  induction i generalizing next offset with
  | zero =>
      cases made
      exact ⟨second, rfl, same⟩
  | succ i ih =>
      simp only [Machine.newTables, Option.bind_eq_bind, Option.bind_eq_some_iff] at made
      obtain ⟨⟨middle, start⟩, tables, made⟩ := made
      obtain ⟨other, others, agree⟩ := ih tables
      obtain ⟨pointer, memory⟩ := Machine.kzalloc_same agree (.table directory i)
        (4 * pagingTotalEntriesPerTable)
      simp only [Machine.newTables, others, Option.bind_eq_bind, Option.bind_some]
      rw [pointer] at made
      split at made
      · cases made
      · rename_i found
        cases made
        refine ⟨_, if_neg found, ?_⟩
        simp only [memory]

theorem Machine.pagingNewChunk_same {first second : Machine} (same : first.memory = second.memory)
    {flags : Byte} {chunk : Word} {next : Machine}
    (made : first.pagingNewChunk flags = some (chunk, next)) :
    ∃ other, second.pagingNewChunk flags = some (chunk, other) ∧ next.memory = other.memory := by
  unfold Machine.pagingNewChunk at made ⊢
  dsimp only at made ⊢
  obtain ⟨pointer, memory⟩ := Machine.kzalloc_same same .directory (4 * pagingTotalEntriesPerTable)
  rw [pointer] at made
  split at made
  · cases made
  · rename_i found
    simp only [Option.bind_eq_bind, Option.bind_eq_some_iff] at made
    obtain ⟨⟨middle, offset⟩, tables, made⟩ := made
    obtain ⟨other, others, agree⟩ := Machine.newTables_same memory _ flags tables
    generalize (second.kzalloc .directory (4 * pagingTotalEntriesPerTable)).1 = base at *
    obtain ⟨chunkPointer, last⟩ := Machine.kzalloc_same agree (.chunk base) 4
    dsimp only at made
    rw [chunkPointer] at made
    split at made
    · cases made
    · rename_i foundChunk
      cases made
      simp only [found, if_false, others, Option.bind_eq_bind, Option.bind_some, foundChunk]
      exact ⟨_, rfl, by simp only [last]⟩

theorem Machine.pagingFreeChunk_same {first second : Machine} (same : first.memory = second.memory)
    (chunk : Word) : (first.pagingFreeChunk chunk).memory =
    (second.pagingFreeChunk chunk).memory := by
  have tables : ∀ i, (first.freeTables chunk i).memory = (second.freeTables chunk i).memory := by
    intro i
    induction i with
    | zero => exact same
    | succ i ih =>
        simp only [Machine.freeTables]
        rw [ih]
        exact Machine.kfree_same ih _
  unfold Machine.pagingFreeChunk
  dsimp only
  rw [tables 1024]
  exact Machine.kfree_same (Machine.kfree_same (tables 1024) _) _

/-- The machine with no allocation recorded. -/
def Machine.bare (machine : Machine) : Machine :=
  { machine with live := fun _ => none, requests := [] }

theorem Machine.bare_sound (machine : Machine) : machine.bare.HeapSound :=
  heapInv_none (kernelHeap_pool machine.memory)

/-- **In every state of the heap with 1026 free blocks, a new chunk that is mapped through at will
and freed again leaves the block table as it was, with all memory outside the blocks that were free
and every allocation.** -/
theorem paging_chunk_heap_neutral {machine : Machine} (reached : HeapReached machine)
    (room : 1026 ≤ machine.freeBlocks.card) (flags : Byte) (calls : List ChunkCall) :
    ∃ chunk next, machine.pagingNewChunk flags = some (chunk, next) ∧
      (∀ i < 25600, (kernelHeap (next.afterChunk chunk calls).memory).table.entries i =
        (kernelHeap machine.memory).table.entries i) ∧
      (∀ x, ¬ InFreeBlock machine.memory x →
        (next.afterChunk chunk calls).memory x = machine.memory x) ∧
      (machine.HeapSound → (next.afterChunk chunk calls).live = machine.live) := by
  obtain ⟨chunk, plain, made, _⟩ := machine.bare_sound.pagingNewChunk_some flags room
  have memory : machine.bare.memory = machine.memory := rfl
  obtain ⟨next, allocated, same⟩ := Machine.pagingNewChunk_same memory made
  have after : (next.afterChunk chunk calls).memory = (plain.afterChunk chunk calls).memory := by
    apply Machine.pagingFreeChunk_same
    simp only [same]
  have outside : ∀ x, ¬ InFreeBlock machine.memory x →
      (next.afterChunk chunk calls).memory x = machine.memory x := by
    intro x apart
    rw [after]
    exact machine.bare_sound.afterChunk_memory made calls reached.clearEntries apart
  refine ⟨chunk, next, allocated, fun i inside => outside (entryAddress i) ?_, outside,
    fun sound => sound.afterChunk_live allocated calls⟩
  rintro ⟨j, bound, _, near⟩
  have block := poolBlock_toNat bound
  have entry := entryAddress_toNat inside
  rw [BitVec.toNat_sub] at near
  omega

/-- Right after `kheap_init`. -/
theorem paging_chunk_heap_neutral_booted :
    ∃ chunk next, (Machine.booted fun _ => 0).pagingNewChunk pagingIsPresent = some (chunk, next) ∧
      (∀ i < 25600, (kernelHeap (next.afterChunk chunk
          [.mapTo 0x400000 phixHeapSaddress (phixHeapSaddress + pagingPageSize)
            pagingIsWritable]).memory).table.entries i =
        (kernelHeap (Machine.booted fun _ => 0).memory).table.entries i) ∧
      (∀ x, ¬ InFreeBlock (Machine.booted fun _ => 0).memory x →
        (next.afterChunk chunk
          [.mapTo 0x400000 phixHeapSaddress (phixHeapSaddress + pagingPageSize)
            pagingIsWritable]).memory x = (Machine.booted fun _ => 0).memory x) ∧
      ((Machine.booted fun _ => 0).HeapSound → (next.afterChunk chunk
          [.mapTo 0x400000 phixHeapSaddress (phixHeapSaddress + pagingPageSize)
            pagingIsWritable]).live = (Machine.booted fun _ => 0).live) := by
  apply paging_chunk_heap_neutral (.booted _)
  rw [Machine.booted_card]
  decide

end Phix
