import Phix.Foundation.Extents
import Phix.Heap.Allocation

/-! # Live allocations and the table

`Phix.HeapInv` relates a heap to the ghost record of its live allocations, the
size that was asked for under each pointer. An allocation may run past the end of
the table; its blocks inside the table are taken, and distinct live allocations
share no block. Allocating and freeing keep the invariant
(`Phix.HeapInv.malloc`, `Phix.HeapInv.free`) and leave the entries of every other
live allocation alone.
-/

namespace Phix

open Extents Runs

/-- The size of the live allocation at each pointer. -/
abbrev LiveSizes := Word → Option Word

/-- Record the allocation of `size` bytes at `p`, unless `p` is null. -/
def LiveSizes.grant (live : LiveSizes) (p size : Word) : LiveSizes :=
  if p = null then live else Function.update live p (some size)

/-- The blocks of `size` bytes at `p`. -/
def Heap.extent (heap : Heap) (p size : Word) : Extent := ⟨heap.blockIndex p, blockCount size⟩

def Heap.extents (heap : Heap) (live : LiveSizes) (p : Word) : Option Extent :=
  (live p).map (heap.extent p)

/-- The block has type `HEAP_BLOCK_TABLE_ENTRY_TAKEN`. -/
def HeapTable.IsTaken (table : HeapTable) (i : ℕ) : Prop :=
  heapType (table.entries i) = heapBlockTableEntryTaken

theorem HeapTable.IsFree.not_taken {table : HeapTable} {i : ℕ} (free : table.IsFree i) :
    ¬ table.IsTaken i := by
  intro taken
  exact absurd (free.symm.trans taken) (by decide)

structure HeapInv (heap : Heap) (live : LiveSizes) : Prop where
  pool : heap.Pool
  placed : Placed heap.table.IsTaken heap.table.total.toNat (heap.extents live)
  sized : ∀ p size, live p = some size → 1 ≤ size.toNat ∧ size.toNat ≤ maxRequest
  based : ∀ p size, live p = some size → heap.blockAddress (heap.blockIndex p) = p
  nonNull : live null = none

theorem one_le_blockCount {size : Word} (positive : 1 ≤ size.toNat) : 1 ≤ blockCount size := by
  unfold blockCount
  omega

theorem blockCount_le {size : Word} (bound : size.toNat ≤ maxRequest) :
    blockCount size < 2 ^ 19 := by
  unfold maxRequest at bound
  unfold blockCount
  omega

theorem Heap.extents_update (heap : Heap) (live : LiveSizes) (p : Word) (size : Option Word) :
    heap.extents (Function.update live p size) =
      Function.update (heap.extents live) p (size.map (heap.extent p)) := by
  funext q
  unfold Heap.extents
  by_cases same : q = p
  · rw [same, Function.update_self, Function.update_self]
  · rw [Function.update_of_ne same, Function.update_of_ne same]

theorem Heap.extents_of_live (heap : Heap) {live : LiveSizes} {p size : Word}
    (held : live p = some size) : heap.extents live p = some (heap.extent p size) := by
  unfold Heap.extents
  rw [held]
  rfl

/-- A freshly created heap has no live allocation. -/
theorem heapInv_none {heap : Heap} (pool : heap.Pool) : HeapInv heap fun _ => none where
  pool := pool
  placed := placed_none
  sized _ _ absent := by cases absent
  based _ _ absent := by cases absent
  nonNull := rfl

/-- A nonempty request is refused, or starts at a block of the pool from which all its
blocks inside the table are free; it then marks exactly its own blocks. -/
inductive Malloc (heap : Heap) (size : Word) : Word × Heap → Prop where
  | failed : Malloc heap size (null, heap)
  | placed (s : ℕ) (after : Heap) (started : s < heap.table.total.toNat)
      (free : ∀ i ∈ (Extent.mk s (blockCount size)).indices, i < heap.table.total.toNat →
        heap.table.IsFree i)
      (saddr : after.saddr = heap.saddr) (total : after.table.total = heap.table.total)
      (entries : ∀ i, after.table.entries i =
        if i ∈ (Extent.mk s (blockCount size)).indices then markedEntry s i
        else heap.table.entries i) :
      Malloc heap size (heap.blockAddress s, after)

theorem heapMalloc_outcome {heap : Heap} (pool : heap.Pool) {size : Word}
    (positive : 1 ≤ size.toNat) (bound : size.toNat ≤ maxRequest) :
    Malloc heap size (heapMalloc heap size) := by
  have small := pool.small
  have count := heapRequest_toNat bound
  have countPositive := one_le_blockCount positive
  have countSmall := blockCount_le bound
  have marks : ∀ s < heap.table.total.toNat, ∀ i,
      (heapMarkBlocksTaken heap.table (BitVec.ofNat 32 s) (heapRequest size)).entries i =
        if i ∈ (Extent.mk s (blockCount size)).indices then markedEntry s i
        else heap.table.entries i := by
    intro s started i
    have start : (BitVec.ofNat 32 s).toNat = s := by
      rw [BitVec.toNat_ofNat, Nat.mod_eq_of_lt (by omega)]
    rw [heapMarkBlocksTaken_entries _ (by omega) (by omega), start, count]
    rfl
  have outcome := heapMallocBlocks_outcome pool (heapRequest size)
  rw [← heapMalloc_eq] at outcome
  generalize heapMalloc heap size = result at outcome
  cases outcome with
  | failed => exact .failed
  | found s _ run =>
      have started : s < heap.table.total.toNat := by
        have := run.1
        omega
      refine .placed s _ started (fun i member _ => ?_) rfl rfl (marks s started)
      exact run.2 i member.1 (count ▸ member.2)
  | overrun s started run =>
      refine .placed s _ started (fun i member inner => ?_) rfl rfl (marks s started)
      exact run i member.1 (by omega)

/-- With a run that is long enough, an allocation takes the least one. -/
theorem heapMalloc_found {heap : Heap} (pool : heap.Pool) {size : Word} (positive : 1 ≤ size.toNat)
    (bound : size.toNat ≤ maxRequest) (present : ∃ s, heap.table.FreeRun s (blockCount size)) :
    ∃ s after, heap.table.FreeRun s (blockCount size) ∧
      (∀ t < s, ¬ IsRun heap.table.IsFree t (blockCount size)) ∧
      heapMalloc heap size = (heap.blockAddress s, after) ∧ after.saddr = heap.saddr ∧
      after.table.total = heap.table.total ∧
      ∀ i, after.table.entries i = if i ∈ (Extent.mk s (blockCount size)).indices then
        markedEntry s i else heap.table.entries i := by
  have count := heapRequest_toNat bound
  have countPositive := one_le_blockCount positive
  have outcome := heapMallocBlocks_outcome pool (heapRequest size)
  rw [← heapMalloc_eq] at outcome
  have impossible : (1 ≤ (heapRequest size).toNat →
      NoRun heap.table.IsFree (heapRequest size).toNat heap.table.total.toNat) → False := by
    intro missed
    rw [count] at missed
    exact NoRun.not_freeRun (missed countPositive) present
  generalize heapMalloc heap size = result at outcome
  cases outcome with
  | failed _ missed => exact (impossible missed).elim
  | overrun _ _ _ missed => exact (impossible missed).elim
  | found s _ run least =>
      rw [count] at run least
      have small := pool.small
      have fits := run.1
      have start : (BitVec.ofNat 32 s).toNat = s := by
        rw [BitVec.toNat_ofNat, Nat.mod_eq_of_lt (by omega)]
      refine ⟨s, _, run, least, rfl, rfl, rfl, fun i => ?_⟩
      rw [heapMarkBlocksTaken_entries _ (by omega) (by omega), start, count]
      rfl

/-- A size that is not proper marks nothing: the call fails, or it returns a free block. -/
theorem heapMalloc_of_not_proper {heap : Heap} (pool : heap.Pool) {size : Word}
    (improper : ¬ Proper size) :
    (¬ heap.table.TailFree ∧ heapMalloc heap size = (null, heap)) ∨
      heap.table.TailFree ∧ ∃ s < heap.table.total.toNat, heap.table.IsFree s ∧
        heapMalloc heap size = (heap.blockAddress s, heap) := by
  have small := pool.small
  have wrapped := heapRequest_of_not_proper improper
  have outcome := heapMallocBlocks_outcome pool (heapRequest size)
  rw [← heapMalloc_eq] at outcome
  generalize heapMalloc heap size = result at outcome
  cases outcome with
  | failed taken => exact .inl ⟨taken, rfl⟩
  | found s positive run =>
      have fits := run.1
      rcases wrapped with zero | negative
      · rw [zero] at positive
        exact absurd positive (by decide)
      · omega
  | overrun s started run =>
      have unmarked : heapMarkBlocksTaken heap.table (BitVec.ofNat 32 s) (heapRequest size) =
          heap.table := by
        refine heapMarkBlocksTaken_of_wrapped _ ?_ (wrapped.imp_right fun negative => by omega)
        rw [BitVec.toNat_ofNat]
        omega
      rw [unmarked]
      exact .inr ⟨HeapTable.tailFree_of_run started run, s, started, run s le_rfl (by omega), rfl⟩

section Step

variable {heap : Heap} {live : LiveSizes} (inv : HeapInv heap live)

include inv

theorem HeapInv.started {p size : Word} (held : live p = some size) :
    heap.blockIndex p < heap.table.total.toNat :=
  inv.placed.started p _ (heap.extents_of_live held)

theorem HeapInv.malloc_of_outcome {size : Word} (positive : 1 ≤ size.toNat)
    (bound : size.toNat ≤ maxRequest) {result : Word × Heap} (outcome : Malloc heap size result) :
    HeapInv result.2 (live.grant result.1 size) := by
  cases outcome with
  | failed => exact inv
  | placed s after started free saddr total entries =>
      have pool : after.Pool :=
        ⟨saddr ▸ inv.pool.aligned, by rw [saddr, total]; exact inv.pool.bounded⟩
      have index : ∀ p, after.blockIndex p = heap.blockIndex p := fun p => by
        unfold Heap.blockIndex
        rw [saddr]
      have address : ∀ t, after.blockAddress t = heap.blockAddress t := fun t => by
        unfold Heap.blockAddress heapBlockToAddress
        rw [saddr]
      have extents : ∀ sizes : LiveSizes, after.extents sizes = heap.extents sizes :=
          fun sizes => by
        funext p
        unfold Heap.extents Heap.extent
        rw [index]
      have taken : ∀ i ∈ (Extent.mk s (blockCount size)).indices, after.table.IsTaken i := by
        intro i member
        unfold HeapTable.IsTaken
        rw [entries i, if_pos member, heapType_markedEntry]
      have kept : ∀ i < heap.table.total.toNat, heap.table.IsTaken i → after.table.IsTaken i := by
        intro i _ before
        by_cases member : i ∈ (Extent.mk s (blockCount size)).indices
        · exact taken i member
        · unfold HeapTable.IsTaken
          rw [entries i, if_neg member]
          exact before
      unfold LiveSizes.grant
      by_cases isNull : heap.blockAddress s = null
      · simp only [isNull, ↓reduceIte]
        exact ⟨pool, by rw [extents, total]; exact inv.placed.mono kept, inv.sized,
          fun p found held => by rw [index, address]; exact inv.based p found held, inv.nonNull⟩
      · simp only [isNull, ↓reduceIte]
        have sameIndex := inv.pool.blockIndex_blockAddress started
        refine ⟨pool, ?_, ?_, ?_, ?_⟩
        · rw [extents, total, Heap.extents_update]
          change Placed _ _ (Function.update _ _ (some (Extent.mk (heap.blockIndex _) _)))
          rw [sameIndex]
          exact inv.placed.allocate _ started
            (fun i member inner => (free i member inner).not_taken)
            kept fun i member _ => taken i member
        · intro p found held
          by_cases same : p = heap.blockAddress s
          · rw [same, Function.update_self] at held
            cases held
            exact ⟨positive, bound⟩
          · rw [Function.update_of_ne same] at held
            exact inv.sized p found held
        · intro p found held
          rw [index, address]
          by_cases same : p = heap.blockAddress s
          · rw [same, sameIndex]
          · rw [Function.update_of_ne same] at held
            exact inv.based p found held
        · rw [Function.update_of_ne (Ne.symm isNull)]
          exact inv.nonNull

/-- Allocating keeps the invariant. -/
theorem HeapInv.malloc {size : Word} (positive : 1 ≤ size.toNat)
    (bound : size.toNat ≤ maxRequest) :
    HeapInv (heapMalloc heap size).2 (live.grant (heapMalloc heap size).1 size) :=
  inv.malloc_of_outcome positive bound (heapMalloc_outcome inv.pool positive bound)

/-- Allocating leaves every entry of a live allocation alone, past the table as well. -/
theorem HeapInv.malloc_entries {size : Word} (positive : 1 ≤ size.toNat)
    (bound : size.toNat ≤ maxRequest) {q held : Word} (owns : live q = some held) {i : ℕ}
    (member : i ∈ (heap.extent q held).indices) :
    (heapMalloc heap size).2.table.entries i = heap.table.entries i := by
  have outcome := heapMalloc_outcome inv.pool positive bound
  generalize heapMalloc heap size = result at outcome
  cases outcome with
  | failed => rfl
  | placed s after started free _ _ entries =>
      have apart : Disjoint (Extent.mk s (blockCount size)).indices (heap.extent q held).indices :=
        inv.placed.disjoint_of_unmarked (heap.extents_of_live owns) started
          fun j inside inner => (free j inside inner).not_taken
      rw [entries i, if_neg (Set.disjoint_right.mp apart member)]

/-- Freeing a live pointer clears its first block or, above two gigabytes, nothing. -/
theorem HeapInv.free_entries {p size : Word} (held : live p = some size) :
    (heapFree heap p).table.entries =
      if heap.blockIndex p < 2 ^ 19 then
        Function.update heap.table.entries (heap.blockIndex p) heapBlockTableEntryFree
      else heap.table.entries := by
  have nonNull : p ≠ null := fun isNull => by
    rw [isNull, inv.nonNull] at held
    cases held
  have address := inv.based p size held
  have entries := heapFree_blockAddress_entries inv.pool (inv.started held)
    (by rw [address]; exact nonNull)
  rwa [address] at entries

/-- Freeing a live pointer keeps the invariant. -/
theorem HeapInv.free {p size : Word} (held : live p = some size) :
    HeapInv (heapFree heap p) (Function.update live p none) := by
  have sized := inv.sized p size held
  have index : ∀ q, (heapFree heap p).blockIndex q = heap.blockIndex q := fun q => by
    unfold Heap.blockIndex
    rw [heapFree_saddr]
  have address : ∀ t, (heapFree heap p).blockAddress t = heap.blockAddress t := fun t => by
    unfold Heap.blockAddress heapBlockToAddress
    rw [heapFree_saddr]
  have older : ∀ q found, Function.update live p none q = some found → live q = some found := by
    intro q found present
    by_cases same : q = p
    · rw [same, Function.update_self] at present
      cases present
    · rwa [Function.update_of_ne same] at present
  refine ⟨⟨?_, ?_⟩, ?_, fun q found present => inv.sized q found (older q found present), ?_, ?_⟩
  · rw [heapFree_saddr]
    exact inv.pool.aligned
  · rw [heapFree_saddr, heapFree_total]
    exact inv.pool.bounded
  · have extents : (heapFree heap p).extents (Function.update live p none) =
        Function.update (heap.extents live) p none := by
      rw [← Option.map_none (f := heap.extent p), ← Heap.extents_update]
      funext q
      unfold Heap.extents Heap.extent
      rw [index]
    rw [extents, heapFree_total]
    refine inv.placed.release p (heap.extents_of_live held) fun i _ outside before => ?_
    have other : i ≠ heap.blockIndex p := fun same => outside (by
      have := one_le_blockCount sized.1
      exact same ▸ ⟨le_rfl, Nat.lt_add_of_pos_right this⟩)
    unfold HeapTable.IsTaken
    rw [inv.free_entries held]
    split
    · rw [Function.update_of_ne other]
      exact before
    · exact before
  · intro q found present
    rw [index, address]
    exact inv.based q found (older q found present)
  · by_cases same : null = p
    · rw [same, Function.update_self]
    · rw [Function.update_of_ne same]
      exact inv.nonNull

/-- Freeing a live pointer leaves the entries of every other live allocation alone. -/
theorem HeapInv.free_entries_other {p size : Word} (held : live p = some size) {q other : Word}
    (different : q ≠ p) (owns : live q = some other) {i : ℕ}
    (member : i ∈ (heap.extent q other).indices) :
    (heapFree heap p).table.entries i = heap.table.entries i := by
  have apart := inv.placed.separated q p _ _ different (heap.extents_of_live owns)
    (heap.extents_of_live held)
  have first : heap.blockIndex p ∈ (heap.extent p size).indices :=
    ⟨le_rfl, Nat.lt_add_of_pos_right (one_le_blockCount (inv.sized p size held).1)⟩
  have other : i ≠ heap.blockIndex p := fun same =>
    Set.disjoint_left.mp apart member (same ▸ first)
  rw [inv.free_entries held]
  split
  · rw [Function.update_of_ne other]
  · rfl

end Step

end Phix
