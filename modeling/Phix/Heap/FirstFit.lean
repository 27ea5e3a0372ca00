import Phix.Heap.Marking

/-! # First fit

When the table has a run of free blocks that is long enough, `heap_malloc_blocks` takes the
least one and marks exactly its blocks (`Phix.heap_malloc_blocks_is_first_fit`). The scan keeps
the start of its run in an `int`, so the table has to have fewer than `2^31` blocks;
`heap_create` accepts fewer than `2^20` (`Phix.heapCreate_pool`).
-/

namespace Phix

/-- A request for `n` blocks takes the blocks `s`, ..., `s + n - 1` of a heap. -/
structure FirstFit (heap : Heap) (n s : ℕ) (address : Word) (after : Heap) : Prop where
  run : heap.table.FreeRun s n
  least : ∀ t, heap.table.FreeRun t n → s ≤ t
  address : address = heap.saddr + BitVec.ofNat 32 (4096 * s)
  changed : ∀ i, after.table.entries i ≠ heap.table.entries i ↔ s ≤ i ∧ i < s + n
  taken : ∀ i, s ≤ i → i < s + n →
    heapType (after.table.entries i) = heapBlockTableEntryTaken
  isFirst : ∀ i, s ≤ i → i < s + n →
    (HeapBlockTableEntry.andFlag (after.table.entries i) heapBlockIsFirst ≠ 0 ↔ i = s)
  saddr : after.saddr = heap.saddr
  total : after.table.total = heap.table.total

theorem andFlag_markedEntry (start i : ℕ) :
    HeapBlockTableEntry.andFlag (markedEntry start i) heapBlockIsFirst ≠ 0 ↔ i = start := by
  unfold markedEntry
  by_cases here : i = start
  · rw [if_pos here]
    exact iff_of_true (by decide) here
  · rw [if_neg here]
    exact iff_of_false (by decide) here

theorem heapBlockToAddress_ofNat (heap : Heap) (s : ℕ) :
    heapBlockToAddress heap (BitVec.ofNat 32 s) = heap.saddr + BitVec.ofNat 32 (4096 * s) := by
  unfold heapBlockToAddress
  rw [Nat.mul_comm, BitVec.ofNat_mul]
  rfl

/-- The least of the runs that are long enough is the one that the scan returns. -/
theorem heapGetStartBlock_of_freeRun (heap : Heap) (totalBlocks : Word)
    (small : heap.table.total.toNat < 2 ^ 31) (positive : 1 ≤ totalBlocks.toNat)
    (available : ∃ s, heap.table.FreeRun s totalBlocks.toNat) :
    ∃ s : ℕ, heapGetStartBlock heap totalBlocks = s ∧
      heap.table.FreeRun s totalBlocks.toNat ∧
      ∀ t, heap.table.FreeRun t totalBlocks.toNat → s ≤ t := by
  have outcome := heapGetStartBlock_outcome heap totalBlocks small
  generalize heapGetStartBlock heap totalBlocks = returned at outcome
  cases outcome with
  | found s _ run least =>
      refine ⟨s, rfl, run, fun t other => ?_⟩
      by_contra earlier
      exact least t (not_le.mp earlier) other.2
  | tail s _ _ missed => exact absurd available (NoRun.not_freeRun (missed positive))
  | full _ missed => exact absurd available (NoRun.not_freeRun (missed positive))

/-- Marking a free run changes the entries of the run only. -/
theorem markedEntry_ne_of_isFree {table : HeapTable} {i : ℕ} (free : table.IsFree i) (start : ℕ) :
    markedEntry start i ≠ table.entries i := by
  intro same
  have type : heapType (table.entries i) = heapBlockTableEntryTaken :=
    same ▸ heapType_markedEntry start i
  exact absurd (free.symm.trans type) (by decide)

private theorem firstFit_of_least {heap : Heap} {totalBlocks : Word} {s : ℕ}
    (small : heap.table.total.toNat < 2 ^ 31) (positive : 1 ≤ totalBlocks.toNat)
    (run : heap.table.FreeRun s totalBlocks.toNat)
    (least : ∀ t, heap.table.FreeRun t totalBlocks.toNat → s ≤ t) :
    FirstFit heap totalBlocks.toNat s (heapBlockToAddress heap (BitVec.ofNat 32 s))
      { heap with table := heapMarkBlocksTaken heap.table (BitVec.ofNat 32 s) totalBlocks } := by
  have inside := run.1
  have start : (BitVec.ofNat 32 s).toNat = s := by
    rw [BitVec.toNat_ofNat]
    exact Nat.mod_eq_of_lt (by omega)
  have entries := @heapMarkBlocksTaken_entries heap.table (BitVec.ofNat 32 s) totalBlocks positive
    (by omega)
  rw [start] at entries
  refine ⟨run, least, heapBlockToAddress_ofNat heap s, fun i => ?_, fun i lower upper => ?_,
    fun i lower upper => ?_, rfl, rfl⟩
  · change (heapMarkBlocksTaken heap.table _ totalBlocks).entries i ≠ _ ↔ _
    rw [entries]
    by_cases marked : s ≤ i ∧ i < s + totalBlocks.toNat
    · rw [if_pos marked]
      exact iff_of_true (markedEntry_ne_of_isFree (run.2 i marked.1 marked.2) s) marked
    · rw [if_neg marked]
      exact iff_of_false (not_not.mpr rfl) marked
  · change heapType ((heapMarkBlocksTaken heap.table _ totalBlocks).entries i) = _
    rw [entries, if_pos ⟨lower, upper⟩]
    exact heapType_markedEntry s i
  · change HeapBlockTableEntry.andFlag
      ((heapMarkBlocksTaken heap.table _ totalBlocks).entries i) heapBlockIsFirst ≠ 0 ↔ _
    rw [entries, if_pos ⟨lower, upper⟩]
    exact andFlag_markedEntry s i

/-- **Allocation is first fit and marks exactly its run.** -/
theorem heap_malloc_blocks_is_first_fit (heap : Heap) (totalBlocks : Word)
    (small : heap.table.total.toNat < 2 ^ 31) (positive : 1 ≤ totalBlocks.toNat)
    (available : ∃ s, heap.table.FreeRun s totalBlocks.toNat) :
    ∃ s, FirstFit heap totalBlocks.toNat s (heapMallocBlocks heap totalBlocks).1
      (heapMallocBlocks heap totalBlocks).2 := by
  obtain ⟨s, returned, run, least⟩ :=
    heapGetStartBlock_of_freeRun heap totalBlocks small positive available
  refine ⟨s, ?_⟩
  have found : ¬ heapGetStartBlock heap totalBlocks < 0 := by
    rw [returned]
    exact not_lt.mpr (Int.natCast_nonneg s)
  unfold heapMallocBlocks
  rw [if_neg found, returned, BitVec.ofInt_natCast]
  exact firstFit_of_least small positive run least

/-- A table of five blocks, of which the second is taken. -/
def fragmentedHeap : Heap where
  table :=
    { entries := fun i => if i = 1 then markedEntry 1 1 else heapBlockTableEntryFree
      total := 5 }
  saddr := 0x1000000

/-- A request for two blocks does not fit before the taken block. -/
theorem heap_malloc_blocks_skips_short_run :
    ∃ s, FirstFit fragmentedHeap (2 : Word).toNat s (heapMallocBlocks fragmentedHeap 2).1
      (heapMallocBlocks fragmentedHeap 2).2 := by
  refine heap_malloc_blocks_is_first_fit fragmentedHeap 2 (by decide) (by decide)
    ⟨2, by decide, fun i lower upper => ?_⟩
  have different : i ≠ 1 := by omega
  exact HeapTable.isFree_of_entry (if_neg different)

end Phix
