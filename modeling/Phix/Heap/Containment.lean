import Phix.Heap.System

/-! # Does an allocation stay inside the table?

`heap_malloc_blocks` should return null exactly when no run of free blocks is long
enough, and otherwise stay inside the table. It does so when there is such a run, and when
there is none and the last block is taken; with the last block free and no run that is long
enough it returns the short run at the end of the table
(`Phix.mallocContained_iff`).
-/

namespace Phix

open Runs Traces

/-- The containment that the caller of `heap_malloc_blocks` relies on. -/
def MallocContained (heap : Heap) (totalBlocks : Word) : Prop :=
  let p := (heapMallocBlocks heap totalBlocks).1
  (p = null ↔ ¬ ∃ s, heap.table.FreeRun s totalBlocks.toNat) ∧
    (p ≠ null → heap.blockIndex p + totalBlocks.toNat ≤ heap.table.total.toNat ∧
      ∀ (table : HeapTable) (i : ℕ), heap.table.total.toNat ≤ i →
        (heapMarkBlocksTaken table (BitVec.ofNat 32 (heap.blockIndex p)) totalBlocks).entries i =
          table.entries i)

/-- A block of a pool that does not start at the null pointer has an address. -/
theorem Heap.Pool.blockAddress_ne_null {heap : Heap} (pool : heap.Pool)
    (nonNull : heap.saddr ≠ null)
    {s : ℕ} (inside : s < heap.table.total.toNat) : heap.blockAddress s ≠ null := by
  intro isNull
  have address := pool.blockAddress_toNat inside
  rw [isNull] at address
  have zero : heap.saddr.toNat = 0 := by
    change 0 = _ at address
    omega
  exact nonNull (BitVec.eq_of_toNat_eq zero)

/-- Containment holds exactly when a run is long enough or the last block is taken. -/
theorem mallocContained_iff_of_pool {heap : Heap} (pool : heap.Pool) (nonNull : heap.saddr ≠ null)
    {totalBlocks : Word} (positive : 1 ≤ totalBlocks.toNat) :
    MallocContained heap totalBlocks ↔
      (∃ s, heap.table.FreeRun s totalBlocks.toNat) ∨ ¬ heap.table.TailFree := by
  have small := pool.small
  have outcome := heapMallocBlocks_outcome pool totalBlocks
  unfold MallocContained
  generalize heapMallocBlocks heap totalBlocks = result at outcome
  cases outcome with
  | failed taken missed =>
      refine iff_of_true ⟨iff_of_true rfl (NoRun.not_freeRun (missed positive)), ?_⟩ (.inr taken)
      exact fun notNull => absurd rfl notNull
  | found s _ run least =>
      have started : s < heap.table.total.toNat := by
        have := run.1
        omega
      have notNull := pool.blockAddress_ne_null nonNull started
      refine iff_of_true ⟨iff_of_false notNull (not_not.mpr ⟨s, run⟩), fun _ => ?_⟩
        (.inl ⟨s, run⟩)
      dsimp only
      rw [pool.blockIndex_blockAddress started]
      refine ⟨run.1, fun table i beyond => ?_⟩
      have start : (BitVec.ofNat 32 s).toNat = s := by
        rw [BitVec.toNat_ofNat, Nat.mod_eq_of_lt (by omega)]
      have fits := run.1
      rw [heapMarkBlocksTaken_entries table positive (by omega), start, if_neg (by omega)]
  | overrun s started run missed =>
      have notNull := pool.blockAddress_ne_null nonNull started
      have absent := NoRun.not_freeRun (missed positive)
      refine iff_of_false (fun contained => notNull (contained.1.mpr absent)) ?_
      rintro (present | taken)
      · exact absent present
      · exact taken (HeapTable.tailFree_of_run started run)

/-- Every call keeps the pool where `heap_create` put it. -/
theorem HeapState.step_pool {state : HeapState} (pool : state.heap.Pool) (op : HeapOp) :
    (state.step op).heap.Pool ∧ (state.step op).heap.saddr = state.heap.saddr := by
  have kept : (state.step op).heap.saddr = state.heap.saddr ∧
      (state.step op).heap.table.total = state.heap.table.total := by
    cases op with
    | malloc size => exact ⟨heapMalloc_saddr _ size, heapMalloc_total _ size⟩
    | free p => exact ⟨heapFree_saddr _ p, heapFree_total _ p⟩
  refine ⟨⟨?_, ?_⟩, kept.1⟩
  · rw [kept.1]
    exact pool.aligned
  · rw [kept.1, kept.2]
    exact pool.bounded

theorem HeapState.reachable_pool {heap : Heap} (pool : heap.Pool) (ops : List HeapOp) :
    (exec HeapState.step (HeapState.created heap) ops).heap.Pool ∧
      (exec HeapState.step (HeapState.created heap) ops).heap.saddr = heap.saddr := by
  have permitted : Along HeapState.step (fun _ _ => True) (HeapState.created heap) ops :=
    along_of_forall (fun _ _ => trivial) _ ops
  refine invariant_exec (fun state => state.heap.Pool ∧ state.heap.saddr = heap.saddr) ?_
    ⟨pool, rfl⟩ permitted
  rintro state op ⟨before, based⟩ _
  obtain ⟨after, kept⟩ := state.step_pool before op
  exact ⟨after, kept.trans based⟩

/-- **When an allocation is contained.** In every state reached from a created heap whose pool
does not start at the null pointer, `heap_malloc_blocks` is contained exactly when a run of
free blocks is long enough or the last block of the table is taken. -/
theorem heap_containment_iff {initial heap : Heap} {start stop : Word} {table : HeapTable}
    (created : heapCreate initial start stop table = (0, heap)) (ordered : start ≤ stop)
    (nonNull : start ≠ null) (ops : List HeapOp) (totalBlocks : Word)
    (positive : 1 ≤ totalBlocks.toNat) :
    let state := exec HeapState.step (HeapState.created heap) ops
    MallocContained state.heap totalBlocks ↔
      (∃ s, state.heap.table.FreeRun s totalBlocks.toNat) ∨ ¬ state.heap.table.TailFree := by
  intro state
  obtain ⟨pool, based, _⟩ := heapCreate_pool created ordered
  obtain ⟨reached, kept⟩ := HeapState.reachable_pool pool ops
  exact mallocContained_iff_of_pool reached (by rw [kept, based]; exact nonNull) positive

theorem heap_containment_iff_smallHeap :
    MallocContained (exec HeapState.step (HeapState.created smallHeap) [.malloc 4096]).heap 3 :=
  (heap_containment_iff smallHeap_created (by decide) (by decide) [.malloc 4096] 3 (by decide)).mpr
    (.inl ⟨1, by decide, fun i lower upper => by
      have cases : i = 1 ∨ i = 2 ∨ i = 3 := by
        have bound : i < 1 + 3 := upper
        omega
      rcases cases with rfl | rfl | rfl <;> rfl⟩)

/-- A request for five blocks of a four-block heap returns the whole table as if it were
long enough. -/
theorem heap_containment_overrun :
    1 ≤ (5 : Word).toNat ∧
      ¬ MallocContained (exec HeapState.step (HeapState.created smallHeap) []).heap 5 := by
  refine ⟨by decide, fun contained => ?_⟩
  have returned : (heapMallocBlocks smallHeap 5).1 = 0x1000 := by decide
  have notNull : (heapMallocBlocks smallHeap 5).1 ≠ null := by decide
  have fits : smallHeap.blockIndex 0x1000 + 5 ≤ 4 := returned ▸ (contained.2 notNull).1
  exact absurd fits (by decide)

end Phix
