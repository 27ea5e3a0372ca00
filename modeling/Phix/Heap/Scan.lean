import Phix.Foundation.Runs
import Phix.Heap.Table

/-! # What the first-fit scan returns

`heapGetStartBlock` is classified once: it returns the least run of free blocks
of the requested length, or the start of a shorter run of free blocks that
reaches the end of the table, or `-ENOMEM` when the last block is taken
(`Phix.heapGetStartBlock_outcome`). The second case is a return without a run
that is long enough; the loop exit `bc == total_blocks` and the test after the
loop disagree exactly there.
-/

namespace Phix

open Runs

/-- The block has type `HEAP_BLOCK_TABLE_ENTRY_FREE`. -/
def HeapTable.IsFree (table : HeapTable) (i : ℕ) : Prop :=
  heapType (table.entries i) = heapBlockTableEntryFree

instance (table : HeapTable) : DecidablePred table.IsFree :=
  fun i => inferInstanceAs (Decidable (heapType (table.entries i) = heapBlockTableEntryFree))

theorem HeapTable.isFree_of_entry {table : HeapTable} {i : ℕ}
    (entry : table.entries i = heapBlockTableEntryFree) : table.IsFree i := by
  unfold HeapTable.IsFree
  rw [entry]
  decide

/-- `n` consecutive free blocks of the pool start at block `s`. -/
def HeapTable.FreeRun (table : HeapTable) (s n : ℕ) : Prop :=
  s + n ≤ table.total.toNat ∧ IsRun table.IsFree s n

/-- The table has a last block and it is free. -/
def HeapTable.TailFree (table : HeapTable) : Prop :=
  0 < table.total.toNat ∧ table.IsFree (table.total.toNat - 1)

/-- The `int` in which the scan keeps the start of its current run. -/
def scanStatus : Option ℕ → Int
  | none => -1
  | some s => s

theorem HeapTable.tailFree_iff_not_stops {table : HeapTable} :
    table.TailFree ↔ ¬ Stops table.IsFree table.total.toNat := by
  unfold HeapTable.TailFree Stops
  rw [not_or, not_not, Nat.pos_iff_ne_zero]

private theorem int_of_index {i : ℕ} (bound : i < 2 ^ 31) : (BitVec.ofNat 32 i).toInt = i := by
  rw [BitVec.toInt_eq_toNat_of_lt]
  · rw [BitVec.toNat_ofNat, Nat.mod_eq_of_lt (by omega)]
  · rw [BitVec.toNat_ofNat, Nat.mod_eq_of_lt (by omega)]
    omega

/-- The run start after a further free block. -/
private theorem scanStatus_startAt (i : ℕ) (current : Option ℕ) (bound : i < 2 ^ 31) :
    (if scanStatus current = -1 then (BitVec.ofNat 32 i).toInt else scanStatus current) =
      scanStatus (some (startAt i current)) := by
  cases current with
  | none =>
      rw [if_pos (show scanStatus none = -1 from rfl), int_of_index bound]
      rfl
  | some s =>
      have other : scanStatus (some s) ≠ -1 := by
        simp only [scanStatus]
        omega
      rw [if_neg other]
      rfl

/-- The scan from block `i` keeps `Runs.Progress` and ends in a `Runs.ScanOutcome`. -/
theorem heapGetStartBlock.loop_outcome (table : HeapTable) (totalBlocks : Word)
    (small : table.total.toNat < 2 ^ 31) :
    ∀ (remaining i : ℕ) (bc : Word) (current : Option ℕ), i + remaining = table.total.toNat →
      Progress table.IsFree totalBlocks.toNat i current → bc.toNat = i - startAt i current →
      ∃ result, heapGetStartBlock.loop table totalBlocks remaining i bc (scanStatus current) =
          scanStatus result ∧
        ScanOutcome table.IsFree totalBlocks.toNat table.total.toNat result := by
  intro remaining
  induction remaining with
  | zero =>
      intro i bc current reached progress _
      have atEnd : i = table.total.toNat := by omega
      exact ⟨current, rfl, (atEnd ▸ progress).finish⟩
  | succ remaining ih =>
      intro i bc current reached progress counted
      simp only [heapGetStartBlock.loop]
      by_cases free : table.IsFree i
      · have lower := progress.startAt_le
        have next : (bc + 1).toNat = i + 1 - startAt i current := by
          rw [BitVec.toNat_add, counted]
          change (i - startAt i current + 1) % 2 ^ 32 = _
          omega
        have isFree : heapType (table.entries i) = heapBlockTableEntryFree := free
        rw [if_neg (not_not.mpr isFree), scanStatus_startAt i current (by omega)]
        by_cases long : bc + 1 = totalBlocks
        · rw [if_pos long]
          refine ⟨some (startAt i current), rfl, progress.complete free ?_ (by omega)⟩
          rw [← next, long]
        · rw [if_neg long]
          refine ih (i + 1) (bc + 1) (some (startAt i current)) (by omega) ?_ next
          refine progress.extend free fun equal => long ?_
          exact BitVec.eq_of_toNat_eq (next.trans equal)
      · rw [if_pos (show heapType (table.entries i) ≠ heapBlockTableEntryFree from free)]
        refine ih (i + 1) 0 none (by omega) (progress.reset free) ?_
        simp [startAt]

/-- **The scan's three outcomes.** -/
inductive StartBlock (table : HeapTable) (n : ℕ) : Int → Prop where
  | found (s : ℕ) (positive : 1 ≤ n) (run : table.FreeRun s n)
      (least : ∀ t < s, ¬ IsRun table.IsFree t n) : StartBlock table n s
  | tail (s : ℕ) (started : s < table.total.toNat)
      (run : IsRun table.IsFree s (table.total.toNat - s))
      (missed : 1 ≤ n → NoRun table.IsFree n table.total.toNat) : StartBlock table n s
  | full (taken : ¬ table.TailFree) (missed : 1 ≤ n → NoRun table.IsFree n table.total.toNat) :
      StartBlock table n (-ENOMEM)

theorem heapGetStartBlock_outcome (heap : Heap) (totalBlocks : Word)
    (small : heap.table.total.toNat < 2 ^ 31) :
    StartBlock heap.table totalBlocks.toNat (heapGetStartBlock heap totalBlocks) := by
  obtain ⟨result, returned, outcome⟩ := heapGetStartBlock.loop_outcome heap.table totalBlocks small
    heap.table.total.toNat 0 0 none (Nat.zero_add _) (Progress.zero _) rfl
  unfold heapGetStartBlock
  change heapGetStartBlock.loop heap.table totalBlocks heap.table.total.toNat 0 0 (-1) = _
    at returned
  rw [returned]
  cases outcome with
  | found s positive fits run least =>
      rw [if_neg (by simp only [scanStatus]; omega)]
      exact .found s positive ⟨fits, run⟩ least
  | tail s started run missed =>
      rw [if_neg (by simp only [scanStatus]; omega)]
      exact .tail s started run missed
  | full stops missed =>
      rw [if_pos (show scanStatus none = -1 from rfl)]
      refine .full (fun tailFree => ?_) missed
      exact HeapTable.tailFree_iff_not_stops.mp tailFree stops

/-- The last block of a short run that reaches the end of the table is free. -/
theorem HeapTable.tailFree_of_run {table : HeapTable} {s : ℕ} (started : s < table.total.toNat)
    (run : IsRun table.IsFree s (table.total.toNat - s)) : table.TailFree :=
  ⟨by omega, run _ (by omega) (by omega)⟩

theorem NoRun.not_freeRun {table : HeapTable} {n : ℕ}
    (missed : NoRun table.IsFree n table.total.toNat) : ¬ ∃ s, table.FreeRun s n := by
  rintro ⟨s, fits, run⟩
  exact missed s fits run

end Phix
