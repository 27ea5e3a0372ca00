import Mathlib.Logic.Function.Basic
import Mathlib.Tactic.IntervalCases
import Phix.Heap.Scan

/-! # What marking and freeing write

The continuation flag is the ninth bit of an eight-bit entry, so storing it is
lost (`Phix.HeapBlockTableEntry.orFlag_hasNext`) and reading it gives zero
(`Phix.HeapBlockTableEntry.andFlag_hasNext`). Marking therefore writes
the taken type into exactly the requested blocks (`Phix.heapMarkBlocksTaken_entries`),
and freeing clears exactly one block (`Phix.heapMarkBlocksFree_entries`).
-/

namespace Phix

/-- The ninth bit does not survive the store into eight bits. -/
theorem HeapBlockTableEntry.orFlag_hasNext (entry : HeapBlockTableEntry) :
    entry.orFlag heapBlockHasNext = entry := by
  unfold HeapBlockTableEntry.orFlag heapBlockHasNext
  ext i inside
  simp

/-- An eight-bit entry has no ninth bit. -/
theorem HeapBlockTableEntry.andFlag_hasNext (entry : HeapBlockTableEntry) :
    entry.andFlag heapBlockHasNext = 0 := by
  unfold HeapBlockTableEntry.andFlag heapBlockHasNext
  ext i inside
  rw [BitVec.getElem_and, BitVec.getElem_setWidth]
  rcases Nat.lt_or_ge i 8 with low | high
  · interval_cases i <;> simp
  · rw [BitVec.getLsbD_of_ge entry i high, Bool.false_and]
    simp

/-- The entry of a block of a fresh allocation that starts at block `start`. -/
def markedEntry (start i : ℕ) : HeapBlockTableEntry :=
  if i = start then HeapBlockTableEntry.orFlag heapBlockTableEntryTaken heapBlockIsFirst
  else heapBlockTableEntryTaken

theorem heapType_markedEntry (start i : ℕ) :
    heapType (markedEntry start i) = heapBlockTableEntryTaken := by
  unfold markedEntry
  split <;> decide

/-- From its second iteration on, the marking loop writes the plain taken type. -/
private theorem heapMarkBlocksTaken.loop_taken (endBlock : Int) (remaining i : ℕ)
    (entries : ℕ → HeapBlockTableEntry) (j : ℕ) :
    heapMarkBlocksTaken.loop endBlock remaining i heapBlockTableEntryTaken entries j =
      if i ≤ j ∧ j < i + remaining then heapBlockTableEntryTaken else entries j := by
  induction remaining generalizing i entries with
  | zero =>
      rw [if_neg (by omega)]
      rfl
  | succ remaining ih =>
      simp only [heapMarkBlocksTaken.loop, HeapBlockTableEntry.orFlag_hasNext, ite_self]
      rw [ih]
      by_cases here : j = i
      · rw [if_neg (by omega), if_pos (by omega), here, Function.update_self]
      · rw [Function.update_of_ne here]
        simp only [show i + 1 ≤ j ∧ j < i + 1 + remaining ↔ i ≤ j ∧
          j < i + (remaining + 1) by omega]

private theorem heapMarkBlocksTaken.loop_marked (endBlock : Int) (remaining start : ℕ)
    (entries : ℕ → HeapBlockTableEntry) (j : ℕ) :
    heapMarkBlocksTaken.loop endBlock remaining start (markedEntry start start) entries j =
      if start ≤ j ∧ j < start + remaining then markedEntry start j else entries j := by
  cases remaining with
  | zero =>
      rw [if_neg (by omega)]
      rfl
  | succ remaining =>
      simp only [heapMarkBlocksTaken.loop, HeapBlockTableEntry.orFlag_hasNext, ite_self]
      rw [loop_taken]
      by_cases here : j = start
      · rw [if_neg (by omega), if_pos (by omega), here, Function.update_self]
      · rw [Function.update_of_ne here]
        simp only [show start + 1 ≤ j ∧ j < start + 1 + remaining ↔
          start ≤ j ∧ j < start + (remaining + 1) by omega, markedEntry, here, ↓reduceIte]

/-- The number of iterations of the marking loop. -/
def markedCount (start totalBlocks : Word) : ℕ :=
  ((start + totalBlocks - 1).toInt - start.toInt + 1).toNat

theorem heapMarkBlocksTaken_entries_count (table : HeapTable) (start totalBlocks : Word) (j : ℕ) :
    (heapMarkBlocksTaken table start totalBlocks).entries j =
      if start.toNat ≤ j ∧ j < start.toNat + markedCount start totalBlocks then
        markedEntry start.toNat j else table.entries j := by
  rw [← heapMarkBlocksTaken.loop_marked (start + totalBlocks - 1).toInt]
  unfold heapMarkBlocksTaken markedCount markedEntry
  simp only [HeapBlockTableEntry.orFlag_hasNext, ite_self, ↓reduceIte]

@[simp] theorem heapMarkBlocksTaken_total (table : HeapTable) (start totalBlocks : Word) :
    (heapMarkBlocksTaken table start totalBlocks).total = table.total := rfl

/-- Within the range of `int`, the loop marks every requested block. -/
theorem markedCount_eq {start totalBlocks : Word} (positive : 1 ≤ totalBlocks.toNat)
    (fits : start.toNat + totalBlocks.toNat ≤ 2 ^ 31) :
    markedCount start totalBlocks = totalBlocks.toNat := by
  have last : (start + totalBlocks - 1).toNat = start.toNat + totalBlocks.toNat - 1 := by
    rw [BitVec.toNat_sub_of_le, BitVec.toNat_add, Nat.mod_eq_of_lt (by omega)]
    · rfl
    · rw [BitVec.le_def, BitVec.toNat_add, Nat.mod_eq_of_lt (by omega)]
      change 1 ≤ _
      omega
  unfold markedCount
  rw [BitVec.toInt_eq_toNat_of_lt (by omega), BitVec.toInt_eq_toNat_of_lt (by omega), last]
  omega

/-- **Marking writes exactly the requested blocks.** -/
theorem heapMarkBlocksTaken_entries (table : HeapTable) {start totalBlocks : Word}
    (positive : 1 ≤ totalBlocks.toNat) (fits : start.toNat + totalBlocks.toNat ≤ 2 ^ 31) (j : ℕ) :
    (heapMarkBlocksTaken table start totalBlocks).entries j =
      if start.toNat ≤ j ∧ j < start.toNat + totalBlocks.toNat then
        markedEntry start.toNat j else table.entries j := by
  rw [heapMarkBlocksTaken_entries_count, markedCount_eq positive fits]

/-- A block count of zero, or one that is negative as an `int`, marks nothing: the last
block it computes lies before the first. -/
theorem heapMarkBlocksTaken_of_wrapped (table : HeapTable) {start totalBlocks : Word}
    (low : start.toNat < 2 ^ 30)
    (wrapped : totalBlocks = 0 ∨ 2 ^ 32 - 2 ^ 30 ≤ totalBlocks.toNat) :
    heapMarkBlocksTaken table start totalBlocks = table := by
  have none : markedCount start totalBlocks = 0 := by
    unfold markedCount
    have := totalBlocks.isLt
    have sum : (start + totalBlocks - 1).toNat =
        (start.toNat + totalBlocks.toNat + (2 ^ 32 - 1)) % 2 ^ 32 := by
      rw [BitVec.toNat_sub, BitVec.toNat_add]
      change (2 ^ 32 - 1 + (start.toNat + totalBlocks.toNat) % 2 ^ 32) % 2 ^ 32 = _
      omega
    rw [BitVec.toInt_eq_toNat_cond, BitVec.toInt_eq_toNat_of_lt (by omega), sum]
    have magnitude : totalBlocks.toNat = 0 ∨ 2 ^ 32 - 2 ^ 30 ≤ totalBlocks.toNat :=
      by
      rcases wrapped with rfl | negative
      · exact .inl rfl
      · exact .inr negative
    split <;> omega
  refine HeapTable.ext ?_ rfl
  funext j
  rw [heapMarkBlocksTaken_entries_count, none, if_neg (by omega)]

/-- **Freeing clears exactly one block**, whatever the length of the allocation. -/
theorem heapMarkBlocksFree_entries (table : HeapTable) (start : Word) :
    (heapMarkBlocksFree table start).entries =
      if start.toNat < table.total.toNat then
        Function.update table.entries start.toNat heapBlockTableEntryFree
      else table.entries := by
  unfold heapMarkBlocksFree
  by_cases inside : start.toNat < table.total.toNat
  · obtain ⟨rest, count⟩ := Nat.exists_eq_add_of_lt inside
    have remaining : table.total.toNat - start.toNat = rest + 1 := by omega
    simp only [remaining, heapMarkBlocksFree.loop, HeapBlockTableEntry.andFlag_hasNext,
      ↓reduceIte, inside]
  · have remaining : table.total.toNat - start.toNat = 0 := by omega
    simp only [remaining, heapMarkBlocksFree.loop, inside, ↓reduceIte]

@[simp] theorem heapMarkBlocksFree_total (table : HeapTable) (start : Word) :
    (heapMarkBlocksFree table start).total = table.total := rfl

end Phix
