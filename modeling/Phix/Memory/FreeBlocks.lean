import Mathlib.Order.Interval.Finset.Nat
import Phix.Memory.NewChunk

/-! # Counting free blocks

Allocating at most one block takes exactly one free block when there is one
(`Phix.Machine.HeapSound.kzalloc_block`), so `paging_new_chunk` does not panic while 1026
blocks are free (`Phix.Machine.HeapSound.pagingNewChunk_some`).
-/

namespace Phix

open Extents Runs

def Machine.freeBlocks (machine : Machine) : Finset ℕ :=
  (Finset.range 25600).filter (kernelHeap machine.memory).table.IsFree

theorem Machine.mem_freeBlocks {machine : Machine} {i : ℕ} :
    i ∈ machine.freeBlocks ↔ i < 25600 ∧ (kernelHeap machine.memory).table.IsFree i := by
  unfold Machine.freeBlocks
  rw [Finset.mem_filter, Finset.mem_range]

/-- While few blocks are taken, there is a run of free ones. -/
theorem Machine.exists_freeRun {machine : Machine} {n : ℕ}
    (room : n * (25600 - machine.freeBlocks.card + 1) ≤ 25600) :
    ∃ s, (kernelHeap machine.memory).table.FreeRun s n := by
  have parts := (Finset.range 25600).card_filter_add_card_filter_not
    (kernelHeap machine.memory).table.IsFree
  rw [Finset.card_range] at parts
  have taken : ((Finset.range 25600).filter
      fun i => ¬ (kernelHeap machine.memory).table.IsFree i).card =
      25600 - machine.freeBlocks.card := by
    unfold Machine.freeBlocks
    omega
  rw [← taken] at room
  exact exists_isRun room

/-- The free blocks depend on memory below the table limit only. -/
theorem Machine.freeBlocks_congr (machine : Machine) {other : Machine}
    (agree : ∀ x : Word, x.toNat < tableLimit → other.memory x = machine.memory x) :
    other.freeBlocks = machine.freeBlocks := by
  ext i
  rw [Machine.mem_freeBlocks, Machine.mem_freeBlocks]
  refine and_congr_right fun inside => ?_
  unfold HeapTable.IsFree
  have entry : (kernelHeap other.memory).table.entries i =
      (kernelHeap machine.memory).table.entries i := by
    refine agree _ ?_
    rw [BitVec.toNat_add, BitVec.toNat_ofNat]
    change (0x7E00 + i % 2 ^ 32) % 2 ^ 32 < 0x100000
    omega
  rw [entry]

/-- With a run of free blocks that is long enough, `kmalloc` takes such a run. -/
theorem Machine.HeapSound.kmalloc_found {machine : Machine} (owner : Owner) {size : Word}
    (proper : Proper size)
    (present : ∃ s, (kernelHeap machine.memory).table.FreeRun s (blockCount size)) :
    ∃ s, s + blockCount size ≤ 25600 ∧ (machine.kmalloc owner size).1 = poolBlock s ∧
      (∀ t < s, ¬ IsRun (kernelHeap machine.memory).table.IsFree t (blockCount size)) ∧
      (∀ i, s ≤ i → i < s + blockCount size → i ∈ machine.freeBlocks) ∧
      (machine.kmalloc owner size).2.freeBlocks =
        machine.freeBlocks.filter fun i => ¬ (s ≤ i ∧ i < s + blockCount size) := by
  obtain ⟨s, after, run, least, result, _, _, entries⟩ :=
    heapMalloc_found (kernelHeap_pool machine.memory) proper.1 proper.2 present
  have fits : s + blockCount size ≤ 25600 := run.1
  have pointer : (machine.kmalloc owner size).1 = poolBlock s := congrArg Prod.fst result
  have table : (machine.kmalloc owner size).2.memory = storeTable after.table :=
    congrArg (fun result : Word × Heap => storeTable result.2.table) result
  refine ⟨s, fits, pointer, least, fun i lower upper => ?_, ?_⟩
  · exact Machine.mem_freeBlocks.mpr ⟨by omega, run.2 i lower upper⟩
  · ext i
    rw [Finset.mem_filter, Machine.mem_freeBlocks, Machine.mem_freeBlocks, and_assoc]
    refine and_congr_right fun inside => ?_
    unfold HeapTable.IsFree
    rw [table, kernelHeap_storeTable_entries _ (by omega), entries]
    split
    · rename_i member
      refine iff_of_false ?_ fun both => both.2 member
      rw [heapType_markedEntry]
      decide
    · rename_i outside
      exact (and_iff_left outside).symm

/-- A release takes no free block away. -/
theorem Machine.freeBlocks_kfree (machine : Machine) (p : Word) :
    machine.freeBlocks ⊆ (machine.kfree p).freeBlocks := by
  intro i member
  rw [Machine.mem_freeBlocks] at member ⊢
  refine ⟨member.1, ?_⟩
  have entry : (kernelHeap (machine.kfree p).memory).table.entries i =
      (heapFree (kernelHeap machine.memory) p).table.entries i :=
    kernelHeap_storeTable_entries _ (by omega)
  unfold HeapTable.IsFree
  rw [entry, heapFree_entries]
  split
  · by_cases here : i = (heapAddressToBlock (kernelHeap machine.memory) p).toNat
    · rw [here, Function.update_self]
      decide
    · rw [Function.update_of_ne here]
      exact member.2
  · exact member.2

/-- A block that is released is free. -/
theorem Machine.mem_freeBlocks_kfree (machine : Machine) {s : ℕ} (inside : s < 25600) :
    s ∈ (machine.kfree (poolBlock s)).freeBlocks := by
  have entry : (kernelHeap (machine.kfree (poolBlock s)).memory).table.entries s =
      heapBlockTableEntryFree := by
    refine (kernelHeap_storeTable_entries _ (by omega)).trans ?_
    rw [show (heapFree (kernelHeap machine.memory) (poolBlock s)).table.entries = _ from
      heapFree_blockAddress_entries (kernelHeap_pool machine.memory) inside
        (poolBlock_ne_null inside), if_pos (by omega), Function.update_self]
  rw [Machine.mem_freeBlocks]
  refine ⟨inside, ?_⟩
  unfold HeapTable.IsFree
  rw [entry]
  decide

/-- The first block of the pool is allocated first. -/
theorem Machine.kzalloc_first {machine : Machine} (owner : Owner) {size : Word}
    (proper : Proper size)
    (first : (kernelHeap machine.memory).table.FreeRun 0 (blockCount size)) :
    (machine.kzalloc owner size).1 = poolBlock 0 := by
  obtain ⟨s, _, pointer, least, _⟩ := Machine.HeapSound.kmalloc_found owner proper ⟨0, first⟩
  have zero : s = 0 := Nat.eq_zero_of_not_pos fun later => least 0 later first.2
  rwa [zero] at pointer

theorem poolBlock_injective {s t : ℕ} (first : s < 25600) (second : t < 25600)
    (same : poolBlock s = poolBlock t) : s = t := by
  have left := poolBlock_toNat first
  rw [same, poolBlock_toNat second] at left
  omega

/-- All blocks from `k` on are free. -/
def Machine.FreeFrom (machine : Machine) (k : ℕ) : Prop :=
  ∀ i, k ≤ i → i < 25600 → i ∈ machine.freeBlocks

theorem Machine.FreeFrom.card {machine : Machine} {k : ℕ} (free : machine.FreeFrom k) :
    25600 - k ≤ machine.freeBlocks.card := by
  have tail : Finset.Ico k 25600 ⊆ machine.freeBlocks := by
    intro i inside
    rw [Finset.mem_Ico] at inside
    exact free i inside.1 inside.2
  rw [← Nat.card_Ico]
  exact Finset.card_le_card tail

/-- `n` free blocks are taken, and where the end of the pool is free, the first `n` of it at
most. -/
structure Machine.Takes (machine next : Machine) (n : ℕ) : Prop where
  card : next.freeBlocks.card + n = machine.freeBlocks.card
  freeFrom : ∀ k, machine.FreeFrom k → k + n ≤ 25600 → next.FreeFrom (k + n)

theorem Machine.Takes.refl (machine : Machine) : machine.Takes machine 0 where
  card := Nat.add_zero _
  freeFrom k free _ := by
    rw [add_zero]
    exact free

theorem Machine.Takes.trans {machine middle next : Machine} {n m : ℕ}
    (first : machine.Takes middle n) (second : middle.Takes next m) :
    machine.Takes next (n + m) where
  card := by rw [← first.card, ← second.card, add_assoc, add_comm m n]
  freeFrom k free room := by
    rw [← add_assoc]
    exact second.freeFrom _ (first.freeFrom k free (by omega)) (by omega)

theorem Machine.Takes.congr {machine next other : Machine} {n : ℕ} (takes : machine.Takes next n)
    (agree : ∀ x : Word, x.toNat < tableLimit → other.memory x = next.memory x) :
    machine.Takes other n := by
  have same := next.freeBlocks_congr agree
  refine ⟨?_, fun k free room i lower upper => ?_⟩
  · rw [same]
    exact takes.card
  · rw [same]
    exact takes.freeFrom k free room i lower upper

/-- What `kzalloc` clears is not in the block table. -/
theorem Machine.HeapSound.kzalloc_low {machine : Machine} (sound : machine.HeapSound)
    (owner : Owner) {size : Word} (proper : Proper size)
    (found : (machine.kzalloc owner size).1 ≠ null) {x : Word} (low : x.toNat < tableLimit) :
    (machine.kzalloc owner size).2.memory x = (machine.kmalloc owner size).2.memory x := by
  have cleared := sound.kzalloc owner proper found
  refine (machine.kzalloc_apply owner size x).trans (if_neg fun near => ?_)
  exact absurd (cleared.sound.tableLimit_le cleared.held near) (not_le.mpr low)

/-- `kzalloc` of a size for which there is a run of free blocks. -/
theorem Machine.HeapSound.kzalloc_takes {machine : Machine} (sound : machine.HeapSound)
    (owner : Owner) {size : Word} (proper : Proper size)
    (present : ∃ s, (kernelHeap machine.memory).table.FreeRun s (blockCount size)) :
    (machine.kzalloc owner size).1 ≠ null ∧
      machine.Takes (machine.kzalloc owner size).2 (blockCount size) := by
  obtain ⟨s, fits, pointer, least, taken, rest⟩ :=
    Machine.HeapSound.kmalloc_found owner proper present
  have count := one_le_blockCount proper.1
  have found : (machine.kzalloc owner size).1 ≠ null := by
    change (machine.kmalloc owner size).1 ≠ null
    rw [pointer]
    exact poolBlock_ne_null (by omega)
  have takes : machine.Takes (machine.kmalloc owner size).2 (blockCount size) := by
    refine ⟨?_, fun k free room i lower upper => ?_⟩
    · have run : (machine.freeBlocks.filter fun i => s ≤ i ∧ i < s + blockCount size) =
          Finset.Ico s (s + blockCount size) := by
        ext i
        rw [Finset.mem_filter, Finset.mem_Ico]
        exact and_iff_right_of_imp fun inside => taken i inside.1 inside.2
      have parts := machine.freeBlocks.card_filter_add_card_filter_not
        fun i => s ≤ i ∧ i < s + blockCount size
      rw [run, Nat.card_Ico, add_tsub_cancel_left] at parts
      rw [rest, add_comm]
      exact parts
    · -- The first fit is not beyond `k`.
      have first : s ≤ k := by
        by_contra later
        refine least k (not_le.mp later) fun j from_k below => ?_
        exact (Machine.mem_freeBlocks.mp (free j from_k (by omega))).2
      rw [rest, Finset.mem_filter]
      exact ⟨free i (by omega) upper, by omega⟩
  exact ⟨found, takes.congr fun x => sound.kzalloc_low owner proper found⟩

/-- `kzalloc` of at most a block takes one free block. -/
theorem Machine.HeapSound.kzalloc_block {machine : Machine} (sound : machine.HeapSound)
    (owner : Owner) {size : Word} (positive : 1 ≤ size.toNat) (small : size.toNat ≤ 4096)
    (free : machine.freeBlocks.Nonempty) :
    (machine.kzalloc owner size).1 ≠ null ∧ machine.Takes (machine.kzalloc owner size).2 1 := by
  have proper : Proper size := ⟨positive, by unfold maxRequest; omega⟩
  have single : blockCount size = 1 := by
    unfold blockCount
    omega
  obtain ⟨i, member⟩ := free
  rw [Machine.mem_freeBlocks] at member
  have present : ∃ s, (kernelHeap machine.memory).table.FreeRun s (blockCount size) := by
    rw [single]
    exact ⟨i, member.1, isRun_one member.2⟩
  rw [← single]
  exact sound.kzalloc_takes owner proper present

/-- `kzalloc` of at most a block returns null exactly when no block is free. -/
theorem Machine.kzalloc_eq_null_iff (machine : Machine) (owner : Owner) {size : Word}
    (positive : 1 ≤ size.toNat) (small : size.toNat ≤ 4096) :
    (machine.kzalloc owner size).1 = null ↔ machine.freeBlocks = ∅ := by
  have proper : Proper size := ⟨positive, by unfold maxRequest; omega⟩
  have single : (heapRequest size).toNat = 1 := by
    rw [heapRequest_toNat proper.2]
    unfold blockCount
    omega
  have outcome := heapMallocBlocks_outcome (kernelHeap_pool machine.memory) (heapRequest size)
  rw [← heapMalloc_eq] at outcome
  change (heapMalloc (kernelHeap machine.memory) size).1 = null ↔ _
  generalize heapMalloc (kernelHeap machine.memory) size = result at outcome
  have nonempty : ∀ s < 25600, (kernelHeap machine.memory).table.IsFree s →
      ¬ machine.freeBlocks = ∅ := fun s inside free none => by
    have member := Machine.mem_freeBlocks.mpr ⟨inside, free⟩
    rw [none] at member
    exact absurd member (Finset.notMem_empty s)
  cases outcome with
  | failed _ missed =>
      refine iff_of_true rfl (Finset.eq_empty_of_forall_notMem fun i member => ?_)
      rw [Machine.mem_freeBlocks] at member
      rw [single] at missed
      exact missed le_rfl i member.1 (isRun_one member.2)
  | found s _ run =>
      rw [single] at run
      have inside : s < 25600 := run.1
      exact iff_of_false (poolBlock_ne_null inside)
        (nonempty s inside (run.2 s le_rfl (Nat.lt_succ_self s)))
  | overrun s started run =>
      have inside : s < 25600 := started
      exact iff_of_false (poolBlock_ne_null inside)
        (nonempty s inside (run s le_rfl (by rw [Nat.add_sub_cancel' started.le]; exact started)))

/-- The free end of the pool has a run of every length that fits. -/
theorem Machine.FreeFrom.freeRun {machine : Machine} {k n : ℕ} (free : machine.FreeFrom k)
    (room : k + n ≤ 25600) : (kernelHeap machine.memory).table.FreeRun k n :=
  ⟨room, fun i lower upper =>
    (Machine.mem_freeBlocks.mp (free i lower (lt_of_lt_of_le upper room))).2⟩

/-- `kzalloc` when the end of the pool is free. -/
theorem Machine.HeapSound.kzalloc_freeFrom {machine : Machine} (sound : machine.HeapSound)
    (owner : Owner) {size : Word} (proper : Proper size) {k : ℕ} (free : machine.FreeFrom k)
    (room : k + blockCount size ≤ 25600) :
    (machine.kzalloc owner size).1 ≠ null ∧
      (machine.kzalloc owner size).2.FreeFrom (k + blockCount size) := by
  have present : ∃ s, (kernelHeap machine.memory).table.FreeRun s (blockCount size) :=
    ⟨k, free.freeRun room⟩
  obtain ⟨found, takes⟩ := sound.kzalloc_takes owner proper present
  exact ⟨found, takes.freeFrom k free room⟩

/-- `kzalloc` when only the end of the pool is free, where it starts. -/
theorem Machine.HeapSound.kzalloc_next {machine : Machine} (sound : machine.HeapSound)
    (owner : Owner) {size : Word} (proper : Proper size) {k : ℕ}
    (free : machine.freeBlocks = Finset.Ico k 25600) (room : k + blockCount size ≤ 25600) :
    (machine.kzalloc owner size).1 = poolBlock k ∧
      (machine.kzalloc owner size).2.freeBlocks = Finset.Ico (k + blockCount size) 25600 := by
  have end' : machine.FreeFrom k := fun i lower upper => by
    rw [free]
    exact Finset.mem_Ico.mpr ⟨lower, upper⟩
  obtain ⟨s, fits, pointer, least, taken, rest⟩ :=
    Machine.HeapSound.kmalloc_found owner proper ⟨k, end'.freeRun room⟩
  have count := one_le_blockCount proper.1
  have first : s = k := by
    refine le_antisymm ?_ ?_
    · by_contra later
      exact least k (not_le.mp later) (end'.freeRun room).2
    · have member := taken s le_rfl (by omega)
      rw [free, Finset.mem_Ico] at member
      exact member.1
  subst first
  have found : (machine.kzalloc owner size).1 ≠ null := by
    change (machine.kmalloc owner size).1 ≠ null
    rw [pointer]
    exact poolBlock_ne_null (by omega)
  refine ⟨pointer, ?_⟩
  rw [(machine.kmalloc owner size).2.freeBlocks_congr fun x => sound.kzalloc_low owner proper found,
    rest, free]
  ext i
  rw [Finset.mem_filter, Finset.mem_Ico, Finset.mem_Ico]
  omega

/-- The table loop of `paging_new_chunk` takes one free block for each table. -/
theorem Machine.Building.newTables_some {machine start : Machine} {base : Word} {flags : Byte}
    {table : ℕ → Word} (initial : machine.Building start base flags 0 table) {i : ℕ}
    (bound : i ≤ 1024) (enough : i ≤ start.freeBlocks.card) :
    ∃ next offset, start.newTables base flags i = some (next, offset) ∧ start.Takes next i := by
  induction i with
  | zero => exact ⟨start, 0, rfl, .refl start⟩
  | succ i ih =>
      obtain ⟨middle, offset, made, left⟩ := ih (by omega) (by omega)
      obtain ⟨_, table, building⟩ := initial.newTables (by omega) made
      have sound := building.grown.sound
      have spare := left.card
      obtain ⟨found, taken⟩ :=
        sound.kzalloc_block (.table base i) tableSize_proper.1 tableSize_toNat.le
        (Finset.card_pos.mp (by omega))
      have cleared := sound.kzalloc (.table base i) tableSize_proper found
      have heldBase := cleared.grown.kept _ _ building.held
      unfold Machine.newTables
      rw [made]
      simp only [Option.bind_eq_bind, Option.bind_some, found, if_false]
      refine ⟨_, _, rfl, (left.trans taken).congr fun x low => ?_⟩
      exact setTable_apply (cleared.sound.aligned cleared.held) (cleared.sound.aligned heldBase) _ _
        _ (by omega) (cleared.sound.pageNumber_ne_of_low cleared.held low)
        (cleared.sound.pageNumber_ne_of_low heldBase low)

/-- `paging_new_chunk` does not panic while 1026 blocks are free, and takes that many. -/
theorem Machine.HeapSound.pagingNewChunk_some {machine : Machine} (sound : machine.HeapSound)
    (flags : Byte) (enough : 1026 ≤ machine.freeBlocks.card) :
    ∃ chunk next, machine.pagingNewChunk flags = some (chunk, next) ∧ machine.Takes next 1026 := by
  obtain ⟨found, taken⟩ := sound.kzalloc_block .directory tableSize_proper.1 tableSize_toNat.le
    (Finset.card_pos.mp (by omega))
  have spare := taken.card
  have initial := (sound.kzalloc .directory tableSize_proper found).building flags
  obtain ⟨middle, offset, made, left⟩ := initial.newTables_some le_rfl (by omega)
  have spareTables := left.card
  obtain ⟨_, table, building⟩ := initial.newTables le_rfl made
  obtain ⟨foundChunk, takenChunk⟩ := building.grown.sound.kzalloc_block
    (.chunk (machine.kzalloc .directory (4 * pagingTotalEntriesPerTable)).1)
    (show 1 ≤ (4 : Word).toNat by decide) (by decide) (Finset.card_pos.mp (by omega))
  have last := building.grown.sound.kzalloc
    (.chunk (machine.kzalloc .directory (4 * pagingTotalEntriesPerTable)).1) (by decide) foundChunk
  unfold Machine.pagingNewChunk
  simp only [found, if_false, made, Option.bind_eq_bind, Option.bind_some, foundChunk]
  refine ⟨_, _, rfl, ((taken.trans left).trans takenChunk).congr fun x low => ?_⟩
  refine ByteMemory.store32_apply_of_far _ _ ?_
  by_contra near
  exact absurd (last.sound.tableLimit_le last.held (not_le.mp near)) (not_le.mpr low)

end Phix
