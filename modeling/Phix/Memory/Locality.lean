import Phix.Memory.KernelHeap

/-! # What an allocation depends on

The scan reads the entries of the pool and the marking loop writes the same entries whatever
the rest of the table is, so two machines with the same block table serve a request in the
same way: they return the same pointer, and each byte in which they agreed is still one
(`Phix.Machine.kzalloc_congr`).
-/

namespace Phix

theorem heapGetStartBlock.loop_congr {table other : HeapTable} {totalBlocks : Word}
    {remaining i : ℕ} (same : ∀ j < i + remaining, other.entries j = table.entries j) (bc : Word)
    (bs : Int) : heapGetStartBlock.loop other totalBlocks remaining i bc bs =
      heapGetStartBlock.loop table totalBlocks remaining i bc bs := by
  induction remaining generalizing i bc bs with
  | zero => rfl
  | succ remaining ih =>
      have later : ∀ j < i + 1 + remaining, other.entries j = table.entries j :=
        fun j below => same j (by omega)
      have rest := fun bc bs => ih later bc bs
      unfold heapGetStartBlock.loop
      simp only [same i (by omega), rest]

/-- Heaps with the same entries in the pool serve a request in the same way. -/
theorem heapMalloc_congr {heap other : Heap} (saddr : other.saddr = heap.saddr)
    (total : other.table.total = heap.table.total)
    (entries : ∀ i < heap.table.total.toNat, other.table.entries i = heap.table.entries i)
    (size : Word) : (heapMalloc other size).1 = (heapMalloc heap size).1 ∧
      ∀ i, other.table.entries i = heap.table.entries i →
        (heapMalloc other size).2.table.entries i = (heapMalloc heap size).2.table.entries i := by
  have start : heapGetStartBlock other (heapRequest size) =
      heapGetStartBlock heap (heapRequest size) := by
    unfold heapGetStartBlock
    rw [total, heapGetStartBlock.loop_congr (by rw [Nat.zero_add]; exact entries)]
  rw [heapMalloc_eq, heapMalloc_eq]
  unfold heapMallocBlocks heapBlockToAddress
  rw [start, saddr]
  dsimp only
  by_cases refused : heapGetStartBlock heap (heapRequest size) < 0
  · rw [if_pos refused, if_pos refused]
    exact ⟨rfl, fun i same => same⟩
  · rw [if_neg refused, if_neg refused]
    refine ⟨rfl, fun i same => ?_⟩
    dsimp only
    rw [heapMarkBlocksTaken_entries_count, heapMarkBlocksTaken_entries_count, same]

/-- The entries of the pool are in memory below the table limit. -/
theorem kernelHeap_entries_congr {memory other : ByteMemory}
    (agree : ∀ x : Word, x.toNat < tableLimit → other x = memory x) {i : ℕ} (inside : i < 25600) :
    (kernelHeap other).table.entries i = (kernelHeap memory).table.entries i := by
  refine agree _ ?_
  rw [BitVec.toNat_add, BitVec.toNat_ofNat]
  change (0x7E00 + i % 2 ^ 32) % 2 ^ 32 < 0x100000
  omega

/-- Machines with the same live allocations and the same block table serve a request in the
same way. -/
theorem Machine.kzalloc_congr {machine other : Machine} (live : other.live = machine.live)
    (agree : ∀ x : Word, x.toNat < tableLimit → other.memory x = machine.memory x) (owner : Owner)
    (size : Word) : (other.kzalloc owner size).1 = (machine.kzalloc owner size).1 ∧
      (other.kzalloc owner size).2.live = (machine.kzalloc owner size).2.live ∧
      ∀ x, other.memory x = machine.memory x →
        (other.kzalloc owner size).2.memory x = (machine.kzalloc owner size).2.memory x := by
  have pool : ∀ i < (kernelHeap machine.memory).table.total.toNat,
      (kernelHeap other.memory).table.entries i = (kernelHeap machine.memory).table.entries i :=
    fun i inside => kernelHeap_entries_congr agree
      (by rwa [kernelHeap_total, totalTableEntries_toNat] at inside)
  have saddr : (kernelHeap other.memory).saddr = (kernelHeap machine.memory).saddr := rfl
  have total : (kernelHeap other.memory).table.total = (kernelHeap machine.memory).table.total :=
    rfl
  obtain ⟨pointer, entries⟩ := heapMalloc_congr saddr total pool size
  have pointer : (other.kmalloc owner size).1 = (machine.kmalloc owner size).1 := pointer
  refine ⟨pointer, ?_, fun x same => ?_⟩
  · rw [Machine.kzalloc_live, Machine.kzalloc_live, Machine.kmalloc_live, Machine.kmalloc_live,
      pointer, live]
  · have marked : (other.kmalloc owner size).2.memory x =
        (machine.kmalloc owner size).2.memory x := by
      refine entries _ ?_
      change other.memory (phixHeapTableAddress + BitVec.ofNat 32
        (x - phixHeapTableAddress).toNat) =
        machine.memory (phixHeapTableAddress + BitVec.ofNat 32 (x - phixHeapTableAddress).toNat)
      rw [BitVec.ofNat_toNat, BitVec.setWidth_eq, add_sub_cancel]
      exact same
    rw [Machine.kzalloc_apply, Machine.kzalloc_apply, pointer, marked]

end Phix
