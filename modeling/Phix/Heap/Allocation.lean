import Phix.Heap.Marking

/-! # Allocations of the heap

The size request is rounded to blocks through a signed `int`. Below the sign
boundary the count is exact (`Phix.heapRequest_toNat`); from there on it is zero
or negative, and nothing is marked (`Phix.heapRequest_wrapped`).
`Phix.heapMallocBlocks_outcome` and `Phix.heapFree_entries` say once what an
allocation and a release do; every invariant is derived from them.
-/

namespace Phix

open Runs

/-- The number of blocks that hold `size` bytes. -/
def blockCount (size : Word) : ℕ := (size.toNat + 4095) / 4096

/-- The largest size whose block-aligned value is a nonnegative `int`. -/
def maxRequest : ℕ := 2 ^ 31 - 4096

/-- The size is positive and its block-aligned value is a positive `int`. -/
def Proper (size : Word) : Prop := 1 ≤ size.toNat ∧ size.toNat ≤ maxRequest

instance (size : Word) : Decidable (Proper size) := inferInstanceAs (Decidable (_ ∧ _))

/-- The block count that `heap_malloc` hands to `heap_malloc_blocks`. -/
def heapRequest (size : Word) : Word := (align size phixHeapBlockSize).sdiv phixHeapBlockSize

theorem heapMalloc_eq (heap : Heap) (size : Word) :
    heapMalloc heap size = heapMallocBlocks heap (heapRequest size) := rfl

theorem heapRequest_toNat {size : Word} (bound : size.toNat ≤ maxRequest) :
    (heapRequest size).toNat = blockCount size := by
  unfold maxRequest at bound
  have aligned : (align size phixHeapBlockSize).toNat = (size.toNat + 4095) / 4096 * 4096 :=
    align_toNat_of_le size (by omega)
  have sign : (align size phixHeapBlockSize).msb = false := by
    rw [BitVec.msb_eq_false_iff_two_mul_lt, aligned]
    omega
  unfold heapRequest blockCount
  rw [MachineWord.sdiv_toNat_of_msb_false _ _ sign (by decide), aligned]
  exact Nat.mul_div_cancel _ (by decide)

/-- A size past the sign boundary becomes a zero or a negative block count. -/
theorem heapRequest_wrapped {size : Word} (bound : maxRequest < size.toNat) :
    heapRequest size = 0 ∨ 2 ^ 32 - 2 ^ 19 ≤ (heapRequest size).toNat := by
  unfold maxRequest at bound
  have below := size.isLt
  rcases Nat.lt_or_ge (2 ^ 32 - 4096) size.toNat with top | negative
  · left
    have zero : align size phixHeapBlockSize = 0 := by
      apply BitVec.eq_of_toNat_eq
      refine (align_toNat size).trans ?_
      change _ = 0
      omega
    unfold heapRequest
    rw [zero]
    decide
  · right
    have aligned : (align size phixHeapBlockSize).toNat = (size.toNat + 4095) / 4096 * 4096 :=
      align_toNat_of_le size negative
    have sign : (align size phixHeapBlockSize).msb = true := by
      rw [BitVec.msb_eq_true_iff_two_mul_ge, aligned]
      omega
    unfold heapRequest
    rw [MachineWord.sdiv_toNat_of_msb_true _ _ sign (by decide), aligned]
    change _ ≤ (2 ^ 32 - (2 ^ 32 - (size.toNat + 4095) / 4096 * 4096) / 4096) % 2 ^ 32
    omega

/-- A size that is not proper becomes a zero or a negative block count. -/
theorem heapRequest_of_not_proper {size : Word} (improper : ¬ Proper size) :
    heapRequest size = 0 ∨ 2 ^ 32 - 2 ^ 19 ≤ (heapRequest size).toNat := by
  by_cases positive : 1 ≤ size.toNat
  · exact heapRequest_wrapped (Nat.lt_of_not_le fun bound => improper ⟨positive, bound⟩)
  · left
    have zero : size = 0 := BitVec.eq_of_toNat_eq (Nat.lt_one_iff.mp (not_le.mp positive))
    rw [zero]
    decide

/-- The pool is a block-aligned range of the address space. -/
structure Heap.Pool (heap : Heap) : Prop where
  aligned : heap.saddr.toNat % 4096 = 0
  bounded : heap.saddr.toNat + 4096 * heap.table.total.toNat < 2 ^ 32

theorem Heap.Pool.small {heap : Heap} (pool : heap.Pool) : heap.table.total.toNat < 2 ^ 20 := by
  have := pool.bounded
  omega

/-- A successful `heap_create` sets up the pool with every block free. -/
theorem heapCreate_pool {initial heap : Heap} {p stop : Word} {table : HeapTable}
    (created : heapCreate initial p stop table = (0, heap)) (ordered : p ≤ stop) :
    heap.Pool ∧ heap.saddr = p ∧
      ∀ i < heap.table.total.toNat, heap.table.entries i = heapBlockTableEntryFree := by
  unfold heapCreate at created
  by_cases unaligned : (!heapValidateAlignment p || !heapValidateAlignment stop) = true
  · rw [if_pos unaligned] at created
    exact absurd (congrArg Prod.fst created) (show (-EINVAL : Int) ≠ 0 by decide)
  rw [if_neg unaligned] at created
  by_cases mismatch : heapValidateTable p stop table ≠ 0
  · rw [if_pos mismatch] at created
    exact absurd (congrArg Prod.fst created) mismatch
  rw [if_neg mismatch] at created
  have total : table.total = (stop - p) / phixHeapBlockSize := by
    by_contra different
    exact mismatch (by unfold heapValidateTable; rw [if_pos different]; decide)
  have starts : p.toNat % 4096 = 0 ∧ stop.toNat % 4096 = 0 := by
    simp only [heapValidateAlignment, Bool.or_eq_true, Bool.not_eq_true', beq_eq_false_iff_ne,
      not_or, not_not] at unaligned
    have left := congrArg BitVec.toNat unaligned.1
    have right := congrArg BitVec.toNat unaligned.2
    rw [BitVec.toNat_umod] at left right
    exact ⟨left, right⟩
  have count : table.total.toNat = (stop.toNat - p.toNat) / 4096 := by
    rw [total, BitVec.toNat_udiv, BitVec.toNat_sub_of_le ordered]
    rfl
  rw [BitVec.le_def] at ordered
  have below := stop.isLt
  cases created
  refine ⟨⟨starts.1, ?_⟩, rfl, ?_⟩
  · change p.toNat + 4096 * table.total.toNat < 2 ^ 32
    omega
  · intro i inside
    exact if_pos inside

/-- The address of a block of the pool. -/
def Heap.blockAddress (heap : Heap) (s : ℕ) : Word := heapBlockToAddress heap (BitVec.ofNat 32 s)

/-- The block of the pool that contains an address. -/
def Heap.blockIndex (heap : Heap) (p : Word) : ℕ := (p - heap.saddr).toNat / 4096

section Pool

variable {heap : Heap} (pool : heap.Pool)

include pool

theorem Heap.Pool.blockAddress_toNat {s : ℕ} (inside : s < heap.table.total.toNat) :
    (heap.blockAddress s).toNat = heap.saddr.toNat + 4096 * s := by
  have bounded := pool.bounded
  unfold Heap.blockAddress heapBlockToAddress
  rw [BitVec.toNat_add, BitVec.toNat_mul, BitVec.toNat_ofNat]
  change (heap.saddr.toNat + s % 2 ^ 32 * 4096 % 2 ^ 32) % 2 ^ 32 = _
  omega

private theorem Heap.Pool.offset_toNat {s : ℕ} (inside : s < heap.table.total.toNat) :
    (heap.blockAddress s - heap.saddr).toNat = 4096 * s := by
  have address := pool.blockAddress_toNat inside
  rw [BitVec.toNat_sub_of_le (by rw [BitVec.le_def]; omega), address]
  omega

theorem Heap.Pool.blockIndex_blockAddress {s : ℕ} (inside : s < heap.table.total.toNat) :
    heap.blockIndex (heap.blockAddress s) = s := by
  unfold Heap.blockIndex
  rw [pool.offset_toNat inside]
  omega

/-- The code recovers the block of an address in the lower two gigabytes of a pool;
above them the pointer difference is negative and the block is out of the table. -/
theorem Heap.Pool.heapAddressToBlock_toNat {s : ℕ} (inside : s < heap.table.total.toNat) :
    (heapAddressToBlock heap (heap.blockAddress s)).toNat =
      if s < 2 ^ 19 then s else 2 ^ 32 - (2 ^ 20 - s) := by
  have small := pool.small
  have offset := pool.offset_toNat inside
  unfold heapAddressToBlock
  by_cases low : s < 2 ^ 19
  · have sign : (heap.blockAddress s - heap.saddr).msb = false := by
      rw [BitVec.msb_eq_false_iff_two_mul_lt, offset]
      omega
    rw [MachineWord.sdiv_toNat_of_msb_false _ _ sign (by decide), offset, if_pos low]
    change 4096 * s / 4096 = s
    omega
  · have sign : (heap.blockAddress s - heap.saddr).msb = true := by
      rw [BitVec.msb_eq_true_iff_two_mul_ge, offset]
      omega
    rw [MachineWord.sdiv_toNat_of_msb_true _ _ sign (by decide), offset, if_neg low]
    change (2 ^ 32 - (2 ^ 32 - 4096 * s) / 4096) % 2 ^ 32 = _
    omega

/-- **What an allocation does.** It fails with the heap unchanged when the last block is
taken and no run is long enough; otherwise it starts at the least run that is long enough or,
without one, at the run of free blocks at the end of the table. -/
inductive MallocBlocks (heap : Heap) (totalBlocks : Word) : Word × Heap → Prop where
  | failed (taken : ¬ heap.table.TailFree)
      (missed : 1 ≤ totalBlocks.toNat →
        NoRun heap.table.IsFree totalBlocks.toNat heap.table.total.toNat) :
      MallocBlocks heap totalBlocks (null, heap)
  | found (s : ℕ) (positive : 1 ≤ totalBlocks.toNat)
      (run : heap.table.FreeRun s totalBlocks.toNat)
      (least : ∀ t < s, ¬ IsRun heap.table.IsFree t totalBlocks.toNat) :
      MallocBlocks heap totalBlocks (heap.blockAddress s,
        { heap with table := heapMarkBlocksTaken heap.table (BitVec.ofNat 32 s) totalBlocks })
  | overrun (s : ℕ) (started : s < heap.table.total.toNat)
      (run : IsRun heap.table.IsFree s (heap.table.total.toNat - s))
      (missed : 1 ≤ totalBlocks.toNat →
        NoRun heap.table.IsFree totalBlocks.toNat heap.table.total.toNat) :
      MallocBlocks heap totalBlocks (heap.blockAddress s,
        { heap with table := heapMarkBlocksTaken heap.table (BitVec.ofNat 32 s) totalBlocks })

theorem heapMallocBlocks_outcome (totalBlocks : Word) :
    MallocBlocks heap totalBlocks (heapMallocBlocks heap totalBlocks) := by
  have small := pool.small
  have outcome := heapGetStartBlock_outcome heap totalBlocks (by omega)
  unfold heapMallocBlocks
  generalize heapGetStartBlock heap totalBlocks = returned at outcome
  cases outcome with
  | found s positive run least =>
      rw [if_neg (by omega), BitVec.ofInt_natCast]
      exact .found s positive run least
  | tail s started run missed =>
      rw [if_neg (by omega), BitVec.ofInt_natCast]
      exact .overrun s started run missed
  | full taken missed =>
      rw [if_pos (by decide)]
      exact .failed taken missed

end Pool

theorem heapFree_entries (heap : Heap) (p : Word) :
    (heapFree heap p).table.entries =
      if p ≠ null ∧ (heapAddressToBlock heap p).toNat < heap.table.total.toNat then
        Function.update heap.table.entries (heapAddressToBlock heap p).toNat
          heapBlockTableEntryFree
      else heap.table.entries := by
  unfold heapFree
  by_cases isNull : p = null
  · simp only [isNull, ↓reduceIte, ne_eq, not_true_eq_false, false_and]
  · simp only [isNull, ↓reduceIte, ne_eq, not_false_eq_true, true_and]
    exact heapMarkBlocksFree_entries heap.table _

/-- Freeing the address of a block clears its entry if the code can locate it. -/
theorem heapFree_blockAddress_entries {heap : Heap} (pool : heap.Pool) {s : ℕ}
    (inside : s < heap.table.total.toNat) (notNull : heap.blockAddress s ≠ null) :
    (heapFree heap (heap.blockAddress s)).table.entries =
      if s < 2 ^ 19 then Function.update heap.table.entries s heapBlockTableEntryFree
      else heap.table.entries := by
  have small := pool.small
  rw [heapFree_entries, pool.heapAddressToBlock_toNat inside]
  by_cases low : s < 2 ^ 19
  · rw [if_pos low, if_pos low, if_pos ⟨notNull, inside⟩]
  · rw [if_neg low, if_neg low, if_neg (by omega)]

@[simp] theorem heapMalloc_saddr (heap : Heap) (size : Word) :
    (heapMalloc heap size).2.saddr = heap.saddr := by
  unfold heapMalloc heapMallocBlocks
  dsimp only
  split <;> rfl

@[simp] theorem heapMalloc_total (heap : Heap) (size : Word) :
    (heapMalloc heap size).2.table.total = heap.table.total := by
  unfold heapMalloc heapMallocBlocks
  dsimp only
  split <;> rfl

@[simp] theorem heapFree_saddr (heap : Heap) (p : Word) : (heapFree heap p).saddr = heap.saddr := by
  unfold heapFree
  split <;> rfl

@[simp] theorem heapFree_total (heap : Heap) (p : Word) :
    (heapFree heap p).table.total = heap.table.total := by
  unfold heapFree
  split <;> rfl

end Phix
