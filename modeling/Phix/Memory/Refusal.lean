import Phix.Memory.FreeBlocks
import Phix.Memory.PagingSystem

/-! # A kzalloc that fails

`kzalloc` (`memory/heap/kheap.c`) clears what `heap_malloc` returns without a test for null, so
a call that fails clears the first bytes of memory instead, and with a size above
`PHIX_HEAP_TABLE_ADDRESS` entries of the block table. In a run of the kernel heap every failing
call leaves memory alone exactly when each is made where these bytes are zero already
(`Phix.kzalloc_fails_cleanly_iff`).
-/

namespace Phix

open Runs Traces

inductive HeapCall where
  | kmalloc (size : Word)
  | kzalloc (size : Word)
  | kfree (p : Word)

def Machine.heapStep (machine : Machine) : HeapCall → Machine
  | .kmalloc size => (machine.kmalloc .kernel size).2
  | .kzalloc size => (machine.kzalloc .kernel size).2
  | .kfree p => machine.kfree p

/-- What a `kzalloc` must do where `heap_malloc` finds no block: return null and leave every byte
of memory alone. No block that is taken becomes free then, the live allocations still own theirs,
and later calls find the heap as it was without the call. -/
structure Machine.Refuses (machine : Machine) (size : Word) : Prop where
  isNull : (machine.kzalloc .kernel size).1 = null
  memory : (machine.kzalloc .kernel size).2.memory = machine.memory
  taken : ∀ i, (kernelHeap machine.memory).table.IsTaken i →
    (kernelHeap (machine.kzalloc .kernel size).2.memory).table.IsTaken i
  sound : machine.HeapSound → (machine.kzalloc .kernel size).2.HeapSound
  later : ∀ calls, (exec Machine.heapStep (machine.kzalloc .kernel size).2 calls).live =
    (exec Machine.heapStep machine calls).live

def Machine.FailsCleanly (machine : Machine) : HeapCall → Prop
  | .kzalloc size => (heapMalloc (kernelHeap machine.memory) size).1 = null → machine.Refuses size
  | _ => True

/-- A `kzalloc` does no harm with a run of free blocks that is long enough, with the last block of
the pool free, or with zeros in as many bytes from address 0 on as it asks for. -/
def Machine.SparesLowMemory (machine : Machine) : HeapCall → Prop
  | .kzalloc size =>
      (kernelHeap machine.memory).table.TailFree ∨
        (1 ≤ (heapRequest size).toNat ∧
          ∃ s, (kernelHeap machine.memory).table.FreeRun s (heapRequest size).toNat) ∨
        ∀ x : Word, x.toNat < size.toNat → machine.memory x = 0
  | _ => True

/-- When `heap_malloc` finds no block. -/
theorem heapMalloc_eq_null_iff {heap : Heap} (pool : heap.Pool) (nonNull : heap.saddr ≠ null)
    (size : Word) : (heapMalloc heap size).1 = null ↔
      ¬ heap.table.TailFree ∧ ¬ (1 ≤ (heapRequest size).toNat ∧
        ∃ s, heap.table.FreeRun s (heapRequest size).toNat) := by
  have outcome := heapMallocBlocks_outcome pool (heapRequest size)
  rw [heapMalloc_eq]
  generalize heapMallocBlocks heap (heapRequest size) = result at outcome
  cases outcome with
  | failed taken missed =>
      refine iff_of_true rfl ⟨taken, fun ⟨positive, present⟩ => ?_⟩
      exact NoRun.not_freeRun (missed positive) present
  | found s positive run =>
      have started : s < heap.table.total.toNat := by
        have fits := run.1
        omega
      refine iff_of_false (pool.blockAddress_ne_null nonNull started) ?_
      exact fun none => none.2 ⟨positive, s, run⟩
  | overrun s started run =>
      refine iff_of_false (pool.blockAddress_ne_null nonNull started) ?_
      exact fun none => none.1 (HeapTable.tailFree_of_run started run)

theorem kernelHeap_null_iff (machine : Machine) (size : Word) :
    (heapMalloc (kernelHeap machine.memory) size).1 = null ↔
      ¬ (kernelHeap machine.memory).table.TailFree ∧ ¬ (1 ≤ (heapRequest size).toNat ∧
        ∃ s, (kernelHeap machine.memory).table.FreeRun s (heapRequest size).toNat) :=
  heapMalloc_eq_null_iff (kernelHeap_pool machine.memory)
    (show phixHeapSaddress ≠ null by decide) size

/-- A call that finds no block clears the first bytes of memory and changes nothing else. -/
theorem Machine.kzalloc_failed (machine : Machine) (owner : Owner) {size : Word}
    (isNull : (heapMalloc (kernelHeap machine.memory) size).1 = null) :
    (machine.kzalloc owner size).1 = null ∧
      (machine.kzalloc owner size).2.live = machine.live ∧
      ∀ x, (machine.kzalloc owner size).2.memory x =
        if x.toNat < size.toNat then 0 else machine.memory x := by
  have pointer : (machine.kmalloc owner size).1 = null := isNull
  obtain ⟨memory, live⟩ := machine.kmalloc_idle owner fun granted => granted.1 pointer
  refine ⟨isNull, live, fun x => ?_⟩
  rw [machine.kzalloc_apply, pointer, memory]
  change (if (x - 0).toNat < size.toNat then _ else _) = _
  rw [sub_zero]

/-- The heap and the live allocations are the same; only the journal of requests may differ. -/
def Machine.Alike (first second : Machine) : Prop :=
  first.memory = second.memory ∧ first.live = second.live

theorem Machine.Alike.step {first second : Machine} (alike : first.Alike second) (call : HeapCall) :
    (first.heapStep call).Alike (second.heapStep call) := by
  obtain ⟨memory, live, requests⟩ := first
  obtain ⟨same, held, others⟩ := second
  obtain ⟨rfl, rfl⟩ : memory = same ∧ live = held := alike
  cases call with
  | kmalloc size => exact ⟨rfl, rfl⟩
  | kzalloc size => exact ⟨rfl, rfl⟩
  | kfree p => exact ⟨rfl, rfl⟩

theorem Machine.Alike.exec {first second : Machine} (alike : first.Alike second)
    (calls : List HeapCall) :
    (Traces.exec Machine.heapStep first calls).Alike
    (Traces.exec Machine.heapStep second calls) := by
  induction calls generalizing first second with
  | nil => exact alike
  | cons call calls ih => exact ih (alike.step call)

/-- A call fails cleanly exactly when it spares the first bytes of memory. -/
theorem Machine.failsCleanly_iff (machine : Machine) (call : HeapCall) :
    machine.FailsCleanly call ↔ machine.SparesLowMemory call := by
  cases call with
  | kmalloc size => exact Iff.rfl
  | kfree p => exact Iff.rfl
  | kzalloc size =>
      unfold Machine.FailsCleanly Machine.SparesLowMemory
      dsimp only
      rw [← or_assoc, or_iff_not_imp_left, not_or, ← kernelHeap_null_iff]
      refine imp_congr_right fun none => ?_
      obtain ⟨isNull, live, memory⟩ := machine.kzalloc_failed .kernel none
      constructor
      · intro refuses x low
        rw [← congrFun refuses.memory x, memory x, if_pos low]
      · intro zero
        have same : (machine.kzalloc .kernel size).2.memory = machine.memory := by
          funext x
          rw [memory x]
          split
          · rename_i low
            exact (zero x low).symm
          · rfl
        have alike : (machine.kzalloc .kernel size).2.Alike machine := ⟨same, live⟩
        exact {
          isNull
          memory := same
          taken := fun i taken => by rwa [same]
          sound := fun sound => sound.of_agree live fun x _ => congrFun same x
          later := fun calls => (alike.exec calls).2 }

/-- **In a run of the kernel heap every `kzalloc` that fails changes nothing exactly when each is
made where the bytes it would clear are zero already.** -/
theorem kzalloc_fails_cleanly_iff (memory : ByteMemory) (calls : List HeapCall) :
    Along Machine.heapStep Machine.FailsCleanly (Machine.booted memory) calls ↔
      Along Machine.heapStep Machine.SparesLowMemory (Machine.booted memory) calls := by
  have same : Machine.FailsCleanly = Machine.SparesLowMemory :=
    funext fun machine => funext fun call => propext (machine.failsCleanly_iff call)
  rw [same]

/-- With no block free, a call for more bytes than lie below the block table frees the first
block. -/
theorem Machine.not_failsCleanly_of_full {machine : Machine} (full : machine.freeBlocks = ∅)
    {size : Word} (large : phixHeapTableAddress.toNat < size.toNat) :
    ¬ machine.FailsCleanly (.kzalloc size) := by
  have absent : ∀ i < 25600, ¬ (kernelHeap machine.memory).table.IsFree i := by
    intro i inside free
    have member : i ∈ machine.freeBlocks := Machine.mem_freeBlocks.mpr ⟨inside, free⟩
    rw [full] at member
    exact Finset.notMem_empty i member
  have isNull : (heapMalloc (kernelHeap machine.memory) size).1 = null := by
    rw [kernelHeap_null_iff]
    refine ⟨fun tail => absent 25599 (by decide) tail.2, fun ⟨positive, s, fits, run⟩ => ?_⟩
    rw [kernelHeap_total, totalTableEntries_toNat] at fits
    exact absent s (by omega) (run s le_rfl (by omega))
  intro cleanly
  have same := (cleanly isNull).memory
  obtain ⟨_, _, cleared⟩ := machine.kzalloc_failed .kernel isNull
  have zero : machine.memory phixHeapTableAddress = 0 := by
    rw [← same, cleared, if_pos large]
  refine absent 0 (by decide) (HeapTable.isFree_of_entry ?_)
  exact zero

/-- So does the second of two calls when the first takes the whole pool. -/
theorem Machine.HeapSound.not_along_failsCleanly {machine : Machine} (sound : machine.HeapSound)
    (free : machine.FreeFrom 0) {size second : Word} (proper : Proper size)
    (whole : blockCount size = 25600) (large : phixHeapTableAddress.toNat < second.toNat) :
    ¬ Along Machine.heapStep Machine.FailsCleanly machine [.kzalloc size, .kzalloc second] := by
  rintro ⟨_, cleanly, _⟩
  have present : ∃ s, (kernelHeap machine.memory).table.FreeRun s (blockCount size) := by
    rw [whole]
    refine ⟨0, ?_, fun i _ below => (Machine.mem_freeBlocks.mp (free i (Nat.zero_le i) ?_)).2⟩
    · rw [kernelHeap_total, totalTableEntries_toNat]
    · omega
  have card : (machine.heapStep (.kzalloc size)).freeBlocks.card + blockCount size =
      machine.freeBlocks.card := (sound.kzalloc_takes .kernel proper present).2.card
  have bound : machine.freeBlocks.card ≤ 25600 := by
    unfold Machine.freeBlocks
    exact (Finset.card_filter_le _ _).trans (Finset.card_range 25600).le
  rw [whole] at card
  exact Machine.not_failsCleanly_of_full (Finset.card_eq_zero.mp (by omega)) large cleanly

/-- The pool is filled by one allocation; the next call then clears entries of the block table. -/
theorem kzalloc_fails_cleanly_fails :
    ¬ Along Machine.heapStep Machine.FailsCleanly (Machine.booted fun _ => 0)
      [.kzalloc phixHeapSizeBytes, .kzalloc 0x8000] := by
  have proper : Proper phixHeapSizeBytes := by
    unfold Proper maxRequest
    decide
  exact (Machine.booted_sound _).not_along_failsCleanly (Machine.booted_freeFrom _) proper
    (by decide)
    (by decide)

end Phix
