import Phix.Memory.Gains

/-! # The blocks that are granted

The heap serves a request from a run of free blocks of its length. Without one it grants what is
free at the end of the pool, however little: the bytes asked for are in the blocks granted exactly
when there is such a run (`Phix.Machine.HeapSound.kzalloc_fits`).
-/

namespace Phix

open Runs

/-- Where the pool of the heap ends. -/
def poolEnd : ℕ := phixHeapSaddress.toNat + phixHeapSizeBytes.toNat

namespace Machine

/-- The bytes of the blocks that are allocated at a pointer: those of the size asked for, or up to
the end of the pool where this comes first. -/
def room (machine : Machine) (p : Word) : ℕ :=
  ((machine.live p).map fun allocation =>
    min (4096 * blockCount allocation.size) (poolEnd - p.toNat)).getD 0

/-- Behind the first free block there is a run of free ones. -/
def FreeRunBehind (machine : Machine) (n : ℕ) : Prop :=
  ∃ s, (kernelHeap machine.memory).table.FreeRun s n ∧
    ∃ first < s, (kernelHeap machine.memory).table.IsFree first

variable {machine : Machine}

theorem room_of_live {p : Word} {allocation : Allocation}
    (held : machine.live p = some allocation) :
    machine.room p = min (4096 * blockCount allocation.size) (poolEnd - p.toNat) := by
  unfold room
  rw [held]
  rfl

theorem room_of_free {p : Word} (free : machine.live p = none) : machine.room p = 0 := by
  unfold room
  rw [free]
  rfl

/-- The heap takes the first free block for a request of at most one. -/
theorem HeapSound.kzalloc_first (sound : machine.HeapSound) (owner : Owner) {size : Word}
    (positive : 1 ≤ size.toNat) (small : size.toNat ≤ 4096)
    (found : (machine.kzalloc owner size).1 ≠ null) :
    ∃ first, first ∈ machine.freeBlocks ∧ (∀ i ∈ machine.freeBlocks, first ≤ i) ∧
      (machine.kzalloc owner size).2.freeBlocks = machine.freeBlocks.erase first := by
  have proper : Proper size := ⟨positive, by unfold maxRequest; omega⟩
  have single : blockCount size = 1 := by
    unfold blockCount
    omega
  have present : ∃ s, (kernelHeap machine.memory).table.FreeRun s (blockCount size) := by
    obtain ⟨i, member⟩ := Finset.nonempty_iff_ne_empty.mpr
      fun none => found ((machine.kzalloc_eq_null_iff owner positive small).mpr none)
    obtain ⟨inside, free⟩ := mem_freeBlocks.mp member
    refine ⟨i, by rw [single]; exact inside, fun j lower upper => ?_⟩
    obtain rfl : j = i := by omega
    exact free
  obtain ⟨first, fits, _, least, taken, rest⟩ := HeapSound.kmalloc_found owner proper present
  have same := (machine.kmalloc owner size).2.freeBlocks_congr
    fun x low => sound.kzalloc_low owner proper found low
  refine ⟨first, taken first le_rfl (by omega), fun i member => not_lt.mp fun before => ?_, ?_⟩
  · refine least i before fun j lower upper => ?_
    obtain rfl : j = i := by omega
    exact (mem_freeBlocks.mp member).2
  · rw [same, rest, single]
    ext i
    rw [Finset.mem_filter, Finset.mem_erase, and_comm]
    exact and_congr_left' (not_congr ⟨fun at_ => by omega, fun at_ => by omega⟩)

/-- The runs that are left behind a first block that was taken. -/
theorem freeRun_iff_behind {next : Machine} {first n : ℕ} (positive : 1 ≤ n)
    (taken : first ∈ machine.freeBlocks) (least : ∀ i ∈ machine.freeBlocks, first ≤ i)
    (rest : next.freeBlocks = machine.freeBlocks.erase first) :
    (∃ s, (kernelHeap next.memory).table.FreeRun s n) ↔ machine.FreeRunBehind n := by
  have free : ∀ i < 25600, (kernelHeap next.memory).table.IsFree i ↔
      (kernelHeap machine.memory).table.IsFree i ∧ i ≠ first := by
    intro i inside
    have member : i ∈ next.freeBlocks ↔ i ∈ machine.freeBlocks.erase first := by rw [rest]
    rw [Finset.mem_erase, mem_freeBlocks, mem_freeBlocks] at member
    constructor
    · intro isFree
      exact ⟨(member.mp ⟨inside, isFree⟩).2.2, (member.mp ⟨inside, isFree⟩).1⟩
    · rintro ⟨isFree, other⟩
      exact (member.mpr ⟨other, inside, isFree⟩).2
  constructor
  · rintro ⟨s, fits, run⟩
    change s + n ≤ 25600 at fits
    refine ⟨s, ⟨fits, fun i lower upper => ?_⟩, first, ?_, (mem_freeBlocks.mp taken).2⟩
    · exact ((free i (by omega)).mp (run i lower upper)).1
    · obtain ⟨isFree, other⟩ := (free s (by omega)).mp (run s le_rfl (by omega))
      have before := least s (mem_freeBlocks.mpr ⟨by omega, isFree⟩)
      omega
  · rintro ⟨s, ⟨fits, run⟩, j, before, isFree⟩
    change s + n ≤ 25600 at fits
    refine ⟨s, fits, fun i lower upper => (free i (by omega)).mpr ⟨run i lower upper, ?_⟩⟩
    have earlier := least j (mem_freeBlocks.mpr ⟨by omega, isFree⟩)
    omega

/-- A request that is granted has its bytes in its blocks exactly when there is a run of free blocks
of its length. -/
theorem HeapSound.kzalloc_fits (sound : machine.HeapSound) (owner : Owner) {size : Word}
    (proper : Proper size) (found : (machine.kzalloc owner size).1 ≠ null) :
    size.toNat ≤ (machine.kzalloc owner size).2.room (machine.kzalloc owner size).1 ↔
      ∃ s, (kernelHeap machine.memory).table.FreeRun s (blockCount size) := by
  rw [room_of_live (sound.kzalloc owner proper found).held]
  have count := one_le_blockCount proper.1
  have enough : size.toNat ≤ 4096 * blockCount size ∧
      4096 * (blockCount size - 1) < size.toNat := by
    have positive := proper.1
    unfold blockCount
    omega
  have ends : poolEnd = 0x01000000 + 4096 * 25600 := rfl
  constructor
  · intro fits
    -- Without such a run the blocks granted are those at the end of the pool.
    by_contra absent
    have outcome := heapMallocBlocks_outcome (kernelHeap_pool machine.memory) (heapRequest size)
    have length := heapRequest_toNat proper.2
    rw [← heapMalloc_eq] at outcome
    have pointer : (machine.kzalloc owner size).1 =
        (heapMalloc (kernelHeap machine.memory) size).1 := rfl
    rw [pointer] at fits found
    generalize heapMalloc (kernelHeap machine.memory) size = result at outcome fits found
    cases outcome with
    | failed => exact found rfl
    | found s _ run => exact absent ⟨s, length ▸ run⟩
    | overrun s started run =>
        change s < 25600 at started
        have address : ((kernelHeap machine.memory).blockAddress s).toNat =
            0x01000000 + 4096 * s := poolBlock_toNat started
        dsimp only at fits
        rw [address] at fits
        have long := fits.trans (min_le_right ..)
        refine absent ⟨s, show s + blockCount size ≤ 25600 by omega, fun i lower upper => ?_⟩
        exact run i lower (show i < s + (25600 - s) by omega)
  · intro present
    obtain ⟨s, inside, pointer, _⟩ := HeapSound.kmalloc_found owner proper present
    change _ ≤ min _ (poolEnd - (machine.kmalloc owner size).1.toNat)
    rw [pointer, poolBlock_toNat (show s < 25600 by omega)]
    exact le_min enough.1 (by omega)

/-- A request that is not proper allocates nothing. -/
theorem HeapSound.kzalloc_nothing (sound : machine.HeapSound) (owner : Owner) {size : Word}
    (improper : ¬ Proper size) (found : (machine.kzalloc owner size).1 ≠ null) :
    (machine.kzalloc owner size).2.room (machine.kzalloc owner size).1 = 0 := by
  refine room_of_free ?_
  rw [kzalloc_live, kmalloc_live, if_neg fun grants => improper grants.2]
  exact sound.kzalloc_fresh owner found

end Machine

end Phix
