import Phix.Memory.Directories
import Phix.Memory.FreeBlocks
import Phix.Memory.Locality

/-! # Requests that do no harm

The heap serves a request for which there is a run of free blocks, and refuses one when
there is none and the last block of the pool is taken. Other requests run past the end
of the pool or return a block that is not allocated, and a refused request of more bytes
than lie below the block table clears the table through the null pointer. A request that
is served or refused cleanly only adds an allocation
(`Phix.Machine.HeapSound.kzalloc_harmless`).
-/

namespace Phix

open Runs

/-- A request of the heap as it is now. -/
def Machine.request (machine : Machine) (size : Word) : Request :=
  ⟨(kernelHeap machine.memory).table, size⟩

namespace Request

/-- There are enough consecutive free blocks for the request. -/
def Served (request : Request) : Prop :=
  Proper request.size ∧ ∃ s, request.table.FreeRun s (blockCount request.size)

/-- There are not, the last block is taken, and the size is below the block table. -/
def Refused (request : Request) : Prop :=
  request.size.toNat ≤ phixHeapTableAddress.toNat ∧ ¬ request.table.TailFree ∧
    (request.size = 0 ∨ ¬ ∃ s, request.table.FreeRun s (blockCount request.size))

/-- The request is served or refused, or it asks for nothing. -/
def Harmless (request : Request) : Prop :=
  request.Served ∨ request.Refused ∨ request.size = 0

end Request

/-- Whether a request is harmless depends on the block table only. -/
theorem Machine.request_harmless_congr {machine other : Machine}
    (agree : ∀ x : Word, x.toNat < tableLimit → other.memory x = machine.memory x) (size : Word) :
    (other.request size).Harmless ↔ (machine.request size).Harmless := by
  have free : ∀ i < 25600, (other.request size).table.IsFree i ↔
      (machine.request size).table.IsFree i := by
    intro i inside
    have entry := kernelHeap_entries_congr agree inside
    unfold HeapTable.IsFree Machine.request
    rw [entry]
  have run : ∀ s n, (other.request size).table.FreeRun s n ↔
      (machine.request size).table.FreeRun s n := by
    intro s n
    refine and_congr_right fun fits => ?_
    have fits : s + n ≤ 25600 := fits
    exact forall_congr' fun i => forall_congr' fun _ => forall_congr' fun upper =>
      free i (by omega)
  have tail : (other.request size).table.TailFree ↔ (machine.request size).table.TailFree :=
    and_congr_right fun _ => free 25599 (by decide)
  have runs : (∃ s, (other.request size).table.FreeRun s (blockCount size)) ↔
      ∃ s, (machine.request size).table.FreeRun s (blockCount size) :=
    exists_congr fun s => run s _
  have served : (other.request size).Served ↔ (machine.request size).Served :=
    and_congr_right fun _ => runs
  have refused : (other.request size).Refused ↔ (machine.request size).Refused :=
    and_congr_right fun _ => and_congr (not_congr tail) (or_congr_right (not_congr runs))
  exact or_congr served (or_congr refused Iff.rfl)

theorem Machine.kzalloc_refused (machine : Machine) (owner : Owner) {size : Word}
    (refused : (machine.request size).Refused) :
    (machine.kzalloc owner size).1 = null := by
  obtain ⟨_, taken, noRun⟩ := refused
  change (heapMalloc (kernelHeap machine.memory) size).1 = null
  have pool := kernelHeap_pool machine.memory
  by_cases proper : Proper size
  · have absent : ¬ ∃ s, (kernelHeap machine.memory).table.FreeRun s (blockCount size) := by
      rcases noRun with zero | absent
      · have positive := proper.1
        rw [show size = 0 from zero] at positive
        exact absurd positive (by decide)
      · exact absent
    have outcome := heapMallocBlocks_outcome pool (heapRequest size)
    rw [← heapMalloc_eq] at outcome
    generalize heapMalloc (kernelHeap machine.memory) size = result at outcome
    cases outcome with
    | failed => rfl
    | found s _ run =>
        rw [heapRequest_toNat proper.2] at run
        exact absurd ⟨s, run⟩ absent
    | overrun s started run => exact absurd (HeapTable.tailFree_of_run started run) taken
  · rcases heapMalloc_of_not_proper pool proper with ⟨_, result⟩ | ⟨free, _⟩
    · rw [result]
    · exact absurd free taken

/-- A request for at most a block is served, or refused when no block is free. -/
theorem Machine.request_block_harmless (machine : Machine) {size : Word} (positive : 1 ≤ size.toNat)
    (small : size.toNat ≤ 4096) : (machine.request size).Harmless := by
  have single : blockCount size = 1 := by
    unfold blockCount
    omega
  by_cases present : ∃ s, (machine.request size).table.FreeRun s (blockCount size)
  · exact .inl ⟨⟨positive, small.trans (by decide)⟩, present⟩
  · refine .inr (.inl ⟨small.trans (by decide), fun tail => present ⟨25599, ?_⟩, .inr present⟩)
    rw [single]
    exact ⟨show 25599 + 1 ≤ totalTableEntries.toNat by decide, isRun_one tail.2⟩

section Requests

variable {machine : Machine} (sound : machine.HeapSound) (owner : Owner) {size : Word}

include sound

theorem Machine.HeapSound.kzalloc_served (served : (machine.request size).Served) :
    (machine.kzalloc owner size).1 ≠ null ∧
      machine.Cleared owner size (machine.kzalloc owner size).1
      (machine.kzalloc owner size).2 := by
  have found := (sound.kzalloc_takes owner served.1 served.2).1
  exact ⟨found, sound.kzalloc owner served.1 found⟩

/-- A harmless request adds one allocation or none. -/
theorem Machine.HeapSound.kzalloc_harmless (harmless : (machine.request size).Harmless) :
    machine.Grown (machine.kzalloc owner size).2 ∧
      ∀ p allocation, (machine.kzalloc owner size).2.live p = some allocation →
        machine.live p = some allocation ∨
          p = (machine.kzalloc owner size).1 ∧ machine.live p = none ∧
              allocation = ⟨size, owner⟩ := by
  have idle : size.toNat ≤ phixHeapTableAddress.toNat →
      ¬ ((machine.kzalloc owner size).1 ≠ null ∧ Proper size) →
      machine.Grown (machine.kzalloc owner size).2 ∧
        (machine.kzalloc owner size).2.live = machine.live := by
    intro small idle
    obtain ⟨kept, live, memory⟩ := sound.kzalloc_idle owner small idle
    refine ⟨⟨kept, fun p allocation held => by rw [live]; exact held, fun x beyond _ =>
      memory x (le_trans ?_ beyond)⟩, live⟩
    decide
  rcases harmless with served | refused | zero
  · obtain ⟨_, cleared⟩ := sound.kzalloc_served owner served
    refine ⟨cleared.grown, fun p allocation present => ?_⟩
    rw [cleared.live] at present
    by_cases here : p = (machine.kzalloc owner size).1
    · rw [here, Function.update_self] at present
      exact .inr ⟨here, here ▸ cleared.fresh, (Option.some.inj present).symm⟩
    · rw [Function.update_of_ne here] at present
      exact .inl present
  · obtain ⟨grown, live⟩ := idle refused.1 fun granted =>
      granted.1 (machine.kzalloc_refused owner refused)
    exact ⟨grown, fun p allocation present => .inl (live ▸ present)⟩
  · have zero : size = 0 := zero
    subst zero
    obtain ⟨grown, live⟩ := idle (Nat.zero_le _) fun granted => absurd granted.2.1 (by decide)
    exact ⟨grown, fun p allocation present => .inl (live ▸ present)⟩

end Requests

/-- A harmless request for an allocation that is no part of a chunk. -/
theorem Machine.PagingSound.kzalloc {machine : Machine} (paging : machine.PagingSound)
    {owner : Owner} (notPaging : ¬ owner.IsPaging) {size : Word}
    (harmless : (machine.request size).Harmless) :
    (machine.kzalloc owner size).2.PagingSound := by
  obtain ⟨grown, origin⟩ := paging.sound.kzalloc_harmless owner harmless
  refine paging.grown grown fun chunk base isChunk => ?_
  obtain ⟨chunkSize, present⟩ := isChunk
  rcases origin chunk _ present with before | ⟨_, _, added⟩
  · exact ⟨chunkSize, before⟩
  · cases added
    exact absurd trivial notPaging

end Phix
