import Phix.Foundation.Traces
import Phix.Heap.Ownership

/-! # The heap as a system of calls

A heap with the ghost record of its live allocations, stepped by
`heap_malloc(size)` and `heap_free(p)`. An allocation is live from the call that
returns it, unless that call returns null, to the call that frees it.
-/

namespace Phix

open Extents Traces

structure HeapState where
  heap : Heap
  live : LiveSizes

inductive HeapOp where
  | malloc (size : Word)
  | free (p : Word)

def HeapState.step (state : HeapState) : HeapOp → HeapState
  | .malloc size =>
      let (p, heap) := heapMalloc state.heap size
      ⟨heap, state.live.grant p size⟩
  | .free p => ⟨heapFree state.heap p, Function.update state.live p none⟩

/-- The state after `heap_create`: nothing is live. -/
def HeapState.created (heap : Heap) : HeapState := ⟨heap, fun _ => none⟩

/-- The addresses of the `size` bytes at `p`. -/
def byteRange (p size : Word) : Set ℕ := Set.Ico p.toNat (p.toNat + size.toNat)

/-- Block `b` contains a byte of the allocation of `size` bytes at `p`. -/
def Heap.HoldsBlock (heap : Heap) (p size : Word) (b : ℕ) : Prop :=
  ∃ x ∈ byteRange p size, heap.saddr.toNat + 4096 * b ≤ x ∧ x < heap.saddr.toNat + 4096 * (b + 1)

/-- The call is made with a size that is positive as an aligned `int`, or frees a live
pointer. -/
def HeapState.Legal (state : HeapState) : HeapOp → Prop
  | .malloc size => 1 ≤ size.toNat ∧ size.toNat ≤ maxRequest
  | .free p => (state.live p).isSome

theorem HeapInv.step {state : HeapState} (inv : HeapInv state.heap state.live) {op : HeapOp}
    (legal : state.Legal op) : HeapInv (state.step op).heap (state.step op).live := by
  cases op with
  | malloc size => exact inv.malloc legal.1 legal.2
  | free p =>
      obtain ⟨size, held⟩ := Option.isSome_iff_exists.mp legal
      exact inv.free held

section Addresses

variable {heap : Heap} {live : LiveSizes} (inv : HeapInv heap live) {p size : Word}
  (held : live p = some size)

include inv held

theorem HeapInv.address_toNat : p.toNat = heap.saddr.toNat + 4096 * heap.blockIndex p := by
  have address := inv.pool.blockAddress_toNat (inv.started held)
  rwa [inv.based p size held] at address

theorem HeapInv.holdsBlock_iff (b : ℕ) :
    heap.HoldsBlock p size b ↔ b ∈ (heap.extent p size).indices := by
  have address := inv.address_toNat held
  have positive := (inv.sized p size held).1
  unfold Heap.HoldsBlock byteRange
  rw [Extent.mem_indices]
  unfold Heap.extent blockCount
  constructor
  · rintro ⟨x, ⟨lower, upper⟩, first, last⟩
    constructor <;> dsimp only <;> omega
  · rintro ⟨lower, upper⟩
    dsimp only at lower upper
    exact ⟨heap.saddr.toNat + 4096 * b, ⟨by omega, by omega⟩, le_rfl, by omega⟩

end Addresses

theorem HeapInv.disjoint_byteRange {heap : Heap} {live : LiveSizes} (inv : HeapInv heap live)
    {p q size other : Word} (different : p ≠ q) (first : live p = some size)
    (second : live q = some other) : Disjoint (byteRange p size) (byteRange q other) := by
  have apart := inv.placed.separated p q _ _ different (heap.extents_of_live first)
    (heap.extents_of_live second)
  have left := inv.address_toNat first
  have right := inv.address_toNat second
  rw [Set.disjoint_left] at apart ⊢
  intro x mine theirs
  -- The block of the shared byte would belong to both extents.
  have block : ∀ r held, live r = some held → x ∈ byteRange r held →
      (x - heap.saddr.toNat) / 4096 ∈ (heap.extent r held).indices := by
    intro r held owns inside
    have address := inv.address_toNat owns
    have lower : r.toNat ≤ x := inside.1
    refine (inv.holdsBlock_iff owns _).mp ⟨x, inside, ?_, ?_⟩ <;> omega
  exact apart (block p size first mine) (block q other second theirs)

/-- A heap of four blocks at `0x1000`, as `heap_create` leaves it. -/
def smallHeap : Heap :=
  (heapCreate ⟨⟨fun _ => 0, 0⟩, 0⟩ 0x1000 0x5000 ⟨fun _ => 0, 4⟩).2

theorem smallHeap_created :
    heapCreate ⟨⟨fun _ => 0, 0⟩, 0⟩ 0x1000 0x5000 ⟨fun _ => 0, 4⟩ = (0, smallHeap) :=
  Prod.ext (by decide) rfl

end Phix
