import Phix.Foundation.PageDirectory
import Phix.Heap.Containment

/-! # The kernel heap in memory

The kernel's single heap (`memory/heap/kheap.c`) keeps its block table in physical
memory at `PHIX_HEAP_TABLE_ADDRESS` and its pool at `PHIX_HEAP_SADDRESS`. A
`Machine` is that memory with two ghost records: the live allocations with the
purpose each was made for, and the requests made of the heap so far together with
the table each was made of. The code reads neither.
-/

namespace Phix

open Extents

/-- What an allocation was made for. A table names its directory and its index, and
the memory of a process names the process. -/
inductive Owner where
  | kernel
  | elfFile
  | process
  | task
  | directory
  | table (directory : Word) (index : ℕ)
  | chunk (directory : Word)
  | image (process : Word)
  | bss (process : Word)
  | stack (process : Word)
  | user (process : Word)
  deriving DecidableEq

structure Allocation where
  size : Word
  owner : Owner

/-- A size asked of the heap, with the table at that time. -/
structure Request where
  table : HeapTable
  size : Word

structure Machine where
  memory : ByteMemory
  live : Word → Option Allocation
  requests : List Request

/-- `PHIX_HEAP_SIZE_BYTES / PHIX_HEAP_BLOCK_SIZE`. -/
def totalTableEntries : Word := phixHeapSizeBytes / phixHeapBlockSize

/-- `kernel_heap`, with its table read from memory. -/
def kernelHeap (memory : ByteMemory) : Heap where
  table :=
    { entries := fun i => memory (phixHeapTableAddress + BitVec.ofNat 32 i)
      total := totalTableEntries }
  saddr := phixHeapSaddress

/-- Memory with the table written back; indices wrap with the address space. -/
def storeTable (table : HeapTable) : ByteMemory :=
  fun x => table.entries (x - phixHeapTableAddress).toNat

/-- `kheap_init`: create the heap over its table in memory. -/
def kheapInit (memory : ByteMemory) : Int × ByteMemory :=
  let (res, heap) := heapCreate (kernelHeap memory) phixHeapSaddress
    (phixHeapSaddress + phixHeapSizeBytes) (kernelHeap memory).table
  (res, storeTable heap.table)

def Machine.kmalloc (machine : Machine) (owner : Owner) (size : Word) : Word × Machine :=
  let (p, heap) := heapMalloc (kernelHeap machine.memory) size
  (p, { memory := storeTable heap.table
        live := if p ≠ null ∧ Proper size then
            Function.update machine.live p (some ⟨size, owner⟩) else machine.live
        requests := ⟨(kernelHeap machine.memory).table, size⟩ :: machine.requests })

/-- `kzalloc`: the result is cleared without a test for null. -/
def Machine.kzalloc (machine : Machine) (owner : Owner) (size : Word) : Word × Machine :=
  let (p, machine) := machine.kmalloc owner size
  (p, { machine with memory := machine.memory.memset p 0 size.toNat })

def Machine.kfree (machine : Machine) (p : Word) : Machine :=
  { machine with
    memory := storeTable (heapFree (kernelHeap machine.memory) p).table
    live := Function.update machine.live p none }

/-- The sizes of the live allocations. -/
def Machine.sizes (machine : Machine) : LiveSizes := fun p => (machine.live p).map Allocation.size

theorem Machine.sizes_of_live {machine : Machine} {p : Word} {allocation : Allocation}
    (held : machine.live p = some allocation) : machine.sizes p = some allocation.size := by
  simp [Machine.sizes, held]

/-- The kernel heap and the live allocations agree. -/
def Machine.HeapSound (machine : Machine) : Prop :=
  HeapInv (kernelHeap machine.memory) machine.sizes

/-- The first address past everything the block table can be written at. -/
def tableLimit : ℕ := 0x100000

/-! The pool of the kernel heap: 25600 blocks from `0x01000000`. -/

theorem totalTableEntries_toNat : totalTableEntries.toNat = 25600 := by decide

@[simp] theorem kernelHeap_saddr (memory : ByteMemory) :
    (kernelHeap memory).saddr = phixHeapSaddress := rfl

@[simp] theorem kernelHeap_total (memory : ByteMemory) :
    (kernelHeap memory).table.total = totalTableEntries := rfl

theorem kernelHeap_pool (memory : ByteMemory) : (kernelHeap memory).Pool where
  aligned := show phixHeapSaddress.toNat % 4096 = 0 by decide
  bounded := show phixHeapSaddress.toNat + 4096 * totalTableEntries.toNat < 2 ^ 32 by decide

/-- The entry of a block, read back from memory. -/
theorem kernelHeap_storeTable_entries (table : HeapTable) {i : ℕ} (bound : i < 2 ^ 32) :
    (kernelHeap (storeTable table)).table.entries i = table.entries i := by
  change table.entries (phixHeapTableAddress + BitVec.ofNat 32 i - phixHeapTableAddress).toNat = _
  rw [add_sub_cancel_left, BitVec.toNat_ofNat, Nat.mod_eq_of_lt bound]

/-- Memory outside a range of entries is untouched by a change to these entries. -/
theorem storeTable_apply {memory : ByteMemory} {table : HeapTable} {x : Word}
    (same : table.entries (x - phixHeapTableAddress).toNat =
      (kernelHeap memory).table.entries (x - phixHeapTableAddress).toNat) :
    storeTable table x = memory x := by
  unfold storeTable
  rw [same]
  change memory (phixHeapTableAddress + BitVec.ofNat 32 (x - phixHeapTableAddress).toNat) = _
  rw [BitVec.ofNat_toNat, BitVec.setWidth_eq, add_sub_cancel]

theorem tableIndex_of_le {x : Word} (beyond : tableLimit ≤ x.toNat) :
    2 ^ 19 + 25600 ≤ (x - phixHeapTableAddress).toNat := by
  unfold tableLimit at beyond
  have := x.isLt
  rw [BitVec.toNat_sub_of_le (by rw [BitVec.le_def]; change 0x7E00 ≤ x.toNat; omega)]
  change _ ≤ x.toNat - 0x7E00
  omega

/-- The invariant only asks for the blocks of live allocations to be taken. -/
theorem HeapInv.of_taken {heap other : Heap} {live : LiveSizes} (inv : HeapInv heap live)
    (saddr : other.saddr = heap.saddr) (total : other.table.total = heap.table.total)
    (taken : ∀ i < heap.table.total.toNat, heap.table.IsTaken i → other.table.IsTaken i) :
    HeapInv other live := by
  have index : ∀ p, other.blockIndex p = heap.blockIndex p := fun p => by
    unfold Heap.blockIndex
    rw [saddr]
  have extents : other.extents live = heap.extents live := by
    funext p
    unfold Heap.extents Heap.extent
    rw [index]
  refine ⟨⟨saddr ▸ inv.pool.aligned, by rw [saddr, total]; exact inv.pool.bounded⟩, ?_, inv.sized,
    ?_, inv.nonNull⟩
  · rw [extents, total]
    exact inv.placed.mono taken
  · intro p size held
    rw [index]
    unfold Heap.blockAddress heapBlockToAddress
    rw [saddr]
    exact inv.based p size held

/-- The invariant depends on the entries of the pool only. -/
theorem HeapInv.congr {heap other : Heap} {live : LiveSizes} (inv : HeapInv heap live)
    (saddr : other.saddr = heap.saddr) (total : other.table.total = heap.table.total)
    (entries : ∀ i < heap.table.total.toNat, other.table.entries i = heap.table.entries i) :
    HeapInv other live := by
  refine inv.of_taken saddr total fun i inside taken => ?_
  unfold HeapTable.IsTaken
  rw [entries i inside]
  exact taken

theorem HeapInv.of_storeTable {heap : Heap} {live : LiveSizes} (inv : HeapInv heap live)
    (saddr : heap.saddr = phixHeapSaddress) (total : heap.table.total = totalTableEntries) :
    HeapInv (kernelHeap (storeTable heap.table)) live :=
  inv.congr saddr.symm total.symm fun i inside =>
    kernelHeap_storeTable_entries _ (by rw [total, totalTableEntries_toNat] at inside; omega)

/-- Memory that agrees below the table limit holds the same heap. -/
theorem Machine.HeapSound.of_agree {machine other : Machine} (sound : machine.HeapSound)
    (live : other.live = machine.live)
    (agree : ∀ x : Word, x.toNat < tableLimit → other.memory x = machine.memory x) :
    other.HeapSound := by
  have sizes : other.sizes = machine.sizes := by
    unfold Machine.sizes
    rw [live]
  unfold Machine.HeapSound
  rw [sizes]
  refine HeapInv.congr sound rfl rfl fun i inside => agree _ ?_
  rw [kernelHeap_total, totalTableEntries_toNat] at inside
  rw [BitVec.toNat_add, BitVec.toNat_ofNat]
  change (0x7E00 + i % 2 ^ 32) % 2 ^ 32 < 0x100000
  omega

/-- The pool block with index `s`. -/
def poolBlock (s : ℕ) : Word := (kernelHeap fun _ => 0).blockAddress s

theorem poolBlock_toNat {s : ℕ} (inside : s < 25600) : (poolBlock s).toNat =
    0x01000000 + 4096 * s :=
  (kernelHeap_pool _).blockAddress_toNat (show s < totalTableEntries.toNat from inside)

theorem poolBlock_ne_null {s : ℕ} (inside : s < 25600) : poolBlock s ≠ null :=
  (kernelHeap_pool _).blockAddress_ne_null (by decide)
    (show s < totalTableEntries.toNat from inside)

theorem Machine.kmalloc_live (machine : Machine) (owner : Owner) (size : Word) :
    (machine.kmalloc owner size).2.live =
      if (machine.kmalloc owner size).1 ≠ null ∧ Proper size then
        Function.update machine.live (machine.kmalloc owner size).1 (some ⟨size, owner⟩)
      else machine.live := rfl

theorem Machine.kzalloc_pointer (machine : Machine) (owner : Owner) (size : Word) :
    (machine.kzalloc owner size).1 = (machine.kmalloc owner size).1 := rfl

theorem Machine.kzalloc_live (machine : Machine) (owner : Owner) (size : Word) :
    (machine.kzalloc owner size).2.live = (machine.kmalloc owner size).2.live := rfl

theorem Machine.kzalloc_apply (machine : Machine) (owner : Owner) (size x : Word) :
    (machine.kzalloc owner size).2.memory x =
      if (x - (machine.kmalloc owner size).1).toNat < size.toNat then 0
      else (machine.kmalloc owner size).2.memory x :=
  ByteMemory.memset_apply _ _ _ size.isLt.le x

theorem storeTable_kernelHeap (memory : ByteMemory) :
    storeTable (kernelHeap memory).table = memory :=
  funext fun _ => storeTable_apply rfl

/-- An allocation writes only table entries, at addresses below the table limit. -/
theorem Machine.kmalloc_memory (machine : Machine) (owner : Owner) (size : Word) {x : Word}
    (beyond : tableLimit ≤ x.toNat) :
    (machine.kmalloc owner size).2.memory x = machine.memory x := by
  refine storeTable_apply ?_
  have index := tableIndex_of_le beyond
  change (heapMalloc (kernelHeap machine.memory) size).2.table.entries _ = _
  by_cases proper : Proper size
  · have count := blockCount_le proper.2
    have outcome := heapMalloc_outcome (kernelHeap_pool machine.memory) proper.1 proper.2
    generalize heapMalloc (kernelHeap machine.memory) size = result at outcome
    cases outcome with
    | failed => rfl
    | placed s after started _ _ _ entries =>
        rw [kernelHeap_total, totalTableEntries_toNat] at started
        rw [entries, if_neg]
        rw [Extent.mem_indices]
        dsimp only
        omega
  · rcases heapMalloc_of_not_proper (kernelHeap_pool machine.memory) proper with
      ⟨_, result⟩ | ⟨_, s, _, _, result⟩ <;> rw [result]

/-- The pointer returned is null, or the address of a block of the pool. -/
theorem Machine.kmalloc_poolBlock (machine : Machine) (owner : Owner) (size : Word) :
    (machine.kmalloc owner size).1 = null ∨
      ∃ s < 25600, (machine.kmalloc owner size).1 = poolBlock s := by
  change (heapMalloc (kernelHeap machine.memory) size).1 = null ∨
    ∃ s < 25600, (heapMalloc (kernelHeap machine.memory) size).1 = poolBlock s
  by_cases proper : Proper size
  · have outcome := heapMalloc_outcome (kernelHeap_pool machine.memory) proper.1 proper.2
    generalize heapMalloc (kernelHeap machine.memory) size = result at outcome
    cases outcome with
    | failed => exact .inl rfl
    | placed s after started => exact .inr ⟨s, started, rfl⟩
  · rcases heapMalloc_of_not_proper (kernelHeap_pool machine.memory) proper with
      ⟨_, result⟩ | ⟨_, s, started, _, result⟩ <;> rw [result]
    · exact .inl rfl
    · exact .inr ⟨s, started, rfl⟩

/-- A call that grants nothing leaves the heap and the live allocations alone. -/
theorem Machine.kmalloc_idle (machine : Machine) (owner : Owner) {size : Word}
    (idle : ¬ ((machine.kmalloc owner size).1 ≠ null ∧ Proper size)) :
    (machine.kmalloc owner size).2.memory = machine.memory ∧
      (machine.kmalloc owner size).2.live = machine.live := by
  have unchanged : (heapMalloc (kernelHeap machine.memory) size).2 = kernelHeap machine.memory := by
    change ¬ ((heapMalloc (kernelHeap machine.memory) size).1 ≠ null ∧ Proper size) at idle
    by_cases proper : Proper size
    · have outcome := heapMalloc_outcome (kernelHeap_pool machine.memory) proper.1 proper.2
      generalize heapMalloc (kernelHeap machine.memory) size = result at outcome idle
      cases outcome with
      | failed => rfl
      | placed s after started => exact absurd ⟨poolBlock_ne_null started, proper⟩ idle
    · rcases heapMalloc_of_not_proper (kernelHeap_pool machine.memory) proper with
        ⟨_, result⟩ | ⟨_, s, _, _, result⟩ <;> rw [result]
  refine ⟨?_, by rw [machine.kmalloc_live, if_neg idle]⟩
  change storeTable (heapMalloc (kernelHeap machine.memory) size).2.table = machine.memory
  rw [unchanged, storeTable_kernelHeap]

section Calls

variable {machine : Machine} (sound : machine.HeapSound)

include sound

/-- A live pointer is the address of a pool block. -/
theorem Machine.HeapSound.pointer {p : Word} {allocation : Allocation}
    (held : machine.live p = some allocation) :
    ∃ s < 25600, p = poolBlock s ∧ (kernelHeap machine.memory).blockIndex p = s := by
  have size := Machine.sizes_of_live held
  have started := sound.started size
  exact ⟨_, started, (sound.based p _ size).symm, rfl⟩

theorem Machine.HeapSound.live_null : machine.live null = none := by
  have absent := sound.nonNull
  unfold Machine.sizes at absent
  exact Option.map_eq_none_iff.mp absent

theorem Machine.HeapSound.ne_null {p : Word} {allocation : Allocation}
    (held : machine.live p = some allocation) : p ≠ null := by
  rintro rfl
  rw [sound.live_null] at held
  cases held

theorem Machine.HeapSound.kmalloc (owner : Owner) (size : Word) :
    (machine.kmalloc owner size).2.HeapSound := by
  by_cases grants : (machine.kmalloc owner size).1 ≠ null ∧ Proper size
  · have sizes : (machine.kmalloc owner size).2.sizes =
        machine.sizes.grant (machine.kmalloc owner size).1 size := by
      funext q
      unfold Machine.sizes LiveSizes.grant
      rw [machine.kmalloc_live, if_pos grants, if_neg grants.1]
      by_cases same : q = (machine.kmalloc owner size).1
      · rw [same, Function.update_self, Function.update_self]
        rfl
      · rw [Function.update_of_ne same, Function.update_of_ne same]
    unfold Machine.HeapSound
    rw [sizes]
    exact (HeapInv.malloc sound grants.2.1 grants.2.2).of_storeTable (heapMalloc_saddr _ size)
      (heapMalloc_total _ size)
  · obtain ⟨memory, live⟩ := machine.kmalloc_idle owner grants
    exact sound.of_agree live fun x _ => congrFun memory x

/-- A free block is not live. -/
theorem Machine.HeapSound.not_live_of_free {s : ℕ} (inside : s < 25600)
    (free : (kernelHeap machine.memory).table.IsFree s) : machine.live (poolBlock s) = none := by
  by_contra held
  obtain ⟨allocation, owns⟩ := Option.ne_none_iff_exists'.mp held
  have size := Machine.sizes_of_live owns
  have index : (kernelHeap machine.memory).blockIndex (poolBlock s) = s :=
    (kernelHeap_pool machine.memory).blockIndex_blockAddress inside
  refine free.not_taken ?_
  refine sound.placed.covered _ _ ((kernelHeap machine.memory).extents_of_live size) s ?_ inside
  rw [Extent.mem_indices]
  unfold Heap.extent
  have positive := one_le_blockCount (sound.sized _ _ size).1
  exact ⟨index.le, index.symm ▸ Nat.lt_add_of_pos_right positive⟩

/-- A pointer that is returned was not live. -/
theorem Machine.HeapSound.kmalloc_fresh (owner : Owner) {size : Word}
    (found : (machine.kmalloc owner size).1 ≠ null) :
    machine.live (machine.kmalloc owner size).1 = none := by
  change (heapMalloc (kernelHeap machine.memory) size).1 ≠ null at found
  change machine.live (heapMalloc (kernelHeap machine.memory) size).1 = none
  by_cases proper : Proper size
  · have outcome := heapMalloc_outcome (kernelHeap_pool machine.memory) proper.1 proper.2
    generalize heapMalloc (kernelHeap machine.memory) size = result at outcome found
    cases outcome with
    | failed => exact absurd rfl found
    | placed s after started free _ _ _ =>
        exact sound.not_live_of_free started
          (free s ⟨le_rfl, Nat.lt_add_of_pos_right (one_le_blockCount proper.1)⟩ started)
  · rcases heapMalloc_of_not_proper (kernelHeap_pool machine.memory) proper with
      ⟨_, result⟩ | ⟨_, s, started, free, result⟩
    · rw [result] at found
      exact absurd rfl found
    · rw [result]
      exact sound.not_live_of_free started free

theorem Machine.HeapSound.kfree {p : Word} {allocation : Allocation}
    (held : machine.live p = some allocation) : (machine.kfree p).HeapSound := by
  have size := Machine.sizes_of_live held
  have sizes : (machine.kfree p).sizes = Function.update machine.sizes p none := by
    funext q
    unfold Machine.sizes Machine.kfree
    dsimp only
    by_cases same : q = p
    · rw [same, Function.update_self, Function.update_self]
      rfl
    · rw [Function.update_of_ne same, Function.update_of_ne same]
  unfold Machine.HeapSound
  rw [sizes]
  exact (HeapInv.free sound size).of_storeTable (heapFree_saddr _ p) (heapFree_total _ p)

end Calls

/-- A release writes only table entries, at addresses below the table limit. -/
theorem Machine.kfree_memory (machine : Machine) (p : Word) {x : Word}
    (beyond : tableLimit ≤ x.toNat) : (machine.kfree p).memory x = machine.memory x := by
  refine storeTable_apply ?_
  have index := tableIndex_of_le beyond
  rw [heapFree_entries]
  split
  · rename_i clears
    have block := clears.2
    rw [kernelHeap_total, totalTableEntries_toNat] at block
    rw [Function.update_of_ne (by omega)]
  · rfl

/-- `p` is a block of the pool that was not live; it is now, with `size` bytes cleared,
and no other memory from the table limit on has changed. -/
structure Machine.Cleared (machine : Machine) (owner : Owner) (size p : Word) (next : Machine) :
    Prop where
  pool : ∃ s < 25600, p = poolBlock s
  fresh : machine.live p = none
  live : next.live = Function.update machine.live p (some ⟨size, owner⟩)
  sound : next.HeapSound
  memory : ∀ x : Word, tableLimit ≤ x.toNat →
    next.memory x = if (x - p).toNat < size.toNat then 0 else machine.memory x

theorem Machine.Cleared.held {machine next : Machine} {owner : Owner} {size p : Word}
    (cleared : machine.Cleared owner size p next) : next.live p = some ⟨size, owner⟩ := by
  rw [cleared.live, Function.update_self]

/-- `kzalloc` of a proper size, when it does not return null. -/
theorem Machine.HeapSound.kzalloc {machine : Machine} (sound : machine.HeapSound) (owner : Owner)
    {size : Word} (proper : Proper size) (found : (machine.kzalloc owner size).1 ≠ null) :
    machine.Cleared owner size (machine.kzalloc owner size).1 (machine.kzalloc owner size).2 := by
  have large := size.isLt
  have fill := fun x => ByteMemory.memset_apply (machine.kmalloc owner size).2.memory
    (machine.kmalloc owner size).1 0 (show size.toNat ≤ 2 ^ 32 by omega) x
  obtain isNull | ⟨s, inside, pointer⟩ := machine.kmalloc_poolBlock owner size
  · exact absurd isNull found
  have address := poolBlock_toNat inside
  refine {
    pool := ⟨s, inside, pointer⟩
    fresh := sound.kmalloc_fresh owner found
    live := if_pos ⟨found, proper⟩
    sound := (sound.kmalloc owner size).of_agree rfl fun x below => ?_
    memory := fun x beyond => (fill x).trans (by
      rw [machine.kmalloc_memory owner size beyond]
      rfl) }
  -- The cleared bytes lie above the table.
  have bound := proper.2
  refine (fill x).trans (if_neg ?_)
  unfold tableLimit at below
  unfold maxRequest at bound
  rw [pointer, BitVec.toNat_sub, address]
  omega

/-- `kzalloc` when it grants nothing: below the block table it may clear memory through the
null pointer. -/
theorem Machine.HeapSound.kzalloc_idle {machine : Machine} (sound : machine.HeapSound)
    (owner : Owner) {size : Word} (small : size.toNat ≤ phixHeapTableAddress.toNat)
    (idle : ¬ ((machine.kzalloc owner size).1 ≠ null ∧ Proper size)) :
    (machine.kzalloc owner size).2.HeapSound ∧
      (machine.kzalloc owner size).2.live = machine.live ∧
      ∀ x : Word, phixHeapTableAddress.toNat ≤ x.toNat →
        (machine.kzalloc owner size).2.memory x = machine.memory x := by
  obtain ⟨memory, live⟩ := machine.kmalloc_idle owner idle
  have fill := fun x => ByteMemory.memset_apply (machine.kmalloc owner size).2.memory
    (machine.kmalloc owner size).1 0 (show size.toNat ≤ 2 ^ 32 by have := size.isLt; omega) x
  have same : ∀ x : Word, phixHeapTableAddress.toNat ≤ x.toNat →
      (machine.kzalloc owner size).2.memory x = machine.memory x := by
    intro x beyond
    refine (fill x).trans ?_
    rw [memory, if_neg]
    rw [not_and_or, not_not] at idle
    rcases idle with isNull | improper
    · change (machine.kmalloc owner size).1 = null at isNull
      rw [isNull, null, sub_zero]
      omega
    · have zero : size.toNat = 0 := by
        by_contra positive
        refine improper ⟨Nat.one_le_iff_ne_zero.mpr positive, small.trans ?_⟩
        decide
      omega
  refine ⟨?_, live, same⟩
  have sizes : (machine.kzalloc owner size).2.sizes = machine.sizes := by
    unfold Machine.sizes
    rw [show (machine.kzalloc owner size).2.live = machine.live from live]
  unfold Machine.HeapSound
  rw [sizes]
  refine HeapInv.congr sound rfl rfl fun i inside => same _ ?_
  rw [kernelHeap_total, totalTableEntries_toNat] at inside
  rw [BitVec.toNat_add, BitVec.toNat_ofNat]
  change 0x7E00 ≤ (0x7E00 + i % 2 ^ 32) % 2 ^ 32
  omega

/-- Distinct live allocations share no frame. -/
theorem Machine.HeapSound.frames_disjoint {machine : Machine} (sound : machine.HeapSound)
    {p q : Word} {first second : Allocation} (different : p ≠ q)
    (left : machine.live p = some first) (right : machine.live q = some second) {x y : Word}
    (inFirst : (x - p).toNat < first.size.toNat) (inSecond : (y - q).toNat < second.size.toNat) :
    pageNumber x ≠ pageNumber y := by
  have block : ∀ {p x : Word} {allocation : Allocation}, machine.live p = some allocation →
      (x - p).toNat < allocation.size.toNat → 4096 ≤ pageNumber x ∧
        pageNumber x - 4096 ∈ ((kernelHeap machine.memory).extent p allocation.size).indices := by
    intro p x allocation held inside
    obtain ⟨s, bounded, rfl, index⟩ := sound.pointer held
    have limit := (sound.sized _ _ (Machine.sizes_of_live held)).2
    have number := poolBlock_toNat bounded
    have place : x.toNat = (poolBlock s).toNat + (x - poolBlock s).toNat := by
      unfold maxRequest at limit
      rw [BitVec.toNat_sub] at inside ⊢
      have := x.isLt
      omega
    rw [Extent.mem_indices]
    unfold Heap.extent blockCount pageNumber
    rw [index, place, number]
    dsimp only
    omega
  intro same
  have mine := block left inFirst
  have theirs := block right inSecond
  have apart := sound.placed.separated p q _ _ different
    ((kernelHeap machine.memory).extents_of_live (Machine.sizes_of_live left))
    ((kernelHeap machine.memory).extents_of_live (Machine.sizes_of_live right))
  rw [same] at mine
  exact Set.disjoint_left.mp apart mine.2 theirs.2

/-- Each block of an allocation holds some of its bytes. -/
theorem Machine.HeapSound.byte_of_block {machine : Machine} (sound : machine.HeapSound) {p x : Word}
    {allocation : Allocation} (held : machine.live p = some allocation)
    (inside : (x - p).toNat < 4096 * blockCount allocation.size) :
    ∃ y, pageNumber y = pageNumber x ∧ (y - p).toNat < allocation.size.toNat := by
  obtain ⟨s, bounded, rfl, _⟩ := sound.pointer held
  have sized := sound.sized _ _ (Machine.sizes_of_live held)
  have positive := sized.1
  have limit := sized.2
  have number := poolBlock_toNat bounded
  have bound := x.isLt
  unfold maxRequest at limit
  unfold blockCount at inside
  rw [BitVec.toNat_sub] at inside
  refine ⟨poolBlock s + BitVec.ofNat 32 ((x - poolBlock s).toNat / 4096 * 4096), ?_, ?_⟩
  · unfold pageNumber
    rw [BitVec.toNat_add, BitVec.toNat_ofNat, BitVec.toNat_sub]
    omega
  · rw [add_sub_cancel_left, BitVec.toNat_ofNat, BitVec.toNat_sub]
    omega

/-- Blocks of distinct live allocations are in different frames. -/
theorem Machine.HeapSound.blocks_disjoint {machine : Machine} (sound : machine.HeapSound)
    {p q x y : Word} {first second : Allocation} (different : p ≠ q)
    (left : machine.live p = some first) (right : machine.live q = some second)
    (inFirst : (x - p).toNat < 4096 * blockCount first.size)
    (inSecond : (y - q).toNat < 4096 * blockCount second.size) : pageNumber x ≠ pageNumber y := by
  obtain ⟨a, sameFirst, byteFirst⟩ := sound.byte_of_block left inFirst
  obtain ⟨b, sameSecond, byteSecond⟩ := sound.byte_of_block right inSecond
  rw [← sameFirst, ← sameSecond]
  exact sound.frames_disjoint different left right byteFirst byteSecond

end Phix
