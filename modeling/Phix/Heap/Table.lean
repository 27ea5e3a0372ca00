import Phix.Common

/-! # The block heap

The allocator of `memory/heap/heap.c`: a pool of 4096-byte blocks and a table
with one flag byte per block. The table is an array in memory that the code
indexes without a bounds check, so `HeapTable.entries` is defined at every index
and `HeapTable.total` counts the blocks that belong to the pool; an entry at or
past `total` is the byte of memory behind the table.

The loops of the source are recursions on the number of remaining iterations.
-/

namespace Phix

/-- One flag byte per heap block. -/
abbrev HeapBlockTableEntry := Byte

def heapBlockTableEntryFree : HeapBlockTableEntry := 0x00
def heapBlockTableEntryTaken : HeapBlockTableEntry := 0x01

/-! The flags are `int` constants; `HEAP_BLOCK_HAS_NEXT` is the ninth bit. -/

def heapBlockHasNext : Word := (1 : Word) <<< 8
def heapBlockIsFirst : Word := (1 : Word) <<< 7

/-- `HEAP_TYPE`: the low half of an entry. -/
def heapType (entry : HeapBlockTableEntry) : HeapBlockTableEntry := entry &&& 0x0f

/-- `entry |= flag`: the operands are promoted to `int` and the result is stored
back into the entry's eight bits. -/
def HeapBlockTableEntry.orFlag (entry : HeapBlockTableEntry) (flag : Word) : HeapBlockTableEntry :=
  (entry.setWidth 32 ||| flag).setWidth 8

/-- `entry & flag`, with the entry promoted to `int`. -/
def HeapBlockTableEntry.andFlag (entry : HeapBlockTableEntry) (flag : Word) : Word :=
  entry.setWidth 32 &&& flag

@[ext] structure HeapTable where
  entries : Nat → HeapBlockTableEntry
  total : Word

structure Heap where
  table : HeapTable
  saddr : Word

def heapValidateTable (p «end» : Word) (table : HeapTable) : Int :=
  let tableSize := «end» - p
  let totalBlocks := tableSize / phixHeapBlockSize
  if table.total ≠ totalBlocks then -EINVAL else 0

def heapValidateAlignment (p : Word) : Bool := p % phixHeapBlockSize == 0

/-- The scan of `heap_get_start_block` from block `i`, with `bc` free blocks
counted since the run start `bs` (`-1` outside a run). -/
def heapGetStartBlock.loop (table : HeapTable) (totalBlocks : Word) :
    (remaining : Nat) → (i : Nat) → (bc : Word) → (bs : Int) → Int
  | 0, _, _, bs => bs
  | remaining + 1, i, bc, bs =>
      if heapType (table.entries i) ≠ heapBlockTableEntryFree then
        loop table totalBlocks remaining (i + 1) 0 (-1)
      else
        let bs : Int := if bs = -1 then (BitVec.ofNat 32 i).toInt else bs
        let bc := bc + 1
        if bc = totalBlocks then bs
        else loop table totalBlocks remaining (i + 1) bc bs

def heapGetStartBlock (heap : Heap) (totalBlocks : Word) : Int :=
  let bs := heapGetStartBlock.loop heap.table totalBlocks heap.table.total.toNat 0 0 (-1)
  if bs = -1 then -ENOMEM else bs

def heapBlockToAddress (heap : Heap) (block : Word) : Word :=
  heap.saddr + block * phixHeapBlockSize

/-- The block of an address: a signed division of the pointer difference. -/
def heapAddressToBlock (heap : Heap) (p : Word) : Word := (p - heap.saddr).sdiv phixHeapBlockSize

/-- The marking loop from block `i`, about to write `entry`. -/
def heapMarkBlocksTaken.loop (endBlock : Int) :
    (remaining : Nat) → (i : Nat) → HeapBlockTableEntry → (Nat → HeapBlockTableEntry) →
      Nat → HeapBlockTableEntry
  | 0, _, _, entries => entries
  | remaining + 1, i, entry, entries =>
      let entries := Function.update entries i entry
      let entry := heapBlockTableEntryTaken
      let entry := if (i : Int) ≠ endBlock - 1 then
          HeapBlockTableEntry.orFlag entry heapBlockHasNext else entry
      loop endBlock remaining (i + 1) entry entries

/-- `heap_mark_blocks_taken`: the last block is a signed `int`, and the loop runs
while the index has not passed it. -/
def heapMarkBlocksTaken (table : HeapTable) (start totalBlocks : Word) : HeapTable :=
  let endBlock := (start + totalBlocks - 1).toInt
  let entry := HeapBlockTableEntry.orFlag heapBlockTableEntryTaken heapBlockIsFirst
  let entry := if totalBlocks > 1 then
      HeapBlockTableEntry.orFlag entry heapBlockHasNext else entry
  let remaining := (endBlock - start.toInt + 1).toNat
  { table with
    entries := heapMarkBlocksTaken.loop endBlock remaining start.toNat entry table.entries }

/-- The freeing loop from block `i`: it follows the continuation flag of the
entry it has just cleared. -/
def heapMarkBlocksFree.loop :
    (remaining : Nat) → (i : Nat) → (Nat → HeapBlockTableEntry) → Nat → HeapBlockTableEntry
  | 0, _, entries => entries
  | remaining + 1, i, entries =>
      let entry := entries i
      let entries := Function.update entries i heapBlockTableEntryFree
      if entry.andFlag heapBlockHasNext = 0 then entries
      else loop remaining (i + 1) entries

def heapMarkBlocksFree (table : HeapTable) (start : Word) : HeapTable :=
  { table with
    entries := heapMarkBlocksFree.loop (table.total.toNat - start.toNat) start.toNat
      table.entries }

/-- `heap_create` over the memory `table` points to; it returns the status and the
heap as the call leaves it. -/
def heapCreate (heap : Heap) (p «end» : Word) (table : HeapTable) : Int × Heap :=
  if !heapValidateAlignment p || !heapValidateAlignment «end» then (-EINVAL, heap)
  else
    let heap : Heap := { saddr := p, table := table }
    let ret := heapValidateTable p «end» table
    if ret ≠ 0 then (ret, heap)
    else
      let tableSize := table.total
      (0, { heap with
        table := { table with
          entries := fun i => if i < tableSize.toNat then heapBlockTableEntryFree
            else table.entries i } })

def heapMallocBlocks (heap : Heap) (totalBlocks : Word) : Word × Heap :=
  let startBlock := heapGetStartBlock heap totalBlocks
  if startBlock < 0 then (null, heap)
  else
    let start := BitVec.ofInt 32 startBlock
    (heapBlockToAddress heap start,
      { heap with table := heapMarkBlocksTaken heap.table start totalBlocks })

/-- `heap_malloc`: the aligned size becomes a signed `int`, is divided by the block
size and becomes an unsigned block count again. -/
def heapMalloc (heap : Heap) (size : Word) : Word × Heap :=
  let aligned := align size phixHeapBlockSize
  heapMallocBlocks heap (aligned.sdiv phixHeapBlockSize)

def heapFree (heap : Heap) (p : Word) : Heap :=
  if p = null then heap
  else { heap with table := heapMarkBlocksFree heap.table (heapAddressToBlock heap p) }

end Phix
