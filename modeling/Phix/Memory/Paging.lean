import Phix.Foundation.AddressSpace
import Phix.Memory.KernelHeap

/-! # Paging

The functions of `memory/paging/paging.c` on the bytes of memory. A chunk is a pointer to
a word that holds the address of a page directory; the directory's entries hold the
addresses of its page tables in their high 20 bits. `paging_new_chunk` ends in a kernel
panic when an allocation fails, which is `none` here.
-/

namespace Phix

/-- The flag of a page that is present. -/
def pagingIsPresent : Byte := 1 <<< 0

/-- The flag of a page that may be written. -/
def pagingIsWritable : Byte := 1 <<< 1

/-- The flag of a page that programs may use. -/
def pagingAccessFromAll : Byte := 1 <<< 2

/-- The number of entries of a directory and of a table. -/
def pagingTotalEntriesPerTable : Word := 1024

/-- The size of a page. -/
def pagingPageSize : Word := 4096

/-- Rounds up to a page. -/
def pageAlign (x : Word) : Word := align x pagingPageSize

/-- Rounds down to a page. -/
def pageAlignLower (x : Word) : Word := alignLower x pagingPageSize

/-- `paging_aligned`. -/
def pagingAligned (x : Word) : Bool := x % pagingPageSize = 0

/-- The directory index and the table index of a virtual address. -/
def pagingGetIndexes (vaddr : Word) : Except Int (Word × Word) :=
  if ¬ pagingAligned vaddr then .error (-EINVAL)
  else .ok (vaddr / (pagingTotalEntriesPerTable * pagingPageSize),
    vaddr % (pagingTotalEntriesPerTable * pagingPageSize) / pagingPageSize)

/-- The address of the table entry with these indices. -/
def tableEntryAddress (memory : ByteMemory) (directory directoryIndex tableIndex : Word) : Word :=
  let entry := memory.load32 (directory + 4 * directoryIndex)
  let table := entry &&& 0xfffff000
  table + 4 * tableIndex

/-- `paging_set` writes the entry of an address, which must be aligned. -/
def pagingSet (memory : ByteMemory) (directory vaddr val : Word) : Int × ByteMemory :=
  if ¬ pagingAligned vaddr then (-EINVAL, memory)
  else match pagingGetIndexes vaddr with
    -- The source returns the result of the comparison with zero, not the status.
    | .error _ => (1, memory)
    | .ok (directoryIndex, tableIndex) =>
        (0, memory.store32 (tableEntryAddress memory directory directoryIndex tableIndex) val)

/-- `paging_map`: both addresses must be aligned. -/
def pagingMap (memory : ByteMemory) (chunk vaddr paddr : Word) (flags : Byte) : Int × ByteMemory :=
  if ¬ pagingAligned vaddr ∨ ¬ pagingAligned paddr then (-EINVAL, memory)
  else pagingSet memory (memory.load32 chunk) vaddr (paddr ||| flags.setWidth 32)

/-- The loop of `paging_map_range`, with the rounds that remain. -/
def pagingMapRange.loop (chunk : Word) (flags : Byte) :
    ℕ → Word → Word → ByteMemory → ByteMemory
  | 0, _, _, memory => memory
  | rounds + 1, vaddr, paddr, memory =>
      let (ret, memory) := pagingMap memory chunk vaddr paddr flags
      if ret < 0 then memory
      else loop chunk flags rounds (vaddr + pagingPageSize) (paddr + pagingPageSize) memory

/-- `paging_map_range`: page after page, to the first that fails. -/
def pagingMapRange (memory : ByteMemory) (chunk vaddr paddr count : Word) (flags : Byte) :
    Int × ByteMemory :=
  (0, pagingMapRange.loop chunk flags count.toNat vaddr paddr memory)

/-- `paging_map_to`: from a physical address to the end of a range. -/
def pagingMapTo (memory : ByteMemory) (chunk vaddr paddr pend : Word) (flags : Byte) :
    Int × ByteMemory :=
  if ¬ pagingAligned vaddr then (-EINVAL, memory)
  else if ¬ pagingAligned paddr then (-EINVAL, memory)
  else if ¬ pagingAligned pend then (-EINVAL, memory)
  else if pend < paddr then (-EINVAL, memory)
  else
    let totalBytes := pend - paddr
    let totalPages := totalBytes / pagingPageSize
    pagingMapRange memory chunk vaddr paddr totalPages flags

/-- `paging_get` reads the entry of an address, which must be aligned. -/
def pagingGet (memory : ByteMemory) (directory vaddr : Word) : Except Int Word :=
  match pagingGetIndexes vaddr with
  | .error ret => .error ret
  | .ok (directoryIndex, tableIndex) =>
      .ok (memory.load32 (tableEntryAddress memory directory directoryIndex tableIndex))

/-- `paging_get_paddr`: the physical address of a page. -/
def pagingGetPaddr (memory : ByteMemory) (directory vaddr : Word) : Word :=
  match pagingGetIndexes (pageAlignLower vaddr) with
  | .error _ => null
  | .ok (directoryIndex, tableIndex) =>
      (memory.load32 (tableEntryAddress memory directory directoryIndex tableIndex) &&& 0xfffff000)
        + vaddr % pagingPageSize

/-- `paging_get_flags`: the flags of a page. -/
def pagingGetFlags (memory : ByteMemory) (directory vaddr : Word) : Word :=
  match pagingGetIndexes (pageAlignLower vaddr) with
  | .error _ => 0
  | .ok (directoryIndex, tableIndex) =>
      memory.load32 (tableEntryAddress memory directory directoryIndex tableIndex) &&& 0x00000fff

/-- The inner loop of `paging_new_chunk`: the first `b` entries of a table. -/
def fillTable (entry offset : Word) (flags : Byte) : ℕ → ByteMemory → ByteMemory
  | 0, memory => memory
  | b + 1, memory =>
      (fillTable entry offset flags b memory).store32 (entry + BitVec.ofNat 32 (4 * b))
        ((offset + BitVec.ofNat 32 b * pagingPageSize) ||| flags.setWidth 32)

/-- The rest of a round of the outer loop of `paging_new_chunk`, once the `i`-th table is
allocated: fill it and point the directory at it. -/
def setTable (directory entry offset : Word) (i : ℕ) (flags : Byte) (memory : ByteMemory) :
    ByteMemory :=
  (fillTable entry offset flags 1024 memory).store32 (directory + BitVec.ofNat 32 (4 * i))
    (entry ||| flags.setWidth 32 ||| pagingIsWritable.setWidth 32)

/-- The outer loop of `paging_new_chunk`: the first `i` tables, with the running offset,
which wraps. -/
def Machine.newTables (directory : Word) (flags : Byte) : ℕ → Machine → Option (Machine × Word)
  | 0, machine => some (machine, 0)
  | i + 1, machine => do
      let (machine, offset) ← machine.newTables directory flags i
      let (entry, machine) := machine.kzalloc (.table directory i) (4 * pagingTotalEntriesPerTable)
      if entry = null then none
      else
        let memory := setTable directory entry offset i flags machine.memory
        some ({ machine with memory }, offset + pagingTotalEntriesPerTable * pagingPageSize)

@[irreducible] def Machine.pagingNewChunk (machine : Machine) (flags : Byte) :
    Option (Word × Machine) := do
  let (directory, machine) := machine.kzalloc .directory (4 * pagingTotalEntriesPerTable)
  if directory = null then none
  else
    let (machine, _) ← machine.newTables directory flags 1024
    let (chunk, machine) := machine.kzalloc (.chunk directory) 4
    if chunk = null then none
    else some (chunk, { machine with memory := machine.memory.store32 chunk directory })

/-- The loop of `paging_free_chunk`: the first `i` tables. -/
def Machine.freeTables (chunk : Word) : ℕ → Machine → Machine
  | 0, machine => machine
  | i + 1, machine =>
      let machine := machine.freeTables chunk i
      let entry := machine.memory.load32 (machine.memory.load32 chunk + BitVec.ofNat 32 (4 * i))
      let table := entry &&& 0xfffff000
      machine.kfree table

@[irreducible] def Machine.pagingFreeChunk (machine : Machine) (chunk : Word) : Machine :=
  let machine := machine.freeTables chunk 1024
  let machine := machine.kfree (machine.memory.load32 chunk)
  machine.kfree chunk

end Phix
