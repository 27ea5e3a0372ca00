import Phix.Memory.Exact
import Phix.Task.Copying

/-! # Copying a string leaves no trace

The temporary block of `copy_string_from_task` is taken, mapped, unmapped and given back, and all
that stays is the string at the destination (`Phix.Machine.TaskPages.copyStringFromTask_copied`).
-/

namespace Phix

open Strings ByteMemory

/-- The bytes of a string as the task sees them, none of them in the temporary block. -/
structure Seen (machine : Machine) (directory : PageDirectory) (tmp virtual : Word)
    (place : ℕ → Word) (count : ℕ) : Prop where
  found : ∀ i ≤ count,
    walk directory.base machine.memory (virtual + BitVec.ofNat 32 i) = some (place i)
  page : ∀ i ≤ count, pageNumber (virtual + BitVec.ofNat 32 i) ≠ pageNumber tmp
  frame : ∀ i ≤ count, pageNumber (place i) ≠ pageNumber tmp

/-- The bytes of the destination are none of those that a copy uses. -/
structure SpareBytes (chunk tmp : Word) (directory : PageDirectory) (phys : Word) (count : ℕ) :
    Prop where
  block : ∀ i < count, pageNumber (phys + BitVec.ofNat 32 i) ≠ pageNumber tmp
  chunk : ∀ i < count, pageNumber (phys + BitVec.ofNat 32 i) ≠ pageNumber chunk
  directory : ∀ i < count, pageNumber (phys + BitVec.ofNat 32 i) ∉ directory.frames
  table : ∀ i < count, ∀ j < 25600, phys + BitVec.ofNat 32 i ≠ entryAddress j

theorem SpareBytes.mono {chunk tmp phys : Word} {directory : PageDirectory} {count more : ℕ}
    (spare : SpareBytes chunk tmp directory phys more) (fewer : count ≤ more) :
    SpareBytes chunk tmp directory phys count where
  block i bound := spare.block i (bound.trans_le fewer)
  chunk i bound := spare.chunk i (bound.trans_le fewer)
  directory i bound := spare.directory i (bound.trans_le fewer)
  table i bound := spare.table i (bound.trans_le fewer)

/-- The same of an address in the destination. -/
theorem SpareBytes.of_near {chunk tmp phys x : Word} {directory : PageDirectory} {count : ℕ}
    (spare : SpareBytes chunk tmp directory phys count) (near : (x - phys).toNat < count) :
    pageNumber x ≠ pageNumber tmp ∧ pageNumber x ≠ pageNumber chunk ∧
      pageNumber x ∉ directory.frames ∧ ∀ j < 25600, x ≠ entryAddress j := by
  have place : phys + BitVec.ofNat 32 (x - phys).toNat = x := by
    rw [BitVec.ofNat_toNat, BitVec.setWidth_eq, add_sub_cancel]
  have block := spare.block _ near
  have chunk := spare.chunk _ near
  have directory := spare.directory _ near
  have table := spare.table _ near
  rw [place] at block chunk directory table
  exact ⟨block, chunk, directory, table⟩

theorem ofNat_toNat {i : ℕ} (small : i < 4096) : (BitVec.ofNat 32 i).toNat = i := by
  rw [BitVec.toNat_ofNat]
  omega

/-- Memory while the block is mapped in the task. -/
def lentMemory (next : Machine) (chunk tmp : Word) : ByteMemory :=
  (pagingMap next.memory chunk tmp tmp lendFlags).2

theorem lentMemory_eq {next : Machine} {chunk tmp : Word} {directory : PageDirectory}
    (chunkAt : ChunkAt next.memory chunk directory) (aligned : tmp.toNat % 4096 = 0) :
    lentMemory next chunk tmp =
      next.memory.store32 (directory.slot tmp) (tmp ||| flagWord lendFlags) := by
  unfold lentMemory pagingMap
  rw [if_neg, chunkAt.root, pagingSet_eq chunkAt.wired aligned]
  · rfl
  · rw [(pagingAligned_iff tmp).mpr aligned]
    decide

section Copy

variable {machine next : Machine} {chunk size tmp virtual phys : Word} {directory : PageDirectory}
  {place : ℕ → Word} {count : ℕ} (pages : machine.TaskPages chunk directory)
  (temporary : machine.Temporary next size tmp)

include temporary

theorem page_of_block {i : ℕ} (small : i < 4096) :
    pageNumber (tmp + BitVec.ofNat 32 i) = pageNumber tmp :=
  pageNumber_add_of_aligned temporary.aligned (by rw [ofNat_toNat small]; exact small)

/-- Writing to the block changes its page only. -/
theorem write_block (memory : ByteMemory) (bytes : ℕ → Byte) (fits : count < 4096) {x : Word}
    (outside : pageNumber x ≠ pageNumber tmp) :
    memory.write tmp bytes (count + 1) x = memory x := by
  rw [memory.write_apply tmp bytes (by omega), if_neg]
  intro near
  exact outside ((AddressSpace.offset_lt_iff temporary.aligned x).mp (by omega))

include pages

theorem Machine.TaskPages.nextChunkAt : ChunkAt next.memory chunk directory :=
  (temporary.cleared.grown.hasChunk pages.has pages.sound).1.chunkAt temporary.cleared.sound

/-- The first copy, while the block is mapped in the task. -/
theorem Seen.copies (seen : Seen machine directory tmp virtual place count) (fits : count < 4096) :
    Copies (walk directory.base) (lentMemory next chunk tmp)
      (fun x => pageNumber x = pageNumber tmp) place tmp virtual count where
  reads other agree i bound := by
    have lent := (pages.lent temporary).congr pages temporary agree
    rw [lent.walk_outside pages (seen.page i bound)]
    exact seen.found i bound
  writes other agree i bound := by
    have lent := (pages.lent temporary).congr pages temporary agree
    exact lent.walk_block temporary.aligned (bound.trans_lt fits)
  inside i bound := page_of_block temporary (bound.trans_lt fits)
  apart i bound := seen.frame i bound

/-- Putting the entry of the block's page back undoes the mapping. -/
theorem unlent {memory : ByteMemory}
    (written : ∀ x, pageNumber x ≠ pageNumber tmp → memory x = lentMemory next chunk tmp x)
    {x : Word} (outside : pageNumber x ≠ pageNumber tmp) :
    memory.store32 (directory.slot tmp) (directory.entry next.memory tmp) x = next.memory x := by
  refine store32_load32 fun far => ?_
  rw [written x outside, lentMemory_eq (pages.nextChunkAt temporary) temporary.aligned]
  exact next.memory.store32_apply_of_far _ far

/-- The string in the block, when the entry of its page has been put back. -/
theorem block_apply (memory : ByteMemory) (bytes : ℕ → Byte) (fits : count < 4096) (v : Word)
    {i : ℕ} (bound : i ≤ count) :
    (memory.write tmp bytes (count + 1)).store32 (directory.slot tmp) v
      (tmp + BitVec.ofNat 32 i) = bytes i := by
  have small : i < 4096 := bound.trans_lt fits
  have wired := (pages.nextChunkAt temporary).wired
  have outside : pageNumber (tmp + BitVec.ofNat 32 i) ∉ directory.tableFrames := fun table =>
    (pages.apart temporary).2 _ (.inr table) (page_of_block temporary small)
  have far := PageDirectory.word_far (wired.tableAligned _ (PageDirectory.index_lt tmp))
    (Nat.mod_lt (pageNumber tmp) (by decide : 0 < 1024))
    fun same => outside ⟨_, PageDirectory.index_lt tmp, same.symm⟩
  have offset : (tmp + BitVec.ofNat 32 i - tmp).toNat = i := by
    rw [add_sub_cancel_left, ofNat_toNat small]
  rw [PageDirectory.slot, store32_apply_of_far _ v far, memory.write_apply tmp bytes (by omega),
    offset,
    if_pos (Nat.lt_succ_of_le bound)]

omit pages in
/-- The second copy, from the block. -/
theorem SpareBytes.copies (spare : SpareBytes chunk tmp directory phys (count + 1))
    (fits : count < 4096)
    (memory : ByteMemory) :
    Copies physical memory (fun x => (x - phys).toNat < count + 1)
      (fun i => tmp + BitVec.ofNat 32 i) phys tmp count where
  reads _ _ _ _ := rfl
  writes _ _ _ _ := rfl
  inside i bound := by
    rw [add_sub_cancel_left, ofNat_toNat (bound.trans_lt fits)]
    exact Nat.lt_succ_of_le bound
  apart i bound near :=
    (spare.of_near near).1 (page_of_block temporary (bound.trans_lt fits))

omit pages in
theorem SpareBytes.strncpy_eq (spare : SpareBytes chunk tmp directory phys (count + 1))
    (fits : count < 4096)
    {memory : ByteMemory} {bytes : ℕ → Byte} {n : ℕ} (nonzero : ∀ i < count, bytes i ≠ 0)
    (bound : count ≤ n)
    (held : ∀ i ≤ count, memory (tmp + BitVec.ofNat 32 i) = terminated bytes count i) :
    strncpy physical (n + 1) memory phys tmp =
      some (memory.write phys (terminated bytes count) (count + 1)) := by
  have whole : length (terminated bytes count) n = count := length_terminated nonzero bound
  have again : length (fun i => memory (tmp + BitVec.ofNat 32 i)) n = count := by
    refine (length_congr fun i inside => ?_).trans whole
    exact held i (inside.trans_eq whole)
  have copied := Phix.strncpy_eq (again.symm ▸ spare.copies temporary fits memory)
  rw [copied, again]
  refine congrArg some (write_congr _ _ fun i inside => ?_)
  by_cases before : i < count
  · rw [terminated, if_pos before]
    exact held i before.le
  · rw [terminated, terminated, if_neg before, if_neg before]

end Copy

/-- The string that a copy reads, and how much of it. -/
def lentByte (next : Machine) (chunk tmp : Word) (place : ℕ → Word) (i : ℕ) : Byte :=
  lentMemory next chunk tmp (place i)

/-- Memory after both copies, before the block is given back. -/
def copiedMemory (next : Machine) (chunk tmp phys : Word) (directory : PageDirectory)
    (bytes : ℕ → Byte) (count : ℕ) : ByteMemory :=
  (((lentMemory next chunk tmp).write tmp bytes (count + 1)).store32 (directory.slot tmp)
    (directory.entry next.memory tmp)).write phys bytes (count + 1)

/-- What `copy_string_from_task` computes. -/
theorem Machine.TaskPages.copyStringFromTask_eq {machine next : Machine}
    {chunk tmp virtual phys : Word} {directory : PageDirectory} {place : ℕ → Word} {count : ℕ}
    (pages : machine.TaskPages chunk directory) {max : Int} (positive : 1 ≤ max)
    (small : max < 4096)
    (made : machine.kzalloc .kernel (BitVec.ofInt 32 max) = (tmp, next)) (found : tmp ≠ null)
    (counted : length (lentByte next chunk tmp place) (max.toNat - 1) = count)
    (seen : Seen machine directory tmp virtual place count)
    (spare : SpareBytes chunk tmp directory phys (count + 1)) :
    let memory := copiedMemory next chunk tmp phys directory
      (terminated (lentByte next chunk tmp place) count) count
    machine.copyStringFromTask chunk virtual phys max =
      some (0, { next with memory }.kfree tmp) := by
  intro memory
  have size : (BitVec.ofInt 32 max).toNat = max.toNat - 1 + 1 := by
    rw [BitVec.toNat_ofInt]
    omega
  have block : tmp = (machine.kzalloc .kernel (BitVec.ofInt 32 max)).1 := by rw [made]
  have after : next = (machine.kzalloc .kernel (BitVec.ofInt 32 max)).2 := by rw [made]
  have temporary : machine.Temporary next (BitVec.ofInt 32 max) tmp := by
    rw [block, after]
    exact pages.temporary (by omega) (by omega) (block ▸ found)
  have fits : count < 4096 := by
    have limit := length_le (lentByte next chunk tmp place) (max.toNat - 1)
    omega
  have chunkAt := pages.nextChunkAt temporary
  have lent := pages.lent temporary
  -- The block holds the string.
  have first : strncpy (walk directory.base) (BitVec.ofInt 32 max).toNat
      (lentMemory next chunk tmp) tmp virtual =
        some ((lentMemory next chunk tmp).write tmp
          (terminated (lentByte next chunk tmp place) count) (count + 1)) := by
    subst counted
    rw [size]
    exact strncpy_eq (seen.copies pages temporary fits)
  have written := lent.congr pages temporary fun x outside =>
    write_block temporary (lentMemory next chunk tmp)
      (terminated (lentByte next chunk tmp place) count) fits outside
  -- It is copied from there.
  have second := spare.strncpy_eq temporary fits (n := max.toNat - 1)
    (fun i inside => ne_zero_of_lt (counted ▸ inside)) (counted ▸ length_le _ _)
    fun i bound => block_apply pages temporary (lentMemory next chunk tmp)
      (terminated (lentByte next chunk tmp place) count) fits
        (directory.entry next.memory tmp) bound
  unfold Machine.copyStringFromTask
  dsimp only
  rw [if_neg (by change ¬ (4096 : Int) ≤ max; omega), made]
  dsimp only
  rw [if_neg found, chunkAt.root, pagingGet_eq chunkAt.wired, if_pos temporary.aligned]
  dsimp only
  rw [lent.chunkAt.root]
  change (strncpy _ _ (lentMemory next chunk tmp) _ _).bind _ = _
  rw [first]
  simp only [Option.bind_some]
  rw [written.chunkAt.root, pagingSet_eq written.chunkAt.wired temporary.aligned]
  dsimp only
  rw [if_neg (lt_irrefl 0), size, second]
  rfl

/-- Outside the page of the block, what a copy leaves is the string. -/
theorem copied_apply {machine next : Machine} {chunk size tmp phys : Word}
    {directory : PageDirectory} {count : ℕ} (pages : machine.TaskPages chunk directory)
    (temporary : machine.Temporary next size tmp) (fits : count < 4096) (bytes : ℕ → Byte)
    (spare : SpareBytes chunk tmp directory phys (count + 1)) {x : Word}
    (outside : pageNumber x ≠ pageNumber tmp) :
    (Machine.kfree { next with memory := copiedMemory next chunk tmp phys directory bytes count }
        tmp).memory x =
      if (x - phys).toNat < count + 1 then bytes (x - phys).toNat else machine.memory x := by
  have copied : copiedMemory next chunk tmp phys directory bytes count x =
      if (x - phys).toNat < count + 1 then bytes (x - phys).toNat else next.memory x := by
    unfold copiedMemory
    rw [write_apply _ phys bytes (by omega)]
    congr 1
    exact unlent pages temporary
      (fun y => write_block temporary (lentMemory next chunk tmp) bytes fits) outside
  obtain ⟨s, inside, pointer⟩ := temporary.cleared.pool
  have clears := Machine.kfree_clears
    { next with memory := copiedMemory next chunk tmp phys directory bytes count } inside
  rw [← pointer] at clears
  by_cases entry : IsEntryOf {tmp} x
  · have apart : ¬ (x - phys).toNat < count + 1 := fun near => by
      obtain ⟨j, bound, -, same⟩ := entry
      exact (spare.of_near near).2.2.2 j bound same
    rw [clears.zero x entry, temporary.entry x entry, if_neg apart]
  · rw [← temporary.taken x outside entry, ← copied]
    rcases lt_or_ge x.toNat tableLimit with low | high
    · exact clears.same x low entry
    · exact Machine.kfree_memory _ tmp high

/-- What is not changed outside the temporary block and the destination includes the page directory
of the task and the block table. -/
theorem Machine.TaskPages.untouched {machine next : Machine} {chunk size tmp phys : Word}
    {directory : PageDirectory} {count : ℕ} (pages : machine.TaskPages chunk directory)
    (temporary : machine.Temporary next size tmp)
    (spare : SpareBytes chunk tmp directory phys count)
    {memory : ByteMemory} (same : ∀ x, pageNumber x ≠ pageNumber tmp →
      count ≤ (x - phys).toNat → memory x = machine.memory x) :
    (∀ v, pagingGet memory (memory.load32 chunk) v =
      pagingGet machine.memory (machine.memory.load32 chunk) v) ∧
    (∀ i < 1024, memory.load32 (directory.pointer i) =
      machine.memory.load32 (directory.pointer i)) ∧
    ∀ i < 25600, (kernelHeap memory).table.entries i =
      (kernelHeap machine.memory).table.entries i := by
  obtain ⟨atChunk, frames⟩ := pages.apart temporary
  have chunkAt := pages.has.chunkAt pages.sound
  have cleared := temporary.cleared
  have inFrame : ∀ x, pageNumber x ∈ directory.frames → memory x = machine.memory x :=
    fun x member => same x (frames _ member) (not_lt.mp fun near =>
      (spare.of_near near).2.2.1 member)
  have after : ChunkAt memory chunk directory := by
    refine chunkAt.congr fun x place => ?_
    rcases place with atX | base
    · exact same x (atX ▸ atChunk) (not_lt.mp fun near => (spare.of_near near).2.1 atX)
    · exact inFrame x (.inl base)
  refine ⟨fun v => ?_, fun i inside => ?_, fun i inside => ?_⟩
  · have entry : directory.entry memory v = directory.entry machine.memory v :=
      chunkAt.wired.entry_congr (fun x table => inFrame x (.inr table)) v
    rw [after.root, chunkAt.root, pagingGet_eq after.wired, pagingGet_eq chunkAt.wired, entry]
  · refine load32_congr fun k small => inFrame _ (.inl ?_)
    exact PageDirectory.pageNumber_word chunkAt.wired.aligned inside small
  · have apart := cleared.sound.pageNumber_ne_of_low cleared.held (entryAddress_low inside)
    exact same _ apart (not_lt.mp fun near => (spare.of_near near).2.2.2 i inside rfl)

/-- A string that a copy can read: its bytes are in pages of the task that are present, and neither
in the page of the temporary block nor among the bytes that lending the block writes, its entry of
the block table and the entry of its page. -/
structure Readable (machine : Machine) (directory : PageDirectory) (tmp virtual : Word)
    (place : ℕ → Word) (count : ℕ) : Prop extends Seen machine directory tmp virtual place count
    where
  entry : ∀ i ≤ count, ¬ IsEntryOf {tmp} (place i)
  slot : ∀ i ≤ count, 4 ≤ (place i - directory.slot tmp).toNat

/-- Lending the block does not change the string. -/
theorem Readable.lentByte_eq {machine next : Machine} {chunk size tmp virtual : Word}
    {directory : PageDirectory} {place : ℕ → Word} {count : ℕ}
    (pages : machine.TaskPages chunk directory) (temporary : machine.Temporary next size tmp)
    (readable : Readable machine directory tmp virtual place count) {i : ℕ} (bound : i ≤ count) :
    lentByte next chunk tmp place i = machine.memory (place i) := by
  rw [lentByte, lentMemory_eq (pages.nextChunkAt temporary) temporary.aligned,
    next.memory.store32_apply_of_far _ (readable.slot i bound),
    temporary.taken _ (readable.frame i bound) (readable.entry i bound)]

/-- The place of a byte of the task's memory. -/
def taskPlace (machine : Machine) (chunk virtual : Word) (i : ℕ) : Word :=
  pagingGetPaddr machine.memory (machine.memory.load32 chunk) (virtual + BitVec.ofNat 32 i)

/-- The string at an address of the task. -/
def taskString (machine : Machine) (chunk virtual : Word) (i : ℕ) : Byte :=
  machine.memory (taskPlace machine chunk virtual i)

/-- The string of a task is copied, and nothing else outside the temporary block changes. -/
theorem Machine.TaskPages.copyStringFromTask_string {machine : Machine} {chunk : Word}
    {directory : PageDirectory} (pages : machine.TaskPages chunk directory) {virtual phys : Word}
    {max : Int} (positive : 1 ≤ max) (small : max < 4096) (free : machine.freeBlocks.Nonempty) :
    let tmp := (machine.kzalloc .kernel (BitVec.ofInt 32 max)).1
    let string := taskString machine chunk virtual
    let count := length string (max.toNat - 1)
    Readable machine directory tmp virtual (taskPlace machine chunk virtual) count →
    SpareBytes chunk tmp directory phys max.toNat →
    ∃ last, machine.copyStringFromTask chunk virtual phys max = some (0, last) ∧
      (∀ i < count, last.memory (phys + BitVec.ofNat 32 i) = string i) ∧
      last.memory (phys + BitVec.ofNat 32 count) = 0 ∧
      ∀ x, pageNumber x ≠ pageNumber tmp → count < (x - phys).toNat →
        last.memory x = machine.memory x := by
  intro tmp string count readable spare
  have size : (BitVec.ofInt 32 max).toNat = max.toNat := by
    rw [BitVec.toNat_ofInt]
    omega
  have lower : 1 ≤ (BitVec.ofInt 32 max).toNat := by omega
  have upper : (BitVec.ofInt 32 max).toNat < 4096 := by omega
  obtain ⟨found, -⟩ := pages.sound.kzalloc_block .kernel lower upper.le free
  have temporary := pages.temporary lower upper found
  have limit : count ≤ max.toNat - 1 := length_le string (max.toNat - 1)
  have counted : length (lentByte (machine.kzalloc .kernel (BitVec.ofInt 32 max)).2 chunk tmp
      (taskPlace machine chunk virtual)) (max.toNat - 1) = count :=
    length_congr fun i bound => readable.lentByte_eq pages temporary bound
  have written := spare.mono (show count + 1 ≤ max.toNat by omega)
  have copied := pages.copyStringFromTask_eq positive small Prod.mk.eta.symm found counted
    readable.toSeen written
  refine ⟨_, copied, ?_⟩
  have after {x : Word} (outside : pageNumber x ≠ pageNumber tmp) :=
    copied_apply pages temporary (by omega : count < 4096)
      (terminated (lentByte (machine.kzalloc .kernel (BitVec.ofInt 32 max)).2 chunk tmp
        (taskPlace machine chunk virtual)) count) written outside
  have offset {i : ℕ} (bound : i ≤ count) : (phys + BitVec.ofNat 32 i - phys).toNat = i := by
    rw [add_sub_cancel_left, ofNat_toNat (by omega)]
  have same (x : Word) (outside : pageNumber x ≠ pageNumber tmp)
      (far : count + 1 ≤ (x - phys).toNat) := (after outside).trans (if_neg (not_lt.mpr far))
  refine ⟨fun i inside => ?_, ?_, same⟩
  · rw [after (spare.block i (by omega)), offset inside.le, if_pos (by omega), terminated,
      if_pos inside]
    exact readable.lentByte_eq pages temporary inside.le
  · rw [after (spare.block count (by omega)), offset le_rfl, if_pos (by omega), terminated,
      if_neg (lt_irrefl count)]

/-- **Copying a string from a task leaves no trace.** A `max` of a page or more is refused and
nothing changes. Otherwise, with a block to spare, the string that the task sees, cut at `max - 1`
bytes, and a zero byte are at the destination afterwards; the other bytes outside the temporary
block, the entries of the task's page directory and the block table are what they were. -/
theorem copy_string_from_task_traceless {machine : Machine} {chunk : Word}
    {directory : PageDirectory} (pages : machine.TaskPages chunk directory) (virtual phys : Word)
    (max : Int) :
    (4096 ≤ max → ∃ ret < 0,
      machine.copyStringFromTask chunk virtual phys max = some (ret, machine)) ∧
    (1 ≤ max → max < 4096 → machine.freeBlocks.Nonempty →
      let tmp := (machine.kzalloc .kernel (BitVec.ofInt 32 max)).1
      let string := taskString machine chunk virtual
      let count := length string (max.toNat - 1)
      Readable machine directory tmp virtual (taskPlace machine chunk virtual) count →
      SpareBytes chunk tmp directory phys max.toNat →
      (∀ total, (∀ i < total, string i ≠ 0) → string total = 0 →
        count = min total (max.toNat - 1)) ∧
      ∃ last, machine.copyStringFromTask chunk virtual phys max = some (0, last) ∧
        (∀ i < count, last.memory (phys + BitVec.ofNat 32 i) = string i) ∧
        last.memory (phys + BitVec.ofNat 32 count) = 0 ∧
        (∀ x, pageNumber x ≠ pageNumber tmp → count < (x - phys).toNat →
          last.memory x = machine.memory x) ∧
        (∀ v, pagingGet last.memory (last.memory.load32 chunk) v =
          pagingGet machine.memory (machine.memory.load32 chunk) v) ∧
        (∀ i < 1024, last.memory.load32 (directory.pointer i) =
          machine.memory.load32 (directory.pointer i)) ∧
        ∀ i < 25600, (kernelHeap last.memory).table.entries i =
          (kernelHeap machine.memory).table.entries i) := by
  refine ⟨fun large => ⟨-EINVAL, by decide, ?_⟩, fun positive small free => ?_⟩
  · unfold Machine.copyStringFromTask
    exact if_pos large
  intro tmp string count readable spare
  have size : (BitVec.ofInt 32 max).toNat = max.toNat := by
    rw [BitVec.toNat_ofInt]
    omega
  have lower : 1 ≤ (BitVec.ofInt 32 max).toNat := by omega
  have upper : (BitVec.ofInt 32 max).toNat < 4096 := by omega
  obtain ⟨found, -⟩ := pages.sound.kzalloc_block .kernel lower upper.le free
  have limit : count ≤ max.toNat - 1 := length_le string (max.toNat - 1)
  obtain ⟨last, copied, bytes, terminator, same⟩ :=
    pages.copyStringFromTask_string positive small free readable spare
  exact ⟨fun total nonzero zero => length_eq_min nonzero zero, last, copied, bytes, terminator,
    same,
    pages.untouched (pages.temporary lower upper found)
      (spare.mono (show count + 1 ≤ max.toNat by omega)) same⟩

section Booted

variable {machine next : Machine} {chunk size tmp virtual phys : Word} {directory : PageDirectory}
  (pages : machine.TaskPages chunk directory) (temporary : machine.Temporary next size tmp)

include pages

/-- Through the identity every string is where its address says. -/
theorem Machine.TaskPages.identity_walk
    (identity : directory.space machine.memory = AddressSpace.identity (flagWord 5)) (v : Word) :
    walk directory.base machine.memory v = some v ∧
      pagingGetPaddr machine.memory (machine.memory.load32 chunk) v = v := by
  have wired := (pages.has.chunkAt pages.sound).wired
  have place : (directory.space machine.memory).translate v = v := by
    rw [identity]
    exact AddressSpace.translate_identity (flagWord_lt 5) v
  have flags : (directory.space machine.memory).flags v = flagWord 5 := by
    rw [identity]
    exact AddressSpace.flags_identity (flagWord_lt 5) v
  refine ⟨?_, ?_⟩
  · rw [walk_eq wired pages.present, place, flags, if_neg (by decide)]
  · rw [pages.has.root, pagingGetPaddr_eq wired, place]

/-- Memory below the table limit is no part of the heap. -/
theorem Machine.TaskPages.low {x : Word} (low : x.toNat < tableLimit) :
    pageNumber x ≠ pageNumber chunk ∧ pageNumber x ∉ directory.frames := by
  refine ⟨pages.sound.pageNumber_ne_of_low pages.has.held low, ?_⟩
  rintro (base | ⟨i, inside, table⟩)
  · exact pages.sound.pageNumber_ne_of_low pages.has.base low base
  · exact pages.sound.pageNumber_ne_of_low (pages.has.tables i inside) low table.symm

include temporary

/-- A destination below the block table. -/
theorem Machine.TaskPages.spare {count : ℕ} (below : phys.toNat + count ≤ 0x7E00)
    (bound : count ≤ 4096) : SpareBytes chunk tmp directory phys count := by
  have place {i : ℕ} (inside : i < count) :
      (phys + BitVec.ofNat 32 i).toNat = phys.toNat + i := by
    rw [BitVec.toNat_add, ofNat_toNat (by omega)]
    omega
  have low {i : ℕ} (inside : i < count) :
      (phys + BitVec.ofNat 32 i).toNat < tableLimit := by
    rw [place inside]
    unfold tableLimit
    omega
  have cleared := temporary.cleared
  refine ⟨fun i inside => cleared.sound.pageNumber_ne_of_low cleared.held (low inside),
    fun i inside => (pages.low (low inside)).1, fun i inside => (pages.low (low inside)).2,
    fun i inside j bound same => ?_⟩
  have value := congrArg BitVec.toNat same
  rw [place inside, entryAddress_toNat bound] at value
  omega

omit temporary in
/-- Through the identity, a string in pages apart from that of the block. -/
theorem Machine.TaskPages.seen
    (identity : directory.space machine.memory = AddressSpace.identity (flagWord 5)) {count : ℕ}
    (outside : ∀ i ≤ count, pageNumber (virtual + BitVec.ofNat 32 i) ≠ pageNumber tmp) :
    Seen machine directory tmp virtual (taskPlace machine chunk virtual) count where
  found i bound := by
    have place := pages.identity_walk identity (virtual + BitVec.ofNat 32 i)
    rw [place.1, taskPlace, place.2]
  page := outside
  frame i bound := by
    rw [taskPlace, (pages.identity_walk identity _).2]
    exact outside i bound

/-- Through the identity, a string below the block table. -/
theorem Machine.TaskPages.readable
    (identity : directory.space machine.memory = AddressSpace.identity (flagWord 5)) {count : ℕ}
    (below : ∀ i ≤ count, (virtual + BitVec.ofNat 32 i).toNat < 0x7E00) :
    Readable machine directory tmp virtual (taskPlace machine chunk virtual) count := by
  have cleared := temporary.cleared
  have wired := (pages.has.chunkAt pages.sound).wired
  have low {i : ℕ} (bound : i ≤ count) : (virtual + BitVec.ofNat 32 i).toNat < tableLimit :=
    (below i bound).trans (by decide)
  have place (i : ℕ) : taskPlace machine chunk virtual i = virtual + BitVec.ofNat 32 i :=
    (pages.identity_walk identity _).2
  refine ⟨pages.seen identity fun i bound =>
    cleared.sound.pageNumber_ne_of_low cleared.held (low bound), fun i bound => ?_,
    fun i bound => ?_⟩
  · rintro ⟨j, inside, -, same⟩
    have value := congrArg BitVec.toNat same
    have limit := below i bound
    rw [place, entryAddress_toNat inside] at value
    omega
  · rw [place]
    refine PageDirectory.word_far (wired.tableAligned _ (PageDirectory.index_lt tmp))
      (Nat.mod_lt _ (by decide)) fun same => ?_
    exact (pages.low (low bound)).2 (.inr ⟨_, PageDirectory.index_lt tmp, same.symm⟩)

end Booted

/-- A task after booting, with a page directory that maps everything onto itself. -/
theorem Machine.booted_task (memory : ByteMemory) : ∃ chunk directory machine,
    (Machine.booted memory).pagingNewChunk 5 = some (chunk, machine) ∧
      machine.TaskPages chunk directory ∧ machine.freeBlocks.Nonempty ∧
      directory.space machine.memory = AddressSpace.identity (flagWord 5) ∧
      ∀ x : Word, x.toNat < 0x7E00 → machine.memory x = memory x := by
  have sound := Machine.booted_sound memory
  have clear := (HeapReached.booted memory).clearEntries
  obtain ⟨chunk, machine, made, takes⟩ := sound.pagingNewChunk_some 5 Machine.booted_room
  obtain ⟨directory, pages, space⟩ := sound.pagingNewChunk_pages clear (by decide) made
  obtain ⟨_, -, marks⟩ := sound.pagingNewChunk_marks made
  have free := takes.freeFrom 0 (Machine.booted_freeFrom memory) (by decide)
  refine ⟨chunk, directory, machine, made, pages, ⟨1026, free 1026 le_rfl (by decide)⟩, space,
    fun x below => ?_⟩
  have notEntry {parts : Set Word} : ¬ IsEntryOf parts x := by
    rintro ⟨i, inside, -, rfl⟩
    rw [entryAddress_toNat inside] at below
    omega
  have low : x.toNat < tableLimit := below.trans (by decide)
  rw [marks.low x low notEntry, Machine.booted_memory]
  refine storeTable_apply (if_neg ?_)
  rw [BitVec.toNat_sub, totalTableEntries_toNat]
  change ¬ (2 ^ 32 - 0x7E00 + x.toNat) % 2 ^ 32 < 25600
  omega

/-- The string "A" of a task at `0x1000` is copied to `0x2000`. -/
theorem copy_string_from_task_traceless_booted : ∃ chunk machine last,
    (Machine.booted fun x => if x = 0x1000 then 0x41 else 0).pagingNewChunk 5 =
        some (chunk, machine) ∧
      machine.copyStringFromTask chunk 0x1000 0x2000 1024 = some (0, last) ∧
      last.memory 0x2000 = 0x41 ∧ last.memory 0x2001 = 0 := by
  obtain ⟨chunk, directory, machine, made, pages, free, identity, memory⟩ :=
    Machine.booted_task fun x => if x = 0x1000 then 0x41 else 0
  obtain ⟨found, -⟩ := pages.sound.kzalloc_block .kernel
    (by decide : 1 ≤ (BitVec.ofInt 32 1024).toNat) (by decide) free
  have temporary := pages.temporary (by decide) (by decide) found
  have string (i : ℕ) : taskString machine chunk 0x1000 i =
      machine.memory (0x1000 + BitVec.ofNat 32 i) := by
    rw [taskString, taskPlace, (pages.identity_walk identity _).2]
  have first : taskString machine chunk 0x1000 0 = 0x41 := (string 0).trans (memory _ (by decide))
  have last : taskString machine chunk 0x1000 1 = 0 := (string 1).trans (memory _ (by decide))
  have count : length (taskString machine chunk 0x1000) 1023 = 1 := by
    refine length_eq_min (fun i inside => ?_) last
    obtain rfl : i = 0 := Nat.lt_one_iff.mp inside
    rw [first]
    decide
  have below {i : ℕ} (bound : i ≤ 1) : (0x1000 + BitVec.ofNat 32 i : Word).toNat < 0x7E00 := by
    rw [BitVec.toNat_add, ofNat_toNat (by omega)]
    change (0x1000 + i) % 2 ^ 32 < 0x7E00
    omega
  have readable : Readable machine directory _ 0x1000 (taskPlace machine chunk 0x1000) 1 :=
    pages.readable temporary identity fun i bound => below bound
  obtain ⟨-, last, copied, bytes, zero, -⟩ :=
    (copy_string_from_task_traceless pages 0x1000 0x2000 1024).2 (by decide) (by decide) free
      (count.symm ▸ readable) (pages.spare temporary (by decide) (by decide))
  refine ⟨chunk, machine, last, made, copied, ?_, ?_⟩
  · exact (bytes 0 (count.symm ▸ Nat.one_pos)).trans first
  · have terminator : last.memory (0x2000 + BitVec.ofNat 32
        (length (taskString machine chunk 0x1000) 1023)) = 0 := zero
    rw [count] at terminator
    exact terminator

/-- A copy of at most one byte reads it while the block is lent. -/
theorem Machine.TaskPages.copy_two {machine : Machine} {chunk virtual : Word}
    {directory : PageDirectory} (pages : machine.TaskPages chunk directory)
    (free : machine.freeBlocks.Nonempty)
    (identity : directory.space machine.memory = AddressSpace.identity (flagWord 5))
    (outside : ∀ i ≤ 1, pageNumber (virtual + BitVec.ofNat 32 i) ≠
      pageNumber (machine.kzalloc .kernel 2).1)
    (nonzero : lentMemory (machine.kzalloc .kernel 2).2 chunk (machine.kzalloc .kernel 2).1
      virtual ≠ 0) :
    ∃ last, machine.copyStringFromTask chunk virtual 0x2000 2 = some (0, last) ∧
      last.memory 0x2000 = lentMemory (machine.kzalloc .kernel 2).2 chunk
        (machine.kzalloc .kernel 2).1 virtual := by
  obtain ⟨found, -⟩ := pages.sound.kzalloc_block .kernel (by decide : 1 ≤ (2 : Word).toNat)
    (by decide) free
  have temporary := pages.temporary (by decide) (by decide) found
  have first : lentByte (machine.kzalloc .kernel 2).2 chunk (machine.kzalloc .kernel 2).1
      (taskPlace machine chunk virtual) 0 = lentMemory (machine.kzalloc .kernel 2).2 chunk
        (machine.kzalloc .kernel 2).1 virtual := by
    rw [lentByte, taskPlace, (pages.identity_walk identity _).2, BitVec.add_zero]
  have spare : SpareBytes chunk (machine.kzalloc .kernel 2).1 directory 0x2000 (1 + 1) :=
    pages.spare temporary (by decide) (by decide)
  have counted : length (lentByte (machine.kzalloc .kernel 2).2 chunk
      (machine.kzalloc .kernel 2).1 (taskPlace machine chunk virtual)) 1 = 1 :=
    length_succ_of_ne_zero (first ▸ nonzero)
  have small : (2 : Int) < 4096 := by decide
  have copied := pages.copyStringFromTask_eq (by decide) small Prod.mk.eta.symm found counted
    (pages.seen identity outside) spare
  refine ⟨_, copied, ?_⟩
  have block := spare.block 0 (by decide)
  rw [BitVec.add_zero] at block
  refine (copied_apply pages temporary (by decide) _ spare block).trans ?_
  rw [← first, sub_self]
  rfl

/-- The low byte of an entry holds flags only. -/
theorem entry_low {entry : Word} (aligned : entry.toNat % 4096 = 0) (flags : Byte) :
    (entry ||| flagWord flags).setWidth 8 = flags := by
  have zero : entry.setWidth 8 = 0#8 := by
    apply BitVec.eq_of_toNat_eq
    rw [BitVec.toNat_setWidth]
    change entry.toNat % 256 = 0
    omega
  have same : (flagWord flags).setWidth 8 = flags := by
    rw [flagWord, BitVec.setWidth_setWidth_of_le flags (by decide), BitVec.setWidth_eq]
  rw [BitVec.setWidth_or, zero, same, BitVec.zero_or]

theorem load32_low (memory : ByteMemory) (a : Word) : (memory.load32 a).setWidth 8 = memory a :=
  BitVec.setWidth_append_eq_right

/-- A string of the task is not copied as it was when it lies where lending the block writes: on
the block's entry of the block table, or on the entry of the block's page. -/
theorem copy_string_from_task_traces : ∃ chunk directory machine,
    (Machine.booted fun _ => 0).pagingNewChunk 5 = some (chunk, machine) ∧
      machine.TaskPages chunk directory ∧ machine.freeBlocks.Nonempty ∧
      let tmp := (machine.kzalloc .kernel (BitVec.ofInt 32 2)).1
      SpareBytes chunk tmp directory 0x2000 2 ∧
      (∃ virtual last, IsEntryOf {tmp} virtual ∧
        Seen machine directory tmp virtual (taskPlace machine chunk virtual) 1 ∧
        machine.copyStringFromTask chunk virtual 0x2000 2 = some (0, last) ∧
        taskString machine chunk virtual 0 = 0 ∧ last.memory 0x2000 ≠ 0) ∧
      ∃ virtual last, virtual = directory.slot tmp ∧
        Seen machine directory tmp virtual (taskPlace machine chunk virtual) 1 ∧
        machine.copyStringFromTask chunk virtual 0x2000 2 = some (0, last) ∧
        taskString machine chunk virtual 0 = 5 ∧ last.memory 0x2000 = 7 := by
  obtain ⟨chunk, directory, machine, made, pages, free, identity, -⟩ :=
    Machine.booted_task fun _ => 0
  obtain ⟨found, -⟩ := pages.sound.kzalloc_block .kernel (by decide : 1 ≤ (2 : Word).toNat)
    (by decide) free
  have temporary := pages.temporary (by decide) (by decide) found
  have cleared := temporary.cleared
  have chunkAt := pages.nextChunkAt temporary
  have wired := (pages.has.chunkAt pages.sound).wired
  have string (virtual : Word) : taskString machine chunk virtual 0 = machine.memory virtual := by
    rw [taskString, taskPlace, (pages.identity_walk identity _).2, BitVec.add_zero]
  refine ⟨chunk, directory, machine, made, pages, free,
    pages.spare temporary (by decide) (by decide), ?_, ?_⟩
  · obtain ⟨s, inside, pointer⟩ := cleared.pool
    have entry : IsEntryOf {(machine.kzalloc .kernel 2).1} (entryAddress s) :=
      ⟨s, inside, pointer.symm, rfl⟩
    have outside : ∀ i ≤ 1, pageNumber (entryAddress s + BitVec.ofNat 32 i) ≠
        pageNumber (machine.kzalloc .kernel 2).1 := by
      intro i bound
      refine cleared.sound.pageNumber_ne_of_low cleared.held ?_
      rw [BitVec.toNat_add, entryAddress_toNat inside, ofNat_toNat (by omega)]
      unfold tableLimit
      omega
    have nonzero : lentMemory (machine.kzalloc .kernel 2).2 chunk (machine.kzalloc .kernel 2).1
        (entryAddress s) ≠ 0 := by
      intro zero
      rw [lentMemory_eq chunkAt temporary.aligned, store32_apply_of_far] at zero
      · have free := cleared.sound.not_live_of_free inside (HeapTable.isFree_of_entry zero)
        rw [← pointer, cleared.held] at free
        cases free
      · refine PageDirectory.word_far (wired.tableAligned _ (PageDirectory.index_lt _))
          (Nat.mod_lt _ (by decide)) fun same => ?_
        exact (pages.low (entryAddress_low inside)).2
          (.inr ⟨_, PageDirectory.index_lt _, same.symm⟩)
    obtain ⟨last, copied, byte⟩ := pages.copy_two free identity outside nonzero
    exact ⟨_, last, entry, pages.seen identity outside, copied,
      (string _).trans (temporary.entry _ entry), byte ▸ nonzero⟩
  · have outside : ∀ i ≤ 1, pageNumber (directory.slot (machine.kzalloc .kernel 2).1 +
        BitVec.ofNat 32 i) ≠ pageNumber (machine.kzalloc .kernel 2).1 := by
      intro i bound
      refine (pages.apart temporary).2 _ (.inr (wired.slot_mem _ ?_))
      rw [ofNat_toNat (by omega)]
      omega
    have mapped : directory.entry machine.memory (machine.kzalloc .kernel 2).1 =
        AddressSpace.identity (flagWord 5) (machine.kzalloc .kernel 2).1 := congrFun identity _
    have before : machine.memory (directory.slot (machine.kzalloc .kernel 2).1) = 5 := by
      refine (load32_low _ _).symm.trans ((congrArg (BitVec.setWidth 8) mapped).trans
        (entry_low ?_ 5))
      rw [AddressSpace.high_toNat]
      omega
    have lent : lentMemory (machine.kzalloc .kernel 2).2 chunk (machine.kzalloc .kernel 2).1
        (directory.slot (machine.kzalloc .kernel 2).1) = 7 := by
      rw [lentMemory_eq chunkAt temporary.aligned]
      refine (load32_low _ _).symm.trans ?_
      rw [load32_store32_self]
      exact entry_low temporary.aligned lendFlags
    obtain ⟨last, copied, byte⟩ := pages.copy_two free identity outside (by rw [lent]; decide)
    exact ⟨_, last, rfl, pages.seen identity outside, copied, (string _).trans before,
      byte.trans lent⟩

end Phix
