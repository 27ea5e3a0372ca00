import Phix.Memory.Refusal
import Phix.Task.Start

/-! # Loads that exhaust the heap

A segment that takes no space in its file gets a buffer from `kzalloc`. When no block is left for
it, the load fails, and what `kzalloc` has cleared instead is the start of memory, and of the block
table with a buffer that is large enough: the blocks of live records are free from then on
(`Phix.Kernel.processLoad_exhausts`), and the next record is one of them
(`Phix.Kernel.processLoad_reuses`).
-/

namespace Phix

/-! What a release leaves free. -/

theorem Machine.freeBlocks_pagingFreeChunk (machine : Machine) (chunk : Word) :
    machine.freeBlocks ⊆ (machine.pagingFreeChunk chunk).freeBlocks := by
  have tables : ∀ i, machine.freeBlocks ⊆ (machine.freeTables chunk i).freeBlocks := by
    intro i
    induction i with
    | zero => exact subset_rfl
    | succ i ih => exact ih.trans (Machine.freeBlocks_kfree _ _)
  unfold Machine.pagingFreeChunk
  exact (tables 1024).trans
    ((Machine.freeBlocks_kfree _ _).trans (Machine.freeBlocks_kfree _ _))

/-- Without a free block every request fails. -/
theorem Machine.heapMalloc_full {machine : Machine} {size : Word} (proper : Proper size)
    (full : machine.freeBlocks = ∅) : (heapMalloc (kernelHeap machine.memory) size).1 = null := by
  have outcome := heapMalloc_outcome (kernelHeap_pool machine.memory) proper.1 proper.2
  generalize heapMalloc (kernelHeap machine.memory) size = result at outcome
  cases outcome with
  | failed => rfl
  | placed s after started free =>
      have count := one_le_blockCount proper.1
      have member : s ∈ machine.freeBlocks :=
        Machine.mem_freeBlocks.mpr ⟨started, free s ⟨le_rfl, Nat.lt_add_of_pos_right count⟩ started⟩
      rw [full] at member
      exact absurd member (Finset.notMem_empty s)

/-- The file has one program header, of a segment that takes no space in it. -/
structure OneBss (file : ByteMemory) (size : Word) (buffer : Word) : Prop
    extends Admissible file size where
  one : ePhnum file 0 = 1
  bss : (elf32PhdrAt file (elfProgramHeader file 0 0)).pFilesz = 0
  buffer : pageAlign (elf32PhdrAt file (elfProgramHeader file 0 0)).pMemsz = buffer

namespace Kernel

/-- The release of a task leaves the process table, and what was free. -/
theorem taskFree_frees (kernel : Kernel) (task : Word) :
    kernel.machine.freeBlocks ⊆ (kernel.taskFree task).machine.freeBlocks ∧
      (kernel.taskFree task).processes = kernel.processes := by
  unfold taskFree
  split
  · exact ⟨subset_rfl, rfl⟩
  · refine ⟨?_, taskListRemove_processes _ task⟩
    change kernel.machine.freeBlocks ⊆
      (Machine.kfree (taskListRemove _ task).machine task).freeBlocks
    rw [taskListRemove_machine]
    exact (Machine.freeBlocks_pagingFreeChunk _ _).trans (Machine.freeBlocks_kfree _ _)

/-- The buffer of the segment is refused when every block is taken. -/
theorem ElfStart.processMapMemory_full {start : Kernel} {process task elfFile size buffer : Word}
    {file : ByteMemory} {directory : PageDirectory}
    (elf : start.ElfStart process task elfFile file size directory)
    (segment : OneBss file size buffer) (proper : Proper buffer)
    (full : start.machine.freeBlocks = ∅) :
    ∃ next, start.processMapMemory process = some (-ENOMEM, next) ∧
      next.processes = start.processes ∧
      ∀ x, next.machine.memory x =
        if x.toNat < buffer.toNat then 0 else start.machine.memory x := by
  have failed : (-ENOMEM : Int) < 0 := by decide
  have shows := elf.holds.shows
  have count : ePhnum start.machine.memory (elfHeader (start.elfFileAt elfFile)) = 1 :=
    (shows.ePhnum segment.complete.header).trans segment.one
  have header : elf32PhdrAt start.machine.memory (elfProgramHeader start.machine.memory
      (elfHeader (start.elfFileAt elfFile)) 0) = elf32PhdrAt file (elfProgramHeader file 0 0) :=
    shows.programHeader segment.complete segment.accepted.hasTable (by rw [segment.one]; decide)
  obtain ⟨isNull, _, cleared⟩ := start.machine.kzalloc_failed (.bss process)
    (Machine.heapMalloc_full proper full)
  have mapped : ∃ next, start.mapPhdr process elfFile (elfHeader (start.elfFileAt elfFile)) 0 =
      (-ENOMEM, next) ∧ next.processes = start.processes ∧
      next.machine = (start.machine.kzalloc (.bss process) buffer).2 := by
    unfold mapPhdr
    dsimp only
    rw [header, if_pos segment.bss, segment.buffer]
    have refused : (start.kzalloc (.bss process) buffer).1 = null := isNull
    rw [if_pos refused]
    exact ⟨_, rfl, rfl, rfl⟩
  obtain ⟨next, mapped, slots, machine⟩ := mapped
  refine ⟨next, ?_, slots, fun x => ?_⟩
  · have loop : start.processMapElf process = (-ENOMEM, next) := by
      unfold processMapElf
      dsimp only
      rw [elf.program, show (2 : ℕ) ^ 16 = 65535 + 1 from rfl, processMapElf.loop_succ,
        if_pos (by rw [count]; decide), mapped,
        if_pos failed]
    unfold processMapMemory
    dsimp only
    rw [if_pos elf.filetype, loop, Option.bind_eq_bind, Option.bind_some]
    exact if_pos failed
  · rw [machine]
    exact cleared x

/-- A load that takes the last free block before it asks for a large buffer: it fails, and the
first blocks of the pool are free, whoever has them. -/
theorem processLoad_exhausts {kernel : Kernel} {size buffer : Word} {content : ℕ → Byte} {k : ℕ}
    (paging : kernel.machine.PagingSound) (free : kernel.machine.FreeFrom k)
    (count : kernel.machine.freeBlocks.card = 25600 - k)
    (room : k + blockCount size + 1042 = 25600)
    (slot : ¬ kernel.processGetFreeSlot < 0)
    (segment : OneBss (FileAnswers.ofFile size content).file size buffer)
    (proper : Proper buffer) :
    ∃ next, kernel.processLoad (.ofFile size content) = some (-ENOMEM, none, next) ∧
      next.processes = kernel.processes ∧
      ∀ i, i < 25600 → 0x7E00 + i < buffer.toNat → i ∈ next.machine.freeBlocks := by
  have three : blockCount sizeofProcess = 3 := by decide
  have failed : (-ENOMEM : Int) < 0 := by decide
  obtain ⟨found, _, recorded, takes, _⟩ := kzalloc_free paging free
    (show ¬ Owner.process.IsPaging from id) (by decide) (by omega)
    (Prod.mk.eta (p := kernel.kzalloc .process sizeofProcess)).symm
  rw [three] at takes
  have found : (kernel.machine.kzalloc .process sizeofProcess).1 ≠ null := found
  obtain ⟨elfFile, programSp, task, start, directory, prepares⟩ := processLoadLabel_prepares
    (kernel.machine.kzalloc .process sizeofProcess).1 kernel.processGetFreeSlot.toNat recorded
    (takes.freeFrom k free (by omega)) (by omega) segment.toAdmissible
  have full : start.machine.freeBlocks = ∅ := by
    have taken := (takes.trans prepares.takes).card
    exact Finset.card_eq_zero.mp (by omega)
  obtain ⟨next, mapped, slots, cleared⟩ :=
    prepares.processMapMemory_full segment proper full
  have loaded := processLoad_eq (.ofFile size content) slot
  rw [if_neg found, prepares.label, mapped, Option.map_some, if_pos failed, Option.map_some]
    at loaded
  have out : LoadLabel.out ⟨next, programSp, task, -ENOMEM, none⟩ =
      (-ENOMEM, none, (next.kfree programSp).taskFree task) := by
    unfold LoadLabel.out processLoadOut
    exact if_pos failed
  rw [out] at loaded
  obtain ⟨frees, same⟩ := (next.kfree programSp).taskFree_frees task
  refine ⟨_, loaded, same.trans (slots.trans prepares.processes), fun i inside below => ?_⟩
  refine frees (Machine.freeBlocks_kfree next.machine programSp ?_)
  rw [Machine.mem_freeBlocks]
  refine ⟨inside, ?_⟩
  have entry : (kernelHeap next.machine.memory).table.entries i = 0 := by
    refine (cleared _).trans (if_pos ?_)
    rw [BitVec.toNat_add, BitVec.toNat_ofNat]
    change (0x7E00 + i % 2 ^ 32) % 2 ^ 32 < _
    omega
  unfold HeapTable.IsFree
  rw [entry]
  decide

/-- The next load, of a file that is not opened, has its record in the first block of the pool. -/
theorem processLoad_reuses {kernel : Kernel} (slot : ¬ kernel.processGetFreeSlot < 0)
    (first : (kernelHeap kernel.machine.memory).table.FreeRun 0 3) {status : Int}
    (failed : status < 0) (other : status ≠ -EBADFORMAT) :
    (kernel.machine.kzalloc .process sizeofProcess).1 = poolBlock 0 ∧
      ∃ ret file next, kernel.processLoad ⟨.refused status, .refused status, null⟩ =
        some (ret, file, next) ∧ ret < 0 := by
  have pointer := Machine.kzalloc_first .process (show Proper sizeofProcess by decide) first
  have found : (kernel.machine.kzalloc .process sizeofProcess).1 ≠ null := by
    rw [pointer]
    exact poolBlock_ne_null (by decide)
  obtain ⟨label, reached, negative, _⟩ := processLoadLabel_refused
    (kernel.kzalloc .process sizeofProcess).2 (kernel.machine.kzalloc .process sizeofProcess).1
    kernel.processGetFreeSlot.toNat failed other
  have loaded := processLoad_eq ⟨.refused status, .refused status, null⟩ slot
  rw [if_neg found, reached, Option.map_some] at loaded
  refine ⟨pointer, label.out.1, label.out.2.1, label.out.2.2, loaded, ?_⟩
  rw [label.out_status]
  exact negative

end Kernel

/-- An ELF file of one segment that takes no space in it, of eight blocks. -/
def bssElf : ℕ → Byte
  | 0 => 0x7f
  | 1 => 0x45
  | 2 => 0x4c
  | 3 => 0x46
  | 28 => 52
  | 44 => 1
  | 52 => 1
  | 62 => 0x40
  | 73 => 0x80
  | _ => 0

theorem bssElf_oneBss : OneBss (FileAnswers.ofFile 84 bssElf).file 84 0x8000 := by
  have headers : programHeaders (FileAnswers.ofFile 84 bssElf).file 0 =
      [elf32PhdrAt (FileAnswers.ofFile 84 bssElf).file 52] := by
    unfold programHeaders
    rw [show (ePhnum (FileAnswers.ofFile 84 bssElf).file 0).toNat = 1 by decide,
      List.range_one, List.map_singleton,
      show elfProgramHeader (FileAnswers.ofFile 84 bssElf).file 0 0 = 52 by decide]
  refine ⟨⟨by decide, ⟨by decide, by decide⟩, by decide, by decide, by decide, by decide, ?_⟩,
    by decide, by decide, by decide⟩
  rw [headers]
  intro phdr member
  rw [List.mem_singleton.mp member]
  decide

end Phix
