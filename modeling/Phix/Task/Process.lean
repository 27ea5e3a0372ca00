import Phix.Task.Kernel

/-! # Tasks and processes

The functions of `task/task.c`, `loader/formats/elfloader.c` and `task/process.c` that load a
program, map it and serve its allocations. A function that may end in a kernel panic returns
an option. `process` in the owner of an allocation names the process it is made for.
-/

namespace Phix

namespace Kernel

/-! `task/task.c` -/

/-- `task_init`; its status is always 0, because `paging_new_chunk` never returns null. -/
def taskInit (kernel : Kernel) (task process : Word) : Option (Int × Kernel) := do
  let kernel := kernel.setTask task Task.zero
  let (pageDirectory, machine) ←
    kernel.machine.pagingNewChunk (pagingIsPresent ||| pagingAccessFromAll)
  let kernel := { kernel with machine }
  if pageDirectory = null then some (- EIO, kernel)
  else
    let owner := kernel.processAt process
    let ip := if owner.filetype = processFiletypeElf then
        eEntry kernel.machine.memory (elfHeader (kernel.elfFileAt owner.p))
      else phixProgramVirtualAddress
    let registers := { Registers.zero with
      ip, cs := userCodeSegment, esp := phixProgramVirtualStackAddressStart, ss := userDataSegment }
    some (0, kernel.setTask task { Task.zero with pageDirectory, registers, process })

/-- `task_new`: the task, or a negative status as a pointer. -/
def taskNew (kernel : Kernel) (process : Word) : Option (Word × Kernel) := do
  let (task, kernel) := kernel.kzalloc .task sizeofTask
  if task = null then some (BitVec.ofInt 32 (-ENOMEM), kernel)
  else
    let (ret, kernel) ← kernel.taskInit task process
    if ret < 0 then some (BitVec.ofInt 32 ret, kernel)
    else if kernel.taskHead = null then
      some (task, { kernel with taskHead := task, taskTail := task, currentTask := task })
    else
      let tail := kernel.taskTail
      let kernel := kernel.setTask tail { kernel.taskAt tail with next := task }
      let kernel := kernel.setTask task { kernel.taskAt task with prev := tail }
      some (task, { kernel with taskTail := task })

def taskGetNext (kernel : Kernel) : Word :=
  if (kernel.taskAt kernel.currentTask).next = null then kernel.taskHead
  else (kernel.taskAt kernel.currentTask).next

def taskListRemove (kernel : Kernel) (task : Word) : Kernel :=
  let prev := (kernel.taskAt task).prev
  let kernel := if prev = null then kernel
    else kernel.setTask prev { kernel.taskAt prev with next := (kernel.taskAt task).next }
  let kernel := if task = kernel.taskHead then { kernel with taskHead := (kernel.taskAt task).next }
    else kernel
  let kernel := if task = kernel.taskTail then { kernel with taskTail := (kernel.taskAt task).prev }
    else kernel
  if task = kernel.currentTask then { kernel with currentTask := kernel.taskGetNext } else kernel

def taskFree (kernel : Kernel) (task : Word) : Kernel :=
  if task = null then kernel
  else
    let kernel := { kernel with
      machine := kernel.machine.pagingFreeChunk (kernel.taskAt task).pageDirectory }
    (kernel.taskListRemove task).kfree task

/-- `task_switch`; the page directory it loads into the processor is no part of the state. -/
def taskSwitch (kernel : Kernel) (task : Word) : Int × Kernel :=
  (0, { kernel with currentTask := task })

/-! `loader/formats/elfloader.c` -/

/-- The end of `elf_load`: on any nonzero status the image and its record are freed. -/
def elfLoadOut (kernel : Kernel) (elfFile : Word) (ret : Int) (file : Option Word) :
    Int × Option Word × Kernel :=
  if ret ≠ 0 then
    (ret, file, (kernel.kfree (kernel.elfFileAt elfFile).elfMemory).kfree elfFile)
  else (ret, file, kernel)

/-- `elf_load`: the status, and the file it stores through its argument, if it does. -/
def elfLoad (kernel : Kernel) (process : Word) (answers : FileAnswers) :
    Int × Option Word × Kernel :=
  let (elfFile, kernel) := kernel.kzalloc .elfFile sizeofElfFile
  if elfFile = null then (-ENOMEM, none, kernel)
  else
    let kernel := kernel.setElfFile elfFile ElfFile.zero
    let kernel := kernel.kernelCalls answers.openCalls
    if answers.fopen < 0 then kernel.elfLoadOut elfFile answers.fopen none
    else if answers.fstat < 0 then kernel.elfLoadOut elfFile answers.fstat none
    else
      let (elfMemory, kernel) := kernel.kzalloc (.image process) answers.filesize
      let kernel := kernel.setElfFile elfFile { ElfFile.zero with elfMemory }
      -- The status is still that of `fstat`.
      if elfMemory = null then kernel.elfLoadOut elfFile answers.fstat none
      else
        let (ret, kernel) := kernel.fread answers elfMemory
        if ret < 0 then kernel.elfLoadOut elfFile ret none
        else
          let (ret, file) := elfProcessLoaded kernel.machine.memory (kernel.elfFileAt elfFile)
          let kernel := kernel.setElfFile elfFile file
          if ret < 0 then kernel.elfLoadOut elfFile ret none
          else kernel.elfLoadOut elfFile ret (some elfFile)

/-! `task/process.c` -/

def processGet (kernel : Kernel) (pid : Int) : Word :=
  if pid < 0 ∨ (phixMaxProcesses : Int) ≤ pid then BitVec.ofInt 32 (-EINVAL)
  else kernel.processes pid.toNat

/-- `process_load_elf`. `stale` is what the uninitialised local `elf_file` holds when `elf_load`
returns without storing through its argument. -/
def processLoadElf (kernel : Kernel) (process : Word) (answers : FileAnswers) (stale : Word) :
    Int × Kernel :=
  let (ret, file, kernel) := kernel.elfLoad process answers
  if ret < 0 then (ret, kernel)
  else (0, kernel.setProcess process
    { kernel.processAt process with filetype := processFiletypeElf, p := file.getD stale })

/-- The end of `process_load_binary`. -/
def processLoadBinaryOut (kernel : Kernel) (answers : FileAnswers) (programData : Word)
    (ret : Int) :
    Int × Kernel :=
  let kernel := if ret < 0 then kernel.kfree programData else kernel
  (ret, kernel.kernelCalls answers.closeCalls)

def processLoadBinary (kernel : Kernel) (process : Word) (answers : FileAnswers) : Int × Kernel :=
  let kernel := kernel.kernelCalls answers.openCalls
  if answers.fopen < 0 then (answers.fopen, kernel)
  else if answers.fstat < 0 then kernel.processLoadBinaryOut answers null answers.fstat
  else
    let (programData, kernel) := kernel.kzalloc (.image process) answers.filesize
    if programData = null then kernel.processLoadBinaryOut answers null (-ENOMEM)
    else
      let (ret, kernel) := kernel.fread answers programData
      if ret ≠ 1 then kernel.processLoadBinaryOut answers programData ret
      else
        let kernel := kernel.setProcess process { kernel.processAt process with
          filetype := processFiletypeBinary, p := programData, size := answers.filesize }
        kernel.processLoadBinaryOut answers programData ret

end Kernel

/-- What the environment supplies to one load: the answers of the file system to `elf_load`
and, if it is called, to `process_load_binary`. -/
structure LoadAnswers where
  elf : FileAnswers
  binary : FileAnswers
  stale : Word

namespace Kernel

def processLoadData (kernel : Kernel) (process : Word) (answers : LoadAnswers) : Int × Kernel :=
  let (ret, kernel) := kernel.processLoadElf process answers.elf answers.stale
  if ret = -EBADFORMAT then kernel.processLoadBinary process answers.binary else (ret, kernel)

/-- The flags `process_map_elf` gives a program header. -/
def phdrFlags (phdr : Elf32Phdr) : Byte :=
  let flags := pagingIsPresent ||| pagingAccessFromAll
  if phdr.pFlags &&& pfW ≠ 0 then flags ||| pagingIsWritable else flags

/-- The chunk of the process's task. -/
def chunkOf (kernel : Kernel) (process : Word) : Word :=
  (kernel.taskAt (kernel.processAt process).task).pageDirectory

/-- The directory of the process's task. -/
def directoryOf (kernel : Kernel) (process : Word) : Word :=
  kernel.machine.memory.load32 (kernel.chunkOf process)

/-- `paging_map_to` through the chunk of the process's task. -/
def mapTo (kernel : Kernel) (process vaddr paddr pend : Word) (flags : Byte) : Int × Kernel :=
  let (ret, memory) :=
    pagingMapTo kernel.machine.memory (kernel.chunkOf process) vaddr paddr pend flags
  (ret, { kernel with machine := { kernel.machine with memory } })

/-- The body of the loop of `process_map_elf`, for the header with index `i`. -/
def mapPhdr (kernel : Kernel) (process elfFile header : Word) (i : ℕ) : Int × Kernel :=
  let memory := kernel.machine.memory
  let phdr := elf32PhdrAt memory (elfProgramHeader memory header i)
  let phdrPaddr := elfPhdrPaddr (kernel.elfFileAt elfFile) phdr
  let flags := phdrFlags phdr
  if phdr.pFilesz = 0 then
    let (p, kernel) := kernel.kzalloc (.bss process) (pageAlign phdr.pMemsz)
    let record := kernel.processAt process
    if p = null then
      (-ENOMEM, kernel.setProcess process { record with bss := { record.bss with p } })
    else
      let kernel := kernel.setProcess process { record with bss := ⟨p, phdr.pMemsz⟩ }
      kernel.mapTo process (pageAlignLower phdr.pVaddr) (pageAlignLower p)
        (pageAlign (p + phdr.pMemsz)) flags
  else
    kernel.mapTo process (pageAlignLower phdr.pVaddr) (pageAlignLower phdrPaddr)
      (pageAlign (phdrPaddr + phdr.pMemsz)) flags

/-- The loop of `process_map_elf` from the header with index `i` on. The number of headers is
read back from memory in every round; it is a 16-bit field, which bounds the rounds. -/
def processMapElf.loop (process elfFile header : Word) : ℕ → ℕ → Kernel → Int × Kernel
  | 0, _, kernel => (0, kernel)
  | rounds + 1, i, kernel =>
      if i < (ePhnum kernel.machine.memory header).toNat then
        let (ret, kernel) := kernel.mapPhdr process elfFile header i
        if ret < 0 then (ret, kernel) else loop process elfFile header rounds (i + 1) kernel
      else (0, kernel)

@[irreducible] def processMapElf (kernel : Kernel) (process : Word) : Int × Kernel :=
  let elfFile := (kernel.processAt process).p
  let header := elfHeader (kernel.elfFileAt elfFile)
  processMapElf.loop process elfFile header (2 ^ 16) 0 kernel

def userFlags : Byte := pagingIsPresent ||| pagingIsWritable ||| pagingAccessFromAll

def processMapBinary (kernel : Kernel) (process : Word) : Int × Kernel :=
  let record := kernel.processAt process
  kernel.mapTo process phixProgramVirtualAddress record.p (pageAlign (record.p + record.size))
    userFlags

/-- `process_map_memory`; a file type that is neither is a panic. -/
def processMapMemory (kernel : Kernel) (process : Word) : Option (Int × Kernel) := do
  let filetype := (kernel.processAt process).filetype
  let (ret, kernel) ←
    if filetype = processFiletypeElf then some (kernel.processMapElf process)
    else if filetype = processFiletypeBinary then some (kernel.processMapBinary process)
    else none
  if ret < 0 then some (ret, kernel)
  else
    let stack := (kernel.processAt process).stack
    some (kernel.mapTo process phixProgramVirtualStackAddressEnd stack
      (pageAlign (stack + phixUserProgramStackSize)) userFlags)

/-- The end of `process_load_for_slot`. -/
def processLoadOut (kernel : Kernel) (programSp task : Word) (ret : Int) (process : Option Word) :
    Int × Option Word × Kernel :=
  if ret < 0 then (ret, process, (kernel.kfree programSp).taskFree task) else (ret, process, kernel)

/-- `process_load_for_slot`: the status, and the process it stores through its argument. -/
def processLoadForSlot (kernel : Kernel) (answers : LoadAnswers) (processSlot : ℕ) :
    Option (Int × Option Word × Kernel) := do
  let existing := kernel.processGet processSlot
  if existing.toInt < 0 then some (existing.toInt, none, kernel)
  else if existing ≠ null then some (-EISTKN, none, kernel)
  else
    let (process, kernel) := kernel.kzalloc .process sizeofProcess
    if process = null then some (-ENOMEM, none, kernel)
    else
      let kernel := kernel.setProcess process Process.zero
      let (ret, kernel) := kernel.processLoadData process answers
      if ret < 0 then some (kernel.processLoadOut null null ret none)
      else
        let (programSp, kernel) := kernel.kzalloc (.stack process) phixUserProgramStackSize
        if programSp = null then some (kernel.processLoadOut null null (-ENOMEM) none)
        else
          let kernel := kernel.setProcess process { kernel.processAt process with
            stack := programSp, id := BitVec.ofNat 16 processSlot }
          let (task, kernel) ← kernel.taskNew process
          if task.toInt < 0 then some (kernel.processLoadOut programSp task task.toInt none)
          else
            let kernel := kernel.setProcess process { kernel.processAt process with task }
            let (ret, kernel) ← kernel.processMapMemory process
            if ret < 0 then some (kernel.processLoadOut programSp task ret none)
            else
              let kernel :=
                { kernel with processes := Function.update kernel.processes processSlot process }
              some (kernel.processLoadOut programSp task ret (some process))

/-- The first free slot of the process table, from slot `i` on. -/
def processGetFreeSlot.loop (kernel : Kernel) : ℕ → ℕ → Int
  | 0, _ => -EISTKN
  | remaining + 1, i => if kernel.processes i = null then i else loop kernel remaining (i + 1)

@[irreducible] def processGetFreeSlot (kernel : Kernel) : Int :=
    processGetFreeSlot.loop kernel phixMaxProcesses 0

def processLoad (kernel : Kernel) (answers : LoadAnswers) : Option (Int × Option Word × Kernel) :=
  let processSlot := kernel.processGetFreeSlot
  if processSlot < 0 then some (-ENOMEM, none, kernel)
  else kernel.processLoadForSlot answers processSlot.toNat

def processSwitch (kernel : Kernel) (process : Word) : Int × Kernel :=
  (0, { kernel with currentProcess := process })

/-- `process_load_switch`; a load that succeeds has stored a process. -/
def processLoadSwitch (kernel : Kernel) (answers : LoadAnswers) :
    Option (Int × Option Word × Kernel) := do
  let (ret, process, kernel) ← kernel.processLoad answers
  if ret < 0 then some (ret, process, kernel)
  else
    let (_, kernel) := kernel.processSwitch (process.getD null)
    some (0, process, kernel)

/-- The first slot of the allocation table that holds `p`, from slot `i` on. -/
def findAllocation (process : Process) (p : Word) : ℕ → ℕ → Option ℕ
  | 0, _ => none
  | remaining + 1, i =>
      if (process.allocations i).p = p then some i else findAllocation process p remaining (i + 1)

/-- `process_find_free_allocatation_index`. -/
@[irreducible] def processFindFreeAllocatationIndex (process : Process) : Int :=
  match findAllocation process null phixMaxProgramAllocations 0 with
  | some i => i
  | none => -ENOMEM

@[irreducible] def processMalloc (kernel : Kernel) (process size : Word) : Word × Kernel :=
  let (p, kernel) := kernel.kzalloc (.user process) size
  if p = null then (null, kernel)
  else
    let index := processFindFreeAllocatationIndex (kernel.processAt process)
    if index < 0 then (null, kernel.kfree p)
    else
      let (ret, kernel) := kernel.mapTo process p p (pageAlign (p + size)) userFlags
      if ret < 0 then (null, kernel.kfree p)
      else
        let record := kernel.processAt process
        (p, kernel.setProcess process { record with
          allocations := Function.update record.allocations index.toNat ⟨size, p⟩ })

@[irreducible] def processFree (kernel : Kernel) (process p : Word) : Kernel :=
  match findAllocation (kernel.processAt process) p phixMaxProgramAllocations 0 with
  | none => kernel
  | some i =>
      let size := ((kernel.processAt process).allocations i).size
      let (_, kernel) := kernel.mapTo process p 0 (pageAlign (p + size)) 0
      let record := kernel.processAt process
      let kernel := kernel.setProcess process { record with
        allocations := Function.update record.allocations i ⟨0, null⟩ }
      kernel.kfree p

end Kernel

end Phix
