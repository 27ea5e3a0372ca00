import Phix.Fs.File
import Phix.Task.Failure

/-! # Programs loaded from the file system

The functions of `task/process.c` and `loader/formats/elfloader.c` that load a program, once more,
with the file system itself in place of its answers: the kernel and the file system are on one
machine (`Phix.LoadSystem`).
-/

namespace Phix

open Traces

/-- The kernel and the file system, which is on the machine of the kernel. -/
structure LoadSystem where
  kernel : Kernel
  files : FileSystem

/-- One call of `process_load`. `stale` is what the uninitialised local `elf_file` of
`process_load_elf` holds. -/
structure LoadCall where
  filename : List Byte
  stale : Word

/-- The items of a read, one after another from `p` on. -/
def storeItems (memory : ByteMemory) (p size : Word) : List (List Byte) → ByteMemory
  | [] => memory
  | item :: items =>
      storeItems (memory.write p (fun k => item.getD k 0) item.length) (p + size) size items

/-- `process_load_for_slot` once the program is loaded, up to its label `out`. -/
def Kernel.processLoadRest (kernel : Kernel) (processSlot : ℕ) (process : Word) :
    Option Kernel.LoadLabel := do
  let (programSp, kernel) := kernel.kzalloc (.stack process) phixUserProgramStackSize
  if programSp = null then some ⟨kernel, null, null, -ENOMEM, none⟩
  else
    let kernel := kernel.setProcess process { kernel.processAt process with
      stack := programSp, id := BitVec.ofNat 16 processSlot }
    let (task, kernel) ← kernel.taskNew process
    if task.toInt < 0 then some ⟨kernel, programSp, task, task.toInt, none⟩
    else
      let kernel := kernel.setProcess process { kernel.processAt process with task }
      let (ret, kernel) ← kernel.processMapMemory process
      if ret < 0 then some ⟨kernel, programSp, task, ret, none⟩
      else
        let kernel :=
          { kernel with processes := Function.update kernel.processes processSlot process }
        some ⟨kernel, programSp, task, ret, some process⟩

namespace LoadSystem

/-! `fs/file.c` -/

/-- The file system on the machine of the kernel. -/
def fs (system : LoadSystem) : FileSystem := { system.files with machine := system.kernel.machine }

def withFs (system : LoadSystem) (fs : FileSystem) : LoadSystem :=
  ⟨{ system.kernel with machine := fs.machine }, fs⟩

def withKernel (system : LoadSystem) (kernel : Kernel) : LoadSystem := { system with kernel }

def fopen (system : LoadSystem) (filename : List Byte) : Option (Int × LoadSystem) := do
  let (fd, fs) ← system.fs.fopen filename [0x72]
  some (fd, system.withFs fs)

def fread (system : LoadSystem) (p size n : Word) (fd : Int) : Int × LoadSystem :=
  let (ret, items, fs) := system.fs.fread size n fd
  let system := system.withFs fs
  let memory := storeItems system.kernel.machine.memory p size items
  (ret, system.withKernel
    { system.kernel with machine := { system.kernel.machine with memory } })

def fclose (system : LoadSystem) (fd : Int) : Option (Int × LoadSystem) := do
  let (ret, fs) ← system.fs.fclose fd
  some (ret, system.withFs fs)

/-! `loader/formats/elfloader.c` -/

def elfLoadOut (system : LoadSystem) (elfFile : Word) (ret : Int) (file : Option Word) :
    Int × Option Word × LoadSystem :=
  let (ret, file, kernel) := system.kernel.elfLoadOut elfFile ret file
  (ret, file, system.withKernel kernel)

/-- `elf_load` once the file is opened. -/
def elfLoadOpened (system : LoadSystem) (process elfFile : Word) (fd : Int) :
    Int × Option Word × LoadSystem :=
  let (ret, stat) := system.fs.fstat fd
  if ret < 0 then system.elfLoadOut elfFile ret none
  else
    let filesize := (stat.map FileStat.filesize).getD 0
    let (elfMemory, kernel) := system.kernel.kzalloc (.image process) filesize
    let system := system.withKernel
      (kernel.setElfFile elfFile { ElfFile.zero with elfMemory })
    -- The status is still that of `fstat`.
    if elfMemory = null then system.elfLoadOut elfFile ret none
    else
      let (ret, system) := system.fread elfMemory filesize 1 fd
      if ret < 0 then system.elfLoadOut elfFile ret none
      else
        let (ret, file) :=
          elfProcessLoaded system.kernel.machine.memory (system.kernel.elfFileAt elfFile)
        let system := system.withKernel (system.kernel.setElfFile elfFile file)
        if ret < 0 then system.elfLoadOut elfFile ret none
        else system.elfLoadOut elfFile ret (some elfFile)

/-- `elf_load`. -/
def elfLoad (system : LoadSystem) (process : Word) (filename : List Byte) :
    Option (Int × Option Word × LoadSystem) :=
  let (elfFile, kernel) := system.kernel.kzalloc .elfFile sizeofElfFile
  if elfFile = null then some (-ENOMEM, none, system.withKernel kernel)
  else do
    let system := system.withKernel (kernel.setElfFile elfFile ElfFile.zero)
    let (fd, system) ← system.fopen filename
    if fd < 0 then some (system.elfLoadOut elfFile fd none)
    else some (system.elfLoadOpened process elfFile fd)

/-! `task/process.c` -/

def processLoadElf (system : LoadSystem) (process : Word) (call : LoadCall) :
    Option (Int × LoadSystem) := do
  let (ret, file, system) ← system.elfLoad process call.filename
  if ret < 0 then some (ret, system)
  else
    let kernel := system.kernel
    some (0, system.withKernel (kernel.setProcess process
      { kernel.processAt process with filetype := processFiletypeElf, p := file.getD call.stale }))

/-- The end of `process_load_binary`. -/
def processLoadBinaryOut (system : LoadSystem) (fd : Int) (programData : Word) (ret : Int) :
    Option (Int × LoadSystem) := do
  let system := if ret < 0 then system.withKernel (system.kernel.kfree programData) else system
  let (_, system) ← system.fclose fd
  some (ret, system)

def processLoadBinary (system : LoadSystem) (process : Word) (filename : List Byte) :
    Option (Int × LoadSystem) := do
  let (fd, system) ← system.fopen filename
  if fd < 0 then some (fd, system)
  else
    let (ret, stat) := system.fs.fstat fd
    if ret < 0 then system.processLoadBinaryOut fd null ret
    else
      let filesize := (stat.map FileStat.filesize).getD 0
      let (programData, kernel) := system.kernel.kzalloc (.image process) filesize
      let system := system.withKernel kernel
      if programData = null then system.processLoadBinaryOut fd null (-ENOMEM)
      else
        let (ret, system) := system.fread programData filesize 1 fd
        if ret ≠ 1 then system.processLoadBinaryOut fd programData ret
        else
          let kernel := system.kernel
          let system := system.withKernel (kernel.setProcess process
            { kernel.processAt process with
              filetype := processFiletypeBinary, p := programData, size := filesize })
          system.processLoadBinaryOut fd programData ret

def processLoadData (system : LoadSystem) (process : Word) (call : LoadCall) :
    Option (Int × LoadSystem) := do
  let (ret, system) ← system.processLoadElf process call
  if ret = -EBADFORMAT then system.processLoadBinary process call.filename else some (ret, system)

/-- `process_load_for_slot` from `process_init` on. -/
def processLoadLabel (system : LoadSystem) (call : LoadCall) (processSlot : ℕ) (process : Word) :
    Option (Int × Option Word × LoadSystem) := do
  let system := system.withKernel (system.kernel.setProcess process Process.zero)
  let (ret, system) ← system.processLoadData process call
  if ret < 0 then
    let (ret, process, kernel) := Kernel.LoadLabel.out ⟨system.kernel, null, null, ret, none⟩
    some (ret, process, system.withKernel kernel)
  else
    let label ← system.kernel.processLoadRest processSlot process
    let (ret, process, kernel) := label.out
    some (ret, process, system.withKernel kernel)

def processLoadForSlot (system : LoadSystem) (call : LoadCall) (processSlot : ℕ) :
    Option (Int × Option Word × LoadSystem) :=
  let existing := system.kernel.processGet processSlot
  if existing.toInt < 0 then some (existing.toInt, none, system)
  else if existing ≠ null then some (-EISTKN, none, system)
  else
    let (process, kernel) := system.kernel.kzalloc .process sizeofProcess
    if process = null then some (-ENOMEM, none, system.withKernel kernel)
    else (system.withKernel kernel).processLoadLabel call processSlot process

def processLoad (system : LoadSystem) (call : LoadCall) :
    Option (Int × Option Word × LoadSystem) :=
  let processSlot := system.kernel.processGetFreeSlot
  if processSlot < 0 then some (-ENOMEM, none, system)
  else system.processLoadForSlot call processSlot.toNat

/-- A load; one that does not return leaves the state as it is. -/
def step (system : LoadSystem) (call : LoadCall) : LoadSystem :=
  match system.processLoad call with
  | none => system
  | some (_, _, next) => next

end LoadSystem

end Phix
