import Phix.Loader.Elf
import Phix.Memory.PagingSystem

/-! # The kernel's state

The records of `task/process.h` and `task/task.h`, kept by the address of the allocation
that holds them, and the globals of `task/process.c` and `task/task.c`, together with
the machine they live on. The file system is an environment: `FileAnswers` is what it
answers to the calls of one load, with the heap calls it makes meanwhile.
-/

namespace Phix

/-! The configuration of `config.h` for tasks. -/

/-- Where a program is mapped. -/
def phixProgramVirtualAddress : Word := 0x400000

/-- The top of a program's stack. -/
def phixProgramVirtualStackAddressStart : Word := 0x3FF000

/-- The size of a program's stack. -/
def phixUserProgramStackSize : Word := 16 * 1024

/-- The lowest address of a program's stack. -/
def phixProgramVirtualStackAddressEnd : Word :=
  phixProgramVirtualStackAddressStart - phixUserProgramStackSize

/-- The number of slots for a program's heap allocations. -/
def phixMaxProgramAllocations : ℕ := 1024

/-- The number of slots for processes. -/
def phixMaxProcesses : ℕ := 12

/-- The selector of a program's data. -/
def userDataSegment : Word := 0x23

/-- The selector of a program's code. -/
def userCodeSegment : Word := 0x1B

/-! The values of `filetype`. -/

def processFiletypeElf : Byte := 0
def processFiletypeBinary : Byte := 1

/-! Sizes of the structures of the 32-bit target. -/

def sizeofElfFile : Word := 132
def sizeofProcess : Word := 9364
def sizeofTask : Word := 64

/-- `struct process_allocation`. -/
structure ProcessAllocation where
  size : Word
  p : Word

/-- `struct bss`. -/
structure Bss where
  p : Word
  size : Word

/-- `struct process`. The union of `p` and `elf_file` is one word, `p`. -/
structure Process where
  id : BitVec 16
  task : Word
  allocations : ℕ → ProcessAllocation
  filetype : Byte
  p : Word
  size : Word
  bss : Bss
  stack : Word

/-- `process_init`: a cleared process. -/
def Process.zero : Process where
  id := 0
  task := null
  allocations := fun _ => ⟨0, null⟩
  filetype := 0
  p := null
  size := 0
  bss := ⟨null, 0⟩
  stack := null

/-- `struct registers`, in its order. -/
structure Registers where
  edi : Word
  esi : Word
  ebp : Word
  ebx : Word
  edx : Word
  ecx : Word
  eax : Word
  ip : Word
  cs : Word
  flags : Word
  esp : Word
  ss : Word

/-- Cleared registers. -/
def Registers.zero : Registers := ⟨0, 0, 0, 0, 0, 0, 0, 0, 0, 0, 0, 0⟩

/-- `struct task`. -/
structure Task where
  pageDirectory : Word
  registers : Registers
  process : Word
  next : Word
  prev : Word

/-- A cleared task. -/
def Task.zero : Task := ⟨null, Registers.zero, null, null, null⟩

/-- The machine, the records on its heap and the globals that lead to them. -/
structure Kernel where
  machine : Machine
  processAt : Word → Process
  taskAt : Word → Task
  elfFileAt : Word → ElfFile
  processes : ℕ → Word
  currentProcess : Word
  currentTask : Word
  taskHead : Word
  taskTail : Word

/-- The kernel after `kheap_init`: no process and no task. -/
def Kernel.booted (memory : ByteMemory) : Kernel where
  machine := Machine.booted memory
  processAt := fun _ => Process.zero
  taskAt := fun _ => Task.zero
  elfFileAt := fun _ => ElfFile.zero
  processes := fun _ => null
  currentProcess := null
  currentTask := null
  taskHead := null
  taskTail := null

namespace Kernel

/-- Stores a process. -/
def setProcess (kernel : Kernel) (q : Word) (process : Process) : Kernel :=
  { kernel with processAt := Function.update kernel.processAt q process }

/-- Stores a task. -/
def setTask (kernel : Kernel) (t : Word) (task : Task) : Kernel :=
  { kernel with taskAt := Function.update kernel.taskAt t task }

/-- Stores the record of an ELF file. -/
def setElfFile (kernel : Kernel) (p : Word) (file : ElfFile) : Kernel :=
  { kernel with elfFileAt := Function.update kernel.elfFileAt p file }

/-- `kzalloc` for an owner. -/
def kzalloc (kernel : Kernel) (owner : Owner) (size : Word) : Word × Kernel :=
  let (p, machine) := kernel.machine.kzalloc owner size
  (p, { kernel with machine })

/-- `kfree` of a record of the kernel. -/
def kfree (kernel : Kernel) (p : Word) : Kernel :=
  { kernel with machine := kernel.machine.kfree p }

end Kernel

/-! The environment. -/

/-- A heap call of the kernel's own code. -/
inductive KernelCall where
  | kzalloc (size : Word)
  | kfree (p : Word)

/-- The kernel's own code frees only what it has allocated. -/
def Machine.kernelCall (machine : Machine) : KernelCall → Machine
  | .kzalloc size => (machine.kzalloc .kernel size).2
  | .kfree p =>
      match machine.live p with
      | some ⟨_, .kernel⟩ => machine.kfree p
      | _ => machine

/-- Heap calls one after the other. -/
def Machine.kernelCalls (machine : Machine) : List KernelCall → Machine
  | [] => machine
  | call :: calls => (machine.kernelCall call).kernelCalls calls

/-- The heap calls touch the machine only. -/
def Kernel.kernelCalls (kernel : Kernel) (calls : List KernelCall) : Kernel :=
  { kernel with machine := kernel.machine.kernelCalls calls }

/-- The answers of the file system to `fopen`, `fstat` and one `fread` of the whole file, the
bytes the read stores, and the heap calls made by `fopen`, `fread` and `fclose`. A status
is what `fs/file.c` documents: a failure is negative, `fstat` succeeds with 0 and `fread` with
the one item read. -/
structure FileAnswers where
  fopen : Int
  fstat : Int
  fstatDocumented : fstat ≤ 0
  filesize : Word
  fread : Int
  freadDocumented : fread = 1 ∨ fread < 0
  content : ℕ → Byte
  delivered : ℕ
  deliveredFits : delivered ≤ filesize.toNat
  openCalls : List KernelCall
  readCalls : List KernelCall
  closeCalls : List KernelCall

/-- `fread` into the buffer at `p`: the file system's heap calls, and the bytes it stores. -/
def Kernel.fread (kernel : Kernel) (file : FileAnswers) (p : Word) : Int × Kernel :=
  let machine := kernel.machine.kernelCalls file.readCalls
  (file.fread,
    { kernel with
      machine := { machine with memory := machine.memory.write p file.content file.delivered } })

end Phix
