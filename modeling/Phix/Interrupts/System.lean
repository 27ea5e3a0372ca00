import Phix.Console.Terminal
import Phix.Interrupts.Idt
import Phix.Keyboard.Delivery
import Phix.Task.Confinement
import Phix.Task.Context
import Phix.Task.Exec

/-! # The kernel behind its interrupts

`kernel.c`, the handlers of `idt/idt.c`, the system calls of `isr80h/` and the keyboard driver
`keyboard/ps2.c`, over the tasks, the keyboards and the terminal. A table of functions is a table
of their names.

An interrupt enters the kernel with the frame of the program it interrupts. The kernel loads its
own page directory and segments, and leaves with those of the current task, or through
`task_return` with the program that has been started.
-/

namespace Phix

/-! The configuration of `config.h` for interrupts, and the commands of `isr80h/isr80h.h`. -/

def phixMaxSyscalls : ℕ := 1024
def kernelDataSelector : BitVec 16 := 0x10
def isrKeyboardInterrupt : Int := 0x21

/-- A function of type `SYSCALL`. -/
inductive Syscall where
  | syscall0Sum
  | syscall1Print
  | syscall2Getkey
  | syscall3Putchar
  | syscall4Malloc
  | syscall5Free
  | syscall6ProcessLoadStart
  | syscall7GetPaddr
  | syscall8GetFlags
  deriving DecidableEq

/-- A function of type `INTERRUPT_CB_FUNCTION`. -/
inductive InterruptCb where
  | ps2KeyboardHandleInterrupt
  deriving DecidableEq

/-- The kernel with the globals of `string/string.c`, `kernel.c`, `memory/paging/paging.c` and
`idt/idt.c`; `segments` is the selector in the data segment registers. -/
structure System where
  keyboards : Keyboards
  videoMem : Word
  terminalRow : BitVec 16
  terminalCol : BitVec 16
  kchunk : Word
  currentDirectory : Word
  segments : BitVec 16
  interruptCallbacks : ℕ → Option InterruptCb
  syscalls : ℕ → Option Syscall

namespace System

def kernel (system : System) : Kernel := system.keyboards.kernel

def machine (system : System) : Machine := system.kernel.machine

def setKernel (system : System) (kernel : Kernel) : System :=
  { system with keyboards := { system.keyboards with kernel } }

def setMachine (system : System) (machine : Machine) : System :=
  system.setKernel { system.kernel with machine }

/-- The terminal, whose screen is in the memory of the machine. -/
def terminal (system : System) : Terminal :=
  ⟨system.machine.memory, system.videoMem, system.terminalRow, system.terminalCol⟩

def setTerminal (system : System) (terminal : Terminal) : System :=
  { system.setMachine { system.machine with memory := terminal.memory } with
    videoMem := terminal.videoMem, terminalRow := terminal.row, terminalCol := terminal.col }

/-- `task_current`. -/
def taskCurrent (system : System) : Word := system.kernel.currentTask

/-- The record of the current task. -/
def currentRecord (system : System) : Task := system.kernel.taskAt system.taskCurrent

/-! Pages and segments: `memory/paging/paging.c`, `kernel.c` and `task/task.c`. -/

def pagingSwitch (system : System) (chunk : Word) : System :=
  { system with currentDirectory := system.machine.memory.load32 chunk }

def kernelPage (system : System) : System :=
  { system with segments := kernelDataSelector }.pagingSwitch system.kchunk

def taskSwitch (system : System) (task : Word) : System :=
  (system.setKernel (system.kernel.taskSwitch task).2).pagingSwitch
    (system.kernel.taskAt task).pageDirectory

/-- `user_registers`. -/
def userRegisters (system : System) : System :=
  { system with segments := userDataSegment.setWidth 16 }

/-- `task_page`; a record at the null pointer is left out. -/
def taskPage (system : System) : Option System :=
  if system.taskCurrent = null then none
  else some (system.userRegisters.taskSwitch system.taskCurrent)

def taskPageTask (system : System) (task : Word) : System :=
  system.userRegisters.pagingSwitch (system.kernel.taskAt task).pageDirectory

/-- `task_current_save_state`; without a task it is a panic. -/
def taskCurrentSaveState (system : System) (frame : InterruptFrame) : Option System :=
  if system.taskCurrent = null then none
  else some (system.setKernel
    (system.kernel.setTask system.taskCurrent (taskSaveState system.currentRecord frame)))

/-- `task_get_stack_item`. -/
def taskGetStackItem (system : System) (task index : Word) : Option (Word × System) := do
  let record := system.kernel.taskAt task
  let item ← system.machine.taskGetStackItem record.pageDirectory record.registers.esp index
  some (item, (system.taskPageTask task).kernelPage)

/-- `copy_string_from_task`. Where it returns before it has switched pages, the kernel's are still
loaded. -/
def copyStringFromTask (system : System) (task virtual phys : Word) (max : Int) :
    Option (Int × System) := do
  let record := system.kernel.taskAt task
  let (ret, machine) ← system.machine.copyStringFromTask record.pageDirectory virtual phys max
  some (ret, (system.setMachine machine).kernelPage)

end System

/-- `print` of a string in memory: its first `i` characters. -/
def Terminal.printFrom (terminal : Terminal) (str : Word) : ℕ → Terminal
  | 0 => terminal
  | i + 1 =>
      let terminal := terminal.printFrom str i
      terminal.terminalWritechar (terminal.memory (str + BitVec.ofNat 32 i)) 15

namespace System

def print (system : System) (str : Word) : System :=
  system.setTerminal (system.terminal.printFrom str (strlen system.machine.memory str))

def putchar (system : System) (c : Byte) : System :=
  system.setTerminal (system.terminal.putchar c)

/-! The system calls. -/

/-- `isr80h/misc.c` -/
def syscall0Sum (system : System) : Option (Word × System) := do
  let (v2, system) ← system.taskGetStackItem system.taskCurrent 1
  let (v1, system) ← system.taskGetStackItem system.taskCurrent 0
  some (v1 + v2, system)

/-! `isr80h/io.c` -/

/-- `sizeof(buf)` of `syscall1_print`. -/
def sizeofBuf : Int := 2048

/-- `syscall1_print`, its array at `buf`. -/
def syscall1Print (system : System) (buf : Word) : Option (Word × System) := do
  let (userMsgBuf, system) ← system.taskGetStackItem system.taskCurrent 0
  let (_, system) ← system.copyStringFromTask system.taskCurrent userMsgBuf buf sizeofBuf
  some (null, system.print buf)

def syscall2Getkey (system : System) : Word × System :=
  let (c, keyboards) := system.keyboards.keyboardPop
  (c.signExtend 32, { system with keyboards })

def syscall3Putchar (system : System) : Option (Word × System) := do
  let (c, system) ← system.taskGetStackItem system.taskCurrent 0
  some (0, system.putchar (c.setWidth 8))

/-! `isr80h/memory.c` -/

def syscall4Malloc (system : System) : Option (Word × System) := do
  let (size, system) ← system.taskGetStackItem system.taskCurrent 0
  let (p, kernel) := system.kernel.processMalloc system.currentRecord.process size
  some (p, system.setKernel kernel)

def syscall5Free (system : System) : Option (Word × System) := do
  let (p, system) ← system.taskGetStackItem system.taskCurrent 0
  some (0, system.setKernel (system.kernel.processFree system.currentRecord.process p))

def syscall7GetPaddr (system : System) : Option (Word × System) := do
  let (p, system) ← system.taskGetStackItem system.taskCurrent 0
  let memory := system.machine.memory
  some (pagingGetPaddr memory (memory.load32 system.currentRecord.pageDirectory) p, system)

def syscall8GetFlags (system : System) : Option (Word × System) := do
  let (p, system) ← system.taskGetStackItem system.taskCurrent 0
  let memory := system.machine.memory
  some (pagingGetFlags memory (memory.load32 system.currentRecord.pageDirectory) p, system)

end System

/-- What goes on when the kernel is left: the caller, with a result, or a task that
`task_return` enters with its registers. -/
inductive Resumption where
  | caller (eax : Word)
  | task (registers : Registers)

namespace System

/-- `task_return`, as far as the kernel's state goes: the segment registers are those of the
stack. -/
def taskReturn (system : System) (registers : Registers) : Resumption × System :=
  (.task registers, { system with segments := registers.ss.setWidth 16 })

/-- `syscall6_process_load_start` of `isr80h/process.c`, its array at `filename`. -/
def syscall6ProcessLoadStart (system : System) (filename : Word) (answers : LoadAnswers) :
    Option (Resumption × System) := do
  let record := system.currentRecord
  let (ret, machine) ←
    system.machine.syscall6Path record.pageDirectory record.registers.esp filename
  let system := (system.setMachine machine).kernelPage
  if ret < 0 then some (.caller (BitVec.ofInt 32 ret), system)
  else
    let (ret, keyboards) ← system.keyboards.syscall6ProcessLoadStart answers
    let system := { system with keyboards }
    if ret < 0 then some (.caller (BitVec.ofInt 32 ret), system)
    else
      let system := system.pagingSwitch system.currentRecord.pageDirectory
      some (system.taskReturn system.currentRecord.registers)

end System

/-- What a system call finds around it: where the array of the handler is on the kernel's stack,
and what the file system answers if a program is loaded. -/
structure CallSite where
  array : Word
  answers : LoadAnswers

/-- A call of a function that returns to the program. -/
def Resumption.ofReturn (called : Word × System) : Resumption × System :=
  (.caller called.1, called.2)

/-- The call `func(frame)`; no function reads the frame. -/
def Syscall.run (system : System) (site : CallSite) : Syscall → Option (Resumption × System)
  | .syscall0Sum => system.syscall0Sum.map Resumption.ofReturn
  | .syscall1Print => (system.syscall1Print site.array).map Resumption.ofReturn
  | .syscall2Getkey => some (Resumption.ofReturn system.syscall2Getkey)
  | .syscall3Putchar => system.syscall3Putchar.map Resumption.ofReturn
  | .syscall4Malloc => system.syscall4Malloc.map Resumption.ofReturn
  | .syscall5Free => system.syscall5Free.map Resumption.ofReturn
  | .syscall6ProcessLoadStart => system.syscall6ProcessLoadStart site.array site.answers
  | .syscall7GetPaddr => system.syscall7GetPaddr.map Resumption.ofReturn
  | .syscall8GetFlags => system.syscall8GetFlags.map Resumption.ofReturn

/-! `keyboard/ps2.c` -/

def ps2KeyReleased : Byte := 0x80

/-- `ps2_scan_set_one`: the characters of the scan codes. -/
def ps2ScanSetOne : List Byte :=
  [0x00, 0x1B, 0x31, 0x32, 0x33, 0x34, 0x35, 0x36, 0x37, 0x38, 0x39, 0x30, 0x2D, 0x3D,
    0x08, 0x09, 0x51, 0x57, 0x45, 0x52, 0x54, 0x59, 0x55, 0x49, 0x4F, 0x50, 0x5B, 0x5D,
    0x0D, 0x00, 0x41, 0x53, 0x44, 0x46, 0x47, 0x48, 0x4A, 0x4B, 0x4C, 0x3B, 0x27, 0x60,
    0x00, 0x5C, 0x5A, 0x58, 0x43, 0x56, 0x42, 0x4E, 0x4D, 0x2C, 0x2E, 0x2F, 0x00, 0x2A,
    0x00, 0x20, 0x00, 0x00, 0x00, 0x00, 0x00, 0x00, 0x00, 0x00, 0x00, 0x00, 0x37, 0x38,
    0x39, 0x2D, 0x34, 0x35, 0x36, 0x2B, 0x31, 0x32, 0x33, 0x30, 0x2E]

/-- `PS2_SCAN_SET_SIZE`. -/
def ps2ScanSetSize : ℕ := 81

/-- `ps2_keyboard_scancode_to_char`. The code that is one too large reads `behind`, the byte behind
the array. -/
def ps2KeyboardScancodeToChar (behind scanCode : Byte) : Byte :=
  if ps2ScanSetSize < scanCode.toNat then 0
  else (ps2ScanSetOne ++ [behind]).getD scanCode.toNat 0

/-- What the keyboard's data port gives, and the byte behind the scan set. -/
structure KeyPress where
  scanCode : Byte
  behind : Byte

namespace System

/-- `ps2_keyboard_handle_interrupt`. -/
def ps2KeyboardHandleInterrupt (system : System) (key : KeyPress) : Option System :=
  let system := system.kernelPage
  if key.scanCode &&& ps2KeyReleased ≠ 0 then some system
  else
    let character := ps2KeyboardScancodeToChar key.behind key.scanCode
    let system := if character = 0 then system
      else { system with keyboards := system.keyboards.keyboardPush character }
    system.taskPage

/-! `idt/idt.c` -/

/-- `interrupt_handler`. -/
def interruptHandler (system : System) (interrupt : ℕ) (frame : InterruptFrame) (key : KeyPress) :
    Option System := do
  let system := system.kernelPage
  let system ← match system.interruptCallbacks interrupt with
    | none => some system
    | some .ps2KeyboardHandleInterrupt => do
        let system ← system.taskCurrentSaveState frame
        system.ps2KeyboardHandleInterrupt key
  system.taskPage

/-- `idt_register_intr_cb`. -/
def idtRegisterIntrCb (system : System) (interrupt : Int) (cb : InterruptCb) : Int × System :=
  if interrupt < 0 ∨ (phixTotalInterrupts : Int) ≤ interrupt then (-EINVAL, system)
  else (0, { system with
    interruptCallbacks := Function.update system.interruptCallbacks interrupt.toNat cb })

/-- `syscall_register`; a command that is out of bounds or in use is a panic. -/
def syscallRegister (system : System) (commandId : Int) (command : Syscall) : Option System :=
  if commandId < 0 ∨ (phixMaxSyscalls : Int) ≤ commandId then none
  else if (system.syscalls commandId.toNat).isSome then none
  else some { system with
    syscalls := Function.update system.syscalls commandId.toNat command }

def isr80hHandleCommand (system : System) (command : Word) (site : CallSite) :
    Option (Resumption × System) :=
  if command.toInt < 0 ∨ (phixMaxSyscalls : Int) ≤ command.toInt then some (.caller null, system)
  else
    match system.syscalls command.toInt.toNat with
    | none => some (.caller null, system)
    | some func => func.run system site

def isr80hHandler (system : System) (command : Word) (frame : InterruptFrame) (site : CallSite) :
    Option (Resumption × System) := do
  let system := system.kernelPage
  let system ← system.taskCurrentSaveState frame
  let (resumption, system) ← system.isr80hHandleCommand command site
  match resumption with
  | .caller ret => do
      let system ← system.taskPage
      some (.caller ret, system)
  | .task registers => some (.task registers, system)

/-! Start-up. -/

/-- `isr80h_register_commands`. -/
def isr80hRegisterCommands (system : System) : Option System := do
  let system ← system.syscallRegister 0 .syscall0Sum
  let system ← system.syscallRegister 1 .syscall1Print
  let system ← system.syscallRegister 2 .syscall2Getkey
  let system ← system.syscallRegister 3 .syscall3Putchar
  let system ← system.syscallRegister 4 .syscall4Malloc
  let system ← system.syscallRegister 5 .syscall5Free
  let system ← system.syscallRegister 6 .syscall6ProcessLoadStart
  let system ← system.syscallRegister 7 .syscall7GetPaddr
  system.syscallRegister 8 .syscall8GetFlags

/-- `keyboard_init`, which initialises the PS/2 keyboard. -/
def keyboardInit (system : System) : System :=
  (system.idtRegisterIntrCb isrKeyboardInterrupt .ps2KeyboardHandleInterrupt).2

end System

/-- `process_load_switch`, in which `process_init` clears the buffer of the record that is
allocated. -/
def Keyboards.processLoadSwitch (keyboards : Keyboards) (answers : LoadAnswers) :
    Option (Int × Keyboards) := do
  let (ret, _, kernel) ← keyboards.kernel.processLoadSwitch answers
  let record := (keyboards.kernel.kzalloc .process sizeofProcess).1
  let keyboardAt :=
    if keyboards.kernel.processGetFreeSlot < 0 ∨ record = null then keyboards.keyboardAt
    else Function.update keyboards.keyboardAt record Keyboard.zero
  some (ret, { kernel, keyboardAt })

theorem Keyboards.processLoadSwitch_kernel {keyboards next : Keyboards} {answers : LoadAnswers}
    {ret : Int} (switched : keyboards.processLoadSwitch answers = some (ret, next)) :
    ∃ stored, keyboards.kernel.processLoadSwitch answers = some (ret, stored, next.kernel) := by
  unfold processLoadSwitch at switched
  rw [Option.bind_eq_bind, Option.bind_eq_some_iff] at switched
  obtain ⟨⟨_, stored, _⟩, loaded, switched⟩ := switched
  cases switched
  exact ⟨stored, loaded⟩

theorem Keyboards.syscall6ProcessLoadStart_kernel {keyboards next : Keyboards}
    {answers : LoadAnswers} {ret : Int}
    (started : keyboards.syscall6ProcessLoadStart answers = some (ret, next)) :
    keyboards.kernel.syscall6ProcessLoadStart answers = some (ret, next.kernel) := by
  unfold syscall6ProcessLoadStart at started
  rw [Option.bind_eq_bind, Option.bind_eq_some_iff] at started
  obtain ⟨_, loaded, started⟩ := started
  cases started
  exact loaded

namespace System

/-- `task_run_first_task`; without a task it is a panic. -/
def taskRunFirstTask (system : System) : Option (Resumption × System) :=
  if system.taskCurrent = null then none
  else
    let system := system.taskSwitch system.kernel.taskHead
    some (system.taskReturn (system.kernel.taskAt system.kernel.taskHead).registers)

/-- The kernel when its paging chunk is made; `calls` are the heap calls of `fs_init` and
`disk_search_and_init`. -/
def started (memory : ByteMemory) (calls : List KernelCall) : Option System := do
  let terminal := (Terminal.mk memory null 0 0).terminalInit
  let kernel := (Kernel.booted terminal.memory).kernelCalls calls
  let (kchunk, machine) ← kernel.machine.pagingNewChunk
    (pagingIsWritable ||| pagingIsPresent ||| pagingAccessFromAll)
  let system : System :=
    { keyboards := ⟨{ kernel with machine }, fun _ => Keyboard.zero⟩
      videoMem := terminal.videoMem
      terminalRow := terminal.row
      terminalCol := terminal.col
      kchunk
      currentDirectory := null
      segments := kernelDataSelector
      interruptCallbacks := fun _ => none
      syscalls := fun _ => none }
  some (system.pagingSwitch kchunk)

/-- `kernel_main`: it ends in the first program, whose file gives `answers`, or in a panic. -/
def kernelMain (memory : ByteMemory) (calls : List KernelCall) (answers : LoadAnswers) :
    Option (Resumption × System) := do
  let system ← started memory calls
  let system ← system.isr80hRegisterCommands
  let system := system.keyboardInit
  let (ret, keyboards) ← system.keyboards.processLoadSwitch answers
  if ret < 0 then none else taskRunFirstTask { system with keyboards }

end System

/-- The exceptions for which the processor pushes an error code behind the frame, the page fault
among them. -/
def errorCodeExceptions : List Byte := [8, 10, 11, 12, 13, 14, 17, 21, 29, 30]

/-- An interrupt that finds its handler in `interrupt_pointer_table` and the frame as this expects
it: neither an exception with an error code nor the system call. -/
structure Interrupt where
  number : Byte
  noErrorCode : number ∉ errorCodeExceptions
  noCall : number ≠ 0x80

/-- The kernel is entered: a program calls it, or an interrupt comes in while a program runs. -/
inductive Entry where
  | systemCall (command : Word) (frame : InterruptFrame) (site : CallSite)
  | interrupt (interrupt : Interrupt) (frame : InterruptFrame) (key : KeyPress)

/-- The kernel is entered, or the running program stores a byte. -/
inductive Event where
  | entry (entry : Entry)
  | store (v : Word) (value : Byte)

/-- Where a program writes the byte of an address under a directory: through entries that are
present, writable and the user's, or else there is a page fault. -/
def userWalk (directory : Word) (memory : ByteMemory) (v : Word) : Option Word :=
  let entry := memory.load32 (directory + 4 * (v / (pagingTotalEntriesPerTable * pagingPageSize)))
  if Exposed entry ∧ Exposed (pagingGetFlags memory directory v) then
    some (pagingGetPaddr memory directory v)
  else none

namespace System

/-- The kernel from its entry to its exit. The frame of an interrupt is as it was when it is left,
and the program that it came in goes on. -/
def handle (system : System) : Entry → Option (Resumption × System)
  | .systemCall command frame site => system.isr80hHandler command frame site
  | .interrupt interrupt frame key => do
      let system ← system.interruptHandler interrupt.number.toNat frame key
      some (.caller frame.eax, system)

/-- A store of the running program; a page fault is a panic. -/
def store (system : System) (v : Word) (value : Byte) : Option System :=
  (userWalk system.currentDirectory system.machine.memory v).map fun x => system.setMachine
    { system.machine with memory := Function.update system.machine.memory x value }

/-- A panic leaves the system as it is. -/
def step (system : System) : Event → System
  | .entry entry =>
      match system.handle entry with
      | none => system
      | some (_, system) => system
  | .store v value => (system.store v value).getD system

/-! What a call of these can do. -/

/-- Exec stops at its path or at the load, or it enters the new program. -/
theorem syscall6ProcessLoadStart_cases {system : System} {filename : Word} {answers : LoadAnswers}
    {called : Resumption × System}
    (ran : system.syscall6ProcessLoadStart filename answers = some called) :
    ∃ ret machine, system.machine.syscall6Path system.currentRecord.pageDirectory
        system.currentRecord.registers.esp filename = some (ret, machine) ∧
      (ret < 0 ∧ called = (.caller (BitVec.ofInt 32 ret), (system.setMachine machine).kernelPage) ∨
        ¬ ret < 0 ∧ ∃ status keyboards,
          (system.setMachine machine).kernelPage.keyboards.syscall6ProcessLoadStart answers =
            some (status, keyboards) ∧
          (status < 0 ∧ called = (.caller (BitVec.ofInt 32 status),
              { (system.setMachine machine).kernelPage with keyboards }) ∨
            ¬ status < 0 ∧ ∃ entered : System,
              entered = { (system.setMachine machine).kernelPage with keyboards } ∧
              called = (entered.pagingSwitch entered.currentRecord.pageDirectory).taskReturn
                entered.currentRecord.registers)) := by
  unfold syscall6ProcessLoadStart at ran
  dsimp only at ran
  rw [Option.bind_eq_bind, Option.bind_eq_some_iff] at ran
  obtain ⟨⟨ret, machine⟩, path, rest⟩ := ran
  refine ⟨ret, machine, path, ?_⟩
  dsimp only at rest
  split at rest
  · rename_i failed
    cases rest
    exact .inl ⟨failed, rfl⟩
  · rename_i found
    rw [Option.bind_eq_bind, Option.bind_eq_some_iff] at rest
    obtain ⟨⟨status, keyboards⟩, started, rest⟩ := rest
    refine .inr ⟨found, status, keyboards, started, ?_⟩
    dsimp only at rest
    split at rest
    · rename_i failed
      cases rest
      exact .inl ⟨failed, rfl⟩
    · rename_i finished
      cases rest
      exact .inr ⟨finished, _, rfl, rfl⟩

/-- A command that no function is registered for returns 0. -/
theorem isr80hHandleCommand_cases {system : System} {command : Word} {site : CallSite}
    {called : Resumption × System} (ran : system.isr80hHandleCommand command site = some called) :
    called = (.caller null, system) ∨ 0 ≤ command.toInt ∧ ∃ func,
      system.syscalls command.toInt.toNat = some func ∧ func.run system site = some called := by
  unfold isr80hHandleCommand at ran
  split at ran
  · cases ran
    exact .inl rfl
  rename_i inside
  split at ran
  · cases ran
    exact .inl rfl
  · rename_i func registered
    exact .inr ⟨not_lt.mp (not_or.mp inside).1, func, registered, ran⟩

/-- A call returns through the page of the current task, or a program has been entered. -/
theorem isr80hHandler_cases {system next : System} {command : Word} {frame : InterruptFrame}
    {site : CallSite} {resumption : Resumption}
    (handled : system.isr80hHandler command frame site = some (resumption, next)) :
    ∃ saved, system.kernelPage.taskCurrentSaveState frame = some saved ∧
      ((∃ ret called, saved.isr80hHandleCommand command site = some (.caller ret, called) ∧
          called.taskPage = some next ∧ resumption = .caller ret) ∨
        ∃ registers, saved.isr80hHandleCommand command site = some (.task registers, next) ∧
          resumption = .task registers) := by
  unfold isr80hHandler at handled
  dsimp only at handled
  rw [Option.bind_eq_bind, Option.bind_eq_some_iff] at handled
  obtain ⟨saved, save, rest⟩ := handled
  rw [Option.bind_eq_bind, Option.bind_eq_some_iff] at rest
  obtain ⟨⟨result, called⟩, call, rest⟩ := rest
  refine ⟨saved, save, ?_⟩
  cases result with
  | caller ret =>
      obtain ⟨left, leave, rest⟩ := Option.bind_eq_some_iff.mp rest
      cases rest
      exact .inl ⟨ret, called, call, leave, rfl⟩
  | task registers =>
      cases rest
      exact .inr ⟨registers, call, rfl⟩

end System

end Phix
