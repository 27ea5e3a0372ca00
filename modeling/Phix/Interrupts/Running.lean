import Phix.Interrupts.Calls
import Phix.Interrupts.Stores

/-! # The kernel between its interrupts

However it is entered, the kernel comes back with one current program, whose record and task are
live and belong together, and with its page directory and segments loaded. The program can write
only to what has been allocated for it, so that its own stores change none of this. An address
space changes only while its own program is the current one, and a program that has started another
is never current again.
-/

namespace Phix

open Traces

/-- What runs is the same, whatever else has happened to its records. -/
structure Kernel.SameProgram (kernel next : Kernel) : Prop where
  currentTask : next.currentTask = kernel.currentTask
  currentProcess : next.currentProcess = kernel.currentProcess
  taskHead : next.taskHead = kernel.taskHead
  taskTail : next.taskTail = kernel.taskTail
  task : (next.processAt kernel.currentProcess).task = (kernel.processAt kernel.currentProcess).task
  process : (next.taskAt kernel.currentTask).process = (kernel.taskAt kernel.currentTask).process
  pageDirectory : (next.taskAt kernel.currentTask).pageDirectory =
    (kernel.taskAt kernel.currentTask).pageDirectory

theorem Kernel.SameThreads.sameProgram {kernel next : Kernel}
    (same : kernel.SameThreads next kernel.currentProcess) : kernel.SameProgram next :=
  ⟨same.currentTask, same.currentProcess, same.taskHead, same.taskTail, same.task,
    by rw [same.taskAt], by rw [same.taskAt]⟩

namespace System

/-- The chunk of the current program. -/
def ownChunk (system : System) : Word := system.kernel.chunkOf system.kernel.currentProcess

/-- The current program can write only to what has been allocated for it. -/
def OwnConfined (system : System) : Prop :=
  system.machine.Confined system.kernel.currentProcess system.ownChunk

/-- The flags of the kernel's own pages. -/
def kernelFlags : Byte := pagingIsWritable ||| pagingIsPresent ||| pagingAccessFromAll

/-- The functions of the commands of `isr80h/isr80h.h`. -/
def syscallTable (command : ℕ) : Option Syscall :=
  [.syscall0Sum, .syscall1Print, .syscall2Getkey, .syscall3Putchar, .syscall4Malloc, .syscall5Free,
    .syscall6ProcessLoadStart, .syscall7GetPaddr, .syscall8GetFlags][command]?

/-- The functions of the interrupts. -/
def callbackTable (interrupt : ℕ) : Option InterruptCb :=
  if interrupt = isrKeyboardInterrupt.toNat then some .ps2KeyboardHandleInterrupt else none

/-- The heap and the allocations of the current program are sound, its record and its task are live
and name each other, the kernel's own chunk maps every address to itself, and the tables of
functions are as they were filled. -/
structure Sound (system : System) : Prop where
  accounts : system.kernel.Accounts {system.kernel.currentProcess}
  running : system.kernel.Running
  thread : (system.kernel.processAt system.kernel.currentProcess).task = system.taskCurrent
  screen : system.videoMem = vgaAddress
  kernelChunk : ∃ directory, system.machine.HasChunk system.kchunk directory ∧
    directory.space system.machine.memory = AddressSpace.identity (flagWord kernelFlags)
  apart : system.kchunk ≠ system.ownChunk
  syscalls : system.syscalls = syscallTable
  callbacks : system.interruptCallbacks = callbackTable

/-- What is set once. -/
structure Fixed (system next : System) : Prop where
  kchunk : next.kchunk = system.kchunk
  videoMem : next.videoMem = system.videoMem
  syscalls : next.syscalls = system.syscalls
  callbacks : next.interruptCallbacks = system.interruptCallbacks

theorem Fixed.trans {system middle next : System} (first : system.Fixed middle)
    (second : middle.Fixed next) : system.Fixed next :=
  ⟨second.kchunk.trans first.kchunk, second.videoMem.trans first.videoMem,
    second.syscalls.trans first.syscalls, second.callbacks.trans first.callbacks⟩

/-- The same program is current. -/
structure SameCurrent (system next : System) : Prop where
  task : next.taskCurrent = system.taskCurrent
  process : next.kernel.currentProcess = system.kernel.currentProcess
  chunk : next.ownChunk = system.ownChunk

theorem SameCurrent.trans {system middle next : System} (first : system.SameCurrent middle)
    (second : middle.SameCurrent next) : system.SameCurrent next :=
  ⟨second.task.trans first.task, second.process.trans first.process,
    second.chunk.trans first.chunk⟩

theorem SameCurrent.ownConfined {system next : System} (same : system.SameCurrent next)
    (confined : next.machine.Confined system.kernel.currentProcess system.ownChunk) :
    next.OwnConfined := by
  unfold OwnConfined
  rw [same.process, same.chunk]
  exact confined

/-- The record and the chunk of the current program were not live. -/
structure NewCurrent (system next : System) : Prop where
  process : ∀ size, system.machine.live next.kernel.currentProcess ≠ some ⟨size, .process⟩
  chunk : ∀ directory, ¬ system.machine.HasChunk next.ownChunk directory

/-- What the kernel's work for the current program comes to. -/
structure Continues (system next : System) : Prop where
  sound : next.Sound
  spaces : system.machine.SpacesBut system.ownChunk next.machine
  fixed : system.Fixed next
  current : system.SameCurrent next
  confines : system.machine.KeepsConfined system.kernel.currentProcess system.ownChunk next.machine

/-- What the kernel's work comes to, which may start a program. -/
structure Follows (system next : System) : Prop where
  sound : next.Sound
  spaces : system.machine.SpacesBut system.ownChunk next.machine
  fixed : system.Fixed next
  current : system.SameCurrent next ∨ system.NewCurrent next
  confines : system.machine.KeepsConfined system.kernel.currentProcess system.ownChunk next.machine
  own : system.OwnConfined → next.OwnConfined

variable {system middle next : System}

theorem Continues.follows (continues : system.Continues next) : system.Follows next :=
  ⟨continues.sound, continues.spaces, continues.fixed, .inl continues.current, continues.confines,
    fun confined => continues.current.ownConfined
      (continues.confines _ _ (iff_of_true rfl rfl) confined)⟩

theorem Continues.refl (sound : system.Sound) : system.Continues system :=
  ⟨sound, .of_same (.refl sound.accounts.paging), ⟨rfl, rfl, rfl, rfl⟩, ⟨rfl, rfl, rfl⟩,
    fun _ _ _ confined => confined⟩

theorem Continues.trans (first : system.Continues middle) (second : middle.Continues next) :
    system.Continues next where
  sound := second.sound
  spaces := by
    have rest := second.spaces
    rw [first.current.chunk] at rest
    exact first.spaces.trans rest
  fixed := first.fixed.trans second.fixed
  current := first.current.trans second.current
  confines := by
    have rest := second.confines
    rw [first.current.process, first.current.chunk] at rest
    exact first.confines.trans rest

/-- A program that was confined is current afterwards where it was before. -/
theorem Follows.link (follows : system.Follows next) {process chunk : Word}
    (link : process = system.kernel.currentProcess ↔ chunk = system.ownChunk)
    (confined : system.machine.Confined process chunk) :
    process = next.kernel.currentProcess ↔ chunk = next.ownChunk := by
  rcases follows.current with current | new
  · rw [current.process, current.chunk]
    exact link
  · obtain ⟨isProcess, directory, has, _⟩ := confined
    constructor
    · rintro rfl
      exact absurd isProcess (new.process _)
    · rintro rfl
      exact absurd has (new.chunk _)

theorem Follows.trans (first : system.Follows middle) (second : middle.Follows next) :
    system.Follows next where
  sound := second.sound
  fixed := first.fixed.trans second.fixed
  spaces := by
    refine ⟨fun p allocation held owner => second.spaces.retains p allocation
      (first.spaces.retains p allocation held owner) owner, fun has => ?_⟩
    obtain ⟨before, same⟩ := first.spaces.chunks has
    obtain ⟨after, again⟩ := second.spaces.chunks before
    refine ⟨after, fun different => (again ?_).trans (same different)⟩
    rcases first.current with current | new
    · exact current.chunk ▸ different
    · rintro rfl
      exact new.chunk _ has
  current := by
    rcases second.current with current | new
    · refine first.current.imp (fun before => before.trans current) fun before => ⟨?_, ?_⟩
      · rw [current.process]
        exact before.process
      · rw [current.chunk]
        exact before.chunk
    · exact .inr ⟨fun size held => new.process size (first.spaces.retains _ _ held (.inr rfl)),
        fun directory has => new.chunk directory (first.spaces.chunks has).1⟩
  confines process chunk link confined :=
    second.confines process chunk (first.link link confined)
      (first.confines process chunk link confined)
  own confined := second.own (first.own confined)

/-- Only the keyboards and what the processor has loaded are different. -/
structure Alike (system next : System) : Prop where
  kernel : next.kernel = system.kernel
  fixed : system.Fixed next

theorem kernelPage_alike (system : System) : system.Alike system.kernelPage :=
  ⟨rfl, rfl, rfl, rfl, rfl⟩

theorem taskGetStackItem_alike {system next : System} {task index item : Word}
    (got : system.taskGetStackItem task index = some (item, next)) : system.Alike next ∧
      system.machine.taskGetStackItem (system.kernel.taskAt task).pageDirectory
        (system.kernel.taskAt task).registers.esp index = some item := by
  unfold taskGetStackItem at got
  dsimp only at got
  rw [Option.bind_eq_bind, Option.bind_eq_some_iff] at got
  obtain ⟨_, found, rest⟩ := got
  cases rest
  exact ⟨⟨rfl, rfl, rfl, rfl, rfl⟩, found⟩

theorem taskPage_alike {system next : System} (paged : system.taskPage = some next) :
    system.Alike next ∧ next.segments = userDataSegment.setWidth 16 ∧
      next.currentDirectory = system.machine.memory.load32 system.currentRecord.pageDirectory := by
  unfold taskPage at paged
  split at paged
  · cases paged
  · cases paged
    exact ⟨⟨rfl, rfl, rfl, rfl, rfl⟩, rfl, rfl⟩

namespace Sound

variable {system : System} (sound : system.Sound)

include sound

theorem chunk : system.ownChunk = system.currentRecord.pageDirectory := by
  unfold ownChunk Kernel.chunkOf
  rw [sound.thread]
  rfl

theorem directory : ∃ directory,
    system.machine.HasChunk system.currentRecord.pageDirectory directory :=
  sound.chunk ▸ sound.accounts.paging.directory (sound.accounts.chunk _ rfl)

theorem process : system.currentRecord.process = system.kernel.currentProcess :=
  sound.running.owner

/-- Work for the current program. -/
theorem continues {next : System} (same : system.kernel.SameProgram next.kernel)
    (accounts : next.kernel.Accounts {system.kernel.currentProcess})
    (spaces : system.machine.SpacesBut system.ownChunk next.machine)
    (fixed : system.Fixed next)
    (confines : system.machine.KeepsConfined system.kernel.currentProcess system.ownChunk
      next.machine) : system.Continues next := by
  have task : (next.kernel.processAt system.kernel.currentProcess).task =
      system.kernel.currentTask := same.task.trans sound.thread
  have own : next.ownChunk = system.ownChunk := by
    rw [sound.chunk]
    unfold ownChunk Kernel.chunkOf
    rw [same.currentProcess, task]
    exact same.pageDirectory
  have isTask : ∀ {t}, system.machine.live t = some ⟨sizeofTask, .task⟩ →
      next.machine.live t = some ⟨sizeofTask, .task⟩ :=
    fun held => spaces.retains _ _ held (.inl rfl)
  refine ⟨⟨same.currentProcess.symm ▸ accounts, ?_, ?_, fixed.videoMem.trans sound.screen, ?_, ?_,
    fixed.syscalls.trans sound.syscalls, fixed.callbacks.trans sound.callbacks⟩,
    spaces, fixed, ⟨same.currentTask, same.currentProcess, own⟩, confines⟩
  · exact {
      head := same.taskHead ▸ isTask sound.running.head
      tail := same.taskTail ▸ isTask sound.running.tail
      currentTask := same.currentTask ▸ isTask sound.running.currentTask
      currentProcess := by
        rw [same.currentProcess]
        exact spaces.retains _ _ sound.running.currentProcess (.inr rfl)
      owner := by
        rw [same.currentTask, same.currentProcess, same.process]
        exact sound.running.owner }
  · unfold taskCurrent
    rw [same.currentProcess, same.currentTask]
    exact task
  · obtain ⟨directory, has, identity⟩ := sound.kernelChunk
    obtain ⟨after, kept⟩ := spaces.chunks has
    rw [fixed.kchunk]
    exact ⟨directory, after, (kept sound.apart).trans identity⟩
  · rw [fixed.kchunk, own]
    exact sound.apart

theorem alike {next : System} (same : system.Alike next) : system.Continues next := by
  have kernel := same.kernel
  have machine : next.machine = system.machine := congrArg Kernel.machine kernel
  refine sound.continues ?_ (kernel ▸ sound.accounts) ?_ same.fixed ?_
  · rw [kernel]
    exact (Kernel.SameThreads.refl _ _).sameProgram
  · rw [machine]
    exact .of_same (.refl sound.accounts.paging)
  · rw [machine]
    exact .of_same (.refl sound.accounts.paging)

/-- A change of the machine that touches neither the heap nor a chunk. -/
theorem machine {next : System} {machine : Machine} (same : system.machine.SamePaging machine)
    (kernel : next.kernel = { system.kernel with machine }) (fixed : system.Fixed next) :
    system.Continues next := by
  have after : next.machine = machine := congrArg Kernel.machine kernel
  refine sound.continues ?_ ?_ ?_ fixed ?_
  · rw [kernel]
    exact ⟨rfl, rfl, rfl, rfl, rfl, rfl, rfl⟩
  · rw [kernel]
    exact sound.accounts.keeps same.keeps rfl rfl
  · rw [after]
    exact .of_same same
  · rw [after]
    exact .of_same same

theorem taskCurrentSaveState {frame : InterruptFrame} {next : System}
    (saved : system.taskCurrentSaveState frame = some next) : system.Continues next := by
  unfold System.taskCurrentSaveState at saved
  split at saved
  · cases saved
  cases saved
  have record : ∀ u, ((system.kernel.setTask system.taskCurrent
      (taskSaveState system.currentRecord frame)).taskAt u).pageDirectory =
        (system.kernel.taskAt u).pageDirectory ∧ ((system.kernel.setTask system.taskCurrent
      (taskSaveState system.currentRecord frame)).taskAt u).process =
        (system.kernel.taskAt u).process :=
    Kernel.setTask_links _ _ _ ⟨rfl, rfl⟩
  have accounts := sound.accounts
  refine sound.continues ⟨rfl, rfl, rfl, rfl, rfl, (record _).2, (record _).1⟩
    ⟨accounts.paging, fun q member => ?_, accounts.recorded, accounts.distinct⟩
    (.of_same (.refl accounts.paging)) ⟨rfl, rfl, rfl, rfl⟩ (.of_same (.refl accounts.paging))
  have live := accounts.chunk q member
  unfold Kernel.chunkOf at live ⊢
  rw [← (record _).1] at live
  exact live

/-! The system calls that return. -/

theorem printFrom (str : Word) (n : ℕ) :
    system.Continues (system.setTerminal (system.terminal.printFrom str n)) := by
  have screen : system.terminal.videoMem = vgaAddress := sound.screen
  have writes := Terminal.printFrom_writes screen str n
  exact sound.machine (sound.accounts.paging.kernelWrite writes.memory) rfl
    ⟨rfl, writes.videoMem, rfl, rfl⟩

theorem putchar (c : Byte) : system.Continues (system.putchar c) := by
  have screen : system.terminal.videoMem = vgaAddress := sound.screen
  have writes := Terminal.terminalWritechar_writes screen c 15
  exact sound.machine (sound.accounts.paging.kernelWrite writes.memory) rfl
    ⟨rfl, writes.videoMem, rfl, rfl⟩

theorem stackItem {task index item : Word} {next : System}
    (got : system.taskGetStackItem task index = some (item, next)) : system.Continues next :=
  sound.alike (taskGetStackItem_alike got).1

theorem syscall0Sum {called : Word × System} (ran : system.syscall0Sum = some called) :
    system.Continues called.2 := by
  unfold System.syscall0Sum at ran
  rw [Option.bind_eq_bind, Option.bind_eq_some_iff] at ran
  obtain ⟨⟨v2, middle⟩, first, rest⟩ := ran
  dsimp only at rest
  rw [Option.bind_eq_some_iff] at rest
  obtain ⟨⟨v1, next⟩, second, rest⟩ := rest
  cases rest
  have before := sound.stackItem first
  exact before.trans (before.sound.stackItem second)

theorem syscall1Print {buf : Word} (array : Machine.KernelArray buf sizeofBuf.toNat)
    {called : Word × System} (ran : system.syscall1Print buf = some called) :
    system.Continues called.2 := by
  unfold System.syscall1Print System.copyStringFromTask at ran
  rw [Option.bind_eq_bind, Option.bind_eq_some_iff] at ran
  obtain ⟨⟨userMsgBuf, middle⟩, first, rest⟩ := ran
  have before := sound.stackItem first
  obtain ⟨directory, has⟩ := before.sound.directory
  dsimp only at rest
  rw [Option.bind_eq_bind, Option.bind_eq_some_iff] at rest
  obtain ⟨⟨ret, copied⟩, second, rest⟩ := rest
  rw [Option.bind_eq_bind, Option.bind_eq_some_iff] at second
  obtain ⟨⟨status, machine⟩, copy, second⟩ := second
  cases second
  cases rest
  obtain ⟨same, _⟩ := before.sound.accounts.paging.copyStringFromTask has (by decide) (by decide)
    array copy
  have copied : middle.Continues (middle.setMachine machine).kernelPage :=
    before.sound.machine same rfl ⟨rfl, rfl, rfl, rfl⟩
  exact (before.trans copied).trans (copied.sound.printFrom ..)

theorem syscall2Getkey : system.Continues system.syscall2Getkey.2 := by
  refine sound.alike ⟨?_, rfl, rfl, rfl, rfl⟩
  unfold System.syscall2Getkey Keyboards.keyboardPop
  dsimp only
  split <;> rfl

theorem syscall3Putchar {called : Word × System} (ran : system.syscall3Putchar = some called) :
    system.Continues called.2 := by
  unfold System.syscall3Putchar at ran
  rw [Option.bind_eq_bind, Option.bind_eq_some_iff] at ran
  obtain ⟨⟨c, middle⟩, first, rest⟩ := ran
  cases rest
  have before := sound.stackItem first
  exact before.trans (before.sound.putchar _)

theorem syscall4Malloc {called : Word × System} (ran : system.syscall4Malloc = some called)
    (answered : ∀ size, system.machine.taskGetStackItem system.currentRecord.pageDirectory
      system.currentRecord.registers.esp 0 = some size →
      system.kernel.Answered (.malloc system.kernel.currentProcess size)) :
    system.Continues called.2 := by
  unfold System.syscall4Malloc at ran
  rw [Option.bind_eq_bind, Option.bind_eq_some_iff] at ran
  obtain ⟨⟨size, middle⟩, first, rest⟩ := ran
  cases rest
  obtain ⟨alike, item⟩ := taskGetStackItem_alike first
  have before := sound.alike alike
  have request := answered size item
  rw [← alike.kernel] at request
  dsimp only
  rw [before.sound.process]
  refine before.trans (before.sound.continues
    (Kernel.processMalloc_sameThreads ..).sameProgram ?_ ?_ ⟨rfl, rfl, rfl, rfl⟩ ?_)
  · exact (before.sound.accounts.malloc rfl request).2
  · exact before.sound.accounts.malloc_spaces request
  · exact before.sound.accounts.malloc_confines request

theorem syscall5Free {called : Word × System} (ran : system.syscall5Free = some called) :
    system.Continues called.2 := by
  unfold System.syscall5Free at ran
  rw [Option.bind_eq_bind, Option.bind_eq_some_iff] at ran
  obtain ⟨⟨p, middle⟩, first, rest⟩ := ran
  cases rest
  have before := sound.stackItem first
  dsimp only
  rw [before.sound.process]
  refine before.trans (before.sound.continues
    (Kernel.processFree_sameThreads ..).sameProgram ?_ ?_ ⟨rfl, rfl, rfl, rfl⟩ ?_)
  · exact (before.sound.accounts.free rfl p).2
  · exact before.sound.accounts.free_spaces p
  · exact before.sound.accounts.free_confines p

theorem syscall7GetPaddr {called : Word × System} (ran : system.syscall7GetPaddr = some called) :
    system.Continues called.2 := by
  unfold System.syscall7GetPaddr at ran
  rw [Option.bind_eq_bind, Option.bind_eq_some_iff] at ran
  obtain ⟨⟨p, middle⟩, first, rest⟩ := ran
  cases rest
  exact sound.stackItem first

theorem syscall8GetFlags {called : Word × System} (ran : system.syscall8GetFlags = some called) :
    system.Continues called.2 := by
  unfold System.syscall8GetFlags at ran
  rw [Option.bind_eq_bind, Option.bind_eq_some_iff] at ran
  obtain ⟨⟨p, middle⟩, first, rest⟩ := ran
  cases rest
  exact sound.stackItem first

end Sound

/-! The system call that starts a program, and the dispatch. -/

/-- What the processor needs for the current program is loaded. -/
structure Loads (system : System) : Prop where
  segments : system.segments = userDataSegment.setWidth 16
  directory : ∃ directory,
    system.machine.HasChunk system.currentRecord.pageDirectory directory ∧
      system.currentDirectory = directory.base

/-- The current task is entered, in user mode. -/
structure Enters (system : System) (registers : Registers) : Prop extends system.Loads where
  saved : registers = system.currentRecord.registers
  cs : registers.cs = userCodeSegment
  ss : registers.ss = userDataSegment

/-- The kernel goes on with the program that called it, or it enters a new one. -/
def Leaves (system : System) (resumption : Resumption) (next : System) : Prop :=
  match resumption with
  | .caller _ => system.SameCurrent next
  | .task registers => system.NewCurrent next ∧ next.Enters registers

theorem Continues.leaves {system middle next : System} {resumption : Resumption}
    (before : system.Continues middle) (leaves : middle.Leaves resumption next) :
    system.Leaves resumption next := by
  cases resumption with
  | caller eax => exact before.current.trans leaves
  | task registers =>
      exact ⟨⟨fun size held => leaves.1.process size (before.spaces.retains _ _ held (.inr rfl)),
        fun directory has => leaves.1.chunk directory (before.spaces.chunks has).1⟩, leaves.2⟩

end System

/-- The arrays of the call are in the kernel, and what it asks of the heap is answered: `malloc` is
served, or it is refused without harm. The requests of a load are harmless, reading asks for
nothing, an ELF file that it loads keeps its segments inside of its image, and the load releases, if
it fails, only what is live. -/
def Syscall.Permitted (system : System) (site : CallSite) : Syscall → Prop
  | .syscall1Print => Machine.KernelArray site.array System.sizeofBuf.toNat
  | .syscall4Malloc => ∀ size, system.machine.taskGetStackItem system.currentRecord.pageDirectory
      system.currentRecord.registers.esp 0 = some size →
        system.kernel.Answered (.malloc system.kernel.currentProcess size)
  | .syscall6ProcessLoadStart => Machine.KernelArray site.array (phixMaxPath + 3) ∧
      (site.answers.elf.readCalls = [] ∧ site.answers.binary.readCalls = []) ∧
      ∀ ret machine, system.machine.syscall6Path system.currentRecord.pageDirectory
          system.currentRecord.registers.esp site.array = some (ret, machine) →
        ∀ status next,
          ({ system.kernel with machine } : Kernel).syscall6ProcessLoadStart site.answers =
            some (status, next) →
          machine.Permits Request.Harmless next.machine ∧
            ({ system.kernel with machine } : Kernel).Contained site.answers ∧ (status < 0 →
              ({ system.kernel with machine } : Kernel).CleansUpLive site.answers)
  | _ => True

namespace System

namespace Sound

variable {system : System} (sound : system.Sound)

include sound

/-- The kernel after a load. -/
theorem load {kernel : Kernel} {answers : LoadAnswers} {ret : Int}
    (quiet : answers.elf.readCalls = [] ∧ answers.binary.readCalls = [])
    (called : system.kernel.syscall6ProcessLoadStart answers = some (ret, kernel))
    (orderly : system.kernel.machine.Permits Request.Harmless kernel.machine)
    (contained : system.kernel.Contained answers)
    (clean : ret < 0 → system.kernel.CleansUpLive answers) (keyboardAt : Word → Keyboard) :
    (ret < 0 → system.Continues { system with keyboards := ⟨kernel, keyboardAt⟩ }) ∧
    (¬ ret < 0 → system.Follows { system with keyboards := ⟨kernel, keyboardAt⟩ } ∧
      system.NewCurrent { system with keyboards := ⟨kernel, keyboardAt⟩ } ∧
      (kernel.taskAt kernel.currentTask).registers.cs = userCodeSegment ∧
      (kernel.taskAt kernel.currentTask).registers.ss = userDataSegment) := by
  have paging := sound.accounts.paging
  obtain ⟨spares, after, retains, stops, starts⟩ := Kernel.syscall6ProcessLoadStart_programs paging
    (.inr sound.running) quiet orderly clean called
  have spaces : system.machine.SpacesBut system.ownChunk kernel.machine :=
    .of_spaces retains spares.spaces
  have confines : system.machine.KeepsConfined system.kernel.currentProcess system.ownChunk
    kernel.machine := fun _ _ _ confined => spares.confines retains confined
  obtain ⟨directory, has, identity⟩ := sound.kernelChunk
  obtain ⟨there, kept⟩ := spares.spaces has
  constructor
  · intro failed
    have task : system.kernel.machine.live (system.kernel.processAt
        system.kernel.currentProcess).task = some ⟨sizeofTask, .task⟩ := by
      rw [sound.thread]
      exact sound.running.currentTask
    obtain ⟨scheduled, currentTask, currentProcess⟩ := stops failed
    have running : kernel.Running := by
      refine scheduled.resolve_left fun idle => ?_
      refine paging.sound.ne_null sound.running.currentTask ?_
      rw [← currentTask]
      exact idle.currentTask
    obtain ⟨accounts, chunk⟩ :=
      spares.accounts after sound.accounts sound.running.currentProcess task
    have own : ({ system with keyboards := ⟨kernel, keyboardAt⟩ } : System).ownChunk =
        system.ownChunk := by
      unfold ownChunk
      refine Eq.trans ?_ chunk
      exact congrArg kernel.chunkOf currentProcess
    refine ⟨⟨?_, running, ?_, sound.screen, ⟨directory, there, kept.trans identity⟩, ?_,
      sound.syscalls, sound.callbacks⟩, spaces, ⟨rfl, rfl, rfl, rfl⟩,
      ⟨currentTask, currentProcess, own⟩, confines⟩
    · change kernel.Accounts {kernel.currentProcess}
      rw [currentProcess]
      exact accounts
    · change (kernel.processAt kernel.currentProcess).task = kernel.currentTask
      rw [currentProcess, currentTask, spares.processes _ _ sound.running.currentProcess]
      exact sound.thread
    · rw [own]
      exact sound.apart
  · intro finished
    obtain ⟨running, begins, thread⟩ := starts finished
    have new : system.NewCurrent { system with keyboards := ⟨kernel, keyboardAt⟩ } :=
      ⟨fun _ held => Owner.noConfusion (begins.fresh _ held),
        fun _ has => Owner.noConfusion (begins.freshChunk _ has.held)⟩
    refine ⟨⟨⟨begins.accounts, running, thread, sound.screen,
      ⟨directory, there, kept.trans identity⟩, ?_, sound.syscalls, sound.callbacks⟩, spaces,
      ⟨rfl, rfl, rfl, rfl⟩, .inr new, confines, fun _ => ?_⟩, new, thread ▸ begins.user⟩
    · intro same
      have same : system.kchunk = kernel.chunkOf kernel.currentProcess := same
      exact new.chunk directory (same ▸ has)
    · exact Kernel.syscall6ProcessLoadStart_confined paging quiet contained orderly called finished

theorem syscall6ProcessLoadStart {site : CallSite} {called : Resumption × System}
    (permitted : Syscall.syscall6ProcessLoadStart.Permitted system site)
    (ran : system.syscall6ProcessLoadStart site.array site.answers = some called) :
    system.Follows called.2 ∧ system.Leaves called.1 called.2 := by
  obtain ⟨array, quiet, loads⟩ := permitted
  obtain ⟨directory, has⟩ := sound.directory
  obtain ⟨ret, machine, path, ends⟩ := syscall6ProcessLoadStart_cases ran
  have same := sound.accounts.paging.syscall6Path has array path
  have copied : system.Continues (system.setMachine machine).kernelPage :=
    sound.machine same rfl ⟨rfl, rfl, rfl, rfl⟩
  rcases ends with ⟨_, rfl⟩ | ⟨_, status, keyboards, started, ends⟩
  · exact ⟨copied.follows, copied.current⟩
  have loaded := Keyboards.syscall6ProcessLoadStart_kernel started
  obtain ⟨orderly, contained, clean⟩ := loads ret machine path _ _ loaded
  obtain ⟨stops, starts⟩ :=
    copied.sound.load quiet loaded orderly contained clean keyboards.keyboardAt
  rcases ends with ⟨failed, rfl⟩ | ⟨finished, entered, rfl, rfl⟩
  · have whole := copied.trans (stops failed)
    exact ⟨whole.follows, whole.current⟩
  · obtain ⟨follows, new, cs, ss⟩ := starts finished
    obtain ⟨directory, has⟩ := follows.sound.directory
    refine ⟨copied.follows.trans (follows.trans (Continues.follows ?_)),
      copied.leaves ⟨⟨new.process, new.chunk⟩, ⟨?_, directory, has, ?_⟩, rfl, cs, ss⟩⟩
    · exact follows.sound.alike ⟨rfl, rfl, rfl, rfl, rfl⟩
    · exact congrArg (fun ss : Word => ss.setWidth 16) ss
    · exact has.root

theorem run {site : CallSite} {func : Syscall} {called : Resumption × System}
    (permitted : func.Permitted system site) (ran : func.run system site = some called) :
    system.Follows called.2 ∧ system.Leaves called.1 called.2 := by
  have returns : ∀ {call : Option (Word × System)},
      (∀ {result : Word × System}, call = some result → system.Continues result.2) →
      call.map Resumption.ofReturn = some called →
      system.Follows called.2 ∧ system.Leaves called.1 called.2 := by
    intro call continues mapped
    obtain ⟨result, same, rfl⟩ := Option.map_eq_some_iff.mp mapped
    exact ⟨(continues same).follows, (continues same).current⟩
  cases func with
  | syscall0Sum => exact returns sound.syscall0Sum ran
  | syscall1Print => exact returns (sound.syscall1Print permitted) ran
  | syscall2Getkey =>
      cases ran
      exact ⟨sound.syscall2Getkey.follows, sound.syscall2Getkey.current⟩
  | syscall3Putchar => exact returns sound.syscall3Putchar ran
  | syscall4Malloc => exact returns (fun found => sound.syscall4Malloc found permitted) ran
  | syscall5Free => exact returns sound.syscall5Free ran
  | syscall6ProcessLoadStart => exact sound.syscall6ProcessLoadStart permitted ran
  | syscall7GetPaddr => exact returns sound.syscall7GetPaddr ran
  | syscall8GetFlags => exact returns sound.syscall8GetFlags ran

theorem isr80hHandleCommand {command : Word} {site : CallSite} {called : Resumption × System}
    (permitted : ∀ func, system.syscalls command.toInt.toNat = some func →
      func.Permitted system site)
    (ran : system.isr80hHandleCommand command site = some called) :
    system.Follows called.2 ∧ system.Leaves called.1 called.2 := by
  rcases isr80hHandleCommand_cases ran with rfl | ⟨_, func, registered, ran⟩
  · have none := Continues.refl sound
    exact ⟨none.follows, none.current⟩
  · exact sound.run (permitted func registered) ran

theorem taskPage {next : System} (paged : system.taskPage = some next) :
    system.Continues next ∧ next.Loads := by
  obtain ⟨alike, segments, directory⟩ := taskPage_alike paged
  obtain ⟨own, has⟩ := sound.directory
  refine ⟨sound.alike alike, segments, own, ?_, directory.trans has.root⟩
  unfold currentRecord taskCurrent System.machine
  rw [alike.kernel]
  exact has

theorem taskPage_some : ∃ next, system.taskPage = some next :=
  ⟨_, if_neg (sound.accounts.paging.sound.ne_null sound.running.currentTask)⟩

theorem taskCurrentSaveState_some (frame : InterruptFrame) :
    ∃ next, system.taskCurrentSaveState frame = some next :=
  ⟨_, if_neg (sound.accounts.paging.sound.ne_null sound.running.currentTask)⟩

theorem ps2KeyboardHandleInterrupt (key : KeyPress) :
    ∃ next, system.ps2KeyboardHandleInterrupt key = some next ∧ system.Continues next := by
  have entered := sound.alike system.kernelPage_alike
  unfold System.ps2KeyboardHandleInterrupt
  dsimp only
  split
  · exact ⟨_, rfl, entered⟩
  · generalize ps2KeyboardScancodeToChar key.behind key.scanCode = character
    have pushed : system.kernelPage.Alike (if character = 0 then system.kernelPage else
        { system.kernelPage with
          keyboards := system.kernelPage.keyboards.keyboardPush character }) := by
      split
      · exact ⟨rfl, rfl, rfl, rfl, rfl⟩
      · refine ⟨?_, rfl, rfl, rfl, rfl⟩
        change (Keyboards.keyboardPush _ _).kernel = _
        unfold Keyboards.keyboardPush
        dsimp only
        split <;> rfl
    have typed := entered.sound.alike pushed
    obtain ⟨next, paged⟩ := typed.sound.taskPage_some
    exact ⟨next, paged, (entered.trans typed).trans (typed.sound.taskPage paged).1⟩

end Sound

/-- What a system call may ask for. Interrupts come in as they like, and a program stores what it
likes. -/
def Legal (system : System) : Event → Prop
  | .entry (.systemCall command frame site) => ∀ entered,
      system.kernelPage.taskCurrentSaveState frame = some entered →
      ∀ func, entered.syscalls command.toInt.toNat = some func → func.Permitted entered site
  | _ => True

/-- The kernel has one current program, which is confined and for which everything is loaded. -/
structure Serves (system : System) : Prop extends system.Sound, system.Loads where
  confined : system.OwnConfined

/-- An interrupt is handled, a system call that is ends in its caller or in a new program, and a
store stays in the program. -/
def Handles (system : System) : Event → Prop
  | .entry entry =>
      match system.handle entry with
      | none => ∃ command frame site, entry = .systemCall command frame site
      | some (resumption, next) => system.Leaves resumption next
  | .store v value => system.SameCurrent (system.step (.store v value))

section Handle

variable {system : System} (sound : system.Sound)

include sound

theorem Sound.isr80hHandler {command : Word} {frame : InterruptFrame} {site : CallSite}
    {resumption : Resumption} {next : System}
    (legal : system.Legal (.entry (.systemCall command frame site)))
    (handled : system.isr80hHandler command frame site = some (resumption, next)) :
    system.Follows next ∧ next.Loads ∧ system.Leaves resumption next := by
  obtain ⟨saved, save, ends⟩ := isr80hHandler_cases handled
  have paged := sound.alike system.kernelPage_alike
  have entered := paged.trans (paged.sound.taskCurrentSaveState save)
  rcases ends with ⟨ret, called, call, leave, rfl⟩ | ⟨registers, call, rfl⟩
  · obtain ⟨follows, leaves⟩ := entered.sound.isr80hHandleCommand (legal saved save) call
    have whole := entered.follows.trans follows
    obtain ⟨last, loads⟩ := whole.sound.taskPage leave
    have caller := entered.leaves leaves
    exact ⟨whole.trans last.follows, loads, caller.trans last.current⟩
  · obtain ⟨follows, leaves⟩ := entered.sound.isr80hHandleCommand (legal saved save) call
    exact ⟨entered.follows.trans follows, leaves.2.toLoads, entered.leaves leaves⟩

/-- An interrupt goes on with the program it came in. -/
theorem Sound.interruptHandler (number : ℕ) (frame : InterruptFrame) (key : KeyPress) :
    ∃ next, system.interruptHandler number frame key = some next ∧ system.Continues next ∧
      next.Loads := by
  have paged := sound.alike system.kernelPage_alike
  have ends : ∀ {middle : System}, system.Continues middle →
      ∃ next, middle.taskPage = some next ∧ system.Continues next ∧ next.Loads := by
    intro middle continues
    obtain ⟨next, left⟩ := continues.sound.taskPage_some
    obtain ⟨last, loads⟩ := continues.sound.taskPage left
    exact ⟨next, left, continues.trans last, loads⟩
  unfold System.interruptHandler
  dsimp only
  split
  · exact ends paged
  · obtain ⟨saved, save⟩ := paged.sound.taskCurrentSaveState_some frame
    have entered := paged.trans (paged.sound.taskCurrentSaveState save)
    obtain ⟨typed, handled, continues⟩ := entered.sound.ps2KeyboardHandleInterrupt key
    rw [save, Option.bind_eq_bind, Option.bind_some, handled, Option.bind_some]
    exact ends (entered.trans continues)

/-- The kernel from its entry to its exit. -/
theorem Sound.handle {entry : Entry} (legal : system.Legal (.entry entry)) :
    system.Handles (.entry entry) ∧ ∀ resumption next,
      system.handle entry = some (resumption, next) → system.Follows next ∧ next.Loads := by
  unfold Handles
  dsimp only
  cases entry with
  | systemCall command frame site =>
      cases handled : system.handle (.systemCall command frame site) with
      | none => exact ⟨⟨command, frame, site, rfl⟩, nofun⟩
      | some result =>
          obtain ⟨resumption, next⟩ := result
          obtain ⟨follows, loads, leaves⟩ := sound.isr80hHandler legal handled
          refine ⟨leaves, fun _ _ same => ?_⟩
          cases same
          exact ⟨follows, loads⟩
  | interrupt interrupt frame key =>
      obtain ⟨next, handled, continues, loads⟩ :=
        sound.interruptHandler interrupt.number.toNat frame key
      have handled : system.handle (.interrupt interrupt frame key) =
          some (.caller frame.eax, next) := by
        unfold System.handle
        dsimp only
        rw [handled, Option.bind_eq_bind, Option.bind_some]
      rw [handled]
      refine ⟨continues.current, fun _ _ same => ?_⟩
      cases same
      exact ⟨continues.follows, loads⟩

/-- A store of the current program, where it is confined. -/
theorem Sound.store (loads : system.Loads) (confined : system.OwnConfined) (v : Word)
    (value : Byte) : system.Continues (system.step (.store v value)) ∧
      (system.step (.store v value)).Loads := by
  obtain ⟨directory, has, loaded⟩ := loads.directory
  unfold System.step System.store
  dsimp only
  rw [loaded]
  cases walked : userWalk directory.base system.machine.memory v with
  | none => exact ⟨.refl sound, loads⟩
  | some x =>
      have same := confined.store sound.accounts.paging (sound.chunk ▸ has) value walked
      exact ⟨sound.machine same rfl ⟨rfl, rfl, rfl, rfl⟩, loads.segments, directory,
        (same.chunks has).1, loaded⟩

end Handle

section Run

variable {system : System} (serves : system.Serves)

include serves

theorem Serves.step {event : Event} (legal : system.Legal event) :
    (system.step event).Serves ∧ system.Follows (system.step event) ∧ system.Handles event := by
  cases event with
  | store v value =>
      obtain ⟨continues, loads⟩ := serves.toSound.store serves.toLoads serves.confined v value
      have follows := continues.follows
      exact ⟨⟨follows.sound, loads, follows.own serves.confined⟩, follows, continues.current⟩
  | entry entry =>
      obtain ⟨handles, leads⟩ := serves.toSound.handle legal
      refine (and_assoc.mp ⟨?_, handles⟩)
      unfold System.step
      dsimp only
      cases handled : system.handle entry with
      | none => exact ⟨serves, (Continues.refl serves.toSound).follows⟩
      | some result =>
          obtain ⟨resumption, next⟩ := result
          obtain ⟨follows, loads⟩ := leads _ _ handled
          exact ⟨⟨follows.sound, loads, follows.own serves.confined⟩, follows⟩

theorem Serves.exec {events : List Event} (legal : Along System.step Legal system events) :
    (Traces.exec System.step system events).Serves ∧
      system.Follows (Traces.exec System.step system events) := by
  induction events generalizing system with
  | nil => exact ⟨serves, (Continues.refl serves.toSound).follows⟩
  | cons event events ih =>
      obtain ⟨after, follows, _⟩ := serves.step legal.1
      obtain ⟨last, rest⟩ := ih after legal.2
      exact ⟨last, follows.trans rest⟩

end Run

/-! The start. -/

/-- The requests to the heap are harmless up to the first program, and its file keeps its segments
inside of its image. -/
structure StartsOrderly (memory : ByteMemory) (calls : List KernelCall) (answers : LoadAnswers) :
    Prop where
  requests : (Machine.booted (Terminal.mk memory null 0 0).terminalInit.memory).Permits
    Request.Harmless
    ((Machine.booted (Terminal.mk memory null 0 0).terminalInit.memory).kernelCalls calls)
  quiet : answers.elf.readCalls = [] ∧ answers.binary.readCalls = []
  load : ∀ system ret stored kernel, started memory calls = some system →
    system.kernel.processLoadSwitch answers = some (ret, stored, kernel) →
    system.machine.Permits Request.Harmless kernel.machine
  contained : ∀ system, started memory calls = some system → system.kernel.Contained answers

theorem started_sound {memory : ByteMemory} {calls : List KernelCall} {system : System}
    (orderly : (Machine.booted (Terminal.mk memory null 0 0).terminalInit.memory).Permits
      Request.Harmless
      ((Machine.booted (Terminal.mk memory null 0 0).terminalInit.memory).kernelCalls calls))
    (starts : started memory calls = some system) :
    (system.machine.PagingSound ∧ system.kernel.Idle ∧ system.videoMem = vgaAddress ∧
      ∃ directory, system.machine.HasChunk system.kchunk directory ∧
        directory.space system.machine.memory = AddressSpace.identity (flagWord kernelFlags)) ∧
    system.syscalls = (fun _ => none) ∧ system.interruptCallbacks = fun _ => none := by
  have screen := (Terminal.terminalInit_cleared ⟨memory, null, 0, 0⟩).videoMem
  unfold started at starts
  dsimp only at starts
  generalize (Terminal.mk memory null 0 0).terminalInit = terminal at orderly starts screen
  have paging := ((Machine.kernelCalls_keeps _ calls).apply orderly
    (Machine.booted_pagingSound _)).paging
  have same : ((Kernel.booted terminal.memory).kernelCalls calls).machine =
    (Machine.booted terminal.memory).kernelCalls calls := rfl
  have idle : ((Kernel.booted terminal.memory).kernelCalls calls).Idle := ⟨rfl, rfl, rfl, rfl⟩
  rw [← same] at paging
  generalize (Kernel.booted terminal.memory).kernelCalls calls = kernel at starts paging idle
  rw [Option.bind_eq_bind, Option.bind_eq_some_iff] at starts
  obtain ⟨⟨kchunk, machine⟩, made, rest⟩ := starts
  cases rest
  obtain ⟨directory, new⟩ := paging.sound.pagingNewChunk made
  exact ⟨⟨paging.newChunk new, ⟨idle.head, idle.tail, idle.currentTask, idle.currentProcess⟩,
    screen, directory, new.has, new.space⟩, rfl, rfl⟩

/-- The table with its first `n` commands. -/
def commandsBelow (n command : ℕ) : Option Syscall :=
  if command < n then syscallTable command else none

theorem syscallRegister_next (system : System) (commandId : Int) (n : ℕ) {func : Syscall}
    (number : commandId = n) (inside : n < 9) (named : syscallTable n = some func)
    (before : system.syscalls = commandsBelow n) :
    system.syscallRegister commandId func =
      some { system with syscalls := commandsBelow (n + 1) } := by
  subst number
  have free : system.syscalls n = none := by
    rw [before]
    exact if_neg (lt_irrefl n)
  have filled : Function.update system.syscalls n (some func) = commandsBelow (n + 1) := by
    funext command
    rw [before]
    unfold commandsBelow
    by_cases here : command = n
    · rw [here, Function.update_self, if_pos (Nat.lt_succ_self n), named]
    · rw [Function.update_of_ne here]
      exact if_congr (by omega) rfl rfl
  unfold syscallRegister
  rw [if_neg (by change ¬ ((n : Int) < 0 ∨ 1024 ≤ (n : Int)); omega), Int.toNat_natCast, free,
    filled]
  rfl

/-- The commands are registered in their order, and none of them twice. -/
theorem isr80hRegisterCommands_eq (system : System) (empty : system.syscalls = fun _ => none) :
    system.isr80hRegisterCommands = some { system with syscalls := syscallTable } := by
  have start : system.syscalls = commandsBelow 0 := by
    rw [empty]
    rfl
  have all : commandsBelow 9 = syscallTable := by
    funext command
    unfold commandsBelow
    split
    · rfl
    · rename_i beyond
      exact (List.getElem?_eq_none (not_lt.mp beyond)).symm
  unfold isr80hRegisterCommands
  rw [← all, syscallRegister_next system 0 0 rfl (by decide) rfl start]
  simp only [Option.bind_eq_bind, Option.bind_some]
  rw [syscallRegister_next _ 1 1 rfl (by decide) rfl rfl, Option.bind_some,
    syscallRegister_next _ 2 2 rfl (by decide) rfl rfl, Option.bind_some,
    syscallRegister_next _ 3 3 rfl (by decide) rfl rfl, Option.bind_some,
    syscallRegister_next _ 4 4 rfl (by decide) rfl rfl, Option.bind_some,
    syscallRegister_next _ 5 5 rfl (by decide) rfl rfl, Option.bind_some,
    syscallRegister_next _ 6 6 rfl (by decide) rfl rfl, Option.bind_some,
    syscallRegister_next _ 7 7 rfl (by decide) rfl rfl, Option.bind_some,
    syscallRegister_next _ 8 8 rfl (by decide) rfl rfl]

theorem keyboardInit_eq (system : System) (empty : system.interruptCallbacks = fun _ => none) :
    system.keyboardInit = { system with interruptCallbacks := callbackTable } := by
  have table : Function.update (fun _ => none) isrKeyboardInterrupt.toNat
      (some InterruptCb.ps2KeyboardHandleInterrupt) = callbackTable := by
    funext interrupt
    exact Function.update_apply ..
  unfold keyboardInit idtRegisterIntrCb
  rw [if_neg (by decide), empty, table]

/-- The kernel starts, loads its first program and enters it. -/
theorem kernelMain_cases {memory : ByteMemory} {calls : List KernelCall} {answers : LoadAnswers}
    {resumption : Resumption} {system : System} (orderly : StartsOrderly memory calls answers)
    (main : kernelMain memory calls answers = some (resumption, system)) :
    ∃ first status keyboards, started memory calls = some first ∧
      first.keyboards.processLoadSwitch answers = some (status, keyboards) ∧ ¬ status < 0 ∧
      ∃ entered : System, entered = { first with
          syscalls := syscallTable, interruptCallbacks := callbackTable, keyboards } ∧
        entered.taskCurrent ≠ null ∧
        (resumption, system) = (entered.taskSwitch keyboards.kernel.taskHead).taskReturn
          (keyboards.kernel.taskAt keyboards.kernel.taskHead).registers := by
  unfold kernelMain at main
  rw [Option.bind_eq_bind, Option.bind_eq_some_iff] at main
  obtain ⟨first, starts, rest⟩ := main
  rw [Option.bind_eq_bind, Option.bind_eq_some_iff] at rest
  obtain ⟨commanded, registered, rest⟩ := rest
  obtain ⟨_, noSyscalls, noCallbacks⟩ := started_sound orderly.requests starts
  rw [isr80hRegisterCommands_eq first noSyscalls] at registered
  cases registered
  dsimp only at rest
  rw [keyboardInit_eq { first with syscalls := syscallTable } noCallbacks] at rest
  rw [Option.bind_eq_some_iff] at rest
  obtain ⟨⟨status, keyboards⟩, switched, rest⟩ := rest
  refine ⟨first, status, keyboards, starts, switched, ?_⟩
  dsimp only at rest
  split at rest
  · cases rest
  rename_i finished
  unfold taskRunFirstTask at rest
  split at rest
  · cases rest
  · rename_i current
    exact ⟨finished, _, rfl, current, (Option.some.inj rest).symm⟩

/-- The first program is current when `kernel_main` ends. -/
theorem kernelMain_serves {memory : ByteMemory} {calls : List KernelCall} {answers : LoadAnswers}
    {resumption : Resumption} {system : System} (orderly : StartsOrderly memory calls answers)
    (main : kernelMain memory calls answers = some (resumption, system)) :
    system.Serves ∧ ∃ registers, resumption = .task registers ∧ system.Enters registers := by
  obtain ⟨first, status, keyboards, starts, switched, finished, _, rfl, _, ends⟩ :=
    kernelMain_cases orderly main
  cases ends
  obtain ⟨stored, loaded⟩ := Keyboards.processLoadSwitch_kernel switched
  obtain ⟨⟨paging, idle, screen, directory, has, identity⟩, _⟩ :=
    started_sound orderly.requests starts
  obtain ⟨spares, sound, _, _, begin⟩ := Kernel.processLoadSwitch_programs paging (.inl idle)
    orderly.quiet (orderly.load _ _ _ _ starts loaded) (fun failed => absurd failed finished) loaded
  obtain ⟨_, begins, running, head⟩ := begin finished
  have head := head idle
  obtain ⟨own, hasOwn⟩ := sound.directory (begins.accounts.chunk _ rfl)
  have chunk : keyboards.kernel.chunkOf keyboards.kernel.currentProcess =
      (keyboards.kernel.taskAt keyboards.kernel.taskHead).pageDirectory := by
    unfold Kernel.chunkOf
    rw [head]
  obtain ⟨there, same⟩ := spares.spaces has
  have user := begins.user
  rw [← head] at running user
  have loads : Loads ((({ first with
      syscalls := syscallTable, interruptCallbacks := callbackTable, keyboards } :
        System).taskSwitch keyboards.kernel.taskHead).taskReturn
          (keyboards.kernel.taskAt keyboards.kernel.taskHead).registers).2 :=
    ⟨congrArg (fun ss : Word => ss.setWidth 16) user.2, own, chunk ▸ hasOwn,
      (congrArg keyboards.kernel.machine.memory.load32 chunk.symm).trans hasOwn.root⟩
  refine ⟨⟨⟨⟨begins.accounts.paging, begins.accounts.chunk, begins.accounts.recorded,
    begins.accounts.distinct⟩, running, head.symm, screen, ⟨directory, there,
      same.trans identity⟩, fun shared => ?_, rfl, rfl⟩, loads, ?_⟩, _, rfl, loads, rfl,
    user.1, user.2⟩
  · have shared : first.kchunk = keyboards.kernel.chunkOf keyboards.kernel.currentProcess := shared
    exact Owner.noConfusion (begins.freshChunk _ (shared ▸ has.held))
  · exact (Kernel.processLoadSwitch_confined paging orderly.quiet (orderly.contained first starts)
      (orderly.load _ _ _ _ starts loaded) loaded finished).2

end System

end Phix
