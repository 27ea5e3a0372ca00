import Phix.Memory.PagingSystem
import Phix.Task.Process

/-! # Adding a task

`task_new` allocates a task and gives it a new chunk, in which every page is the identity and
open to the user. `Phix.Kernel.NewTask` says what it adds, and that it leaves every other
task's directory and every process alone; a negative status means that the heap refused the
task.
-/

namespace Phix

namespace Kernel

/-- A task for a process has been added, with a chunk of its own. -/
structure NewTask (kernel : Kernel) (process task : Word) (directory : PageDirectory)
    (next : Kernel) : Prop where
  fresh : kernel.machine.live task = none
  held : next.machine.live task = some ⟨sizeofTask, .task⟩
  grown : kernel.machine.Grown next.machine
  paging : next.machine.PagingSound
  freshChunk : kernel.machine.live (next.taskAt task).pageDirectory = none
  has : next.machine.HasChunk (next.taskAt task).pageDirectory directory
  space : directory.space next.machine.memory = AddressSpace.identity 5
  origin : ∀ p allocation, next.machine.live p = some allocation →
    kernel.machine.live p = some allocation ∨ allocation.owner = .task ∨ allocation.owner.IsPaging
  owner : (next.taskAt task).process = process
  others : ∀ u ≠ task, (next.taskAt u).pageDirectory = (kernel.taskAt u).pageDirectory
  processAt : next.processAt = kernel.processAt
  elfFileAt : next.elfFileAt = kernel.elfFileAt
  processes : next.processes = kernel.processes

theorem NewTask.task_ne_null {kernel next : Kernel} {process task : Word}
    {directory : PageDirectory} (new : kernel.NewTask process task directory next) :
    task.toInt = task.toNat ∧ task ≠ null := by
  obtain ⟨s, inside, rfl, _⟩ := new.paging.sound.pointer new.held
  have address := poolBlock_toNat inside
  refine ⟨?_, poolBlock_ne_null inside⟩
  rw [BitVec.toInt_eq_toNat_of_lt (by omega)]

/-- The task list is of no account to the directories. -/
theorem NewTask.congr {kernel next other : Kernel} {process task : Word}
    {directory : PageDirectory} (new : kernel.NewTask process task directory next)
    (machine : other.machine = next.machine)
    (tasks : ∀ u, (other.taskAt u).pageDirectory = (next.taskAt u).pageDirectory ∧
      (other.taskAt u).process = (next.taskAt u).process)
    (processAt : other.processAt = next.processAt) (elfFileAt : other.elfFileAt = next.elfFileAt)
    (processes : other.processes = next.processes) :
    kernel.NewTask process task directory other where
  fresh := new.fresh
  held := machine ▸ new.held
  grown := machine ▸ new.grown
  paging := machine ▸ new.paging
  freshChunk := by rw [(tasks task).1]; exact new.freshChunk
  has := by rw [machine, (tasks task).1]; exact new.has
  space := machine ▸ new.space
  origin := machine ▸ new.origin
  owner := (tasks task).2.trans new.owner
  others u different := (tasks u).1.trans (new.others u different)
  processAt := processAt.trans new.processAt
  elfFileAt := elfFileAt.trans new.elfFileAt
  processes := processes.trans new.processes

/-- A change of a task's links. -/
theorem setTask_links (kernel : Kernel) (t : Word) (task : Task)
    (kept : task.pageDirectory = (kernel.taskAt t).pageDirectory ∧
      task.process = (kernel.taskAt t).process) (u : Word) :
    ((kernel.setTask t task).taskAt u).pageDirectory = (kernel.taskAt u).pageDirectory ∧
      ((kernel.setTask t task).taskAt u).process = (kernel.taskAt u).process := by
  unfold setTask
  dsimp only
  by_cases here : u = t
  · rw [here, Function.update_self]
    exact kept
  · rw [Function.update_of_ne here]
    exact ⟨rfl, rfl⟩

section New

variable {kernel : Kernel} (paging : kernel.machine.PagingSound) (process : Word)

include paging

/-- `task_init` on a task that has just been allocated. -/
theorem taskInit_newTask {task : Word} {middle next : Kernel} {ret : Int}
    (cleared : kernel.machine.Cleared .task sizeofTask task middle.machine)
    (same : middle = { kernel with machine := middle.machine })
    (made : middle.taskInit task process = some (ret, next)) :
    ret = 0 ∧ ∃ directory, kernel.NewTask process task directory next := by
  have middlePaging := paging.cleared cleared id
  unfold taskInit at made
  rcases allocated : middle.machine.pagingNewChunk (pagingIsPresent ||| pagingAccessFromAll) with
    _ | ⟨chunk, machine⟩
  · simp [setTask, allocated] at made
  obtain ⟨directory, new⟩ := middlePaging.sound.pagingNewChunk allocated
  have nonNull := new.grown.sound.ne_null new.has.held
  simp only [setTask, allocated, Option.bind_eq_bind, Option.bind_some, nonNull, if_false,
    Option.some_inj, Prod.mk.injEq] at made
  obtain ⟨rfl, rfl⟩ := made
  have older : kernel.machine.live chunk = none := by
    by_contra held
    obtain ⟨allocation, owns⟩ := Option.ne_none_iff_exists'.mp held
    have later := cleared.grown.kept chunk allocation owns
    rw [new.fresh] at later
    cases later
  have tasks : middle.taskAt = kernel.taskAt := by rw [same]
  refine ⟨rfl, directory, {
    fresh := cleared.fresh
    held := new.grown.kept _ _ cleared.held
    grown := cleared.grown.trans new.grown
    paging := middlePaging.newChunk new
    freshChunk := by simp only [Function.update_self]; exact older
    has := by simp only [Function.update_self]; exact new.has
    space := new.space
    origin := fun p allocation present => ?_
    owner := by simp only [Function.update_self]
    others := fun u different => by simp only [Function.update_of_ne different, tasks]
    processAt := by rw [same]
    elfFileAt := by rw [same]
    processes := by rw [same] }⟩
  rcases new.origin p allocation present with before | rfl | directoryOwner | ⟨j, tableOwner⟩
  · rw [cleared.live] at before
    by_cases here : p = task
    · rw [here, Function.update_self] at before
      cases before
      exact .inr (.inl rfl)
    · rw [Function.update_of_ne here] at before
      exact .inl before
  · rw [new.has.held] at present
    cases present
    exact .inr (.inr trivial)
  · exact .inr (.inr (by rw [directoryOwner]; trivial))
  · exact .inr (.inr (by rw [tableOwner]; trivial))

/-- `task_new` adds a task, unless the heap refuses it. -/
theorem taskNew_newTask {task : Word} {next : Kernel}
    (made : kernel.taskNew process = some (task, next)) :
    task = BitVec.ofInt 32 (-ENOMEM) ∧ (kernel.machine.kzalloc .task sizeofTask).1 = null ∧
        next = (kernel.kzalloc .task sizeofTask).2 ∨
      ∃ directory, kernel.NewTask process task directory next := by
  have pointer : (kernel.kzalloc .task sizeofTask).1 =
      (kernel.machine.kzalloc .task sizeofTask).1 := rfl
  unfold taskNew at made
  by_cases found : (kernel.machine.kzalloc .task sizeofTask).1 = null
  · simp only [pointer, found, if_true, Option.some_inj, Prod.mk.injEq] at made
    exact .inl ⟨made.1.symm, found, made.2.symm⟩
  have cleared := paging.sound.kzalloc .task (by decide : Proper sizeofTask) found
  rcases started : (kernel.kzalloc .task sizeofTask).2.taskInit
      (kernel.machine.kzalloc .task sizeofTask).1 process with _ | ⟨ret, middle⟩
  · simp [pointer, found, started] at made
  obtain ⟨rfl, directory, new⟩ := taskInit_newTask paging process cleared rfl started
  simp only [pointer, found, started, Option.bind_eq_bind, Option.bind_some, lt_irrefl,
    if_false] at made
  refine .inr ⟨directory, ?_⟩
  generalize (kernel.machine.kzalloc .task sizeofTask).1 = added at made new
  split at made
  · cases made
    exact new.congr rfl (fun _ => ⟨rfl, rfl⟩) rfl rfl rfl
  · cases made
    refine new.congr rfl (fun u => ?_) rfl rfl rfl
    have tail := middle.setTask_links middle.taskTail
      { middle.taskAt middle.taskTail with next := task } ⟨rfl, rfl⟩ u
    have linked := setTask_links
      (middle.setTask middle.taskTail { middle.taskAt middle.taskTail with next := task }) task
      { (middle.setTask middle.taskTail
          { middle.taskAt middle.taskTail with next := task }).taskAt task with
        prev := middle.taskTail } ⟨rfl, rfl⟩ u
    exact ⟨linked.1.trans tail.1, linked.2.trans tail.2⟩

/-- `task_new` succeeds while 1027 blocks are free at the end of the pool. -/
theorem taskNew_some {k : ℕ} (free : kernel.machine.FreeFrom k) (room : k + 1027 ≤ 25600) :
    ∃ task next directory, kernel.taskNew process = some (task, next) ∧
      kernel.NewTask process task directory next ∧ kernel.machine.Takes next.machine 1027 := by
  have proper : Proper sizeofTask := by decide
  have single : blockCount sizeofTask = 1 := by decide
  obtain ⟨found, taken⟩ := paging.sound.kzalloc_takes .task proper ⟨k, free.freeRun (by omega)⟩
  have free := taken.freeFrom k free (by omega)
  have cleared := paging.sound.kzalloc .task proper found
  have enough := free.card
  rw [single] at taken enough
  obtain ⟨chunk, machine, allocated, takes⟩ := cleared.sound.pagingNewChunk_some
    (pagingIsPresent ||| pagingAccessFromAll) (by omega)
  obtain ⟨directory, new⟩ := cleared.sound.pagingNewChunk allocated
  have nonNull := new.grown.sound.ne_null new.has.held
  have started : ∃ middle, (kernel.kzalloc .task sizeofTask).2.taskInit
      (kernel.machine.kzalloc .task sizeofTask).1 process = some (0, middle) ∧
        middle.machine = machine := by
    have allocated : ((kernel.kzalloc .task sizeofTask).2.setTask
        (kernel.machine.kzalloc .task sizeofTask).1 Task.zero).machine.pagingNewChunk
        (pagingIsPresent ||| pagingAccessFromAll) = some (chunk, machine) := allocated
    unfold taskInit
    simp only [allocated, nonNull, Option.bind_eq_bind, Option.bind_some, if_false]
    exact ⟨_, rfl, rfl⟩
  obtain ⟨middle, started, rfl⟩ := started
  have made : ∃ next, kernel.taskNew process =
      some ((kernel.machine.kzalloc .task sizeofTask).1, next) ∧ next.machine = middle.machine := by
    have pointer : (kernel.kzalloc .task sizeofTask).1 =
        (kernel.machine.kzalloc .task sizeofTask).1 := rfl
    unfold taskNew
    simp only [pointer, found, started, Option.bind_eq_bind, Option.bind_some, lt_irrefl, if_false]
    split
    · exact ⟨_, rfl, rfl⟩
    · exact ⟨_, rfl, rfl⟩
  obtain ⟨next, made, same⟩ := made
  rcases taskNew_newTask paging process made with ⟨_, refused, _⟩ | ⟨directory, new⟩
  · exact absurd refused found
  · refine ⟨_, next, directory, made, new, ?_⟩
    rw [same]
    exact taken.trans takes

end New

/-! A process whose program has been loaded. -/

/-- A process before its memory is mapped: its task has a new directory, its stack is
allocated, and an image with the given contents is recorded in an ELF file. -/
structure Loaded (kernel : Kernel) (process file image size : Word) (content : ℕ → Byte)
    (directory : PageDirectory) : Prop where
  paging : kernel.machine.PagingSound
  has : kernel.machine.HasChunk (kernel.chunkOf process) directory
  space : directory.space kernel.machine.memory = AddressSpace.identity 5
  held : kernel.machine.live image = some ⟨size, .image process⟩
  content : ∀ x : Word, (x - image).toNat < size.toNat →
    kernel.machine.memory x = content (x - image).toNat
  file : (kernel.elfFileAt file).elfMemory = image
  stack : kernel.machine.live (kernel.processAt process).stack =
    some ⟨phixUserProgramStackSize, .stack process⟩
  allocations : ∀ i, ((kernel.processAt process).allocations i).p = null

/-- The program can still be recorded in the process. -/
theorem Loaded.setProgram {kernel : Kernel} {process file image size : Word} {content : ℕ → Byte}
    {directory : PageDirectory} (loaded : kernel.Loaded process file image size content directory)
    (filetype : Byte) (p programSize : Word) :
    ∃ next : Kernel, next.Loaded process file image size content directory ∧
      (next.processAt process).filetype = filetype ∧ (next.processAt process).p = p ∧
      (next.processAt process).size = programSize := by
  have record : (kernel.setProcess process { kernel.processAt process with
      filetype, p, size := programSize }).processAt process =
      { kernel.processAt process with filetype, p, size := programSize } := Function.update_self ..
  refine ⟨kernel.setProcess process { kernel.processAt process with
    filetype, p, size := programSize }, {
      paging := loaded.paging
      has := ?_
      space := loaded.space
      held := loaded.held
      content := loaded.content
      file := loaded.file
      stack := ?_
      allocations := fun i => ?_ }, by rw [record], by rw [record], by rw [record]⟩
  · unfold chunkOf
    rw [record]
    exact loaded.has
  · rw [record]
    exact loaded.stack
  · rw [record]
    exact loaded.allocations i

/-- Such a process can be made while the end of the pool is free. -/
theorem loaded_some (kernel : Kernel) (paging : kernel.machine.PagingSound) {k : ℕ}
    (free : kernel.machine.FreeFrom k) {size : Word} (proper : Proper size)
    (room : k + blockCount size + 1035 ≤ 25600) (content : ℕ → Byte) :
    ∃ (next : Kernel) (process file image : Word) (directory : PageDirectory),
      next.Loaded process file image size content directory ∧
        next.machine.FreeFrom (k + blockCount size + 1035) := by
  have smallBlocks : blockCount sizeofProcess = 3 ∧ blockCount sizeofElfFile = 1 ∧
      blockCount phixUserProgramStackSize = 4 := by decide
  have properSizes : Proper sizeofProcess ∧ Proper sizeofElfFile ∧
      Proper phixUserProgramStackSize := by decide
  -- The record of the process.
  obtain ⟨found, free⟩ := paging.sound.kzalloc_freeFrom .process properSizes.1 free (by omega)
  have cleared := paging.sound.kzalloc .process properSizes.1 found
  have paging := paging.cleared cleared id
  generalize (kernel.machine.kzalloc .process sizeofProcess).1 = process at cleared
  generalize (kernel.machine.kzalloc .process sizeofProcess).2 = machine at cleared free paging
  -- The record of the file.
  obtain ⟨found, free⟩ := paging.sound.kzalloc_freeFrom .elfFile properSizes.2.1 free (by omega)
  have cleared := paging.sound.kzalloc .elfFile properSizes.2.1 found
  have paging := paging.cleared cleared id
  generalize (machine.kzalloc .elfFile sizeofElfFile).1 = file at cleared
  generalize (machine.kzalloc .elfFile sizeofElfFile).2 = machine at cleared free paging
  -- The image.
  obtain ⟨found, free⟩ := paging.sound.kzalloc_freeFrom (.image process) proper free (by omega)
  have cleared := paging.sound.kzalloc (.image process) proper found
  have paging := paging.cleared cleared id
  generalize (machine.kzalloc (.image process) size).1 = image at cleared
  generalize (machine.kzalloc (.image process) size).2 = machine at cleared free paging
  have fill : ∀ x : Word, machine.memory.write image content size.toNat x =
      if (x - image).toNat < size.toNat then content (x - image).toNat else machine.memory x :=
    machine.memory.write_apply image content size.isLt.le
  have outside : ∀ x : Word, ¬ (x - image).toNat < size.toNat →
      machine.memory.write image content size.toNat x = machine.memory x :=
    fun x far => (fill x).trans (if_neg far)
  have held := cleared.held
  have low := fun x below => Machine.PagingSound.fill_low (x := x) held outside paging.sound below
  have paging := paging.fill held id outside
  have free : ({ machine with memory := machine.memory.write image content size.toNat } :
      Machine).FreeFrom (k + 4 + blockCount size) := by
    intro i above inside
    rw [machine.freeBlocks_congr fun x below => low x below]
    exact free i (by omega) inside
  generalize machine.memory.write image content size.toNat = memory at fill paging free
  -- The stack.
  obtain ⟨found, free⟩ := paging.sound.kzalloc_freeFrom (.stack process) properSizes.2.2 free
    (by omega)
  have stack := paging.sound.kzalloc (.stack process) properSizes.2.2 found
  have paging := paging.cleared stack id
  generalize (({ machine with memory } : Machine).kzalloc (.stack process)
    phixUserProgramStackSize).1 = programSp at stack
  generalize (({ machine with memory } : Machine).kzalloc (.stack process)
    phixUserProgramStackSize).2 = last at stack free paging
  -- The task.
  have paging : ((({ kernel with machine := last } : Kernel).setElfFile file
      { ElfFile.zero with elfMemory := image }).setProcess process
      { Process.zero with stack := programSp }).machine.PagingSound := paging
  obtain ⟨task, next, directory, _, new, takes⟩ := taskNew_some paging process free (by omega)
  have free := takes.freeFrom _ free (by omega)
  have kept := new.grown.kept image _ (stack.grown.kept image _ held)
  have record : next.processAt process = { Process.zero with stack := programSp } := by
    rw [new.processAt]
    exact Function.update_self ..
  refine ⟨next.setProcess process { next.processAt process with task }, process, file, image,
    directory, {
      paging := new.paging
      has := ?_
      space := new.space
      held := kept
      content := fun x inside => ?_
      file := ?_
      stack := ?_
      allocations := fun i => ?_ }, ?_⟩
  · simp only [chunkOf, setProcess, Function.update_self]
    exact new.has
  · refine (new.grown.agree (stack.grown.kept image _ held) inside).trans ?_
    exact (stack.grown.agree held inside).trans ((fill x).trans (if_pos inside))
  · unfold setProcess
    dsimp only
    rw [new.elfFileAt]
    unfold setProcess setElfFile
    simp only [Function.update_self]
  · simp only [setProcess, Function.update_self, record]
    exact new.grown.kept programSp _ stack.held
  · simp only [setProcess, Function.update_self, record]
    rfl
  · rw [show k + blockCount size + 1035 = k + 4 + blockCount size +
      blockCount phixUserProgramStackSize + 1027 by omega]
    exact free

end Kernel

end Phix
