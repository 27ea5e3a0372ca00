import Phix.Task.Failure
import Phix.Task.Tasks

/-! # Starting a program

A load touches the globals that say what runs only when it makes a task: what it does before and
after leaves them alone (`Phix.Kernel.SameThreads`). A load that succeeds has made a process with a
task of its own (`Phix.Kernel.processLoad_started`), and one that fails before it has made a task
leaves all tasks as they are (`Phix.Kernel.processLoad_stopped`).
-/

namespace Phix

namespace Kernel

/-- The tasks are the same, and so are the process table and the task of the process. -/
structure SameThreads (kernel next : Kernel) (process : Word) : Prop where
  taskAt : next.taskAt = kernel.taskAt
  processes : next.processes = kernel.processes
  currentTask : next.currentTask = kernel.currentTask
  currentProcess : next.currentProcess = kernel.currentProcess
  taskHead : next.taskHead = kernel.taskHead
  taskTail : next.taskTail = kernel.taskTail
  task : (next.processAt process).task = (kernel.processAt process).task

namespace SameThreads

theorem refl (kernel : Kernel) (process : Word) : kernel.SameThreads kernel process :=
  ⟨rfl, rfl, rfl, rfl, rfl, rfl, rfl⟩

theorem trans {kernel middle next : Kernel} {process : Word}
    (first : kernel.SameThreads middle process) (second : middle.SameThreads next process) :
    kernel.SameThreads next process where
  taskAt := second.taskAt.trans first.taskAt
  processes := second.processes.trans first.processes
  currentTask := second.currentTask.trans first.currentTask
  currentProcess := second.currentProcess.trans first.currentProcess
  taskHead := second.taskHead.trans first.taskHead
  taskTail := second.taskTail.trans first.taskTail
  task := second.task.trans first.task

variable {kernel middle : Kernel} {process : Word} (same : kernel.SameThreads middle process)

include same

/-- An allocation leaves the records alone. -/
theorem kzalloc {owner : Owner} {size p : Word} {next : Kernel}
    (allocated : middle.kzalloc owner size = (p, next)) : kernel.SameThreads next process := by
  obtain rfl : (middle.kzalloc owner size).2 = next := congrArg Prod.snd allocated
  exact ⟨same.taskAt, same.processes, same.currentTask, same.currentProcess, same.taskHead,
    same.taskTail, same.task⟩

/-- So does a release. -/
theorem kfree (p : Word) : kernel.SameThreads (middle.kfree p) process :=
  ⟨same.taskAt, same.processes, same.currentTask, same.currentProcess, same.taskHead,
    same.taskTail, same.task⟩

/-- So do the heap calls of the file system. -/
theorem kernelCalls (calls : List KernelCall) :
    kernel.SameThreads (middle.kernelCalls calls) process :=
  ⟨same.taskAt, same.processes, same.currentTask, same.currentProcess, same.taskHead,
    same.taskTail, same.task⟩

/-- The record of an ELF file is no task and no process. -/
theorem setElfFile (p : Word) (file : ElfFile) :
    kernel.SameThreads (middle.setElfFile p file) process :=
  ⟨same.taskAt, same.processes, same.currentTask, same.currentProcess, same.taskHead,
    same.taskTail, same.task⟩

/-- Reading a file writes a buffer only. -/
theorem fread (answers : FileAnswers) (p : Word) :
    kernel.SameThreads (middle.fread answers p).2 process :=
  ⟨same.taskAt, same.processes, same.currentTask, same.currentProcess, same.taskHead,
    same.taskTail, same.task⟩

/-- A mapping writes page tables only. -/
theorem mapTo (vaddr paddr pend : Word) (flags : Byte) :
    kernel.SameThreads (middle.mapTo process vaddr paddr pend flags).2 process :=
  ⟨same.taskAt, same.processes, same.currentTask, same.currentProcess, same.taskHead,
    same.taskTail, same.task⟩

/-- A change of the record of the process that leaves its task. -/
theorem setProcess (record : Process) (kept : record.task = (middle.processAt process).task) :
    kernel.SameThreads (middle.setProcess process record) process where
  taskAt := same.taskAt
  processes := same.processes
  currentTask := same.currentTask
  currentProcess := same.currentProcess
  taskHead := same.taskHead
  taskTail := same.taskTail
  task := by
    rw [← same.task, ← kept]
    exact congrArg Process.task (Function.update_self ..)

end SameThreads

/-- The heap calls of the file system ask for nothing that is a program's. -/
theorem kernelCalls_addsNoUser (kernel : Kernel) (calls : List KernelCall) :
    kernel.machine.AddsNoUser (kernel.kernelCalls calls).machine := by
  change kernel.machine.AddsNoUser (kernel.machine.kernelCalls calls)
  generalize kernel.machine = machine
  induction calls generalizing machine with
  | nil => exact .refl machine
  | cons call calls ih =>
      have first : machine.AddsNoUser (machine.kernelCall call) := by
        cases call with
        | kzalloc size => exact .kzalloc (fun _ => Owner.noConfusion) size
        | kfree p =>
            unfold Machine.kernelCall
            dsimp only
            split
            · exact .kfree p
            · exact .refl machine
      exact first.trans (ih (machine.kernelCall call))

/-- Work for one process: the tasks are the same, and so are the records of the other processes
and what the process has allocated for itself. Nothing is allocated that a program asks for. -/
structure OwnWork (kernel next : Kernel) (process : Word) : Prop
    extends kernel.SameThreads next process where
  records : ∀ q, q ≠ process → next.processAt q = kernel.processAt q
  allocations : (next.processAt process).allocations = (kernel.processAt process).allocations
  addsNoUser : kernel.machine.AddsNoUser next.machine

namespace OwnWork

theorem refl (kernel : Kernel) (process : Word) : kernel.OwnWork kernel process :=
  ⟨.refl kernel process, fun _ _ => rfl, rfl, .refl kernel.machine⟩

theorem trans {kernel middle next : Kernel} {process : Word}
    (first : kernel.OwnWork middle process) (second : middle.OwnWork next process) :
    kernel.OwnWork next process where
  toSameThreads := first.toSameThreads.trans second.toSameThreads
  records q other := (second.records q other).trans (first.records q other)
  allocations := second.allocations.trans first.allocations
  addsNoUser := first.addsNoUser.trans second.addsNoUser

variable {kernel middle : Kernel} {process : Word} (work : kernel.OwnWork middle process)

include work

/-- An allocation that no program asks for leaves the records alone. -/
theorem kzalloc {owner : Owner} (other : ∀ q, owner ≠ .user q) {size p : Word} {next : Kernel}
    (allocated : middle.kzalloc owner size = (p, next)) : kernel.OwnWork next process := by
  obtain rfl : (middle.kzalloc owner size).2 = next := congrArg Prod.snd allocated
  exact ⟨work.toSameThreads.kzalloc rfl, work.records, work.allocations,
    work.addsNoUser.trans (.kzalloc other size)⟩

/-- So does a release. -/
theorem kfree (p : Word) : kernel.OwnWork (middle.kfree p) process :=
  ⟨work.toSameThreads.kfree p, work.records, work.allocations,
    work.addsNoUser.trans (.kfree p)⟩

/-- So do the heap calls of the file system. -/
theorem kernelCalls (calls : List KernelCall) : kernel.OwnWork (middle.kernelCalls calls) process :=
  ⟨work.toSameThreads.kernelCalls calls, work.records, work.allocations,
    work.addsNoUser.trans (middle.kernelCalls_addsNoUser calls)⟩

/-- The record of an ELF file is no task and no process. -/
theorem setElfFile (p : Word) (file : ElfFile) :
    kernel.OwnWork (middle.setElfFile p file) process :=
  ⟨work.toSameThreads.setElfFile p file, work.records, work.allocations, work.addsNoUser⟩

/-- Reading a file writes a buffer only. -/
theorem fread (answers : FileAnswers) (p : Word) :
    kernel.OwnWork (middle.fread answers p).2 process :=
  ⟨work.toSameThreads.fread answers p, work.records, work.allocations,
    (work.addsNoUser.trans (middle.kernelCalls_addsNoUser answers.readCalls)).trans
      (.of_live rfl)⟩

/-- A mapping writes page tables only. -/
theorem mapTo (vaddr paddr pend : Word) (flags : Byte) :
    kernel.OwnWork (middle.mapTo process vaddr paddr pend flags).2 process :=
  ⟨work.toSameThreads.mapTo vaddr paddr pend flags, work.records, work.allocations,
    work.addsNoUser.trans (.of_live rfl)⟩

/-- A change of the record of the process that leaves its task and its allocations. -/
theorem setProcess (record : Process) (kept : record.task = (middle.processAt process).task)
    (same : record.allocations = (middle.processAt process).allocations) :
    kernel.OwnWork (middle.setProcess process record) process where
  toSameThreads := work.toSameThreads.setProcess record kept
  records q other := (Function.update_of_ne other ..).trans (work.records q other)
  allocations := by
    rw [← work.allocations, ← same]
    exact congrArg Process.allocations (Function.update_self ..)
  addsNoUser := work.addsNoUser

/-- The end of `elf_load` is two releases. -/
theorem elfLoadOut (elfFile : Word) (ret : Int) (file : Option Word) :
    kernel.OwnWork (middle.elfLoadOut elfFile ret file).2.2 process := by
  unfold Kernel.elfLoadOut
  split
  · exact (work.kfree _).kfree elfFile
  · exact work

/-- The end of `process_load_binary` is a release. -/
theorem processLoadBinaryOut (answers : FileAnswers) (programData : Word) (ret : Int) :
    kernel.OwnWork (middle.processLoadBinaryOut answers programData ret).2 process := by
  unfold Kernel.processLoadBinaryOut
  split
  · exact (work.kfree programData).kernelCalls answers.closeCalls
  · exact work.kernelCalls answers.closeCalls

end OwnWork

section Loads

variable (kernel : Kernel) (process : Word)

/-- `elf_load` writes no record but its own. -/
theorem elfLoad_ownWork (answers : FileAnswers) :
    kernel.OwnWork (kernel.elfLoad process answers).2.2 process := by
  unfold elfLoad
  cases recorded : kernel.kzalloc .elfFile sizeofElfFile with
  | mk elfFile first =>
      have work := (OwnWork.refl kernel process).kzalloc (fun _ => Owner.noConfusion) recorded
      dsimp only
      split
      · exact work
      have work := (work.setElfFile elfFile ElfFile.zero).kernelCalls answers.openCalls
      generalize (first.setElfFile elfFile ElfFile.zero).kernelCalls answers.openCalls = second at *
      split
      · exact work.elfLoadOut ..
      split
      · exact work.elfLoadOut ..
      cases allocated : second.kzalloc (.image process) answers.filesize with
      | mk elfMemory third =>
          have work := (work.kzalloc (fun _ => Owner.noConfusion) allocated).setElfFile elfFile
            { ElfFile.zero with elfMemory }
          dsimp only
          generalize third.setElfFile elfFile { ElfFile.zero with elfMemory } = fourth at *
          split
          · exact work.elfLoadOut ..
          have work := work.fread answers elfMemory
          generalize fourth.fread answers elfMemory = read at *
          split
          · exact work.elfLoadOut ..
          split
          · exact (work.setElfFile ..).elfLoadOut ..
          · exact (work.setElfFile ..).elfLoadOut ..

/-- `process_load_elf` writes the record of its process. -/
theorem processLoadElf_ownWork (answers : FileAnswers) (stale : Word) :
    kernel.OwnWork (kernel.processLoadElf process answers stale).2 process := by
  have loaded := kernel.elfLoad_ownWork process answers
  unfold processLoadElf
  dsimp only
  split
  · exact loaded
  · exact loaded.setProcess _ rfl rfl

/-- So does `process_load_binary`. -/
theorem processLoadBinary_ownWork (answers : FileAnswers) :
    kernel.OwnWork (kernel.processLoadBinary process answers).2 process := by
  unfold processLoadBinary
  have work := (OwnWork.refl kernel process).kernelCalls answers.openCalls
  generalize kernel.kernelCalls answers.openCalls = first at *
  dsimp only
  split
  · exact work
  split
  · exact work.processLoadBinaryOut ..
  cases allocated : first.kzalloc (.image process) answers.filesize with
  | mk programData second =>
      have work := work.kzalloc (fun _ => Owner.noConfusion) allocated
      dsimp only
      split
      · exact work.processLoadBinaryOut ..
      have work := work.fread answers programData
      generalize second.fread answers programData = read at *
      split
      · exact work.processLoadBinaryOut ..
      · refine (work.setProcess _ ?_ ?_).processLoadBinaryOut .. <;> rfl

/-- So does `process_load_data`, whichever loader succeeds. -/
theorem processLoadData_ownWork (answers : LoadAnswers) :
    kernel.OwnWork (kernel.processLoadData process answers).2 process := by
  have elf := kernel.processLoadElf_ownWork process answers.elf answers.stale
  unfold processLoadData
  dsimp only
  split
  · exact elf.trans (processLoadBinary_ownWork ..)
  · exact elf

/-- Mapping a segment writes no record but that of its process. -/
theorem mapPhdr_ownWork (elfFile header : Word) (i : ℕ) :
    kernel.OwnWork (kernel.mapPhdr process elfFile header i).2 process := by
  unfold mapPhdr
  dsimp only
  generalize elf32PhdrAt kernel.machine.memory
    (elfProgramHeader kernel.machine.memory header i) = phdr
  split
  · cases allocated : kernel.kzalloc (.bss process) (pageAlign phdr.pMemsz) with
    | mk p middle =>
        have work := (OwnWork.refl kernel process).kzalloc (fun _ => Owner.noConfusion) allocated
        dsimp only
        split
        · exact work.setProcess _ rfl rfl
        · refine (work.setProcess _ ?_ ?_).mapTo .. <;> rfl
  · exact (OwnWork.refl kernel process).mapTo ..

/-- Nor does the loop over the segments. -/
theorem processMapElf.loop_ownWork (elfFile header : Word) (rounds i : ℕ) :
    kernel.OwnWork (processMapElf.loop process elfFile header rounds i kernel).2 process := by
  induction rounds generalizing i kernel with
  | zero => exact .refl kernel process
  | succ rounds ih =>
      have first := kernel.mapPhdr_ownWork process elfFile header i
      rw [processMapElf.loop_succ]
      split
      · split
        · exact first
        · exact first.trans (ih _ (i + 1))
      · exact .refl kernel process

/-- Nor does the mapping of a program. -/
theorem processMapMemory_ownWork {next : Kernel} {ret : Int}
    (mapped : kernel.processMapMemory process = some (ret, next)) :
    kernel.OwnWork next process := by
  -- The last step maps the stack.
  have finish : ∀ {status : Int} {middle : Kernel}, kernel.OwnWork middle process →
      (if status < 0 then some (status, middle)
        else some (middle.mapTo process phixProgramVirtualStackAddressEnd
          (middle.processAt process).stack
          (pageAlign ((middle.processAt process).stack + phixUserProgramStackSize)) userFlags)) =
        some (ret, next) → kernel.OwnWork next process := by
    intro status middle first rest
    split at rest
    · cases rest
      exact first
    · have stacked := first.mapTo phixProgramVirtualStackAddressEnd
        (middle.processAt process).stack
        (pageAlign ((middle.processAt process).stack + phixUserProgramStackSize)) userFlags
      rwa [Option.some.inj rest] at stacked
  unfold processMapMemory at mapped
  dsimp only at mapped
  split at mapped
  · refine finish ?_ mapped
    unfold processMapElf
    exact processMapElf.loop_ownWork ..
  · split at mapped
    · exact finish ((OwnWork.refl kernel process).mapTo ..) mapped
    · cases mapped

/-- In particular it writes no task. -/
theorem processMapMemory_sameThreads {next : Kernel} {ret : Int}
    (mapped : kernel.processMapMemory process = some (ret, next)) :
    kernel.SameThreads next process :=
  (kernel.processMapMemory_ownWork process mapped).toSameThreads

end Loads

/-! `process_malloc` and `process_free`. -/

/-- `process_malloc` touches no task, and of the processes its own only. -/
theorem processMalloc_sameThreads (kernel : Kernel) (process size : Word) :
    kernel.SameThreads (kernel.processMalloc process size).2 process := by
  unfold processMalloc
  cases allocated : kernel.kzalloc (.user process) size with
  | mk p middle =>
      have same := (SameThreads.refl kernel process).kzalloc allocated
      dsimp only
      split
      · exact same
      split
      · exact same.kfree p
      split
      · exact (same.mapTo ..).kfree p
      · exact (same.mapTo ..).setProcess _ rfl

/-- So does `process_free`. -/
theorem processFree_sameThreads (kernel : Kernel) (process p : Word) :
    kernel.SameThreads (kernel.processFree process p) process := by
  unfold processFree
  split
  · exact SameThreads.refl kernel process
  · refine (((SameThreads.refl kernel process).mapTo ..).setProcess _ ?_).kfree p
    rfl

/-! The label `out` of a load. -/

/-- How a load comes to its label. -/
inductive Reaches (kernel : Kernel) (answers : LoadAnswers) (processSlot : ℕ) (process : Word) :
    LoadLabel → Prop
  | unread {ret middle}
      (loaded : (kernel.setProcess process Process.zero).processLoadData process answers =
        (ret, middle))
      (failed : ret < 0) :
      Reaches kernel answers processSlot process ⟨middle, null, null, ret, none⟩
  | unstacked {ret middle next}
      (loaded : (kernel.setProcess process Process.zero).processLoadData process answers =
        (ret, middle))
      (read : ¬ ret < 0)
      (refused : middle.kzalloc (.stack process) phixUserProgramStackSize = (null, next)) :
      Reaches kernel answers processSlot process ⟨next, null, null, -ENOMEM, none⟩
  | unstarted {ret middle programSp stacked task next}
      (loaded : (kernel.setProcess process Process.zero).processLoadData process answers =
        (ret, middle))
      (read : ¬ ret < 0)
      (granted : middle.kzalloc (.stack process) phixUserProgramStackSize = (programSp, stacked))
      (found : programSp ≠ null)
      (made : (stacked.setProcess process { stacked.processAt process with
        stack := programSp, id := BitVec.ofNat 16 processSlot }).taskNew process =
          some (task, next))
      (failed : task.toInt < 0) :
      Reaches kernel answers processSlot process ⟨next, programSp, task, task.toInt, none⟩
  | mapped {ret middle programSp stacked task threaded status next}
      (loaded : (kernel.setProcess process Process.zero).processLoadData process answers =
        (ret, middle))
      (read : ¬ ret < 0)
      (granted : middle.kzalloc (.stack process) phixUserProgramStackSize = (programSp, stacked))
      (found : programSp ≠ null)
      (made : (stacked.setProcess process { stacked.processAt process with
        stack := programSp, id := BitVec.ofNat 16 processSlot }).taskNew process =
          some (task, threaded))
      (created : ¬ task.toInt < 0)
      (mapped : (threaded.setProcess process
        { threaded.processAt process with task }).processMapMemory process = some (status, next)) :
      Reaches kernel answers processSlot process (if status < 0 then
          ⟨next, programSp, task, status, none⟩
        else ⟨{ next with processes := Function.update next.processes processSlot process },
          programSp, task, status, some process⟩)

/-- Every label that is reached is reached by one of these ways. -/
theorem processLoadLabel_reaches {kernel : Kernel} {answers : LoadAnswers} {processSlot : ℕ}
    {process : Word} {label : LoadLabel}
    (reached : kernel.processLoadLabel answers processSlot process = some label) :
    kernel.Reaches answers processSlot process label := by
  unfold processLoadLabel at reached
  dsimp only at reached
  cases loaded : (kernel.setProcess process Process.zero).processLoadData process answers with
  | mk ret middle =>
      rw [loaded] at reached
      dsimp only at reached
      split at reached
      · rename_i failed
        cases reached
        exact .unread loaded failed
      rename_i read
      cases granted : middle.kzalloc (.stack process) phixUserProgramStackSize with
      | mk programSp stacked =>
          rw [granted] at reached
          dsimp only at reached
          split at reached
          · rename_i refused
            cases reached
            exact .unstacked loaded read (refused ▸ granted)
          rename_i found
          rw [Option.bind_eq_bind, Option.bind_eq_some_iff] at reached
          obtain ⟨⟨task, threaded⟩, made, rest⟩ := reached
          dsimp only at rest
          split at rest
          · rename_i failed
            cases rest
            exact .unstarted loaded read granted found made failed
          rename_i created
          rw [Option.bind_eq_bind, Option.bind_eq_some_iff] at rest
          obtain ⟨⟨status, next⟩, mapped, rest⟩ := rest
          have both := Reaches.mapped loaded read granted found made created mapped
          dsimp only at rest
          split at rest
          · rename_i failed
            cases rest
            rwa [if_pos failed] at both
          · rename_i finished
            cases rest
            rwa [if_neg finished] at both

/-- A load whose file cannot be loaded has nothing to clean up. -/
theorem cleansUpLive_of_unread {kernel : Kernel} {answers : LoadAnswers}
    (failed : (((kernel.kzalloc .process sizeofProcess).2.setProcess
      (kernel.kzalloc .process sizeofProcess).1 Process.zero).processLoadData
        (kernel.kzalloc .process sizeofProcess).1 answers).1 < 0) :
    kernel.CleansUpLive answers := by
  intro _ _ label reached
  cases processLoadLabel_reaches reached with
  | unread => exact fun _ => ⟨.inl rfl, .inl rfl⟩
  | unstacked => exact fun _ => ⟨.inl rfl, .inl rfl⟩
  | unstarted loaded read =>
      rw [loaded] at failed
      exact absurd failed read
  | mapped loaded read =>
      rw [loaded] at failed
      exact absurd failed read

/-! A task that joins the list. -/

/-- A task of the process has been made, and is the last of the list. -/
structure Joins (kernel : Kernel) (process task : Word) (next : Kernel) : Prop where
  fresh : kernel.machine.Spare task
  head : next.taskHead = if kernel.taskHead = null then task else kernel.taskHead
  tail : next.taskTail = task
  current : next.currentTask = if kernel.taskHead = null then task else kernel.currentTask
  currentProcess : next.currentProcess = kernel.currentProcess
  last : (next.taskAt task).next = null
  behind : (next.taskAt task).prev = if kernel.taskHead = null then null else kernel.taskTail
  owner : (next.taskAt task).process = process
  owners : ∀ u, u ≠ task → (next.taskAt u).process = (kernel.taskAt u).process

/-- `task_init` writes the owner of its own task only. -/
theorem taskInit_owners {kernel next : Kernel} {task process : Word} {ret : Int}
    (made : kernel.taskInit task process = some (ret, next)) :
    next.currentProcess = kernel.currentProcess ∧
      (¬ ret < 0 → (next.taskAt task).process = process) ∧
      ∀ u, u ≠ task → (next.taskAt u).process = (kernel.taskAt u).process := by
  unfold taskInit at made
  rw [Option.bind_eq_bind, Option.bind_eq_some_iff] at made
  obtain ⟨⟨pageDirectory, machine⟩, _, rest⟩ := made
  dsimp only at rest
  split at rest
  · cases rest
    refine ⟨rfl, fun finished => absurd (show (- EIO : Int) < 0 by decide) finished, ?_⟩
    exact fun u other => congrArg Task.process (Function.update_of_ne other ..)
  · cases rest
    unfold setTask
    dsimp only
    refine ⟨rfl, fun _ => by rw [Function.update_self], fun u other => ?_⟩
    rw [Function.update_of_ne other, Function.update_of_ne other]

/-- So does `task_new`. -/
theorem taskNew_owners {kernel next : Kernel} {process task : Word}
    (made : kernel.taskNew process = some (task, next)) (created : ¬ task.toInt < 0) :
    next.currentProcess = kernel.currentProcess ∧ (next.taskAt task).process = process ∧
      ∀ u, u ≠ task → (next.taskAt u).process = (kernel.taskAt u).process := by
  unfold taskNew at made
  dsimp only at made
  split at made
  · cases made
    exact absurd (by decide) created
  rw [Option.bind_eq_bind, Option.bind_eq_some_iff] at made
  obtain ⟨⟨ret, middle⟩, started, rest⟩ := made
  obtain ⟨currentProcess, owner, owners⟩ := taskInit_owners started
  dsimp only at rest
  split at rest
  · rename_i failed
    have negative := taskInit_enlisted started
    rcases negative with rfl | ⟨rfl, _⟩
    · cases rest
      exact absurd (show (BitVec.ofInt 32 (- EIO)).toInt < 0 by decide) created
    · exact absurd failed (lt_irrefl _)
  rename_i finished
  have owner := owner finished
  split at rest
  · cases rest
    exact ⟨currentProcess, owner, owners⟩
  · generalize (kernel.kzalloc .task sizeofTask).1 = added at rest owner owners
    generalize joined : middle.setTask middle.taskTail _ = enlisting at rest
    cases rest
    have linked : ∀ u, ((enlisting.setTask task { enlisting.taskAt task with
        prev := middle.taskTail }).taskAt u).process = (middle.taskAt u).process := by
      intro u
      have behind := (middle.setTask_links middle.taskTail
        { middle.taskAt middle.taskTail with next := task } ⟨rfl, rfl⟩ u).2
      rw [joined] at behind
      have ahead := (enlisting.setTask_links task
        { enlisting.taskAt task with prev := middle.taskTail } ⟨rfl, rfl⟩ u).2
      exact ahead.trans behind
    refine ⟨?_, (linked task).trans owner, fun u other => (linked u).trans (owners u other)⟩
    rw [← joined]
    exact currentProcess

/-- A new task is put at the end of the list. -/
theorem taskNew_joins {kernel next : Kernel} {process task : Word}
    (made : kernel.taskNew process = some (task, next)) (created : ¬ task.toInt < 0)
    (fresh : kernel.machine.Spare task)
    (apart : kernel.taskHead ≠ null → kernel.taskTail ≠ task) :
    kernel.Joins process task next := by
  have enlisted := taskNew_enlisted made created apart
  obtain ⟨currentProcess, owner, owners⟩ := taskNew_owners made created
  exact {
    fresh := fresh
    head := enlisted.head
    tail := enlisted.tail
    current := enlisted.current
    currentProcess := currentProcess
    last := enlisted.last
    behind := enlisted.behind
    owner := owner
    owners := owners }

/-- Storing a process leaves the list alone. -/
theorem Joins.setProcess {kernel next : Kernel} {process task : Word}
    (joins : kernel.Joins process task next) (q : Word) (record : Process) :
    kernel.Joins process task (next.setProcess q record) :=
  ⟨joins.fresh, joins.head, joins.tail, joins.current, joins.currentProcess, joins.last,
    joins.behind, joins.owner, joins.owners⟩

/-- So does a release. -/
theorem Joins.kfree {kernel next : Kernel} {process task : Word}
    (joins : kernel.Joins process task next) (p : Word) :
    kernel.Joins process task (next.kfree p) :=
  ⟨joins.fresh, joins.head, joins.tail, joins.current, joins.currentProcess, joins.last,
    joins.behind, joins.owner, joins.owners⟩

/-- So does an entry in the table of processes. -/
theorem Joins.register {kernel next : Kernel} {process task : Word}
    (joins : kernel.Joins process task next) (processes : ℕ → Word) :
    kernel.Joins process task { next with processes } :=
  ⟨joins.fresh, joins.head, joins.tail, joins.current, joins.currentProcess, joins.last,
    joins.behind, joins.owner, joins.owners⟩

/-- Work on the process before the task has joined and after that. -/
theorem Joins.extend {kernel before after next : Kernel} {process task : Word}
    (joins : before.Joins process task after) (fresh : kernel.machine.Spare task)
    (first : (kernel.setProcess process Process.zero).SameThreads before process)
    (last : after.SameThreads next process) : kernel.Joins process task next where
  fresh := fresh
  head := by
    rw [last.taskHead, joins.head, first.taskHead]
    rfl
  tail := last.taskTail.trans joins.tail
  current := by
    rw [last.currentTask, joins.current, first.taskHead, first.currentTask]
    rfl
  currentProcess := by
    rw [last.currentProcess, joins.currentProcess, first.currentProcess]
    rfl
  last := by rw [last.taskAt, joins.last]
  behind := by
    rw [last.taskAt, joins.behind, first.taskHead, first.taskTail]
    rfl
  owner := by rw [last.taskAt, joins.owner]
  owners u other := by
    rw [last.taskAt, joins.owners u other, first.taskAt]
    rfl

/-- The tasks at the label: none has been made, or one has joined the list. -/
inductive LoadLabel.Outcome (kernel : Kernel) (process : Word) (label : LoadLabel) : Prop
  | taskless (failed : label.ret < 0) (noTask : label.task = null ∨ label.task.toInt < 0)
      (same : (kernel.setProcess process Process.zero).SameThreads label.kernel process)
  | threaded (notNull : label.task ≠ null) (created : ¬ label.task.toInt < 0)
      (joins : kernel.Joins process label.task label.kernel)
      (task : (label.kernel.processAt process).task = label.task)
      (stored : ¬ label.ret < 0 → label.process = some process)

/-- What holds at a label, by the way it is reached. -/
theorem Reaches.outcome {kernel : Kernel} {answers : LoadAnswers} {processSlot : ℕ}
    {process : Word} {label : LoadLabel}
    (quiet : answers.elf.readCalls = [] ∧ answers.binary.readCalls = [])
    (reaches : kernel.Reaches answers processSlot process label) :
    kernel.machine.Ensures Request.Harmless label.kernel.machine (kernel.machine.PagingSound →
      (kernel.taskHead ≠ null →
        kernel.machine.live kernel.taskTail = some ⟨sizeofTask, .task⟩) →
      label.Outcome kernel process) := by
  have data : kernel.machine.Ensures Request.Harmless
      ((kernel.setProcess process Process.zero).processLoadData process answers).2.machine
      (kernel.machine.PagingSound → kernel.machine.Keeps
        ((kernel.setProcess process Process.zero).processLoadData process answers).2.machine) :=
    processLoadData_keeps (kernel.setProcess process Process.zero) process quiet
  have read := ((kernel.setProcess process Process.zero).processLoadData_ownWork process
    answers).toSameThreads
  -- The record and the stack are there before the task.
  have stack : ∀ {middle stacked prepared : Kernel} {programSp : Word} {record : Process},
      kernel.machine.Ensures Request.Harmless middle.machine
        (kernel.machine.PagingSound → kernel.machine.Keeps middle.machine) →
      (kernel.setProcess process Process.zero).SameThreads middle process →
      middle.kzalloc (.stack process) phixUserProgramStackSize = (programSp, stacked) →
      stacked.setProcess process record = prepared →
      record.task = (stacked.processAt process).task →
      kernel.machine.Ensures Request.Harmless prepared.machine
          (kernel.machine.PagingSound → kernel.machine.Keeps prepared.machine) ∧
        (kernel.setProcess process Process.zero).SameThreads prepared process := by
    rintro middle stacked _ programSp record keeps same granted rfl kept
    refine ⟨?_, (same.kzalloc granted).setProcess record kept⟩
    exact keeps.trans ((kzalloc_record granted id (by decide)).imp
      fun after before paging => (before paging).trans (after (before paging).paging).1)
  cases reaches with
  | unread loaded failed =>
      rw [loaded] at data read
      exact data.imp fun _ _ _ => .taskless failed (.inl rfl) read
  | unstacked loaded _ refused =>
      rw [loaded] at data read
      refine (data.trans ((kzalloc_asks refused).imp fun _ before => before)).imp fun _ _ _ => ?_
      exact .taskless (show (-ENOMEM : Int) < 0 by decide) (.inl rfl) (read.kzalloc refused)
  | unstarted loaded _ granted _ made failed =>
      rw [loaded] at data read
      generalize prepares : setProcess _ process _ = prepared at made
      obtain ⟨keeps, same⟩ := stack data read granted prepares rfl
      refine (keeps.trans ((taskNew_keeps made).imp fun _ before => before)).imp
        fun before paging _ => .taskless failed (.inr failed) ?_
      rcases taskNew_newTask (before paging).paging process made with
        ⟨_, _, rfl⟩ | ⟨directory, new⟩
      · exact same.kzalloc rfl
      · have positive := new.task_ne_null.1
        omega
  | @mapped _ _ programSp _ task threaded status next loaded _ granted _ made created mapped =>
      rw [loaded] at data read
      generalize prepares : setProcess _ process _ = prepared at made
      generalize tasked : threaded.setProcess process _ = working at mapped
      obtain ⟨keeps, same⟩ := stack data read granted prepares rfl
      have rest := processMapMemory_sameThreads working process mapped
      have machine : working.machine = threaded.machine := by
        rw [← tasked]
        rfl
      have whole := (keeps.trans ((taskNew_keeps made).imp fun new before paging =>
        And.intro (before paging) (new (before paging).paging))).trans
          ((machine ▸ processMapMemory_keeps mapped).imp fun _ before => before)
      have record : (next.processAt process).task = task := by
        rw [rest.task, ← tasked]
        unfold setProcess
        dsimp only
        rw [Function.update_self]
      have joined : kernel.machine.Keeps prepared.machine → prepared.machine.live task = none →
          (kernel.taskHead ≠ null →
            kernel.machine.live kernel.taskTail = some ⟨sizeofTask, .task⟩) →
          kernel.Joins process task next := by
        intro kept fresh tail
        have older := kept.spare fresh
        have apart : prepared.taskHead ≠ null → prepared.taskTail ≠ task := by
          rw [same.taskHead, same.taskTail]
          intro nonempty isTask
          cases older _ (isTask ▸ tail nonempty)
        have joins := taskNew_joins made created
          ((Machine.Keeps.refl kept.paging).spare fresh) apart
        exact (tasked ▸ joins.setProcess process _).extend older same rest
      have positive : 0 ≤ task.toInt := not_lt.mp created
      split
      · rename_i failed
        refine whole.imp fun holds paging tail => ?_
        obtain ⟨kept, more, thread⟩ := holds paging
        obtain ⟨fresh, isTask, _⟩ := thread positive
        exact .threaded (more.paging.sound.ne_null isTask) created (joined kept fresh tail) record
          (absurd failed)
      · refine whole.imp fun holds paging tail => ?_
        obtain ⟨kept, more, thread⟩ := holds paging
        obtain ⟨fresh, isTask, _⟩ := thread positive
        exact .threaded (more.paging.sound.ne_null isTask) created
          ((joined kept fresh tail).register _) record fun _ => rfl

end Kernel

/-! What runs. -/

/-- Tasks and processes that are live stay so. -/
def Machine.Retains (machine next : Machine) : Prop :=
  ∀ p allocation, machine.live p = some allocation →
    allocation.owner = .task ∨ allocation.owner = .process → next.live p = some allocation

/-- What keeps every allocation of the others keeps tasks and processes. -/
theorem Machine.Keeps.retains {machine next : Machine} (keeps : machine.Keeps next) :
    machine.Retains next := by
  intro p allocation held owner
  refine keeps.kept p allocation held fun isKernel => ?_
  rw [isKernel] at owner
  rcases owner with isTask | isProcess
  · cases isTask
  · cases isProcess

namespace Kernel

/-- There is no task. -/
structure Idle (kernel : Kernel) : Prop where
  head : kernel.taskHead = null
  tail : kernel.taskTail = null
  currentTask : kernel.currentTask = null
  currentProcess : kernel.currentProcess = null

/-- The current process is that of the current task. -/
structure Running (kernel : Kernel) : Prop where
  head : kernel.machine.live kernel.taskHead = some ⟨sizeofTask, .task⟩
  tail : kernel.machine.live kernel.taskTail = some ⟨sizeofTask, .task⟩
  currentTask : kernel.machine.live kernel.currentTask = some ⟨sizeofTask, .task⟩
  currentProcess : kernel.machine.live kernel.currentProcess = some ⟨sizeofProcess, .process⟩
  owner : (kernel.taskAt kernel.currentTask).process = kernel.currentProcess

/-- Nothing is scheduled yet, or a task runs. -/
def Scheduled (kernel : Kernel) : Prop := kernel.Idle ∨ kernel.Running

/-- The list is empty, or its ends and the current task are live. -/
inductive Listed (kernel : Kernel) : Prop
  | empty (head : kernel.taskHead = null) (tail : kernel.taskTail = null)
      (currentTask : kernel.currentTask = null)
  | filled (head : kernel.machine.live kernel.taskHead = some ⟨sizeofTask, .task⟩)
      (tail : kernel.machine.live kernel.taskTail = some ⟨sizeofTask, .task⟩)
      (currentTask : kernel.machine.live kernel.currentTask = some ⟨sizeofTask, .task⟩)

theorem Scheduled.listed {kernel : Kernel} (scheduled : kernel.Scheduled) : kernel.Listed :=
  scheduled.elim (fun idle => .empty idle.head idle.tail idle.currentTask)
    fun running => .filled running.head running.tail running.currentTask

/-- The tail of a list that is not empty is a live task. -/
theorem Listed.tail {kernel : Kernel} (listed : kernel.Listed) (nonempty : kernel.taskHead ≠ null) :
    kernel.machine.live kernel.taskTail = some ⟨sizeofTask, .task⟩ := by
  cases listed with
  | empty head => exact absurd head nonempty
  | filled _ tail => exact tail

/-- The list and what runs are as they were. -/
structure SameRun (kernel next : Kernel) : Prop where
  taskHead : next.taskHead = kernel.taskHead
  taskTail : next.taskTail = kernel.taskTail
  currentTask : next.currentTask = kernel.currentTask
  currentProcess : next.currentProcess = kernel.currentProcess
  owners : ∀ t, kernel.machine.live t = some ⟨sizeofTask, .task⟩ →
    (next.taskAt t).process = (kernel.taskAt t).process

/-- The same list of tasks that are still live. -/
theorem Listed.congr {kernel next : Kernel} (listed : kernel.Listed) (same : kernel.SameRun next)
    (retains : kernel.machine.Retains next.machine) : next.Listed := by
  cases listed with
  | empty head tail currentTask =>
      exact .empty (same.taskHead.trans head) (same.taskTail.trans tail)
        (same.currentTask.trans currentTask)
  | filled head tail currentTask =>
      have isTask : ∀ {t}, kernel.machine.live t = some ⟨sizeofTask, .task⟩ →
          next.machine.live t = some ⟨sizeofTask, .task⟩ :=
        fun held => retains _ _ held (.inl rfl)
      exact .filled (same.taskHead ▸ isTask head) (same.taskTail ▸ isTask tail)
        (same.currentTask ▸ isTask currentTask)

/-- Work that touches no task that is in the list. -/
theorem Scheduled.congr {kernel next : Kernel} (scheduled : kernel.Scheduled)
    (same : kernel.SameRun next) (retains : kernel.machine.Retains next.machine) :
    next.Scheduled := by
  rcases scheduled with idle | running
  · left
    exact {
      head := same.taskHead.trans idle.head
      tail := same.taskTail.trans idle.tail
      currentTask := same.currentTask.trans idle.currentTask
      currentProcess := same.currentProcess.trans idle.currentProcess }
  · right
    have isTask : ∀ {t}, kernel.machine.live t = some ⟨sizeofTask, .task⟩ →
        next.machine.live t = some ⟨sizeofTask, .task⟩ :=
      fun held => retains _ _ held (.inl rfl)
    exact {
      head := same.taskHead ▸ isTask running.head
      tail := same.taskTail ▸ isTask running.tail
      currentTask := same.currentTask ▸ isTask running.currentTask
      currentProcess := by
        rw [same.currentProcess]
        exact retains _ _ running.currentProcess (.inr rfl)
      owner := by
        rw [same.currentTask, same.currentProcess, same.owners _ running.currentTask]
        exact running.owner }

/-- Leaving the list changes no task's owner. -/
theorem taskListRemove_owners (kernel : Kernel) (task u : Word) :
    ((kernel.taskListRemove task).taskAt u).process = (kernel.taskAt u).process ∧
      (kernel.taskListRemove task).currentProcess = kernel.currentProcess := by
  have linked := (kernel.setTask_links (kernel.taskAt task).prev
    { kernel.taskAt (kernel.taskAt task).prev with next := (kernel.taskAt task).next }
    ⟨rfl, rfl⟩ u).2
  unfold taskListRemove
  dsimp only
  split <;> split <;> split <;> split <;> first | exact ⟨rfl, rfl⟩ | exact ⟨linked, rfl⟩

/-- Nor does freeing a task. -/
theorem taskFree_owners (kernel : Kernel) (task u : Word) :
    ((kernel.taskFree task).taskAt u).process = (kernel.taskAt u).process ∧
      (kernel.taskFree task).currentProcess = kernel.currentProcess := by
  unfold taskFree
  split
  · exact ⟨rfl, rfl⟩
  · exact taskListRemove_owners { kernel with
      machine := kernel.machine.pagingFreeChunk (kernel.taskAt task).pageDirectory } task u

/-- A load that fails after its task has joined the list takes the task off again. -/
theorem Joins.taskFree {kernel next : Kernel} {process task : Word}
    (joins : kernel.Joins process task next) (paging : kernel.machine.PagingSound)
    (listed : kernel.Listed) (notNull : task ≠ null) : kernel.SameRun (next.taskFree task) := by
  have owners := next.taskFree_owners task
  have other : ∀ {t}, kernel.machine.live t = some ⟨sizeofTask, .task⟩ → task ≠ t := by
    rintro t held rfl
    cases joins.fresh _ held
  cases listed with
  | empty first last current =>
      have front : (next.taskAt task).prev = null := by rw [joins.behind, if_pos first]
      have delisted := next.taskFree_delisted notNull (front.trans_ne notNull.symm)
      have head : (next.taskFree task).taskHead = kernel.taskHead := by
        rw [delisted.head, joins.head, joins.last, if_pos first, if_pos rfl, first]
      refine ⟨head, ?_, ?_, (owners task).2.trans joins.currentProcess,
        fun u held => (owners u).1.trans (joins.owners u (other held).symm)⟩
      · rw [delisted.tail, joins.tail, if_pos rfl, front, last]
      · rw [delisted.current, joins.last, if_pos rfl, head, joins.current, if_pos first,
          if_pos rfl, first, current]
  | filled first last current =>
      have nonempty := paging.sound.ne_null first
      have behind : (next.taskAt task).prev = kernel.taskTail := by
        rw [joins.behind, if_neg nonempty]
      have delisted := next.taskFree_delisted notNull (behind.trans_ne (other last).symm)
      have head : (next.taskFree task).taskHead = kernel.taskHead := by
        rw [delisted.head, joins.head, if_neg nonempty, if_neg (other first)]
      refine ⟨head, ?_, ?_, (owners task).2.trans joins.currentProcess,
        fun u held => (owners u).1.trans (joins.owners u (other held).symm)⟩
      · rw [delisted.tail, joins.tail, if_pos rfl, behind]
      · rw [delisted.current, joins.current, if_neg nonempty, if_neg (other current)]

/-- The head of the list that a live task has joined. -/
theorem Joins.head_live {kernel next : Kernel} {process task : Word}
    (joins : kernel.Joins process task next) (paging : kernel.machine.PagingSound)
    (listed : kernel.Listed) (retains : kernel.machine.Retains next.machine)
    (isTask : next.machine.live task = some ⟨sizeofTask, .task⟩) :
    next.machine.live next.taskHead = some ⟨sizeofTask, .task⟩ := by
  rw [joins.head]
  cases listed with
  | empty first =>
      rw [if_pos first]
      exact isTask
  | filled first =>
      rw [if_neg (paging.sound.ne_null first)]
      exact retains _ _ first (.inl rfl)

/-- A live task that joins the list. -/
theorem Joins.listed {kernel next : Kernel} {process task : Word}
    (joins : kernel.Joins process task next) (paging : kernel.machine.PagingSound)
    (listed : kernel.Listed) (retains : kernel.machine.Retains next.machine)
    (isTask : next.machine.live task = some ⟨sizeofTask, .task⟩) : next.Listed := by
  refine .filled (joins.head_live paging listed retains isTask) (joins.tail ▸ isTask) ?_
  rw [joins.current]
  cases listed with
  | empty first =>
      rw [if_pos first]
      exact isTask
  | filled first _ current =>
      rw [if_neg (paging.sound.ne_null first)]
      exact retains _ _ current (.inl rfl)

/-- What is released is no error number. -/
theorem LoadLabel.CleansUpLive.noError {label : LoadLabel} (clean : label.CleansUpLive)
    (sound : label.kernel.machine.HeapSound) (failed : label.ret < 0) :
    ¬ label.task.toInt < 0 := by
  intro negative
  rcases (clean failed).2 with none | ⟨_, held⟩
  · rw [none] at negative
    exact absurd negative (by decide)
  · rw [sound.not_live_of_negative negative] at held
    cases held

/-- The clean-up of a load that fails leaves what runs as it was. -/
theorem LoadLabel.Outcome.stopped {kernel : Kernel} {process : Word} {label : LoadLabel}
    (outcome : label.Outcome kernel process) (paging : kernel.machine.PagingSound)
    (listed : kernel.Listed) (keeps : kernel.machine.Keeps label.kernel.machine)
    (holds : label.Holds process) (failed : label.ret < 0) (clean : label.CleansUpLive) :
    label.out.2.2.machine.PagingSound ∧ kernel.SameRun label.out.2.2 ∧
      kernel.machine.Retains label.out.2.2.machine := by
  have out : label.out.2.2 = (label.kernel.kfree label.programSp).taskFree label.task := by
    unfold LoadLabel.out processLoadOut
    rw [if_pos failed]
  have noError := clean.noError keeps.paging.sound failed
  obtain ⟨sound, kept⟩ := holds.out_kept keeps.paging noError
  have retained : kernel.machine.Spare label.task →
      kernel.machine.Retains label.out.2.2.machine := by
    intro spare p allocation held owner
    refine kept p allocation (keeps.retains p allocation held owner) ?_ ?_ ?_
    · rcases owner with isTask | isProcess
      · rw [isTask]
        exact id
      · rw [isProcess]
        exact id
    · rintro isStack
      rw [isStack] at owner
      exact owner.elim Owner.noConfusion Owner.noConfusion
    · rintro rfl
      rw [spare _ held] at owner
      exact owner.elim Owner.noConfusion Owner.noConfusion
  cases outcome with
  | taskless _ noTask same =>
      have isNull := noTask.resolve_right noError
      have retains := retained (isNull ▸ (Machine.Keeps.refl paging).spare paging.sound.live_null)
      rw [isNull] at out
      have freed : label.out.2.2 = label.kernel.kfree label.programSp := out.trans (if_pos rfl)
      refine ⟨sound, ?_, retains⟩
      rw [freed]
      exact ⟨same.taskHead, same.taskTail, same.currentTask, same.currentProcess,
        fun t _ => congrArg (fun tasks => (tasks t).process) same.taskAt⟩
  | threaded notNull created joins task stored =>
      refine ⟨sound, ?_, retained joins.fresh⟩
      rw [out]
      exact (joins.kfree label.programSp).taskFree paging listed notNull

/-! Whole loads. -/

/-- What holds at the label of a load, by the kernel in which the record was allocated. -/
structure AtLabel (first : Kernel) (process : Word) (label : LoadLabel) : Prop where
  paging : first.machine.PagingSound
  listed : first.Listed
  record : first.machine.live process = some ⟨sizeofProcess, .process⟩
  keeps : first.machine.Keeps label.kernel.machine
  holds : label.Holds process
  outcome : label.Outcome first process

/-- What a load has done when it reaches its label. -/
theorem processLoadLabel_atLabel {kernel : Kernel} {answers : LoadAnswers} {processSlot : ℕ}
    {label : LoadLabel} (paging : kernel.machine.PagingSound) (listed : kernel.Listed)
    (quiet : answers.elf.readCalls = [] ∧ answers.binary.readCalls = [])
    (found : (kernel.machine.kzalloc .process sizeofProcess).1 ≠ null)
    (reached : (kernel.kzalloc .process sizeofProcess).2.processLoadLabel answers processSlot
      (kernel.machine.kzalloc .process sizeofProcess).1 = some label)
    (orderly : kernel.machine.Permits Request.Harmless label.out.2.2.machine) :
    kernel.machine.Keeps (kernel.kzalloc .process sizeofProcess).2.machine ∧
      AtLabel (kernel.kzalloc .process sizeofProcess).2
        (kernel.machine.kzalloc .process sizeofProcess).1 label := by
  have recorded := kzalloc_record (Prod.mk.eta (p := kernel.kzalloc .process sizeofProcess)).symm
    (show ¬ Owner.process.IsPaging from id) (by decide)
  have rest := (processLoadLabel_keeps quiet reached).and
    ((processLoadLabel_reaches reached).outcome quiet)
  have whole := recorded.trans (rest.imp fun after before => And.intro before after)
  obtain ⟨granted, later, outcome⟩ := (whole.congr label.out_requests).apply orderly
  obtain ⟨keeps, record⟩ := granted paging
  have first : (kernel.kzalloc .process sizeofProcess).2.Listed :=
    listed.congr ⟨rfl, rfl, rfl, rfl, fun _ _ => rfl⟩ keeps.retains
  obtain ⟨more, holds⟩ := later keeps.paging
  exact ⟨keeps, {
    paging := keeps.paging
    listed := first
    record := (record found).2
    keeps := more
    holds := holds
    outcome := outcome keeps.paging first.tail }⟩

section Loads

variable {kernel next : Kernel} {answers : LoadAnswers} {ret : Int} {stored : Option Word}
  (paging : kernel.machine.PagingSound) (listed : kernel.Listed)
  (quiet : answers.elf.readCalls = [] ∧ answers.binary.readCalls = [])
  (loaded : kernel.processLoad answers = some (ret, stored, next))
  (orderly : kernel.machine.Permits Request.Harmless next.machine)

include paging listed quiet loaded orderly

/-- A load that fails and cleans up properly leaves what runs as it was. -/
theorem processLoad_stopped (failed : ret < 0) (clean : kernel.CleansUpLive answers) :
    next.machine.PagingSound ∧ kernel.SameRun next ∧ kernel.machine.Retains next.machine := by
  by_cases full : kernel.processGetFreeSlot < 0
  · unfold processLoad at loaded
    dsimp only at loaded
    rw [if_pos full] at loaded
    cases loaded
    exact ⟨paging, ⟨rfl, rfl, rfl, rfl, fun _ _ => rfl⟩, fun _ _ held _ => held⟩
  rcases processLoad_cases loaded full with ⟨refused, rfl⟩ | ⟨found, label, reached, ends⟩
  · have recorded := kzalloc_record
      (Prod.mk.eta (p := kernel.kzalloc .process sizeofProcess)).symm
      (show ¬ Owner.process.IsPaging from id) (by decide)
    have keeps := (recorded.apply orderly paging).1
    exact ⟨keeps.paging, ⟨rfl, rfl, rfl, rfl, fun _ _ => rfl⟩, keeps.retains⟩
  obtain rfl : label.out.2.2 = next := congrArg (fun result => result.2.2) ends
  obtain ⟨keeps, there⟩ := processLoadLabel_atLabel paging listed quiet found reached orderly
  have status : label.ret < 0 := by
    rw [← label.out_status, ends]
    exact failed
  obtain ⟨sound, same, retains⟩ := there.outcome.stopped there.paging there.listed
    there.keeps there.holds status (clean full found label reached)
  exact ⟨sound, ⟨same.taskHead, same.taskTail, same.currentTask, same.currentProcess,
    fun t held => same.owners t (keeps.retains _ _ held (.inl rfl))⟩,
    fun p allocation held owner =>
      retains p allocation (keeps.retains p allocation held owner) owner⟩

/-- A load that succeeds has made a process, and a task of it. -/
theorem processLoad_started (finished : ¬ ret < 0) :
    next.machine.PagingSound ∧ kernel.machine.Retains next.machine ∧
      ∃ process task, stored = some process ∧
        next.machine.live process = some ⟨sizeofProcess, .process⟩ ∧
        next.machine.live task = some ⟨sizeofTask, .task⟩ ∧
        (next.processAt process).task = task ∧ kernel.Joins process task next := by
  obtain ⟨found, label, reached, rfl, same, rfl⟩ := processLoad_label loaded finished
  have out : label.out = (label.ret, label.process, label.kernel) := if_neg finished
  have asks : kernel.machine.Permits Request.Harmless label.out.2.2.machine := by
    rw [out]
    exact orderly
  obtain ⟨keeps, there⟩ := processLoadLabel_atLabel paging listed quiet found reached asks
  have whole := keeps.trans there.keeps
  cases there.outcome with
  | taskless failed _ _ => exact absurd failed finished
  | threaded notNull created joins task stores =>
      obtain ⟨_, isTask, _⟩ := (there.holds.thread.resolve_left notNull).resolve_left created
      refine ⟨whole.paging, whole.retains, _, label.task, same.symm.trans (stores finished),
        there.keeps.retains _ _ there.record (.inr rfl), isTask, task, { joins with
          fresh := fun allocation held => ?_ }⟩
      by_contra owned
      exact owned (joins.fresh allocation (keeps.kept _ _ held owned))

end Loads

/-! `isr80h/process.c` -/

/-- `syscall6_process_load_start`, once the name of the file has been copied from the task; when
it has started a program it does not return to the one that called it. -/
def syscall6ProcessLoadStart (kernel : Kernel) (answers : LoadAnswers) : Option (Int × Kernel) := do
  let (ret, newProcess, kernel) ← kernel.processLoadSwitch answers
  if ret < 0 then some (ret, kernel)
  else some (kernel.taskSwitch (kernel.processAt (newProcess.getD null)).task)

/-- The new program runs, or a load that fails and cleans up properly leaves what runs as it
was. -/
theorem syscall6ProcessLoadStart_scheduled {kernel next : Kernel} {answers : LoadAnswers}
    {ret : Int}
    (paging : kernel.machine.PagingSound) (scheduled : kernel.Scheduled)
    (quiet : answers.elf.readCalls = [] ∧ answers.binary.readCalls = [])
    (called : kernel.syscall6ProcessLoadStart answers = some (ret, next))
    (orderly : kernel.machine.Permits Request.Harmless next.machine)
    (clean : ret < 0 → kernel.CleansUpLive answers) :
    next.machine.PagingSound ∧ next.Scheduled ∧ kernel.machine.Retains next.machine := by
  unfold syscall6ProcessLoadStart processLoadSwitch at called
  simp only [Option.bind_eq_bind, Option.bind_eq_some_iff] at called
  obtain ⟨⟨_, _, _⟩, ⟨⟨status, stored, middle⟩, loaded, switched⟩, rest⟩ := called
  dsimp only at switched rest
  split at switched
  · rename_i failed
    cases switched
    rw [if_pos failed] at rest
    cases rest
    obtain ⟨sound, same, retains⟩ :=
      processLoad_stopped paging scheduled.listed quiet loaded orderly failed (clean failed)
    exact ⟨sound, scheduled.congr same retains, retains⟩
  · rename_i finished
    cases switched
    rw [if_neg (lt_irrefl _)] at rest
    cases rest
    obtain ⟨sound, retains, process, task, rfl, isProcess, isTask, thread, joins⟩ :=
      processLoad_started paging scheduled.listed quiet loaded orderly finished
    have current : ((middle.processAt process).task) = task := thread
    refine ⟨sound, .inr ?_, retains⟩
    exact {
      head := joins.head_live paging scheduled.listed retains isTask
      tail := (congrArg middle.machine.live joins.tail).trans isTask
      currentTask := (congrArg middle.machine.live current).trans isTask
      currentProcess := isProcess
      owner := (congrArg (fun t => (middle.taskAt t).process) current).trans joins.owner }

end Kernel

end Phix
