import Phix.Task.Elf
import Phix.Task.UserHeap

/-! # Programs beside a load

A load works on a process and a task that were not live before. Every other program keeps its
records, its address space and what it has allocated (`Phix.Kernel.SparesPrograms`), and the
program that is started begins with an address space of its own and no allocations
(`Phix.Kernel.syscall6ProcessLoadStart_programs`).
-/

namespace Phix

/-- The process that an allocation is made for. -/
def Owner.program : Owner → Option Word
  | .image q | .bss q | .stack q | .user q => some q
  | _ => none

/-- An allocation of a program is neither the file system's nor part of a chunk. -/
theorem Owner.program_plain {owner : Owner} {process : Word}
    (program : owner.program = some process) : owner ≠ .kernel ∧ ¬ owner.IsPaging := by
  cases owner with
  | image | bss | stack | user => exact ⟨Owner.noConfusion, id⟩
  | kernel | elfFile | process | task | directory | table | chunk => cases program

/-- A chunk that is released takes no part of another with it. -/
theorem Machine.PagingSound.freeChunk_other {machine : Machine} (paging : machine.PagingSound)
    {chunk other : Word} {directory second : PageDirectory}
    (has : machine.HasChunk chunk directory) (hasOther : machine.HasChunk other second)
    (different : other ≠ chunk) : (machine.pagingFreeChunk chunk).HasChunk other second ∧
      second.space (machine.pagingFreeChunk chunk).memory = second.space machine.memory := by
  have apart : ∀ {p : Word}, ChunkPart other second p → ¬ ChunkPart chunk directory p :=
    hasOther.parts_disjoint has (paging.base_ne different hasOther.isChunk has.isChunk)
  exact (has.pagingFreeChunk paging.sound).hasChunk paging.sound hasOther (apart (.inl rfl))
    (apart (.inr (.inl rfl))) fun i inside => apart (.inr (.inr ⟨i, inside, rfl⟩))

namespace Kernel

/-- The records, the address spaces and the allocations of all programs are as they were. -/
structure SparesPrograms (kernel next : Kernel) : Prop where
  processes : ∀ q size, kernel.machine.live q = some ⟨size, .process⟩ →
    next.processAt q = kernel.processAt q
  tasks : ∀ t size, kernel.machine.live t = some ⟨size, .task⟩ →
    (next.taskAt t).pageDirectory = (kernel.taskAt t).pageDirectory
  spaces : ∀ {chunk directory}, kernel.machine.HasChunk chunk directory →
    next.machine.HasChunk chunk directory ∧
      directory.space next.machine.memory = directory.space kernel.machine.memory
  owned : ∀ p allocation q size, kernel.machine.live q = some ⟨size, .process⟩ →
    allocation.owner.program = some q → kernel.machine.live p = some allocation →
      next.machine.live p = some allocation

/-- The task at the label has been made by the load. -/
structure LoadLabel.NewThread (kernel : Kernel) (label : LoadLabel) : Prop where
  spare : kernel.machine.Spare label.task
  spareChunk : kernel.machine.Spare (label.kernel.taskAt label.task).pageDirectory
  held : label.kernel.machine.live label.task = some ⟨sizeofTask, .task⟩
  chunk : ∃ directory,
    label.kernel.machine.HasChunk (label.kernel.taskAt label.task).pageDirectory directory
  user : (label.kernel.taskAt label.task).registers.cs = userCodeSegment ∧
    (label.kernel.taskAt label.task).registers.ss = userDataSegment

/-- What holds at the label of a load for the programs that were there when the record of the
process was cleared, and for the one that is being loaded. -/
structure LoadLabel.Apart (kernel : Kernel) (process : Word) (label : LoadLabel) : Prop where
  keeps : kernel.machine.KeepsBut ∅ label.kernel.machine
  records : ∀ q, q ≠ process → label.kernel.processAt q = kernel.processAt q
  allocations : (label.kernel.processAt process).allocations = Process.zero.allocations
  pages : ∀ u, u ≠ label.task →
    (label.kernel.taskAt u).pageDirectory = (kernel.taskAt u).pageDirectory
  thread : label.task = null ∨ label.task.toInt < 0 ∨ label.NewThread kernel

theorem Reaches.apart {kernel : Kernel} {answers : LoadAnswers} {processSlot : ℕ}
    {process : Word} {label : LoadLabel}
    (quiet : answers.elf.readCalls = [] ∧ answers.binary.readCalls = [])
    (reaches : kernel.Reaches answers processSlot process label) :
    kernel.machine.Ensures Request.Harmless label.kernel.machine
      (kernel.machine.PagingSound → label.Apart kernel process) := by
  have data : kernel.machine.Ensures Request.Harmless
      ((kernel.setProcess process Process.zero).processLoadData process answers).2.machine
      (kernel.machine.PagingSound → kernel.machine.KeepsBut ∅
        ((kernel.setProcess process Process.zero).processLoadData process answers).2.machine) :=
    processLoadData_keepsBut (kernel.setProcess process Process.zero) process quiet
  have read := (kernel.setProcess process Process.zero).processLoadData_ownWork process answers
  -- Work on the process before it has a task.
  have taskless : ∀ {before : Kernel} {programSp task : Word} {ret : Int},
      kernel.machine.KeepsBut ∅ before.machine →
      (kernel.setProcess process Process.zero).OwnWork before process →
      (task = null ∨ task.toInt < 0) →
      LoadLabel.Apart kernel process ⟨before, programSp, task, ret, none⟩ := by
    intro before programSp task ret keeps work noTask
    refine ⟨keeps, fun q other => ?_, ?_, fun u _ => ?_, noTask.imp_right Or.inl⟩
    · exact (work.records q other).trans (Function.update_of_ne other ..)
    · exact work.allocations.trans (congrArg Process.allocations (Function.update_self ..))
    · exact congrArg (fun tasks => (tasks u).pageDirectory) work.taskAt
  have stack : ∀ {middle stacked prepared : Kernel} {programSp : Word} {record : Process},
      kernel.machine.Ensures Request.Harmless middle.machine
        (kernel.machine.PagingSound → kernel.machine.KeepsBut ∅ middle.machine) →
      (kernel.setProcess process Process.zero).OwnWork middle process →
      middle.kzalloc (.stack process) phixUserProgramStackSize = (programSp, stacked) →
      stacked.setProcess process record = prepared →
      record.task = (stacked.processAt process).task →
      record.allocations = (stacked.processAt process).allocations →
      kernel.machine.Ensures Request.Harmless prepared.machine
          (kernel.machine.PagingSound → kernel.machine.KeepsBut ∅ prepared.machine) ∧
        (kernel.setProcess process Process.zero).OwnWork prepared process := by
    rintro middle stacked _ programSp record keeps work granted rfl task allocations
    refine ⟨?_,
      (work.kzalloc (fun _ => Owner.noConfusion) granted).setProcess record task allocations⟩
    exact keeps.trans ((kzalloc_recordBut granted id (by decide)).imp
      fun after before paging => (before paging).trans (after (before paging).paging).1)
  cases reaches with
  | unread loaded failed =>
      rw [loaded] at data read
      exact data.imp fun keeps paging => taskless (keeps paging) read (.inl rfl)
  | unstacked loaded _ refused =>
      rw [loaded] at data read
      have granted := data.trans ((kzalloc_recordBut refused id (by decide)).imp
        fun after before paging => (before paging).trans (after (before paging).paging).1)
      exact granted.imp fun keeps paging =>
        taskless (keeps paging) (read.kzalloc (fun _ => Owner.noConfusion) refused) (.inl rfl)
  | unstarted loaded _ granted _ made failed =>
      rw [loaded] at data read
      generalize prepares : setProcess _ process _ = prepared at made
      obtain ⟨keeps, work⟩ := stack data read granted prepares rfl rfl
      refine (keeps.trans ((taskNew_keeps made).imp fun _ before => before)).imp
        fun before paging => ?_
      have kept := before paging
      rcases taskNew_newTask kept.paging process made with ⟨_, _, rfl⟩ | ⟨directory, new⟩
      · have asked := kept.kzalloc (show ¬ Owner.task.IsPaging from id)
          (Machine.request_block_harmless _ (by decide : 1 ≤ sizeofTask.toNat) (by decide))
        exact taskless asked.1 (work.kzalloc (fun _ => Owner.noConfusion) rfl) (.inr failed)
      · have positive := new.task_ne_null.1
        omega
  | @mapped _ _ programSp _ task threaded status next loaded _ granted _ made created mapped =>
      rw [loaded] at data read
      generalize prepares : setProcess _ process _ = prepared at made
      generalize tasked : threaded.setProcess process _ = working at mapped
      obtain ⟨keeps, work⟩ := stack data read granted prepares rfl rfl
      have rest := working.processMapMemory_ownWork process mapped
      have machine : working.machine = threaded.machine := by
        rw [← tasked]
        rfl
      have whole := (keeps.trans ((taskNew_keeps made).imp fun _ before => before)).trans
        ((machine ▸ processMapMemory_keepsOthers mapped).imp fun maps before =>
          And.intro before maps)
      have here : working.processAt process = { threaded.processAt process with task } := by
        rw [← tasked]
        exact Function.update_self ..
      have tasks : next.taskAt = threaded.taskAt := by
        rw [rest.taskAt, ← tasked]
        rfl
      have apart : kernel.machine.PagingSound →
          (kernel.machine.PagingSound → kernel.machine.KeepsBut ∅ prepared.machine) ∧
            working.KeepsOthers next process →
          ∀ (processes : ℕ → Word) (ret : Int) (stored : Option Word),
            LoadLabel.Apart kernel process
            ⟨{ next with processes }, programSp, task, ret, stored⟩ := by
        rintro paging ⟨before, maps⟩ processes ret stored
        have kept := before paging
        rcases taskNew_newTask kept.paging process made with ⟨refused, _, _⟩ | ⟨directory, new⟩
        · exact absurd (refused ▸ by decide) created
        have chunk : working.chunkOf process = (threaded.taskAt task).pageDirectory := by
          unfold chunkOf
          rw [here, ← tasked]
          rfl
        have grown : prepared.machine.KeepsBut ∅ working.machine := by
          rw [machine]
          exact .of_grown kept.paging new.paging new.grown
        have threads := kept.trans grown
        have spare := kept.spare new.freshChunk
        obtain ⟨mapped, _, _, still⟩ := maps threads.paging directory
          (by rw [chunk, machine]; exact new.has)
        rw [chunk] at mapped still
        have added : kernel.machine.KeepsBut {(threaded.taskAt task).pageDirectory} next.machine :=
          Machine.KeepsBut.trans ⟨threads.toKeeps, fun _ => threads.spaces (Set.notMem_empty _)⟩
            mapped
        refine ⟨added.old fun chunk member => ?_, fun q other => ?_, ?_, fun u other => ?_, ?_⟩
        · rw [Set.mem_singleton_iff.mp member]
          exact spare
        · refine (rest.records q other).trans ?_
          rw [← tasked]
          refine (Function.update_of_ne other ..).trans ?_
          rw [new.processAt, work.records q other]
          exact Function.update_of_ne other ..
        · refine rest.allocations.trans ?_
          rw [here, new.processAt]
          exact work.allocations.trans (congrArg Process.allocations (Function.update_self ..))
        · change (next.taskAt u).pageDirectory = _
          rw [tasks, new.others u other, work.taskAt]
          rfl
        · have registers := taskNew_registers made created
          refine .inr (.inr ⟨kept.spare new.fresh, ?_, ?_, ⟨directory, ?_⟩, ?_⟩)
          · change kernel.machine.Spare (next.taskAt task).pageDirectory
            rw [tasks]
            exact spare
          · exact mapped.kept _ _ (machine ▸ new.held) Owner.noConfusion
          · change next.machine.HasChunk (next.taskAt task).pageDirectory directory
            rw [tasks]
            exact still
          · change (next.taskAt task).registers.cs = _ ∧ (next.taskAt task).registers.ss = _
            rw [tasks, registers]
            exact ⟨rfl, rfl⟩
      split
      · exact whole.imp fun holds paging => apart paging holds next.processes _ _
      · exact whole.imp fun holds paging => apart paging holds _ _ _

/-! The clean-up. -/

theorem taskListRemove_pages (kernel : Kernel) (task u : Word) :
    ((kernel.taskListRemove task).taskAt u).pageDirectory = (kernel.taskAt u).pageDirectory ∧
      (kernel.taskListRemove task).processAt = kernel.processAt := by
  have linked := (kernel.setTask_links (kernel.taskAt task).prev
    { kernel.taskAt (kernel.taskAt task).prev with next := (kernel.taskAt task).next }
    ⟨rfl, rfl⟩ u).1
  unfold taskListRemove
  dsimp only
  split <;> split <;> split <;> split <;> first | exact ⟨rfl, rfl⟩ | exact ⟨linked, rfl⟩

theorem LoadLabel.out_records (label : LoadLabel) (u : Word) :
    (label.out.2.2.taskAt u).pageDirectory = (label.kernel.taskAt u).pageDirectory ∧
      label.out.2.2.processAt = label.kernel.processAt := by
  unfold out processLoadOut taskFree
  split
  · dsimp only
    split
    · exact ⟨rfl, rfl⟩
    · exact taskListRemove_pages _ label.task u
  · exact ⟨rfl, rfl⟩

/-- The clean-up releases no chunk but that of the task. -/
theorem LoadLabel.Holds.out_chunk {label : LoadLabel} {process : Word}
    (holds : label.Holds process) (paging : label.kernel.machine.PagingSound)
    (noError : ¬ label.task.toInt < 0) {chunk : Word} {directory : PageDirectory}
    (has : label.kernel.machine.HasChunk chunk directory)
    (other : label.task ≠ null → chunk ≠ (label.kernel.taskAt label.task).pageDirectory) :
    label.out.2.2.machine.HasChunk chunk directory ∧
      directory.space label.out.2.2.machine.memory =
        directory.space label.kernel.machine.memory := by
  obtain ⟨kernel, programSp, task, ret, stored⟩ := label
  unfold out processLoadOut
  dsimp only at holds paging noError has other ⊢
  split
  · have unstacked : (kernel.machine.kfree programSp).PagingSound ∧
        ∀ chunk directory, kernel.machine.HasChunk chunk directory →
          (kernel.machine.kfree programSp).HasChunk chunk directory ∧
            directory.space (kernel.machine.kfree programSp).memory =
              directory.space kernel.machine.memory := by
      rcases holds.stack with none | ⟨_, held⟩
      · have none : programSp = null := none
        rw [none, paging.sound.kfree_null_eq]
        exact ⟨paging, fun _ _ has => ⟨has, rfl⟩⟩
      · exact ⟨paging.kfree held id, fun _ _ has => paging.kfree_hasChunk held id has⟩
    obtain ⟨sound, spaces⟩ := unstacked
    obtain ⟨before, same⟩ := spaces _ _ has
    unfold taskFree
    split
    · exact ⟨before, same⟩
    · rename_i noTask
      obtain ⟨second, isTask, own⟩ := (holds.thread.resolve_left noTask).resolve_left noError
      have own := (spaces _ _ own).1
      have there : (kernel.machine.kfree programSp).live task = some ⟨sizeofTask, .task⟩ := by
        rw [kernel.machine.kfree_live_of_ne]
        · exact isTask
        · rintro rfl
          rcases holds.stack with none | ⟨_, held⟩
          · exact noTask none
          · cases held.symm.trans isTask
      have stays : ((kernel.machine.kfree programSp).pagingFreeChunk
          (kernel.taskAt task).pageDirectory).live task = some ⟨sizeofTask, .task⟩ :=
        ((own.pagingFreeChunk sound.sound).kept _ fun part =>
          own.part_isPaging there part).trans there
      obtain ⟨middle, again⟩ := sound.freeChunk_other own before (other noTask)
      obtain ⟨after, last⟩ := (sound.freeChunk own).kfree_hasChunk stays id middle
      unfold kfree
      dsimp only
      rw [taskListRemove_machine]
      exact ⟨after, last.trans (again.trans same)⟩
  · exact ⟨has, rfl⟩

/-! Whole loads. -/

theorem SparesPrograms.refl (kernel : Kernel) : kernel.SparesPrograms kernel :=
  ⟨fun _ _ _ => rfl, fun _ _ _ => rfl, fun has => ⟨has, rfl⟩, fun _ _ _ _ _ _ held => held⟩

/-- A program that is spared keeps its accounts. -/
theorem SparesPrograms.accounts {kernel next : Kernel} {process : Word}
    (spares : kernel.SparesPrograms next) (paging : next.machine.PagingSound)
    (accounts : kernel.Accounts {process}) {size taskSize : Word}
    (record : kernel.machine.live process = some ⟨size, .process⟩)
    (task : kernel.machine.live (kernel.processAt process).task = some ⟨taskSize, .task⟩) :
    next.Accounts {process} ∧ next.chunkOf process = kernel.chunkOf process := by
  have same := spares.processes process size record
  have chunk : next.chunkOf process = kernel.chunkOf process := by
    unfold chunkOf
    rw [same]
    exact spares.tasks _ _ task
  refine ⟨⟨paging, ?_, ?_, ?_⟩, chunk⟩
  · rintro q rfl
    obtain ⟨directory, has⟩ := accounts.paging.directory (accounts.chunk q rfl)
    rw [chunk]
    exact ⟨_, (spares.spaces has).1.isChunk⟩
  · rintro q rfl i inside nonNull
    rw [same] at nonNull ⊢
    exact spares.owned _ _ q size record rfl (accounts.recorded q rfl i inside nonNull)
  · rintro q rfl i insideI j insideJ nonNull equal
    rw [same] at nonNull equal
    exact accounts.distinct q rfl i insideI j insideJ nonNull equal

section Loads

variable {kernel next : Kernel} {answers : LoadAnswers} {ret : Int} {stored : Option Word}
  (paging : kernel.machine.PagingSound) (listed : kernel.Listed)
  (quiet : answers.elf.readCalls = [] ∧ answers.binary.readCalls = [])

include paging quiet

theorem processLoadLabel_apart {processSlot : ℕ} {label : LoadLabel}
    (reached : (kernel.kzalloc .process sizeofProcess).2.processLoadLabel answers processSlot
      (kernel.machine.kzalloc .process sizeofProcess).1 = some label)
    (orderly : kernel.machine.Permits Request.Harmless label.out.2.2.machine) :
    kernel.machine.KeepsBut ∅ (kernel.kzalloc .process sizeofProcess).2.machine ∧
      label.Apart (kernel.kzalloc .process sizeofProcess).2
        (kernel.machine.kzalloc .process sizeofProcess).1 := by
  have recorded := kzalloc_recordBut
    (Prod.mk.eta (p := kernel.kzalloc .process sizeofProcess)).symm
    (show ¬ Owner.process.IsPaging from id) (by decide)
  have whole := recorded.trans (((processLoadLabel_reaches reached).apart quiet).imp
    fun apart before paging => And.intro (before paging).1 (apart (before paging).1.paging))
  exact (whole.congr label.out_requests).apply orderly paging

variable (loaded : kernel.processLoad answers = some (ret, stored, next))
  (orderly : kernel.machine.Permits Request.Harmless next.machine)
  (clean : ret < 0 → kernel.CleansUpLive answers)

include listed loaded orderly clean

/-- A load spares the programs that are there. -/
theorem processLoad_spares : kernel.SparesPrograms next := by
  by_cases full : kernel.processGetFreeSlot < 0
  · unfold processLoad at loaded
    dsimp only at loaded
    rw [if_pos full] at loaded
    cases loaded
    exact .refl kernel
  rcases processLoad_cases loaded full with ⟨refused, rfl⟩ | ⟨found, label, reached, ends⟩
  · have recorded := kzalloc_recordBut
      (Prod.mk.eta (p := kernel.kzalloc .process sizeofProcess)).symm
      (show ¬ Owner.process.IsPaging from id) (by decide)
    have keeps := (recorded.apply orderly paging).1
    exact ⟨fun _ _ _ => rfl, fun _ _ _ => rfl, keeps.spaces (Set.notMem_empty _),
      fun p _ _ _ _ program held => keeps.kept p _ held (Owner.program_plain program).1⟩
  obtain rfl : label.out.2.2 = next := congrArg (fun result => result.2.2) ends
  have status : label.ret = ret := by
    rw [← label.out_status, ends]
  obtain ⟨_, there⟩ := processLoadLabel_atLabel paging listed quiet found reached orderly
  obtain ⟨keeps, apart⟩ := processLoadLabel_apart paging quiet reached orderly
  have fresh := (paging.sound.kzalloc .process (by decide) found).fresh
  have noError : ¬ label.task.toInt < 0 := by
    by_cases failed : label.ret < 0
    · exact (clean (status ▸ failed) full found label reached).noError there.keeps.paging.sound
        failed
    · cases there.outcome with
      | taskless stopped _ _ => exact absurd stopped failed
      | threaded _ created _ _ _ => exact created
  -- What was live before the load is not its task.
  have older : ∀ {p allocation}, kernel.machine.live p = some allocation →
      allocation.owner ≠ .kernel → p ≠ label.task := by
    rintro p allocation held owned rfl
    rcases apart.thread with none | negative | thread
    · exact paging.sound.ne_null held none
    · exact noError negative
    · exact owned (thread.spare _ (keeps.kept _ _ held owned))
  refine ⟨fun q size held => ?_, fun u size held => ?_, fun {chunk directory} has => ?_,
    fun p allocation q size record program held => ?_⟩
  · rw [(label.out_records q).2, apart.records q]
    · rfl
    · rintro rfl
      cases held.symm.trans fresh
  · rw [(label.out_records u).1, apart.pages u (older held Owner.noConfusion)]
    rfl
  · obtain ⟨first, same⟩ := keeps.spaces (Set.notMem_empty _) has
    obtain ⟨before, again⟩ := apart.keeps.spaces (Set.notMem_empty _) first
    obtain ⟨after, last⟩ := there.holds.out_chunk there.keeps.paging noError before fun _ here => by
      rcases apart.thread with none | negative | thread
      · contradiction
      · exact noError negative
      · exact Owner.noConfusion (thread.spareChunk _ (here ▸ first.held))
    exact ⟨after, last.trans (again.trans same)⟩
  · obtain ⟨owned, plain⟩ := Owner.program_plain program
    have first := keeps.kept p _ held owned
    refine (there.holds.out_kept there.keeps.paging noError).2 p _
      (apart.keeps.kept p _ first owned) plain ?_ (older held owned)
    -- The stack that is released is that of another process.
    intro stack
    rw [stack] at program
    cases program
    cases record.symm.trans fresh

/-- The program has just been loaded: it has no allocations, its record and its address space were
not there, and its task starts as a program of the user. -/
structure Begins (kernel : Kernel) (process : Word) (next : Kernel) : Prop where
  fresh : kernel.machine.Spare process
  accounts : next.Accounts {process}
  freshChunk : kernel.machine.Spare (next.chunkOf process)
  user : (next.taskAt (next.processAt process).task).registers.cs = userCodeSegment ∧
    (next.taskAt (next.processAt process).task).registers.ss = userDataSegment

omit clean in
theorem processLoad_begins (finished : ¬ ret < 0) {process : Word}
    (stores : stored = some process) :
    kernel.Begins process next := by
  have sound := (processLoad_started paging listed quiet loaded orderly finished).1
  obtain ⟨found, label, reached, rfl, same, rfl⟩ := processLoad_label loaded finished
  have out : label.out = (label.ret, label.process, label.kernel) := if_neg finished
  have asks : kernel.machine.Permits Request.Harmless label.out.2.2.machine := by
    rw [out]
    exact orderly
  obtain ⟨_, there⟩ := processLoadLabel_atLabel paging listed quiet found reached asks
  obtain ⟨keeps, apart⟩ := processLoadLabel_apart paging quiet reached asks
  have same := same.trans stores
  cases there.outcome with
  | taskless failed _ _ => exact absurd failed finished
  | threaded notNull created _ task stored =>
      obtain rfl := Option.some.inj ((stored finished).symm.trans same)
      have thread := (apart.thread.resolve_left notNull).resolve_left created
      obtain ⟨directory, has⟩ := thread.chunk
      have chunk : label.kernel.chunkOf (kernel.machine.kzalloc .process sizeofProcess).1 =
          (label.kernel.taskAt label.task).pageDirectory := by
        unfold chunkOf
        rw [task]
      have empty : ∀ i, ((label.kernel.processAt
          (kernel.machine.kzalloc .process sizeofProcess).1).allocations i).p = null := fun i => by
        rw [apart.allocations]
        rfl
      refine ⟨?_, ⟨sound, ?_, ?_, ?_⟩, ?_, ?_⟩
      · exact (Machine.Keeps.refl paging).spare
          (paging.sound.kzalloc .process (by decide) found).fresh
      · rintro q rfl
        rw [chunk]
        exact ⟨_, has.isChunk⟩
      · rintro q rfl i _ nonNull
        exact absurd (empty i) nonNull
      · rintro q rfl i _ j _ nonNull
        exact absurd (empty i) nonNull
      · rw [chunk]
        intro allocation held
        by_contra owned
        exact owned (thread.spareChunk _ (keeps.kept _ _ held owned))
      · rw [task]
        exact thread.user

end Loads

section Starts

variable {kernel next : Kernel} {answers : LoadAnswers} {ret : Int}
  (paging : kernel.machine.PagingSound) (scheduled : kernel.Scheduled)
  (quiet : answers.elf.readCalls = [] ∧ answers.binary.readCalls = [])
  (orderly : kernel.machine.Permits Request.Harmless next.machine)
  (clean : ret < 0 → kernel.CleansUpLive answers)

include paging scheduled quiet orderly clean

/-- `process_load_switch`. A program that is loaded becomes the current one once its task does,
which is the first of the list if there was none. -/
theorem processLoadSwitch_programs {stored : Option Word}
    (switched : kernel.processLoadSwitch answers = some (ret, stored, next)) :
    kernel.SparesPrograms next ∧ next.machine.PagingSound ∧
      kernel.machine.Retains next.machine ∧
      (ret < 0 → next.Scheduled ∧ next.currentTask = kernel.currentTask ∧
        next.currentProcess = kernel.currentProcess) ∧
      (¬ ret < 0 → stored = some next.currentProcess ∧ kernel.Begins next.currentProcess next ∧
        (next.taskSwitch (next.processAt next.currentProcess).task).2.Running ∧
        (kernel.Idle → next.taskHead = (next.processAt next.currentProcess).task)) := by
  unfold processLoadSwitch at switched
  rw [Option.bind_eq_bind, Option.bind_eq_some_iff] at switched
  obtain ⟨⟨status, process, middle⟩, loaded, rest⟩ := switched
  dsimp only at rest
  split at rest
  · rename_i failed
    cases rest
    have spares := processLoad_spares paging scheduled.listed quiet loaded orderly clean
    obtain ⟨sound, same, retains⟩ :=
      processLoad_stopped paging scheduled.listed quiet loaded orderly failed (clean failed)
    exact ⟨spares, sound, retains,
      fun _ => ⟨scheduled.congr same retains, same.currentTask, same.currentProcess⟩,
      fun finished => absurd failed finished⟩
  · rename_i finished
    cases rest
    have spares := processLoad_spares paging scheduled.listed quiet loaded orderly
      fun failed => absurd failed finished
    obtain ⟨sound, retains, q, task, rfl, isProcess, isTask, thread, joins⟩ :=
      processLoad_started paging scheduled.listed quiet loaded orderly finished
    have begins := processLoad_begins paging scheduled.listed quiet loaded orderly finished rfl
    have accounts := begins.accounts
    refine ⟨⟨spares.processes, spares.tasks, spares.spaces, spares.owned⟩, sound, retains,
      fun failed => absurd failed (lt_irrefl _), fun _ => ⟨rfl, ?_, ?_, ?_⟩⟩
    · exact ⟨begins.fresh, ⟨accounts.paging, accounts.chunk, accounts.recorded,
        accounts.distinct⟩, begins.freshChunk, begins.user⟩
    · exact {
        head := joins.head_live paging scheduled.listed retains isTask
        tail := (congrArg middle.machine.live joins.tail).trans isTask
        currentTask := (congrArg middle.machine.live thread).trans isTask
        currentProcess := isProcess
        owner := (congrArg (fun t => (middle.taskAt t).process) thread).trans joins.owner }
    · intro idle
      exact joins.head.trans ((if_pos idle.head).trans thread.symm)

/-- **What exec does to the programs.** All records, address spaces and allocations that are there
stay as they were. A call that returns leaves the program current that made it, and one that does
not return makes a program current that has no allocations and an address space of its own. -/
theorem syscall6ProcessLoadStart_programs
    (called : kernel.syscall6ProcessLoadStart answers = some (ret, next)) :
    kernel.SparesPrograms next ∧ next.machine.PagingSound ∧
      kernel.machine.Retains next.machine ∧
      (ret < 0 → next.Scheduled ∧ next.currentTask = kernel.currentTask ∧
        next.currentProcess = kernel.currentProcess) ∧
      (¬ ret < 0 → next.Running ∧ kernel.Begins next.currentProcess next ∧
        (next.processAt next.currentProcess).task = next.currentTask) := by
  unfold syscall6ProcessLoadStart at called
  rw [Option.bind_eq_bind, Option.bind_eq_some_iff] at called
  obtain ⟨⟨status, stored, middle⟩, switched, rest⟩ := called
  dsimp only at rest
  split at rest
  · rename_i failed
    cases rest
    obtain ⟨spares, sound, retains, stops, _⟩ :=
      processLoadSwitch_programs paging scheduled quiet orderly clean switched
    exact ⟨spares, sound, retains, stops, fun finished => absurd failed finished⟩
  · rename_i finished
    cases rest
    have orderly : kernel.machine.Permits Request.Harmless middle.machine := orderly
    obtain ⟨spares, sound, retains, _, starts⟩ := processLoadSwitch_programs paging scheduled quiet
      orderly (fun failed => absurd failed finished) switched
    obtain ⟨rfl, begins, running, _⟩ := starts finished
    have accounts := begins.accounts
    refine ⟨⟨spares.processes, spares.tasks, spares.spaces, spares.owned⟩, sound, retains,
      fun failed => absurd failed (lt_irrefl _), fun _ => ⟨running, ?_, rfl⟩⟩
    exact ⟨begins.fresh, ⟨accounts.paging, accounts.chunk, accounts.recorded,
      accounts.distinct⟩, begins.freshChunk, begins.user⟩

end Starts

end Kernel

end Phix
