import Phix.Foundation.Searches
import Phix.Task.Loading

/-! # Failed loads

`process_load_for_slot` allocates the record of the process first, and its clean-up does not
release it. A load that fails leaves the kernel as it was, and releases only live objects, exactly
when it fails before that: there is no free slot of the process table, or no room for the record
(`Phix.Kernel.process_load_no_op_iff`).
-/

namespace Phix

/-- The answers for a file that is not opened, before any heap call. -/
def FileAnswers.refused (status : Int) : FileAnswers where
  fopen := status
  fstat := 0
  fstatDocumented := le_rfl
  filesize := 0
  fread := 1
  freadDocumented := .inl rfl
  content := fun _ => 0
  delivered := 0
  deliveredFits := Nat.zero_le _
  openCalls := []
  readCalls := []
  closeCalls := []

/-- The answers for a file that is read as a whole. Opening it leaves seven records of at most a
block allocated: its path, of three, its directory item, of two, and its two descriptors. -/
def FileAnswers.ofFile (size : Word) (content : ℕ → Byte) : FileAnswers where
  fopen := 1
  fstat := 0
  fstatDocumented := le_rfl
  filesize := size
  fread := 1
  freadDocumented := .inl rfl
  content := content
  delivered := size.toNat
  deliveredFits := le_rfl
  openCalls := List.replicate 7 (.kzalloc 32)
  readCalls := []
  closeCalls := []

theorem Machine.kfree_requests (machine : Machine) (p : Word) :
    (machine.kfree p).requests = machine.requests := rfl

/-- Releasing a chunk asks the heap for nothing. -/
theorem Machine.pagingFreeChunk_requests (machine : Machine) (chunk : Word) :
    (machine.pagingFreeChunk chunk).requests = machine.requests := by
  have tables : ∀ i, (machine.freeTables chunk i).requests = machine.requests := by
    intro i
    induction i with
    | zero => rfl
    | succ i ih =>
        unfold Machine.freeTables
        dsimp only
        rw [Machine.kfree_requests, ih]
  unfold Machine.pagingFreeChunk
  dsimp only
  rw [Machine.kfree_requests, Machine.kfree_requests, tables]

/-- A status is no live pointer. -/
theorem Machine.HeapSound.not_live_of_negative {machine : Machine} (sound : machine.HeapSound)
    {p : Word} (negative : p.toInt < 0) : machine.live p = none := by
  refine sound.livePool.not_live (.inr ?_)
  rw [BitVec.toInt_eq_toNat_cond] at negative
  split at negative <;> omega

namespace Kernel

/-- What a load has in hand at the label `out` of `process_load_for_slot`. -/
structure LoadLabel where
  kernel : Kernel
  programSp : Word
  task : Word
  ret : Int
  process : Option Word

/-- `process_load_for_slot` from `process_init` up to its label `out`. -/
def processLoadLabel (kernel : Kernel) (answers : LoadAnswers) (processSlot : ℕ) (process : Word) :
    Option LoadLabel := do
  let kernel := kernel.setProcess process Process.zero
  let (ret, kernel) := kernel.processLoadData process answers
  if ret < 0 then some ⟨kernel, null, null, ret, none⟩
  else
    let (programSp, kernel) := kernel.kzalloc (.stack process) phixUserProgramStackSize
    if programSp = null then some ⟨kernel, null, null, -ENOMEM, none⟩
    else
      let kernel := kernel.setProcess process { kernel.processAt process with
        stack := programSp, id := BitVec.ofNat 16 processSlot }
      let (task, kernel) ← kernel.taskNew process
      if task.toInt < 0 then some ⟨kernel, programSp, task, task.toInt, none⟩
      else
        let kernel := kernel.setProcess process { kernel.processAt process with task }
        let (ret, kernel) ← kernel.processMapMemory process
        if ret < 0 then some ⟨kernel, programSp, task, ret, none⟩
        else
          let kernel :=
            { kernel with processes := Function.update kernel.processes processSlot process }
          some ⟨kernel, programSp, task, ret, some process⟩

/-- The label's code. -/
def LoadLabel.out (label : LoadLabel) : Int × Option Word × Kernel :=
  label.kernel.processLoadOut label.programSp label.task label.ret label.process

theorem processLoadForSlot_eq (kernel : Kernel) (answers : LoadAnswers) (processSlot : ℕ) :
    kernel.processLoadForSlot answers processSlot =
      if (kernel.processGet processSlot).toInt < 0 then
        some ((kernel.processGet processSlot).toInt, none, kernel)
      else if kernel.processGet processSlot ≠ null then some (-EISTKN, none, kernel)
      else if (kernel.kzalloc .process sizeofProcess).1 = null then
        some (-ENOMEM, none, (kernel.kzalloc .process sizeofProcess).2)
      else ((kernel.kzalloc .process sizeofProcess).2.processLoadLabel answers processSlot
        (kernel.kzalloc .process sizeofProcess).1).map LoadLabel.out := by
  unfold processLoadForSlot
  cases allocated : kernel.kzalloc .process sizeofProcess with
  | mk process first =>
      dsimp only
      split
      · rfl
      split
      · rfl
      split
      · rfl
      unfold processLoadLabel
      dsimp only
      generalize (first.setProcess process Process.zero).processLoadData process answers = loaded
      obtain ⟨ret, second⟩ := loaded
      dsimp only
      split
      · rfl
      cases second.kzalloc (.stack process) phixUserProgramStackSize with
      | mk programSp third =>
          dsimp only
          split
          · rfl
          generalize third.setProcess process _ = fourth
          cases fourth.taskNew process with
          | none => rfl
          | some made =>
              obtain ⟨task, fifth⟩ := made
              dsimp only [Option.bind_eq_bind, Option.bind_some]
              split
              · rfl
              cases (fifth.setProcess process
                { fifth.processAt process with task }).processMapMemory
                process with
              | none => rfl
              | some mapped =>
                  dsimp only [Option.bind_some]
                  split <;> rfl

/-- What the label's code may find: no stack or the one of the process, and no task, an error
number, or a new task. -/
structure LoadLabel.Holds (label : LoadLabel) (process : Word) : Prop where
  stack : label.programSp = null ∨ ∃ size, label.kernel.machine.live label.programSp =
    some ⟨size, .stack process⟩
  thread : label.task = null ∨ label.task.toInt < 0 ∨
    ∃ directory, label.kernel.machine.live label.task = some ⟨sizeofTask, .task⟩ ∧
      label.kernel.machine.HasChunk (label.kernel.taskAt label.task).pageDirectory directory

theorem processLoadLabel_keeps {kernel : Kernel} {answers : LoadAnswers} {processSlot : ℕ}
    {process : Word} {label : LoadLabel}
    (quiet : answers.elf.readCalls = [] ∧ answers.binary.readCalls = [])
    (reached : kernel.processLoadLabel answers processSlot process = some label) :
    kernel.machine.Ensures Request.Harmless label.kernel.machine (kernel.machine.PagingSound →
      kernel.machine.Keeps label.kernel.machine ∧ label.Holds process) := by
  have data : kernel.machine.Ensures Request.Harmless
      ((kernel.setProcess process Process.zero).processLoadData process answers).2.machine
      (kernel.machine.PagingSound → kernel.machine.Keeps
        ((kernel.setProcess process Process.zero).processLoadData process answers).2.machine) :=
    processLoadData_keeps (kernel.setProcess process Process.zero) process quiet
  unfold processLoadLabel at reached
  dsimp only at reached
  generalize (kernel.setProcess process Process.zero).processLoadData process answers = loaded at *
  obtain ⟨ret, second⟩ := loaded
  dsimp only at data reached
  split at reached
  · cases reached
    exact data.imp fun keeps paging => ⟨keeps paging, .inl rfl, .inl rfl⟩
  cases allocated : second.kzalloc (.stack process) phixUserProgramStackSize with
  | mk programSp third =>
      have granted := data.trans ((kzalloc_record allocated id (by decide)).imp
        fun after before paging =>
          And.intro ((before paging).trans (after (before paging).paging).1)
          (after (before paging).paging).2)
      rw [allocated] at reached
      dsimp only at reached
      split at reached
      · cases reached
        exact granted.imp fun holds paging => ⟨(holds paging).1, .inl rfl, .inl rfl⟩
      rename_i found
      generalize stored : third.setProcess process _ = fourth at reached
      have same : fourth.machine = third.machine := by
        rw [← stored]
        rfl
      rw [Option.bind_eq_bind, Option.bind_eq_some_iff] at reached
      obtain ⟨⟨task, fifth⟩, made, rest⟩ := reached
      have new := taskNew_keeps made
      rw [same] at new
      have added := granted.trans (new.imp fun after before paging =>
        And.intro (before paging) (after (before paging).1.paging))
      -- Once the stack is there it stays, and a new task does.
      have finish : ∀ {last : Kernel} (ret : Int) (stored : Option Word),
          fifth.machine.Ensures Request.Harmless last.machine
            (fifth.machine.PagingSound →
              (task.toInt < 0 → fifth.machine.Keeps last.machine) ∧
              (0 ≤ task.toInt → ∀ directory,
                fifth.machine.HasChunk (fifth.taskAt task).pageDirectory directory →
                fifth.machine.Keeps last.machine ∧
                  last.machine.HasChunk (last.taskAt task).pageDirectory directory)) →
          kernel.machine.Ensures Request.Harmless last.machine (kernel.machine.PagingSound →
            kernel.machine.Keeps last.machine ∧
              LoadLabel.Holds ⟨last, programSp, task, ret, stored⟩ process) := by
        intro last ret stored ends
        refine added.trans (ends.imp fun after before paging => ?_)
        obtain ⟨⟨keeps, stack⟩, more, thread⟩ := before paging
        obtain ⟨_, held⟩ := stack found
        have there := more.kept _ _ held Owner.noConfusion
        rcases Int.lt_or_le task.toInt 0 with negative | positive
        · have later := (after more.paging).1 negative
          exact ⟨(keeps.trans more).trans later, .inr ⟨_, later.kept _ _ there Owner.noConfusion⟩,
            .inr (.inl negative)⟩
        · obtain ⟨_, isTask, directory, has⟩ := thread positive
          obtain ⟨later, still⟩ := (after more.paging).2 positive directory has
          exact ⟨(keeps.trans more).trans later, .inr ⟨_, later.kept _ _ there Owner.noConfusion⟩,
            .inr (.inr ⟨directory, later.kept _ _ isTask Owner.noConfusion, still⟩)⟩
      dsimp only at rest
      split at rest
      · rename_i negative
        cases rest
        exact finish _ _ (.of_requests rfl fun paging =>
          ⟨fun _ => .refl paging, fun positive => absurd negative (not_lt.mpr positive)⟩)
      rename_i positive
      generalize named : fifth.setProcess process _ = sixth at rest
      rw [Option.bind_eq_bind, Option.bind_eq_some_iff] at rest
      obtain ⟨⟨ret, seventh⟩, mapped, rest⟩ := rest
      have machine : sixth.machine = fifth.machine := by
        rw [← named]
        rfl
      have tasks : sixth.taskAt = fifth.taskAt := by
        rw [← named]
        rfl
      have chunk : sixth.chunkOf process = (fifth.taskAt task).pageDirectory := by
        rw [← named]
        unfold chunkOf setProcess
        dsimp only
        rw [Function.update_self]
      have ends := processMapMemory_keeps mapped
      rw [machine] at ends
      have ends : fifth.machine.Ensures Request.Harmless seventh.machine
          (fifth.machine.PagingSound →
            (task.toInt < 0 → fifth.machine.Keeps seventh.machine) ∧
            (0 ≤ task.toInt → ∀ directory,
              fifth.machine.HasChunk (fifth.taskAt task).pageDirectory directory →
              fifth.machine.Keeps seventh.machine ∧
                seventh.machine.HasChunk (seventh.taskAt task).pageDirectory directory)) := by
        refine ends.imp fun keeps paging => ⟨fun negative => absurd negative positive, ?_⟩
        intro _ directory has
        obtain ⟨kept, sameTasks, _, still⟩ :=
          keeps (machine ▸ paging) directory (by rw [machine, chunk]; exact has)
        rw [chunk, ← tasks, ← sameTasks] at still
        exact ⟨machine ▸ kept, still⟩
      dsimp only at rest
      split at rest
      · cases rest
        exact finish _ _ ends
      · cases rest
        exact finish _ _ ends

theorem taskListRemove_machine (kernel : Kernel) (task : Word) :
    (kernel.taskListRemove task).machine = kernel.machine := by
  unfold taskListRemove
  dsimp only
  split <;> split <;> split <;> split <;> rfl

theorem taskListRemove_processes (kernel : Kernel) (task : Word) :
    (kernel.taskListRemove task).processes = kernel.processes := by
  unfold taskListRemove
  dsimp only
  split <;> split <;> split <;> split <;> rfl

theorem taskFree_requests (kernel : Kernel) (task : Word) :
    (kernel.taskFree task).machine.requests = kernel.machine.requests := by
  unfold taskFree
  split
  · rfl
  · unfold kfree
    dsimp only
    rw [Machine.kfree_requests, taskListRemove_machine, Machine.pagingFreeChunk_requests]

theorem LoadLabel.out_status (label : LoadLabel) : label.out.1 = label.ret := by
  unfold out processLoadOut
  split <;> rfl

theorem LoadLabel.out_requests (label : LoadLabel) :
    label.out.2.2.machine.requests = label.kernel.machine.requests := by
  unfold out processLoadOut
  split
  · exact taskFree_requests ..
  · rfl

/-- The clean-up of the label at most releases the stack and the task. -/
theorem LoadLabel.Holds.out_kept {label : LoadLabel} {process : Word}
    (holds : label.Holds process) (paging : label.kernel.machine.PagingSound)
    (noError : ¬ label.task.toInt < 0) :
    label.out.2.2.machine.PagingSound ∧
      ∀ p allocation, label.kernel.machine.live p = some allocation →
        ¬ allocation.owner.IsPaging → allocation.owner ≠ .stack process → p ≠ label.task →
        label.out.2.2.machine.live p = some allocation := by
  obtain ⟨kernel, programSp, task, ret, stored⟩ := label
  unfold out processLoadOut
  dsimp only at holds paging noError ⊢
  split
  · have unstacked : (kernel.machine.kfree programSp).PagingSound ∧
        (∀ p allocation, kernel.machine.live p = some allocation →
          allocation.owner ≠ .stack process →
          (kernel.machine.kfree programSp).live p = some allocation) ∧
        ∀ t directory, kernel.machine.live t = some ⟨sizeofTask, .task⟩ →
          kernel.machine.HasChunk (kernel.taskAt t).pageDirectory directory →
          (kernel.machine.kfree programSp).HasChunk (kernel.taskAt t).pageDirectory directory := by
      rcases holds.stack with none | ⟨stackSize, held⟩
      · have none : programSp = null := none
        rw [none, paging.sound.kfree_null_eq]
        exact ⟨paging, fun p allocation isLive _ => isLive, fun t directory _ has => has⟩
      · refine ⟨paging.kfree held id, fun p allocation isLive different => ?_,
          fun t directory _ has => (paging.kfree_hasChunk held id has).1⟩
        rw [kernel.machine.kfree_live_of_ne]
        · exact isLive
        · rintro rfl
          rw [held] at isLive
          cases isLive
          exact different rfl
    obtain ⟨sound, others, chunks⟩ := unstacked
    unfold taskFree
    split
    · exact ⟨sound, fun p allocation isLive _ notStack _ => others p allocation isLive notStack⟩
    · rename_i noTask
      obtain ⟨directory, isTask, has⟩ := (holds.thread.resolve_left noTask).resolve_left noError
      have has := chunks task directory isTask has
      have isTask := others task _ isTask Owner.noConfusion
      have released := has.pagingFreeChunk sound.sound
      have keeps : ∀ {p : Word} {allocation : Allocation},
          (kernel.machine.kfree programSp).live p = some allocation → ¬ allocation.owner.IsPaging →
          ((kernel.machine.kfree programSp).pagingFreeChunk (kernel.taskAt task).pageDirectory).live
            p = some allocation := fun isLive notPaging =>
        (released.kept _ fun part => notPaging (has.part_isPaging isLive part)).trans isLive
      have last := keeps isTask id
      unfold kfree
      dsimp only
      rw [taskListRemove_machine]
      refine ⟨(sound.freeChunk has).kfree last id,
        fun p allocation isLive notPaging notStack different => ?_⟩
      rw [Machine.kfree_live_of_ne _ different]
      exact keeps (others p allocation isLive notStack) notPaging
  · exact ⟨paging, fun p allocation isLive _ _ _ => isLive⟩

theorem LoadLabel.Holds.out_record {label : LoadLabel} {process size : Word}
    (holds : label.Holds process) (paging : label.kernel.machine.PagingSound)
    (record : label.kernel.machine.live process = some ⟨size, .process⟩)
    (noError : ¬ label.task.toInt < 0) :
    label.out.2.2.machine.PagingSound ∧
      label.out.2.2.machine.live process = some ⟨size, .process⟩ := by
  obtain ⟨sound, kept⟩ := holds.out_kept paging noError
  refine ⟨sound, kept process _ record id Owner.noConfusion ?_⟩
  rcases holds.thread with none | failed | ⟨_, isTask, _⟩
  · rw [none]
    exact paging.sound.ne_null record
  · exact absurd failed noError
  · rintro rfl
    rw [record] at isTask
    cases isTask

/-! Whole loads. -/

theorem processGetFreeSlot_loop (kernel : Kernel) (remaining i : ℕ) :
    processGetFreeSlot.loop kernel remaining i =
      ((Searches.first (fun k => kernel.processes k = null) remaining i).map Nat.cast).getD
        (-EISTKN) := by
  induction remaining generalizing i with
  | zero => rfl
  | succ remaining ih =>
      unfold processGetFreeSlot.loop Searches.first
      by_cases free : kernel.processes i = null
      · rw [if_pos free, if_pos free]
        rfl
      · rw [if_neg free, if_neg free, ih]

/-- A slot that `process_get_free_slot` returns is free. -/
theorem processGet_freeSlot {kernel : Kernel} (free : ¬ kernel.processGetFreeSlot < 0) :
    kernel.processGet kernel.processGetFreeSlot.toNat = null := by
  unfold processGetFreeSlot at free ⊢
  rw [processGetFreeSlot_loop] at free ⊢
  cases search : Searches.first (fun k => kernel.processes k = null) phixMaxProcesses 0 with
  | none =>
      rw [search] at free
      exact absurd (by decide) free
  | some k =>
      obtain ⟨_, inside, isFree, _⟩ := Searches.first_eq_some.mp search
      unfold processGet
      rw [if_neg]
      · exact isFree
      · change ¬ (((k : Int).toNat : Int) < 0 ∨ (phixMaxProcesses : Int) ≤ ((k : Int).toNat : Int))
        omega

/-- While a slot of the process table is free, one is found. -/
theorem processGetFreeSlot_found {kernel : Kernel} {i : ℕ} (inside : i < phixMaxProcesses)
    (free : kernel.processes i = null) : ¬ kernel.processGetFreeSlot < 0 := by
  unfold processGetFreeSlot
  rw [processGetFreeSlot_loop]
  cases search : Searches.first (fun k => kernel.processes k = null) phixMaxProcesses 0 with
  | none => exact absurd free (Searches.first_eq_none.mp search i (Nat.zero_le i) (by omega))
  | some k => exact not_lt.mpr (Int.natCast_nonneg k)

/-- The kernel is as it was: its process table, its task list, its page directories and the
blocks of its heap. -/
structure NoOp (kernel next : Kernel) : Prop where
  processes : next.processes = kernel.processes
  currentProcess : next.currentProcess = kernel.currentProcess
  currentTask : next.currentTask = kernel.currentTask
  taskHead : next.taskHead = kernel.taskHead
  taskTail : next.taskTail = kernel.taskTail
  tasks : ∀ t size, kernel.machine.live t = some ⟨size, .task⟩ → next.taskAt t = kernel.taskAt t
  directories : ∀ chunk directory, kernel.machine.HasChunk chunk directory →
    next.machine.HasChunk chunk directory ∧
      directory.space next.machine.memory = directory.space kernel.machine.memory
  blocks : next.machine.freeBlocks = kernel.machine.freeBlocks

/-- Whatever the label's code releases is live. -/
def LoadLabel.CleansUpLive (label : LoadLabel) : Prop :=
  label.ret < 0 →
    (label.programSp = null ∨ label.kernel.machine.live label.programSp ≠ none) ∧
    (label.task = null ∨ ∃ size, label.kernel.machine.live label.task = some ⟨size, .task⟩)

/-- The clean-up of a load, if it comes to that, releases only what is live. -/
def CleansUpLive (kernel : Kernel) (answers : LoadAnswers) : Prop :=
  ¬ kernel.processGetFreeSlot < 0 → (kernel.kzalloc .process sizeofProcess).1 ≠ null →
    ∀ label, (kernel.kzalloc .process sizeofProcess).2.processLoadLabel answers
      kernel.processGetFreeSlot.toNat (kernel.kzalloc .process sizeofProcess).1 = some label →
    label.CleansUpLive

/-- There is no free slot, or no room for the record of the process. -/
def StopsEarly (kernel : Kernel) : Prop :=
  kernel.processGetFreeSlot < 0 ∨ ¬ (kernel.machine.request sizeofProcess).Served

theorem NoOp.refl (kernel : Kernel) : kernel.NoOp kernel :=
  ⟨rfl, rfl, rfl, rfl, rfl, fun _ _ _ => rfl, fun _ _ has => ⟨has, rfl⟩, rfl⟩

/-- A record that is refused changes nothing. -/
theorem noOp_refused {kernel : Kernel} (paging : kernel.machine.PagingSound)
    (refused : (kernel.machine.request sizeofProcess).Refused) :
    kernel.NoOp (kernel.kzalloc .process sizeofProcess).2 := by
  obtain ⟨grown, _⟩ := paging.sound.kzalloc_harmless .process (.inr (.inl refused))
  obtain ⟨_, blocks⟩ := paging.sound.kzalloc_unchanged .process refused.1 fun granted =>
    granted.1 (kernel.machine.kzalloc_refused .process refused)
  exact ⟨rfl, rfl, rfl, rfl, rfl, fun _ _ _ => rfl,
    fun _ _ has => Machine.Grown.hasChunk has paging.sound grown, blocks⟩

/-- A record that stays live occupies blocks that were free. -/
theorem not_noOp_of_live {kernel next : Kernel} (sound : next.machine.HeapSound) {owner : Owner}
    {size : Word} (served : (kernel.machine.request size).Served)
    (stays : next.machine.live (kernel.machine.kzalloc owner size).1 = some ⟨size, owner⟩) :
    ¬ kernel.NoOp next := by
  intro same
  obtain ⟨s, fits, pointer, _, wereFree, _⟩ :=
    Machine.HeapSound.kmalloc_found owner served.1 served.2
  have count := one_le_blockCount served.1.1
  have free := wereFree s le_rfl (by omega)
  rw [← same.blocks, Machine.mem_freeBlocks] at free
  have absent := sound.not_live_of_free free.1 free.2
  rw [← pointer] at absent
  exact absurd (absent.symm.trans stays) (by simp)

/-- A load with a free slot either stops at once, or runs to the label. -/
theorem processLoad_eq {kernel : Kernel} (answers : LoadAnswers)
    (free : ¬ kernel.processGetFreeSlot < 0) :
    kernel.processLoad answers =
      if (kernel.machine.kzalloc .process sizeofProcess).1 = null then
        some (-ENOMEM, none, (kernel.kzalloc .process sizeofProcess).2)
      else ((kernel.kzalloc .process sizeofProcess).2.processLoadLabel answers
        kernel.processGetFreeSlot.toNat (kernel.machine.kzalloc .process sizeofProcess).1).map
          LoadLabel.out := by
  have empty := processGet_freeSlot free
  have pointer : (kernel.kzalloc .process sizeofProcess).1 =
    (kernel.machine.kzalloc .process sizeofProcess).1 := rfl
  unfold processLoad
  dsimp only
  rw [if_neg free, processLoadForSlot_eq, if_neg (by rw [empty]; decide),
    if_neg (not_not.mpr empty),
    pointer]

theorem processLoad_cases {kernel next : Kernel} {answers : LoadAnswers} {ret : Int}
    {file : Option Word} (loaded : kernel.processLoad answers = some (ret, file, next))
    (free : ¬ kernel.processGetFreeSlot < 0) :
    (kernel.machine.kzalloc .process sizeofProcess).1 = null ∧
        next = (kernel.kzalloc .process sizeofProcess).2 ∨
      (kernel.machine.kzalloc .process sizeofProcess).1 ≠ null ∧
        ∃ label, (kernel.kzalloc .process sizeofProcess).2.processLoadLabel answers
          kernel.processGetFreeSlot.toNat (kernel.machine.kzalloc .process sizeofProcess).1 =
            some label ∧ label.out = (ret, file, next) := by
  rw [processLoad_eq answers free] at loaded
  split at loaded
  · rename_i refused
    cases loaded
    exact .inl ⟨refused, rfl⟩
  · rename_i found
    exact .inr ⟨found, Option.map_eq_some_iff.mp loaded⟩

/-- A load that succeeds comes to its label without an error. -/
theorem processLoad_label {kernel next : Kernel} {answers : LoadAnswers} {ret : Int}
    {stored : Option Word} (loaded : kernel.processLoad answers = some (ret, stored, next))
    (finished : ¬ ret < 0) :
    (kernel.machine.kzalloc .process sizeofProcess).1 ≠ null ∧ ∃ label,
      (kernel.kzalloc .process sizeofProcess).2.processLoadLabel answers
        kernel.processGetFreeSlot.toNat (kernel.machine.kzalloc .process sizeofProcess).1 =
          some label ∧
      label.ret = ret ∧ label.process = stored ∧ label.kernel = next := by
  have free : ¬ kernel.processGetFreeSlot < 0 := by
    intro full
    unfold processLoad at loaded
    dsimp only at loaded
    rw [if_pos full] at loaded
    cases loaded
    exact absurd (show (-ENOMEM : Int) < 0 by decide) finished
  rcases processLoad_cases loaded free with ⟨refused, _⟩ | ⟨found, label, reached, ends⟩
  · rw [processLoad_eq answers free, if_pos refused] at loaded
    cases loaded
    exact absurd (show (-ENOMEM : Int) < 0 by decide) finished
  have status : label.ret = ret := by
    rw [← label.out_status, ends]
  have out : label.out = (label.ret, label.process, label.kernel) := if_neg (status ▸ finished)
  rw [out] at ends
  cases ends
  exact ⟨found, label, reached, rfl, rfl, rfl⟩

/-- Such a load asks for the record of the process first. -/
theorem processLoad_asks {kernel next : Kernel} {answers : LoadAnswers} {ret : Int}
    {file : Option Word} (quiet : answers.elf.readCalls = [] ∧ answers.binary.readCalls = [])
    (loaded : kernel.processLoad answers = some (ret, file, next))
    (free : ¬ kernel.processGetFreeSlot < 0) :
    kernel.machine.Ensures Request.Harmless next.machine
      (kernel.machine.request sizeofProcess).Harmless := by
  have asks := kzalloc_asks (Prod.mk.eta (p := kernel.kzalloc .process sizeofProcess)).symm
  rcases processLoad_cases loaded free with ⟨_, rfl⟩ | ⟨_, label, reached, ends⟩
  · exact asks
  · have rest := processLoadLabel_keeps quiet reached
    obtain rfl : label.out.2.2 = next := congrArg (fun result => result.2.2) ends
    exact (asks.trans (rest.imp fun _ harmless => harmless)).congr label.out_requests

/-- Once there is a record, it stays, or the clean-up releases something that is not live. -/
theorem processLoad_record {kernel next : Kernel} {answers : LoadAnswers} {ret : Int}
    {file : Option Word} (paging : kernel.machine.PagingSound)
    (quiet : answers.elf.readCalls = [] ∧ answers.binary.readCalls = [])
    (loaded : kernel.processLoad answers = some (ret, file, next)) (failed : ret < 0)
    (orderly : kernel.machine.Permits Request.Harmless next.machine)
    (starts : ¬ kernel.StopsEarly) : ¬ (kernel.NoOp next ∧ kernel.CleansUpLive answers) := by
  obtain ⟨free, served⟩ := not_or.mp starts
  have served := not_not.mp served
  have granted := (paging.sound.kzalloc_served .process served).1
  rcases processLoad_cases loaded free with ⟨refused, _⟩ | ⟨found, label, reached, ends⟩
  · exact absurd refused granted
  rintro ⟨same, clean⟩
  have clean := clean free found label reached
  have recorded := kzalloc_record (Prod.mk.eta (p := kernel.kzalloc .process sizeofProcess)).symm
    (show ¬ Owner.process.IsPaging from id) (by decide)
  have whole := recorded.trans ((processLoadLabel_keeps quiet reached).imp
    fun after before paging => And.intro (before paging) (after (before paging).1.paging))
  obtain rfl : label.out.2.2 = next := congrArg (fun result => result.2.2) ends
  have status : label.ret < 0 := by
    rw [← label.out_status, ends]
    exact failed
  obtain ⟨⟨_, record⟩, keeps, holds⟩ :=
    (whole.congr label.out_requests).apply orderly paging
  obtain ⟨_, held⟩ := record found
  have stays := keeps.kept _ _ held Owner.noConfusion
  by_cases negative : label.task.toInt < 0
  · have absent := keeps.paging.sound.not_live_of_negative negative
    rcases (clean status).2 with none | ⟨size, live⟩
    · rw [none] at negative
      exact absurd negative (by decide)
    · rw [absent] at live
      cases live
  · obtain ⟨sound, last⟩ := holds.out_record keeps.paging stays negative
    exact not_noOp_of_live sound.sound served last same

/-- **A failed load as a no-op.** A load that fails leaves the process table, the task list, the
page directories and the allocated blocks as they were, and cleans up only live objects, exactly
when there is no free slot or no room for the record of the process. -/
theorem process_load_no_op_iff {kernel next : Kernel} {answers : LoadAnswers} {ret : Int}
    {file : Option Word} (paging : kernel.machine.PagingSound)
    (quiet : answers.elf.readCalls = [] ∧ answers.binary.readCalls = [])
    (loaded : kernel.processLoad answers = some (ret, file, next)) (failed : ret < 0)
    (orderly : kernel.machine.Permits Request.Harmless next.machine) :
    kernel.NoOp next ∧ kernel.CleansUpLive answers ↔ kernel.StopsEarly := by
  constructor
  · intro both
    by_contra starts
    exact processLoad_record paging quiet loaded failed orderly starts both
  · intro early
    by_cases full : kernel.processGetFreeSlot < 0
    · unfold processLoad at loaded
      dsimp only at loaded
      rw [if_pos full] at loaded
      cases loaded
      exact ⟨.refl kernel, fun free => absurd full free⟩
    · have refused : (kernel.machine.request sizeofProcess).Refused := by
        rcases (processLoad_asks quiet loaded full).apply orderly with served | refused | zero
        · exact absurd served (early.resolve_left full)
        · exact refused
        · exact absurd (show sizeofProcess = 0 from zero) (by decide)
      have isNull := kernel.machine.kzalloc_refused .process refused
      rcases processLoad_cases loaded full with ⟨_, rfl⟩ | ⟨found, _⟩
      · exact ⟨noOp_refused paging refused, fun _ found => absurd isNull found⟩
      · exact absurd isNull found

/-- A load with no free slot. -/
theorem process_load_no_op_iff_full : ∃ (kernel next : Kernel) (answers : LoadAnswers) (ret : Int)
    (file : Option Word), kernel.processLoad answers = some (ret, file, next) ∧ ret < 0 ∧
      kernel.NoOp next ∧ kernel.CleansUpLive answers := by
  let full : Kernel := { Kernel.booted (fun _ => 0) with processes := fun _ => 1 }
  let answers : LoadAnswers := ⟨.refused (-EINVAL), .refused (-EINVAL), null⟩
  have noSlot : full.processGetFreeSlot = -EISTKN := by
    unfold processGetFreeSlot
    rw [processGetFreeSlot_loop, Searches.first_eq_none.mpr fun _ _ _ =>
      show ¬ (1 : Word) = null by decide]
    rfl
  have negative : full.processGetFreeSlot < 0 := by
    rw [noSlot]
    decide
  have loaded : full.processLoad answers = some (-ENOMEM, none, full) := by
    unfold processLoad
    rw [if_pos negative]
  exact ⟨full, full, answers, _, _, loaded, by decide,
    (process_load_no_op_iff (Machine.booted_pagingSound _) ⟨rfl, rfl⟩ loaded (by decide)
      ⟨[], rfl, fun _ none => absurd none List.not_mem_nil⟩).mpr (.inl negative)⟩

theorem elfLoadOut_status (kernel : Kernel) (elfFile : Word) (ret : Int) (file : Option Word) :
    (kernel.elfLoadOut elfFile ret file).1 = ret := by
  unfold elfLoadOut
  split <;> rfl

/-- An `elf_load` whose file is not opened. -/
theorem elfLoad_refused (kernel : Kernel) (process : Word) {status : Int} (failed : status < 0)
    (other : status ≠ -EBADFORMAT) :
    (kernel.elfLoad process (.refused status)).1 < 0 ∧
      (kernel.elfLoad process (.refused status)).1 ≠ -EBADFORMAT ∧
      (kernel.elfLoad process (.refused status)).2.2.machine.requests =
        kernel.machine.request sizeofElfFile :: kernel.machine.requests := by
  unfold elfLoad
  cases allocated : kernel.kzalloc .elfFile sizeofElfFile with
  | mk elfFile first =>
      obtain rfl : (kernel.kzalloc .elfFile sizeofElfFile).2 = first := congrArg Prod.snd allocated
      dsimp only
      split
      · exact ⟨show (-ENOMEM : Int) < 0 by decide, show (-ENOMEM : Int) ≠ -EBADFORMAT by decide,
          rfl⟩
      · have negative : (FileAnswers.refused status).fopen < 0 := failed
        rw [if_pos negative, elfLoadOut_status, elfLoadOut_requests]
        exact ⟨failed, other, rfl⟩

theorem processLoadData_refused (kernel : Kernel) (process : Word) {status : Int}
    (failed : status < 0) (other : status ≠ -EBADFORMAT) :
    (kernel.processLoadData process ⟨.refused status, .refused status, null⟩).1 < 0 ∧
      (kernel.processLoadData process
        ⟨.refused status, .refused status, null⟩).2.machine.requests =
          kernel.machine.request sizeofElfFile :: kernel.machine.requests := by
  obtain ⟨negative, format, requests⟩ := kernel.elfLoad_refused process failed other
  have loaded : kernel.processLoadElf process (.refused status) null =
      ((kernel.elfLoad process (.refused status)).1,
        (kernel.elfLoad process (.refused status)).2.2) := by
    unfold processLoadElf
    dsimp only
    rw [if_pos negative]
  unfold processLoadData
  dsimp only
  rw [loaded]
  dsimp only
  rw [if_neg format]
  exact ⟨negative, requests⟩

/-- A load whose file cannot be opened reaches the label with that status. -/
theorem processLoadLabel_refused (kernel : Kernel) (process : Word) (processSlot : ℕ) {status : Int}
    (failed : status < 0) (other : status ≠ -EBADFORMAT) :
    ∃ label, kernel.processLoadLabel ⟨.refused status, .refused status, null⟩ processSlot process =
        some label ∧ label.ret < 0 ∧ label.kernel.machine.requests =
          kernel.machine.request sizeofElfFile :: kernel.machine.requests := by
  obtain ⟨negative, requests⟩ :=
    (kernel.setProcess process Process.zero).processLoadData_refused process failed other
  unfold processLoadLabel
  dsimp only
  rw [if_pos negative]
  exact ⟨_, rfl, negative, requests⟩

/-- Such a load returns while four blocks are free at the end of the pool, with the record of the
process allocated. -/
theorem processLoad_refused {kernel : Kernel} (paging : kernel.machine.PagingSound) {k : ℕ}
    (freeFrom : kernel.machine.FreeFrom k) (room : k + 4 ≤ 25600)
    (free : ¬ kernel.processGetFreeSlot < 0) {status : Int}
    (failed : status < 0) (other : status ≠ -EBADFORMAT) :
    ∃ (ret : Int) (file : Option Word) (next : Kernel),
      kernel.processLoad ⟨.refused status, .refused status, null⟩ = some (ret, file, next) ∧
        ret < 0 ∧ kernel.machine.Permits Request.Served next.machine ∧ ¬ kernel.StopsEarly := by
  have three : blockCount sizeofProcess = 3 := by decide
  have one : blockCount sizeofElfFile = 1 := by decide
  obtain ⟨found, rest⟩ := paging.sound.kzalloc_freeFrom .process
    (show Proper sizeofProcess by decide) freeFrom (by omega)
  have served : (kernel.machine.request sizeofProcess).Served :=
    freeFrom.served (by decide) (by omega)
  have second : ((kernel.kzalloc .process sizeofProcess).2.machine.request sizeofElfFile).Served :=
    rest.served (by decide) (by omega)
  obtain ⟨label, reached, negative, requests⟩ := processLoadLabel_refused
    (kernel.kzalloc .process sizeofProcess).2 (kernel.machine.kzalloc .process sizeofProcess).1
    kernel.processGetFreeSlot.toNat failed other
  have loaded := processLoad_eq ⟨.refused status, .refused status, null⟩ free
  rw [if_neg found, reached] at loaded
  refine ⟨label.out.1, label.out.2.1, label.out.2.2, loaded, ?_, ⟨[_, _],
    label.out_requests.trans requests, fun request member => ?_⟩,
    fun early => early.elim free fun refused => refused served⟩
  · rw [label.out_status]
    exact negative
  · rcases List.mem_cons.mp member with rfl | member
    · exact second
    · rw [List.mem_singleton.mp member]
      exact served

/-- A load whose file cannot be opened fails with the record of the process allocated. -/
theorem process_load_no_op_fails : ∃ (kernel next : Kernel) (answers : LoadAnswers) (ret : Int)
    (file : Option Word), kernel.machine.PagingSound ∧
      kernel.processLoad answers = some (ret, file, next) ∧ ret < 0 ∧
      kernel.machine.Permits Request.Served next.machine ∧
      ¬ (kernel.NoOp next ∧ kernel.CleansUpLive answers) := by
  have paging : (Kernel.booted fun _ => 0).machine.PagingSound := Machine.booted_pagingSound _
  obtain ⟨ret, file, next, loaded, negative, permits, starts⟩ :=
    processLoad_refused paging (Machine.booted_freeFrom _) (by decide)
      (processGetFreeSlot_found (i := 0) (by decide) rfl)
      (show (-EINVAL : Int) < 0 by decide) (by decide)
  exact ⟨_, next, _, ret, file, paging, loaded, negative, permits,
    processLoad_record paging ⟨rfl, rfl⟩ loaded negative
      (permits.mono fun _ served => .inl served) starts⟩

end Kernel

end Phix
