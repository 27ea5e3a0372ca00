import Phix.Foundation.Traces
import Phix.Task.Confinement
import Phix.Task.Start

/-! # What programs own

The programs of the process table ask for memory and give it back while others are loaded. As long
as every file that is loaded has what it maps writable inside of its image, a page that a program
may write is in its image, in a buffer of its bss, in its stack or in an allocation that its table
records (`Phix.Kernel.process_isolation`).
-/

namespace Phix

open Traces

/-- The page at the frame is in the blocks of the allocation. -/
def PageInside (p frame : Word) (allocation : Allocation) : Prop :=
  (frame - p).toNat + 4096 ≤ 4096 * blockCount allocation.size

/-- What lies on a page boundary lies in the blocks as a whole page. -/
theorem Machine.InBlocks.page {p frame : Word} {allocation : Allocation}
    (inside : InBlocks p frame allocation) (aligned : p.toNat % 4096 = 0)
    (page : frame.toNat % 4096 = 0) : PageInside p frame allocation := by
  unfold InBlocks at inside
  unfold PageInside
  have start := p.isLt
  have offset : (frame - p).toNat % 4096 = 0 := by
    rw [BitVec.toNat_sub]
    omega
  omega

/-- While the pool is free from block `k` on, what is live lies below it. -/
theorem Machine.HeapSound.below_freeFrom {machine : Machine} (sound : machine.HeapSound) {k : ℕ}
    (free : machine.FreeFrom k) (inside : k < 25600) {p : Word} {allocation : Allocation}
    (held : machine.live p = some allocation) :
    p.toNat + 4096 * blockCount allocation.size ≤ 0x01000000 + 4096 * k := by
  obtain ⟨s, started, pointer, index⟩ := sound.pointer held
  have address := poolBlock_toNat started
  rw [← pointer] at address
  by_contra beyond
  -- The later of its first block and block `k` is both taken and free.
  have holds : machine.HoldsBlock p allocation (max s k) := by
    rw [sound.holdsBlock_iff held, Extents.Extent.mem_indices]
    unfold Heap.extent
    dsimp only
    rw [index]
    have proper := (sound.sized _ _ (Machine.sizes_of_live held)).1
    have positive := one_le_blockCount proper
    omega
  have taken := sound.blockTaken held (by omega) holds
  exact (Machine.mem_freeBlocks.mp (free (max s k) (le_max_right s k) (by omega))).2.not_taken taken

theorem Owner.program_eq_some {owner : Owner} {q : Word} : owner.program = some q ↔
    owner = .image q ∨ owner = .bss q ∨ owner = .stack q ∨ owner = .user q := by
  cases owner <;> simp [Owner.program]

namespace Kernel

/-- The process is in the table of processes. -/
def HasProgram (kernel : Kernel) (q : Word) : Prop :=
  q ≠ null ∧ ∃ i < phixMaxProcesses, kernel.processes i = q

/-- A slot of the table of the process records the allocation. -/
def Records (kernel : Kernel) (q p size : Word) : Prop :=
  ∃ slot < phixMaxProgramAllocations, (kernel.processAt q).allocations slot = ⟨size, p⟩

/-- The allocation is the program's image, a buffer of its bss, its stack, or one that its table
records. -/
def OwnsAllocation (kernel : Kernel) (q p : Word) (allocation : Allocation) : Prop :=
  kernel.machine.live p = some allocation ∧
    (allocation.owner = .image q ∨ allocation.owner = .bss q ∨ allocation.owner = .stack q ∨
      allocation.owner = .user q ∧ kernel.Records q p allocation.size)

/-- Every page that a program may write is in memory that the program owns. -/
def Isolated (kernel : Kernel) : Prop :=
  ∀ q, kernel.HasProgram q → ∀ v entry,
    pagingGet kernel.machine.memory (kernel.directoryOf q) v = .ok entry → Exposed entry →
      ∃ p allocation, kernel.OwnsAllocation q p allocation ∧
        PageInside p (frameOf entry) allocation

/-- A program is loaded, or a process asks for memory or gives it back. -/
inductive ProcessCall where
  | load (answers : LoadAnswers)
  | malloc (process size : Word)
  | free (process p : Word)

/-- A load that ends in a panic leaves the state as it was. -/
def processStep (kernel : Kernel) : ProcessCall → Kernel
  | .load answers =>
      match kernel.processLoad answers with
      | some (_, _, next) => next
      | none => kernel
  | .malloc process size => (kernel.processMalloc process size).2
  | .free process p => kernel.processFree process p

/-- `fread` makes no heap calls, and the processes that call are in the table. -/
def ProcessLegal (kernel : Kernel) : ProcessCall → Prop
  | .load answers => answers.elf.readCalls = [] ∧ answers.binary.readCalls = []
  | .malloc process _ => kernel.HasProgram process
  | .free process _ => kernel.HasProgram process

/-- What an ELF file maps writable is inside of its image, requests are served or refused without
harm, and a load that fails releases only what is live. -/
def ProcessOrderly (kernel : Kernel) : ProcessCall → Prop
  | .load answers => kernel.Contained answers ∧ ∀ ret stored next,
      kernel.processLoad answers = some (ret, stored, next) →
        kernel.machine.Permits Request.Harmless next.machine ∧
          (ret < 0 → kernel.CleansUpLive answers)
  | .malloc process size => kernel.Answered (.malloc process size)
  | .free _ _ => True

/-! What a call of `process_malloc` or `process_free` changes. -/

/-- The live allocations and the slots of the process change together. -/
inductive HeapChange (kernel : Kernel) (q : Word) (next : Kernel) : Prop
  | none (live : next.machine.live = kernel.machine.live)
      (records : next.processAt = kernel.processAt)
  | granted {slot : ℕ} {p size : Word} (inside : slot < phixMaxProgramAllocations)
      (empty : ((kernel.processAt q).allocations slot).p = null)
      (fresh : kernel.machine.live p = .none)
      (live : next.machine.live = Function.update kernel.machine.live p (some ⟨size, .user q⟩))
      (records : next.processAt = Function.update kernel.processAt q { kernel.processAt q with
        allocations := Function.update (kernel.processAt q).allocations slot ⟨size, p⟩ })
  | released {slot : ℕ} {p : Word}
      (held : p ≠ null → ∃ size, kernel.machine.live p = some ⟨size, .user q⟩)
      (here : ((kernel.processAt q).allocations slot).p = p)
      (live : next.machine.live = Function.update kernel.machine.live p .none)
      (records : next.processAt = Function.update kernel.processAt q { kernel.processAt q with
        allocations := Function.update (kernel.processAt q).allocations slot ⟨0, null⟩ })

section Heap

variable {kernel : Kernel} {q : Word} (accounts : kernel.Accounts {q})

include accounts

/-- What is granted is recorded; what cannot be recorded is given back. -/
theorem Accounts.malloc_change {size : Word} (answered : kernel.Answered (.malloc q size)) :
    kernel.HeapChange q (kernel.processMalloc q size).2 := by
  obtain ⟨directory, has⟩ := accounts.paging.directory (accounts.chunk q rfl)
  by_cases isNull : (kernel.machine.kzalloc (.user q) size).1 = null
  · rw [processMalloc_null kernel q size isNull]
    exact .none (if_neg fun granted => granted.1 isNull) rfl
  cases search : findAllocation (kernel.processAt q) null phixMaxProgramAllocations 0 with
  | none =>
      rw [processMalloc_full isNull search]
      refine .none ?_ rfl
      have fresh := accounts.paging.sound.kzalloc_fresh (.user q) isNull
      change Function.update (kernel.machine.kzalloc (.user q) size).2.live
        (kernel.machine.kzalloc (.user q) size).1 none = kernel.machine.live
      rw [Machine.kzalloc_live, Machine.kmalloc_live, ← Machine.kzalloc_pointer]
      split
      · rw [Function.update_idem, Function.update_eq_self_iff.mpr fresh.symm]
      · exact Function.update_eq_self_iff.mpr fresh.symm
  | some slot =>
      have served : (kernel.machine.request size).Served := by
        rcases answered with served | refused | ⟨_, full⟩
        · exact served
        · exact absurd (kernel.machine.kzalloc_refused (.user q) refused) isNull
        · rw [findAllocation_of_noSlot full] at search
          cases search
      obtain ⟨_, inside, empty, _⟩ := findAllocation_eq_some.mp search
      rw [Nat.zero_add] at inside
      obtain ⟨_, last⟩ := processMalloc_served accounts.paging has served.1 isNull search
      exact .granted inside empty last.fresh last.live last.processAt

/-- What is given back is what the slot found records. -/
theorem Accounts.free_change (p : Word) : kernel.HeapChange q (kernel.processFree q p) := by
  cases search : findAllocation (kernel.processAt q) p phixMaxProgramAllocations 0 with
  | none =>
      rw [processFree_unknown search]
      exact .none rfl rfl
  | some slot =>
      rw [processFree_found search]
      exact .released (fun nonNull => ⟨_, (accounts.found rfl nonNull search).held⟩)
        (findAllocation_eq_some.mp search).2.2.1 rfl rfl

end Heap

/-- What the program has asked for is recorded in the table of a program that is there. -/
def RecordsUser (kernel : Kernel) : Prop :=
  ∀ p allocation q, allocation.owner = .user q → kernel.machine.live p = some allocation →
    kernel.HasProgram q ∧ kernel.Records q p allocation.size

namespace HeapChange

variable {kernel next : Kernel} {q : Word} (change : kernel.HeapChange q next)

include change

/-- The other processes are as they were. -/
theorem others {r : Word} (other : r ≠ q) : next.processAt r = kernel.processAt r := by
  cases change with
  | none _ records => exact congrFun records r
  | granted _ _ _ _ records => exact records ▸ Function.update_of_ne other ..
  | released _ _ _ records => exact records ▸ Function.update_of_ne other ..

/-- Tasks and processes stay live. -/
theorem retains (sound : kernel.machine.HeapSound) : kernel.machine.Retains next.machine := by
  intro p allocation held owner
  cases change with
  | none live => rw [live, held]
  | granted _ _ fresh live =>
      rw [live, Function.update_of_ne, held]
      rintro rfl
      rw [fresh] at held
      cases held
  | released user _ live =>
      rw [live, Function.update_of_ne, held]
      rintro rfl
      obtain ⟨size, user⟩ := user (sound.ne_null held)
      cases held.symm.trans user
      exact owner.elim Owner.noConfusion Owner.noConfusion

/-- What the programs have asked for stays recorded. -/
theorem recordsUser (sound : kernel.machine.HeapSound) (present : kernel.HasProgram q)
    (processes : next.processes = kernel.processes) (records : kernel.RecordsUser) :
    next.RecordsUser := by
  have programs : ∀ {r}, kernel.HasProgram r → next.HasProgram r := by
    intro r there
    unfold HasProgram
    rw [processes]
    exact there
  intro p allocation r user held
  -- An allocation that was there is not in the slot that changes.
  have older : kernel.machine.live p = some allocation →
      (∀ slot, (kernel.processAt q).allocations slot = ⟨allocation.size, p⟩ →
        (next.processAt q).allocations slot = ⟨allocation.size, p⟩) →
      next.HasProgram r ∧ next.Records r p allocation.size := by
    intro before still
    obtain ⟨there, slot, inside, here⟩ := records p allocation r user before
    refine ⟨programs there, slot, inside, ?_⟩
    by_cases own : r = q
    · subst own
      exact still slot here
    · rw [change.others own, here]
  cases change with
  | none live same => exact older (live ▸ held) fun slot here => by rw [same, here]
  | @granted slot p' size inside empty fresh live same =>
      rw [live] at held
      by_cases here : p = p'
      · rw [here, Function.update_self] at held
        cases held
        cases user
        refine ⟨programs present, slot, inside, ?_⟩
        rw [same, here, Function.update_self]
        exact Function.update_self ..
      · rw [Function.update_of_ne here] at held
        refine older held fun other equal => ?_
        rw [same, Function.update_self]
        refine (Function.update_of_ne ?_ ..).trans equal
        rintro rfl
        rw [equal] at empty
        exact sound.ne_null held empty
  | @released slot p' _ there live same =>
      rw [live] at held
      by_cases here : p = p'
      · rw [here, Function.update_self] at held
        cases held
      · rw [Function.update_of_ne here] at held
        refine older held fun other equal => ?_
        rw [same, Function.update_self]
        refine (Function.update_of_ne ?_ ..).trans equal
        rintro rfl
        rw [equal] at there
        exact here there

end HeapChange

/-! What a load does to the table of processes. -/

/-- A new task registers no process. -/
theorem taskInit_table {kernel next : Kernel} {task process : Word} {ret : Int}
    (made : kernel.taskInit task process = some (ret, next)) :
    next.processes = kernel.processes ∧ kernel.machine.AddsNoUser next.machine := by
  unfold taskInit at made
  rw [Option.bind_eq_bind, Option.bind_eq_some_iff] at made
  obtain ⟨⟨pageDirectory, machine⟩, chunk, rest⟩ := made
  have adds : kernel.machine.AddsNoUser machine := .pagingNewChunk chunk
  dsimp only at rest
  split at rest
  · cases rest
    exact ⟨rfl, adds⟩
  · cases rest
    exact ⟨rfl, adds⟩

theorem taskNew_table {kernel next : Kernel} {process task : Word}
    (made : kernel.taskNew process = some (task, next)) :
    next.processes = kernel.processes ∧ kernel.machine.AddsNoUser next.machine := by
  have added : kernel.machine.AddsNoUser (kernel.kzalloc .task sizeofTask).2.machine :=
    .kzalloc (fun _ => Owner.noConfusion) sizeofTask
  unfold taskNew at made
  dsimp only at made
  split at made
  · cases made
    exact ⟨rfl, added⟩
  rw [Option.bind_eq_bind, Option.bind_eq_some_iff] at made
  obtain ⟨⟨ret, middle⟩, started, rest⟩ := made
  obtain ⟨processes, adds⟩ := taskInit_table started
  have whole := added.trans adds
  dsimp only at rest
  split at rest
  · cases rest
    exact ⟨processes, whole⟩
  split at rest
  · cases rest
    exact ⟨processes, whole⟩
  · cases rest
    exact ⟨processes, whole⟩

/-- A load registers its process if it succeeds, and allocates nothing that a program asks for. -/
theorem Reaches.table {kernel : Kernel} {answers : LoadAnswers} {processSlot : ℕ} {process : Word}
    {label : LoadLabel} (reaches : kernel.Reaches answers processSlot process label) :
    label.kernel.processes = (if label.ret < 0 then kernel.processes
      else Function.update kernel.processes processSlot process) ∧
      kernel.machine.AddsNoUser label.kernel.machine := by
  have read := (kernel.setProcess process Process.zero).processLoadData_ownWork process answers
  have stack : ∀ {middle stacked : Kernel} {programSp : Word},
      (kernel.setProcess process Process.zero).OwnWork middle process →
      middle.kzalloc (.stack process) phixUserProgramStackSize = (programSp, stacked) →
      stacked.processes = kernel.processes ∧ kernel.machine.AddsNoUser stacked.machine :=
    fun work granted =>
      let stacked := work.kzalloc (fun _ => Owner.noConfusion) granted
      ⟨stacked.processes, stacked.addsNoUser⟩
  cases reaches with
  | unread loaded failed =>
      rw [loaded] at read
      exact ⟨read.processes.trans (if_pos failed).symm, read.addsNoUser⟩
  | unstacked loaded _ refused =>
      rw [loaded] at read
      obtain ⟨processes, adds⟩ := stack read refused
      exact ⟨processes.trans (if_pos (show (-ENOMEM : Int) < 0 by decide)).symm, adds⟩
  | unstarted loaded _ granted _ made failed =>
      rw [loaded] at read
      obtain ⟨processes, adds⟩ := stack read granted
      obtain ⟨same, more⟩ := taskNew_table made
      exact ⟨(same.trans processes).trans (if_pos failed).symm, adds.trans more⟩
  | @mapped _ _ _ _ _ _ status next loaded _ granted _ made _ mapped =>
      rw [loaded] at read
      obtain ⟨processes, adds⟩ := stack read granted
      obtain ⟨same, more⟩ := taskNew_table made
      have maps := processMapMemory_ownWork _ process mapped
      have table : next.processes = kernel.processes := maps.processes.trans (same.trans processes)
      have whole := (adds.trans more).trans maps.addsNoUser
      by_cases failed : status < 0
      · rw [if_pos failed]
        exact ⟨table.trans (if_pos failed).symm, whole⟩
      · rw [if_neg failed]
        refine ⟨?_, whole⟩
        rw [if_neg failed, ← table]

/-- Cleaning up does not touch the table of processes. -/
theorem LoadLabel.out_table (label : LoadLabel) :
    label.out.2.2.processes = label.kernel.processes ∧
      label.kernel.machine.AddsNoUser label.out.2.2.machine := by
  unfold out processLoadOut taskFree
  split
  · dsimp only
    split
    · exact ⟨rfl, .kfree _⟩
    · refine ⟨taskListRemove_processes _ _, ?_⟩
      unfold kfree
      dsimp only
      rw [taskListRemove_machine]
      exact (Machine.AddsNoUser.kfree label.programSp).trans
        ((Machine.AddsNoUser.pagingFreeChunk _).trans (.kfree label.task))
  · exact ⟨rfl, .refl _⟩

/-- The slot that a load takes is free. -/
theorem processGetFreeSlot_free {kernel : Kernel} (free : ¬ kernel.processGetFreeSlot < 0) :
    kernel.processGetFreeSlot.toNat < phixMaxProcesses ∧
      kernel.processes kernel.processGetFreeSlot.toNat = null := by
  have isNull := processGet_freeSlot free
  unfold processGet at isNull
  split at isNull
  · exact absurd isNull (by decide)
  · rename_i inside
    exact ⟨by omega, isNull⟩

/-- A load that succeeds puts its process into a free slot; one that fails leaves the table. -/
theorem processLoad_table {kernel next : Kernel} {answers : LoadAnswers} {ret : Int}
    {stored : Option Word} (loaded : kernel.processLoad answers = some (ret, stored, next)) :
    kernel.machine.AddsNoUser next.machine ∧
      (ret < 0 → next.processes = kernel.processes) ∧
      (¬ ret < 0 → ∃ slot < phixMaxProcesses, kernel.processes slot = null ∧
        ∃ process, stored = some process ∧
          next.processes = Function.update kernel.processes slot process) := by
  have recorded : kernel.machine.AddsNoUser (kernel.kzalloc .process sizeofProcess).2.machine :=
    .kzalloc (fun _ => Owner.noConfusion) sizeofProcess
  by_cases full : kernel.processGetFreeSlot < 0
  · unfold processLoad at loaded
    dsimp only at loaded
    rw [if_pos full] at loaded
    cases loaded
    exact ⟨.refl _, fun _ => rfl, fun finished => absurd (by decide) finished⟩
  by_cases finished : ret < 0
  · rcases processLoad_cases loaded full with ⟨_, rfl⟩ | ⟨_, label, reached, ends⟩
    · exact ⟨recorded, fun _ => rfl, absurd finished⟩
    obtain rfl : label.out.2.2 = next := congrArg (fun result => result.2.2) ends
    have status : label.ret < 0 := by
      rw [← label.out_status, ends]
      exact finished
    obtain ⟨table, adds⟩ := (processLoadLabel_reaches reached).table
    obtain ⟨same, more⟩ := label.out_table
    exact ⟨(recorded.trans adds).trans more, fun _ => same.trans (table.trans (if_pos status)),
      absurd finished⟩
  · obtain ⟨_, label, reached, rfl, rfl, rfl⟩ := processLoad_label loaded finished
    have reaches := processLoadLabel_reaches reached
    obtain ⟨table, adds⟩ := reaches.table
    obtain ⟨inside, isNull⟩ := processGetFreeSlot_free full
    exact ⟨recorded.trans adds, fun failed => absurd failed finished, fun _ => ⟨_, inside, isNull,
      _, reaches.process finished, table.trans (if_neg finished)⟩⟩

/-! The invariant. -/

/-- The accounts of each process on its own. -/
theorem Accounts.of_forall {kernel : Kernel} {processes : Set Word}
    (paging : kernel.machine.PagingSound)
    (each : ∀ q ∈ processes, kernel.Accounts {q}) : kernel.Accounts processes :=
  ⟨paging, fun q member => (each q member).chunk q rfl,
    fun q member => (each q member).recorded q rfl, fun q member => (each q member).distinct q rfl⟩

/-- The accounts of several processes are those of each. -/
theorem Accounts.single {kernel : Kernel} {processes : Set Word}
    (accounts : kernel.Accounts processes) {q : Word} (member : q ∈ processes) :
    kernel.Accounts {q} where
  paging := accounts.paging
  chunk := by
    rintro _ rfl
    exact accounts.chunk _ member
  recorded := by
    rintro _ rfl
    exact accounts.recorded _ member
  distinct := by
    rintro _ rfl
    exact accounts.distinct _ member

/-- A program has its task, its accounts are right, and it is confined. -/
structure HoldsProgram (kernel : Kernel) (q : Word) : Prop where
  task : kernel.machine.live (kernel.processAt q).task = some ⟨sizeofTask, .task⟩
  accounts : kernel.Accounts {q}
  confined : kernel.machine.Confined q (kernel.chunkOf q)

/-- The programs of the table, each with an address space of its own. -/
structure Owned (kernel : Kernel) : Prop where
  paging : kernel.machine.PagingSound
  listed : kernel.Listed
  programs : ∀ q, kernel.HasProgram q → kernel.HoldsProgram q
  chunks : ∀ q r, kernel.HasProgram q → kernel.HasProgram r → kernel.chunkOf q = kernel.chunkOf r →
    q = r
  recordsUser : kernel.RecordsUser

/-- There is no program yet. -/
structure Unloaded (kernel : Kernel) : Prop where
  paging : kernel.machine.PagingSound
  processes : ∀ i < phixMaxProcesses, kernel.processes i = null
  taskHead : kernel.taskHead = null
  taskTail : kernel.taskTail = null
  currentTask : kernel.currentTask = null
  noUser : ∀ p allocation q, kernel.machine.live p = some allocation → allocation.owner ≠ .user q

/-- The machine as it has been booted. -/
theorem booted_unloaded (memory : ByteMemory) : (Kernel.booted memory).Unloaded where
  paging := Machine.booted_pagingSound memory
  processes _ _ := rfl
  taskHead := rfl
  taskTail := rfl
  currentTask := rfl
  noUser _ _ _ held := by cases held

theorem Unloaded.owned {kernel : Kernel} (unloaded : kernel.Unloaded) : kernel.Owned := by
  have absent : ∀ q, ¬ kernel.HasProgram q := by
    rintro q ⟨nonNull, i, inside, rfl⟩
    exact nonNull (unloaded.processes i inside)
  exact {
    paging := unloaded.paging
    listed := .empty unloaded.taskHead unloaded.taskTail unloaded.currentTask
    programs := fun q present => absurd present (absent q)
    chunks := fun q _ present => absurd present (absent q)
    recordsUser := fun p allocation q user held => absurd user (unloaded.noUser p _ q held) }

/-- The frame of a page that a program may write is a page of the program's memory. -/
theorem Owned.isolated {kernel : Kernel} (owned : kernel.Owned) : kernel.Isolated := by
  intro q present v entry read exposed
  obtain ⟨_, directory, has, backed⟩ := (owned.programs q present).confined
  have wired := (has.chunkAt owned.paging.sound).wired
  unfold directoryOf at read
  rw [has.root, pagingGet_eq wired] at read
  split at read
  · cases read
    obtain ⟨p, allocation, held, inside, program, _⟩ := backed v exposed
    refine ⟨p, allocation, ⟨held, ?_⟩, inside.page (owned.paging.sound.aligned held) ?_⟩
    · refine (Owner.program_eq_some.mp program).imp_right (Or.imp_right (Or.imp_right ?_))
      exact fun user => ⟨user, (owned.recordsUser p allocation q user held).2⟩
    · unfold frameOf
      rw [AddressSpace.high_toNat]
      omega
  · cases read

/-- A call of a program for memory. -/
theorem Owned.heap {kernel next : Kernel} (owned : kernel.Owned) {q : Word}
    (present : kernel.HasProgram q) (change : kernel.HeapChange q next)
    (threads : kernel.SameThreads next q)
    (accounts : kernel.Accounts {r | kernel.HasProgram r} →
      next.Accounts {r | kernel.HasProgram r})
    (keeps : kernel.machine.KeepsConfined q (kernel.chunkOf q) next.machine) : next.Owned := by
  have programs : ∀ {r}, next.HasProgram r ↔ kernel.HasProgram r := by
    intro r
    unfold HasProgram
    rw [threads.processes]
  have retains := change.retains owned.paging.sound
  have accounts :=
    accounts (.of_forall owned.paging fun r there => (owned.programs r there).accounts)
  have task : ∀ r, (next.processAt r).task = (kernel.processAt r).task := by
    intro r
    by_cases own : r = q
    · rw [own, threads.task]
    · rw [change.others own]
  have chunk : ∀ r, next.chunkOf r = kernel.chunkOf r := by
    intro r
    unfold chunkOf
    rw [task, threads.taskAt]
  refine ⟨accounts.paging, owned.listed.congr ⟨threads.taskHead, threads.taskTail,
      threads.currentTask, threads.currentProcess, fun t _ => by rw [threads.taskAt]⟩ retains,
    fun r there => ?_, fun r t first second => ?_,
    change.recordsUser owned.paging.sound present threads.processes owned.recordsUser⟩
  · have there := programs.mp there
    have holds := owned.programs r there
    refine ⟨?_, accounts.single there, ?_⟩
    · rw [task]
      exact retains _ _ holds.task (.inl rfl)
    · rw [chunk]
      refine keeps r _ ⟨fun own => own ▸ rfl, ?_⟩ holds.confined
      exact owned.chunks r q there present
  · rw [chunk, chunk]
    exact owned.chunks r t (programs.mp first) (programs.mp second)

/-- The programs that are there when another is loaded, or is not. -/
theorem SparesPrograms.holds {kernel next : Kernel} (spares : kernel.SparesPrograms next)
    (retains : kernel.machine.Retains next.machine) (paging : next.machine.PagingSound) {q : Word}
    (holds : kernel.HoldsProgram q) :
    next.HoldsProgram q ∧ next.chunkOf q = kernel.chunkOf q := by
  have isProcess := holds.confined.isProcess
  obtain ⟨accounts, chunk⟩ := spares.accounts paging holds.accounts isProcess holds.task
  refine ⟨⟨?_, accounts, ?_⟩, chunk⟩
  · rw [spares.processes _ _ isProcess]
    exact retains _ _ holds.task (.inl rfl)
  · rw [chunk]
    exact spares.confines retains holds.confined

/-- What programs have asked for when another has been loaded, or has not. -/
theorem RecordsUser.spared {kernel next : Kernel} (records : kernel.RecordsUser)
    (spares : kernel.SparesPrograms next) (adds : kernel.machine.AddsNoUser next.machine)
    (programs : ∀ q, kernel.HasProgram q → kernel.HoldsProgram q)
    (table : ∀ q, kernel.HasProgram q → next.HasProgram q) : next.RecordsUser := by
  intro p allocation q user held
  obtain ⟨present, slot, inside, here⟩ :=
    records p allocation q user (adds p allocation q user held)
  refine ⟨table q present, slot, inside, ?_⟩
  rw [spares.processes _ _ (programs q present).confined.isProcess, here]

section Loads

variable {kernel next : Kernel} (owned : kernel.Owned) {answers : LoadAnswers} {ret : Int}
  {stored : Option Word} (quiet : answers.elf.readCalls = [] ∧ answers.binary.readCalls = [])
  (loaded : kernel.processLoad answers = some (ret, stored, next))
  (orderly : kernel.machine.Permits Request.Harmless next.machine)

include owned quiet loaded orderly

/-- A load that fails. -/
theorem Owned.load_fails (failed : ret < 0) (clean : kernel.CleansUpLive answers) : next.Owned := by
  have spares := processLoad_spares owned.paging owned.listed quiet loaded orderly fun _ => clean
  obtain ⟨paging, same, retains⟩ :=
    processLoad_stopped owned.paging owned.listed quiet loaded orderly failed clean
  obtain ⟨adds, table, _⟩ := processLoad_table loaded
  have programs : ∀ {q}, next.HasProgram q ↔ kernel.HasProgram q := by
    intro q
    unfold HasProgram
    rw [table failed]
  have holds : ∀ {q}, kernel.HasProgram q → _ := fun present =>
    spares.holds retains paging (owned.programs _ present)
  refine ⟨paging, owned.listed.congr same retains, fun q present => (holds (programs.mp present)).1,
    fun q r first second => ?_,
    owned.recordsUser.spared spares adds owned.programs fun q => programs.mpr⟩
  rw [(holds (programs.mp first)).2, (holds (programs.mp second)).2]
  exact owned.chunks q r (programs.mp first) (programs.mp second)

/-- A load that succeeds. -/
theorem Owned.load_succeeds (finished : ¬ ret < 0) (contained : kernel.Contained answers) :
    next.Owned := by
  have spares := processLoad_spares owned.paging owned.listed quiet loaded orderly
    fun failed => absurd failed finished
  obtain ⟨paging, retains, process, task, rfl, _, isTask, thread, joins⟩ :=
    processLoad_started owned.paging owned.listed quiet loaded orderly finished
  have begins := processLoad_begins owned.paging owned.listed quiet loaded orderly finished rfl
  obtain ⟨_, same, confined⟩ :=
    processLoad_confined owned.paging quiet contained orderly loaded finished
  cases Option.some.inj same
  obtain ⟨adds, _, table⟩ := processLoad_table loaded
  obtain ⟨slot, inside, isNull, _, same, table⟩ := table finished
  cases Option.some.inj same
  have older : ∀ {q}, kernel.HasProgram q → next.HasProgram q := by
    rintro q ⟨nonNull, i, below, rfl⟩
    refine ⟨nonNull, i, below, ?_⟩
    rw [table, Function.update_of_ne]
    rintro rfl
    exact nonNull isNull
  have cases : ∀ {q}, next.HasProgram q → q = process ∨ kernel.HasProgram q := by
    rintro q ⟨nonNull, i, below, here⟩
    rw [table] at here
    by_cases new : i = slot
    · rw [new, Function.update_self] at here
      exact .inl here.symm
    · rw [Function.update_of_ne new] at here
      exact .inr ⟨nonNull, i, below, here⟩
  have holds : ∀ {q}, kernel.HasProgram q → _ := fun present =>
    spares.holds retains paging (owned.programs _ present)
  -- The chunk of the new program was not there.
  have apart : ∀ {q}, kernel.HasProgram q → next.chunkOf q ≠ next.chunkOf process := by
    intro q present equal
    obtain ⟨base, size, held⟩ := (owned.programs q present).accounts.chunk q rfl
    rw [← (holds present).2, equal] at held
    exact Owner.noConfusion (begins.freshChunk _ held)
  refine ⟨paging, ?_, fun q present => ?_, fun q r first second equal => ?_,
    owned.recordsUser.spared spares adds owned.programs fun q => older⟩
  · exact joins.listed owned.paging owned.listed retains isTask
  · rcases cases present with rfl | present
    · exact ⟨thread ▸ isTask, begins.accounts, confined⟩
    · exact (holds present).1
  · rcases cases first with rfl | first <;> rcases cases second with rfl | second
    · rfl
    · exact absurd equal.symm (apart second)
    · exact absurd equal (apart first)
    · rw [(holds first).2, (holds second).2] at equal
      exact owned.chunks q r first second equal

end Loads

/-- Every call keeps the programs and what they own. -/
theorem Owned.step {kernel : Kernel} (owned : kernel.Owned) {call : ProcessCall}
    (legal : kernel.ProcessLegal call) (orderly : kernel.ProcessOrderly call) :
    (kernel.processStep call).Owned := by
  cases call with
  | load answers =>
      obtain ⟨contained, loads⟩ := orderly
      cases loaded : kernel.processLoad answers with
      | none =>
          have stays : kernel.processStep (.load answers) = kernel := by
            simp only [processStep, loaded]
          rw [stays]
          exact owned
      | some result =>
          obtain ⟨ret, stored, next⟩ := result
          have leads : kernel.processStep (.load answers) = next := by
            simp only [processStep, loaded]
          rw [leads]
          obtain ⟨permits, clean⟩ := loads ret stored next loaded
          by_cases failed : ret < 0
          · exact owned.load_fails legal loaded permits failed (clean failed)
          · exact owned.load_succeeds legal loaded permits failed contained
  | malloc q size =>
      have accounts := (owned.programs q legal).accounts
      exact owned.heap legal (accounts.malloc_change orderly)
        (kernel.processMalloc_sameThreads q size) (fun all => (all.malloc legal orderly).2)
        (accounts.malloc_confines orderly)
  | free q p =>
      have accounts := (owned.programs q legal).accounts
      exact owned.heap legal (accounts.free_change p) (kernel.processFree_sameThreads q p)
        (fun all => (all.free legal p).2) (accounts.free_confines p)

/-- **The programs are isolated while what they map writable is inside of their images.** In every
run of loads of any files and of calls of `process_malloc` and `process_free` by any programs: when
each ELF file that is loaded has its headers and what it maps writable inside of its image, when
every request is served or refused without harm, and when a load that fails releases only what is
live, a page that a program may write is in its image, in a buffer of its bss, in its stack or in an
allocation that its table records. -/
theorem process_isolation {kernel : Kernel} (unloaded : kernel.Unloaded)
    {calls : List ProcessCall} (legal : Along processStep ProcessLegal kernel calls)
    (orderly : Along processStep ProcessOrderly kernel calls) :
    Throughout processStep Isolated kernel calls :=
  throughout_of_invariant Owned
    (fun _ _ owned allowed => owned.step allowed.1 allowed.2)
    (fun _ owned => owned.isolated) unloaded.owned (legal.and orderly)

end Kernel

/-- An executable with a segment that may be written: the file itself, or what lies the offset in
units of 16 MiB behind its start. -/
def storingElf (offset : Byte) : ℕ → Byte
  | 59 => offset
  | 76 => 7
  | i => plainElf i

section Storing

variable {offset : Byte} (known : offset = 0 ∨ offset = 7)

include known

theorem storingElf_headers : programHeaders (FileAnswers.ofFile 96 (storingElf offset)).file 0 =
    [elf32PhdrAt (FileAnswers.ofFile 96 (storingElf offset)).file 52] := by
  have number : (ePhnum (FileAnswers.ofFile 96 (storingElf offset)).file 0).toNat = 1 := by
    rcases known with rfl | rfl <;> decide
  have table : elfProgramHeader (FileAnswers.ofFile 96 (storingElf offset)).file 0 0 = 52 := by
    rcases known with rfl | rfl <;> decide
  unfold programHeaders
  rw [number, List.range_one, List.map_singleton, table]

theorem storingElf_loadable : Loadable (FileAnswers.ofFile 96 (storingElf offset)).file 96 := by
  have headers := storingElf_headers known
  rcases known with rfl | rfl <;>
    refine ⟨⟨by decide, ⟨by decide, by decide⟩, by decide, ⟨by decide, by decide, by decide, ?_⟩⟩,
      ?_, ?_⟩ <;> rw [headers] <;> intro phdr member <;>
    rw [List.mem_singleton.mp member] <;> decide

end Storing

theorem storingElf_inside :
    SegmentsInside (programHeaders (FileAnswers.ofFile 96 (storingElf 0)).file 0) 96 := by
  rw [storingElf_headers (.inl rfl)]
  intro phdr member
  rw [List.mem_singleton.mp member]
  decide

namespace Kernel

/-- A program is loaded from the file into the first free slot. -/
theorem load_storingElf {kernel : Kernel} {k i : ℕ} (paging : kernel.machine.PagingSound)
    (free : kernel.machine.FreeFrom k) (slot : kernel.processGetFreeSlot = i)
    (room : k + 1043 ≤ 25600) :
    kernel.ProcessOrderly (.load (.ofFile 96 (storingElf 0))) ∧ ∃ process next,
      kernel.processStep (.load (.ofFile 96 (storingElf 0))) = next ∧ process ≠ null ∧
        next.machine.PagingSound ∧ next.machine.FreeFrom (k + 1043) ∧
        next.processes = Function.update kernel.processes i process := by
  have one : blockCount 96 = 1 := by decide
  obtain ⟨process, _, next, stored, loaded, pointer, sound, table, takes, asks⟩ :=
    processLoad_ofFile paging free slot (by omega)
      (storingElf_loadable (.inl rfl))
  obtain ⟨found, _⟩ := processLoad_label loaded (lt_irrefl 0)
  have leads : kernel.processStep (.load (.ofFile 96 (storingElf 0))) = next := by
    simp only [processStep, loaded]
  have loadable := storingElf_loadable (.inl rfl)
  refine ⟨⟨contained_of_stored stored loadable.complete storingElf_inside, ?_⟩,
    process, next, leads, fun absent => found (pointer.symm.trans absent), sound, ?_, table⟩
  · intro ret also after same
    rw [loaded] at same
    cases same
    exact ⟨asks, fun failed => absurd failed (lt_irrefl 0)⟩
  · rw [one] at takes
    exact takes.freeFrom k free room

/-- Two programs are loaded; the first asks for two pages and gives them back. -/
theorem process_isolation_two : ∃ q r p, q ≠ null ∧ r ≠ null ∧
    (exec processStep (Kernel.booted fun _ => 0) [.load (.ofFile 96 (storingElf 0)),
      .load (.ofFile 96 (storingElf 0))]).processes = Function.update
        (Function.update (fun _ => null) 0 q) 1 r ∧
    Throughout processStep Isolated (Kernel.booted fun _ => 0)
      [.load (.ofFile 96 (storingElf 0)), .load (.ofFile 96 (storingElf 0)), .malloc q 0x1001,
        .free q p] := by
  have paging : (Kernel.booted fun _ => 0).machine.PagingSound := Machine.booted_pagingSound _
  have free : (Kernel.booted fun _ => 0).machine.FreeFrom 0 := Machine.booted_freeFrom _
  obtain ⟨orderly, q, first, leads, found, paging, free, table⟩ :=
    load_storingElf paging free (processGetFreeSlot_zero rfl) (by decide)
  obtain ⟨again, r, second, follows, other, paging, free, both⟩ :=
    load_storingElf (i := 1) paging free
      (processGetFreeSlot_one (by rw [table]; exact found) (by rw [table]; rfl)) (by decide)
  have present : second.HasProgram q := ⟨found, 0, by decide, by rw [both, table]; rfl⟩
  refine ⟨q, r, (second.processMalloc q 0x1001).1, found, other, ?_,
    process_isolation (booted_unloaded _) ⟨⟨rfl, rfl⟩, ?_⟩ ⟨orderly, ?_⟩⟩
  · unfold exec exec exec
    rw [leads, follows, both, table]
    rfl
  · rw [leads]
    refine ⟨⟨rfl, rfl⟩, ?_⟩
    rw [follows]
    exact ⟨present, ⟨found, 0, by decide, (congrFun (second.processMalloc_sameThreads q
      0x1001).processes 0).trans (by rw [both, table]; rfl)⟩, trivial⟩
  · rw [leads]
    refine ⟨again, ?_⟩
    rw [follows]
    exact ⟨.inl (free.served (by decide) (by decide)), trivial, trivial⟩

/-! A segment that is outside of its image. -/

/-- The program has been mapped from the headers of the file, and its stack last. -/
def MapsHeaders (kernel : Kernel) (process : Word) (file : ByteMemory) (size : Word) : Prop :=
  ∃ (record : ElfFile) (machine : Machine) (directory : PageDirectory) (space : AddressSpace)
    (stack : Process), machine.HeapSound ∧
    machine.live record.elfMemory = some ⟨size, .image process⟩ ∧
    machine.live stack.stack = some ⟨phixUserProgramStackSize, .stack process⟩ ∧
    kernel.machine.HasChunk (kernel.chunkOf process) directory ∧
    directory.space kernel.machine.memory = space.mapAll
      ((placeHeaders process record (programHeaders file 0) machine).1 ++ [stackRegion stack])

/-- An ELF file that is mapped is mapped from its headers. -/
theorem ElfStart.mapsHeaders {start next : Kernel} {process task elfFile size : Word}
    {file : ByteMemory} {directory : PageDirectory}
    (elf : start.ElfStart process task elfFile file size directory) (complete : Complete file size)
    (accepted : Accepted file 0)
    (harmless : HeadersHarmless process (start.elfFileAt (start.processAt process).p)
      (programHeaders file 0) start.machine)
    (mapped : start.processMapMemory process = some (0, next)) :
    next.MapsHeaders process file size := by
  have headers : programHeaders start.machine.memory
      (elfHeader (start.elfFileAt (start.processAt process).p)) = programHeaders file 0 :=
    elf.headers complete accepted
  obtain ⟨state, _⟩ := processMapMemory_mapped elf.paging elf.has
    (.inr ⟨elf.filetype, elf.elfImage complete accepted, headers ▸ harmless⟩) mapped
  refine ⟨start.elfFileAt elfFile, start.machine, directory, directory.space start.machine.memory,
    start.processAt process, elf.paging.sound, elf.holds.held, elf.stack, ?_,
    state.space.trans ?_⟩
  · rw [state.chunkOf]
    exact state.has
  · unfold memoryRegions
    rw [elf.program] at headers
    simp only [elf.filetype, if_true, elf.program, headers]

/-- A segment of one page at the address of a program is apart from its stack. -/
theorem mapAll_segment (space : AddressSpace) {phdr : Elf32Phdr} {paddr : Word} {stack : Process}
    (vaddr : phdr.pVaddr = phixProgramVirtualAddress)
    (pages : mapToPages (pageAlignLower paddr) (pageAlign (paddr + phdr.pMemsz)) = 1)
    (stackPages : mapToPages stack.stack
      (pageAlign (stack.stack + phixUserProgramStackSize)) = 4) :
    space.mapAll ([phdrRegion phdr paddr] ++ [stackRegion stack]) phixProgramVirtualAddress =
      pageAlignLower paddr ||| flagWord (phdrFlags phdr) := by
  rw [AddressSpace.mapAll_concat, AddressSpace.map_of_notMem]
  · have start : (phixProgramVirtualAddress - pageAlignLower phdr.pVaddr).toNat = 0 := by
      rw [vaddr]
      decide
    have single : space.mapAll [phdrRegion phdr paddr] = space.map (pageAlignLower phdr.pVaddr)
        (pageAlignLower paddr) (flagWord (phdrFlags phdr)) 1 := by
      rw [← pages]
      rfl
    rw [single]
    unfold AddressSpace.map
    rw [start, if_pos (by decide)]
    simp only [Nat.zero_div, Nat.zero_mul, BitVec.add_zero]
  · unfold stackRegion
    dsimp only
    rw [stackPages]
    decide

/-- The program may write the page at the address of its segment, 112 MiB behind its image. -/
theorem MapsHeaders.outside {kernel : Kernel} {process : Word}
    (maps : kernel.MapsHeaders process (FileAnswers.ofFile 96 (storingElf 7)).file 96)
    (paging : kernel.machine.PagingSound) : ∃ entry,
    pagingGet kernel.machine.memory (kernel.directoryOf process) phixProgramVirtualAddress =
      .ok entry ∧ Exposed entry ∧ 0x08000000 ≤ (frameOf entry).toNat ∧
      (frameOf entry).toNat < 2 ^ 31 := by
  obtain ⟨record, machine, directory, space, stack, sound, image, stacked, has, mapped⟩ := maps
  have wired := (has.chunkAt paging.sound).wired
  obtain ⟨aligned, low, high, _⟩ := allocationEnd (sound.proper image) (sound.pool image)
  have stackPages : mapToPages stack.stack
      (pageAlign (stack.stack + phixUserProgramStackSize)) = 4 :=
    mapToPages_block (sound.proper stacked) (sound.pool stacked)
  obtain ⟨phdr, headers, vaddr, offset, filesz, memsz, flags⟩ : ∃ phdr,
      programHeaders (FileAnswers.ofFile 96 (storingElf 7)).file 0 = [phdr] ∧
        phdr.pVaddr = phixProgramVirtualAddress ∧ phdr.pOffset = 0x07000000 ∧
        phdr.pFilesz ≠ 0 ∧ phdr.pMemsz = 96 ∧ phdr.pFlags &&& pfW ≠ 0 :=
    ⟨_, storingElf_headers (.inr rfl), by decide, by decide, by decide, by decide, by decide⟩
  -- The only segment is placed where `p_offset` says.
  have place : (elfPhdrPaddr record phdr).toNat = record.elfMemory.toNat + 0x07000000 := by
    unfold elfPhdrPaddr
    rw [offset, BitVec.toNat_add]
    change (_ + 0x07000000) % 2 ^ 32 = _
    omega
  have frame : (pageAlignLower (elfPhdrPaddr record phdr)).toNat =
      record.elfMemory.toNat + 0x07000000 := by
    refine (alignLower_toNat _).trans ?_
    omega
  have small : phdr.pMemsz.toNat = 96 := congrArg BitVec.toNat memsz
  have pages : mapToPages (pageAlignLower (elfPhdrPaddr record phdr))
      (pageAlign (elfPhdrPaddr record phdr + phdr.pMemsz)) = 1 := by
    rw [mapToPages_eq (.inl (by omega)) (by omega), place, small]
    omega
  have regions : (placeHeaders process record [phdr] machine).1 =
      [phdrRegion phdr (elfPhdrPaddr record phdr)] := by
    unfold placeHeaders placeHeader
    rw [if_neg filesz]
    rfl
  rw [headers, regions] at mapped
  have entry := congrFun mapped phixProgramVirtualAddress
  rw [mapAll_segment space vaddr pages stackPages] at entry
  have page : (pageAlignLower (elfPhdrPaddr record phdr)).toNat % 4096 = 0 :=
    pageAlignLower_aligned _
  have shown : frameOf (pageAlignLower (elfPhdrPaddr record phdr) ||| flagWord (phdrFlags phdr)) =
      pageAlignLower (elfPhdrPaddr record phdr) :=
    AddressSpace.or_high page (flagWord_lt _)
  refine ⟨_, ?_, (exposed_packed page (flagWord_lt _)).mpr (exposed_phdrFlags.mpr flags), ?_, ?_⟩
  · unfold directoryOf
    rw [has.root, pagingGet_eq wired, if_pos (by decide)]
    exact congrArg Except.ok entry
  · rw [shown]
    omega
  · rw [shown]
    omega

/-- Once the file is loaded, its program may write a page beyond the pool. -/
theorem not_isolated_storingElf {kernel : Kernel} (paging : kernel.machine.PagingSound)
    (free : kernel.machine.FreeFrom 0) (empty : kernel.processes 0 = null) :
    ¬ (kernel.processStep (.load (.ofFile 96 (storingElf 7)))).Isolated := by
  have loadable := storingElf_loadable (.inr rfl)
  obtain ⟨process, elfFile, next, stored, loaded, pointer, sound, table, takes, asks⟩ :=
    processLoad_ofFile paging free (processGetFreeSlot_zero empty) (by decide) loadable
  obtain ⟨found, _⟩ := processLoad_label loaded (lt_irrefl 0)
  obtain ⟨start, middle, processes, task, directory, elf, accepted, harmless, mapped, rfl⟩ :=
    processLoad_elfStart paging ⟨rfl, rfl⟩ stored loaded (lt_irrefl 0)
      loadable.complete asks
  have maps := elf.mapsHeaders loadable.complete accepted harmless mapped
  obtain ⟨entry, read, exposed, low, high⟩ := maps.outside sound
  have leads : kernel.processStep (.load (.ofFile 96 (storingElf 7))) =
      { middle with processes } := by
    simp only [processStep, loaded]
  have present : Kernel.HasProgram { middle with processes } process :=
    ⟨fun absent => found (pointer.symm.trans absent), 0, by decide,
      (congrFun table 0).trans (Function.update_self ..)⟩
  rw [leads]
  intro isolated
  obtain ⟨p, allocation, ⟨held, _⟩, inside⟩ := isolated process present _ _ read exposed
  have below := sound.sound.below_freeFrom (takes.freeFrom 0 free (by decide)) (by decide) held
  rw [show blockCount 96 = 1 by decide] at below
  unfold PageInside at inside
  have offset := BitVec.toNat_sub (frameOf entry) p
  have bounded := p.isLt
  omega

/-- A program whose writable segment is outside of its file may write beyond the pool. -/
theorem process_isolation_fails : (Kernel.booted fun _ => 0).Unloaded ∧
    Along processStep ProcessLegal (Kernel.booted fun _ => 0) [.load (.ofFile 96 (storingElf 7))] ∧
    ¬ Throughout processStep Isolated (Kernel.booted fun _ => 0)
      [.load (.ofFile 96 (storingElf 7))] := by
  refine ⟨booted_unloaded _, ⟨⟨rfl, rfl⟩, trivial⟩, fun isolated => ?_⟩
  exact absurd isolated.2.start (not_isolated_storingElf (Machine.booted_pagingSound _)
    (Machine.booted_freeFrom _) rfl)

end Kernel

end Phix
