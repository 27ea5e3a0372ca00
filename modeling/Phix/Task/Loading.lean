import Phix.Memory.Keeping
import Phix.Task.Mapping
import Phix.Task.NewTask

/-! # What loading keeps

The file system's calls and the loaders release only what they have allocated, and a mapping
touches the tables of one chunk: between the kernels before and after a step of a load every
allocation that is not the file system's is still live (`Phix.Machine.Keeps`), and every other
chunk has the address space it had (`Phix.Machine.KeepsBut`), provided that the heap serves or
cleanly refuses the requests made meanwhile.
-/

namespace Phix

/-! The file system. -/

/-- One heap call of the file system releases nothing of the others. -/
theorem Machine.kernelCall_keepsBut (machine : Machine) (call : KernelCall) :
    machine.Ensures Request.Harmless (machine.kernelCall call)
      (machine.PagingSound → machine.KeepsBut ∅ (machine.kernelCall call)) := by
  cases call with
  | kzalloc size =>
      refine ⟨[machine.request size], rfl, fun all paging => ?_⟩
      exact ((Machine.KeepsBut.refl paging).kzalloc id (all _ (List.mem_singleton_self _))).1
  | kfree p =>
      unfold Machine.kernelCall
      dsimp only
      split
      · rename_i size held
        refine .of_requests rfl fun paging => ?_
        refine (Machine.KeepsBut.refl paging).discard
          (.inr (.inl ⟨fun other isLive => ?_, _, held, id⟩))
        rw [held] at isLive
        cases isLive
        rfl
      · exact .of_requests rfl .refl

/-- Any list of them, by induction. -/
theorem Machine.kernelCalls_keepsBut (machine : Machine) (calls : List KernelCall) :
    machine.Ensures Request.Harmless (machine.kernelCalls calls)
      (machine.PagingSound → machine.KeepsBut ∅ (machine.kernelCalls calls)) := by
  induction calls generalizing machine with
  | nil => exact .of_requests rfl .refl
  | cons call calls ih =>
      refine (machine.kernelCall_keepsBut call).trans ((ih (machine.kernelCall call)).imp ?_)
      exact fun rest first paging => (first paging).trans (rest (first paging).paging)

/-- In particular every other allocation stays live. -/
theorem Machine.kernelCalls_keeps (machine : Machine) (calls : List KernelCall) :
    machine.Ensures Request.Harmless (machine.kernelCalls calls)
      (machine.PagingSound → machine.Keeps (machine.kernelCalls calls)) :=
  (machine.kernelCalls_keepsBut calls).imp fun keeps paging => (keeps paging).toKeeps

namespace Kernel

/-! The loaders. -/

/-- The record that was stored is read back. -/
theorem setElfFile_elfFileAt (kernel : Kernel) (p : Word) (file : ElfFile) :
    (kernel.setElfFile p file).elfFileAt p = file := Function.update_self ..

/-- The end of `elf_load` releases the image and the record. -/
theorem elfLoadOut_keepsBut {machine middle : Machine} {kernel : Kernel} {elfFile : Word}
    (first : machine.KeepsBut ∅ middle) (spare : machine.Spare elfFile) {size : Word}
    (held : middle.live elfFile = some ⟨size, .elfFile⟩) (keeps : middle.KeepsBut ∅ kernel.machine)
    (disposable : middle.Disposable kernel.machine (kernel.elfFileAt elfFile).elfMemory) (ret : Int)
    (file : Option Word) : machine.KeepsBut ∅ (kernel.elfLoadOut elfFile ret file).2.2.machine := by
  unfold elfLoadOut
  split
  · have released := keeps.discard disposable
    have stays := released.kept elfFile _ held Owner.noConfusion
    exact (first.trans released).discard (.inr (.inl ⟨spare, _, stays, id⟩))
  · exact first.trans keeps

/-- The end of `elf_load` asks for nothing. -/
theorem elfLoadOut_requests (kernel : Kernel) (elfFile : Word) (ret : Int) (file : Option Word) :
    (kernel.elfLoadOut elfFile ret file).2.2.machine.requests = kernel.machine.requests := by
  unfold elfLoadOut
  split <;> rfl

/-- A record of the kernel is allocated. -/
theorem kzalloc_recordBut {kernel next : Kernel} {owner : Owner} {size p : Word}
    (allocated : kernel.kzalloc owner size = (p, next)) (notPaging : ¬ owner.IsPaging)
    (proper : Proper size) :
    kernel.machine.Ensures Request.Harmless next.machine (kernel.machine.PagingSound →
      kernel.machine.KeepsBut ∅ next.machine ∧ (p ≠ null →
        kernel.machine.Spare p ∧ next.machine.live p = some ⟨size, owner⟩)) := by
  have pointer : (kernel.kzalloc owner size).1 = p := congrArg Prod.fst allocated
  have after : (kernel.kzalloc owner size).2 = next := congrArg Prod.snd allocated
  subst pointer after
  refine ⟨[kernel.machine.request size], rfl, fun all paging => ?_⟩
  refine ⟨((Machine.KeepsBut.refl paging).kzalloc notPaging
    (all _ (List.mem_singleton_self _))).1, fun found => ?_⟩
  have cleared := paging.sound.kzalloc owner proper found
  exact ⟨(Machine.Keeps.refl paging).spare cleared.fresh, cleared.held⟩

/-- In particular every other allocation stays live. -/
theorem kzalloc_record {kernel next : Kernel} {owner : Owner} {size p : Word}
    (allocated : kernel.kzalloc owner size = (p, next)) (notPaging : ¬ owner.IsPaging)
    (proper : Proper size) :
    kernel.machine.Ensures Request.Harmless next.machine (kernel.machine.PagingSound →
      kernel.machine.Keeps next.machine ∧ (p ≠ null →
        kernel.machine.Spare p ∧ next.machine.live p = some ⟨size, owner⟩)) :=
  (kzalloc_recordBut allocated notPaging proper).imp fun holds paging =>
    ⟨(holds paging).1.toKeeps, (holds paging).2⟩

/-- What an allocation asks of the heap. -/
theorem kzalloc_asks {kernel next : Kernel} {owner : Owner} {size p : Word}
    (allocated : kernel.kzalloc owner size = (p, next)) :
    kernel.machine.Ensures Request.Harmless next.machine
        (kernel.machine.request size).Harmless := by
  have after : (kernel.kzalloc owner size).2 = next := congrArg Prod.snd allocated
  subst after
  exact ⟨[kernel.machine.request size], rfl, fun all => all _ (List.mem_singleton_self _)⟩

/-- `elf_load` releases its own record and image only. -/
theorem elfLoad_keepsBut (kernel : Kernel) (process : Word) {answers : FileAnswers}
    (quiet : answers.readCalls = []) :
    kernel.machine.Ensures Request.Harmless (kernel.elfLoad process answers).2.2.machine
      (kernel.machine.PagingSound →
        kernel.machine.KeepsBut ∅ (kernel.elfLoad process answers).2.2.machine) := by
  unfold elfLoad
  cases allocated : kernel.kzalloc .elfFile sizeofElfFile with
  | mk elfFile first =>
      have recorded := kzalloc_recordBut allocated id (by decide)
      dsimp only
      by_cases refused : elfFile = null
      · rw [if_pos refused]
        exact recorded.imp fun holds paging => (holds paging).1
      rw [if_neg refused]
      have opened := recorded.trans ((first.machine.kernelCalls_keepsBut answers.openCalls).imp
        fun rest before paging => And.intro (before paging) (rest (before paging).1.paging))
      have empty :
        (((first.setElfFile elfFile ElfFile.zero).kernelCalls answers.openCalls).elfFileAt
          elfFile).elfMemory = null :=
        congrArg ElfFile.elfMemory (first.setElfFile_elfFileAt elfFile ElfFile.zero)
      have same : ((first.setElfFile elfFile ElfFile.zero).kernelCalls answers.openCalls).machine =
        first.machine.kernelCalls answers.openCalls := rfl
      rw [← same] at opened
      generalize (first.setElfFile elfFile ElfFile.zero).kernelCalls answers.openCalls = second at *
      have ends : ∀ (last : Kernel) (ret : Int) (file : Option Word),
          kernel.machine.Ensures Request.Harmless last.machine (kernel.machine.PagingSound →
            (kernel.machine.KeepsBut ∅ first.machine ∧
              (elfFile ≠ null → kernel.machine.Spare elfFile ∧
              first.machine.live elfFile = some ⟨sizeofElfFile, .elfFile⟩)) ∧
            first.machine.KeepsBut ∅ last.machine ∧
            first.machine.Disposable last.machine (last.elfFileAt elfFile).elfMemory) →
          kernel.machine.Ensures Request.Harmless (last.elfLoadOut elfFile ret file).2.2.machine
            (kernel.machine.PagingSound →
              kernel.machine.KeepsBut ∅ (last.elfLoadOut elfFile ret file).2.2.machine) := by
        intro last ret file holds
        refine (holds.congr (last.elfLoadOut_requests elfFile ret file)).imp fun holds paging => ?_
        obtain ⟨⟨kept, granted⟩, keeps, disposable⟩ := holds paging
        obtain ⟨spare, held⟩ := granted refused
        exact elfLoadOut_keepsBut kept spare held keeps disposable ret file
      have early : ∀ ret, kernel.machine.Ensures Request.Harmless
          (second.elfLoadOut elfFile ret none).2.2.machine (kernel.machine.PagingSound →
            kernel.machine.KeepsBut ∅ (second.elfLoadOut elfFile ret none).2.2.machine) :=
                fun ret =>
        ends second ret none (opened.imp fun holds paging =>
          ⟨(holds paging).1, (holds paging).2, .inl empty⟩)
      by_cases notOpen : answers.fopen < 0
      · rw [if_pos notOpen]
        exact early _
      rw [if_neg notOpen]
      by_cases noStat : answers.fstat < 0
      · rw [if_pos noStat]
        exact early _
      rw [if_neg noStat]
      cases imageAllocated : second.kzalloc (.image process) answers.filesize with
      | mk elfMemory third =>
          have asks := kzalloc_asks imageAllocated
          have pointer : (second.machine.kzalloc (.image process) answers.filesize).1 = elfMemory :=
            congrArg Prod.fst imageAllocated
          have after : third.machine =
            (second.machine.kzalloc (.image process) answers.filesize).2 :=
            (congrArg (fun result => result.2.machine) imageAllocated).symm
          dsimp only
          by_cases noImage : elfMemory = null
          · rw [if_pos noImage]
            refine ends _ _ _ (opened.trans (asks.imp fun harmless before paging => ?_))
            obtain ⟨kept, keeps⟩ := before paging
            refine ⟨kept, ?_, .inl
              ((congrArg ElfFile.elfMemory (third.setElfFile_elfFileAt elfFile _)).trans noImage)⟩
            change first.machine.KeepsBut ∅ third.machine
            rw [after]
            exact (keeps.kzalloc id harmless).1
          rw [if_neg noImage]
          have read : kernel.machine.Ensures Request.Harmless
              ((third.setElfFile elfFile { ElfFile.zero with elfMemory }).fread answers
                elfMemory).2.machine (kernel.machine.PagingSound →
            (kernel.machine.KeepsBut ∅ first.machine ∧
              (elfFile ≠ null → kernel.machine.Spare elfFile ∧
              first.machine.live elfFile = some ⟨sizeofElfFile, .elfFile⟩)) ∧
            first.machine.KeepsBut ∅
              ((third.setElfFile elfFile { ElfFile.zero with elfMemory }).fread
              answers elfMemory).2.machine ∧
            first.machine.Disposable
              ((third.setElfFile elfFile { ElfFile.zero with elfMemory }).fread
              answers elfMemory).2.machine elfMemory) := by
            unfold Kernel.fread
            rw [quiet]
            refine (opened.trans (asks.imp fun harmless before paging => ?_)).congr rfl
            obtain ⟨kept, keeps⟩ := before paging
            rw [← pointer] at noImage
            have fills := keeps.filled
              (show ¬ (Owner.image process).IsPaging from id) harmless noImage
              answers.content answers.deliveredFits
            rw [← after, pointer] at fills
            exact ⟨kept, fills⟩
          have image : (((third.setElfFile elfFile { ElfFile.zero with elfMemory }).fread answers
              elfMemory).2.elfFileAt elfFile).elfMemory = elfMemory :=
            congrArg ElfFile.elfMemory (third.setElfFile_elfFileAt elfFile _)
          generalize ((third.setElfFile elfFile { ElfFile.zero with elfMemory }).fread answers
            elfMemory) = result at read image ⊢
          obtain ⟨ret, last⟩ := result
          dsimp only at read image ⊢
          by_cases noRead : ret < 0
          · rw [if_pos noRead]
            refine ends _ _ _ (read.imp fun holds paging => ?_)
            rw [image]
            exact holds paging
          rw [if_neg noRead]
          have processed := elfProcessLoaded_elfMemory last.machine.memory (last.elfFileAt elfFile)
          generalize elfProcessLoaded last.machine.memory (last.elfFileAt elfFile) =
            loaded at processed ⊢
          obtain ⟨status, file⟩ := loaded
          have final : ∀ ret stored, kernel.machine.Ensures Request.Harmless
              ((last.setElfFile elfFile file).elfLoadOut elfFile ret stored).2.2.machine
                (kernel.machine.PagingSound → kernel.machine.KeepsBut ∅
                  ((last.setElfFile elfFile file).elfLoadOut elfFile ret stored).2.2.machine) := by
            intro ret stored
            refine ends (last.setElfFile elfFile file) ret stored (read.imp fun holds paging => ?_)
            have place : ((last.setElfFile elfFile file).elfFileAt elfFile).elfMemory = elfMemory :=
              (congrArg ElfFile.elfMemory (last.setElfFile_elfFileAt elfFile file)).trans
                (processed.trans image)
            rw [place]
            exact holds paging
          dsimp only
          split
          · exact final _ _
          · exact final _ _

/-- In particular every other allocation stays live. -/
theorem elfLoad_keeps (kernel : Kernel) (process : Word) {answers : FileAnswers}
    (quiet : answers.readCalls = []) :
    kernel.machine.Ensures Request.Harmless (kernel.elfLoad process answers).2.2.machine
      (kernel.machine.PagingSound →
        kernel.machine.Keeps (kernel.elfLoad process answers).2.2.machine) :=
  (kernel.elfLoad_keepsBut process quiet).imp fun keeps paging => (keeps paging).toKeeps

/-- `process_load_elf` adds nothing to what `elf_load` does to the heap. -/
theorem processLoadElf_keepsBut (kernel : Kernel) (process : Word) {answers : FileAnswers}
    (quiet : answers.readCalls = []) (stale : Word) :
    kernel.machine.Ensures Request.Harmless (kernel.processLoadElf process answers stale).2.machine
      (kernel.machine.PagingSound →
        kernel.machine.KeepsBut ∅ (kernel.processLoadElf process answers stale).2.machine) := by
  have loaded := kernel.elfLoad_keepsBut process quiet
  unfold processLoadElf
  dsimp only
  split
  · exact loaded
  · exact loaded

/-- The end of `process_load_binary` releases the program, and the file is closed. -/
theorem processLoadBinaryOut_keepsBut {machine : Machine} {kernel : Kernel} {programData : Word}
    (loaded : machine.Ensures Request.Harmless kernel.machine (machine.PagingSound →
      machine.KeepsBut ∅ kernel.machine ∧ machine.Disposable kernel.machine programData))
    (answers : FileAnswers) (ret : Int) :
    machine.Ensures Request.Harmless
      (kernel.processLoadBinaryOut answers programData ret).2.machine (machine.PagingSound →
        machine.KeepsBut ∅ (kernel.processLoadBinaryOut answers programData ret).2.machine) := by
  have released : machine.Ensures Request.Harmless
      (if ret < 0 then kernel.kfree programData else kernel).machine (machine.PagingSound →
        machine.KeepsBut ∅ (if ret < 0 then kernel.kfree programData else kernel).machine) := by
    split
    · refine (loaded.congr rfl).imp fun holds paging => ?_
      exact (holds paging).1.discard (holds paging).2
    · exact loaded.imp fun holds paging => (holds paging).1
  exact released.trans ((Machine.kernelCalls_keepsBut _ answers.closeCalls).imp
    fun rest before paging => (before paging).trans (rest (before paging).paging))

/-- `process_load_binary` releases its own image only. -/
theorem processLoadBinary_keepsBut (kernel : Kernel) (process : Word) {answers : FileAnswers}
    (quiet : answers.readCalls = []) :
    kernel.machine.Ensures Request.Harmless (kernel.processLoadBinary process answers).2.machine
      (kernel.machine.PagingSound →
        kernel.machine.KeepsBut ∅ (kernel.processLoadBinary process answers).2.machine) := by
  have opened : kernel.machine.Ensures Request.Harmless
      (kernel.kernelCalls answers.openCalls).machine (kernel.machine.PagingSound →
        kernel.machine.KeepsBut ∅ (kernel.kernelCalls answers.openCalls).machine) :=
    kernel.machine.kernelCalls_keepsBut answers.openCalls
  unfold processLoadBinary
  dsimp only
  generalize kernel.kernelCalls answers.openCalls = first at opened ⊢
  have closed : ∀ ret, kernel.machine.Ensures Request.Harmless
      (first.processLoadBinaryOut answers null ret).2.machine (kernel.machine.PagingSound →
        kernel.machine.KeepsBut ∅ (first.processLoadBinaryOut answers null ret).2.machine) :=
    processLoadBinaryOut_keepsBut (opened.imp fun holds paging => ⟨holds paging, .inl rfl⟩) answers
  by_cases notOpen : answers.fopen < 0
  · rw [if_pos notOpen]
    exact opened
  rw [if_neg notOpen]
  by_cases noStat : answers.fstat < 0
  · rw [if_pos noStat]
    exact closed _
  rw [if_neg noStat]
  cases allocated : first.kzalloc (.image process) answers.filesize with
  | mk programData second =>
      have asks := kzalloc_asks allocated
      have pointer : (first.machine.kzalloc (.image process) answers.filesize).1 = programData :=
        congrArg Prod.fst allocated
      have after : second.machine = (first.machine.kzalloc (.image process) answers.filesize).2 :=
        (congrArg (fun result => result.2.machine) allocated).symm
      dsimp only
      by_cases noImage : programData = null
      · rw [if_pos noImage]
        refine processLoadBinaryOut_keepsBut
          (opened.trans (asks.imp fun harmless before paging => ?_))
          answers _
        rw [after]
        exact ⟨((before paging).kzalloc id harmless).1, .inl rfl⟩
      rw [if_neg noImage]
      have read : kernel.machine.Ensures Request.Harmless
        (second.fread answers programData).2.machine
          (kernel.machine.PagingSound →
            kernel.machine.KeepsBut ∅ (second.fread answers programData).2.machine ∧
            kernel.machine.Disposable
                (second.fread answers programData).2.machine programData) := by
        unfold Kernel.fread
        rw [quiet]
        refine (opened.trans (asks.imp fun harmless before paging => ?_)).congr rfl
        rw [← pointer] at noImage
        have fills := (before paging).filled
          (show ¬ (Owner.image process).IsPaging from id) harmless
          noImage answers.content answers.deliveredFits
        rwa [← after, pointer] at fills
      split
      · exact processLoadBinaryOut_keepsBut read answers _
      · refine processLoadBinaryOut_keepsBut ?_ answers _
        exact read

/-- `process_load_data`: an ELF file, or else a flat binary. -/
theorem processLoadData_keepsBut (kernel : Kernel) (process : Word) {answers : LoadAnswers}
    (quiet : answers.elf.readCalls = [] ∧ answers.binary.readCalls = []) :
    kernel.machine.Ensures Request.Harmless (kernel.processLoadData process answers).2.machine
      (kernel.machine.PagingSound →
        kernel.machine.KeepsBut ∅ (kernel.processLoadData process answers).2.machine) := by
  have elf := kernel.processLoadElf_keepsBut process quiet.1 answers.stale
  unfold processLoadData
  dsimp only
  split
  · exact elf.trans ((processLoadBinary_keepsBut _ process quiet.2).imp
      fun rest before paging => (before paging).trans (rest (before paging).paging))
  · exact elf

/-- In particular every other allocation stays live. -/
theorem processLoadData_keeps (kernel : Kernel) (process : Word) {answers : LoadAnswers}
    (quiet : answers.elf.readCalls = [] ∧ answers.binary.readCalls = []) :
    kernel.machine.Ensures Request.Harmless (kernel.processLoadData process answers).2.machine
      (kernel.machine.PagingSound →
        kernel.machine.Keeps (kernel.processLoadData process answers).2.machine) :=
  (kernel.processLoadData_keepsBut process quiet).imp fun keeps paging => (keeps paging).toKeeps

end Kernel

/-! A new task. -/

/-- A request of at most a block does no harm. -/
theorem Machine.kzalloc_permits (machine : Machine) (owner : Owner) (size : Word)
    (positive : 1 ≤ size.toNat) (small : size.toNat ≤ 4096) :
    machine.Permits Request.Harmless (machine.kzalloc owner size).2 := by
  refine ⟨[machine.request size], rfl, fun request member => ?_⟩
  rw [List.mem_singleton.mp member]
  exact machine.request_block_harmless positive small

/-- The tables of a chunk are asked for harmlessly, as far as the loop comes. -/
theorem Machine.newTables_permits {directory : Word} {flags : Byte} {i : ℕ} {machine next : Machine}
    {offset : Word} (made : machine.newTables directory flags i = some (next, offset)) :
    machine.Permits Request.Harmless next := by
  induction i generalizing next offset with
  | zero =>
      cases made
      exact ⟨[], rfl, fun _ absent => absurd absent (List.not_mem_nil)⟩
  | succ i ih =>
      unfold Machine.newTables at made
      rw [Option.bind_eq_bind, Option.bind_eq_some_iff] at made
      obtain ⟨⟨middle, running⟩, earlier, rest⟩ := made
      dsimp only at rest
      split at rest
      · cases rest
      · cases rest
        obtain ⟨requests, journal, all⟩ := (ih earlier).trans
          (middle.kzalloc_permits (.table directory i) (4 * pagingTotalEntriesPerTable) (by decide)
            (by decide))
        exact ⟨requests, journal, all⟩

/-- A chunk that was made was asked for harmlessly. -/
theorem Machine.pagingNewChunk_permits {flags : Byte} {machine next : Machine} {chunk : Word}
    (made : machine.pagingNewChunk flags = some (chunk, next)) :
    machine.Permits Request.Harmless next := by
  obtain ⟨middle, offset, _, tables, _, rfl, rfl⟩ := Machine.pagingNewChunk_cases made
  have earlier := (machine.kzalloc_permits .directory (4 * pagingTotalEntriesPerTable) (by decide)
    (by decide)).trans (Machine.newTables_permits tables)
  exact earlier.trans (middle.kzalloc_permits
    (.chunk (machine.kzalloc .directory (4 * pagingTotalEntriesPerTable)).1) 4 (by decide)
    (by decide))

namespace Kernel

/-- So was a task that was made. -/
theorem taskNew_permits {kernel next : Kernel} {process task : Word}
    (made : kernel.taskNew process = some (task, next)) :
    kernel.machine.Permits Request.Harmless next.machine := by
  unfold taskNew at made
  dsimp only at made
  split at made
  · cases made
    exact kernel.machine.kzalloc_permits _ _ (by decide) (by decide)
  · rw [Option.bind_eq_bind, Option.bind_eq_some_iff] at made
    obtain ⟨⟨ret, middle⟩, started, rest⟩ := made
    unfold taskInit at started
    rw [Option.bind_eq_bind, Option.bind_eq_some_iff] at started
    obtain ⟨⟨pageDirectory, machine⟩, allocated, after⟩ := started
    have earlier := (kernel.machine.kzalloc_permits .task sizeofTask (by decide)
      (by decide)).trans (Machine.pagingNewChunk_permits allocated)
    have same : middle.machine = machine := by
      dsimp only at after
      split at after
      · cases after
        rfl
      · cases after
        rfl
    have last : next.machine = middle.machine := by
      dsimp only at rest
      split at rest
      · cases rest
        rfl
      · split at rest
        · cases rest
          rfl
        · cases rest
          rfl
    rw [last, same]
    exact earlier

/-- A new task has a chunk of its own, and all others stay. -/
theorem taskNew_keeps {kernel next : Kernel} {process task : Word}
    (made : kernel.taskNew process = some (task, next)) :
    kernel.machine.Ensures Request.Harmless next.machine (kernel.machine.PagingSound →
      kernel.machine.Keeps next.machine ∧ (0 ≤ task.toInt → kernel.machine.live task = none ∧
        next.machine.live task = some ⟨sizeofTask, .task⟩ ∧
        ∃ directory, next.machine.HasChunk (next.taskAt task).pageDirectory directory)) := by
  obtain ⟨requests, journal, _⟩ := taskNew_permits made
  refine ⟨requests, journal, fun _ paging => ?_⟩
  rcases taskNew_newTask paging process made with ⟨rfl, _, rfl⟩ | ⟨directory, new⟩
  · refine ⟨?_, fun positive => absurd positive (by decide)⟩
    exact ((Machine.Keeps.refl paging).kzalloc (show ¬ Owner.task.IsPaging from id)
      (kernel.machine.request_block_harmless (by decide) (by decide))).1
  · exact ⟨⟨new.paging, fun p allocation held _ => new.grown.kept p allocation held⟩, fun _ =>
      ⟨new.fresh, new.held, directory, new.has⟩⟩

/-! Mapping. -/

/-- A call that keeps what it should, and the chunk of the process. -/
def KeepsChunk (kernel next : Kernel) (process : Word) : Prop :=
  kernel.machine.PagingSound → ∀ directory,
    kernel.machine.HasChunk (kernel.chunkOf process) directory →
    kernel.machine.Keeps next.machine ∧ next.taskAt = kernel.taskAt ∧
      next.chunkOf process = kernel.chunkOf process ∧
      next.machine.HasChunk (kernel.chunkOf process) directory

/-- Such a call that changes no address space but that of the process. -/
def KeepsOthers (kernel next : Kernel) (process : Word) : Prop :=
  kernel.machine.PagingSound → ∀ directory,
    kernel.machine.HasChunk (kernel.chunkOf process) directory →
    kernel.machine.KeepsBut {kernel.chunkOf process} next.machine ∧ next.taskAt = kernel.taskAt ∧
      next.chunkOf process = kernel.chunkOf process ∧
      next.machine.HasChunk (kernel.chunkOf process) directory

/-- What keeps the other chunks keeps this one a chunk. -/
theorem KeepsOthers.keepsChunk {kernel next : Kernel} {process : Word}
    (keeps : kernel.KeepsOthers next process) : kernel.KeepsChunk next process :=
  fun paging directory has => (keeps paging directory has).imp_left Machine.KeepsBut.toKeeps

/-- Nothing is touched. -/
theorem KeepsOthers.refl (kernel : Kernel) (process : Word) :
    kernel.KeepsOthers kernel process := fun paging _ has => ⟨.refl paging, rfl, rfl, has⟩

/-- Two steps that touch one chunk touch that chunk. -/
theorem KeepsOthers.trans {kernel middle next : Kernel} {process : Word}
    (second : middle.KeepsOthers next process)
    (first : kernel.KeepsOthers middle process) : kernel.KeepsOthers next process := by
  intro paging directory has
  obtain ⟨keeps, tasks, chunk, still⟩ := first paging directory has
  rw [← chunk] at still
  obtain ⟨more, moreTasks, moreChunk, after⟩ := second keeps.paging directory still
  rw [chunk] at more after
  exact ⟨keeps.trans more, moreTasks.trans tasks, moreChunk.trans chunk, after⟩

/-- A mapping touches the chunk of its process only. -/
theorem mapTo_keepsOthers (kernel : Kernel) (process vaddr paddr pend : Word) (flags : Byte) :
    kernel.KeepsOthers (kernel.mapTo process vaddr paddr pend flags).2 process := by
  intro paging directory has
  by_cases accepts : MapToAccepts vaddr paddr pend
  · obtain ⟨_, update⟩ := (has.chunkAt paging.sound).pagingMapTo accepts flags
    exact ⟨⟨⟨paging.write has update, fun _ _ held _ => held⟩, fun outside hasOther =>
      paging.write_other has update hasOther outside⟩, rfl, rfl,
      Machine.PagingSound.write_self has update⟩
  · have refused : kernel.mapTo process vaddr paddr pend flags = (-EINVAL, kernel) := by
      unfold Kernel.mapTo
      rw [pagingMapTo_refused _ _ accepts]
    rw [refused]
    exact KeepsOthers.refl kernel process paging directory has

/-- It leaves it a chunk. -/
theorem mapTo_keeps (kernel : Kernel) (process vaddr paddr pend : Word) (flags : Byte) :
    kernel.KeepsChunk (kernel.mapTo process vaddr paddr pend flags).2 process :=
  (kernel.mapTo_keepsOthers process vaddr paddr pend flags).keepsChunk

/-- So does the mapping of a segment, whose zeroed part is one allocation. -/
theorem mapPhdr_keepsOthers (kernel : Kernel) (process elfFile header : Word) (i : ℕ) :
    kernel.machine.Ensures Request.Harmless (kernel.mapPhdr process elfFile header i).2.machine
      (kernel.KeepsOthers (kernel.mapPhdr process elfFile header i).2 process) := by
  unfold mapPhdr
  dsimp only
  generalize elf32PhdrAt kernel.machine.memory
    (elfProgramHeader kernel.machine.memory header i) = phdr
  split
  · cases allocated : kernel.kzalloc (.bss process) (pageAlign phdr.pMemsz) with
    | mk p middle =>
        have after : middle = (kernel.kzalloc (.bss process) (pageAlign phdr.pMemsz)).2 :=
          (congrArg Prod.snd allocated).symm
        have grows : kernel.machine.Ensures Request.Harmless middle.machine
            (∀ bss, kernel.KeepsOthers (middle.setProcess process
              { middle.processAt process with bss }) process) := by
          refine (kzalloc_asks allocated).imp fun harmless bss paging directory has => ?_
          obtain ⟨grown, _⟩ := paging.sound.kzalloc_harmless (.bss process) harmless
          have still := (Machine.Grown.hasChunk has paging.sound grown).1
          have same : chunkOf (middle.setProcess process { middle.processAt process with bss })
              process = kernel.chunkOf process := by
            rw [after]
            unfold chunkOf setProcess
            dsimp only
            rw [Function.update_self]
            rfl
          refine ⟨?_, ?_, same, ?_⟩
          · change kernel.machine.KeepsBut _ middle.machine
            rw [after]
            exact ((Machine.KeepsBut.refl paging).kzalloc
              (show ¬ (Owner.bss process).IsPaging from id)
              harmless).1
          · rw [after]
            rfl
          · change middle.machine.HasChunk _ _
            rw [after]
            exact still
        by_cases noBss : p = null
        · rw [if_pos noBss]
          exact grows.imp fun keeps => keeps ⟨p, (middle.processAt process).bss.size⟩
        rw [if_neg noBss]
        refine grows.imp fun keeps => ?_
        exact (mapTo_keepsOthers _ process (pageAlignLower phdr.pVaddr) (pageAlignLower p)
          (pageAlign (p + phdr.pMemsz)) (phdrFlags phdr)).trans (keeps ⟨p, phdr.pMemsz⟩)
  · have mapped := kernel.mapTo_keepsOthers process (pageAlignLower phdr.pVaddr)
      (pageAlignLower (elfPhdrPaddr (kernel.elfFileAt elfFile) phdr))
      (pageAlign (elfPhdrPaddr (kernel.elfFileAt elfFile) phdr + phdr.pMemsz)) (phdrFlags phdr)
    exact Machine.Ensures.of_requests rfl mapped

/-- So does the loop over the segments, by induction on its rounds. -/
theorem processMapElf.loop_keepsOthers (process elfFile header : Word) (rounds i : ℕ)
    (kernel : Kernel) :
    kernel.machine.Ensures Request.Harmless
      (processMapElf.loop process elfFile header rounds i kernel).2.machine
      (kernel.KeepsOthers
          (processMapElf.loop process elfFile header rounds i kernel).2 process) := by
  induction rounds generalizing i kernel with
  | zero => exact Machine.Ensures.of_requests rfl (KeepsOthers.refl kernel process)
  | succ rounds ih =>
      rw [processMapElf.loop_succ]
      have first := kernel.mapPhdr_keepsOthers process elfFile header i
      split
      · split
        · exact first
        · exact first.trans ((ih (i + 1) _).imp fun rest before => rest.trans before)
      · exact Machine.Ensures.of_requests rfl (KeepsOthers.refl kernel process)

/-- So does the mapping of a whole program. -/
theorem processMapMemory_keepsOthers {kernel next : Kernel} {process : Word} {ret : Int}
    (mapped : kernel.processMapMemory process = some (ret, next)) :
    kernel.machine.Ensures Request.Harmless next.machine (kernel.KeepsOthers next process) := by
  -- The last step maps the stack.
  have finish : ∀ {status : Int} {middle : Kernel},
      kernel.machine.Ensures Request.Harmless middle.machine
        (kernel.KeepsOthers middle process) →
      (if status < 0 then some (status, middle)
        else some (middle.mapTo process phixProgramVirtualStackAddressEnd
          (middle.processAt process).stack
          (pageAlign ((middle.processAt process).stack + phixUserProgramStackSize)) userFlags)) =
        some (ret, next) →
      kernel.machine.Ensures Request.Harmless next.machine
        (kernel.KeepsOthers next process) := by
    intro status middle first rest
    split at rest
    · cases rest
      exact first
    · have stacked := middle.mapTo_keepsOthers process phixProgramVirtualStackAddressEnd
        (middle.processAt process).stack
        (pageAlign ((middle.processAt process).stack + phixUserProgramStackSize)) userFlags
      have after : (middle.mapTo process phixProgramVirtualStackAddressEnd
          (middle.processAt process).stack
          (pageAlign ((middle.processAt process).stack + phixUserProgramStackSize)) userFlags).2 =
          next := congrArg Prod.snd (Option.some.inj rest)
      subst after
      exact first.trans (Machine.Ensures.of_requests rfl fun before => stacked.trans before)
  unfold processMapMemory at mapped
  dsimp only at mapped
  split at mapped
  · refine finish ?_ mapped
    unfold processMapElf
    exact processMapElf.loop_keepsOthers ..
  · split at mapped
    · refine finish ?_ mapped
      have loaded := kernel.mapTo_keepsOthers process phixProgramVirtualAddress
        (kernel.processAt process).p
        (pageAlign ((kernel.processAt process).p + (kernel.processAt process).size)) userFlags
      exact Machine.Ensures.of_requests rfl loaded
    · cases mapped

/-- It leaves it a chunk. -/
theorem processMapMemory_keeps {kernel next : Kernel} {process : Word} {ret : Int}
    (mapped : kernel.processMapMemory process = some (ret, next)) :
    kernel.machine.Ensures Request.Harmless next.machine (kernel.KeepsChunk next process) :=
  (processMapMemory_keepsOthers mapped).imp KeepsOthers.keepsChunk

end Kernel

end Phix
