import Phix.Task.Images
import Phix.Task.Threads

/-! # Loading an ELF image

When `elf_load` stores a file, the image that the file records holds the bytes that were read, and
has been accepted (`Phix.Kernel.elfLoad_holds`).
-/

namespace Phix

/-- What `elf_load` reads: the bytes the file system delivers, over cleared memory. -/
def FileAnswers.file (answers : FileAnswers) : ByteMemory := fun x =>
  if x.toNat < answers.delivered then answers.content x.toNat else 0

namespace Kernel

/-- The record of an ELF file leads to an image of the process, which shows the file. -/
structure HoldsElf (kernel : Kernel) (process elfFile : Word) (file : ByteMemory) (size : Word) :
    Prop where
  held : kernel.machine.live (kernel.elfFileAt elfFile).elfMemory = some ⟨size, .image process⟩
  shows : Shows kernel.machine.memory (kernel.elfFileAt elfFile).elfMemory file size

theorem elfLoadOut_file {kernel : Kernel} {elfFile stored : Word} {ret : Int} {file : Option Word}
    (out : (kernel.elfLoadOut elfFile ret file).2.1 = some stored) : file = some stored := by
  unfold elfLoadOut at out
  split at out
  · exact out
  · exact out

/-- A buffer that has been allocated shows what is read into it. -/
theorem fread_shows {machine : Machine} {reader : Kernel} {owner : Owner} {p : Word}
    {answers : FileAnswers} (quiet : answers.readCalls = []) (proper : Proper answers.filesize)
    (cleared : machine.Cleared owner answers.filesize p reader.machine) :
    Shows (reader.fread answers p).2.machine.memory p answers.file answers.filesize := by
  intro k inside
  have large := proper.2
  obtain ⟨s, started, pointer⟩ := cleared.pool
  have address := poolBlock_toNat started
  have limit : tableLimit ≤ (p + k).toNat := by
    unfold maxRequest at large
    unfold tableLimit
    rw [pointer, BitVec.toNat_add, address, Nat.mod_eq_of_lt (by omega)]
    omega
  unfold Kernel.fread
  rw [quiet]
  refine (ByteMemory.write_apply _ p answers.content
    (answers.deliveredFits.trans answers.filesize.isLt.le) (p + k)).trans ?_
  unfold FileAnswers.file
  rw [add_sub_cancel_left]
  refine if_congr Iff.rfl rfl ?_
  refine (cleared.memory (p + k) limit).trans (if_pos ?_)
  rw [add_sub_cancel_left]
  exact inside

theorem elfLoad_stored {kernel : Kernel} {process elfFile : Word} {answers : FileAnswers}
    (stored : (kernel.elfLoad process answers).2.1 = some elfFile) :
    (kernel.elfLoad process answers).1 = 0 := by
  unfold elfLoad at stored ⊢
  dsimp only at stored ⊢
  split at stored
  · cases stored
  rename_i recorded
  rw [if_neg recorded]
  generalize (kernel.kzalloc .elfFile sizeofElfFile).1 = record at stored ⊢
  generalize ((kernel.kzalloc .elfFile sizeofElfFile).2.setElfFile record
    ElfFile.zero).kernelCalls answers.openCalls = second at stored ⊢
  split at stored
  · cases elfLoadOut_file stored
  rename_i opened
  rw [if_neg opened]
  split at stored
  · cases elfLoadOut_file stored
  rename_i stated
  rw [if_neg stated]
  split at stored
  · cases elfLoadOut_file stored
  rename_i allocated
  rw [if_neg allocated]
  generalize ((second.kzalloc (.image process) answers.filesize).2.setElfFile record
    { ElfFile.zero with elfMemory := (second.kzalloc (.image process) answers.filesize).1 }).fread
      answers (second.kzalloc (.image process) answers.filesize).1 = read at stored ⊢
  split at stored
  · cases elfLoadOut_file stored
  rename_i filled
  rw [if_neg filled]
  split at stored
  · cases elfLoadOut_file stored
  rename_i accepted
  rw [if_neg accepted, elfLoadOut_status]
  exact elfProcessLoaded_status accepted

theorem elfLoad_holds (kernel : Kernel) (process : Word) {answers : FileAnswers} {elfFile : Word}
    (quiet : answers.readCalls = []) (nonempty : answers.filesize ≠ 0)
    (stored : (kernel.elfLoad process answers).2.1 = some elfFile) :
    kernel.machine.Ensures Request.Harmless (kernel.elfLoad process answers).2.2.machine
      (kernel.machine.PagingSound →
        (kernel.elfLoad process answers).2.2.HoldsElf process elfFile answers.file
          answers.filesize ∧
        Accepted (kernel.elfLoad process answers).2.2.machine.memory
          ((kernel.elfLoad process answers).2.2.elfFileAt elfFile).elfMemory) := by
  unfold elfLoad at stored ⊢
  cases allocated : kernel.kzalloc .elfFile sizeofElfFile with
  | mk record first =>
      have recorded := kzalloc_record allocated id (by decide)
      rw [allocated] at stored
      dsimp only at stored ⊢
      by_cases refused : record = null
      · rw [if_pos refused] at stored
        cases stored
      rw [if_neg refused] at stored ⊢
      have opened := recorded.trans ((first.machine.kernelCalls_keeps answers.openCalls).imp
        fun rest before paging => (before paging).1.trans (rest (before paging).1.paging))
      have same : ((first.setElfFile record ElfFile.zero).kernelCalls answers.openCalls).machine =
        first.machine.kernelCalls answers.openCalls := rfl
      rw [← same] at opened
      generalize (first.setElfFile record ElfFile.zero).kernelCalls answers.openCalls = second
        at stored opened ⊢
      by_cases notOpen : answers.fopen < 0
      · rw [if_pos notOpen] at stored
        cases elfLoadOut_file stored
      rw [if_neg notOpen] at stored ⊢
      by_cases noStat : answers.fstat < 0
      · rw [if_pos noStat] at stored
        cases elfLoadOut_file stored
      rw [if_neg noStat] at stored ⊢
      cases imageAllocated : second.kzalloc (.image process) answers.filesize with
      | mk elfMemory third =>
          have asks := kzalloc_asks imageAllocated
          rw [imageAllocated] at stored
          dsimp only at stored ⊢
          by_cases noImage : elfMemory = null
          · rw [if_pos noImage] at stored
            cases elfLoadOut_file stored
          rw [if_neg noImage] at stored ⊢
          have after : (second.machine.kzalloc (.image process) answers.filesize).2 =
            third.machine := congrArg (fun result => result.2.machine) imageAllocated
          have machine : (third.setElfFile record { ElfFile.zero with elfMemory }).machine =
            third.machine := rfl
          have place : ((third.setElfFile record { ElfFile.zero with elfMemory }).elfFileAt
              record).elfMemory = elfMemory :=
            congrArg ElfFile.elfMemory (third.setElfFile_elfFileAt record _)
          have pointer : (second.machine.kzalloc (.image process) answers.filesize).1 = elfMemory :=
            congrArg Prod.fst imageAllocated
          generalize third.setElfFile record { ElfFile.zero with elfMemory } = fourth
            at stored machine place ⊢
          have shows : kernel.machine.Ensures Request.Harmless
              (fourth.fread answers elfMemory).2.machine (kernel.machine.PagingSound →
                (fourth.fread answers elfMemory).2.machine.live elfMemory =
                  some ⟨answers.filesize, .image process⟩ ∧
                Shows (fourth.fread answers elfMemory).2.machine.memory elfMemory answers.file
                  answers.filesize) := by
            refine (opened.trans (asks.imp fun harmless before paging => ?_)).congr ?_
            · have sound := (before paging).paging.sound
              rcases harmless with served | refused | zero
              · have cleared := (sound.kzalloc_served (.image process) served).2
                rw [pointer, after, ← machine] at cleared
                refine ⟨?_, fread_shows quiet served.1 cleared⟩
                unfold Kernel.fread
                rw [quiet]
                exact cleared.held
              · exact absurd (pointer.symm.trans (second.machine.kzalloc_refused _ refused)) noImage
              · exact absurd zero nonempty
            · have asked := congrArg Machine.requests machine
              unfold Kernel.fread
              rw [quiet]
              exact asked
          have kept : ((fourth.fread answers elfMemory).2.elfFileAt record).elfMemory =
            elfMemory := place
          generalize fourth.fread answers elfMemory = read at stored shows kept ⊢
          obtain ⟨ret, last⟩ := read
          dsimp only at stored shows kept ⊢
          by_cases noRead : ret < 0
          · rw [if_pos noRead] at stored
            cases elfLoadOut_file stored
          rw [if_neg noRead] at stored ⊢
          have whole := elfProcessLoaded_elfMemory last.machine.memory (last.elfFileAt record)
          have status := @elfProcessLoaded_status last.machine.memory (last.elfFileAt record)
          have accepted := @elfProcessLoaded_accepted last.machine.memory (last.elfFileAt record)
          generalize elfProcessLoaded last.machine.memory (last.elfFileAt record) = loaded
            at stored whole status accepted ⊢
          obtain ⟨ret, file⟩ := loaded
          dsimp only at stored whole status accepted ⊢
          by_cases rejected : ret < 0
          · rw [if_pos rejected] at stored
            cases elfLoadOut_file stored
          rw [if_neg rejected] at stored ⊢
          cases elfLoadOut_file stored
          have out : (last.setElfFile elfFile file).elfLoadOut elfFile ret (some elfFile) =
              (ret, some elfFile, last.setElfFile elfFile file) :=
            if_neg (not_not.mpr (status rejected))
          have image : ((last.setElfFile elfFile file).elfFileAt elfFile).elfMemory = elfMemory :=
            (congrArg ElfFile.elfMemory (last.setElfFile_elfFileAt elfFile file)).trans
              (whole.trans kept)
          rw [out]
          refine shows.imp fun holds paging => ⟨⟨?_, ?_⟩, ?_⟩
          · rw [image]
            exact (holds paging).1
          · rw [image]
            exact (holds paging).2
          · rw [image, ← kept]
            exact accepted rejected

/-! After the image has been read. -/

theorem HoldsElf.grown {kernel next : Kernel} {process elfFile size : Word} {file : ByteMemory}
    (holds : kernel.HoldsElf process elfFile file size) (grown : kernel.machine.Grown next.machine)
    (same : next.elfFileAt = kernel.elfFileAt) : next.HoldsElf process elfFile file size where
  held := by
    rw [same]
    exact grown.kept _ _ holds.held
  shows k inside := by
    rw [same]
    refine (grown.agree holds.held ?_).trans (holds.shows k inside)
    rw [add_sub_cancel_left]
    exact inside

theorem setTask_registers (kernel : Kernel) (t : Word) (task : Task)
    (kept : task.registers = (kernel.taskAt t).registers) (u : Word) :
    ((kernel.setTask t task).taskAt u).registers = (kernel.taskAt u).registers := by
  unfold setTask
  dsimp only
  by_cases here : u = t
  · rw [here, Function.update_self]
    exact kept
  · rw [Function.update_of_ne here]

/-- Where the task of a process starts. -/
def entryOf (kernel : Kernel) (process : Word) (memory : ByteMemory) : Word :=
  if (kernel.processAt process).filetype = processFiletypeElf then
    eEntry memory (elfHeader (kernel.elfFileAt (kernel.processAt process).p))
  else phixProgramVirtualAddress

/-- The registers a task of the process starts with. -/
def startRegisters (kernel : Kernel) (process : Word) (memory : ByteMemory) : Registers :=
  { Registers.zero with
    ip := kernel.entryOf process memory
    cs := userCodeSegment
    esp := phixProgramVirtualStackAddressStart
    ss := userDataSegment }

theorem taskInit_registers {kernel next : Kernel} {task process : Word} {ret : Int}
    (made : kernel.taskInit task process = some (ret, next)) (finished : ¬ ret < 0) :
    (next.taskAt task).registers = kernel.startRegisters process next.machine.memory := by
  unfold taskInit at made
  rw [Option.bind_eq_bind, Option.bind_eq_some_iff] at made
  obtain ⟨⟨pageDirectory, machine⟩, _, rest⟩ := made
  dsimp only at rest
  split at rest
  · cases rest
    exact absurd (show (- EIO : Int) < 0 by decide) finished
  · cases rest
    unfold setTask startRegisters entryOf
    dsimp only
    rw [Function.update_self]

theorem taskNew_registers {kernel next : Kernel} {process task : Word}
    (made : kernel.taskNew process = some (task, next)) (created : ¬ task.toInt < 0) :
    (next.taskAt task).registers = kernel.startRegisters process next.machine.memory := by
  unfold taskNew at made
  dsimp only at made
  split at made
  · cases made
    exact absurd (by decide) created
  rw [Option.bind_eq_bind, Option.bind_eq_some_iff] at made
  obtain ⟨⟨ret, middle⟩, started, rest⟩ := made
  dsimp only at rest
  split at rest
  · rename_i failed
    rcases taskInit_enlisted started with rfl | ⟨rfl, _⟩
    · cases rest
      exact absurd (show (BitVec.ofInt 32 (- EIO)).toInt < 0 by decide) created
    · exact absurd failed (lt_irrefl _)
  rename_i finished
  have registers := taskInit_registers started finished
  have same : (kernel.kzalloc .task sizeofTask).2.startRegisters process =
    kernel.startRegisters process := rfl
  rw [same] at registers
  split at rest
  · cases rest
    exact registers
  · generalize (kernel.kzalloc .task sizeofTask).1 = added at rest registers
    have behind := middle.setTask_registers middle.taskTail
      { middle.taskAt middle.taskTail with next := added } rfl added
    generalize joined : middle.setTask middle.taskTail _ = enlisting at rest behind
    have memory : enlisting.machine = middle.machine := by
      rw [← joined]
      rfl
    cases rest
    have ahead := enlisting.setTask_registers task
      { enlisting.taskAt task with prev := middle.taskTail } rfl task
    change _ = kernel.startRegisters process enlisting.machine.memory
    rw [memory, ← registers]
    exact ahead.trans behind

theorem taskNew_ip {kernel next : Kernel} {process task : Word}
    (made : kernel.taskNew process = some (task, next)) (created : ¬ task.toInt < 0) :
    (next.taskAt task).registers.ip = kernel.entryOf process next.machine.memory :=
  congrArg Registers.ip (taskNew_registers made created)

/-! What the mapping of the headers asks of the heap. -/

theorem mapPhdr_asks (kernel : Kernel) (process elfFile header : Word) (i : ℕ) :
    kernel.machine.Ensures Request.Harmless (kernel.mapPhdr process elfFile header i).2.machine
      ((elf32PhdrAt kernel.machine.memory
          (elfProgramHeader kernel.machine.memory header i)).pFilesz = 0 →
        (kernel.machine.request (pageAlign (elf32PhdrAt kernel.machine.memory
          (elfProgramHeader kernel.machine.memory header i)).pMemsz)).Harmless) := by
  unfold mapPhdr
  dsimp only
  generalize elf32PhdrAt kernel.machine.memory
    (elfProgramHeader kernel.machine.memory header i) = phdr
  split
  · cases allocated : kernel.kzalloc (.bss process) (pageAlign phdr.pMemsz) with
    | mk p middle =>
        have asks := (kzalloc_asks allocated).imp
          fun harmless (_ : phdr.pFilesz = 0) => harmless
        dsimp only
        split
        · exact asks
        · exact asks
  · rename_i backed
    exact .of_requests rfl fun bss => absurd bss backed

section Run

variable {start : Kernel} {process size : Word} {directory : PageDirectory}
  (image : start.ElfImage process size)

include image

theorem processMapElf.loop_asks (kernel : Kernel) {rounds i : ℕ}
    (bound : (ePhnum start.machine.memory
      (elfHeader (start.elfFileAt (start.processAt process).p))).toNat ≤ i + rounds) :
    let file := start.elfFileAt (start.processAt process).p
    let result := processMapElf.loop process (start.processAt process).p (elfHeader file) rounds i
      kernel
    kernel.machine.Ensures Request.Harmless result.2.machine
      (∀ directory machine space, start.MappingState process directory kernel machine space →
        ¬ result.1 < 0 → HeadersHarmless process file
          ((programHeaders start.machine.memory (elfHeader file)).drop i) machine) := by
  intro file result
  have none : ∀ {machine : Machine} {j : ℕ},
      ¬ j < (ePhnum start.machine.memory (elfHeader file)).toNat →
      HeadersHarmless process file
        ((programHeaders start.machine.memory (elfHeader file)).drop j) machine := by
    intro machine j beyond
    rw [List.drop_eq_nil_of_le (by rw [programHeaders_length]; exact not_lt.mp beyond)]
    trivial
  induction rounds generalizing i kernel with
  | zero =>
      refine .of_requests rfl fun directory machine space _ _ => none ?_
      exact not_lt.mpr bound
  | succ rounds ih =>
      have first := kernel.mapPhdr_asks process (start.processAt process).p (elfHeader file) i
      have after : (ePhnum start.machine.memory (elfHeader file)).toNat ≤ i + 1 + rounds :=
        le_of_le_of_eq bound (by rw [Nat.add_assoc, Nat.add_comm 1])
      have rest :=
        ih (kernel.mapPhdr process (start.processAt process).p (elfHeader file) i).2 after
      have unfolded : result = _ := processMapElf.loop_succ process (start.processAt process).p
        (elfHeader file) rounds i kernel
      rw [unfolded]
      clear unfolded
      split
      · split
        · rename_i failed
          exact first.imp fun _ _ _ _ _ done => absurd failed done
        · rename_i passed
          refine first.trans (rest.imp fun later asks directory machine space state done => ?_)
          obtain ⟨count, headers⟩ := state.headers image
          by_cases inside : i < (ePhnum start.machine.memory (elfHeader file)).toNat
          · have harmless : ∀ phdr, elf32PhdrAt kernel.machine.memory
                (elfProgramHeader kernel.machine.memory (elfHeader file) i) = phdr →
                phdr.pFilesz = 0 → (machine.request (pageAlign phdr.pMemsz)).Harmless := by
              rintro phdr rfl bss
              exact (Machine.request_harmless_congr (fun x low => (state.agree_low low).symm) _).mpr
                (asks bss)
            have read := headers i inside
            rw [programHeaders_drop inside]
            refine ⟨harmless _ read, ?_⟩
            rcases state.mapPhdr (start.processAt process).p (elfHeader file) i read
              (harmless _ read) with ⟨_, _, mapped⟩ | ⟨failed, _⟩
            · exact later _ _ _ mapped done
            · exact absurd failed passed
          · exact none inside
      · rename_i beyond
        refine .of_requests rfl fun directory machine space state _ => none ?_
        rw [← (state.headers image).1]
        exact beyond

theorem processMapMemory_asks {next : Kernel} {ret : Int}
    (elf : (start.processAt process).filetype = processFiletypeElf)
    (paging : start.machine.PagingSound)
    (has : start.machine.HasChunk (start.chunkOf process) directory)
    (mapped : start.processMapMemory process = some (ret, next)) (done : ¬ ret < 0) :
    start.machine.Ensures Request.Harmless next.machine
      (HeadersHarmless process (start.elfFileAt (start.processAt process).p)
        (programHeaders start.machine.memory
          (elfHeader (start.elfFileAt (start.processAt process).p))) start.machine) := by
  have enough := (ePhnum start.machine.memory
    (elfHeader (start.elfFileAt (start.processAt process).p))).isLt
  have bound : (ePhnum start.machine.memory
      (elfHeader (start.elfFileAt (start.processAt process).p))).toNat ≤ 0 + 2 ^ 16 := by omega
  have asks := processMapElf.loop_asks image start bound
  unfold processMapMemory processMapElf at mapped
  dsimp only at mapped asks
  rw [if_pos elf] at mapped
  dsimp only [Option.bind_eq_bind, Option.bind_some] at mapped
  split at mapped
  · rename_i failed
    cases mapped
    exact absurd failed done
  · rename_i passed
    have stack := congrArg (fun result => result.2.machine.requests) (Option.some.inj mapped)
    exact (asks.congr stack.symm).imp fun holds =>
      holds _ _ _ (MappingState.refl paging has) passed

end Run

/-! The way to the mapping. -/

/-- A program from an ELF file is recorded in the process. -/
structure RecordsElf (kernel : Kernel) (process elfFile : Word) (file : ByteMemory) (size : Word) :
    Prop where
  paging : kernel.machine.PagingSound
  filetype : (kernel.processAt process).filetype = processFiletypeElf
  program : (kernel.processAt process).p = elfFile
  holds : kernel.HoldsElf process elfFile file size

theorem processLoadData_elf (kernel : Kernel) (process : Word) {answers : LoadAnswers}
    {elfFile : Word} (quiet : answers.elf.readCalls = [] ∧ answers.binary.readCalls = [])
    (nonempty : answers.elf.filesize ≠ 0)
    (stored : (kernel.elfLoad process answers.elf).2.1 = some elfFile) :
    kernel.machine.Ensures Request.Harmless (kernel.processLoadData process answers).2.machine
      (kernel.machine.PagingSound →
        (kernel.processLoadData process answers).2.RecordsElf process elfFile answers.elf.file
          answers.elf.filesize ∧
        Accepted (kernel.processLoadData process answers).2.machine.memory
          ((kernel.processLoadData process answers).2.elfFileAt elfFile).elfMemory) := by
  have loaded := (kernel.elfLoad_holds process quiet.1 nonempty stored).and
    (kernel.elfLoad_keeps process quiet.1)
  have status := elfLoad_stored stored
  unfold processLoadData processLoadElf
  dsimp only
  generalize kernel.elfLoad process answers.elf = result at stored loaded status ⊢
  obtain ⟨ret, file, next⟩ := result
  dsimp only at stored loaded status ⊢
  subst status stored
  rw [if_neg (lt_irrefl 0)]
  dsimp only
  rw [if_neg (show (0 : Int) ≠ -EBADFORMAT by decide)]
  refine (loaded.congr rfl).imp fun outcome paging => ⟨?_, (outcome.1 paging).2⟩
  have record : (next.setProcess process { next.processAt process with
      filetype := processFiletypeElf, p := elfFile }).processAt process =
      { next.processAt process with filetype := processFiletypeElf, p := elfFile } :=
    Function.update_self ..
  exact {
    paging := (outcome.2 paging).paging
    filetype := congrArg Process.filetype record
    program := congrArg Process.p record
    holds := ⟨(outcome.1 paging).1.held, (outcome.1 paging).1.shows⟩ }

/-- The kernel before the memory of the process is mapped. -/
structure ElfStart (start : Kernel) (process task elfFile : Word) (file : ByteMemory)
    (size : Word) (directory : PageDirectory) : Prop
    extends start.RecordsElf process elfFile file size where
  has : start.machine.HasChunk (start.chunkOf process) directory
  stack : start.machine.live (start.processAt process).stack =
    some ⟨phixUserProgramStackSize, .stack process⟩
  thread : (start.processAt process).task = task
  ip : (start.taskAt task).registers.ip =
    eEntry start.machine.memory (elfHeader (start.elfFileAt elfFile))

/-- The stack is allocated and recorded. -/
theorem RecordsElf.stack {kernel stacked : Kernel} {process elfFile size programSp : Word}
    {file : ByteMemory} (records : kernel.RecordsElf process elfFile file size)
    (harmless : (kernel.machine.request phixUserProgramStackSize).Harmless)
    (granted : kernel.kzalloc (.stack process) phixUserProgramStackSize = (programSp, stacked))
    (found : programSp ≠ null) (slot : BitVec 16) :
    (stacked.setProcess process { stacked.processAt process with
        stack := programSp, id := slot }).RecordsElf process elfFile file size ∧
      stacked.machine.live programSp = some ⟨phixUserProgramStackSize, .stack process⟩ := by
  obtain rfl : (kernel.kzalloc (.stack process) phixUserProgramStackSize).2 = stacked :=
    congrArg Prod.snd granted
  obtain rfl : (kernel.machine.kzalloc (.stack process) phixUserProgramStackSize).1 = programSp :=
    congrArg Prod.fst granted
  obtain ⟨grown, _⟩ := records.paging.sound.kzalloc_harmless (.stack process) harmless
  have cleared := records.paging.sound.kzalloc (.stack process) (by decide) found
  have holds : ((kernel.kzalloc (.stack process) phixUserProgramStackSize).2).HoldsElf process
    elfFile file size := records.holds.grown grown rfl
  refine ⟨?_, cleared.held⟩
  have record := Function.update_self process { (kernel.kzalloc (.stack process)
    phixUserProgramStackSize).2.processAt process with
      stack := (kernel.machine.kzalloc (.stack process) phixUserProgramStackSize).1, id := slot }
    (kernel.kzalloc (.stack process) phixUserProgramStackSize).2.processAt
  exact {
    paging := records.paging.kzalloc id harmless
    filetype := (congrArg Process.filetype record).trans records.filetype
    program := (congrArg Process.p record).trans records.program
    holds := ⟨holds.held, holds.shows⟩ }

/-- The task is made and recorded. -/
theorem RecordsElf.start {kernel threaded : Kernel} {process task elfFile size : Word}
    {file : ByteMemory} (records : kernel.RecordsElf process elfFile file size)
    (stack : kernel.machine.live (kernel.processAt process).stack =
      some ⟨phixUserProgramStackSize, .stack process⟩)
    (made : kernel.taskNew process = some (task, threaded)) (created : ¬ task.toInt < 0) :
    ∃ directory, (threaded.setProcess process
      { threaded.processAt process with task }).ElfStart process task elfFile file size
        directory := by
  rcases taskNew_newTask records.paging process made with ⟨rfl, _, _⟩ | ⟨directory, new⟩
  · exact absurd (by decide) created
  have holds := records.holds.grown new.grown new.elfFileAt
  have ip := taskNew_ip made created
  unfold entryOf at ip
  rw [if_pos records.filetype, records.program, ← new.elfFileAt] at ip
  have record : (threaded.setProcess process { threaded.processAt process with task }).processAt
      process = { kernel.processAt process with task } := by
    rw [← new.processAt]
    exact Function.update_self ..
  refine ⟨directory, {
    paging := new.paging
    filetype := (congrArg Process.filetype record).trans records.filetype
    program := (congrArg Process.p record).trans records.program
    holds := ⟨holds.held, holds.shows⟩
    has := ?_
    stack := ?_
    thread := congrArg Process.task record
    ip := ip }⟩
  · unfold chunkOf
    rw [record]
    exact new.has
  · rw [record]
    exact new.grown.kept _ _ stack

theorem Reaches.elf {kernel : Kernel} {answers : LoadAnswers} {processSlot : ℕ}
    {process elfFile : Word} {label : LoadLabel}
    (quiet : answers.elf.readCalls = [] ∧ answers.binary.readCalls = [])
    (nonempty : answers.elf.filesize ≠ 0)
    (stored : ((kernel.setProcess process Process.zero).elfLoad process answers.elf).2.1 =
      some elfFile)
    (reaches : kernel.Reaches answers processSlot process label) (done : ¬ label.ret < 0) :
    ∃ (start next : Kernel) (status : Int) (processes : ℕ → Word),
      start.processMapMemory process = some (status, next) ∧ ¬ status < 0 ∧
      label.kernel = { next with processes } ∧ label.process = some process ∧
      kernel.machine.Ensures Request.Harmless start.machine (kernel.machine.PagingSound →
        (∃ directory, start.ElfStart process label.task elfFile answers.elf.file
          answers.elf.filesize directory) ∧
        (Complete answers.elf.file answers.elf.filesize → Accepted answers.elf.file 0)) := by
  have data : kernel.machine.Ensures Request.Harmless
      ((kernel.setProcess process Process.zero).processLoadData process answers).2.machine
      (kernel.machine.PagingSound →
        ((kernel.setProcess process Process.zero).processLoadData process answers).2.RecordsElf
          process elfFile answers.elf.file answers.elf.filesize ∧
        Accepted
          (((kernel.setProcess process Process.zero).processLoadData process
            answers).2.machine.memory)
          (((kernel.setProcess process Process.zero).processLoadData process answers).2.elfFileAt
            elfFile).elfMemory) :=
    processLoadData_elf (kernel.setProcess process Process.zero) process quiet nonempty stored
  cases reaches with
  | unread loaded failed => exact absurd failed done
  | unstacked => exact absurd (show (-ENOMEM : Int) < 0 by decide) done
  | unstarted _ _ _ _ _ failed => exact absurd failed done
  | @mapped _ middle programSp stacked task threaded status next loaded _ granted found made
      created mapped =>
      rw [loaded] at data
      have asks := data.trans ((kzalloc_asks granted).imp fun harmless before paging =>
        And.intro harmless (before paging))
      have whole : kernel.machine.Ensures Request.Harmless threaded.machine
          (kernel.machine.PagingSound →
            (middle.machine.request phixUserProgramStackSize).Harmless ∧
            middle.RecordsElf process elfFile answers.elf.file answers.elf.filesize ∧
            Accepted middle.machine.memory (middle.elfFileAt elfFile).elfMemory) :=
        asks.trans ((taskNew_keeps made).imp fun _ before => before)
      have passed : ¬ status < 0 := by
        intro failed
        rw [if_pos failed] at done
        exact done failed
      rw [if_neg passed]
      refine ⟨_, next, status, _, mapped, passed, rfl, rfl, whole.imp fun outcome paging => ?_⟩
      obtain ⟨harmless, records, accepted⟩ := outcome paging
      obtain ⟨prepared, stack⟩ := records.stack harmless granted found (BitVec.ofNat 16 processSlot)
      refine ⟨prepared.start ?_ made created, fun complete =>
        (records.holds.shows.accepted_iff complete).mp accepted⟩
      have record := Function.update_self process { stacked.processAt process with
        stack := programSp, id := BitVec.ofNat 16 processSlot } stacked.processAt
      exact (congrArg (fun record => stacked.machine.live record.stack) record).trans stack

end Kernel

end Phix
