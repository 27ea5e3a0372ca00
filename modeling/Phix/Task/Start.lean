import Phix.Task.Entry

/-! # Programs that are loaded

While the pool is free, `process_load` loads an ELF file that the loader accepts and whose segments
lie in it (`Phix.Kernel.processLoad_ofFile`). The program that is started is a 32-bit executable
whose entry point is on a page mapped from one of its segments exactly when the file says so
(`Phix.Kernel.elf_starts_runnable_iff`).
-/

namespace Phix

def LoadAnswers.ofFile (size : Word) (content : ℕ → Byte) : LoadAnswers :=
  ⟨.ofFile size content, .ofFile size content, null⟩

/-- The file is an ELF file that the loader accepts. -/
structure Admissible (file : ByteMemory) (size : Word) : Prop where
  proper : Proper size
  complete : Complete file size
  signature : elfValidSignature file 0
  accepted : Accepted file 0

/-- Such a file whose segments are in the file. -/
structure Loadable (file : ByteMemory) (size : Word) : Prop extends Admissible file size where
  backed : ∀ phdr ∈ programHeaders file 0, phdr.pFilesz ≠ 0
  bounded : ∀ phdr ∈ programHeaders file 0, phdr.pOffset.toNat + phdr.pMemsz.toNat ≤ 2 ^ 31

/-- Opening a file takes a block for each of its records. -/
theorem Machine.kernelCalls_records {machine : Machine} (paging : machine.PagingSound)
    {n : ℕ} (room : n ≤ machine.freeBlocks.card) :
    (machine.kernelCalls (List.replicate n (.kzalloc 32))).PagingSound ∧
      machine.Takes (machine.kernelCalls (List.replicate n (.kzalloc 32))) n ∧
      machine.Permits Request.Harmless (machine.kernelCalls (List.replicate n (.kzalloc 32))) := by
  induction n generalizing machine with
  | zero => exact ⟨paging, .refl machine, [], rfl, fun _ absent => absurd absent List.not_mem_nil⟩
  | succ n ih =>
      have asks := machine.kzalloc_permits .kernel 32 (by decide) (by decide)
      obtain ⟨_, takes⟩ := paging.sound.kzalloc_block .kernel (show 1 ≤ (32 : Word).toNat by decide)
        (by decide) (Finset.card_pos.mp (by omega))
      have first := paging.kzalloc (show ¬ Owner.kernel.IsPaging from id)
        (machine.request_block_harmless (show 1 ≤ (32 : Word).toNat by decide) (by decide))
      have spare := takes.card
      obtain ⟨after, more, rest⟩ := ih first (by omega)
      rw [List.replicate_succ]
      refine ⟨after, ?_, asks.trans rest⟩
      rw [Nat.add_comm n 1]
      exact takes.trans more

namespace Kernel

/-- An allocation while the end of the pool is free. -/
theorem kzalloc_free {kernel next : Kernel} {owner : Owner} {size p : Word} {k : ℕ}
    (paging : kernel.machine.PagingSound) (free : kernel.machine.FreeFrom k)
    (notPaging : ¬ owner.IsPaging) (proper : Proper size) (room : k + blockCount size ≤ 25600)
    (allocated : kernel.kzalloc owner size = (p, next)) :
    p ≠ null ∧ kernel.machine.Cleared owner size p next.machine ∧ next.machine.PagingSound ∧
      kernel.machine.Takes next.machine (blockCount size) ∧
      kernel.machine.Permits Request.Harmless next.machine := by
  obtain rfl : (kernel.machine.kzalloc owner size).1 = p := congrArg Prod.fst allocated
  obtain rfl : (kernel.kzalloc owner size).2 = next := congrArg Prod.snd allocated
  obtain ⟨found, takes⟩ := paging.sound.kzalloc_takes owner proper ⟨k, free.freeRun room⟩
  have cleared := paging.sound.kzalloc owner proper found
  refine ⟨found, cleared, paging.cleared cleared notPaging, takes, [kernel.machine.request size],
    rfl, fun request member => ?_⟩
  rw [List.mem_singleton.mp member]
  exact .inl (free.served proper room)

/-- `elf_load` reads a file that is accepted. -/
theorem elfLoad_ofFile {kernel : Kernel} (process : Word) {size : Word} {content : ℕ → Byte} {k : ℕ}
    (paging : kernel.machine.PagingSound) (free : kernel.machine.FreeFrom k)
    (room : k + 8 + blockCount size ≤ 25600)
    (admissible : Admissible (FileAnswers.ofFile size content).file size) :
    ∃ elfFile next, kernel.elfLoad process (.ofFile size content) = (0, some elfFile, next) ∧
      next.machine.PagingSound ∧ kernel.machine.Takes next.machine (8 + blockCount size) ∧
      kernel.machine.Permits Request.Harmless next.machine := by
  have one : blockCount sizeofElfFile = 1 := by decide
  unfold elfLoad
  cases allocated : kernel.kzalloc .elfFile sizeofElfFile with
  | mk elfFile first =>
      obtain ⟨found, _, firstPaging, firstTakes, firstAsks⟩ :=
        kzalloc_free paging free id (by decide) (by omega) allocated
      rw [one] at firstTakes
      have opens : ¬ (FileAnswers.ofFile size content).fopen < 0 := show ¬ (1 : Int) < 0 by decide
      have stats : ¬ (FileAnswers.ofFile size content).fstat < 0 := show ¬ (0 : Int) < 0 by decide
      have reads : ¬ (FileAnswers.ofFile size content).fread < 0 := show ¬ (1 : Int) < 0 by decide
      dsimp only
      rw [if_neg found, if_neg opens, if_neg stats]
      have spare := (firstTakes.freeFrom k free (by omega)).card
      obtain ⟨openedPaging, openedTakes, openedAsks⟩ :=
        Machine.kernelCalls_records firstPaging (show 7 ≤ first.machine.freeBlocks.card by omega)
      have openedTakes := firstTakes.trans openedTakes
      have openedAsks := firstAsks.trans openedAsks
      have same : ((first.setElfFile elfFile ElfFile.zero).kernelCalls
          (FileAnswers.ofFile size content).openCalls).machine =
            first.machine.kernelCalls (List.replicate 7 (.kzalloc 32)) := rfl
      rw [← same] at openedPaging openedTakes openedAsks
      generalize (first.setElfFile elfFile ElfFile.zero).kernelCalls
        (FileAnswers.ofFile size content).openCalls =
          second at openedPaging openedTakes openedAsks ⊢
      have openedFree := openedTakes.freeFrom k free (by omega)
      cases imageAllocated : second.kzalloc (.image process)
          (FileAnswers.ofFile size content).filesize with
      | mk elfMemory third =>
          obtain ⟨isImage, cleared, paging, takes, asks⟩ := kzalloc_free openedPaging openedFree id
            admissible.proper (by omega) imageAllocated
          have takes := openedTakes.trans takes
          dsimp only
          rw [if_neg isImage]
          have machine : (third.setElfFile elfFile { ElfFile.zero with elfMemory }).machine =
            third.machine := rfl
          have place : ((third.setElfFile elfFile { ElfFile.zero with elfMemory }).elfFileAt
              elfFile).elfMemory = elfMemory :=
            congrArg ElfFile.elfMemory (third.setElfFile_elfFileAt elfFile _)
          generalize third.setElfFile elfFile { ElfFile.zero with elfMemory } = fourth
            at machine place ⊢
          rw [← machine] at cleared paging takes asks
          have shows : Shows (fourth.fread (.ofFile size content) elfMemory).2.machine.memory
              elfMemory (FileAnswers.ofFile size content).file size :=
            fread_shows rfl admissible.proper cleared
          have fill : ∀ x : Word, ¬ (x - elfMemory).toNat < size.toNat →
              (fourth.fread (.ofFile size content) elfMemory).2.machine.memory x =
                fourth.machine.memory x := fun x far =>
            (fourth.machine.memory.write_apply elfMemory content size.isLt.le x).trans (if_neg far)
          have low : ∀ x : Word, x.toNat < tableLimit →
              (fourth.fread (.ofFile size content) elfMemory).2.machine.memory x =
                fourth.machine.memory x := fun x below =>
            Machine.PagingSound.fill_low cleared.held fill paging.sound below
          have paging : (fourth.fread (.ofFile size content) elfMemory).2.machine.PagingSound :=
            paging.fill cleared.held id fill
          have takes : kernel.machine.Takes
              (fourth.fread (.ofFile size content) elfMemory).2.machine (8 + blockCount size) :=
            takes.congr low
          have asks : second.machine.Permits Request.Harmless
            (fourth.fread (.ofFile size content) elfMemory).2.machine := asks
          have status : ¬ (fourth.fread (.ofFile size content) elfMemory).1 < 0 := reads
          have place : ((fourth.fread (.ofFile size content) elfMemory).2.elfFileAt
            elfFile).elfMemory = elfMemory := place
          generalize fourth.fread (.ofFile size content) elfMemory = read
            at shows paging takes asks status place ⊢
          obtain ⟨ret, fifth⟩ := read
          dsimp only at shows paging takes asks status place ⊢
          rw [if_neg status]
          rw [← place] at shows
          have accepts := ((shows.accepted_iff admissible.complete).mpr
            admissible.accepted).elfProcessLoaded (by
              rw [shows.elfValidSignature admissible.complete.header]
              exact admissible.signature)
          rw [accepts, if_neg (lt_irrefl 0)]
          refine ⟨elfFile, _, if_neg (not_not.mpr rfl), paging, takes, openedAsks.trans asks⟩

/-! What the mapping asks of the heap. -/

theorem mapPhdr_permits {kernel : Kernel} (process elfFile header : Word) (i : ℕ)
    {phdr : Elf32Phdr} (read : elf32PhdrAt kernel.machine.memory
      (elfProgramHeader kernel.machine.memory header i) = phdr)
    (harmless : phdr.pFilesz = 0 → (kernel.machine.request (pageAlign phdr.pMemsz)).Harmless) :
    kernel.machine.Permits Request.Harmless
        (kernel.mapPhdr process elfFile header i).2.machine := by
  unfold mapPhdr
  dsimp only
  rw [read]
  split
  · rename_i bss
    cases allocated : kernel.kzalloc (.bss process) (pageAlign phdr.pMemsz) with
    | mk p middle =>
        obtain rfl : (kernel.kzalloc (.bss process) (pageAlign phdr.pMemsz)).2 = middle :=
          congrArg Prod.snd allocated
        have asks : kernel.machine.Permits Request.Harmless
            (kernel.kzalloc (.bss process) (pageAlign phdr.pMemsz)).2.machine := by
          refine ⟨[kernel.machine.request (pageAlign phdr.pMemsz)], rfl, fun request member => ?_⟩
          rw [List.mem_singleton.mp member]
          exact harmless bss
        dsimp only
        split
        · exact asks
        · exact asks
  · exact ⟨[], rfl, fun _ absent => absurd absent List.not_mem_nil⟩

section Run

variable {start : Kernel} {process size : Word} {directory : PageDirectory}
  (image : start.ElfImage process size)

include image

theorem MappingState.loop_permits {kernel : Kernel} {machine : Machine} {space : AddressSpace}
    (state : start.MappingState process directory kernel machine space) (rounds i : ℕ)
    (harmless : HeadersHarmless process (start.elfFileAt (start.processAt process).p)
      ((programHeaders start.machine.memory
        (elfHeader (start.elfFileAt (start.processAt process).p))).drop i) machine) :
    kernel.machine.Permits Request.Harmless
      (processMapElf.loop process (start.processAt process).p
        (elfHeader (start.elfFileAt (start.processAt process).p)) rounds i kernel).2.machine := by
  have none : ∀ (kernel : Kernel), kernel.machine.Permits Request.Harmless kernel.machine :=
    fun _ => ⟨[], rfl, fun _ absent => absurd absent List.not_mem_nil⟩
  induction rounds generalizing i kernel machine space with
  | zero => exact none kernel
  | succ rounds ih =>
      obtain ⟨count, headers⟩ := state.headers image
      rw [processMapElf.loop_succ]
      split
      · rename_i inside
        rw [count] at inside
        rw [programHeaders_drop inside] at harmless
        have read := headers i inside
        have asks := mapPhdr_permits process (start.processAt process).p
          (elfHeader (start.elfFileAt (start.processAt process).p)) i read fun bss =>
            (Machine.request_harmless_congr (fun _ low => state.agree_low low) _).mpr
              (harmless.1 bss)
        split
        · exact asks
        · rename_i passed
          rcases state.mapPhdr (start.processAt process).p
            (elfHeader (start.elfFileAt (start.processAt process).p)) i read harmless.1 with
            ⟨_, _, mapped⟩ | ⟨failed, _⟩
          · exact asks.trans (ih mapped (i + 1) harmless.2)
          · exact absurd failed passed
      · exact none kernel

theorem processMapMemory_permits {next : Kernel} {ret : Int}
    (elf : (start.processAt process).filetype = processFiletypeElf)
    (paging : start.machine.PagingSound)
    (has : start.machine.HasChunk (start.chunkOf process) directory)
    (harmless : HeadersHarmless process (start.elfFileAt (start.processAt process).p)
      (programHeaders start.machine.memory
        (elfHeader (start.elfFileAt (start.processAt process).p))) start.machine)
    (mapped : start.processMapMemory process = some (ret, next)) :
    start.machine.Permits Request.Harmless next.machine := by
  have asks := (MappingState.refl paging has).loop_permits image (2 ^ 16) 0 harmless
  unfold processMapMemory processMapElf at mapped
  dsimp only at mapped
  rw [if_pos elf] at mapped
  dsimp only [Option.bind_eq_bind, Option.bind_some] at mapped
  split at mapped
  · cases mapped
    exact asks
  · obtain ⟨requests, journal, all⟩ := asks
    have stack := congrArg (fun result => result.2.machine.requests) (Option.some.inj mapped)
    exact ⟨requests, stack.symm.trans journal, all⟩

end Run

/-- A load of a file that is about to map the memory of its process. -/
structure Prepares (kernel : Kernel) (process : Word) (processSlot : ℕ) (size : Word)
    (content : ℕ → Byte) (elfFile programSp task : Word) (start : Kernel)
    (directory : PageDirectory) : Prop
    extends start.ElfStart process task elfFile (FileAnswers.ofFile size content).file size
      directory where
  stored : ((kernel.setProcess process Process.zero).elfLoad process
    (.ofFile size content)).2.1 = some elfFile
  takes : kernel.machine.Takes start.machine (1039 + blockCount size)
  asks : kernel.machine.Permits Request.Harmless start.machine
  processes : start.processes = kernel.processes
  label : kernel.processLoadLabel (.ofFile size content) processSlot process =
    (start.processMapMemory process).map fun mapped =>
      if mapped.1 < 0 then ⟨mapped.2, programSp, task, mapped.1, none⟩
      else ⟨{ mapped.2 with
          processes := Function.update mapped.2.processes processSlot process },
        programSp, task, mapped.1, some process⟩

/-- A program that the loader accepts comes as far as its mapping. -/
theorem processLoadLabel_prepares {kernel : Kernel} (process : Word) (processSlot : ℕ) {size : Word}
    {content : ℕ → Byte} {k : ℕ} (paging : kernel.machine.PagingSound)
    (free : kernel.machine.FreeFrom k) (room : k + blockCount size + 1039 ≤ 25600)
    (admissible : Admissible (FileAnswers.ofFile size content).file size) :
    ∃ elfFile programSp task start directory,
      kernel.Prepares process processSlot size content elfFile programSp task start directory := by
  have four : blockCount phixUserProgramStackSize = 4 := by decide
  have initPaging : (kernel.setProcess process Process.zero).machine.PagingSound := paging
  obtain ⟨elfFile, loaded, elf, _, loadedTakes, loadedAsks⟩ :=
    elfLoad_ofFile process initPaging free (by omega) admissible
  have loadedTakes : kernel.machine.Takes loaded.machine (8 + blockCount size) := loadedTakes
  have loadedFree := loadedTakes.freeFrom k free (by omega)
  have nonempty : (LoadAnswers.ofFile size content).elf.filesize ≠ 0 := by
    intro empty
    have positive := admissible.proper.1
    rw [show size = 0 from empty] at positive
    exact absurd positive (by decide)
  have stored : ((kernel.setProcess process Process.zero).elfLoad process
    (LoadAnswers.ofFile size content).elf).2.1 = some elfFile := congrArg (fun r => r.2.1) elf
  have data : (kernel.setProcess process Process.zero).processLoadData process
      (.ofFile size content) = (0, loaded.setProcess process { loaded.processAt process with
        filetype := processFiletypeElf, p := elfFile }) := by
    have elf : (kernel.setProcess process Process.zero).elfLoad process
      (LoadAnswers.ofFile size content).elf = (0, some elfFile, loaded) := elf
    unfold processLoadData processLoadElf
    dsimp only
    rw [elf, if_neg (lt_irrefl 0)]
    exact if_neg (show (0 : Int) ≠ -EBADFORMAT by decide)
  have records := processLoadData_elf (kernel.setProcess process Process.zero) process
    ⟨rfl, rfl⟩ nonempty stored
  have slots := ((kernel.setProcess process Process.zero).processLoadData_ownWork process
    (.ofFile size content)).processes
  rw [data] at records slots
  obtain ⟨records, _⟩ := records.apply loadedAsks initPaging
  refine ⟨elfFile, ?_⟩
  cases granted : (loaded.setProcess process { loaded.processAt process with
      filetype := processFiletypeElf, p := elfFile }).kzalloc (.stack process)
      phixUserProgramStackSize with
  | mk programSp stacked =>
      obtain ⟨found, _, stackedPaging, stackedTakes, stackedAsks⟩ := kzalloc_free records.paging
        loadedFree id (by decide) (by omega) granted
      have stackedTakes := loadedTakes.trans stackedTakes
      have harmless : (loaded.machine.request phixUserProgramStackSize).Harmless :=
        .inl (loadedFree.served (by decide) (by omega))
      obtain ⟨prepared, stack⟩ := records.stack harmless granted found (BitVec.ofNat 16 processSlot)
      have stackedSlots : stacked.processes = kernel.processes :=
        (congrArg (fun result : Word × Kernel => result.2.processes) granted).symm.trans slots
      rw [four] at stackedTakes
      have held : (stacked.setProcess process { stacked.processAt process with
            stack := programSp, id := BitVec.ofNat 16 processSlot }).machine.live
          ((stacked.setProcess process { stacked.processAt process with
            stack := programSp, id := BitVec.ofNat 16 processSlot }).processAt process).stack =
          some ⟨phixUserProgramStackSize, .stack process⟩ := by
        have record := Function.update_self process { stacked.processAt process with
          stack := programSp, id := BitVec.ofNat 16 processSlot } stacked.processAt
        exact (congrArg (fun record => stacked.machine.live record.stack) record).trans stack
      have asks : kernel.machine.Permits Request.Harmless stacked.machine :=
        loadedAsks.trans stackedAsks
      have preparedFree := stackedTakes.freeFrom k free (by omega)
      obtain ⟨task, threaded, _, made, new, takes⟩ :=
        taskNew_some prepared.paging process preparedFree (by omega)
      have created : ¬ task.toInt < 0 := by
        rw [new.task_ne_null.1]
        exact not_lt.mpr (Int.natCast_nonneg _)
      obtain ⟨directory, start⟩ := prepared.start held made created
      have threadedAsks := taskNew_permits made
      refine ⟨programSp, task, _, directory, {
        toElfStart := start
        stored
        takes := ?_
        asks := asks.trans threadedAsks
        processes := new.processes.trans stackedSlots
        label := ?_ }⟩
      · have all := stackedTakes.trans takes
        rwa [show 8 + blockCount size + 4 + 1027 = 1039 + blockCount size by omega] at all
      · unfold processLoadLabel
        dsimp only
        rw [data, if_neg (lt_irrefl 0), granted]
        dsimp only
        rw [if_neg found, made, Option.bind_eq_bind, Option.bind_some]
        dsimp only
        rw [if_neg created]
        cases (threaded.setProcess process
            { threaded.processAt process with task }).processMapMemory process with
        | none => rfl
        | some mapped =>
            rw [Option.map_some, Option.bind_eq_bind, Option.bind_some]
            exact (apply_ite some _ _ _).symm

/-- A program from such a file comes to the label of a load with success. -/
theorem processLoadLabel_ofFile {kernel : Kernel} (process : Word) (processSlot : ℕ) {size : Word}
    {content : ℕ → Byte} {k : ℕ} (paging : kernel.machine.PagingSound)
    (free : kernel.machine.FreeFrom k) (room : k + blockCount size + 1039 ≤ 25600)
    (loadable : Loadable (FileAnswers.ofFile size content).file size) :
    ∃ elfFile label,
      ((kernel.setProcess process Process.zero).elfLoad process (.ofFile size content)).2.1 =
        some elfFile ∧
      kernel.processLoadLabel (.ofFile size content) processSlot process = some label ∧
      label.ret = 0 ∧ label.process = some process ∧
      label.kernel.machine.PagingSound ∧
      label.kernel.processes = Function.update kernel.processes processSlot process ∧
      kernel.machine.Takes label.kernel.machine (1039 + blockCount size) ∧
      kernel.machine.Permits Request.Harmless label.kernel.machine := by
  obtain ⟨elfFile, programSp, task, start, directory, prepares⟩ :=
    processLoadLabel_prepares process processSlot paging free room loadable.toAdmissible
  have image := prepares.elfImage loadable.complete loadable.accepted
  have headers : programHeaders start.machine.memory
      (elfHeader (start.elfFileAt (start.processAt process).p)) =
      programHeaders (FileAnswers.ofFile size content).file 0 :=
    prepares.headers loadable.complete loadable.accepted
  have harmless := headersHarmless_fileBacked process
    (start.elfFileAt (start.processAt process).p) loadable.backed start.machine
  rw [← headers] at harmless
  obtain ⟨s, inside, pointer, _⟩ := prepares.paging.sound.pointer image.held
  have place := poolBlock_toNat inside
  rw [← pointer] at place
  have accepts : start.ProgramAccepted process := by
    refine ⟨fun binary => absurd (prepares.filetype.symm.trans binary) (by decide), fun _ => ?_, ?_⟩
    · rw [headers]
      exact headersAccepted_fileBacked process (by omega) loadable.backed loadable.bounded _
    · obtain ⟨t, insideStack, pointerStack, _⟩ := prepares.paging.sound.pointer prepares.stack
      exact allocation_accepts (by decide) (by decide) ⟨t, insideStack, pointerStack⟩
  obtain ⟨next, mapped⟩ := processMapMemory_some prepares.paging prepares.has
    (.inr ⟨prepares.filetype, image, harmless⟩) accepts
  have mapAsks := processMapMemory_permits image prepares.filetype prepares.paging prepares.has
    harmless mapped
  have slots := (processMapMemory_sameThreads start process mapped).processes
  obtain ⟨state, _⟩ := processMapMemory_mapped prepares.paging prepares.has
    (.inr ⟨prepares.filetype, image, harmless⟩) mapped
  have served : (start.memoryRegions process).2 = start.machine := by
    unfold memoryRegions
    simp only [prepares.filetype, if_true, headers]
    exact congrArg Prod.snd (placeHeaders_fileBacked process _ loadable.backed start.machine)
  rw [served] at state
  have reached := prepares.label
  rw [mapped, Option.map_some, if_neg (lt_irrefl 0)] at reached
  refine ⟨elfFile, _, prepares.stored, reached, rfl, rfl, state.paging, ?_,
    prepares.takes.congr fun _ low => state.agree_low low, prepares.asks.trans mapAsks⟩
  dsimp only
  rw [slots, prepares.processes]

theorem processGetFreeSlot_zero {kernel : Kernel} (empty : kernel.processes 0 = null) :
    kernel.processGetFreeSlot = (0 : ℕ) := by
  unfold processGetFreeSlot
  exact if_pos empty

theorem processGetFreeSlot_one {kernel : Kernel} (taken : kernel.processes 0 ≠ null)
    (empty : kernel.processes 1 = null) : kernel.processGetFreeSlot = (1 : ℕ) := by
  unfold processGetFreeSlot
  exact (if_neg taken).trans (if_pos empty)

/-- A program from such a file is loaded into the first free slot. -/
theorem processLoad_ofFile {kernel : Kernel} {size : Word} {content : ℕ → Byte} {k i : ℕ}
    (paging : kernel.machine.PagingSound) (free : kernel.machine.FreeFrom k)
    (slot : kernel.processGetFreeSlot = i) (room : k + blockCount size + 1042 ≤ 25600)
    (loadable : Loadable (FileAnswers.ofFile size content).file size) :
    ∃ process elfFile next, kernel.elfStored (.ofFile size content) = some elfFile ∧
      kernel.processLoad (.ofFile size content) = some (0, some process, next) ∧
      process = (kernel.machine.kzalloc .process sizeofProcess).1 ∧
      next.machine.PagingSound ∧
      next.processes = Function.update kernel.processes i process ∧
      kernel.machine.Takes next.machine (1042 + blockCount size) ∧
      kernel.machine.Permits Request.Harmless next.machine := by
  have three : blockCount sizeofProcess = 3 := by decide
  obtain ⟨found, _, recorded, takes, asks⟩ := kzalloc_free paging free
    (show ¬ Owner.process.IsPaging from id) (by decide) (by omega)
    (Prod.mk.eta (p := kernel.kzalloc .process sizeofProcess)).symm
  rw [three] at takes
  have found : (kernel.machine.kzalloc .process sizeofProcess).1 ≠ null := found
  obtain ⟨elfFile, label, stored, reached, status, names, after, table, more, rest⟩ :=
    processLoadLabel_ofFile (kernel.machine.kzalloc .process sizeofProcess).1 i recorded
      (takes.freeFrom k free (by omega)) (by omega) loadable
  have loaded := processLoad_eq (.ofFile size content)
    (show ¬ kernel.processGetFreeSlot < 0 by rw [slot]; exact not_lt.mpr (Int.natCast_nonneg i))
  rw [if_neg found, slot, Int.toNat_natCast, reached, Option.map_some] at loaded
  have out : label.out = (label.ret, label.process, label.kernel) :=
    if_neg (by rw [status]; exact lt_irrefl 0)
  rw [out, status, names] at loaded
  have all := takes.trans more
  rw [show 3 + (1039 + blockCount size) = 1042 + blockCount size by omega] at all
  exact ⟨_, elfFile, label.kernel, stored, loaded, rfl, after, table, all, asks.trans rest⟩

end Kernel

/-- An ELF file of a header alone, which says that a table of no program headers follows. -/
def bareElf : ℕ → Byte
  | 0 => 0x7f
  | 1 => 0x45
  | 2 => 0x4c
  | 3 => 0x46
  | 28 => 52
  | _ => 0

theorem bareElf_file {size : Word} (header : 52 ≤ size.toNat) :
    (FileAnswers.ofFile size bareElf).file = fun x => bareElf x.toNat := by
  funext x
  refine ite_eq_left_iff.mpr fun (beyond : ¬ x.toNat < size.toNat) => ?_
  change 0 = bareElf x.toNat
  unfold bareElf
  split <;> first | omega | rfl

/-- Whatever follows the header. -/
theorem bareElf_loadable {size : Word} (proper : Proper size) (header : 52 ≤ size.toNat) :
    Loadable (FileAnswers.ofFile size bareElf).file size := by
  rw [bareElf_file header]
  have none : programHeaders (fun x => bareElf x.toNat) 0 = [] := by
    unfold programHeaders
    rw [show (ePhnum (fun x => bareElf x.toNat) 0).toNat = 0 by decide]
    rfl
  have absent : ∀ phdr ∈ programHeaders (fun x => bareElf x.toNat) 0, False := by
    rw [none]
    exact fun _ member => absurd member List.not_mem_nil
  exact {
    proper
    complete := ⟨header, le_trans (by decide) header⟩
    signature := by decide
    accepted := ⟨by decide, by decide, by decide, fun phdr member => (absent phdr member).elim⟩
    backed := fun phdr member => (absent phdr member).elim
    bounded := fun phdr member => (absent phdr member).elim }

/-- An executable of one segment, the file itself, which starts behind its program header. -/
def plainElf : ℕ → Byte
  | 0 => 0x7f
  | 1 => 0x45
  | 2 => 0x4c
  | 3 => 0x46
  | 4 => 1
  | 5 => 1
  | 16 => 2
  | 24 => 84
  | 26 => 0x40
  | 28 => 52
  | 44 => 1
  | 52 => 1
  | 62 => 0x40
  | 68 => 96
  | 72 => 96
  | 76 => 5
  | _ => 0

theorem plainElf_headers : programHeaders (FileAnswers.ofFile 96 plainElf).file 0 =
    [elf32PhdrAt (FileAnswers.ofFile 96 plainElf).file 52] := by
  unfold programHeaders
  rw [show (ePhnum (FileAnswers.ofFile 96 plainElf).file 0).toNat = 1 by decide,
    List.range_one, List.map_singleton,
    show elfProgramHeader (FileAnswers.ofFile 96 plainElf).file 0 0 = 52 by decide]

theorem plainElf_loadable : Loadable (FileAnswers.ofFile 96 plainElf).file 96 := by
  refine ⟨⟨by decide, ⟨by decide, by decide⟩, by decide, ⟨by decide, by decide, by decide, ?_⟩⟩,
    ?_, ?_⟩ <;> rw [plainElf_headers] <;> intro phdr member <;>
    rw [List.mem_singleton.mp member] <;> decide

theorem plainElf_startsInside : StartsInside (FileAnswers.ofFile 96 plainElf).file 96 := by
  refine ⟨plainElf_loadable.complete, by decide, by decide, by decide, ?_⟩
  rw [plainElf_headers]
  refine ⟨_, List.mem_singleton_self _, ?_⟩
  unfold Elf32Phdr.Covers
  decide

namespace Kernel

/-- **A program that is loaded from an ELF file is a 32-bit executable that starts on a page of
one of its segments exactly when the file says so**: nothing the loader does makes sure of it. -/
theorem elf_starts_runnable_iff {kernel next : Kernel} {answers : LoadAnswers} {ret : Int}
    {process elfFile : Word} (paging : kernel.machine.PagingSound)
    (quiet : answers.elf.readCalls = [] ∧ answers.binary.readCalls = [])
    (stored : kernel.elfStored answers = some elfFile)
    (loaded : kernel.processLoad answers = some (ret, some process, next)) (done : ¬ ret < 0)
    (orderly : kernel.machine.Permits Request.Harmless next.machine) :
    next.Runnable process answers.elf.file answers.elf.filesize ↔
      StartsInside answers.elf.file answers.elf.filesize := by
  refine ⟨Runnable.startsInside, fun starts => ?_⟩
  obtain ⟨start, middle, processes, task, directory, elf, accepted, harmless, mapped, rfl⟩ :=
    processLoad_elfStart paging quiet stored loaded done starts.complete orderly
  exact elf.runnable starts accepted harmless mapped

/-- The header alone is loaded, which says neither its class nor that it is an executable. -/
theorem elf_starts_runnable_fails : ∃ (process elfFile : Word) (next : Kernel),
    (Kernel.booted fun _ => 0).elfStored (.ofFile 52 bareElf) = some elfFile ∧
      (Kernel.booted fun _ => 0).processLoad (.ofFile 52 bareElf) = some (0, some process, next) ∧
      (Kernel.booted fun _ => 0).machine.Permits Request.Harmless next.machine ∧
      ¬ next.Runnable process (FileAnswers.ofFile 52 bareElf).file 52 := by
  have paging : (Kernel.booted fun _ => 0).machine.PagingSound := Machine.booted_pagingSound _
  obtain ⟨process, elfFile, next, stored, loaded, _, _, _, _, asks⟩ := processLoad_ofFile paging
    (Machine.booted_freeFrom _) (processGetFreeSlot_zero rfl) (by decide)
    (show Loadable (FileAnswers.ofFile 52 bareElf).file 52 from
      bareElf_loadable (by decide) (by decide))
  refine ⟨process, elfFile, next, stored, loaded, asks, fun runnable => ?_⟩
  exact absurd runnable.format (by decide)

/-- Such a file is started where it says. -/
theorem elf_starts_runnable_plain : ∃ (process : Word) (next : Kernel),
    (Kernel.booted fun _ => 0).processLoad (.ofFile 96 plainElf) = some (0, some process, next) ∧
      next.Runnable process (FileAnswers.ofFile 96 plainElf).file 96 := by
  have paging : (Kernel.booted fun _ => 0).machine.PagingSound := Machine.booted_pagingSound _
  obtain ⟨process, elfFile, next, stored, loaded, _, _, _, _, asks⟩ := processLoad_ofFile paging
    (Machine.booted_freeFrom _) (processGetFreeSlot_zero rfl) (by decide) plainElf_loadable
  exact ⟨process, next, loaded, (elf_starts_runnable_iff paging ⟨rfl, rfl⟩ stored loaded
    (lt_irrefl 0) asks).mpr plainElf_startsInside⟩

end Kernel

end Phix
