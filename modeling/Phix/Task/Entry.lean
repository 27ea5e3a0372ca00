import Phix.Task.Elf
import Phix.Task.Faithful

/-! # Where a program starts

The task of a program that is loaded from an ELF file starts at the entry point that the file
gives, whatever it is: `elf_is_executable` is never consulted, and a class or an encoding of none
is accepted. A file that says so is a 32-bit executable whose task starts on a page mapped from one
of its segments (`Phix.Kernel.ElfStart.runnable`).
-/

namespace Phix

namespace Elf32Phdr

/-- Where a segment starts in the image, or in the buffer of one that takes no space in it. -/
def offset (phdr : Elf32Phdr) : Word := if phdr.pFilesz = 0 then 0 else phdr.pOffset

/-- The address is on one of the pages that `process_map_elf` maps for the segment. -/
def Covers (phdr : Elf32Phdr) (v : Word) : Prop :=
  (v - pageAlignLower phdr.pVaddr).toNat <
    (pageAlign (phdr.offset + phdr.pMemsz) - pageAlignLower phdr.offset).toNat

end Elf32Phdr

/-- Rounding commutes with a whole number of pages. -/
theorem pageAlign_add {base : Word} (aligned : base.toNat % 4096 = 0) (x : Word) :
    pageAlign (base + x) = base + pageAlign x := by
  have left : (pageAlign (base + x)).toNat =
    ((base + x).toNat + 4095) % 2 ^ 32 / 4096 * 4096 := align_toNat (base + x)
  have right : (pageAlign x).toNat = (x.toNat + 4095) % 2 ^ 32 / 4096 * 4096 := align_toNat x
  refine BitVec.eq_of_toNat_eq ?_
  rw [left, BitVec.toNat_add, BitVec.toNat_add, right]
  omega

theorem pageAlignLower_add {base : Word} (aligned : base.toNat % 4096 = 0) (x : Word) :
    pageAlignLower (base + x) = base + pageAlignLower x := by
  have left : (pageAlignLower (base + x)).toNat = (base + x).toNat / 4096 * 4096 :=
    alignLower_toNat (base + x)
  have right : (pageAlignLower x).toNat = x.toNat / 4096 * 4096 := alignLower_toNat x
  refine BitVec.eq_of_toNat_eq ?_
  rw [left, BitVec.toNat_add, BitVec.toNat_add, right]
  omega

theorem phdrRegion_covers_iff (phdr : Elf32Phdr) {base : Word} (aligned : base.toNat % 4096 = 0)
    (v : Word) : (phdrRegion phdr (base + phdr.offset)).Covers v ↔ phdr.Covers v := by
  have whole : (pageAlign (phdr.offset + phdr.pMemsz) - pageAlignLower phdr.offset).toNat %
      4096 = 0 := by
    have stop : (pageAlign (phdr.offset + phdr.pMemsz)).toNat = _ := align_toNat _
    have first : (pageAlignLower phdr.offset).toNat = _ := alignLower_toNat _
    rw [BitVec.toNat_sub, stop, first]
    omega
  have pages : pageAlign (base + phdr.offset + phdr.pMemsz) - pageAlignLower (base + phdr.offset) =
      pageAlign (phdr.offset + phdr.pMemsz) - pageAlignLower phdr.offset := by
    rw [BitVec.add_assoc, pageAlign_add aligned, pageAlignLower_add aligned,
      add_sub_add_left_eq_sub]
  unfold PageRegion.Covers phdrRegion mapToPages Elf32Phdr.Covers
  dsimp only
  rw [pages, Nat.mul_div_cancel' (Nat.dvd_of_mod_eq_zero whole)]

section Placed

variable {process : Word} {file : ElfFile} (aligned : file.elfMemory.toNat % 4096 = 0)

include aligned

theorem placeHeader_base (process : Word) (phdr : Elf32Phdr) (machine : Machine) :
    ∃ base : Word, base.toNat % 4096 = 0 ∧
      (placeHeader process file phdr machine).1 = base + phdr.offset := by
  unfold placeHeader Elf32Phdr.offset
  by_cases bss : phdr.pFilesz = 0
  · rw [if_pos bss, if_pos bss]
    refine ⟨(machine.kzalloc (.bss process) (pageAlign phdr.pMemsz)).1, ?_, (add_zero _).symm⟩
    rcases machine.kmalloc_poolBlock (.bss process) (pageAlign phdr.pMemsz) with
      isNull | ⟨s, inside, pointer⟩
    · rw [Machine.kzalloc_pointer, isNull]
      rfl
    · rw [Machine.kzalloc_pointer, pointer, poolBlock_toNat inside]
      omega
  · rw [if_neg bss, if_neg bss]
    exact ⟨file.elfMemory, aligned, rfl⟩

/-- Whatever a segment covers is on the pages of a region. -/
theorem exists_region_of_covers {phdrs : List Elf32Phdr} {v : Word}
    (covers : ∃ phdr ∈ phdrs, phdr.Covers v) (machine : Machine) :
    ∃ region ∈ (placeHeaders process file phdrs machine).1, region.Covers v := by
  induction phdrs generalizing machine with
  | nil =>
      obtain ⟨_, member, _⟩ := covers
      cases member
  | cons phdr phdrs ih =>
      obtain ⟨found, member, covers⟩ := covers
      rcases List.mem_cons.mp member with rfl | later
      · obtain ⟨base, whole, place⟩ := placeHeader_base aligned process found machine
        refine ⟨phdrRegion found (placeHeader process file found machine).1,
          List.mem_cons_self .., ?_⟩
        rw [place]
        exact (phdrRegion_covers_iff found whole v).mpr covers
      · obtain ⟨region, inside, covered⟩ :=
          ih ⟨found, later, covers⟩ (placeHeader process file phdr machine).2
        exact ⟨region, List.mem_cons_of_mem _ inside, covered⟩

/-- Where a segment is placed: in the image, or in a buffer that is allocated for it. -/
def Elf32Phdr.PlacedAt (phdr : Elf32Phdr) (process image : Word) (machine : Machine)
    (paddr : Word) : Prop :=
  (phdr.pFilesz ≠ 0 → paddr = image + phdr.pOffset) ∧
    (phdr.pFilesz = 0 → machine.live paddr = some ⟨pageAlign phdr.pMemsz, .bss process⟩)

omit aligned in
theorem placeHeader_grown {phdr : Elf32Phdr} {machine : Machine} (sound : machine.HeapSound)
    (harmless : phdr.pFilesz = 0 → (machine.request (pageAlign phdr.pMemsz)).Harmless) :
    machine.Grown (placeHeader process file phdr machine).2 := by
  unfold placeHeader
  split
  · rename_i bss
    exact (sound.kzalloc_harmless (.bss process) (harmless bss)).1
  · exact .refl sound

omit aligned in
theorem placeHeaders_grown {phdrs : List Elf32Phdr} {machine : Machine}
    (sound : machine.HeapSound) (harmless : HeadersHarmless process file phdrs machine) :
    machine.Grown (placeHeaders process file phdrs machine).2 := by
  induction phdrs generalizing machine with
  | nil => exact .refl sound
  | cons phdr phdrs ih =>
      have first : machine.Grown (placeHeader process file phdr machine).2 :=
        placeHeader_grown sound harmless.1
      exact first.trans (ih first.sound harmless.2)

omit aligned in
/-- A segment that covers an address is placed. -/
theorem placeHeader_placedAt {phdr : Elf32Phdr} {machine : Machine} {v : Word}
    (sound : machine.HeapSound)
    (harmless : phdr.pFilesz = 0 → (machine.request (pageAlign phdr.pMemsz)).Harmless)
    (found : phdr.pFilesz = 0 → (placeHeader process file phdr machine).1 ≠ null)
    (covers : phdr.Covers v) :
    phdr.PlacedAt process file.elfMemory (placeHeader process file phdr machine).2
      (placeHeader process file phdr machine).1 := by
  unfold placeHeader at found ⊢
  constructor
  · intro backed
    rw [if_neg backed]
    rfl
  · intro bss
    have found := found bss
    rw [if_pos bss] at found ⊢
    rcases harmless bss with served | refused | zero
    · exact (sound.kzalloc_served (.bss process) served).2.held
    · exact absurd (machine.kzalloc_refused (.bss process) refused) found
    · have zero : pageAlign phdr.pMemsz = 0 := zero
      unfold Elf32Phdr.Covers Elf32Phdr.offset at covers
      rw [if_pos bss, zero_add, zero] at covers
      exact absurd covers (Nat.not_lt_zero _)

/-- Whatever a region covers is on the pages of a segment. -/
theorem exists_covers_of_region {phdrs : List Elf32Phdr} {machine : Machine} {region : PageRegion}
    {v : Word} (sound : machine.HeapSound)
    (harmless : HeadersHarmless process file phdrs machine)
    (accepted : HeadersAccepted process file phdrs machine)
    (member : region ∈ (placeHeaders process file phdrs machine).1) (covered : region.Covers v) :
    ∃ phdr ∈ phdrs, phdr.Covers v ∧ ∃ paddr, region = phdrRegion phdr paddr ∧
      phdr.PlacedAt process file.elfMemory (placeHeaders process file phdrs machine).2 paddr := by
  induction phdrs generalizing machine with
  | nil => cases member
  | cons phdr phdrs ih =>
      have first : machine.Grown (placeHeader process file phdr machine).2 :=
        placeHeader_grown sound harmless.1
      have rest := placeHeaders_grown first.sound harmless.2
      rcases List.mem_cons.mp member with rfl | later
      · obtain ⟨base, whole, place⟩ := placeHeader_base aligned process phdr machine
        have covers : phdr.Covers v := by
          refine (phdrRegion_covers_iff phdr whole v).mp ?_
          rw [← place]
          exact covered
        have placed := placeHeader_placedAt sound harmless.1 accepted.1.1 covers
        exact ⟨phdr, List.mem_cons_self .., covers, _, rfl, placed.1,
          fun bss => rest.kept _ _ (placed.2 bss)⟩
      · obtain ⟨found, inside, covers, placed⟩ :=
          ih first.sound harmless.2 accepted.2 later
        exact ⟨found, List.mem_cons_of_mem _ inside, covers, placed⟩

end Placed

namespace Kernel

/-- The image that the ELF file of a process has been read to. -/
def imageOf (kernel : Kernel) (process : Word) : Word :=
  (kernel.elfFileAt (kernel.processAt process).p).elfMemory

/-- The address is on a page that is mapped from the segment. -/
def MapsFrom (kernel : Kernel) (process : Word) (phdr : Elf32Phdr) (v : Word) : Prop :=
  phdr.Covers v ∧ ∃ paddr, phdr.PlacedAt process (kernel.imageOf process) kernel.machine paddr ∧
    kernel.translate process v = pageAlignLower paddr + (v - pageAlignLower phdr.pVaddr) ∧
    kernel.pageFlags process v = flagWord (phdrFlags phdr)

theorem mapTo_status (kernel : Kernel) (process vaddr paddr pend : Word) (flags : Byte) :
    (kernel.mapTo process vaddr paddr pend flags).1 = 0 ∨
      (kernel.mapTo process vaddr paddr pend flags).1 < 0 := by
  unfold mapTo
  by_cases accepts : MapToAccepts vaddr paddr pend
  · rw [pagingMapTo_accepted _ _ accepts]
    exact .inl rfl
  · rw [pagingMapTo_refused _ _ accepts]
    exact .inr (show (-EINVAL : Int) < 0 by decide)

theorem processMapMemory_status {kernel next : Kernel} {process : Word} {ret : Int}
    (mapped : kernel.processMapMemory process = some (ret, next)) (done : ¬ ret < 0) : ret = 0 := by
  -- The last step maps the stack.
  have finish : ∀ (status : Int) (middle : Kernel),
      (if status < 0 then some (status, middle)
        else some (middle.mapTo process phixProgramVirtualStackAddressEnd
          (middle.processAt process).stack
          (pageAlign ((middle.processAt process).stack + phixUserProgramStackSize)) userFlags)) =
        some (ret, next) → ret = 0 := by
    intro status middle rest
    split at rest
    · rename_i failed
      cases rest
      exact absurd failed done
    · have stack := middle.mapTo_status process phixProgramVirtualStackAddressEnd
        (middle.processAt process).stack
        (pageAlign ((middle.processAt process).stack + phixUserProgramStackSize)) userFlags
      rw [Option.some.inj rest] at stack
      exact stack.resolve_right done
  unfold processMapMemory at mapped
  dsimp only at mapped
  split at mapped
  · exact finish _ _ mapped
  · split at mapped
    · exact finish _ _ mapped
    · cases mapped

section Started

variable {start next : Kernel} {process task elfFile size : Word} {file : ByteMemory}
  {directory : PageDirectory} (elf : start.ElfStart process task elfFile file size directory)

include elf

theorem ElfStart.image : start.imageOf process = (start.elfFileAt elfFile).elfMemory := by
  unfold imageOf
  rw [elf.program]

variable (complete : Complete file size)

include complete

theorem ElfStart.entry :
    (start.taskAt (start.processAt process).task).registers.ip = eEntry file 0 := by
  rw [elf.thread, elf.ip]
  exact elf.holds.shows.eEntry complete.header

variable (accepted : Accepted file 0)

include accepted

theorem ElfStart.elfImage : start.ElfImage process size := by
  have shows := elf.holds.shows
  rw [← elf.image] at shows
  refine ⟨?_, complete.header, ?_, ?_⟩
  · rw [elf.program]
    exact elf.holds.held
  · exact (shows.ePhoff complete.header).trans_ne accepted.hasTable
  · have offset : ePhoff start.machine.memory (start.imageOf process) = _ :=
      shows.ePhoff complete.header
    have count : ePhnum start.machine.memory (start.imageOf process) = _ :=
      shows.ePhnum complete.header
    change (ePhoff start.machine.memory (start.imageOf process)).toNat +
      32 * (ePhnum start.machine.memory (start.imageOf process)).toNat ≤ size.toNat
    rw [offset, count]
    exact complete.table

theorem ElfStart.headers : programHeaders start.machine.memory (start.imageOf process) =
    programHeaders file 0 := by
  rw [elf.image]
  exact elf.holds.shows.programHeaders complete accepted.hasTable

theorem ElfStart.accepts (harmless : HeadersHarmless process
      (start.elfFileAt (start.processAt process).p) (programHeaders file 0) start.machine)
    (mapped : start.processMapMemory process = some (0, next)) :
    HeadersAccepted process (start.elfFileAt (start.processAt process).p) (programHeaders file 0)
      start.machine := by
  have headers : programHeaders start.machine.memory
      (elfHeader (start.elfFileAt (start.processAt process).p)) = programHeaders file 0 :=
    elf.headers complete accepted
  rw [← headers] at harmless ⊢
  rcases processMapElf_mapped (elf.elfImage complete accepted) elf.paging elf.has harmless with
    ⟨_, accepts, _⟩ | ⟨failed, _⟩
  · exact accepts
  · unfold processMapMemory at mapped
    simp only [elf.filetype, if_true, Option.bind_eq_bind, Option.bind_some,
      if_pos failed] at mapped
    rw [congrArg Prod.fst (Option.some.inj mapped)] at failed
    exact absurd failed (lt_irrefl 0)

/-- What a segment covers above the stack is mapped from a segment. -/
theorem ElfStart.maps (harmless : HeadersHarmless process
      (start.elfFileAt (start.processAt process).p) (programHeaders file 0) start.machine)
    (mapped : start.processMapMemory process = some (0, next)) {v : Word}
    (above : 0x3FF ≤ pageNumber v) (covered : ∃ phdr ∈ programHeaders file 0, phdr.Covers v) :
    ∃ phdr ∈ programHeaders file 0, next.MapsFrom process phdr v := by
  have headers : programHeaders start.machine.memory
      (elfHeader (start.elfFileAt (start.processAt process).p)) = programHeaders file 0 :=
    elf.headers complete accepted
  have image := elf.elfImage complete accepted
  have aligned : (start.elfFileAt (start.processAt process).p).elfMemory.toNat % 4096 = 0 :=
    elf.paging.sound.aligned image.held
  have accepts := elf.accepts complete accepted harmless mapped
  obtain ⟨state, shapes⟩ := processMapMemory_mapped elf.paging elf.has
    (.inr ⟨elf.filetype, image, by rw [headers]; exact harmless⟩) mapped
  unfold memoryRegions at state shapes
  simp only [elf.filetype, if_true, headers] at state shapes
  have offStack : ¬ (stackRegion (start.processAt process)).Covers v := by
    rw [stackRegion_covers_iff elf.paging elf.stack]
    omega
  obtain ⟨translated, flags⟩ := state.lookup shapes v
  rw [PageRegion.last_concat, if_neg offStack] at translated flags
  obtain ⟨region, member, covers⟩ := exists_region_of_covers aligned covered start.machine
  cases last : PageRegion.last (placeHeaders process
      (start.elfFileAt (start.processAt process).p) (programHeaders file 0) start.machine).1 v with
  | none => exact absurd covers (PageRegion.last_eq_none.mp last region member)
  | some found =>
      rw [last] at translated flags
      obtain ⟨phdr, inside, covers, paddr, rfl, placed⟩ := exists_covers_of_region aligned
        elf.paging.sound harmless accepts (PageRegion.mem_of_last last)
        (PageRegion.covers_of_last last)
      have image : next.imageOf process =
          (start.elfFileAt (start.processAt process).p).elfMemory := by
        unfold imageOf
        rw [state.elfFileAt, state.record, Function.update_self]
      refine ⟨phdr, inside, covers, paddr, ⟨?_, ?_⟩, translated, flags⟩
      · rw [image]
        exact placed.1
      · rw [state.live]
        exact placed.2

end Started

/-- What `elf_load` stores while a program is loaded. -/
def elfStored (kernel : Kernel) (answers : LoadAnswers) : Option Word :=
  let (process, kernel) := kernel.kzalloc .process sizeofProcess
  ((kernel.setProcess process Process.zero).elfLoad process answers.elf).2.1

/-- The task of the process starts in an executable for a 32-bit machine with the least
significant byte first, on a page that is mapped from one of its segments. -/
structure Runnable (kernel : Kernel) (process : Word) (file : ByteMemory) (size : Word) : Prop where
  complete : Complete file size
  format : eIdent file 0 eiClass = elfClass32
  encoding : eIdent file 0 eiData = elfData2Lsb
  executable : eType file 0 = etExec
  entry : phixProgramVirtualAddress ≤ eEntry file 0
  ip : (kernel.taskAt (kernel.processAt process).task).registers.ip = eEntry file 0
  mapped : ∃ phdr ∈ programHeaders file 0, phdr.pType = ptLoad ∧
    kernel.MapsFrom process phdr (eEntry file 0)

end Kernel

/-- The file says its class and its encoding, and is an executable whose entry point is on a page
of a segment. -/
structure StartsInside (file : ByteMemory) (size : Word) : Prop where
  complete : Complete file size
  format : eIdent file 0 eiClass ≠ elfClassNone
  encoding : eIdent file 0 eiData ≠ elfDataNone
  executable : elfIsExecutable file 0
  entry : ∃ phdr ∈ programHeaders file 0, phdr.Covers (eEntry file 0)

namespace Kernel

theorem Runnable.startsInside {kernel : Kernel} {process size : Word} {file : ByteMemory}
    (runnable : kernel.Runnable process file size) : StartsInside file size := by
  obtain ⟨phdr, inside, _, maps⟩ := runnable.mapped
  refine ⟨runnable.complete, ?_, ?_, ?_, phdr, inside, maps.1⟩
  · exact runnable.format.trans_ne (by decide)
  · exact runnable.encoding.trans_ne (by decide)
  · exact decide_eq_true ⟨runnable.executable, runnable.entry⟩

theorem ElfStart.runnable {start next : Kernel} {process task elfFile size : Word}
    {file : ByteMemory} {directory : PageDirectory} {processes : ℕ → Word}
    (elf : start.ElfStart process task elfFile file size directory)
    (starts : StartsInside file size) (accepted : Accepted file 0)
    (harmless : HeadersHarmless process (start.elfFileAt (start.processAt process).p)
      (programHeaders file 0) start.machine)
    (mapped : start.processMapMemory process = some (0, next)) :
    ({ next with processes } : Kernel).Runnable process file size := by
  have executable := of_decide_eq_true starts.executable
  have above : 0x3FF ≤ pageNumber (eEntry file 0) := by
    have entry : 0x400000 ≤ (eEntry file 0).toNat := BitVec.le_def.mp executable.2
    unfold pageNumber
    omega
  have threads := processMapMemory_sameThreads start process mapped
  obtain ⟨phdr, inside, maps⟩ :=
    elf.maps starts.complete accepted harmless mapped above starts.entry
  refine ⟨starts.complete, accepted.format.resolve_left starts.format,
    accepted.encoding.resolve_left starts.encoding, executable.1, executable.2, ?_,
    phdr, inside, accepted.segments phdr inside, maps⟩
  change (next.taskAt (next.processAt process).task).registers.ip = _
  rw [threads.taskAt, threads.task]
  exact elf.entry starts.complete

/-- A load that succeeds stores its process. -/
theorem Reaches.process {kernel : Kernel} {answers : LoadAnswers} {processSlot : ℕ}
    {process : Word} {label : LoadLabel}
    (reaches : kernel.Reaches answers processSlot process label)
    (done : ¬ label.ret < 0) : label.process = some process := by
  cases reaches with
  | unread _ failed => exact absurd failed done
  | unstacked => exact absurd (show (-ENOMEM : Int) < 0 by decide) done
  | unstarted _ _ _ _ _ failed => exact absurd failed done
  | mapped =>
      split at done
      · contradiction
      · rename_i passed
        rw [if_neg passed]

/-- What a load that stores an ELF file maps. -/
theorem Reaches.elfStart {kernel : Kernel} {answers : LoadAnswers} {processSlot : ℕ}
    {process elfFile : Word} {label : LoadLabel} (paging : kernel.machine.PagingSound)
    (quiet : answers.elf.readCalls = [] ∧ answers.binary.readCalls = [])
    (stored : ((kernel.setProcess process Process.zero).elfLoad process answers.elf).2.1 =
      some elfFile)
    (reaches : kernel.Reaches answers processSlot process label) (done : ¬ label.ret < 0)
    (complete : Complete answers.elf.file answers.elf.filesize)
    (orderly : kernel.machine.Permits Request.Harmless label.kernel.machine) :
    ∃ (start next : Kernel) (processes : ℕ → Word) (task : Word) (directory : PageDirectory),
      start.ElfStart process task elfFile answers.elf.file answers.elf.filesize directory ∧
      Accepted answers.elf.file 0 ∧
      HeadersHarmless process (start.elfFileAt (start.processAt process).p)
        (programHeaders answers.elf.file 0) start.machine ∧
      start.processMapMemory process = some (0, next) ∧ label.kernel = { next with processes } := by
  have nonempty : answers.elf.filesize ≠ 0 := fun empty =>
    absurd (empty ▸ complete.header) (by decide)
  obtain ⟨start, next, status, processes, mapped, finished, same, -, asks⟩ :=
    reaches.elf quiet nonempty stored done
  obtain rfl : status = 0 := processMapMemory_status mapped finished
  rw [same] at orderly
  obtain ⟨outcome, permits⟩ := asks.split (processMapMemory_keeps mapped) orderly
  obtain ⟨⟨directory, elf⟩, whole⟩ := outcome paging
  have accepted := whole complete
  have headers : programHeaders start.machine.memory
      (elfHeader (start.elfFileAt (start.processAt process).p)) =
        programHeaders answers.elf.file 0 :=
    elf.headers complete accepted
  have harmless := (processMapMemory_asks (elf.elfImage complete accepted) elf.filetype
    elf.paging elf.has mapped finished).apply permits
  rw [headers] at harmless
  exact ⟨start, next, processes, _, directory, elf, accepted, harmless, mapped, same⟩

/-- The same of a load that succeeds. -/
theorem processLoad_elfStart {kernel next : Kernel} {answers : LoadAnswers} {ret : Int}
    {process elfFile : Word} (paging : kernel.machine.PagingSound)
    (quiet : answers.elf.readCalls = [] ∧ answers.binary.readCalls = [])
    (stored : kernel.elfStored answers = some elfFile)
    (loaded : kernel.processLoad answers = some (ret, some process, next)) (done : ¬ ret < 0)
    (complete : Complete answers.elf.file answers.elf.filesize)
    (orderly : kernel.machine.Permits Request.Harmless next.machine) :
    ∃ (start middle : Kernel) (processes : ℕ → Word) (task : Word) (directory : PageDirectory),
      start.ElfStart process task elfFile answers.elf.file answers.elf.filesize directory ∧
      Accepted answers.elf.file 0 ∧
      HeadersHarmless process (start.elfFileAt (start.processAt process).p)
        (programHeaders answers.elf.file 0) start.machine ∧
      start.processMapMemory process = some (0, middle) ∧ next = { middle with processes } := by
  obtain ⟨found, label, reached, rfl, same, rfl⟩ := processLoad_label loaded done
  have asks := kzalloc_asks (Prod.mk.eta (p := kernel.kzalloc .process sizeofProcess)).symm
  obtain ⟨harmless, permits⟩ := asks.split (processLoadLabel_keeps quiet reached) orderly
  have reaches := processLoadLabel_reaches reached
  obtain rfl : (kernel.machine.kzalloc .process sizeofProcess).1 = process :=
    Option.some.inj ((reaches.process done).symm.trans same)
  exact reaches.elfStart (paging.kzalloc id harmless) quiet stored done complete permits

end Kernel

end Phix
