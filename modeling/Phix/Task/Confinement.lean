import Phix.Memory.Sparing
import Phix.Task.Entry
import Phix.Task.Faithful
import Phix.Task.Programs

/-! # The memory a program may write

A program may write to its image or its segments, to its stack and to what it has asked for, all of
which has been allocated for it. A load leaves the program that it makes confined to these
(`Kernel.processLoadSwitch_confined`), and `process_malloc` and `process_free` keep every program
confined, since a page is unmapped before its allocation is released.
-/

namespace Phix

/-- A page that the program may write. -/
def Exposed (entry : Word) : Prop := entry &&& flagWord Kernel.userFlags = flagWord Kernel.userFlags

instance (entry : Word) : Decidable (Exposed entry) := inferInstanceAs (Decidable (_ = _))

/-- The frame of an entry. -/
def frameOf (entry : Word) : Word := entry &&& 0xfffff000

namespace Machine

/-- The address is in the blocks of the allocation. -/
def InBlocks (p x : Word) (allocation : Allocation) : Prop :=
  (x - p).toNat < 4096 * blockCount allocation.size

/-- The page of the process at `v` may be the frame: it has been allocated for the process, and
what the program has asked for itself is found at its own address. -/
def Backs (machine : Machine) (process v frame : Word) : Prop :=
  ∃ p allocation, machine.live p = some allocation ∧ InBlocks p frame allocation ∧
    allocation.owner.program = some process ∧
    (allocation.owner = .user process → frame = pageAlignLower v)

/-- Every page that the program may write has been allocated for it. -/
structure Confined (machine : Machine) (process chunk : Word) : Prop where
  isProcess : machine.live process = some ⟨sizeofProcess, .process⟩
  backed : ∃ directory, machine.HasChunk chunk directory ∧ ∀ v,
    Exposed (directory.space machine.memory v) →
      machine.Backs process v (frameOf (directory.space machine.memory v))

theorem Backs.mono {machine next : Machine} {process v frame : Word}
    (backs : machine.Backs process v frame)
    (kept : ∀ p allocation, allocation.owner.program = some process →
      machine.live p = some allocation → next.live p = some allocation) :
    next.Backs process v frame := by
  obtain ⟨p, allocation, held, inside, owner, own⟩ := backs
  exact ⟨p, allocation, kept p allocation owner held, inside, owner, own⟩

/-- What keeps the process, its allocations and its address space keeps it confined. -/
theorem Confined.mono {machine next : Machine} {process chunk : Word}
    (confined : machine.Confined process chunk)
    (stays : machine.live process = some ⟨sizeofProcess, .process⟩ →
      next.live process = some ⟨sizeofProcess, .process⟩)
    (kept : ∀ p allocation, allocation.owner.program = some process →
      machine.live p = some allocation → next.live p = some allocation)
    (spaces : ∀ {directory}, machine.HasChunk chunk directory → next.HasChunk chunk directory ∧
      directory.space next.memory = directory.space machine.memory) :
    next.Confined process chunk := by
  obtain ⟨isProcess, directory, has, backed⟩ := confined
  obtain ⟨after, same⟩ := spaces has
  refine ⟨stays isProcess, directory, after, fun v => ?_⟩
  rw [same]
  exact fun exposed => (backed v exposed).mono kept

theorem HasChunk.space_eq {machine : Machine} {chunk : Word} {directory other : PageDirectory}
    (has : machine.HasChunk chunk directory) (hasOther : machine.HasChunk chunk other) :
    directory.space machine.memory = other.space machine.memory := by
  have base : directory.base = other.base := has.root.symm.trans hasOther.root
  have table : ∀ i < 1024, directory.table i = other.table i := by
    intro i inside
    rw [← has.pointers i inside, ← hasOther.pointers i inside]
    unfold PageDirectory.pointer
    rw [base]
  funext v
  have small := v.isLt
  unfold PageDirectory.space PageDirectory.entry PageDirectory.slot
  rw [table _ (by omega)]

/-- Programs stay confined. The chunk `own` is that of the process `current`. -/
def KeepsConfined (machine : Machine) (current own : Word) (next : Machine) : Prop :=
  ∀ process chunk, (process = current ↔ chunk = own) → machine.Confined process chunk →
    next.Confined process chunk

namespace KeepsConfined

variable {machine middle next : Machine} {current own : Word}

theorem trans (first : machine.KeepsConfined current own middle)
    (second : middle.KeepsConfined current own next) : machine.KeepsConfined current own next :=
  fun process chunk link confined => second process chunk link (first process chunk link confined)

theorem of_keepsBut (keeps : machine.KeepsBut ∅ next) : machine.KeepsConfined current own next :=
  fun _ _ _ confined => confined.mono
    (fun isProcess => keeps.kept _ _ isProcess Owner.noConfusion)
    (fun p allocation program held =>
      keeps.kept p allocation held (Owner.program_plain program).1)
    fun has => keeps.spaces (Set.notMem_empty _) has

theorem of_same (same : machine.SamePaging next) : machine.KeepsConfined current own next :=
  fun _ _ _ confined => confined.mono (fun isProcess => same.live ▸ isProcess)
    (fun _ _ _ held => same.live ▸ held) fun has => same.chunks has

end KeepsConfined

end Machine

/-! Entries that are mapped. -/

theorem exposed_packed {x flags : Word} (aligned : x.toNat % 4096 = 0) (low : flags.toNat < 4096) :
    Exposed (x ||| flags) ↔ Exposed flags := by
  have inside : (0xfff : Word) &&& flagWord Kernel.userFlags = flagWord Kernel.userFlags := by
    decide
  have reads : (x ||| flags) &&& flagWord Kernel.userFlags =
      flags &&& flagWord Kernel.userFlags := by
    rw [← inside, ← BitVec.and_assoc, AddressSpace.or_low aligned low, ← BitVec.and_assoc]
    congr 1
    rw [← AddressSpace.or_low (x := 0) (by decide) low, BitVec.and_assoc, BitVec.and_self]
  unfold Exposed
  rw [reads]

theorem page_aligned {frame : Word} (aligned : frame.toNat % 4096 = 0) (offset : ℕ) :
    (frame + BitVec.ofNat 32 (offset / 4096 * 4096)).toNat % 4096 = 0 := by
  rw [BitVec.toNat_add, BitVec.toNat_ofNat]
  omega

/-- A new chunk lets no program write. -/
theorem not_exposed_identity (v : Word) : ¬ Exposed (AddressSpace.identity 5 v) := by
  unfold AddressSpace.identity
  rw [exposed_packed _ (by decide)]
  · decide
  · rw [AddressSpace.high_toNat]
    omega

/-- The frames of the region lie in an allocation. -/
structure Within (region : PageRegion) (p : Word) (allocation : Allocation) : Prop where
  aligned : region.Aligned
  inside : (region.frame - p).toNat + 4096 * region.pages ≤ 4096 * blockCount allocation.size

theorem Within.inBlocks {region : PageRegion} {p : Word} {allocation : Allocation}
    (within : Within region p allocation) {u : Word} (covers : region.Covers u) :
    Machine.InBlocks p (frameOf ((region.frame + BitVec.ofNat 32
      ((u - region.start).toNat / 4096 * 4096)) ||| region.flags)) allocation := by
  have inside := within.inside
  have small := (u - region.start).isLt
  unfold PageRegion.Covers at covers
  unfold frameOf Machine.InBlocks
  rw [AddressSpace.or_high (page_aligned within.aligned.frame _) within.aligned.flags,
    add_sub_right_comm, BitVec.toNat_add, BitVec.toNat_ofNat]
  refine lt_of_le_of_lt (Nat.mod_le _ _) ?_
  rw [Nat.mod_eq_of_lt (by omega)]
  omega

/-- The region has no pages, or they lie in what has been allocated to load the process. -/
def Machine.Loads (machine : Machine) (process : Word) (region : PageRegion) : Prop :=
  region.pages = 0 ∨ ∃ p allocation, machine.live p = some allocation ∧
    allocation.owner.program = some process ∧ allocation.owner ≠ .user process ∧
    Within region p allocation

theorem Machine.Loads.mono {machine next : Machine} {process : Word} {region : PageRegion}
    (loads : machine.Loads process region)
    (kept : ∀ p allocation, allocation.owner.program = some process →
      machine.live p = some allocation → next.live p = some allocation) :
    next.Loads process region := by
  refine loads.imp_right ?_
  rintro ⟨p, allocation, held, program, rest⟩
  exact ⟨p, allocation, kept p allocation program held, program, rest⟩

/-- A new address space confines the process if the regions that it may write are such. -/
theorem Machine.confined_of_regions {machine : Machine} {process chunk : Word}
    {directory : PageDirectory} (isProcess : machine.live process = some ⟨sizeofProcess, .process⟩)
    (has : machine.HasChunk chunk directory) {regions : List PageRegion}
    (space : directory.space machine.memory = (AddressSpace.identity 5).mapAll regions)
    (aligned : ∀ region ∈ regions, region.Aligned)
    (loads : ∀ region ∈ regions, Exposed region.flags → machine.Loads process region) :
    machine.Confined process chunk := by
  refine ⟨isProcess, directory, has, fun v => ?_⟩
  rw [space]
  rcases AddressSpace.mapAll_cases (AddressSpace.identity 5) regions v with
    ⟨region, member, covers, entry⟩ | entry
  · rw [entry, exposed_packed (page_aligned (aligned region member).frame _)
      (aligned region member).flags]
    intro exposed
    rcases loads region member exposed with none | ⟨p, allocation, held, program, other, within⟩
    · unfold PageRegion.Covers at covers
      rw [none] at covers
      exact absurd covers (Nat.not_lt_zero _)
    · exact ⟨p, allocation, held, within.inBlocks covers, program, fun own => absurd own other⟩
  · rw [entry]
    exact fun exposed => absurd exposed (not_exposed_identity v)

/-! The regions of a program. -/

/-- The pages of an allocation are its blocks. -/
theorem mapToPages_block {p size : Word} (proper : Proper size)
    (pool : ∃ s < 25600, p = poolBlock s) :
    mapToPages p (pageAlign (p + size)) = blockCount size := by
  obtain ⟨aligned, low, high, stop⟩ := Kernel.allocationEnd proper pool
  have limit : size.toNat ≤ 2 ^ 31 - 4096 := proper.2
  unfold mapToPages blockCount
  rw [BitVec.toNat_sub, stop]
  omega

section Live

variable {machine : Machine} (sound : machine.HeapSound) {p : Word} {allocation : Allocation}
  (held : machine.live p = some allocation)

include sound held

theorem Machine.HeapSound.proper : Proper allocation.size :=
  sound.sized _ _ (Machine.sizes_of_live held)

theorem Machine.HeapSound.pool : ∃ s < 25600, p = poolBlock s := by
  obtain ⟨s, inside, pointer, _⟩ := sound.pointer held
  exact ⟨s, inside, pointer⟩

/-- A region of a whole allocation. -/
theorem Machine.HeapSound.within_whole {region : PageRegion} (aligned : region.Aligned)
    (frame : region.frame = p)
    (pages : region.pages = mapToPages p (pageAlign (p + allocation.size))) :
    Within region p allocation := by
  refine ⟨aligned, ?_⟩
  rw [pages, mapToPages_block (sound.proper held) (sound.pool held), frame, BitVec.sub_self]
  exact (Nat.zero_add _).le

/-- The region of a segment that lies in the blocks of the image. -/
theorem Machine.HeapSound.within_image {phdr : Elf32Phdr} {file : ElfFile}
    (image : p = file.elfMemory)
    (inside : phdr.pOffset.toNat + phdr.pMemsz.toNat ≤ 4096 * blockCount allocation.size) :
    Within (phdrRegion phdr (elfPhdrPaddr file phdr)) p allocation := by
  subst image
  obtain ⟨aligned, low, high, _⟩ := Kernel.allocationEnd (sound.proper held) (sound.pool held)
  have count := blockCount_le (sound.proper held).2
  have place : (elfPhdrPaddr file phdr).toNat = file.elfMemory.toNat + phdr.pOffset.toNat := by
    unfold elfPhdrPaddr
    rw [BitVec.toNat_add, Nat.mod_eq_of_lt (by omega)]
  have lower : (pageAlignLower (elfPhdrPaddr file phdr)).toNat =
      (elfPhdrPaddr file phdr).toNat / 4096 * 4096 := alignLower_toNat _
  have pages : mapToPages (pageAlignLower (elfPhdrPaddr file phdr))
      (pageAlign (elfPhdrPaddr file phdr + phdr.pMemsz)) =
        ((elfPhdrPaddr file phdr).toNat + phdr.pMemsz.toNat + 4095) / 4096 -
          (elfPhdrPaddr file phdr).toNat / 4096 :=
    mapToPages_eq (.inl (by omega)) (by omega)
  refine ⟨phdrRegion_aligned _ _, ?_⟩
  unfold phdrRegion
  dsimp only
  rw [pages, BitVec.toNat_sub, lower, place]
  omega

end Live

/-- Every segment that is mapped writable from the file lies in the blocks of the image. -/
def SegmentsInside (phdrs : List Elf32Phdr) (size : Word) : Prop :=
  ∀ phdr ∈ phdrs, phdr.pFilesz ≠ 0 → phdr.pFlags &&& pfW ≠ 0 →
    phdr.pOffset.toNat + phdr.pMemsz.toNat ≤ 4096 * blockCount size

/-- A program may write a segment if the header says so. -/
theorem exposed_phdrFlags {phdr : Elf32Phdr} :
    Exposed (flagWord (Kernel.phdrFlags phdr)) ↔ phdr.pFlags &&& pfW ≠ 0 := by
  unfold Kernel.phdrFlags
  dsimp only
  split
  · rename_i writable
    exact iff_of_true (by decide) writable
  · rename_i readOnly
    exact iff_of_false (by decide) readOnly

theorem poolBlock_aligned {s : ℕ} (inside : s < 25600) : (poolBlock s).toNat % 4096 = 0 := by
  rw [poolBlock_toNat inside]
  omega

theorem pageAlign_pageAlign (x : Word) : pageAlign (pageAlign x) = pageAlign x := by
  apply BitVec.eq_of_toNat_eq
  have outer : (pageAlign (pageAlign x)).toNat =
      ((pageAlign x).toNat + 4095) % 2 ^ 32 / 4096 * 4096 := align_toNat _
  have inner : (pageAlign x).toNat = (x.toNat + 4095) % 2 ^ 32 / 4096 * 4096 := align_toNat _
  omega

theorem Machine.kzalloc_aligned {machine : Machine} {owner : Owner} {size : Word}
    (found : (machine.kzalloc owner size).1 ≠ null) :
    (machine.kzalloc owner size).1.toNat % 4096 = 0 := by
  obtain ⟨s, started, pointer⟩ := (machine.kmalloc_poolBlock owner size).resolve_left found
  rw [Machine.kzalloc_pointer, pointer]
  exact poolBlock_aligned started

theorem Kernel.binaryRegion_aligned {process : Process} (aligned : process.p.toNat % 4096 = 0) :
    (binaryRegion process).Aligned where
  start := show phixProgramVirtualAddress.toNat % 4096 = 0 by decide
  frame := aligned
  flags := flagWord_lt _

/-- A region of what is allocated for the process. -/
theorem Machine.HeapSound.kzalloc_loads {machine : Machine} (sound : machine.HeapSound)
    {owner : Owner} {process size : Word} {region : PageRegion}
    (program : owner.program = some process) (other : owner ≠ .user process)
    (harmless : (machine.request size).Harmless) (found : (machine.kzalloc owner size).1 ≠ null)
    (aligned : region.Aligned) (frame : region.frame = (machine.kzalloc owner size).1)
    (pages : region.pages = mapToPages (machine.kzalloc owner size).1
      (pageAlign ((machine.kzalloc owner size).1 + size))) :
    (machine.kzalloc owner size).2.Loads process region := by
  rcases harmless with served | refused | zero
  · have cleared := (sound.kzalloc_served owner served).2
    exact .inr ⟨_, _, cleared.held, program, other,
      cleared.sound.within_whole cleared.held aligned frame pages⟩
  · exact absurd (machine.kzalloc_refused owner refused) found
  · have zero : size = 0 := zero
    subst zero
    rcases sound.kzalloc_zero owner with ⟨_, none⟩ | ⟨_, s, started, pointer, _⟩
    · exact absurd none found
    · have block := poolBlock_aligned started
      refine .inl (pages.trans ?_)
      rw [pointer, ← zero_add (0 : Word), pageAlign_add block]
      unfold mapToPages
      rw [show pageAlign (0 + 0) = (0 : Word) by decide, add_zero, sub_self]
      rfl

/-- The region of a header, once its buffer, if it has one, is allocated. -/
theorem placeHeader_loads {process size : Word} {file : ElfFile} {phdr : Elf32Phdr}
    {machine : Machine} (sound : machine.HeapSound)
    (held : machine.live file.elfMemory = some ⟨size, .image process⟩)
    (inside : phdr.pFilesz ≠ 0 → phdr.pFlags &&& pfW ≠ 0 →
      phdr.pOffset.toNat + phdr.pMemsz.toNat ≤ 4096 * blockCount size)
    (accepted : HeaderAccepted process file phdr machine)
    (harmless : phdr.pFilesz = 0 → (machine.request (pageAlign phdr.pMemsz)).Harmless)
    (writable : phdr.pFlags &&& pfW ≠ 0) :
    (placeHeader process file phdr machine).2.Loads process
      (phdrRegion phdr (placeHeader process file phdr machine).1) := by
  obtain ⟨found, _⟩ := accepted
  unfold placeHeader at found ⊢
  by_cases bss : phdr.pFilesz = 0
  · rw [if_pos bss] at found ⊢
    have found := found bss
    have block := Machine.kzalloc_aligned found
    have frame : pageAlignLower (machine.kzalloc (.bss process) (pageAlign phdr.pMemsz)).1 =
        (machine.kzalloc (.bss process) (pageAlign phdr.pMemsz)).1 := by
      apply BitVec.eq_of_toNat_eq
      refine (alignLower_toNat _).trans ?_
      omega
    refine sound.kzalloc_loads rfl Owner.noConfusion (harmless bss) found (phdrRegion_aligned _ _)
      frame ?_
    unfold phdrRegion
    dsimp only
    rw [frame, pageAlign_add block, pageAlign_add block, pageAlign_pageAlign]
  · rw [if_neg bss]
    exact .inr ⟨_, _, held, rfl, Owner.noConfusion,
      sound.within_image held rfl (inside bss writable)⟩

theorem placeHeaders_loads {process size : Word} {file : ElfFile} {phdrs : List Elf32Phdr}
    {machine : Machine} (sound : machine.HeapSound)
    (held : machine.live file.elfMemory = some ⟨size, .image process⟩)
    (inside : SegmentsInside phdrs size) (accepted : HeadersAccepted process file phdrs machine)
    (harmless : HeadersHarmless process file phdrs machine) :
    ∀ region ∈ (placeHeaders process file phdrs machine).1, Exposed region.flags →
      (placeHeaders process file phdrs machine).2.Loads process region := by
  induction phdrs generalizing machine with
  | nil => exact fun _ absent => absurd absent List.not_mem_nil
  | cons phdr phdrs ih =>
      have grown : machine.Grown (placeHeader process file phdr machine).2 :=
        placeHeader_grown sound harmless.1
      intro region member exposed
      rcases List.mem_cons.mp member with rfl | later
      · refine (placeHeader_loads sound held (inside phdr (List.mem_cons_self ..)) accepted.1
          harmless.1 (exposed_phdrFlags.mp exposed)).mono fun p allocation _ => ?_
        exact (placeHeaders_grown grown.sound harmless.2).kept p allocation
      · exact ih grown.sound (grown.kept _ _ held)
          (fun later member => inside later (List.mem_cons_of_mem phdr member)) accepted.2
          harmless.2 region later exposed

namespace Kernel

/-- The process has a stack, and an address space to which nothing has been mapped yet. -/
structure NewSpace (start : Kernel) (process : Word) (directory : PageDirectory) : Prop where
  paging : start.machine.PagingSound
  has : start.machine.HasChunk (start.chunkOf process) directory
  space : directory.space start.machine.memory = AddressSpace.identity 5
  isProcess : start.machine.live process = some ⟨sizeofProcess, .process⟩
  stack : start.machine.live (start.processAt process).stack =
    some ⟨phixUserProgramStackSize, .stack process⟩

section Mapping

variable {start next : Kernel} {process : Word} {directory : PageDirectory}
  (new : start.NewSpace process directory)
  (mapped : start.processMapMemory process = some (0, next))

include new mapped

/-- What has been allocated for the regions is what they show, and that is all. -/
theorem processMapMemory_confined {size : Word} (program : start.Program process size)
    (loads : ∀ region ∈ (start.memoryRegions process).1,
      region ≠ stackRegion (start.processAt process) → Exposed region.flags →
      (start.memoryRegions process).2.Loads process region) :
    next.machine.Confined process (next.chunkOf process) := by
  obtain ⟨state, aligned⟩ := processMapMemory_mapped new.paging new.has program mapped
  rw [new.space] at state
  have chunk : next.chunkOf process = start.chunkOf process := by
    unfold chunkOf
    rw [state.taskAt, state.record, Function.update_self]
  rw [chunk]
  refine Machine.confined_of_regions ?_ state.has state.space aligned
    fun region member exposed => ?_
  · rw [state.live]
    exact state.grown.kept _ _ new.isProcess
  · by_cases isStack : region = stackRegion (start.processAt process)
    · subst isStack
      refine .inr ⟨_, ⟨phixUserProgramStackSize, .stack process⟩, ?_, rfl, Owner.noConfusion,
        new.paging.sound.within_whole new.stack (aligned _ member) rfl rfl⟩
      rw [state.live]
      exact state.grown.kept _ _ new.stack
    · refine (loads region member isStack exposed).mono fun p allocation _ held => ?_
      rw [state.live]
      exact held

/-- A flat binary is mapped onto its image. -/
theorem processMapMemory_confined_binary
    (binary : (start.processAt process).filetype = processFiletypeBinary)
    (loads : start.machine.Loads process (binaryRegion (start.processAt process))) :
    next.machine.Confined process (next.chunkOf process) := by
  have program : start.Program process 0 := .inl binary
  refine processMapMemory_confined new mapped program ?_
  have other : processFiletypeBinary ≠ processFiletypeElf := by decide
  unfold memoryRegions
  simp only [binary, if_neg other]
  intro region member off _
  rcases List.mem_append.mp member with image | last
  · rw [List.mem_singleton.mp image]
    exact loads
  · exact absurd (List.mem_singleton.mp last) off

/-- An ELF file whose writable segments are inside of its image is mapped onto it, and onto buffers
of its own, where its program may write. -/
theorem processMapMemory_confined_elf {task elfFile size : Word} {file : ByteMemory}
    {other : PageDirectory} (elf : start.ElfStart process task elfFile file size other)
    (complete : Complete file size) (inside : SegmentsInside (programHeaders file 0) size)
    (accepted : Accepted file 0) (permits : start.machine.Permits Request.Harmless next.machine) :
    next.machine.Confined process (next.chunkOf process) := by
  have headers : programHeaders start.machine.memory
      (elfHeader (start.elfFileAt (start.processAt process).p)) = programHeaders file 0 :=
    elf.headers complete accepted
  have image := elf.elfImage complete accepted
  have harmless := (processMapMemory_asks image elf.filetype elf.paging elf.has mapped
    (lt_irrefl 0)).apply permits
  rw [headers] at harmless
  have accepts := elf.accepts complete accepted harmless mapped
  have program : start.Program process size :=
    .inr ⟨elf.filetype, image, headers ▸ harmless⟩
  refine processMapMemory_confined new mapped program ?_
  unfold memoryRegions
  simp only [elf.filetype, if_true, headers]
  intro region member off exposed
  rcases List.mem_append.mp member with segment | last
  · exact placeHeaders_loads elf.paging.sound image.held inside accepts harmless region segment
      exposed
  · exact absurd (List.mem_singleton.mp last) off

end Mapping

/-! The way to the mapping. -/

/-- A flat binary is recorded in the process. -/
structure RecordsBinary (kernel : Kernel) (process : Word) : Prop where
  filetype : (kernel.processAt process).filetype = processFiletypeBinary
  loads : kernel.machine.Loads process (binaryRegion (kernel.processAt process))

theorem processLoadBinary_records (kernel : Kernel) (process : Word) {answers : FileAnswers}
    (quiet : answers.readCalls = []) (read : ¬ (kernel.processLoadBinary process answers).1 < 0) :
    kernel.machine.Ensures Request.Harmless (kernel.processLoadBinary process answers).2.machine
      (kernel.machine.PagingSound →
        (kernel.processLoadBinary process answers).2.RecordsBinary process) := by
  have opened : kernel.machine.Ensures Request.Harmless
      (kernel.kernelCalls answers.openCalls).machine (kernel.machine.PagingSound →
        kernel.machine.KeepsBut ∅ (kernel.kernelCalls answers.openCalls).machine) :=
    kernel.machine.kernelCalls_keepsBut answers.openCalls
  unfold processLoadBinary at read ⊢
  dsimp only at read ⊢
  generalize kernel.kernelCalls answers.openCalls = first at opened read ⊢
  by_cases notOpen : answers.fopen < 0
  · rw [if_pos notOpen] at read
    exact absurd notOpen read
  rw [if_neg notOpen] at read ⊢
  by_cases noStat : answers.fstat < 0
  · rw [if_pos noStat] at read
    exact absurd noStat read
  rw [if_neg noStat] at read ⊢
  cases allocated : first.kzalloc (.image process) answers.filesize with
  | mk programData second =>
      have asks := kzalloc_asks allocated
      have pointer : (first.machine.kzalloc (.image process) answers.filesize).1 = programData :=
        congrArg Prod.fst allocated
      have after : (first.machine.kzalloc (.image process) answers.filesize).2 = second.machine :=
        congrArg (fun result => result.2.machine) allocated
      rw [allocated] at read
      dsimp only at read ⊢
      by_cases noImage : programData = null
      · rw [if_pos noImage] at read
        exact absurd (show (-ENOMEM : Int) < 0 by decide) read
      rw [if_neg noImage] at read ⊢
      have answered : (second.fread answers programData).1 = answers.fread := rfl
      have filled : (second.fread answers programData).2.machine = { second.machine with
          memory :=
              second.machine.memory.write programData answers.content answers.delivered } := by
        unfold Kernel.fread
        rw [quiet]
        rfl
      generalize second.fread answers programData = result at read answered filled ⊢
      obtain ⟨ret, third⟩ := result
      dsimp only at read answered filled ⊢
      by_cases failed : ret ≠ 1
      · rw [if_pos failed] at read
        exact absurd (answers.freadDocumented.resolve_left (answered ▸ failed)) (answered ▸ read)
      rw [if_neg failed]
      obtain rfl : ret = 1 := not_not.mp failed
      unfold processLoadBinaryOut
      rw [if_neg (by decide)]
      dsimp only
      have requests : third.machine.requests = second.machine.requests := by
        rw [filled]
      refine ((opened.trans (asks.imp fun harmless before paging =>
        And.intro (before paging) harmless)).congr requests).trans
          ((third.machine.kernelCalls_keepsBut answers.closeCalls).imp
            fun close before paging => ?_)
      obtain ⟨keeps, harmless⟩ := before paging
      rw [← pointer] at noImage
      have block := Machine.kzalloc_aligned noImage
      have loads : (first.machine.kzalloc (.image process) answers.filesize).2.Loads process
          (binaryRegion { third.processAt process with
            filetype := processFiletypeBinary, p := programData, size := answers.filesize }) :=
        keeps.paging.sound.kzalloc_loads rfl Owner.noConfusion harmless noImage
          (binaryRegion_aligned (pointer ▸ block)) pointer.symm (by rw [pointer]; rfl)
      have sound := (keeps.filled (show ¬ (Owner.image process).IsPaging from id) harmless
        noImage answers.content answers.deliveredFits).1.paging
      rw [after, pointer, ← filled] at sound
      have record := Function.update_self process { third.processAt process with
        filetype := processFiletypeBinary, p := programData, size := answers.filesize }
        third.processAt
      refine ⟨congrArg Process.filetype record, ?_⟩
      refine (congrArg (Machine.Loads _ process) (congrArg binaryRegion record)).mpr ?_
      refine loads.mono fun p allocation program held => ?_
      refine (close sound).kept p allocation ?_ (Owner.program_plain program).1
      rw [filled, ← after]
      exact held

/-- An ELF file that is loaded is in its image with its header, its table and what the program may
write. -/
def LoadsInside (kernel : Kernel) (process : Word) (answers : FileAnswers) : Prop :=
  ¬ (kernel.elfLoad process answers).1 < 0 → (kernel.elfLoad process answers).2.1 ≠ none ∧
    Complete answers.file answers.filesize ∧
    SegmentsInside (programHeaders answers.file 0) answers.filesize

/-- A file that is not an ELF file is recorded as a flat binary. -/
theorem processLoadData_binary (kernel : Kernel) (process : Word) {answers : LoadAnswers}
    (quiet : answers.elf.readCalls = [] ∧ answers.binary.readCalls = [])
    (other : (kernel.elfLoad process answers.elf).1 < 0)
    (read : ¬ (kernel.processLoadData process answers).1 < 0) :
    kernel.machine.Ensures Request.Harmless (kernel.processLoadData process answers).2.machine
      (kernel.machine.PagingSound →
        (kernel.processLoadData process answers).2.RecordsBinary process) := by
  have elf := kernel.elfLoad_keeps process quiet.1
  unfold processLoadData processLoadElf at read ⊢
  generalize kernel.elfLoad process answers.elf = result at other read elf ⊢
  obtain ⟨ret, file, next⟩ := result
  dsimp only at other read elf ⊢
  rw [if_pos other] at read ⊢
  dsimp only at read ⊢
  by_cases format : ret = -EBADFORMAT
  · rw [if_pos format] at read ⊢
    exact elf.trans ((next.processLoadBinary_records process quiet.2 read).imp
      fun records before paging => records (before paging).paging)
  · rw [if_neg format] at read
    exact absurd other read

/-- The stack and the task are made, and a new address space with the task. -/
theorem newSpace {middle stacked threaded : Kernel} {process programSp task : Word}
    {slot : BitVec 16} (paging : middle.machine.PagingSound)
    (isProcess : middle.machine.live process = some ⟨sizeofProcess, .process⟩)
    (harmless : (middle.machine.request phixUserProgramStackSize).Harmless)
    (granted : middle.kzalloc (.stack process) phixUserProgramStackSize = (programSp, stacked))
    (found : programSp ≠ null)
    (made : (stacked.setProcess process { stacked.processAt process with
        stack := programSp, id := slot }).taskNew process = some (task, threaded))
    (created : ¬ task.toInt < 0) :
    middle.machine.Grown threaded.machine ∧ ∃ directory,
      (threaded.setProcess process { threaded.processAt process with task }).NewSpace process
        directory ∧
      (threaded.setProcess process { threaded.processAt process with task }).processAt process =
        { middle.processAt process with stack := programSp, id := slot, task } := by
  obtain rfl : (middle.kzalloc (.stack process) phixUserProgramStackSize).2 = stacked :=
    congrArg Prod.snd granted
  obtain rfl : (middle.machine.kzalloc (.stack process) phixUserProgramStackSize).1 = programSp :=
    congrArg Prod.fst granted
  obtain ⟨grown, _⟩ := paging.sound.kzalloc_harmless (.stack process) harmless
  have held := (paging.sound.kzalloc (.stack process) (by decide) found).held
  rcases taskNew_newTask (by exact paging.kzalloc id harmless) process made
    with ⟨rfl, _, _⟩ | ⟨directory, new⟩
  · exact absurd (by decide) created
  have record : (threaded.setProcess process { threaded.processAt process with task }).processAt
      process = { middle.processAt process with
        stack := (middle.machine.kzalloc (.stack process) phixUserProgramStackSize).1
        id := slot, task } := by
    refine (Function.update_self ..).trans ?_
    have prepared := Function.update_self process
      { middle.processAt process with
        stack := (middle.machine.kzalloc (.stack process) phixUserProgramStackSize).1, id := slot }
      middle.processAt
    rw [new.processAt]
    exact congrArg (fun record => { record with task }) prepared
  refine ⟨grown.trans new.grown, directory, ⟨new.paging, ?_, new.space, ?_, ?_⟩, record⟩
  · unfold chunkOf
    rw [record]
    exact new.has
  · exact (grown.trans new.grown).kept _ _ isProcess
  · rw [record]
    exact new.grown.kept _ _ held

/-- **A program that has been loaded is confined.** -/
theorem Reaches.confined {kernel : Kernel} {answers : LoadAnswers} {processSlot : ℕ}
    {process : Word} {label : LoadLabel} (paging : kernel.machine.PagingSound)
    (quiet : answers.elf.readCalls = [] ∧ answers.binary.readCalls = [])
    (inside : (kernel.setProcess process Process.zero).LoadsInside process answers.elf)
    (isProcess : kernel.machine.live process = some ⟨sizeofProcess, .process⟩)
    (reaches : kernel.Reaches answers processSlot process label) (done : ¬ label.ret < 0)
    (orderly : kernel.machine.Permits Request.Harmless label.kernel.machine) :
    label.kernel.machine.Confined process (label.kernel.chunkOf process) := by
  have keeps : kernel.machine.Ensures Request.Harmless
      ((kernel.setProcess process Process.zero).processLoadData process answers).2.machine
      (kernel.machine.PagingSound → kernel.machine.KeepsBut ∅
        ((kernel.setProcess process Process.zero).processLoadData process answers).2.machine) :=
    processLoadData_keepsBut (kernel.setProcess process Process.zero) process quiet
  cases reaches with
  | unread loaded failed => exact absurd failed done
  | unstacked => exact absurd (show (-ENOMEM : Int) < 0 by decide) done
  | unstarted _ _ _ _ _ failed => exact absurd failed done
  | @mapped _ middle programSp stacked task threaded status next loaded read granted found made
      created mapped =>
      have passed : ¬ status < 0 := by
        intro failed
        rw [if_pos failed] at done
        exact done failed
      obtain rfl : status = 0 := processMapMemory_status mapped passed
      rw [if_neg passed] at orderly ⊢
      change next.machine.Confined process (next.chunkOf process)
      have permits : kernel.machine.Permits Request.Harmless next.machine := orderly
      -- What has been recorded when the file has been read.
      have records : kernel.machine.Ensures Request.Harmless middle.machine
          (kernel.machine.PagingSound → middle.RecordsBinary process ∨
            (∃ elfFile, middle.RecordsElf process elfFile answers.elf.file answers.elf.filesize) ∧
            Accepted answers.elf.file 0 ∧ Complete answers.elf.file answers.elf.filesize ∧
            SegmentsInside (programHeaders answers.elf.file 0) answers.elf.filesize) := by
        by_cases other : ((kernel.setProcess process Process.zero).elfLoad process answers.elf).1 <
          0
        · have binary := (kernel.setProcess process Process.zero).processLoadData_binary process
            quiet other (by rw [loaded]; exact read)
          rw [loaded] at binary
          exact binary.imp fun records paging => .inl (records paging)
        · obtain ⟨stored, complete, segments⟩ := inside other
          obtain ⟨elfFile, stored⟩ := Option.ne_none_iff_exists'.mp stored
          have data := (kernel.setProcess process Process.zero).processLoadData_elf process quiet
            (fun empty => absurd (empty ▸ complete.header) (by decide)) stored
          rw [loaded] at data
          refine data.imp fun records paging => .inr ⟨⟨elfFile, (records paging).1⟩, ?_, complete,
            segments⟩
          exact ((records paging).1.holds.shows.accepted_iff complete).mp (records paging).2
      rw [loaded] at keeps
      have whole := ((keeps.and records).trans ((kzalloc_asks granted).imp
        fun harmless before => And.intro harmless before)).trans
          ((taskNew_keeps made).imp fun _ before => before)
      have maps := processMapMemory_keeps mapped
      obtain ⟨⟨harmless, kept, records⟩, permits⟩ := whole.split maps permits
      have kept := kept paging
      obtain ⟨grown, directory, new, record⟩ := newSpace kept.paging
        (kept.kept _ _ isProcess Owner.noConfusion) harmless granted found made created
      rcases records paging with binary | ⟨⟨elfFile, elf⟩, accepted, complete, segments⟩
      · refine processMapMemory_confined_binary new mapped ?_ ?_
        · rw [record]
          exact binary.filetype
        · rw [record]
          exact binary.loads.mono fun p allocation _ => grown.kept p allocation
      · obtain ⟨prepared, stack⟩ := elf.stack harmless granted found (BitVec.ofNat 16 processSlot)
        obtain ⟨other, start⟩ := prepared.start (by
          have record := Function.update_self process { stacked.processAt process with
            stack := programSp, id := BitVec.ofNat 16 processSlot } stacked.processAt
          exact (congrArg (fun record => stacked.machine.live record.stack) record).trans stack)
            made created
        exact processMapMemory_confined_elf new mapped start complete segments accepted permits

/-- The same of the ELF file of the process that a load begins with. -/
def Contained (kernel : Kernel) (answers : LoadAnswers) : Prop :=
  let (process, kernel) := kernel.kzalloc .process sizeofProcess
  (kernel.setProcess process Process.zero).LoadsInside process answers.elf

theorem contained_of_stored {kernel : Kernel} {answers : LoadAnswers} {elfFile : Word}
    (stored : kernel.elfStored answers = some elfFile)
    (complete : Complete answers.elf.file answers.elf.filesize)
    (inside : SegmentsInside (programHeaders answers.elf.file 0) answers.elf.filesize) :
    kernel.Contained answers :=
  fun _ => ⟨fun missing => Option.some_ne_none elfFile (stored.symm.trans missing), complete,
    inside⟩

section Loads

variable {kernel next : Kernel} {answers : LoadAnswers} {ret : Int} {stored : Option Word}
  (paging : kernel.machine.PagingSound)
  (quiet : answers.elf.readCalls = [] ∧ answers.binary.readCalls = [])
  (contained : kernel.Contained answers)
  (orderly : kernel.machine.Permits Request.Harmless next.machine)

include paging quiet contained orderly

theorem processLoad_confined (loaded : kernel.processLoad answers = some (ret, stored, next))
    (finished : ¬ ret < 0) :
    ∃ process, stored = some process ∧ next.machine.Confined process (next.chunkOf process) := by
  obtain ⟨found, label, reached, rfl, rfl, rfl⟩ := processLoad_label loaded finished
  have reaches := processLoadLabel_reaches reached
  have recorded := kzalloc_recordBut
    (Prod.mk.eta (p := kernel.kzalloc .process sizeofProcess)).symm
    (show ¬ Owner.process.IsPaging from id) (by decide)
  obtain ⟨outcome, permits⟩ := recorded.split (reaches.apart quiet) orderly
  obtain ⟨keeps, isProcess⟩ := outcome paging
  exact ⟨_, reaches.process finished,
    reaches.confined keeps.paging quiet contained (isProcess found).2 finished permits⟩

theorem processLoadSwitch_confined
    (switched : kernel.processLoadSwitch answers = some (ret, stored, next))
    (finished : ¬ ret < 0) : stored = some next.currentProcess ∧
      next.machine.Confined next.currentProcess (next.chunkOf next.currentProcess) := by
  unfold processLoadSwitch at switched
  rw [Option.bind_eq_bind, Option.bind_eq_some_iff] at switched
  obtain ⟨⟨status, process, middle⟩, loaded, rest⟩ := switched
  dsimp only at rest
  split at rest
  · cases rest
    contradiction
  · rename_i passed
    cases rest
    have orderly : kernel.machine.Permits Request.Harmless middle.machine := orderly
    obtain ⟨q, rfl, confined⟩ := processLoad_confined paging quiet contained orderly loaded passed
    exact ⟨rfl, confined⟩

/-- A program that exec starts is confined. -/
theorem syscall6ProcessLoadStart_confined
    (called : kernel.syscall6ProcessLoadStart answers = some (ret, next)) (finished : ¬ ret < 0) :
    next.machine.Confined next.currentProcess (next.chunkOf next.currentProcess) := by
  unfold syscall6ProcessLoadStart at called
  rw [Option.bind_eq_bind, Option.bind_eq_some_iff] at called
  obtain ⟨⟨status, stored, middle⟩, switched, rest⟩ := called
  dsimp only at rest
  split at rest
  · cases rest
    contradiction
  · rename_i passed
    cases rest
    have orderly : kernel.machine.Permits Request.Harmless middle.machine := orderly
    exact (processLoadSwitch_confined paging quiet contained orderly switched passed).2

end Loads

/-- A load spares the programs that are there. -/
theorem SparesPrograms.confines {kernel next : Kernel} (spares : kernel.SparesPrograms next)
    (retains : kernel.machine.Retains next.machine) {process chunk : Word}
    (confined : kernel.machine.Confined process chunk) : next.machine.Confined process chunk :=
  confined.mono (fun isProcess => retains _ _ isProcess (.inr rfl))
    (fun p allocation program held =>
      spares.owned p allocation process sizeofProcess confined.isProcess program held)
    fun has => spares.spaces has

/-! `process_malloc` and `process_free`. -/

theorem not_exposed_zero : ¬ Exposed (flagWord 0) := by decide

/-- A run of pages is mapped for the process, onto what has been allocated for it. -/
theorem mapTo_confines {kernel : Kernel} (paging : kernel.machine.PagingSound) {process : Word}
    {directory : PageDirectory} (has : kernel.machine.HasChunk (kernel.chunkOf process) directory)
    {vaddr paddr pend : Word} (accepts : MapToAccepts vaddr paddr pend) {flags : Byte}
    (backs : Exposed (flagWord flags) → ∀ v, (v - vaddr).toNat < 4096 * mapToPages paddr pend →
      kernel.machine.Backs process v
        (paddr + BitVec.ofNat 32 ((v - vaddr).toNat / 4096 * 4096))) :
    kernel.machine.KeepsConfined process (kernel.chunkOf process)
      (kernel.mapTo process vaddr paddr pend flags).2.machine := by
  obtain ⟨_, update⟩ := kernel.mapTo_update process paging has accepts flags
  intro q c link confined
  by_cases own : c = kernel.chunkOf process
  · obtain rfl := link.mpr own
    subst own
    obtain ⟨isProcess, other, hasOther, backed⟩ := confined
    rw [← has.space_eq hasOther] at backed
    refine ⟨isProcess, directory, Machine.PagingSound.write_self has update, fun v => ?_⟩
    have low : (flagWord flags).toNat < 4096 := flagWord_lt _
    rw [update.mapped]
    unfold AddressSpace.map
    split
    · rename_i covers
      have aligned := page_aligned accepts.2.1 (v - vaddr).toNat
      rw [exposed_packed aligned low]
      intro exposed
      unfold frameOf
      rw [AddressSpace.or_high aligned low]
      exact backs exposed v covers
    · exact backed v
  · exact confined.mono id (fun _ _ _ held => held)
      fun hasOther => paging.write_other has update hasOther own

/-- The pages from an allocation on that `process_free` unmaps reach beyond its blocks. -/
theorem unmapped_of_inBlocks {p size v : Word} {owner : Owner} (proper : Proper size)
    (pool : ∃ s < 25600, p = poolBlock s)
    (inside : Machine.InBlocks p (pageAlignLower v) ⟨size, owner⟩) :
    (v - p).toNat < 4096 * mapToPages 0 (pageAlign (p + size)) := by
  obtain ⟨aligned, low, high, stop⟩ := allocationEnd proper pool
  have floor : (pageAlignLower v).toNat = v.toNat / 4096 * 4096 := alignLower_toNat v
  have limit : size.toNat ≤ 2 ^ 31 - 4096 := proper.2
  have left := v.isLt
  unfold Machine.InBlocks blockCount at inside
  dsimp only at inside
  unfold mapToPages
  rw [sub_zero, stop]
  rw [BitVec.toNat_sub, floor] at inside
  rw [BitVec.toNat_sub]
  omega

section Heap

variable {kernel : Kernel} {process : Word} (accounts : kernel.Accounts {process})

include accounts

theorem Accounts.malloc_confines {size : Word} (answered : kernel.Answered (.malloc process size)) :
    kernel.machine.KeepsConfined process (kernel.chunkOf process)
      (kernel.processMalloc process size).2.machine := by
  obtain ⟨directory, has⟩ := accounts.paging.directory (accounts.chunk process rfl)
  have harmless : (kernel.machine.request size).Harmless :=
    answered.imp_right (Or.imp_right And.left)
  obtain ⟨kept, disposable⟩ := (Machine.KeepsBut.refl accounts.paging).kzalloc
    (show ¬ (Owner.user process).IsPaging from id) harmless
  by_cases isNull : (kernel.machine.kzalloc (.user process) size).1 = null
  · rw [processMalloc_null kernel process size isNull]
    exact .of_keepsBut kept
  cases search : findAllocation (kernel.processAt process) null phixMaxProgramAllocations 0 with
  | none =>
      rw [processMalloc_full isNull search]
      exact .of_keepsBut (kept.discard disposable)
  | some slot =>
      have served : (kernel.machine.request size).Served := by
        rcases answered with served | refused | ⟨_, full⟩
        · exact served
        · exact absurd (kernel.machine.kzalloc_refused (.user process) refused) isNull
        · rw [findAllocation_of_noSlot full] at search
          cases search
      have cleared := (accounts.paging.sound.kzalloc_served (.user process) served).2
      have proper : Proper size := served.1
      have aligned := (allocationEnd proper cleared.pool).1
      have accepts := allocation_accepts aligned proper cleared.pool
      have pages := mapToPages_block proper cleared.pool
      rw [processMalloc_eq isNull accepts search]
      generalize (kernel.machine.kzalloc (.user process) size).1 = p at *
      have there : ((kernel.kzalloc (.user process) size).2).machine.HasChunk
          (((kernel.kzalloc (.user process) size).2).chunkOf process) directory :=
        (cleared.grown.hasChunk has accounts.paging.sound).1
      refine Machine.KeepsConfined.trans (.of_keepsBut kept)
        (mapTo_confines kept.paging there accepts fun _ v covers => ?_)
      rw [pages] at covers
      refine ⟨p, _, cleared.held, ?_, rfl, fun _ => ?_⟩
      · have small := (v - p).isLt
        unfold Machine.InBlocks
        rw [add_sub_cancel_left, BitVec.toNat_ofNat]
        refine lt_of_le_of_lt (Nat.mod_le _ _) ?_
        change _ < 4096 * blockCount size
        omega
      · apply BitVec.eq_of_toNat_eq
        have floor : (pageAlignLower v).toNat = v.toNat / 4096 * 4096 := alignLower_toNat v
        have left := v.isLt
        have right := p.isLt
        rw [floor, BitVec.toNat_add, BitVec.toNat_ofNat, BitVec.toNat_sub]
        omega

/-- What is released has been unmapped. -/
theorem Accounts.free_confines (p : Word) :
    kernel.machine.KeepsConfined process (kernel.chunkOf process)
      (kernel.processFree process p).machine := by
  cases search : findAllocation (kernel.processAt process) p phixMaxProgramAllocations 0 with
  | none =>
      rw [processFree_unknown search]
      exact fun _ _ _ confined => confined
  | some slot =>
      obtain ⟨directory, has⟩ := accounts.paging.directory (accounts.chunk process rfl)
      have page : p.toNat % 4096 = 0 := by
        by_cases isNull : p = null
        · rw [isNull]
          rfl
        · exact accounts.paging.sound.aligned (accounts.found rfl isNull search).held
      have accepts : MapToAccepts p 0
          (pageAlign (p + ((kernel.processAt process).allocations slot).size)) :=
        ⟨page, rfl, (congrArg (· % 4096) (align_toNat _)).trans (Nat.mul_mod_left _ _),
          BitVec.le_def.mpr (Nat.zero_le _)⟩
      have unmaps := mapTo_confines accounts.paging has accepts
        fun exposed => absurd exposed not_exposed_zero
      obtain ⟨mapped, _, _, still⟩ := mapTo_keeps kernel process p 0
        (pageAlign (p + ((kernel.processAt process).allocations slot).size)) 0 accounts.paging
        directory has
      obtain ⟨_, update⟩ := kernel.mapTo_update process accounts.paging has accepts 0
      rw [processFree_found search]
      change kernel.machine.KeepsConfined _ _ ((kernel.mapTo process p 0
        (pageAlign (p + ((kernel.processAt process).allocations slot).size)) 0).2.machine.kfree p)
      by_cases isNull : p = null
      · have same := mapped.paging.sound.kfree_null_eq
        rw [← isNull] at same
        rw [same]
        exact unmaps
      have recorded := (accounts.found rfl isNull search).held
      generalize ((kernel.processAt process).allocations slot).size = size at *
      have live : (kernel.mapTo process p 0 (pageAlign (p + size)) 0).2.machine.live =
        kernel.machine.live := rfl
      generalize (kernel.mapTo process p 0 (pageAlign (p + size)) 0).2.machine = middle at *
      have held : middle.live p = some ⟨size, .user process⟩ := live ▸ recorded
      have apart : ∀ {q : Word}, middle.live q = some ⟨sizeofProcess, .process⟩ → q ≠ p := by
        rintro q isProcess rfl
        cases held.symm.trans isProcess
      intro q c link confined
      by_cases own : c = kernel.chunkOf process
      · obtain rfl := link.mpr own
        subst own
        obtain ⟨isProcess, other, hasOther, backed⟩ := confined
        rw [← has.space_eq hasOther] at backed
        obtain ⟨after, same⟩ := mapped.paging.kfree_hasChunk held id still
        rw [← live] at isProcess
        refine ⟨(middle.kfree_live_of_ne (apart isProcess)).trans isProcess, directory, after,
          fun v => ?_⟩
        rw [same, update.mapped]
        unfold AddressSpace.map
        split
        · rw [exposed_packed (page_aligned rfl _) (flagWord_lt _)]
          exact fun exposed => absurd exposed not_exposed_zero
        · rename_i outside
          intro exposed
          obtain ⟨r, allocation, holds, inside, program, user⟩ := backed v exposed
          by_cases here : r = p
          · subst here
            cases recorded.symm.trans holds
            rw [user rfl] at inside
            exact absurd (unmapped_of_inBlocks (accounts.paging.sound.proper recorded)
              (accounts.paging.sound.pool recorded) inside) outside
          · refine ⟨r, allocation, ?_, inside, program, user⟩
            rw [middle.kfree_live_of_ne here, live]
            exact holds
      · refine (unmaps q c link confined).mono
          (fun isProcess => (middle.kfree_live_of_ne (apart isProcess)).trans isProcess)
          (fun r allocation program holds => ?_)
          fun hasOther => mapped.paging.kfree_hasChunk held id hasOther
        rw [middle.kfree_live_of_ne]
        · exact holds
        · rintro rfl
          cases held.symm.trans holds
          cases program
          exact own (link.mp rfl)

end Heap

end Kernel

end Phix
