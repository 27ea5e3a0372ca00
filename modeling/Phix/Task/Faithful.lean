import Mathlib.Tactic.Ring
import Phix.Task.Images
import Phix.Task.Malloc
import Phix.Task.Mapping
import Phix.Task.NewTask

/-! # The loader maps a program's bytes

An ELF image whose segments lie apart, or a flat binary, is mapped byte for byte: after
`process_map_memory` the task translates each file-backed address of the program to the
byte of the image it stands for, and the user stack to the stack allocated for the process
(`Phix.Kernel.process_map_memory_faithful`).
-/

namespace Phix

namespace Elf32Phdr

/-- The first page of a segment. -/
def firstPage (phdr : Elf32Phdr) : ℕ := phdr.pVaddr.toNat / 4096

/-- The page after the last page of a segment. -/
def endPage (phdr : Elf32Phdr) : ℕ := (phdr.pVaddr.toNat + phdr.pMemsz.toNat + 4095) / 4096

/-- The segments have no page in common. -/
def Apart (phdr other : Elf32Phdr) : Prop :=
  phdr.endPage ≤ other.firstPage ∨ other.endPage ≤ phdr.firstPage

instance : Std.Symm Apart := ⟨fun _ _ => Or.symm⟩

/-- A file-backed segment of the image at `image`, whose ends do not wrap. -/
structure Fits (phdr : Elf32Phdr) (image : Word) : Prop where
  congruent : phdr.pVaddr.toNat % 4096 = phdr.pOffset.toNat % 4096
  positive : 0 < phdr.pFilesz.toNat
  sizes : phdr.pFilesz.toNat ≤ phdr.pMemsz.toNat
  virtualEnd : phdr.endPage ≤ 2 ^ 20
  physicalEnd : (image.toNat + phdr.pOffset.toNat + phdr.pMemsz.toNat + 4095) / 4096 ≤ 2 ^ 20

end Elf32Phdr

namespace Kernel

/-- The physical address of a virtual one in the address space of the process's task. -/
def translate (kernel : Kernel) (process v : Word) : Word :=
  pagingGetPaddr kernel.machine.memory (kernel.directoryOf process) v

def pageFlags (kernel : Kernel) (process v : Word) : Word :=
  pagingGetFlags kernel.machine.memory (kernel.directoryOf process) v

def Writable (kernel : Kernel) (process v : Word) : Prop :=
  kernel.pageFlags process v &&& flagWord pagingIsWritable ≠ 0

/-- The program headers of the process's ELF image. -/
def headersOf (kernel : Kernel) (process : Word) : List Elf32Phdr :=
  programHeaders kernel.machine.memory
    (elfHeader (kernel.elfFileAt (kernel.processAt process).p))

/-- The program is an ELF image of file-backed segments that lie apart from each other and
from the stack. -/
structure SegmentedElf (kernel : Kernel) (process size : Word) : Prop where
  filetype : (kernel.processAt process).filetype = processFiletypeElf
  image : kernel.ElfImage process size
  fits : ∀ phdr ∈ kernel.headersOf process,
    phdr.Fits (kernel.elfFileAt (kernel.processAt process).p).elfMemory
  apart : (kernel.headersOf process).Pairwise Elf32Phdr.Apart
  stack : ∀ phdr ∈ kernel.headersOf process, phdr.endPage ≤ 0x3FB ∨ 0x3FF ≤ phdr.firstPage

/-- The program is a flat binary that does not wrap. -/
structure FlatBinary (kernel : Kernel) (process : Word) : Prop where
  filetype : (kernel.processAt process).filetype = processFiletypeBinary
  positive : 1 ≤ (kernel.processAt process).size.toNat
  virtualEnd : 0x400000 + (kernel.processAt process).size.toNat ≤ 2 ^ 32
  physicalEnd : ((kernel.processAt process).p.toNat + (kernel.processAt process).size.toNat +
    4095) / 4096 ≤ 2 ^ 20

/-- After mapping, the task's address space shows the program's bytes and the stack. -/
structure Faithful (start : Kernel) (process : Word) (next : Kernel) : Prop where
  segments : (start.processAt process).filetype = processFiletypeElf →
    ∀ phdr ∈ start.headersOf process, ∀ k < phdr.pFilesz,
      next.translate process (phdr.pVaddr + k) =
        (start.elfFileAt (start.processAt process).p).elfMemory + phdr.pOffset + k ∧
      (next.Writable process (phdr.pVaddr + k) ↔ phdr.pFlags &&& pfW ≠ 0)
  binary : (start.processAt process).filetype = processFiletypeBinary →
    ∀ k < (start.processAt process).size,
      next.translate process (phixProgramVirtualAddress + k) = (start.processAt process).p + k ∧
      next.Writable process (phixProgramVirtualAddress + k)
  stack : ∀ k < phixUserProgramStackSize,
    next.translate process (phixProgramVirtualStackAddressEnd + k) =
      (start.processAt process).stack + k ∧
    next.Writable process (phixProgramVirtualStackAddressEnd + k)

/-- A translation in a mapped program. -/
theorem MappingState.lookup {start next : Kernel} {process : Word} {directory : PageDirectory}
    {machine : Machine} {space : AddressSpace} {regions : List PageRegion}
    (state : start.MappingState process directory next machine (space.mapAll regions))
    (aligned : ∀ region ∈ regions, region.Aligned) (v : Word) :
    next.translate process v = (match PageRegion.last regions v with
      | some region => region.place v
      | none => space.translate v) ∧
    next.pageFlags process v = (match PageRegion.last regions v with
      | some region => region.flags
      | none => space.flags v) := by
  have has := state.has
  have wired := (has.chunkAt state.paging.sound).wired
  have root : next.directoryOf process = directory.base := by
    unfold directoryOf
    rw [state.chunkOf, has.root]
  unfold Kernel.translate pageFlags
  rw [root, pagingGetPaddr_eq wired, pagingGetFlags_eq wired, state.space]
  exact ⟨space.translate_mapAll aligned, space.flags_mapAll aligned⟩

/-- Where exactly one region covers an address, it decides the lookup. -/
theorem MappingState.lookup_of_unique {start next : Kernel} {process : Word}
    {directory : PageDirectory} {machine : Machine} {space : AddressSpace}
    {regions : List PageRegion} {region : PageRegion} {v : Word}
    (state : start.MappingState process directory next machine (space.mapAll regions))
    (aligned : ∀ region ∈ regions, region.Aligned) (member : region ∈ regions)
    (covers : region.Covers v) (unique : ∀ other ∈ regions, other.Covers v → other = region) :
    next.translate process v = region.place v ∧ next.pageFlags process v = region.flags := by
  obtain ⟨address, flags⟩ := state.lookup aligned v
  rw [PageRegion.last_of_unique member covers unique] at address flags
  exact ⟨address, flags⟩

theorem writable_userFlags : flagWord userFlags &&& flagWord pagingIsWritable ≠ 0 := by decide

theorem writable_phdrFlags (phdr : Elf32Phdr) :
    flagWord (phdrFlags phdr) &&& flagWord pagingIsWritable ≠ 0 ↔ phdr.pFlags &&& pfW ≠ 0 := by
  unfold phdrFlags
  by_cases writable : phdr.pFlags &&& pfW ≠ 0
  · simp only [writable, ne_eq, not_false_eq_true, if_true, iff_true]
    decide
  · simp only [writable, if_false, iff_false]
    decide

end Kernel

/-- The number of pages between two physical bounds, the upper one rounded up. -/
theorem mapToPages_eq {p size : Word}
    (proper : p.toNat / 4096 ≠ 0 ∨ (p.toNat + size.toNat + 4095) / 4096 < 2 ^ 20)
    (fits : (p.toNat + size.toNat + 4095) / 4096 ≤ 2 ^ 20) :
    mapToPages (pageAlignLower p) (pageAlign (p + size)) =
      (p.toNat + size.toNat + 4095) / 4096 - p.toNat / 4096 := by
  have lower : (pageAlignLower p).toNat = p.toNat / 4096 * 4096 := alignLower_toNat p
  have upper : (pageAlign (p + size)).toNat =
      ((p.toNat + size.toNat) % 2 ^ 32 + 4095) % 2 ^ 32 / 4096 * 4096 := by
    refine (align_toNat (p + size)).trans ?_
    rw [BitVec.toNat_add]
  have bound := p.isLt
  unfold mapToPages
  rw [BitVec.toNat_sub, lower, upper]
  -- The end may be the end of memory, which is 0.
  rcases Nat.lt_or_ge ((p.toNat + size.toNat + 4095) / 4096) (2 ^ 20) with inside | top
  · rw [Nat.mod_eq_of_lt (show p.toNat + size.toNat < 2 ^ 32 by omega),
      Nat.mod_eq_of_lt (show p.toNat + size.toNat + 4095 < 2 ^ 32 by omega)]
    omega
  · have zero : ((p.toNat + size.toNat) % 2 ^ 32 + 4095) % 2 ^ 32 / 4096 = 0 := by omega
    rw [zero]
    omega

/-- The pages of a region that starts at an aligned address and does not wrap. -/
theorem PageRegion.covers_iff {region : PageRegion} {first stop : ℕ}
    (start : region.start.toNat = 4096 * first) (pages : region.pages = stop - first)
    (ordered : first ≤ stop) (fits : stop ≤ 2 ^ 20) (v : Word) :
    region.Covers v ↔ first ≤ pageNumber v ∧ pageNumber v < stop := by
  have bound := v.isLt
  unfold PageRegion.Covers pageNumber
  rw [BitVec.toNat_sub, start, pages]
  constructor
  · intro inside
    omega
  · rintro ⟨above, below⟩
    omega

namespace Elf32Phdr.Fits

variable {phdr : Elf32Phdr} {file : ElfFile} (fits : phdr.Fits file.elfMemory)

include fits

theorem paddr_toNat : (elfPhdrPaddr file phdr).toNat =
    file.elfMemory.toNat + phdr.pOffset.toNat := by
  have positive := fits.positive
  have sizes := fits.sizes
  have stop := fits.physicalEnd
  unfold elfPhdrPaddr
  rw [BitVec.toNat_add, Nat.mod_eq_of_lt (by omega)]

variable (aligned : file.elfMemory.toNat % 4096 = 0)

include aligned

/-- The pages that the region of a fitting segment covers. -/
theorem covers_iff (nonNull : file.elfMemory.toNat ≠ 0) (v : Word) :
    (phdrRegion phdr (elfPhdrPaddr file phdr)).Covers v ↔
      phdr.firstPage ≤ pageNumber v ∧ pageNumber v < phdr.endPage := by
  have place := fits.paddr_toNat
  have congruent := fits.congruent
  have stop := fits.physicalEnd
  have positive := fits.positive
  have sizes := fits.sizes
  refine PageRegion.covers_iff ?_ ?_ ?_ fits.virtualEnd v
  · refine (alignLower_toNat phdr.pVaddr).trans ?_
    unfold firstPage
    omega
  · refine (mapToPages_eq (.inl (by omega)) (by rw [place]; exact stop)).trans ?_
    unfold firstPage endPage
    rw [place]
    omega
  · unfold firstPage endPage
    omega

/-- Where the region of a fitting segment places its bytes. -/
theorem place (k : Word) : (phdrRegion phdr (elfPhdrPaddr file phdr)).place (phdr.pVaddr + k) =
    file.elfMemory + phdr.pOffset + k := by
  have offsets : elfPhdrPaddr file phdr % 4096 = phdr.pVaddr % 4096 := by
    apply BitVec.eq_of_toNat_eq
    rw [BitVec.toNat_umod, BitVec.toNat_umod, fits.paddr_toNat]
    change (_ + _) % 4096 = phdr.pVaddr.toNat % 4096
    rw [fits.congruent]
    omega
  unfold PageRegion.place phdrRegion pageAlignLower alignLower pagingPageSize
  dsimp only
  rw [offsets]
  unfold elfPhdrPaddr
  ring

omit aligned in
/-- The file-backed addresses of a segment are on its pages. -/
theorem page_of_lt {k : Word} (inside : k < phdr.pFilesz) :
    phdr.firstPage ≤ pageNumber (phdr.pVaddr + k) ∧
        pageNumber (phdr.pVaddr + k) < phdr.endPage := by
  have sizes := fits.sizes
  have stop := fits.virtualEnd
  rw [BitVec.lt_def] at inside
  unfold firstPage pageNumber
  unfold endPage at stop ⊢
  rw [BitVec.toNat_add, Nat.mod_eq_of_lt (by omega)]
  omega

end Elf32Phdr.Fits

/-- File-backed headers need no buffers. -/
theorem placeHeaders_fileBacked (process : Word) (file : ElfFile) {phdrs : List Elf32Phdr}
    (backed : ∀ phdr ∈ phdrs, phdr.pFilesz ≠ 0) (machine : Machine) :
    placeHeaders process file phdrs machine =
      (phdrs.map fun phdr => phdrRegion phdr (elfPhdrPaddr file phdr), machine) := by
  induction phdrs with
  | nil => rfl
  | cons phdr phdrs ih =>
      have head := backed phdr List.mem_cons_self
      have tail := ih fun later member => backed later (List.mem_cons_of_mem phdr member)
      unfold placeHeaders placeHeader
      rw [if_neg head]
      dsimp only
      rw [tail]
      rfl

theorem headersHarmless_fileBacked (process : Word) (file : ElfFile) {phdrs : List Elf32Phdr}
    (backed : ∀ phdr ∈ phdrs, phdr.pFilesz ≠ 0) (machine : Machine) :
    HeadersHarmless process file phdrs machine := by
  induction phdrs generalizing machine with
  | nil => trivial
  | cons phdr phdrs ih =>
      exact ⟨fun bss => absurd bss (backed phdr List.mem_cons_self),
        ih (fun later member => backed later (List.mem_cons_of_mem phdr member)) _⟩

/-- Headers of segments that are in the file can be mapped. -/
theorem headersAccepted_fileBacked (process : Word) {file : ElfFile} {phdrs : List Elf32Phdr}
    (place : file.elfMemory.toNat < 0x07400000) (backed : ∀ phdr ∈ phdrs, phdr.pFilesz ≠ 0)
    (bounded : ∀ phdr ∈ phdrs, phdr.pOffset.toNat + phdr.pMemsz.toNat ≤ 2 ^ 31)
    (machine : Machine) : HeadersAccepted process file phdrs machine := by
  induction phdrs generalizing machine with
  | nil => trivial
  | cons phdr phdrs ih =>
      have inFile := backed phdr List.mem_cons_self
      have small := bounded phdr List.mem_cons_self
      have paddr : (placeHeader process file phdr machine).1 = file.elfMemory + phdr.pOffset := by
        unfold placeHeader
        rw [if_neg inFile]
        rfl
      have stop : (pageAlign (file.elfMemory + phdr.pOffset + phdr.pMemsz)).toNat = _ :=
        align_toNat _
      have first : (pageAlignLower (file.elfMemory + phdr.pOffset)).toNat = _ := alignLower_toNat _
      rw [BitVec.toNat_add, BitVec.toNat_add] at stop
      rw [BitVec.toNat_add] at first
      have accepts : MapToAccepts (pageAlignLower phdr.pVaddr)
          (pageAlignLower (file.elfMemory + phdr.pOffset))
          (pageAlign (file.elfMemory + phdr.pOffset + phdr.pMemsz)) := by
        refine ⟨pageAlignLower_aligned _, pageAlignLower_aligned _, ?_, BitVec.le_def.mpr ?_⟩
        · omega
        · omega
      rw [← paddr] at accepts
      exact ⟨⟨fun bss => absurd bss inFile, accepts⟩,
        ih (fun later member => backed later (List.mem_cons_of_mem phdr member))
          (fun later member => bounded later (List.mem_cons_of_mem phdr member)) _⟩

namespace Kernel

section Faithful

variable {start next : Kernel} {process : Word}

/-- The pages of the stack of a process. -/
theorem stackRegion_covers_iff (paging : start.machine.PagingSound)
    (stack : start.machine.live (start.processAt process).stack =
      some ⟨phixUserProgramStackSize, .stack process⟩) (v : Word) :
    (stackRegion (start.processAt process)).Covers v ↔
      0x3FB ≤ pageNumber v ∧ pageNumber v < 0x3FF := by
  obtain ⟨s, inside, pointer, _⟩ := paging.sound.pointer stack
  obtain ⟨aligned, low, high, stop⟩ :=
    allocationEnd (by decide : Proper phixUserProgramStackSize) ⟨s, inside, pointer⟩
  have length : phixUserProgramStackSize.toNat = 0x4000 := by decide
  refine PageRegion.covers_iff
    (show phixProgramVirtualStackAddressEnd.toNat = 4096 * 0x3FB by decide)
    ?_ (by decide) (by decide) v
  unfold stackRegion mapToPages
  dsimp only
  rw [BitVec.toNat_sub, stop, length]
  omega

theorem SegmentedElf.backed {size : Word} (elf : start.SegmentedElf process size) :
    ∀ phdr ∈ start.headersOf process, phdr.pFilesz ≠ 0 := by
  intro phdr member zero
  have positive := (elf.fits phdr member).positive
  rw [zero] at positive
  exact absurd positive (by decide)

theorem SegmentedElf.memoryRegions {size : Word} (elf : start.SegmentedElf process size) :
    start.memoryRegions process =
      ((start.headersOf process).map (fun phdr => phdrRegion phdr
        (elfPhdrPaddr (start.elfFileAt (start.processAt process).p) phdr)) ++
        [stackRegion (start.processAt process)], start.machine) := by
  have placed := placeHeaders_fileBacked process (start.elfFileAt (start.processAt process).p)
    elf.backed start.machine
  unfold headersOf at placed
  unfold Kernel.memoryRegions headersOf
  simp only [elf.filetype, if_true, placed]

theorem FlatBinary.memoryRegions (binary : start.FlatBinary process) :
    start.memoryRegions process = ([binaryRegion (start.processAt process),
      stackRegion (start.processAt process)], start.machine) := by
  have other : processFiletypeBinary ≠ processFiletypeElf := by decide
  unfold Kernel.memoryRegions
  simp only [binary.filetype, other, if_false]
  rfl

/-- The pages of a flat binary. -/
theorem FlatBinary.covers_iff (binary : start.FlatBinary process)
    (aligned : (binaryRegion (start.processAt process)).Aligned) (v : Word) :
    (binaryRegion (start.processAt process)).Covers v ↔ 0x400 ≤ pageNumber v ∧
      pageNumber v < 0x400 + ((start.processAt process).size.toNat + 4095) / 4096 := by
  have frame : (start.processAt process).p.toNat % 4096 = 0 := aligned.frame
  have whole : pageAlignLower (start.processAt process).p = (start.processAt process).p := by
    apply BitVec.eq_of_toNat_eq
    refine (alignLower_toNat _).trans ?_
    omega
  have stop := binary.virtualEnd
  have pages := mapToPages_eq (by omega) binary.physicalEnd
  rw [whole] at pages
  refine PageRegion.covers_iff (show phixProgramVirtualAddress.toNat = 4096 * 0x400 by decide)
    (pages.trans ?_) (by omega) (by omega) v
  omega

end Faithful

section Unique

variable {start next : Kernel} {process : Word} {directory : PageDirectory} {machine : Machine}
  {space : AddressSpace} {regions : List PageRegion}
  (state : start.MappingState process directory next machine
    (space.mapAll (regions ++ [stackRegion (start.processAt process)])))
  (aligned : ∀ region ∈ regions ++ [stackRegion (start.processAt process)], region.Aligned)
  (stackPages : ∀ v, (stackRegion (start.processAt process)).Covers v ↔
    0x3FB ≤ pageNumber v ∧ pageNumber v < 0x3FF)

include state aligned stackPages

/-- A region of the program that alone covers an address off the stack decides its lookup. -/
theorem MappingState.lookup_program {region : PageRegion} {v : Word} (member : region ∈ regions)
    (covers : region.Covers v) (unique : ∀ other ∈ regions, other.Covers v → other = region)
    (offStack : ¬ (0x3FB ≤ pageNumber v ∧ pageNumber v < 0x3FF)) :
    next.translate process v = region.place v ∧ next.pageFlags process v = region.flags := by
  refine state.lookup_of_unique aligned (List.mem_append_left _ member) covers
    fun other within covered => ?_
  rcases List.mem_append.mp within with earlier | last
  · exact unique other earlier covered
  · rw [List.mem_singleton.mp last, stackPages] at covered
    exact absurd covered offStack

/-- The stack is mapped last. -/
theorem MappingState.lookup_stack {k : Word} (inside : k < phixUserProgramStackSize) :
    next.translate process (phixProgramVirtualStackAddressEnd + k) =
      (start.processAt process).stack + k ∧
    next.Writable process (phixProgramVirtualStackAddressEnd + k) := by
  have below : k.toNat < 0x4000 := BitVec.lt_def.mp inside
  have covers : (stackRegion (start.processAt process)).Covers
      (phixProgramVirtualStackAddressEnd + k) := by
    rw [stackPages]
    unfold pageNumber
    rw [BitVec.toNat_add, show phixProgramVirtualStackAddressEnd.toNat = 0x3FB000 by decide]
    omega
  obtain ⟨address, flags⟩ := state.lookup aligned (phixProgramVirtualStackAddressEnd + k)
  rw [PageRegion.last_concat, if_pos covers] at address flags
  refine ⟨address.trans ?_, ?_⟩
  · unfold PageRegion.place stackRegion
    dsimp only
    rw [add_sub_cancel_left]
  · unfold Writable
    rw [flags]
    exact writable_userFlags

end Unique

/-- **The loader maps a program faithfully.** -/
theorem process_map_memory_faithful {start next : Kernel} {process size : Word}
    (paging : start.machine.PagingSound)
    (live : start.machine.LiveChunk (start.chunkOf process))
    (stack : start.machine.live (start.processAt process).stack =
      some ⟨phixUserProgramStackSize, .stack process⟩)
    (program : start.SegmentedElf process size ∨ start.FlatBinary process)
    (mapped : start.processMapMemory process = some (0, next)) : start.Faithful process next := by
  obtain ⟨directory, has⟩ := paging.directory live
  have stackPages := stackRegion_covers_iff paging stack
  rcases program with elf | binary
  · have harmless := headersHarmless_fileBacked process
      (start.elfFileAt (start.processAt process).p) elf.backed start.machine
    obtain ⟨state, aligned⟩ := processMapMemory_mapped paging has
      (.inr ⟨elf.filetype, elf.image, harmless⟩) mapped
    rw [elf.memoryRegions] at state aligned
    obtain ⟨s, inside, pointer, _⟩ := paging.sound.pointer elf.image.held
    have image := poolBlock_toNat inside
    rw [← pointer] at image
    have covers := fun phdr member => (elf.fits phdr member).covers_iff (by omega) (by omega)
    refine ⟨fun _ phdr member k inside => ?_, fun binary => ?_, fun k inside =>
      state.lookup_stack aligned stackPages inside⟩
    · have page := (elf.fits phdr member).page_of_lt inside
      have off := elf.stack phdr member
      have unique : ∀ other ∈ (start.headersOf process).map (fun phdr => phdrRegion phdr
          (elfPhdrPaddr (start.elfFileAt (start.processAt process).p) phdr)),
          other.Covers (phdr.pVaddr + k) → other = phdrRegion phdr
            (elfPhdrPaddr (start.elfFileAt (start.processAt process).p) phdr) := by
        intro other within covered
        obtain ⟨second, belongs, rfl⟩ := List.mem_map.mp within
        have also := (covers second belongs _).mp covered
        by_contra different
        have apart := elf.apart.forall member belongs
          fun same => different (by rw [same])
        unfold Elf32Phdr.Apart at apart
        omega
      obtain ⟨address, flags⟩ := state.lookup_program aligned stackPages
        (List.mem_map.mpr ⟨phdr, member, rfl⟩) ((covers phdr member _).mpr page) unique (by omega)
      rw [address, (elf.fits phdr member).place (by omega) k]
      unfold Writable
      rw [flags]
      exact ⟨rfl, writable_phdrFlags phdr⟩
    · rw [elf.filetype] at binary
      exact absurd binary (by decide)
  · obtain ⟨state, aligned⟩ := processMapMemory_mapped paging has
      (.inl binary.filetype : start.Program process size) mapped
    rw [binary.memoryRegions] at state aligned
    have state : start.MappingState process directory next start.machine
        ((directory.space start.machine.memory).mapAll
          ([binaryRegion (start.processAt process)] ++ [stackRegion (start.processAt process)])) :=
      state
    have covers := binary.covers_iff (aligned _ List.mem_cons_self)
    refine ⟨fun elf => ?_, fun _ k inside => ?_, fun k inside =>
      state.lookup_stack aligned stackPages inside⟩
    · rw [binary.filetype] at elf
      exact absurd elf (by decide)
    · have below := BitVec.lt_def.mp inside
      have stop := binary.virtualEnd
      have page : pageNumber (phixProgramVirtualAddress + k) = 0x400 + k.toNat / 4096 := by
        unfold pageNumber
        rw [BitVec.toNat_add, show phixProgramVirtualAddress.toNat = 0x400000 by decide,
          Nat.mod_eq_of_lt (by omega)]
        omega
      have covered := (covers (phixProgramVirtualAddress + k)).mpr (by omega)
      obtain ⟨address, flags⟩ := state.lookup_program aligned stackPages List.mem_cons_self
        covered (fun other within _ => List.mem_singleton.mp within) (by omega)
      refine ⟨address.trans ?_, ?_⟩
      · unfold PageRegion.place binaryRegion
        dsimp only
        rw [add_sub_cancel_left]
      · unfold Writable
        rw [flags]
        exact writable_userFlags

end Kernel

/-- An executable of two segments: the first page of the file, and half of a page behind it, which
is writable and has more memory than is in the file. -/
def twoSegments : ℕ → Byte
  | 0 => 0x7f
  | 1 => 0x45
  | 2 => 0x4c
  | 3 => 0x46
  | 4 => 1
  | 5 => 1
  | 16 => 2
  | 24 => 0x80
  | 26 => 0x40
  | 28 => 52
  | 44 => 2
  | 52 => 1
  | 62 => 0x40
  | 69 => 0x10
  | 73 => 0x10
  | 76 => 5
  | 84 => 1
  | 88 => 0x10
  | 89 => 0x10
  | 92 => 0x10
  | 93 => 0x20
  | 94 => 0x40
  | 101 => 0x08
  | 105 => 0x0f
  | 108 => 6
  | _ => 0

theorem twoSegments_headers : programHeaders (fun x => twoSegments x.toNat) 0 =
    [⟨1, 0, 0x400000, 0x1000, 0x1000, 5⟩, ⟨1, 0x1010, 0x402010, 0x800, 0xf00, 6⟩] := by
  rfl

namespace Kernel

theorem Loaded.shows {kernel : Kernel} {process file image size : Word} {content : ℕ → Byte}
    {directory : PageDirectory} (loaded : kernel.Loaded process file image size content directory) :
    Shows kernel.machine.memory image (fun x => content x.toNat) size := by
  intro k inside
  have offset : image + k - image = k := add_sub_cancel_left ..
  rw [loaded.content (image + k) (by rw [offset]; exact inside), offset]

/-- The two segments lie apart, wherever the file is loaded. -/
theorem Loaded.twoSegments {kernel : Kernel} {process file image : Word} {directory : PageDirectory}
    (loaded : kernel.Loaded process file image 8192 twoSegments directory)
    (filetype : (kernel.processAt process).filetype = processFiletypeElf)
    (program : (kernel.processAt process).p = file) :
    kernel.headersOf process =
        [⟨1, 0, 0x400000, 0x1000, 0x1000, 5⟩, ⟨1, 0x1010, 0x402010, 0x800, 0xf00, 6⟩] ∧
      kernel.SegmentedElf process 8192 := by
  have complete : Complete (fun x => Phix.twoSegments x.toNat) 8192 := ⟨by decide, by decide⟩
  have place : (kernel.elfFileAt (kernel.processAt process).p).elfMemory = image := by
    rw [program]
    exact loaded.file
  obtain ⟨s, inside, pointer, _⟩ := loaded.paging.sound.pointer loaded.held
  have low := poolBlock_toNat inside
  rw [← pointer] at low
  have headers : kernel.headersOf process = _ :=
    ((congrArg (programHeaders kernel.machine.memory) place).trans
      (loaded.shows.programHeaders complete (by decide))).trans twoSegments_headers
  refine ⟨headers, filetype, ⟨?_, complete.header, ?_, ?_⟩, ?_, ?_, ?_⟩
  · rw [place]
    exact loaded.held
  · rw [place, loaded.shows.ePhoff complete.header]
    decide
  · rw [place, loaded.shows.ePhoff complete.header, loaded.shows.ePhnum complete.header]
    decide
  · rw [headers, place]
    intro phdr member
    rcases List.mem_pair.mp member with rfl | rfl
    · refine ⟨by decide, by decide, by decide, by decide, ?_⟩
      change (image.toNat + 0 + 0x1000 + 4095) / 4096 ≤ 2 ^ 20
      omega
    · refine ⟨by decide, by decide, by decide, by decide, ?_⟩
      change (image.toNat + 0x1010 + 0xf00 + 4095) / 4096 ≤ 2 ^ 20
      omega
  · rw [headers]
    exact List.pairwise_pair.mpr (.inl (by decide))
  · rw [headers]
    intro phdr member
    rcases List.mem_pair.mp member with rfl | rfl
    · exact .inr (by decide)
    · exact .inr (by decide)

/-- An executable of two segments, on a booted kernel. -/
theorem process_map_memory_faithful_booted : ∃ (start next : Kernel) (process : Word),
    start.headersOf process =
        [⟨1, 0, 0x400000, 0x1000, 0x1000, 5⟩, ⟨1, 0x1010, 0x402010, 0x800, 0xf00, 6⟩] ∧
      start.SegmentedElf process 8192 ∧ start.processMapMemory process = some (0, next) ∧
      start.Faithful process next := by
  obtain ⟨kernel, process, file, image, directory, loaded, _⟩ := loaded_some
    (Kernel.booted fun _ => 0) (Machine.booted_pagingSound _) (Machine.booted_freeFrom _)
    (by decide : Proper 8192) (by decide) twoSegments
  obtain ⟨start, loaded, filetype, program, _⟩ := loaded.setProgram processFiletypeElf file 0
  obtain ⟨headers, elf⟩ := loaded.twoSegments filetype program
  obtain ⟨s, inside, pointer, _⟩ := loaded.paging.sound.pointer elf.image.held
  have place := poolBlock_toNat inside
  rw [← pointer] at place
  have backed := elf.backed
  have harmless := headersHarmless_fileBacked process
    (start.elfFileAt (start.processAt process).p) backed start.machine
  have accepted : start.ProgramAccepted process := by
    refine ⟨fun binary => absurd (filetype.symm.trans binary) (by decide), fun _ => ?_, ?_⟩
    · refine headersAccepted_fileBacked process (by omega) backed ?_ _
      rw [headers]
      decide
    · obtain ⟨t, insideStack, pointerStack, _⟩ := loaded.paging.sound.pointer loaded.stack
      exact allocation_accepts (by decide) (by decide) ⟨t, insideStack, pointerStack⟩
  obtain ⟨next, mapped⟩ := processMapMemory_some loaded.paging loaded.has
    (.inr ⟨filetype, elf.image, harmless⟩) accepted
  exact ⟨start, next, process, headers, elf, mapped, process_map_memory_faithful loaded.paging
    ⟨_, loaded.has.isChunk⟩ loaded.stack (.inl elf) mapped⟩

end Kernel

end Phix
