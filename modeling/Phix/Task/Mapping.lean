import Phix.Foundation.Regions
import Phix.Memory.Locality
import Phix.Memory.Requests
import Phix.Task.Process

/-! # The regions a program is mapped to

`process_map_elf` maps one region for each program header: the pages of the segment onto
the file image or onto a buffer from the heap. `Phix.placeHeaders` gives these regions and
the buffers, with the heap calls alone; `Phix.Kernel.MappingState` says that a kernel is in
the course of such a mapping, and the loop goes from one such state to the next
(`Phix.Kernel.MappingState.mapPhdr`).
-/

namespace Phix

/-- The program headers of the image at `header`. -/
def programHeaders (memory : ByteMemory) (header : Word) : List Elf32Phdr :=
  (List.range (ePhnum memory header).toNat).map fun i =>
    elf32PhdrAt memory (elfProgramHeader memory header i)

theorem programHeaders_length (memory : ByteMemory) (header : Word) :
    (programHeaders memory header).length = (ePhnum memory header).toNat := by
  unfold programHeaders
  rw [List.length_map, List.length_range]

theorem programHeaders_drop {memory : ByteMemory} {header : Word} {i : ℕ}
    (inside : i < (ePhnum memory header).toNat) : (programHeaders memory header).drop i =
      elf32PhdrAt memory (elfProgramHeader memory header i) ::
        (programHeaders memory header).drop (i + 1) := by
  rw [List.drop_eq_getElem_cons (by rw [programHeaders_length]; exact inside)]
  unfold programHeaders
  rw [List.getElem_map, List.getElem_range]

/-- The region of a program header whose bytes are placed at `paddr`. -/
def phdrRegion (phdr : Elf32Phdr) (paddr : Word) : PageRegion where
  start := pageAlignLower phdr.pVaddr
  frame := pageAlignLower paddr
  flags := flagWord (Kernel.phdrFlags phdr)
  pages := mapToPages (pageAlignLower paddr) (pageAlign (paddr + phdr.pMemsz))

/-- The address a program header is placed at, and the machine after the allocation of its
buffer, if it has one. -/
def placeHeader (process : Word) (file : ElfFile) (phdr : Elf32Phdr) (machine : Machine) :
    Word × Machine :=
  if phdr.pFilesz = 0 then machine.kzalloc (.bss process) (pageAlign phdr.pMemsz)
  else (elfPhdrPaddr file phdr, machine)

/-- The regions of program headers, and the machine after the allocation of their buffers. -/
def placeHeaders (process : Word) (file : ElfFile) :
    List Elf32Phdr → Machine → List PageRegion × Machine
  | [], machine => ([], machine)
  | phdr :: phdrs, machine =>
      let (paddr, machine) := placeHeader process file phdr machine
      let (regions, machine) := placeHeaders process file phdrs machine
      (phdrRegion phdr paddr :: regions, machine)

/-- `process_map_elf` can map the header: its buffer is allocated, and its bounds are in order. -/
def HeaderAccepted (process : Word) (file : ElfFile) (phdr : Elf32Phdr) (machine : Machine) :
    Prop :=
  let paddr := (placeHeader process file phdr machine).1
  (phdr.pFilesz = 0 → paddr ≠ null) ∧ MapToAccepts (pageAlignLower phdr.pVaddr)
    (pageAlignLower paddr) (pageAlign (paddr + phdr.pMemsz))

def HeadersAccepted (process : Word) (file : ElfFile) : List Elf32Phdr → Machine → Prop
  | [], _ => True
  | phdr :: phdrs, machine => HeaderAccepted process file phdr machine ∧
      HeadersAccepted process file phdrs (placeHeader process file phdr machine).2

theorem phdrRegion_aligned (phdr : Elf32Phdr) (paddr : Word) : (phdrRegion phdr paddr).Aligned where
  start := pageAlignLower_aligned _
  frame := pageAlignLower_aligned _
  flags := flagWord_lt _

theorem placeHeaders_aligned (process : Word) (file : ElfFile) (phdrs : List Elf32Phdr)
    (machine : Machine) : ∀ region ∈ (placeHeaders process file phdrs machine).1,
    region.Aligned := by
  induction phdrs generalizing machine with
  | nil =>
      intro region absent
      cases absent
  | cons phdr phdrs ih =>
      intro region member
      unfold placeHeaders at member
      rcases List.mem_cons.mp member with rfl | later
      · exact phdrRegion_aligned _ _
      · exact ih _ region later

namespace Kernel

/-- The kernel maps a program for the process: starting from `start`, it has allocated the
buffers that `machine` shows and has written page tables of the process's directory, which now
holds `space`, and nothing else. -/
structure MappingState (start : Kernel) (process : Word) (directory : PageDirectory)
    (kernel : Kernel) (machine : Machine) (space : AddressSpace) : Prop where
  paging : kernel.machine.PagingSound
  has : kernel.machine.HasChunk (start.chunkOf process) directory
  space : directory.space kernel.machine.memory = space
  grown : start.machine.Grown machine
  live : kernel.machine.live = machine.live
  agree : ∀ x, pageNumber x ∉ directory.tableFrames →
    kernel.machine.memory x = machine.memory x
  origin : ∀ p allocation, machine.live p = some allocation →
    start.machine.live p = some allocation ∨ allocation.owner = .bss process
  record : kernel.processAt = Function.update start.processAt process
    { start.processAt process with bss := (kernel.processAt process).bss }
  taskAt : kernel.taskAt = start.taskAt
  elfFileAt : kernel.elfFileAt = start.elfFileAt
  processes : kernel.processes = start.processes

theorem MappingState.refl {start : Kernel} {process : Word} {directory : PageDirectory}
    (paging : start.machine.PagingSound)
    (has : start.machine.HasChunk (start.chunkOf process) directory) :
    start.MappingState process directory start start.machine
      (directory.space start.machine.memory) where
  paging := paging
  has := has
  space := rfl
  grown := .refl paging.sound
  live := rfl
  agree _ _ := rfl
  origin _ _ := .inl
  record := (Function.update_eq_self process start.processAt).symm
  taskAt := rfl
  elfFileAt := rfl
  processes := rfl

section Step

variable {start kernel : Kernel} {process : Word} {directory : PageDirectory} {machine : Machine}
  {space : AddressSpace} (state : start.MappingState process directory kernel machine space)

include state

theorem MappingState.chunkOf : kernel.chunkOf process = start.chunkOf process := by
  unfold Kernel.chunkOf
  rw [state.record, Function.update_self, state.taskAt]

/-- The block table is not in a page table. -/
theorem MappingState.agree_low {x : Word} (low : x.toNat < tableLimit) :
    kernel.machine.memory x = machine.memory x := by
  refine state.agree x ?_
  rintro ⟨i, inside, same⟩
  exact state.paging.sound.pageNumber_ne_of_low (state.has.tables i inside) low same.symm

/-- What was allocated before, other than a page table of the process, keeps its contents. -/
theorem MappingState.kept {p x : Word} {allocation : Allocation}
    (held : start.machine.live p = some allocation) (noTable : ∀ i < 1024, p ≠ directory.table i)
    (inside : (x - p).toNat < allocation.size.toNat) :
    kernel.machine.memory x = start.machine.memory x := by
  rw [← state.grown.agree held inside]
  refine state.agree x ?_
  rintro ⟨i, bound, same⟩
  have later : kernel.machine.live p = some allocation := by
    rw [state.live]
    exact state.grown.kept p allocation held
  have table := state.has.tables i bound
  refine state.paging.sound.frames_disjoint (noTable i bound) later table inside ?_ rfl
  exact (AddressSpace.offset_lt_iff (state.paging.sound.aligned table) x).mpr same.symm

theorem MappingState.kept_of_notPaging {p x : Word} {allocation : Allocation}
    (held : start.machine.live p = some allocation) (notPaging : ¬ allocation.owner.IsPaging)
    (inside : (x - p).toNat < allocation.size.toNat) :
    kernel.machine.memory x = start.machine.memory x := by
  refine state.kept held (fun i bound same => ?_) inside
  have later := state.grown.kept p allocation held
  rw [← state.live, same, state.has.tables i bound, Option.some.injEq] at later
  rw [← later] at notPaging
  exact notPaging trivial

/-- Allocating a buffer. -/
theorem MappingState.kzalloc {size : Word} (harmless : (machine.request size).Harmless) :
    (kernel.kzalloc (.bss process) size).1 = (machine.kzalloc (.bss process) size).1 ∧
      start.MappingState process directory (kernel.kzalloc (.bss process) size).2
        (machine.kzalloc (.bss process) size).2 space := by
  have low := fun x => state.agree_low (x := x)
  obtain ⟨pointer, live, memory⟩ :=
    Machine.kzalloc_congr state.live low (.bss process) size
  have mine := (Machine.request_harmless_congr low size).mpr harmless
  obtain ⟨grownKernel, _⟩ := state.paging.sound.kzalloc_harmless (.bss process) mine
  obtain ⟨grown, origin⟩ := state.grown.sound.kzalloc_harmless (.bss process) harmless
  obtain ⟨has, same⟩ := grownKernel.hasChunk state.has state.paging.sound
  refine ⟨pointer, {
    paging := state.paging.kzalloc id mine
    has := has
    space := same.trans state.space
    grown := state.grown.trans grown
    live := live
    agree := fun x outside => memory x (state.agree x outside)
    origin := fun p allocation present => ?_
    record := state.record
    taskAt := state.taskAt
    elfFileAt := state.elfFileAt
    processes := state.processes }⟩
  rcases origin p allocation present with before | ⟨_, _, rfl⟩
  · exact state.origin p allocation before
  · exact .inr rfl

/-- Recording a buffer in the process. -/
theorem MappingState.setBss (bss : Bss) :
    start.MappingState process directory
      (kernel.setProcess process { kernel.processAt process with bss }) machine space where
  paging := state.paging
  has := state.has
  space := state.space
  grown := state.grown
  live := state.live
  agree := state.agree
  origin := state.origin
  record := by
    have outer : ∀ record, Function.update kernel.processAt process record =
        Function.update start.processAt process record := fun record => by
      rw [state.record, Function.update_idem]
    have inner : { kernel.processAt process with bss } = { start.processAt process with bss } := by
      rw [state.record, Function.update_self]
    unfold setProcess
    simp only [Function.update_self]
    rw [outer, inner]
  taskAt := state.taskAt
  elfFileAt := state.elfFileAt
  processes := state.processes

/-- `paging_map_to` through the chunk of the process's task. -/
theorem MappingState.mapTo (vaddr paddr pend : Word) (flags : Byte) :
    (MapToAccepts vaddr paddr pend ∧ (kernel.mapTo process vaddr paddr pend flags).1 = 0 ∧
      start.MappingState process directory (kernel.mapTo process vaddr paddr pend flags).2 machine
        (space.map vaddr paddr (flagWord flags) (mapToPages paddr pend))) ∨
    (¬ MapToAccepts vaddr paddr pend ∧ (kernel.mapTo process vaddr paddr pend flags).1 < 0 ∧
      start.MappingState process directory (kernel.mapTo process vaddr paddr pend flags).2 machine
        space) := by
  by_cases accepts : MapToAccepts vaddr paddr pend
  · left
    have has := state.has
    rw [← state.chunkOf] at has
    obtain ⟨status, update⟩ := (has.chunkAt state.paging.sound).pagingMapTo accepts flags
    refine ⟨accepts, status, {
      paging := state.paging.write has update
      has := ?_
      space := update.mapped.trans (by rw [state.space])
      grown := state.grown
      live := state.live
      agree := fun x outside => (update.outside x outside).trans (state.agree x outside)
      origin := state.origin
      record := state.record
      taskAt := state.taskAt
      elfFileAt := state.elfFileAt
      processes := state.processes }⟩
    rw [← state.chunkOf]
    exact Machine.PagingSound.write_self has update
  · right
    have refused : kernel.mapTo process vaddr paddr pend flags = (-EINVAL, kernel) := by
      unfold Kernel.mapTo
      rw [pagingMapTo_refused _ _ accepts]
    rw [refused]
    exact ⟨accepts, show -EINVAL < 0 by decide, state⟩

/-- One header: its region is mapped, or the call fails and maps nothing. -/
theorem MappingState.mapPhdr (elfFile header : Word) (i : ℕ) {phdr : Elf32Phdr}
    (read : elf32PhdrAt kernel.machine.memory
      (elfProgramHeader kernel.machine.memory header i) = phdr)
    (harmless : phdr.pFilesz = 0 → (machine.request (pageAlign phdr.pMemsz)).Harmless) :
    let placed := placeHeader process (start.elfFileAt elfFile) phdr machine
    let region := phdrRegion phdr placed.1
    ((kernel.mapPhdr process elfFile header i).1 = 0 ∧
      HeaderAccepted process (start.elfFileAt elfFile) phdr machine ∧
      start.MappingState process directory (kernel.mapPhdr process elfFile header i).2 placed.2
        (space.map region.start region.frame region.flags region.pages)) ∨
    ((kernel.mapPhdr process elfFile header i).1 < 0 ∧
      ¬ HeaderAccepted process (start.elfFileAt elfFile) phdr machine ∧
      start.MappingState process directory (kernel.mapPhdr process elfFile header i).2 placed.2
        space) := by
  unfold Kernel.mapPhdr HeaderAccepted placeHeader
  simp only [read]
  by_cases bss : phdr.pFilesz = 0
  · obtain ⟨pointer, allocated⟩ := state.kzalloc (harmless bss)
    simp only [bss, if_true, pointer]
    generalize (machine.kzalloc (.bss process) (pageAlign phdr.pMemsz)).1 = p
    by_cases refused : p = null
    · right
      rw [if_pos refused]
      exact ⟨show -ENOMEM < 0 by decide, fun accepted => accepted.1 trivial refused,
        allocated.setBss _⟩
    · rw [if_neg refused]
      have recorded := allocated.setBss ⟨p, phdr.pMemsz⟩
      rcases recorded.mapTo (pageAlignLower phdr.pVaddr) (pageAlignLower p)
        (pageAlign (p + phdr.pMemsz)) (phdrFlags phdr) with
        ⟨accepts, status, mapped⟩ | ⟨refuses, status, mapped⟩
      · exact .inl ⟨status, ⟨fun _ => refused, accepts⟩, mapped⟩
      · exact .inr ⟨status, fun accepted => refuses accepted.2, mapped⟩
  · simp only [bss, if_false]
    rw [state.elfFileAt]
    rcases state.mapTo (pageAlignLower phdr.pVaddr)
      (pageAlignLower (elfPhdrPaddr (start.elfFileAt elfFile) phdr))
      (pageAlign (elfPhdrPaddr (start.elfFileAt elfFile) phdr + phdr.pMemsz)) (phdrFlags phdr) with
      ⟨accepts, status, mapped⟩ | ⟨refuses, status, mapped⟩
    · exact .inl ⟨status, ⟨False.elim, accepts⟩, mapped⟩
    · exact .inr ⟨status, fun accepted => refuses accepted.2, mapped⟩

end Step

/-- The process's program is an ELF image of `size` bytes allocated for it, which contains
its header and its program headers. -/
structure ElfImage (kernel : Kernel) (process size : Word) : Prop where
  held : kernel.machine.live (kernel.elfFileAt (kernel.processAt process).p).elfMemory =
    some ⟨size, .image process⟩
  header : 52 ≤ size.toNat
  hasTable : ePhoff kernel.machine.memory
    (kernel.elfFileAt (kernel.processAt process).p).elfMemory ≠ 0
  table : (ePhoff kernel.machine.memory
      (kernel.elfFileAt (kernel.processAt process).p).elfMemory).toNat +
    32 * (ePhnum kernel.machine.memory
      (kernel.elfFileAt (kernel.processAt process).p).elfMemory).toNat ≤ size.toNat

/-- The program headers are read the same as long as the image keeps its contents. -/
theorem programHeaders_congr {memory other : ByteMemory} {image size : Word}
    (same : ∀ x : Word, (x - image).toNat < size.toNat → other x = memory x)
    (header : 52 ≤ size.toNat) (hasTable : ePhoff memory image ≠ 0)
    (table : (ePhoff memory image).toNat + 32 * (ePhnum memory image).toNat ≤ size.toNat) :
    ePhnum other image = ePhnum memory image ∧
      ∀ i < (ePhnum memory image).toNat, elf32PhdrAt other (elfProgramHeader other image i) =
        elf32PhdrAt memory (elfProgramHeader memory image i) := by
  have word : ∀ c k : Word, c.toNat ≤ 44 → k.toNat < 4 → other (image + c + k) =
      memory (image + c + k) := by
    intro c k low small
    refine same _ ?_
    rw [BitVec.add_assoc, add_sub_cancel_left, BitVec.toNat_add]
    omega
  have count : ePhnum other image = ePhnum memory image :=
    ByteMemory.load16_congr fun k small => word 44 k le_rfl (by omega)
  have start : ePhoff other image = ePhoff memory image :=
    ByteMemory.load32_congr fun k small => word 28 k (by decide) small
  refine ⟨count, fun i inside => ?_⟩
  have place : elfProgramHeader other image i = elfProgramHeader memory image i := by
    unfold elfProgramHeader elfPheaders
    rw [start]
  have field : ∀ c : Word, c.toNat ≤ 24 → other.load32 (elfProgramHeader memory image i + c) =
      memory.load32 (elfProgramHeader memory image i + c) := by
    intro c low
    refine ByteMemory.load32_congr fun k small => same _ ?_
    have phnum := (ePhnum memory image).isLt
    have bound := size.isLt
    have offset := headerOffset_toNat (i := i) (by omega)
    unfold elfProgramHeader elfPheaders
    rw [if_neg hasTable, BitVec.add_assoc, BitVec.add_assoc, BitVec.add_assoc, add_sub_cancel_left]
    rw [BitVec.toNat_add, BitVec.toNat_add, BitVec.toNat_add, offset]
    omega
  rw [place]
  unfold elf32PhdrAt
  have zero := field 0 (by decide)
  rw [add_zero] at zero
  rw [zero, field 4 (by decide), field 8 (by decide), field 16 (by decide), field 20 (by decide),
    field 24 (by decide)]

end Kernel

/-- The buffers of program headers are requested without harm to the heap. -/
def HeadersHarmless (process : Word) (file : ElfFile) : List Elf32Phdr → Machine → Prop
  | [], _ => True
  | phdr :: phdrs, machine =>
      (phdr.pFilesz = 0 → (machine.request (pageAlign phdr.pMemsz)).Harmless) ∧
        HeadersHarmless process file phdrs (placeHeader process file phdr machine).2

namespace Kernel

theorem processMapElf.loop_succ (process elfFile header : Word) (rounds i : ℕ) (kernel : Kernel) :
    processMapElf.loop process elfFile header (rounds + 1) i kernel =
      if i < (ePhnum kernel.machine.memory header).toNat then
        if (kernel.mapPhdr process elfFile header i).1 < 0 then
          kernel.mapPhdr process elfFile header i
        else processMapElf.loop process elfFile header rounds (i + 1)
          (kernel.mapPhdr process elfFile header i).2
      else (0, kernel) := rfl

section Run

variable {start : Kernel} {process size : Word} {directory : PageDirectory}
  (image : start.ElfImage process size)

include image

/-- While the program is mapped, its headers are read as they were. -/
theorem MappingState.headers {kernel : Kernel} {machine : Machine} {space : AddressSpace}
    (state : start.MappingState process directory kernel machine space) :
    let header := elfHeader (start.elfFileAt (start.processAt process).p)
    ePhnum kernel.machine.memory header = ePhnum start.machine.memory header ∧
      ∀ i < (ePhnum start.machine.memory header).toNat,
        elf32PhdrAt kernel.machine.memory (elfProgramHeader kernel.machine.memory header i) =
          elf32PhdrAt start.machine.memory (elfProgramHeader start.machine.memory header i) :=
  programHeaders_congr (fun _ inside => state.kept_of_notPaging image.held id inside) image.header
    image.hasTable image.table

/-- The loop of `process_map_elf` maps the headers that remain, or fails. -/
theorem MappingState.mapElfLoop {kernel : Kernel} {machine : Machine} {space : AddressSpace}
    (state : start.MappingState process directory kernel machine space) {rounds i : ℕ}
    (bound : (ePhnum start.machine.memory
      (elfHeader (start.elfFileAt (start.processAt process).p))).toNat ≤ i + rounds)
    (harmless : HeadersHarmless process (start.elfFileAt (start.processAt process).p)
      ((programHeaders start.machine.memory
        (elfHeader (start.elfFileAt (start.processAt process).p))).drop i) machine) :
    let file := start.elfFileAt (start.processAt process).p
    let phdrs := (programHeaders start.machine.memory (elfHeader file)).drop i
    let result := processMapElf.loop process (start.processAt process).p (elfHeader file) rounds i
      kernel
    (result.1 = 0 ∧ HeadersAccepted process file phdrs machine ∧
      start.MappingState process directory result.2 (placeHeaders process file phdrs machine).2
        (space.mapAll (placeHeaders process file phdrs machine).1)) ∨
    (result.1 < 0 ∧ ¬ HeadersAccepted process file phdrs machine ∧
      ∃ machine space, start.MappingState process directory result.2 machine space) := by
  intro file phdrs result
  obtain ⟨count, headers⟩ := state.headers image
  induction rounds generalizing i kernel machine space with
  | zero =>
      have none : phdrs = [] := List.drop_eq_nil_of_le (by rw [programHeaders_length]; exact bound)
      rw [none]
      exact .inl ⟨rfl, trivial, state⟩
  | succ rounds ih =>
      have unfolded : result = _ := processMapElf.loop_succ process (start.processAt process).p
        (elfHeader file) rounds i kernel
      rw [count] at unfolded
      by_cases inside : i < (ePhnum start.machine.memory (elfHeader file)).toNat
      · rw [if_pos inside] at unfolded
        have cons : phdrs = _ := programHeaders_drop inside
        change HeadersHarmless process file phdrs machine at harmless
        rw [cons] at harmless ⊢
        obtain ⟨first, rest⟩ := harmless
        rcases state.mapPhdr (start.processAt process).p (elfHeader file) i
            (headers i inside) first with
          ⟨status, accepts, mapped⟩ | ⟨status, refuses, failed⟩
        · rw [if_neg (by rw [status]; decide)] at unfolded
          obtain ⟨count, headers⟩ := mapped.headers image
          rw [unfolded]
          rcases ih mapped (by omega) rest count headers with
            ⟨zero, later, done⟩ | ⟨negative, later, failed⟩
          · exact .inl ⟨zero, ⟨accepts, later⟩, done⟩
          · exact .inr ⟨negative, fun accepted => later accepted.2, failed⟩
        · rw [if_pos status] at unfolded
          rw [unfolded]
          exact .inr ⟨status, fun accepted => refuses accepted.1, _, _, failed⟩
      · rw [if_neg inside] at unfolded
        have none : phdrs = [] := List.drop_eq_nil_of_le (by
          rw [programHeaders_length]
          exact not_lt.mp inside)
        rw [unfolded, none]
        exact .inl ⟨rfl, trivial, state⟩

/-- `process_map_elf` maps the regions of all headers, or fails. -/
theorem processMapElf_mapped (paging : start.machine.PagingSound)
    (has : start.machine.HasChunk (start.chunkOf process) directory)
    (harmless : HeadersHarmless process (start.elfFileAt (start.processAt process).p)
      (programHeaders start.machine.memory
        (elfHeader (start.elfFileAt (start.processAt process).p))) start.machine) :
    let file := start.elfFileAt (start.processAt process).p
    let placed := placeHeaders process file
      (programHeaders start.machine.memory (elfHeader file)) start.machine
    ((start.processMapElf process).1 = 0 ∧
      HeadersAccepted process file (programHeaders start.machine.memory (elfHeader file))
        start.machine ∧
      start.MappingState process directory (start.processMapElf process).2 placed.2
        ((directory.space start.machine.memory).mapAll placed.1)) ∨
    ((start.processMapElf process).1 < 0 ∧
      ¬ HeadersAccepted process file (programHeaders start.machine.memory (elfHeader file))
        start.machine ∧
      ∃ machine space,
        start.MappingState process directory (start.processMapElf process).2 machine space) := by
  have enough := (ePhnum start.machine.memory
    (elfHeader (start.elfFileAt (start.processAt process).p))).isLt
  unfold processMapElf
  refine (MappingState.refl paging has).mapElfLoop image ?_ harmless
  rw [Nat.zero_add]
  exact enough.le

end Run

/-! The regions of a whole program. -/

/-- The region of a flat binary. -/
def binaryRegion (process : Process) : PageRegion where
  start := phixProgramVirtualAddress
  frame := process.p
  flags := flagWord userFlags
  pages := mapToPages process.p (pageAlign (process.p + process.size))

/-- The region of the user stack. -/
def stackRegion (process : Process) : PageRegion where
  start := phixProgramVirtualStackAddressEnd
  frame := process.stack
  flags := flagWord userFlags
  pages := mapToPages process.stack (pageAlign (process.stack + phixUserProgramStackSize))

/-- The regions that `process_map_memory` maps, and the machine after the allocation of their
buffers. -/
def memoryRegions (kernel : Kernel) (process : Word) : List PageRegion × Machine :=
  let record := kernel.processAt process
  let file := kernel.elfFileAt record.p
  let (regions, machine) :=
    if record.filetype = processFiletypeElf then
      placeHeaders process file (programHeaders kernel.machine.memory (elfHeader file))
        kernel.machine
    else ([binaryRegion record], kernel.machine)
  (regions ++ [stackRegion record], machine)

/-- The program is a flat binary, or an ELF image whose buffers are requested without harm. -/
def Program (kernel : Kernel) (process size : Word) : Prop :=
  (kernel.processAt process).filetype = processFiletypeBinary ∨
    (kernel.processAt process).filetype = processFiletypeElf ∧ kernel.ElfImage process size ∧
      HeadersHarmless process (kernel.elfFileAt (kernel.processAt process).p)
        (programHeaders kernel.machine.memory
          (elfHeader (kernel.elfFileAt (kernel.processAt process).p))) kernel.machine

/-- When `process_map_memory` succeeds, the task's address space is the one it had with the
regions of the program mapped. -/
theorem processMapMemory_mapped {start next : Kernel} {process size : Word}
    {directory : PageDirectory} (paging : start.machine.PagingSound)
    (has : start.machine.HasChunk (start.chunkOf process) directory)
    (program : start.Program process size)
    (mapped : start.processMapMemory process = some (0, next)) :
    start.MappingState process directory next (start.memoryRegions process).2
      ((directory.space start.machine.memory).mapAll (start.memoryRegions process).1) ∧
    ∀ region ∈ (start.memoryRegions process).1, region.Aligned := by
  -- The last step maps the stack.
  have finish : ∀ {middle : Kernel} {machine : Machine} {regions : List PageRegion},
      start.MappingState process directory middle machine
        ((directory.space start.machine.memory).mapAll regions) →
      (∀ region ∈ regions, region.Aligned) →
      middle.mapTo process phixProgramVirtualStackAddressEnd (middle.processAt process).stack
        (pageAlign ((middle.processAt process).stack + phixUserProgramStackSize)) userFlags =
          (0, next) →
      start.MappingState process directory next machine
        ((directory.space start.machine.memory).mapAll
        (regions ++ [stackRegion (start.processAt process)])) ∧
      ∀ region ∈ regions ++ [stackRegion (start.processAt process)], region.Aligned := by
    intro middle machine regions state aligned result
    have stack : (middle.processAt process).stack = (start.processAt process).stack := by
      rw [state.record, Function.update_self]
    rw [stack] at result
    rcases state.mapTo phixProgramVirtualStackAddressEnd (start.processAt process).stack
      (pageAlign ((start.processAt process).stack + phixUserProgramStackSize)) userFlags with
      ⟨accepts, _, mapped⟩ | ⟨_, status, _⟩
    · rw [result] at mapped
      rw [AddressSpace.mapAll_concat]
      refine ⟨mapped, fun region member => ?_⟩
      rcases List.mem_append.mp member with earlier | last
      · exact aligned region earlier
      · rw [List.mem_singleton.mp last]
        exact ⟨accepts.1, accepts.2.1, flagWord_lt _⟩
    · rw [result] at status
      exact absurd status (lt_irrefl 0)
  unfold processMapMemory at mapped
  unfold memoryRegions
  rcases program with binary | ⟨elf, image, harmless⟩
  · have other : processFiletypeBinary ≠ processFiletypeElf := by decide
    simp only [binary, other, if_true, if_false, Option.bind_eq_bind, Option.bind_some] at mapped ⊢
    have state := MappingState.refl paging has
    rcases state.mapTo phixProgramVirtualAddress (start.processAt process).p
      (pageAlign ((start.processAt process).p + (start.processAt process).size)) userFlags with
      ⟨accepts, status, state⟩ | ⟨_, status, _⟩
    · have status : ¬ (start.processMapBinary process).1 < 0 := by
        have status : (start.processMapBinary process).1 = 0 := status
        rw [status]
        decide
      rw [if_neg status, Option.some_inj] at mapped
      have state : start.MappingState process directory (start.processMapBinary process).2
        start.machine ((directory.space start.machine.memory).mapAll
          [binaryRegion (start.processAt process)]) := state
      refine finish state (fun region member => ?_) mapped
      rw [List.mem_singleton.mp member]
      exact ⟨accepts.1, accepts.2.1, flagWord_lt _⟩
    · have status : (start.processMapBinary process).1 < 0 := status
      rw [if_pos status, Option.some_inj] at mapped
      have zero : (start.processMapBinary process).1 = 0 := congrArg Prod.fst mapped
      exact absurd status (by rw [zero]; decide)
  · simp only [elf, if_true, Option.bind_eq_bind, Option.bind_some] at mapped ⊢
    rcases processMapElf_mapped image paging has harmless with ⟨status, _, state⟩ | ⟨status, _⟩
    · rw [if_neg (by rw [status]; decide), Option.some_inj] at mapped
      exact finish state (placeHeaders_aligned _ _ _ _) mapped
    · rw [if_pos status, Option.some_inj] at mapped
      have zero : (start.processMapElf process).1 = 0 := congrArg Prod.fst mapped
      exact absurd status (by rw [zero]; decide)

/-- All bounds that `process_map_memory` passes on are in order. -/
structure ProgramAccepted (kernel : Kernel) (process : Word) : Prop where
  binary : (kernel.processAt process).filetype = processFiletypeBinary →
    MapToAccepts phixProgramVirtualAddress (kernel.processAt process).p
      (pageAlign ((kernel.processAt process).p + (kernel.processAt process).size))
  elf : (kernel.processAt process).filetype = processFiletypeElf →
    HeadersAccepted process (kernel.elfFileAt (kernel.processAt process).p)
      (programHeaders kernel.machine.memory
        (elfHeader (kernel.elfFileAt (kernel.processAt process).p))) kernel.machine
  stack : MapToAccepts phixProgramVirtualStackAddressEnd (kernel.processAt process).stack
    (pageAlign ((kernel.processAt process).stack + phixUserProgramStackSize))

/-- Then `process_map_memory` succeeds. -/
theorem processMapMemory_some {start : Kernel} {process size : Word} {directory : PageDirectory}
    (paging : start.machine.PagingSound)
    (has : start.machine.HasChunk (start.chunkOf process) directory)
    (program : start.Program process size) (accepted : start.ProgramAccepted process) :
    ∃ next, start.processMapMemory process = some (0, next) := by
  have finish : ∀ {middle : Kernel} {machine : Machine} {space : AddressSpace},
      start.MappingState process directory middle machine space →
      ∃ next, middle.mapTo process phixProgramVirtualStackAddressEnd
        (middle.processAt process).stack
        (pageAlign ((middle.processAt process).stack + phixUserProgramStackSize)) userFlags =
          (0, next) := by
    intro middle machine space state
    have stack : (middle.processAt process).stack = (start.processAt process).stack := by
      rw [state.record, Function.update_self]
    rw [stack]
    rcases state.mapTo phixProgramVirtualStackAddressEnd (start.processAt process).stack
      (pageAlign ((start.processAt process).stack + phixUserProgramStackSize)) userFlags with
      ⟨_, status, _⟩ | ⟨refuses, _⟩
    · exact ⟨_, Prod.ext status rfl⟩
    · exact absurd accepted.stack refuses
  unfold processMapMemory
  rcases program with binary | ⟨elf, image, harmless⟩
  · have other : processFiletypeBinary ≠ processFiletypeElf := by decide
    simp only [binary, other, if_true, if_false, Option.bind_eq_bind, Option.bind_some]
    rcases (MappingState.refl paging has).mapTo phixProgramVirtualAddress
      (start.processAt process).p
      (pageAlign ((start.processAt process).p + (start.processAt process).size)) userFlags with
      ⟨_, status, state⟩ | ⟨refuses, _⟩
    · have status : (start.processMapBinary process).1 = 0 := status
      obtain ⟨next, result⟩ := finish state
      rw [if_neg (by rw [status]; decide)]
      exact ⟨next, congrArg some result⟩
    · exact absurd (accepted.binary binary) refuses
  · simp only [elf, if_true, Option.bind_eq_bind, Option.bind_some]
    rcases processMapElf_mapped image paging has harmless with ⟨status, _, state⟩ | ⟨_, refuses, _⟩
    · obtain ⟨next, result⟩ := finish state
      rw [if_neg (by rw [status]; decide)]
      exact ⟨next, congrArg some result⟩
    · exact absurd (accepted.elf elf) refuses

end Kernel

end Phix
