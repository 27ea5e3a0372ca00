import Phix.Loader.Reads
import Phix.Task.Start

/-! # The ELF parser and the end of the file

The loop of `process_map_elf` once more, as a computation that asks for the bytes it looks at, and
what the whole parser reads of an image of which `size` bytes are the file (`Phix.StaysInside`).
It stays in the file exactly when the file reaches as far as it says itself (`Phix.FileFits`).
-/

namespace Phix

theorem pagingMapTo_status (memory : ByteMemory) (chunk vaddr paddr pend : Word) (flags : Byte) :
    (pagingMapTo memory chunk vaddr paddr pend flags).1 =
      if MapToAccepts vaddr paddr pend then 0 else -EINVAL := by
  by_cases accepts : MapToAccepts vaddr paddr pend
  · rw [if_pos accepts, pagingMapTo_accepted memory chunk accepts]
    rfl
  · rw [if_neg accepts, pagingMapTo_refused memory chunk accepts]

/-- `paging_map_to` accepts the bounds of a program header whose bytes are placed at `paddr`. -/
def SegmentMaps (phdr : Elf32Phdr) (paddr : Word) : Prop :=
  MapToAccepts (pageAlignLower phdr.pVaddr) (pageAlignLower paddr)
    (pageAlign (paddr + phdr.pMemsz))

instance (phdr : Elf32Phdr) (paddr : Word) : Decidable (SegmentMaps phdr paddr) :=
  inferInstanceAs (Decidable (MapToAccepts _ _ _))

def segmentStatus (phdr : Elf32Phdr) (paddr : Word) : Int :=
  if SegmentMaps phdr paddr then 0 else -EINVAL

theorem segmentStatus_nonneg_iff (phdr : Elf32Phdr) (paddr : Word) :
    ¬ segmentStatus phdr paddr < 0 ↔ SegmentMaps phdr paddr := by
  unfold segmentStatus
  split
  · rename_i maps
    exact iff_of_true (lt_irrefl 0) maps
  · rename_i refused
    exact iff_of_false (not_not.mpr (show (-EINVAL : Int) < 0 by decide)) refused

/-- What the heap can answer to a request. -/
def HeapAnswer (p : Word) : Prop := p = null ∨ ∃ s < 25600, p = poolBlock s

theorem Machine.kzalloc_heapAnswer (machine : Machine) (owner : Owner) (size : Word) :
    HeapAnswer (machine.kzalloc owner size).1 := machine.kmalloc_poolBlock owner size

/-- The status of the body of the loop of `process_map_elf` by what `kzalloc` answers. -/
def mapPhdrStatus (image : Word) (kzalloc : Word → Word) (phdr : Elf32Phdr) : Int :=
  if phdr.pFilesz = 0 then
    if kzalloc (pageAlign phdr.pMemsz) = null then -ENOMEM
    else segmentStatus phdr (kzalloc (pageAlign phdr.pMemsz))
  else segmentStatus phdr (image + phdr.pOffset)

/-- The loop can go on after the header. -/
def PhdrMaps (image : Word) (phdr : Elf32Phdr) : Prop :=
  if phdr.pFilesz = 0 then ∃ s < 25600, SegmentMaps phdr (poolBlock s)
  else SegmentMaps phdr (image + phdr.pOffset)

theorem PhdrMaps.of_status {image : Word} {kzalloc : Word → Word} {phdr : Elf32Phdr}
    (answer : HeapAnswer (kzalloc (pageAlign phdr.pMemsz)))
    (passed : ¬ mapPhdrStatus image kzalloc phdr < 0) : PhdrMaps image phdr := by
  unfold mapPhdrStatus at passed
  unfold PhdrMaps
  by_cases bss : phdr.pFilesz = 0
  · rw [if_pos bss] at passed ⊢
    rcases answer with refused | ⟨s, inside, same⟩
    · rw [if_pos refused] at passed
      exact absurd (show (-ENOMEM : Int) < 0 by decide) passed
    · rw [same, if_neg (poolBlock_ne_null inside), segmentStatus_nonneg_iff] at passed
      exact ⟨s, inside, passed⟩
  · rw [if_neg bss] at passed ⊢
    exact (segmentStatus_nonneg_iff _ _).mp passed

theorem PhdrMaps.exists_answer (image : Word) (phdr : Elf32Phdr) :
    ∃ p, HeapAnswer p ∧ (PhdrMaps image phdr → ¬ mapPhdrStatus image (fun _ => p) phdr < 0) := by
  unfold PhdrMaps mapPhdrStatus
  by_cases bss : phdr.pFilesz = 0
  · simp only [bss, if_true]
    by_cases some : ∃ s < 25600, SegmentMaps phdr (poolBlock s)
    · obtain ⟨s, inside, maps⟩ := some
      refine ⟨poolBlock s, .inr ⟨s, inside, rfl⟩, fun _ => ?_⟩
      rw [if_neg (poolBlock_ne_null inside)]
      exact (segmentStatus_nonneg_iff _ _).mpr maps
    · exact ⟨null, .inl rfl, fun maps => absurd maps some⟩
  · simp only [bss, if_false]
    exact ⟨null, .inl rfl, (segmentStatus_nonneg_iff _ _).mpr⟩

namespace Reads

/-- The call of `paging_map_to` at the end of the body of the loop. -/
def mapSegment (phdr phdrPaddr : Word) : Bytes Int := do
  let vaddr ← pVaddr phdr
  let memsz ← pMemsz phdr
  let status :=
    if MapToAccepts (pageAlignLower vaddr) (pageAlignLower phdrPaddr)
      (pageAlign (phdrPaddr + memsz)) then 0 else -EINVAL
  return status

/-- The body of the loop of `process_map_elf`, for the header with index `i`. What `kzalloc`
answers to a request in this round is a parameter. -/
def mapPhdr (file : ElfFile) (kzalloc : Word → Word) (i : ℕ) : Bytes Int := do
  let phdr ← elfProgramHeader (elfHeader file) i
  let offset ← pOffset phdr
  let _flags ← pFlags phdr
  let filesz ← pFilesz phdr
  if filesz = 0 then
    let request ← pMemsz phdr
    let p := kzalloc (pageAlign request)
    if p = null then return -ENOMEM
    else
      let _size ← pMemsz phdr
      mapSegment phdr p
  else mapSegment phdr (file.elfMemory + offset)

/-- The loop of `process_map_elf` from the header with index `i` on. -/
def processMapElf.loop (file : ElfFile) (kzalloc : ℕ → Word → Word) : ℕ → ℕ → Bytes Int
  | 0, _ => return 0
  | rounds + 1, i => do
      let count ← ePhnum (elfHeader file)
      if i < count.toNat then
        let ret ← mapPhdr file (kzalloc i) i
        if ret < 0 then return ret else loop file kzalloc rounds (i + 1)
      else return 0

def processMapElf (file : ElfFile) (kzalloc : ℕ → Word → Word) : Bytes Int :=
  processMapElf.loop file kzalloc (2 ^ 16) 0

section Value

variable (memory : ByteMemory) (file : ElfFile)

@[simp]
theorem mapSegment_value (phdr phdrPaddr : Word) : (mapSegment phdr phdrPaddr).value memory =
    segmentStatus (elf32PhdrAt memory phdr) phdrPaddr := by
  simp only [mapSegment, pVaddr, pMemsz, Reading.value_bind, Reading.value_pure, load32_value]
  rfl

theorem mapPhdr_value (kzalloc : Word → Word) (i : ℕ) :
    (mapPhdr file kzalloc i).value memory = mapPhdrStatus file.elfMemory kzalloc
      (elf32PhdrAt memory (Phix.elfProgramHeader memory file.elfMemory i)) := by
  simp only [mapPhdr, pOffset, pFlags, pFilesz, pMemsz, Reading.value_bind, Reading.value_ite,
    Reading.value_pure, elfProgramHeader_value, load32_value, mapSegment_value]
  rfl

end Value

section Within

variable {memory : ByteMemory} {file : ElfFile} {size : Word} (room : size.toNat + 32 ≤ 2 ^ 32)
  (header : 46 ≤ size.toNat)

include room header

/-- The flags, the last field of a header, are always read. -/
theorem mapPhdr_within (kzalloc : Word → Word) {i : ℕ}
    (near : phdrPosition memory file.elfMemory i + 32 ≤ 2 ^ 32) :
    (mapPhdr file kzalloc i).Within (InImage file.elfMemory size) memory ↔
      phdrPosition memory file.elfMemory i + 28 ≤ size.toNat := by
  have table : (elfProgramHeader (elfHeader file) i).Within (InImage file.elfMemory size) memory :=
    elfProgramHeader_within room header i
  have place := elfProgramHeader_value memory (elfHeader file) i
  unfold mapPhdr
  rw [Reading.within_bind, and_iff_right table]
  generalize (elfProgramHeader (elfHeader file) i).value memory = phdr at place ⊢
  have position : phdrPosition memory file.elfMemory i = (phdr - file.elfMemory).toNat := by
    rw [place]
    rfl
  rw [position] at near ⊢
  have field : ∀ c : Word, c.toNat ≤ 28 →
      ((load32 (phdr + c)).Within (InImage file.elfMemory size) memory ↔
        (phdr - file.elfMemory).toNat + c.toNat + 4 ≤ size.toNat) := fun c small =>
    load32_within room c small (.inr near)
  have flags : (pFlags phdr).Within (InImage file.elfMemory size) memory ↔
      (phdr - file.elfMemory).toNat + 28 ≤ size.toNat := field 24 (by decide)
  constructor
  · intro within
    simp only [Reading.within_bind] at within
    exact flags.mp within.2.1
  · intro inside
    have read : ∀ c : Word, c.toNat ≤ 24 →
        (load32 (phdr + c)).Within (InImage file.elfMemory size) memory := fun c small =>
      (field c (by omega)).mpr (by omega)
    have offset : (pOffset phdr).Within (InImage file.elfMemory size) memory := read 4 (by decide)
    have vaddr : (pVaddr phdr).Within (InImage file.elfMemory size) memory := read 8 (by decide)
    have filesz : (pFilesz phdr).Within (InImage file.elfMemory size) memory := read 16 (by decide)
    have memsz : (pMemsz phdr).Within (InImage file.elfMemory size) memory := read 20 (by decide)
    simp only [mapSegment, Reading.within_bind, Reading.within_ite, Reading.within_pure, offset,
      flags.mpr inside, filesz, memsz, vaddr, implies_true, and_self]

/-- The loop reads the headers that it gets to. -/
theorem processMapElf_loop_within (kzalloc : ℕ → Word → Word) {rounds i : ℕ}
    (enough : (Phix.ePhnum memory file.elfMemory).toNat ≤ i + rounds)
    (near : ∀ k < (Phix.ePhnum memory file.elfMemory).toNat,
      phdrPosition memory file.elfMemory k + 32 ≤ 2 ^ 32) :
    (processMapElf.loop file kzalloc rounds i).Within (InImage file.elfMemory size) memory ↔
      Searches.Reached (fun k => ¬ (mapPhdr file (kzalloc k) k).value memory < 0)
        (fun k => phdrPosition memory file.elfMemory k + 28 ≤ size.toNat) i
        (Phix.ePhnum memory file.elfMemory).toNat := by
  have within : (ePhnum (elfHeader file)).Within (InImage file.elfMemory size) memory :=
    ePhnum_within room header
  have counted : ((ePhnum (elfHeader file)).value memory).toNat =
      (Phix.ePhnum memory file.elfMemory).toNat :=
    congrArg BitVec.toNat (load16_value memory (file.elfMemory + 44))
  have none : ∀ i, (Phix.ePhnum memory file.elfMemory).toNat ≤ i →
      Searches.Reached (fun k => ¬ (mapPhdr file (kzalloc k) k).value memory < 0)
        (fun k => phdrPosition memory file.elfMemory k + 28 ≤ size.toNat) i
        (Phix.ePhnum memory file.elfMemory).toNat := fun i beyond j lower upper => by omega
  induction rounds generalizing i with
  | zero => exact iff_of_true (Reading.within_pure _) (none i (by omega))
  | succ rounds ih =>
      simp only [processMapElf.loop, Reading.within_bind, within, true_and, Reading.within_ite,
        counted, Reading.within_pure, implies_true, and_true]
      by_cases inside : i < (Phix.ePhnum memory file.elfMemory).toNat
      · simp only [inside, true_implies, mapPhdr_within room header (kzalloc i) (near i inside)]
        have left : (Phix.ePhnum memory file.elfMemory).toNat ≤ i + 1 + rounds := by omega
        have rest : _ ↔ _ := ih left
        rw [Searches.reached_step inside, rest]
      · exact iff_of_true (fun here => absurd here inside) (none i (not_lt.mp inside))

end Within

/-! What the loader makes of the header. -/

/-- The loader knows the identification, and there are program headers. -/
def Recognised (memory : ByteMemory) (image : Word) : Prop :=
  (∀ k < 6, IdentAccepts k (memory (image + BitVec.ofNat 32 k))) ∧ Phix.ePhoff memory image ≠ 0

theorem recognised_iff (memory : ByteMemory) (image : Word) : Recognised memory image ↔
    Phix.elfValidSignature memory image = true ∧ Phix.elfValidClass memory image = true ∧
      Phix.elfValidEncoding memory image = true ∧
      Phix.elfHasProgramHeader memory image = true := by
  have ident : (∀ k < 6, IdentAccepts k (memory (image + BitVec.ofNat 32 k))) ↔
      Phix.elfValidSignature memory image = true ∧ Phix.elfValidClass memory image = true ∧
        Phix.elfValidEncoding memory image = true := by
    simp only [Nat.forall_lt_succ_right, Nat.not_lt_zero, false_implies, implies_true, true_and,
      Phix.elfValidSignature, Phix.elfValidClass, Phix.elfValidEncoding, decide_eq_true_eq,
      and_assoc]
    exact Iff.rfl
  have table : Phix.elfHasProgramHeader memory image = true ↔ Phix.ePhoff memory image ≠ 0 :=
    decide_eq_true_iff
  rw [Recognised, ident, table, and_assoc, and_assoc]

theorem elfValidateLoad_nonneg_iff (memory : ByteMemory) (image : Word) :
    ¬ Phix.elfValidateLoad memory image < 0 ↔ Recognised memory image := by
  rw [recognised_iff]
  unfold Phix.elfValidateLoad
  split
  · rename_i invalid
    exact iff_of_false (not_not.mpr (show (-EBADFORMAT : Int) < 0 by decide)) invalid
  · rename_i valid
    exact iff_of_true (lt_irrefl 0) (not_not.mp valid)

theorem elfProcessLoaded_nonneg_iff (memory : ByteMemory) (file : ElfFile) :
    ¬ (Phix.elfProcessLoaded memory file).1 < 0 ↔ Recognised memory file.elfMemory ∧
      ∀ phdr ∈ programHeaders memory file.elfMemory, phdr.pType = ptLoad := by
  constructor
  · intro done
    refine ⟨(elfValidateLoad_nonneg_iff memory file.elfMemory).mp fun invalid => done ?_,
      (elfProcessLoaded_accepted done).segments⟩
    unfold Phix.elfProcessLoaded
    dsimp only
    rw [if_pos (show Phix.elfValidateLoad memory (elfHeader file) < 0 from invalid)]
    exact invalid
  · rintro ⟨known, loads⟩
    obtain ⟨signature, format, encoding, hasTable⟩ := (recognised_iff _ _).mp known
    have accepted : Accepted memory file.elfMemory :=
      ⟨of_decide_eq_true format, of_decide_eq_true encoding, known.2, loads⟩
    rw [accepted.elfProcessLoaded signature]
    exact lt_irrefl 0

section Parser

variable {memory : ByteMemory} {image size : Word} (room : size.toNat + 32 ≤ 2 ^ 32)

theorem size_of_ePhnum_within (within : (ePhnum image).Within (InImage image size) memory) :
    46 ≤ size.toNat := by
  simp only [ePhnum, load16, Reading.within_bind, Reading.within_cell] at within
  have last := within.2.1
  rw [InImage, BitVec.add_assoc, add_sub_cancel_left] at last
  exact last

include room

/-- What `elf_process_loaded` reads. -/
theorem elfProcessLoaded_within {file : ElfFile} (place : file.elfMemory = image) :
    (elfProcessLoaded file).Within (InImage image size) memory ↔
      ((∀ k < 6, k < size.toNat → IdentAccepts k (memory (image + BitVec.ofNat 32 k))) →
        32 ≤ size.toNat) ∧
      (Recognised memory image → 46 ≤ size.toNat ∧
        Searches.Ends (PhdrPasses memory image size) (PhdrRejected memory image size) 0
          (Phix.ePhnum memory image).toNat) := by
  have bound := (Phix.ePhnum memory image).isLt
  have header : elfHeader file = image := place
  have ident : (elfValidateLoad image).Within (InImage image size) memory ↔
      ((∀ k < 6, k < size.toNat → IdentAccepts k (memory (image + BitVec.ofNat 32 k))) →
        32 ≤ size.toNat) := by
    rw [elfValidateLoad_within room]
    constructor
    · rintro (enough | ⟨k, small, inside, wrong⟩) right
      · exact enough
      · exact absurd (right k small inside) wrong
    · intro enough
      by_contra neither
      rw [not_or] at neither
      refine neither.1 (enough fun k small inside => ?_)
      by_contra wrong
      exact neither.2 ⟨k, small, inside, wrong⟩
  have table : (elfProcessPheaders file).Within (InImage image size) memory ↔
      46 ≤ size.toNat ∧
        Searches.Ends (PhdrPasses memory image size) (PhdrRejected memory image size) 0
          (Phix.ePhnum memory image).toNat := by
    have loop : 46 ≤ size.toNat →
        ((elfProcessPheaders file).Within (InImage image size) memory ↔ _) := fun enough =>
      elfProcessPheaders_loop_within room enough bound place (Nat.zero_add _).symm
    constructor
    · intro within
      have first : (ePhnum (elfHeader file)).Within (InImage image size) memory :=
        ((Reading.within_bind _ _).mp within).1
      rw [header] at first
      have enough := size_of_ePhnum_within first
      exact ⟨enough, (loop enough).mp within⟩
    · rintro ⟨enough, ends⟩
      exact (loop enough).mpr ends
  simp only [elfProcessLoaded, header, Reading.within_bind, Reading.within_ite, ident,
    Reading.within_pure, implies_true, true_and, elfValidateLoad_value,
    elfValidateLoad_nonneg_iff, table]

end Parser

end Reads

/-! The loop of the kernel is the one that is read here. -/

namespace Kernel

theorem mapPhdr_status (kernel : Kernel) (process elfFile header : Word) (i : ℕ) :
    (kernel.mapPhdr process elfFile header i).1 =
      mapPhdrStatus (kernel.elfFileAt elfFile).elfMemory
        (fun size => (kernel.kzalloc (.bss process) size).1)
        (elf32PhdrAt kernel.machine.memory
          (elfProgramHeader kernel.machine.memory header i)) := by
  unfold mapPhdr mapPhdrStatus mapTo
  dsimp only
  generalize elf32PhdrAt kernel.machine.memory
    (elfProgramHeader kernel.machine.memory header i) = phdr
  split
  · split
    · rfl
    · exact pagingMapTo_status ..
  · exact pagingMapTo_status ..

/-- The kernel after the body of the loop of `process_map_elf` for the first headers. -/
def afterPhdrs (kernel : Kernel) (process elfFile header : Word) : ℕ → Kernel
  | 0 => kernel
  | i + 1 => ((kernel.afterPhdrs process elfFile header i).mapPhdr process elfFile header i).2

/-- What the heap answers in each round. -/
def bssAnswers (kernel : Kernel) (process elfFile header : Word) (i : ℕ) (size : Word) : Word :=
  ((kernel.afterPhdrs process elfFile header i).kzalloc (.bss process) size).1

theorem bssAnswers_heapAnswer (kernel : Kernel) (process elfFile header : Word) (i : ℕ)
    (size : Word) : HeapAnswer (kernel.bssAnswers process elfFile header i size) :=
  Machine.kzalloc_heapAnswer _ (.bss process) size

section Run

variable {start : Kernel} {process size : Word} {directory : PageDirectory}
  (image : start.ElfImage process size)

include image

theorem MappingState.loop_status {machine : Machine} {space : AddressSpace} {rounds i : ℕ}
    (state : start.MappingState process directory (start.afterPhdrs process
      (start.processAt process).p (elfHeader (start.elfFileAt (start.processAt process).p)) i)
      machine space)
    (harmless : HeadersHarmless process (start.elfFileAt (start.processAt process).p)
      ((programHeaders start.machine.memory
        (elfHeader (start.elfFileAt (start.processAt process).p))).drop i) machine) :
    let elfFile := (start.processAt process).p
    let file := start.elfFileAt elfFile
    (processMapElf.loop process elfFile (elfHeader file) rounds i
      (start.afterPhdrs process elfFile (elfHeader file) i)).1 =
    (Reads.processMapElf.loop file (start.bssAnswers process elfFile (elfHeader file))
      rounds i).value start.machine.memory := by
  intro elfFile file
  induction rounds generalizing i machine space with
  | zero => exact (Reading.value_pure _).symm
  | succ rounds ih =>
      obtain ⟨count, headers⟩ := state.headers image
      have counted : ((Reads.ePhnum (elfHeader file)).value start.machine.memory).toNat =
          (ePhnum start.machine.memory (elfHeader file)).toNat :=
        congrArg BitVec.toNat (Reads.load16_value _ _)
      rw [processMapElf.loop_succ, count]
      simp only [Reads.processMapElf.loop, Reading.value_bind, Reading.value_ite,
        Reading.value_pure, counted, Reads.mapPhdr_value]
      by_cases inside : i < (ePhnum start.machine.memory (elfHeader file)).toNat
      · rw [if_pos inside, if_pos inside]
        have same := mapPhdr_status (start.afterPhdrs process elfFile (elfHeader file) i) process
          elfFile (elfHeader file) i
        rw [headers i inside, state.elfFileAt] at same
        change _ = mapPhdrStatus file.elfMemory
          (start.bssAnswers process elfFile (elfHeader file) i)
          (elf32PhdrAt start.machine.memory
            (elfProgramHeader start.machine.memory file.elfMemory i)) at same
        rw [← same]
        split
        · rfl
        · rw [programHeaders_drop inside] at harmless
          obtain ⟨first, rest⟩ := harmless
          rcases state.mapPhdr elfFile (elfHeader file) i (headers i inside) first with
            ⟨_, _, mapped⟩ | ⟨_, _, mapped⟩
          · exact ih mapped rest
          · exact ih mapped rest
      · rw [if_neg inside, if_neg inside]

/-- The status of `process_map_elf` is the one that is read. -/
theorem processMapElf_status (paging : start.machine.PagingSound)
    (has : start.machine.HasChunk (start.chunkOf process) directory)
    (harmless : HeadersHarmless process (start.elfFileAt (start.processAt process).p)
      (programHeaders start.machine.memory
        (elfHeader (start.elfFileAt (start.processAt process).p))) start.machine) :
    (start.processMapElf process).1 =
      (Reads.processMapElf (start.elfFileAt (start.processAt process).p)
        (start.bssAnswers process (start.processAt process).p
          (elfHeader (start.elfFileAt (start.processAt process).p)))).value
        start.machine.memory := by
  unfold processMapElf
  exact MappingState.loop_status image (MappingState.refl paging has) harmless

end Run

end Kernel

/-! What the claims of a file are, and what follows from them. -/

/-- The parser reads the file only, and what it accepts of the file lies in it. -/
structure StaysInside (memory : ByteMemory) (file : ElfFile) (size : Word) : Prop where
  parse : (Reads.elfProcessLoaded file).Within (Reads.InImage file.elfMemory size) memory
  map : ¬ (elfProcessLoaded memory file).1 < 0 → ∀ kzalloc,
    (∀ i size, HeapAnswer (kzalloc i size)) →
    (Reads.processMapElf (elfProcessLoaded memory file).2 kzalloc).Within
      (Reads.InImage file.elfMemory size) memory
  segments : ¬ (elfProcessLoaded memory file).1 < 0 →
    ∀ phdr ∈ programHeaders memory file.elfMemory, phdr.pType = ptLoad →
      phdr.pOffset.toNat + phdr.pFilesz.toNat ≤ size.toNat

/-- The file reaches as far as its header, its program headers and its segments say. -/
structure FileFits (memory : ByteMemory) (image size : Word) : Prop where
  ident : (∀ k < 6, k < size.toNat → Reads.IdentAccepts k (memory (image + BitVec.ofNat 32 k))) →
    32 ≤ size.toNat
  table : Reads.Recognised memory image → 46 ≤ size.toNat ∧
    Searches.Ends (Reads.PhdrPasses memory image size) (Reads.PhdrRejected memory image size) 0
      (ePhnum memory image).toNat
  flags : Reads.Recognised memory image →
    (∀ phdr ∈ programHeaders memory image, phdr.pType = ptLoad) →
    Searches.Reached
      (fun i => PhdrMaps image (elf32PhdrAt memory (elfProgramHeader memory image i)))
      (fun i => Reads.phdrPosition memory image i + 28 ≤ size.toNat) 0 (ePhnum memory image).toNat
  segments : Reads.Recognised memory image →
    (∀ phdr ∈ programHeaders memory image, phdr.pType = ptLoad) →
    ∀ phdr ∈ programHeaders memory image, phdr.pOffset.toNat + phdr.pFilesz.toNat ≤ size.toNat

/-- What `process_map_elf` reads of an image that was accepted, whatever the heap answers. -/
theorem processMapElf_within {memory : ByteMemory} {file : ElfFile} {image size : Word}
    (place : file.elfMemory = image) (room : size.toNat + 32 ≤ 2 ^ 32) (header : 46 ≤ size.toNat)
    (inside : ∀ i < (ePhnum memory image).toNat,
      Reads.phdrPosition memory image i + 24 ≤ size.toNat) :
    (∀ kzalloc, (∀ i size, HeapAnswer (kzalloc i size)) →
      (Reads.processMapElf file kzalloc).Within (Reads.InImage image size) memory) ↔
    Searches.Reached
      (fun i => PhdrMaps image (elf32PhdrAt memory (elfProgramHeader memory image i)))
      (fun i => Reads.phdrPosition memory image i + 28 ≤ size.toNat) 0
      (ePhnum memory image).toNat := by
  subst place
  have bound := (ePhnum memory file.elfMemory).isLt
  have near : ∀ i < (ePhnum memory file.elfMemory).toNat,
      Reads.phdrPosition memory file.elfMemory i + 32 ≤ 2 ^ 32 := fun i below => by
    have position := inside i below
    omega
  have rounds : (ePhnum memory file.elfMemory).toNat ≤ 0 + 2 ^ 16 := by omega
  have reads : ∀ kzalloc, _ ↔ _ := fun kzalloc =>
    Reads.processMapElf_loop_within room header kzalloc rounds near
  simp only [Reads.mapPhdr_value] at reads
  constructor
  · intro within
    have possible := fun i => PhdrMaps.exists_answer file.elfMemory
      (elf32PhdrAt memory (elfProgramHeader memory file.elfMemory i))
    choose answer valid passes using possible
    have reached := (reads fun i _ => answer i).mp (within _ fun i _ => valid i)
    exact reached.mono fun i _ => passes i
  · intro reached kzalloc answers
    exact (reads kzalloc).mpr (reached.mono fun i _ => PhdrMaps.of_status (answers i _))

/-- When every header is a `PT_LOAD`, the loop of `elf_process_pheaders` passes over them all. -/
theorem passes_of_ends {memory : ByteMemory} {image size : Word}
    (loads : ∀ phdr ∈ programHeaders memory image, phdr.pType = ptLoad)
    (ends : Searches.Ends (Reads.PhdrPasses memory image size)
      (Reads.PhdrRejected memory image size) 0 (ePhnum memory image).toNat) :
    ∀ i < (ePhnum memory image).toNat, Reads.phdrPosition memory image i + 24 ≤ size.toNat := by
  intro i below
  rcases ends with ⟨j, _, upper, ⟨other, _⟩, _⟩ | all
  · exact absurd (loads _ (List.mem_map.mpr ⟨j, List.mem_range.mpr upper, rfl⟩)) other
  · exact (all i (Nat.zero_le i) below).2

theorem Reads.phdrPosition_eq {memory : ByteMemory} {image : Word}
    (hasTable : Phix.ePhoff memory image ≠ 0) {i : ℕ}
    (small : (Phix.ePhoff memory image).toNat + 32 * i < 2 ^ 32) :
    phdrPosition memory image i = (Phix.ePhoff memory image).toNat + 32 * i := by
  have offset := headerOffset_toNat (i := i) (by omega)
  unfold phdrPosition Phix.elfProgramHeader Phix.elfPheaders
  rw [if_neg hasTable, BitVec.add_assoc, add_sub_cancel_left, BitVec.toNat_add, offset,
    Nat.mod_eq_of_lt small]

/-- A file that holds its tables and its segments fits. -/
theorem FileFits.of_complete {memory : ByteMemory} {image size : Word} (header : 52 ≤ size.toNat)
    (table : (ePhoff memory image).toNat + 32 * (ePhnum memory image).toNat ≤ size.toNat)
    (segments : ∀ phdr ∈ programHeaders memory image,
      phdr.pOffset.toNat + phdr.pFilesz.toNat ≤ size.toNat) : FileFits memory image size := by
  have bound := size.isLt
  have position : Reads.Recognised memory image → ∀ i < (ePhnum memory image).toNat,
      Reads.phdrPosition memory image i + 32 ≤ size.toNat := fun known i below => by
    rw [Reads.phdrPosition_eq known.2 (by omega)]
    omega
  refine ⟨fun _ => le_trans (by decide) header, fun known => ⟨le_trans (by decide) header, ?_⟩,
    fun known _ i _ below _ => ?_, fun _ _ => segments⟩
  · refine Searches.ends_of_either (Nat.zero_le _) fun i _ below => ?_
    have inside := position known i below
    by_cases load : (elf32PhdrAt memory (elfProgramHeader memory image i)).pType = ptLoad
    · exact .inr ⟨load, by omega⟩
    · exact .inl ⟨load, by omega⟩
  · have inside := position known i below
    omega

theorem Machine.HeapSound.room {machine : Machine} (sound : machine.HeapSound) {p : Word}
    {allocation : Allocation} (held : machine.live p = some allocation) :
    allocation.size.toNat + 32 ≤ 2 ^ 32 := by
  have small := (sound.sized p _ (Machine.sizes_of_live held)).2
  unfold maxRequest at small
  omega

/-- On an image that fits, `process_map_elf` computes its status from the file. -/
theorem Kernel.processMapElf_yields {start : Kernel} {process size : Word}
    {directory : PageDirectory} (image : start.ElfImage process size)
    (paging : start.machine.PagingSound)
    (has : start.machine.HasChunk (start.chunkOf process) directory)
    (harmless : HeadersHarmless process (start.elfFileAt (start.processAt process).p)
      (programHeaders start.machine.memory
        (elfHeader (start.elfFileAt (start.processAt process).p))) start.machine)
    (known : Reads.Recognised start.machine.memory
      (start.elfFileAt (start.processAt process).p).elfMemory)
    (loads : ∀ phdr ∈ programHeaders start.machine.memory
      (start.elfFileAt (start.processAt process).p).elfMemory, phdr.pType = ptLoad)
    (fits : FileFits start.machine.memory
      (start.elfFileAt (start.processAt process).p).elfMemory size) :
    let file := start.elfFileAt (start.processAt process).p
    Reading.Yields (Reads.InImage file.elfMemory size) start.machine.memory
      (Reads.processMapElf file
        (start.bssAnswers process (start.processAt process).p (elfHeader file)))
      (start.processMapElf process).1 := by
  have room := paging.sound.room image.held
  obtain ⟨header, ends⟩ := fits.table known
  refine ⟨(processMapElf_status image paging has harmless).symm, ?_⟩
  exact (processMapElf_within rfl room header (passes_of_ends loads ends)).mpr
    (fits.flags known loads) _ (bssAnswers_heapAnswer _ _ _ _)

/-- **The parser stays inside the file exactly when the file reaches as far as it says**: nothing
is compared with its size. An image on the heap leaves the room that is asked for
(`Phix.Machine.HeapSound.room`). -/
theorem elf_parser_stays_inside_iff (memory : ByteMemory) (file : ElfFile) (size : Word)
    (room : size.toNat + 32 ≤ 2 ^ 32) :
    StaysInside memory file size ↔ FileFits memory file.elfMemory size := by
  have parse : (Reads.elfProcessLoaded file).Within (Reads.InImage file.elfMemory size) memory ↔
      _ := Reads.elfProcessLoaded_within room rfl
  have accepted := Reads.elfProcessLoaded_nonneg_iff memory file
  have map : (∀ phdr ∈ programHeaders memory file.elfMemory, phdr.pType = ptLoad) →
      46 ≤ size.toNat ∧ Searches.Ends (Reads.PhdrPasses memory file.elfMemory size)
        (Reads.PhdrRejected memory file.elfMemory size) 0 (ePhnum memory file.elfMemory).toNat →
      _ := fun loads table =>
    processMapElf_within (elfProcessLoaded_elfMemory memory file) room table.1
      (passes_of_ends loads table.2)
  constructor
  · intro inside
    obtain ⟨ident, table⟩ := parse.mp inside.parse
    refine ⟨ident, table, fun known loads => ?_, fun known loads phdr member => ?_⟩
    · exact (map loads (table known)).mp (inside.map (accepted.mpr ⟨known, loads⟩))
    · exact inside.segments (accepted.mpr ⟨known, loads⟩) phdr member (loads phdr member)
  · intro fits
    refine ⟨parse.mpr ⟨fits.ident, fits.table⟩, fun done => ?_, fun done phdr member _ => ?_⟩
    · obtain ⟨known, loads⟩ := accepted.mp done
      exact (map loads (fits.table known)).mpr (fits.flags known loads)
    · obtain ⟨known, loads⟩ := accepted.mp done
      exact fits.segments known loads phdr member

/-- A file that is held at the start of the heap. -/
def heldFile (bytes : ℕ → Byte) : ByteMemory := fun x => bytes (x - 0x01000000).toNat

def heldElf : ElfFile := { ElfFile.zero with elfMemory := 0x01000000 }

theorem elf_parser_stays_inside_iff_plain : StaysInside (heldFile plainElf) heldElf 96 := by
  refine (elf_parser_stays_inside_iff (heldFile plainElf) heldElf 96 (by decide)).mpr ?_
  refine FileFits.of_complete (by decide) (by decide) fun phdr member => ?_
  obtain ⟨i, inside, rfl⟩ := List.mem_map.mp member
  have only : i = 0 := Nat.lt_one_iff.mp (List.mem_range.mp inside)
  subst only
  decide

/-- A file of 96 bytes is accepted whose only segment has 97. -/
theorem elf_parser_stays_inside_fails :
    ¬ ∀ (memory : ByteMemory) (file : ElfFile) (size : Word), size.toNat + 32 ≤ 2 ^ 32 →
      StaysInside memory file size := by
  intro all
  have inside := all (heldFile (Function.update plainElf 68 97)) heldElf 96 (by decide)
  have bound := inside.segments (by decide) _
    (List.mem_map.mpr ⟨0, List.mem_range.mpr (by decide), rfl⟩) (by decide)
  exact absurd bound (by decide)

end Phix
