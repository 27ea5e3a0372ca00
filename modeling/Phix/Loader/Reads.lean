import Phix.Foundation.Readings
import Phix.Foundation.Searches
import Phix.Loader.Elf

/-! # What the ELF parser reads

The functions of `loader/formats/elfloader.c` on a loaded image, once more, as computations
that ask for the bytes they look at: a field is read where the source names it, and a condition
that is decided by its left side does not read its right side. They return what the functions of
`Phix.Loader.Elf` return (`Phix.Reads.elfProcessLoaded_value`).
-/

namespace Phix

namespace Reads

/-- A computation that reads bytes of the memory. -/
abbrev Bytes (α : Type) := Reading Word Byte α

/-- Two bytes, the lower one first. -/
def load16 (p : Word) : Bytes (BitVec 16) := do
  let low ← Reading.cell p
  let high ← Reading.cell (p + 1)
  return high ++ low

/-- Four bytes, the lowest first. -/
def load32 (p : Word) : Bytes Word := do
  let b0 ← Reading.cell p
  let b1 ← Reading.cell (p + 1)
  let b2 ← Reading.cell (p + 2)
  let b3 ← Reading.cell (p + 3)
  return b3 ++ b2 ++ b1 ++ b0

/-- Whether `memcmp` finds the bytes at `p`; it stops at the first difference. -/
def memcmp (p : Word) : List Byte → Bytes Bool
  | [] => return true
  | byte :: bytes => do
      let cell ← Reading.cell p
      if cell = byte then memcmp (p + 1) bytes else return false

/-- `elf_signature`. -/
def elfSignature : List Byte := [0x7f, 0x45, 0x4c, 0x46]

/-- `elf_valid_signature` compares the first four bytes. -/
def elfValidSignature (buf : Word) : Bytes Bool := memcmp buf elfSignature

/-- `elf_valid_class` reads the class once or twice. -/
def elfValidClass (header : Word) : Bytes Bool := do
  let first ← Reading.cell (header + eiClass)
  if first = elfClassNone then return true
  else
    let second ← Reading.cell (header + eiClass)
    return decide (second = elfClass32)

/-- `elf_valid_encoding` reads the encoding once or twice. -/
def elfValidEncoding (header : Word) : Bytes Bool := do
  let first ← Reading.cell (header + eiData)
  if first = elfDataNone then return true
  else
    let second ← Reading.cell (header + eiData)
    return decide (second = elfData2Lsb)

/-! The fields of the header that the loader reads. -/

def ePhoff (header : Word) : Bytes Word := load32 (header + 28)
def ePhnum (header : Word) : Bytes (BitVec 16) := load16 (header + 44)

/-- `elf_has_program_header` reads `e_phoff`. -/
def elfHasProgramHeader (header : Word) : Bytes Bool := do
  let offset ← ePhoff header
  return decide (offset ≠ 0)

/-- `elf_pheaders` reads `e_phoff`, and once more for the sum. -/
def elfPheaders (header : Word) : Bytes Word := do
  let offset ← ePhoff header
  if offset = 0 then return null
  else
    let offset ← ePhoff header
    return header + offset

/-- `elf_program_header` reads what `elf_pheaders` does. -/
def elfProgramHeader (header : Word) (index : ℕ) : Bytes Word := do
  let pheaders ← elfPheaders header
  return pheaders + BitVec.ofNat 32 index * sizeofElf32Phdr

/-! The fields of a program header. -/

def pType (phdr : Word) : Bytes Word := load32 phdr
def pOffset (phdr : Word) : Bytes Word := load32 (phdr + 4)
def pVaddr (phdr : Word) : Bytes Word := load32 (phdr + 8)
def pFilesz (phdr : Word) : Bytes Word := load32 (phdr + 16)
def pMemsz (phdr : Word) : Bytes Word := load32 (phdr + 20)
def pFlags (phdr : Word) : Bytes Word := load32 (phdr + 24)

/-! The checks of the header and the loop over the program headers. -/

/-- `elf_validate_load` stops at the first check that fails. -/
def elfValidateLoad (header : Word) : Bytes Int := do
  let signature ← elfValidSignature header
  if ¬ signature then return -EBADFORMAT
  let validClass ← elfValidClass header
  if ¬ validClass then return -EBADFORMAT
  let encoding ← elfValidEncoding header
  if ¬ encoding then return -EBADFORMAT
  let programHeader ← elfHasProgramHeader header
  if ¬ programHeader then return -EBADFORMAT
  return 0

/-- The first condition of `elf_process_phdr_pt_load`. -/
def isLowest (file : ElfFile) (phdr : Word) : Bytes Bool := do
  if file.virtualBaseAddress = null then return true
  else
    let vaddr ← pVaddr phdr
    return decide (vaddr ≤ file.virtualBaseAddress)

/-- The first branch of `elf_process_phdr_pt_load`. -/
def setVirtualBase (file : ElfFile) (phdr : Word) : Bytes ElfFile := do
  let lowest ← isLowest file phdr
  if lowest then
    let virtualBaseAddress ← pVaddr phdr
    let offset ← pOffset phdr
    return { file with virtualBaseAddress, physicalBaseAddress := file.elfMemory + offset }
  else return file

/-- Its second condition. -/
def isHighest (file : ElfFile) (phdr : Word) : Bytes Bool := do
  if file.virtualEndAddress = null then return true
  else
    let vaddr ← pVaddr phdr
    let memsz ← pMemsz phdr
    return decide (file.virtualEndAddress ≤ vaddr + memsz)

/-- The second branch of `elf_process_phdr_pt_load`. -/
def setVirtualEnd (file : ElfFile) (phdr : Word) : Bytes ElfFile := do
  let highest ← isHighest file phdr
  if highest then
    let vaddr ← pVaddr phdr
    let memsz ← pMemsz phdr
    let offset ← pOffset phdr
    let size ← pMemsz phdr
    return { file with
      virtualEndAddress := vaddr + memsz
      physicalEndAddress := file.elfMemory + offset + size }
  else return file

/-- `elf_process_phdr_pt_load`: the base, then the end. -/
def elfProcessPhdrPtLoad (file : ElfFile) (phdr : Word) : Bytes ElfFile := do
  let file ← setVirtualBase file phdr
  setVirtualEnd file phdr

/-- `elf_process_pheader` reads the type first. -/
def elfProcessPheader (file : ElfFile) (phdr : Word) : Bytes (Int × ElfFile) := do
  let type ← pType phdr
  if type = ptLoad then
    let file ← elfProcessPhdrPtLoad file phdr
    return (0, file)
  else return (-EINVAL, file)

/-- The loop of `elf_process_pheaders` from a header on. The number of headers is read again in
every round; it is a 16-bit field, which bounds the rounds. -/
def elfProcessPheaders.loop : ℕ → ℕ → ElfFile → Bytes (Int × ElfFile)
  | 0, _, file => return (0, file)
  | rounds + 1, i, file => do
      let count ← ePhnum (elfHeader file)
      if i < count.toNat then
        let phdr ← elfProgramHeader (elfHeader file) i
        let (ret, file) ← elfProcessPheader file phdr
        if ret < 0 then return (ret, file) else loop rounds (i + 1) file
      else return (0, file)

/-- `elf_process_pheaders`; the count of 16 bits bounds the rounds. -/
def elfProcessPheaders (file : ElfFile) : Bytes (Int × ElfFile) :=
  elfProcessPheaders.loop (2 ^ 16) 0 file

/-- `elf_process_loaded`: the checks of the header, then its program headers. -/
def elfProcessLoaded (file : ElfFile) : Bytes (Int × ElfFile) := do
  let ret ← elfValidateLoad (elfHeader file)
  if ret < 0 then return (ret, file) else elfProcessPheaders file

/-! The values. -/

variable (memory : ByteMemory)

@[simp]
theorem load16_value (p : Word) : (load16 p).value memory = memory.load16 p := by
  simp only [load16, Reading.value_bind, Reading.value_cell, Reading.value_pure, ByteMemory.load16]

@[simp]
theorem load32_value (p : Word) : (load32 p).value memory = memory.load32 p := by
  simp only [load32, Reading.value_bind, Reading.value_cell, Reading.value_pure, ByteMemory.load32]

@[simp]
theorem elfValidSignature_value (buf : Word) :
    (elfValidSignature buf).value memory = Phix.elfValidSignature memory buf := by
  have one : buf + 1 + 1 = buf + 2 := by rw [add_assoc]; rfl
  have two : buf + 2 + 1 = buf + 3 := by rw [add_assoc]; rfl
  simp only [elfValidSignature, elfSignature, memcmp, Phix.elfValidSignature, eIdent,
    Reading.value_bind, Reading.value_cell, Reading.value_ite, Reading.value_pure,
    one, two, add_zero]
  split_ifs <;> simp_all

@[simp]
theorem elfValidClass_value (header : Word) :
    (elfValidClass header).value memory = Phix.elfValidClass memory header := by
  simp only [elfValidClass, Phix.elfValidClass, eIdent, Reading.value_bind, Reading.value_cell,
    Reading.value_ite, Reading.value_pure]
  split_ifs with none
  · simp only [none, true_or, decide_true]
  · simp only [none, false_or]

@[simp]
theorem elfValidEncoding_value (header : Word) :
    (elfValidEncoding header).value memory = Phix.elfValidEncoding memory header := by
  simp only [elfValidEncoding, Phix.elfValidEncoding, eIdent, Reading.value_bind,
    Reading.value_cell, Reading.value_ite, Reading.value_pure]
  split_ifs with none
  · simp only [none, true_or, decide_true]
  · simp only [none, false_or]

@[simp]
theorem elfHasProgramHeader_value (header : Word) :
    (elfHasProgramHeader header).value memory = Phix.elfHasProgramHeader memory header := by
  simp only [elfHasProgramHeader, ePhoff, Reading.value_bind, Reading.value_pure, load32_value]
  exact decide_eq_decide.mpr Iff.rfl

@[simp]
theorem elfProgramHeader_value (header : Word) (i : ℕ) :
    (elfProgramHeader header i).value memory = Phix.elfProgramHeader memory header i := by
  simp only [elfProgramHeader, elfPheaders, Reading.value_bind, Reading.value_ite,
    Reading.value_pure]
  rfl

@[simp]
theorem elfValidateLoad_value (header : Word) :
    (elfValidateLoad header).value memory = Phix.elfValidateLoad memory header := by
  simp only [elfValidateLoad, Phix.elfValidateLoad, Reading.value_bind,
    Reading.value_ite, Reading.value_pure, elfValidSignature_value,
    elfValidClass_value, elfValidEncoding_value, elfHasProgramHeader_value]
  split_ifs <;> simp_all

@[simp]
theorem isLowest_value (file : ElfFile) (phdr : Word) : (isLowest file phdr).value memory =
    decide (file.virtualBaseAddress = null ∨
      (elf32PhdrAt memory phdr).pVaddr ≤ file.virtualBaseAddress) := by
  simp only [isLowest, pVaddr, Reading.value_ite, Reading.value_bind, Reading.value_pure,
    load32_value, elf32PhdrAt]
  split_ifs with unset <;> simp [unset]

@[simp]
theorem isHighest_value (file : ElfFile) (phdr : Word) : (isHighest file phdr).value memory =
    decide (file.virtualEndAddress = null ∨ file.virtualEndAddress ≤
      (elf32PhdrAt memory phdr).pVaddr + (elf32PhdrAt memory phdr).pMemsz) := by
  simp only [isHighest, pVaddr, pMemsz, Reading.value_ite, Reading.value_bind, Reading.value_pure,
    load32_value, elf32PhdrAt]
  split_ifs with unset <;> simp [unset]

@[simp]
theorem elfProcessPhdrPtLoad_value (file : ElfFile) (phdr : Word) :
    (elfProcessPhdrPtLoad file phdr).value memory =
      Phix.elfProcessPhdrPtLoad file (elf32PhdrAt memory phdr) := by
  simp only [elfProcessPhdrPtLoad, setVirtualBase, setVirtualEnd, pVaddr, pMemsz, pOffset,
    Reading.value_bind, Reading.value_ite, Reading.value_pure, isLowest_value, isHighest_value,
    load32_value, Phix.elfProcessPhdrPtLoad, decide_eq_true_eq]
  rfl

@[simp]
theorem elfProcessPheader_value (file : ElfFile) (phdr : Word) :
    (elfProcessPheader file phdr).value memory =
      Phix.elfProcessPheader file (elf32PhdrAt memory phdr) := by
  simp only [elfProcessPheader, pType, Reading.value_bind, Reading.value_ite, Reading.value_pure,
    elfProcessPhdrPtLoad_value, load32_value]
  rfl

/-- The number of headers that is read in every round is the same. -/
theorem elfProcessPheaders_loop_value {rounds remaining i : ℕ} (enough : remaining < rounds)
    (file : ElfFile) (count : (Phix.ePhnum memory (elfHeader file)).toNat = i + remaining) :
    (elfProcessPheaders.loop rounds i file).value memory =
      Phix.elfProcessPheaders.loop memory remaining i file := by
  induction remaining generalizing rounds i file with
  | zero =>
      obtain ⟨rounds, rfl⟩ := Nat.exists_eq_succ_of_ne_zero (Nat.ne_zero_of_lt enough)
      simp only [elfProcessPheaders.loop, ePhnum, Reading.value_bind, Reading.value_ite,
        load16_value]
      exact (if_neg (by unfold Phix.ePhnum at count; omega)).trans (Reading.value_pure _)
  | succ remaining ih =>
      obtain ⟨rounds, rfl⟩ := Nat.exists_eq_succ_of_ne_zero (Nat.ne_zero_of_lt enough)
      have inside : i < (memory.load16 (elfHeader file + 44)).toNat := by
        unfold Phix.ePhnum at count
        omega
      simp only [elfProcessPheaders.loop, Phix.elfProcessPheaders.loop, ePhnum, Reading.value_bind,
        Reading.value_ite, load16_value, inside, if_true, elfProgramHeader_value,
        elfProcessPheader_value]
      have place := elfProcessPheader_elfMemory file
        (elf32PhdrAt memory (Phix.elfProgramHeader memory (elfHeader file) i))
      generalize Phix.elfProcessPheader file
        (elf32PhdrAt memory (Phix.elfProgramHeader memory (elfHeader file) i)) = result at place ⊢
      obtain ⟨ret, next⟩ := result
      simp only [Reading.value_pure]
      rw [ih (by omega) next]
      have same : elfHeader next = elfHeader file := place
      rw [same]
      omega

/-- The parser returns what the plain one returns. -/
@[simp]
theorem elfProcessLoaded_value (file : ElfFile) :
    (elfProcessLoaded file).value memory = Phix.elfProcessLoaded memory file := by
  have bound := (Phix.ePhnum memory (elfHeader file)).isLt
  simp only [elfProcessLoaded, elfProcessPheaders, Reading.value_bind, Reading.value_ite,
    Reading.value_pure, elfValidateLoad_value,
    elfProcessPheaders_loop_value memory bound file (Nat.zero_add _).symm]
  rfl

/-! The footprints. -/

/-- An address in the image of `size` bytes at `image`. -/
def InImage (image size p : Word) : Prop := (p - image).toNat < size.toNat

variable {memory} {image size : Word} (room : size.toNat + 32 ≤ 2 ^ 32)

/-- The offset in the image of an address further on. -/
theorem offset_toNat (p c : Word) :
    (p + c - image).toNat = ((p - image).toNat + c.toNat) % 2 ^ 32 := by
  rw [← BitVec.toNat_add]
  congr 1
  rw [BitVec.sub_eq_add_neg, BitVec.sub_eq_add_neg, BitVec.add_assoc, BitVec.add_comm c,
    BitVec.add_assoc]

include room in
/-- A field is read within the image just when its last byte is in it. -/
theorem load32_within {p : Word} (c : Word) (small : c.toNat ≤ 28)
    (near : c = 0 ∨ (p - image).toNat + 32 ≤ 2 ^ 32) :
    (load32 (p + c)).Within (InImage image size) memory ↔
      (p - image).toNat + c.toNat + 4 ≤ size.toNat := by
  have bound := (p - image).isLt
  have one : (1 : Word).toNat = 1 := rfl
  have two : (2 : Word).toNat = 2 := rfl
  have three : (3 : Word).toNat = 3 := rfl
  simp only [load32, InImage, Reading.within_bind, Reading.within_cell, Reading.within_pure,
    and_true, offset_toNat, one, two, three]
  rcases near with rfl | near
  · rw [show (0 : Word).toNat = 0 from rfl]
    omega
  · omega

/-- What `elf_validate_load` asks of a byte of `e_ident`. -/
def IdentAccepts : ℕ → Byte → Prop
  | 0, byte => byte = 0x7f
  | 1, byte => byte = 0x45
  | 2, byte => byte = 0x4c
  | 3, byte => byte = 0x46
  | 4, byte => byte = elfClassNone ∨ byte = elfClass32
  | _, byte => byte = elfDataNone ∨ byte = elfData2Lsb

/-- A comparison goes on to the next byte only if this one is equal. -/
theorem memcmp_within (region : Word → Prop) (p : Word) (byte : Byte) (bytes : List Byte) :
    (memcmp p (byte :: bytes)).Within region memory ↔
      region p ∧ (memory p = byte → (memcmp (p + 1) bytes).Within region memory) := by
  simp only [memcmp, Reading.within_bind, Reading.within_cell, Reading.value_cell,
    Reading.within_ite, Reading.within_pure, implies_true, and_true]

include room in
/-- The checks of the header stop at the first byte that is wrong. -/
theorem elfValidateLoad_within :
    (elfValidateLoad image).Within (InImage image size) memory ↔
      32 ≤ size.toNat ∨ ∃ k < 6, k < size.toNat ∧
        ¬ IdentAccepts k (memory (image + BitVec.ofNat 32 k)) := by
  have one : image + 1 + 1 = image + 2 := by rw [add_assoc]; rfl
  have two : image + 2 + 1 = image + 3 := by rw [add_assoc]; rfl
  have inside : ∀ k : Word, InImage image size (image + k) ↔ k.toNat < size.toNat := fun k => by
    rw [InImage, add_sub_cancel_left]
  have first : InImage image size image ↔ 0 < size.toNat := by
    rw [InImage, sub_self]
    exact Iff.rfl
  have signatureReads : (elfValidSignature image).Within (InImage image size) memory ↔
      0 < size.toNat ∧ (IdentAccepts 0 (memory image) →
      1 < size.toNat ∧ (IdentAccepts 1 (memory (image + 1)) →
      2 < size.toNat ∧ (IdentAccepts 2 (memory (image + 2)) → 3 < size.toNat))) := by
    have last : (memcmp (image + 3 + 1) []).Within (InImage image size) memory :=
      Reading.within_pure true
    simp only [elfValidSignature, elfSignature, memcmp_within, one, two, last, first, inside,
      implies_true, and_true]
    exact Iff.rfl
  have signature : (elfValidSignature image).value memory = true ↔
      IdentAccepts 0 (memory image) ∧ IdentAccepts 1 (memory (image + 1)) ∧
        IdentAccepts 2 (memory (image + 2)) ∧ IdentAccepts 3 (memory (image + 3)) := by
    rw [elfValidSignature_value, Phix.elfValidSignature, decide_eq_true_iff, eIdent, add_zero]
    exact Iff.rfl
  have classReads : (elfValidClass image).Within (InImage image size) memory ↔ 4 < size.toNat := by
    simp only [elfValidClass, Reading.within_bind, Reading.within_ite, Reading.within_cell,
      Reading.within_pure, inside, implies_true, and_true, true_and]
    exact and_iff_left_of_imp fun bound _ => bound
  have validClass : (elfValidClass image).value memory = true ↔
      IdentAccepts 4 (memory (image + 4)) := by
    rw [elfValidClass_value, Phix.elfValidClass, decide_eq_true_iff]
    exact Iff.rfl
  have encodingReads : (elfValidEncoding image).Within (InImage image size) memory ↔
      5 < size.toNat := by
    simp only [elfValidEncoding, Reading.within_bind, Reading.within_ite, Reading.within_cell,
      Reading.within_pure, inside, implies_true, and_true, true_and]
    exact and_iff_left_of_imp fun bound _ => bound
  have encoding : (elfValidEncoding image).value memory = true ↔
      IdentAccepts 5 (memory (image + 5)) := by
    rw [elfValidEncoding_value, Phix.elfValidEncoding, decide_eq_true_iff]
    exact Iff.rfl
  have offsetReads : (elfHasProgramHeader image).Within (InImage image size) memory ↔
      32 ≤ size.toNat := by
    simp only [elfHasProgramHeader, ePhoff, Reading.within_bind, Reading.within_pure, and_true]
    rw [load32_within room 28 (by decide) (.inr (by rw [sub_self]; decide)), sub_self]
    exact Iff.rfl
  have reads : (elfValidateLoad image).Within (InImage image size) memory ↔
      (elfValidSignature image).Within (InImage image size) memory ∧
        ((elfValidSignature image).value memory = true → 4 < size.toNat ∧
          (IdentAccepts 4 (memory (image + 4)) → 5 < size.toNat ∧
            (IdentAccepts 5 (memory (image + 5)) → 32 ≤ size.toNat))) := by
    simp only [elfValidateLoad, Reading.within_bind, Reading.within_ite, Reading.within_pure,
      implies_true, and_true, true_and, not_not, classReads, validClass, encodingReads, encoding,
      offsetReads]
  have wrong : (∃ k < 6, k < size.toNat ∧ ¬ IdentAccepts k (memory (image + BitVec.ofNat 32 k))) ↔
      0 < size.toNat ∧ ¬ IdentAccepts 0 (memory image) ∨
      1 < size.toNat ∧ ¬ IdentAccepts 1 (memory (image + 1)) ∨
      2 < size.toNat ∧ ¬ IdentAccepts 2 (memory (image + 2)) ∨
      3 < size.toNat ∧ ¬ IdentAccepts 3 (memory (image + 3)) ∨
      4 < size.toNat ∧ ¬ IdentAccepts 4 (memory (image + 4)) ∨
      5 < size.toNat ∧ ¬ IdentAccepts 5 (memory (image + 5)) := by
    simp only [Nat.exists_lt_succ_right, Nat.not_lt_zero, false_and, exists_false, false_or]
    rw [or_assoc, or_assoc, or_assoc, or_assoc,
      show image + BitVec.ofNat 32 0 = image from add_zero image]
    exact Iff.rfl
  rw [reads, signatureReads, signature, wrong]
  grind

section Header

variable {phdr : Word}

include room in
/-- The type is read within the image just when its four bytes are in it. -/
theorem pType_within : (pType phdr).Within (InImage image size) memory ↔
    (phdr - image).toNat + 4 ≤ size.toNat := by
  have within : (load32 (phdr + 0)).Within (InImage image size) memory ↔ _ :=
    load32_within room 0 (by decide) (.inl rfl)
  rwa [add_zero] at within

variable (near : (phdr - image).toNat + 32 ≤ 2 ^ 32)

include room near

/-- The end of the segment is always read to `p_memsz`. -/
theorem setVirtualEnd_within (file : ElfFile) :
    (setVirtualEnd file phdr).Within (InImage image size) memory ↔
      (phdr - image).toNat + 24 ≤ size.toNat := by
  have field : ∀ c : Word, c.toNat ≤ 28 → ((load32 (phdr + c)).Within (InImage image size) memory ↔
      (phdr - image).toNat + c.toNat + 4 ≤ size.toNat) := fun c small =>
    load32_within room c small (.inr near)
  have vaddr : (pVaddr phdr).Within (InImage image size) memory ↔ _ := field 8 (by decide)
  have memsz : (pMemsz phdr).Within (InImage image size) memory ↔ _ := field 20 (by decide)
  have offset : (pOffset phdr).Within (InImage image size) memory ↔ _ := field 4 (by decide)
  rw [show (8 : Word).toNat = 8 from rfl] at vaddr
  rw [show (20 : Word).toNat = 20 from rfl] at memsz
  rw [show (4 : Word).toNat = 4 from rfl] at offset
  simp only [setVirtualEnd, isHighest, Reading.within_bind, Reading.within_ite, Reading.within_pure,
    Reading.value_ite, Reading.value_pure, vaddr, memsz, offset, implies_true, and_true, true_and]
  by_cases unset : file.virtualEndAddress = null
  · simp only [unset, not_true, false_implies, true_and, if_true, true_implies]
    omega
  · simp only [unset, not_false_iff, true_implies]
    omega

/-- The base reads nothing beyond what the end reads. -/
theorem setVirtualBase_within (file : ElfFile)
    (inside : (phdr - image).toNat + 24 ≤ size.toNat) :
    (setVirtualBase file phdr).Within (InImage image size) memory := by
  have field : ∀ c : Word, c.toNat ≤ 28 → ((load32 (phdr + c)).Within (InImage image size) memory ↔
      (phdr - image).toNat + c.toNat + 4 ≤ size.toNat) := fun c small =>
    load32_within room c small (.inr near)
  have vaddr : (pVaddr phdr).Within (InImage image size) memory :=
    (field 8 (by decide)).mpr (by rw [show (8 : Word).toNat = 8 from rfl]; omega)
  have offset : (pOffset phdr).Within (InImage image size) memory :=
    (field 4 (by decide)).mpr (by rw [show (4 : Word).toNat = 4 from rfl]; omega)
  simp only [setVirtualBase, isLowest, Reading.within_bind, Reading.within_ite, Reading.within_pure,
    vaddr, offset, implies_true, and_self]

end Header

include room in
/-- A header that is no `PT_LOAD` is read to its type, and another to `p_memsz`. -/
theorem elfProcessPheader_within (file : ElfFile) (phdr : Word) :
    (elfProcessPheader file phdr).Within (InImage image size) memory ↔
      (phdr - image).toNat + 4 ≤ size.toNat ∧
        ((elf32PhdrAt memory phdr).pType = ptLoad → (phdr - image).toNat + 24 ≤ size.toNat) := by
  have type : (pType phdr).value memory = (elf32PhdrAt memory phdr).pType :=
    load32_value memory phdr
  simp only [elfProcessPheader, elfProcessPhdrPtLoad, Reading.within_bind, Reading.within_ite,
    Reading.within_pure, pType_within room, type, implies_true, and_true]
  refine and_congr_right fun inside => imp_congr_right fun _ => ?_
  rw [setVirtualEnd_within room (by omega)]
  exact and_iff_right_of_imp fun inside => setVirtualBase_within room (by omega) file inside

section Table

variable (header : 46 ≤ size.toNat) (hasTable : Phix.ePhoff memory image ≠ 0)

/-- Where the header with an index is in the image. -/
def phdrPosition (memory : ByteMemory) (image : Word) (i : ℕ) : ℕ :=
  (Phix.elfProgramHeader memory image i - image).toNat

/-- The loop goes on: the header is a `PT_LOAD`, and in the image as far as it is read. -/
def PhdrPasses (memory : ByteMemory) (image size : Word) (i : ℕ) : Prop :=
  (elf32PhdrAt memory (Phix.elfProgramHeader memory image i)).pType = ptLoad ∧
    phdrPosition memory image i + 24 ≤ size.toNat

/-- The loop ends: the header is no `PT_LOAD`, and its type is in the image. -/
def PhdrRejected (memory : ByteMemory) (image size : Word) (i : ℕ) : Prop :=
  (elf32PhdrAt memory (Phix.elfProgramHeader memory image i)).pType ≠ ptLoad ∧
    phdrPosition memory image i + 4 ≤ size.toNat

include room header

/-- The number of headers lies in the header. -/
theorem ePhnum_within : (ePhnum image).Within (InImage image size) memory := by
  have inside : ∀ c : Word, c.toNat ≤ 45 → InImage image size (image + c) := fun c small => by
    rw [InImage, add_sub_cancel_left]
    omega
  simp only [ePhnum, load16, Reading.within_bind, Reading.within_cell, Reading.within_pure,
    and_true]
  refine ⟨inside 44 (by decide), ?_⟩
  rw [BitVec.add_assoc]
  exact inside 45 (by decide)

/-- Finding a program header reads the header only. -/
theorem elfProgramHeader_within (i : ℕ) :
    (elfProgramHeader image i).Within (InImage image size) memory := by
  have offset : (ePhoff image).Within (InImage image size) memory := by
    refine (load32_within room 28 (by decide) (.inr (by rw [sub_self]; decide))).mpr ?_
    rw [sub_self, show (28 : Word).toNat = 28 from rfl, show (0 : Word).toNat = 0 from rfl]
    omega
  simp only [elfProgramHeader, elfPheaders, Reading.within_bind, Reading.within_ite,
    Reading.within_pure, offset, implies_true, and_self]

/-- The loop reads within the image just when the headers pass until one is refused or the count is
reached. -/
theorem elfProcessPheaders_loop_within {rounds remaining i : ℕ} (enough : remaining < rounds)
    {file : ElfFile} (place : elfHeader file = image)
    (count : (Phix.ePhnum memory image).toNat = i + remaining) :
    (elfProcessPheaders.loop rounds i file).Within (InImage image size) memory ↔
      Searches.Ends (PhdrPasses memory image size) (PhdrRejected memory image size) i
        (Phix.ePhnum memory image).toNat := by
  have counted : ((ePhnum image).value memory).toNat = (Phix.ePhnum memory image).toNat :=
    congrArg BitVec.toNat (load16_value memory (image + 44))
  induction remaining generalizing rounds i file with
  | zero =>
      obtain ⟨rounds, rfl⟩ := Nat.exists_eq_succ_of_ne_zero (Nat.ne_zero_of_lt enough)
      rw [show i = (Phix.ePhnum memory image).toNat by omega]
      refine iff_of_true ?_ (Searches.ends_self _ _)
      simp only [elfProcessPheaders.loop, place, Reading.within_bind, Reading.within_ite,
        Reading.within_pure, ePhnum_within room header, counted, lt_irrefl, false_implies,
        implies_true, and_self]
  | succ remaining ih =>
      obtain ⟨rounds, rfl⟩ := Nat.exists_eq_succ_of_ne_zero (Nat.ne_zero_of_lt enough)
      have inside : i < (Phix.ePhnum memory image).toNat := by omega
      rw [Searches.ends_step inside]
      simp only [elfProcessPheaders.loop, place, Reading.within_bind, Reading.within_ite,
        ePhnum_within room header, elfProgramHeader_within room header, counted, inside,
        elfProcessPheader_within room, elfProcessPheader_value, elfProgramHeader_value,
        Reading.within_pure, not_true, true_implies, implies_true, true_and, and_true]
      have status := elfProcessPheader_elfMemory file
        (elf32PhdrAt memory (Phix.elfProgramHeader memory image i))
      by_cases load : (elf32PhdrAt memory (Phix.elfProgramHeader memory image i)).pType = ptLoad
      · have passed : ¬ (Phix.elfProcessPheader file
            (elf32PhdrAt memory (Phix.elfProgramHeader memory image i))).1 < 0 := by
          unfold Phix.elfProcessPheader
          rw [if_pos load]
          exact lt_irrefl 0
        have short : remaining < rounds := by omega
        have left : (Phix.ePhnum memory image).toNat = i + 1 + remaining := by omega
        have rest : _ ↔ _ := ih short (show elfHeader _ = image from status.trans place) left
        rw [rest]
        simp only [PhdrRejected, PhdrPasses, phdrPosition, load, passed, not_false_eq_true,
          true_implies, ne_eq, not_true, false_and, false_or, true_and]
        exact and_congr_left fun _ => and_iff_right_of_imp fun bound => by omega
      · have rejected : (Phix.elfProcessPheader file
            (elf32PhdrAt memory (Phix.elfProgramHeader memory image i))).1 < 0 := by
          unfold Phix.elfProcessPheader
          rw [if_neg load]
          exact show (-EINVAL : Int) < 0 by decide
        simp only [PhdrRejected, PhdrPasses, phdrPosition, load, rejected, not_true, false_implies,
          and_true, ne_eq, not_false_eq_true, true_and, false_and, or_false]

end Table

end Reads

end Phix
