import Phix.Foundation.ByteMemory
import Phix.Common

/-! # ELF images in memory

The headers of `loader/formats/elf.h` as they are read from an image in memory, and the
checks of `loader/formats/elfloader.c` on an image that has been loaded. Structures are
packed, so a field is at a fixed offset; `Elf32Phdr` keeps the fields the loader reads.
-/

namespace Phix

/-- The flag of a segment that may be written. -/
def pfW : Word := 0x02

/-- The type of a segment that is loaded. -/
def ptLoad : Word := 1

/-- The index of the class in `e_ident`. -/
def eiClass : Word := 4

/-- The index of the encoding in `e_ident`. -/
def eiData : Word := 5

/-- No class, which the loader accepts too. -/
def elfClassNone : Byte := 0

/-- The class of 32-bit files. -/
def elfClass32 : Byte := 1

/-- No encoding, which the loader accepts too. -/
def elfDataNone : Byte := 0

/-- The little-endian encoding. -/
def elfData2Lsb : Byte := 1

/-- The type of an executable file. -/
def etExec : BitVec 16 := 2

/-- `sizeof(struct elf32_phdr)`. -/
def sizeofElf32Phdr : Word := 32

/-- The fields of `struct elf32_phdr` that the loader reads. -/
structure Elf32Phdr where
  pType : Word
  pOffset : Word
  pVaddr : Word
  pFilesz : Word
  pMemsz : Word
  pFlags : Word
  deriving DecidableEq

/-- The program header at an address. -/
def elf32PhdrAt (memory : ByteMemory) (p : Word) : Elf32Phdr where
  pType := memory.load32 p
  pOffset := memory.load32 (p + 4)
  pVaddr := memory.load32 (p + 8)
  pFilesz := memory.load32 (p + 16)
  pMemsz := memory.load32 (p + 20)
  pFlags := memory.load32 (p + 24)

/-! Fields of the `struct elf_header` at an address. -/

def eIdent (memory : ByteMemory) (header i : Word) : Byte := memory (header + i)
def eType (memory : ByteMemory) (header : Word) : BitVec 16 := memory.load16 (header + 16)
def eEntry (memory : ByteMemory) (header : Word) : Word := memory.load32 (header + 24)
def ePhoff (memory : ByteMemory) (header : Word) : Word := memory.load32 (header + 28)
def ePhnum (memory : ByteMemory) (header : Word) : BitVec 16 := memory.load16 (header + 44)

/-- `struct elf_file`, without the two fields nothing writes. -/
structure ElfFile where
  elfMemory : Word
  virtualBaseAddress : Word
  virtualEndAddress : Word
  physicalBaseAddress : Word
  physicalEndAddress : Word

/-- A cleared `struct elf_file`. -/
def ElfFile.zero : ElfFile := ⟨null, null, null, null, null⟩

/-- The image starts with the four bytes of `elf_signature`. -/
def elfValidSignature (memory : ByteMemory) (buf : Word) : Bool :=
  eIdent memory buf 0 = 0x7f ∧ eIdent memory buf 1 = 0x45 ∧ eIdent memory buf 2 = 0x4c ∧
    eIdent memory buf 3 = 0x46

/-- The class is 32 bits, or none is given. -/
def elfValidClass (memory : ByteMemory) (header : Word) : Bool :=
  eIdent memory header eiClass = elfClassNone ∨ eIdent memory header eiClass = elfClass32

/-- The encoding is little-endian, or none is given. -/
def elfValidEncoding (memory : ByteMemory) (header : Word) : Bool :=
  eIdent memory header eiData = elfDataNone ∨ eIdent memory header eiData = elfData2Lsb

/-- The header says where the program headers are. -/
def elfHasProgramHeader (memory : ByteMemory) (header : Word) : Bool := ePhoff memory header ≠ 0

/-- The header is at the start of the image. -/
def elfHeader (file : ElfFile) : Word := file.elfMemory

/-- The first program header, or null if there is none. -/
def elfPheaders (memory : ByteMemory) (header : Word) : Word :=
  if ePhoff memory header = 0 then null else header + ePhoff memory header

/-- The address of the program header with an index. -/
def elfProgramHeader (memory : ByteMemory) (header : Word) (index : ℕ) : Word :=
  elfPheaders memory header + BitVec.ofNat 32 index * sizeofElf32Phdr

/-- Where a program header is in the table, as long as the offset fits 32 bits. -/
theorem headerOffset_toNat {i : ℕ} (small : i < 2 ^ 27) :
    (BitVec.ofNat 32 i * sizeofElf32Phdr).toNat = 32 * i := by
  rw [BitVec.toNat_mul, BitVec.toNat_ofNat]
  change i % 2 ^ 32 * 32 % 2 ^ 32 = 32 * i
  omega

/-- Where a segment's bytes are in the image. -/
def elfPhdrPaddr (file : ElfFile) (phdr : Elf32Phdr) : Word := file.elfMemory + phdr.pOffset

/-- `elf_validate_load`: the four checks of the header. -/
def elfValidateLoad (memory : ByteMemory) (header : Word) : Int :=
  if ¬ (elfValidSignature memory header ∧ elfValidClass memory header ∧
      elfValidEncoding memory header ∧ elfHasProgramHeader memory header) then -EBADFORMAT
  else 0

/-- `elf_process_phdr_pt_load`: the lowest segment gives the base of the program, and the highest
one its end. -/
def elfProcessPhdrPtLoad (file : ElfFile) (phdr : Elf32Phdr) : ElfFile :=
  let file :=
    if file.virtualBaseAddress = null ∨ phdr.pVaddr ≤ file.virtualBaseAddress then
      { file with
        virtualBaseAddress := phdr.pVaddr
        physicalBaseAddress := file.elfMemory + phdr.pOffset }
    else file
  if file.virtualEndAddress = null ∨ file.virtualEndAddress ≤ phdr.pVaddr + phdr.pMemsz then
    { file with
      virtualEndAddress := phdr.pVaddr + phdr.pMemsz
      physicalEndAddress := file.elfMemory + phdr.pOffset + phdr.pMemsz }
  else file

/-- `elf_process_pheader`: a segment of another type than `PT_LOAD` is refused. -/
def elfProcessPheader (file : ElfFile) (phdr : Elf32Phdr) : Int × ElfFile :=
  if phdr.pType = ptLoad then (0, elfProcessPhdrPtLoad file phdr) else (-EINVAL, file)

/-- The loop of `elf_process_pheaders` from a header on, with the headers that remain. -/
def elfProcessPheaders.loop (memory : ByteMemory) : ℕ → ℕ → ElfFile → Int × ElfFile
  | 0, _, file => (0, file)
  | remaining + 1, i, file =>
      let phdr := elf32PhdrAt memory (elfProgramHeader memory (elfHeader file) i)
      let (ret, file) := elfProcessPheader file phdr
      if ret < 0 then (ret, file) else loop memory remaining (i + 1) file

/-- `elf_process_pheaders`: the program headers in their order, to the first that fails. -/
def elfProcessPheaders (memory : ByteMemory) (file : ElfFile) : Int × ElfFile :=
  elfProcessPheaders.loop memory (ePhnum memory (elfHeader file)).toNat 0 file

/-- `elf_process_loaded`: the checks of the header, then its program headers. -/
def elfProcessLoaded (memory : ByteMemory) (file : ElfFile) : Int × ElfFile :=
  let ret := elfValidateLoad memory (elfHeader file)
  if ret < 0 then (ret, file) else elfProcessPheaders memory file

/-- Processing an image leaves its place in the record alone. -/
theorem elfProcessPheader_elfMemory (file : ElfFile) (phdr : Elf32Phdr) :
    (elfProcessPheader file phdr).2.elfMemory = file.elfMemory := by
  unfold elfProcessPheader elfProcessPhdrPtLoad
  split
  · dsimp only
    split <;> split <;> rfl
  · rfl

/-- The loop leaves the image where it is. -/
theorem elfProcessPheaders_loop_elfMemory (memory : ByteMemory) (remaining i : ℕ) (file : ElfFile) :
    (elfProcessPheaders.loop memory remaining i file).2.elfMemory = file.elfMemory := by
  induction remaining generalizing i file with
  | zero => rfl
  | succ remaining ih =>
      have first := elfProcessPheader_elfMemory file
        (elf32PhdrAt memory (elfProgramHeader memory (elfHeader file) i))
      unfold elfProcessPheaders.loop
      dsimp only
      split
      · exact first
      · exact (ih _ _).trans first

/-- `elf_process_loaded` leaves the image where it is. -/
theorem elfProcessLoaded_elfMemory (memory : ByteMemory) (file : ElfFile) :
    (elfProcessLoaded memory file).2.elfMemory = file.elfMemory := by
  unfold elfProcessLoaded
  dsimp only
  split
  · rfl
  · exact elfProcessPheaders_loop_elfMemory memory _ 0 file

end Phix
