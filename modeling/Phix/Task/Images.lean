import Phix.Task.Mapping

/-! # Images and their files

An image shows a file when its bytes are those of the file (`Phix.Shows`). What the loader reads in
it is then what the file says, and the file is read as a memory that holds it at address zero.
-/

namespace Phix

/-- `elf_is_executable`, which nothing calls. -/
def elfIsExecutable (memory : ByteMemory) (header : Word) : Bool :=
  eType memory header = etExec ∧ phixProgramVirtualAddress ≤ eEntry memory header

/-- The bytes of the image are those of the file. -/
def Shows (memory : ByteMemory) (image : Word) (file : ByteMemory) (size : Word) : Prop :=
  ∀ k : Word, k.toNat < size.toNat → memory (image + k) = file k

/-- The file holds its header and its program headers. -/
structure Complete (file : ByteMemory) (size : Word) : Prop where
  header : 52 ≤ size.toNat
  table : (ePhoff file 0).toNat + 32 * (ePhnum file 0).toNat ≤ size.toNat

namespace Shows

variable {memory : ByteMemory} {image : Word} {file : ByteMemory} {size : Word}
  (shows : Shows memory image file size)

include shows

/-- A word of the file is read from the image. -/
theorem load32 {c : Word} (inside : c.toNat + 4 ≤ size.toNat) :
    memory.load32 (image + c) = file.load32 c := by
  have bound := size.isLt
  have byte : ∀ k : Word, k.toNat < 4 → memory (image + c + k) = file (c + k) := by
    intro k small
    rw [BitVec.add_assoc]
    refine shows (c + k) ?_
    rw [BitVec.toNat_add, Nat.mod_eq_of_lt (by omega)]
    omega
  have first := byte 0 (by decide)
  rw [add_zero, add_zero] at first
  unfold ByteMemory.load32
  rw [first, byte 1 (by decide), byte 2 (by decide), byte 3 (by decide)]

/-- So is a half word. -/
theorem load16 {c : Word} (inside : c.toNat + 2 ≤ size.toNat) :
    memory.load16 (image + c) = file.load16 c := by
  have bound := size.isLt
  have next : memory (image + c + 1) = file (c + 1) := by
    rw [BitVec.add_assoc]
    refine shows (c + 1) ?_
    rw [BitVec.toNat_add, show (1 : Word).toNat = 1 from rfl, Nat.mod_eq_of_lt (by omega)]
    omega
  unfold ByteMemory.load16
  rw [next, shows c (by omega)]

section Header

variable (header : 52 ≤ size.toNat)

include header

/-- So is a byte of `e_ident`. -/
theorem eIdent {i : Word} (small : i.toNat < 16) :
    eIdent memory image i = Phix.eIdent file 0 i := by
  unfold Phix.eIdent
  rw [zero_add]
  exact shows i (small.trans_le (le_trans (by decide) header))

/-- The signature is that of the file. -/
theorem elfValidSignature :
    elfValidSignature memory image = Phix.elfValidSignature file 0 := by
  unfold Phix.elfValidSignature
  rw [shows.eIdent header (show (0 : Word).toNat < 16 by decide),
    shows.eIdent header (show (1 : Word).toNat < 16 by decide),
    shows.eIdent header (show (2 : Word).toNat < 16 by decide),
    shows.eIdent header (show (3 : Word).toNat < 16 by decide)]

/-- The entry point is that of the file. -/
theorem eEntry : eEntry memory image = Phix.eEntry file 0 := by
  unfold Phix.eEntry
  rw [shows.load32 (show (24 : Word).toNat + 4 ≤ size.toNat from le_trans (by decide) header),
    zero_add]

/-- The place of the program headers is that of the file. -/
theorem ePhoff : ePhoff memory image = Phix.ePhoff file 0 := by
  unfold Phix.ePhoff
  rw [shows.load32 (show (28 : Word).toNat + 4 ≤ size.toNat from le_trans (by decide) header),
    zero_add]

/-- Their number is that of the file. -/
theorem ePhnum : ePhnum memory image = Phix.ePhnum file 0 := by
  unfold Phix.ePhnum
  rw [shows.load16 (show (44 : Word).toNat + 2 ≤ size.toNat from le_trans (by decide) header),
    zero_add]

end Header

/-- A header of the table is read in the image as in the file. -/
theorem elf32PhdrAt {c : Word} (inside : c.toNat + 28 ≤ size.toNat) :
    elf32PhdrAt memory (image + c) = Phix.elf32PhdrAt file c := by
  have bound := size.isLt
  have field : ∀ k : Word, k.toNat ≤ 24 →
      memory.load32 (image + c + k) = file.load32 (c + k) := by
    intro k small
    rw [BitVec.add_assoc]
    refine shows.load32 ?_
    rw [BitVec.toNat_add, Nat.mod_eq_of_lt (by omega)]
    omega
  have first := field 0 (by decide)
  rw [add_zero, add_zero] at first
  unfold Phix.elf32PhdrAt
  rw [first, field 4 (by decide), field 8 (by decide), field 16 (by decide), field 20 (by decide),
    field 24 (by decide)]

variable (complete : Complete file size) (hasTable : Phix.ePhoff file 0 ≠ 0)

include complete hasTable

/-- Each program header is that of the file. -/
theorem programHeader {i : ℕ} (inside : i < (Phix.ePhnum file 0).toNat) :
    Phix.elf32PhdrAt memory (elfProgramHeader memory image i) =
      Phix.elf32PhdrAt file (elfProgramHeader file 0 i) := by
  have bound := size.isLt
  have table := complete.table
  have offset := headerOffset_toNat (i := i) (by omega)
  unfold elfProgramHeader elfPheaders
  rw [shows.ePhoff complete.header, if_neg hasTable, if_neg hasTable, zero_add, BitVec.add_assoc]
  refine shows.elf32PhdrAt ?_
  rw [BitVec.toNat_add, offset, Nat.mod_eq_of_lt (by omega)]
  omega

/-- All of them are. -/
theorem programHeaders : programHeaders memory image = Phix.programHeaders file 0 := by
  unfold Phix.programHeaders
  rw [shows.ePhnum complete.header]
  exact List.map_congr_left fun i inside =>
    shows.programHeader complete hasTable (List.mem_range.mp inside)

end Shows

/-! What the loader has accepted. -/

/-- Where the loop did not fail, every header it passed is a `PT_LOAD`. -/
theorem elfProcessPheaders_loop_ptLoad {memory : ByteMemory} {remaining i : ℕ} {file : ElfFile}
    (done : ¬ (elfProcessPheaders.loop memory remaining i file).1 < 0) {j : ℕ}
    (above : i ≤ j) (below : j < i + remaining) :
    (elf32PhdrAt memory (elfProgramHeader memory (elfHeader file) j)).pType = ptLoad := by
  induction remaining generalizing i file with
  | zero => omega
  | succ remaining ih =>
      have place : elfHeader (elfProcessPheader file
          (elf32PhdrAt memory (elfProgramHeader memory (elfHeader file) i))).2 = elfHeader file :=
        elfProcessPheader_elfMemory file _
      unfold elfProcessPheaders.loop at done
      dsimp only at done
      split at done
      · rename_i failed
        exact absurd failed done
      rename_i passed
      rcases above.eq_or_lt with rfl | later
      · by_contra other
        unfold elfProcessPheader at passed
        rw [if_neg other] at passed
        exact passed (show (-EINVAL : Int) < 0 by decide)
      · have rest := ih done later (by omega)
        rwa [place] at rest

/-- The loop fails or returns 0. -/
theorem elfProcessPheaders_loop_status (memory : ByteMemory) (remaining i : ℕ) (file : ElfFile) :
    (elfProcessPheaders.loop memory remaining i file).1 = 0 ∨
      (elfProcessPheaders.loop memory remaining i file).1 < 0 := by
  induction remaining generalizing i file with
  | zero => exact .inl rfl
  | succ remaining ih =>
      unfold elfProcessPheaders.loop
      dsimp only
      split
      · rename_i failed
        exact .inr failed
      · exact ih _ _

/-- So does the whole parser. -/
theorem elfProcessLoaded_status {memory : ByteMemory} {file : ElfFile}
    (done : ¬ (elfProcessLoaded memory file).1 < 0) : (elfProcessLoaded memory file).1 = 0 := by
  have either : (elfProcessLoaded memory file).1 = 0 ∨ (elfProcessLoaded memory file).1 < 0 := by
    unfold elfProcessLoaded
    dsimp only
    split
    · rename_i failed
      exact .inr failed
    · exact elfProcessPheaders_loop_status ..
  exact either.resolve_right done

/-- What an image that is accepted says: its class and its encoding, if any, are those of a 32-bit
machine with the least significant byte first, and it has program headers, all of them `PT_LOAD`. -/
structure Accepted (memory : ByteMemory) (image : Word) : Prop where
  format : eIdent memory image eiClass = elfClassNone ∨ eIdent memory image eiClass = elfClass32
  encoding : eIdent memory image eiData = elfDataNone ∨ eIdent memory image eiData = elfData2Lsb
  hasTable : ePhoff memory image ≠ 0
  segments : ∀ phdr ∈ programHeaders memory image, phdr.pType = ptLoad

/-- The parser does not fail on accepted images only. -/
theorem elfProcessLoaded_accepted {memory : ByteMemory} {file : ElfFile}
    (done : ¬ (elfProcessLoaded memory file).1 < 0) : Accepted memory file.elfMemory := by
  unfold elfProcessLoaded at done
  dsimp only at done
  split at done
  · rename_i failed
    exact absurd failed done
  rename_i valid
  have all : elfValidSignature memory (elfHeader file) ∧ elfValidClass memory (elfHeader file) ∧
      elfValidEncoding memory (elfHeader file) ∧ elfHasProgramHeader memory (elfHeader file) := by
    by_contra invalid
    unfold elfValidateLoad at valid
    rw [if_pos invalid] at valid
    exact valid (by decide)
  obtain ⟨_, format, encoding, hasTable⟩ := all
  refine ⟨of_decide_eq_true format, of_decide_eq_true encoding, of_decide_eq_true hasTable, ?_⟩
  intro phdr member
  obtain ⟨i, inside, rfl⟩ := List.mem_map.mp member
  refine elfProcessPheaders_loop_ptLoad done (Nat.zero_le i) ?_
  rw [Nat.zero_add]
  exact List.mem_range.mp inside

/-- An image that shows a complete file is accepted just when the file is. -/
theorem Shows.accepted_iff {memory file : ByteMemory} {image size : Word}
    (shows : Shows memory image file size) (complete : Complete file size) :
    Accepted memory image ↔ Accepted file 0 := by
  have format := shows.eIdent complete.header (show eiClass.toNat < 16 by decide)
  have encoding := shows.eIdent complete.header (show eiData.toNat < 16 by decide)
  have offset := shows.ePhoff complete.header
  constructor
  · intro accepted
    have hasTable := accepted.hasTable
    rw [offset] at hasTable
    refine ⟨?_, ?_, hasTable, ?_⟩
    · rw [← format]
      exact accepted.format
    · rw [← encoding]
      exact accepted.encoding
    · rw [← shows.programHeaders complete hasTable]
      exact accepted.segments
  · intro accepted
    refine ⟨?_, ?_, ?_, ?_⟩
    · rw [format]
      exact accepted.format
    · rw [encoding]
      exact accepted.encoding
    · rw [offset]
      exact accepted.hasTable
    · rw [shows.programHeaders complete accepted.hasTable]
      exact accepted.segments

/-! What the loader accepts. -/

/-- Where every header is a `PT_LOAD` the loop returns 0. -/
theorem elfProcessPheaders_loop_done {memory : ByteMemory} {remaining i : ℕ} {file : ElfFile}
    (all : ∀ j, i ≤ j → j < i + remaining →
      (elf32PhdrAt memory (elfProgramHeader memory (elfHeader file) j)).pType = ptLoad) :
    (elfProcessPheaders.loop memory remaining i file).1 = 0 := by
  induction remaining generalizing i file with
  | zero => rfl
  | succ remaining ih =>
      have first := all i le_rfl (by omega)
      have place : elfHeader (elfProcessPheader file
          (elf32PhdrAt memory (elfProgramHeader memory (elfHeader file) i))).2 = elfHeader file :=
        elfProcessPheader_elfMemory file _
      have status : (elfProcessPheader file
          (elf32PhdrAt memory (elfProgramHeader memory (elfHeader file) i))).1 = 0 := by
        unfold elfProcessPheader
        rw [if_pos first]
      unfold elfProcessPheaders.loop
      dsimp only
      rw [status, if_neg (lt_irrefl 0)]
      refine ih fun j above below => ?_
      rw [place]
      exact all j (by omega) (by omega)

/-- An accepted image with the signature is processed with status 0. -/
theorem Accepted.elfProcessLoaded {memory : ByteMemory} {file : ElfFile}
    (accepted : Accepted memory file.elfMemory)
    (signature : elfValidSignature memory file.elfMemory) :
    (elfProcessLoaded memory file).1 = 0 := by
  have valid : elfValidateLoad memory (elfHeader file) = 0 := by
    unfold elfValidateLoad
    refine if_neg (not_not.mpr ⟨signature, ?_, ?_, ?_⟩)
    · exact decide_eq_true accepted.format
    · exact decide_eq_true accepted.encoding
    · exact decide_eq_true accepted.hasTable
  unfold Phix.elfProcessLoaded
  dsimp only
  rw [valid, if_neg (lt_irrefl 0)]
  refine elfProcessPheaders_loop_done fun j _ below => ?_
  rw [Nat.zero_add] at below
  exact accepted.segments _ (List.mem_map.mpr ⟨j, List.mem_range.mpr below, rfl⟩)

end Phix
