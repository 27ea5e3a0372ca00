import Phix.Foundation.Traces
import Phix.Fs.Position

/-! # Seeking

`fat16_seek` compares the offset with the size of the file before it looks at the mode, as an
unsigned number. A position set from the start of the file is therefore in it, but one set from
the old position need not be. A run of seeks keeps the position inside the file, and where it was
asked for, exactly when each call is refused or asks for such a position
(`Phix.fseek_in_bounds_iff`).
-/

namespace Phix

open Traces

/-- A call of `fseek` on a descriptor; its offset is an `int`. -/
structure SeekCall where
  offset : Word
  whence : FileSeekMode

namespace SeekCall

/-- The position that a call in the position `pos` asks for is `next`. -/
def Requests (call : SeekCall) (pos next : ℕ) : Prop :=
  match call.whence with
  | .set => (next : Int) = call.offset.toInt
  | .cur => (next : Int) = pos + call.offset.toInt
  | .end | .other => False

/-- The position that a call asks for is in a file of the given size, if the call asks for one. -/
def Fits (call : SeekCall) (pos filesize : ℕ) : Prop :=
  match call.whence with
  | .set => 0 ≤ call.offset.toInt
  | .cur => 0 ≤ pos + call.offset.toInt ∧ pos + call.offset.toInt ≤ filesize
  | .end | .other => True

end SeekCall

namespace FileSystem

/-- The state after a call on the descriptor. -/
def seek (fd : Int) (fs : FileSystem) (call : SeekCall) : FileSystem :=
  (fs.fseek fd call.offset.toInt call.whence).2

/-- A call that succeeds leaves the position it was asked for, inside the file; one that fails
leaves the position as it was. -/
structure SeeksExactly (fd : Int) (fs : FileSystem) (call : SeekCall) : Prop where
  success : (fs.fseek fd call.offset.toInt call.whence).1 = 0 →
    call.Requests (fs.position fd).toNat ((fs.seek fd call).position fd).toNat ∧
      (fs.seek fd call).position fd ≤ fs.filesizeOf fd
  failure : (fs.fseek fd call.offset.toInt call.whence).1 < 0 →
    (fs.seek fd call).position fd = fs.position fd

/-- The call is refused, because its offset is not below the size of the file as an unsigned
number, or asks for a position in the file. -/
def SeekFits (fd : Int) (fs : FileSystem) (call : SeekCall) : Prop :=
  fs.filesizeOf fd ≤ call.offset ∨
    call.Fits (fs.position fd).toNat (fs.filesizeOf fd).toNat

/-- The state with another position in the descriptor. -/
def moveTo (fs : FileSystem) (fd : Int) (pos : Word) : FileSystem :=
  fs.setFatDescriptor (fs.fatDescriptorOf fd)
    { fs.fatDescriptorAt (fs.fatDescriptorOf fd) with pos }

section Move

variable (fs : FileSystem) (fd : Int) (pos : Word)

theorem moveTo_record : (fs.moveTo fd pos).fatDescriptorAt (fs.fatDescriptorOf fd) =
    { fs.fatDescriptorAt (fs.fatDescriptorOf fd) with pos } :=
  Function.update_self ..

theorem moveTo_position : (fs.moveTo fd pos).position fd = pos :=
  congrArg FatFileDescriptor.pos (fs.moveTo_record fd pos)

theorem moveTo_itemOf : (fs.moveTo fd pos).itemOf fd = fs.itemOf fd := by
  have item := congrArg FatFileDescriptor.item (fs.moveTo_record fd pos)
  exact congrArg fs.fatItemAt item

end Move

variable {fs : FileSystem} {fd : Int}

theorem OpensFile.moveTo (opened : fs.OpensFile fd) (pos : Word) :
    (fs.moveTo fd pos).OpensFile fd where
  resolved := opened.resolved
  regular := (congrArg FatItem.type (fs.moveTo_itemOf fd pos)).trans opened.regular

/-- What `fseek` does to the descriptor of a regular file. -/
theorem OpensFile.fseek_eq (opened : fs.OpensFile fd) (call : SeekCall) :
    fs.fseek fd call.offset.toInt call.whence =
      if fs.filesizeOf fd ≤ call.offset then (- EIO, fs)
      else
        match call.whence with
        | .set => (0, fs.moveTo fd call.offset)
        | .end => (-EUNIMP, fs)
        | .cur => (0, fs.moveTo fd (fs.position fd + call.offset))
        | .other => (-EINVAL, fs) := by
  have regular := opened.regular
  unfold itemOf fatDescriptorOf at regular
  unfold fseek fat16Seek
  dsimp only
  rw [if_neg opened.resolved, BitVec.ofInt_toInt, if_neg (not_not.mpr regular)]
  rfl

/-- A call leaves the file open, and its size as it was. -/
theorem OpensFile.seek (opened : fs.OpensFile fd) (call : SeekCall) :
    (fs.seek fd call).OpensFile fd := by
  unfold FileSystem.seek
  rw [opened.fseek_eq call]
  split
  · exact opened
  · split
    · exact opened.moveTo _
    · exact opened
    · exact opened.moveTo _
    · exact opened

theorem seeksExactly_of_failed {call : SeekCall} {ret : Int}
    (failed : fs.fseek fd call.offset.toInt call.whence = (ret, fs)) (negative : ret < 0) :
    SeeksExactly fd fs call where
  success zero := by
    rw [failed] at zero
    exact absurd zero negative.ne
  failure _ := by
    rw [seek, failed]

theorem seeksExactly_moved_iff {call : SeekCall} {pos : Word}
    (moved : fs.fseek fd call.offset.toInt call.whence = (0, fs.moveTo fd pos)) :
    SeeksExactly fd fs call ↔
      call.Requests (fs.position fd).toNat pos.toNat ∧ pos ≤ fs.filesizeOf fd := by
  have place : (fs.seek fd call).position fd = pos := by
    rw [seek, moved]
    exact fs.moveTo_position fd pos
  constructor
  · intro exact_
    rw [← place]
    exact exact_.success (congrArg Prod.fst moved)
  · intro inside
    refine ⟨fun _ => place.symm ▸ inside, fun negative => ?_⟩
    rw [moved] at negative
    exact absurd negative (lt_irrefl 0)

/-- One call. -/
theorem OpensFile.seeksExactly_iff (opened : fs.OpensFile fd) (call : SeekCall) :
    SeeksExactly fd fs call ↔ SeekFits fd fs call := by
  obtain ⟨offset, whence⟩ := call
  have eq := opened.fseek_eq ⟨offset, whence⟩
  unfold SeekFits
  by_cases refused : fs.filesizeOf fd ≤ offset
  · rw [if_pos refused] at eq
    exact iff_of_true (seeksExactly_of_failed eq (by decide)) (.inl refused)
  · rw [if_neg refused] at eq
    rw [or_iff_right refused]
    have signed : offset.toInt = offset.toNat ∨ offset.toInt = offset.toNat - 2 ^ 32 := by
      rw [BitVec.toInt_eq_toNat_cond]
      split
      · exact .inl rfl
      · exact .inr rfl
    have range := offset.toInt_lt
    have size := (fs.filesizeOf fd).isLt
    rw [BitVec.le_def] at refused
    cases whence with
    | set =>
        rw [seeksExactly_moved_iff eq, BitVec.le_def]
        change (offset.toNat : Int) = offset.toInt ∧
          offset.toNat ≤ (fs.filesizeOf fd).toNat ↔ 0 ≤ offset.toInt
        omega
    | cur =>
        rw [seeksExactly_moved_iff eq, BitVec.le_def]
        change ((fs.position fd + offset).toNat : Int) = (fs.position fd).toNat + offset.toInt ∧
          (fs.position fd + offset).toNat ≤ (fs.filesizeOf fd).toNat ↔
          0 ≤ (fs.position fd).toNat + offset.toInt ∧
            (fs.position fd).toNat + offset.toInt ≤ (fs.filesizeOf fd).toNat
        rw [BitVec.toNat_add]
        omega
    | «end» => exact iff_of_true (seeksExactly_of_failed eq (by decide)) trivial
    | other => exact iff_of_true (seeksExactly_of_failed eq (by decide)) trivial

end FileSystem

open FileSystem

/-- **A run of seeks keeps the position inside the file, and where it was asked for, exactly when
each call is refused for its offset or asks for a position in the file.** -/
theorem fseek_in_bounds_iff {fs : FileSystem} {fd : Int} (opened : fs.OpensFile fd)
    (calls : List SeekCall) :
    Along (seek fd) (SeeksExactly fd) fs calls ↔ Along (seek fd) (SeekFits fd) fs calls := by
  induction calls generalizing fs with
  | nil => exact Iff.rfl
  | cons call calls ih => exact and_congr (opened.seeksExactly_iff call) (ih (opened.seek call))

/-- In a file of 512 bytes, a seek to byte 400 and 50 bytes further. -/
theorem fseek_in_bounds_iff_clusterFile :
    Along (seek 1) (SeeksExactly 1) clusterFile [⟨400, .set⟩, ⟨50, .cur⟩] := by
  refine (fseek_in_bounds_iff clusterFile_opensFile _).mpr ⟨.inr ?_, .inr ?_, trivial⟩
  · change (0 : Int) ≤ (400 : Word).toInt
    decide
  · exact ⟨by decide, by decide⟩

/-- A seek to the last byte of the file and as far again: both succeed, and the position is behind
the end. -/
theorem fseek_in_bounds_fails :
    clusterFile.OpensFile 1 ∧ clusterFile.filesizeOf 1 = 512 ∧
      (clusterFile.fseek 1 511 .set).1 = 0 ∧
      ((clusterFile.seek 1 ⟨511, .set⟩).fseek 1 511 .cur).1 = 0 ∧
      ((clusterFile.seek 1 ⟨511, .set⟩).seek 1 ⟨511, .cur⟩).position 1 = 1022 ∧
      ¬ Along (seek 1) (SeeksExactly 1) clusterFile [⟨511, .set⟩, ⟨511, .cur⟩] := by
  have second : ((clusterFile.seek 1 ⟨511, .set⟩).fseek 1 511 .cur).1 = 0 := by decide
  have place : ((clusterFile.seek 1 ⟨511, .set⟩).seek 1 ⟨511, .cur⟩).position 1 = 1022 := by decide
  refine ⟨clusterFile_opensFile, by decide, by decide, second, place, ?_⟩
  rintro ⟨-, moves, -⟩
  have inside := (moves.success second).2
  rw [place] at inside
  exact absurd inside (by decide)

end Phix
