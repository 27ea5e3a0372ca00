import Phix.Fs.Descriptors
import Phix.Fs.Lookup
import Phix.Fs.Opening

/-! # The drive of a path

`pparser_parse` assigns the truth value of a comparison to the drive, which is 0 for every path
it accepts (`Phix.FileSystem.pparserParse_driveNo`). The drive in a path is therefore the one
that is opened exactly for the paths that are not accepted and those that start with the digit
0 (`Phix.fopen_drive_iff`).
-/

namespace Phix

namespace FileSystem

theorem pparserParse_driveNo {fs next : FileSystem} {path : List Byte} {root : PathRoot}
    (parsed : fs.pparserParse path = (some root, next)) : root.driveNo = 0 := by
  by_cases rejected : PathRejected path
  · rw [fs.pparserParse_rejected rejected] at parsed
    cases parsed
  · rw [fs.pparserParse_accepted rejected] at parsed
    split at parsed
    · cases parsed
    · cases parsed
      rfl

/-- The file system with another disk behind its volume. -/
def withDisk (fs : FileSystem) (disk : Disk) : FileSystem :=
  { fs with volume := { fs.volume with disk } }

/-- Opening fails, and would in the same way whatever is on the disk. -/
def FailsUnread (fs : FileSystem) (filename modeStr : List Byte) : Prop :=
  ∃ (status : Int) (next : FileSystem), status < 0 ∧
    ∀ disk, (fs.withDisk disk).fopen filename modeStr = some (status, next.withDisk disk)

/-- A path that makes no root is not opened. -/
theorem failsUnread_of_none {fs : FileSystem} {filename : List Byte} (modeStr : List Byte)
    (unparsed : (fs.pparserParse filename).1 = none) : fs.FailsUnread filename modeStr := by
  refine ⟨-EINVAL, (fs.pparserParse filename).2, by decide, fun disk => ?_⟩
  have parsed : (fs.withDisk disk).pparserParse filename =
      (none, (fs.pparserParse filename).2.withDisk disk) := by
    by_cases rejected : PathRejected filename
    · rw [pparserParse_rejected _ rejected, pparserParse_rejected _ rejected]
    · rw [pparserParse_accepted _ rejected] at unparsed ⊢
      split at unparsed
      · rename_i isNull
        rw [pparserParse_accepted _ rejected, if_pos isNull]
        exact if_pos isNull
      · cases unparsed
  unfold fopen
  rw [parsed]

end FileSystem

open FileSystem

/-- The drive opened is the drive of the path: the root of an accepted path has the value of its
leading digit, and a path on one of the drives 1 to 9 is not opened and disk 0 not read for
it. -/
structure DriveOpened (fs : FileSystem) (filename : List Byte) : Prop where
  value : ∀ root next, fs.pparserParse filename = (some root, next) →
    root.driveNo = toDigit (field8 filename 0)
  absent : pparserPathValidFormat filename = true → 1 ≤ toDigit (field8 filename 0) →
    ∀ modeStr, fs.FailsUnread filename modeStr

theorem toDigit_eq_zero {c : Byte} : isDigit c = true → (toDigit c = 0 ↔ c = 0x30) := by
  revert c
  decide

/-- **The drive of a path is the one opened exactly when the path is rejected, no block is free
or its leading digit is 0.** -/
theorem fopen_drive_iff (fs : FileSystem) (filename : List Byte) :
    DriveOpened fs filename ↔
      PathRejected filename ∨ fs.machine.freeBlocks = ∅ ∨ field8 filename 0 = 0x30 := by
  rw [← or_assoc, ← fs.pparserParse_eq_none]
  constructor
  · intro opened
    cases parsed : fs.pparserParse filename with
    | mk result next =>
        cases result with
        | none => exact .inl rfl
        | some root =>
            have accepted : ¬ PathRejected filename := by
              intro rejected
              rw [fs.pparserParse_rejected rejected] at parsed
              cases parsed
            have digit := opened.value root next parsed
            rw [pparserParse_driveNo parsed] at digit
            have valid := not_not.mp (not_or.mp accepted).2
            unfold pparserPathValidFormat at valid
            exact .inr ((toDigit_eq_zero (of_decide_eq_true valid).2.1).mp digit.symm)
  · rintro (unparsed | zero)
    · refine ⟨fun root next parsed => ?_, fun _ _ modeStr => failsUnread_of_none modeStr unparsed⟩
      rw [parsed] at unparsed
      cases unparsed
    · have digit : toDigit (field8 filename 0) = 0 := by
        rw [zero]
        decide
      refine ⟨fun root next parsed => ?_, fun _ other => ?_⟩
      · rw [digit]
        exact pparserParse_driveNo parsed
      · rw [digit] at other
        exact absurd other (by decide)

/-- The path `1:/x`. -/
def otherDrivePath : List Byte := [0x31, 0x3A, 0x2F, 0x78]

/-- The path `1:/x` is parsed as one on drive 0. -/
theorem fopen_drive_fails : ¬ DriveOpened freshFileSystem otherDrivePath := by
  intro opened
  have accepted : ¬ PathRejected otherDrivePath := by
    unfold PathRejected
    decide
  cases parsed : freshFileSystem.pparserParse otherDrivePath with
  | mk result next =>
      cases result with
      | none =>
          have unparsed := congrArg Prod.fst parsed
          exact (not_or.mpr ⟨accepted, freshFileSystem_room⟩)
            ((freshFileSystem.pparserParse_eq_none otherDrivePath).mp unparsed)
      | some root =>
          have digit := opened.value root next parsed
          rw [pparserParse_driveNo parsed] at digit
          exact absurd digit (by decide)

end Phix
