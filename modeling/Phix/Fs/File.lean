import Phix.Fs.Directory

/-! # Files

The operations of the FAT16 file system at the end of `fs/fat/fat16.c`, and the calls of
`fs/file.c` over the descriptor table. `none` is a call that does not return, as for a
directory (`Phix.FileSystem.fat16LoadFatDirectory`).
-/

namespace Phix

open Searches

inductive FileMode where
  | read
  | write
  | append
  | invalid
  deriving DecidableEq

/-- `FILE_SEEK_MODE`; any other number is `other`. -/
inductive FileSeekMode where
  | set
  | cur
  | «end»
  | other
  deriving DecidableEq

/-- `struct file_stat`. -/
structure FileStat where
  flags : Word
  filesize : Word

def fileStatReadOnly : Word := 1

/-- `file_get_mode_by_string`, which compares one character. -/
def fileGetModeByString (m : List Byte) : FileMode :=
  if field8 m 0 = 0x72 then .read
  else if field8 m 0 = 0x77 then .write
  else if field8 m 0 = 0x61 then .append
  else .invalid

/-- `disk_get`: whether there is a disk with the index. -/
def diskGet (index : Int) : Bool := index = 0

namespace FileSystem

/-! `fs/fat/fat16.c` -/

/-- `fat16_open`: the descriptor, or a negative status as a pointer. -/
def fat16Open (fs : FileSystem) (part : PathPart) (path : List PathPart) (mode : FileMode) :
    Option (Word × FileSystem) :=
  if mode ≠ .read then some (BitVec.ofInt 32 (-ERDONLY), fs)
  else
    let (desc, fs) := fs.kzalloc sizeofFatFileDescriptor
    if desc = null then some (BitVec.ofInt 32 (-ENOMEM), fs)
    else do
      let (item, fs) ← fs.fat16GetDirectoryEntry part path
      let fs := fs.setFatDescriptor desc ⟨item, 0⟩
      if item = null then some (BitVec.ofInt 32 (- EIO), fs.kfree desc) else some (desc, fs)

/-- The loop of `fat16_read`, for the items that remain. -/
def fat16Read.loop (fs : FileSystem) (item : List Byte) (size : Word) :
    ℕ → Int → Int × List (List Byte) × FileSystem
  | 0, _ => (0, [], fs)
  | n + 1, offset =>
      let (ret, out, fs) := fs.readInternal (fat16GetFirstCluser item).toInt offset size.toInt
      if ret < 0 then (ret, [out], fs)
      else
        let (ret, rest, fs) := loop fs item size n (int32 (offset + size.toNat))
        (ret, out :: rest, fs)

/-- `fat16_read`: the status, the bytes stored for each item and the state. -/
def fat16Read (fs : FileSystem) (desc size n : Word) : Int × List (List Byte) × FileSystem :=
  let record := fs.fatDescriptorAt desc
  let item := fs.bytesAt (fs.fatItemAt record.item).ref
  let (ret, out, fs) := fat16Read.loop fs item size n.toNat record.pos.toInt
  if ret < 0 then (ret, out, fs) else (n.toInt, out, fs)

def fat16Seek (fs : FileSystem) (desc offset : Word) (seekMode : FileSeekMode) : Int × FileSystem :=
  let record := fs.fatDescriptorAt desc
  let item := fs.fatItemAt record.item
  if item.type ≠ fatItemTypeFile then (-EINVAL, fs)
  else if itemFilesize (fs.bytesAt item.ref) ≤ offset then (- EIO, fs)
  else
    match seekMode with
    | .set => (0, fs.setFatDescriptor desc { record with pos := offset })
    | .end => (-EUNIMP, fs)
    | .cur => (0, fs.setFatDescriptor desc { record with pos := record.pos + offset })
    | .other => (-EINVAL, fs)

/-- `fat16_stat`: the status, and what is stored through the argument on success. -/
def fat16Stat (fs : FileSystem) (desc : Word) : Int × Option FileStat :=
  let item := fs.fatItemAt (fs.fatDescriptorAt desc).item
  if item.type ≠ fatItemTypeFile then (-EINVAL, none)
  else
    let ritem := fs.bytesAt item.ref
    let flags := if itemAttributes ritem &&& fatFileReadOnly ≠ 0 then fileStatReadOnly else 0
    (0, some ⟨flags, itemFilesize ritem⟩)

/-- `fat16_close`. -/
def fat16Close (fs : FileSystem) (desc : Word) : Option (Int × FileSystem) := do
  let fs ← fs.fat16FreeItem (fs.fatDescriptorAt desc).item
  some (0, fs.kfree desc)

/-! `fs/file.c` -/

/-- `file_descriptor_new`: the status, and the descriptor stored through the argument. The
pointer that `kzalloc` returns is not tested. -/
def fileDescriptorNew (fs : FileSystem) : Int × Word × FileSystem :=
  match first (fun i => fs.fileDescriptors i = null) phixMaxFileDescriptors 0 with
  | some i =>
      let (desc, fs) := fs.kzalloc sizeofFileDescriptor
      let fs := fs.setFileDescriptor desc ⟨i + 1, null⟩
      (0, desc, { fs with fileDescriptors := Function.update fs.fileDescriptors i desc })
  | none => (-ENOMEM, null, fs)

def fileDescriptorFree (fs : FileSystem) (desc : Word) : FileSystem :=
  let slot := ((fs.fileDescriptorAt desc).index - 1).toNat
  { fs with fileDescriptors := Function.update fs.fileDescriptors slot null }.kfree desc

def fileDescriptorGet (fs : FileSystem) (fd : Int) : Word :=
  if fd ≤ 0 ∨ (phixMaxFileDescriptors : Int) ≤ fd then null else fs.fileDescriptors (fd - 1).toNat

/-- `fopen`: the descriptor's number or a negative status. The parsed path is not freed. -/
def fopen (fs : FileSystem) (filename modeStr : List Byte) : Option (Int × FileSystem) :=
  match fs.pparserParse filename with
  | (none, fs) => some (-EINVAL, fs)
  | (some ⟨_, driveNo, parts⟩, fs) =>
      match parts with
      | [] => some (-EINVAL, fs)
      | part :: path =>
          if ¬ diskGet driveNo then some (- EIO, fs)
          else if ¬ fs.mounted then some (- EIO, fs)
          else if fileGetModeByString modeStr = .invalid then some (-EINVAL, fs)
          else do
            let (privateData, fs) ← fs.fat16Open part path (fileGetModeByString modeStr)
            if privateData.toInt < 0 then some (privateData.toInt, fs)
            else
              let (ret, desc, fs) := fs.fileDescriptorNew
              if ret < 0 then some (ret, fs)
              else
                let fs := fs.setFileDescriptor desc { fs.fileDescriptorAt desc with privateData }
                some ((fs.fileDescriptorAt desc).index, fs)

def fstat (fs : FileSystem) (fd : Int) : Int × Option FileStat :=
  let desc := fs.fileDescriptorGet fd
  if desc = null then (-EINVAL, none) else fs.fat16Stat (fs.fileDescriptorAt desc).privateData

def fseek (fs : FileSystem) (fd offset : Int) (whence : FileSeekMode) : Int × FileSystem :=
  let desc := fs.fileDescriptorGet fd
  if desc = null then (-EINVAL, fs)
  else fs.fat16Seek (fs.fileDescriptorAt desc).privateData (BitVec.ofInt 32 offset) whence

/-- `fread`: the status, the bytes stored for each item and the state. -/
def fread (fs : FileSystem) (size n : Word) (fd : Int) : Int × List (List Byte) × FileSystem :=
  if size * n = 0 ∨ fd < 1 then (-EINVAL, [], fs)
  else
    let desc := fs.fileDescriptorGet fd
    if desc = null then (-EINVAL, [], fs)
    else fs.fat16Read (fs.fileDescriptorAt desc).privateData size n

/-- `fclose`. -/
def fclose (fs : FileSystem) (fd : Int) : Option (Int × FileSystem) :=
  let desc := fs.fileDescriptorGet fd
  if desc = null then some (-EINVAL, fs)
  else do
    let (ret, fs) ← fs.fat16Close (fs.fileDescriptorAt desc).privateData
    if ret = 0 then some (ret, fs.fileDescriptorFree desc) else some (ret, fs)

end FileSystem

end Phix
