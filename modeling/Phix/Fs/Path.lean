import Phix.Fs.FileSystem

/-! # Parsing a path

`fs/pparser.c`: the drive, then the parts between slashes, each in a buffer of its own. The
list of parts is kept as a list, each part with the addresses of its record and its buffer.
-/

namespace Phix

/-- `struct path_part`: its address, the address of its text and the text. -/
structure PathPart where
  self : Word
  part : Word
  text : List Byte

/-- `struct path_root` with its address. -/
structure PathRoot where
  self : Word
  driveNo : Int
  parts : List PathPart

def isDigit (c : Byte) : Bool := 48 ≤ c ∧ c ≤ 57

def toDigit (c : Byte) : Int := if isDigit c then (c.toNat : Int) - 48 else c.toInt

/-- `strnlen`. -/
def strnlen (str : List Byte) (max : ℕ) : ℕ := min str.length max

def pparserPathValidFormat (path : List Byte) : Bool :=
  3 ≤ strnlen path phixMaxPath ∧ isDigit (field8 path 0) ∧ field8 path 1 = 0x3A ∧
    field8 path 2 = 0x2F

/-- `pparser_get_drive_by_path`: the drive, and what is left of the path. -/
def pparserGetDriveByPath (path : List Byte) : Int × List Byte :=
  if ¬ pparserPathValidFormat path then (-EBADPATH, path)
  else (toDigit (field8 path 0), path.drop 3)

namespace FileSystem

/-- `pparser_create_root`. -/
def pparserCreateRoot (fs : FileSystem) (driveNo : Int) : PathRoot × FileSystem :=
  let (root, fs) := fs.kzalloc sizeofPathRoot
  (⟨root, driveNo, []⟩, fs)

/-- `pparser_get_path_part`: the buffer or null, the text copied, and what is left of the path.
The text goes through the null pointer when there is no buffer. -/
def pparserGetPathPart (fs : FileSystem) (path : List Byte) :
    Word × List Byte × List Byte × FileSystem :=
  let (pathPart, fs) := fs.kzalloc phixMaxPath
  let text := path.takeWhile fun c => c ≠ 0x2F
  let rest := (path.dropWhile fun c => c ≠ 0x2F).tail
  if text = [] then (null, text, rest, fs.kfree pathPart) else (pathPart, text, rest, fs)

/-- `pparser_parse_path_part`: the part, if there is one, and what is left of the path. -/
def pparserParsePathPart (fs : FileSystem) (path : List Byte) :
    Option PathPart × List Byte × FileSystem :=
  let (pathPartStr, text, rest, fs) := fs.pparserGetPathPart path
  if pathPartStr = null then (none, rest, fs)
  else
    let (part, fs) := fs.kzalloc sizeofPathPart
    if part = null then (none, rest, fs) else (some ⟨part, pathPartStr, text⟩, rest, fs)

theorem pparserParsePathPart_shorter {fs next : FileSystem} {path rest : List Byte}
    {part : PathPart}
    (parsed : fs.pparserParsePathPart path = (some part, rest, next)) :
    rest.length < path.length := by
  unfold pparserParsePathPart pparserGetPathPart at parsed
  generalize fs.kzalloc phixMaxPath = allocated at parsed
  by_cases empty : path.takeWhile (fun c => c ≠ 0x2F) = []
  · simp only [empty, ↓reduceIte, Prod.mk.injEq, reduceCtorEq, false_and] at parsed
  · have shorter : (path.dropWhile fun c => c ≠ 0x2F).tail.length < path.length := by
      have whole := congrArg List.length
        (List.takeWhile_append_dropWhile (p := fun c : Byte => decide (c ≠ 0x2F)) (l := path))
      have positive := List.length_pos_iff.mpr empty
      rw [List.length_append] at whole
      rw [List.length_tail]
      omega
    simp only [empty, ↓reduceIte] at parsed
    split at parsed
    · cases parsed
    · generalize (allocated.2.kzalloc sizeofPathPart) = second at parsed
      split at parsed
      · cases parsed
      · cases parsed
        exact shorter

/-- The loop of `pparser_parse`: the parts from here on. -/
def pparserParse.loop (fs : FileSystem) (path : List Byte) : List PathPart × FileSystem :=
  match _parsed : fs.pparserParsePathPart path with
  | (none, _, fs) => ([], fs)
  | (some part, rest, fs) =>
      let (parts, fs) := loop fs rest
      (part :: parts, fs)
termination_by path.length
decreasing_by exact pparserParsePathPart_shorter _parsed

/-- `pparser_parse`; the drive is the truth value of a comparison. -/
def pparserParse (fs : FileSystem) (path : List Byte) : Option PathRoot × FileSystem :=
  if phixMaxPath < path.length then (none, fs)
  else
    let (drive, tmp) := pparserGetDriveByPath path
    let driveNo : Int := if drive < 0 then 1 else 0
    if driveNo ≠ 0 then (none, fs)
    else
      let (root, fs) := fs.pparserCreateRoot driveNo
      if root.self = null then (none, fs)
      else
        let (parts, fs) := pparserParse.loop fs tmp
        (some { root with parts }, fs)

end FileSystem

end Phix
