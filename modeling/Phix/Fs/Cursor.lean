import Phix.Foundation.Readings
import Phix.Fs.Balance
import Phix.Fs.Components

/-! # The path parser on the bytes of a string

The functions of `fs/pparser.c` once more, on the bytes of the string and with the cursor that
they share, as computations that read one byte after the other. A loop gets fuel, and has no
result where this runs out. On a string with a terminator they return what the functions of
`Phix.Fs.Path` return and read no byte behind it (`Phix.Cursor.pparserParse_yields`). Parsing
undoes writing a path, as long as the whole path is short enough
(`Phix.path_parse_round_trip`).
-/

namespace Phix

open Reading

namespace Cursor

/-- A computation that reads the bytes of a string, by their distance from its start. -/
abbrev Chars (α : Type) := Reading ℕ Byte α

/-- `strlen`, from the length `len` on. -/
def strlen : ℕ → ℕ → Chars (Option ℕ)
  | 0, _ => return none
  | fuel + 1, len => do
      let c ← cell len
      if c = 0 then return some len else strlen fuel (len + 1)

/-- `strnlen`, from the length `len` on. -/
def strnlen (max : ℕ) : ℕ → ℕ → Chars (Option ℕ)
  | 0, _ => return none
  | fuel + 1, len => do
      let c ← cell len
      if c = 0 ∨ len = max then return some len else strnlen max fuel (len + 1)

/-- Whether `memcmp` finds the bytes at `p`; it stops at the first difference. -/
def memcmp (p : ℕ) : List Byte → Chars Bool
  | [] => return true
  | byte :: bytes => do
      let c ← cell p
      if c = byte then memcmp (p + 1) bytes else return false

def pparserPathValidFormat (fuel : ℕ) : Chars (Option Bool) :=
  (strnlen phixMaxPath fuel 0).andThen fun len =>
    if len < 3 then return some false
    else do
      let c ← cell 0
      if ¬ isDigit c then return some false
      else
        let equal ← memcmp 1 [0x3A, 0x2F]
        return some equal

/-- `pparser_get_drive_by_path`: the drive, and where the cursor is left. -/
def pparserGetDriveByPath (fuel : ℕ) : Chars (Option (Int × ℕ)) :=
  (pparserPathValidFormat fuel).andThen fun valid =>
    if ¬ valid then return some (-EBADPATH, 0)
    else do
      let c ← cell 0
      return some (toDigit c, 3)

/-- The copying loop of `pparser_get_path_part`: the bytes stored into the buffer, from its
index 0 on, and the cursor. -/
def copyPart : ℕ → ℕ → Chars (Option (List Byte × ℕ))
  | 0, _ => return none
  | fuel + 1, cursor => do
      let c ← cell cursor
      if c = 0 then return some ([], cursor)
      else
        let c ← cell cursor
        if c = slash then return some ([], cursor)
        else
          let c ← cell cursor
          (copyPart fuel (cursor + 1)).andThen fun (text, cursor) =>
            return some (c :: text, cursor)

/-- `pparser_get_path_part`. -/
def pparserGetPathPart (fuel : ℕ) (fs : FileSystem) (cursor : ℕ) :
    Chars (Option (Word × List Byte × ℕ × FileSystem)) :=
  let (pathPart, fs) := fs.kzalloc phixMaxPath
  (copyPart fuel cursor).andThen fun (text, cursor) => do
    let c ← cell cursor
    let cursor := if c = slash then cursor + 1 else cursor
    if text = [] then return some (null, text, cursor, fs.kfree pathPart)
    else return some (pathPart, text, cursor, fs)

/-- `pparser_parse_path_part`. -/
def pparserParsePathPart (fuel : ℕ) (fs : FileSystem) (cursor : ℕ) :
    Chars (Option (Option PathPart × ℕ × FileSystem)) :=
  (pparserGetPathPart fuel fs cursor).andThen fun (pathPartStr, text, cursor, fs) =>
    if pathPartStr = null then return some (none, cursor, fs)
    else
      let (part, fs) := fs.kzalloc sizeofPathPart
      if part = null then return some (none, cursor, fs)
      else return some (some ⟨part, pathPartStr, text⟩, cursor, fs)

/-- The loop of `pparser_parse` over the parts. -/
def parseParts (chars : ℕ) : ℕ → FileSystem → ℕ → Chars (Option (List PathPart × FileSystem))
  | 0, _, _ => return none
  | fuel + 1, fs, cursor =>
      (pparserParsePathPart chars fs cursor).andThen fun (part, cursor, fs) =>
        match part with
        | none => return some ([], fs)
        | some part =>
            (parseParts chars fuel fs cursor).andThen fun (parts, fs) =>
              return some (part :: parts, fs)

/-- `pparser_parse`, with the fuel of each of its loops. -/
def pparserParse (fuel : ℕ) (fs : FileSystem) : Chars (Option (Option PathRoot × FileSystem)) :=
  (strlen fuel 0).andThen fun len =>
    if phixMaxPath < len then return some (none, fs)
    else
      (pparserGetDriveByPath fuel).andThen fun (drive, tmp) =>
        let driveNo : Int := if drive < 0 then 1 else 0
        if driveNo ≠ 0 then return some (none, fs)
        else
          let (root, fs) := fs.pparserCreateRoot driveNo
          if root.self = null then return some (none, fs)
          else
            (parseParts fuel fuel fs tmp).andThen fun (parts, fs) =>
              return some (some { root with parts }, fs)

/-- The bytes from `p` on are a text and its terminator. -/
def IsString (string : ℕ → Byte) : ℕ → List Byte → Prop
  | p, [] => string p = 0
  | p, c :: text => string p = c ∧ c ≠ 0 ∧ IsString string (p + 1) text

variable {string : ℕ → Byte} {region : ℕ → Prop}

theorem IsString.terminator {text : List Byte} {p : ℕ} (holds : IsString string p text) :
    string (p + text.length) = 0 := by
  induction text generalizing p with
  | nil => exact holds
  | cons c text ih =>
      have last := ih holds.2.2
      rwa [Nat.add_right_comm] at last

/-- What is left of a string behind its first segment, and behind the separator. -/
theorem IsString.dropWhile {text : List Byte} {p : ℕ} (holds : IsString string p text) :
    IsString string (p + (text.takeWhile fun c => !isSlash c).length)
      (text.dropWhile fun c => !isSlash c) := by
  induction text generalizing p with
  | nil => exact holds
  | cons c text ih =>
      rw [List.takeWhile_cons, List.dropWhile_cons]
      cases cut : isSlash c with
      | true => exact holds
      | false =>
          have rest := ih holds.2.2
          rwa [Nat.add_right_comm] at rest

theorem IsString.drop {text : List Byte} {p k : ℕ} (holds : IsString string p text)
    (within : k ≤ text.length) : IsString string (p + k) (text.drop k) := by
  induction text generalizing p k with
  | nil =>
      obtain rfl := Nat.le_zero.mp within
      exact holds
  | cons c text ih =>
      cases k with
      | zero => exact holds
      | succ k =>
          have rest := ih holds.2.2 (Nat.le_of_succ_le_succ within)
          rwa [Nat.add_right_comm, Nat.add_assoc] at rest

theorem strlen_yields {text : List Byte} {p : ℕ} (holds : IsString string p text)
    (inside : ∀ q, p ≤ q → q ≤ p + text.length → region q) {fuel : ℕ}
    (enough : text.length < fuel) :
    Yields region string (strlen fuel p) (some (p + text.length)) := by
  induction text generalizing p fuel with
  | nil =>
      obtain ⟨fuel, rfl⟩ := Nat.exists_eq_succ_of_ne_zero (Nat.ne_of_gt enough)
      have terminated : string p = 0 := holds
      apply (Yields.cell (inside p le_rfl le_rfl)).bind
      rw [if_pos terminated]
      exact .pure _
  | cons c text ih =>
      rw [List.length_cons] at inside enough
      obtain ⟨fuel, rfl⟩ := Nat.exists_eq_succ_of_ne_zero (Nat.ne_zero_of_lt enough)
      obtain ⟨here, nonzero, rest⟩ := holds
      have more := ih rest (fun q lower upper => inside q (by omega) (by omega))
        (Nat.lt_of_succ_lt_succ enough)
      apply (Yields.cell (inside p le_rfl (by omega))).bind
      rw [if_neg (here ▸ nonzero), List.length_cons, ← Nat.add_assoc, Nat.add_right_comm]
      exact more

theorem strnlen_yields {text : List Byte} {p max : ℕ} (holds : IsString string p text)
    (inside : ∀ q, p ≤ q → q ≤ p + text.length → region q) (below : p ≤ max) {fuel : ℕ}
    (enough : text.length < fuel) :
    Yields region string (strnlen max fuel p) (some (min (p + text.length) max)) := by
  induction text generalizing p fuel with
  | nil =>
      obtain ⟨fuel, rfl⟩ := Nat.exists_eq_succ_of_ne_zero (Nat.ne_of_gt enough)
      have terminated : string p = 0 := holds
      apply (Yields.cell (inside p le_rfl le_rfl)).bind
      rw [if_pos (.inl terminated), List.length_nil, Nat.add_zero, Nat.min_eq_left below]
      exact .pure _
  | cons c text ih =>
      rw [List.length_cons] at inside enough
      obtain ⟨fuel, rfl⟩ := Nat.exists_eq_succ_of_ne_zero (Nat.ne_zero_of_lt enough)
      obtain ⟨here, nonzero, rest⟩ := holds
      apply (Yields.cell (inside p le_rfl (by omega))).bind
      by_cases full : p = max
      · rw [if_pos (.inr full), Nat.min_eq_right (by omega), full]
        exact .pure _
      · have more := ih rest (fun q lower upper => inside q (by omega) (by omega)) (by omega)
          (Nat.lt_of_succ_lt_succ enough)
        rw [if_neg (not_or.mpr ⟨here ▸ nonzero, full⟩), List.length_cons, ← Nat.add_assoc,
          Nat.add_right_comm]
        exact more

/-- The copying loop stores the first segment and leaves the cursor behind it. -/
theorem copyPart_yields {text : List Byte} {p : ℕ} (holds : IsString string p text)
    (inside : ∀ q, p ≤ q → q ≤ p + text.length → region q) {fuel : ℕ}
    (enough : text.length < fuel) :
    Yields region string (copyPart fuel p)
      (some (text.takeWhile fun c => !isSlash c,
        p + (text.takeWhile fun c => !isSlash c).length)) := by
  induction text generalizing p fuel with
  | nil =>
      obtain ⟨fuel, rfl⟩ := Nat.exists_eq_succ_of_ne_zero (Nat.ne_of_gt enough)
      have terminated : string p = 0 := holds
      apply (Yields.cell (inside p le_rfl le_rfl)).bind
      rw [if_pos terminated]
      exact .pure _
  | cons c text ih =>
      rw [List.length_cons] at inside enough
      obtain ⟨fuel, rfl⟩ := Nat.exists_eq_succ_of_ne_zero (Nat.ne_zero_of_lt enough)
      obtain ⟨here, nonzero, rest⟩ := holds
      have read : Yields region string (cell p) (string p) := .cell (inside p le_rfl (by omega))
      apply read.bind
      rw [if_neg (here ▸ nonzero)]
      apply read.bind
      rw [here, List.takeWhile_cons]
      cases cut : isSlash c with
      | true =>
          rw [if_pos (of_decide_eq_true cut)]
          exact .pure _
      | false =>
          have more := ih rest (fun q lower upper => inside q (by omega) (by omega))
            (Nat.lt_of_succ_lt_succ enough)
          rw [if_neg (of_decide_eq_false cut)]
          apply read.bind
          apply more.andThen
          rw [here, Nat.add_right_comm]
          exact .pure _

theorem IsString.byte {text : List Byte} {p k : ℕ} (holds : IsString string p text)
    (within : k ≤ text.length) : string (p + k) = field8 text k := by
  induction text generalizing p k with
  | nil =>
      obtain rfl := Nat.le_zero.mp within
      exact holds
  | cons c text ih =>
      cases k with
      | zero => exact holds.1
      | succ k =>
          have rest := ih holds.2.2 (Nat.le_of_succ_le_succ within)
          rwa [Nat.add_right_comm, Nat.add_assoc] at rest

variable {path : List Byte} {fuel : ℕ}

theorem IsString.cell_yields (holds : IsString string 0 path) {k : ℕ} (within : k ≤ path.length) :
    Yields (· ≤ path.length) string (cell k) (field8 path k) := by
  rw [← holds.byte within, Nat.zero_add]
  exact .cell within

/-- The comparison with `:/`. -/
theorem memcmp_yields (holds : IsString string 0 path) (long : 2 ≤ path.length) :
    Yields (· ≤ path.length) string (memcmp 1 [0x3A, 0x2F])
      (decide (field8 path 1 = 0x3A ∧ field8 path 2 = 0x2F)) := by
  unfold memcmp
  apply (holds.cell_yields (show 1 ≤ path.length by omega)).bind
  by_cases colon : field8 path 1 = 0x3A
  · rw [if_pos colon]
    unfold memcmp
    apply (holds.cell_yields long).bind
    by_cases last : field8 path 2 = 0x2F
    · rw [if_pos last, decide_eq_true ⟨colon, last⟩]
      exact .pure _
    · rw [if_neg last, decide_eq_false fun both => last both.2]
      exact .pure _
  · rw [if_neg colon, decide_eq_false fun both => colon both.1]
    exact .pure _

theorem pparserPathValidFormat_yields (holds : IsString string 0 path)
    (enough : path.length < fuel) :
    Yields (· ≤ path.length) string (pparserPathValidFormat fuel)
      (some (Phix.pparserPathValidFormat path)) := by
  have length := strnlen_yields holds (fun q _ upper => by rwa [Nat.zero_add] at upper)
    (Nat.zero_le phixMaxPath) enough
  apply length.andThen
  unfold Phix.pparserPathValidFormat Phix.strnlen
  rw [Nat.zero_add]
  by_cases short : min path.length phixMaxPath < 3
  · rw [if_pos short, decide_eq_false fun valid => absurd valid.1 (Nat.not_le.mpr short)]
    exact .pure _
  · rw [if_neg short]
    apply (holds.cell_yields (Nat.zero_le _)).bind
    by_cases digit : isDigit (field8 path 0) = true
    · rw [if_neg (not_not_intro digit)]
      apply (memcmp_yields holds (by omega)).bind
      simp only [Nat.not_lt.mp short, digit, true_and]
      exact .pure _
    · rw [if_pos digit, decide_eq_false fun valid => absurd valid.2.1 digit]
      exact .pure _

/-- The drive, and the cursor behind `d:/` of an accepted path. -/
theorem pparserGetDriveByPath_yields (holds : IsString string 0 path)
    (enough : path.length < fuel) :
    Yields (· ≤ path.length) string (pparserGetDriveByPath fuel)
      (some ((Phix.pparserGetDriveByPath path).1,
        if Phix.pparserPathValidFormat path then 3 else 0)) := by
  apply (pparserPathValidFormat_yields holds enough).andThen
  unfold Phix.pparserGetDriveByPath
  by_cases valid : Phix.pparserPathValidFormat path = true
  · rw [if_neg (not_not_intro valid), if_neg (not_not_intro valid), if_pos valid]
    apply (holds.cell_yields (Nat.zero_le _)).bind
    exact .pure _
  · rw [if_pos valid, if_pos valid, if_neg valid]
    exact .pure _

/-- Where the cursor is after a part, and the string that is left there. -/
theorem IsString.behind {text : List Byte} {p q : ℕ} (holds : IsString string p text)
    (after : q = p + (text.takeWhile fun c => !isSlash c).length) :
    IsString string (if string q = slash then q + 1 else q)
        (text.dropWhile fun c => !isSlash c).tail ∧
      (if string q = slash then q + 1 else q) + (text.dropWhile fun c => !isSlash c).tail.length =
        p + text.length ∧ q ≤ p + text.length := by
  have rest := holds.dropWhile
  have whole := congrArg List.length
    (List.takeWhile_append_dropWhile (p := fun c : Byte => !isSlash c) (l := text))
  rw [List.length_append] at whole
  rw [← after] at rest
  cases left : text.dropWhile fun c => !isSlash c with
  | nil =>
      rw [left] at rest whole
      have terminated : string q = 0 := rest
      have different : string q ≠ slash := by
        rw [terminated]
        decide
      rw [List.length_nil] at whole
      rw [if_neg different, List.tail_nil, List.length_nil]
      exact ⟨rest, by omega, by omega⟩
  | cons c others =>
      rw [left] at rest whole
      have cut : isSlash c = true := by
        have first := List.head?_dropWhile_not (fun c => !isSlash c) text
        rw [left] at first
        simpa using first
      rw [List.length_cons] at whole
      rw [if_pos (rest.1.trans (of_decide_eq_true cut)), List.tail_cons]
      exact ⟨rest.2.2, by omega, by omega⟩

theorem pparserGetPathPart_yields {fs next : FileSystem} {text name rest : List Byte} {p : ℕ}
    {pathPart : Word} (holds : IsString string p text)
    (inside : ∀ q, p ≤ q → q ≤ p + text.length → region q) (enough : text.length < fuel)
    (got : fs.pparserGetPathPart text = (pathPart, name, rest, next)) :
    ∃ q, IsString string q rest ∧ q + rest.length = p + text.length ∧ p ≤ q ∧
      Yields region string (pparserGetPathPart fuel fs p) (some (pathPart, name, q, next)) := by
  have copied := copyPart_yields holds inside enough
  have lower : p ≤ p + (text.takeWhile fun c => !isSlash c).length := Nat.le_add_right _ _
  generalize position : p + (text.takeWhile fun c => !isSlash c).length = q at copied lower
  obtain ⟨left, length, reached⟩ := holds.behind position.symm
  have terminator : Yields region string (cell q) (string q) := .cell (inside q lower reached)
  unfold FileSystem.pparserGetPathPart at got
  rw [ne_slash_eq] at got
  dsimp only at got
  have tail : rest = (text.dropWhile fun c => !isSlash c).tail := by
    split at got
    · cases got
      rfl
    · cases got
      rfl
  refine ⟨if string q = slash then q + 1 else q, tail ▸ left, tail ▸ length, ?_, ?_⟩
  · split
    · omega
    · exact lower
  · apply copied.andThen
    apply terminator.bind
    by_cases empty : (text.takeWhile fun c => !isSlash c) = []
    · rw [if_pos empty] at got ⊢
      cases got
      exact .pure _
    · rw [if_neg empty] at got ⊢
      cases got
      exact .pure _

/-- Parsing a part at the cursor returns what it does on the rest of the path, and leaves the
cursor where the rest goes on. -/
theorem pparserParsePathPart_yields {fs next : FileSystem} {text rest : List Byte} {p : ℕ}
    {part : Option PathPart} (holds : IsString string p text)
    (inside : ∀ q, p ≤ q → q ≤ p + text.length → region q) (enough : text.length < fuel)
    (parsed : fs.pparserParsePathPart text = (part, rest, next)) :
    ∃ q, IsString string q rest ∧ q + rest.length = p + text.length ∧ p ≤ q ∧
      Yields region string (pparserParsePathPart fuel fs p) (some (part, q, next)) := by
  unfold FileSystem.pparserParsePathPart at parsed
  cases got : fs.pparserGetPathPart text with
  | mk pathPart result =>
      obtain ⟨name, remaining, middle⟩ := result
      obtain ⟨q, left, length, lower, yields⟩ := pparserGetPathPart_yields holds inside enough got
      rw [got] at parsed
      dsimp only at parsed
      by_cases absent : pathPart = null
      · rw [if_pos absent] at parsed
        cases parsed
        refine ⟨q, left, length, lower, yields.andThen ?_⟩
        dsimp only
        rw [if_pos absent]
        exact .pure _
      · rw [if_neg absent] at parsed
        by_cases full : (middle.kzalloc sizeofPathPart).1 = null
        · rw [if_pos full] at parsed
          cases parsed
          refine ⟨q, left, length, lower, yields.andThen ?_⟩
          dsimp only
          rw [if_neg absent, if_pos full]
          exact .pure _
        · rw [if_neg full] at parsed
          cases parsed
          refine ⟨q, left, length, lower, yields.andThen ?_⟩
          dsimp only
          rw [if_neg absent, if_neg full]
          exact .pure _

/-- The loop parses the same parts with enough fuel. -/
theorem parseParts_yields {fs next : FileSystem} {text : List Byte} {p chars : ℕ}
    {parts : List PathPart} (holds : IsString string p text)
    (inside : ∀ q, p ≤ q → q ≤ p + text.length → region q) (long : text.length < chars)
    (enough : text.length < fuel)
    (parsed : FileSystem.pparserParse.loop fs text = (parts, next)) :
    Yields region string (parseParts chars fuel fs p) (some (parts, next)) := by
  induction fs, text using FileSystem.pparserParse.loop.induct generalizing p fuel parts next with
  | case1 fs text rest middle part =>
      obtain ⟨fuel, rfl⟩ := Nat.exists_eq_succ_of_ne_zero (Nat.ne_zero_of_lt enough)
      obtain ⟨q, _, _, _, yields⟩ := pparserParsePathPart_yields holds inside long part
      rw [FileSystem.pparserParse.loop] at parsed
      split at parsed
      · rename_i same
        cases part.symm.trans same
        cases parsed
        apply yields.andThen
        exact .pure _
      · rename_i same
        cases part.symm.trans same
  | case2 fs text part rest middle found others last looped ih =>
      obtain ⟨fuel, rfl⟩ := Nat.exists_eq_succ_of_ne_zero (Nat.ne_zero_of_lt enough)
      obtain ⟨q, left, length, lower, yields⟩ := pparserParsePathPart_yields holds inside long found
      have shorter := FileSystem.pparserParsePathPart_shorter found
      rw [FileSystem.pparserParse.loop] at parsed
      split at parsed
      · rename_i same
        cases found.symm.trans same
      · rename_i same
        cases found.symm.trans same
        rw [looped] at parsed
        cases parsed
        have more := ih left (fun k below above => inside k (by omega) (by omega)) (by omega)
          (Nat.lt_of_lt_of_le shorter (Nat.le_of_lt_succ enough)) looped
        apply yields.andThen
        apply more.andThen
        exact .pure _

/-- **On a string with a terminator, parsing ends, returns what it does on the characters of the
string, and reads no byte behind the terminator.** -/
theorem pparserParse_yields (fs : FileSystem) (holds : IsString string 0 path)
    (enough : path.length < fuel) :
    Yields (· ≤ path.length) string (pparserParse fuel fs) (some (fs.pparserParse path)) := by
  have length := strlen_yields holds (fun q _ upper => by rwa [Nat.zero_add] at upper) enough
  rw [Nat.zero_add] at length
  apply length.andThen
  unfold FileSystem.pparserParse
  by_cases long : phixMaxPath < path.length
  · rw [if_pos long, if_pos long]
    exact .pure _
  · rw [if_neg long, if_neg long]
    apply (pparserGetDriveByPath_yields holds enough).andThen
    dsimp only
    by_cases negative : (Phix.pparserGetDriveByPath path).1 < 0
    · rw [if_pos negative, if_pos one_ne_zero, if_pos one_ne_zero]
      exact .pure _
    · have valid : Phix.pparserPathValidFormat path = true :=
        not_not.mp (mt (FileSystem.pparserGetDriveByPath_neg path).mpr negative)
      have three : 3 ≤ path.length := by
        unfold Phix.pparserPathValidFormat at valid
        exact (of_decide_eq_true valid).1.trans (Nat.min_le_left _ _)
      have rest : (Phix.pparserGetDriveByPath path).2 = path.drop 3 := by
        unfold Phix.pparserGetDriveByPath
        rw [if_neg (not_not_intro valid)]
      have left := holds.drop three
      rw [Nat.zero_add] at left
      have whole : 3 + (path.drop 3).length = path.length := by
        rw [List.length_drop, Nat.add_sub_cancel' three]
      rw [if_neg negative, if_neg (not_not_intro rfl), if_neg (not_not_intro rfl), if_pos valid,
        rest]
      by_cases full : (fs.pparserCreateRoot 0).1.self = null
      · rw [if_pos full, if_pos full]
        exact .pure _
      · rw [if_neg full, if_neg full]
        cases looped : FileSystem.pparserParse.loop (fs.pparserCreateRoot 0).2 (path.drop 3) with
        | mk parts last =>
            have short : (path.drop 3).length < fuel := by omega
            have parsed := parseParts_yields left (fun q _ upper => by rwa [whole] at upper)
              short short looped
            exact parsed.andThen (.pure _)

end Cursor

/-- The buffer of a part: cleared by `kzalloc`, with its text stored from index 0 on. -/
def PathPart.buffer (part : PathPart) (i : ℕ) : Byte := part.text.getD i 0

/-- `0:/` and components joined with slashes, with or without another slash behind them. -/
def writePath (components : List (List Byte)) (trailing : Bool) : List Byte :=
  [0x30, 0x3A, 0x2F] ++ ((components.intersperse [slash]).flatten ++ if trailing then [slash] else
    [])

namespace FileSystem

/-- With one block at most, a request that is served is granted. -/
theorem kzalloc_found (fs : FileSystem) {size : Word} (positive : 1 ≤ size.toNat)
    (small : size.toNat ≤ 4096) :
    fs.machine.Ensures Request.Served (fs.kzalloc size).2.machine ((fs.kzalloc size).1 ≠ null) := by
  refine ⟨[fs.machine.request size], rfl, fun all isNull => ?_⟩
  obtain ⟨_, s, fits, run⟩ := all _ (List.mem_singleton_self _)
  have single : blockCount size = 1 := by
    unfold blockCount
    omega
  have none := (fs.machine.kzalloc_eq_null_iff .kernel positive small).mp isNull
  have member : s ∈ fs.machine.freeBlocks := by
    rw [Machine.mem_freeBlocks]
    change s + blockCount size ≤ 25600 at fits
    exact ⟨by omega, run s le_rfl (by change s < s + blockCount size; omega)⟩
  rw [none] at member
  exact absurd member (Finset.notMem_empty s)

theorem pparserParsePathPart_served {fs next : FileSystem} {path rest : List Byte}
    {part : Option PathPart} (parsed : fs.pparserParsePathPart path = (part, rest, next)) :
    fs.machine.Ensures Request.Served next.machine
      (part.map PathPart.text = if (path.takeWhile fun c => !isSlash c) = [] then none
        else some (path.takeWhile fun c => !isSlash c)) := by
  have first := fs.kzalloc_found (show 1 ≤ ((phixMaxPath : ℕ) : Word).toNat by decide) (by decide)
  unfold pparserParsePathPart pparserGetPathPart at parsed
  rw [ne_slash_eq] at parsed
  dsimp only at parsed
  by_cases empty : (path.takeWhile fun c => !isSlash c) = []
  · rw [if_pos empty] at parsed ⊢
    dsimp only at parsed
    rw [if_pos rfl] at parsed
    cases parsed
    exact first.congr rfl |>.imp fun _ => rfl
  · rw [if_neg empty] at parsed ⊢
    dsimp only at parsed
    by_cases absent : (fs.kzalloc phixMaxPath).1 = null
    · rw [if_pos absent] at parsed
      cases parsed
      exact first.imp fun found => absurd absent found
    · rw [if_neg absent] at parsed
      have second := (fs.kzalloc phixMaxPath).2.kzalloc_found
        (show 1 ≤ sizeofPathPart.toNat by decide) (by decide)
      by_cases full : ((fs.kzalloc phixMaxPath).2.kzalloc sizeofPathPart).1 = null
      · rw [if_pos full] at parsed
        cases parsed
        exact first.trans (second.imp fun found => absurd full found)
      · rw [if_neg full] at parsed
        cases parsed
        exact first.trans (second.imp fun _ _ => rfl)

theorem pparserParsePathPart_rest {fs next : FileSystem} {path rest : List Byte}
    {part : Option PathPart} (parsed : fs.pparserParsePathPart path = (part, rest, next)) :
    rest = (path.dropWhile fun c => !isSlash c).tail := by
  have remaining := congrArg (fun result => result.2.1) parsed
  unfold pparserParsePathPart pparserGetPathPart at remaining
  rw [ne_slash_eq] at remaining
  dsimp only at remaining
  rw [← remaining]
  by_cases empty : (path.takeWhile fun c => !isSlash c) = []
  · rw [if_pos empty]
    rfl
  · rw [if_neg empty]
    dsimp only
    split
    · rfl
    · split
      · rfl
      · rfl

/-- While its requests are served, the loop takes every leading segment. -/
theorem pparserParse.loop_served {fs next : FileSystem} {path : List Byte} {parts : List PathPart}
    (parsed : pparserParse.loop fs path = (parts, next)) :
    fs.machine.Ensures Request.Served next.machine
      (parts.map PathPart.text = Segments.leading isSlash path) := by
  induction fs, path using pparserParse.loop.induct generalizing parts next with
  | case1 fs path rest middle part =>
      have served := pparserParsePathPart_served part
      rw [pparserParse.loop] at parsed
      split at parsed
      · rename_i same
        cases part.symm.trans same
        cases parsed
        refine served.imp fun text => ?_
        by_cases empty : (path.takeWhile fun c => !isSlash c) = []
        · rw [Segments.leading_of_nil empty]
          rfl
        · rw [if_neg empty] at text
          cases text
      · rename_i same
        cases part.symm.trans same
  | case2 fs path part rest middle found others last looped ih =>
      have served := pparserParsePathPart_served found
      have tail := pparserParsePathPart_rest found
      rw [pparserParse.loop] at parsed
      split at parsed
      · rename_i same
        cases found.symm.trans same
      · rename_i same
        cases found.symm.trans same
        rw [looped] at parsed
        cases parsed
        refine served.trans ((ih looped).imp fun texts text => ?_)
        by_cases empty : (path.takeWhile fun c => !isSlash c) = []
        · rw [if_pos empty] at text
          cases text
        · rw [if_neg empty] at text
          rw [Segments.leading_of_ne_nil empty, List.map_cons, texts, tail, Option.some_inj.mp text]

/-- While its requests are served, parsing an accepted path makes a root with every leading
segment. -/
theorem pparserParse_served {fs : FileSystem} {path : List Byte} (accepted : ¬ PathRejected path)
    (served : fs.machine.Permits Request.Served (fs.pparserParse path).2.machine) :
    ∃ root next, fs.pparserParse path = (some root, next) ∧
      root.parts.map PathPart.text = Segments.leading isSlash (pathText path) := by
  have valid := (not_or.mp accepted).2
  have rest : (pparserGetDriveByPath path).2 = pathText path := by
    unfold pparserGetDriveByPath
    rw [if_neg valid]
    rfl
  have first := fs.kzalloc_found (show 1 ≤ sizeofPathRoot.toNat by decide) (by decide)
  have parsed := fs.pparserParse_accepted accepted
  rw [rest] at parsed
  by_cases full : (fs.kzalloc sizeofPathRoot).1 = null
  · rw [if_pos full] at parsed
    rw [parsed] at served
    exact absurd full (first.apply served)
  · rw [if_neg full] at parsed
    cases looped : pparserParse.loop (fs.kzalloc sizeofPathRoot).2 (pathText path) with
    | mk parts last =>
        rw [looped] at parsed
        rw [parsed] at served
        exact ⟨_, last, parsed, (first.trans ((pparserParse.loop_served looped).imp
          fun texts _ => texts)).apply served⟩

end FileSystem

open FileSystem Cursor

theorem writePath_length (components : List (List Byte)) (trailing : Bool) :
    (writePath components trailing).length =
      3 + (components.intersperse [slash]).flatten.length + if trailing then 1 else 0 := by
  unfold writePath
  cases trailing <;> simp <;> omega

/-- What is written is accepted, when it is short enough. -/
theorem writePath_accepted {components : List (List Byte)} {trailing : Bool}
    (short : (writePath components trailing).length ≤ phixMaxPath) :
    ¬ PathRejected (writePath components trailing) := by
  rintro (long | invalid)
  · exact absurd short (Nat.not_le.mpr long)
  · refine invalid (decide_eq_true ⟨?_, rfl, rfl, rfl⟩)
    unfold Phix.strnlen
    rw [writePath_length]
    exact Nat.le_min.mpr ⟨by omega, by decide⟩

/-- Components separated by slashes, none of them empty. -/
structure IsComponents (components : List (List Byte)) : Prop where
  named : ∀ component ∈ components, component ≠ []
  plain : ∀ component ∈ components, ∀ c ∈ component, c ≠ slash ∧ c ≠ 0

/-- Components that hold no terminator hold none when they are joined by slashes. -/
theorem intersperse_plain {components : List (List Byte)}
    (plain : ∀ component ∈ components, ∀ c ∈ component, c ≠ 0) :
    ∀ piece ∈ components.intersperse [slash], ∀ c ∈ piece, c ≠ 0 := by
  have separator : ∀ c ∈ [slash], c ≠ 0 := by decide
  induction components with
  | nil => exact plain
  | cons first rest ih =>
      cases rest with
      | nil => exact plain
      | cons second rest =>
          rw [List.forall_mem_cons] at plain
          rw [List.intersperse_cons_cons, List.forall_mem_cons, List.forall_mem_cons]
          exact ⟨plain.1, separator, ih plain.2⟩

/-- A written path holds no terminator. -/
theorem writePath_plain {components : List (List Byte)} (are : IsComponents components)
    (trailing : Bool) : ∀ c ∈ writePath components trailing, c ≠ 0 := by
  intro c inside
  unfold writePath at inside
  rcases List.mem_append.mp inside with drive | rest
  · exact (show ∀ c ∈ ([0x30, 0x3A, 0x2F] : List Byte), c ≠ 0 by decide) c drive
  · rcases List.mem_append.mp rest with path | last
    · obtain ⟨piece, member, within⟩ := List.mem_flatten.mp path
      exact intersperse_plain (fun component here c plain =>
        (are.plain component here c plain).2) piece member c within
    · cases trailing with
      | false => cases last
      | true => exact (show ∀ c ∈ [slash], c ≠ 0 by decide) c last

theorem isString_getD {text : List Byte} (plain : ∀ c ∈ text, c ≠ 0) :
    IsString (fun i => text.getD i 0) 0 text := by
  suffices shifted : ∀ (string : ℕ → Byte) (p : ℕ), (∀ i, string (p + i) = text.getD i 0) →
      IsString string p text from shifted _ 0 fun i => by rw [Nat.zero_add]
  induction text with
  | nil => exact fun string p same => same 0
  | cons c text ih =>
      intro string p same
      refine ⟨same 0, plain c (List.mem_cons_self ..), ?_⟩
      refine ih (fun d member => plain d (List.mem_cons_of_mem _ member)) string (p + 1) fun i => ?_
      rw [Nat.add_right_comm, Nat.add_assoc]
      exact same (i + 1)

/-- A component is no longer than what is written behind the drive. -/
theorem component_length_le {components : List (List Byte)} {component : List Byte}
    (member : component ∈ components) :
    component.length ≤ (components.intersperse [slash]).flatten.length := by
  induction components with
  | nil => cases member
  | cons first others ih =>
      cases others with
      | nil =>
          obtain rfl := List.mem_singleton.mp member
          simp
      | cons second rest =>
          rw [List.intersperse_cons_cons, List.flatten_cons, List.flatten_cons, List.length_append,
            List.length_append]
          rcases List.mem_cons.mp member with rfl | later
          · omega
          · have shorter := ih later
            omega

/-- **Parsing undoes writing**: a path whose length, its trailing slash included, is at most
`PHIX_MAX_PATH` is parsed into exactly its components, each terminated within its buffer, and
the parser ends without having read behind the terminator of the string. -/
theorem path_parse_round_trip {components : List (List Byte)} (are : IsComponents components)
    {trailing : Bool} (short : (writePath components trailing).length ≤ phixMaxPath)
    {fs : FileSystem} {string : ℕ → Byte}
    (holds : IsString string 0 (writePath components trailing))
    (served : fs.machine.Permits Request.Served
      (fs.pparserParse (writePath components trailing)).2.machine)
    {fuel : ℕ} (enough : (writePath components trailing).length < fuel) :
    ∃ root next, (Cursor.pparserParse fuel fs).value string = some (some root, next) ∧
      root.parts.map PathPart.text = components ∧
      (∀ part ∈ root.parts, part.text.length < phixMaxPath ∧ IsString part.buffer 0 part.text) ∧
      ∀ p ∈ (Cursor.pparserParse fuel fs).footprint string,
        p ≤ (writePath components trailing).length := by
  obtain ⟨root, next, parsed, texts⟩ := pparserParse_served (writePath_accepted short) served
  have yields := pparserParse_yields fs holds enough
  rw [parsed] at yields
  have ended : (if trailing then [slash] else []) = [] ∨
      (if trailing then [slash] else []) = [slash] := by
    cases trailing
    · exact .inl rfl
    · exact .inr rfl
  have whole : root.parts.map PathPart.text = components :=
    texts.trans (Segments.leading_join are.named
      (fun component member c inside => decide_eq_false (are.plain component member c inside).1)
      (decide_eq_true rfl) ended)
  refine ⟨root, next, yields.value, whole, fun part member => ?_, yields.within⟩
  have listed : part.text ∈ components := whole ▸ List.mem_map_of_mem member
  have length := component_length_le listed
  rw [writePath_length] at short
  exact ⟨by omega, isString_getD fun c inside => (are.plain part.text listed c inside).2⟩

/-- The path `0:/bin/a/sh/` is parsed into three parts. -/
theorem path_parse_round_trip_three :
    ∃ root next, (Cursor.pparserParse 13 freshFileSystem).value
        (fun i => (writePath [[0x62, 0x69, 0x6E], [0x61], [0x73, 0x68]] true).getD i 0) =
          some (some root, next) ∧
      root.parts.map PathPart.text = [[0x62, 0x69, 0x6E], [0x61], [0x73, 0x68]] ∧
      (∀ part ∈ root.parts, part.text.length < phixMaxPath ∧ IsString part.buffer 0 part.text) ∧
      ∀ p ∈ (Cursor.pparserParse 13 freshFileSystem).footprint
        (fun i => (writePath [[0x62, 0x69, 0x6E], [0x61], [0x73, 0x68]] true).getD i 0),
            p ≤ 12 := by
  have short : (writePath [[0x62, 0x69, 0x6E], [0x61], [0x73, 0x68]] true).length ≤
      phixMaxPath := by
    decide
  have room : freshFileSystem.machine.freeBlocks.card = 25600 := Machine.booted_card _
  obtain ⟨n, spends⟩ := pparserParse_spent freshFileSystem_sound (writePath_accepted short)
    (show 2 * 12 + 3 ≤ _ by omega)
  have are : IsComponents [[0x62, 0x69, 0x6E], [0x61], [0x73, 0x68]] := ⟨by decide, by decide⟩
  exact path_parse_round_trip are short (isString_getD (writePath_plain are true)) spends.served
    (show 12 < 13 by decide)

/-- One component of 105 characters. -/
def longComponent : List Byte := List.replicate 105 0x61

/-- With a trailing slash, a component of 105 characters makes a path that is not parsed. -/
theorem path_parse_round_trip_fails :
    IsComponents [longComponent] ∧ (writePath [longComponent] false).length ≤ phixMaxPath ∧
      (writePath [longComponent] true).length < 110 ∧
      IsString (fun i => (writePath [longComponent] true).getD i 0) 0
        (writePath [longComponent] true) ∧
      ∀ root next, (Cursor.pparserParse 110 freshFileSystem).value
        (fun i => (writePath [longComponent] true).getD i 0) ≠ some (some root, next) := by
  have are : IsComponents [longComponent] := by
    refine ⟨fun component member => ?_, fun component member c inside => ?_⟩
    · rw [List.mem_singleton.mp member]
      exact List.cons_ne_nil _ _
    · rw [List.mem_singleton.mp member] at inside
      rw [List.eq_of_mem_replicate inside]
      decide
  have holds : IsString (fun i => (writePath [longComponent] true).getD i 0) 0
      (writePath [longComponent] true) := isString_getD (writePath_plain are true)
  have joined : ([longComponent].intersperse [slash]).flatten.length = 105 := by
    rw [List.intersperse_singleton, List.flatten_singleton, longComponent, List.length_replicate]
  have length : (writePath [longComponent] true).length = 109 := by
    rw [writePath_length, joined]
    rfl
  have written : (writePath [longComponent] false).length = 108 := by
    rw [writePath_length, joined]
    rfl
  refine ⟨are, written.le, by omega, holds, fun root next parsed => ?_⟩
  have yields := pparserParse_yields freshFileSystem holds (show _ < 110 by omega)
  have rejected : PathRejected (writePath [longComponent] true) := .inl (by rw [length]; decide)
  rw [freshFileSystem.pparserParse_rejected rejected] at yields
  cases yields.value.symm.trans parsed

end Phix
