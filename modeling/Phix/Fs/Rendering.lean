import Phix.Fs.Lookup

/-! # Rendered names

`fat16_get_full_relative_filename` copies the two fields of a name with a function that stops only
at a NUL or a space, so a field that fills its width runs into what follows it. The rendered name
is the name, a dot and the extension exactly if the bytes behind the fields stop the copies
(`Phix.fat16_get_full_relative_filename_iff`). The lookup then compares rendered names up to case
(`Phix.fat16_find_item_in_directory_ignores_case`).
-/

namespace Phix

/-- A field of a directory item before it is padded: no NUL, no space. -/
structure NameField (width : ℕ) where
  bytes : List Byte
  fits : bytes.length ≤ width
  plain : ∀ c ∈ bytes, c ≠ 0 ∧ c ≠ 0x20

/-- The field, padded with spaces to its width. -/
def NameField.padded {width : ℕ} (field : NameField width) : List Byte :=
  field.bytes ++ List.replicate (width - field.bytes.length) 0x20

/-- The memory at a directory item: its name, its extension, its attributes and what follows. -/
def namedItem (filename : NameField 8) (ext : NameField 3) (attributes : Byte)
    (rest : List Byte) : List Byte :=
  filename.padded ++ (ext.padded ++ attributes :: rest)

/-- The name, followed by a dot and the extension unless that is blank. -/
def fullName (filename : NameField 8) (ext : NameField 3) : List Byte :=
  if ext.bytes = [] then filename.bytes else filename.bytes ++ 0x2E :: ext.bytes

namespace NameField

variable {width : ℕ} (field : NameField width)

theorem padded_length : field.padded.length = width := by
  have fits := field.fits
  rw [padded, List.length_append, List.length_replicate]
  omega

theorem strcpyStrip_bytes (rest : List Byte) :
    strcpyStrip (field.bytes ++ rest) = field.bytes ++ strcpyStrip rest :=
  List.takeWhile_append_of_pos fun c member => decide_eq_true (field.plain c member)

/-- A copy of the field goes on behind it only if the field is full. -/
theorem strcpyStrip_padded (rest : List Byte) :
    strcpyStrip (field.padded ++ rest) =
      if field.bytes.length < width then field.bytes else field.bytes ++ strcpyStrip rest := by
  rw [padded, List.append_assoc, strcpyStrip_bytes]
  split
  · rename_i short
    obtain ⟨n, count⟩ := Nat.exists_eq_succ_of_ne_zero (Nat.sub_ne_zero_of_lt short)
    rw [count]
    exact List.append_nil _
  · rename_i full
    rw [Nat.sub_eq_zero_of_le (not_lt.mp full)]
    rfl

end NameField

theorem strcpyStrip_cons_eq_nil {c : Byte} {rest : List Byte} :
    strcpyStrip (c :: rest) = [] ↔ c = 0 ∨ c = 0x20 := by
  unfold strcpyStrip
  rw [List.takeWhile_cons]
  split
  · rename_i passes
    have plain := of_decide_eq_true passes
    exact iff_of_false (List.cons_ne_nil _ _) (not_or.mpr plain)
  · rename_i stops
    refine iff_of_true rfl (or_iff_not_and_not.mpr fun plain => stops (decide_eq_true plain))

section Fields

variable (filename : NameField 8) (ext : NameField 3) (attributes : Byte) (rest : List Byte)

theorem namedItem_drop : (namedItem filename ext attributes rest).drop 8 =
    ext.padded ++ attributes :: rest :=
  List.drop_left' filename.padded_length

/-- The extension counts as blank exactly if it is. -/
theorem itemExt_namedItem :
    (itemExt (namedItem filename ext attributes rest) ≠ 0 ∧
      itemExt (namedItem filename ext attributes rest) ≠ 0x20) ↔ ext.bytes ≠ [] := by
  have byte : itemExt (namedItem filename ext attributes rest) =
      (ext.padded ++ attributes :: rest).getD 0 0 := by
    rw [← namedItem_drop filename ext attributes rest, itemExt, field8, List.getD_eq_getElem?_getD,
      List.getD_eq_getElem?_getD, List.getElem?_drop]
  rw [byte, NameField.padded]
  cases bytes : ext.bytes with
  | nil => exact iff_of_false (fun both => both.2 rfl) fun nonempty => nonempty rfl
  | cons c tail => exact iff_of_true (ext.plain c (bytes ▸ List.mem_cons_self)) (by simp)

end Fields

/-- **A name is rendered as the name, a dot and the extension exactly if a full name has a blank
extension behind it and a full extension a NUL or a space.** -/
theorem fat16_get_full_relative_filename_iff (filename : NameField 8) (ext : NameField 3)
    (attributes : Byte) (rest : List Byte) :
    fat16GetFullRelativeFilename (namedItem filename ext attributes rest) =
        fullName filename ext ↔
      (filename.bytes.length < 8 ∨ ext.bytes = []) ∧
        (ext.bytes.length < 3 ∨ attributes = 0 ∨ attributes = 0x20) := by
  have blank := itemExt_namedItem filename ext attributes rest
  have name : strcpyStrip (namedItem filename ext attributes rest) =
      if filename.bytes.length < 8 then filename.bytes
      else filename.bytes ++ strcpyStrip (ext.padded ++ attributes :: rest) :=
    filename.strcpyStrip_padded _
  have extension := ext.strcpyStrip_padded (attributes :: rest)
  unfold fat16GetFullRelativeFilename fullName
  rw [namedItem_drop, name]
  by_cases none : ext.bytes = []
  · have nothing : strcpyStrip (ext.padded ++ attributes :: rest) = [] := by
      rw [extension, none]
      rfl
    rw [if_neg (blank.not.mpr (not_not.mpr none)), if_pos none, nothing, List.append_nil, ite_self,
      none]
    exact iff_of_true rfl ⟨.inr rfl, .inl (by decide)⟩
  · have positive : 0 < ext.bytes.length := List.length_pos_iff.mpr none
    rw [if_pos (blank.mpr none), if_neg none, extension]
    by_cases short : filename.bytes.length < 8
    · rw [if_pos short, List.append_cancel_left_eq, List.cons_inj_right]
      rw [and_iff_right (.inl short)]
      by_cases room : ext.bytes.length < 3
      · rw [if_pos room]
        exact iff_of_true rfl (.inl room)
      · rw [if_neg room, List.append_right_eq_self, strcpyStrip_cons_eq_nil, or_iff_right room]
    · refine iff_of_false (fun same => ?_) fun both => both.1.elim short none
      have lengths := congrArg List.length same
      rw [if_neg short] at lengths
      split at lengths <;>
        simp only [List.length_append, List.length_cons] at lengths <;> omega

/-- A name of eight characters, "PROGRAMM". -/
def eightName : NameField 8 :=
  ⟨[0x50, 0x52, 0x4F, 0x47, 0x52, 0x41, 0x4D, 0x4D], by decide, by decide⟩

/-- An extension of two, "TX". -/
def twoExt : NameField 3 := ⟨[0x54, 0x58], by decide, by decide⟩

/-- The copy of a name of eight characters takes the extension along. -/
theorem fat16_get_full_relative_filename_fails :
    fat16GetFullRelativeFilename (namedItem eightName twoExt 0 []) =
        eightName.bytes ++ twoExt.bytes ++ 0x2E :: twoExt.bytes ∧
      fat16GetFullRelativeFilename
          (namedItem eightName twoExt 0 []) ≠ fullName eightName twoExt := by
  decide

/-! Names that are equal up to case select the same item. -/

/-- A capital letter of ASCII and the small one. -/
def CapitalOf (upper lower : Byte) : Prop :=
  0x41 ≤ upper.toNat ∧ upper.toNat ≤ 0x5A ∧ lower.toNat = upper.toNat + 0x20

/-- The same character up to the case of a letter. -/
def SameLetter (c d : Byte) : Prop := c = d ∨ CapitalOf c d ∨ CapitalOf d c

theorem toLower_toNat (c : Byte) : (toLower c).toNat =
    if 0x41 ≤ c.toNat ∧ c.toNat ≤ 0x5A then c.toNat + 0x20 else c.toNat := by
  have capital : (65 ≤ c ∧ c ≤ 90) ↔ (0x41 ≤ c.toNat ∧ c.toNat ≤ 0x5A) := by
    rw [BitVec.le_def, BitVec.le_def]
    rfl
  unfold toLower
  simp only [capital]
  split
  · rw [BitVec.toNat_add]
    change (c.toNat + 32) % 256 = _
    omega
  · rfl

theorem toLower_eq_iff {c d : Byte} : toLower c = toLower d ↔ SameLetter c d := by
  rw [← BitVec.toNat_inj, toLower_toNat, toLower_toNat]
  unfold SameLetter CapitalOf
  rw [← BitVec.toNat_inj]
  split <;> split <;> omega

theorem sameName_iff {s1 s2 : List Byte} : SameName s1 s2 ↔ List.Forall₂ SameLetter s1 s2 := by
  unfold SameName
  rw [← List.forall₂_eq_eq_eq, List.forall₂_map_left_iff, List.forall₂_map_right_iff]
  simp only [toLower_eq_iff]

/-- The first of the items scanned whose rendered name is the name up to case. -/
structure FirstNamed (items name : List Byte) (total : Word) (i : ℕ) : Prop where
  inside : i < total.toNat
  named : List.Forall₂ SameLetter (fat16GetFullRelativeFilename (itemAt items i)) name
  least : ∀ j < i, ¬ List.Forall₂ SameLetter (fat16GetFullRelativeFilename (itemAt items j)) name

section Lookup

variable {items : List Byte} {total : Word}

/-- The comparison of a rendered name that fits the buffer. -/
theorem istrncmp_rendered {i : ℕ}
    (rendered : (fat16GetFullRelativeFilename (itemAt items i)).length < phixMaxPath)
    (name : CString) :
    istrncmp (fat16GetFullRelativeFilename (itemAt items i)) name.bytes phixMaxPath = 0 ↔
      List.Forall₂ SameLetter (fat16GetFullRelativeFilename (itemAt items i)) name.bytes :=
  (istrncmp_eq_zero_iff (fat16GetFullRelativeFilename_terminated _) name.terminated
    (.inl rendered)).trans sameName_iff

theorem loop_eq_some_iff_firstNamed
    (rendered : ∀ i < total.toNat,
      (fat16GetFullRelativeFilename (itemAt items i)).length < phixMaxPath)
    (name : CString) (i : ℕ) :
    fat16FindItemInDirectory.loop items total name.bytes = some i ↔
      FirstNamed items name.bytes total i := by
  unfold fat16FindItemInDirectory.loop
  rw [Searches.first_eq_some, Nat.zero_add]
  constructor
  · rintro ⟨-, inside, named, least⟩
    refine ⟨inside, (istrncmp_rendered (rendered i inside) name).mp named, fun j before other => ?_⟩
    exact least j (Nat.zero_le j) before
      ((istrncmp_rendered (rendered j (before.trans inside)) name).mpr other)
  · rintro ⟨inside, named, least⟩
    refine ⟨Nat.zero_le i, inside, (istrncmp_rendered (rendered i inside) name).mpr named,
      fun j _ before equal => least j before ?_⟩
    exact (istrncmp_rendered (rendered j (before.trans inside)) name).mp equal

end Lookup

/-- **The lookup ignores case.** Over a directory whose rendered names fit the buffer, two names
that are equal up to case select the same item, which is the first one with the name, and none if
no item has it. -/
theorem fat16_find_item_in_directory_ignores_case (items : List Byte) (total : Word)
    (rendered : ∀ i < total.toNat,
      (fat16GetFullRelativeFilename (itemAt items i)).length < phixMaxPath)
    {first second : CString} (same : List.Forall₂ SameLetter first.bytes second.bytes) :
    fat16FindItemInDirectory.loop items total first.bytes =
        fat16FindItemInDirectory.loop items total second.bytes ∧
      (∀ i, fat16FindItemInDirectory.loop items total first.bytes = some i ↔
        FirstNamed items first.bytes total i) ∧
      ∀ fs : FileSystem,
        fs.fat16FindItemInDirectory items total first.bytes =
          fs.fat16FindItemInDirectory items total second.bytes ∧
        (∀ i, FirstNamed items first.bytes total i →
          fs.fat16FindItemInDirectory items total first.bytes =
            fs.fat16NewFatItemForDirectoryItem (itemAt items i)) ∧
        ((∀ i < total.toNat, ¬ List.Forall₂ SameLetter
            (fat16GetFullRelativeFilename (itemAt items i)) first.bytes) →
          fs.fat16FindItemInDirectory items total first.bytes = some (null, fs)) := by
  have names : first.bytes.map toLower = second.bytes.map toLower := sameName_iff.mpr same
  have alike (i : ℕ) : FirstNamed items first.bytes total i ↔
      FirstNamed items second.bytes total i := by
    have each (j : ℕ) :
        List.Forall₂ SameLetter (fat16GetFullRelativeFilename (itemAt items j)) first.bytes ↔
          List.Forall₂ SameLetter (fat16GetFullRelativeFilename (itemAt items j)) second.bytes := by
      rw [← sameName_iff, ← sameName_iff, SameName, SameName, names]
    constructor
    · rintro ⟨inside, named, least⟩
      exact ⟨inside, (each i).mp named, fun j before => (each j).not.mp (least j before)⟩
    · rintro ⟨inside, named, least⟩
      exact ⟨inside, (each i).mpr named, fun j before => (each j).not.mpr (least j before)⟩
  have selects := loop_eq_some_iff_firstNamed rendered first
  have equal : fat16FindItemInDirectory.loop items total first.bytes =
      fat16FindItemInDirectory.loop items total second.bytes :=
    Option.ext fun i => (selects i).trans
      ((alike i).trans (loop_eq_some_iff_firstNamed rendered second i).symm)
  refine ⟨equal, selects, fun fs => ⟨?_, fun i named => ?_, fun absent => ?_⟩⟩
  · unfold FileSystem.fat16FindItemInDirectory
    rw [equal]
  · unfold FileSystem.fat16FindItemInDirectory
    rw [(selects i).mpr named]
  · have none : fat16FindItemInDirectory.loop items total first.bytes = none :=
      Option.eq_none_iff_forall_ne_some.mpr fun i found =>
        absent i ((selects i).mp found).inside ((selects i).mp found).named
    unfold FileSystem.fat16FindItemInDirectory
    rw [none]

/-- The items "PROGRAM.TX" and "PROG.TX". -/
def twoItems : List Byte :=
  namedItem ⟨[0x50, 0x52, 0x4F, 0x47, 0x52, 0x41, 0x4D], by decide, by decide⟩ twoExt 0
      (List.replicate 20 0) ++
    namedItem ⟨[0x50, 0x52, 0x4F, 0x47], by decide, by decide⟩ twoExt 0 (List.replicate 20 0)

/-- "prog.tx" and "Prog.tX" select the second of two items, of which the first begins like it. -/
theorem fat16_find_item_in_directory_ignores_case_second :
    fat16FindItemInDirectory.loop twoItems 2 [0x50, 0x72, 0x6F, 0x67, 0x2E, 0x74, 0x58] = some 1 ∧
      FirstNamed twoItems [0x70, 0x72, 0x6F, 0x67, 0x2E, 0x74, 0x78] 2 1 := by
  let lower : CString := ⟨[0x70, 0x72, 0x6F, 0x67, 0x2E, 0x74, 0x78], by decide⟩
  let mixed : CString := ⟨[0x50, 0x72, 0x6F, 0x67, 0x2E, 0x74, 0x58], by decide⟩
  have same : List.Forall₂ SameLetter lower.bytes mixed.bytes := sameName_iff.mp (by decide)
  have selected : fat16FindItemInDirectory.loop twoItems 2 lower.bytes = some 1 := by decide
  obtain ⟨equal, selects, -⟩ :=
    fat16_find_item_in_directory_ignores_case twoItems 2 (by decide) same
  exact ⟨equal.symm.trans selected, (selects 1).mp selected⟩

end Phix
