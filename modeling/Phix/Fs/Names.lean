import Mathlib.Data.List.TakeWhile
import Phix.Fs.Fat16

/-! # Names

The string functions of `string/string.c` that the file system uses, and the rendering of the
name of a directory item. A string in memory is the list of its bytes before the NUL. Two
strings of which one is shorter than the bound compare equal exactly when they are equal up to
ASCII case (`Phix.istrncmp_eq_zero_iff`).
-/

namespace Phix

/-- The longest path, its terminator included. -/
def phixMaxPath : ℕ := 108

/-- A string: its bytes up to the terminating NUL. -/
structure CString where
  bytes : List Byte
  terminated : 0 ∉ bytes

/-- `to_lower`: upper case letters become lower case. -/
def toLower (c : Byte) : Byte := if 65 ≤ c ∧ c ≤ 90 then c + 32 else c

/-- `strcpy_strip`: the bytes copied, up to a NUL or a space. The source may be longer than the
array it is declared as. -/
def strcpyStrip (src : List Byte) : List Byte := src.takeWhile fun c => c ≠ 0 ∧ c ≠ 0x20

/-- `istrncmp`, for strings that end with their list. -/
def istrncmp : List Byte → List Byte → ℕ → Int
  | _, _, 0 => 0
  | s1, s2, n + 1 =>
      let u1 := s1.headD 0
      let u2 := s2.headD 0
      if toLower u1 = toLower u2 then if u1 = 0 then 0 else istrncmp s1.tail s2.tail n
      else (u1.toNat : Int) - u2.toNat

/-! `struct fat_directory_item`, at its offsets; `item` is the memory from the item on. -/

/-- `sizeof(struct fat_directory_item)`. -/
def sizeofFatDirectoryItem : ℕ := 32

def itemExt (item : List Byte) : Byte := field8 item 8
def itemAttributes (item : List Byte) : Byte := field8 item 11
def itemHigh16BitsFirstCluster (item : List Byte) : BitVec 16 := field16 item 20
def itemLow16BitsFirstCluster (item : List Byte) : BitVec 16 := field16 item 26
def itemFilesize (item : List Byte) : Word := field32 item 28

/-- `fat16_get_full_relative_filename`. -/
def fat16GetFullRelativeFilename (item : List Byte) : List Byte :=
  if itemExt item ≠ 0 ∧ itemExt item ≠ 0x20 then
    strcpyStrip item ++ 0x2E :: strcpyStrip (item.drop 8)
  else strcpyStrip item

/-- Equal up to ASCII case. -/
def SameName (s1 s2 : List Byte) : Prop := s1.map toLower = s2.map toLower

instance (s1 s2 : List Byte) : Decidable (SameName s1 s2) := inferInstanceAs (Decidable (_ = _))

/-- Only the terminator becomes the terminator. -/
theorem toLower_eq_zero {c : Byte} : toLower c = 0 ↔ c = 0 := by
  revert c
  decide

/-- What `strcpy_strip` copies holds no terminator. -/
theorem strcpyStrip_terminated (src : List Byte) : 0 ∉ strcpyStrip src := by
  intro member
  have kept := List.mem_takeWhile_imp member
  simp at kept

/-- The name that is put together holds none either. -/
theorem fat16GetFullRelativeFilename_terminated (item : List Byte) :
    0 ∉ fat16GetFullRelativeFilename item := by
  have name := strcpyStrip_terminated item
  have ext := strcpyStrip_terminated (item.drop 8)
  unfold fat16GetFullRelativeFilename
  split
  · intro member
    rcases List.mem_append.mp member with inName | inExt
    · exact name inName
    · rcases List.mem_cons.mp inExt with dot | inExt
      · exact absurd dot (by decide)
      · exact ext inExt
  · exact name

/-- Different characters have a difference other than 0. -/
theorem sub_toNat_ne_zero {b c : Byte} (different : b ≠ c) : (b.toNat : Int) - c.toNat ≠ 0 := by
  have numbers : b.toNat ≠ c.toNat := fun same => different (BitVec.eq_of_toNat_eq same)
  omega

/-- The comparison decides equality up to case, unless both strings reach the bound. -/
theorem istrncmp_eq_zero_iff {s1 s2 : List Byte} {n : ℕ} (first : 0 ∉ s1) (second : 0 ∉ s2)
    (short : s1.length < n ∨ s2.length < n) : istrncmp s1 s2 n = 0 ↔ SameName s1 s2 := by
  induction n generalizing s1 s2 with
  | zero => omega
  | succ n ih =>
      unfold istrncmp SameName
      cases s1 with
      | nil =>
          cases s2 with
          | nil => simp
          | cons c s2 =>
              have nonzero : c ≠ 0 := fun zero => second (zero ▸ List.mem_cons_self)
              have lower : toLower 0 ≠ toLower c := fun same =>
                nonzero (toLower_eq_zero.mp (same.symm.trans (toLower_eq_zero.mpr rfl)))
              simp only [List.headD_nil, List.headD_cons, lower, ↓reduceIte]
              exact iff_of_false (sub_toNat_ne_zero nonzero.symm) (by simp)
      | cons b s1 =>
          have nonzero : b ≠ 0 := fun zero => first (zero ▸ List.mem_cons_self)
          have firstTail : 0 ∉ s1 := fun member => first (List.mem_cons_of_mem b member)
          cases s2 with
          | nil =>
              have lower : toLower b ≠ toLower 0 := fun same =>
                nonzero (toLower_eq_zero.mp (same.trans (toLower_eq_zero.mpr rfl)))
              simp only [List.headD_nil, List.headD_cons, lower, ↓reduceIte]
              exact iff_of_false (sub_toNat_ne_zero nonzero) (by simp)
          | cons c s2 =>
              have secondTail : 0 ∉ s2 := fun member => second (List.mem_cons_of_mem c member)
              simp only [List.headD_cons, List.tail_cons, List.map_cons, List.cons.injEq]
              by_cases lower : toLower b = toLower c
              · simp only [lower, ↓reduceIte, nonzero, true_and]
                exact ih firstTail secondTail (by simpa using short)
              · simp only [lower, ↓reduceIte, false_and]
                exact iff_of_false (sub_toNat_ne_zero fun same => lower (congrArg toLower same)) id

end Phix
