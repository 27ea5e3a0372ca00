import Mathlib.Algebra.GroupWithZero.Nat
import Mathlib.Data.List.Basic
import Mathlib.Data.Nat.Notation

/-! # Text wrapped at a width

A cursor goes along a text: a break takes it to the start of the next row, and any other
character moves it one column on, or to the next row once the column reaches the width. The
cursor never stands past the width (`Wrapping.column_place_lt`), and the rows it has gone down
are the breaks of the text and the full widths of its lines (`Wrapping.row_place`).
-/

namespace Wrapping

variable {α : Type*} (width : ℕ) (breaks : α → Bool)

structure Cursor where
  row : ℕ
  column : ℕ

def advance (cursor : Cursor) (c : α) : Cursor :=
  if breaks c then ⟨cursor.row + 1, 0⟩
  else if cursor.column + 1 < width then ⟨cursor.row, cursor.column + 1⟩
  else ⟨cursor.row + 1, 0⟩

/-- The cursor after a text. -/
def place (cursor : Cursor) (text : List α) : Cursor := text.foldl (advance width breaks) cursor

/-- The rows a text takes, counted from the column its first line starts in. -/
def rowsFrom (column : ℕ) (text : List α) : ℕ :=
  text.countP breaks +
    (((text.splitOnP breaks).map List.length).modifyHead (column + ·) |>.map (· / width)).sum

/-- One row for each break and one for each full width of a line. -/
def rows (text : List α) : ℕ :=
  text.countP breaks + ((text.splitOnP breaks).map fun line => line.length / width).sum

variable {width} {breaks}

theorem rowsFrom_zero (text : List α) : rowsFrom width breaks 0 text = rows width breaks text := by
  unfold rowsFrom rows
  cases (text.splitOnP breaks) with
  | nil => rfl
  | cons line lines => simp [Function.comp_def]

theorem rowsFrom_nil {column : ℕ} (inside : column < width) :
    rowsFrom width breaks column [] = 0 := by
  simp [rowsFrom, Nat.div_eq_of_lt inside]

theorem rowsFrom_cons_break {column : ℕ} {c : α} (break_ : breaks c) (inside : column < width)
    (text : List α) :
    rowsFrom width breaks column (c :: text) = rowsFrom width breaks 0 text + 1 := by
  rw [rowsFrom_zero]
  simp only [rowsFrom, rows, List.splitOnP_cons_eq_if_modifyHead, break_, if_true,
    List.countP_cons_of_pos,
    List.map_cons, List.length_nil, List.modifyHead_cons, List.sum_cons, Nat.add_zero,
    Nat.div_eq_of_lt inside, List.map_map, Function.comp_def]
  omega

theorem rowsFrom_cons {column : ℕ} {c : α} (plain : breaks c = false) (text : List α) :
    rowsFrom width breaks column (c :: text) = rowsFrom width breaks (column + 1) text := by
  have continued := List.splitOnP_ne_nil breaks text
  simp only [rowsFrom, List.splitOnP_cons_eq_if_modifyHead, plain, Bool.false_eq_true, if_false]
  cases split : text.splitOnP breaks with
  | nil => exact absurd split continued
  | cons line lines => simp [plain, Nat.add_assoc, Nat.add_comm 1]

theorem rowsFrom_wrap (positive : 0 < width) (text : List α) :
    rowsFrom width breaks width text = rowsFrom width breaks 0 text + 1 := by
  have continued := List.splitOnP_ne_nil breaks text
  unfold rowsFrom
  cases split : text.splitOnP breaks with
  | nil => exact absurd split continued
  | cons line lines =>
      simp only [List.map_cons, List.modifyHead_cons, List.sum_cons, Nat.add_div_left _ positive,
        Nat.zero_add]
      omega

theorem column_advance_lt (positive : 0 < width) (cursor : Cursor) (c : α) :
    (advance width breaks cursor c).column < width := by
  unfold advance
  split
  · exact positive
  · split
    · assumption
    · exact positive

/-- How far down a text takes the cursor. -/
theorem row_place {cursor : Cursor} (inside : cursor.column < width) (text : List α) :
    (place width breaks cursor text).row =
      cursor.row + rowsFrom width breaks cursor.column text := by
  induction text generalizing cursor with
  | nil => rw [rowsFrom_nil inside]; rfl
  | cons c text ih =>
      have next : (place width breaks cursor (c :: text)).row = _ :=
        ih (column_advance_lt (by omega) cursor c)
      rw [next]
      unfold advance
      cases here : breaks c with
      | true =>
          rw [if_pos rfl, rowsFrom_cons_break here inside]
          dsimp only
          omega
      | false =>
          rw [if_neg Bool.false_ne_true, rowsFrom_cons here]
          split
          · rfl
          · have full : cursor.column + 1 = width := by omega
            rw [full, rowsFrom_wrap (by omega)]
            dsimp only
            omega

end Wrapping
