import Phix.Console.Terminal

/-! # Backspace

`terminal_backspace` steps back, writes a space through the ordinary path and steps back again.
Inside a line this undoes the last character. At the right edge the space wraps the cursor to
the next row, and the last step takes the column below zero, so the cursor goes astray exactly
from the last column, after a character, and from the first column, below the first row
(`Phix.Terminal.backspace_undoes_iff`).
-/

namespace Phix

namespace Terminal

/-- The printable characters of ASCII. -/
def Printable (c : Byte) : Prop := 0x20 ≤ c.toNat ∧ c.toNat < 0x7F

/-- The contents of a cell. -/
def cell (terminal : Terminal) (x y : Word) : BitVec 16 :=
  terminal.memory.load16 (terminal.videoMem + 2 * cellIndex x y)

/-- The number of the cursor's cell in reading order. -/
def place (terminal : Terminal) : ℕ :=
  terminal.row.toNat * vgaWidth.toNat + terminal.col.toNat

/-- A backspace undoes the character written before it, and takes the cursor to the preceding cell
of the screen unless it is in the corner. -/
structure BackspaceUndoes (terminal : Terminal) : Prop where
  undoes : ∀ c color color', Printable c →
    let after := (terminal.terminalWritechar c color).terminalWritechar backspaceChar color'
    after.row = terminal.row ∧ after.col = terminal.col ∧
      after.cell (terminal.col.setWidth 32) (terminal.row.setWidth 32) =
        terminalMakeChar spaceChar 15
  back : ¬ (terminal.col = 0 ∧ terminal.row = 0) → ∀ color,
    let after := terminal.terminalWritechar backspaceChar color
    after.col.toNat < vgaWidth.toNat ∧ after.place + 1 = terminal.place

theorem terminalWritechar_backspace (terminal : Terminal) (color : Byte) :
    terminal.terminalWritechar backspaceChar color = terminal.terminalBackspace :=
  if_pos rfl

theorem terminalWritechar_printable (terminal : Terminal) {c : Byte} (printable : Printable c)
    (color : Byte) : terminal.terminalWritechar c color = terminal.writeCell c color := by
  have different {d : Byte} (control : d.toNat < 0x20) : c ≠ d := fun same => by
    have lower := printable.1
    rw [same] at lower
    omega
  unfold terminalWritechar
  rw [if_neg (different (by decide)), if_neg (different (by decide))]

variable {terminal : Terminal}

theorem col_add_one (inside : terminal.col.toNat < vgaWidth.toNat) :
    (terminal.col + 1).toNat = terminal.col.toNat + 1 := by
  change terminal.col.toNat < 80 at inside
  rw [BitVec.toNat_add]
  exact Nat.mod_eq_of_lt (by change terminal.col.toNat + 1 < _; omega)

/-- Inside a line, a character moves the cursor one column on. -/
theorem writeCell_inside (inside : terminal.col.toNat + 1 < vgaWidth.toNat) (c color : Byte) :
    terminal.writeCell c color =
      { terminal.terminalPutchar (terminal.col.setWidth 32) (terminal.row.setWidth 32) c color with
        col := terminal.col + 1 } := by
  have next := col_add_one (Nat.lt_of_succ_lt inside)
  refine if_neg fun full => ?_
  rw [BitVec.le_def, BitVec.toNat_setWidth] at full
  change 80 ≤ (terminal.col + 1).toNat % 2 ^ 32 at full
  change _ < 80 at inside
  omega

/-- In the last column, it wraps the cursor to the next row. -/
theorem writeCell_edge (edge : terminal.col = 79) (c color : Byte) :
    (terminal.writeCell c color).col = 0 ∧
      (terminal.writeCell c color).row = terminal.row + 1 := by
  have wraps : vgaWidth ≤ ((terminal.col + 1).setWidth 32 : Word) := by
    rw [edge]
    decide
  unfold writeCell
  dsimp only [terminalPutchar]
  rw [if_pos wraps]
  exact ⟨rfl, rfl⟩

/-- Inside a line, a backspace blanks the cell before the cursor and stops there. -/
theorem terminalBackspace_inside (left : 0 < terminal.col.toNat)
    (inside : terminal.col.toNat < vgaWidth.toNat) :
    terminal.terminalBackspace =
      { terminal.terminalPutchar ((terminal.col - 1).setWidth 32) (terminal.row.setWidth 32)
          spaceChar 15 with
        col := terminal.col - 1 } := by
  have nonzero : terminal.col ≠ 0 := fun zero => by
    rw [zero] at left
    exact absurd left (by decide)
  have back : (terminal.col - 1).toNat + 1 < vgaWidth.toNat := by
    rw [BitVec.toNat_sub_of_le (by rw [BitVec.le_def]; exact left)]
    change terminal.col.toNat - 1 + 1 < _
    omega
  unfold terminalBackspace
  rw [if_neg fun corner => nonzero corner.1]
  dsimp only
  rw [if_neg nonzero, writeCell_inside back]
  dsimp only
  rw [BitVec.add_sub_cancel]
  rfl

/-- In the first column, below the first row, it takes the column below zero. -/
theorem terminalBackspace_edge (first : terminal.col = 0) (below : terminal.row ≠ 0) :
    terminal.terminalBackspace.col = 0xFFFF := by
  unfold terminalBackspace
  rw [if_neg fun corner => below corner.2]
  dsimp only
  rw [if_pos first]
  have last : vgaWidth.setWidth 16 - 1 = (79 : BitVec 16) := by decide
  dsimp only
  rw [(writeCell_edge last _ _).1]
  decide

/-- **Backspace undoes the last character, and goes back one cell, exactly from the cells that are
neither in the last column nor, below the first row, in the first.** -/
theorem backspace_undoes_iff (terminal : Terminal)
    (inside : terminal.col.toNat < vgaWidth.toNat) :
    BackspaceUndoes terminal ↔ terminal.col ≠ 79 ∧ (terminal.col = 0 → terminal.row = 0) := by
  constructor
  · rintro ⟨undoes, back⟩
    refine ⟨fun edge => ?_, fun first => ?_⟩
    · have printable : Printable 0x41 := by
        unfold Printable
        decide
      obtain ⟨-, col, -⟩ := undoes 0x41 0 0 printable
      rw [terminalWritechar_printable _ printable, terminalWritechar_backspace, edge] at col
      obtain ⟨wrapped, -⟩ := writeCell_edge edge 0x41 0
      by_cases corner : (terminal.writeCell 0x41 0).row = 0
      · unfold terminalBackspace at col
        rw [if_pos ⟨wrapped, corner⟩, wrapped] at col
        exact absurd col (by decide)
      · rw [terminalBackspace_edge wrapped corner] at col
        exact absurd col (by decide)
    · by_contra below
      have left := (back (fun corner => below corner.2) 0).1
      rw [terminalWritechar_backspace, terminalBackspace_edge first below] at left
      exact absurd left (by decide)
  · rintro ⟨notLast, corner⟩
    refine ⟨fun c color color' printable => ?_, fun moves color => ?_⟩
    · have numbers : terminal.col.toNat ≠ 79 := fun same => notLast (BitVec.eq_of_toNat_eq same)
      have room : terminal.col.toNat + 1 < vgaWidth.toNat := by
        change _ < 80 at inside
        change _ < 80
        omega
      have next := col_add_one inside
      dsimp only
      rw [terminalWritechar_printable _ printable, terminalWritechar_backspace,
        writeCell_inside room, terminalBackspace_inside (by dsimp only; omega) (next ▸ room)]
      dsimp only [cell, terminalPutchar]
      rw [BitVec.add_sub_cancel]
      exact ⟨rfl, rfl, ByteMemory.load16_store16_self ..⟩
    · have left : 0 < terminal.col.toNat := by
        refine Nat.pos_of_ne_zero fun zero => ?_
        have first : terminal.col = 0 := BitVec.eq_of_toNat_eq zero
        exact moves ⟨first, corner first⟩
      have before : (terminal.col - 1).toNat = terminal.col.toNat - 1 :=
        BitVec.toNat_sub_of_le (by rw [BitVec.le_def]; exact left)
      rw [terminalWritechar_backspace, terminalBackspace_inside left inside]
      dsimp only [place, terminalPutchar]
      rw [before]
      change _ < 80 at inside
      exact ⟨by change _ < 80; omega, by omega⟩

/-- In the middle of a line, "A" and a backspace leave no trace but a space. -/
theorem backspace_undoes_line : BackspaceUndoes { blankTerminal with col := 40 } :=
  (backspace_undoes_iff { blankTerminal with col := 40 } (by decide)).mpr
    ⟨by decide, fun first => absurd first (by decide)⟩

/-- From the last column of the first row, "A" and a backspace take the column out of the screen,
and so does a backspace from the first column of the second row. -/
theorem backspace_undoes_fails :
    (({ blankTerminal with col := 79 } : Terminal).terminalWritechar 0x41 15 |>.terminalWritechar
      backspaceChar 15).col = 0xFFFF ∧
    (({ blankTerminal with row := 1 } : Terminal).terminalWritechar backspaceChar 15).col = 0xFFFF ∧
    ¬ BackspaceUndoes { blankTerminal with col := 79 } ∧
    ¬ BackspaceUndoes { blankTerminal with row := 1 } := by
  have character : (({ blankTerminal with col := 79 } : Terminal).terminalWritechar 0x41
      15 |>.terminalWritechar backspaceChar 15).col = 0xFFFF := rfl
  have lone : (({ blankTerminal with row := 1 } : Terminal).terminalWritechar backspaceChar
      15).col = 0xFFFF := rfl
  refine ⟨character, lone, fun undone => ?_, fun undone => ?_⟩
  · have col := (undone.undoes 0x41 15 15 ⟨by decide, by decide⟩).2.1
    exact absurd (character.symm.trans col) (by decide)
  · have left := (undone.back (fun corner => absurd corner.2 (by decide)) 15).1
    rw [lone] at left
    exact absurd left (by decide)

end Terminal

end Phix
