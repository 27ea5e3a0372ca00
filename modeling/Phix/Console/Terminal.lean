import Phix.Common
import Phix.Foundation.ByteMemory
import Phix.Foundation.Traces
import Phix.Foundation.Wrapping

/-! # Terminal output

The text terminal of `string/string.c`. The cursor is a pair of 16-bit counters over a screen
of `VGA_WIDTH` by `VGA_HEIGHT` cells; the right edge wraps it to the next row, and nothing
looks at the bottom edge. The cursor follows the text wrapped at the width, with its rows
counted modulo `2 ^ 16` (`Phix.Terminal.Follows.step`), so output stays on the screen exactly as
long as no character is written with 20 rows above it
(`Phix.Terminal.terminal_stays_on_screen_iff`).
-/

namespace Phix

open Traces

def vgaWidth : Word := 80
def vgaHeight : Word := 20

/-- The address `terminal_init` puts the screen at. -/
def vgaAddress : Word := 0xB8000

def backspaceChar : Byte := 0x08
def newlineChar : Byte := 0x0A
def spaceChar : Byte := 0x20

/-- `terminal_row`, `terminal_col` and `video_mem`, with the memory it points into. -/
structure Terminal where
  memory : ByteMemory
  videoMem : Word
  row : BitVec 16
  col : BitVec 16

/-- `terminal_make_char`: both characters are signed, so a negative one covers the color. -/
def terminalMakeChar (c color : Byte) : BitVec 16 :=
  (color.signExtend 32 <<< 8 ||| c.signExtend 32).setWidth 16

/-- The index `(y * VGA_WIDTH) + x` of a cell. -/
def cellIndex (x y : Word) : Word := y * vgaWidth + x

namespace Terminal

def terminalPutchar (terminal : Terminal) (x y : Word) (c color : Byte) : Terminal :=
  { terminal with
    memory := terminal.memory.store16 (terminal.videoMem + 2 * cellIndex x y)
      (terminalMakeChar c color) }

/-- The end of `terminal_writechar`, for a character that is neither a backspace nor a
newline. -/
def writeCell (terminal : Terminal) (c color : Byte) : Terminal :=
  let terminal := terminal.terminalPutchar (terminal.col.setWidth 32) (terminal.row.setWidth 32) c
    color
  let terminal := { terminal with col := terminal.col + 1 }
  if vgaWidth ≤ terminal.col.setWidth 32 then
    { terminal with col := 0, row := terminal.row + 1 }
  else terminal

/-- `terminal_backspace`; its `putchar(' ')` goes straight to the end of
`terminal_writechar`. -/
def terminalBackspace (terminal : Terminal) : Terminal :=
  if terminal.col = 0 ∧ terminal.row = 0 then terminal
  else
    let terminal := if terminal.col = 0 then
      { terminal with row := terminal.row - 1, col := vgaWidth.setWidth 16 } else terminal
    let terminal := { terminal with col := terminal.col - 1 }
    let terminal := terminal.writeCell spaceChar 15
    { terminal with col := terminal.col - 1 }

def terminalWritechar (terminal : Terminal) (c color : Byte) : Terminal :=
  if c = backspaceChar then terminal.terminalBackspace
  else if c = newlineChar then { terminal with col := 0, row := terminal.row + 1 }
  else terminal.writeCell c color

def putchar (terminal : Terminal) (c : Byte) : Terminal := terminal.terminalWritechar c 15

/-- One row of the loop of `terminal_init`, from column `x` on. -/
def clearRow (terminal : Terminal) (y : Word) : ℕ → Word → Terminal
  | 0, _ => terminal
  | remaining + 1, x =>
      (terminal.terminalPutchar x y spaceChar 0).clearRow y remaining (x + 1)

def clearRows (terminal : Terminal) : ℕ → Word → Terminal
  | 0, _ => terminal
  | remaining + 1, y => (terminal.clearRow y vgaWidth.toNat 0).clearRows remaining (y + 1)

def terminalInit (terminal : Terminal) : Terminal :=
  { terminal with videoMem := vgaAddress, row := 0, col := 0 }.clearRows vgaHeight.toNat 0

/-- A cell of the screen: its column and its row are on it, and so is its index. -/
structure OnScreen (x y : Word) : Prop where
  column : x.toNat < vgaWidth.toNat
  row : y.toNat < vgaHeight.toNat
  index : (cellIndex x y).toNat < vgaWidth.toNat * vgaHeight.toNat

/-- The cell `terminal_writechar` is about to store into is on the screen, if it is going to
store a character at all. -/
def Stays (terminal : Terminal) (written : Byte × Byte) : Prop :=
  written.1 ≠ newlineChar → OnScreen (terminal.col.setWidth 32) (terminal.row.setWidth 32)

/-- The bytes of the text screen. -/
def InScreen (a : Word) : Prop :=
  (a - vgaAddress).toNat < 2 * (vgaWidth.toNat * vgaHeight.toNat)

/-- One call of `terminal_writechar`. -/
def write (terminal : Terminal) (written : Byte × Byte) : Terminal :=
  terminal.terminalWritechar written.1 written.2

/-- Output never leaves the screen: each character stored goes to a cell of it, and the memory
around it is as it was. -/
def StaysOnScreen (terminal : Terminal) (text : List (Byte × Byte)) : Prop :=
  Along write Stays terminal.terminalInit text ∧
    ∀ a, ¬ InScreen a → (exec write terminal.terminalInit text).memory a = terminal.memory a

/-- Whether a character written ends its line. -/
def isNewline (written : Byte × Byte) : Bool := decide (written.1 = newlineChar)

/-- The rows a text takes on the screen. -/
def textRows (text : List (Byte × Byte)) : ℕ := Wrapping.rows vgaWidth.toNat isNewline text

variable {terminal : Terminal}

theorem cellIndex_toNat {x y : Word} (left : x.toNat < 2 ^ 16) (upper : y.toNat < 2 ^ 16) :
    (cellIndex x y).toNat = y.toNat * 80 + x.toNat := by
  have product : (y * vgaWidth).toNat = y.toNat * 80 := by
    rw [BitVec.toNat_mul]
    exact Nat.mod_eq_of_lt (by change y.toNat * 80 < _; omega)
  unfold cellIndex
  rw [BitVec.toNat_add, product]
  exact Nat.mod_eq_of_lt (by omega)

theorem OnScreen.of_lt {x y : Word} (column : x.toNat < 80) (row : y.toNat < 20) :
    OnScreen x y where
  column := column
  row := row
  index := by
    rw [cellIndex_toNat (by omega) (by omega)]
    change _ < 1600
    omega

/-- A character stored into a cell of the screen changes nothing outside it. -/
theorem terminalPutchar_memory {x y : Word} (placed : terminal.videoMem = vgaAddress)
    (inside : OnScreen x y) (c color : Byte) {a : Word} (outside : ¬ InScreen a) :
    (terminal.terminalPutchar x y c color).memory a = terminal.memory a := by
  have index := inside.index
  change _ < 1600 at index
  unfold InScreen at outside
  change ¬ _ < 3200 at outside
  have double : (2 * cellIndex x y).toNat = 2 * (cellIndex x y).toNat := by
    rw [BitVec.toNat_mul]
    exact Nat.mod_eq_of_lt (by change 2 * _ < _; omega)
  apply terminal.memory.store16_apply_of_far
  rw [placed, ← sub_sub, BitVec.toNat_sub, double]
  have := (a - vgaAddress).isLt
  omega

/-- The cursor and the place of the screen, and the memory outside it, are as they were. -/
structure Cleared (before after : Terminal) : Prop where
  videoMem : after.videoMem = before.videoMem
  row : after.row = before.row
  col : after.col = before.col
  memory : ∀ a, ¬ InScreen a → after.memory a = before.memory a

theorem clearRow_cleared (placed : terminal.videoMem = vgaAddress) {y : Word}
    (below : y.toNat < 20) {remaining : ℕ} {x : Word} (fits : x.toNat + remaining ≤ 80) :
    Cleared terminal (terminal.clearRow y remaining x) := by
  induction remaining generalizing terminal x with
  | zero => exact ⟨rfl, rfl, rfl, fun _ _ => rfl⟩
  | succ remaining ih =>
      have next : (x + 1).toNat = x.toNat + 1 := by
        rw [BitVec.toNat_add]
        exact Nat.mod_eq_of_lt (by change x.toNat + 1 < _; omega)
      have stored : (terminal.terminalPutchar x y spaceChar 0).videoMem = vgaAddress := placed
      have rest := ih stored (x := x + 1) (by omega)
      refine ⟨rest.videoMem, rest.row, rest.col, fun a outside => (rest.memory a outside).trans ?_⟩
      exact terminalPutchar_memory placed (.of_lt (by omega) below) _ _ outside

theorem clearRows_cleared (placed : terminal.videoMem = vgaAddress) {remaining : ℕ} {y : Word}
    (fits : y.toNat + remaining ≤ 20) : Cleared terminal (terminal.clearRows remaining y) := by
  induction remaining generalizing terminal y with
  | zero => exact ⟨rfl, rfl, rfl, fun _ _ => rfl⟩
  | succ remaining ih =>
      have next : (y + 1).toNat = y.toNat + 1 := by
        rw [BitVec.toNat_add]
        exact Nat.mod_eq_of_lt (by change y.toNat + 1 < _; omega)
      have here : Cleared terminal (terminal.clearRow y vgaWidth.toNat 0) :=
        clearRow_cleared placed (by omega) (by decide)
      have rest := ih (here.videoMem.trans placed) (y := y + 1) (by omega)
      exact ⟨rest.videoMem.trans here.videoMem, rest.row.trans here.row, rest.col.trans here.col,
        fun a outside => (rest.memory a outside).trans (here.memory a outside)⟩

theorem terminalInit_cleared (terminal : Terminal) :
    Cleared { terminal with videoMem := vgaAddress, row := 0, col := 0 } terminal.terminalInit :=
  clearRows_cleared rfl (by decide)

/-- The terminal's cursor is that of a text wrapped at the width, its row counted modulo
`2 ^ 16`. -/
structure Follows (terminal : Terminal) (cursor : Wrapping.Cursor) : Prop where
  videoMem : terminal.videoMem = vgaAddress
  col : terminal.col.toNat = cursor.column
  row : terminal.row.toNat = cursor.row % 2 ^ 16
  inside : cursor.column < 80

theorem terminalInit_follows (terminal : Terminal) : Follows terminal.terminalInit ⟨0, 0⟩ where
  videoMem := terminal.terminalInit_cleared.videoMem
  col := congrArg BitVec.toNat terminal.terminalInit_cleared.col
  row := congrArg BitVec.toNat terminal.terminalInit_cleared.row
  inside := by decide

theorem Follows.writeCell {cursor : Wrapping.Cursor} (follows : Follows terminal cursor)
    (c color : Byte) : Follows (terminal.writeCell c color)
      (if cursor.column + 1 < 80 then ⟨cursor.row, cursor.column + 1⟩ else
          ⟨cursor.row + 1, 0⟩) := by
  have inside := follows.inside
  have col : (terminal.col + 1).toNat = cursor.column + 1 := by
    rw [BitVec.toNat_add, follows.col]
    exact Nat.mod_eq_of_lt (by change cursor.column + 1 < _; omega)
  have row : (terminal.row + 1).toNat = (cursor.row + 1) % 2 ^ 16 := by
    rw [BitVec.toNat_add, follows.row]
    change (cursor.row % 2 ^ 16 + 1) % 2 ^ 16 = _
    omega
  have wraps : vgaWidth ≤ (terminal.col + 1).setWidth 32 ↔ ¬ cursor.column + 1 < 80 := by
    rw [BitVec.le_def, BitVec.toNat_setWidth, col, Nat.mod_eq_of_lt (by omega)]
    exact Nat.not_lt.symm
  unfold Terminal.writeCell
  dsimp only [terminalPutchar]
  by_cases short : cursor.column + 1 < 80
  · rw [if_neg (fun full => wraps.mp full short), if_pos short]
    exact ⟨follows.videoMem, col, follows.row, short⟩
  · rw [if_pos (wraps.mpr short), if_neg short]
    exact ⟨follows.videoMem, rfl, row, Nat.succ_pos 79⟩

theorem Follows.step {cursor : Wrapping.Cursor} (follows : Follows terminal cursor)
    {written : Byte × Byte} (forward : written.1 ≠ backspaceChar) :
    Follows (terminal.write written)
        (Wrapping.advance vgaWidth.toNat isNewline cursor written) := by
  unfold write terminalWritechar Wrapping.advance isNewline
  rw [if_neg forward]
  by_cases line : written.1 = newlineChar
  · have row : (terminal.row + 1).toNat = (cursor.row + 1) % 2 ^ 16 := by
      rw [BitVec.toNat_add, follows.row]
      change (cursor.row % 2 ^ 16 + 1) % 2 ^ 16 = _
      omega
    rw [if_pos line, if_pos (decide_eq_true line)]
    exact ⟨follows.videoMem, rfl, row, Nat.succ_pos 79⟩
  · rw [if_neg line, if_neg (by simp [line])]
    exact follows.writeCell written.1 written.2

theorem Follows.exec {cursor : Wrapping.Cursor} (follows : Follows terminal cursor)
    {text : List (Byte × Byte)} (forward : ∀ written ∈ text, written.1 ≠ backspaceChar) :
    Follows (Traces.exec write terminal text)
      (Wrapping.place vgaWidth.toNat isNewline cursor text) := by
  induction text generalizing terminal cursor with
  | nil => exact follows
  | cons written text ih =>
      have next := follows.step (forward written (List.mem_cons_self ..))
      exact ih next fun other member => forward other (List.mem_cons_of_mem _ member)

/-- A character goes to a cell of the screen exactly when the rows above it, counted modulo
`2 ^ 16`, leave it one. -/
theorem Follows.stays_iff {cursor : Wrapping.Cursor} (follows : Follows terminal cursor)
    (written : Byte × Byte) :
    terminal.Stays written ↔ (written.1 ≠ newlineChar → cursor.row % 2 ^ 16 < 20) := by
  have col : (terminal.col.setWidth 32 : Word).toNat = cursor.column := by
    rw [BitVec.toNat_setWidth, follows.col]
    exact Nat.mod_eq_of_lt (by have := follows.inside; omega)
  have row : (terminal.row.setWidth 32 : Word).toNat = cursor.row % 2 ^ 16 := by
    rw [BitVec.toNat_setWidth, follows.row]
    exact Nat.mod_eq_of_lt (by omega)
  constructor
  · intro stays visible
    rw [← row]
    exact (stays visible).row
  · intro above visible
    apply OnScreen.of_lt
    · rw [col]
      exact follows.inside
    · rw [row]
      exact above visible

theorem write_memory {written : Byte × Byte} (placed : terminal.videoMem = vgaAddress)
    (forward : written.1 ≠ backspaceChar) (stays : terminal.Stays written) :
    (terminal.write written).videoMem = vgaAddress ∧
      ∀ a, ¬ InScreen a → (terminal.write written).memory a = terminal.memory a := by
  unfold write terminalWritechar
  rw [if_neg forward]
  by_cases line : written.1 = newlineChar
  · rw [if_pos line]
    exact ⟨placed, fun _ _ => rfl⟩
  · rw [if_neg line]
    unfold Terminal.writeCell
    dsimp only
    have kept := fun a outside => terminalPutchar_memory placed (stays line) written.1 written.2
      (a := a) outside
    split
    · exact ⟨placed, kept⟩
    · exact ⟨placed, kept⟩

/-- Each character stored goes to the screen exactly when every visible character has fewer
than 20 rows of text above it, counted modulo `2 ^ 16`. -/
theorem along_stays_iff (terminal : Terminal) {text : List (Byte × Byte)}
    (forward : ∀ written ∈ text, written.1 ≠ backspaceChar) :
    Along write Stays terminal.terminalInit text ↔
      ∀ before written after, text = before ++ written :: after → written.1 ≠ newlineChar →
        textRows before % 2 ^ 16 < 20 := by
  rw [along_iff_forall_split]
  have each : ∀ before written after, text = before ++ written :: after →
      (Stays (exec write terminal.terminalInit before) written ↔
        (written.1 ≠ newlineChar → textRows before % 2 ^ 16 < 20)) := by
    rintro before written after rfl
    have earlier : ∀ other ∈ before, other.1 ≠ backspaceChar := fun other member =>
      forward other (List.mem_append_left _ member)
    have follows := terminal.terminalInit_follows.exec earlier
    rw [follows.stays_iff written, Wrapping.row_place (by decide), Wrapping.rowsFrom_zero,
      Nat.zero_add]
    rfl
  constructor
  · intro stays before written after split
    exact (each before written after split).mp (stays before written after split)
  · intro above before written after split
    exact (each before written after split).mpr (above before written after split)

/-- While it stays on the screen, output leaves the memory around the screen alone. -/
theorem exec_memory (terminal : Terminal) {text : List (Byte × Byte)}
    (forward : ∀ written ∈ text, written.1 ≠ backspaceChar)
    (stays : Along write Stays terminal.terminalInit text) (a : Word) (outside : ¬ InScreen a) :
    (exec write terminal.terminalInit text).memory a = terminal.memory a := by
  have legal : Along write (fun terminal written =>
      Stays terminal written ∧ written.1 ≠ backspaceChar) terminal.terminalInit text :=
    stays.and (along_of_mem (fun written member _ => forward written member) _)
  have start := terminal.terminalInit_cleared
  refine (invariant_exec (fun later => later.videoMem = vgaAddress ∧
    later.memory a = terminal.memory a) ?_ ⟨start.videoMem, start.memory a outside⟩ legal).2
  rintro later written ⟨placed, same⟩ ⟨here, visible⟩
  obtain ⟨kept, memory⟩ := write_memory placed visible here
  exact ⟨kept, (memory a outside).trans same⟩

/-- Output stays on the screen exactly when every visible character is written with fewer than
`VGA_HEIGHT` rows of text above it, the rows counted modulo `2 ^ 16`: nothing stops the cursor
at the bottom edge. -/
theorem terminal_stays_on_screen_iff (terminal : Terminal) (text : List (Byte × Byte))
    (forward : ∀ written ∈ text, written.1 ≠ backspaceChar) :
    StaysOnScreen terminal text ↔
      ∀ before written after, text = before ++ written :: after → written.1 ≠ newlineChar →
        textRows before % 2 ^ 16 < vgaHeight.toNat := by
  unfold StaysOnScreen
  constructor
  · rintro ⟨stays, _⟩
    exact (terminal.along_stays_iff forward).mp stays
  · intro above
    have stays := (terminal.along_stays_iff forward).mpr above
    exact ⟨stays, terminal.exec_memory forward stays⟩

/-- A terminal over clear memory. -/
def blankTerminal : Terminal := ⟨fun _ => 0, 0, 0, 0⟩

/-- Two lines stay on the screen. -/
theorem terminal_stays_on_screen_hello :
    StaysOnScreen blankTerminal [(0x68, 15), (newlineChar, 15), (0x69, 15)] := by
  have forward : ([(0x68, 15), (newlineChar, 15), (0x69, 15)] : List (Byte × Byte)).all
    fun written => decide (written.1 ≠ backspaceChar) := by decide
  apply (terminal_stays_on_screen_iff blankTerminal _ fun written member =>
    of_decide_eq_true (List.all_eq_true.mp forward written member)).mpr
  intro before written after split _
  have total := congrArg List.length split
  simp only [List.length_append, List.length_cons, List.length_nil] at total
  rw [List.prefix_iff_eq_take.mp ⟨written :: after, split.symm⟩]
  have short : before.length = 0 ∨ before.length = 1 ∨ before.length = 2 := by omega
  rcases short with none | one | two
  · rw [none]
    decide
  · rw [one]
    decide
  · rw [two]
    decide

/-- Twenty newlines and a character: the character is stored below the screen. -/
theorem terminal_stays_on_screen_fails :
    ¬ StaysOnScreen blankTerminal (List.replicate 20 (newlineChar, 15) ++ [(0x41, 15)]) := by
  rintro ⟨stays, _⟩
  have forward : (List.replicate 20 (newlineChar, 15) ++ [(0x41, 15)] : List (Byte × Byte)).all
    fun written => decide (written.1 ≠ backspaceChar) := by decide
  have above := (blankTerminal.along_stays_iff fun written member =>
    of_decide_eq_true (List.all_eq_true.mp forward written member)).mp stays _ (0x41, 15) [] rfl
      (by decide)
  exact absurd above (by decide)

end Terminal

end Phix
