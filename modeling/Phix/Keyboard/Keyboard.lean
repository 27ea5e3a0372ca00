import Phix.Foundation.Rings
import Phix.Task.Process

/-! # The keyboard buffers

`keyboard/keyboard.c`: every process has a buffer that is written and read at two counters modulo
its size. A slot that holds zero is empty, and the counters are never compared. The process is
found through `current_process` by `keyboard_push` and through `current_task` by `keyboard_pop`.

`Phix.Keyboard.slots` are the slots in the order in which they are read.
-/

namespace Phix

open Rings

def phixKeyboardBufferSize : ℕ := 1024

/-- `struct keyboard_buffer`; the counters are of type `int` and wrap. -/
structure Keyboard where
  buffer : ℕ → Byte
  reader : Word
  writer : Word

/-- The buffer of a process that `process_init` has cleared. -/
def Keyboard.zero : Keyboard := ⟨fun _ => 0, 0, 0⟩

/-- The kernel with the keyboard buffers of its processes. -/
structure Keyboards where
  kernel : Kernel
  keyboardAt : Word → Keyboard

namespace Keyboard

/-- `keyboard_write_index`; the remainder is that of the unsigned `sizeof`. -/
def keyboardWriteIndex (keyboard : Keyboard) : ℕ := keyboard.writer.toNat % phixKeyboardBufferSize

def keyboardReadIndex (keyboard : Keyboard) : ℕ := keyboard.reader.toNat % phixKeyboardBufferSize

/-- The body of `keyboard_push` on the buffer of a process. -/
def push (keyboard : Keyboard) (c : Byte) : Keyboard :=
  { keyboard with
    buffer := Function.update keyboard.buffer keyboard.keyboardWriteIndex c
    writer := keyboard.writer + 1 }

/-- The body of `keyboard_pop` on the buffer of a process. -/
def pop (keyboard : Keyboard) : Byte × Keyboard :=
  let c := keyboard.buffer keyboard.keyboardReadIndex
  if c = 0 then (0, keyboard)
  else (c, { keyboard with
    buffer := Function.update keyboard.buffer keyboard.keyboardReadIndex 0
    reader := keyboard.reader + 1 })

end Keyboard

namespace Keyboards

def setKeyboard (keyboards : Keyboards) (process : Word) (keyboard : Keyboard) : Keyboards :=
  { keyboards with keyboardAt := Function.update keyboards.keyboardAt process keyboard }

def keyboardPush (keyboards : Keyboards) (c : Byte) : Keyboards :=
  let process := keyboards.kernel.currentProcess
  if process = null then keyboards
  else if c = 0 then keyboards
  else keyboards.setKeyboard process ((keyboards.keyboardAt process).push c)

def keyboardPop (keyboards : Keyboards) : Byte × Keyboards :=
  if keyboards.kernel.currentTask = null then (0, keyboards)
  else
    let process := (keyboards.kernel.taskAt keyboards.kernel.currentTask).process
    let (c, keyboard) := (keyboards.keyboardAt process).pop
    (c, keyboards.setKeyboard process keyboard)

end Keyboards

/-! The slots in the order of reading. -/

namespace Keyboard

/-- The slots from the one that is read next. -/
def slots (keyboard : Keyboard) (i : ℕ) : Byte :=
  view phixKeyboardBufferSize keyboard.buffer keyboard.reader.toNat i

/-- The slot that is written next is `n` slots after the one that is read next. -/
def Ahead (keyboard : Keyboard) (n : ℕ) : Prop :=
  keyboard.writer.toNat ≡ keyboard.reader.toNat + n [MOD phixKeyboardBufferSize]

/-- A counter wraps at a multiple of the buffer's size. -/
theorem succ_modEq (counter : Word) :
    (counter + 1).toNat ≡ counter.toNat + 1 [MOD phixKeyboardBufferSize] := by
  rw [BitVec.toNat_add]
  exact Nat.mod_mod_of_dvd _ (by decide)

variable {keyboard : Keyboard} {n : ℕ}

theorem Ahead.writeIndex (ahead : keyboard.Ahead n) : keyboard.keyboardWriteIndex =
    (keyboard.reader.toNat + n % phixKeyboardBufferSize) % phixKeyboardBufferSize := by
  rw [Nat.add_mod_mod]
  exact ahead

theorem Ahead.congr (ahead : keyboard.Ahead n) {m : ℕ}
    (turns : n ≡ m [MOD phixKeyboardBufferSize]) : keyboard.Ahead m :=
  Nat.ModEq.trans ahead (Nat.ModEq.add_left _ turns)

theorem Ahead.push (ahead : keyboard.Ahead n) (c : Byte) : (keyboard.push c).Ahead (n + 1) :=
  (succ_modEq keyboard.writer).trans (Nat.ModEq.add_right 1 ahead)

theorem push_slots (ahead : keyboard.Ahead n) (c : Byte) {j : ℕ} (inside : j < 1024) :
    (keyboard.push c).slots j = if j = n % 1024 then c else keyboard.slots j := by
  unfold slots push
  rw [ahead.writeIndex]
  exact view_write _ _ _ (Nat.mod_lt n (by decide)) inside

theorem pop_fst (keyboard : Keyboard) : keyboard.pop.1 = keyboard.slots 0 := by
  have first : keyboard.slots 0 = keyboard.buffer keyboard.keyboardReadIndex := by
    unfold slots view keyboardReadIndex
    rw [Nat.add_zero]
  rw [first]
  unfold pop
  dsimp only
  split
  · rename_i empty
    exact empty.symm
  · rfl

theorem pop_empty (empty : keyboard.slots 0 = 0) : keyboard.pop = (0, keyboard) := by
  rw [← pop_fst] at empty
  unfold pop at empty ⊢
  dsimp only at empty ⊢
  split at empty
  · rename_i none
    rw [if_pos none]
  · rename_i some
    exact absurd empty some

theorem pop_snd (some : keyboard.slots 0 ≠ 0) : keyboard.pop.2 = { keyboard with
    buffer := Function.update keyboard.buffer keyboard.keyboardReadIndex 0
    reader := keyboard.reader + 1 } := by
  rw [← pop_fst] at some
  unfold pop at some ⊢
  dsimp only at some ⊢
  split at some
  · exact absurd rfl some
  · rename_i nonzero
    rw [if_neg nonzero]

theorem pop_slots (some : keyboard.slots 0 ≠ 0) {j : ℕ} (inside : j < 1024) :
    keyboard.pop.2.slots j = if j = 1023 then 0 else keyboard.slots (j + 1) := by
  rw [pop_snd some]
  unfold slots keyboardReadIndex
  dsimp only
  rw [view_congr _ (succ_modEq keyboard.reader), view_advance]
  have place : keyboard.reader.toNat % phixKeyboardBufferSize =
      (keyboard.reader.toNat + 0) % phixKeyboardBufferSize := rfl
  rw [place]
  by_cases last : j = 1023
  · rw [if_pos last, last, show 1023 + 1 = phixKeyboardBufferSize from rfl, view_last,
      view_write _ _ _ (by decide) (by decide), if_pos rfl]
  · have below : j + 1 < phixKeyboardBufferSize := show j + 1 < 1024 by omega
    rw [if_neg last, view_write _ _ _ (by decide) below, if_neg (Nat.succ_ne_zero j)]

theorem Ahead.pop (ahead : keyboard.Ahead (n + 1)) (some : keyboard.slots 0 ≠ 0) :
    keyboard.pop.2.Ahead n := by
  rw [pop_snd some]
  refine Nat.ModEq.trans ahead ?_
  rw [Nat.add_comm n 1, ← Nat.add_assoc]
  exact (Nat.ModEq.add_right n (succ_modEq keyboard.reader)).symm

end Keyboard

end Phix
