import Phix.Foundation.Traces
import Phix.Keyboard.Keyboard

/-! # A keyboard buffer that overflows

Characters that come on top of a full buffer overwrite the oldest ones, while the reader stays
where it is: it then reads the newest characters first. A run of `keyboard_push` and `keyboard_pop`
delivers what it delivers in order exactly when every character is read after a number of
overwrites that is a multiple of the buffer's size (`Phix.keyboard_overflow_iff`).
-/

namespace Phix

open Rings Traces

inductive KeyOp where
  | push (c : Byte)
  | pop

/-- The calls counted: how many characters are unread, and how many have come on top of a full
buffer since a character was last read. -/
structure Tally where
  unread : ℕ
  overflow : ℕ

def Tally.step (tally : Tally) : KeyOp → Tally
  | .push c =>
      if c = 0 then tally
      else if tally.unread < phixKeyboardBufferSize then { tally with unread := tally.unread + 1 }
      else { tally with overflow := tally.overflow + 1 }
  | .pop => if tally.unread = 0 then tally else ⟨tally.unread - 1, 0⟩

/-- The place, among `pushed` characters, of the one in the `i`-th slot from the reader on: the
slots before `front` have been overwritten. -/
def Tally.place (tally : Tally) (pushed i : ℕ) : ℕ :=
  let front := tally.overflow % 1024
  if i < front then pushed - front + i else pushed - front - tally.unread + i

/-- The place of the oldest unread character. -/
def Tally.oldest (tally : Tally) (pushed : ℕ) : ℕ :=
  pushed - tally.overflow % 1024 - tally.unread

/-- A character takes a free slot, or comes on top of a full buffer. -/
theorem Tally.step_push {tally : Tally} {c : Byte} (counts : c ≠ 0) (bound : tally.unread ≤ 1024)
    (full : tally.overflow ≠ 0 → tally.unread = 1024) :
    tally.unread < 1024 ∧ tally.overflow = 0 ∧ tally.step (.push c) = ⟨tally.unread + 1, 0⟩ ∨
      tally.unread = 1024 ∧ tally.step (.push c) = ⟨1024, tally.overflow + 1⟩ := by
  obtain ⟨unread, overflow⟩ := tally
  dsimp only at bound full ⊢
  unfold step
  dsimp only
  rw [if_neg counts]
  rcases bound.lt_or_eq with room | filled
  · obtain rfl : overflow = 0 := by
      by_contra some
      exact room.ne (full some)
    exact .inl ⟨room, rfl, if_pos room⟩
  · subst filled
    exact .inr ⟨rfl, if_neg (lt_irrefl _)⟩

/-- What is written when a character is pushed: the `m`-th slot from the reader on. -/
structure Tally.Written (tally next : Tally) (pushed m : ℕ) : Prop where
  bound : next.unread ≤ 1024
  full : next.overflow ≠ 0 → next.unread = 1024
  total : next.unread + next.overflow = tally.unread + tally.overflow + 1
  grows : tally.unread ≤ next.unread
  inside : m < next.unread
  others : ∀ i < next.unread, i ≠ m → i < tally.unread
  place : ∀ i < next.unread,
    next.place (pushed + 1) i = if i = m then pushed else tally.place pushed i
  oldest : tally.oldest pushed ≤ next.oldest (pushed + 1)
  within : next.oldest (pushed + 1) ≤ pushed

theorem Tally.push_written {tally : Tally} {c : Byte} (counts : c ≠ 0) (bound : tally.unread ≤ 1024)
    (full : tally.overflow ≠ 0 → tally.unread = 1024) {pushed m : ℕ}
    (count : tally.unread + tally.overflow ≤ pushed)
    (slot : (tally.unread + tally.overflow) % 1024 = m) :
    tally.Written (tally.step (.push c)) pushed m := by
  rcases step_push counts bound full with ⟨room, none, next⟩ | ⟨filled, next⟩
  · rw [none] at slot count
    rw [next]
    exact {
      bound := room
      full := fun some => absurd rfl some
      total := by rw [none, Nat.add_zero]
      grows := Nat.le_succ _
      inside := by
        dsimp only
        omega
      others := fun i below other => by
        dsimp only at below
        omega
      place := fun i below => by
        unfold Tally.place
        dsimp only at below ⊢
        rw [none]
        split_ifs <;> omega
      oldest := by
        unfold Tally.oldest
        dsimp only
        omega
      within := by
        unfold Tally.oldest
        dsimp only
        omega }
  · rw [filled] at slot count
    rw [next]
    exact {
      bound := le_rfl
      full := fun _ => rfl
      total := by
        dsimp only
        omega
      grows := filled.le
      inside := by
        dsimp only
        omega
      others := fun i below _ => lt_of_lt_of_eq below filled.symm
      place := fun i below => by
        unfold Tally.place
        dsimp only at below ⊢
        rw [filled]
        split_ifs <;> omega
      oldest := by
        unfold Tally.oldest
        dsimp only
        omega
      within := by
        unfold Tally.oldest
        dsimp only
        omega }

/-- A run, with the characters that were pushed, the place among them of the one in each slot, the
places of those that were popped, and what `keyboard_pop` has returned. -/
structure KeyRun where
  keyboards : Keyboards
  tally : Tally
  pushed : List Byte
  origin : ℕ → ℕ
  popped : List ℕ
  delivered : List Byte

namespace Keyboards

/-- The keyboard `keyboard_push` writes to. -/
def written (keyboards : Keyboards) : Keyboard :=
  keyboards.keyboardAt keyboards.kernel.currentProcess

/-- The keyboard `keyboard_pop` reads from. -/
def read (keyboards : Keyboards) : Keyboard :=
  keyboards.keyboardAt (keyboards.kernel.taskAt keyboards.kernel.currentTask).process

/-- The process is running: both globals lead to it. -/
structure Attached (keyboards : Keyboards) (process : Word) : Prop where
  isProcess : process ≠ null
  pushes : keyboards.kernel.currentProcess = process
  running : keyboards.kernel.currentTask ≠ null
  pops : (keyboards.kernel.taskAt keyboards.kernel.currentTask).process = process

end Keyboards

namespace KeyRun

def start (keyboards : Keyboards) : KeyRun := ⟨keyboards, ⟨0, 0⟩, [], fun _ => 0, [], []⟩

def step (run : KeyRun) : KeyOp → KeyRun
  | .push c => { run with
      keyboards := run.keyboards.keyboardPush c
      tally := run.tally.step (.push c)
      pushed := if c = 0 then run.pushed else run.pushed ++ [c]
      origin := if c = 0 then run.origin else
        Function.update run.origin run.keyboards.written.keyboardWriteIndex run.pushed.length }
  | .pop =>
      let (c, keyboards) := run.keyboards.keyboardPop
      { run with
        keyboards
        tally := run.tally.step .pop
        popped := if c = 0 then run.popped else
          run.popped ++ [run.origin run.keyboards.read.keyboardReadIndex]
        delivered := if c = 0 then run.delivered else run.delivered ++ [c] }

/-- What was delivered is in the order of the pushes, none of it twice, and older than all that is
unread. -/
structure Unscrambled (run : KeyRun) : Prop where
  delivered : run.delivered.Sublist run.pushed
  inOrder : run.popped.Pairwise (· < ·)
  oldest : ∀ place ∈ run.popped, ∀ s < phixKeyboardBufferSize,
    run.keyboards.written.buffer s ≠ 0 → place < run.origin s

/-- A character is read after as many overwrites as turn the buffer over completely, or none. -/
def ReadsInOrder (run : KeyRun) : KeyOp → Prop
  | .push _ => True
  | .pop => run.tally.overflow % phixKeyboardBufferSize = 0

structure Sound (run : KeyRun) (process : Word) : Prop where
  attached : run.keyboards.Attached process
  ahead : (run.keyboards.keyboardAt process).Ahead (run.tally.unread + run.tally.overflow)
  bound : run.tally.unread ≤ 1024
  full : run.tally.overflow ≠ 0 → run.tally.unread = 1024
  count : run.tally.unread + run.tally.overflow ≤ run.pushed.length
  nonzero : ∀ c ∈ run.pushed, c ≠ 0
  places : ∀ i < run.tally.unread,
    view 1024 run.origin (run.keyboards.keyboardAt process).reader.toNat i =
      run.tally.place run.pushed.length i
  content : ∀ i < run.tally.unread,
    run.pushed[run.tally.place run.pushed.length i]? = some
      ((run.keyboards.keyboardAt process).slots i)
  rest : ∀ i, run.tally.unread ≤ i → i < 1024 → (run.keyboards.keyboardAt process).slots i = 0
  inOrder : run.popped.Pairwise (· < ·)
  before : ∀ place ∈ run.popped, place < run.tally.oldest run.pushed.length
  delivered : run.delivered.Sublist (run.pushed.take (run.tally.oldest run.pushed.length))

namespace Sound

variable {run : KeyRun} {process : Word} (sound : run.Sound process)

include sound

theorem slots_ne_zero {i : ℕ} (unread : i < run.tally.unread) :
    (run.keyboards.keyboardAt process).slots i ≠ 0 :=
  sound.nonzero _ (List.mem_of_getElem? (sound.content i unread))

theorem unscrambled : run.Unscrambled where
  delivered := sound.delivered.trans (List.take_sublist ..)
  inOrder := sound.inOrder
  oldest place member s inside filled := by
    have earlier := sound.before place member
    have written : run.keyboards.written = run.keyboards.keyboardAt process :=
      congrArg run.keyboards.keyboardAt sound.attached.pushes
    rw [written] at filled
    obtain ⟨i, bound, here, same⟩ := exists_view (run.keyboards.keyboardAt process).buffer
      (run.keyboards.keyboardAt process).reader.toNat inside
    have unread : i < run.tally.unread := by
      by_contra beyond
      exact filled (same.trans (sound.rest i (not_lt.mp beyond) bound))
    have origin : run.origin s = run.tally.place run.pushed.length i := by
      rw [← sound.places i unread, ← here]
      rfl
    rw [origin]
    unfold Tally.place
    unfold Tally.oldest at earlier
    dsimp only
    have count := sound.count
    have most := sound.bound
    split <;> omega

/-- A character that is pushed takes the slot behind the unread ones, or that of the oldest one. -/
theorem push (c : Byte) : (run.step (.push c)).Sound process := by
  obtain ⟨isProcess, pushes, running, pops⟩ := sound.attached
  by_cases ignored : c = 0
  · have same : run.step (.push c) = run := by
      simp [step, Keyboards.keyboardPush, Tally.step, ignored]
    rw [same]
    exact sound
  have bound := sound.bound
  have full := sound.full
  have count := sound.count
  have keyboards : (run.step (.push c)).keyboards =
      run.keyboards.setKeyboard process ((run.keyboards.keyboardAt process).push c) := by
    simp only [step, Keyboards.keyboardPush, pushes, if_neg isProcess, if_neg ignored]
  have keyboard : (run.step (.push c)).keyboards.keyboardAt process =
      (run.keyboards.keyboardAt process).push c := by
    rw [keyboards]
    exact Function.update_self ..
  have pushed : (run.step (.push c)).pushed = run.pushed ++ [c] := if_neg ignored
  have popped : (run.step (.push c)).popped = run.popped := rfl
  have delivered : (run.step (.push c)).delivered = run.delivered := rfl
  have origin : (run.step (.push c)).origin = Function.update run.origin
      (run.keyboards.keyboardAt process).keyboardWriteIndex run.pushed.length := by
    refine (if_neg ignored).trans ?_
    rw [Keyboards.written, pushes]
  -- The slot that is written, counted from the reader.
  obtain ⟨m, atSlot⟩ : ∃ m, (run.tally.unread + run.tally.overflow) % 1024 = m := ⟨_, rfl⟩
  have written := Tally.push_written ignored bound full count atSlot
  have tally : (run.step (.push c)).tally = run.tally.step (.push c) := rfl
  generalize run.tally.step (.push c) = next at written tally
  generalize run.step (.push c) = after at *
  have length : after.pushed.length = run.pushed.length + 1 := by
    rw [pushed, List.length_append, List.length_singleton]
  exact {
    attached := by
      rw [keyboards]
      exact ⟨isProcess, pushes, running, pops⟩
    ahead := by
      rw [keyboard, tally, written.total]
      exact sound.ahead.push c
    bound := tally ▸ written.bound
    full := tally ▸ written.full
    count := by
      rw [tally, written.total, length]
      omega
    nonzero := by
      rw [pushed]
      intro d member
      rcases List.mem_append.mp member with old | new
      · exact sound.nonzero d old
      · rw [List.mem_singleton.mp new]
        exact ignored
    places := fun i below => by
      rw [tally] at below ⊢
      rw [keyboard, origin, sound.ahead.writeIndex, length, written.place i below]
      refine (view_write _ _ _ (Nat.mod_lt _ (by decide))
        (lt_of_lt_of_le below written.bound)).trans ?_
      rw [atSlot]
      refine if_ctx_congr Iff.rfl (fun _ => rfl) fun other => ?_
      exact sound.places i (written.others i below other)
    content := fun i below => by
      rw [tally] at below ⊢
      rw [keyboard, Keyboard.push_slots sound.ahead c (lt_of_lt_of_le below written.bound), atSlot,
        length, written.place i below, pushed]
      by_cases here : i = m
      · rw [if_pos here, if_pos here]
        exact List.getElem?_concat_length
      · have old := sound.content i (written.others i below here)
        rw [if_neg here, if_neg here, List.getElem?_append_left, old]
        exact (List.getElem?_eq_some_iff.mp old).1
    rest := fun i beyond small => by
      have inside := written.inside
      have grows := written.grows
      rw [tally] at beyond
      rw [keyboard, Keyboard.push_slots sound.ahead c small, atSlot, if_neg (by omega)]
      exact sound.rest i (by omega) small
    inOrder := by
      rw [popped]
      exact sound.inOrder
    before := fun x member => by
      rw [popped] at member
      rw [tally, length]
      exact lt_of_lt_of_le (sound.before x member) written.oldest
    delivered := by
      rw [delivered, tally, length, pushed, List.take_append_of_le_length written.within]
      exact sound.delivered.trans (List.take_sublist_take_left written.oldest) }

/-- The character that is read: the one in the first slot from the reader on. -/
theorem step_pop : run.step .pop = { run with
    keyboards := run.keyboards.setKeyboard process (run.keyboards.keyboardAt process).pop.2
    tally := run.tally.step .pop
    popped := if (run.keyboards.keyboardAt process).slots 0 = 0 then run.popped else
      run.popped ++ [view 1024 run.origin (run.keyboards.keyboardAt process).reader.toNat 0]
    delivered := if (run.keyboards.keyboardAt process).slots 0 = 0 then run.delivered else
      run.delivered ++ [(run.keyboards.keyboardAt process).slots 0] } := by
  obtain ⟨_, _, running, pops⟩ := sound.attached
  simp only [step, Keyboards.keyboardPop, Keyboards.read, if_neg running, pops, Keyboard.pop_fst]
  rfl

theorem pop (inOrder : run.tally.overflow % 1024 = 0) : (run.step .pop).Sound process := by
  have bound := sound.bound
  have full := sound.full
  have count := sound.count
  rw [sound.step_pop]
  by_cases none : run.tally.unread = 0
  · have empty := sound.rest 0 none.le (by decide)
    have same : run.keyboards.setKeyboard process (run.keyboards.keyboardAt process).pop.2 =
        run.keyboards := by
      rw [Keyboard.pop_empty empty]
      unfold Keyboards.setKeyboard
      rw [Function.update_eq_self]
    have tally : run.tally.step .pop = run.tally := if_pos none
    rw [if_pos empty, if_pos empty, same, tally]
    exact sound
  have first := sound.content 0 (by omega)
  have filled := sound.slots_ne_zero (show 0 < run.tally.unread by omega)
  have tally : run.tally.step .pop = ⟨run.tally.unread - 1, 0⟩ := if_neg none
  have origin := sound.places 0 (by omega)
  have keyboard : (run.keyboards.setKeyboard process
      (run.keyboards.keyboardAt process).pop.2).keyboardAt process =
        (run.keyboards.keyboardAt process).pop.2 := Function.update_self ..
  have firstPlace : run.tally.place run.pushed.length 0 = run.tally.oldest run.pushed.length := by
    unfold Tally.place Tally.oldest
    rw [inOrder]
    rfl
  rw [firstPlace] at first origin
  have earlier : run.tally.oldest run.pushed.length + run.tally.unread = run.pushed.length := by
    unfold Tally.oldest
    omega
  rw [if_neg filled, if_neg filled, origin, tally]
  -- With no overwrite the unread characters are the last ones that were pushed.
  have place : ∀ i, run.tally.place run.pushed.length i =
      run.tally.oldest run.pushed.length + i := by
    intro i
    unfold Tally.place Tally.oldest
    rw [inOrder]
    rfl
  have after : ∀ i, Tally.place ⟨run.tally.unread - 1, 0⟩ run.pushed.length i =
      run.tally.place run.pushed.length (i + 1) := by
    intro i
    rw [place]
    unfold Tally.place
    dsimp only
    rw [if_neg (by omega)]
    omega
  have oldest : Tally.oldest ⟨run.tally.unread - 1, 0⟩ run.pushed.length =
      run.tally.oldest run.pushed.length + 1 := by
    unfold Tally.oldest at earlier ⊢
    dsimp only
    omega
  exact {
    attached := ⟨sound.attached.isProcess, sound.attached.pushes, sound.attached.running,
      sound.attached.pops⟩
    ahead := by
      dsimp only
      rw [keyboard]
      refine (sound.ahead.congr ?_).pop filled
      change (run.tally.unread + run.tally.overflow) % 1024 = (run.tally.unread - 1 + 0 + 1) % 1024
      omega
    bound := by
      dsimp only
      omega
    full := fun some => absurd rfl some
    count := by
      dsimp only
      omega
    nonzero := sound.nonzero
    places := fun i below => by
      dsimp only at below ⊢
      rw [keyboard, Keyboard.pop_snd filled]
      dsimp only
      rw [after, ← sound.places (i + 1) (by omega), ← view_advance]
      exact view_congr _ (Keyboard.succ_modEq _) i
    content := fun i below => by
      dsimp only at below ⊢
      rw [keyboard, Keyboard.pop_slots filled (by omega), if_neg (by omega)]
      rw [after]
      exact sound.content (i + 1) (by omega)
    rest := fun i beyond small => by
      dsimp only at beyond ⊢
      rw [keyboard, Keyboard.pop_slots filled small]
      split
      · rfl
      · exact sound.rest (i + 1) (by omega) (by omega)
    inOrder := by
      refine List.pairwise_append.mpr ⟨sound.inOrder, List.pairwise_singleton .., ?_⟩
      intro x member y last
      rw [List.mem_singleton.mp last]
      exact sound.before x member
    before := fun x member => by
      dsimp only at member ⊢
      rw [oldest]
      rcases List.mem_append.mp member with old | last
      · exact (sound.before x old).trans (Nat.lt_succ_self _)
      · rw [List.mem_singleton.mp last]
        exact Nat.lt_succ_self _
    delivered := by
      dsimp only
      rw [oldest, List.take_add_one, first]
      exact sound.delivered.append (List.Sublist.refl _) }

theorem not_unscrambled (overwritten : run.tally.overflow % 1024 ≠ 0) :
    ¬ (run.step .pop).Unscrambled := by
  have filled := sound.full (by omega)
  have count := sound.count
  have some := sound.slots_ne_zero (show 0 < run.tally.unread by omega)
  obtain ⟨front, isFront⟩ : ∃ front, run.tally.overflow % 1024 = front := ⟨_, rfl⟩
  have inside : front < 1024 := by omega
  intro unscrambled
  -- The slot at `front` still holds an older character.
  have newest : run.tally.place run.pushed.length 0 ∈ (run.step .pop).popped := by
    rw [sound.step_pop]
    dsimp only
    rw [if_neg some, sound.places 0 (by omega)]
    exact List.mem_concat_self
  obtain ⟨s, slot, isSlot⟩ : ∃ s < 1024,
      ((run.keyboards.keyboardAt process).reader.toNat + front) % 1024 = s :=
    ⟨_, Nat.mod_lt _ (by decide), rfl⟩
  have unread : (run.step .pop).keyboards.written.buffer s ≠ 0 := by
    have keyboard : (run.step .pop).keyboards.written =
        (run.keyboards.keyboardAt process).pop.2 := by
      rw [sound.step_pop]
      unfold Keyboards.written Keyboards.setKeyboard
      dsimp only
      rw [sound.attached.pushes, Function.update_self]
    have other : s ≠ (run.keyboards.keyboardAt process).keyboardReadIndex := by
      unfold Keyboard.keyboardReadIndex phixKeyboardBufferSize
      omega
    rw [keyboard, Keyboard.pop_snd some]
    dsimp only
    rw [Function.update_of_ne other, ← isSlot]
    exact sound.slots_ne_zero (show front < run.tally.unread by omega)
  have older := unscrambled.oldest _ newest s slot unread
  have origin : (run.step .pop).origin s = run.tally.place run.pushed.length front := by
    rw [sound.step_pop, ← sound.places front (by omega), ← isSlot]
    rfl
  rw [origin] at older
  unfold Tally.place at older
  dsimp only at older
  rw [isFront, if_neg (lt_irrefl _), if_pos (by omega)] at older
  omega

end Sound

end KeyRun

theorem KeyRun.start_sound {keyboards : Keyboards} {process : Word}
    (attached : keyboards.Attached process)
    (cleared : keyboards.keyboardAt process = Keyboard.zero) :
    (KeyRun.start keyboards).Sound process where
  attached := attached
  ahead := by
    unfold start
    dsimp only
    rw [cleared]
    rfl
  bound := Nat.zero_le _
  full some := absurd rfl some
  count := le_rfl
  nonzero _ member := absurd member List.not_mem_nil
  places _ absent := absurd absent (Nat.not_lt_zero _)
  content _ absent := absurd absent (Nat.not_lt_zero _)
  rest i _ _ := by
    unfold start
    dsimp only
    rw [cleared]
    rfl
  inOrder := List.Pairwise.nil
  before _ member := absurd member List.not_mem_nil
  delivered := List.nil_sublist _

/-- A run stays in order as long as what is read is in order. -/
theorem KeyRun.Sound.throughout_iff {run : KeyRun} {process : Word} (sound : run.Sound process)
    (ops : List KeyOp) :
    Throughout KeyRun.step KeyRun.Unscrambled run ops ↔
      Along KeyRun.step KeyRun.ReadsInOrder run ops := by
  have any : Along KeyRun.step (fun _ _ => True) run ops :=
    along_of_forall (fun _ _ => trivial) _ ops
  refine throughout_iff_along (fun run => run.Sound process) ?_ ?_
    (fun _ sound => sound.unscrambled) sound any
  · intro run op sound _ met
    cases op with
    | push c => exact sound.push c
    | pop => exact sound.pop met
  · intro run op sound _ unmet
    cases op with
    | push c => exact absurd trivial unmet
    | pop => exact sound.not_unscrambled unmet

/-- **The characters of a process are delivered in order, none of them twice and none before an
older unread one, exactly when each is read with no character overwritten since the last one was
read, or with a multiple of the buffer's size overwritten.** -/
theorem keyboard_overflow_iff {keyboards : Keyboards} {process : Word}
    (attached : keyboards.Attached process) (cleared : keyboards.keyboardAt process = Keyboard.zero)
    (ops : List KeyOp) :
    Throughout KeyRun.step KeyRun.Unscrambled (KeyRun.start keyboards) ops ↔
      Along KeyRun.step KeyRun.ReadsInOrder (KeyRun.start keyboards) ops :=
  (KeyRun.start_sound attached cleared).throughout_iff ops

/-- A process that runs in a task. -/
def oneProcess : Keyboards where
  kernel := { Kernel.booted fun _ => 0 with
    currentProcess := 0x01000000
    currentTask := 0x01010000
    taskAt := fun _ => { Task.zero with process := 0x01000000 } }
  keyboardAt := fun _ => Keyboard.zero

theorem oneProcess_attached : oneProcess.Attached 0x01000000 where
  isProcess := by decide
  pushes := rfl
  running := show (0x01010000 : Word) ≠ null by decide
  pops := rfl

theorem KeyRun.exec_tally (run : KeyRun) (ops : List KeyOp) :
    (exec KeyRun.step run ops).tally = exec Tally.step run.tally ops := by
  induction ops generalizing run with
  | nil => rfl
  | cons op ops ih =>
      have one : (run.step op).tally = run.tally.step op := by
        cases op with
        | push c => rfl
        | pop => rfl
      exact (ih (run.step op)).trans (congrArg (exec Tally.step · ops) one)

/-- Pushes fill the buffer, and then overflow it. -/
theorem Tally.exec_pushes {c : Byte} (counts : c ≠ 0) (pushed n : ℕ) :
    exec Tally.step ⟨min pushed 1024, pushed - 1024⟩ (List.replicate n (.push c)) =
      ⟨min (pushed + n) 1024, pushed + n - 1024⟩ := by
  induction n generalizing pushed with
  | zero => rfl
  | succ n ih =>
      have one : Tally.step ⟨min pushed 1024, pushed - 1024⟩ (.push c) =
          ⟨min (pushed + 1) 1024, pushed + 1 - 1024⟩ := by
        refine (if_neg counts).trans ?_
        by_cases room : pushed < 1024
        · have free : min pushed 1024 < phixKeyboardBufferSize := by
            unfold phixKeyboardBufferSize
            omega
          refine (if_pos free).trans ?_
          rw [Tally.mk.injEq]
          dsimp only
          omega
        · have full : ¬ min pushed 1024 < phixKeyboardBufferSize := by
            unfold phixKeyboardBufferSize
            omega
          refine (if_neg full).trans ?_
          rw [Tally.mk.injEq]
          dsimp only
          omega
      rw [List.replicate_succ]
      unfold exec
      rw [one, ih, Nat.add_right_comm, Nat.add_assoc]

/-- The tally behind a number of pushes to a cleared buffer. -/
theorem KeyRun.tally_of_pushes {keyboards : Keyboards} {c : Byte} (counts : c ≠ 0) (n : ℕ) :
    (exec KeyRun.step (KeyRun.start keyboards) (List.replicate n (.push c))).tally =
      ⟨min n 1024, n - 1024⟩ := by
  rw [KeyRun.exec_tally]
  exact (Tally.exec_pushes counts 0 n).trans (by rw [Nat.zero_add])

theorem KeyRun.along_pushes (c : Byte) (n : ℕ) (run : KeyRun) :
    Along KeyRun.step KeyRun.ReadsInOrder run (List.replicate n (.push c)) := by
  induction n generalizing run with
  | zero => trivial
  | succ n ih => exact ⟨trivial, ih _⟩

theorem KeyRun.readsInOrder_of_tally {run : KeyRun} (filled : run.tally = ⟨1024, 1024⟩) :
    Along KeyRun.step KeyRun.ReadsInOrder run [.pop, .push 0x62, .pop] := by
  have first : (run.step .pop).tally = ⟨1023, 0⟩ := congrArg (Tally.step · .pop) filled
  have second : ((run.step .pop).step (.push 0x62)).tally = ⟨1024, 0⟩ :=
    congrArg (Tally.step · (.push 0x62)) first
  refine ⟨?_, trivial, ?_, trivial⟩
  · change run.tally.overflow % phixKeyboardBufferSize = 0
    rw [filled]
    rfl
  · change ((run.step .pop).step (.push 0x62)).tally.overflow % phixKeyboardBufferSize = 0
    rw [second]
    rfl

/-- Two buffers full of characters are pushed, so that the second overwrites the first, and a
character is read; another one is pushed then, and one more read. -/
theorem keyboard_overflow_twice :
    Throughout KeyRun.step KeyRun.Unscrambled (KeyRun.start oneProcess)
      (List.replicate 2048 (.push 0x61) ++ [.pop, .push 0x62, .pop]) := by
  refine (keyboard_overflow_iff oneProcess_attached rfl _).mpr (Along.append_iff.mpr
    ⟨KeyRun.along_pushes .., KeyRun.readsInOrder_of_tally ?_⟩)
  rw [KeyRun.tally_of_pushes (by decide)]
  rfl

/-- One character is pushed on top of a full buffer: it is read before the others. -/
theorem keyboard_overflow_fails :
    ¬ Throughout KeyRun.step KeyRun.Unscrambled (KeyRun.start oneProcess)
      (List.replicate 1024 (.push 0x61) ++ [.push 0x62, .pop, .pop]) := by
  rw [(KeyRun.start_sound oneProcess_attached rfl).throughout_iff, Along.append_iff]
  rintro ⟨_, _, inOrder, _⟩
  have filled : (exec KeyRun.step (KeyRun.start oneProcess)
      (List.replicate 1024 (.push 0x61))).tally = ⟨1024, 0⟩ :=
    KeyRun.tally_of_pushes (by decide) 1024
  generalize exec KeyRun.step (KeyRun.start oneProcess) (List.replicate 1024 (.push 0x61)) = run
    at filled inOrder
  have tally : (run.step (.push 0x62)).tally = run.tally.step (.push 0x62) := rfl
  unfold KeyRun.ReadsInOrder at inOrder
  dsimp only at inOrder
  rw [tally, filled] at inOrder
  exact absurd inOrder (by decide)

end Phix
