import Phix.Interrupts.Isolation

/-! # The keys of a program

The characters of the keys that are pressed go to the program that runs, and `getkey` gives them to
it one by one, through all that it asks for and stores and through the programs that it starts
(`Phix.keys_delivered`).
-/

namespace Phix

open Traces

/-- The character of a key that is pressed, or zero. -/
def KeyPress.character (key : KeyPress) : Byte :=
  if key.scanCode &&& ps2KeyReleased ≠ 0 then 0
  else ps2KeyboardScancodeToChar key.behind key.scanCode

/-- The character that an event types, or zero. -/
def Event.character : Event → Byte
  | .entry (.interrupt interrupt _ key) => if interrupt.number = 0x21 then key.character else 0
  | _ => 0

/-- The buffers when a character, if there is one, has been typed for a process. -/
def typeInto (keyboardAt : Word → Keyboard) (process : Word) (c : Byte) : Word → Keyboard :=
  if c = 0 then keyboardAt
  else Function.update keyboardAt process ((keyboardAt process).push c)

namespace System

/-- The character that `getkey` returns in an event, or zero. -/
def character (system : System) : Event → Byte
  | .entry (.systemCall command frame site) =>
      match system.handle (.systemCall command frame site) with
      | some (.caller eax, _) => if command = 2 then eax.setWidth 8 else 0
      | _ => 0
  | _ => 0

/-- A buffer is as it was, or it is the empty one of a new record. -/
def Buffers (system next : System) : Prop :=
  ∀ p, next.keyboards.keyboardAt p = system.keyboards.keyboardAt p ∨
    (∀ size, system.machine.live p ≠ some ⟨size, .process⟩) ∧
      next.keyboards.keyboardAt p = Keyboard.zero

theorem Buffers.of_eq {system next : System}
    (same : next.keyboards.keyboardAt = system.keyboards.keyboardAt) : system.Buffers next :=
  fun p => .inl (congrFun same p)

section Calls

variable {system : System}

theorem taskGetStackItem_keyboards {task index : Word} {called : Word × System}
    (got : system.taskGetStackItem task index = some called) :
    called.2.keyboards = system.keyboards := by
  unfold taskGetStackItem at got
  dsimp only at got
  rw [Option.bind_eq_bind, Option.bind_eq_some_iff] at got
  obtain ⟨_, _, rest⟩ := got
  cases rest
  rfl

/-- A call that reads one item of the stack and keeps the buffers. -/
theorem stackItem_keyboardAt {task index : Word} {rest : Word × System → Word × System}
    {called : Word × System}
    (ran : ((system.taskGetStackItem task index).bind fun item => some (rest item)) = some called)
    (keeps : ∀ item, (rest item).2.keyboards.keyboardAt = item.2.keyboards.keyboardAt) :
    called.2.keyboards.keyboardAt = system.keyboards.keyboardAt := by
  obtain ⟨item, got, same⟩ := Option.bind_eq_some_iff.mp ran
  cases same
  rw [keeps, taskGetStackItem_keyboards got]

theorem syscall0Sum_keyboardAt {called : Word × System} (ran : system.syscall0Sum = some called) :
    called.2.keyboards.keyboardAt = system.keyboards.keyboardAt := by
  unfold syscall0Sum at ran
  rw [Option.bind_eq_bind, Option.bind_eq_some_iff] at ran
  obtain ⟨first, got, rest⟩ := ran
  rw [← taskGetStackItem_keyboards got]
  exact stackItem_keyboardAt rest fun _ => rfl

theorem syscall1Print_keyboardAt {buf : Word} {called : Word × System}
    (ran : system.syscall1Print buf = some called) :
    called.2.keyboards.keyboardAt = system.keyboards.keyboardAt := by
  unfold syscall1Print copyStringFromTask at ran
  rw [Option.bind_eq_bind, Option.bind_eq_some_iff] at ran
  obtain ⟨first, got, rest⟩ := ran
  rw [← taskGetStackItem_keyboards got]
  rw [Option.bind_eq_bind, Option.bind_eq_some_iff] at rest
  obtain ⟨second, copied, rest⟩ := rest
  rw [Option.bind_eq_bind, Option.bind_eq_some_iff] at copied
  obtain ⟨_, _, copied⟩ := copied
  cases copied
  cases rest
  rfl

/-- No call but `getkey` and `exec` changes a buffer. -/
theorem run_keyboardAt {site : CallSite} {func : Syscall} {called : Resumption × System}
    (noKey : func ≠ .syscall2Getkey) (noLoad : func ≠ .syscall6ProcessLoadStart)
    (ran : func.run system site = some called) :
    called.2.keyboards.keyboardAt = system.keyboards.keyboardAt := by
  have returns : ∀ call : Option (Word × System), call.map Resumption.ofReturn = some called →
      (∀ {result : Word × System}, call = some result →
        result.2.keyboards.keyboardAt = system.keyboards.keyboardAt) →
      called.2.keyboards.keyboardAt = system.keyboards.keyboardAt := by
    intro call mapped keeps
    obtain ⟨result, same, rfl⟩ := Option.map_eq_some_iff.mp mapped
    exact keeps same
  cases func with
  | syscall0Sum => exact returns system.syscall0Sum ran syscall0Sum_keyboardAt
  | syscall1Print => exact returns (system.syscall1Print site.array) ran syscall1Print_keyboardAt
  | syscall2Getkey => exact absurd rfl noKey
  | syscall3Putchar =>
      exact returns system.syscall3Putchar ran fun call => stackItem_keyboardAt call fun _ => rfl
  | syscall4Malloc =>
      exact returns system.syscall4Malloc ran fun call => stackItem_keyboardAt call fun _ => rfl
  | syscall5Free =>
      exact returns system.syscall5Free ran fun call => stackItem_keyboardAt call fun _ => rfl
  | syscall6ProcessLoadStart => exact absurd rfl noLoad
  | syscall7GetPaddr =>
      exact returns system.syscall7GetPaddr ran fun call => stackItem_keyboardAt call fun _ => rfl
  | syscall8GetFlags =>
      exact returns system.syscall8GetFlags ran fun call => stackItem_keyboardAt call fun _ => rfl

/-- A load clears the buffer of the record it allocates. -/
theorem syscall6ProcessLoadStart_buffers {site : CallSite} {called : Resumption × System}
    (sound : system.Sound)
    (permitted : Syscall.syscall6ProcessLoadStart.Permitted system site)
    (ran : system.syscall6ProcessLoadStart site.array site.answers = some called) :
    system.Buffers called.2 := by
  obtain ⟨array, _⟩ := permitted
  obtain ⟨directory, has⟩ := sound.directory
  obtain ⟨ret, machine, path, ends⟩ := syscall6ProcessLoadStart_cases ran
  have same := sound.accounts.paging.syscall6Path has array path
  rcases ends with ⟨_, rfl⟩ | ⟨_, status, keyboards, started, ends⟩
  · exact .of_eq rfl
  have cleared : system.Buffers { system with keyboards } := by
    unfold Keyboards.syscall6ProcessLoadStart at started
    rw [Option.bind_eq_bind, Option.bind_eq_some_iff] at started
    obtain ⟨_, _, started⟩ := started
    cases started
    intro p
    dsimp only
    split
    · exact .inl rfl
    · rename_i granted
      have found : (machine.kzalloc .process sizeofProcess).1 ≠ null := (not_or.mp granted).2
      by_cases here : p = (machine.kzalloc .process sizeofProcess).1
      · have fresh := (same.paging.sound.kzalloc .process (by decide) found).fresh
        refine .inr ⟨fun size held => ?_, ?_⟩
        · have still := same.keeps.retains _ _ held (.inr rfl)
          rw [here, fresh] at still
          cases still
        · subst here
          exact Function.update_self ..
      · exact .inl (Function.update_of_ne here ..)
  rcases ends with ⟨_, rfl⟩ | ⟨_, entered, rfl, rfl⟩
  · exact cleared
  · exact cleared

end Calls

section Handle

variable {system : System}

theorem taskPage_keyboardAt {next : System} (paged : system.taskPage = some next) :
    next.keyboards.keyboardAt = system.keyboards.keyboardAt := by
  unfold taskPage at paged
  split at paged
  · cases paged
  · cases paged
    rfl

theorem taskCurrentSaveState_keyboardAt {frame : InterruptFrame} {next : System}
    (saved : system.taskCurrentSaveState frame = some next) :
    next.keyboards.keyboardAt = system.keyboards.keyboardAt := by
  unfold taskCurrentSaveState at saved
  split at saved
  · cases saved
  · cases saved
    rfl

theorem keyboardPush_keyboardAt (running : system.kernel.currentProcess ≠ null) (c : Byte) :
    (system.keyboards.keyboardPush c).keyboardAt =
      typeInto system.keyboards.keyboardAt system.kernel.currentProcess c := by
  have running : system.keyboards.kernel.currentProcess ≠ null := running
  unfold Keyboards.keyboardPush typeInto
  dsimp only
  rw [if_neg running]
  split <;> rfl

theorem ps2KeyboardHandleInterrupt_keyboardAt {key : KeyPress} {next : System}
    (running : system.kernel.currentProcess ≠ null)
    (handled : system.ps2KeyboardHandleInterrupt key = some next) :
    next.keyboards.keyboardAt =
      typeInto system.keyboards.keyboardAt system.kernel.currentProcess key.character := by
  unfold ps2KeyboardHandleInterrupt at handled
  dsimp only at handled
  split at handled
  · rename_i released
    cases handled
    rw [show key.character = 0 from if_pos released]
    rfl
  · rename_i pressed
    rw [show key.character = _ from if_neg pressed, taskPage_keyboardAt handled,
      ← keyboardPush_keyboardAt running]
    split
    · rename_i none
      rw [none, keyboardPush_keyboardAt running]
      rfl
    · rfl

variable (sound : system.Sound)

include sound

/-- An interrupt types its character into the buffer of the current program. -/
theorem Sound.interrupt_keyboardAt {interrupt : Interrupt} {frame : InterruptFrame}
    {key : KeyPress} {next : System}
    (handled : system.interruptHandler interrupt.number.toNat frame key = some next) :
    next.keyboards.keyboardAt =
      typeInto system.keyboards.keyboardAt system.kernel.currentProcess
        (Event.entry (.interrupt interrupt frame key)).character := by
  have running := sound.accounts.paging.sound.ne_null sound.running.currentProcess
  have table : system.kernelPage.interruptCallbacks = callbackTable := sound.callbacks
  unfold System.interruptHandler at handled
  dsimp only at handled
  by_cases keyboard : interrupt.number = 0x21
  · have registered : system.kernelPage.interruptCallbacks interrupt.number.toNat =
        some .ps2KeyboardHandleInterrupt := by
      rw [table, keyboard]
      rfl
    rw [registered] at handled
    dsimp only at handled
    rw [Option.bind_eq_bind, Option.bind_eq_some_iff] at handled
    obtain ⟨saved, save, rest⟩ := handled
    obtain ⟨typed, pressed, left⟩ := Option.bind_eq_some_iff.mp rest
    have paged := sound.alike system.kernelPage_alike
    have entered := paged.trans (paged.sound.taskCurrentSaveState save)
    have current := entered.current.process
    have types := ps2KeyboardHandleInterrupt_keyboardAt (current ▸ running) pressed
    rw [current, taskCurrentSaveState_keyboardAt save] at types
    rw [taskPage_keyboardAt left,
      show (Event.entry (.interrupt interrupt frame key)).character = key.character from
        if_pos keyboard]
    exact types
  · have registered : system.kernelPage.interruptCallbacks interrupt.number.toNat = none := by
      rw [table]
      exact if_neg fun same => keyboard (BitVec.eq_of_toNat_eq same)
    rw [registered] at handled
    dsimp only at handled
    rw [Option.bind_eq_bind, Option.bind_some] at handled
    rw [show (Event.entry (.interrupt interrupt frame key)).character = 0 from if_neg keyboard,
      taskPage_keyboardAt handled]
    rfl

/-- `getkey` returns the next character of the current program. -/
theorem Sound.getkey (frame : InterruptFrame) (site : CallSite) :
    ∃ next, system.handle (.systemCall 2 frame site) =
        some (.caller ((system.keyboards.keyboardAt
          system.kernel.currentProcess).pop.1.signExtend 32), next) ∧
      next.keyboards.keyboardAt = Function.update system.keyboards.keyboardAt
        system.kernel.currentProcess
          (system.keyboards.keyboardAt system.kernel.currentProcess).pop.2 := by
  have paged := sound.alike system.kernelPage_alike
  obtain ⟨saved, save⟩ := paged.sound.taskCurrentSaveState_some frame
  have entered := paged.trans (paged.sound.taskCurrentSaveState save)
  have registered : saved.syscalls 2 = some .syscall2Getkey := by
    rw [entered.sound.syscalls]
    rfl
  have popped := entered.sound.syscall2Getkey
  obtain ⟨next, left⟩ := popped.sound.taskPage_some
  have pops : saved.keyboards.keyboardPop =
      ((saved.keyboards.keyboardAt saved.kernel.currentProcess).pop.1,
        saved.keyboards.setKeyboard saved.kernel.currentProcess
          (saved.keyboards.keyboardAt saved.kernel.currentProcess).pop.2) := by
    have running := entered.sound.accounts.paging.sound.ne_null entered.sound.running.currentTask
    unfold Keyboards.keyboardPop
    dsimp only
    rw [if_neg (show ¬ saved.keyboards.kernel.currentTask = null from running),
      show (saved.keyboards.kernel.taskAt saved.keyboards.kernel.currentTask).process =
        saved.kernel.currentProcess from entered.sound.process]
  have same : saved.keyboards.keyboardAt = system.keyboards.keyboardAt :=
    (taskCurrentSaveState_keyboardAt save).trans rfl
  have current := entered.current.process
  have called : saved.isr80hHandleCommand 2 site =
      some (.caller (saved.keyboards.keyboardPop.1.signExtend 32), saved.syscall2Getkey.2) := by
    unfold System.isr80hHandleCommand
    rw [if_neg (by decide), show (2 : Word).toInt.toNat = 2 by decide, registered]
    rfl
  rw [pops] at called
  rw [← current, ← same]
  refine ⟨next, ?_, ?_⟩
  · unfold System.handle System.isr80hHandler
    dsimp only
    rw [save, Option.bind_eq_bind, Option.bind_some, called, Option.bind_eq_bind,
      Option.bind_some]
    dsimp only
    rw [left, Option.bind_some]
  · rw [taskPage_keyboardAt left]
    exact congrArg (fun popped => popped.2.keyboardAt) pops

omit sound in
theorem syscallTable_getkey {n : ℕ} (named : syscallTable n = some .syscall2Getkey) : n = 2 := by
  have inside : n < 9 := (List.getElem?_eq_some_iff.mp named).1
  exact (List.getElem?_inj inside (by decide)).mp (named.trans rfl)

/-- Any other call keeps the buffers, but for that of a new record. -/
theorem Sound.call_buffers {command : Word} {frame : InterruptFrame} {site : CallSite}
    {resumption : Resumption} {next : System} (other : command ≠ 2)
    (legal : system.Legal (.entry (.systemCall command frame site)))
    (handled : system.isr80hHandler command frame site = some (resumption, next)) :
    system.Buffers next := by
  obtain ⟨saved, save, ends⟩ := isr80hHandler_cases handled
  have paged := sound.alike system.kernelPage_alike
  have entered := paged.trans (paged.sound.taskCurrentSaveState save)
  have same : saved.keyboards.keyboardAt = system.keyboards.keyboardAt :=
    (taskCurrentSaveState_keyboardAt save).trans rfl
  have buffers : ∀ {result called}, saved.isr80hHandleCommand command site =
      some (result, called) → saved.Buffers called := by
    intro result called call
    rcases isr80hHandleCommand_cases call with stays | ⟨positive, func, registered, call⟩
    · cases stays
      exact .of_eq rfl
    have permitted := legal saved save func registered
    rw [entered.sound.syscalls] at registered
    have noKey : func ≠ .syscall2Getkey := by
      rintro rfl
      have number := syscallTable_getkey registered
      exact other (BitVec.eq_of_toInt_eq (by change _ = (2 : Int); omega))
    by_cases load : func = .syscall6ProcessLoadStart
    · subst load
      exact syscall6ProcessLoadStart_buffers entered.sound permitted call
    · exact .of_eq (run_keyboardAt noKey load call)
  have buffers : saved.Buffers next := by
    rcases ends with ⟨ret, called, call, leave, _⟩ | ⟨registers, call, _⟩
    · intro p
      rw [taskPage_keyboardAt leave]
      exact buffers call p
    · exact buffers call
  intro p
  rcases buffers p with kept | ⟨absent, cleared⟩
  · exact .inl (kept.trans (congrFun same p))
  · exact .inr ⟨fun size held => absent size (entered.spaces.retains _ _ held (.inr rfl)), cleared⟩

end Handle

end System

/-- The kernel, with the characters that were typed while a process was the current one, and those
that `getkey` returned to it. -/
structure Session where
  system : System
  typedTo : Word → List Byte
  readBy : Word → List Byte

namespace Session

/-- The kernel with its first program, before anything is typed. -/
def start (system : System) : Session := ⟨system, fun _ => [], fun _ => []⟩

/-- A character, if there is one, is added to those of a process. -/
def record (characters : Word → List Byte) (process : Word) (c : Byte) : Word → List Byte :=
  if c = 0 then characters
  else Function.update characters process (characters process ++ [c])

def step (session : Session) (event : Event) : Session :=
  let process := session.system.kernel.currentProcess
  { system := session.system.step event
    typedTo := record session.typedTo process event.character
    readBy := record session.readBy process (session.system.character event) }

/-- No process has more unread characters than its buffer has room for. -/
def Fits (session : Session) : Prop :=
  ∀ process, (session.typedTo process).length ≤
    (session.readBy process).length + phixKeyboardBufferSize

def Legal (session : Session) (event : Event) : Prop :=
  session.system.Legal event ∧ (session.step event).Fits

/-- What was read and what is unread is what was typed, and `getkey` returns the next character that
is unread, or zero. -/
structure Delivers (session : Session) : Prop where
  inOrder : ∀ process, session.readBy process ++
    (session.system.keyboards.keyboardAt process).unread = session.typedTo process
  getkey : ∀ frame site, ∃ next, session.system.handle (.systemCall 2 frame site) =
    some (.caller (((session.system.keyboards.keyboardAt
      session.system.kernel.currentProcess).unread.headD 0).signExtend 32), next)

/-- Every buffer holds what is unread, and nothing has been typed for what is no process. -/
structure Sound (session : Session) : Prop where
  serves : session.system.Serves
  holds : ∀ process, ∃ held, (session.system.keyboards.keyboardAt process).Holds held ∧
    session.typedTo process = session.readBy process ++ held
  fresh : ∀ process, (∀ size, session.system.machine.live process ≠ some ⟨size, .process⟩) →
    session.typedTo process = []

theorem step_untyped (session : Session) {event : Event} (none : event.character = 0) :
    (session.step event).typedTo = session.typedTo := if_pos none

theorem step_unread (session : Session) {event : Event}
    (none : session.system.character event = 0) :
    (session.step event).readBy = session.readBy := if_pos none

theorem record_other {characters : Word → List Byte} {process other : Word} (c : Byte)
    (different : other ≠ process) : record characters process c other = characters other := by
  unfold record
  split
  · rfl
  · exact Function.update_of_ne different ..

theorem record_self (characters : Word → List Byte) (process : Word) {c : Byte} (counts : c ≠ 0) :
    record characters process c process = characters process ++ [c] := by
  unfold record
  rw [if_neg counts, Function.update_self]

namespace Sound

variable {session : Session} (sound : session.Sound)

include sound

/-- Work that concerns the buffer of the current program only, but for that of a new record. -/
theorem step_of {event : Event} (legal : session.system.Legal event)
    (others : ∀ process, process ≠ session.system.kernel.currentProcess →
      (session.system.step event).keyboards.keyboardAt process =
          session.system.keyboards.keyboardAt process ∨
        (∀ size, session.system.machine.live process ≠ some ⟨size, .process⟩) ∧
          (session.system.step event).keyboards.keyboardAt process = Keyboard.zero)
    (here : ∃ held, ((session.system.step event).keyboards.keyboardAt
        session.system.kernel.currentProcess).Holds held ∧
      (session.step event).typedTo session.system.kernel.currentProcess =
        (session.step event).readBy session.system.kernel.currentProcess ++ held) :
    (session.step event).Sound := by
  obtain ⟨serves, follows, _⟩ := sound.serves.step legal
  have current := sound.serves.running.currentProcess
  refine ⟨serves, fun process => ?_, fun process absent => ?_⟩
  · by_cases same : process = session.system.kernel.currentProcess
    · subst same
      exact here
    obtain ⟨held, holds, split⟩ := sound.holds process
    have typed : (session.step event).typedTo process = session.typedTo process :=
      record_other _ same
    have read : (session.step event).readBy process = session.readBy process :=
      record_other _ same
    rw [typed, read]
    rcases others process same with kept | ⟨absent, cleared⟩
    · refine ⟨held, ?_, split⟩
      change ((session.system.step event).keyboards.keyboardAt process).Holds held
      rw [kept]
      exact holds
    · refine ⟨[], ?_, ?_⟩
      · change ((session.system.step event).keyboards.keyboardAt process).Holds []
        rw [cleared]
        exact Keyboard.zero_holds
      · have nothing := sound.fresh process absent
        rw [nothing] at split ⊢
        rw [List.append_nil, (List.append_eq_nil_iff.mp split.symm).1]
  · have still : ∀ size, session.system.machine.live process ≠ some ⟨size, .process⟩ :=
      fun size held => absent size (follows.spaces.retains _ _ held (.inr rfl))
    have other : process ≠ session.system.kernel.currentProcess := by
      rintro rfl
      exact still _ current
    exact (record_other _ other).trans (sound.fresh process still)

theorem interrupt {interrupt : Interrupt} {frame : InterruptFrame} {key : KeyPress}
    (legal : session.Legal (.entry (.interrupt interrupt frame key))) :
    (session.step (.entry (.interrupt interrupt frame key))).Sound := by
  obtain ⟨next, handled, _⟩ :=
    sound.serves.toSound.interruptHandler interrupt.number.toNat frame key
  have ran : session.system.handle (.interrupt interrupt frame key) =
      some (.caller frame.eax, next) := by
    unfold System.handle
    dsimp only
    rw [handled, Option.bind_eq_bind, Option.bind_some]
  have stepped : session.system.step (.entry (.interrupt interrupt frame key)) = next := by
    unfold System.step
    dsimp only
    rw [ran]
  have typed := sound.serves.toSound.interrupt_keyboardAt handled
  have fits := legal.2 session.system.kernel.currentProcess
  have reads : (session.step (.entry (.interrupt interrupt frame key))).readBy = session.readBy :=
    session.step_unread rfl
  have types : (session.step (.entry (.interrupt interrupt frame key))).typedTo =
    record session.typedTo session.system.kernel.currentProcess
      (Event.entry (.interrupt interrupt frame key)).character := rfl
  rw [reads, types] at fits
  refine sound.step_of legal.1 ?_ ?_ <;> rw [stepped, typed]
  · intro process other
    refine .inl ?_
    unfold typeInto
    split
    · rfl
    · exact Function.update_of_ne other ..
  · rw [reads, types]
    generalize (Event.entry (.interrupt interrupt frame key)).character = c at fits
    obtain ⟨held, holds, split⟩ := sound.holds session.system.kernel.currentProcess
    by_cases none : c = 0
    · unfold typeInto record
      rw [if_pos none, if_pos none]
      exact ⟨held, holds, split⟩
    · unfold typeInto
      rw [record_self _ _ none, split] at fits ⊢
      rw [if_neg none, Function.update_self]
      rw [List.length_append, List.length_append, List.length_singleton, Nat.add_assoc] at fits
      exact ⟨held ++ [c], holds.push (Nat.le_of_add_le_add_left fits) none,
        List.append_assoc ..⟩

theorem getkey {frame : InterruptFrame} {site : CallSite}
    (legal : session.Legal (.entry (.systemCall 2 frame site))) :
    (session.step (.entry (.systemCall 2 frame site))).Sound := by
  obtain ⟨next, handled, popped⟩ := sound.serves.toSound.getkey frame site
  have stepped : session.system.step (.entry (.systemCall 2 frame site)) = next := by
    unfold System.step
    dsimp only
    rw [handled]
  obtain ⟨held, holds, split⟩ := sound.holds session.system.kernel.currentProcess
  have types : (session.step (.entry (.systemCall 2 frame site))).typedTo = session.typedTo :=
    session.step_untyped rfl
  have read : session.system.character (.entry (.systemCall 2 frame site)) =
      (session.system.keyboards.keyboardAt session.system.kernel.currentProcess).pop.1 := by
    unfold System.character
    dsimp only
    rw [handled]
    dsimp only
    rw [if_pos rfl]
    ext i inside
    rw [BitVec.getElem_setWidth, BitVec.getLsbD_signExtend, if_pos inside,
      BitVec.getLsbD_eq_getElem inside, decide_eq_true (Nat.lt_trans inside (by decide)),
      Bool.true_and]
  have reads : (session.step (.entry (.systemCall 2 frame site))).readBy =
    record session.readBy session.system.kernel.currentProcess
      (session.system.character (.entry (.systemCall 2 frame site))) := rfl
  rw [read] at reads
  refine sound.step_of legal.1 ?_ ?_ <;> rw [stepped, popped]
  · exact fun process other => .inl (Function.update_of_ne other ..)
  · rw [types, reads, split, Function.update_self]
    cases held with
    | nil =>
        rw [holds.pop_nil]
        refine ⟨[], holds, ?_⟩
        unfold record
        rw [if_pos rfl]
    | cons c held =>
        obtain ⟨first, rest⟩ := holds.pop_cons
        rw [first, record_self _ _ (holds.nonzero c (List.mem_cons_self ..))]
        refine ⟨held, rest, ?_⟩
        rw [List.append_assoc, List.singleton_append]

theorem call {command : Word} {frame : InterruptFrame} {site : CallSite} (other : command ≠ 2)
    (legal : session.Legal (.entry (.systemCall command frame site))) :
    (session.step (.entry (.systemCall command frame site))).Sound := by
  have reads : (session.step (.entry (.systemCall command frame site))).readBy =
      session.readBy := by
    refine session.step_unread ?_
    unfold System.character
    dsimp only
    split
    · exact if_neg other
    · rfl
  have types : (session.step (.entry (.systemCall command frame site))).typedTo = session.typedTo :=
    session.step_untyped rfl
  have buffers : session.system.Buffers
      (session.system.step (.entry (.systemCall command frame site))) := by
    unfold System.step
    dsimp only
    cases handled : session.system.handle (.systemCall command frame site) with
    | none => exact .of_eq rfl
    | some result => exact sound.serves.toSound.call_buffers other legal.1 handled
  refine sound.step_of legal.1 (fun process _ => buffers process) ?_
  rw [types, reads]
  rcases buffers session.system.kernel.currentProcess with kept | ⟨absent, _⟩
  · rw [kept]
    exact sound.holds session.system.kernel.currentProcess
  · exact absurd sound.serves.running.currentProcess (absent _)

theorem store {v : Word} {value : Byte} (legal : session.Legal (.store v value)) :
    (session.step (.store v value)).Sound := by
  have reads : (session.step (.store v value)).readBy = session.readBy := session.step_unread rfl
  have types : (session.step (.store v value)).typedTo = session.typedTo :=
    session.step_untyped rfl
  have kept : (session.system.step (.store v value)).keyboards.keyboardAt =
      session.system.keyboards.keyboardAt := by
    unfold System.step System.store
    dsimp only
    cases userWalk session.system.currentDirectory session.system.machine.memory v <;> rfl
  refine sound.step_of legal.1 (fun process _ => .inl (congrFun kept process)) ?_
  rw [types, reads, kept]
  exact sound.holds session.system.kernel.currentProcess

theorem step {event : Event} (legal : session.Legal event) : (session.step event).Sound := by
  cases event with
  | store v value => exact sound.store legal
  | entry entry =>
      cases entry with
      | interrupt interrupt frame key => exact sound.interrupt legal
      | systemCall command frame site =>
          by_cases getkey : command = 2
          · subst getkey
            exact sound.getkey legal
          · exact sound.call getkey legal

theorem delivers : session.Delivers where
  inOrder process := by
    obtain ⟨held, holds, split⟩ := sound.holds process
    rw [holds.unread_eq, split]
  getkey frame site := by
    obtain ⟨next, handled, _⟩ := sound.serves.toSound.getkey frame site
    obtain ⟨held, holds, _⟩ := sound.holds session.system.kernel.currentProcess
    refine ⟨next, handled.trans ?_⟩
    rw [holds.unread_eq]
    cases held with
    | nil =>
        rw [holds.pop_nil]
        rfl
    | cons c held =>
        rw [holds.pop_cons.1]
        rfl

end Sound

end Session

/-- Nothing has been typed for the first program. -/
theorem System.kernelMain_keyboardAt {memory : ByteMemory} {calls : List KernelCall}
    {answers : LoadAnswers} {resumption : Resumption} {system : System}
    (orderly : StartsOrderly memory calls answers)
    (main : kernelMain memory calls answers = some (resumption, system)) (p : Word) :
    system.keyboards.keyboardAt p = Keyboard.zero := by
  obtain ⟨first, status, keyboards, starts, switched, _, _, rfl, _, ends⟩ :=
    kernelMain_cases orderly main
  cases ends
  have empty : first.keyboards.keyboardAt = fun _ => Keyboard.zero := by
    unfold started at starts
    dsimp only at starts
    rw [Option.bind_eq_bind, Option.bind_eq_some_iff] at starts
    obtain ⟨_, _, starts⟩ := starts
    cases starts
    rfl
  have before : first.keyboards.keyboardAt p = Keyboard.zero := congrFun empty p
  unfold Keyboards.processLoadSwitch at switched
  rw [Option.bind_eq_bind, Option.bind_eq_some_iff] at switched
  obtain ⟨_, _, switched⟩ := switched
  cases switched
  change (if _ then first.keyboards.keyboardAt else _) p = _
  split
  · exact before
  · refine (Function.update_apply ..).trans ?_
    split
    · rfl
    · exact before

theorem Session.start_sound {system : System} (serves : system.Serves)
    (empty : ∀ p, system.keyboards.keyboardAt p = Keyboard.zero) : (start system).Sound where
  serves := serves
  holds process := ⟨[], (empty process).symm ▸ Keyboard.zero_holds, rfl⟩
  fresh _ _ := rfl

theorem Session.step_typedTo_length (session : Session) (event : Event) (process : Word) :
    ((session.step event).typedTo process).length ≤ (session.typedTo process).length + 1 := by
  by_cases none : event.character = 0
  · rw [session.step_untyped none]
    exact Nat.le_succ _
  · have types : (session.step event).typedTo =
      record session.typedTo session.system.kernel.currentProcess event.character := rfl
    by_cases same : process = session.system.kernel.currentProcess
    · rw [types, same, record_self _ _ none, List.length_append, List.length_singleton]
    · rw [types, record_other _ same]
      exact Nat.le_succ _

/-- No buffer overflows in a short run. -/
theorem Session.along_short {session : Session} {events : List Event}
    (legal : Along System.step System.Legal session.system events)
    (short : ∀ process, (session.typedTo process).length + events.length ≤
      phixKeyboardBufferSize) : Along Session.step Legal session events := by
  induction events generalizing session with
  | nil => trivial
  | cons event events ih =>
      have room : ∀ process, ((session.step event).typedTo process).length + events.length ≤
          phixKeyboardBufferSize := fun process => by
        have more := session.step_typedTo_length event process
        have total := short process
        rw [List.length_cons] at total
        omega
      refine ⟨⟨legal.1, fun process => ?_⟩, ih legal.2 room⟩
      exact (Nat.le_add_right _ _).trans ((room process).trans (Nat.le_add_left _ _))

end Phix
