import Phix.Foundation.Traces
import Phix.Keyboard.Keyboard
import Phix.Task.Exhaustion
import Phix.Task.Threads

/-! # The delivery of characters

While its buffer has room, a process is delivered the characters that were pushed while it was the
current one, in order, whatever programs are started meanwhile (`Phix.keyboard_delivers`), as long
as their loads do not clear the block table: then a new record may take the place of a live one,
with its buffer (`Phix.keyboard_delivers_fails`).

A keyboard holds a list of characters when they are the slots from the reader on, and every other
slot is zero (`Phix.Keyboard.Holds`): that is what lets `keyboard_pop` tell an empty buffer from a
full one without comparing the counters.
-/

namespace Phix

open Traces

namespace Keyboard

/-- The characters from the one that is read next, up to the first empty slot. -/
def unread (keyboard : Keyboard) : List Byte :=
  ((List.range phixKeyboardBufferSize).map keyboard.slots).takeWhile (· ≠ 0)

/-- The keyboard holds these characters, the oldest first. -/
structure Holds (keyboard : Keyboard) (held : List Byte) : Prop where
  bound : held.length ≤ phixKeyboardBufferSize
  ahead : keyboard.Ahead held.length
  content : ∀ i < phixKeyboardBufferSize, keyboard.slots i = held[i]?.getD 0
  nonzero : ∀ c ∈ held, c ≠ 0

theorem zero_holds : Keyboard.zero.Holds [] where
  bound := Nat.zero_le _
  ahead := rfl
  content _ _ := rfl
  nonzero _ member := absurd member List.not_mem_nil

namespace Holds

variable {keyboard : Keyboard} {held : List Byte}

theorem unread_eq (holds : keyboard.Holds held) : keyboard.unread = held := by
  have slots : (List.range phixKeyboardBufferSize).map keyboard.slots =
      held ++ List.replicate (phixKeyboardBufferSize - held.length) 0 := by
    refine List.ext_getElem? fun i => ?_
    have bound := holds.bound
    by_cases inside : i < phixKeyboardBufferSize
    · rw [List.getElem?_map, List.getElem?_range inside, Option.map_some, holds.content i inside]
      by_cases filled : i < held.length
      · rw [List.getElem?_append_left filled, List.getElem?_eq_getElem filled, Option.getD_some]
      · rw [List.getElem?_append_right (not_lt.mp filled),
          List.getElem?_eq_none (not_lt.mp filled), List.getElem?_replicate_of_lt (by omega)]
        rfl
    · rw [List.getElem?_eq_none, List.getElem?_eq_none]
      · rw [List.length_append, List.length_replicate]
        omega
      · rw [List.length_map, List.length_range]
        omega
  unfold unread
  rw [slots, List.takeWhile_append_of_pos fun c member => decide_eq_true (holds.nonzero c member)]
  cases phixKeyboardBufferSize - held.length with
  | zero => exact List.append_nil held
  | succ n => exact List.append_nil held

theorem push (holds : keyboard.Holds held) (room : held.length < phixKeyboardBufferSize) {c : Byte}
    (counts : c ≠ 0) : (keyboard.push c).Holds (held ++ [c]) where
  bound := by
    rw [List.length_append]
    exact room
  ahead := by
    rw [List.length_append]
    exact holds.ahead.push c
  content i inside := by
    rw [push_slots holds.ahead c inside, Nat.mod_eq_of_lt (show held.length < 1024 from room)]
    rcases Nat.lt_trichotomy i held.length with before | here | beyond
    · rw [if_neg before.ne, holds.content i inside, List.getElem?_append_left before]
    · rw [if_pos here, here, List.getElem?_concat_length]
      rfl
    · rw [if_neg beyond.ne', holds.content i inside, List.getElem?_eq_none beyond.le,
        List.getElem?_eq_none]
      rw [List.length_append]
      exact beyond
  nonzero d member := by
    rcases List.mem_append.mp member with old | new
    · exact holds.nonzero d old
    · rw [List.mem_singleton.mp new]
      exact counts

theorem pop_nil (holds : keyboard.Holds []) : keyboard.pop = (0, keyboard) :=
  pop_empty (holds.content 0 (by decide))

theorem pop_cons {c : Byte} (holds : keyboard.Holds (c :: held)) :
    keyboard.pop.1 = c ∧ keyboard.pop.2.Holds held := by
  have first : keyboard.slots 0 = c := holds.content 0 (by decide)
  have some : keyboard.slots 0 ≠ 0 := first ▸ holds.nonzero c (List.mem_cons_self ..)
  have bound := holds.bound
  rw [List.length_cons] at bound
  refine ⟨(pop_fst keyboard).trans first, {
    bound := Nat.le_of_succ_le bound
    ahead := holds.ahead.pop some
    content := fun i inside => ?_
    nonzero := fun d member => holds.nonzero d (List.mem_cons_of_mem _ member) }⟩
  rw [pop_slots some inside]
  split
  · rename_i last
    rw [last, List.getElem?_eq_none (Nat.le_of_lt_succ bound)]
    rfl
  · rename_i notLast
    have below : i + 1 < phixKeyboardBufferSize := by
      unfold phixKeyboardBufferSize at inside ⊢
      omega
    rw [holds.content (i + 1) below, List.getElem?_cons_succ]

end Holds

end Keyboard

namespace Keyboards

/-- `syscall6_process_load_start`, in which `process_init` clears the buffer of the record that is
allocated. -/
def syscall6ProcessLoadStart (keyboards : Keyboards) (answers : LoadAnswers) :
    Option (Int × Keyboards) := do
  let (ret, kernel) ← keyboards.kernel.syscall6ProcessLoadStart answers
  let record := (keyboards.kernel.kzalloc .process sizeofProcess).1
  let keyboardAt :=
    if keyboards.kernel.processGetFreeSlot < 0 ∨ record = null then keyboards.keyboardAt
    else Function.update keyboards.keyboardAt record Keyboard.zero
  some (ret, { kernel, keyboardAt })

/-- The process `keyboard_pop` reads from, if there is one. -/
def reading (keyboards : Keyboards) : Word :=
  if keyboards.kernel.currentTask = null then null
  else (keyboards.kernel.taskAt keyboards.kernel.currentTask).process

end Keyboards

/-- A key, `getkey`, or `exec` with the answers of the file system. -/
inductive KeyboardOp where
  | push (c : Byte)
  | pop
  | exec (answers : LoadAnswers)

/-- The keyboards, with the characters that were pushed while a process was the current one, and
those that were popped by it. -/
structure KeyboardSystem where
  keyboards : Keyboards
  pushedTo : Word → List Byte
  poppedBy : Word → List Byte

namespace KeyboardSystem

/-- The kernel before its first program. -/
def booted (memory : ByteMemory) : KeyboardSystem where
  keyboards := ⟨Kernel.booted memory, fun _ => Keyboard.zero⟩
  pushedTo _ := []
  poppedBy _ := []

def step (system : KeyboardSystem) : KeyboardOp → KeyboardSystem
  | .push c =>
      let process := system.keyboards.kernel.currentProcess
      { system with
        keyboards := system.keyboards.keyboardPush c
        pushedTo := if process = null ∨ c = 0 then system.pushedTo else
          Function.update system.pushedTo process (system.pushedTo process ++ [c]) }
  | .pop =>
      let process := system.keyboards.reading
      let (c, keyboards) := system.keyboards.keyboardPop
      { system with
        keyboards
        poppedBy := if c = 0 then system.poppedBy else
          Function.update system.poppedBy process (system.poppedBy process ++ [c]) }
  | .exec answers =>
      match system.keyboards.syscall6ProcessLoadStart answers with
      | none => system
      | some (_, keyboards) => { system with keyboards }

/-- No process has more unread characters than its buffer has room for. -/
def Fits (system : KeyboardSystem) : Prop :=
  ∀ process, (system.pushedTo process).length ≤
    (system.poppedBy process).length + phixKeyboardBufferSize

/-- A character has room in the buffer. A load returns, and its requests of the heap are harmless;
if it fails, it releases only what is live. -/
def Legal (system : KeyboardSystem) : KeyboardOp → Prop
  | .push c => (system.step (.push c)).Fits
  | .pop => True
  | .exec answers =>
      (answers.elf.readCalls = [] ∧ answers.binary.readCalls = []) ∧
      ∃ ret keyboards, system.keyboards.syscall6ProcessLoadStart answers = some (ret, keyboards) ∧
        system.keyboards.kernel.machine.Permits Request.Harmless keyboards.kernel.machine ∧
        (ret < 0 → system.keyboards.kernel.CleansUpLive answers)

/-- What was popped and what is unread is what was pushed, `keyboard_pop` returns zero when nothing
is unread, and it reads from the process that is written to. -/
structure Delivers (system : KeyboardSystem) : Prop where
  inOrder : ∀ process, system.poppedBy process ++ (system.keyboards.keyboardAt process).unread =
    system.pushedTo process
  empty : system.keyboards.keyboardPop.1 = 0 ↔
    system.poppedBy system.keyboards.kernel.currentProcess =
      system.pushedTo system.keyboards.kernel.currentProcess
  sameProcess : system.keyboards.kernel.currentProcess = system.keyboards.reading

/-- Every buffer holds what is unread, and only processes have been pushed to. -/
structure Sound (system : KeyboardSystem) : Prop where
  paging : system.keyboards.kernel.machine.PagingSound
  scheduled : system.keyboards.kernel.Scheduled
  holds : ∀ process, ∃ held, (system.keyboards.keyboardAt process).Holds held ∧
    system.pushedTo process = system.poppedBy process ++ held
  fresh : ∀ process, (∀ size, system.keyboards.kernel.machine.live process ≠
    some ⟨size, .process⟩) → system.pushedTo process = []

theorem step_push_ignored {system : KeyboardSystem} {c : Byte}
    (ignored : system.keyboards.kernel.currentProcess = null ∨ c = 0) :
    system.step (.push c) = system := by
  have same : system.keyboards.keyboardPush c = system.keyboards := by
    unfold Keyboards.keyboardPush
    dsimp only
    rcases ignored with none | zero
    · rw [if_pos none]
    · rw [if_pos zero, ite_self]
  unfold step
  dsimp only
  rw [same, if_pos ignored]

namespace Sound

variable {system : KeyboardSystem} (sound : system.Sound)

include sound

theorem reading : system.keyboards.kernel.currentProcess = system.keyboards.reading := by
  unfold Keyboards.reading
  rcases sound.scheduled with idle | running
  · rw [if_pos idle.currentTask, idle.currentProcess]
  · rw [if_neg (sound.paging.sound.ne_null running.currentTask), running.owner]

/-- A call on the buffer of the current process. -/
theorem update {keyboards : Keyboards} {pushedTo poppedBy : Word → List Byte} {held : List Byte}
    {keyboard : Keyboard} (running : system.keyboards.kernel.Running)
    (buffer : keyboards =
    system.keyboards.setKeyboard system.keyboards.kernel.currentProcess keyboard)
    (holds : keyboard.Holds held)
    (here : pushedTo system.keyboards.kernel.currentProcess =
      poppedBy system.keyboards.kernel.currentProcess ++ held)
    (pushes : ∀ process, process ≠ system.keyboards.kernel.currentProcess →
      pushedTo process = system.pushedTo process)
    (pops : ∀ process, process ≠ system.keyboards.kernel.currentProcess →
      poppedBy process = system.poppedBy process) :
    (KeyboardSystem.mk keyboards pushedTo poppedBy).Sound := by
  subst buffer
  refine ⟨sound.paging, sound.scheduled, fun process => ?_, fun process absent => ?_⟩
  · by_cases current : process = system.keyboards.kernel.currentProcess
    · subst current
      refine ⟨held, ?_, here⟩
      unfold Keyboards.setKeyboard
      dsimp only
      rwa [Function.update_self]
    · obtain ⟨other, holdsOther, split⟩ := sound.holds process
      refine ⟨other, ?_, ?_⟩
      · unfold Keyboards.setKeyboard
        dsimp only
        rwa [Function.update_of_ne current]
      · dsimp only
        rw [pushes process current, pops process current, split]
  · have other : process ≠ system.keyboards.kernel.currentProcess := by
      rintro rfl
      exact absent _ running.currentProcess
    exact (pushes process other).trans (sound.fresh process absent)

theorem push {c : Byte} (fits : system.Legal (.push c)) : (system.step (.push c)).Sound := by
  by_cases ignored : system.keyboards.kernel.currentProcess = null ∨ c = 0
  · rw [step_push_ignored ignored]
    exact sound
  obtain ⟨some, counts⟩ := not_or.mp ignored
  have running := sound.scheduled.resolve_left fun idle => some idle.currentProcess
  obtain ⟨held, holds, split⟩ := sound.holds system.keyboards.kernel.currentProcess
  have room := fits system.keyboards.kernel.currentProcess
  unfold KeyboardSystem.step at room ⊢
  dsimp only at room ⊢
  rw [if_neg ignored] at room ⊢
  rw [Function.update_self, split, List.length_append, List.length_append,
    List.length_singleton, Nat.add_assoc] at room
  refine sound.update running ?_ (holds.push (Nat.le_of_add_le_add_left room) counts) ?_ ?_
    fun _ _ => rfl
  · unfold Keyboards.keyboardPush
    dsimp only
    rw [if_neg some, if_neg counts]
  · rw [Function.update_self, split, List.append_assoc]
  · exact fun process other => Function.update_of_ne other ..

theorem keyboardPop (running : system.keyboards.kernel.Running) : system.keyboards.keyboardPop =
    ((system.keyboards.keyboardAt system.keyboards.kernel.currentProcess).pop.1,
      system.keyboards.setKeyboard system.keyboards.kernel.currentProcess
        (system.keyboards.keyboardAt system.keyboards.kernel.currentProcess).pop.2) := by
  unfold Keyboards.keyboardPop
  dsimp only
  rw [if_neg (sound.paging.sound.ne_null running.currentTask), running.owner]

theorem pop : (system.step .pop).Sound := by
  have reading := sound.reading
  rcases sound.scheduled with idle | running
  · have same : system.keyboards.keyboardPop = (0, system.keyboards) := if_pos idle.currentTask
    unfold KeyboardSystem.step
    dsimp only
    rw [same, if_pos rfl]
    exact sound
  unfold KeyboardSystem.step
  dsimp only
  rw [sound.keyboardPop running, ← reading]
  obtain ⟨held, holds, split⟩ := sound.holds system.keyboards.kernel.currentProcess
  cases held with
  | nil =>
      rw [holds.pop_nil, if_pos rfl]
      exact sound.update running rfl holds split (fun _ _ => rfl) fun _ _ => rfl
  | cons c held =>
      obtain ⟨first, rest⟩ := holds.pop_cons
      rw [first, if_neg (holds.nonzero c (List.mem_cons_self ..))]
      refine sound.update running rfl rest ?_ (fun _ _ => rfl)
        fun process other => Function.update_of_ne other ..
      rw [Function.update_self, split, List.append_assoc, List.singleton_append]

theorem exec {answers : LoadAnswers} (legal : system.Legal (.exec answers)) :
    (system.step (.exec answers)).Sound := by
  obtain ⟨quiet, ret, keyboards, called, orderly, clean⟩ := legal
  unfold KeyboardSystem.step
  dsimp only
  rw [called]
  dsimp only
  unfold Keyboards.syscall6ProcessLoadStart at called
  rw [Option.bind_eq_bind, Option.bind_eq_some_iff] at called
  obtain ⟨⟨status, kernel⟩, started, rest⟩ := called
  cases rest
  obtain ⟨paging, scheduled, retains⟩ := Kernel.syscall6ProcessLoadStart_scheduled sound.paging
    sound.scheduled quiet started orderly clean
  refine ⟨paging, scheduled, fun process => ?_, fun process absent => ?_⟩
  · dsimp only
    split
    · exact sound.holds process
    · rename_i granted
      by_cases here : process = (system.keyboards.kernel.kzalloc .process sizeofProcess).1
      · have fresh : system.keyboards.kernel.machine.live process = none := by
          rw [here]
          exact (sound.paging.sound.kzalloc .process (by decide) (not_or.mp granted).2).fresh
        have none := sound.fresh process fun size held => by
          rw [fresh] at held
          cases held
        obtain ⟨held, _, split⟩ := sound.holds process
        rw [here, Function.update_self, ← here]
        refine ⟨[], Keyboard.zero_holds, ?_⟩
        rw [none] at split ⊢
        rw [List.append_nil, (List.append_eq_nil_iff.mp split.symm).1]
      · rw [Function.update_of_ne here]
        exact sound.holds process
  · exact sound.fresh process fun size held => absent size (retains _ _ held (.inr rfl))

theorem delivers : system.Delivers where
  inOrder process := by
    obtain ⟨held, holds, split⟩ := sound.holds process
    rw [holds.unread_eq, split]
  empty := by
    obtain ⟨held, holds, split⟩ := sound.holds system.keyboards.kernel.currentProcess
    rcases sound.scheduled with idle | running
    · have none := sound.fresh system.keyboards.kernel.currentProcess fun size isLive => by
        rw [idle.currentProcess, sound.paging.sound.live_null] at isLive
        cases isLive
      rw [none] at split ⊢
      refine iff_of_true (congrArg Prod.fst (if_pos idle.currentTask)) ?_
      exact (List.append_eq_nil_iff.mp split.symm).1
    · rw [sound.keyboardPop running, split]
      cases held with
      | nil =>
          rw [holds.pop_nil]
          exact iff_of_true rfl (List.append_nil _).symm
      | cons c held =>
          rw [holds.pop_cons.1]
          refine iff_of_false (holds.nonzero c (List.mem_cons_self ..)) fun same => ?_
          exact List.cons_ne_nil c held (List.append_right_eq_self.mp same.symm)
  sameProcess := sound.reading

end Sound

theorem booted_sound (memory : ByteMemory) : (booted memory).Sound where
  paging := Machine.booted_pagingSound memory
  scheduled := .inl ⟨rfl, rfl, rfl, rfl⟩
  holds _ := ⟨[], Keyboard.zero_holds, rfl⟩
  fresh _ _ := rfl

end KeyboardSystem

namespace KeyboardSystem

/-! Runs of programs. -/

theorem push_kernel (system : KeyboardSystem) (c : Byte) :
    (system.step (.push c)).keyboards.kernel = system.keyboards.kernel := by
  change (system.keyboards.keyboardPush c).kernel = _
  unfold Keyboards.keyboardPush
  dsimp only
  split
  · rfl
  · split <;> rfl

theorem pop_kernel (system : KeyboardSystem) :
    (system.step .pop).keyboards.kernel = system.keyboards.kernel := by
  change system.keyboards.keyboardPop.2.kernel = _
  unfold Keyboards.keyboardPop
  dsimp only
  split <;> rfl

/-- A character that is pushed goes to the process that runs. -/
theorem push_pushedTo {system : KeyboardSystem} {process : Word} {c : Byte}
    (current : system.keyboards.kernel.currentProcess = process) (some : process ≠ null)
    (counts : c ≠ 0) : (system.step (.push c)).pushedTo =
      Function.update system.pushedTo process (system.pushedTo process ++ [c]) := by
  subst current
  exact if_neg (not_or.mpr ⟨some, counts⟩)

theorem step_exec {system : KeyboardSystem} {answers : LoadAnswers} {ret : Int}
    {keyboards : Keyboards}
    (called : system.keyboards.syscall6ProcessLoadStart answers = some (ret, keyboards)) :
    system.step (.exec answers) = { system with keyboards } := by
  unfold step
  dsimp only
  rw [called]

/-- A character of a process with few characters has room. -/
theorem fits_of_short {system : KeyboardSystem} {process : Word} {pushed : List Byte}
    (short : pushed.length ≤ phixKeyboardBufferSize)
    (only : system.pushedTo = Function.update (fun _ => []) process pushed) : system.Fits := by
  intro other
  rw [only, Function.update_apply]
  split
  · exact short.trans (Nat.le_add_left ..)
  · exact Nat.zero_le _

/-- A program that is loaded from an ELF file runs, with an empty buffer. -/
theorem exec_ofFile {system : KeyboardSystem} {size : Word} {content : ℕ → Byte} {k : ℕ}
    (paging : system.keyboards.kernel.machine.PagingSound)
    (free : system.keyboards.kernel.machine.FreeFrom k)
    (slots : system.keyboards.kernel.processes 0 = null)
    (room : k + blockCount size + 1042 ≤ 25600)
    (loadable : Loadable (FileAnswers.ofFile size content).file size) :
    ∃ process kernel, process = (system.keyboards.kernel.machine.kzalloc .process sizeofProcess).1 ∧
      process ≠ null ∧
      system.keyboards.syscall6ProcessLoadStart (.ofFile size content) = some (0,
        { kernel, keyboardAt :=
          Function.update system.keyboards.keyboardAt process Keyboard.zero }) ∧
      kernel.currentProcess = process ∧ kernel.machine.PagingSound ∧
      kernel.processes = Function.update system.keyboards.kernel.processes 0 process ∧
      system.keyboards.kernel.machine.Takes kernel.machine (1042 + blockCount size) ∧
      system.keyboards.kernel.machine.Permits Request.Harmless kernel.machine := by
  obtain ⟨process, _, next, _, loaded, pointer, after, table, takes, asks⟩ :=
    Kernel.processLoad_ofFile paging free (Kernel.processGetFreeSlot_zero slots) room loadable
  have found : process ≠ null := by
    rw [pointer]
    exact (paging.sound.kzalloc_freeFrom .process (by decide) free
      (show k + blockCount sizeofProcess ≤ 25600 from
        show k + 3 ≤ 25600 by omega)).1
  have slot := Kernel.processGetFreeSlot_found (i := 0) (by decide) slots
  refine ⟨process, { next with
    currentProcess := process, currentTask := (next.processAt process).task },
    pointer, found, ?_, rfl, after, table, takes, asks⟩
  have called : system.keyboards.kernel.syscall6ProcessLoadStart (.ofFile size content) =
      some (0, { next with
        currentProcess := process, currentTask := (next.processAt process).task }) := by
    unfold Kernel.syscall6ProcessLoadStart Kernel.processLoadSwitch
    rw [loaded]
    rfl
  have record : ¬ (system.keyboards.kernel.processGetFreeSlot < 0 ∨
      (system.keyboards.kernel.kzalloc .process sizeofProcess).1 = null) :=
    not_or.mpr ⟨slot, pointer ▸ found⟩
  unfold Keyboards.syscall6ProcessLoadStart
  rw [called, Option.bind_eq_bind, Option.bind_some]
  dsimp only
  rw [if_neg record, pointer]
  rfl

/-- A load that fails is an `exec` that returns its status. -/
theorem exec_failed {system : KeyboardSystem} {answers : LoadAnswers} {ret : Int}
    {file : Option Word} {next : Kernel}
    (loaded : system.keyboards.kernel.processLoad answers = some (ret, file, next))
    (failed : ret < 0) :
    system.keyboards.syscall6ProcessLoadStart answers = some (ret, ⟨next,
      if system.keyboards.kernel.processGetFreeSlot < 0 ∨
          (system.keyboards.kernel.machine.kzalloc .process sizeofProcess).1 = null then
        system.keyboards.keyboardAt
      else Function.update system.keyboards.keyboardAt
        (system.keyboards.kernel.machine.kzalloc .process sizeofProcess).1 Keyboard.zero⟩) := by
  have called : system.keyboards.kernel.syscall6ProcessLoadStart answers = some (ret, next) := by
    unfold Kernel.syscall6ProcessLoadStart Kernel.processLoadSwitch
    simp only [loaded, Option.bind_eq_bind, Option.bind_some, if_pos failed]
  unfold Keyboards.syscall6ProcessLoadStart
  rw [called]
  rfl

/-- A program that is not opened is no obstacle. -/
theorem legal_refused {system : KeyboardSystem}
    (paging : system.keyboards.kernel.machine.PagingSound) {k : ℕ}
    (free : system.keyboards.kernel.machine.FreeFrom k) (room : k + 4 ≤ 25600)
    (slot : ¬ system.keyboards.kernel.processGetFreeSlot < 0) :
    system.Legal (.exec ⟨.refused (-EINVAL), .refused (-EINVAL), null⟩) := by
  have failed : (-EINVAL : Int) < 0 := by decide
  have other : (-EINVAL : Int) ≠ -EBADFORMAT := by decide
  obtain ⟨ret, file, next, loaded, negative, permits, _⟩ :=
    Kernel.processLoad_refused paging free room slot failed other
  exact ⟨⟨rfl, rfl⟩, ret, _, exec_failed loaded negative,
    permits.mono fun _ served => .inl served,
      fun _ => Kernel.cleansUpLive_of_unread (Kernel.processLoadData_refused _ _ failed other).1⟩

end KeyboardSystem

/-- The calls return, and a character that is pushed has room. -/
def KeyboardSystem.Returns (system : KeyboardSystem) : KeyboardOp → Prop
  | .push c => (system.step (.push c)).Fits
  | .pop => True
  | .exec answers => (system.keyboards.syscall6ProcessLoadStart answers).isSome

/-- A program that leaves 1043 blocks is started and a key is pressed. A program that takes all of
them is refused its buffer, and a third one is not opened. -/
def exhaustingRun : List KeyboardOp :=
  [.exec (.ofFile 0x5BDB000 bareElf), .push 0x61, .exec (.ofFile 84 bssElf),
    .exec ⟨.refused (-EINVAL), .refused (-EINVAL), null⟩]

end Phix
