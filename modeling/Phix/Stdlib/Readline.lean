import Phix.Common
import Phix.Foundation.Numerals

/-! # `readline`

The line input of the user library's `stdio.c`. A backspace takes the last character back, but
the code looks for one only where there is a character before it: on an empty line the backspace
itself becomes a character, and the next backspace takes it back. So the line is right exactly
when an even number of backspaces has come on an empty line (`Phix.Stdlib.readline_edits_iff`).
-/

namespace Phix.Stdlib

open Backwards

def carriageReturn : Byte := 13
def backspaceKey : Byte := 0x08

/-- `getkey`, on the results of the system calls that it makes; a zero is no key. It waits for a
further result when there is none. -/
def getkey : (polls : List Byte) → Option (Byte × List Byte)
  | [] => none
  | val :: polls => if val = 0 then getkey polls else some (val, polls)

/-- The index of the loop, the buffer, what has been printed, and the results that are left. -/
structure Readline where
  i : Int
  buf : Int → Byte
  output : List Byte
  polls : List Byte

/-- The loop of `readline`. After a backspace that takes a character back, `i` is two less before
`i++`. -/
def readline.loop (max : Int) (outputWhileTyping : Bool) : (rounds : ℕ) → Readline →
    Option Readline
  | 0, _ => none
  | rounds + 1, state =>
      if state.i < max - 1 then
        match getkey state.polls with
        | none => none
        | some (key, polls) =>
            let state := { state with polls := polls }
            if key = carriageReturn then some state
            else
              let state := if outputWhileTyping then
                { state with output := state.output ++ [key] } else state
              if key = backspaceKey ∧ 1 ≤ state.i then
                loop max outputWhileTyping rounds
                  { state with
                    buf := Function.update state.buf (state.i - 1) 0
                    i := state.i - 2 + 1 }
              else
                loop max outputWhileTyping rounds
                  { state with buf := Function.update state.buf state.i key, i := state.i + 1 }
      else some state

/-- `readline`; every round takes a key. -/
def readline (buf : Int → Byte) (max : Int) (outputWhileTyping : Bool) (polls : List Byte) :
    Option Readline :=
  (readline.loop max outputWhileTyping (polls.length + 1)
      { i := 0, buf := buf, output := [], polls := polls }).map fun line =>
    { line with buf := Function.update line.buf line.i 0 }

/-! ## Line editing -/

/-- An ordinary key appends itself, a backspace removes the last character. -/
def edit (line : List Byte) (key : Byte) : List Byte :=
  if key = backspaceKey then line.dropLast else line ++ [key]

/-- The line that the keys give from `line` on, and the keys behind it: it ends at a carriage
return, or when it has `max - 1` characters. -/
def editedLine (max : Int) : (keys : List Byte) → (line : List Byte) →
    Option (List Byte × List Byte)
  | [], line => if (line.length : Int) = max - 1 then some (line, []) else none
  | key :: keys, line =>
      if (line.length : Int) = max - 1 then some (line, key :: keys)
      else if key = carriageReturn then some (line, keys)
      else editedLine max keys (edit line key)

/-- The keys among the results of the system calls. -/
def keysOf (polls : List Byte) : List Byte := polls.filter (· ≠ 0)

/-- The call stops where line editing ends, leaves the line with its NUL in the buffer and writes
no byte outside of `buf[0..max-1]`; or it waits for more keys where line editing does. -/
def EditsLine (buf : Int → Byte) (max : Int) (polls : List Byte) (result : Option Readline) :
    Prop :=
  match editedLine max (keysOf polls) [], result with
  | none, none => True
  | some (line, keys), some state =>
      Holds state.buf 0 (line ++ [0]) ∧ keysOf state.polls = keys ∧ backspaceKey ∉ line ∧
        ∀ j, j < 0 ∨ max ≤ j → state.buf j = buf j
  | _, _ => False

/-- The line, and how many backspaces have come on an empty line. -/
structure Typed where
  line : List Byte
  stray : ℕ

def Typed.key (typed : Typed) (key : Byte) : Typed where
  line := edit typed.line key
  stray := if key = backspaceKey ∧ typed.line = [] then typed.stray + 1 else typed.stray

/-- There is room for no further character when a stray backspace stands before the line. -/
def Typed.Full (max : Int) (typed : Typed) : Prop :=
  ((typed.stray % 2 + typed.line.length : ℕ) : Int) = max - 1

instance (max : Int) (typed : Typed) : Decidable (typed.Full max) :=
  inferInstanceAs (Decidable (_ = _))

/-- What has been typed when the call stops, and the keys behind it. -/
def typedUntilStop (max : Int) : (keys : List Byte) → Typed → Option (Typed × List Byte)
  | [], typed => if typed.Full max then some (typed, []) else none
  | key :: keys, typed =>
      if typed.Full max then some (typed, key :: keys)
      else if key = carriageReturn then some (typed, keys)
      else typedUntilStop max keys (typed.key key)

/-- The characters that the buffer holds. -/
def Typed.held (typed : Typed) : List Byte :=
  List.replicate (typed.stray % 2) backspaceKey ++ typed.line

theorem Typed.held_length (typed : Typed) :
    typed.held.length = typed.stray % 2 + typed.line.length := by
  unfold held
  rw [List.length_append, List.length_replicate]

/-- **What a key does to the buffer**: a backspace is a character like any other when there is
none before it. -/
theorem Typed.held_key (typed : Typed) (key : Byte) :
    (typed.key key).held =
      if key = backspaceKey ∧ typed.held ≠ [] then typed.held.dropLast
      else typed.held ++ [key] := by
  unfold Typed.key held edit
  by_cases isBackspace : key = backspaceKey
  · rw [if_pos isBackspace]
    by_cases empty : typed.line = []
    · rw [if_pos ⟨isBackspace, empty⟩, empty, List.append_nil, List.dropLast_nil, List.append_nil,
        isBackspace]
      rcases Nat.mod_two_eq_zero_or_one typed.stray with even | odd
      · rw [even, Nat.add_mod, even]
        rfl
      · rw [odd, Nat.add_mod, odd]
        rfl
    · have nonempty : List.replicate (typed.stray % 2) backspaceKey ++ typed.line ≠ [] :=
        fun nothing => empty (List.append_eq_nil_iff.mp nothing).2
      rw [if_neg fun both => empty both.2, if_pos ⟨isBackspace, nonempty⟩,
        List.dropLast_append_of_ne_nil empty]
  · rw [if_neg isBackspace, if_neg fun both => isBackspace both.1, if_neg fun both =>
      isBackspace both.1, List.append_assoc]

theorem getkey_eq_none {polls : List Byte} : getkey polls = none ↔ keysOf polls = [] := by
  induction polls with
  | nil => exact iff_of_true rfl rfl
  | cons val polls ih =>
      unfold getkey keysOf
      by_cases zero : val = 0
      · rw [if_pos zero, List.filter_cons_of_neg (by simpa using zero)]
        exact ih
      · rw [if_neg zero, List.filter_cons_of_pos (by simpa using zero)]
        exact iff_of_false (Option.some_ne_none _) (List.cons_ne_nil _ _)

theorem of_getkey {polls rest : List Byte} {key : Byte} (got : getkey polls = some (key, rest)) :
    keysOf polls = key :: keysOf rest ∧ rest.length < polls.length := by
  induction polls with
  | nil => cases got
  | cons val polls ih =>
      unfold getkey at got
      by_cases zero : val = 0
      · rw [if_pos zero] at got
        obtain ⟨keys, shorter⟩ := ih got
        refine ⟨?_, Nat.lt_succ_of_lt shorter⟩
        unfold keysOf at keys ⊢
        rw [List.filter_cons_of_neg (by simpa using zero)]
        exact keys
      · rw [if_neg zero] at got
        cases got
        refine ⟨?_, Nat.lt_succ_self _⟩
        unfold keysOf
        rw [List.filter_cons_of_pos (by simpa using zero)]

/-- The buffer holds what has been typed. -/
structure Agrees (max : Int) (buf : Int → Byte) (state : Readline) (typed : Typed) : Prop where
  i : state.i = typed.held.length
  bound : state.i ≤ max - 1
  holds : Holds state.buf 0 typed.held
  kept : ∀ j, j < 0 ∨ max ≤ j → state.buf j = buf j

theorem Agrees.full_iff {max : Int} {buf : Int → Byte} {state : Readline} {typed : Typed}
    (agrees : Agrees max buf state typed) : typed.Full max ↔ ¬ state.i < max - 1 := by
  have i := agrees.i
  have bound := agrees.bound
  rw [typed.held_length] at i
  unfold Typed.Full
  omega

/-- A backspace with a character before it. -/
theorem Agrees.backspace {max : Int} {buf : Int → Byte} {state : Readline} {typed : Typed}
    (agrees : Agrees max buf state typed) (before : 1 ≤ state.i) (output polls : List Byte) :
    Agrees max buf
      { i := state.i - 2 + 1, buf := Function.update state.buf (state.i - 1) 0, output := output,
        polls := polls } (typed.key backspaceKey) := by
  obtain ⟨i, bound, holds, kept⟩ := agrees
  have nonempty : typed.held ≠ [] := fun nothing => by
    rw [nothing, List.length_nil] at i
    omega
  have held : (typed.key backspaceKey).held = typed.held.dropLast := by
    rw [typed.held_key, if_pos ⟨rfl, nonempty⟩]
  have length : typed.held.dropLast.length = typed.held.length - 1 := List.length_dropLast
  refine ⟨?_, ?_, ?_, fun j outside => ?_⟩
  · rw [held, length]
    change state.i - 2 + 1 = _
    omega
  · change state.i - 2 + 1 ≤ max - 1
    omega
  · rw [held]
    have split := holds
    rw [← List.dropLast_append_getLast nonempty, Holds.append] at split
    refine split.1.congr fun j lower upper => ?_
    have different : j ≠ state.i - 1 := by
      rw [length] at upper
      omega
    exact Function.update_of_ne different 0 state.buf
  · rw [← kept j outside]
    have different : j ≠ state.i - 1 := by omega
    exact Function.update_of_ne different 0 state.buf

/-- Any other key, and a backspace with nothing before it. -/
theorem Agrees.append {max : Int} {buf : Int → Byte} {state : Readline} {typed : Typed} {key : Byte}
    (agrees : Agrees max buf state typed) (room : state.i < max - 1)
    (plain : ¬ (key = backspaceKey ∧ 1 ≤ state.i)) (output polls : List Byte) :
    Agrees max buf
      { i := state.i + 1, buf := Function.update state.buf state.i key, output := output,
        polls := polls } (typed.key key) := by
  obtain ⟨i, bound, holds, kept⟩ := agrees
  have held : (typed.key key).held = typed.held ++ [key] := by
    rw [typed.held_key, if_neg fun both => plain ⟨both.1, ?_⟩]
    have positive := List.length_pos_iff.mpr both.2
    omega
  refine ⟨?_, ?_, ?_, fun j outside => ?_⟩
  · rw [held, List.length_append]
    change state.i + 1 = _
    rw [i]
    rfl
  · change state.i + 1 ≤ max - 1
    omega
  · rw [held, Holds.append]
    refine ⟨holds.congr fun j lower upper => ?_, ?_, trivial⟩
    · have different : j ≠ state.i := by omega
      exact Function.update_of_ne different key state.buf
    · rw [Int.zero_add, ← i]
      exact Function.update_self state.i key state.buf
  · rw [← kept j outside]
    have different : j ≠ state.i := by omega
    exact Function.update_of_ne different key state.buf

/-- What the loop ends with. -/
def Ends (max : Int) (buf : Int → Byte) (stop : Option (Typed × List Byte))
    (result : Option Readline) : Prop :=
  match stop, result with
  | none, none => True
  | some (typed, keys), some state => Agrees max buf state typed ∧ keysOf state.polls = keys
  | _, _ => False

/-- **The loop stops where the keys say**, with what has been typed in the buffer. -/
theorem readline.loop_ends (max : Int) (outputWhileTyping : Bool) (buf : Int → Byte) (rounds : ℕ)
    (state : Readline) (typed : Typed) (enough : state.polls.length < rounds)
    (agrees : Agrees max buf state typed) :
    Ends max buf (typedUntilStop max (keysOf state.polls) typed)
      (loop max outputWhileTyping rounds state) := by
  induction rounds generalizing state typed with
  | zero => exact absurd enough (Nat.not_lt_zero _)
  | succ rounds ih =>
      unfold loop
      by_cases full : typed.Full max
      · rw [if_neg (agrees.full_iff.mp full)]
        cases keys : keysOf state.polls with
        | nil =>
            unfold typedUntilStop
            rw [if_pos full]
            exact ⟨agrees, keys⟩
        | cons key rest =>
            unfold typedUntilStop
            rw [if_pos full]
            exact ⟨agrees, keys⟩
      have room : state.i < max - 1 := not_not.mp fun no => full (agrees.full_iff.mpr no)
      rw [if_pos room]
      cases got : getkey state.polls with
      | none =>
          rw [getkey_eq_none.mp got]
          unfold typedUntilStop
          rw [if_neg full]
          trivial
      | some pair =>
          obtain ⟨key, polls⟩ := pair
          obtain ⟨keys, shorter⟩ := of_getkey got
          rw [keys]
          unfold typedUntilStop
          rw [if_neg full]
          dsimp only
          by_cases isReturn : key = carriageReturn
          · rw [if_pos isReturn, if_pos isReturn]
            exact ⟨⟨agrees.i, agrees.bound, agrees.holds, agrees.kept⟩, rfl⟩
          rw [if_neg isReturn, if_neg isReturn]
          have fewer : polls.length < rounds := by omega
          by_cases back : key = backspaceKey ∧ 1 ≤ state.i
          · obtain ⟨rfl, before⟩ := back
            by_cases echo : outputWhileTyping = true
            · rw [if_pos echo, if_pos ⟨rfl, before⟩]
              exact ih _ _ fewer (agrees.backspace before _ _)
            · rw [if_neg echo, if_pos ⟨rfl, before⟩]
              exact ih _ _ fewer (agrees.backspace before _ _)
          · by_cases echo : outputWhileTyping = true
            · rw [if_pos echo, if_neg back]
              exact ih _ _ fewer (agrees.append room back _ _)
            · rw [if_neg echo, if_neg back]
              exact ih _ _ fewer (agrees.append room back _ _)

theorem Typed.held_key_length_le (typed : Typed) (key : Byte) :
    (typed.key key).held.length ≤ typed.held.length + 1 := by
  rw [typed.held_key]
  split
  · rw [List.length_dropLast]
    omega
  · rw [List.length_append]
    exact Nat.le_refl _

/-- An even number of stray backspaces leaves the line that editing gives. -/
theorem editedLine_of_typedUntilStop {max : Int} {keys : List Byte} {typed : Typed}
    (fits : (typed.held.length : Int) ≤ max - 1) :
    (typedUntilStop max keys typed = none → editedLine max keys typed.line = none) ∧
      ∀ last rest, typedUntilStop max keys typed = some (last, rest) → last.stray % 2 = 0 →
        editedLine max keys typed.line = some (last.line, rest) := by
  have length := typed.held_length
  have full : typed.stray % 2 = 0 → (typed.Full max ↔ (typed.line.length : Int) = max - 1) := by
    intro even
    unfold Typed.Full
    rw [even, Nat.zero_add]
  have room : ¬ typed.Full max → (typed.line.length : Int) ≠ max - 1 := by
    unfold Typed.Full
    omega
  induction keys generalizing typed with
  | nil =>
      unfold typedUntilStop editedLine
      by_cases isFull : typed.Full max
      · rw [if_pos isFull]
        refine ⟨fun absent => absurd absent (Option.some_ne_none _),
          fun last rest stopped even => ?_⟩
        cases stopped
        exact if_pos ((full even).mp isFull)
      · rw [if_neg isFull, if_neg (room isFull)]
        exact ⟨fun _ => rfl, fun last rest absent => by cases absent⟩
  | cons key keys ih =>
      unfold typedUntilStop editedLine
      by_cases isFull : typed.Full max
      · rw [if_pos isFull]
        refine ⟨fun absent => absurd absent (Option.some_ne_none _),
          fun last rest stopped even => ?_⟩
        cases stopped
        exact if_pos ((full even).mp isFull)
      rw [if_neg isFull, if_neg (room isFull)]
      by_cases isReturn : key = carriageReturn
      · rw [if_pos isReturn, if_pos isReturn]
        refine ⟨fun absent => absurd absent (Option.some_ne_none _), fun last rest stopped _ => ?_⟩
        cases stopped
        rfl
      · rw [if_neg isReturn, if_neg isReturn]
        have longer := typed.held_key_length_le key
        have next := (typed.key key).held_length
        have notFull : ((typed.stray % 2 + typed.line.length : ℕ) : Int) ≠ max - 1 := isFull
        refine @ih (typed.key key) (by omega) next (fun even => ?_) fun more => ?_
        · unfold Typed.Full
          rw [even, Nat.zero_add]
        · unfold Typed.Full at more
          omega

theorem backspace_not_mem_edit {line : List Byte} (clean : backspaceKey ∉ line) (key : Byte) :
    backspaceKey ∉ edit line key := by
  unfold edit
  by_cases isBackspace : key = backspaceKey
  · rw [if_pos isBackspace]
    exact fun listed => clean (List.mem_of_mem_dropLast listed)
  · rw [if_neg isBackspace, List.mem_append, List.mem_singleton, not_or]
    exact ⟨clean, Ne.symm isBackspace⟩

theorem backspace_not_mem_editedLine {max : Int} {keys line last rest : List Byte}
    (clean : backspaceKey ∉ line) (edited : editedLine max keys line = some (last, rest)) :
    backspaceKey ∉ last := by
  induction keys generalizing line with
  | nil =>
      unfold editedLine at edited
      split at edited
      · cases edited
        exact clean
      · cases edited
  | cons key keys ih =>
      unfold editedLine at edited
      split at edited
      · cases edited
        exact clean
      split at edited
      · cases edited
        exact clean
      · exact ih (backspace_not_mem_edit clean key) edited

/-- The buffer with the NUL that the call writes last. -/
theorem Agrees.terminated {max : Int} {buf : Int → Byte} {state : Readline} {typed : Typed}
    (agrees : Agrees max buf state typed) :
    Holds (Function.update state.buf state.i 0) 0 (typed.held ++ [0]) ∧
      ∀ j, j < 0 ∨ max ≤ j → Function.update state.buf state.i 0 j = buf j := by
  obtain ⟨i, bound, holds, kept⟩ := agrees
  refine ⟨Holds.append.mpr ⟨holds.congr fun j lower upper => ?_, ?_, trivial⟩, fun j outside => ?_⟩
  · have different : j ≠ state.i := by omega
    exact Function.update_of_ne different 0 state.buf
  · rw [Int.zero_add, ← i]
    exact Function.update_self state.i 0 state.buf
  · have different : j ≠ state.i := by omega
    exact (Function.update_of_ne different 0 state.buf).trans (kept j outside)

/-- A buffer that starts with a backspace holds no edited line. -/
theorem not_editsLine_of_backspace {buf : Int → Byte} {max : Int} {polls : List Byte}
    {state : Readline} (first : state.buf 0 = backspaceKey) :
    ¬ EditsLine buf max polls (some state) := by
  unfold EditsLine
  intro edits
  cases lines : editedLine max (keysOf polls) [] with
  | none =>
      rw [lines] at edits
      exact edits
  | some pair =>
      obtain ⟨line, rest⟩ := pair
      rw [lines] at edits
      obtain ⟨holds, _, clean, _⟩ := edits
      cases line with
      | nil =>
          have zero : state.buf 0 = 0 := holds.1
          exact absurd (first.symm.trans zero) (by decide)
      | cons c line =>
          have same : state.buf 0 = c := holds.1
          exact clean (List.mem_cons.mpr (.inl (first.symm.trans same)))

/-- **When `readline` implements line editing.** It does exactly when an even number of backspaces
has come on an empty line before it stops. -/
theorem readline_edits_iff (buf : Int → Byte) (max : Int) (positive : 1 ≤ max)
    (outputWhileTyping : Bool) (polls : List Byte) :
    EditsLine buf max polls (readline buf max outputWhileTyping polls) ↔
      ∀ last rest, typedUntilStop max (keysOf polls) ⟨[], 0⟩ = some (last, rest) →
        last.stray % 2 = 0 := by
  have start : Agrees max buf { i := 0, buf := buf, output := [], polls := polls } ⟨[], 0⟩ :=
    ⟨rfl, by change (0 : Int) ≤ max - 1; omega, trivial, fun _ _ => rfl⟩
  have ends := readline.loop_ends max outputWhileTyping buf (polls.length + 1) _ _
    (Nat.lt_succ_self polls.length) start
  have edited := @editedLine_of_typedUntilStop max (keysOf polls) ⟨[], 0⟩
    (by change (0 : Int) ≤ max - 1; omega)
  unfold readline
  unfold Ends at ends
  cases stopped : typedUntilStop max (keysOf polls) ⟨[], 0⟩ with
  | none =>
      cases returned : readline.loop max outputWhileTyping (polls.length + 1)
          { i := 0, buf := buf, output := [], polls := polls } with
      | none =>
          unfold EditsLine
          rw [edited.1 stopped]
          exact iff_of_true trivial fun last rest absent => by cases absent
      | some state =>
          rw [stopped, returned] at ends
          exact ends.elim
  | some pair =>
      obtain ⟨typed, keys⟩ := pair
      cases returned : readline.loop max outputWhileTyping (polls.length + 1)
          { i := 0, buf := buf, output := [], polls := polls } with
      | none =>
          rw [stopped, returned] at ends
          exact ends.elim
      | some state =>
          rw [stopped, returned] at ends
          obtain ⟨agrees, behind⟩ := ends
          obtain ⟨holds, kept⟩ := agrees.terminated
          rw [Option.map_some]
          unfold Typed.held at holds
          rcases Nat.mod_two_eq_zero_or_one typed.stray with even | odd
          · have line := edited.2 typed keys stopped even
            rw [even] at holds
            unfold EditsLine
            rw [line]
            refine iff_of_true ⟨holds, behind, ?_, kept⟩ fun last rest same => ?_
            · exact backspace_not_mem_editedLine List.not_mem_nil line
            · cases same
              exact even
          · rw [odd] at holds
            refine iff_of_false (fun edits => ?_) fun all => ?_
            · exact not_editsLine_of_backspace (show Function.update state.buf state.i 0 0 =
                backspaceKey from holds.1) edits
            · have even := all typed keys rfl
              omega

/-- A backspace and a carriage return leave the line `"\x08"`. -/
theorem readline_stores_stray_backspace :
    (readline (fun _ => 0) 10 true [0x08, 0x0D]).map (fun line => (line.buf 0, line.buf 1)) =
        some (backspaceKey, 0) ∧
      ¬ EditsLine (fun _ => 0) 10 [0x08, 0x0D] (readline (fun _ => 0) 10 true [0x08, 0x0D]) := by
  refine ⟨rfl, fun edits => ?_⟩
  obtain ⟨⟨first, _⟩, _⟩ := edits
  exact absurd first (by decide)

/-- A mistyped character that is taken back, with polls that find no key. -/
theorem readline_edits_mistyped_line :
    EditsLine (fun _ => 0) 10 [0, 0x4C, 0x72, 0, 0x08, 0x73, 0x0D]
      (readline (fun _ => 0) 10 true [0, 0x4C, 0x72, 0, 0x08, 0x73, 0x0D]) := by
  refine (readline_edits_iff (fun _ => 0) 10 (by decide) true
    [0, 0x4C, 0x72, 0, 0x08, 0x73, 0x0D]).mpr fun last rest stopped => ?_
  cases stopped
  rfl

end Phix.Stdlib
