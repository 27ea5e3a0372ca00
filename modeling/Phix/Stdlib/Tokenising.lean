import Mathlib.Data.List.GetD
import Mathlib.Tactic.IntervalCases
import Phix.Stdlib.Strtok

/-! # Splitting a string

`strtok` keeps the rest of a string in its cursor. Started without one, it returns the maximal
runs of characters that are no delimiters, in their order, and leaves no cursor behind
(`Phix.Stdlib.strtok_splits_correctly`). A new string is looked at only when there is no cursor:
after a tokenisation that was not finished, the first token comes from the rest of the old
string, and is the right one exactly when the two scans happen to meet
(`Phix.Stdlib.strtok_restarts_iff`).
-/

namespace Phix.Stdlib

open Reading Tokens

/-- The calls return the tokens of the `n` characters at `s` and terminate them in place. They
write only on delimiters behind a token, and leave no cursor. -/
structure Splits (delimiters : Delimiters) (memory : ByteMemory) (s : Word) (n : ℕ)
    (run : Tokenisation) : Prop where
  tokens : ∃ runs, Lists (Separates delimiters memory s) n runs ∧
    run.tokens = runs.map fun token => s + BitVec.ofNat 32 token.1
  terminated : ∀ a b, MaximalRun (Separates delimiters memory s) n a b →
    run.state.memory (s + BitVec.ofNat 32 b) = 0 ∧
      ∀ j, a ≤ j → j < b →
        run.state.memory (s + BitVec.ofNat 32 j) = memory (s + BitVec.ofNat 32 j)
  writes : ∀ q ∈ run.writes, ∃ a b, MaximalRun (Separates delimiters memory s) n a b ∧
    b < n ∧ q = s + BitVec.ofNat 32 b
  kept : ∀ x, x ∉ run.writes → run.state.memory x = memory x
  sp : run.state.sp = null

section Calls

variable {delimiters : Delimiters} {memory : ByteMemory} {region : Word → Prop} {sp str : Word}

/-- Where a call starts to read. -/
def startOf (sp str : Word) : Word := if str ≠ null ∧ sp = null then str else sp

/-- A call from a cursor or a string is the two scans. -/
theorem strtokReading_eq (active : ¬ (str = null ∧ sp = null)) :
    strtokReading sp str delimiters =
      (skipDelimiters delimiters.bytes delimiters.bytes.length (2 ^ 32) (startOf sp str)).andThen
        (strtokFrom delimiters.bytes delimiters.bytes.length) := by
  unfold strtokReading
  rw [if_neg active, strlen_toInt]
  rfl

theorem strtokFrom_of_zero {list : List Byte} {q : Word} (inside : region q)
    (zero : memory q = 0) :
    Yields region memory (strtokFrom list list.length q) (some ⟨null, null, none⟩) := by
  unfold strtokFrom
  refine Yields.bind (Yields.cell inside) ?_
  rw [if_pos zero]
  exact Yields.pure _

theorem strtokFrom_of_ne_zero {list : List Byte} {q : Word} (inside : region q)
    (nonzero : memory q ≠ 0) {result : Option StrtokCall}
    (rest : Yields region memory (findEnd list list.length q (2 ^ 32) q) result) :
    Yields region memory (strtokFrom list list.length q) result := by
  unfold strtokFrom
  refine Yields.bind (Yields.cell inside) ?_
  rw [if_neg nonzero]
  exact rest

/-- What the loop over the calls does with one call. -/
theorem tokenise_succ {call : StrtokCall} (calls : ℕ)
    (reading : Yields region memory (strtokReading sp str delimiters) (some call)) :
    (call.result = null →
      ∃ run, tokenise delimiters (calls + 1) ⟨memory, sp⟩ str = some run ∧ run.tokens = [] ∧
        run.writes = call.written.toList ∧ run.state = call.after memory ∧
        ∀ p ∈ run.reads, region p) ∧
    (call.result ≠ null → ∀ rest,
      tokenise delimiters calls (call.after memory) null = some rest →
      (∀ p ∈ rest.reads, region p) →
      ∃ run, tokenise delimiters (calls + 1) ⟨memory, sp⟩ str = some run ∧
        run.tokens = call.result :: rest.tokens ∧
        run.writes = call.written.toList ++ rest.writes ∧ run.state = rest.state ∧
        ∀ p ∈ run.reads, region p) := by
  refine ⟨fun last => ?_, fun more rest returned inside => ?_⟩
  · unfold tokenise
    simp only [reading.value]
    rw [if_pos last]
    exact ⟨_, rfl, rfl, rfl, rfl, reading.within⟩
  · unfold tokenise
    simp only [reading.value]
    rw [if_neg more, returned]
    refine ⟨_, rfl, rfl, rfl, rfl, fun p listed => ?_⟩
    exact (List.mem_append.mp listed).elim (reading.within p) (inside p)

/-- The first call of a tokenisation that ends, and the rest of it. -/
theorem of_tokenise_succ {state : StrtokState} {calls : ℕ} {run : Tokenisation}
    (returned : tokenise delimiters (calls + 1) state str = some run) :
    ∃ call, (strtokReading state.sp str delimiters).value state.memory = some call ∧
      ((call.result = null ∧ run.tokens = [] ∧ run.writes = call.written.toList ∧
          run.state = call.after state.memory) ∨
        (call.result ≠ null ∧ ∃ rest,
          tokenise delimiters calls (call.after state.memory) null = some rest ∧
          run.tokens = call.result :: rest.tokens ∧
          run.writes = call.written.toList ++ rest.writes ∧ run.state = rest.state)) := by
  unfold tokenise at returned
  cases reading : (strtokReading state.sp str delimiters).value state.memory with
  | none =>
      simp only [reading] at returned
      cases returned
  | some call =>
      simp only [reading] at returned
      refine ⟨call, rfl, ?_⟩
      by_cases last : call.result = null
      · rw [if_pos last] at returned
        cases returned
        exact .inl ⟨last, rfl, rfl, rfl⟩
      · rw [if_neg last, Option.map_eq_some_iff] at returned
        obtain ⟨rest, later, rfl⟩ := returned
        exact .inr ⟨last, rest, later, rfl, rfl, rfl⟩

theorem StrtokCall.after_memory (call : StrtokCall) (memory : ByteMemory) (x : Word) :
    (call.after memory).memory x = if x ∈ call.written.toList then 0 else memory x := by
  unfold StrtokCall.after
  cases call.written with
  | none => rfl
  | some q =>
      simp only [Option.toList_some, List.mem_singleton]
      exact Function.update_apply memory q 0 x

/-- The calls change the memory where they write, and nowhere else. -/
theorem tokenise_memory (delimiters : Delimiters) (calls : ℕ) (state : StrtokState) (str : Word)
    {run : Tokenisation} (returned : tokenise delimiters calls state str = some run) (x : Word) :
    run.state.memory x = if x ∈ run.writes then 0 else state.memory x := by
  induction calls generalizing state str run with
  | zero => cases returned
  | succ calls ih =>
      obtain ⟨call, _, ⟨_, _, writes, after⟩ | ⟨_, rest, later, _, writes, after⟩⟩ :=
        of_tokenise_succ returned
      · rw [after, writes]
        exact call.after_memory state.memory x
      · rw [after, writes, ih _ _ later, call.after_memory]
        by_cases here : x ∈ call.written.toList <;> by_cases there : x ∈ rest.writes <;>
          simp [here, there]

end Calls

section Strings

variable {delimiters : Delimiters} {memory current : ByteMemory} {region : Word → Prop}
  {s sp str : Word} {n i a b : ℕ}

theorem StringAt.place_toNat (string : StringAt memory s n) (inside : i ≤ n) :
    (s + BitVec.ofNat 32 i).toNat = s.toNat + i := by
  have bound := string.inside
  rw [BitVec.toNat_add, BitVec.toNat_ofNat, Nat.mod_eq_of_lt (show i < 2 ^ 32 by omega)]
  exact Nat.mod_eq_of_lt (by omega)

theorem StringAt.place_inj (string : StringAt memory s n) {j : ℕ} (first : i ≤ n) (second : j ≤ n)
    (same : s + BitVec.ofNat 32 i = s + BitVec.ofNat 32 j) : i = j := by
  have left := string.place_toNat first
  have right := string.place_toNat second
  rw [same] at left
  omega

theorem StringAt.place_ne_null (string : StringAt memory s n) (inside : i ≤ n) :
    s + BitVec.ofNat 32 i ≠ null := by
  intro same
  have place := string.place_toNat inside
  rw [same] at place
  refine string.notNull (BitVec.eq_of_toNat_eq ?_)
  change 0 = s.toNat + i at place
  change s.toNat = 0
  omega

theorem StringAt.not_separates (string : StringAt memory s n) :
    ¬ Separates delimiters memory s n := by
  intro found
  unfold Separates at found
  rw [string.stop] at found
  exact delimiters.terminated found

/-- The rest of a string from character `i` on is as it was. -/
def Intact (memory current : ByteMemory) (s : Word) (n i : ℕ) : Prop :=
  ∀ j, i ≤ j → j ≤ n → current (s + BitVec.ofNat 32 j) = memory (s + BitVec.ofNat 32 j)

theorem add_ofNat_add (s : Word) (i j : ℕ) :
    s + BitVec.ofNat 32 i + BitVec.ofNat 32 j = s + BitVec.ofNat 32 (i + j) := by
  rw [BitVec.add_assoc, ← BitVec.ofNat_add]

/-- Skipping delimiters from character `i` leads to character `a`. -/
theorem Intact.skipDelimiters (intact : Intact memory current s n i)
    (string : StringAt memory s n) (start : i ≤ a) (inside : a ≤ n)
    (skipped : ∀ j, i ≤ j → j < a → Separates delimiters memory s j)
    (plain : ¬ Separates delimiters memory s a)
    (readable : ∀ j, i ≤ j → j ≤ n → region (s + BitVec.ofNat 32 j)) :
    Yields region current (skipDelimiters delimiters.bytes delimiters.bytes.length (2 ^ 32)
      (s + BitVec.ofNat 32 i)) (some (s + BitVec.ofNat 32 a)) := by
  have bound := string.inside
  obtain ⟨k, rfl⟩ := Nat.exists_eq_add_of_le start
  rw [← add_ofNat_add]
  refine skipDelimiters_yields (by omega) (fun j below => ?_) ?_ fun j below => ?_
  · rw [add_ofNat_add, intact _ (by omega) (by omega)]
    exact skipped (i + j) (by omega) (by omega)
  · rw [add_ofNat_add, intact _ (by omega) (by omega)]
    exact plain
  · rw [add_ofNat_add]
    exact readable (i + j) (by omega) (by omega)

/-- The call that finds no token from character `i` on. -/
theorem Intact.call_none (intact : Intact memory current s n i) (string : StringAt memory s n)
    (start : i ≤ n) (active : ¬ (str = null ∧ sp = null))
    (place : startOf sp str = s + BitVec.ofNat 32 i)
    (skipped : ∀ j, i ≤ j → j < n → Separates delimiters memory s j)
    (readable : ∀ j, i ≤ j → j ≤ n → region (s + BitVec.ofNat 32 j)) :
    Yields region current (strtokReading sp str delimiters) (some ⟨null, null, none⟩) := by
  rw [strtokReading_eq active, place]
  refine Yields.andThen (intact.skipDelimiters string start (Nat.le_refl n) skipped
    string.not_separates readable) ?_
  refine strtokFrom_of_zero (readable n start (Nat.le_refl n)) ?_
  rw [intact n start (Nat.le_refl n)]
  exact string.stop

/-- The call that returns the token `a`, ..., `b - 1`. -/
def tokenCall (s : Word) (n a b : ℕ) : StrtokCall where
  result := s + BitVec.ofNat 32 a
  sp := s + BitVec.ofNat 32 (resume n b)
  written := if b < n then some (s + BitVec.ofNat 32 b) else none

theorem Intact.call_run (intact : Intact memory current s n i) (string : StringAt memory s n)
    (active : ¬ (str = null ∧ sp = null)) (place : startOf sp str = s + BitVec.ofNat 32 i)
    (next : NextRun (Separates delimiters memory s) n i a b)
    (readable : ∀ j, i ≤ j → j ≤ n → region (s + BitVec.ofNat 32 j)) :
    Yields region current (strtokReading sp str delimiters) (some (tokenCall s n a b)) := by
  have bound := string.inside
  have start := next.start
  have nonempty := next.nonempty
  have inside := next.inside
  have first := next.plain a (Nat.le_refl a) nonempty
  have nonzero : ∀ j, i ≤ j → j < n → current (s + BitVec.ofNat 32 j) ≠ 0 := by
    intro j lower upper
    rw [intact j lower upper.le]
    exact string.bytes j upper
  rw [strtokReading_eq active, place]
  refine Yields.andThen (intact.skipDelimiters string start (by omega) next.skipped first
    readable) ?_
  refine strtokFrom_of_ne_zero (readable a start (by omega)) (nonzero a start (by omega)) ?_
  obtain ⟨k, rfl⟩ := Nat.exists_eq_add_of_lt nonempty
  refine @findEnd_yields _ _ _ _ _ _ (k + 1) (by omega) (fun j below => ?_) (fun j below => ?_)
    (fun j below => ?_) _ fun more => ?_
  · rw [add_ofNat_add]
    exact nonzero (a + j) (by omega) (by omega)
  · rw [add_ofNat_add, intact _ (by omega) (by omega)]
    exact next.plain (a + j) (by omega) (by omega)
  · rw [add_ofNat_add]
    exact readable (a + j) (by omega) (by omega)
  · rw [add_ofNat_add]
    have here := readable (a + (k + 1)) (by omega) inside
    unfold tokenCall resume
    by_cases last : a + k + 1 < n
    · have found := next.behind.resolve_left (by omega)
      rw [if_pos last, Nat.min_eq_left (by omega), ← add_ofNat_add s (a + k + 1) 1]
      refine findEnd_of_mem here (nonzero _ (by omega) last) ?_
      rw [intact _ (by omega) (by omega)]
      exact found
    · have atEnd : a + k + 1 = n := by omega
      rw [if_neg last, Nat.min_eq_right (by omega), ← atEnd]
      refine findEnd_of_zero here ?_
      rw [intact (a + (k + 1)) (by omega) inside, show a + (k + 1) = n from atEnd]
      exact string.stop

/-- What the calls from character `i` on return, write and read. -/
structure Continues (memory : ByteMemory) (region : Word → Prop) (delimiters : Delimiters)
    (s : Word) (n i : ℕ) (run : Tokenisation) : Prop where
  runs : ∃ runs, RunsFrom (Separates delimiters memory s) n i runs ∧
    run.tokens = runs.map (fun token => s + BitVec.ofNat 32 token.1) ∧
    ∀ q, q ∈ run.writes ↔ ∃ a b, (a, b) ∈ runs ∧ b < n ∧ q = s + BitVec.ofNat 32 b
  reads : ∀ p ∈ run.reads, region p
  sp : run.state.sp = null

theorem Intact.resume (intact : Intact memory current s n i) (string : StringAt memory s n)
    (next : NextRun (Separates delimiters memory s) n i a b) :
    Intact memory ((tokenCall s n a b).after current).memory s n (resume n b) := by
  have start := next.start
  have nonempty := next.nonempty
  intro j lower upper
  unfold Tokens.resume at lower
  unfold StrtokCall.after tokenCall
  by_cases last : b < n
  · have different : s + BitVec.ofNat 32 j ≠ s + BitVec.ofNat 32 b := fun same => by
      have equal := string.place_inj upper last.le same
      omega
    simp only [if_pos last]
    rw [Function.update_of_ne different]
    exact intact j (by omega) upper
  · simp only [if_neg last]
    exact intact j (by have := next.inside; omega) upper

/-- **One call after the other takes the next token.** -/
theorem tokenise_continues (string : StringAt memory s n)
    (readable : ∀ j ≤ n, region (s + BitVec.ofNat 32 j)) (calls : ℕ) :
    ∀ (current : ByteMemory) (sp str : Word) (i : ℕ), i ≤ n → n - i < calls →
      Intact memory current s n i → ¬ (str = null ∧ sp = null) →
      startOf sp str = s + BitVec.ofNat 32 i →
      ∃ run, tokenise delimiters calls ⟨current, sp⟩ str = some run ∧
        Continues memory region delimiters s n i run := by
  induction calls with
  | zero => intro current sp str i inside enough; omega
  | succ calls ih =>
      intro current sp str i inside enough intact active place
      have within : ∀ j, i ≤ j → j ≤ n → region (s + BitVec.ofNat 32 j) := fun j _ => readable j
      rcases exists_nextRun (Separates delimiters memory s) n i with skipped | ⟨a, b, next⟩
      · have reading := intact.call_none string inside active place skipped within
        obtain ⟨run, returned, tokens, writes, state, reads⟩ :=
          (tokenise_succ calls reading).1 rfl
        refine ⟨run, returned, ⟨[], .none skipped, tokens, fun q => ?_⟩, reads, ?_⟩
        · rw [writes]
          exact iff_of_false List.not_mem_nil fun ⟨_, _, absent, _⟩ => List.not_mem_nil absent
        · rw [state]
          rfl
      · have start := next.start
        have nonempty := next.nonempty
        have bound := next.inside
        have reading := intact.call_run string active place next within
        have shorter : resume n b ≤ n := Nat.min_le_right _ _
        have cursor : s + BitVec.ofNat 32 (resume n b) ≠ null := string.place_ne_null shorter
        have progress : n - resume n b < calls := by
          unfold resume
          omega
        obtain ⟨rest, later, ⟨runs, listed, tokens, writes⟩, reads, sp⟩ :=
          ih ((tokenCall s n a b).after current).memory (s + BitVec.ofNat 32 (resume n b)) null
            (resume n b) shorter progress (intact.resume string next) (fun both => cursor both.2)
            (if_neg fun both => both.1 rfl)
        obtain ⟨run, returned, all, written, state, inside⟩ :=
          (tokenise_succ calls reading).2 (string.place_ne_null (by omega)) rest later reads
        refine ⟨run, returned, ⟨(a, b) :: runs, .run next listed, ?_, fun q => ?_⟩, inside, ?_⟩
        · rw [all, tokens]
          rfl
        · rw [written, List.mem_append, writes q]
          unfold tokenCall
          constructor
          · rintro (here | ⟨c, d, later, below, rfl⟩)
            · by_cases last : b < n
              · simp only [if_pos last, Option.toList_some, List.mem_singleton] at here
                exact ⟨a, b, List.mem_cons_self, last, here⟩
              · simp only [if_neg last, Option.toList_none, List.not_mem_nil] at here
            · exact ⟨c, d, List.mem_cons_of_mem _ later, below, rfl⟩
          · rintro ⟨c, d, listed, below, rfl⟩
            rcases List.mem_cons.mp listed with same | later
            · cases same
              rw [if_pos below]
              exact .inl (List.mem_singleton.mpr rfl)
            · exact .inr ⟨c, d, later, below, rfl⟩
        · rw [state]
          exact sp

/-- A tokenisation from the start of the string splits it. -/
theorem Continues.splits {run : Tokenisation} {calls : ℕ}
    (continues : Continues memory region delimiters s n 0 run) (string : StringAt memory s n)
    (returned : tokenise delimiters calls ⟨memory, sp⟩ str = some run) :
    Splits delimiters memory s n run := by
  obtain ⟨⟨runs, from_zero, tokens, writes⟩, _, cursor⟩ := continues
  have lists := from_zero.lists
  have after : ∀ x, run.state.memory x = if x ∈ run.writes then 0 else memory x :=
    tokenise_memory delimiters calls ⟨memory, sp⟩ str returned
  have written : ∀ q ∈ run.writes, ∃ a b,
      MaximalRun (Separates delimiters memory s) n a b ∧ b < n ∧ q = s + BitVec.ofNat 32 b := by
    intro q listed
    obtain ⟨a, b, member, below, place⟩ := (writes q).mp listed
    exact ⟨a, b, (lists.mem_iff a b).mp member, below, place⟩
  refine ⟨⟨runs, lists, tokens⟩, fun a b maximal => ⟨?_, fun j lower upper => ?_⟩, written,
    fun x absent => ?_, cursor⟩
  · rw [after]
    by_cases last : b < n
    · rw [if_pos ((writes _).mpr ⟨a, b, (lists.mem_iff a b).mpr maximal, last, rfl⟩)]
    · have atEnd : b = n := Nat.le_antisymm maximal.inside (not_lt.mp last)
      rw [atEnd, string.stop, ite_self]
  · rw [after, if_neg]
    intro listed
    obtain ⟨c, d, other, below, place⟩ := written _ listed
    have inside := maximal.inside
    have same := string.place_inj (by omega) below.le place
    subst same
    exact maximal.plain j lower upper (other.behind.resolve_left (by omega))
  · rw [after, if_neg absent]

/-- From no cursor and the whole string, the calls continue to its end. -/
theorem tokenise_string (delimiters : Delimiters) (string : StringAt memory s n) :
    ∃ run, tokenise delimiters (n + 1) ⟨memory, null⟩ s = some run ∧
      Continues memory (fun p => ∃ i ≤ n, p = s + BitVec.ofNat 32 i) delimiters s n 0 run := by
  refine tokenise_continues string (fun j inside => ⟨j, inside, rfl⟩) (n + 1) memory null s 0
    (Nat.zero_le n) (by omega) (fun j _ _ => rfl) (fun both => string.notNull both.1) ?_
  rw [BitVec.add_zero]
  exact if_pos ⟨string.notNull, rfl⟩

/-- **`strtok` splits correctly.** From no cursor, the calls end, return the maximal runs of
characters that are no delimiters, read the string up to its NUL only and leave no cursor. -/
theorem strtok_splits_correctly (delimiters : Delimiters) (memory : ByteMemory) (s : Word) (n : ℕ)
    (string : StringAt memory s n) :
    ∃ calls run, tokenise delimiters calls ⟨memory, null⟩ s = some run ∧
      Splits delimiters memory s n run ∧
      ∀ p ∈ run.reads, ∃ i ≤ n, p = s + BitVec.ofNat 32 i := by
  obtain ⟨run, returned, continues⟩ := tokenise_string delimiters string
  exact ⟨n + 1, run, returned, continues.splits string returned, continues.reads⟩

end Strings

section Restart

variable {delimiters : Delimiters} {memory : ByteMemory} {s sp str q : Word} {n : ℕ}

/-- A call depends on the place that skipping delimiters leads to. -/
theorem strtokReading_value (active : ¬ (str = null ∧ sp = null))
    (leads : Leads delimiters.bytes memory (startOf sp str) q) :
    (strtokReading sp str delimiters).value memory =
      (strtokFrom delimiters.bytes delimiters.bytes.length q).value memory := by
  rw [strtokReading_eq active]
  exact (Yields.andThen ⟨leads.skipDelimiters, fun _ _ => trivial⟩ (Yields.anywhere _)).value

theorem leads_of_strtokReading {call : StrtokCall} (active : ¬ (str = null ∧ sp = null))
    (returned : (strtokReading sp str delimiters).value memory = some call) :
    ∃ q, Leads delimiters.bytes memory (startOf sp str) q := by
  rw [strtokReading_eq active] at returned
  cases skipped : (skipDelimiters delimiters.bytes delimiters.bytes.length (2 ^ 32)
      (startOf sp str)).value memory with
  | none =>
      unfold andThen at returned
      change Reading.value memory (_ >>= _) = _ at returned
      rw [value_bind, skipped] at returned
      cases returned
  | some q => exact ⟨q, leads_of_skipDelimiters (Nat.le_refl _) skipped⟩

/-- Without a cursor, or with one from which skipping the delimiters leads to the same character
as from the new string, or to the end of a string as it does from there. -/
def StrtokState.Restarts (state : StrtokState) (delimiters : Delimiters) (s : Word) : Prop :=
  state.sp = null ∨ ∃ q e, Leads delimiters.bytes state.memory state.sp q ∧
    Leads delimiters.bytes state.memory s e ∧
    (q = e ∨ state.memory q = 0 ∧ state.memory e = 0)

/-- What the first call returns decides about the rest. -/
theorem tokenise_of_value {other : Word} {calls : ℕ} {run : Tokenisation}
    (same : (strtokReading other str delimiters).value memory =
      (strtokReading sp str delimiters).value memory)
    (returned : tokenise delimiters (calls + 1) ⟨memory, sp⟩ str = some run) :
    ∃ copy, tokenise delimiters (calls + 1) ⟨memory, other⟩ str = some copy ∧
      copy.tokens = run.tokens ∧ copy.writes = run.writes ∧ copy.state = run.state := by
  obtain ⟨call, value, ended | ⟨more, rest, later, tokens, writes, state⟩⟩ :=
    of_tokenise_succ returned
  · obtain ⟨last, tokens, writes, state⟩ := ended
    have reading : Yields (fun _ => True) memory (strtokReading other str delimiters) (some call) :=
      ⟨same.trans value, fun _ _ => trivial⟩
    obtain ⟨copy, again, tokens', writes', state', _⟩ := (tokenise_succ calls reading).1 last
    exact ⟨copy, again, tokens'.trans tokens.symm, writes'.trans writes.symm,
      state'.trans state.symm⟩
  · have reading : Yields (fun _ => True) memory (strtokReading other str delimiters) (some call) :=
      ⟨same.trans value, fun _ _ => trivial⟩
    obtain ⟨copy, again, tokens', writes', state', _⟩ :=
      (tokenise_succ calls reading).2 more rest later fun _ _ => trivial
    exact ⟨copy, again, tokens'.trans tokens.symm, writes'.trans writes.symm,
      state'.trans state.symm⟩

theorem Splits.of_eq {run copy : Tokenisation} (splits : Splits delimiters memory s n run)
    (tokens : copy.tokens = run.tokens) (writes : copy.writes = run.writes)
    (state : copy.state = run.state) : Splits delimiters memory s n copy := by
  obtain ⟨listed, terminated, written, kept, cursor⟩ := splits
  refine ⟨?_, ?_, ?_, ?_, ?_⟩
  · rw [tokens]
    exact listed
  · rw [state]
    exact terminated
  · rw [writes]
    exact written
  · rw [writes, state]
    exact kept
  · rw [state]
    exact cursor

/-- Skipping delimiters leads from a string to its first token or to its end. -/
theorem StringAt.leads (string : StringAt memory s n) {a : ℕ} (inside : a ≤ n)
    (skipped : ∀ j < a, Separates delimiters memory s j)
    (plain : ¬ Separates delimiters memory s a) :
    Leads delimiters.bytes memory s (s + BitVec.ofNat 32 a) :=
  ⟨a, by have := string.inside; omega, rfl, skipped, plain⟩

/-- Where skipping delimiters leads, the call returns the token there or ends. -/
theorem splits_of_restarts {state : StrtokState} (string : StringAt state.memory s n)
    (restarts : state.Restarts delimiters s) :
    ∃ calls run, tokenise delimiters calls state s = some run ∧
      Splits delimiters state.memory s n run := by
  obtain ⟨run, returned, continues⟩ := tokenise_string delimiters string
  have splits := continues.splits string returned
  have notBoth : ∀ sp, ¬ (s = null ∧ sp = null) := fun sp both => string.notNull both.1
  by_cases unset : state.sp = null
  · refine ⟨n + 1, run, ?_, splits⟩
    rw [← returned, ← unset]
  obtain ⟨q, e, stale, fresh, meet⟩ := restarts.resolve_left unset
  have old : startOf state.sp s = state.sp := if_neg fun both => unset both.2
  have new : startOf null s = s := if_pos ⟨string.notNull, rfl⟩
  have first := @strtokReading_value delimiters state.memory state.sp s q (notBoth _)
    (by rw [old]; exact stale)
  have second := @strtokReading_value delimiters state.memory null s e (notBoth _)
    (by rw [new]; exact fresh)
  have same : (strtokReading state.sp s delimiters).value state.memory =
      (strtokReading null s delimiters).value state.memory := by
    rw [first, second]
    rcases meet with rfl | ⟨zero, zero'⟩
    · rfl
    · have ends : ∀ p, state.memory p = 0 → Yields (fun _ => True) state.memory
          (strtokFrom delimiters.bytes delimiters.bytes.length p) (some ⟨null, null, none⟩) :=
        fun p zero => strtokFrom_of_zero trivial zero
      rw [(ends q zero).value, (ends e zero').value]
  obtain ⟨copy, again, tokens, writes, after⟩ := tokenise_of_value same returned
  exact ⟨n + 1, copy, again, splits.of_eq tokens writes after⟩

/-- A call that ends a tokenisation without a token has come to the end of a string. -/
theorem zero_of_last_call {call : StrtokCall} (active : ¬ (str = null ∧ sp = null))
    (leads : Leads delimiters.bytes memory (startOf sp str) q)
    (returned : (strtokReading sp str delimiters).value memory = some call)
    (last : call.result = null) (cursor : call.sp = null) (unwritten : call.written = none) :
    memory q = 0 := by
  by_contra nonzero
  have rest : Yields (fun _ => True) memory
      (strtokFrom delimiters.bytes delimiters.bytes.length q) _ :=
    strtokFrom_of_ne_zero trivial nonzero (Yields.anywhere _)
  rw [strtokReading_value active leads, rest.value] at returned
  obtain ⟨result, ended | written⟩ := of_findEnd returned
  · rw [cursor, ← last, result] at ended
    exact nonzero ended
  · exact written unwritten

/-- A call that returns a token returns the place it has skipped to. -/
theorem result_of_more {call : StrtokCall} (active : ¬ (str = null ∧ sp = null))
    (leads : Leads delimiters.bytes memory (startOf sp str) q)
    (returned : (strtokReading sp str delimiters).value memory = some call)
    (more : call.result ≠ null) : call.result = q := by
  rw [strtokReading_value active leads] at returned
  by_cases zero : memory q = 0
  · have ends : Yields (fun _ => True) memory
        (strtokFrom delimiters.bytes delimiters.bytes.length q) (some ⟨null, null, none⟩) :=
      strtokFrom_of_zero trivial zero
    rw [ends.value] at returned
    cases returned
    exact absurd rfl more
  · have rest : Yields (fun _ => True) memory
        (strtokFrom delimiters.bytes delimiters.bytes.length q) _ :=
      strtokFrom_of_ne_zero trivial zero (Yields.anywhere _)
    rw [rest.value] at returned
    exact (of_findEnd returned).1

theorem restarts_of_splits {state : StrtokState} {calls : ℕ} {run : Tokenisation}
    (string : StringAt state.memory s n)
    (returned : tokenise delimiters calls state s = some run)
    (splits : Splits delimiters state.memory s n run) : state.Restarts delimiters s := by
  by_cases unset : state.sp = null
  · exact .inl unset
  right
  have active : ¬ (s = null ∧ state.sp = null) := fun both => unset both.2
  have old : startOf state.sp s = state.sp := if_neg fun both => unset both.2
  cases calls with
  | zero => cases returned
  | succ calls =>
      obtain ⟨call, value, outcome⟩ := of_tokenise_succ returned
      obtain ⟨q, stale⟩ := leads_of_strtokReading active value
      have cursor := stale
      rw [old] at cursor
      obtain ⟨runs, lists, tokens⟩ := splits.tokens
      obtain ⟨fresh, _, ⟨others, from_zero, _⟩, _⟩ := tokenise_string delimiters string
      have same := lists.unique from_zero.lists
      subst same
      cases from_zero with
      | none skipped =>
          refine ⟨q, _, cursor, string.leads (Nat.le_refl n) (fun j => skipped j (Nat.zero_le j))
            string.not_separates, .inr ⟨?_, string.stop⟩⟩
          rcases outcome with ⟨last, _, writes, after⟩ | ⟨_, rest, _, all, _⟩
          · refine zero_of_last_call active stale value last ?_ ?_
            · have ended := splits.sp
              rw [after] at ended
              exact ended
            · by_contra written
              obtain ⟨w, place⟩ := Option.ne_none_iff_exists'.mp written
              obtain ⟨a, b, maximal, _⟩ := splits.writes w (by
                rw [writes, place]
                exact List.mem_singleton.mpr rfl)
              exact absurd ((lists.mem_iff a b).mpr maximal) List.not_mem_nil
          · rw [tokens] at all
            cases all
      | @run _ a b rest next tail =>
          have first := next.plain a (Nat.le_refl a) next.nonempty
          refine ⟨q, _, cursor, string.leads (next.nonempty.le.trans next.inside)
            (fun j => next.skipped j (Nat.zero_le j)) first, .inl ?_⟩
          rcases outcome with ⟨_, all, _⟩ | ⟨more, later, _, all, _⟩
          · rw [tokens] at all
            cases all
          · rw [tokens, List.map_cons] at all
            have head := (List.cons.inj all).1
            exact (result_of_more active stale value more).symm.trans head.symm

/-- **When a new string restarts tokenisation.** Whatever earlier calls have left, the calls
split the new string exactly when there is no cursor, or skipping delimiters from it leads to
where it leads from the new string. -/
theorem strtok_restarts_iff (delimiters : Delimiters) (state : StrtokState) (s : Word) (n : ℕ)
    (string : StringAt state.memory s n) :
    (∃ calls run, tokenise delimiters calls state s = some run ∧
        Splits delimiters state.memory s n run) ↔
      state.Restarts delimiters s :=
  ⟨fun ⟨_, _, returned, splits⟩ => restarts_of_splits string returned splits,
    splits_of_restarts string⟩

end Restart

/-- Memory that holds a text at `s` and zeros elsewhere. -/
def textMemory (s : Word) (text : List Byte) : ByteMemory := fun x => text.getD (x - s).toNat 0

theorem textMemory_place (s : Word) (text : List Byte) {i : ℕ} (inside : i < 2 ^ 32) :
    textMemory s text (s + BitVec.ofNat 32 i) = text.getD i 0 := by
  unfold textMemory
  rw [add_sub_cancel_left, BitVec.toNat_ofNat, Nat.mod_eq_of_lt inside]

theorem stringAt_textMemory {s : Word} {text : List Byte} (notNull : s ≠ null)
    (inside : s.toNat + text.length < 2 ^ 32) (terminated : 0 ∉ text) :
    StringAt (textMemory s text) s text.length := by
  refine ⟨notNull, inside, fun i below => ?_, ?_⟩
  · rw [textMemory_place s text (by omega), List.getD_eq_getElem _ _ below]
    exact fun zero => terminated (zero ▸ List.getElem_mem below)
  · rw [textMemory_place s text (by omega), List.getD_eq_default _ _ (Nat.le_refl _)]

/-- The delimiter string of the shell. -/
def blank : Delimiters where
  bytes := [0x20]
  terminated := by decide
  fits := by decide

/-- An address for the line buffer of the shell. -/
def shellBuf : Word := 0x1000

/-- `" RUN  a"` is split at its blanks. -/
theorem strtok_splits_command :
    ∃ calls run, tokenise blank calls
        ⟨textMemory shellBuf [0x20, 0x52, 0x55, 0x4E, 0x20, 0x20, 0x61], null⟩ shellBuf = some run ∧
      Splits blank (textMemory shellBuf [0x20, 0x52, 0x55, 0x4E, 0x20, 0x20, 0x61]) shellBuf 7 run ∧
      ∀ p ∈ run.reads, ∃ i ≤ 7, p = shellBuf + BitVec.ofNat 32 i :=
  strtok_splits_correctly blank _ shellBuf 7 (stringAt_textMemory (by decide) (by decide)
    (by decide))

/-- The line `"CDE"` after the line `"A B"`, of which the shell has taken the first word only. -/
theorem strtok_continues_in_old_line :
    ∃ state, strtok ⟨textMemory shellBuf [0x41, 0x20, 0x42], null⟩ shellBuf blank =
        some (shellBuf, state) ∧
      StringAt (textMemory shellBuf [0x43, 0x44, 0x45]) shellBuf 3 ∧
      MaximalRun (Separates blank (textMemory shellBuf [0x43, 0x44, 0x45]) shellBuf) 3 0 3 ∧
      ∃ after, strtok ⟨textMemory shellBuf [0x43, 0x44, 0x45], state.sp⟩ shellBuf blank =
          some (shellBuf + 2, after) ∧
        ¬ ∃ calls run,
          tokenise blank calls ⟨textMemory shellBuf [0x43, 0x44, 0x45], state.sp⟩ shellBuf =
            some run ∧
          Splits blank (textMemory shellBuf [0x43, 0x44, 0x45]) shellBuf 3 run := by
  have string : StringAt (textMemory shellBuf [0x43, 0x44, 0x45]) shellBuf 3 :=
    stringAt_textMemory (by decide) (by decide) (by decide)
  have plain : ∀ j < 3,
      ¬ Separates blank (textMemory shellBuf [0x43, 0x44, 0x45]) shellBuf j := by
    intro j below
    unfold Separates
    interval_cases j <;> decide
  refine ⟨_, rfl, string,
    ⟨by decide, Nat.le_refl 3, fun j _ => plain j, .inl rfl, .inl rfl⟩, _, rfl,
    fun ⟨calls, run, returned, splits⟩ => ?_⟩
  rcases restarts_of_splits string returned splits with unset | ⟨q, e, stale, fresh, meet⟩
  · exact absurd unset (by decide)
  · have old := stale.eq_of_not_mem (by decide)
    have new := fresh.eq_of_not_mem (by decide)
    subst old new
    rcases meet with same | ends
    · exact absurd same (by decide)
    · exact absurd ends.1 (by decide)

/-- After all tokens of `"A B"` have been taken, the line `"CDE"` is split from its start. -/
theorem strtok_restarts_after_last_token :
    ∃ first second last, strtok ⟨textMemory shellBuf [0x41, 0x20, 0x42], null⟩ shellBuf blank =
        some (shellBuf, first) ∧
      strtok first null blank = some (shellBuf + 2, second) ∧
      strtok second null blank = some (null, last) ∧
      ∃ calls run,
        tokenise blank calls ⟨textMemory shellBuf [0x43, 0x44, 0x45], last.sp⟩ shellBuf =
          some run ∧
        Splits blank (textMemory shellBuf [0x43, 0x44, 0x45]) shellBuf 3 run := by
  refine ⟨_, _, _, rfl, rfl, rfl, ?_⟩
  exact (strtok_restarts_iff blank ⟨textMemory shellBuf [0x43, 0x44, 0x45], null⟩ shellBuf 3
    (stringAt_textMemory (by decide) (by decide) (by decide))).mpr (.inl rfl)

end Phix.Stdlib
