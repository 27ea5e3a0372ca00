import Phix.Foundation.ByteMemory
import Phix.Foundation.Readings
import Phix.Foundation.Tokens
import Phix.Fs.Names

/-! # `strtok`

The tokeniser of the user library's `string.c`. Its global cursor `sp` survives between calls.
A call reads the memory in two scans and writes one NUL at most, after its last read; it is a
`Reading` whose result says what it returns, stores and writes. A scan that goes through the
whole address space without an end is a call that does not return.
-/

namespace Phix.Stdlib

open Reading

/-- A delimiter string. The kernel gives a process its memory from a heap of 100 MiB, so the
length of a string is an `int`. It does not overlap the buffer that is split: the NULs that
`strtok` writes there leave it as it is. -/
structure Delimiters extends CString where
  fits : bytes.length < 2 ^ 31

def strlen (str : CString) : Word := BitVec.ofNat 32 str.bytes.length

/-- `for (i = 0; i < len; i++)`, left at the delimiter that `*p` is; the final value of `i`. -/
def delimiterIndex (p : Word) (len : Int) : (delimiters : List Byte) → (i : ℕ) → Reading Word Byte ℕ
  | [], i => pure i
  | delimiter :: rest, i =>
      if (i : Int) < len then do
        let c ← cell p
        if c = delimiter then pure i else delimiterIndex p len rest (i + 1)
      else pure i

/-- The first loop of `strtok`: `p_start` moves behind the delimiters. -/
def skipDelimiters (delimiters : List Byte) (len : Int) :
    (rounds : ℕ) → (pStart : Word) → Reading Word Byte (Option Word)
  | 0, _ => pure none
  | rounds + 1, pStart => do
      let i ← delimiterIndex pStart len delimiters 0
      let pStart := if (i : Int) < len then pStart + 1 else pStart
      if (i : Int) = len then pure (some pStart) else skipDelimiters delimiters len rounds pStart

/-- What a call returns, the cursor it leaves, and where it writes a NUL. -/
structure StrtokCall where
  result : Word
  sp : Word
  written : Option Word

/-- The second loop of `strtok`: find the end of the token at `p_start`. -/
def findEnd (delimiters : List Byte) (len : Int) (pStart : Word) :
    (rounds : ℕ) → (sp : Word) → Reading Word Byte (Option StrtokCall)
  | 0, _ => pure none
  | rounds + 1, sp => do
      let c ← cell sp
      if c = 0 then pure (some ⟨pStart, sp, none⟩)
      else
        let i ← delimiterIndex sp len delimiters 0
        if (i : Int) < len then pure (some ⟨pStart, sp + 1, some sp⟩)
        else findEnd delimiters len pStart rounds (sp + 1)

/-- `strtok` from the test for the end of the string on. -/
def strtokFrom (delimiters : List Byte) (len : Int) (pStart : Word) :
    Reading Word Byte (Option StrtokCall) := do
  let c ← cell pStart
  if c = 0 then pure (some ⟨null, null, none⟩)
  else findEnd delimiters len pStart (2 ^ 32) pStart

def strtokReading (sp str : Word) (delimiters : Delimiters) :
    Reading Word Byte (Option StrtokCall) :=
  let len := (strlen delimiters.toCString).toInt
  if str = null ∧ sp = null then pure (some ⟨null, sp, none⟩)
  else
    let sp := if str ≠ null ∧ sp = null then str else sp
    (skipDelimiters delimiters.bytes len (2 ^ 32) sp).andThen
      (strtokFrom delimiters.bytes len)

/-- The memory and the cursor. -/
structure StrtokState where
  memory : ByteMemory
  sp : Word

def StrtokCall.after (call : StrtokCall) (memory : ByteMemory) : StrtokState where
  memory :=
    match call.written with
    | none => memory
    | some q => Function.update memory q 0
  sp := call.sp

def strtok (state : StrtokState) (str : Word) (delimiters : Delimiters) :
    Option (Word × StrtokState) :=
  ((strtokReading state.sp str delimiters).value state.memory).map fun call =>
    (call.result, call.after state.memory)

/-- What a sequence of calls has returned, read and written. -/
structure Tokenisation where
  tokens : List Word
  reads : List Word
  writes : List Word
  state : StrtokState

/-- `strtok(str, delimiters)`, and then `strtok(NULL, delimiters)` until it returns `NULL`, in at
most the given number of calls. -/
def tokenise (delimiters : Delimiters) : (calls : ℕ) → StrtokState → (str : Word) →
    Option Tokenisation
  | 0, _, _ => none
  | calls + 1, state, str =>
      let reading := strtokReading state.sp str delimiters
      let reads := reading.footprint state.memory
      match reading.value state.memory with
      | none => none
      | some call =>
          let writes := call.written.toList
          if call.result = null then some ⟨[], reads, writes, call.after state.memory⟩
          else (tokenise delimiters calls (call.after state.memory) null).map fun rest =>
            ⟨call.result :: rest.tokens, reads ++ rest.reads, writes ++ rest.writes, rest.state⟩

/-- `n` bytes and a NUL behind them lie at `s`. -/
structure StringAt (memory : ByteMemory) (s : Word) (n : ℕ) : Prop where
  notNull : s ≠ null
  inside : s.toNat + n < 2 ^ 32
  bytes : ∀ i < n, memory (s + BitVec.ofNat 32 i) ≠ 0
  stop : memory (s + BitVec.ofNat 32 n) = 0

/-- The character `i` of the text at `s` is a delimiter. -/
def Separates (delimiters : Delimiters) (memory : ByteMemory) (s : Word) (i : ℕ) : Prop :=
  memory (s + BitVec.ofNat 32 i) ∈ delimiters.bytes

variable {memory : ByteMemory} {region : Word → Prop} {delimiters : Delimiters}

theorem strlen_toInt (delimiters : Delimiters) :
    (strlen delimiters.toCString).toInt = delimiters.bytes.length := by
  have fits := delimiters.fits
  have length : (strlen delimiters.toCString).toNat = delimiters.bytes.length := by
    unfold strlen
    rw [BitVec.toNat_ofNat]
    exact Nat.mod_eq_of_lt (by omega)
  rw [BitVec.toInt_eq_toNat_of_lt (by omega), length]

/-- The loop over the delimiters stops at the first that is the character, or at their end. -/
theorem delimiterIndex_yields {p : Word} (inside : region p) (list : List Byte) {i len : ℕ}
    (whole : i + list.length = len) :
    Yields region memory (delimiterIndex p len list i) (i + list.idxOf (memory p)) := by
  induction list generalizing i with
  | nil => exact Yields.pure i
  | cons delimiter rest ih =>
      rw [List.length_cons] at whole
      unfold delimiterIndex
      rw [if_pos (by omega)]
      refine Yields.bind (Yields.cell inside) ?_
      rw [List.idxOf_cons]
      by_cases here : memory p = delimiter
      · rw [if_pos here, here, beq_self_eq_true, cond_true]
        exact Yields.pure i
      · rw [if_neg here, beq_eq_false_iff_ne.mpr (Ne.symm here), cond_false,
          show i + (rest.idxOf (memory p) + 1) = i + 1 + rest.idxOf (memory p) by omega]
        exact ih (by omega)

/-- The final index of the loop tells whether the character is a delimiter. -/
theorem exists_delimiterIndex (memory : ByteMemory) {p : Word} (inside : region p)
    (list : List Byte) :
    ∃ i : ℕ, Yields region memory (delimiterIndex p list.length list 0) i ∧
      (i < list.length ↔ memory p ∈ list) ∧ i ≤ list.length := by
  have found : Yields region memory (delimiterIndex p list.length list 0)
      (0 + list.idxOf (memory p)) := delimiterIndex_yields inside list (Nat.zero_add _)
  rw [Nat.zero_add] at found
  exact ⟨_, found, List.idxOf_lt_length_iff, List.idxOf_le_length⟩

section Scans

variable {list : List Byte} {p q pStart : Word} {rounds : ℕ}

/-- A delimiter is skipped. -/
theorem skipDelimiters_of_mem (inside : region p) (found : memory p ∈ list) {result : Option Word}
    (rest : Yields region memory (skipDelimiters list list.length rounds (p + 1)) result) :
    Yields region memory (skipDelimiters list list.length (rounds + 1) p) result := by
  obtain ⟨i, index, member, _⟩ := exists_delimiterIndex memory inside list
  have below := member.mpr found
  unfold skipDelimiters
  refine Yields.bind index ?_
  rw [if_neg (show ¬ (i : Int) = list.length by omega),
    if_pos (show (i : Int) < list.length by omega)]
  exact rest

/-- Any other character ends the loop. -/
theorem skipDelimiters_of_not_mem (inside : region p) (plain : memory p ∉ list) :
    Yields region memory (skipDelimiters list list.length (rounds + 1) p) (some p) := by
  obtain ⟨i, index, member, bound⟩ := exists_delimiterIndex memory inside list
  have outside : ¬ i < list.length := fun below => plain (member.mp below)
  unfold skipDelimiters
  refine Yields.bind index ?_
  rw [if_pos (show (i : Int) = list.length by omega),
    if_neg (show ¬ (i : Int) < list.length by omega)]
  exact Yields.pure _

private theorem add_ofNat_succ (p : Word) (i : ℕ) :
    p + BitVec.ofNat 32 (i + 1) = p + 1 + BitVec.ofNat 32 i := by
  rw [Nat.add_comm, BitVec.ofNat_add, ← BitVec.add_assoc]
  rfl

/-- From `p`, the first character that is no delimiter is the one at `q`. -/
def Leads (list : List Byte) (memory : ByteMemory) (p q : Word) : Prop :=
  ∃ i : ℕ, i < 2 ^ 32 ∧ q = p + BitVec.ofNat 32 i ∧
    (∀ j < i, memory (p + BitVec.ofNat 32 j) ∈ list) ∧ memory q ∉ list

theorem Leads.eq_of_not_mem (leads : Leads list memory p q) (plain : memory p ∉ list) : q = p := by
  obtain ⟨i, _, rfl, skipped, _⟩ := leads
  cases i with
  | zero => exact BitVec.add_zero p
  | succ i =>
      have first := skipped 0 (Nat.zero_lt_succ i)
      rw [BitVec.add_zero] at first
      exact absurd first plain

theorem skipDelimiters_yields {i : ℕ} (enough : i < rounds)
    (skipped : ∀ j < i, memory (p + BitVec.ofNat 32 j) ∈ list)
    (plain : memory (p + BitVec.ofNat 32 i) ∉ list)
    (inside : ∀ j ≤ i, region (p + BitVec.ofNat 32 j)) :
    Yields region memory (skipDelimiters list list.length rounds p)
      (some (p + BitVec.ofNat 32 i)) := by
  obtain ⟨rounds, rfl⟩ := Nat.exists_eq_add_of_lt (Nat.zero_lt_of_lt enough)
  rw [Nat.zero_add] at enough ⊢
  induction i generalizing p rounds with
  | zero =>
      rw [BitVec.add_zero] at plain ⊢
      have here := inside 0 (Nat.le_refl 0)
      rw [BitVec.add_zero] at here
      exact skipDelimiters_of_not_mem here plain
  | succ i ih =>
      have here := inside 0 (Nat.zero_le _)
      have found := skipped 0 (Nat.zero_lt_succ i)
      rw [BitVec.add_zero] at here found
      obtain ⟨rounds, rfl⟩ := Nat.exists_eq_add_of_lt (show 0 < rounds by omega)
      rw [Nat.zero_add] at enough ⊢
      rw [add_ofNat_succ] at plain ⊢
      refine skipDelimiters_of_mem here found (ih (fun j below => ?_) plain (fun j below => ?_)
        rounds (by omega))
      · rw [← add_ofNat_succ]
        exact skipped (j + 1) (by omega)
      · rw [← add_ofNat_succ]
        exact inside (j + 1) (by omega)

theorem leads_of_skipDelimiters (enough : rounds ≤ 2 ^ 32)
    (returned : (skipDelimiters list list.length rounds p).value memory = some q) :
    Leads list memory p q := by
  suffices found : ∃ i < rounds, q = p + BitVec.ofNat 32 i ∧
      (∀ j < i, memory (p + BitVec.ofNat 32 j) ∈ list) ∧ memory q ∉ list by
    obtain ⟨i, below, rest⟩ := found
    exact ⟨i, by omega, rest⟩
  induction rounds generalizing p with
  | zero => cases returned
  | succ rounds ih =>
      by_cases here : memory p ∈ list
      · have next : (skipDelimiters list list.length (rounds + 1) p).value memory =
            (skipDelimiters list list.length rounds (p + 1)).value memory :=
          (skipDelimiters_of_mem trivial here (Yields.anywhere _)).value
        rw [next] at returned
        obtain ⟨i, below, place, skipped, plain⟩ := ih (by omega) returned
        refine ⟨i + 1, by omega, place.trans (add_ofNat_succ p i).symm, fun j before => ?_, plain⟩
        cases j with
        | zero =>
            rw [BitVec.add_zero]
            exact here
        | succ j =>
            rw [add_ofNat_succ]
            exact skipped j (by omega)
      · have last : Yields (fun _ => True) memory (skipDelimiters list list.length (rounds + 1) p)
            (some p) := skipDelimiters_of_not_mem trivial here
        rw [last.value] at returned
        cases returned
        exact ⟨0, Nat.zero_lt_succ rounds, (BitVec.add_zero _).symm,
          fun j before => absurd before (Nat.not_lt_zero j), here⟩

theorem Leads.skipDelimiters (leads : Leads list memory p q) :
    (skipDelimiters list list.length (2 ^ 32) p).value memory = some q := by
  obtain ⟨i, enough, rfl, skipped, plain⟩ := leads
  have yields : Yields (fun _ => True) memory (skipDelimiters list list.length (2 ^ 32) p)
      (some (p + BitVec.ofNat 32 i)) :=
    skipDelimiters_yields enough skipped plain fun _ _ => trivial
  exact yields.value

/-- A character of the token is passed. -/
theorem findEnd_of_plain (inside : region p) (nonzero : memory p ≠ 0) (plain : memory p ∉ list)
    {result : Option StrtokCall}
    (rest : Yields region memory (findEnd list list.length pStart rounds (p + 1)) result) :
    Yields region memory (findEnd list list.length pStart (rounds + 1) p) result := by
  obtain ⟨i, index, member, bound⟩ := exists_delimiterIndex memory inside list
  have outside : ¬ i < list.length := fun below => plain (member.mp below)
  unfold findEnd
  refine Yields.bind (Yields.cell inside) ?_
  rw [if_neg nonzero]
  refine Yields.bind index ?_
  rw [if_neg (by omega)]
  exact rest

theorem findEnd_of_zero (inside : region p) (zero : memory p = 0) :
    Yields region memory (findEnd list list.length pStart (rounds + 1) p)
      (some ⟨pStart, p, none⟩) := by
  unfold findEnd
  refine Yields.bind (Yields.cell inside) ?_
  rw [if_pos zero]
  exact Yields.pure _

theorem findEnd_of_mem (inside : region p) (nonzero : memory p ≠ 0) (found : memory p ∈ list) :
    Yields region memory (findEnd list list.length pStart (rounds + 1) p)
      (some ⟨pStart, p + 1, some p⟩) := by
  obtain ⟨i, index, member, _⟩ := exists_delimiterIndex memory inside list
  have below := member.mpr found
  unfold findEnd
  refine Yields.bind (Yields.cell inside) ?_
  rw [if_neg nonzero]
  refine Yields.bind index ?_
  rw [if_pos (by omega)]
  exact Yields.pure _

/-- The second loop goes on to the first character after the token. -/
theorem findEnd_yields {i : ℕ} (enough : i < rounds)
    (nonzero : ∀ j < i, memory (p + BitVec.ofNat 32 j) ≠ 0)
    (plain : ∀ j < i, memory (p + BitVec.ofNat 32 j) ∉ list)
    (inside : ∀ j ≤ i, region (p + BitVec.ofNat 32 j)) {result : Option StrtokCall}
    (last : ∀ more, Yields region memory (findEnd list list.length pStart (more + 1)
      (p + BitVec.ofNat 32 i)) result) :
    Yields region memory (findEnd list list.length pStart rounds p) result := by
  obtain ⟨rounds, rfl⟩ := Nat.exists_eq_add_of_lt (Nat.zero_lt_of_lt enough)
  rw [Nat.zero_add] at enough ⊢
  induction i generalizing p rounds with
  | zero =>
      have final := last rounds
      rw [BitVec.add_zero] at final
      exact final
  | succ i ih =>
      have here := inside 0 (Nat.zero_le _)
      have first := nonzero 0 (Nat.zero_lt_succ i)
      have other := plain 0 (Nat.zero_lt_succ i)
      rw [BitVec.add_zero] at here first other
      obtain ⟨rounds, rfl⟩ := Nat.exists_eq_add_of_lt (show 0 < rounds by omega)
      rw [Nat.zero_add] at enough ⊢
      refine findEnd_of_plain here first other (ih (fun j below => ?_) (fun j below => ?_)
        (fun j below => ?_) (fun more => ?_) rounds (by omega))
      · rw [← add_ofNat_succ]
        exact nonzero (j + 1) (by omega)
      · rw [← add_ofNat_succ]
        exact plain (j + 1) (by omega)
      · rw [← add_ofNat_succ]
        exact inside (j + 1) (by omega)
      · rw [← add_ofNat_succ]
        exact last more

/-- A token ends at a NUL, or its end is written. -/
theorem of_findEnd {call : StrtokCall}
    (returned : (findEnd list list.length pStart rounds p).value memory = some call) :
    call.result = pStart ∧ (memory call.sp = 0 ∨ call.written ≠ none) := by
  induction rounds generalizing p with
  | zero => cases returned
  | succ rounds ih =>
      by_cases zero : memory p = 0
      · have last : Yields (fun _ => True) memory (findEnd list list.length pStart (rounds + 1) p)
            (some ⟨pStart, p, none⟩) := findEnd_of_zero trivial zero
        rw [last.value] at returned
        cases returned
        exact ⟨rfl, .inl zero⟩
      by_cases found : memory p ∈ list
      · have last : Yields (fun _ => True) memory (findEnd list list.length pStart (rounds + 1) p)
            (some ⟨pStart, p + 1, some p⟩) := findEnd_of_mem trivial zero found
        rw [last.value] at returned
        cases returned
        exact ⟨rfl, .inr (Option.some_ne_none p)⟩
      · have next : (findEnd list list.length pStart (rounds + 1) p).value memory =
            (findEnd list list.length pStart rounds (p + 1)).value memory :=
          (findEnd_of_plain trivial zero found (Yields.anywhere _)).value
        rw [next] at returned
        exact ih returned

end Scans

end Phix.Stdlib
