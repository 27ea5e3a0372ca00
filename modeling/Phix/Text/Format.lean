import Phix.Text.Printf

/-! # What formatted printing emits

The loop takes one item of the format after the other. A null pointer is printed without a
digit, since the digit loop of `decimal_to_hex` has nothing to do for zero; at a lone `'%'` the
loop prints the NUL and goes on behind it.
-/

namespace Phix

open Backwards Reading

/-- What is printed for an item. -/
def Item.emitted : Item → List Byte
  | .pointer value => [0x30, 0x58] ++ (Nat.digits 16 value.toNat).reverse.map hexChar
  | .lonePercent => [0]
  | item => item.expansion

section Digits

theorem chars_of_holds {text : Backwards Byte} {cells : List Byte}
    (holds : Holds text.text text.loc (cells ++ [0])) (plain : 0 ∉ cells)
    (bound : cells.length < 2 ^ 32) : chars text = cells := by
  have cell : ∀ k (inside : k < cells.length), text.text (text.loc + k) = cells[k] := by
    intro k inside
    have longer : k < (cells ++ [0]).length := by
      rw [List.length_append]
      omega
    rw [holds.getElem k longer, List.getElem_append_left inside]
  have last : text.text (text.loc + cells.length) = 0 := (Holds.append.mp holds).2.1
  have nonzero : ∀ k < cells.length, text.text (text.loc + k) ≠ 0 := by
    intro k inside
    rw [cell k inside]
    exact fun zero => plain (zero ▸ List.getElem_mem inside)
  have length : Strings.length (fun k : ℕ => text.text (text.loc + k)) (2 ^ 32) =
      min cells.length (2 ^ 32) := Strings.length_eq_min nonzero last
  rw [Nat.min_eq_left bound.le] at length
  unfold chars
  dsimp only
  rw [length]
  refine List.ext_getElem (by rw [List.length_map, List.length_range]) fun k here there => ?_
  rw [List.getElem_map, List.getElem_range]
  exact cell k there

theorem decimalChar_ne_zero {digit : ℕ} (bound : digit < 10) : decimalChar digit ≠ 0 := by
  interval_cases digit <;> decide

theorem hexChar_ne_zero {digit : ℕ} (bound : digit < 16) : hexChar digit ≠ 0 := by
  interval_cases digit <;> decide

theorem not_mem_map_char {char : ℕ → Byte} {base : ℕ} (nonzero : ∀ d < base, char d ≠ 0)
    {digits : List ℕ} (bounded : ∀ d ∈ digits, d < base) : 0 ∉ digits.map char := by
  intro listed
  obtain ⟨d, member, zero⟩ := List.mem_map.mp listed
  exact nonzero d (bounded d member) zero

/-- `print(itoa(i))` prints the numeral. -/
theorem chars_itoa (text : Int → Byte) (i : Word) :
    ∃ after, itoa text i = some after ∧ chars after = decimalText i.toInt := by
  obtain ⟨after, returned, wrote⟩ := itoa_spec text i
  refine ⟨after, returned, ?_⟩
  have digits := (numeral_numeralDigits (show 1 < 10 by decide) i.toInt.natAbs).bounded
  have short := numeralDigits_length (natAbs_toInt_lt i)
  have signs : 0 ∉ sign i.toInt ∧ (sign i.toInt).length ≤ 1 := by
    unfold sign
    split <;> decide
  unfold decimalText
  refine chars_of_holds (wrote.snoc (Function.update_self (11 : Int) (0 : Byte) text)) ?_ ?_
  · rw [List.mem_append, not_or]
    exact ⟨signs.1, not_mem_map_char (fun d => decimalChar_ne_zero) digits⟩
  · rw [List.length_append, List.length_map]
    omega

theorem hex_putDigit (hex : HexText) (decimal : Word) :
    (if decimal % 16 < 10 then hex.putDigit ((48 + decimal % 16).setWidth 8)
      else hex.putDigit ((55 + decimal % 16).setWidth 8)).toBackwards =
      hex.toBackwards.put (hexChar (decimal.toNat % 16)) := by
  have remainder : decimal % 16 = BitVec.ofNat 32 (decimal.toNat % 16) := by
    apply BitVec.eq_of_toNat_eq
    rw [BitVec.toNat_umod, BitVec.toNat_ofNat]
    change decimal.toNat % 16 = _
    omega
  have below : decimal.toNat % 16 < 16 := Nat.mod_lt _ (by decide)
  rw [remainder]
  generalize decimal.toNat % 16 = digit at below
  interval_cases digit <;> rfl

theorem decimalToHex.loop_eq (rounds : ℕ) (decimal : Word) (hex : HexText) :
    (loop rounds decimal hex).map (fun hex => hex.toBackwards) =
      writeDigits 16 hexChar rounds decimal.toNat hex.toBackwards := by
  induction rounds generalizing decimal hex with
  | zero => rfl
  | succ rounds ih =>
      unfold loop writeDigits
      by_cases zero : decimal = 0
      · rw [if_pos zero, if_pos (by rw [zero]; rfl)]
        rfl
      · have nonzero : decimal.toNat ≠ 0 := fun same => zero (BitVec.eq_of_toNat_eq same)
        rw [if_neg zero, if_neg nonzero]
        simp only [ih, hex_putDigit]
        rw [BitVec.toNat_udiv]
        rfl

/-- `print(decimal_to_hex(p))` prints the digits, none for zero. -/
theorem chars_decimalToHex (hex : HexText) (decimal : Word) :
    ∃ after, decimalToHex hex decimal = some after ∧
      chars after.toBackwards = (Nat.digits 16 decimal.toNat).reverse.map hexChar := by
  have below := decimal.isLt
  have enough : decimal.toNat < 16 ^ 31 := lt_trans below (by decide)
  obtain ⟨after, returned, wrote⟩ :=
    writeDigits_spec (show 1 < 16 by decide) hexChar 31 decimal.toNat enough hex.start.toBackwards
  rw [← decimalToHex.loop_eq, Option.map_eq_some_iff] at returned
  obtain ⟨final, loop, rfl⟩ := returned
  refine ⟨final, loop, chars_of_holds (wrote.snoc hex.terminated) ?_ ?_⟩
  · refine not_mem_map_char (fun d => hexChar_ne_zero) fun d listed => ?_
    exact Nat.digits_lt_base (show 1 < 16 by decide) (List.mem_reverse.mp listed)
  · rw [List.length_map, List.length_reverse]
    have short := (Nat.digits_length_le_iff (show 1 < 16 by decide) decimal.toNat).mpr
      (show decimal.toNat < 16 ^ 8 from below)
    omega

end Digits

section Items

/-- One conversion prints its item and takes its argument. -/
theorem Printing.conversion_spec {state : Printing} {c : Byte} {item : Item}
    (matched : conversionItem c state.args = some item) :
    ∃ next, state.conversion c = some next ∧
      next.args = (if takesArgument c then state.args.tail else state.args) ∧
      next.output = state.output ++ item.emitted := by
  unfold conversionItem at matched
  unfold conversion
  by_cases isD : c = 0x64
  · rw [if_pos isD, Option.map_eq_some_iff] at matched
    obtain ⟨value, taken, rfl⟩ := matched
    obtain ⟨after, returned, text⟩ := chars_itoa state.text value
    have takes : takesArgument c = true := decide_eq_true (.inl isD)
    rw [if_pos isD, taken, Option.bind_some, returned, if_pos takes]
    exact ⟨_, rfl, rfl, congrArg (state.output ++ ·) text⟩
  by_cases isC : c = 0x63
  · rw [if_neg isD, if_pos isC, Option.map_eq_some_iff] at matched
    obtain ⟨value, taken, rfl⟩ := matched
    have takes : takesArgument c = true := decide_eq_true (.inr (.inl isC))
    rw [if_neg isD, if_pos isC, taken, if_pos takes]
    exact ⟨_, rfl, rfl, rfl⟩
  by_cases isS : c = 0x73
  · rw [if_neg isD, if_neg isC, if_pos isS, Option.map_eq_some_iff] at matched
    obtain ⟨value, taken, rfl⟩ := matched
    have takes : takesArgument c = true := decide_eq_true (.inr (.inr (.inl isS)))
    rw [if_neg isD, if_neg isC, if_pos isS, taken, if_pos takes]
    exact ⟨_, rfl, rfl, rfl⟩
  by_cases isP : c = 0x70
  · rw [if_neg isD, if_neg isC, if_neg isS, if_pos isP, Option.map_eq_some_iff] at matched
    obtain ⟨value, taken, rfl⟩ := matched
    obtain ⟨after, returned, text⟩ := chars_decimalToHex state.hex value
    have takes : takesArgument c = true := decide_eq_true (.inr (.inr (.inr isP)))
    rw [if_neg isD, if_neg isC, if_neg isS, if_pos isP, taken, Option.bind_some, returned,
      if_pos takes]
    refine ⟨_, rfl, rfl, (List.append_assoc state.output [0x30, 0x58] _).trans ?_⟩
    exact congrArg (fun digits => state.output ++ ([0x30, 0x58] ++ digits)) text
  · rw [if_neg isD, if_neg isC, if_neg isS, if_neg isP, Option.some_inj] at matched
    subst matched
    have takes : ¬ takesArgument c = true := by
      unfold takesArgument
      rw [decide_eq_true_eq, not_or, not_or, not_or]
      exact ⟨isD, isC, isS, isP⟩
    rw [if_neg isD, if_neg isC, if_neg isS, if_neg isP, if_neg takes]
    exact ⟨_, rfl, rfl, rfl⟩

variable {memory : ℕ → Byte} {region : ℕ → Prop} {p rounds : ℕ} {state next : Printing}
  {result : Option Printing}

theorem printk.loop_end (zero : memory p = 0) :
    Yields region memory (loop (rounds + 1) p state) result ↔ region p ∧ some state = result := by
  unfold loop
  rw [yields_cell_bind, if_pos zero, yields_pure]

theorem printk.loop_reads (yields : Yields region memory (loop (rounds + 1) p state) result) :
    region p := by
  unfold loop at yields
  exact (yields_cell_bind.mp yields).1

theorem printk.loop_literal {c : Byte} (here : memory p = c) (nonzero : c ≠ 0)
    (plain : c ≠ percent) :
    Yields region memory (loop (rounds + 1) p state) result ↔
      region p ∧ Yields region memory (loop rounds (p + 1) (state.putchar c)) result := by
  subst here
  rw [loop, yields_cell_bind, if_neg nonzero, if_pos plain]

theorem printk.loop_conversion (here : memory p = percent)
    (converted : state.conversion (memory (p + 1)) = some next) :
    Yields region memory (loop (rounds + 1) p state) result ↔
      region p ∧ region (p + 1) ∧ Yields region memory (loop rounds (p + 2) next) result := by
  rw [loop, yields_cell_bind, here, if_neg (by decide), if_neg (not_not.mpr rfl), yields_cell_bind,
    converted]

theorem conversionItem_ne_lonePercent {c : Byte} {args : List Arg} {item : Item}
    (matched : conversionItem c args = some item) : item ≠ .lonePercent := by
  have made : ∀ {α : Type} {arg : Option α} {make : α → Item}, (∀ a, make a ≠ .lonePercent) →
      arg.map make ≠ some .lonePercent := by
    intro α arg make other mapped
    obtain ⟨a, _, same⟩ := Option.map_eq_some_iff.mp mapped
    exact other a same
  unfold conversionItem at matched
  rintro rfl
  split_ifs at matched with isD isC isS isP
  · exact made (fun _ => Item.noConfusion) matched
  · exact made (fun _ => Item.noConfusion) matched
  · exact made (fun _ => Item.noConfusion) matched
  · exact made (fun _ => Item.noConfusion) matched
  · cases matched

/-- The items of a format that starts with a conversion. -/
theorem of_items_conversion {d : Byte} {rest : List Byte} {args : List Arg} {list : List Item}
    (matched : items (percent :: d :: rest) args = some list) :
    ∃ item tail, conversionItem d args = some item ∧
      items rest (if takesArgument d then args.tail else args) = some tail ∧
      list = item :: tail := by
  unfold items at matched
  rw [if_pos rfl, Option.bind_eq_some_iff] at matched
  obtain ⟨item, first, later⟩ := matched
  obtain ⟨tail, others, rfl⟩ := Option.map_eq_some_iff.mp later
  exact ⟨item, tail, first, others, rfl⟩

theorem of_items_literal {c d : Byte} {rest : List Byte} {args : List Arg} {list : List Item}
    (plain : c ≠ percent) (matched : items (c :: d :: rest) args = some list) :
    ∃ tail, items (d :: rest) args = some tail ∧ list = .literal c :: tail := by
  unfold items at matched
  rw [if_neg plain, Option.map_eq_some_iff] at matched
  obtain ⟨tail, others, rfl⟩ := matched
  exact ⟨tail, others, rfl⟩

/-- **The loop prints the items of a format without a lone `'%'`**, and reads no character behind
the NUL. -/
theorem printk.loop_prints {format : List Byte} {args : List Arg} {list : List Item}
    (matched : items format args = some list) (whole : .lonePercent ∉ list)
    (held : FormatAt memory p format) (taken : state.args = args)
    (inside : ∀ j, p ≤ j → j ≤ p + format.length → region j) (enough : format.length < rounds) :
    ∃ final, Yields region memory (loop rounds p state) (some final) ∧
      final.output = state.output ++ list.flatMap Item.emitted := by
  induction format, args using items.induct generalizing list p rounds state with
  | case1 args =>
      obtain ⟨rounds, rfl⟩ := Nat.exists_eq_add_of_lt enough
      unfold items at matched
      cases matched
      refine ⟨state, ?_, (List.append_nil _).symm⟩
      rw [List.length_nil, Nat.zero_add, loop_end held]
      exact ⟨inside p (Nat.le_refl p) (Nat.le_add_right p _), rfl⟩
  | case2 c args =>
      obtain ⟨here, nonzero, last⟩ := held
      obtain ⟨rounds, rfl⟩ : ∃ more, rounds = more + 2 :=
        Nat.exists_eq_add_of_le' enough
      unfold items at matched
      by_cases isPercent : c = percent
      · rw [if_pos isPercent] at matched
        cases matched
        exact absurd List.mem_cons_self whole
      · rw [if_neg isPercent] at matched
        cases matched
        refine ⟨state.putchar c, ?_, rfl⟩
        rw [loop_literal here nonzero isPercent, loop_end last]
        exact ⟨inside p (Nat.le_refl p) (Nat.le_add_right p _),
          inside (p + 1) (Nat.le_add_right p 1) (Nat.le_refl _), rfl⟩
  | case3 d rest args ih =>
      obtain ⟨here, _, next, _, later⟩ := held
      obtain ⟨item, tail, converted, others, rfl⟩ := of_items_conversion matched
      rw [List.length_cons, List.length_cons] at inside enough
      obtain ⟨rounds, rfl⟩ : ∃ more, rounds = more + 1 := Nat.exists_eq_add_of_le' (by omega)
      rw [List.mem_cons, not_or] at whole
      rw [← taken, ← next] at converted
      obtain ⟨state', printed, args', output⟩ := Printing.conversion_spec converted
      rw [taken, next] at args'
      obtain ⟨final, yields, all⟩ := ih others whole.2 later args'
        (fun j lower upper => inside j (by omega) (by omega)) (show rest.length < rounds by omega)
      refine ⟨final, (loop_conversion here printed).mpr
        ⟨inside p (by omega) (by omega), inside (p + 1) (by omega) (by omega), yields⟩, ?_⟩
      rw [all, output, List.flatMap_cons, List.append_assoc]
  | case4 c d rest args plain ih =>
      obtain ⟨here, nonzero, later⟩ := held
      obtain ⟨tail, others, rfl⟩ := of_items_literal plain matched
      rw [List.length_cons] at inside enough
      obtain ⟨rounds, rfl⟩ : ∃ more, rounds = more + 1 := Nat.exists_eq_add_of_le' (by omega)
      rw [List.mem_cons, not_or] at whole
      rw [List.length_cons] at inside enough
      obtain ⟨final, yields, all⟩ : ∃ final,
          Yields region memory (loop rounds (p + 1) (state.putchar c)) (some final) ∧
            final.output = (state.putchar c).output ++ tail.flatMap Item.emitted :=
        ih others whole.2 later taken (fun j lower upper => by
          rw [List.length_cons] at upper
          exact inside j (by omega) (by omega)) (by rw [List.length_cons]; omega)
      refine ⟨final, (loop_literal here nonzero plain).mpr
        ⟨inside p (by omega) (by omega), yields⟩, ?_⟩
      rw [all, List.flatMap_cons, ← List.append_assoc]
      rfl

/-- A run that ends has had a round. -/
theorem printk.exists_round {final : Printing}
    (yields : Yields region memory (loop rounds p state) (some final)) : ∃ n, rounds = n + 1 := by
  cases rounds with
  | zero => exact absurd yields.value (Option.some_ne_none final).symm
  | succ n => exact ⟨n, rfl⟩

/-- A run that reads nothing behind the NUL has met no lone `'%'`, and has printed the items. -/
theorem printk.of_loop {format : List Byte} {args : List Arg} {list : List Item} {final : Printing}
    (matched : items format args = some list) (held : FormatAt memory p format)
    (taken : state.args = args) (within : ∀ j, region j → j ≤ p + format.length)
    (yields : Yields region memory (loop rounds p state) (some final)) :
    .lonePercent ∉ list ∧ final.output = state.output ++ list.flatMap Item.emitted := by
  induction format, args using items.induct generalizing list p rounds state with
  | case1 args =>
      unfold items at matched
      cases matched
      obtain ⟨rounds, rfl⟩ := exists_round yields
      rw [loop_end held, Option.some_inj] at yields
      obtain ⟨_, rfl⟩ := yields
      exact ⟨List.not_mem_nil, (List.append_nil _).symm⟩
  | case2 c args =>
      obtain ⟨here, nonzero, last⟩ := held
      unfold items at matched
      obtain ⟨rounds, rfl⟩ := exists_round yields
      by_cases isPercent : c = percent
      · have printed : state.conversion (memory (p + 1)) = some (state.putchar 0) := by
          rw [last]
          rfl
        obtain ⟨_, _, behind⟩ := (loop_conversion (here.trans isPercent) printed).mp yields
        obtain ⟨rounds, rfl⟩ := exists_round behind
        have outside := within (p + 2) (loop_reads behind)
        rw [List.length_singleton] at outside
        omega
      · rw [if_neg isPercent] at matched
        cases matched
        rw [loop_literal here nonzero isPercent] at yields
        obtain ⟨rounds, rfl⟩ := exists_round yields.2
        rw [loop_end last, Option.some_inj] at yields
        obtain ⟨_, _, rfl⟩ := yields
        refine ⟨fun listed => ?_, rfl⟩
        cases List.mem_singleton.mp listed
  | case3 d rest args ih =>
      obtain ⟨here, _, next, _, later⟩ := held
      obtain ⟨item, tail, converted, others, rfl⟩ := of_items_conversion matched
      have notLone := conversionItem_ne_lonePercent converted
      obtain ⟨rounds, rfl⟩ := exists_round yields
      rw [← taken, ← next] at converted
      obtain ⟨state', printed, args', output⟩ := Printing.conversion_spec converted
      rw [taken, next] at args'
      obtain ⟨_, _, rest_yields⟩ := (loop_conversion here printed).mp yields
      obtain ⟨whole, all⟩ := ih others later args' (fun j read => by
        have bound := within j read
        rw [List.length_cons, List.length_cons] at bound
        omega) rest_yields
      refine ⟨?_, ?_⟩
      · rw [List.mem_cons, not_or]
        exact ⟨notLone.symm, whole⟩
      · rw [all, output, List.flatMap_cons, List.append_assoc]
  | case4 c d rest args plain ih =>
      obtain ⟨here, nonzero, later⟩ := held
      obtain ⟨tail, others, rfl⟩ := of_items_literal plain matched
      obtain ⟨rounds, rfl⟩ := exists_round yields
      obtain ⟨_, rest_yields⟩ := (loop_literal here nonzero plain).mp yields
      obtain ⟨whole, all⟩ : .lonePercent ∉ tail ∧
          final.output = (state.putchar c).output ++ tail.flatMap Item.emitted :=
        ih others later (show (state.putchar c).args = args from taken) (fun j read => by
          have bound := within j read
          rw [List.length_cons] at bound
          omega) rest_yields
      refine ⟨?_, ?_⟩
      · rw [List.mem_cons, not_or]
        refine ⟨fun same => ?_, whole⟩
        cases same
      · rw [all, List.flatMap_cons, ← List.append_assoc]
        rfl

end Items

section Expansion

/-- What is printed is what the item stands for, but for a null pointer. -/
theorem Item.emitted_eq {item : Item} (notLone : item ≠ .lonePercent)
    (notNull : item ≠ .pointer null) : item.emitted = item.expansion := by
  cases item with
  | pointer value =>
      have nonzero : value.toNat ≠ 0 := fun zero =>
        notNull (congrArg Item.pointer (BitVec.eq_of_toNat_eq zero))
      change _ = [0x30, 0x58] ++ (numeralDigits 16 value.toNat).map hexChar
      unfold numeralDigits
      rw [if_neg nonzero]
      rfl
  | lonePercent => exact absurd rfl notLone
  | literal c => rfl
  | decimal value => rfl
  | character value => rfl
  | string str => rfl

theorem Item.emitted_length_le {item : Item} (notLone : item ≠ .lonePercent) :
    item.emitted.length ≤ item.expansion.length := by
  by_cases isNull : item = .pointer null
  · rw [isNull]
    decide
  · rw [emitted_eq notLone isNull]

theorem flatMap_emitted {list : List Item} (whole : .lonePercent ∉ list)
    (nonnull : .pointer null ∉ list) :
    list.flatMap Item.emitted = list.flatMap Item.expansion := by
  refine List.flatMap_congr fun item listed => Item.emitted_eq ?_ ?_
  · exact fun same => whole (same ▸ listed)
  · exact fun same => nonnull (same ▸ listed)

/-- A null pointer lacks a digit, and nothing that follows makes up for it. -/
theorem flatMap_emitted_length {list : List Item} (whole : .lonePercent ∉ list) :
    (list.flatMap Item.emitted).length ≤ (list.flatMap Item.expansion).length ∧
      (.pointer null ∈ list →
        (list.flatMap Item.emitted).length < (list.flatMap Item.expansion).length) := by
  induction list with
  | nil => exact ⟨Nat.le_refl _, fun absent => absurd absent List.not_mem_nil⟩
  | cons item rest ih =>
      rw [List.mem_cons, not_or] at whole
      obtain ⟨shorter, strictly⟩ := ih whole.2
      have first := Item.emitted_length_le (Ne.symm whole.1)
      rw [List.flatMap_cons, List.flatMap_cons, List.length_append, List.length_append]
      refine ⟨by omega, fun listed => ?_⟩
      rcases List.mem_cons.mp listed with rfl | later
      · have missing : (Item.pointer null).emitted.length <
            (Item.pointer null).expansion.length := by
          decide
        omega
      · have := strictly later
        omega

end Expansion

/-- The call prints the expansion of the format and reads nothing behind its NUL. -/
def FollowsFormat
    (print : ℕ → List Arg → (Int → Byte) → HexText → Reading ℕ Byte (Option Printing))
    (memory : ℕ → Byte) (format : List Byte) (args : List Arg) (list : List Item)
    (text : Int → Byte) (hex : HexText) : Prop :=
  ∃ rounds final,
    Yields (fun p => p ≤ format.length) memory (print rounds args text hex) (some final) ∧
      final.output = list.flatMap Item.expansion

theorem printk_followsFormat_iff {memory : ℕ → Byte} {format : List Byte} {args : List Arg}
    {list : List Item} (held : FormatAt memory 0 format) (matched : items format args = some list)
    (text : Int → Byte) (hex : HexText) :
    FollowsFormat printk memory format args list text hex ↔
      .lonePercent ∉ list ∧ .pointer null ∉ list := by
  constructor
  · rintro ⟨rounds, final, yields, output⟩
    obtain ⟨whole, printed⟩ := printk.of_loop matched held rfl
      (fun j read => by rw [Nat.zero_add]; exact read) yields
    refine ⟨whole, fun listed => ?_⟩
    have shorter := (flatMap_emitted_length whole).2 listed
    rw [List.nil_append] at printed
    rw [← printed, output] at shorter
    exact Nat.lt_irrefl _ shorter
  · rintro ⟨whole, nonnull⟩
    obtain ⟨final, yields, output⟩ : ∃ final,
        Yields (fun p => p ≤ format.length) memory (printk (format.length + 1) args text hex)
          (some final) ∧ final.output = [] ++ list.flatMap Item.emitted :=
      printk.loop_prints matched whole held rfl
        (fun j _ upper => by rw [Nat.zero_add] at upper; exact upper) (Nat.lt_succ_self _)
    refine ⟨format.length + 1, final, yields, ?_⟩
    rw [output, List.nil_append]
    exact flatMap_emitted whole nonnull

/-- **When formatted printing follows its format.** With an argument for each conversion, the
kernel's and the library's function print the expansion and stop at the end of the format exactly
when the format does not end in a lone `'%'` and no null pointer is printed. -/
theorem printf_follows_format_iff (memory : ℕ → Byte) (format : List Byte) (args : List Arg)
    (list : List Item) (text : Int → Byte) (hex : HexText) (held : FormatAt memory 0 format)
    (matched : items format args = some list) :
    (FollowsFormat printk memory format args list text hex ↔
        .lonePercent ∉ list ∧ .pointer null ∉ list) ∧
      (FollowsFormat Stdlib.printf memory format args list text hex ↔
        .lonePercent ∉ list ∧ .pointer null ∉ list) :=
  ⟨printk_followsFormat_iff held matched text hex, printk_followsFormat_iff held matched text hex⟩

/-- The memory that holds a format. -/
def formatMemory (format : List Byte) (p : ℕ) : Byte := format.getD p 0

/-- `printf("%p", NULL)` prints `"0X"` without a digit, and `printf("%")` reads two characters
behind the `'%'`. -/
theorem printf_null_pointer_and_lone_percent :
    ¬ FollowsFormat Stdlib.printf (formatMemory [0x25, 0x70]) [0x25, 0x70] [.int 0] [.pointer 0]
        (fun _ => 0) zeroHex ∧
      (Stdlib.printf 3 [] (fun _ => 0) zeroHex).footprint (formatMemory [0x25]) = [0, 1, 2] ∧
      ¬ FollowsFormat Stdlib.printf (formatMemory [0x25]) [0x25] [] [.lonePercent]
        (fun _ => 0) zeroHex := by
  refine ⟨fun follows => ?_, rfl, fun follows => ?_⟩
  · have held : FormatAt (formatMemory [0x25, 0x70]) 0 [0x25, 0x70] :=
      ⟨rfl, by decide, rfl, by decide, rfl⟩
    exact ((printk_followsFormat_iff held rfl _ _).mp follows).2 List.mem_cons_self
  · have held : FormatAt (formatMemory [0x25]) 0 [0x25] := ⟨rfl, by decide, rfl⟩
    exact ((printk_followsFormat_iff held rfl _ _).mp follows).1 List.mem_cons_self

/-- `printf("%d%%", 7)` follows its format. -/
theorem printf_percentage :
    FollowsFormat printk (formatMemory [0x25, 0x64, 0x25, 0x25]) [0x25, 0x64, 0x25, 0x25]
        [.int 7] [.decimal 7, .literal 0x25] (fun _ => 0) zeroHex ∧
      FollowsFormat Stdlib.printf (formatMemory [0x25, 0x64, 0x25, 0x25]) [0x25, 0x64, 0x25, 0x25]
        [.int 7] [.decimal 7, .literal 0x25] (fun _ => 0) zeroHex := by
  obtain ⟨kernel, library⟩ := printf_follows_format_iff (formatMemory [0x25, 0x64, 0x25, 0x25])
    [0x25, 0x64, 0x25, 0x25] [.int 7] [.decimal 7, .literal 0x25] (fun _ => 0) zeroHex
    ⟨rfl, by decide, rfl, by decide, rfl, by decide, rfl, by decide, rfl⟩ rfl
  have plain : .lonePercent ∉ [Item.decimal 7, .literal 0x25] ∧
      .pointer null ∉ [Item.decimal 7, .literal 0x25] := by simp
  exact ⟨kernel.mpr plain, library.mpr plain⟩

end Phix
