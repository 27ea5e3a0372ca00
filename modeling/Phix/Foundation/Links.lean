import Mathlib.Data.List.Nodup
import Mathlib.Logic.Function.Iterate

/-! # Doubly linked lists

Cells are linked by two functions on their addresses, with a null address past both ends.
`Links.Linked` says that the links, the head and the tail spell out a list of cells. A cell can be
added after the tail and the tail can be removed (`Links.Linked.snoc`, `Links.Linked.dropLast`),
and going on from the head after the tail visits every cell from every other
(`Links.Linked.advance_visits`).
-/

namespace Links

variable {Cell : Type*}

/-- The links of the cells in this order, between their two ends. -/
structure Linked (null : Cell) (next prev : Cell → Cell) (head tail : Cell) (cells : List Cell) :
    Prop where
  nodup : cells.Nodup
  proper : ∀ c ∈ cells, c ≠ null
  starts : head = cells[0]?.getD null
  ends : tail = cells[cells.length - 1]?.getD null
  forward : ∀ i c, cells[i]? = some c → next c = cells[i + 1]?.getD null
  backward : ∀ i c d, cells[i]? = some c → cells[i + 1]? = some d → prev d = c
  first : ∀ c, cells[0]? = some c → prev c = null

theorem Linked.nil (null : Cell) (next prev : Cell → Cell) :
    Linked null next prev null null [] where
  nodup := List.nodup_nil
  proper _ member := absurd member List.not_mem_nil
  starts := rfl
  ends := rfl
  forward _ _ absent := by cases absent
  backward _ _ _ absent := by cases absent
  first _ absent := by cases absent

namespace Linked

variable {null : Cell} {next prev : Cell → Cell} {head tail : Cell} {cells : List Cell}

theorem present {i : ℕ} (inside : i < cells.length) : ∃ c, cells[i]? = some c :=
  ⟨cells[i], List.getElem?_eq_getElem inside⟩

theorem head_eq_null_iff (linked : Linked null next prev head tail cells) :
    head = null ↔ cells = [] := by
  rw [linked.starts]
  cases cells with
  | nil => simp
  | cons c rest => simpa using linked.proper c (List.mem_cons_self ..)

theorem head_mem (linked : Linked null next prev head tail cells) (some : cells ≠ []) :
    head ∈ cells := by
  rw [linked.starts]
  cases cells with
  | nil => exact absurd rfl some
  | cons c rest => simp

/-- Where a cell is in the list. -/
theorem index_unique (linked : Linked null next prev head tail cells) {i j : ℕ} {c : Cell}
    (here : cells[i]? = some c) (there : cells[j]? = some c) : i = j := by
  have inside := (List.getElem?_eq_some_iff.mp here).1
  exact (List.getElem?_inj inside linked.nodup).mp (here.trans there.symm)

theorem eq_tail_iff (linked : Linked null next prev head tail cells) {i : ℕ} {c : Cell}
    (here : cells[i]? = some c) : c = tail ↔ i + 1 = cells.length := by
  have inside := (List.getElem?_eq_some_iff.mp here).1
  obtain ⟨d, final⟩ := present (show cells.length - 1 < cells.length by omega)
  rw [linked.ends, final, Option.getD_some]
  constructor
  · rintro rfl
    have index := linked.index_unique here final
    omega
  · intro last
    obtain rfl : i = cells.length - 1 := by omega
    exact Option.some_inj.mp (here.symm.trans final)

/-- A cell is linked to cells of the list, or to none. -/
theorem next_mem (linked : Linked null next prev head tail cells) {c : Cell} (member : c ∈ cells) :
    next c = null ∨ next c ∈ cells := by
  obtain ⟨i, here⟩ := List.mem_iff_getElem?.mp member
  rw [linked.forward i c here]
  rcases follows : cells[i + 1]? with _ | d
  · exact .inl rfl
  · exact .inr (List.mem_of_getElem? follows)

theorem prev_mem (linked : Linked null next prev head tail cells) {c : Cell} (member : c ∈ cells) :
    prev c = null ∨ prev c ∈ cells := by
  obtain ⟨i, here⟩ := List.mem_iff_getElem?.mp member
  cases i with
  | zero => exact .inl (linked.first c here)
  | succ i =>
      have inside := (List.getElem?_eq_some_iff.mp here).1
      obtain ⟨d, before⟩ := present (show i < cells.length by omega)
      rw [linked.backward i d c before here]
      exact .inr (List.mem_of_getElem? before)

theorem prev_ne (linked : Linked null next prev head tail cells) {c : Cell} (member : c ∈ cells) :
    prev c ≠ c := by
  obtain ⟨i, here⟩ := List.mem_iff_getElem?.mp member
  cases i with
  | zero =>
      rw [linked.first c here]
      exact (linked.proper c member).symm
  | succ i =>
      have inside := (List.getElem?_eq_some_iff.mp here).1
      obtain ⟨d, before⟩ := present (show i < cells.length by omega)
      rw [linked.backward i d c before here]
      rintro rfl
      exact absurd (linked.index_unique before here) (by omega)

/-- A new cell is linked after the tail. -/
theorem snoc (linked : Linked null next prev head tail cells) {t : Cell} (fresh : t ∉ cells)
    (isProper : t ≠ null) {next' prev' : Cell → Cell} {head' : Cell}
    (start : head' = if cells = [] then t else head) (last : next' t = null)
    (behind : prev' t = tail) (joined : cells ≠ [] → next' tail = t)
    (nexts : ∀ c ∈ cells, c ≠ tail → next' c = next c) (prevs : ∀ c ∈ cells, prev' c = prev c) :
    Linked null next' prev' head' t (cells ++ [t]) where
  nodup := List.nodup_append.mpr
    ⟨linked.nodup, List.nodup_singleton t, fun c member d added same =>
      fresh ((same.trans (List.mem_singleton.mp added)) ▸ member)⟩
  proper c member := by
    rcases List.mem_append.mp member with old | added
    · exact linked.proper c old
    · exact List.mem_singleton.mp added ▸ isProper
  starts := by
    rw [start]
    cases cells with
    | nil => rfl
    | cons c rest => simpa using linked.starts
  ends := by simp
  forward i c here := by
    rcases Nat.lt_or_ge i cells.length with old | added
    · rw [List.getElem?_append_left old] at here
      have member := List.mem_of_getElem? here
      rcases Nat.eq_or_lt_of_le (Nat.succ_le_of_lt old) with final | before
      · rw [(linked.eq_tail_iff here).mpr final, joined (List.ne_nil_of_mem member),
          ← Nat.succ_eq_add_one, final]
        simp
      · have notTail := mt (linked.eq_tail_iff here).mp (Nat.ne_of_lt before)
        rw [nexts c member notTail, linked.forward i c here, List.getElem?_append_left before]
    · rw [List.getElem?_append_right added] at here
      obtain ⟨atEnd, rfl⟩ := List.getElem?_eq_some_iff.mp here
      rw [List.length_singleton] at atEnd
      rw [List.getElem?_eq_none (by rw [List.length_append, List.length_singleton]; omega)]
      simpa using last
  backward i c d here there := by
    have inside := (List.getElem?_eq_some_iff.mp there).1
    rw [List.length_append, List.length_singleton] at inside
    rw [List.getElem?_append_left (by omega)] at here
    rcases Nat.lt_or_ge (i + 1) cells.length with old | added
    · rw [List.getElem?_append_left old] at there
      rw [prevs d (List.mem_of_getElem? there), linked.backward i c d here there]
    · rw [List.getElem?_append_right added] at there
      have atEnd : i = cells.length - 1 := by omega
      obtain rfl : t = d := by simpa [show i + 1 - cells.length = 0 by omega] using there
      rw [behind, linked.ends, ← atEnd, here, Option.getD_some]
  first c here := by
    cases cells with
    | nil =>
        obtain rfl : t = c := by simpa using here
        exact behind.trans linked.ends
    | cons d rest =>
        rw [List.getElem?_append_left (Nat.succ_pos _)] at here
        rw [prevs c (List.mem_of_getElem? here), linked.first c here]

/-- The tail is unlinked. -/
theorem dropLast {t : Cell} (linked : Linked null next prev head t (cells ++ [t]))
    {next' prev' : Cell → Cell} {head' : Cell} (start : head' = if cells = [] then null else head)
    (last : ∀ c ∈ cells, c = prev t → next' c = null)
    (nexts : ∀ c ∈ cells, c ≠ prev t → next' c = next c) (prevs : ∀ c ∈ cells, prev' c = prev c) :
    Linked null next' prev' head' (prev t) cells := by
  have atEnd : (cells ++ [t])[cells.length]? = some t := by simp
  have ends : prev t = cells[cells.length - 1]?.getD null := by
    rcases Nat.eq_zero_or_pos cells.length with empty | some
    · rw [List.length_eq_zero_iff] at empty
      rw [empty] at atEnd linked ⊢
      exact linked.first t atEnd
    · obtain ⟨d, final⟩ := present (show cells.length - 1 < cells.length by omega)
      rw [final, Option.getD_some]
      refine linked.backward (cells.length - 1) d t ?_ ?_
      · rw [List.getElem?_append_left (by omega), final]
      · rw [Nat.sub_add_cancel some]
        exact atEnd
  have within : ∀ {i c}, cells[i]? = .some c → (cells ++ [t])[i]? = .some c := fun here =>
    (List.getElem?_append_left (List.getElem?_eq_some_iff.mp here).1).trans here
  have nodup := (List.nodup_append.mp linked.nodup).1
  exact {
    nodup
    proper := fun c member => linked.proper c (List.mem_append_left _ member)
    starts := by
      rw [start]
      cases cells with
      | nil => rfl
      | cons c rest => simpa using linked.starts
    ends
    forward := fun i c here => by
      have member := List.mem_of_getElem? here
      have inside := (List.getElem?_eq_some_iff.mp here).1
      rcases Nat.eq_or_lt_of_le (Nat.succ_le_of_lt inside) with final | before
      · rw [List.getElem?_eq_none (Nat.le_of_eq final.symm), Option.getD_none]
        refine last c member ?_
        rw [ends, ← final, Nat.succ_sub_one, here, Option.getD_some]
      · obtain ⟨d, follows⟩ := present before
        rw [nexts c member, linked.forward i c (within here), within follows, follows]
        intro same
        obtain ⟨e, final⟩ := present (show cells.length - 1 < cells.length by omega)
        rw [ends, final, Option.getD_some] at same
        have index := (List.getElem?_inj inside nodup).mp (here.trans (same ▸ final.symm))
        omega
    backward := fun i c d here there => by
      rw [prevs d (List.mem_of_getElem? there)]
      exact linked.backward i c d (within here) (within there)
    first := fun c here => by
      rw [prevs c (List.mem_of_getElem? here)]
      exact linked.first c (within here) }

/-- The tail is the last cell. -/
theorem eq_append_tail (linked : Linked null next prev head tail cells) (some : cells ≠ []) :
    ∃ init, cells = init ++ [tail] := by
  rcases List.eq_nil_or_concat cells with empty | ⟨init, c, rfl⟩
  · exact absurd empty some
  · refine ⟨init, ?_⟩
    have last := linked.ends
    simp only [List.concat_eq_append, List.length_append, List.length_singleton,
      Nat.add_sub_cancel, List.getElem?_concat_length, Option.getD_some] at last
    rw [last, List.concat_eq_append]

section Tail

variable {t : Cell} (linked : Linked null next prev head t (cells ++ [t]))

include linked

theorem tail_notMem : t ∉ cells := by
  have disjoint := (List.nodup_append.mp linked.nodup).2.2
  exact fun member => disjoint t member t (List.mem_singleton_self t) rfl

theorem next_tail : next t = null := by
  rw [linked.forward cells.length t (by simp)]
  simp

theorem tail_eq_head_iff : t = head ↔ cells = [] := by
  have fresh := linked.tail_notMem
  rw [linked.starts]
  cases cells with
  | nil => simp
  | cons c rest =>
      rw [List.mem_cons, not_or] at fresh
      simpa using fresh.1

end Tail

end Linked

/-- The cell after a cell, or the head after the last one. -/
def advance [DecidableEq Cell] (null : Cell) (next : Cell → Cell) (head c : Cell) : Cell :=
  if next c = null then head else next c

section Advance

variable [DecidableEq Cell] {null : Cell} {next prev : Cell → Cell} {head tail : Cell}
  {cells : List Cell} (linked : Linked null next prev head tail cells)

include linked

theorem Linked.advance_getElem {i : ℕ} {c : Cell} (here : cells[i]? = some c) :
    cells[(i + 1) % cells.length]? = some (advance null next head c) := by
  have inside := (List.getElem?_eq_some_iff.mp here).1
  unfold advance
  rw [linked.forward i c here]
  rcases Nat.eq_or_lt_of_le (Nat.succ_le_of_lt inside) with final | before
  · obtain ⟨d, first⟩ := Linked.present (show 0 < cells.length by omega)
    rw [List.getElem?_eq_none (Nat.le_of_eq final.symm), Option.getD_none, if_pos rfl,
      linked.starts, first, Option.getD_some, ← Nat.succ_eq_add_one, final, Nat.mod_self, first]
  · obtain ⟨d, follows⟩ := Linked.present before
    have isProper := linked.proper d (List.mem_of_getElem? follows)
    rw [follows, Option.getD_some, if_neg isProper, Nat.mod_eq_of_lt before, follows]

/-- Advancing goes around the list. -/
theorem Linked.advance_iterate {i : ℕ} {c : Cell} (here : cells[i]? = some c) (n : ℕ) :
    cells[(i + n) % cells.length]? = some ((advance null next head)^[n] c) := by
  induction n with
  | zero =>
      rw [Nat.add_zero, Nat.mod_eq_of_lt (List.getElem?_eq_some_iff.mp here).1]
      exact here
  | succ n ih =>
      rw [Function.iterate_succ_apply', ← linked.advance_getElem ih, Nat.mod_add_mod, Nat.add_assoc]

/-- **Advancing from any cell comes to every cell.** -/
theorem Linked.advance_visits {c d : Cell} (start : c ∈ cells) (goal : d ∈ cells) :
    ∃ n, (advance null next head)^[n] c = d := by
  obtain ⟨i, here⟩ := List.mem_iff_getElem?.mp start
  obtain ⟨j, there⟩ := List.mem_iff_getElem?.mp goal
  have inside := (List.getElem?_eq_some_iff.mp here).1
  have bound := (List.getElem?_eq_some_iff.mp there).1
  refine ⟨cells.length - i + j, Option.some_inj.mp ?_⟩
  rw [← linked.advance_iterate here, show i + (cells.length - i + j) = cells.length + j by omega,
    Nat.add_mod_left, Nat.mod_eq_of_lt bound, there]

end Advance

end Links
