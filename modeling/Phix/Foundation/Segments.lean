import Mathlib.Data.List.Basic
import Mathlib.Data.List.Pairwise
import Mathlib.Data.List.TakeWhile

/-! # Segments of a text

A separator cuts a text into segments, some of which may be empty. `Segments.leading` are those
before the first empty one, which is what a parser collects that takes an empty segment for the
end of the text. None is lost when no segment that follows an empty one has anything in it
(`Segments.sublist_leading_iff`), and joining non-empty segments is undone
(`Segments.leading_join`).
-/

namespace Segments

variable {α : Type*} (sep : α → Bool)

/-- The segments that are not empty. -/
def nonempty (text : List α) : List (List α) :=
  (text.splitOnP sep).filter fun segment => !segment.isEmpty

/-- The segments before the first empty one. -/
def leading (text : List α) : List (List α) :=
  (text.splitOnP sep).takeWhile fun segment => !segment.isEmpty

variable {sep}

theorem splitOnP_eq (text : List α) :
    text.splitOnP sep = (text.takeWhile fun c => !sep c) ::
      match text.dropWhile fun c => !sep c with
      | [] => []
      | _ :: rest => rest.splitOnP sep := by
  induction text with
  | nil => simp
  | cons c text ih =>
      rw [List.splitOnP_cons_eq_if_modifyHead, ih]
      by_cases cut : sep c = true
      · simp only [cut, ↓reduceIte, Bool.not_true, Bool.false_eq_true, not_false_eq_true,
          List.takeWhile_cons_of_neg, List.dropWhile_cons_of_neg, ← ih]
      · simp only [Bool.not_eq_true] at cut
        simp only [cut, Bool.false_eq_true, ↓reduceIte, Bool.not_false, List.modifyHead_cons,
          List.takeWhile_cons_of_pos, List.dropWhile_cons_of_pos]

/-- An empty first segment ends the text. -/
theorem leading_of_nil {text : List α} (empty : (text.takeWhile fun c => !sep c) = []) :
    leading sep text = [] := by
  unfold leading
  rw [splitOnP_eq, empty]
  simp

/-- What follows the first segment and its separator is collected in the same way. -/
theorem leading_of_ne_nil {text : List α} (named : (text.takeWhile fun c => !sep c) ≠ []) :
    leading sep text = (text.takeWhile fun c => !sep c) ::
      leading sep (text.dropWhile fun c => !sep c).tail := by
  have kept : (text.takeWhile fun c => !sep c).isEmpty = false := by
    rwa [List.isEmpty_eq_false_iff]
  unfold leading
  rw [splitOnP_eq, List.takeWhile_cons, kept, Bool.not_false, if_pos rfl]
  cases text.dropWhile fun c => !sep c with
  | nil => simp
  | cons c rest => rfl

theorem takeWhile_sublist_filter {β : Type*} (p : β → Bool) (l : List β) :
    (l.takeWhile p).Sublist (l.filter p) := by
  have sublist := (List.takeWhile_sublist p (l := l)).filter p
  rwa [List.filter_eq_self.mpr fun x member => List.mem_takeWhile_imp member] at sublist

theorem filter_eq_takeWhile_iff {β : Type*} {p : β → Bool} {l : List β} :
    l.filter p = l.takeWhile p ↔ l.Pairwise fun a b => p a = false → p b = false := by
  induction l with
  | nil => simp
  | cons a l ih =>
      rw [List.pairwise_cons]
      cases here : p a with
      | true =>
          rw [List.filter_cons_of_pos here, List.takeWhile_cons_of_pos here, List.cons_inj_right,
            ih]
          simp
      | false =>
          have fails : ¬ p a = true := by simp [here]
          rw [List.filter_cons_of_neg fails, List.takeWhile_cons_of_neg fails,
            List.filter_eq_nil_iff]
          simp only [Bool.not_eq_true, forall_const]
          refine ⟨fun none => ⟨none, ?_⟩, fun both => both.1⟩
          exact List.pairwise_of_forall_mem_list fun b _ c member _ => none c member

/-- The first `n` of the leading segments have every non-empty segment among them exactly when
nothing follows an empty one and there are at most `n`. -/
theorem sublist_leading_iff {text : List α} {n : ℕ} :
    (nonempty sep text).Sublist ((leading sep text).take n) ↔
      ((text.splitOnP sep).Pairwise fun earlier later => earlier = [] → later = []) ∧
        (nonempty sep text).length ≤ n := by
  have pairwise : (nonempty sep text = leading sep text) ↔
      (text.splitOnP sep).Pairwise fun earlier later => earlier = [] → later = [] := by
    unfold nonempty leading
    rw [filter_eq_takeWhile_iff]
    simp only [Bool.not_eq_false', List.isEmpty_iff]
  have within : (leading sep text).Sublist (nonempty sep text) := takeWhile_sublist_filter _ _
  rw [← pairwise]
  constructor
  · intro sublist
    have short := sublist.length_le
    have whole := (sublist.trans (List.take_sublist n _)).length_le
    rw [List.length_take] at short
    exact ⟨(within.eq_of_length_le whole).symm, by omega⟩
  · rintro ⟨same, short⟩
    rw [← same, List.take_of_length_le short]

/-- A segment followed by a separator comes first. -/
theorem leading_append {segment : List α} (named : segment ≠ [])
    (plain : ∀ c ∈ segment, sep c = false) {c : α} (cut : sep c = true) (rest : List α) :
    leading sep (segment ++ c :: rest) = segment :: leading sep rest := by
  have passes : ∀ d ∈ segment, (!sep d) = true := fun d member => by rw [plain d member]; rfl
  have first : ((segment ++ c :: rest).takeWhile fun d => !sep d) = segment := by
    rw [List.takeWhile_append_of_pos passes, List.takeWhile_cons, cut, Bool.not_true,
      if_neg Bool.false_ne_true, List.append_nil]
  have remaining : ((segment ++ c :: rest).dropWhile fun d => !sep d) = c :: rest := by
    rw [List.dropWhile_append_of_pos passes, List.dropWhile_cons, cut, Bool.not_true,
      if_neg Bool.false_ne_true]
  rw [leading_of_ne_nil (by rwa [first]), first, remaining]
  rfl

theorem leading_single {segment : List α} (named : segment ≠ [])
    (plain : ∀ c ∈ segment, sep c = false) : leading sep segment = [segment] := by
  have passes : ∀ d ∈ segment, (!sep d) = true := fun d member => by rw [plain d member]; rfl
  have first : (segment.takeWhile fun d => !sep d) = segment :=
    List.takeWhile_eq_self_iff.mpr passes
  have remaining : (segment.dropWhile fun d => !sep d) = [] := List.dropWhile_eq_nil_iff.mpr passes
  rw [leading_of_ne_nil (by rwa [first]), first, remaining, List.tail_nil]
  exact congrArg (segment :: ·) (leading_of_nil rfl)

/-- Non-empty segments joined with a separator are the leading ones, whether or not the text
ends in another separator. -/
theorem leading_join {segments : List (List α)} (named : ∀ segment ∈ segments, segment ≠ [])
    (plain : ∀ segment ∈ segments, ∀ c ∈ segment, sep c = false) {c : α} (cut : sep c = true)
    {ending : List α} (ended : ending = [] ∨ ending = [c]) :
    leading sep ((segments.intersperse [c]).flatten ++ ending) = segments := by
  have nothing : leading sep ending = [] := by
    apply leading_of_nil
    rcases ended with rfl | rfl
    · rfl
    · simp [cut]
  induction segments with
  | nil => exact nothing
  | cons segment segments ih =>
      have own := named segment (List.mem_cons_self ..)
      have letters := plain segment (List.mem_cons_self ..)
      cases segments with
      | nil =>
          rw [List.intersperse_singleton, List.flatten_singleton]
          rcases ended with rfl | rfl
          · rw [List.append_nil]
            exact leading_single own letters
          · rw [leading_append own letters cut]
            exact congrArg (segment :: ·) (leading_of_nil rfl)
      | cons second others =>
          rw [List.intersperse_cons_cons, List.flatten_cons, List.flatten_cons, List.append_assoc,
            List.append_assoc, List.singleton_append, leading_append own letters cut,
            ih (fun other member => named other (List.mem_cons_of_mem _ member))
              fun other member => plain other (List.mem_cons_of_mem _ member)]

end Segments
