import Mathlib.Tactic.Common

/-! # Searches through consecutive indices

A loop that tries the indices from `i` on, at most a given number of them, returns the least
that satisfies a predicate (`Searches.first_eq_some`), or nothing when none of them does
(`Searches.first_eq_none`). `Searches.Ends` says how a loop that may stop early goes through
its indices.
-/

namespace Searches

variable (p : ℕ → Prop) [DecidablePred p]

/-- The first of the indices `i`, ..., `i + remaining - 1` that satisfies `p`. -/
def first : ℕ → ℕ → Option ℕ
  | 0, _ => none
  | remaining + 1, i => if p i then some i else first remaining (i + 1)

variable {p} {remaining i k : ℕ}

/-- A search that finds an index finds the least one. -/
theorem first_eq_some : first p remaining i = some k ↔
    i ≤ k ∧ k < i + remaining ∧ p k ∧ ∀ j, i ≤ j → j < k → ¬ p j := by
  induction remaining generalizing i with
  | zero => exact iff_of_false (fun absent => by cases absent) fun ⟨_, _, _⟩ => by omega
  | succ remaining ih =>
      unfold first
      by_cases here : p i
      · rw [if_pos here, Option.some_inj]
        constructor
        · rintro rfl
          exact ⟨Nat.le_refl _, by omega, here, fun j lower upper => by omega⟩
        · rintro ⟨lower, _, _, earlier⟩
          by_contra different
          exact earlier i (Nat.le_refl _) (by omega) here
      · rw [if_neg here, ih]
        constructor
        · rintro ⟨lower, upper, found, earlier⟩
          refine ⟨by omega, by omega, found, fun j from_i before => ?_⟩
          rcases Nat.eq_or_lt_of_le from_i with rfl | later
          · exact here
          · exact earlier j later before
        · rintro ⟨lower, upper, found, earlier⟩
          have different : i ≠ k := fun same => here (same ▸ found)
          exact ⟨by omega, by omega, found, fun j from_i before => earlier j (by omega) before⟩

/-- A search that finds none has looked at all of them. -/
theorem first_eq_none : first p remaining i = none ↔ ∀ j, i ≤ j → j < i + remaining → ¬ p j := by
  induction remaining generalizing i with
  | zero => exact iff_of_true rfl fun j lower upper => by omega
  | succ remaining ih =>
      unfold first
      by_cases here : p i
      · rw [if_pos here]
        exact iff_of_false (by simp) fun absent => absent i (Nat.le_refl _) (by omega) here
      · rw [if_neg here, ih]
        constructor
        · intro absent j lower upper
          rcases Nat.eq_or_lt_of_le lower with rfl | later
          · exact here
          · exact absent j later (by omega)
        · exact fun absent j lower upper => absent j (by omega) (by omega)

/-- Every index from `i` on is good up to one that ends the loop, or up to the bound `k`. -/
def Ends (good final : ℕ → Prop) (i k : ℕ) : Prop :=
  (∃ j, i ≤ j ∧ j < k ∧ final j ∧ ∀ m, i ≤ m → m < j → good m) ∨ ∀ m, i ≤ m → m < k → good m

/-- A loop whose range is empty ends. -/
theorem ends_self (good final : ℕ → Prop) : Ends good final k k :=
  .inr fun m lower upper => by omega

/-- One round: the loop ends here, or goes on. -/
theorem ends_step {good final : ℕ → Prop} (below : i < k) :
    Ends good final i k ↔ final i ∨ good i ∧ Ends good final (i + 1) k := by
  constructor
  · rintro (⟨j, lower, upper, last, earlier⟩ | all)
    · rcases Nat.eq_or_lt_of_le lower with rfl | later
      · exact .inl last
      · exact .inr ⟨earlier i (Nat.le_refl _) later,
          .inl ⟨j, later, upper, last, fun m from_i before => earlier m (by omega) before⟩⟩
    · exact .inr ⟨all i (Nat.le_refl _) below, .inr fun m lower upper => all m (by omega) upper⟩
  · rintro (last | ⟨here, ⟨j, lower, upper, last, earlier⟩ | all⟩)
    · exact .inl ⟨i, Nat.le_refl _, below, last, fun m lower upper => by omega⟩
    · refine .inl ⟨j, by omega, upper, last, fun m from_i before => ?_⟩
      rcases Nat.eq_or_lt_of_le from_i with rfl | later
      · exact here
      · exact earlier m later before
    · refine .inr fun m from_i before => ?_
      rcases Nat.eq_or_lt_of_le from_i with rfl | later
      · exact here
      · exact all m later before

/-- A loop that never meets a bad index ends. -/
theorem ends_of_either {good final : ℕ → Prop} (below : i ≤ k)
    (either : ∀ j, i ≤ j → j < k → final j ∨ good j) : Ends good final i k := by
  obtain ⟨n, rfl⟩ := Nat.exists_eq_add_of_le below
  induction n generalizing i with
  | zero => exact ends_self good final
  | succ n ih =>
      have next : i + (n + 1) = i + 1 + n := by omega
      rw [next] at either ⊢
      refine (ends_step (by omega)).mpr ?_
      rcases either i (Nat.le_refl i) (by omega) with last | here
      · exact .inl last
      · exact .inr ⟨here, ih (by omega) fun j lower upper => either j (by omega) upper⟩

/-- Every index from `i` to the bound `k` is good that a loop gets to which goes on after the
indices that pass. -/
def Reached (passes good : ℕ → Prop) (i k : ℕ) : Prop :=
  ∀ j, i ≤ j → j < k → (∀ m, i ≤ m → m < j → passes m) → good j

/-- If fewer indices let the loop pass, fewer are reached. -/
theorem Reached.mono {passes fewer good : ℕ → Prop} (reached : Reached passes good i k)
    (passes_of : ∀ j < k, fewer j → passes j) : Reached fewer good i k :=
  fun j lower upper earlier => reached j lower upper fun m from_i before =>
    passes_of m (by omega) (earlier m from_i before)

/-- One round: this index is reached, and the next ones if it is passed. -/
theorem reached_step {passes good : ℕ → Prop} (below : i < k) :
    Reached passes good i k ↔ good i ∧ (passes i → Reached passes good (i + 1) k) := by
  constructor
  · intro reached
    refine ⟨reached i (Nat.le_refl _) below fun m lower upper => by omega, ?_⟩
    intro here j lower upper earlier
    refine reached j (by omega) upper fun m from_i before => ?_
    rcases Nat.eq_or_lt_of_le from_i with rfl | later
    · exact here
    · exact earlier m later before
  · rintro ⟨first, rest⟩ j lower upper earlier
    rcases Nat.eq_or_lt_of_le lower with rfl | later
    · exact first
    · exact rest (earlier i (Nat.le_refl _) later) j later upper fun m from_i before =>
        earlier m (by omega) before

end Searches
