import Mathlib.Data.Finset.Card
import Mathlib.Data.Finset.Range
import Mathlib.Order.Basic
import Mathlib.Order.Interval.Set.Basic
import Mathlib.Tactic.Common

/-! # Runs of a predicate on the natural numbers

A run of length `n` at `s` is a block `[s, s + n)` of indices satisfying a
predicate. `Runs.ScanOutcome` classifies what a left-to-right scan for a run of
length `n` below a bound can end with: the least such run, a shorter run that
reaches the bound, or a bound whose last index fails the predicate. The three
step lemmas (`Runs.Progress.reset`, `Runs.Progress.start`,
`Runs.Progress.extend`) carry the invariant of such a scan over one index.
-/

namespace Runs

variable {holds : ℕ → Prop}

/-- Every index of `[s, s + n)` satisfies the predicate. -/
def IsRun (holds : ℕ → Prop) (s n : ℕ) : Prop := ∀ i, s ≤ i → i < s + n → holds i

/-- No run of length `n` ends at or before `bound`. -/
def NoRun (holds : ℕ → Prop) (n bound : ℕ) : Prop := ∀ s, s + n ≤ bound → ¬ IsRun holds s n

theorem IsRun.sub {s n t m : ℕ} (run : IsRun holds s n) (lower : s ≤ t) (upper : t + m ≤ s + n) :
    IsRun holds t m :=
  fun i below above => run i (lower.trans below) (above.trans_le upper)

theorem IsRun.snoc {s n : ℕ} (run : IsRun holds s n) (next : holds (s + n)) :
    IsRun holds s (n + 1) := by
  intro i lower upper
  rcases Nat.lt_or_ge i (s + n) with inside | last
  · exact run i lower inside
  · have equal : i = s + n := by omega
    exact equal ▸ next

theorem isRun_one {s : ℕ} (here : holds s) : IsRun holds s 1 := by
  intro i lower upper
  have equal : i = s := by omega
  exact equal ▸ here

/-- The index before a run, if there is one, fails the predicate. -/
def Stops (holds : ℕ → Prop) (s : ℕ) : Prop := s = 0 ∨ ¬ holds (s - 1)

/-- The invariant of a scan that has passed the indices below `i` without
finding a run of length `n`: either the last index failed, or the current run
starts at `s` and is still too short. -/
inductive Progress (holds : ℕ → Prop) (n i : ℕ) : Option ℕ → Prop where
  | outside (stops : Stops holds i) (missed : 1 ≤ n → NoRun holds n i) : Progress holds n i none
  | inside (s : ℕ) (started : s < i) (run : IsRun holds s (i - s)) (stops : Stops holds s)
      (missed : 1 ≤ n → NoRun holds n i) : Progress holds n i (some s)

/-- How a scan for a run of length `n` below `bound` ends. -/
inductive ScanOutcome (holds : ℕ → Prop) (n bound : ℕ) : Option ℕ → Prop where
  | found (s : ℕ) (positive : 1 ≤ n) (fits : s + n ≤ bound) (run : IsRun holds s n)
      (least : ∀ t < s, ¬ IsRun holds t n) : ScanOutcome holds n bound (some s)
  | tail (s : ℕ) (started : s < bound) (run : IsRun holds s (bound - s))
      (missed : 1 ≤ n → NoRun holds n bound) : ScanOutcome holds n bound (some s)
  | full (stops : Stops holds bound) (missed : 1 ≤ n → NoRun holds n bound) :
      ScanOutcome holds n bound none

theorem Progress.zero (n : ℕ) : Progress holds n 0 none :=
  .outside (.inl rfl) (fun positive s below => by omega)

theorem Progress.noRun {n i : ℕ} {current : Option ℕ} (progress : Progress holds n i current) :
    1 ≤ n → NoRun holds n i := by
  cases progress with
  | outside _ missed => exact missed
  | inside _ _ _ _ missed => exact missed

/-- A failing index ends the current run. -/
theorem Progress.reset {n i : ℕ} {current : Option ℕ} (progress : Progress holds n i current)
    (fails : ¬ holds i) : Progress holds n (i + 1) none := by
  refine .outside (.inr fails) fun positive s below run => ?_
  rcases Nat.lt_or_ge i (s + n) with last | earlier
  · exact fails (run i (by omega) last)
  · exact progress.noRun positive s earlier run

/-- The start of the current run once index `i` also satisfies the predicate. -/
def startAt (i : ℕ) (current : Option ℕ) : ℕ := current.getD i

theorem Progress.startAt_le {n i : ℕ} {current : Option ℕ} (progress : Progress holds n i current) :
    startAt i current ≤ i := by
  cases progress with
  | outside => exact le_rfl
  | inside s started => exact started.le

theorem Progress.stops_startAt {n i : ℕ} {current : Option ℕ}
    (progress : Progress holds n i current) : Stops holds (startAt i current) := by
  cases progress with
  | outside stops => exact stops
  | inside s _ _ stops => exact stops

theorem Progress.run_startAt {n i : ℕ} {current : Option ℕ}
    (progress : Progress holds n i current) (here : holds i) :
    IsRun holds (startAt i current) (i + 1 - startAt i current) := by
  cases progress with
  | outside =>
      have length : i + 1 - startAt i none = 1 := Nat.add_sub_cancel_left i 1
      rw [length]
      exact isRun_one here
  | inside s started run =>
      have length : i + 1 - startAt i (some s) = i - s + 1 := by
        change i + 1 - s = i - s + 1
        omega
      rw [length]
      refine run.snoc ?_
      rw [Nat.add_sub_cancel' started.le]
      exact here

/-- A run ending at `i + 1` starts no earlier than the current one. -/
theorem Stops.le_of_run {s t m : ℕ} (stops : Stops holds s) (run : IsRun holds t m)
    (reaches : s ≤ t + m) : s ≤ t := by
  by_contra earlier
  rcases stops with zero | fails
  · omega
  · exact fails (run (s - 1) (by omega) (by omega))

/-- A further index extends the current run when it stays short. -/
theorem Progress.extend {n i : ℕ} {current : Option ℕ} (progress : Progress holds n i current)
    (here : holds i) (short : i + 1 - startAt i current ≠ n) :
    Progress holds n (i + 1) (some (startAt i current)) := by
  have bound := progress.startAt_le
  refine .inside _ (by omega) (progress.run_startAt here) progress.stops_startAt ?_
  intro positive s below run
  rcases Nat.lt_or_ge i (s + n) with last | earlier
  · have lower := progress.stops_startAt.le_of_run run (by omega)
    -- A longer current run would have contained a run of length `n` already.
    by_cases strict : startAt i current < s
    · refine progress.noRun positive (s - 1) (by omega) ?_
      exact (progress.run_startAt here).sub (by omega) (by omega)
    · omega
  · exact progress.noRun positive s earlier run

/-- A further index completes the least run of length `n`. -/
theorem Progress.complete {n i bound : ℕ} {current : Option ℕ}
    (progress : Progress holds n i current) (here : holds i)
    (exactly : i + 1 - startAt i current = n) (below : i < bound) :
    ScanOutcome holds n bound (some (startAt i current)) := by
  have lower := progress.startAt_le
  refine .found _ (by omega) (by omega) (exactly ▸ progress.run_startAt here) ?_
  intro t earlier run
  rcases Nat.lt_or_ge (t + n) (startAt i current) with apart | reaches
  · exact progress.noRun (by omega) t (by omega) run
  · have := progress.stops_startAt.le_of_run run reaches
    omega

/-- A scan that has passed every index ends without the run it looked for. -/
theorem Progress.finish {n bound : ℕ} {current : Option ℕ}
    (progress : Progress holds n bound current) : ScanOutcome holds n bound current := by
  cases progress with
  | outside stops missed => exact .full stops missed
  | inside s started run _ missed => exact .tail s started run missed

/-! Runs between few failing indices. -/

/-- Where few enough indices below a bound fail the predicate, there is a run between two. -/
theorem exists_isRun [DecidablePred holds] {n bound : ℕ}
    (few : n * (((Finset.range bound).filter fun i => ¬ holds i).card + 1) ≤ bound) :
    ∃ s, s + n ≤ bound ∧ IsRun holds s n := by
  by_contra none
  -- Otherwise each of the blocks of length `n` has an index that fails.
  have blocked : ∀ k, k * n + n ≤ bound → ∃ i, k * n ≤ i ∧ i < k * n + n ∧ ¬ holds i := by
    intro k inside
    by_contra absent
    refine none ⟨k * n, inside, fun i lower upper => ?_⟩
    by_contra fails
    exact absent ⟨i, lower, upper, fails⟩
  choose! failing lower upper fails using blocked
  have inside : ∀ k ∈ Finset.range (((Finset.range bound).filter fun i => ¬ holds i).card + 1),
      k * n + n ≤ bound := by
    intro k member
    rw [← Nat.succ_mul]
    refine (Nat.mul_le_mul_right n ?_).trans ((Nat.mul_comm _ n).trans_le few)
    exact Finset.mem_range.mp member
  have blockOf : ∀ k, k * n + n ≤ bound → failing k / n = k := by
    intro k below
    refine Nat.div_eq_of_lt_le (lower k below) ?_
    rw [Nat.succ_mul]
    exact upper k below
  have counted : (Finset.range (((Finset.range bound).filter fun i => ¬ holds i).card + 1)).card ≤
      ((Finset.range bound).filter fun i => ¬ holds i).card := by
    refine Finset.card_le_card_of_injOn failing (fun k member => ?_) fun k member j other same => ?_
    · rw [Finset.mem_coe, Finset.mem_filter, Finset.mem_range]
      exact ⟨(upper k (inside k member)).trans_le (inside k member), fails k (inside k member)⟩
    · rw [← blockOf k (inside k member), ← blockOf j (inside j other), same]
  rw [Finset.card_range] at counted
  omega
end Runs
