import Mathlib.Data.Set.Disjoint
import Mathlib.Logic.Function.Basic
import Mathlib.Data.Set.Lattice
import Mathlib.Order.CompletePartialOrder
import Mathlib.Order.Interval.Set.Basic

/-! # Extents of a marked table

A table marks some of its first `total` indices. Keys own extents of consecutive
indices; an extent starts inside the table but may run past its end.
`Extents.Placed` says that the marked indices cover the part of every owned
extent inside the table and that extents of distinct keys are disjoint, past the
end as well: two extents that both run past the end would share the last index of
the table. Allocating an extent whose inner indices are unmarked keeps this
(`Extents.Placed.allocate`), and so does releasing one key while unmarking only
indices of its own extent (`Extents.Placed.release`).
-/

namespace Extents

/-- A stretch of consecutive indices. -/
structure Extent where
  start : ℕ
  length : ℕ

/-- The indices of an extent. -/
def Extent.indices (extent : Extent) : Set ℕ :=
  Set.Ico extent.start (extent.start + extent.length)

theorem Extent.mem_indices {extent : Extent} {i : ℕ} :
    i ∈ extent.indices ↔ extent.start ≤ i ∧ i < extent.start + extent.length := Iff.rfl

instance (extent : Extent) (i : ℕ) : Decidable (i ∈ extent.indices) :=
  inferInstanceAs (Decidable (extent.start ≤ i ∧ i < extent.start + extent.length))

variable {Key : Type*}

/-- Every owner's extent is marked, and no two owners share an index. -/
structure Placed (marked : ℕ → Prop) (total : ℕ) (owned : Key → Option Extent) : Prop where
  started : ∀ key extent, owned key = some extent → extent.start < total
  covered : ∀ key extent, owned key = some extent →
    ∀ i ∈ extent.indices, i < total → marked i
  separated : ∀ first second left right, first ≠ second → owned first = some left →
    owned second = some right → Disjoint left.indices right.indices

variable {marked next : ℕ → Prop} {total : ℕ} {owned : Key → Option Extent}

/-- Nothing is owned at first. -/
theorem placed_none : Placed marked total fun _ : Key => none where
  started _ _ absent := by cases absent
  covered _ _ absent := by cases absent
  separated _ _ _ _ _ absent := by cases absent

/-- Marking further indices keeps every owned extent placed. -/
theorem Placed.mono (placed : Placed marked total owned)
    (kept : ∀ i < total, marked i → next i) : Placed next total owned where
  started := placed.started
  covered key extent held i member inner :=
    kept i inner (placed.covered key extent held i member inner)
  separated := placed.separated

/-- An extent whose inner indices are unmarked is disjoint from every owned one. -/
theorem Placed.disjoint_of_unmarked (placed : Placed marked total owned) {key : Key}
    {extent fresh : Extent} (held : owned key = some extent) (inside : fresh.start < total)
    (unmarked : ∀ i ∈ fresh.indices, i < total → ¬ marked i) :
    Disjoint fresh.indices extent.indices := by
  rw [Set.disjoint_left]
  intro i mine theirs
  have start := placed.started key extent held
  rw [Extent.mem_indices] at mine theirs
  rcases Nat.lt_or_ge i total with inner | outer
  · exact unmarked i mine inner (placed.covered key extent held i theirs inner)
  · refine unmarked (total - 1) ⟨by omega, by omega⟩ (by omega) ?_
    exact placed.covered key extent held (total - 1) ⟨by omega, by omega⟩ (by omega)

variable [DecidableEq Key]

/-- A new owner gets unmarked indices, which are marked then. -/
theorem Placed.allocate (placed : Placed marked total owned) (key : Key) {fresh : Extent}
    (inside : fresh.start < total) (unmarked : ∀ i ∈ fresh.indices, i < total → ¬ marked i)
    (kept : ∀ i < total, marked i → next i) (covers : ∀ i ∈ fresh.indices, i < total → next i) :
    Placed next total (Function.update owned key (some fresh)) where
  started other extent held := by
    by_cases same : other = key
    · rw [same, Function.update_self] at held
      cases held
      exact inside
    · rw [Function.update_of_ne same] at held
      exact placed.started other extent held
  covered other extent held i member inner := by
    by_cases same : other = key
    · rw [same, Function.update_self] at held
      cases held
      exact covers i member inner
    · rw [Function.update_of_ne same] at held
      exact kept i inner (placed.covered other extent held i member inner)
  separated first second left right distinct leftHeld rightHeld := by
    by_cases leftNew : first = key
    · have rightOld : second ≠ key := fun same => distinct (leftNew.trans same.symm)
      rw [leftNew, Function.update_self] at leftHeld
      rw [Function.update_of_ne rightOld] at rightHeld
      cases leftHeld
      exact placed.disjoint_of_unmarked rightHeld inside unmarked
    · rw [Function.update_of_ne leftNew] at leftHeld
      by_cases rightNew : second = key
      · rw [rightNew, Function.update_self] at rightHeld
        cases rightHeld
        exact (placed.disjoint_of_unmarked leftHeld inside unmarked).symm
      · rw [Function.update_of_ne rightNew] at rightHeld
        exact placed.separated first second left right distinct leftHeld rightHeld

/-- An owner leaves, and only its own marks go. -/
theorem Placed.release (placed : Placed marked total owned) (key : Key) {extent : Extent}
    (held : owned key = some extent) (kept : ∀ i < total, i ∉ extent.indices → marked i → next i) :
    Placed next total (Function.update owned key none) := by
  have older : ∀ other found, Function.update owned key none other = some found →
      other ≠ key ∧ owned other = some found := by
    intro other found present
    by_cases same : other = key
    · rw [same, Function.update_self] at present
      cases present
    · exact ⟨same, by rwa [Function.update_of_ne same] at present⟩
  constructor
  · intro other found present
    exact placed.started other found (older other found present).2
  · intro other found present i member inner
    obtain ⟨different, before⟩ := older other found present
    have apart := placed.separated other key found extent different before held
    exact kept i inner (Set.disjoint_left.mp apart member)
      (placed.covered other found before i member inner)
  · intro first second left right distinct leftHeld rightHeld
    exact placed.separated first second left right distinct (older first left leftHeld).2
      (older second right rightHeld).2

end Extents
