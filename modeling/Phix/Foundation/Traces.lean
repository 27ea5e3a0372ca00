import Mathlib.Tactic.Common

/-! # Traces of a deterministic labelled system

A system steps a state by an operation. `Traces.Along` asks a property of every
operation of a list in the state it is taken in, and `Traces.Throughout` asks a
property of every state visited, the first and the last included. An invariant
kept by the operations of a trace holds in the state reached and throughout
(`Traces.invariant_exec`, `Traces.throughout_of_invariant`); where an operation
that violates a condition also breaks the property, the property holds throughout
exactly on the traces that meet the condition (`Traces.throughout_iff_along`).
-/

namespace Traces

variable {State Op : Type*} (step : State → Op → State)

/-- The state reached by a list of operations. -/
def exec : State → List Op → State
  | state, [] => state
  | state, op :: ops => exec (step state op) ops

/-- Every operation satisfies the property in the state it is taken in. -/
def Along (property : State → Op → Prop) : State → List Op → Prop
  | _, [] => True
  | state, op :: ops => property state op ∧ Along property (step state op) ops

/-- Every state visited satisfies the property. -/
def Throughout (property : State → Prop) : State → List Op → Prop
  | state, [] => property state
  | state, op :: ops => property state ∧ Throughout property (step state op) ops

variable {step} {legal condition : State → Op → Prop} {property : State → Prop}

theorem along_of_forall (always : ∀ state op, legal state op) (start : State) (ops : List Op) :
    Along step legal start ops := by
  induction ops generalizing start with
  | nil => trivial
  | cons op ops ih => exact ⟨always start op, ih (step start op)⟩

theorem along_of_mem {ops : List Op} (always : ∀ op ∈ ops, ∀ state, legal state op)
    (start : State) : Along step legal start ops := by
  induction ops generalizing start with
  | nil => trivial
  | cons op ops ih =>
      exact ⟨always op (List.mem_cons_self ..) start,
        ih (fun other member => always other (List.mem_cons_of_mem _ member)) (step start op)⟩

theorem Along.and {start : State} {ops : List Op} (left : Along step legal start ops)
    (right : Along step condition start ops) :
    Along step (fun state op => legal state op ∧ condition state op) start ops := by
  induction ops generalizing start with
  | nil => trivial
  | cons op ops ih => exact ⟨⟨left.1, right.1⟩, ih left.2 right.2⟩

theorem exec_append (start : State) (left right : List Op) :
    exec step start (left ++ right) = exec step (exec step start left) right := by
  induction left generalizing start with
  | nil => rfl
  | cons op ops ih => exact ih (step start op)

theorem Along.append_iff {start : State} {left right : List Op} :
    Along step legal start (left ++ right) ↔
      Along step legal start left ∧ Along step legal (exec step start left) right := by
  induction left generalizing start with
  | nil => simp [Along, exec]
  | cons op ops ih => simp [Along, exec, ih, and_assoc]

/-- A property holds along a trace when it holds of each operation in the state its
predecessors reach. -/
theorem along_iff_forall_split {start : State} {ops : List Op} :
    Along step legal start ops ↔
      ∀ before op after, ops = before ++ op :: after → legal (exec step start before) op := by
  constructor
  · rintro along before op after rfl
    exact (Along.append_iff.mp along).2.1
  · intro each
    induction ops generalizing start with
    | nil => trivial
    | cons op ops ih =>
        refine ⟨each [] op ops rfl, ih fun before next after split => ?_⟩
        exact each (op :: before) next after (by rw [split, List.cons_append])

theorem invariant_exec (invariant : State → Prop)
    (kept : ∀ state op, invariant state → legal state op → invariant (step state op))
    {start : State} (initial : invariant start) {ops : List Op}
    (permitted : Along step legal start ops) : invariant (exec step start ops) := by
  induction ops generalizing start with
  | nil => exact initial
  | cons op ops ih => exact ih (kept start op initial permitted.1) permitted.2

/-- Where an operation taken in the invariant has a property and keeps the invariant, every
operation of a trace has the property. -/
theorem along_of_invariant (invariant : State → Prop)
    (kept : ∀ state op, invariant state → legal state op →
      condition state op ∧ invariant (step state op))
    {start : State} (initial : invariant start) {ops : List Op}
    (permitted : Along step legal start ops) : Along step condition start ops := by
  induction ops generalizing start with
  | nil => trivial
  | cons op ops ih =>
      obtain ⟨met, after⟩ := kept start op initial permitted.1
      exact ⟨met, ih after permitted.2⟩

theorem throughout_of_invariant (invariant : State → Prop)
    (kept : ∀ state op, invariant state → legal state op → invariant (step state op))
    (implies : ∀ state, invariant state → property state) {start : State}
    (initial : invariant start) {ops : List Op} (permitted : Along step legal start ops) :
    Throughout step property start ops := by
  induction ops generalizing start with
  | nil => exact implies start initial
  | cons op ops ih =>
      exact ⟨implies start initial, ih (kept start op initial permitted.1) permitted.2⟩

theorem Throughout.start {start : State} {ops : List Op}
    (throughout : Throughout step property start ops) : property start := by
  cases ops with
  | nil => exact throughout
  | cons op ops => exact throughout.1

/-- When the operations that meet the condition keep an invariant stronger than the
property, and every other legal operation breaks the property at once, the property
holds throughout a trace exactly when each of its operations meets the condition. -/
theorem throughout_iff_along (invariant : State → Prop)
    (kept : ∀ state op, invariant state → legal state op → condition state op →
      invariant (step state op))
    (broken : ∀ state op, invariant state → legal state op → ¬ condition state op →
      ¬ property (step state op))
    (implies : ∀ state, invariant state → property state) {start : State}
    (initial : invariant start) {ops : List Op} (permitted : Along step legal start ops) :
    Throughout step property start ops ↔ Along step condition start ops := by
  induction ops generalizing start with
  | nil => exact iff_of_true (implies start initial) trivial
  | cons op ops ih =>
      constructor
      · rintro ⟨_, rest⟩
        by_cases met : condition start op
        · exact ⟨met, (ih (kept start op initial permitted.1 met) permitted.2).mp rest⟩
        · exact absurd rest.start (broken start op initial permitted.1 met)
      · rintro ⟨met, rest⟩
        exact ⟨implies start initial,
          (ih (kept start op initial permitted.1 met) permitted.2).mpr rest⟩

end Traces
