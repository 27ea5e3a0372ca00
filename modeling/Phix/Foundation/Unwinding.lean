import Phix.Foundation.Traces

/-! # Unwinding

A trace is watched through some of its operations. Where the watched ones answer the same in two
related states and keep them related, and the others keep a state related to one that does
not move, leaving the others out of a trace changes no answer.
-/

namespace Unwinding

open Traces

variable {State Op Answer : Type*} (step : State → Op → State) (answer : State → Op → Answer)
  (watched : Op → Bool)

/-- The answers to the watched operations of a trace. -/
def observed : State → List Op → List Answer
  | _, [] => []
  | state, op :: ops =>
      if watched op then answer state op :: observed (step state op) ops
      else observed (step state op) ops

variable {step answer watched} {legal : State → Op → Prop}

/-- The operations that are not watched can be left out. -/
theorem observed_filter (related : State → State → Prop)
    (seen : ∀ state other op, related state other → legal state op → watched op = true →
      answer state op = answer other op ∧ related (step state op) (step other op))
    (unseen : ∀ state other op, related state other → legal state op → watched op = false →
      related (step state op) other)
    {start other : State} (initial : related start other) {ops : List Op}
    (permitted : Along step legal start ops) :
    observed step answer watched start ops =
      observed step answer watched other (ops.filter watched) := by
  induction ops generalizing start other with
  | nil => rfl
  | cons op ops ih =>
      obtain ⟨isLegal, rest⟩ := permitted
      cases kind : watched op with
      | true =>
          obtain ⟨same, kept⟩ := seen start other op initial isLegal kind
          rw [List.filter_cons_of_pos kind, observed, observed, if_pos kind, if_pos kind, same,
            ih kept rest]
      | false =>
          have kept := unseen start other op initial isLegal kind
          rw [List.filter_cons_of_neg (by simp [kind]), observed, if_neg (by simp [kind]),
            ih kept rest]

end Unwinding
