import Mathlib.Data.List.Sort
import Mathlib.Tactic.Common

/-! # The tokens of a text

Of the characters `0`, ..., `n - 1` of a text some are separators. Its tokens are the maximal
runs of the others. A tokeniser that takes the next run from where it is, again and again,
(`Tokens.RunsFrom`) finds all of them in their order (`Tokens.RunsFrom.lists`), and there is one
such list only (`Tokens.Lists.unique`).
-/

namespace Tokens

variable {separator : ℕ → Prop} {n i a b : ℕ}

/-- The characters `a`, ..., `b - 1` are no separators, and there is no longer such run. -/
structure MaximalRun (separator : ℕ → Prop) (n a b : ℕ) : Prop where
  nonempty : a < b
  inside : b ≤ n
  plain : ∀ j, a ≤ j → j < b → ¬ separator j
  before : a = 0 ∨ separator (a - 1)
  behind : b = n ∨ separator b

/-- The list has every maximal run once, from left to right. -/
structure Lists (separator : ℕ → Prop) (n : ℕ) (runs : List (ℕ × ℕ)) : Prop where
  sorted : runs.Pairwise fun first second => first.2 < second.1
  mem_iff : ∀ a b, (a, b) ∈ runs ↔ MaximalRun separator n a b

/-- The first run of characters from `i` on that are no separators. -/
structure NextRun (separator : ℕ → Prop) (n i a b : ℕ) : Prop where
  start : i ≤ a
  skipped : ∀ j, i ≤ j → j < a → separator j
  nonempty : a < b
  inside : b ≤ n
  plain : ∀ j, a ≤ j → j < b → ¬ separator j
  behind : b = n ∨ separator b

/-- A run that ends at `b` is followed by a separator, or the text ends there. -/
def resume (n b : ℕ) : ℕ := min (b + 1) n

/-- The runs that a tokeniser takes from `i` on. -/
inductive RunsFrom (separator : ℕ → Prop) (n : ℕ) : ℕ → List (ℕ × ℕ) → Prop where
  | none {i : ℕ} (skipped : ∀ j, i ≤ j → j < n → separator j) : RunsFrom separator n i []
  | run {i a b : ℕ} {rest : List (ℕ × ℕ)} (next : NextRun separator n i a b)
      (tail : RunsFrom separator n (resume n b) rest) : RunsFrom separator n i ((a, b) :: rest)

/-- A run starts at `i` if the character there is no separator. -/
def Boundary (separator : ℕ → Prop) (n i : ℕ) : Prop := i = 0 ∨ separator (i - 1) ∨ n ≤ i

theorem exists_nextRun (separator : ℕ → Prop) (n i : ℕ) :
    (∀ j, i ≤ j → j < n → separator j) ∨ ∃ a b, NextRun separator n i a b := by
  classical
  by_cases blank : ∀ j, i ≤ j → j < n → separator j
  · exact .inl blank
  right
  push Not at blank
  have start := Nat.find_spec blank
  have skipped : ∀ j, i ≤ j → j < Nat.find blank → separator j := by
    intro j lower upper
    by_contra plain
    exact Nat.find_min blank upper ⟨lower, lt_trans upper start.2.1, plain⟩
  have ends : ∃ b, Nat.find blank ≤ b ∧ (b = n ∨ separator b) := ⟨n, start.2.1.le, .inl rfl⟩
  have stop := Nat.find_spec ends
  have plain : ∀ j, Nat.find blank ≤ j → j < Nat.find ends → ¬ separator j := fun j lower upper
    found => Nat.find_min ends upper ⟨lower, .inr found⟩
  refine ⟨Nat.find blank, Nat.find ends, start.1, skipped, ?_, ?_, plain, stop.2⟩
  · refine lt_of_le_of_ne stop.1 fun same => ?_
    rcases stop.2 with atEnd | found
    · exact absurd start.2.1 (by omega)
    · exact start.2.2 (same ▸ found)
  · exact Nat.find_min' ends ⟨start.2.1.le, .inl rfl⟩

theorem NextRun.maximalRun (next : NextRun separator n i a b) (boundary : Boundary separator n i) :
    MaximalRun separator n a b := by
  have below := next.nonempty
  have inside := next.inside
  refine ⟨below, inside, next.plain, ?_, next.behind⟩
  rcases Nat.eq_or_lt_of_le next.start with rfl | later
  · exact boundary.imp id fun rest => rest.resolve_right (by omega)
  · exact .inr (next.skipped (a - 1) (by omega) (by omega))

theorem NextRun.boundary (next : NextRun separator n i a b) :
    Boundary separator n (resume n b) := by
  have inside := next.inside
  unfold Boundary resume
  rcases next.behind with atEnd | found
  · exact .inr (.inr (by omega))
  · by_cases last : b = n
    · exact .inr (.inr (by omega))
    · have position : min (b + 1) n - 1 = b := by omega
      exact .inr (.inl (position.symm ▸ found))

/-- The next run is the first of the maximal runs from `i` on. -/
theorem NextRun.eq_or_resume {c d : ℕ} (next : NextRun separator n i a b)
    (maximal : MaximalRun separator n c d) (start : i ≤ c) : (c = a ∧ d = b) ∨ resume n b ≤ c := by
  have first := maximal.plain c (Nat.le_refl c) maximal.nonempty
  have nonempty := maximal.nonempty
  have inside := maximal.inside
  have notBefore : a ≤ c := by
    by_contra earlier
    exact first (next.skipped c start (not_le.mp earlier))
  rcases Nat.eq_or_lt_of_le notBefore with same | later
  · left
    refine ⟨same.symm, Nat.le_antisymm ?_ ?_⟩
    · by_contra longer
      have found := next.behind.resolve_left (by omega)
      exact maximal.plain b (by have := next.nonempty; omega) (by omega) found
    · by_contra shorter
      have found := maximal.behind.resolve_left (by have := next.inside; omega)
      exact next.plain d (by omega) (by omega) found
  · right
    have outside : b ≤ c := by
      by_contra within
      have found := maximal.before.resolve_left (by omega)
      exact next.plain (c - 1) (by omega) (by omega) found
    have notAt : b ≠ c := by
      rintro rfl
      exact first (next.behind.resolve_left (by omega))
    unfold resume
    omega

theorem RunsFrom.mem_iff {runs : List (ℕ × ℕ)} (from_i : RunsFrom separator n i runs)
    (boundary : Boundary separator n i) (a b : ℕ) :
    (a, b) ∈ runs ↔ i ≤ a ∧ MaximalRun separator n a b := by
  induction from_i with
  | none skipped =>
      refine iff_of_false List.not_mem_nil fun ⟨start, maximal⟩ => ?_
      have first := maximal.plain a (Nat.le_refl a) maximal.nonempty
      exact first (skipped a start (lt_of_lt_of_le maximal.nonempty maximal.inside))
  | @run i c d rest next tail ih =>
      have nonempty := next.nonempty
      have start := next.start
      rw [List.mem_cons, ih next.boundary]
      constructor
      · rintro (same | ⟨later, maximal⟩)
        · cases same
          exact ⟨start, next.maximalRun boundary⟩
        · refine ⟨?_, maximal⟩
          have inside := next.inside
          unfold resume at later
          omega
      · rintro ⟨lower, maximal⟩
        rcases next.eq_or_resume maximal lower with same | later
        · exact .inl (Prod.ext same.1 same.2)
        · exact .inr ⟨later, maximal⟩

theorem RunsFrom.sorted {runs : List (ℕ × ℕ)} (from_i : RunsFrom separator n i runs) :
    runs.Pairwise fun first second => first.2 < second.1 := by
  induction from_i with
  | none skipped => exact .nil
  | @run i c d rest next tail ih =>
      refine List.pairwise_cons.mpr ⟨fun other listed => ?_, ih⟩
      obtain ⟨later, maximal⟩ := (tail.mem_iff next.boundary other.1 other.2).mp listed
      have nonempty := maximal.nonempty
      have inside := maximal.inside
      unfold resume at later
      change d < other.1
      omega

/-- **A tokeniser that takes one run after the other finds all of them.** -/
theorem RunsFrom.lists {runs : List (ℕ × ℕ)} (from_zero : RunsFrom separator n 0 runs) :
    Lists separator n runs := by
  refine ⟨from_zero.sorted, fun a b => ?_⟩
  rw [from_zero.mem_iff (.inl rfl)]
  exact and_iff_right (Nat.zero_le a)

theorem Lists.unique {runs others : List (ℕ × ℕ)} (first : Lists separator n runs)
    (second : Lists separator n others) : runs = others := by
  have ordered : ∀ {list : List (ℕ × ℕ)}, Lists separator n list →
      list.Pairwise fun left right => left.1 < right.1 := by
    intro list lists
    refine lists.sorted.imp_of_mem fun {left right} listed _ apart => ?_
    exact lt_trans ((lists.mem_iff left.1 left.2).mp listed).nonempty apart
  have irrefl : Std.Irrefl fun left right : ℕ × ℕ => left.1 < right.1 :=
    ⟨fun run => lt_irrefl run.1⟩
  have antisymm : Std.Antisymm fun left right : ℕ × ℕ => left.1 < right.1 :=
    ⟨fun left right below above => absurd above (lt_asymm below)⟩
  refine (ordered first).eq_of_mem_iff (ordered second) fun run => ?_
  exact (first.mem_iff run.1 run.2).trans (second.mem_iff run.1 run.2).symm

end Tokens
