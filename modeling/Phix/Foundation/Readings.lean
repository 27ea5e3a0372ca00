import Mathlib.Tactic.Common

/-! # Computations that read a memory

A `Reading` asks for one cell after the other and goes on by what it has read. On a memory it
has a value, and a footprint: the addresses it reads, in their order. `Reading.Within` says that
the footprint lies in a region; it is compositional (`Reading.within_bind`), and memories that
agree on the region cannot be told apart (`Reading.Within.congr`).
-/

universe u

/-- A computation that reads cells by their addresses. -/
inductive Reading (Address Cell α : Type u) : Type u where
  | done (result : α)
  | read (p : Address) (next : Cell → Reading Address Cell α)

namespace Reading

variable {Address Cell α β : Type u}

def bind : Reading Address Cell α → (α → Reading Address Cell β) → Reading Address Cell β
  | done result, f => f result
  | read p next, f => read p fun cell => (next cell).bind f

instance : Monad (Reading Address Cell) where
  pure := done
  bind := bind

/-- Read one cell. -/
def cell (p : Address) : Reading Address Cell Cell := read p done

/-- What the computation returns on a memory. -/
def value (memory : Address → Cell) : Reading Address Cell α → α
  | done result => result
  | read p next => (next (memory p)).value memory

/-- The addresses that the computation reads. -/
def footprint (memory : Address → Cell) : Reading Address Cell α → List Address
  | done _ => []
  | read p next => p :: (next (memory p)).footprint memory

/-- The computation reads addresses of the region only. -/
def Within (region : Address → Prop) (memory : Address → Cell) (reading : Reading Address Cell α) :
    Prop :=
  ∀ p ∈ reading.footprint memory, region p

variable {memory other : Address → Cell} {region : Address → Prop}

@[simp]
theorem value_pure (result : α) :
    (pure result : Reading Address Cell α).value memory = result := by
  simp only [pure, value]

@[simp]
theorem value_cell (p : Address) : (cell p : Reading Address Cell Cell).value memory =
    memory p := by
  simp only [cell, value]

@[simp]
theorem value_bind (reading : Reading Address Cell α) (f : α → Reading Address Cell β) :
    (reading >>= f).value memory = (f (reading.value memory)).value memory := by
  change (reading.bind f).value memory = _
  induction reading with
  | done result => rfl
  | read p next ih => exact ih (memory p)

@[simp]
theorem within_pure (result : α) : (pure result : Reading Address Cell α).Within region memory :=
  fun _ absent => absurd absent List.not_mem_nil

theorem within_read (p : Address) (next : Cell → Reading Address Cell α) :
    (read p next).Within region memory ↔ region p ∧ (next (memory p)).Within region memory :=
  List.forall_mem_cons

@[simp]
theorem within_cell (p : Address) :
    (cell p : Reading Address Cell Cell).Within region memory ↔ region p :=
  (within_read p done).trans (and_iff_left (within_pure (memory p)))

@[simp]
theorem within_bind (reading : Reading Address Cell α) (f : α → Reading Address Cell β) :
    (reading >>= f).Within region memory ↔
      reading.Within region memory ∧ (f (reading.value memory)).Within region memory := by
  change (reading.bind f).Within region memory ↔ _
  induction reading with
  | done result => exact (and_iff_right (within_pure result)).symm
  | read p next ih =>
      simp only [bind, value, within_read, ih, and_assoc]

@[simp]
theorem value_ite (condition : Prop) [Decidable condition] (first second : Reading Address Cell α) :
    (if condition then first else second).value memory =
      if condition then first.value memory else second.value memory := by
  split <;> rfl

@[simp]
theorem within_ite (condition : Prop) [Decidable condition]
    (first second : Reading Address Cell α) :
    (if condition then first else second).Within region memory ↔
      (condition → first.Within region memory) ∧ (¬ condition → second.Within region memory) := by
  split
  · rename_i holds
    exact ⟨fun within => ⟨fun _ => within, fun fails => absurd holds fails⟩,
      fun both => both.1 holds⟩
  · rename_i fails
    exact ⟨fun within => ⟨fun holds => absurd holds fails, fun _ => within⟩,
      fun both => both.2 fails⟩

/-- What is read within a region is the same on memories that agree there. -/
theorem Within.congr {reading : Reading Address Cell α} (within : reading.Within region memory)
    (agree : ∀ p, region p → other p = memory p) :
    reading.value other = reading.value memory ∧
      reading.footprint other = reading.footprint memory := by
  induction reading with
  | done result => exact ⟨rfl, rfl⟩
  | read p next ih =>
      obtain ⟨here, rest⟩ := (within_read p next).mp within
      obtain ⟨value, footprint⟩ := ih (memory p) rest
      simp only [Reading.value, Reading.footprint, agree p here]
      exact ⟨value, congrArg (p :: ·) footprint⟩

/-- On the memory the computation returns the result, and it reads the region only. -/
structure Yields (region : Address → Prop) (memory : Address → Cell)
    (reading : Reading Address Cell α) (result : α) : Prop where
  value : reading.value memory = result
  within : reading.Within region memory

namespace Yields

variable {reading : Reading Address Cell α} {result : α} {f : α → Reading Address Cell β} {last : β}

theorem pure (result : α) : Yields region memory (Pure.pure result) result :=
  ⟨value_pure result, within_pure result⟩

/-- Without a region to keep to, a computation yields its value. -/
theorem anywhere (reading : Reading Address Cell α) :
    Yields (fun _ => True) memory reading (reading.value memory) :=
  ⟨rfl, fun _ _ => trivial⟩

theorem cell {p : Address} (inside : region p) : Yields region memory (cell p) (memory p) :=
  ⟨value_cell p, (within_cell p).mpr inside⟩

theorem bind (first : Yields region memory reading result)
    (rest : Yields region memory (f result) last) : Yields region memory (reading >>= f) last := by
  obtain ⟨rfl, within⟩ := first
  exact ⟨(value_bind reading f).trans rest.value, (within_bind reading f).mpr ⟨within, rest.within⟩⟩

end Yields

/-- A computation that starts by reading a cell. -/
theorem yields_cell_bind {p : Address} {f : Cell → Reading Address Cell β} {last : β} :
    Yields region memory (cell p >>= f) last ↔ region p ∧
        Yields region memory (f (memory p)) last := by
  constructor
  · rintro ⟨value, within⟩
    rw [value_bind, value_cell] at value
    rw [within_bind, within_cell, value_cell] at within
    exact ⟨within.1, value, within.2⟩
  · rintro ⟨here, rest⟩
    exact Yields.bind (Yields.cell here) rest

theorem yields_pure {result last : α} :
    Yields region memory (Pure.pure result) last ↔ result = last :=
  ⟨fun yields => (value_pure result).symm.trans yields.value, fun same => same ▸ Yields.pure result⟩

/-- Go on with a result, if there is one. -/
def andThen (reading : Reading Address Cell (Option α)) (f : α → Reading Address Cell (Option β)) :
    Reading Address Cell (Option β) :=
  reading.bind fun result =>
    match result with
    | none => done none
    | some result => f result

theorem Yields.andThen {reading : Reading Address Cell (Option α)} {result : α}
    {f : α → Reading Address Cell (Option β)} {last : Option β}
    (first : Yields region memory reading (some result))
    (rest : Yields region memory (f result) last) :
    Yields region memory (reading.andThen f) last :=
  Yields.bind first rest

end Reading
