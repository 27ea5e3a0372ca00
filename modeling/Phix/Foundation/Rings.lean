import Mathlib.Data.Nat.ModEq
import Mathlib.Logic.Function.Basic

/-! # Rings of slots

A ring is an array whose indices are taken modulo its size. `Rings.view` lists its slots from a
reader on; a write changes one slot of the view (`Rings.view_write`), and when the reader
advances the view moves up by one, with the slot it leaves behind as the last
(`Rings.view_advance`, `Rings.view_last`).
-/

namespace Rings

variable {Content : Type*}

/-- The slots of a ring in order from the reader on. -/
def view (size : ℕ) (slots : ℕ → Content) (reader i : ℕ) : Content := slots ((reader + i) % size)

/-- Readers that differ by full turns have the same view. -/
theorem view_congr {size : ℕ} (slots : ℕ → Content) {reader other : ℕ}
    (turns : reader ≡ other [MOD size]) (i : ℕ) :
    view size slots reader i = view size slots other i := by
  unfold view
  rw [Nat.ModEq.add_right i turns]

theorem view_write {size : ℕ} (slots : ℕ → Content) (reader : ℕ) (content : Content) {i j : ℕ}
    (inside : i < size) (bound : j < size) :
    view size (Function.update slots ((reader + i) % size) content) reader j =
      if j = i then content else view size slots reader j := by
  unfold view
  rw [Function.update_apply]
  refine if_congr ⟨fun same => ?_, fun same => by rw [same]⟩ rfl rfl
  have turns : j ≡ i [MOD size] := Nat.ModEq.add_left_cancel' reader same
  rwa [Nat.ModEq, Nat.mod_eq_of_lt bound, Nat.mod_eq_of_lt inside] at turns

theorem view_advance (size : ℕ) (slots : ℕ → Content) (reader i : ℕ) :
    view size slots (reader + 1) i = view size slots reader (i + 1) := by
  unfold view
  rw [Nat.add_assoc, Nat.add_comm 1 i]

theorem view_last {size : ℕ} (slots : ℕ → Content) (reader : ℕ) :
    view size slots reader size = view size slots reader 0 := by
  unfold view
  rw [Nat.add_mod_right, Nat.add_zero]

/-- Every slot is in the view. -/
theorem exists_view {size : ℕ} (slots : ℕ → Content) (reader : ℕ) {s : ℕ} (inside : s < size) :
    ∃ i < size, (reader + i) % size = s ∧ slots s = view size slots reader i := by
  have positive : 0 < size := by omega
  refine ⟨(s + (size - reader % size)) % size, Nat.mod_lt _ positive, ?_⟩
  have place : (reader + (s + (size - reader % size)) % size) % size = s := by
    have below := Nat.mod_lt reader positive
    rw [Nat.add_mod_mod, ← Nat.mod_add_mod]
    rw [show reader % size + (s + (size - reader % size)) = s + size by omega, Nat.add_mod_right,
      Nat.mod_eq_of_lt inside]
  refine ⟨place, ?_⟩
  unfold view
  rw [place]

end Rings
