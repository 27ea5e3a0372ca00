import Phix.Foundation.ByteMemory

/-! # Copy loops

A loop that copies bytes upwards, one at a time. It stores what the source held before the loop
as long as no byte of the source is overwritten before it is read (`ByteMemory.copy_eq`).
-/

namespace ByteMemory

/-- Copy `n` bytes upwards from `src` to `dst`. -/
def copy : (n : ℕ) → ByteMemory → (src dst : BitVec 32) → ByteMemory
  | 0, memory, _, _ => memory
  | n + 1, memory, src, dst =>
      copy n (Function.update memory dst (memory src)) (src + 1) (dst + 1)

private theorem add_succ (p : BitVec 32) (n : ℕ) :
    p + 1 + BitVec.ofNat 32 n = p + BitVec.ofNat 32 (n + 1) := by
  rw [BitVec.ofNat_add, BitVec.add_comm (BitVec.ofNat 32 n), ← BitVec.add_assoc]
  rfl

theorem copy_eq (memory : ByteMemory) {src dst : BitVec 32} {n : ℕ}
    (unread : ∀ i < n, ∀ j < i, src + BitVec.ofNat 32 i ≠ dst + BitVec.ofNat 32 j) :
    copy n memory src dst = memory.write dst (fun i => memory (src + BitVec.ofNat 32 i)) n := by
  induction n generalizing memory src dst with
  | zero => rfl
  | succ n ih =>
      have later (i : ℕ) (inside : i < n) (j : ℕ) (below : j < i) :
          src + 1 + BitVec.ofNat 32 i ≠ dst + 1 + BitVec.ofNat 32 j := by
        rw [add_succ, add_succ]
        exact unread (i + 1) (by omega) (j + 1) (by omega)
      have kept (i : ℕ) (inside : i < n) :
          Function.update memory dst (memory src) (src + 1 + BitVec.ofNat 32 i) =
            memory (src + BitVec.ofNat 32 (1 + i)) := by
        rw [add_succ, Nat.add_comm 1 i]
        refine Function.update_of_ne ?_ ..
        have first := unread (i + 1) (by omega) 0 (by omega)
        rw [BitVec.add_zero] at first
        exact first
      have one : memory.write dst (fun i => memory (src + BitVec.ofNat 32 i)) 1 =
          Function.update memory dst (memory src) := by
        change Function.update memory (dst + 0) (memory (src + 0)) = _
        rw [add_zero, add_zero]
      rw [copy, ih _ later, write_congr _ _ kept, ← one, Nat.add_comm n 1]
      exact memory.write_append dst (fun i => memory (src + BitVec.ofNat 32 i)) 1 n

end ByteMemory
