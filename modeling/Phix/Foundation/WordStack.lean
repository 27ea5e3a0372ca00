import Phix.Foundation.ByteMemory

/-! # A stack of words in a byte memory

Words pushed below an address, each four bytes below the one before. `ByteMemory.Pushed` says
that a memory holds the words, the latest first, and differs from the memory at the start in
the bytes of the stack only; pushing and popping keep it (`ByteMemory.Pushed.push`,
`ByteMemory.Pushed.pop`), and words apart from the stack are still there
(`ByteMemory.Pushed.load32_of_apart`).
-/

namespace ByteMemory

/-- The stack pointer with `n` words below `top`. -/
def stackPointer (top : BitVec 32) : ℕ → BitVec 32
  | 0 => top
  | n + 1 => stackPointer top n - 4

/-- The byte is none of the `room` bytes below `top`. -/
def ApartFromStack (top : BitVec 32) (room : ℕ) (x : BitVec 32) : Prop :=
  room ≤ (top - 1 - x).toNat

/-- `memory` is `start` with the words pushed below `top`. -/
structure Pushed (start memory : ByteMemory) (top : BitVec 32) (room : ℕ)
    (words : List (BitVec 32)) : Prop where
  held : ∀ i word, words[i]? = some word →
    memory.load32 (stackPointer top (words.length - i)) = word
  outside : ∀ x, ApartFromStack top room x → memory x = start x

variable {start memory : ByteMemory} {top : BitVec 32} {room : ℕ} {words : List (BitVec 32)}
  {word : BitVec 32}

theorem stackPointer_eq (top : BitVec 32) (n : ℕ) :
    stackPointer top n = top - BitVec.ofNat 32 (4 * n) := by
  induction n with
  | zero => simp [stackPointer]
  | succ n ih =>
      rw [stackPointer, ih, Nat.mul_succ, BitVec.ofNat_add, sub_add_eq_sub_sub]
      rfl

theorem stackPointer_add (top : BitVec 32) (n : ℕ) :
    stackPointer top (n + 1) + 4 = stackPointer top n := by
  rw [stackPointer, BitVec.sub_add_cancel]

theorem stackPointer_sub (top : BitVec 32) {n i : ℕ} (within : i ≤ n) :
    stackPointer top n + BitVec.ofNat 32 (4 * i) = stackPointer top (n - i) := by
  have split : BitVec.ofNat 32 (4 * n) = BitVec.ofNat 32 (4 * (n - i)) + BitVec.ofNat 32
      (4 * i) := by
    rw [← BitVec.ofNat_add, ← Nat.mul_add, Nat.sub_add_cancel within]
  rw [stackPointer_eq, stackPointer_eq, split, sub_add_eq_sub_sub, BitVec.sub_add_cancel]

namespace Pushed

theorem nil (start : ByteMemory) (top : BitVec 32) (room : ℕ) : Pushed start start top room [] where
  held i word absent := by simp at absent
  outside _ _ := rfl

theorem push (pushed : Pushed start memory top room words) (fits : 4 * words.length + 4 ≤ room)
    (bounded : room < 2 ^ 31) (word : BitVec 32) :
    Pushed start (memory.store32 (stackPointer top (words.length + 1)) word) top room
      (word :: words) where
  held i found present := by
    cases i with
    | zero =>
        obtain rfl : word = found := by simpa using present
        exact load32_store32_self ..
    | succ i =>
        have inside : i < words.length :=
          Nat.lt_of_succ_lt_succ (List.getElem?_eq_some_iff.mp present).1
        have older := pushed.held i found present
        rw [List.length_cons, Nat.add_sub_add_right, load32_store32_of_far, older]
        · rw [stackPointer_eq, stackPointer_eq, sub_sub_sub_cancel_left, BitVec.toNat_sub,
            BitVec.toNat_ofNat, BitVec.toNat_ofNat]
          omega
        · rw [stackPointer_eq, stackPointer_eq, sub_sub_sub_cancel_left, BitVec.toNat_sub,
            BitVec.toNat_ofNat, BitVec.toNat_ofNat]
          omega
  outside x apart := by
    have size : (BitVec.ofNat 32 (4 * (words.length + 1))).toNat = 4 * (words.length + 1) := by
      rw [BitVec.toNat_ofNat]
      omega
    have one : (1 : BitVec 32).toNat = 1 := rfl
    have := top.isLt
    have := x.isLt
    have apart' := apart
    unfold ApartFromStack at apart'
    rw [BitVec.toNat_sub, BitVec.toNat_sub, one] at apart'
    -- Below the stack pointer or above the stack, both modulo `2 ^ 32`.
    have far : 4 ≤ (x - (top - BitVec.ofNat 32 (4 * (words.length + 1)))).toNat := by
      rw [BitVec.toNat_sub, BitVec.toNat_sub, size]
      omega
    rw [← stackPointer_eq] at far
    rw [memory.store32_apply_of_far word far, pushed.outside x apart]

theorem pop (pushed : Pushed start memory top room (word :: words)) :
    Pushed start memory top room words where
  held i found present := by
    have older := pushed.held (i + 1) found present
    rwa [List.length_cons, Nat.add_sub_add_right] at older
  outside := pushed.outside

/-- The latest word. -/
theorem load32 (pushed : Pushed start memory top room (word :: words)) :
    memory.load32 (stackPointer top (words.length + 1)) = word :=
  pushed.held 0 word rfl

/-- The words above the stack pointer, the latest first. -/
theorem load32_of_get (pushed : Pushed start memory top room words) {i : ℕ}
    (present : words[i]? = some word) :
    memory.load32 (stackPointer top words.length + BitVec.ofNat 32 (4 * i)) = word := by
  have inside : i < words.length := (List.getElem?_eq_some_iff.mp present).1
  rw [stackPointer_sub top inside.le]
  exact pushed.held i word present

/-- A word apart from the stack. -/
theorem load32_of_apart (pushed : Pushed start memory top room words) {a : BitVec 32}
    (apart : ∀ k : BitVec 32, k.toNat < 4 → ApartFromStack top room (a + k)) :
    memory.load32 a = start.load32 a :=
  load32_congr fun k small => pushed.outside _ (apart k small)

end Pushed

end ByteMemory
