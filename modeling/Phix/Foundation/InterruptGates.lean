import Phix.Foundation.ByteMemory

/-! # Interrupt gates

How a 32-bit x86 processor finds the handler of an interrupt: a table of eight-byte gates, each
with the address of a handler in two halves, its code segment, and the least privileged level that
may raise the interrupt by an instruction (`InterruptGates.vector`).
-/

namespace InterruptGates

/-- What a gate says to the processor. -/
@[ext] structure Gate where
  offset : BitVec 32
  selector : BitVec 16
  present : Bool
  privilege : BitVec 2
  kind : BitVec 5

/-- The kind of a 32-bit interrupt gate. -/
def interruptGate : BitVec 5 := 0x0E

def gateAt (memory : ByteMemory) (p : BitVec 32) : Gate where
  offset := memory.load16 (p + 6) ++ memory.load16 p
  selector := memory.load16 (p + 2)
  present := (memory (p + 5)).getLsbD 7
  privilege := (memory (p + 5)).extractLsb' 5 2
  kind := (memory (p + 5)).extractLsb' 0 5

/-- The operand of `lidt`. -/
structure Table where
  limit : BitVec 16
  base : BitVec 32

/-- What `lidt` loads from the six bytes at `p`. -/
def tableAt (memory : ByteMemory) (p : BitVec 32) : Table where
  limit := memory.load16 p
  base := memory.load32 (p + 2)

/-- Where an interrupt that a program of the level raises by an instruction is handled; `none` is
a fault. -/
def vector (memory : ByteMemory) (table : Table) (level : ℕ) (n : BitVec 8) :
    Option (BitVec 32 × BitVec 16) :=
  let gate := gateAt memory (table.base + BitVec.ofNat 32 (8 * n.toNat))
  if 8 * n.toNat + 7 ≤ table.limit.toNat ∧ gate.present ∧ gate.kind = interruptGate ∧
      level ≤ gate.privilege.toNat then some (gate.offset, gate.selector)
  else none

/-- The bytes of a present interrupt gate. -/
def gateBytes (gate : Gate) : ℕ → BitVec 8
  | 0 => gate.offset.extractLsb' 0 8
  | 1 => gate.offset.extractLsb' 8 8
  | 2 => gate.selector.extractLsb' 0 8
  | 3 => gate.selector.extractLsb' 8 8
  | 5 => BitVec.ofBool gate.present ++ gate.privilege ++ gate.kind
  | 6 => gate.offset.extractLsb' 16 8
  | 7 => gate.offset.extractLsb' 24 8
  | _ => 0

/-- The fields of the access byte. -/
private theorem access_fields (present : Bool) (privilege : BitVec 2) (kind : BitVec 5) :
    (BitVec.ofBool present ++ privilege ++ kind).getLsbD 7 = present ∧
      (BitVec.ofBool present ++ privilege ++ kind).extractLsb' 5 2 = privilege ∧
      (BitVec.ofBool present ++ privilege ++ kind).extractLsb' 0 5 = kind := by
  revert present privilege kind
  decide

/-- A gate is read back from its bytes. -/
theorem gateAt_of_bytes {memory : ByteMemory} {p : BitVec 32} {gate : Gate}
    (bytes : ∀ j < 8, memory (p + BitVec.ofNat 32 j) = gateBytes gate j) :
    gateAt memory p = gate := by
  have first : memory p = gate.offset.extractLsb' 0 8 := by
    have zero := bytes 0 (by decide)
    rwa [BitVec.add_zero] at zero
  have place (a b c : BitVec 32) (sum : a + b = c) : p + a + b = p + c := by
    rw [BitVec.add_assoc, sum]
  have second : memory (p + 1) = gate.offset.extractLsb' 8 8 := bytes 1 (by decide)
  have third : memory (p + 2) = gate.selector.extractLsb' 0 8 := bytes 2 (by decide)
  have fourth : memory (p + 3) = gate.selector.extractLsb' 8 8 := bytes 3 (by decide)
  have sixth : memory (p + 5) = BitVec.ofBool gate.present ++ gate.privilege ++ gate.kind :=
    bytes 5 (by decide)
  have seventh : memory (p + 6) = gate.offset.extractLsb' 16 8 := bytes 6 (by decide)
  have eighth : memory (p + 7) = gate.offset.extractLsb' 24 8 := bytes 7 (by decide)
  have low : gate.offset.extractLsb' 8 8 ++ gate.offset.extractLsb' 0 8 =
      gate.offset.extractLsb' 0 16 :=
    BitVec.extractLsb'_append_extractLsb'_eq_extractLsb' (by decide)
  have high : gate.offset.extractLsb' 24 8 ++ gate.offset.extractLsb' 16 8 =
      gate.offset.extractLsb' 16 16 :=
    BitVec.extractLsb'_append_extractLsb'_eq_extractLsb' (by decide)
  have selector : gate.selector.extractLsb' 8 8 ++ gate.selector.extractLsb' 0 8 =
      gate.selector := by
    rw [BitVec.extractLsb'_append_extractLsb'_eq_extractLsb' (by decide)]
    exact BitVec.extractLsb'_eq_self
  unfold gateAt ByteMemory.load16
  rw [place 6 1 7 rfl, place 2 1 3 rfl, first, second, third, fourth, sixth, seventh, eighth, low,
    high, selector, BitVec.extractLsb'_append_extractLsb'_eq_extractLsb' (by decide),
    BitVec.extractLsb'_eq_self]
  obtain ⟨present, privilege, kind⟩ := access_fields gate.present gate.privilege gate.kind
  rw [present, privilege, kind]

end InterruptGates
