import Phix.Foundation.Word

/-! # Common definitions

The integer types, alignment macros, status codes and configuration constants of
`include/common.h`, `include/status.h` and `include/config.h` that the modelled
subsystems use. The target is a 32-bit machine: `size_t`, `uint32_t` and every
pointer are one `Word`, and their arithmetic wraps.
-/

namespace Phix

/-- A 32-bit machine word: `uint32_t`, `size_t` and pointers. -/
abbrev Word := BitVec 32

/-- An 8-bit byte. -/
abbrev Byte := BitVec 8

/-- The null pointer. -/
def null : Word := 0

/-- `ALIGN(x, a)`: round up to the alignment `a`, a power of two. -/
def align (x a : Word) : Word := (x + (a - 1)) &&& ~~~(a - 1)

/-- `ALIGN_LOWER(x, a)`: round down to the alignment `a`. -/
def alignLower (x a : Word) : Word := x - x % a

/-! The status codes of `status.h`; a failing function returns the negated code. -/

def EIO : Int := 1
def EINVAL : Int := 2
def ENOMEM : Int := 3
def EBADPATH : Int := 4
def EFSNOTUS : Int := 5
def ERDONLY : Int := 6
def EUNIMP : Int := 7
def EISTKN : Int := 8
def EBADFORMAT : Int := 9

/-! The configuration of `config.h`. -/

def phixHeapSizeBytes : Word := 100 * 1024 * 1024
def phixHeapBlockSize : Word := 4096
def phixHeapSaddress : Word := 0x01000000
def phixHeapTableAddress : Word := 0x00007E00

/-- What `align` computes, the overflow of the sum included. -/
theorem align_toNat (x : Word) : (align x 4096).toNat =
    (x.toNat + 4095) % 2 ^ 32 / 4096 * 4096 := by
  have mask : ~~~((4096 : Word) - 1) = BitVec.allOnes 32 <<< 12 := by decide
  have pred : ((4096 : Word) - 1) = 4095#32 := by decide
  unfold align
  rw [mask, MachineWord.and_high_toNat, pred, BitVec.toNat_add]
  rfl

/-- Without overflow it rounds up to the next multiple. -/
theorem align_toNat_of_le (x : Word) (bound : x.toNat ≤ 2 ^ 32 - 4096) :
    (align x 4096).toNat = (x.toNat + 4095) / 4096 * 4096 := by
  rw [align_toNat, Nat.mod_eq_of_lt (by omega)]

/-- `align_lower` rounds down. -/
theorem alignLower_toNat (x : Word) : (alignLower x 4096).toNat = x.toNat / 4096 * 4096 := by
  unfold alignLower
  have bound := x.isLt
  have remainder : (x % 4096).toNat = x.toNat % 4096 := BitVec.toNat_umod
  rw [BitVec.toNat_sub_of_le (by rw [BitVec.le_def, remainder]; omega), remainder]
  omega

end Phix
