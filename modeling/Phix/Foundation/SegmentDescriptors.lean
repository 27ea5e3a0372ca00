import Mathlib.Data.BitVec

/-! # Segment descriptors

How a 32-bit x86 processor reads the eight bytes of a segment descriptor. The base and the
limit lie in fragments; the high half of byte 6 holds the flags, its low half the top of the
limit. A number is assembled from the fragments that were cut from it
(`SegmentDescriptors.base_of_fragments`, `SegmentDescriptors.rawLimit_of_fragments`).
-/

namespace SegmentDescriptors

/-- What a descriptor says to the processor. -/
@[ext] structure Segment where
  base : ℕ
  limit : ℕ
  access : BitVec 8
  size32 : Bool

variable (byte : ℕ → BitVec 8)

def base : ℕ :=
  (byte 2).toNat + 2 ^ 8 * (byte 3).toNat + 2 ^ 16 * (byte 4).toNat + 2 ^ 24 * (byte 7).toNat

/-- The 20 bits of the limit. -/
def rawLimit : ℕ := (byte 0).toNat + 2 ^ 8 * (byte 1).toNat + 2 ^ 16 * ((byte 6).toNat % 2 ^ 4)

/-- The granularity bit: the limit counts pages. -/
def granular : Bool := (byte 6).getLsbD 7

/-- The last offset of the segment. -/
def limit : ℕ := if granular byte then rawLimit byte * 4096 + 4095 else rawLimit byte

def decode : Segment where
  base := base byte
  limit := limit byte
  access := byte 5
  size32 := (byte 6).getLsbD 6

variable {byte}

theorem base_of_fragments {n : ℕ} (bound : n < 2 ^ 32) (first : (byte 2).toNat = n % 2 ^ 8)
    (second : (byte 3).toNat = n / 2 ^ 8 % 2 ^ 8) (third : (byte 4).toNat = n / 2 ^ 16 % 2 ^ 8)
    (fourth : (byte 7).toNat = n / 2 ^ 24 % 2 ^ 8) : base byte = n := by
  unfold base
  rw [first, second, third, fourth]
  omega

theorem rawLimit_of_fragments {n : ℕ} (bound : n < 2 ^ 20) (first : (byte 0).toNat = n % 2 ^ 8)
    (second : (byte 1).toNat = n / 2 ^ 8 % 2 ^ 8)
    (third : (byte 6).toNat % 2 ^ 4 = n / 2 ^ 16 % 2 ^ 4) : rawLimit byte = n := by
  unfold rawLimit
  rw [first, second, third]
  omega

/-- A limit that ends in twelve ones is the scaled one of its upper bits. -/
theorem limit_of_granular {n : ℕ} (scaled : granular byte = true) (raw : rawLimit byte = n / 4096)
    (pages : n % 4096 = 4095) : limit byte = n := by
  unfold limit
  rw [if_pos scaled, raw]
  omega

theorem limit_of_bytes {n : ℕ} (unscaled : granular byte = false) (raw : rawLimit byte = n) :
    limit byte = n := by
  unfold limit
  rw [unscaled, raw]
  rfl

end SegmentDescriptors
