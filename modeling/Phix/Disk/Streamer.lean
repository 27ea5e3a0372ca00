import Phix.Common
import Phix.Foundation.SignedInt
import Phix.Foundation.Slices

/-! # The disk and its streams

The kernel reads its disk in sectors (`disk/disk.c`) and serves byte ranges of it through
streams (`disk/streamer.c`). The device is a parameter: it returns a sector for every
number it is asked for. A read of a range below 2 GiB delivers the bytes of the image in
that range (`Phix.diskstreamerRead_eq`).
-/

namespace Phix

open Slices

def phixSectorSize : ℕ := 512

/-- A disk as `disk_read_block` sees it: whether it is `disk0`, the sectors of the device, and
the bytes that lie around the sector buffer on the stack. -/
structure Disk where
  isDisk0 : Bool
  sector : Int → ℕ → Byte
  stray : Int → Byte

/-- The buffer of a stream read after the sector `lba` is read, indexed as the code does. -/
def Disk.buf (disk : Disk) (lba i : Int) : Byte :=
  if 0 ≤ i ∧ i < phixSectorSize then disk.sector lba i.toNat else disk.stray i

/-- `disk_read_block` of one sector. -/
def diskReadBlock (disk : Disk) (lba : Int) : Int × (Int → Byte) :=
  if disk.isDisk0 then (0, disk.buf lba) else (- EIO, disk.stray)

/-- `diskstreamer_read`: the status, the bytes stored and the position of the stream. The sum
of an offset and a request near `2 ^ 31` is taken without wrapping. -/
def diskstreamerRead (disk : Disk) (pos total : Int) : Int × List Byte × Int :=
  let sector := pos.tdiv phixSectorSize
  let offset := pos.tmod phixSectorSize
  let totalToRead :=
    if (phixSectorSize : Int) ≤ offset + total then total - (offset + total - phixSectorSize)
    else total
  let (ret, buf) := diskReadBlock disk sector
  if ret < 0 then (ret, [], pos)
  else
    let out := (List.range totalToRead.toNat).map fun (i : ℕ) => buf (offset + i)
    let moved := int32 (pos + totalToRead)
    if totalToRead ≠ total then
      let (ret, rest, moved) := diskstreamerRead disk moved (total - totalToRead)
      (ret, out ++ rest, moved)
    else (ret, out, moved)
termination_by total.toNat
decreasing_by
  rename_i shortened
  have small : pos.tmod phixSectorSize < phixSectorSize := Int.tmod_lt_of_pos pos (by decide)
  change (total - totalToRead).toNat < total.toNat
  change (if (phixSectorSize : Int) ≤ offset + total then _ else _) ≠ _ at shortened
  split at shortened
  · have short : totalToRead = phixSectorSize - offset := by
      unfold totalToRead
      rw [dif_pos ‹_›]
      omega
    omega
  · exact absurd rfl shortened

/-- The byte of the disk image at a position. -/
def Disk.image (disk : Disk) (k : ℕ) : Byte :=
    disk.sector (k / phixSectorSize : ℕ) (k % phixSectorSize)

/-- The bytes a read takes from one sector. -/
private theorem buf_eq_slice (disk : Disk) {pos n : ℕ}
    (inside : pos % phixSectorSize + n ≤ phixSectorSize) :
    ((List.range n).map fun (i : ℕ) =>
      disk.buf ((pos / phixSectorSize : ℕ) : Int) ((pos % phixSectorSize : ℕ) + i)) =
      slice disk.image pos n := by
  unfold phixSectorSize at inside
  refine List.map_congr_left fun i member => ?_
  have below := List.mem_range.mp member
  have sector : (pos + i) / 512 = pos / 512 := by omega
  have index : (pos + i) % 512 = pos % 512 + i := by omega
  unfold Disk.buf Disk.image phixSectorSize
  rw [if_pos (by omega), sector, index]
  congr 1

/-- The part of a request that the sector at the stream's position holds. -/
theorem totalToRead_eq (offset total : ℕ) :
    (if (phixSectorSize : Int) ≤ (offset : Int) + total then
      (total : Int) - ((offset : Int) + total - phixSectorSize) else (total : Int)) =
      if phixSectorSize < offset + total then (phixSectorSize : Int) - offset else total := by
  unfold phixSectorSize
  split <;> split <;> omega

section Disk0

variable {disk : Disk} (disk0 : disk.isDisk0 = true)

include disk0

/-- A read from `disk0` succeeds. -/
theorem diskstreamerRead_status (pos total : Int) : (diskstreamerRead disk pos total).1 = 0 := by
  fun_induction diskstreamerRead disk pos total with
  | case1 pos total sector ret buf block failed =>
      rw [diskReadBlock, if_pos disk0] at block
      cases block
      exact absurd failed (lt_irrefl 0)
  | case2 pos total sector offset totalToRead ret buf block _ out moved _ ret rest moved result
      ih =>
      rw [result] at ih
      exact ih
  | case3 pos total sector offset totalToRead ret buf block =>
      rw [diskReadBlock, if_pos disk0] at block
      cases block
      rfl

/-- **A stream read delivers the bytes of the image from its position on.** -/
theorem diskstreamerRead_eq {pos total : ℕ} (addressed : pos + total ≤ 2 ^ 31) :
    diskstreamerRead disk pos total =
      (0, slice disk.image pos total, int32 ((pos + total : ℕ) : Int)) := by
  induction total using Nat.strong_induction_on generalizing pos with
  | _ total ih =>
      have quotient : (pos : Int).tdiv phixSectorSize = ((pos / phixSectorSize : ℕ) : Int) :=
        Int.ofNat_tdiv .. |>.symm
      have remainder : (pos : Int).tmod phixSectorSize = ((pos % phixSectorSize : ℕ) : Int) :=
        Int.ofNat_tmod .. |>.symm
      have small : pos % phixSectorSize < phixSectorSize := Nat.mod_lt _ (by decide)
      rw [diskstreamerRead, quotient, remainder, totalToRead_eq, diskReadBlock, if_pos disk0]
      dsimp only
      rw [if_neg (lt_irrefl 0)]
      by_cases more : phixSectorSize < pos % phixSectorSize + total
      · obtain ⟨piece, rest, filled, split⟩ : ∃ piece rest,
            pos % phixSectorSize + piece = phixSectorSize ∧ total = piece + rest :=
          ⟨phixSectorSize - pos % phixSectorSize, total - (phixSectorSize - pos % phixSectorSize),
            by omega, by omega⟩
        have length : (phixSectorSize : Int) - (pos % phixSectorSize : ℕ) = piece := by omega
        have moved : int32 ((pos : Int) + piece) = ((pos + piece : ℕ) : Int) := by
          rw [int32_eq_self] <;> omega
        have left : (total : Int) - piece = rest := by omega
        have later : diskstreamerRead disk ((pos + piece : ℕ) : Int) rest =
            (0, slice disk.image (pos + piece) rest, int32 ((pos + piece + rest : ℕ) : Int)) :=
          ih rest (by omega) (by omega)
        rw [if_pos more, length, if_pos (by omega), moved, left, later, Int.toNat_natCast,
          buf_eq_slice disk (by omega)]
        dsimp only
        rw [slice_append, Nat.add_assoc, ← split]
      · rw [if_neg more, if_neg (by simp), Int.toNat_natCast, buf_eq_slice disk (by omega),
          Nat.cast_add]

end Disk0

end Phix
