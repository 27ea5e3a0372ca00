import Phix.Disk.Streamer
import Phix.Foundation.ByteMemory
import Phix.Foundation.Readings

/-! # What a stream read reads and writes

`diskstreamer_read` as a computation that asks for the bytes of its sector buffers one
after the other (`Phix.diskstreamerReading`). It returns what `diskstreamer_read` returns,
and it asks for the 512 bytes of a buffer only; the bytes it stores are the range of the
image, and consecutive reads join (`Phix.diskstreamer_read_exact`).
-/

namespace Phix

open Slices

/-- A byte of the buffer that a round of a read fills: the sector and the index. -/
abbrev BufferCell := Int × Int

/-- The buffers of a read, as `disk_read_block` leaves them. -/
def Disk.cells (disk : Disk) (cell : BufferCell) : Byte := (diskReadBlock disk cell.1).2 cell.2

/-- The copy loop of `diskstreamer_read`: `n` bytes of the buffer from `offset` on. -/
def bufferReading (sector offset : Int) : ℕ → Reading BufferCell Byte (List Byte)
  | 0 => pure []
  | n + 1 => do
      let out ← bufferReading sector offset n
      let byte ← Reading.cell (sector, offset + n)
      pure (out ++ [byte])

/-- `diskstreamer_read`, asking for each byte of its buffers. -/
def diskstreamerReading (disk : Disk) (pos total : Int) :
    Reading BufferCell Byte (Int × List Byte × Int) :=
  let sector := pos.tdiv phixSectorSize
  let offset := pos.tmod phixSectorSize
  let totalToRead :=
    if (phixSectorSize : Int) ≤ offset + total then total - (offset + total - phixSectorSize)
    else total
  let ret := (diskReadBlock disk sector).1
  if ret < 0 then pure (ret, [], pos)
  else do
    let out ← bufferReading sector offset totalToRead.toNat
    let moved := int32 (pos + totalToRead)
    if totalToRead ≠ total then do
      let (ret, rest, moved) ← diskstreamerReading disk moved (total - totalToRead)
      pure (ret, out ++ rest, moved)
    else pure (ret, out, moved)
termination_by total.toNat
decreasing_by
  rename_i shortened
  have small : pos.tmod phixSectorSize < phixSectorSize := Int.tmod_lt_of_pos pos (by decide)
  change (total - totalToRead).toNat < total.toNat
  change (if (phixSectorSize : Int) ≤ offset + total then _ else _) ≠ _ at shortened
  split at shortened
  · have short : totalToRead = phixSectorSize - offset := by
      unfold totalToRead
      rw [dif_pos ‹_›]
      omega
    omega
  · exact absurd rfl shortened

theorem bufferReading_value (cells : BufferCell → Byte) (sector offset : Int) (n : ℕ) :
    (bufferReading sector offset n).value cells =
      (List.range n).map fun (i : ℕ) => cells (sector, offset + i) := by
  induction n with
  | zero => rfl
  | succ n ih =>
      rw [List.range_succ, List.map_append]
      simp only [bufferReading, Reading.value_bind, Reading.value_cell, Reading.value_pure, ih]
      rfl

/-- The bytes the copy loop takes from the buffer that `disk_read_block` fills. -/
theorem bufferReading_cells {disk : Disk} {sector ret : Int} {buf : Int → Byte}
    (block : diskReadBlock disk sector = (ret, buf)) (offset : Int) (n : ℕ) :
    (bufferReading sector offset n).value disk.cells =
      (List.range n).map fun (i : ℕ) => buf (offset + i) := by
  rw [bufferReading_value]
  refine List.map_congr_left fun i _ => ?_
  exact congrArg (fun answer : Int × (Int → Byte) => answer.2 (offset + i)) block

theorem bufferReading_within {region : BufferCell → Prop} (cells : BufferCell → Byte)
    {sector offset : Int} {n : ℕ} (inside : ∀ i < n, region (sector, offset + (i : ℕ))) :
    (bufferReading sector offset n).Within region cells := by
  induction n with
  | zero => exact Reading.within_pure []
  | succ n ih =>
      simp only [bufferReading, Reading.within_bind, Reading.within_cell, Reading.within_pure,
        and_true]
      exact ⟨ih fun i small => inside i (small.trans (Nat.lt_succ_self n)),
        inside n (Nat.lt_succ_self n)⟩

/-- Both forms of the function return the same. -/
theorem diskstreamerReading_value (disk : Disk) (pos total : Int) :
    (diskstreamerReading disk pos total).value disk.cells = diskstreamerRead disk pos total := by
  fun_induction diskstreamerRead disk pos total with
  | case1 pos total sector ret buf block failed =>
      have status : (diskReadBlock disk (pos.tdiv phixSectorSize)).1 = ret :=
        congrArg Prod.fst block
      rw [diskstreamerReading]
      dsimp only
      rw [status, if_pos failed, Reading.value_pure]
  | case2 pos total sector offset totalToRead ret buf block works out moved more ret' rest last
      result
      ih =>
      have status : (diskReadBlock disk (pos.tdiv phixSectorSize)).1 = ret :=
        congrArg Prod.fst block
      have amount : (if (phixSectorSize : Int) ≤ pos.tmod phixSectorSize + total then
          total - (pos.tmod phixSectorSize + total - phixSectorSize) else total) = totalToRead :=
            rfl
      have copied : (bufferReading (pos.tdiv phixSectorSize) (pos.tmod phixSectorSize)
          totalToRead.toNat).value disk.cells = out := bufferReading_cells block offset _
      rw [result] at ih
      rw [diskstreamerReading]
      dsimp only
      rw [status, if_neg works, amount, Reading.value_bind, copied, if_pos more,
        Reading.value_bind, ih, Reading.value_pure]
  | case3 pos total sector offset totalToRead ret buf block works out moved whole =>
      have status : (diskReadBlock disk (pos.tdiv phixSectorSize)).1 = ret :=
        congrArg Prod.fst block
      have amount : (if (phixSectorSize : Int) ≤ pos.tmod phixSectorSize + total then
          total - (pos.tmod phixSectorSize + total - phixSectorSize) else total) = totalToRead :=
            rfl
      have copied : (bufferReading (pos.tdiv phixSectorSize) (pos.tmod phixSectorSize)
          totalToRead.toNat).value disk.cells = out := bufferReading_cells block offset _
      rw [diskstreamerReading]
      dsimp only
      rw [status, if_neg works, amount, Reading.value_bind, copied, if_neg whole,
        Reading.value_pure]

/-- A cell of one of the 512 bytes of a buffer. -/
def BufferCell.Inside (cell : BufferCell) : Prop := 0 ≤ cell.2 ∧ cell.2 < phixSectorSize

/-- From a position that is not negative, a read asks for bytes of its buffers only. -/
theorem diskstreamerReading_within (disk : Disk) (cells : BufferCell → Byte) {pos total : Int}
    (start : 0 ≤ pos) (below : pos + total < 2 ^ 31) :
    (diskstreamerReading disk pos total).Within BufferCell.Inside cells := by
  fun_induction diskstreamerReading disk pos total with
  | case1 pos total sector ret failed => exact Reading.within_pure _
  | case2 pos total sector offset totalToRead ret works ih =>
      have low : 0 ≤ offset := Int.tmod_nonneg _ start
      have high : offset < phixSectorSize := Int.tmod_lt_of_pos pos (by decide)
      have size : (phixSectorSize : Int) = 512 := rfl
      have piece : totalToRead ≤ phixSectorSize - offset ∧ totalToRead ≤ total ∧
          (totalToRead ≠ total → totalToRead = phixSectorSize - offset) := by
        unfold totalToRead
        split <;> omega
      rw [Reading.within_bind]
      refine ⟨bufferReading_within cells fun i inside => ⟨by omega, by dsimp only; omega⟩, ?_⟩
      dsimp only
      split
      · rename_i more
        have full := piece.2.2 more
        have moved : int32 (pos + totalToRead) = pos + totalToRead := by
          rw [int32_eq_self] <;> omega
        rw [Reading.within_bind]
        refine ⟨ih more ?_ ?_, Reading.within_pure _⟩
        · rw [moved]
          omega
        · rw [moved]
          omega
      · exact Reading.within_pure _

/-- Memory after a read that stores its bytes from `out` upwards. -/
def diskstreamerStore (disk : Disk) (memory : ByteMemory) (out : BitVec 32) (pos total : Int) :
    ByteMemory :=
  let bytes := (diskstreamerRead disk pos total).2.1
  memory.write out (fun i => bytes.getD i 0) bytes.length

section Exact

variable {disk : Disk} (disk0 : disk.isDisk0 = true)

include disk0

/-- A read stores the bytes of the image. -/
theorem diskstreamerStore_eq (memory : ByteMemory) (out : BitVec 32) {pos total : ℕ}
    (addressed : pos + total ≤ 2 ^ 31) : diskstreamerStore disk memory out pos total =
      memory.write out (fun i => disk.image (pos + i)) total := by
  unfold diskstreamerStore
  rw [diskstreamerRead_eq disk0 addressed]
  dsimp only
  rw [length_slice]
  exact memory.write_congr out fun i inside => getD_slice disk.image inside 0

/-- **Streaming a byte range is slicing the disk image.** From a position `pos` of `disk0`,
a read of `total` bytes, both not negative and below 2 GiB together, returns 0, asks for
the 512 bytes of its buffers only whatever they hold, stores the bytes of the image from
`pos` to `pos + total` from `out` upwards and nothing else, and leaves the stream at
`pos + total`. Two reads in a row are one read of both sizes. -/
theorem diskstreamer_read_exact {pos total : Int} (start : 0 ≤ pos) (size : 0 ≤ total)
    (below : pos + total < 2 ^ 31) (memory : ByteMemory) (out : BitVec 32) :
    let result := diskstreamerRead disk pos total
    (diskstreamerReading disk pos total).value disk.cells = result ∧
    (∀ cells, (diskstreamerReading disk pos total).Within BufferCell.Inside cells) ∧
    result.1 = 0 ∧ result.2.2 = pos + total ∧
    (∀ x, diskstreamerStore disk memory out pos total x =
      if ((x - out).toNat : Int) < total then disk.image (pos.toNat + (x - out).toNat)
      else memory x) ∧
    ∀ a b, 0 ≤ a → 0 ≤ b → a + b = total →
      diskstreamerStore disk (diskstreamerStore disk memory out pos a) (out + BitVec.ofInt 32 a)
        (diskstreamerRead disk pos a).2.2 b = diskstreamerStore disk memory out pos total ∧
      (diskstreamerRead disk (diskstreamerRead disk pos a).2.2 b).2.2 = result.2.2 := by
  intro result
  obtain ⟨pos, rfl⟩ := Int.eq_ofNat_of_zero_le start
  obtain ⟨total, rfl⟩ := Int.eq_ofNat_of_zero_le size
  have position : ∀ n : ℕ, n ≤ total → int32 ((pos + n : ℕ) : Int) = ((pos + n : ℕ) : Int) := by
    intro n small
    rw [int32_eq_self] <;> omega
  have addressed : pos + total ≤ 2 ^ 31 := by omega
  have whole := diskstreamerRead_eq disk0 addressed
  rw [position total le_rfl] at whole
  have stored := diskstreamerStore_eq disk0 memory out addressed
  have last : result.2.2 = ((pos + total : ℕ) : Int) := congrArg (·.2.2) whole
  refine ⟨diskstreamerReading_value ..,
    fun cells => diskstreamerReading_within disk cells start below,
    congrArg Prod.fst whole, last, fun x => ?_, fun a b nonnegative rest split => ?_⟩
  · rw [stored, ByteMemory.write_apply _ _ _ (by omega), Int.toNat_natCast]
    simp only [Int.ofNat_lt]
  · obtain ⟨a, rfl⟩ := Int.eq_ofNat_of_zero_le nonnegative
    obtain ⟨b, rfl⟩ := Int.eq_ofNat_of_zero_le rest
    obtain rfl : a + b = total := by omega
    have first : (diskstreamerRead disk pos a).2.2 = ((pos + a : ℕ) : Int) := by
      rw [diskstreamerRead_eq disk0 (by omega), position a (by omega)]
    rw [first, last, diskstreamerRead_eq disk0 (by omega), stored,
      diskstreamerStore_eq disk0 _ _ (by omega), diskstreamerStore_eq disk0 _ _ (by omega),
      BitVec.ofInt_natCast, Nat.add_assoc, position (a + b) le_rfl]
    simp only [Nat.add_assoc]
    exact ⟨memory.write_append out (fun i => disk.image (pos + i)) a b, trivial⟩

end Exact

/-- Four bytes across the boundary between the first two sectors. -/
theorem diskstreamer_read_exact_boundary :
    let disk : Disk := ⟨true, fun lba i => BitVec.ofInt 8 (16 * lba + i), fun _ => 0⟩
    diskstreamerStore disk (fun _ => 0xff) 0x1000 510 4 0x1003 = 0x11 ∧
      diskstreamerStore disk (fun _ => 0xff) 0x1000 510 4 0x1004 = 0xff := by
  intro disk
  have disk0 : disk.isDisk0 = true := rfl
  have exact := diskstreamer_read_exact disk0 (show (0 : Int) ≤ 510 by decide)
    (show (0 : Int) ≤ 4 by decide) (by decide) (fun _ => 0xff) 0x1000
  exact ⟨(exact.2.2.2.2.1 0x1003).trans (by decide), (exact.2.2.2.2.1 0x1004).trans (by decide)⟩

end Phix
