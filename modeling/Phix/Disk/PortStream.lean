import Phix.Disk.Controller
import Phix.Disk.Streamer
import Phix.Foundation.ByteCopies

/-! # Streams through the ports

`diskstreamer_read` with the disk behind its ports and the buffers of its calls in memory: each
call has one on its own frame. When the drive has the sectors of the range and no buffer overlaps
the destination, it does what the stream read of `Phix.Disk.Streamer` does over the sectors of the
media, and changes nothing but the destination and the buffers
(`Phix.diskstreamer_read_refines`).
-/

namespace Phix

open Ata Slices

/-- The disk that the sectors on a medium are, as `disk0`. -/
def mediaDisk (media : Bool → ℕ → ℕ → Byte) (stray : Int → Byte) : Disk where
  isDisk0 := true
  sector := fun lba i =>
    media (Ports.driveOf (BitVec.ofInt 32 lba)) (Ports.sectorOf (BitVec.ofInt 32 lba)) i
  stray := stray

namespace Ports

variable {σ : Type}

/-- `diskstreamer_read`: the status, and the position of the stream. The buffer of the `depth`th
call is at `frame depth`. -/
def diskstreamerRead (device : Device (BitVec 16) σ) (polls : ℕ) (frame : ℕ → Word)
    (isDisk0 : Bool) (depth : ℕ) (ports : Ports σ) (pos : Int) (out : Word) (total : Int) :
    Option (Int × Ports σ × Int) :=
  let sector := pos.tdiv phixSectorSize
  let offset := pos.tmod phixSectorSize
  let totalToRead :=
    if (phixSectorSize : Int) ≤ offset + total then total - (offset + total - phixSectorSize)
    else total
  match diskReadBlock device polls isDisk0 ports (BitVec.ofInt 32 sector) 1 (frame depth) with
  | none => none
  | some (ret, ports) =>
      if ret < 0 then some (ret, ports, pos)
      else
        let memory := ports.memory.copy totalToRead.toNat
          (frame depth + BitVec.ofInt 32 offset) out
        let ports := { ports with memory }
        let moved := int32 (pos + totalToRead)
        if totalToRead ≠ total then
          diskstreamerRead device polls frame isDisk0 (depth + 1) ports moved
            (out + BitVec.ofNat 32 totalToRead.toNat) (total - totalToRead)
        else some (ret, ports, moved)
termination_by total.toNat
decreasing_by
  rename_i shortened
  have small : pos.tmod phixSectorSize < phixSectorSize := Int.tmod_lt_of_pos pos (by decide)
  change (total - totalToRead).toNat < total.toNat
  change (if (phixSectorSize : Int) ≤ offset + total then _ else _) ≠ _ at shortened
  split at shortened
  · have short : totalToRead = phixSectorSize - offset := by
      unfold totalToRead
      rw [dif_pos ‹_›]
      omega
    omega
  · exact absurd rfl shortened

/-- The sectors of a range below 2 GiB are on the first drive, and have an address of 28 bits. -/
theorem sector_address {sector : ℕ} (small : sector < 2 ^ 28) :
    driveOf (BitVec.ofInt 32 (sector : Int)) = false ∧
      sectorOf (BitVec.ofInt 32 (sector : Int)) = sector := by
  rw [BitVec.ofInt_natCast]
  constructor
  · unfold driveOf
    rw [BitVec.getLsbD_ofNat, Nat.testBit_lt_two_pow small, Bool.and_false]
  · rw [sectorOf, BitVec.toNat_ofNat]
    omega

/-- The bytes of the sector that holds a position. -/
private def sectorAt (media : Bool → ℕ → ℕ → Byte) (pos : ℕ) : ℕ → Byte :=
  sectorBytes media (driveOf (BitVec.ofInt 32 ((pos / phixSectorSize : ℕ) : Int)))
    (sectorOf (BitVec.ofInt 32 ((pos / phixSectorSize : ℕ) : Int)))

private theorem sectorAt_eq_image (media : Bool → ℕ → ℕ → Byte) (stray : Int → Byte) {pos i : ℕ}
    (inside : pos % phixSectorSize + i < phixSectorSize) :
    sectorAt media pos (pos % phixSectorSize + i) = (mediaDisk media stray).image (pos + i) := by
  have sector : (pos + i) / phixSectorSize = pos / phixSectorSize := by
    unfold phixSectorSize at *
    omega
  have index : (pos + i) % phixSectorSize = pos % phixSectorSize + i := by
    unfold phixSectorSize at *
    omega
  unfold sectorAt Disk.image mediaDisk
  rw [sectorBytes_first _ _ _ inside, sector, index]

/-- The copy of a read: the bytes of the image are at the destination, and the rest of the memory
is as it was, the buffers of the calls apart. -/
private structure Copied (image : ℕ → Byte) (bufs : ℕ → Word) (calls : ℕ) (out : Word)
    (pos total : ℕ) (memory stored : ByteMemory) : Prop where
  bytes : ∀ j < total, stored (out + BitVec.ofNat 32 j) = image (pos + j)
  elsewhere : ∀ x, total ≤ (x - out).toNat →
    (∀ call < calls, phixSectorSize ≤ (x - bufs call).toNat) → stored x = memory x

private theorem far_of_apart {p x : Word} {n : ℕ} (apart : ∀ i < n, p + BitVec.ofNat 32 i ≠ x) :
    n ≤ (x - p).toNat := by
  by_contra near
  refine apart _ (not_le.mp near) ?_
  rw [BitVec.ofNat_toNat, BitVec.setWidth_eq, BitVec.add_comm, BitVec.sub_add_cancel]

/-- One piece of a read. -/
private theorem Copied.piece {image sector : ℕ → Byte} {bufs : ℕ → Word} {out : Word} {pos n : ℕ}
    (memory : ByteMemory) (bound : n ≤ 2 ^ 32) :
    Copied image bufs 1 out pos n memory ((memory.write (bufs 0) sector phixSectorSize).write out
      (fun i => image (pos + i)) n) where
  bytes := fun j inside => by
    have position : (BitVec.ofNat 32 j).toNat = j := by
      rw [BitVec.toNat_ofNat, Nat.mod_eq_of_lt (by omega)]
    rw [ByteMemory.write_apply _ _ _ bound, add_sub_cancel_left, position, if_pos inside]
  elsewhere := fun x outside apart => by
    rw [ByteMemory.write_apply _ _ _ bound, if_neg (by omega),
      ByteMemory.write_apply _ _ _ (by decide), if_neg (not_lt.mpr (apart 0 Nat.one_pos))]

/-- A piece is followed by the rest of the read, which spares it. -/
private theorem Copied.append {image : ℕ → Byte} {bufs : ℕ → Word} {calls : ℕ} {out : Word}
    {pos piece rest : ℕ} {memory middle stored : ByteMemory} (bound : piece + rest ≤ 2 ^ 31)
    (first : Copied image bufs 1 out pos piece memory middle)
    (others : Copied image (fun call => bufs (call + 1)) calls (out + BitVec.ofNat 32 piece)
      (pos + piece) rest middle stored)
    (apart : ∀ call < calls, ∀ i < phixSectorSize, ∀ j < piece + rest,
      bufs (call + 1) + BitVec.ofNat 32 i ≠ out + BitVec.ofNat 32 j) :
    Copied image bufs (calls + 1) out pos (piece + rest) memory stored where
  bytes := fun j inside => by
    by_cases early : j < piece
    · rw [others.elsewhere, first.bytes j early]
      · bv_omega
      · intro call called
        exact far_of_apart fun i within => apart call called i within j inside
    · have behind : out + BitVec.ofNat 32 j =
          out + BitVec.ofNat 32 piece + BitVec.ofNat 32 (j - piece) := by
        rw [BitVec.add_assoc, ← BitVec.ofNat_add, Nat.add_sub_cancel' (by omega)]
      rw [behind, others.bytes (j - piece) (by omega), Nat.add_assoc,
        Nat.add_sub_cancel' (by omega)]
  elsewhere := fun x outside bufs_apart => by
    rw [others.elsewhere x, first.elsewhere x (by omega)]
    · intro call called
      exact bufs_apart call (by omega)
    · bv_omega
    · intro call called
      exact bufs_apart (call + 1) (by omega)

/-- The buffer holds the sector, and the loop copies the piece from there. -/
private theorem piece_copied (media : Bool → ℕ → ℕ → Byte) (stray : Int → Byte)
    (memory : ByteMemory) {buf out : Word} {pos n : ℕ}
    (inside : pos % phixSectorSize + n ≤ phixSectorSize)
    (apart : ∀ i < phixSectorSize, ∀ j < n, buf + BitVec.ofNat 32 i ≠ out + BitVec.ofNat 32 j) :
    (memory.write buf (sectorAt media pos) phixSectorSize).copy n
        (buf + BitVec.ofInt 32 ((pos % phixSectorSize : ℕ) : Int)) out =
      (memory.write buf (sectorAt media pos) phixSectorSize).write out
        (fun i => (mediaDisk media stray).image (pos + i)) n := by
  have joined (i : ℕ) : buf + BitVec.ofNat 32 (pos % phixSectorSize) + BitVec.ofNat 32 i =
      buf + BitVec.ofNat 32 (pos % phixSectorSize + i) := by
    rw [BitVec.ofNat_add, BitVec.add_assoc]
  rw [BitVec.ofInt_natCast, ByteMemory.copy_eq]
  · refine ByteMemory.write_congr _ _ fun i below => ?_
    have position : (BitVec.ofNat 32 (pos % phixSectorSize + i)).toNat =
        pos % phixSectorSize + i := by
      rw [BitVec.toNat_ofNat, Nat.mod_eq_of_lt]
      unfold phixSectorSize at *
      omega
    rw [joined, ByteMemory.write_apply _ _ _ (by decide), add_sub_cancel_left, position,
      if_pos (by omega), sectorAt_eq_image media stray (by omega)]
  · intro i below j before
    rw [joined]
    exact apart _ (by omega) j (by omega)

/-- How many calls a read makes. -/
def readCalls (pos total : ℕ) : ℕ := (pos % phixSectorSize + total - 1) / phixSectorSize + 1

section Reads

variable {device : Device (BitVec 16) σ} {media : Bool → ℕ → ℕ → Byte} {capacity : Bool → ℕ}
  {At : σ → Phase → Prop} (documented : device.Documented ataPort media capacity At) {state : σ}
  {frame : ℕ → Word}

include documented

/-- One call reads a sector and copies a piece of it. -/
private theorem piece_read (stray : Int → Byte) (idle : Idle At state) (memory : ByteMemory)
    (bufs : ℕ → Word) {buf out : Word} (first : bufs 0 = buf) {pos n : ℕ}
    (small : pos / phixSectorSize < 2 ^ 28) (within : pos / phixSectorSize < capacity false)
    (inside : pos % phixSectorSize + n ≤ phixSectorSize)
    (apart : ∀ i < phixSectorSize, ∀ j < n, buf + BitVec.ofNat 32 i ≠ out + BitVec.ofNat 32 j) :
    ∃ last, Idle At last ∧ ∃ filled : ByteMemory,
      Copied (mediaDisk media stray).image bufs 1 out pos n memory
        (filled.copy n (buf + BitVec.ofInt 32 ((pos % phixSectorSize : ℕ) : Int)) out) ∧
      ∃ bound, ∀ polls, bound ≤ polls →
        diskReadBlock device polls true ⟨state, memory⟩
          (BitVec.ofInt 32 ((pos / phixSectorSize : ℕ) : Int)) 1 buf =
            some (0, ⟨last, filled⟩) := by
  subst first
  have one : (1 : Word).toInt = 1 := by decide
  obtain ⟨drive, sector⟩ := sector_address small
  have served : sectorOf (BitVec.ofInt 32 ((pos / phixSectorSize : ℕ) : Int)) + sectorCount 1 ≤
      capacity (driveOf (BitVec.ofInt 32 ((pos / phixSectorSize : ℕ) : Int))) := by
    rw [drive, sector]
    exact within
  obtain ⟨last, ended, bound, reads⟩ := diskReadSector_stored documented idle served memory
    (bufs 0) (show 0 < (1 : Word).toInt by decide) (by decide)
  rw [one] at reads
  refine ⟨last, ended, _, ?_, bound, reads⟩
  change Copied _ bufs 1 out pos n memory
    ((memory.write (bufs 0) (sectorAt media pos) phixSectorSize).copy n _ out)
  rw [piece_copied media stray memory inside apart]
  refine Copied.piece memory ?_
  unfold phixSectorSize at inside
  omega

private theorem diskstreamerRead_stored (stray : Int → Byte) (idle : Idle At state)
    {pos total depth : ℕ} (addressed : pos + total ≤ 2 ^ 31)
    (within : pos / phixSectorSize + readCalls pos total ≤ capacity false) {out : Word}
    (apart : ∀ call < readCalls pos total, ∀ i < phixSectorSize, ∀ j < total,
      frame (depth + call) + BitVec.ofNat 32 i ≠ out + BitVec.ofNat 32 j) (memory : ByteMemory) :
    ∃ last, Idle At last ∧ ∃ stored,
      Copied (mediaDisk media stray).image (fun call => frame (depth + call))
        (readCalls pos total) out pos total memory stored ∧
      ∃ bound, ∀ polls, bound ≤ polls →
        diskstreamerRead device polls frame true depth ⟨state, memory⟩ pos out total =
          some (0, ⟨last, stored⟩, int32 ((pos + total : ℕ) : Int)) := by
  induction total using Nat.strong_induction_on generalizing state pos depth out memory with
  | _ total ih =>
      have quotient : (pos : Int).tdiv phixSectorSize = ((pos / phixSectorSize : ℕ) : Int) :=
        Int.ofNat_tdiv .. |>.symm
      have remainder : (pos : Int).tmod phixSectorSize = ((pos % phixSectorSize : ℕ) : Int) :=
        Int.ofNat_tmod .. |>.symm
      have small : pos % phixSectorSize < phixSectorSize := Nat.mod_lt _ (by decide)
      have near : pos / phixSectorSize < 2 ^ 28 := by
        unfold phixSectorSize
        omega
      have first : (fun call => frame (depth + call)) 0 = frame depth := rfl
      by_cases more : phixSectorSize < pos % phixSectorSize + total
      · obtain ⟨piece, rest, filled, split⟩ : ∃ piece rest,
            pos % phixSectorSize + piece = phixSectorSize ∧ total = piece + rest :=
          ⟨phixSectorSize - pos % phixSectorSize, total - (phixSectorSize - pos % phixSectorSize),
            by omega, by omega⟩
        have calls : readCalls pos total = readCalls (pos + piece) rest + 1 := by
          unfold readCalls phixSectorSize at *
          omega
        rw [calls] at apart within ⊢
        have next : (pos + piece) / phixSectorSize = pos / phixSectorSize + 1 := by
          unfold phixSectorSize at *
          omega
        have spared : ∀ i < phixSectorSize, ∀ j < piece,
            frame depth + BitVec.ofNat 32 i ≠ out + BitVec.ofNat 32 j := fun i within j inside =>
          apart 0 (Nat.succ_pos _) i within j (by omega)
        have behind : ∀ call < readCalls (pos + piece) rest, ∀ i < phixSectorSize, ∀ j < rest,
            frame (depth + 1 + call) + BitVec.ofNat 32 i ≠
              out + BitVec.ofNat 32 piece + BitVec.ofNat 32 j := by
          intro call called i within j inside
          rw [Nat.add_right_comm, BitVec.add_assoc, ← BitVec.ofNat_add]
          exact apart (call + 1) (by omega) i within (piece + j) (by omega)
        obtain ⟨middle, idle, sector, copied, bound, reads⟩ := piece_read documented stray idle
          memory (fun call => frame (depth + call)) first near (by omega) filled.le spared
        obtain ⟨last, ended, stored, others, bound', rest_reads⟩ := ih rest (by omega) idle
          (show pos + piece + rest ≤ 2 ^ 31 by omega) (by omega) behind _
        refine ⟨last, ended, stored, ?_, max bound bound', fun polls enough => ?_⟩
        · have next : (fun call => frame (depth + 1 + call)) =
              fun call => frame (depth + (call + 1)) :=
            funext fun call => by rw [Nat.add_right_comm, Nat.add_assoc]
          rw [next] at others
          rw [split]
          exact copied.append (by omega) others fun call called i within j inside =>
            apart (call + 1) (by omega) i within j (by omega)
        · have length : (phixSectorSize : Int) - (pos % phixSectorSize : ℕ) = piece := by omega
          have moved : int32 ((pos : Int) + piece) = ((pos + piece : ℕ) : Int) := by
            rw [int32_eq_self] <;> omega
          have left : (total : Int) - piece = rest := by omega
          rw [diskstreamerRead, quotient, remainder, totalToRead_eq,
            reads polls (by omega)]
          dsimp only
          rw [if_neg (lt_irrefl 0), if_pos more, length, if_pos (by omega), moved, left,
            Int.toNat_natCast, rest_reads polls (by omega), Nat.add_assoc, ← split]
      · have one : readCalls pos total = 1 := by
          unfold readCalls phixSectorSize at *
          omega
        rw [one] at apart within ⊢
        have spared : ∀ i < phixSectorSize, ∀ j < total,
            frame depth + BitVec.ofNat 32 i ≠ out + BitVec.ofNat 32 j := apart 0 Nat.one_pos
        obtain ⟨last, idle, sector, copied, bound, reads⟩ := piece_read documented stray idle
          memory (fun call => frame (depth + call)) first near within (not_lt.mp more) spared
        refine ⟨last, idle, _, copied, bound, fun polls enough => ?_⟩
        rw [diskstreamerRead, quotient, remainder, totalToRead_eq, reads polls enough]
        dsimp only
        rw [if_neg (lt_irrefl 0), if_neg more, if_neg (by simp), Int.toNat_natCast]
        rfl

end Reads

end Ports

open Ports

/-- **A stream read through the ports refines the stream read over the sectors of the media**, on an
idle device that does what is documented of it, for a range below 2 GiB on sectors that the drive
has, when no buffer of the calls it makes overlaps the destination. It returns the same status and
the same position, the bytes are at the destination, the device is idle again, and of the rest of
the memory only the buffers change. -/
theorem diskstreamer_read_refines {σ : Type} {device : Device (BitVec 16) σ}
    {media : Bool → ℕ → ℕ → Byte} {capacity : Bool → ℕ} {At : σ → Phase → Prop}
    (documented : device.Documented ataPort media capacity At) {state : σ} (idle : Idle At state)
    (stray : Int → Byte) (frame : ℕ → Word) {pos total : ℕ} (addressed : pos + total < 2 ^ 31)
    (within : pos / phixSectorSize + readCalls pos total ≤ capacity false) (out : Word)
    (apart : ∀ call < readCalls pos total, ∀ i < phixSectorSize, ∀ j < total,
      frame call + BitVec.ofNat 32 i ≠ out + BitVec.ofNat 32 j) (memory : ByteMemory) :
    ∃ last, Idle At last ∧ ∃ stored : ByteMemory,
      (∃ bound, ∀ polls, bound ≤ polls →
        Ports.diskstreamerRead device polls frame true 0 ⟨state, memory⟩ pos out total =
          some ((Phix.diskstreamerRead (mediaDisk media stray) pos total).1, ⟨last, stored⟩,
            (Phix.diskstreamerRead (mediaDisk media stray) pos total).2.2)) ∧
      slice (fun j => stored (out + BitVec.ofNat 32 j)) 0 total =
        (Phix.diskstreamerRead (mediaDisk media stray) pos total).2.1 ∧
      ∀ x, total ≤ (x - out).toNat →
        (∀ call < readCalls pos total, phixSectorSize ≤ (x - frame call).toNat) →
          stored x = memory x := by
  have first (call : ℕ) : frame (0 + call) = frame call := congrArg frame call.zero_add
  have spared : ∀ call < readCalls pos total, ∀ i < phixSectorSize, ∀ j < total,
      frame (0 + call) + BitVec.ofNat 32 i ≠ out + BitVec.ofNat 32 j := by
    intro call
    rw [first]
    exact apart call
  obtain ⟨last, ended, stored, copied, bound, reads⟩ :=
    diskstreamerRead_stored documented stray idle addressed.le within spared memory
  simp only [first] at copied
  rw [diskstreamerRead_eq (show (mediaDisk media stray).isDisk0 = true from rfl) addressed.le]
  dsimp only
  refine ⟨last, ended, stored, ⟨bound, reads⟩, ?_, copied.elsewhere⟩
  unfold slice
  refine List.map_congr_left fun j member => ?_
  rw [Nat.zero_add]
  exact copied.bytes j (List.mem_range.mp member)

/-- A read across the end of a sector, with the buffers of its two calls below the destination. -/
theorem diskstreamer_read_refines_two : ∃ polls last stored,
    Ports.diskstreamerRead NumberedDisk.device polls
        (fun call => BitVec.ofNat 32 (0x10000 - 0x400 * call)) true 0
        ⟨NumberedDisk.reset, fun _ => 0⟩ 300 0x20000 600 = some (0, ⟨last, stored⟩, 900) ∧
      stored 0x20000 = 0 ∧ stored 0x20257 = 1 := by
  have whole := diskstreamerRead_eq
    (show (mediaDisk NumberedDisk.media fun _ => 0).isDisk0 = true from rfl)
    (show 300 + 600 ≤ 2 ^ 31 by decide)
  obtain ⟨last, -, stored, ⟨bound, reads⟩, bytes, -⟩ := diskstreamer_read_refines
    NumberedDisk.documented NumberedDisk.reset_idle (fun _ => 0)
    (fun call => BitVec.ofNat 32 (0x10000 - 0x400 * call)) (show 300 + 600 < 2 ^ 31 by decide)
    (by decide) 0x20000 (by unfold readCalls phixSectorSize; intro call few i _ j _; bv_omega)
    fun _ => 0
  rw [whole] at reads bytes
  have byte (j : ℕ) (inside : j < 600) : stored (0x20000 + BitVec.ofNat 32 j) =
      (mediaDisk NumberedDisk.media fun _ => 0).image (300 + j) := by
    have same := congrArg (·.getD j 0) bytes
    dsimp only at same
    rw [getD_slice _ inside, getD_slice _ inside, Nat.zero_add] at same
    exact same
  exact ⟨bound, last, stored, reads bound le_rfl, byte 0 (by decide), byte 599 (by decide)⟩

end Phix
