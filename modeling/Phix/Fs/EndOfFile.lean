import Phix.Fs.Arithmetic
import Phix.Fs.Resolution

/-! # The end of a file

`fat16_read` does not look at the size of the file: it reads every item it is asked for, as long as
the clusters of its pieces are found. A read reports the items that fit, and stores only bytes of
the file below its end, exactly when all items fit, none fails and each piece lies in the file
(`Phix.fread_end_of_file_iff`).
-/

namespace Phix

open Slices

namespace StreamRead

/-- The bytes of the disk that a stream read is for. -/
def bytes (disk : Disk) (read : StreamRead) : List Byte :=
  slice disk.image read.pos.toNat read.total.toNat

/-- The bytes that the stream delivers for a read. -/
def delivered (disk : Disk) (read : StreamRead) : List Byte :=
  (diskstreamerRead disk read.pos read.total).2.1

/-- The read starts on the disk and ends where positions are `int`s. -/
structure Addressed (read : StreamRead) : Prop where
  starts : 0 < read.total → 0 ≤ read.pos
  ends : read.pos + read.total ≤ 2 ^ 31

end StreamRead

/-- The stream delivers the bytes a read is for. -/
theorem StreamRead.Addressed.delivered {disk : Disk} (disk0 : disk.isDisk0 = true)
    {read : StreamRead} (addressed : read.Addressed) : read.delivered disk = read.bytes disk := by
  obtain ⟨cluster, pos, total⟩ := read
  obtain ⟨starts, ends⟩ := addressed
  dsimp only at starts ends
  unfold StreamRead.delivered StreamRead.bytes
  dsimp only
  by_cases some : 0 < total
  · have start : ((pos.toNat : ℕ) : Int) = pos := Int.toNat_of_nonneg (starts some)
    have length : ((total.toNat : ℕ) : Int) = total := Int.toNat_of_nonneg some.le
    have read := diskstreamerRead_eq disk0 (show pos.toNat + total.toNat ≤ 2 ^ 31 by omega)
    rw [start, length] at read
    rw [read]
  · have none : total.toNat = 0 := Int.toNat_of_nonpos (not_lt.mp some)
    have stored := (diskstreamerRead_stored disk pos total).1
    rw [none] at stored ⊢
    exact List.eq_nil_of_length_eq_zero (Nat.le_zero.mp stored)

/-- A read that succeeds stores what the stream delivers for its pieces, one after the other. -/
theorem fat16ReadInternalFromStream_delivered {volume : Volume} (streams : Streams)
    (start offset total : Int)
    (works : 0 ≤ (fat16ReadInternalFromStream volume (fat16GetClusterForOffset volume) streams start
      offset total).1) :
    (fat16ReadInternalFromStream volume (fat16GetClusterForOffset volume) streams start offset
        total).2.1 =
      (readPieces int32 volume start offset total).flatMap
        fun piece => piece.read.delivered volume.disk := by
  fun_induction fat16ReadInternalFromStream volume (fat16GetClusterForOffset volume) streams start
    offset total with
  | case1 streams offset total used fat found missed => exact absurd missed (Int.not_lt.mpr works)
  | case2 streams offset total size used fat found hit place sector pos amount ret out moved read
      next failed => exact absurd failed (Int.not_lt.mpr works)
  | case3 streams offset total size used fat found hit place sector pos amount ret out moved read
      next answers more ret' rest last result ih =>
      obtain ⟨isRead, -⟩ := @pieceInts_read volume start offset total used (clusterAt_eq found hit)
      have later : 0 < total - pieceTotal volume total := more
      rw [result] at ih
      have stored : out = StreamRead.delivered volume.disk ⟨used, pos, amount⟩ :=
        (congrArg (fun read => read.2.1) read).symm
      rw [readPieces, if_pos later, List.flatMap_cons, isRead]
      exact congrArg₂ (· ++ ·) stored (ih works)
  | case4 streams offset total size used fat found hit place sector pos amount ret out moved read
      next answers done =>
      obtain ⟨isRead, -⟩ := @pieceInts_read volume start offset total used (clusterAt_eq found hit)
      have nothing : ¬ 0 < total - pieceTotal volume total := done
      rw [readPieces, if_neg nothing, List.flatMap_singleton, isRead]
      exact (congrArg (fun read => read.2.1) read).symm

namespace FileSystem

/-- The same of the items of a read. -/
theorem fat16Read_loop_delivered (fs : FileSystem) (item : List Byte) (size : Word) (n : ℕ)
    (offset : Int) (works : 0 ≤ (fat16Read.loop fs item size n offset).1) :
    (fat16Read.loop fs item size n offset).2.1.flatten =
      ((readItemInts int32 fs.volume (fat16GetFirstCluser item).toInt size n offset).flatMap
        ItemInts.pieces).flatMap fun piece => piece.read.delivered fs.volume.disk := by
  induction n generalizing fs offset with
  | zero => rfl
  | succ n ih =>
      unfold fat16Read.loop at works ⊢
      dsimp only at works ⊢
      by_cases failed : (fs.readInternal (fat16GetFirstCluser item).toInt offset size.toInt).1 < 0
      · rw [if_pos failed] at works
        exact absurd failed (Int.not_lt.mpr works)
      · rw [if_neg failed] at works ⊢
        have later := ih (fs.readInternal (fat16GetFirstCluser item).toInt offset size.toInt).2.2
          _ works
        rw [readInternal_volume] at later
        unfold readItemInts
        rw [List.flatMap_cons, int32_toNat, List.flatten_cons, List.flatMap_append]
        exact congrArg₂ (· ++ ·) (fat16ReadInternalFromStream_delivered fs.streams _ offset
          size.toInt (Int.not_lt.mp failed)) later

/-- The first cluster of the file that is open with a number, by its item. -/
def firstClusterOf (fs : FileSystem) (fd : Int) : Word :=
  fat16GetFirstCluser (fs.bytesAt (fs.itemOf fd).ref)

/-- The reads of the stream that a read of an open file consists of. -/
def streamReads (fs : FileSystem) (fd : Int) (size n : Word) : List StreamRead :=
  ((fs.readInts int32 fd size n).flatMap ItemInts.pieces).map PieceInts.read

/-- A position on the disk of a byte of an open file: of an offset below its size, in the cluster
for it of the file's chain. -/
def FileByte (fs : FileSystem) (fd x : Int) : Prop :=
  ∃ chain, fs.volume.Chain (fs.firstClusterOf fd).toNat chain ∧
    ∃ offset < (fs.filesizeOf fd).toNat, ∃ cluster, 2 ≤ cluster ∧
      chain[offset / fs.volume.sizeOfClusterBytes]? = some cluster ∧
      x = (fs.volume.clusterStart cluster + offset % fs.volume.sizeOfClusterBytes : ℕ)

/-- A stream read takes bytes of the file only. -/
structure WithinFile (fs : FileSystem) (fd : Int) (read : StreamRead) : Prop where
  ends : read.pos + read.total ≤ 2 ^ 31
  bytes : ∀ x, read.pos ≤ x → x < read.pos + read.total → fs.FileByte fd x

theorem WithinFile.addressed {fs : FileSystem} {fd : Int} {read : StreamRead}
    (within : fs.WithinFile fd read) : read.Addressed where
  starts positive := by
    obtain ⟨_, _, _, _, _, _, _, place⟩ := within.bytes read.pos le_rfl (by omega)
    rw [place]
    exact Int.natCast_nonneg _
  ends := within.ends

/-- A read stops at the end of the file: what it stores are the bytes of its reads of the stream,
each of them within the file, no more of them than lie behind the position; and it reports the
items that fit there. -/
structure StopsAtEnd (fs : FileSystem) (fd : Int) (size n : Word) : Prop where
  delivers : ∃ reads : List StreamRead,
    (fs.fread size n fd).2.2.streams.issued = reads.reverse ++ fs.streams.issued ∧
    (fs.fread size n fd).2.1.flatten = reads.flatMap (StreamRead.bytes fs.volume.disk) ∧
    ∀ read ∈ reads, fs.WithinFile fd read
  ends : (fs.position fd).toNat + (fs.fread size n fd).2.1.flatten.length ≤
    (fs.filesizeOf fd).toNat
  reported : (fs.fread size n fd).1 = (min n.toNat
    (((fs.filesizeOf fd).toNat - (fs.position fd).toNat) / size.toNat) : ℕ)
  short : (fs.filesizeOf fd).toNat < (fs.position fd).toNat + size.toNat * n.toNat →
    (fs.fread size n fd).1 ≠ n.toNat

/-- All items fit behind the position, their number is an `int`, none of them fails (the disk
answers and every piece is found), and every piece lies in the file. -/
structure EndsInFile (fs : FileSystem) (fd : Int) (size n : Word) : Prop where
  fits : (fs.position fd).toNat + size.toNat * n.toNat ≤ (fs.filesizeOf fd).toNat
  counted : n.toNat < 2 ^ 31
  disk0 : fs.volume.disk.isDisk0 = true
  found : ItemsFound fs.volume (fs.firstClusterOf fd).toInt size n.toNat (fs.position fd).toInt
  within : ∀ item ∈ fs.readInts int32 fd size n, ∀ piece ∈ item.pieces, fs.WithinFile fd piece.read

section Reading

variable {fs : FileSystem} {fd : Int} {size n : Word}

/-- An `fread` that reports as many items as fit has read all that it was asked for. -/
theorem StopsAtEnd.works (opens : fs.OpensFile fd) (sized : 1 ≤ size.toNat) (counted : 1 ≤ n.toNat)
    (stops : fs.StopsAtEnd fd size n) :
    size * n ≠ 0 ∧ 0 ≤ (fat16Read.loop fs (fs.bytesAt (fs.itemOf fd).ref) size n.toNat
        (fs.position fd).toInt).1 ∧
      n.toNat < 2 ^ 31 ∧
      (fs.position fd).toNat + size.toNat * n.toNat ≤ (fs.filesizeOf fd).toNat := by
  have reported := stops.reported
  rw [(fread_eq opens size n).1] at reported
  generalize (fat16Read.loop fs (fs.bytesAt (fs.itemOf fd).ref) size n.toNat
    (fs.position fd).toInt).1 = status at reported ⊢
  generalize share : ((fs.filesizeOf fd).toNat - (fs.position fd).toNat) / size.toNat = items
    at reported
  have nonempty : size * n ≠ 0 := by
    intro empty
    rw [if_pos empty] at reported
    exact absurd reported (by unfold EINVAL; omega)
  rw [if_neg nonempty] at reported
  have works : ¬ status < 0 := by
    intro failed
    rw [if_pos failed] at reported
    omega
  rw [if_neg works, BitVec.toInt_eq_toNat_cond] at reported
  have bound := n.isLt
  have small : n.toNat < 2 ^ 31 := by
    split at reported <;> omega
  rw [if_pos (by omega)] at reported
  have all : n.toNat ≤ ((fs.filesizeOf fd).toNat - (fs.position fd).toNat) / size.toNat := by
    rw [share]
    omega
  have fits := (Nat.le_div_iff_mul_le sized).mp all
  have some := Nat.mul_pos counted sized
  rw [Nat.mul_comm] at fits some
  exact ⟨nonempty, not_lt.mp works, small, by omega⟩

/-- The reads of the stream of an `fread` that works, and what they deliver. -/
theorem fread_delivers (opens : fs.OpensFile fd) (nonempty : size * n ≠ 0)
    (works : 0 ≤ (fat16Read.loop fs (fs.bytesAt (fs.itemOf fd).ref) size n.toNat
      (fs.position fd).toInt).1) :
    (fs.fread size n fd).2.2.streams.issued =
        (fs.streamReads fd size n).reverse ++ fs.streams.issued ∧
      (fs.fread size n fd).2.1.flatten =
        (fs.streamReads fd size n).flatMap (StreamRead.delivered fs.volume.disk) := by
  have result := (fread_eq opens size n).2
  rw [if_neg nonempty] at result
  unfold streamReads readInts
  rw [result, int32_toNat, List.flatMap_map]
  exact ⟨(fs.fat16Read_loop_items _ size n.toNat _ works).1,
    fs.fat16Read_loop_delivered _ size n.toNat _ works⟩

end Reading

end FileSystem

/-- **Reads stop at the end of a file exactly when the request ends before it**, and stays in the
file's clusters. A read of `n` items of an open regular file reports the items that fit behind the
position, and stores only bytes of the file below its size, exactly when all items fit, their
number is an `int`, none of them fails and every piece lies in the file. -/
theorem fread_end_of_file_iff {fs : FileSystem} {fd : Int} (opens : fs.OpensFile fd)
    {size n : Word} (sized : 1 ≤ size.toNat) (counted : 1 ≤ n.toNat) :
    fs.StopsAtEnd fd size n ↔ fs.EndsInFile fd size n := by
  have fails := fs.fat16Read_loop_neg (fs.bytesAt (fs.itemOf fd).ref) size n.toNat
    (show int32 (fs.position fd).toInt = _ by rw [← FileSystem.int32_toNat, int32_int32])
  constructor
  · intro stops
    obtain ⟨nonempty, works, small, fits⟩ := stops.works opens sized counted
    obtain ⟨disk0, found⟩ := not_not.mp fun missing =>
      not_lt.mpr works (fails.mpr ⟨by omega, missing⟩)
    obtain ⟨reads, issued, -, within⟩ := stops.delivers
    rw [(FileSystem.fread_delivers opens nonempty works).1, List.append_cancel_right_eq,
      List.reverse_inj] at issued
    refine ⟨fits, small, disk0, found, fun item isItem piece isPiece => within _ ?_⟩
    rw [← issued]
    exact List.mem_map_of_mem (List.mem_flatMap.mpr ⟨item, isItem, isPiece⟩)
  · rintro ⟨fits, small, disk0, found, within⟩
    have bound := (fs.filesizeOf fd).isLt
    have some := Nat.mul_pos sized counted
    have nonempty : size * n ≠ 0 := by
      intro empty
      have zero := congrArg BitVec.toNat empty
      rw [BitVec.toNat_mul, Nat.mod_eq_of_lt (by omega)] at zero
      exact some.ne' zero
    have works := not_lt.mp fun failed => (fails.mp failed).2 ⟨disk0, found⟩
    have all : n.toNat ≤ ((fs.filesizeOf fd).toNat - (fs.position fd).toNat) / size.toNat := by
      rw [Nat.le_div_iff_mul_le sized, Nat.mul_comm]
      omega
    have reported : (fs.fread size n fd).1 = n.toNat := by
      rw [(FileSystem.fread_eq opens size n).1, if_neg nonempty, if_neg (not_lt.mpr works),
        BitVec.toInt_eq_toNat_cond, if_pos (by omega)]
    have pieces : ∀ piece ∈ (fs.readInts int32 fd size n).flatMap ItemInts.pieces,
        fs.WithinFile fd piece.read := fun piece isPiece => by
      obtain ⟨item, isItem, ofItem⟩ := List.mem_flatMap.mp isPiece
      exact within item isItem piece ofItem
    obtain ⟨issued, stored⟩ := FileSystem.fread_delivers opens nonempty works
    have inFile := List.forall_mem_map.mpr pieces
    have bytes := stored.trans (List.flatMap_congr fun read isRead =>
      (inFile read isRead).addressed.delivered disk0)
    refine ⟨⟨_, issued, bytes, inFile⟩, ?_, ?_, fun beyond => absurd fits (not_le.mpr beyond)⟩
    · have stored := fs.fat16Read_loop_length_le (fs.bytesAt (fs.itemOf fd).ref) size n.toNat
        (fs.position fd).toInt
      rw [(FileSystem.fread_eq opens size n).2, if_neg nonempty]
      rw [Nat.mul_comm] at stored
      omega
    · rw [reported, Nat.min_eq_left all]

/-- A read of at most a cluster has one piece. -/
theorem readPieces_single {cut : Int → Int} {volume : Volume} {start offset total : Int}
    (small : total ≤ volume.sizeOfClusterBytes) :
    readPieces cut volume start offset total = [pieceInts cut volume start offset total] := by
  have whole : pieceTotal volume total = total := if_neg (not_lt.mpr small)
  rw [readPieces, whole, sub_self, if_neg (lt_irrefl 0)]

/-- The file is the bytes of its cluster, the fourth sector of the disk. -/
theorem mountedFile_fileByte {x : Int} (low : 1536 ≤ x) (high : x < 2048) :
    mountedFile.FileByte 1 x := by
  have cluster : mountedFile.volume.sizeOfClusterBytes = 512 := by decide
  have start : mountedFile.volume.clusterStart 2 = 1536 := by decide
  have filesize : (mountedFile.filesizeOf 1).toNat = 512 := by decide
  refine ⟨[2], .last 2 (by decide), (x - 1536).toNat, by omega, 2, le_rfl, ?_, ?_⟩
  · rw [cluster, Nat.div_eq_of_lt (by omega)]
    rfl
  · rw [start, cluster, Nat.mod_eq_of_lt (by omega)]
    omega

/-- A file of 512 bytes, read as two items. -/
theorem fread_end_of_file_iff_halves : mountedFile.StopsAtEnd 1 256 2 := by
  have cluster : mountedFile.volume.sizeOfClusterBytes = 512 := by decide
  have total : (256 : Word).toInt = 256 := by decide
  have size : int32 ((256 : Word).toNat : ℕ) = 256 := by decide
  refine (fread_end_of_file_iff mountedFile_opensFile (by decide) (by decide)).mpr
    ⟨by decide, by decide, rfl, fun i inside j piece => ?_, fun item isItem piece isPiece => ?_⟩
  · obtain rfl : j = 0 := by
      rcases piece with zero | more
      · exact zero
      · rw [cluster, total] at more
        omega
    have inside : i < 2 := inside
    left
    interval_cases i <;> decide
  · have items : mountedFile.readInts int32 1 256 2 = [_, _] := rfl
    rw [items, size, readPieces_single (by decide), readPieces_single (by decide)] at isItem
    have within {read : StreamRead} (low : 1536 ≤ read.pos) (high : read.pos + read.total ≤ 2048) :
        mountedFile.WithinFile 1 read :=
      ⟨by omega, fun x first last => mountedFile_fileByte (by omega) (by omega)⟩
    rcases List.mem_pair.mp isItem with rfl | rfl <;>
      rw [List.mem_singleton.mp isPiece] <;> exact within (by decide) (by decide)

/-- One item of 513 bytes of the same file. -/
theorem fread_end_of_file_fails : mountedFile.OpensFile 1 ∧ mountedFile.volume.Mountable ∧
    mountedFile.position 1 ≤ mountedFile.filesizeOf 1 ∧ ¬ mountedFile.StopsAtEnd 1 513 1 := by
  refine ⟨mountedFile_opensFile, fileVolume_mountable, by decide, fun stops => ?_⟩
  obtain ⟨-, -, -, fits⟩ := stops.works mountedFile_opensFile (by decide) (by decide)
  exact absurd fits (by decide)

end Phix
