import Phix.Fs.EndOfFile

/-! # A file read as one item

A program is read with its size from `fstat`, as one item. The read fails exactly when the file is
empty, the disk does not answer or the cluster of a piece is not found
(`Phix.FileSystem.fread_whole_neg`); otherwise it stores what the stream delivers for its pieces,
which need not be the file (`Phix.FileSystem.fread_whole_delivers`).
-/

namespace Phix

open Slices

namespace FileSystem

/-- The bytes of the file that is open with a number: those of the clusters of its chain, up to its
size. -/
structure Content (fs : FileSystem) (fd : Int) (bytes : List Byte) : Prop where
  stored : ∃ chain, fs.volume.Chain (fs.firstClusterOf fd).toNat chain ∧
    bytes = (fs.volume.chainBytes chain).take (fs.filesizeOf fd).toNat
  whole : bytes.length = (fs.filesizeOf fd).toNat

/-- The read of the whole file as one item is accepted: the file is not empty, the disk answers, and
the cluster of every piece is found. -/
structure Readable (fs : FileSystem) (fd : Int) : Prop where
  nonempty : fs.filesizeOf fd ≠ 0
  disk0 : fs.volume.disk.isDisk0 = true
  found : PiecesFound fs.volume (fs.firstClusterOf fd).toInt (fs.position fd).toInt
    (fs.filesizeOf fd).toInt

/-- What the stream delivers for the read of the whole file as one item. -/
def delivered (fs : FileSystem) (fd : Int) : List Byte :=
  (fs.streamReads fd (fs.filesizeOf fd) 1).flatMap (StreamRead.delivered fs.volume.disk)

variable {fs : FileSystem} {fd : Int}

/-- What `fstat` answers for an open file. -/
theorem fstat_opens (opens : fs.OpensFile fd) :
    ∃ stat, fs.fstat fd = (0, some stat) ∧ stat.filesize = fs.filesizeOf fd := by
  have regular := not_not_intro opens.regular
  unfold fstat fat16Stat
  dsimp only
  rw [if_neg opens.resolved]
  exact ⟨_, if_neg regular, rfl⟩

theorem fstat_fails (other : ¬ fs.OpensFile fd) : fs.fstat fd = (-EINVAL, none) := by
  unfold fstat
  dsimp only
  by_cases unresolved : fs.fileDescriptorGet fd = null
  · exact if_pos unresolved
  · rw [if_neg unresolved]
    exact if_pos fun regular => other ⟨unresolved, regular⟩

/-- The read of an open file as one item fails exactly when it is not accepted. -/
theorem fread_whole_neg (opens : fs.OpensFile fd) :
    (fs.fread (fs.filesizeOf fd) 1 fd).1 < 0 ↔ ¬ fs.Readable fd := by
  have inRange : int32 (fs.position fd).toInt = (fs.position fd).toInt := by
    rw [← int32_toNat, int32_int32]
  have fails := fs.fat16Read_loop_neg (fs.bytesAt (fs.itemOf fd).ref) (fs.filesizeOf fd) 1 inRange
  have single : ItemsFound fs.volume (fs.firstClusterOf fd).toInt (fs.filesizeOf fd) 1
      (fs.position fd).toInt ↔ PiecesFound fs.volume (fs.firstClusterOf fd).toInt
        (fs.position fd).toInt (fs.filesizeOf fd).toInt := by
    rw [itemsFound_succ inRange]
    exact and_iff_left fun i absent => absurd absent (Nat.not_lt_zero i)
  rw [(fread_eq opens (fs.filesizeOf fd) 1).1]
  by_cases empty : fs.filesizeOf fd = 0
  · rw [if_pos (by rw [empty]; rfl)]
    exact iff_of_true (show (-EINVAL : Int) < 0 by decide) fun readable => readable.nonempty empty
  rw [if_neg (by rwa [mul_one])]
  have loop : (fat16Read.loop fs (fs.bytesAt (fs.itemOf fd).ref) (fs.filesizeOf fd) 1
      (fs.position fd).toInt).1 < 0 ↔ ¬ fs.Readable fd := by
    refine fails.trans ?_
    rw [and_iff_right one_ne_zero]
    refine not_congr ⟨fun both => ⟨empty, both.1, single.mp both.2⟩, fun readable =>
      ⟨readable.disk0, single.mpr readable.found⟩⟩
  split
  · rename_i failed
    exact iff_of_true failed (loop.mp failed)
  · rename_i works
    exact iff_of_false (show ¬ (1 : Word).toInt < 0 by decide) fun refused =>
      works (loop.mpr refused)

/-- What is stored by the read of an open file as one item. -/
theorem fread_whole_delivers (opens : fs.OpensFile fd) (readable : fs.Readable fd) :
    (fs.fread (fs.filesizeOf fd) 1 fd).2.1 = [fs.delivered fd] ∧
      (fs.delivered fd).length ≤ (fs.filesizeOf fd).toNat := by
  have nonempty : fs.filesizeOf fd * 1 ≠ 0 := by
    rw [mul_one]
    exact readable.nonempty
  have accepted := mt (fread_whole_neg opens).mp (not_not_intro readable)
  rw [(fread_eq opens (fs.filesizeOf fd) 1).1, if_neg nonempty] at accepted
  have works : 0 ≤ (fat16Read.loop fs (fs.bytesAt (fs.itemOf fd).ref) (fs.filesizeOf fd)
      (1 : Word).toNat (fs.position fd).toInt).1 := by
    by_contra failed
    rw [if_pos (not_le.mp failed)] at accepted
    exact accepted (not_le.mp failed)
  have stored := (fread_delivers opens nonempty works).2
  have length := fs.fat16Read_loop_length_le (fs.bytesAt (fs.itemOf fd).ref) (fs.filesizeOf fd) 1
    (fs.position fd).toInt
  obtain ⟨out, single⟩ : ∃ out, (fs.fread (fs.filesizeOf fd) 1 fd).2.1 = [out] := by
    rw [(fread_eq opens (fs.filesizeOf fd) 1).2, if_neg nonempty]
    change ∃ out, (fat16Read.loop fs _ _ (0 + 1) _).2.1 = [out]
    unfold fat16Read.loop
    dsimp only
    split <;> exact ⟨_, rfl⟩
  have whole : out = fs.delivered fd := by
    rw [single, List.flatten_singleton] at stored
    exact stored
  refine ⟨whole ▸ single, ?_⟩
  rw [← whole, ← List.flatten_singleton (l := out), ← single, (fread_eq opens _ 1).2,
    if_neg nonempty]
  rwa [one_mul] at length

/-- A file of at most one cluster, which is read from its start. -/
structure OneCluster (fs : FileSystem) (fd : Int) (cluster : ℕ) : Prop where
  disk0 : fs.volume.disk.isDisk0 = true
  atStart : fs.position fd = 0
  first : (fs.firstClusterOf fd).toNat = cluster
  data : fs.volume.DataCluster cluster
  ends : 0xFFF8 ≤ fs.volume.tableEntry cluster
  small : (fs.filesizeOf fd).toNat ≤ fs.volume.sizeOfClusterBytes

section OneCluster

variable {cluster : ℕ} (single : fs.OneCluster fd cluster)

include single

/-- The bytes of the file are the first ones of its cluster. -/
theorem OneCluster.content : fs.Content fd
    (slice fs.volume.disk.image (fs.volume.clusterStart cluster) (fs.filesizeOf fd).toNat) := by
  refine ⟨⟨[cluster], single.first.symm ▸ .last cluster single.ends, ?_⟩, length_slice ..⟩
  have bytes : fs.volume.chainBytes [cluster] = fs.volume.clusterBytes cluster :=
    List.append_nil _
  have inside : 0 + (fs.filesizeOf fd).toNat ≤ fs.volume.sizeOfClusterBytes := by
    rw [Nat.zero_add]
    exact single.small
  have first : ((slice fs.volume.disk.image (fs.volume.clusterStart cluster)
      fs.volume.sizeOfClusterBytes).drop 0).take _ = _ :=
    take_drop_slice fs.volume.disk.image inside
  rw [Nat.add_zero, List.drop_zero] at first
  rw [bytes]
  exact first.symm

/-- It can be read unless it is empty. -/
theorem OneCluster.readable (nonempty : fs.filesizeOf fd ≠ 0) : fs.Readable fd := by
  have small := single.small
  have positive := fs.volume.sizeOfClusterBytes_pos
  have total : (fs.filesizeOf fd).toInt ≤ (fs.filesizeOf fd).toNat := by
    rw [BitVec.toInt_eq_toNat_cond]
    split <;> omega
  refine ⟨nonempty, single.disk0, ?_⟩
  rw [single.atStart]
  refine (piecesFound_single (show int32 (0 : Word).toInt = _ by decide) (by omega)).mpr (.inl ?_)
  rw [show (0 : Word).toInt = 0 from rfl]
  omega

/-- So are those that the stream delivers. -/
theorem OneCluster.delivered : fs.delivered fd =
    slice fs.volume.disk.image (fs.volume.clusterStart cluster) (fs.filesizeOf fd).toNat := by
  have small := single.small
  have addressed := single.data.addressed
  have largest : fs.volume.sizeOfClusterBytes ≤ 255 * phixSectorSize :=
    Nat.mul_le_mul_right _ (Nat.le_of_lt_succ (sectorsPerCluster fs.volume.header).isLt)
  unfold phixSectorSize at largest
  have start : (fs.firstClusterOf fd).toInt = cluster := by
    have positive := fat16GetFirstCluser_nonneg (fs.bytesAt (fs.itemOf fd).ref)
    change 0 ≤ (fs.firstClusterOf fd).toInt at positive
    rw [← single.first]
    rw [BitVec.toInt_eq_toNat_cond] at positive ⊢
    split at positive <;> rename_i low
    · rw [if_pos low]
    · omega
  have total : int32 (fs.filesizeOf fd).toNat = (fs.filesizeOf fd).toNat :=
    int32_eq_self (by omega) (by omega)
  have place : clusterAt fs.volume (fs.firstClusterOf fd).toInt 0 = cluster := by
    unfold clusterAt
    rw [Int.zero_tdiv, if_neg (lt_irrefl 0), start]
  have isRead : (pieceInts int32 fs.volume (fs.firstClusterOf fd).toInt 0
      (fs.filesizeOf fd).toNat).read = _ := (pieceInts_read place.symm).1
  have pos := single.data.startPos fs.volume.sizeOfClusterBytes_pos
  rw [Nat.cast_zero, add_zero, Nat.add_zero] at pos
  have whole : pieceTotal fs.volume (fs.filesizeOf fd).toNat = (fs.filesizeOf fd).toNat :=
    if_neg (by omega)
  rw [Int.zero_tmod, add_zero, pos, whole] at isRead
  have reads : fs.streamReads fd (fs.filesizeOf fd) 1 =
      [⟨cluster, fs.volume.clusterStart cluster, (fs.filesizeOf fd).toNat⟩] := by
    unfold streamReads readInts
    rw [single.atStart, show int32 ((0 : Word).toNat : ℕ) = 0 by decide,
      show (1 : Word).toNat = 0 + 1 from rfl, readItemInts, total, readPieces_single (by omega)]
    exact congrArg (fun read => [read]) isRead
  unfold FileSystem.delivered
  rw [reads, List.flatMap_singleton, StreamRead.Addressed.delivered single.disk0
    ⟨fun _ => Int.natCast_nonneg _, by dsimp only; omega⟩]
  unfold StreamRead.bytes
  rw [Int.toNat_natCast, Int.toNat_natCast]

end OneCluster

end FileSystem

end Phix
