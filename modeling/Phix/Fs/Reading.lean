import Mathlib.Order.Interval.Finset.Nat
import Phix.Fs.Fat16

/-! # Reading a range of a file

A file is the concatenation of the clusters of its chain. A read takes one piece of at most
the size of a cluster in every round, from the place of the offset in its cluster on; the
offset then advances by the size of a cluster, so every piece starts at the same place in its
cluster. A read that starts at a cluster boundary, or ends in the cluster it starts in,
delivers the bytes of the file, and any other runs past the end of the first cluster
(`Phix.fat16_read_internal_slice_iff`).
-/

namespace Phix

open Slices

namespace Volume

variable (volume : Volume)

/-- The position on the disk of the first byte of a data cluster. -/
def clusterStart (cluster : ℕ) : ℕ :=
  (volume.rootDirectory.endingSectorPos.toNat +
    (cluster - 2) * (sectorsPerCluster volume.header).toNat) * phixSectorSize

/-- A data cluster whose bytes all have a position. -/
structure DataCluster (cluster : ℕ) : Prop where
  data : 2 ≤ cluster
  addressed : volume.clusterStart cluster + volume.sizeOfClusterBytes ≤ 2 ^ 31

def clusterBytes (cluster : ℕ) : List Byte :=
  slice volume.disk.image (volume.clusterStart cluster) volume.sizeOfClusterBytes

/-- The bytes of a file: the clusters of its chain, one after the other. -/
def chainBytes (chain : List ℕ) : List Byte := chain.flatMap volume.clusterBytes

/-- The read starts in its cluster and does not cross its end. -/
def InsideCluster (read : StreamRead) : Prop :=
  (volume.clusterStart read.cluster.toNat : Int) ≤ read.pos ∧
    read.pos + read.total ≤
      (volume.clusterStart read.cluster.toNat : Int) + volume.sizeOfClusterBytes

variable {volume}

@[simp] theorem length_clusterBytes (cluster : ℕ) :
    (volume.clusterBytes cluster).length = volume.sizeOfClusterBytes := length_slice ..

/-- The position the code computes for a place in a data cluster. -/
theorem DataCluster.startPos {cluster r : ℕ} (data : volume.DataCluster cluster)
    (inside : r < volume.sizeOfClusterBytes) :
    int32 (fat16ClusterToSector volume cluster * phixSectorSize + r) =
      (volume.clusterStart cluster + r : ℕ) := by
  have addressed := data.addressed
  have first := data.data
  unfold clusterStart at *
  unfold phixSectorSize at *
  have sector : (volume.rootDirectory.endingSectorPos.toNat : Int) +
      ((cluster : Int) - 2) * (sectorsPerCluster volume.header).toNat =
      ((volume.rootDirectory.endingSectorPos.toNat +
        (cluster - 2) * (sectorsPerCluster volume.header).toNat : ℕ) : Int) := by
    push_cast [Nat.cast_sub first]
    rfl
  unfold fat16ClusterToSector
  rw [sector]
  generalize volume.rootDirectory.endingSectorPos.toNat +
    (cluster - 2) * (sectorsPerCluster volume.header).toNat = position at addressed ⊢
  have exact : int32 (position : Int) = position := int32_eq_self (by omega) (by omega)
  rw [exact, int32_eq_self] <;> push_cast <;> omega

/-- A piece of a file inside one of its clusters. -/
theorem chainBytes_piece {chain : List ℕ} {offset t cluster : ℕ}
    (member : chain[offset / volume.sizeOfClusterBytes]? = some cluster)
    (inside : offset % volume.sizeOfClusterBytes + t ≤ volume.sizeOfClusterBytes) :
    ((volume.chainBytes chain).drop offset).take t =
      slice volume.disk.image
          (volume.clusterStart cluster + offset % volume.sizeOfClusterBytes) t := by
  have place : offset = offset / volume.sizeOfClusterBytes * volume.sizeOfClusterBytes +
      offset % volume.sizeOfClusterBytes := (Nat.div_add_mod' _ _).symm
  rw [← take_drop_slice volume.disk.image inside]
  conv_lhs => rw [place]
  exact take_drop_flatMap (fun x _ => length_clusterBytes x) member inside

/-- A chain of distinct data clusters. -/
structure DataChain (volume : Volume) (chain : List ℕ) : Prop where
  clusters : ∀ cluster ∈ chain, volume.DataCluster cluster
  distinct : chain.Nodup

/-- The bytes of a chain are counted by an `int`. -/
theorem DataChain.bounded {chain : List ℕ} (chained : volume.DataChain chain) :
    chain.length * volume.sizeOfClusterBytes ≤ 2 ^ 31 := by
  have positive := volume.sizeOfClusterBytes_pos
  refine (Nat.le_div_iff_mul_le positive).mp ?_
  have below : chain.toFinset ⊆ Finset.Ico 2 (2 + 2 ^ 31 / volume.sizeOfClusterBytes) := by
    intro cluster member
    obtain ⟨first, addressed⟩ := chained.clusters cluster (List.mem_toFinset.mp member)
    refine Finset.mem_Ico.mpr ⟨first, ?_⟩
    have inside : (cluster - 2 + 1) * volume.sizeOfClusterBytes ≤ 2 ^ 31 := by
      refine le_trans ?_ addressed
      unfold clusterStart sizeOfClusterBytes
      rw [Nat.succ_mul, Nat.add_mul, Nat.mul_assoc]
      exact Nat.add_le_add_right (Nat.le_add_left _ _) _
    have := (Nat.le_div_iff_mul_le positive).mpr inside
    omega
  have count := Finset.card_le_card below
  rwa [List.toFinset_card_of_nodup chained.distinct, Nat.card_Ico, Nat.add_sub_cancel_left] at count

end Volume

/-- The function that finds the cluster of an offset finds the clusters of a chain. -/
def Follows (getClusterForOffset : Int → Int → Int → Int × Int) (start : Int) (size : ℕ)
    (chain : List ℕ) : Prop :=
  ∀ (fat : Int) (offset cluster : ℕ), chain[offset / size]? = some cluster →
    (getClusterForOffset fat start offset).1 = cluster

section Rounds

variable {volume : Volume} {getClusterForOffset : Int → Int → Int → Int × Int}

/-- Reads are only added to those issued before. -/
theorem fat16ReadInternalFromStream_issued (streams : Streams) (cluster offset total : Int) :
    ∃ later, (fat16ReadInternalFromStream volume getClusterForOffset streams cluster offset
      total).2.2.issued = later ++ streams.issued := by
  fun_induction fat16ReadInternalFromStream volume getClusterForOffset streams cluster offset total
  with
  | case1 => exact ⟨[], rfl⟩
  | case2 => exact ⟨[_], rfl⟩
  | case3 =>
      rename_i result ih
      obtain ⟨later, issued⟩ := ih
      rw [result] at issued
      exact ⟨_, issued.trans (List.append_cons ..)⟩
  | case4 => exact ⟨[_], rfl⟩

variable (disk0 : volume.disk.isDisk0 = true)

include disk0

/-- One round of a read: a piece from the cluster of the offset, and the rest. -/
theorem fat16ReadInternalFromStream_round (streams : Streams) (start : Int) (offset : ℕ)
    (total : Int)
    {cluster : ℕ} {fat : Int} (found : getClusterForOffset streams.fat start offset =
    ((cluster : Int), fat))
    (data : volume.DataCluster cluster) :
    ∃ piece pos, diskstreamerRead volume.disk
        (volume.clusterStart cluster + offset % volume.sizeOfClusterBytes : ℕ)
        (min (volume.sizeOfClusterBytes : Int) total) = (0, piece, pos) ∧
      fat16ReadInternalFromStream volume getClusterForOffset streams start offset total =
        let next : Streams := { streams with
          fat, cluster := pos
          issued :=
            ⟨cluster, (volume.clusterStart cluster + offset % volume.sizeOfClusterBytes : ℕ),
            min (volume.sizeOfClusterBytes : Int) total⟩ :: streams.issued }
        if (volume.sizeOfClusterBytes : Int) < total then
          let (ret, rest, last) := fat16ReadInternalFromStream volume getClusterForOffset next start
            (int32 (offset + volume.sizeOfClusterBytes)) (total - volume.sizeOfClusterBytes)
          (ret, piece ++ rest, last)
        else (0, piece, next) := by
  have remainder : (offset : Int).tmod volume.sizeOfClusterBytes =
      ((offset % volume.sizeOfClusterBytes : ℕ) : Int) := Int.ofNat_tmod .. |>.symm
  have position := data.startPos (Nat.mod_lt offset volume.sizeOfClusterBytes_pos)
  have status := diskstreamerRead_status disk0
    (volume.clusterStart cluster + offset % volume.sizeOfClusterBytes : ℕ)
    (min (volume.sizeOfClusterBytes : Int) total)
  have request : (if (volume.sizeOfClusterBytes : Int) < total then
      (volume.sizeOfClusterBytes : Int) else total) = min
          (volume.sizeOfClusterBytes : Int) total := by
    split <;> omega
  rw [fat16ReadInternalFromStream, found]
  dsimp only
  rw [if_neg (by omega), remainder, position, request]
  generalize diskstreamerRead volume.disk _ _ = read at status ⊢
  obtain ⟨ret, piece, pos⟩ := read
  obtain rfl : ret = 0 := status
  refine ⟨piece, pos, rfl, ?_⟩
  dsimp only
  rw [if_neg (lt_irrefl 0)]
  by_cases more : (volume.sizeOfClusterBytes : Int) < total
  · rw [if_pos more, min_eq_left more.le, if_pos (by omega)]
  · rw [if_neg more, min_eq_right (not_lt.mp more), if_neg (by omega)]

/-- A read that starts at a cluster boundary or ends in the cluster it starts in. -/
theorem fat16ReadInternalFromStream_slice {chain : List ℕ} (chained : volume.DataChain chain)
    {start : Int} (follows : Follows getClusterForOffset start volume.sizeOfClusterBytes chain)
    (streams : Streams) {offset total : ℕ}
    (starts : offset < chain.length * volume.sizeOfClusterBytes)
    (within : offset + total ≤ chain.length * volume.sizeOfClusterBytes)
    (pieces : offset % volume.sizeOfClusterBytes = 0 ∨
      offset % volume.sizeOfClusterBytes + total ≤ volume.sizeOfClusterBytes) :
    ∃ issued last,
      fat16ReadInternalFromStream volume getClusterForOffset streams start offset total =
        (0, ((volume.chainBytes chain).drop offset).take total, last) ∧
      last.issued = issued ++ streams.issued ∧ ∀ read ∈ issued, volume.InsideCluster read := by
  have positive := volume.sizeOfClusterBytes_pos
  have bounded := chained.bounded
  induction total using Nat.strong_induction_on generalizing streams offset with
  | _ total ih =>
      obtain ⟨cluster, member⟩ : ∃ cluster,
        chain[offset / volume.sizeOfClusterBytes]? = some cluster :=
        ⟨_, List.getElem?_eq_getElem (Nat.div_lt_of_lt_mul (by rwa [Nat.mul_comm]))⟩
      have data := chained.clusters cluster (List.mem_of_getElem? member)
      have addressed := data.addressed
      have remainder := Nat.mod_lt offset positive
      have found : getClusterForOffset streams.fat start offset =
          ((cluster : Int), (getClusterForOffset streams.fat start offset).2) :=
        Prod.ext (follows streams.fat offset cluster member) rfl
      obtain ⟨piece, pos, read, round⟩ :=
        fat16ReadInternalFromStream_round disk0 streams start offset total found data
      have delivers : ∀ n : ℕ, min (volume.sizeOfClusterBytes : Int) total = n →
          offset % volume.sizeOfClusterBytes + n ≤ volume.sizeOfClusterBytes →
          piece = ((volume.chainBytes chain).drop offset).take n := by
        intro n request inside
        rw [request, diskstreamerRead_eq disk0 (by omega)] at read
        rw [Volume.chainBytes_piece member inside]
        exact (congrArg (fun result => result.2.1) read).symm
      have stays : ∀ n : ℕ, min (volume.sizeOfClusterBytes : Int) total = n →
          offset % volume.sizeOfClusterBytes + n ≤ volume.sizeOfClusterBytes →
          volume.InsideCluster ⟨cluster,
            (volume.clusterStart cluster + offset % volume.sizeOfClusterBytes : ℕ),
            min (volume.sizeOfClusterBytes : Int) total⟩ := by
        intro n request inside
        rw [request]
        unfold Volume.InsideCluster
        dsimp only
        rw [Int.toNat_natCast]
        omega
      rw [round]
      by_cases more : volume.sizeOfClusterBytes < total
      · have boundary : offset % volume.sizeOfClusterBytes = 0 := by omega
        obtain ⟨rest, split⟩ : ∃ rest, total = volume.sizeOfClusterBytes + rest :=
          ⟨total - volume.sizeOfClusterBytes, by omega⟩
        have request : min (volume.sizeOfClusterBytes : Int) total = volume.sizeOfClusterBytes := by
          omega
        have advanced : int32 (offset + volume.sizeOfClusterBytes) =
            ((offset + volume.sizeOfClusterBytes : ℕ) : Int) := by
          rw [int32_eq_self] <;> omega
        have left : (total : Int) - volume.sizeOfClusterBytes = rest := by omega
        obtain ⟨issued, last, result, journal, inside⟩ := ih rest (by omega)
          { streams with
            fat := (getClusterForOffset streams.fat start offset).2, cluster := pos
            issued :=
              ⟨cluster, (volume.clusterStart cluster + offset % volume.sizeOfClusterBytes : ℕ),
              min (volume.sizeOfClusterBytes : Int) total⟩ :: streams.issued }
          (show offset + volume.sizeOfClusterBytes < _ by omega) (by omega)
          (.inl (by rw [Nat.add_mod_right, boundary]))
        dsimp only
        rw [if_pos (by omega), advanced, left, result]
        refine ⟨issued ++ [_], last, ?_, journal.trans (List.append_cons ..), ?_⟩
        · dsimp only
          rw [delivers _ request (by omega), Slices.take_drop_append, ← split]
        · intro other isRead
          rcases List.mem_append.mp isRead with later | first
          · exact inside other later
          · rw [List.mem_singleton.mp first]
            exact stays _ request (by omega)
      · have request : min (volume.sizeOfClusterBytes : Int) total = total := by omega
        dsimp only
        rw [if_neg (by omega), delivers _ request (by omega)]
        refine ⟨[_], _, rfl, rfl, fun other isRead => ?_⟩
        rw [List.mem_singleton.mp isRead]
        exact stays _ request (by omega)

/-- The first read of a request that does not end in its cluster and is not at a boundary. -/
theorem fat16ReadInternalFromStream_crosses {chain : List ℕ} (chained : volume.DataChain chain)
    {start : Int} (follows : Follows getClusterForOffset start volume.sizeOfClusterBytes chain)
    (streams : Streams) {offset total : ℕ}
    (starts : offset < chain.length * volume.sizeOfClusterBytes)
    (unaligned : offset % volume.sizeOfClusterBytes ≠ 0)
    (beyond : volume.sizeOfClusterBytes < offset % volume.sizeOfClusterBytes + total) :
    ∃ issued, (fat16ReadInternalFromStream volume getClusterForOffset streams start offset
        total).2.2.issued = issued ++ streams.issued ∧
      ∃ read ∈ issued, ¬ volume.InsideCluster read := by
  have positive := volume.sizeOfClusterBytes_pos
  obtain ⟨cluster, member⟩ : ∃ cluster, chain[offset / volume.sizeOfClusterBytes]? = some cluster :=
    ⟨_, List.getElem?_eq_getElem (Nat.div_lt_of_lt_mul (by rwa [Nat.mul_comm]))⟩
  have found : getClusterForOffset streams.fat start offset =
      ((cluster : Int), (getClusterForOffset streams.fat start offset).2) :=
    Prod.ext (follows streams.fat offset cluster member) rfl
  obtain ⟨piece, pos, _, round⟩ :=
    fat16ReadInternalFromStream_round disk0 streams start offset total
    found (chained.clusters cluster (List.mem_of_getElem? member))
  have crosses : ¬ volume.InsideCluster ⟨cluster,
      (volume.clusterStart cluster + offset % volume.sizeOfClusterBytes : ℕ),
      min (volume.sizeOfClusterBytes : Int) total⟩ := by
    unfold Volume.InsideCluster
    dsimp only
    rw [Int.toNat_natCast]
    omega
  rw [round]
  dsimp only
  split
  · obtain ⟨later, journal⟩ :=
      @fat16ReadInternalFromStream_issued volume getClusterForOffset _ start _ _
    exact ⟨later ++ [_], journal.trans (List.append_cons ..), _,
      List.mem_append_right _ (List.mem_singleton_self _), crosses⟩
  · exact ⟨[_], rfl, _, List.mem_singleton_self _, crosses⟩

end Rounds

/-- The function of the code finds the first cluster of a file. -/
theorem fat16GetClusterForOffset_follows (volume : Volume) (cluster : ℕ) :
    Follows (fat16GetClusterForOffset volume) cluster volume.sizeOfClusterBytes [cluster] := by
  intro fat offset found member
  have inside : offset / volume.sizeOfClusterBytes = 0 := by
    by_contra beyond
    have positive := Nat.pos_of_ne_zero beyond
    rw [List.getElem?_eq_none (by rwa [List.length_singleton])] at member
    cases member
  have ahead : (offset : Int).tdiv volume.sizeOfClusterBytes = 0 := by
    rw [← Int.ofNat_tdiv, inside]
    rfl
  rw [inside] at member
  obtain rfl : cluster = found := Option.some.inj member
  unfold fat16GetClusterForOffset
  rw [ahead]
  rfl

/-- A read inside the first cluster of a file. -/
theorem fat16ReadInternal_cluster {volume : Volume} (disk0 : volume.disk.isDisk0 = true)
    {cluster : ℕ} (data : volume.DataCluster cluster) (streams : Streams) {offset total : ℕ}
    (starts : offset < volume.sizeOfClusterBytes)
    (within : offset + total ≤ volume.sizeOfClusterBytes) :
    ∃ last, fat16ReadInternal volume
      (fat16GetClusterForOffset volume) streams cluster offset total =
      (0, ((volume.clusterBytes cluster).drop offset).take total, last) := by
  have chained : volume.DataChain [cluster] :=
    ⟨fun other member => List.mem_singleton.mp member ▸ data, List.nodup_singleton cluster⟩
  have single : volume.chainBytes [cluster] = volume.clusterBytes cluster := by
    simp [Volume.chainBytes]
  obtain ⟨_, last, result, _⟩ := fat16ReadInternalFromStream_slice disk0 chained
    (fat16GetClusterForOffset_follows volume cluster) streams
    (by rwa [List.length_singleton, Nat.one_mul]) (by rwa [List.length_singleton, Nat.one_mul])
    (.inr (by rwa [Nat.mod_eq_of_lt starts]))
  rw [single] at result
  exact ⟨last, result⟩

/-- The read succeeds and stores the bytes of the chain from `offset` on, and every stream read
it issues stays inside the cluster it starts in. -/
def ReadsSlice (volume : Volume) (chain : List ℕ) (streams : Streams) (offset total : ℕ)
    (result : Int × List Byte × Streams) : Prop :=
  result.1 = 0 ∧ result.2.1 = ((volume.chainBytes chain).drop offset).take total ∧
    ∃ issued, result.2.2.issued = issued ++ streams.issued ∧
      ∀ read ∈ issued, volume.InsideCluster read

/-- **A read of a file range is faithful exactly when it starts at a cluster boundary or ends
in the cluster it starts in**, whatever the chain and the function that follows it. -/
theorem fat16_read_internal_slice_iff {volume : Volume} (disk0 : volume.disk.isDisk0 = true)
    {chain : List ℕ} (chained : volume.DataChain chain)
    {getClusterForOffset : Int → Int → Int → Int × Int} {start : Int}
    (follows : Follows getClusterForOffset start volume.sizeOfClusterBytes chain)
    (streams : Streams) {offset total : ℕ}
    (starts : offset < chain.length * volume.sizeOfClusterBytes)
    (within : offset + total ≤ chain.length * volume.sizeOfClusterBytes) :
    ReadsSlice volume chain streams offset total
        (fat16ReadInternal volume getClusterForOffset streams start offset total) ↔
      offset % volume.sizeOfClusterBytes = 0 ∨
        offset % volume.sizeOfClusterBytes + total ≤ volume.sizeOfClusterBytes := by
  unfold fat16ReadInternal
  constructor
  · rintro ⟨_, _, issued, journal, inside⟩
    by_contra outside
    rw [not_or, not_le] at outside
    obtain ⟨other, otherJournal, read, isRead, crosses⟩ := fat16ReadInternalFromStream_crosses disk0
      chained follows streams starts outside.1 outside.2
    rw [journal, List.append_cancel_right_eq] at otherJournal
    exact crosses (inside read (otherJournal ▸ isRead))
  · intro pieces
    obtain ⟨issued, last, result, journal, inside⟩ := fat16ReadInternalFromStream_slice disk0
      chained follows streams starts within pieces
    rw [result]
    exact ⟨rfl, rfl, issued, journal, inside⟩

/-- A function that finds the clusters of a given chain. -/
def chainLookup (size : ℕ) (chain : List ℕ) (fat _ offset : Int) : Int × Int :=
  (chain.getD (offset.toNat / size) 0, fat)

theorem chainLookup_follows (size : ℕ) (chain : List ℕ) (start : Int) :
    Follows (chainLookup size chain) start size chain := by
  intro fat offset cluster member
  unfold chainLookup
  rw [Int.toNat_natCast, List.getD_eq_getElem?_getD, member]
  rfl

/-- A volume with one sector to a cluster whose first data sector is sector 1. -/
def oneSectorVolume : Volume where
  disk := ⟨true, fun lba i => BitVec.ofInt 8 (lba + i), fun _ => 0⟩
  header := List.replicate 13 0 ++ [1]
  rootDirectory := ⟨null, 0, 0, 1⟩
  rootItems := []
  clustered := by decide

theorem oneSectorVolume_chain : oneSectorVolume.DataChain [2, 5] where
  clusters := by
    intro cluster member
    have cases : cluster = 2 ∨ cluster = 5 := by simpa using member
    rcases cases with rfl | rfl <;> exact ⟨by decide, by decide⟩
  distinct := by decide

/-- A read of a whole cluster's length from the second byte of a fragmented file. -/
theorem fat16_read_internal_slice_fails :
    oneSectorVolume.DataChain [2, 5] ∧ Follows (chainLookup 512 [2, 5]) 2 512 [2, 5] ∧
      ¬ ReadsSlice oneSectorVolume [2, 5] ⟨0, 0, 0, []⟩ 1 512
        (fat16ReadInternal oneSectorVolume (chainLookup 512 [2, 5]) ⟨0, 0, 0, []⟩ 2 (1 : ℕ)
          (512 : ℕ)) := by
  refine ⟨oneSectorVolume_chain, chainLookup_follows 512 [2, 5] 2, ?_⟩
  rintro ⟨_, _, issued, journal, inside⟩
  obtain ⟨other, otherJournal, read, isRead, crosses⟩ :=
    fat16ReadInternalFromStream_crosses (show oneSectorVolume.disk.isDisk0 = true from rfl)
      oneSectorVolume_chain (chainLookup_follows 512 [2, 5] 2) ⟨0, 0, 0, []⟩
      (show 1 < 2 * 512 by decide) (by decide) (show 512 < 1 % 512 + 512 by decide)
  unfold fat16ReadInternal at journal
  rw [journal, List.append_cancel_right_eq] at otherJournal
  exact crosses (inside read (otherJournal ▸ isRead))

/-- The two clusters of a fragmented file, read from its start. -/
theorem fat16_read_internal_slice_iff_whole :
    ReadsSlice oneSectorVolume [2, 5] ⟨0, 0, 0, []⟩ 0 1024
      (fat16ReadInternal oneSectorVolume (chainLookup 512 [2, 5]) ⟨0, 0, 0, []⟩ 2 (0 : ℕ)
        (1024 : ℕ)) :=
  (fat16_read_internal_slice_iff rfl oneSectorVolume_chain (chainLookup_follows 512 [2, 5] 2)
    ⟨0, 0, 0, []⟩ (show 0 < 2 * 512 by decide) (show 0 + 1024 ≤ 2 * 512 by decide)).mpr
    (.inl (by decide))

end Phix
