import Mathlib.Logic.Relation
import Phix.Fs.Resolution

/-! # The scan of a directory

`fat16_get_total_items_for_directory` reads item after item of the disk until one starts with a
NUL. Nothing else bounds it, so it ends inside the directory exactly when the directory has such an
item and lies on the disk in one piece up to there: the root directory always does, a subdirectory
when its clusters follow one another (`Phix.fat16_get_total_items_for_directory_iff`).
-/

namespace Phix

/-- The position of the stream before the scan of a directory from a sector reads item `i`. -/
def scanPosition (sector : Word) (i : ℕ) : Int := int32 (itemPosition sector i : ℕ)

/-- The first byte of the item that is read from a position. -/
def Disk.firstByte (disk : Disk) (pos : Int) : Byte :=
  disk.buf (pos.tdiv phixSectorSize) (pos.tmod phixSectorSize)

/-- The first byte of item `i` as the scan reads it. -/
def scanByte (disk : Disk) (sector : Word) (i : ℕ) : Byte :=
  disk.firstByte (scanPosition sector i)

/-- The scan counts item `i`. -/
def Counted (disk : Disk) (sector : Word) (i : ℕ) : Prop := scanByte disk sector i ≠ 0xE5

instance (disk : Disk) (sector : Word) : DecidablePred (Counted disk sector) :=
  fun _ => inferInstanceAs (Decidable (_ ≠ _))

/-- Item `k` is the first one to start with a NUL. -/
structure StopsAt (disk : Disk) (sector : Word) (k : ℕ) : Prop where
  stop : scanByte disk sector k = 0
  before : ∀ i < k, scanByte disk sector i ≠ 0

section Positions

variable (sector : Word) (i : ℕ)

theorem scanPosition_succ : int32 (scanPosition sector i + sizeofFatDirectoryItem) =
    scanPosition sector (i + 1) := by
  unfold scanPosition
  rw [int32_add, itemPosition_succ]
  rfl

/-- After `2 ^ 27` items the scan is back where it was. -/
theorem scanPosition_add_limit : scanPosition sector (i + scanLimit) = scanPosition sector i := by
  have far : ((itemPosition sector (i + scanLimit) : ℕ) : Int) =
      (itemPosition sector i : ℕ) + ((2 ^ 32 : ℕ) : Int) := by
    unfold itemPosition sizeofFatDirectoryItem scanLimit
    omega
  unfold scanPosition
  rw [far, int32, int32, Int.add_bmod_right]

theorem dvd_scanPosition : 32 ∣ scanPosition sector i := by
  refine dvd_int32 (by decide) ?_
  unfold itemPosition sizeofFatDirectoryItem phixSectorSize
  omega

end Positions

theorem Disk.firstByte_of_nonneg (disk : Disk) (k : ℕ) : disk.firstByte k = disk.image k := by
  have quotient : (k : Int).tdiv phixSectorSize = ((k / phixSectorSize : ℕ) : Int) :=
    Int.ofNat_tdiv .. |>.symm
  have remainder : (k : Int).tmod phixSectorSize = ((k % phixSectorSize : ℕ) : Int) :=
    Int.ofNat_tmod .. |>.symm
  have small : k % phixSectorSize < phixSectorSize := Nat.mod_lt _ (by decide)
  unfold Disk.firstByte Disk.buf Disk.image
  rw [quotient, remainder, if_pos ⟨Int.natCast_nonneg _, Int.ofNat_lt.mpr small⟩]
  rfl

section Scan

variable {disk : Disk} (disk0 : disk.isDisk0 = true)

include disk0

/-- An item is read from one sector. -/
theorem diskstreamerRead_item {pos : Int} (aligned : 32 ∣ pos) :
    ∃ item, diskstreamerRead disk pos sizeofFatDirectoryItem =
        (0, item, int32 (pos + sizeofFatDirectoryItem)) ∧
      field8 item 0 = disk.firstByte pos := by
  have small : pos.tmod phixSectorSize < phixSectorSize := Int.tmod_lt_of_pos pos (by decide)
  have place : 32 ∣ pos.tmod phixSectorSize := by
    rw [Int.tmod_def]
    exact Int.dvd_sub aligned (Dvd.dvd.mul_right (by decide) _)
  have whole : (if (phixSectorSize : Int) ≤ pos.tmod phixSectorSize + sizeofFatDirectoryItem then
      (sizeofFatDirectoryItem : Int) -
        (pos.tmod phixSectorSize + sizeofFatDirectoryItem - phixSectorSize)
      else sizeofFatDirectoryItem) = sizeofFatDirectoryItem := by
    unfold phixSectorSize sizeofFatDirectoryItem at *
    split <;> omega
  rw [diskstreamerRead, whole, diskReadBlock, if_pos disk0]
  dsimp only
  rw [if_neg (lt_irrefl 0), if_neg (not_not.mpr rfl)]
  refine ⟨_, rfl, ?_⟩
  unfold field8 Disk.firstByte
  rw [show ((sizeofFatDirectoryItem : ℕ) : Int).toNat = 32 from rfl, List.range_succ_eq_map]
  simp

variable {sector : Word} {k : ℕ}

/-- The scan from item `i` on stops at item `k`, and has counted what it has read. -/
theorem fat16GetTotalItemsForDirectory.loop_stops (stops : StopsAt disk sector k)
    (limited : k < scanLimit) {remaining i : ℕ} (inside : i ≤ k) (enough : k - i < remaining) :
    fat16GetTotalItemsForDirectory.loop disk remaining (scanPosition sector i)
        (Nat.count (Counted disk sector) i : ℕ) =
      some (((Nat.count (Counted disk sector) k : ℕ) : Int), scanPosition sector (k + 1)) := by
  induction remaining generalizing i with
  | zero => omega
  | succ remaining ih =>
      obtain ⟨item, read, first⟩ := diskstreamerRead_item disk0 (dvd_scanPosition sector i)
      rw [scanPosition_succ] at read
      change field8 item 0 = scanByte disk sector i at first
      unfold fat16GetTotalItemsForDirectory.loop
      rw [read]
      dsimp only
      rw [if_neg (lt_irrefl 0), first]
      by_cases last : i = k
      · subst last
        rw [if_pos stops.stop]
      · have before : i < k := lt_of_le_of_ne inside last
        have rest := ih before (by omega)
        rw [if_neg (stops.before i before)]
        by_cases counted : Counted disk sector i
        · have bound : Nat.count (Counted disk sector) i < scanLimit :=
            count_lt _ (before.trans limited)
          unfold scanLimit at bound
          have grows : int32 ((Nat.count (Counted disk sector) i : ℕ) + 1) =
              ((Nat.count (Counted disk sector) (i + 1) : ℕ) : Int) := by
            rw [Nat.count_succ, if_pos counted, int32_eq_self (by omega) (by omega), Nat.cast_add,
              Nat.cast_one]
          rw [if_neg counted, grows, rest]
        · have same : Nat.count (Counted disk sector) (i + 1) =
              Nat.count (Counted disk sector) i := by
            rw [Nat.count_succ, if_neg counted, Nat.add_zero]
          rw [same] at rest
          rw [if_pos (not_not.mp counted), rest]

theorem fat16GetTotalItemsForDirectory.loop_endless {remaining i : ℕ} {ret : Int}
    (endless : ∀ j, i ≤ j → j < i + remaining → scanByte disk sector j ≠ 0) :
    fat16GetTotalItemsForDirectory.loop disk remaining (scanPosition sector i) ret = none := by
  induction remaining generalizing i ret with
  | zero => rfl
  | succ remaining ih =>
      obtain ⟨item, read, first⟩ := diskstreamerRead_item disk0 (dvd_scanPosition sector i)
      rw [scanPosition_succ] at read
      change field8 item 0 = scanByte disk sector i at first
      have rest : ∀ ret, fat16GetTotalItemsForDirectory.loop disk remaining
          (scanPosition sector (i + 1)) ret = none :=
        fun ret => ih fun j lower upper => endless j (by omega) (by omega)
      unfold fat16GetTotalItemsForDirectory.loop
      rw [read]
      dsimp only
      rw [if_neg (lt_irrefl 0), first, if_neg (endless i le_rfl (by omega)), rest, rest, ite_self]

omit disk0 in
/-- Where the scan starts. -/
theorem fat16GetTotalItemsForDirectory_start (disk : Disk) (sector : Word) :
    fat16GetTotalItemsForDirectory disk sector = fat16GetTotalItemsForDirectory.loop disk scanLimit
      (scanPosition sector 0) (Nat.count (Counted disk sector) 0 : ℕ) := by
  have start : int32 (sector.toNat * phixSectorSize) = scanPosition sector 0 := by
    unfold scanPosition itemPosition
    rw [Nat.mul_zero, Nat.add_zero, Nat.cast_mul]
  unfold fat16GetTotalItemsForDirectory
  rw [Nat.count_zero, start, Nat.cast_zero]

theorem fat16GetTotalItemsForDirectory_stops (stops : StopsAt disk sector k)
    (limited : k < scanLimit) : fat16GetTotalItemsForDirectory disk sector =
      some (((Nat.count (Counted disk sector) k : ℕ) : Int), scanPosition sector (k + 1)) := by
  rw [fat16GetTotalItemsForDirectory_start]
  exact fat16GetTotalItemsForDirectory.loop_stops disk0 stops limited (Nat.zero_le k)
    (by rwa [Nat.sub_zero])

theorem fat16GetTotalItemsForDirectory_endless
    (endless : ∀ i < scanLimit, scanByte disk sector i ≠ 0) :
    fat16GetTotalItemsForDirectory disk sector = none := by
  rw [fat16GetTotalItemsForDirectory_start]
  exact fat16GetTotalItemsForDirectory.loop_endless disk0
    fun j _ below => endless j (by rwa [Nat.zero_add] at below)

omit disk0 in
/-- The scan stops in its first round if it ever does. -/
theorem StopsAt.limited (stops : StopsAt disk sector k) : k < scanLimit := by
  by_contra beyond
  obtain ⟨early, rfl⟩ := Nat.exists_eq_add_of_le' (not_lt.mp beyond)
  refine stops.before early (Nat.lt_add_of_pos_right (by unfold scanLimit; omega)) ?_
  have stop := stops.stop
  rwa [scanByte, scanPosition_add_limit] at stop

omit disk0 in
theorem exists_stopsAt (ends : ∃ k, scanByte disk sector k = 0) :
    StopsAt disk sector (Nat.find ends) :=
  ⟨Nat.find_spec ends, fun _ below => Nat.find_min ends below⟩

end Scan

/-- The scan ends, and every item it reads lies at its place behind `start`, which is one of the
directory. The stream is left behind the items read. -/
def ScansInside (disk : Disk) (sector : Word) (start : ℕ) (inside : ℕ → Prop) : Prop :=
  ∃ items m, 0 < m ∧
    fat16GetTotalItemsForDirectory disk sector = some (items, scanPosition sector m) ∧
    ∀ i < m, scanPosition sector i = (start + sizeofFatDirectoryItem * i : ℕ) ∧ inside i

section Inside

variable {disk : Disk} {sector : Word} {start : ℕ}

theorem scanPosition_eq (starts : int32 (sector.toNat * phixSectorSize : ℕ) = int32 (start : ℕ))
    (i : ℕ) : scanPosition sector i = int32 (start + sizeofFatDirectoryItem * i : ℕ) := by
  unfold scanPosition itemPosition
  rw [Nat.cast_add, Nat.cast_add, ← int32_add, starts, int32_add]

/-- A scan that has not gone round is not back at an earlier position. -/
theorem scanPosition_injective {m n : ℕ} (early : 0 < m ∧ m < scanLimit)
    (late : 0 < n ∧ n ≤ scanLimit) (same : scanPosition sector m = scanPosition sector n) :
    m = n := by
  unfold scanPosition at same
  rw [int32_eq_int32_iff] at same
  unfold itemPosition sizeofFatDirectoryItem at same
  unfold scanLimit at early late
  omega

/-- The items that a scan reads are those up to the first that starts with a NUL. -/
theorem scansInside_iff (disk0 : disk.isDisk0 = true)
    (starts : int32 (sector.toNat * phixSectorSize : ℕ) = int32 (start : ℕ)) (inside : ℕ → Prop) :
    ScansInside disk sector start inside ↔
      ∃ k, start + sizeofFatDirectoryItem * k < 2 ^ 31 ∧
        disk.image (start + sizeofFatDirectoryItem * k) = 0 ∧ ∀ i ≤ k, inside i := by
  have size : sizeofFatDirectoryItem = 32 := rfl
  have byte {i : ℕ}
      (place : scanPosition sector i = (start + sizeofFatDirectoryItem * i : ℕ)) :
      scanByte disk sector i = disk.image (start + sizeofFatDirectoryItem * i) := by
    rw [scanByte, place, Disk.firstByte_of_nonneg]
  constructor
  · rintro ⟨items, m, positive, scanned, places⟩
    have addressed : ∀ i < m, start + sizeofFatDirectoryItem * i < 2 ^ 31 := by
      intro i below
      have high := int32_lt (itemPosition sector i : ℕ)
      rw [← scanPosition, (places i below).1] at high
      omega
    by_cases ends : ∃ k, k < scanLimit ∧ scanByte disk sector k = 0
    · obtain ⟨limited, stop⟩ := Nat.find_spec ends
      have stops : StopsAt disk sector (Nat.find ends) := ⟨stop, fun i below zero =>
        Nat.find_min ends below ⟨below.trans limited, zero⟩⟩
      rw [fat16GetTotalItemsForDirectory_stops disk0 stops limited] at scanned
      obtain ⟨-, moved⟩ := Prod.mk.inj (Option.some.inj scanned)
      have last := addressed (m - 1) (by omega)
      have count : m = Nat.find ends + 1 := by
        refine scanPosition_injective ⟨positive, ?_⟩ ⟨Nat.succ_pos _, Nat.succ_le_of_lt limited⟩
          moved.symm
        rw [size] at last
        unfold scanLimit
        omega
      have below : Nat.find ends < m := by omega
      refine ⟨Nat.find ends, addressed _ below, ?_, fun i early => (places i (by omega)).2⟩
      rw [← byte (places _ below).1]
      exact stop
    · have endless : ∀ i < scanLimit, scanByte disk sector i ≠ 0 :=
        fun i below zero => ends ⟨i, below, zero⟩
      have none := fat16GetTotalItemsForDirectory_endless disk0 endless
      exact (Option.some_ne_none _ (scanned.symm.trans none)).elim
  · rintro ⟨k, addressed, zero, all⟩
    have place {i : ℕ} (early : i ≤ k) :
        scanPosition sector i = (start + sizeofFatDirectoryItem * i : ℕ) := by
      have below : start + sizeofFatDirectoryItem * i < 2 ^ 31 := by
        rw [size] at addressed ⊢
        omega
      rw [scanPosition_eq starts, int32_eq_self (by omega) (by omega)]
    have ends : ∃ j, j ≤ k ∧ scanByte disk sector j = 0 :=
      ⟨k, le_rfl, (byte (place le_rfl)).trans zero⟩
    obtain ⟨early, stop⟩ := Nat.find_spec ends
    have stops : StopsAt disk sector (Nat.find ends) := ⟨stop, fun i below zero =>
      Nat.find_min ends below ⟨below.le.trans early, zero⟩⟩
    have limited : Nat.find ends < scanLimit := by
      rw [size] at addressed
      unfold scanLimit
      omega
    refine ⟨_, Nat.find ends + 1, Nat.succ_pos _,
      fat16GetTotalItemsForDirectory_stops disk0 stops limited,
      fun i below => ⟨place (by omega), all i (by omega)⟩⟩

end Inside

/-! The two directories that are scanned. -/

/-- The first sector of the root directory. -/
def rootDirSector (header : List Byte) : Word :=
  BitVec.ofInt 32 ((fatCopies header).toNat * (sectorsPerFat header).toNat +
    (reservedSectors header).toNat)

/-- The scan of the root directory reads items of the root directory. -/
def RootScanned (disk : Disk) (header : List Byte) : Prop :=
  ScansInside disk (rootDirSector header) ((rootDirSector header).toNat * phixSectorSize)
    fun i => i < (rootDirEntries header).toNat

namespace Volume

variable (volume : Volume)

/-- The allocation table names `next` as the cluster after a cluster. -/
def Link (cluster next : ℕ) : Prop :=
  volume.tableEntry cluster = next ∧ 2 ≤ next ∧ next < 0xFFF0

/-- The cluster is in the chain that starts with `first`. -/
def InChain (first cluster : ℕ) : Prop := Relation.ReflTransGen volume.Link first cluster

/-- The bytes of an item are in a cluster. -/
def ItemIn (cluster place : ℕ) : Prop :=
  volume.clusterStart cluster ≤ place ∧
    place + sizeofFatDirectoryItem ≤ volume.clusterStart cluster + volume.sizeOfClusterBytes

/-- The items of a cluster. -/
def itemsPerCluster : ℕ := volume.sizeOfClusterBytes / sizeofFatDirectoryItem

/-- The scan of the subdirectory that an item names reads items in the clusters of its chain. -/
def SubdirectoryScanned (item : List Byte) : Prop :=
  let first := (fat16GetFirstCluser item).toNat
  ScansInside volume.disk
    (BitVec.ofInt 32 (fat16ClusterToSector volume (fat16GetFirstCluser item).toInt))
    (volume.clusterStart first) fun i => ∃ cluster, 2 ≤ cluster ∧ volume.InChain first cluster ∧
      volume.ItemIn cluster (volume.clusterStart first + sizeofFatDirectoryItem * i)

variable {volume}

theorem InChain.data {first cluster : ℕ} (chained : volume.InChain first cluster)
    (data : 2 ≤ first) : 2 ≤ cluster := by
  cases chained with
  | refl => exact data
  | tail _ link => exact link.2.1

theorem itemsPerCluster_eq : volume.itemsPerCluster =
    16 * (sectorsPerCluster volume.header).toNat := by
  unfold itemsPerCluster sizeOfClusterBytes phixSectorSize sizeofFatDirectoryItem
  omega

/-- The items behind the first of a cluster fill this cluster and the next ones. -/
theorem itemIn_iff {first cluster i : ℕ} (data : 2 ≤ first) (other : 2 ≤ cluster) :
    volume.ItemIn cluster (volume.clusterStart first + sizeofFatDirectoryItem * i) ↔
      cluster = first + i / volume.itemsPerCluster := by
  have positive := volume.clustered
  rw [itemsPerCluster_eq]
  unfold ItemIn clusterStart sizeOfClusterBytes phixSectorSize sizeofFatDirectoryItem
  generalize (sectorsPerCluster volume.header).toNat = sectors at *
  obtain ⟨a, rfl⟩ := Nat.exists_eq_add_of_le data
  obtain ⟨b, rfl⟩ := Nat.exists_eq_add_of_le other
  rw [Nat.add_sub_cancel_left, Nat.add_sub_cancel_left, Nat.add_assoc 2, Nat.add_right_inj]
  have split : sectors * (i / (16 * sectors)) * 16 + i % (16 * sectors) = i := by
    have divided := Nat.div_add_mod i (16 * sectors)
    rwa [Nat.mul_comm 16, Nat.mul_right_comm, Nat.mul_comm sectors 16] at divided
  have rest : i % (16 * sectors) < 16 * sectors := Nat.mod_lt i (by omega)
  generalize i / (16 * sectors) = whole at split ⊢
  have sum : sectors * (a + whole) = a * sectors + sectors * whole := by
    rw [Nat.mul_add, Nat.mul_comm sectors a]
  constructor
  · rintro ⟨lower, upper⟩
    have above : sectors * b < sectors * (a + whole + 1) := by
      rw [Nat.mul_succ, sum, Nat.mul_comm sectors b]
      omega
    have below : sectors * (a + whole) < sectors * (b + 1) := by
      rw [Nat.mul_succ, sum, Nat.mul_comm sectors b]
      omega
    have upward := Nat.lt_of_mul_lt_mul_left above
    have downward := Nat.lt_of_mul_lt_mul_left below
    omega
  · rintro rfl
    rw [Nat.mul_comm (a + whole), sum]
    constructor <;> omega

/-- The position that the code computes for a sector number, cut to 32 bits in between. -/
theorem int32_sector (x : Int) :
    int32 ((BitVec.ofInt 32 (int32 x)).toNat * phixSectorSize : ℕ) = int32
        (x * phixSectorSize) := by
  have wraps : (2 : Int) ^ 32 ∣ int32 x - x := int32_eq_int32_iff.mp (int32_int32 x)
  rw [int32_eq_int32_iff, BitVec.toNat_ofInt]
  unfold phixSectorSize
  omega

/-- Where the scan of a directory in a data cluster starts. -/
theorem starts_of_data {first : ℕ} (data : 2 ≤ first) :
    int32 ((BitVec.ofInt 32 (fat16ClusterToSector volume first)).toNat * phixSectorSize : ℕ) =
      int32 (volume.clusterStart first : ℕ) := by
  obtain ⟨behind, rfl⟩ := Nat.exists_eq_add_of_le data
  rw [fat16ClusterToSector, int32_sector, clusterStart, Nat.add_sub_cancel_left]
  push_cast
  rw [add_sub_cancel_left]

/-- A cluster before the first of the data is not where the data start. -/
theorem not_starts_of_reserved {first : ℕ} (reserved : first < 2) :
    int32 ((BitVec.ofInt 32 (fat16ClusterToSector volume first)).toNat * phixSectorSize : ℕ) ≠
      int32 (volume.clusterStart first : ℕ) := by
  have positive := volume.clustered
  have small := (sectorsPerCluster volume.header).isLt
  rw [fat16ClusterToSector, int32_sector, clusterStart, Nat.sub_eq_zero_of_le reserved.le,
    Nat.zero_mul, Nat.add_zero, ne_eq, int32_eq_int32_iff]
  unfold phixSectorSize
  interval_cases first <;> omega

/-- The scan of a subdirectory stays in its clusters exactly when they lie on the disk one after
the other, up to an item that starts with a NUL. -/
theorem subdirectoryScanned_iff (disk0 : volume.disk.isDisk0 = true) (item : List Byte) :
    volume.SubdirectoryScanned item ↔
      let first := (fat16GetFirstCluser item).toNat
      2 ≤ first ∧ ∃ k, volume.clusterStart first + sizeofFatDirectoryItem * k < 2 ^ 31 ∧
        volume.disk.image (volume.clusterStart first + sizeofFatDirectoryItem * k) = 0 ∧
        ∀ j ≤ k / volume.itemsPerCluster, volume.InChain first (first + j) := by
  have signed : (fat16GetFirstCluser item).toInt = ((fat16GetFirstCluser item).toNat : ℕ) :=
    BitVec.toInt_eq_toNat_of_lt (by
      have small := (itemHigh16BitsFirstCluster item ||| itemLow16BitsFirstCluster item).isLt
      rw [fat16GetFirstCluser, BitVec.toNat_setWidth]
      omega)
  unfold SubdirectoryScanned
  dsimp only
  rw [signed]
  generalize (fat16GetFirstCluser item).toNat = first
  rcases lt_or_ge first 2 with reserved | data
  · refine iff_of_false ?_ fun both => absurd both.1 (not_le.mpr reserved)
    rintro ⟨items, m, positive, -, places⟩
    have start := (places 0 positive).1
    have again := congrArg int32 start
    rw [scanPosition, int32_int32, itemPosition, Nat.mul_zero, Nat.add_zero, Nat.add_zero] at again
    exact not_starts_of_reserved reserved again
  · rw [scansInside_iff disk0 (starts_of_data data), and_iff_right data]
    have positive : 0 < volume.itemsPerCluster := by
      rw [itemsPerCluster_eq]
      exact Nat.mul_pos (by decide) volume.clustered
    refine exists_congr fun k => and_congr_right fun _ => and_congr_right fun _ => ?_
    constructor
    · intro each j within
      obtain ⟨cluster, other, chained, here⟩ :=
        each (j * volume.itemsPerCluster) ((Nat.le_div_iff_mul_le positive).mp within)
      rw [itemIn_iff data other, Nat.mul_div_cancel j positive] at here
      exact here ▸ chained
    · intro chained i early
      have member := chained (i / volume.itemsPerCluster) (Nat.div_le_div_right early)
      exact ⟨_, member.data data, member, (itemIn_iff data (member.data data)).mpr rfl⟩

end Volume

/-- **The scan of a directory ends inside it** exactly when, below 2 GiB, an item of the root
directory starts with a NUL; and, for a subdirectory, when its clusters follow one another on the
disk up to such an item. -/
theorem fat16_get_total_items_for_directory_iff {disk : Disk} (disk0 : disk.isDisk0 = true)
    (header : List Byte) :
    (RootScanned disk header ↔ ∃ k < (rootDirEntries header).toNat,
        itemPosition (rootDirSector header) k < 2 ^ 31 ∧
          disk.image (itemPosition (rootDirSector header) k) = 0) ∧
      ∀ volume : Volume, volume.disk = disk → ∀ item : List Byte,
        itemAttributes item &&& fatFileSubdirectory ≠ 0 →
        (volume.SubdirectoryScanned item ↔
          let first := (fat16GetFirstCluser item).toNat
          2 ≤ first ∧ ∃ k, volume.clusterStart first + sizeofFatDirectoryItem * k < 2 ^ 31 ∧
            disk.image (volume.clusterStart first + sizeofFatDirectoryItem * k) = 0 ∧
            ∀ j ≤ k / volume.itemsPerCluster, volume.InChain first (first + j)) := by
  constructor
  · unfold RootScanned itemPosition
    rw [scansInside_iff disk0 rfl]
    constructor
    · rintro ⟨k, addressed, zero, inside⟩
      exact ⟨k, inside k le_rfl, addressed, zero⟩
    · rintro ⟨k, inside, addressed, zero⟩
      exact ⟨k, addressed, zero, fun i early => early.trans_lt inside⟩
  · rintro volume rfl item -
    exact volume.subdirectoryScanned_iff disk0 item

/-- The root directory and the subdirectory of a volume, each with one item. -/
theorem fat16_get_total_items_for_directory_iff_nested :
    RootScanned nestedVolume.disk nestedVolume.header ∧
      nestedVolume.SubdirectoryScanned (itemAt nestedVolume.rootItems 0) := by
  obtain ⟨root, subdirectory⟩ := fat16_get_total_items_for_directory_iff
    (show nestedVolume.disk.isDisk0 = true from rfl) nestedVolume.header
  refine ⟨root.mpr ⟨1, by decide, by decide, by decide⟩, ?_⟩
  refine (subdirectory nestedVolume rfl _ nestedVolume_directory.directory).mpr
    ⟨by decide, 1, by decide, by decide, fun j within => ?_⟩
  obtain rfl : j = 0 := Nat.le_zero.mp (within.trans (by decide))
  exact .refl

/-- The header of a volume with one reserved sector, the first, and one item in its root
directory. -/
def oneItemHeader : List Byte := List.replicate 14 0 ++ [1, 0, 0, 1, 0]

/-- A disk with that header whose root directory is full. -/
def fullRootDisk : Disk := Disk.ofSectors [oneItemHeader, plainItem 0x41]

theorem fullRootDisk_stops : StopsAt fullRootDisk (rootDirSector oneItemHeader) 1 where
  stop := by decide
  before := by decide

/-- The scan of a full root directory of one item reads the bytes behind it too. -/
theorem fat16_get_total_items_for_directory_fails :
    fullRootDisk.isDisk0 = true ∧ (rootDirEntries oneItemHeader).toNat = 1 ∧
      rootDirSector oneItemHeader = 1 ∧
      fat16GetTotalItemsForDirectory fullRootDisk 1 = some (1, 512 + 64) ∧
      ¬ RootScanned fullRootDisk oneItemHeader := by
  have sector : rootDirSector oneItemHeader = 1 := by decide
  have one : (rootDirEntries oneItemHeader).toNat = 1 := by decide
  have scanned := fat16GetTotalItemsForDirectory_stops rfl fullRootDisk_stops (by decide)
  rw [sector] at scanned
  refine ⟨rfl, one, sector, scanned.trans (by decide), fun inside => ?_⟩
  unfold RootScanned at inside
  rw [scansInside_iff rfl rfl, sector, one] at inside
  obtain ⟨k, -, zero, all⟩ := inside
  obtain rfl : k = 0 := Nat.lt_one_iff.mp (all k le_rfl)
  exact absurd zero (by decide)

end Phix
