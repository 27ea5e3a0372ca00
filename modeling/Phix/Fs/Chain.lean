import Phix.Fs.Fat16

/-! # The allocation table

The entries of the allocation table in the FAT16 encoding, and the chain they describe from a
cluster on. `fat16_get_cluster_for_offset` follows the chain for one entry only and tests it
against the markers of 12-bit tables (`Phix.fat16_get_cluster_for_offset_iff`).
`fat16_get_fat_entry` multiplies the start of the table with the place of the entry, so it reads
the first word of a sector, and cuts the status of a failed read to 16 bits
(`Phix.fat16_get_fat_entry_iff`).
-/

namespace Phix

/-! The FAT16 encoding. -/

def FreeEntry (entry : BitVec 16) : Prop := entry = 0
def BadEntry (entry : BitVec 16) : Prop := entry = 0xFFF7
def ReservedEntry (entry : BitVec 16) : Prop := 0xFFF0 ≤ entry ∧ entry ≤ 0xFFF6
def EndOfChainEntry (entry : BitVec 16) : Prop := 0xFFF8 ≤ entry

/-- The entry names no next cluster. -/
def StopsChain (entry : BitVec 16) : Prop :=
  FreeEntry entry ∨ BadEntry entry ∨ ReservedEntry entry ∨ EndOfChainEntry entry

instance (entry : BitVec 16) : Decidable (StopsChain entry) :=
  inferInstanceAs (Decidable (entry = 0 ∨ entry = 0xFFF7 ∨ (0xFFF0 ≤ entry ∧ entry ≤ 0xFFF6) ∨
    0xFFF8 ≤ entry))

/-- The entry names the next cluster. -/
def LinkEntry (entry : BitVec 16) : Prop := 2 ≤ entry ∧ entry < 0xFFF0

/-- The cluster `k` entries behind `start` in the chain. -/
def chainSuccessor (table : ℕ → BitVec 16) (start : ℕ) : ℕ → ℕ
  | 0 => start
  | k + 1 => (table (chainSuccessor table start k)).toNat

/-- The entries that the code takes for the end of the chain. -/
def RefusedEntry (entry : BitVec 16) : Prop :=
  entry = 0xFF8 ∨ entry = 0xFFF ∨ entry = 0xFF7 ∨ entry = 0xFF0 ∨ entry = 0xFF6 ∨ entry = 0

instance (entry : BitVec 16) : Decidable (RefusedEntry entry) :=
  inferInstanceAs (Decidable (_ ∨ _))

/-- `fat16_get_cluster_for_offset` over any function for the entries of the table. -/
def clusterForOffset (sizeOfClusterBytes : ℕ) (getFatEntry : Int → BitVec 16 × Int)
    (fat cluster offset : Int) : Int × Int :=
  let clustersAhead := offset.tdiv sizeOfClusterBytes
  if 0 < clustersAhead then
    let (entry, fat) := getFatEntry cluster
    if entry = 0xFF8 ∨ entry = 0xFFF then (- EIO, fat)
    else if entry = 0xFF7 then (- EIO, fat)
    else if entry = 0xFF0 ∨ entry = 0xFF6 then (- EIO, fat)
    else if entry = 0 then (- EIO, fat)
    else (entry.toNat, fat)
  else (cluster, fat)

/-- On a volume the entries are those of `fat16_get_fat_entry`. -/
theorem fat16GetClusterForOffset_eq (volume : Volume) (fat cluster offset : Int) :
    fat16GetClusterForOffset volume fat cluster offset =
      clusterForOffset volume.sizeOfClusterBytes (fat16GetFatEntry volume) fat cluster offset := rfl

/-- The cluster or the status: only the first entry plays a part. -/
theorem clusterForOffset_fst (size : ℕ) (getFatEntry : Int → BitVec 16 × Int)
    (fat cluster offset : Int) :
    (clusterForOffset size getFatEntry fat cluster offset).1 =
      if 0 < offset.tdiv size then
        if RefusedEntry (getFatEntry cluster).1 then - EIO else
          ((getFatEntry cluster).1.toNat : Int)
      else cluster := by
  unfold clusterForOffset
  dsimp only
  by_cases ahead : 0 < offset.tdiv size
  · rw [if_pos ahead, if_pos ahead]
    generalize (getFatEntry cluster).1 = entry
    by_cases refused : RefusedEntry entry
    · rw [if_pos refused]
      unfold RefusedEntry at refused
      split
      · rfl
      split
      · rfl
      split
      · rfl
      · rw [if_pos (by tauto)]
    · rw [if_neg refused]
      unfold RefusedEntry at refused
      rw [if_neg (by tauto), if_neg (by tauto), if_neg (by tauto), if_neg (by tauto)]
  · rw [if_neg ahead, if_neg ahead]

/-- The result for an offset in the chain from `start`: a negative status exactly when an entry
followed on the way names no next cluster, and else the cluster of the offset. -/
def WalksChain (table : ℕ → BitVec 16) (size start offset : ℕ) (result : Int) : Prop :=
  (result < 0 ↔ ∃ i < offset / size, StopsChain (table (chainSuccessor table start i))) ∧
    ((∀ i < offset / size, ¬ StopsChain (table (chainSuccessor table start i))) →
      result = chainSuccessor table start (offset / size))

/-- The first entry decides right for the whole chain: the offset is in the first cluster, or the
entry is refused and one that is followed stops the chain, or it is not, none does, and it names
the cluster of the offset. -/
def FirstEntryDecides (table : ℕ → BitVec 16) (size start offset : ℕ) : Prop :=
  offset / size = 0 ∨
    (RefusedEntry (table start) ∧
      ∃ i < offset / size, StopsChain (table (chainSuccessor table start i))) ∨
    (¬ RefusedEntry (table start) ∧
      (∀ i < offset / size, ¬ StopsChain (table (chainSuccessor table start i))) ∧
      chainSuccessor table start (offset / size) = (table start).toNat)

/-- **Walking the cluster chain.** Whatever the table holds, `fat16_get_cluster_for_offset`
returns the cluster of the offset, or a negative status where an entry on the way stops the
chain, exactly when the first entry decides right for the whole chain. -/
theorem fat16_get_cluster_for_offset_iff (table : ℕ → BitVec 16) (position : Int → Int) (size : ℕ)
    (fat : Int) (start offset : ℕ) :
    WalksChain table size start offset (clusterForOffset size
        (fun cluster => (table cluster.toNat, position cluster)) fat start offset).1 ↔
      FirstEntryDecides table size start offset := by
  have ahead : (0 < (offset : Int).tdiv size) ↔ offset / size ≠ 0 := by
    rw [← Int.ofNat_tdiv, Int.natCast_pos, Nat.pos_iff_ne_zero]
  have negative : (- EIO : Int) < 0 := by decide
  unfold WalksChain FirstEntryDecides
  rw [clusterForOffset_fst, Int.toNat_natCast]
  by_cases first : offset / size = 0
  · rw [if_neg (mt ahead.mp (not_not_intro first)), first]
    refine iff_of_true ⟨iff_of_false (by omega) ?_, fun _ => rfl⟩ (.inl rfl)
    rintro ⟨_, absent, _⟩
    exact absurd absent (Nat.not_lt_zero _)
  · rw [if_pos (ahead.mpr first), or_iff_right first]
    by_cases refused : RefusedEntry (table start)
    · rw [if_pos refused, iff_true_intro negative, true_iff]
      simp only [refused, true_and, not_true_eq_false, false_and, or_false, and_iff_left_iff_imp]
      rintro ⟨i, inside, stops⟩ none
      exact absurd stops (none i inside)
    · have nonnegative : ¬ ((table start).toNat : Int) < 0 := by omega
      simp only [refused, if_false, nonnegative, false_iff, false_and, false_or, not_false_eq_true,
        true_and, not_exists, not_and]
      refine and_congr_right fun none => ⟨fun reaches => ?_, fun same _ => ?_⟩
      · have cluster := reaches none
        omega
      · rw [same]

/-- The table of a file in the clusters 2, 3 and 4. -/
def threeClusters (cluster : ℕ) : BitVec 16 :=
  if cluster = 4 then 0xFFFF else BitVec.ofNat 16 (cluster + 1)

/-- The third cluster of the file, of one sector each, is not found. -/
theorem fat16_get_cluster_for_offset_fails :
    ¬ WalksChain threeClusters 512 2 1024 (clusterForOffset 512
      (fun cluster => (threeClusters cluster.toNat, 0)) 0 (2 : ℕ) (1024 : ℕ)).1 := by
  rintro ⟨-, reaches⟩
  have third := reaches (by decide)
  rw [clusterForOffset_fst] at third
  exact absurd third (by decide)

/-! The entries of a volume. -/

/-- The word of the image at a position, lowest byte first. -/
def Disk.word (disk : Disk) (position : ℕ) : BitVec 16 :=
  disk.image (position + 1) ++ disk.image position

/-- The sector that `fat16_get_fat_entry` reads. -/
def fatEntrySector (volume : Volume) (cluster : ℕ) : Int :=
  (int32 (fat16GetFirstFatSector volume * phixSectorSize * (cluster * 2))).tdiv phixSectorSize

/-- Two bytes from the start of a sector. -/
theorem diskstreamerRead_two {disk : Disk} (disk0 : disk.isDisk0 = true) {pos : Int}
    (boundary : (phixSectorSize : Int) ∣ pos) :
    (diskstreamerRead disk pos 2).1 = 0 ∧ (diskstreamerRead disk pos 2).2.1 =
      [disk.sector (pos.tdiv phixSectorSize) 0, disk.sector (pos.tdiv phixSectorSize) 1] := by
  have offset : pos.tmod phixSectorSize = 0 := Int.tmod_eq_zero_of_dvd boundary
  rw [diskstreamerRead, offset, diskReadBlock, if_pos disk0]
  exact ⟨rfl, rfl⟩

theorem fat16GetFatEntry_eq {volume : Volume} (disk0 : volume.disk.isDisk0 = true) (cluster : ℕ) :
    (fat16GetFatEntry volume cluster).1 = volume.disk.sector (fatEntrySector volume cluster) 1 ++
      volume.disk.sector (fatEntrySector volume cluster) 0 := by
  have boundary : (phixSectorSize : Int) ∣
      int32 ((fat16GetFirstFatSector volume * phixSectorSize : ℕ) * ((cluster : Int) * 2)) := by
    refine dvd_int32 (by decide) ?_
    rw [Nat.cast_mul]
    exact Dvd.dvd.mul_right (Int.dvd_mul_left ..) _
  obtain ⟨status, bytes⟩ := diskstreamerRead_two disk0 boundary
  unfold fat16GetFatEntry
  dsimp only
  rw [status, if_neg (not_not_intro rfl), bytes, Nat.cast_mul]
  rfl

theorem diskstreamerRead_failed {disk : Disk} (failed : disk.isDisk0 = false) (pos total : Int) :
    (diskstreamerRead disk pos total).1 = - EIO := by
  rw [diskstreamerRead, diskReadBlock, failed]
  rfl

theorem fat16GetFatEntry_failed {volume : Volume} (failed : volume.disk.isDisk0 = false)
    (cluster : ℕ) : (fat16GetFatEntry volume cluster).1 = BitVec.ofInt 16 (- EIO) := by
  unfold fat16GetFatEntry
  dsimp only
  rw [diskstreamerRead_failed failed, if_pos (by decide)]

/-- The entry is the word of the image at its place in the first table, and the result of a failed
read is none that a table can hold. -/
def ReadsEntry (volume : Volume) (cluster : ℕ) : Prop :=
  let entry := (fat16GetFatEntry volume cluster).1
  (volume.disk.isDisk0 = true → entry =
    volume.disk.word ((reservedSectors volume.header).toNat * phixSectorSize + 2 * cluster)) ∧
  (volume.disk.isDisk0 = false → ¬ StopsChain entry ∧ ¬ LinkEntry entry)

/-- **FAT entries.** `fat16_get_fat_entry` returns the entry of a cluster, and a failed read can be
told apart from every entry, exactly when the disk answers and the first word of the sector that is
read is the word at the place of the entry. -/
theorem fat16_get_fat_entry_iff (volume : Volume) (cluster : ℕ) :
    ReadsEntry volume cluster ↔ volume.disk.isDisk0 = true ∧
      volume.disk.sector (fatEntrySector volume cluster) 1 ++
          volume.disk.sector (fatEntrySector volume cluster) 0 =
        volume.disk.word
            ((reservedSectors volume.header).toNat * phixSectorSize + 2 * cluster) := by
  unfold ReadsEntry
  cases answers : volume.disk.isDisk0 with
  | true =>
      rw [fat16GetFatEntry_eq answers]
      simp only [true_implies, true_and, reduceCtorEq, false_implies, and_true]
  | false =>
      -- The status of a failed read is the last marker of the end of a chain.
      have marker : StopsChain (BitVec.ofInt 16 (- EIO)) :=
        .inr (.inr (.inr (show _ ≤ _ by decide)))
      rw [fat16GetFatEntry_failed answers]
      simp only [marker, reduceCtorEq, false_implies, true_implies, not_true_eq_false, false_and,
        and_false]

/-- A volume whose first table is sector 1, where all bytes of the disk differ from their
neighbours. -/
def oneReservedVolume : Volume where
  disk := ⟨true, fun lba i => BitVec.ofInt 8 (lba + i), fun _ => 0⟩
  header := List.replicate 13 0 ++ [1, 1, 0, 1, 0, 0, 0, 0, 0, 1, 0]
  rootDirectory := ⟨null, 0, 0, 2⟩
  rootItems := []
  clustered := by decide

/-- The entry of the first data cluster is not read from its place. -/
theorem fat16_get_fat_entry_fails :
    2 * 2 + 2 ≤ (sectorsPerFat oneReservedVolume.header).toNat * phixSectorSize ∧
      ¬ ReadsEntry oneReservedVolume 2 := by
  refine ⟨by decide, ?_⟩
  rintro ⟨reads, -⟩
  have same := reads rfl
  rw [fat16GetFatEntry_eq rfl] at same
  exact absurd same (by decide)

end Phix
