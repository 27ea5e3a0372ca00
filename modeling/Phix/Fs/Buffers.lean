import Phix.Fs.Mounting
import Phix.Memory.Granted

/-! # The buffers of directories

The buffer of the root directory has the size of one item, and as many bytes are read into it as
the header says; the items counted on the disk are searched, whatever was read. The buffer of a
subdirectory has the size of the items counted, but without a run of free blocks that is long enough
the heap grants what is free at the end of the pool. A search therefore stays in what was read, and
this in the buffer, for small root directories and for subdirectories that find such a run
(`Phix.fat16_directory_buffers_iff`).
-/

namespace Phix

open Slices

/-- The bytes read into the buffer of a directory are in its blocks, and the items that a search
looks at are among them. -/
structure BufferCovers (machine : Machine) (directory : FatDirectory) (bytes : List Byte) :
    Prop where
  fits : bytes.length ≤ machine.room directory.item
  covers : ∀ i < directory.total.toNat, sizeofFatDirectoryItem * (i + 1) ≤ bytes.length

/-- The root directory has at most the items of a block, and of the items up to the first that
starts with a NUL at most as many are in use. -/
def RootFits (disk : Disk) (header : List Byte) : Prop :=
  (rootDirEntries header).toNat ≤ 128 ∧ ∃ k, StopsAt disk (rootDirSector header) k ∧
    Nat.count (Counted disk (rootDirSector header)) k ≤ (rootDirEntries header).toNat

/-- Where the scan of the directory that an item names starts. -/
def Volume.subdirectorySector (volume : Volume) (item : List Byte) : Word :=
  BitVec.ofInt 32 (fat16ClusterToSector volume (fat16GetFirstCluser item).toInt)

/-- The blocks of a number of items. -/
def itemBlocks (count : ℕ) : ℕ := (sizeofFatDirectoryItem * count + 4095) / 4096

/-- No item is in use up to the first that starts with a NUL, or behind the block that the record of
the directory takes there is a run of free blocks for those that are. -/
def SubdirectoryFits (fs : FileSystem) (item : List Byte) : Prop :=
  ∃ k, StopsAt fs.volume.disk (fs.volume.subdirectorySector item) k ∧
    (Nat.count (Counted fs.volume.disk (fs.volume.subdirectorySector item)) k = 0 ∨
      fs.machine.FreeRunBehind (itemBlocks
        (Nat.count (Counted fs.volume.disk (fs.volume.subdirectorySector item)) k)))

section Cover

variable {machine : Machine} {directory : FatDirectory} {bytes : List Byte}

theorem bufferCovers_iff : BufferCovers machine directory bytes ↔
    bytes.length ≤ machine.room directory.item ∧
      sizeofFatDirectoryItem * directory.total.toNat ≤ bytes.length := by
  constructor
  · rintro ⟨fits, covers⟩
    refine ⟨fits, ?_⟩
    rcases Nat.eq_zero_or_pos directory.total.toNat with none | some
    · rw [none]
      exact Nat.zero_le _
    · have last := covers (directory.total.toNat - 1) (Nat.sub_lt some one_pos)
      rwa [Nat.sub_one_add_one some.ne'] at last
  · rintro ⟨fits, covers⟩
    exact ⟨fits, fun i below => (Nat.mul_le_mul_left _ below).trans covers⟩

end Cover

section Counts

variable {disk : Disk} {sector : Word} {k : ℕ}

theorem StopsAt.unique {j : ℕ} (stops : StopsAt disk sector k) (other : StopsAt disk sector j) :
    k = j := by
  rcases lt_trichotomy k j with before | same | after
  · exact absurd stops.stop (other.before k before)
  · exact same
  · exact absurd other.stop (stops.before j after)

/-- The count of a scan is less than `2 ^ 27`. -/
theorem StopsAt.count_lt (stops : StopsAt disk sector k) :
    Nat.count (Counted disk sector) k < 2 ^ 27 :=
  Phix.count_lt _ stops.limited

theorem StopsAt.total_toNat (stops : StopsAt disk sector k) :
    (BitVec.ofInt 32 (Nat.count (Counted disk sector) k : ℕ) : Word).toNat =
      Nat.count (Counted disk sector) k := by
  have small := stops.count_lt
  rw [BitVec.ofInt_natCast, BitVec.toNat_ofNat, Nat.mod_eq_of_lt (by omega)]

end Counts

/-! The root directory. -/

theorem rootItemsRead_length {disk : Disk} (disk0 : disk.isDisk0 = true) (header : List Byte) :
    (rootItemsRead disk header).length =
      sizeofFatDirectoryItem * (rootDirEntries header).toNat := by
  have length := (diskstreamerRead_stored disk
    (int32 (((fatCopies header).toNat * (sectorsPerFat header).toNat +
      (reservedSectors header).toNat : Int) * phixSectorSize))
    ((rootDirEntries header).toNat * sizeofFatDirectoryItem)).2
    (diskstreamerRead_status disk0 _ _).ge
  have size : (((rootDirEntries header).toNat : Int) * sizeofFatDirectoryItem).toNat =
      sizeofFatDirectoryItem * (rootDirEntries header).toNat := by
    rw [← Nat.cast_mul, Int.toNat_natCast, Nat.mul_comm]
  exact length.trans size

/-- What a mounted volume has as its root directory. -/
theorem fat16Resolve_mounted {disk : Disk} {record next : DiskRecord} {machine after : Machine}
    {content : FatPrivate} (sound : machine.HeapSound)
    (mounted : fat16Resolve disk record machine = some (0, next, content, after)) :
    disk.isDisk0 = true ∧ content.rootItems = rootItemsRead disk content.header ∧
      after.room content.rootDirectory.item = 4096 ∧
      ∃ k, StopsAt disk (rootDirSector content.header) k ∧ content.rootDirectory.total =
        BitVec.ofInt 32 (Nat.count (Counted disk (rootDirSector content.header)) k : ℕ) := by
  rcases fat16Resolve_room sound disk record with
    ⟨-, panics⟩ | ⟨-, other, last, noStream⟩ |
      ⟨middle, stream, privateData, streams, resolved, grown, held, -⟩
  · exact absurd (panics.symm.trans mounted) (Option.some_ne_none _).symm
  · cases noStream.symm.trans mounted
  rw [mounted] at resolved
  cases disk0 : disk.isDisk0 with
  | false =>
      obtain ⟨other, failed⟩ := resolveHeader_absent disk0 record middle stream privateData streams
      cases resolved.trans failed
  | true =>
      refine ⟨rfl, ?_⟩
      by_cases signed : signature (slice disk.image 0 sizeofFatHeader) = phixFat16Signature
      · rw [resolveHeader_signed disk0 signed] at resolved
        by_cases ends : ∃ k,
            scanByte disk (rootDirSector (slice disk.image 0 sizeofFatHeader)) k = 0
        · rcases fat16GetRootDirectory_stops disk0 (exists_stopsAt ends) grown with
            ⟨-, directory, last, failed⟩ | ⟨-, directory, last, read, total, -, cleared⟩
          · rw [failed] at resolved
            cases resolved
          · rw [read] at resolved
            cases resolved
            refine ⟨rfl, ?_, _, exists_stopsAt ends, total⟩
            -- The stream that is freed is not the buffer: it was live before this was allocated.
            have apart : directory.item ≠ stream := by
              intro same
              rw [← same] at held
              exact held cleared.fresh
            have kept : (last.kfree stream).live directory.item =
                some ⟨BitVec.ofNat 32 sizeofFatDirectoryItem, .kernel⟩ :=
              (Function.update_of_ne apart ..).trans cleared.held
            obtain ⟨block, inside, place⟩ := cleared.pool
            have address := poolBlock_toNat inside
            rw [Machine.room_of_live kept, place, address]
            exact min_eq_left (show 4096 ≤ 0x01000000 + 4096 * 25600 - _ by omega)
        · rw [fat16GetRootDirectory_endless disk0 ends] at resolved
          cases resolved
      · obtain ⟨other, failed⟩ := resolveHeader_unsigned disk0 signed record middle stream
          privateData streams
        cases resolved.trans failed

theorem bufferCovers_root {disk : Disk} {record next : DiskRecord} {machine after : Machine}
    {content : FatPrivate} (sound : machine.HeapSound)
    (mounted : fat16Resolve disk record machine = some (0, next, content, after)) :
    BufferCovers after content.rootDirectory content.rootItems ↔ RootFits disk content.header := by
  obtain ⟨disk0, items, room, k, stops, total⟩ := fat16Resolve_mounted sound mounted
  have size : sizeofFatDirectoryItem = 32 := rfl
  rw [bufferCovers_iff, room, items, rootItemsRead_length disk0, total, stops.total_toNat, size]
  constructor
  · rintro ⟨fits, covers⟩
    exact ⟨by omega, k, stops, by omega⟩
  · rintro ⟨small, j, other, used⟩
    obtain rfl := stops.unique other
    exact ⟨by omega, by omega⟩

/-! A subdirectory. -/

namespace FileSystem

theorem fat16FreeDirectory_livePool {fs : FileSystem} (pool : fs.machine.LivePool)
    (directory : Word) : (fs.fat16FreeDirectory directory).machine.LivePool := by
  unfold fat16FreeDirectory
  dsimp only
  split
  · exact pool
  · split
    · exact (pool.kfree _).kfree _
    · exact pool.kfree _

/-- The status returned as a pointer is not that of an allocation. -/
theorem loadOut_not_live {fs : FileSystem} (pool : fs.machine.LivePool) (directory : Word)
    {ret : Int} (error : ret = - EIO ∨ ret = -ENOMEM) :
    (fs.loadOut directory ret).2.machine.live (fs.loadOut directory ret).1 = none := by
  have failed : ret < 0 := by rcases error with rfl | rfl <;> decide
  have small : (BitVec.ofInt 32 (-ret) : Word).toNat < 0x01000000 := by
    rcases error with rfl | rfl <;> decide
  unfold loadOut
  rw [if_pos failed]
  exact (fat16FreeDirectory_livePool pool directory).not_live (.inl small)

/-- A read of a volume fails with one status. -/
theorem readInternal_failed {fs : FileSystem} (disk0 : fs.volume.disk.isDisk0 = true)
    (item : List Byte) (offset total : Int)
    (failed : (fs.readInternal (fat16GetFirstCluser item).toInt offset total).1 < 0) :
    (fs.readInternal (fat16GetFirstCluser item).toInt offset total).1 = - EIO := by
  have cluster := fat16GetFirstCluser_nonneg item
  have missed : ∀ {fat offset used fat' : Int},
      fat16GetClusterForOffset fs.volume fat (fat16GetFirstCluser item).toInt offset =
        (used, fat') → used < 0 → used = - EIO := by
    intro fat offset used fat' found below
    have value := clusterForOffset_fst fs.volume.sizeOfClusterBytes (fat16GetFatEntry fs.volume) fat
      (fat16GetFirstCluser item).toInt offset
    rw [← fat16GetClusterForOffset_eq, found] at value
    dsimp only at value
    split at value
    · split at value
      · exact value
      · omega
    · omega
  unfold readInternal fat16ReadInternal at failed ⊢
  dsimp only at failed ⊢
  generalize fs.streams = streams at failed ⊢
  fun_induction fat16ReadInternalFromStream fs.volume (fat16GetClusterForOffset fs.volume) streams
    (fat16GetFirstCluser item).toInt offset total with
  | case1 =>
      rename_i found below
      exact missed found below
  | case2 streams offset total size used fat found hit place sector pos amount ret out moved read
      next below =>
      have status := diskstreamerRead_status disk0 pos amount
      rw [read] at status
      exact absurd below (by rw [show ret = 0 from status]; decide)
  | case3 streams offset total size used fat found hit place sector pos amount ret out moved read
      next answers more ret' rest last result ih =>
      rw [result] at ih
      exact ih failed
  | case4 streams offset total size used fat found hit place sector pos amount ret out moved read
      next answers => exact absurd failed answers

theorem setBytes_bytesAt (fs : FileSystem) (p : Word) (bytes : List Byte) :
    (fs.setBytes p bytes).bytesAt p = bytes := Function.update_self ..

/-- The size that `fat16_load_fat_directory` computes for the items of a directory. -/
def directorySize (total : Word) : Word := total * BitVec.ofNat 32 sizeofFatDirectoryItem

/-- What a loaded directory holds. -/
theorem fat16LoadFatDirectory_loaded {fs next : FileSystem} (sound : fs.machine.HeapSound)
    (disk0 : fs.volume.disk.isDisk0 = true) {item : List Byte} {directory : Word}
    (loaded : fs.fat16LoadFatDirectory item = some (directory, next))
    (live : next.machine.live directory ≠ none) :
    ∃ totalItems pos, fat16GetTotalItemsForDirectory fs.volume.disk
        (fs.volume.subdirectorySector item) = some (totalItems, pos) ∧
      let total : Word := BitVec.ofInt 32 totalItems
      (next.directoryAt directory).total = total ∧
        (next.bytesAt (next.directoryAt directory).item).length =
          (directorySize total).toInt.toNat ∧
        (Proper (directorySize total) →
          ((directorySize total).toNat ≤ next.machine.room (next.directoryAt directory).item ↔
            fs.machine.FreeRunBehind (blockCount (directorySize total)))) ∧
        (¬ Proper (directorySize total) →
          next.machine.room (next.directoryAt directory).item = 0) := by
  have outcome := fat16LoadFatDirectory_outcome loaded
  generalize result : (directory, next) = pair at outcome
  rw [show directory = pair.1 from congrArg Prod.fst result,
    show next = pair.2 from congrArg Prod.snd result] at live ⊢
  clear result loaded
  cases outcome with
  | notDirectory file =>
      have outside : 0x80000000 ≤ (BitVec.ofInt 32 (-EINVAL) : Word).toNat := by decide
      exact absurd (sound.livePool.not_live (.inr outside)) live
  | noDirectory middle allocated =>
      have pool := sound.livePool.kzalloc .kernel sizeofFatDirectory
      have state : (fs.kzalloc sizeofFatDirectory).2 = middle := congrArg Prod.snd allocated
      have outside : (BitVec.ofInt 32 ENOMEM : Word).toNat < 0x01000000 := by decide
      rw [← state] at live
      exact absurd (pool.not_live (.inl outside)) live
  | noItems directory middle last totalItems pos allocated made second =>
      have first : (fs.kzalloc sizeofFatDirectory).2 = middle := congrArg Prod.snd allocated
      have state : ((middle.scanned pos).kzalloc (directorySize (BitVec.ofInt 32 totalItems))).2 =
          last := congrArg Prod.snd second
      have pool : last.machine.LivePool := by
        rw [← state, ← first]
        exact (sound.livePool.kzalloc .kernel sizeofFatDirectory).kzalloc .kernel _
      exact absurd (loadOut_not_live
        (show (last.setDirectory directory _).machine.LivePool from pool)
        directory (.inr rfl)) live
  | read directory items middle last totalItems pos allocated made counted second found =>
      have first : (fs.kzalloc sizeofFatDirectory).2 = middle := congrArg Prod.snd allocated
      have state : ((middle.scanned pos).kzalloc (directorySize (BitVec.ofInt 32 totalItems))).2 =
          last := congrArg Prod.snd second
      have pointer : ((middle.scanned pos).kzalloc (directorySize (BitVec.ofInt 32 totalItems))).1 =
          items := congrArg Prod.fst second
      have volume : middle.volume = fs.volume := by
        rw [← first]
        rfl
      have same : last.volume = fs.volume := by
        rw [← state]
        exact volume
      have grown : middle.machine.HeapSound := (kzalloc_small sound (by decide) (by decide)
        allocated).1
      have pool : last.machine.LivePool := by
        rw [← state]
        exact grown.livePool.kzalloc .kernel _
      by_cases failed : (last.readItems item directory items (BitVec.ofInt 32 totalItems)).1 < 0
      · have answers : (last.setDirectory directory { FatDirectory.zero with
            total := BitVec.ofInt 32 totalItems, item := items }).volume.disk.isDisk0 = true :=
          same ▸ disk0
        have error := readInternal_failed answers item 0 _ failed
        refine absurd (loadOut_not_live ?_ directory (.inl error)) live
        exact pool
      · have stored := (fat16ReadInternalFromStream_stored last.streams
          (fat16GetFirstCluser item).toInt 0 (directorySize (BitVec.ofInt 32 totalItems)).toInt).2
          (Int.not_lt.mp failed)
        rw [volume] at counted
        refine ⟨totalItems, pos, counted, ?_⟩
        unfold loadOut
        rw [if_neg failed]
        have record :
          ((last.readItems item directory items (BitVec.ofInt 32 totalItems)).2.2.setBytes
            items (last.readItems item directory items
              (BitVec.ofInt 32 totalItems)).2.1).directoryAt directory =
            { FatDirectory.zero with total := BitVec.ofInt 32 totalItems, item := items } :=
          last.setDirectory_directoryAt directory _
        dsimp only
        rw [record]
        have place : (middle.machine.kzalloc .kernel
            (directorySize (BitVec.ofInt 32 totalItems))).1 = items := pointer
        have machine : (middle.machine.kzalloc .kernel
            (directorySize (BitVec.ofInt 32 totalItems))).2 = last.machine :=
          congrArg FileSystem.machine state
        refine ⟨rfl, ?_, fun proper => ?_, fun improper => ?_⟩
        · rw [setBytes_bytesAt]
          exact stored
        · obtain ⟨block, taken, least, rest⟩ := sound.kzalloc_first .kernel
            (show 1 ≤ sizeofFatDirectory.toNat by decide) (by decide)
            (show (fs.kzalloc sizeofFatDirectory).1 ≠ null by rw [allocated]; exact made)
          have left : middle.machine.freeBlocks = fs.machine.freeBlocks.erase block := by
            rw [← first]
            exact rest
          have fits := grown.kzalloc_fits .kernel proper (place ▸ found)
          rw [place, machine] at fits
          exact fits.trans
            (Machine.freeRun_iff_behind (one_le_blockCount proper.1) taken least left)
        · have nothing := grown.kzalloc_nothing .kernel improper (place ▸ found)
          rw [place, machine] at nothing
          exact nothing

/-- As many bytes as the size says are read and are in the blocks allocated. -/
theorem bytes_fit_iff {machine : Machine} {size : Word} {room : ℕ}
    (proper : Proper size → (size.toNat ≤ room ↔ machine.FreeRunBehind (blockCount size)))
    (improper : ¬ Proper size → room = 0) :
    (size.toInt.toNat ≤ room ∧ size.toNat ≤ size.toInt.toNat) ↔
      size.toNat = 0 ∨ machine.FreeRunBehind (blockCount size) := by
  have signed := size.toInt_eq_toNat_cond
  by_cases isProper : Proper size
  · have positive := isProper.1
    have bound := isProper.2
    unfold maxRequest at bound
    rw [if_pos (by omega)] at signed
    rw [signed, Int.toNat_natCast, and_iff_left le_rfl, proper isProper,
      or_iff_right (show size.toNat ≠ 0 by omega)]
  · rw [improper isProper]
    have large : size.toNat ≠ 0 → ¬ machine.FreeRunBehind (blockCount size) := by
      rintro positive ⟨s, ⟨fits, _⟩, _⟩
      change s + blockCount size ≤ 25600 at fits
      unfold blockCount at fits
      exact isProper ⟨by omega, by unfold maxRequest; omega⟩
    have read : size.toInt.toNat = size.toNat ∨ size.toInt.toNat = 0 := by
      split at signed <;> omega
    constructor
    · exact fun fits => .inl (by omega)
    · rintro (zero | run)
      · omega
      · by_cases zero : size.toNat = 0
        · omega
        · exact absurd run (large zero)

theorem bufferCovers_subdirectory {fs next : FileSystem} (sound : fs.machine.HeapSound)
    (disk0 : fs.volume.disk.isDisk0 = true) {item : List Byte} {directory : Word}
    (loaded : fs.fat16LoadFatDirectory item = some (directory, next))
    (live : next.machine.live directory ≠ none) :
    BufferCovers next.machine (next.directoryAt directory)
      (next.bytesAt (next.directoryAt directory).item) ↔ SubdirectoryFits fs item := by
  obtain ⟨totalItems, pos, counted, total, length, granted, nothing⟩ :=
    fat16LoadFatDirectory_loaded sound disk0 loaded live
  obtain ⟨k, stops⟩ : ∃ k, StopsAt fs.volume.disk (fs.volume.subdirectorySector item) k := by
    by_contra absent
    have endless : ∀ i < scanLimit,
        scanByte fs.volume.disk (fs.volume.subdirectorySector item) i ≠ 0 :=
      fun i _ zero => absent ⟨_, exists_stopsAt ⟨i, zero⟩⟩
    have none := fat16GetTotalItemsForDirectory_endless disk0 endless
    exact Option.some_ne_none _ (counted.symm.trans none)
  rw [fat16GetTotalItemsForDirectory_stops disk0 stops stops.limited] at counted
  obtain ⟨rfl, -⟩ := Prod.mk.inj (Option.some.inj counted)
  have bound := stops.count_lt
  have whole : (directorySize (BitVec.ofInt 32
      (Nat.count (Counted fs.volume.disk (fs.volume.subdirectorySector item)) k : ℕ))).toNat =
        sizeofFatDirectoryItem *
          Nat.count (Counted fs.volume.disk (fs.volume.subdirectorySector item)) k := by
    rw [directorySize, BitVec.toNat_mul, stops.total_toNat, BitVec.toNat_ofNat, Nat.mul_comm]
    unfold sizeofFatDirectoryItem
    omega
  have blocks : blockCount (directorySize (BitVec.ofInt 32
      (Nat.count (Counted fs.volume.disk (fs.volume.subdirectorySector item)) k : ℕ))) =
        itemBlocks (Nat.count (Counted fs.volume.disk (fs.volume.subdirectorySector item)) k) := by
    unfold blockCount itemBlocks
    rw [whole]
  have fits := bytes_fit_iff granted nothing
  rw [blocks, whole] at fits
  rw [bufferCovers_iff, total, length, stops.total_toNat, fits]
  constructor
  · refine fun room => ⟨k, stops, room.imp_left fun none => ?_⟩
    unfold sizeofFatDirectoryItem at none
    omega
  · rintro ⟨j, other, room⟩
    obtain rfl := stops.unique other
    exact room.imp_left fun none => by rw [none, Nat.mul_zero]

end FileSystem

/-- **Directory buffers cover what a lookup reads** exactly when the root directory of the mounted
volume has at most the items of one block and no more of them in use, and when there is a run of
free blocks for the items in use of a subdirectory. -/
theorem fat16_directory_buffers_iff {disk : Disk} {record next : DiskRecord}
    {machine after : Machine} {content : FatPrivate} (sound : machine.HeapSound)
    (mounted : fat16Resolve disk record machine = some (0, next, content, after)) :
    (BufferCovers after content.rootDirectory content.rootItems ↔ RootFits disk content.header) ∧
      ∀ {fs loaded : FileSystem} {item : List Byte} {directory : Word}, fs.machine.HeapSound →
        fs.volume.disk = disk → fs.fat16LoadFatDirectory item = some (directory, loaded) →
        loaded.machine.live directory ≠ none →
        (BufferCovers loaded.machine (loaded.directoryAt directory)
          (loaded.bytesAt (loaded.directoryAt directory).item) ↔
            SubdirectoryFits fs item) := by
  refine ⟨bufferCovers_root sound mounted, fun grown same loaded live => ?_⟩
  have disk0 := (fat16Resolve_mounted sound mounted).1
  exact FileSystem.bufferCovers_subdirectory grown (same ▸ disk0) loaded live

theorem nestedVolume_stops : StopsAt nestedVolume.disk
    (nestedVolume.subdirectorySector (directoryItem 0x44 2)) 1 := by
  constructor <;> decide

/-- The directory is loaded. -/
theorem nestedVolume_loaded : ∃ directory loaded,
    (FileSystem.fresh (Machine.booted fun _ => 0) nestedVolume).fat16LoadFatDirectory
        (directoryItem 0x44 2) = some (directory, loaded) ∧
      loaded.machine.live directory ≠ none := by
  have sound : (FileSystem.fresh (Machine.booted fun _ => 0) nestedVolume).machine.HeapSound :=
    Machine.booted_sound _
  have room := Machine.booted_card fun _ => 0
  have counted :=
    fat16GetTotalItemsForDirectory_stops rfl nestedVolume_stops nestedVolume_stops.limited
  have one : Nat.count (Counted nestedVolume.disk
      (nestedVolume.subdirectorySector (directoryItem 0x44 2))) 1 = 1 := by decide
  rw [one] at counted
  obtain ⟨directory, loaded, loads, served⟩ := FileSystem.fat16LoadFatDirectory_served sound
    (by decide) counted (by decide) (by decide)
    (show 2 ≤ (Machine.booted fun _ => 0).freeBlocks.card by omega)
  have readable : FileSystem.DirectoryReadable nestedVolume (directoryItem 0x44 2) := by
    intro _ totalItems pos other streams
    cases counted.symm.trans other
    refine Int.not_lt.mp fun failed => ?_
    refine (fat16ReadInternalFromStream_neg (by decide) streams (by decide)).mp failed ⟨rfl, ?_⟩
    exact (piecesFound_single (by decide) (by decide)).mpr (.inl (by decide))
  have grows := ((FileSystem.fat16LoadFatDirectory_grows sound loads).2.apply served) (by decide)
    readable
  exact ⟨directory, loaded, loads, grows.gains.held directory (by simp)⟩

/-- A root directory of 16 items, and the directory in it. -/
theorem fat16_directory_buffers_iff_small :
    (∃ next content after, fat16Resolve (rootDisk 16 0) unmounted (Machine.booted fun _ => 0) =
        some (0, next, content, after) ∧
      BufferCovers after content.rootDirectory content.rootItems) ∧
    ∃ directory loaded,
      (FileSystem.fresh (Machine.booted fun _ => 0) nestedVolume).fat16LoadFatDirectory
          (directoryItem 0x44 2) = some (directory, loaded) ∧
        BufferCovers loaded.machine (loaded.directoryAt directory)
          (loaded.bytesAt (loaded.directoryAt directory).item) := by
  have sound := Machine.booted_sound fun _ => 0
  have room := Machine.booted_card fun _ => 0
  have stops : StopsAt (rootDisk 16 0)
      (rootDirSector (slice (rootDisk 16 0).image 0 sizeofFatHeader)) 1 := by
    constructor <;> decide
  obtain ⟨next, content, after, mounted, header, -⟩ := fat16Resolve_mounts
    (show (rootDisk 16 0).isDisk0 = true from rfl) sound (by omega) (by decide) ⟨1, stops.stop⟩
    unmounted
  obtain ⟨root, subdirectory⟩ := fat16_directory_buffers_iff sound mounted
  obtain ⟨directory, loaded, loads, live⟩ := nestedVolume_loaded
  refine ⟨⟨next, content, after, mounted, root.mpr ?_⟩, directory, loaded, loads,
    (subdirectory sound rfl loads live).mpr ?_⟩
  · rw [header]
    exact ⟨by decide, 1, stops, by decide⟩
  · have one : Nat.count (Counted nestedVolume.disk
        (nestedVolume.subdirectorySector (directoryItem 0x44 2))) 1 = 1 := by decide
    have free : ∀ i < 25600,
        (kernelHeap (Machine.booted fun _ => 0).memory).table.IsFree i := fun i inside =>
      (Machine.mem_freeBlocks.mp (Machine.booted_freeFrom _ i (Nat.zero_le i) inside)).2
    refine ⟨1, nestedVolume_stops, .inr ⟨1, ⟨?_, fun i _ upper => free i ?_⟩, 0, one_pos,
      free 0 (by decide)⟩⟩
    · exact (congrArg (1 + itemBlocks ·) one).trans_le (by decide)
    · have length : itemBlocks (Nat.count (Counted nestedVolume.disk
          (nestedVolume.subdirectorySector (directoryItem 0x44 2))) 1) = 1 := by rw [one]; rfl
      exact (upper.trans_eq (congrArg (1 + ·) length)).trans (by decide)

/-- The 512 items of the usual root directory are read into one block. -/
theorem fat16_directory_buffers_fails :
    ∃ next content after, fat16Resolve (rootDisk 0 2) unmounted (Machine.booted fun _ => 0) =
        some (0, next, content, after) ∧
      (rootDirEntries content.header).toNat = 512 ∧
      ¬ BufferCovers after content.rootDirectory content.rootItems := by
  have sound := Machine.booted_sound fun _ => 0
  have room := Machine.booted_card fun _ => 0
  have stop : scanByte (rootDisk 0 2)
      (rootDirSector (slice (rootDisk 0 2).image 0 sizeofFatHeader)) 1 = 0 := by decide
  obtain ⟨next, content, after, mounted, header, -⟩ := fat16Resolve_mounts
    (show (rootDisk 0 2).isDisk0 = true from rfl) sound (by omega) (by decide) ⟨1, stop⟩ unmounted
  refine ⟨next, content, after, mounted, ?_⟩
  rw [bufferCovers_root sound mounted, header]
  exact ⟨by decide, fun fits => absurd fits.1 (by decide)⟩

end Phix
