import Phix.Fs.Lookup
import Phix.Fs.Room

/-! # Walking a path

The tree of directories of a volume (`Phix.Volume.Resolves`), and what
`fat16_get_directory_entry` makes of it. The walk ends at the first item, whatever it is, when
another part follows: a path of one part is looked up in the root directory and a longer one finds
nothing (`Phix.FileSystem.fat16GetDirectoryEntry_deep`).
-/

namespace Phix

open Slices

namespace Volume

/-- The entry of a cluster in the allocation table, which follows the reserved sectors. -/
def tableEntry (volume : Volume) (cluster : ℕ) : ℕ :=
  let pos := fat16GetFirstFatSector volume * phixSectorSize + 2 * cluster
  (volume.disk.image pos).toNat + 256 * (volume.disk.image (pos + 1)).toNat

/-- A cluster, and those that follow it by the allocation table up to a last one. -/
inductive Chain (volume : Volume) : ℕ → List ℕ → Prop where
  | last (cluster : ℕ) (ends : 0xFFF8 ≤ volume.tableEntry cluster) : Chain volume cluster [cluster]
  | next (cluster : ℕ) (rest : List ℕ) (more : volume.tableEntry cluster < 0xFFF0)
      (chain : Chain volume (volume.tableEntry cluster) rest) :
        Chain volume cluster (cluster :: rest)

/-- The items of the directory that an item names. -/
structure Subdirectory (volume : Volume) (item items : List Byte) (count : ℕ) : Prop where
  directory : itemAttributes item &&& fatFileSubdirectory ≠ 0
  stored : ∃ chain, volume.Chain (itemLow16BitsFirstCluster item).toNat chain ∧
    volume.chainBytes chain = items
  content : DirectoryContent items count

/-- The item that a path names, from a directory on. -/
inductive Resolves (volume : Volume) :
    List Byte → ℕ → List (List Byte) → List Byte → Prop where
  | entry {items name : List Byte} {count i : ℕ} (first : FirstLive items name count i) :
      Resolves volume items count [name] (itemAt items i)
  | walk {items inner name next item : List Byte} {count innerCount i : ℕ}
    {names : List (List Byte)}
      (first : FirstLive items name count i)
      (directory : volume.Subdirectory (itemAt items i) inner innerCount)
      (rest : Resolves volume inner innerCount (next :: names) item) :
      Resolves volume items count (name :: next :: names) item

/-- The root directory as the volume was mounted with: its items, all read and in the one block of
their buffer, and their number on the disk. -/
structure RootContent (volume : Volume) (count : ℕ) : Prop where
  disk0 : volume.disk.isDisk0 = true
  content : DirectoryContent volume.rootItems count
  holds : volume.disk.HoldsItems volume.rootItems count volume.rootDirectory.sectorPos
  read : count < (rootDirEntries volume.header).toNat
  kept : sizeofFatDirectoryItem * count ≤ phixHeapBlockSize.toNat
  counted : ∃ totalItems pos, fat16GetTotalItemsForDirectory volume.disk
      volume.rootDirectory.sectorPos = some (totalItems, pos) ∧
    volume.rootDirectory.total = BitVec.ofInt 32 totalItems

/-- The number that the root directory was mounted with is that of its live items. -/
theorem RootContent.total {volume : Volume} {count : ℕ} (root : volume.RootContent count) :
    volume.rootDirectory.total.toNat = Nat.count (Live volume.rootItems) count := by
  obtain ⟨totalItems, pos, counted, total⟩ := root.counted
  obtain ⟨_, scanned⟩ := fat16GetTotalItemsForDirectory_eq root.disk0 root.content root.holds
  obtain ⟨rfl, _⟩ := Prod.mk.inj (Option.some.inj (counted.symm.trans scanned))
  have bound := count_lt (Live volume.rootItems) root.holds.small
  rw [total, BitVec.ofInt_natCast, BitVec.toNat_ofNat, Nat.mod_eq_of_lt (by omega)]

theorem resolves_single {volume : Volume} {items name item : List Byte} {count : ℕ} :
    volume.Resolves items count [name] item ↔
      ∃ i, FirstLive items name count i ∧ item = itemAt items i := by
  constructor
  · rintro (first | _)
    exact ⟨_, first, rfl⟩
  · rintro ⟨i, first, rfl⟩
    exact .entry first

end Volume

namespace FileSystem

/-- The item in memory is that of the item on the volume: a copy of it, or its directory as
`fat16_load_fat_directory` loads it. -/
structure ItemFor (fs : FileSystem) (p : Word) (item : List Byte) : Prop where
  found : p ≠ null
  directory : itemAttributes item &&& fatFileSubdirectory ≠ 0 →
    (fs.fatItemAt p).type = fatItemTypeDirectory ∧ ∃ before after : FileSystem,
      before.volume = fs.volume ∧
        before.fat16LoadFatDirectory item = some ((fs.fatItemAt p).ref, after)
  file : itemAttributes item &&& fatFileSubdirectory = 0 →
    (fs.fatItemAt p).type = fatItemTypeFile ∧
      fs.bytesAt (fs.fatItemAt p).ref = item.take sizeofFatDirectoryItem

/-! A new item, for a heap that serves every request. -/

/-- An item that was made with every request served is that of the item it was made from, and the
scan of its directory has ended. -/
theorem fat16NewFatItemForDirectoryItem_made {fs next : FileSystem} (sound : fs.machine.HeapSound)
    {item : List Byte} {p : Word} (made : fs.fat16NewFatItemForDirectoryItem item = some (p, next))
    (served : fs.machine.Permits Request.Served next.machine) :
    next.ItemFor p item ∧
      (itemAttributes item &&& fatFileSubdirectory ≠ 0 → fs.volume.scanOf item ≠ none) := by
  have kept := (fat16NewFatItemForDirectoryItem_grows sound made).1.volume
  unfold fat16NewFatItemForDirectoryItem at made
  cases allocated : fs.kzalloc sizeofFatItem with
  | mk fItem middle =>
      obtain ⟨after, grows⟩ := kzalloc_small sound (by decide) (by decide) allocated
      obtain ⟨_, _, _, found⟩ := kzalloc_grows sound allocated
      rw [allocated] at made
      dsimp only at made
      by_cases isNull : fItem = null
      · rw [if_pos isNull] at made
        cases made
        exact absurd isNull (found.apply served).1
      · rw [if_neg isNull] at made
        by_cases isDirectory : itemAttributes item &&& fatFileSubdirectory ≠ 0
        · rw [if_pos isDirectory, Option.bind_eq_bind, Option.bind_eq_some_iff] at made
          obtain ⟨⟨directory, last⟩, loaded, rest⟩ := made
          cases rest
          have record := last.setFatItem_fatItemAt p ⟨directory, fatItemTypeDirectory⟩
          refine ⟨⟨isNull, fun _ => ⟨congrArg FatItem.type record, middle, last, ?_, ?_⟩,
            fun file => absurd file isDirectory⟩, fun _ endless => ?_⟩
          · exact grows.volume.trans kept.symm
          · rw [record]
            exact loaded
          · have directoryMade : (middle.kzalloc sizeofFatDirectory).1 ≠ null := by
              have outcome := fat16LoadFatDirectory_outcome loaded
              generalize result : (directory, last) = pair at outcome
              cases outcome with
              | notDirectory file => exact absurd file isDirectory
              | noDirectory state second =>
                  obtain ⟨_, _, _, allocates⟩ := kzalloc_grows after second
                  cases result
                  exact absurd rfl (((grows.sound.after allocates).congr rfl).apply served).1
              | noItems _ _ _ _ _ second found => rwa [second]
              | read _ _ _ _ _ _ second found => rwa [second]
            rw [← grows.volume] at endless
            have none := (fat16LoadFatDirectory_eq_none isDirectory).mpr ⟨directoryMade, endless⟩
            cases none.symm.trans loaded
        · rw [if_neg isDirectory] at made
          unfold fat16CloneDirectoryItem at made
          rw [if_neg (by decide)] at made
          cases second : middle.kzalloc (BitVec.ofNat 32 sizeofFatDirectoryItem) with
          | mk cpy last =>
              obtain ⟨_, _, _, allocates⟩ := kzalloc_grows after second
              rw [second] at made
              dsimp only at made
              by_cases noCopy : cpy = null
              · rw [if_pos noCopy] at made
                cases made
                exact absurd noCopy (((grows.sound.after allocates).congr rfl).apply served).1
              · rw [if_neg noCopy] at made
                cases made
                refine ⟨⟨isNull, fun directory => absurd directory isDirectory, fun _ => ?_⟩,
                  fun directory => absurd directory isDirectory⟩
                rw [setFatItem_fatItemAt]
                exact ⟨rfl, Function.update_self ..⟩

/-! The walk. -/

theorem fat16GetDirectoryEntry_absent {fs : FileSystem} {part : PathPart} (path : List PathPart)
    (search : fat16FindItemInDirectory.loop fs.volume.rootItems fs.volume.rootDirectory.total
      part.text = none) :
    fs.fat16GetDirectoryEntry part path = some (null, fs) := by
  unfold fat16GetDirectoryEntry fat16FindItemInDirectory
  rw [search]
  rfl

/-- A path of one part is looked up in the root directory. -/
theorem fat16GetDirectoryEntry_single {fs : FileSystem} {part : PathPart} {i : ℕ}
    (search : fat16FindItemInDirectory.loop fs.volume.rootItems fs.volume.rootDirectory.total
      part.text = some i) :
    fs.fat16GetDirectoryEntry part [] =
      fs.fat16NewFatItemForDirectoryItem (itemAt fs.volume.rootItems i) := by
  unfold fat16GetDirectoryEntry fat16FindItemInDirectory
  rw [search]
  dsimp only
  cases fs.fat16NewFatItemForDirectoryItem (itemAt fs.volume.rootItems i) with
  | none => rfl
  | some result =>
      rw [Option.bind_eq_bind, Option.bind_some]
      by_cases isNull : result.1 = null
      · rw [if_pos isNull, ← isNull]
      · rw [if_neg isNull]
        rfl

/-- A longer path finds nothing, once the item of its first part is made. -/
theorem fat16GetDirectoryEntry_deep {fs : FileSystem} {part : PathPart} {i : ℕ}
    (search : fat16FindItemInDirectory.loop fs.volume.rootItems fs.volume.rootDirectory.total
      part.text = some i) (nextPart : PathPart) (path : List PathPart) :
    fs.fat16GetDirectoryEntry part (nextPart :: path) =
      (fs.fat16NewFatItemForDirectoryItem (itemAt fs.volume.rootItems i)).map
        fun result => (null, result.2) := by
  unfold fat16GetDirectoryEntry fat16FindItemInDirectory
  rw [search]
  dsimp only
  cases fs.fat16NewFatItemForDirectoryItem (itemAt fs.volume.rootItems i) with
  | none => rfl
  | some result =>
      rw [Option.bind_eq_bind, Option.bind_some, Option.map_some]
      by_cases isNull : result.1 = null
      · rw [if_pos isNull]
      · rw [if_neg isNull]
        exact fat16GetDirectoryEntry.loop_cons result.2 isNull nextPart path

/-- The walk returns the item that the path names in the tree of the volume, and null when it
names none. -/
def WalksTree (fs : FileSystem) (count : ℕ) (path : List (List Byte))
    (result : Option (Word × FileSystem)) : Prop :=
  (∀ item, fs.volume.Resolves fs.volume.rootItems count path item →
    ∃ p next, result = some (p, next) ∧ next.ItemFor p item) ∧
  ((¬ ∃ item, fs.volume.Resolves fs.volume.rootItems count path item) →
    ∃ next, result = some (null, next))

/-- The first lookup ends, a single name is looked up as in the tree, and a longer path names
nothing. -/
structure WalkShallow (fs : FileSystem) (count : ℕ) (name : List Byte) (names : List (List Byte)) :
    Prop where
  ends : ∀ i, fat16FindItemInDirectory.loop fs.volume.rootItems fs.volume.rootDirectory.total name =
      some i → itemAttributes (itemAt fs.volume.rootItems i) &&& fatFileSubdirectory ≠ 0 →
    fs.volume.scanOf (itemAt fs.volume.rootItems i) ≠ none
  single : names = [] →
    (∀ i < Nat.count (Live fs.volume.rootItems) count, HasName fs.volume.rootItems name i →
      Live fs.volume.rootItems i) ∧
    ∀ i, FirstLive fs.volume.rootItems name count i → i < Nat.count (Live fs.volume.rootItems) count
  deep : names ≠ [] → ¬ ∃ item, fs.volume.Resolves fs.volume.rootItems count (name :: names) item

section Outcomes

variable {fs : FileSystem} {count : ℕ} {path : List (List Byte)}

/-- Null is right for the paths that name nothing. -/
theorem walksTree_null {next : FileSystem} : fs.WalksTree count path (some (null, next)) ↔
    ¬ ∃ item, fs.volume.Resolves fs.volume.rootItems count path item := by
  constructor
  · rintro ⟨finds, _⟩ ⟨item, resolves⟩
    obtain ⟨p, state, same, itemFor⟩ := finds item resolves
    cases same
    exact itemFor.found rfl
  · exact fun absent => ⟨fun item resolves => absurd ⟨item, resolves⟩ absent, fun _ => ⟨next, rfl⟩⟩

theorem not_walksTree_none : ¬ fs.WalksTree count path none := by
  rintro ⟨finds, misses⟩
  by_cases resolves : ∃ item, fs.volume.Resolves fs.volume.rootItems count path item
  · obtain ⟨item, resolves⟩ := resolves
    obtain ⟨_, _, same, _⟩ := finds item resolves
    cases same
  · obtain ⟨_, same⟩ := misses resolves
    cases same

/-- A single name and the item that was made for the first raw item with the name. -/
theorem walksTree_single {next : FileSystem} {name : List Byte} {p : Word} {i : ℕ}
    (itemFor : next.ItemFor p (itemAt fs.volume.rootItems i)) (inside : i < count)
    (named : HasName fs.volume.rootItems name i)
    (least : ∀ j < i, ¬ HasName fs.volume.rootItems name j) :
    fs.WalksTree count [name] (some (p, next)) ↔ Live fs.volume.rootItems i := by
  constructor
  · rintro ⟨_, misses⟩
    by_contra notLive
    obtain ⟨_, same⟩ := misses fun ⟨item, resolves⟩ => by
      obtain ⟨j, first, _⟩ := Volume.resolves_single.mp resolves
      exact HasName.not_live notLive named first.named first.live
    cases same
    exact itemFor.found rfl
  · intro live
    have first : FirstLive fs.volume.rootItems name count i :=
      ⟨inside, live, named, fun j before _ => least j before⟩
    refine ⟨fun item resolves => ?_, fun absent => ?_⟩
    · obtain ⟨j, other, rfl⟩ := Volume.resolves_single.mp resolves
      exact ⟨p, next, rfl, other.unique first ▸ itemFor⟩
    · exact absurd ⟨_, Volume.resolves_single.mpr ⟨i, first, rfl⟩⟩ absent

end Outcomes

end FileSystem

open FileSystem in
/-- **Only the root directory is walked**: the result is the item that the path names exactly when
the scan of the first item ends, a path of one name is found among as many items as are live, and a
longer path names nothing. -/
theorem fat16_get_directory_entry_walks_iff {fs : FileSystem} (sound : fs.machine.HeapSound)
    {count : ℕ} (root : fs.volume.RootContent count) {part : PathPart} {path : List PathPart}
    {name : CString} (text : part.text = name.bytes) (short : name.bytes.length < phixMaxPath)
    (served : ∀ p next, fs.fat16GetDirectoryEntry part path = some (p, next) →
      fs.machine.Permits Request.Served next.machine) :
    fs.WalksTree count (name.bytes :: path.map PathPart.text)
      (fs.fat16GetDirectoryEntry part path) ↔
      fs.WalkShallow count name.bytes (path.map PathPart.text) := by
  have total := root.total
  cases search : fat16FindItemInDirectory.loop fs.volume.rootItems fs.volume.rootDirectory.total
      part.text with
  | none =>
      rw [fat16GetDirectoryEntry_absent path search, walksTree_null]
      rw [text] at search
      have missed := (fat16FindItemInDirectory.loop_eq_none short).mp search
      rw [total] at missed
      constructor
      · refine fun absent => ⟨fun i found => ?_,
          fun empty => ⟨fun i inside named => ?_, fun i first => ?_⟩,
          fun _ => absent⟩
        · cases search.symm.trans found
        · exact absurd named (missed i inside)
        · rw [empty] at absent
          exact absurd ⟨_, Volume.resolves_single.mpr ⟨i, first, rfl⟩⟩ absent
      · intro shallow
        by_cases empty : path.map PathPart.text = []
        · rintro ⟨item, resolves⟩
          rw [empty] at resolves
          obtain ⟨i, first, _⟩ := Volume.resolves_single.mp resolves
          exact missed i ((shallow.single empty).2 i first) first.named
        · exact shallow.deep empty
  | some i =>
      have looked := search
      rw [text] at looked
      obtain ⟨inside, named, least⟩ := (fat16FindItemInDirectory.loop_eq_some short).mp looked
      rw [total] at inside
      cases made : fs.fat16NewFatItemForDirectoryItem (itemAt fs.volume.rootItems i) with
      | none =>
          obtain ⟨isDirectory, endless⟩ := fat16NewFatItemForDirectoryItem_endless made
          have never : fs.fat16GetDirectoryEntry part path = none := by
            cases path with
            | nil => exact (fat16GetDirectoryEntry_single search).trans made
            | cons nextPart path => rw [fat16GetDirectoryEntry_deep search, made, Option.map_none]
          rw [never]
          exact iff_of_false not_walksTree_none fun shallow =>
            shallow.ends i looked isDirectory endless
      | some result =>
          obtain ⟨p, next⟩ := result
          cases path with
          | nil =>
              have entry := (fat16GetDirectoryEntry_single search).trans made
              obtain ⟨itemFor, ends⟩ :=
                fat16NewFatItemForDirectoryItem_made sound made (served p next entry)
              rw [entry]
              refine (walksTree_single itemFor
                (inside.trans_le (Nat.count_le _)) named least).trans ?_
              constructor
              · intro live
                have first : FirstLive fs.volume.rootItems name.bytes count i :=
                  ⟨inside.trans_le (Nat.count_le _), live, named, fun j before _ => least j before⟩
                refine ⟨fun j found => ?_, fun _ => ⟨fun j _ itsName => ?_, fun j other => ?_⟩,
                  fun deep => absurd rfl deep⟩
                · cases looked.symm.trans found
                  exact ends
                · by_contra notLive
                  exact HasName.not_live notLive itsName named live
                · exact other.unique first ▸ inside
              · exact fun shallow => (shallow.single rfl).1 i inside named
          | cons nextPart path =>
              have entry : fs.fat16GetDirectoryEntry part (nextPart :: path) = some
                  (null, next) := by
                rw [fat16GetDirectoryEntry_deep search, made, Option.map_some]
              obtain ⟨_, ends⟩ :=
                fat16NewFatItemForDirectoryItem_made sound made (served null next entry)
              rw [entry, walksTree_null]
              refine ⟨fun absent => ⟨fun j found => ?_, fun empty => ?_, fun _ => absent⟩,
                fun shallow => shallow.deep (by simp)⟩
              · cases looked.symm.trans found
                exact ends
              · cases empty

/-! A volume with a directory `D` that holds a file `A`. -/

def directoryItem (first : Byte) (cluster : Byte) : List Byte :=
  first :: List.replicate 10 0x20 ++ [fatFileSubdirectory] ++ List.replicate 14 0 ++ [cluster, 0] ++
    List.replicate 4 0

/-- A disk that starts with the sectors, each filled up with zeros. -/
def Disk.ofSectors (sectors : List (List Byte)) : Disk where
  isDisk0 := true
  sector lba i := (sectors.getD lba.toNat []).getD i 0
  stray _ := 0

/-- A disk with a boot sector, an allocation table, a root directory that holds a directory `D`, and
the cluster of this one. The number of items in the root directory is given lowest byte first. -/
def rootDisk (low high : Byte) : Disk :=
  Disk.ofSectors [List.replicate 11 0 ++ [0, 2, 1, 1, 0, 1, low, high, 0, 0, 0, 1] ++
    List.replicate 15 0 ++ [0x29], List.replicate 4 0 ++ [0xFF, 0xFF], directoryItem 0x44 2,
    plainItem 0x41]

/-- The volume of that disk, with 16 items in its root directory. -/
def nestedVolume : Volume where
  disk := rootDisk 16 0
  header := slice (rootDisk 16 0).image 0 sizeofFatHeader
  rootDirectory := ⟨null, 1, 2, 3⟩
  rootItems := directoryItem 0x44 2 ++ List.replicate 32 0
  clustered := by decide

theorem nestedVolume_root : nestedVolume.RootContent 1 := by
  have content : DirectoryContent nestedVolume.rootItems 1 := ⟨by decide, by decide⟩
  have holds : nestedVolume.disk.HoldsItems nestedVolume.rootItems 1
      nestedVolume.rootDirectory.sectorPos := ⟨by decide, by decide⟩
  obtain ⟨pos, counted⟩ := fat16GetTotalItemsForDirectory_eq rfl content holds
  exact ⟨rfl, content, holds, by decide, by decide, _, pos, counted, by decide⟩

def nameD : CString := ⟨[0x64], by decide⟩

theorem nestedVolume_directory :
    nestedVolume.Subdirectory (itemAt nestedVolume.rootItems 0)
        (nestedVolume.clusterBytes 2) 1 where
  directory := by decide
  stored := ⟨[2], .last 2 (by decide), by simp [Volume.chainBytes]⟩
  content := ⟨by decide +kernel, by decide +kernel⟩

theorem nestedVolume_resolves : nestedVolume.Resolves nestedVolume.rootItems 1
    [nameD.bytes, nameA.bytes] (itemAt (nestedVolume.clusterBytes 2) 0) :=
  .walk (i := 0) ⟨by decide, by decide, by decide, by decide⟩ nestedVolume_directory
    (.entry ⟨by decide, by decide +kernel, by decide +kernel, by decide⟩)

/-- Giving a directory back makes no request. -/
theorem FileSystem.loadOut_requests (fs : FileSystem) (directory : Word) (ret : Int) :
    (fs.loadOut directory ret).2.machine.requests = fs.machine.requests := by
  unfold loadOut fat16FreeDirectory
  split
  · split
    · rfl
    · dsimp only
      split <;> rfl
  · rfl

/-- Loading a directory of up to a block's worth of items, with two free blocks. -/
theorem FileSystem.fat16LoadFatDirectory_served {fs : FileSystem} (sound : fs.machine.HeapSound)
    {item : List Byte} (isDirectory : itemAttributes item &&& fatFileSubdirectory ≠ 0)
    {totalItems pos : Int} (counted : fs.volume.scanOf item = some (totalItems, pos))
    (positive : 1 ≤ (BitVec.ofInt 32 totalItems * BitVec.ofNat 32 sizeofFatDirectoryItem).toNat)
    (small : (BitVec.ofInt 32 totalItems * BitVec.ofNat 32 sizeofFatDirectoryItem).toNat ≤ 4096)
    (room : 2 ≤ fs.machine.freeBlocks.card) :
    ∃ p next, fs.fat16LoadFatDirectory item = some (p, next) ∧
      fs.machine.Permits Request.Served next.machine := by
  obtain ⟨directory, middle, allocated, found, _, _, spends⟩ := kzalloc_spends sound
    (show 1 ≤ sizeofFatDirectory.toNat by decide) (by decide) (by omega)
  have spent := spends.room
  obtain ⟨items, last, second, made, _, _, more⟩ := kzalloc_spends
    (show (middle.scanned pos).machine.HeapSound from spends.sound) positive small
    (show 1 ≤ middle.machine.freeBlocks.card by omega)
  have served := spends.served.trans more.served
  unfold scanned at second
  rw [← spends.volume] at counted
  unfold Volume.scanOf at counted
  unfold fat16LoadFatDirectory
  rw [if_neg isDirectory, allocated]
  dsimp only
  rw [if_neg found, counted]
  simp only [Option.bind_eq_bind, Option.bind_some]
  rw [second]
  dsimp only
  rw [if_neg made]
  obtain ⟨requests, journal, all⟩ := served
  exact ⟨_, _, rfl, requests, (loadOut_requests ..).trans journal, all⟩

def nestedFileSystem : FileSystem := FileSystem.fresh (Machine.booted fun _ => 0) nestedVolume

def partD : PathPart := ⟨null, null, nameD.bytes⟩

theorem nestedFileSystem_search : fat16FindItemInDirectory.loop nestedFileSystem.volume.rootItems
    nestedFileSystem.volume.rootDirectory.total partD.text = some 0 := by
  decide

theorem nestedVolume_scanned : ∃ pos,
    nestedVolume.scanOf (itemAt nestedVolume.rootItems 0) = some (1, pos) := by
  have holds : nestedVolume.disk.HoldsItems (nestedVolume.clusterBytes 2) 1 3 :=
    ⟨by decide, by decide +kernel⟩
  obtain ⟨pos, counted⟩ :=
    fat16GetTotalItemsForDirectory_eq rfl nestedVolume_directory.content holds
  have single : Nat.count (Live (nestedVolume.clusterBytes 2)) 1 = 1 := by decide +kernel
  rw [single] at counted
  exact ⟨pos, counted⟩

/-- The directory is loaded, with every request served. -/
theorem nestedFileSystem_made : ∃ p next,
    nestedFileSystem.fat16NewFatItemForDirectoryItem (itemAt nestedVolume.rootItems 0) =
        some (p, next) ∧
      nestedFileSystem.machine.Permits Request.Served next.machine ∧
      nestedVolume.scanOf (itemAt nestedVolume.rootItems 0) ≠ none := by
  have sound : nestedFileSystem.machine.HeapSound := Machine.booted_sound _
  have room : nestedFileSystem.machine.freeBlocks.card = 25600 :=
    Machine.booted_card _
  obtain ⟨item, middle, allocated, found, _, _, spends⟩ := FileSystem.kzalloc_spends sound
    (show 1 ≤ sizeofFatItem.toNat by decide) (by decide) (by omega)
  have spent := spends.room
  obtain ⟨pos, counted⟩ := nestedVolume_scanned
  have volume : middle.volume = nestedVolume := spends.volume
  have scanned : middle.volume.scanOf (itemAt nestedVolume.rootItems 0) = some (1, pos) := by
    rw [volume]
    exact counted
  obtain ⟨directory, next, loaded, served⟩ := FileSystem.fat16LoadFatDirectory_served spends.sound
    (by decide) scanned (by decide) (by decide) (by omega)
  rw [volume] at scanned
  refine ⟨item, next.setFatItem item ⟨directory, fatItemTypeDirectory⟩, ?_,
    spends.served.trans served, by rw [scanned]; simp⟩
  unfold FileSystem.fat16NewFatItemForDirectoryItem
  rw [allocated]
  dsimp only
  rw [if_neg found, if_pos (by decide), loaded]
  rfl

/-- The file in the directory is not found. -/
theorem fat16_get_directory_entry_walks_fails :
    nestedVolume.RootContent 1 ∧
      (∃ item, nestedVolume.Resolves nestedVolume.rootItems 1 [nameD.bytes, nameA.bytes] item) ∧
      ∃ p next, nestedFileSystem.fat16GetDirectoryEntry partD [⟨null, null, nameA.bytes⟩] =
          some (p, next) ∧
        nestedFileSystem.machine.Permits Request.Served next.machine ∧
        ¬ nestedFileSystem.WalksTree 1 [nameD.bytes, nameA.bytes] (some (p, next)) := by
  obtain ⟨item, next, made, served, _⟩ := nestedFileSystem_made
  have entry : nestedFileSystem.fat16GetDirectoryEntry partD
      [⟨null, null, nameA.bytes⟩] = some (null, next) := by
    rw [FileSystem.fat16GetDirectoryEntry_deep nestedFileSystem_search,
      show nestedFileSystem.volume.rootItems = nestedVolume.rootItems from rfl, made,
        Option.map_some]
  refine ⟨nestedVolume_root, ⟨_, nestedVolume_resolves⟩, null, next, entry, served, ?_⟩
  rw [FileSystem.walksTree_null]
  exact not_not_intro ⟨_, nestedVolume_resolves⟩

/-- The path of the directory alone. -/
theorem fat16_get_directory_entry_walks_iff_directory :
    nestedFileSystem.WalksTree 1 [nameD.bytes]
      (nestedFileSystem.fat16GetDirectoryEntry partD []) := by
  obtain ⟨item, next, made, served, scanned⟩ := nestedFileSystem_made
  have entry : nestedFileSystem.fat16GetDirectoryEntry partD [] =
      some (item, next) :=
        (FileSystem.fat16GetDirectoryEntry_single nestedFileSystem_search).trans made
  have sound : nestedFileSystem.machine.HeapSound := Machine.booted_sound _
  have one : Nat.count (Live nestedVolume.rootItems) 1 = 1 := by decide
  have shallow : nestedFileSystem.WalkShallow 1 nameD.bytes [] := by
    refine ⟨fun i found => ?_, fun _ => ⟨fun i inside _ => ?_, fun i first => ?_⟩,
      fun deep => absurd rfl deep⟩
    · cases nestedFileSystem_search.symm.trans found
      exact fun _ => scanned
    · obtain rfl : i = 0 := by
        change i < Nat.count (Live nestedVolume.rootItems) 1 at inside
        omega
      decide
    · exact first.inside.trans_eq one.symm
  have allServed : ∀ p state, nestedFileSystem.fat16GetDirectoryEntry partD [] = some (p, state) →
      nestedFileSystem.machine.Permits Request.Served state.machine := by
    intro p state same
    cases entry.symm.trans same
    exact served
  exact (fat16_get_directory_entry_walks_iff sound nestedVolume_root rfl (by decide) allServed).mpr
    shallow

end Phix
