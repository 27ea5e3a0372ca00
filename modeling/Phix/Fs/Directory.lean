import Phix.Foundation.Searches
import Phix.Fs.Path

/-! # Directories

The part of `fs/fat/fat16.c` that counts, loads and searches directories, makes and frees items
and walks a path. The scan of a directory on disk ends only at an item that starts with a NUL:
`none` is a scan that never does, or a kernel panic.
-/

namespace Phix

open Searches

/-- A scan that has taken this many items is back at its first position. -/
def scanLimit : ℕ := 2 ^ 27

/-- The loop of `fat16_get_total_items_for_directory`, with the items counted so far. -/
def fat16GetTotalItemsForDirectory.loop (disk : Disk) : ℕ → Int → Int → Option (Int × Int)
  | 0, _, _ => none
  | remaining + 1, pos, ret =>
      let (status, item, pos) := diskstreamerRead disk pos sizeofFatDirectoryItem
      if status < 0 then some (- EIO, pos)
      else if field8 item 0 = 0 then some (ret, pos)
      else if field8 item 0 = 0xE5 then loop disk remaining pos ret
      else loop disk remaining pos (int32 (ret + 1))

/-- `fat16_get_total_items_for_directory`: the count or a status, and the position of the
stream. -/
def fat16GetTotalItemsForDirectory (disk : Disk) (startPos : Word) : Option (Int × Int) :=
  fat16GetTotalItemsForDirectory.loop disk scanLimit (int32 (startPos.toNat * phixSectorSize)) 0

/-- `fat16_get_root_directory`, from the header of the volume: the status, the directory and the
bytes at its items. The buffer holds one item, whatever is read into it. -/
def fat16GetRootDirectory (disk : Disk) (header : List Byte) (machine : Machine) :
    Option (Int × FatDirectory × List Byte × Machine) := do
  let rootDirSectorPos : Int :=
    (fatCopies header).toNat * (sectorsPerFat header).toNat + (reservedSectors header).toNat
  let rootDirSize : Int := (rootDirEntries header).toNat * sizeofFatDirectoryItem
  let totalSectors := rootDirSize.tdiv phixSectorSize +
    (if rootDirSize.tmod phixSectorSize ≠ 0 then 1 else 0)
  let (totalItems, _) ← fat16GetTotalItemsForDirectory disk (BitVec.ofInt 32 rootDirSectorPos)
  let (dir, machine) := machine.kzalloc .kernel (BitVec.ofNat 32 sizeofFatDirectoryItem)
  if dir = null then some (-ENOMEM, FatDirectory.zero, [], machine)
  else
    let (status, out, _) :=
      diskstreamerRead disk (int32 (rootDirSectorPos * phixSectorSize)) rootDirSize
    if status < 0 then some (- EIO, FatDirectory.zero, out, machine)
    else some (0, ⟨dir, BitVec.ofInt 32 totalItems, BitVec.ofInt 32 rootDirSectorPos,
      BitVec.ofInt 32 (rootDirSectorPos + totalSectors)⟩, out, machine)

def fat16GetFirstCluser (item : List Byte) : Word :=
  ((itemHigh16BitsFirstCluster item ||| itemLow16BitsFirstCluster item).zeroExtend 32)

/-- The memory from the item with index `i` on. -/
def itemAt (items : List Byte) (i : ℕ) : List Byte := items.drop (sizeofFatDirectoryItem * i)

/-- The loop of `fat16_find_item_in_directory`: the first item with the name. -/
def fat16FindItemInDirectory.loop (items : List Byte) (total : Word) (name : List Byte) :
    Option ℕ :=
  first (fun i =>
    istrncmp (fat16GetFullRelativeFilename (itemAt items i)) name phixMaxPath = 0) total.toNat 0

namespace FileSystem

/-- `fat16_read_internal` on the volume. -/
def readInternal (fs : FileSystem) (startCluster offset total : Int) :
    Int × List Byte × FileSystem :=
  let (ret, out, streams) := fat16ReadInternal fs.volume (fat16GetClusterForOffset fs.volume)
    fs.streams startCluster offset total
  (ret, out, { fs with streams })

/-- `fat16_clone_directory_item`. -/
def fat16CloneDirectoryItem (fs : FileSystem) (item : List Byte) (size : Word) :
    Word × FileSystem :=
  if size.toNat < sizeofFatDirectoryItem then (null, fs)
  else
    let (cpy, fs) := fs.kzalloc size
    if cpy = null then (null, fs) else (cpy, fs.setBytes cpy (item.take size.toNat))

/-- `fat16_free_directory`. -/
def fat16FreeDirectory (fs : FileSystem) (directory : Word) : FileSystem :=
  if directory = null then fs
  else
    let item := (fs.directoryAt directory).item
    let fs := if item ≠ null then fs.kfree item else fs
    fs.kfree directory

/-- `fat16_free_item`, which does not free the item itself; another type is a panic. -/
def fat16FreeItem (fs : FileSystem) (item : Word) : Option FileSystem :=
  let record := fs.fatItemAt item
  if record.type = fatItemTypeDirectory then some (fs.fat16FreeDirectory record.ref)
  else if record.type = fatItemTypeFile then some (fs.kfree record.ref)
  else none

/-- The end of `fat16_load_fat_directory`: on an error the directory is freed, and the negated
status is returned as a pointer. -/
def loadOut (fs : FileSystem) (directory : Word) (ret : Int) : Word × FileSystem :=
  if ret < 0 then (BitVec.ofInt 32 (-ret), fs.fat16FreeDirectory directory) else (directory, fs)

/-- `fat16_load_fat_directory`. -/
def fat16LoadFatDirectory (fs : FileSystem) (item : List Byte) : Option (Word × FileSystem) :=
  if itemAttributes item &&& fatFileSubdirectory = 0 then some (BitVec.ofInt 32 (-EINVAL), fs)
  else
    let (directory, fs) := fs.kzalloc sizeofFatDirectory
    if directory = null then some (fs.loadOut null (-ENOMEM))
    else do
      let cluster : Int := (fat16GetFirstCluser item).toInt
      let cluserSector := fat16ClusterToSector fs.volume cluster
      let (totalItems, pos) ←
        fat16GetTotalItemsForDirectory fs.volume.disk (BitVec.ofInt 32 cluserSector)
      let fs := { fs with streams := { fs.streams with directory := pos } }
      let total := BitVec.ofInt 32 totalItems
      let directorySize := total * BitVec.ofNat 32 sizeofFatDirectoryItem
      let (items, fs) := fs.kzalloc directorySize
      let fs := fs.setDirectory directory { FatDirectory.zero with total, item := items }
      if items = null then some (fs.loadOut directory (-ENOMEM))
      else
        let (ret, out, fs) := fs.readInternal cluster 0 directorySize.toInt
        let fs := fs.setBytes items out
        some (fs.loadOut directory ret)

/-- `fat16_new_fat_item_for_directory_item`. -/
def fat16NewFatItemForDirectoryItem (fs : FileSystem) (item : List Byte) :
    Option (Word × FileSystem) :=
  let (fItem, fs) := fs.kzalloc sizeofFatItem
  if fItem = null then some (null, fs)
  else if itemAttributes item &&& fatFileSubdirectory ≠ 0 then do
    let (directory, fs) ← fs.fat16LoadFatDirectory item
    some (fItem, fs.setFatItem fItem ⟨directory, fatItemTypeDirectory⟩)
  else
    let (cpy, fs) := fs.fat16CloneDirectoryItem item (BitVec.ofNat 32 sizeofFatDirectoryItem)
    some (fItem, fs.setFatItem fItem ⟨cpy, fatItemTypeFile⟩)

/-- `fat16_find_item_in_directory`, for a directory with the given items. -/
def fat16FindItemInDirectory (fs : FileSystem) (items : List Byte) (total : Word)
    (name : List Byte) : Option (Word × FileSystem) :=
  match fat16FindItemInDirectory.loop items total name with
  | some i => fs.fat16NewFatItemForDirectoryItem (itemAt items i)
  | none => some (null, fs)

/-- The loop of `fat16_get_directory_entry`, which compares the pointer to the item with the type
of a directory. -/
def fat16GetDirectoryEntry.loop (fs : FileSystem) (currentItem : Word) :
    List PathPart → Option (Word × FileSystem)
  | [] => some (currentItem, fs)
  | nextPart :: path =>
      if currentItem ≠ fatItemTypeDirectory then some (null, fs)
      else do
        let directory := fs.directoryAt (fs.fatItemAt currentItem).ref
        let (tmp, fs) ← fs.fat16FindItemInDirectory (fs.bytesAt directory.item) directory.total
          nextPart.text
        let fs ← fs.fat16FreeItem currentItem
        loop fs tmp path

/-- No item is followed by another part: its address is not the type of a directory. -/
theorem fat16GetDirectoryEntry.loop_cons (fs : FileSystem) {currentItem : Word}
    (found : currentItem ≠ null) (nextPart : PathPart) (path : List PathPart) :
    fat16GetDirectoryEntry.loop fs currentItem (nextPart :: path) = some (null, fs) := by
  unfold fat16GetDirectoryEntry.loop
  exact if_pos found

/-- `fat16_get_directory_entry`, for a path with the given first part. -/
def fat16GetDirectoryEntry (fs : FileSystem) (part : PathPart) (path : List PathPart) :
    Option (Word × FileSystem) := do
  let (rootItem, fs) ←
    fs.fat16FindItemInDirectory fs.volume.rootItems fs.volume.rootDirectory.total part.text
  if rootItem = null then some (null, fs) else fat16GetDirectoryEntry.loop fs rootItem path

end FileSystem

end Phix
