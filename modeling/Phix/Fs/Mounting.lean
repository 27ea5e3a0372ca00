import Phix.Fs.Pieces
import Phix.Fs.Scanning

/-! # Mounting a volume

`fat16_resolve` mounts the disk when its first sector has the signature of FAT16 and there is a
block of the heap for each of its six allocations. Neither the size of a sector nor the number of
sectors in a cluster is looked at (`Phix.fat16_resolve_iff`), and the buffer for the root directory
is that of one item, whatever is read into it (`Phix.fat16GetRootDirectory_stops`).
-/

namespace Phix

open Slices

/-! `struct fat_header` and `struct fat_header_extended`, at their offsets. -/

def bytesPerSector (header : List Byte) : BitVec 16 := field16 header 11
def signature (header : List Byte) : Byte := field8 header 38

def phixFat16Signature : Byte := 0x29

/-! Sizes of the structures of the 32-bit target. -/

def sizeofFatPrivate : Word := 92
def sizeofDiskStream : Word := 8

/-- The streams of `struct fat_private`. -/
structure StreamPointers where
  clusterReadStream : Word
  fatReadStream : Word
  directoryStream : Word

/-- `struct fat_private`, with the bytes at the items of its root directory. -/
structure FatPrivate where
  header : List Byte
  rootDirectory : FatDirectory
  rootItems : List Byte
  streams : StreamPointers

/-- `struct disk` as far as mounting goes: whether `filesystem` is set to FAT16, and
`fs_private`. -/
structure DiskRecord where
  filesystem : Bool
  fsPrivate : Word

/-- `diskstreamer_new` for disk 0. -/
def diskstreamerNew (machine : Machine) : Word × Machine :=
  machine.kzalloc .kernel sizeofDiskStream

/-- `fat16_init_private`; a stream that is not made is a panic. -/
def fat16InitPrivate (machine : Machine) : Option (StreamPointers × Machine) :=
  let (clusterReadStream, machine) := diskstreamerNew machine
  if clusterReadStream = null then none
  else
    let (fatReadStream, machine) := diskstreamerNew machine
    if fatReadStream = null then none
    else
      let (directoryStream, machine) := diskstreamerNew machine
      if directoryStream = null then none
      else some (⟨clusterReadStream, fatReadStream, directoryStream⟩, machine)

/-- The end of `fat16_resolve` on an error: the stream and the private data are freed. -/
def resolveOut (record : DiskRecord) (machine : Machine) (stream privateData : Word) (ret : Int)
    (content : FatPrivate) : Int × DiskRecord × FatPrivate × Machine :=
  (ret, { record with fsPrivate := null }, content, (machine.kfree stream).kfree privateData)

/-- `fat16_resolve` from the read of the first sector on. -/
def resolveHeader (disk : Disk) (record : DiskRecord) (machine : Machine)
    (stream privateData : Word) (streams : StreamPointers) :
    Option (Int × DiskRecord × FatPrivate × Machine) :=
  let (status, header, _) := diskstreamerRead disk 0 sizeofFatHeader
  let content : FatPrivate := ⟨header, FatDirectory.zero, [], streams⟩
  if status < 0 then some (resolveOut record machine stream privateData (- EIO) content)
  else if signature header ≠ phixFat16Signature then
    some (resolveOut record machine stream privateData (-EFSNOTUS) content)
  else do
    let (ret, rootDirectory, rootItems, machine) ← fat16GetRootDirectory disk header machine
    let content := { content with rootDirectory, rootItems }
    if ret < 0 then some (resolveOut record machine stream privateData (- EIO) content)
    else some (0, ⟨true, privateData⟩, content, machine.kfree stream)

/-- `fat16_resolve`: the status, the disk's record, the private data and the machine. -/
def fat16Resolve (disk : Disk) (record : DiskRecord) (machine : Machine) :
    Option (Int × DiskRecord × FatPrivate × Machine) := do
  let (privateData, machine) := machine.kzalloc .kernel sizeofFatPrivate
  let (streams, machine) ← fat16InitPrivate machine
  let (stream, machine) := diskstreamerNew machine
  if stream = null then some (-ENOMEM, record, ⟨[], FatDirectory.zero, [], streams⟩, machine)
  else resolveHeader disk record machine stream privateData streams

/-! Room for the allocations. -/

section Room

variable {machine : Machine} (sound : machine.HeapSound)

include sound

theorem diskstreamerNew_room : (diskstreamerNew machine).2.HeapSound ∧
    (((diskstreamerNew machine).1 = null ∧ machine.freeBlocks.card = 0) ∨
      ((diskstreamerNew machine).1 ≠ null ∧
        (diskstreamerNew machine).2.freeBlocks.card + 1 = machine.freeBlocks.card)) :=
  sound.kzalloc_room .kernel (by decide) (by decide)

theorem fat16InitPrivate_room :
    (machine.freeBlocks.card < 3 ∧ fat16InitPrivate machine = none) ∨
      ∃ streams next, fat16InitPrivate machine = some (streams, next) ∧ next.HeapSound ∧
        next.freeBlocks.card + 3 = machine.freeBlocks.card := by
  unfold fat16InitPrivate
  dsimp only
  obtain ⟨first, ⟨full, room⟩ | ⟨cluster, room⟩⟩ := diskstreamerNew_room sound
  · rw [if_pos full]
    exact .inl ⟨by omega, rfl⟩
  rw [if_neg cluster]
  obtain ⟨second, ⟨full, more⟩ | ⟨fat, more⟩⟩ := diskstreamerNew_room first
  · rw [if_pos full]
    exact .inl ⟨by omega, rfl⟩
  rw [if_neg fat]
  obtain ⟨third, ⟨full, last⟩ | ⟨directory, last⟩⟩ := diskstreamerNew_room second
  · rw [if_pos full]
    exact .inl ⟨by omega, rfl⟩
  rw [if_neg directory]
  exact .inr ⟨_, _, rfl, third, by omega⟩

/-- Four blocks are taken for the private data and its streams, a fifth for the stream that reads
the first sector. -/
theorem fat16Resolve_room (disk : Disk) (record : DiskRecord) :
    (machine.freeBlocks.card < 4 ∧ fat16Resolve disk record machine = none) ∨
      (machine.freeBlocks.card = 4 ∧ ∃ content next,
        fat16Resolve disk record machine = some (-ENOMEM, record, content, next)) ∨
      ∃ next stream privateData streams,
        fat16Resolve disk record machine =
          resolveHeader disk record next stream privateData streams ∧
        next.HeapSound ∧ next.live stream ≠ none ∧
        next.freeBlocks.card + 5 = machine.freeBlocks.card := by
  obtain ⟨allocated, room⟩ := sound.kzalloc_room .kernel
    (show 1 ≤ sizeofFatPrivate.toNat by decide) (by decide)
  unfold fat16Resolve
  dsimp only
  obtain ⟨few, panics⟩ | ⟨streams, middle, made, after, taken⟩ := fat16InitPrivate_room allocated
  · rw [panics]
    refine .inl ⟨?_, rfl⟩
    rcases room with ⟨-, none⟩ | ⟨-, one⟩ <;> omega
  · rw [made]
    have four : middle.freeBlocks.card + 4 = machine.freeBlocks.card := by
      rcases room with ⟨isNull, none⟩ | ⟨-, one⟩
      · have same := (sound.kzalloc_null .kernel (by decide) isNull).2
        rw [same] at taken
        omega
      · omega
    simp only [Option.bind_eq_bind, Option.bind_some]
    obtain ⟨last, ⟨full, none⟩ | ⟨found, one⟩⟩ := diskstreamerNew_room after
    · rw [if_pos full]
      exact .inr (.inl ⟨by omega, _, _, rfl⟩)
    · rw [if_neg found]
      refine .inr (.inr ⟨_, _, _, _, rfl, last, ?_, by omega⟩)
      have proper : Proper sizeofDiskStream := ⟨by decide, by decide⟩
      have held := (after.kzalloc .kernel proper found).held
      exact fun none => Option.some_ne_none _ (held.symm.trans none)

end Room

/-! The root directory. -/

/-- The bytes that are read into the buffer for the root directory. -/
def rootItemsRead (disk : Disk) (header : List Byte) : List Byte :=
  (diskstreamerRead disk (int32 (((fatCopies header).toNat * (sectorsPerFat header).toNat +
    (reservedSectors header).toNat : Int) * phixSectorSize))
    ((rootDirEntries header).toNat * sizeofFatDirectoryItem)).2.1

/-- The sector behind the root directory. -/
def rootEndingSector (header : List Byte) : Word :=
  let rootDirSize : Int := (rootDirEntries header).toNat * sizeofFatDirectoryItem
  BitVec.ofInt 32 ((fatCopies header).toNat * (sectorsPerFat header).toNat +
    (reservedSectors header).toNat + (rootDirSize.tdiv phixSectorSize +
      (if rootDirSize.tmod phixSectorSize ≠ 0 then 1 else 0)))

section RootDirectory

variable {disk : Disk} (disk0 : disk.isDisk0 = true) {header : List Byte}

include disk0

theorem fat16GetRootDirectory_endless
    (endless : ¬ ∃ k, scanByte disk (rootDirSector header) k = 0) (machine : Machine) :
    fat16GetRootDirectory disk header machine = none := by
  have none := fat16GetTotalItemsForDirectory_endless disk0
    fun i _ zero => endless ⟨i, zero⟩
  unfold rootDirSector at none
  unfold fat16GetRootDirectory
  dsimp only
  rw [none]
  rfl

/-- The root directory is read when there is a block for the buffer of one item. -/
theorem fat16GetRootDirectory_stops {k : ℕ} (stops : StopsAt disk (rootDirSector header) k)
    {machine : Machine} (sound : machine.HeapSound) :
    (machine.freeBlocks.card = 0 ∧ ∃ directory next,
        fat16GetRootDirectory disk header machine = some (-ENOMEM, directory, [], next)) ∨
      (0 < machine.freeBlocks.card ∧ ∃ directory next,
        fat16GetRootDirectory disk header machine =
          some (0, directory, rootItemsRead disk header, next) ∧
        directory.total = BitVec.ofInt 32 (Nat.count (Counted disk (rootDirSector header)) k : ℕ) ∧
        directory.endingSectorPos = rootEndingSector header ∧
        machine.Cleared .kernel (BitVec.ofNat 32 sizeofFatDirectoryItem) directory.item next) := by
  have scanned := fat16GetTotalItemsForDirectory_stops disk0 stops stops.limited
  rw [rootDirSector] at scanned
  unfold fat16GetRootDirectory
  dsimp only
  rw [scanned]
  simp only [Option.bind_eq_bind, Option.bind_some]
  have small : 1 ≤ (BitVec.ofNat 32 sizeofFatDirectoryItem : Word).toNat := by decide
  obtain ⟨-, ⟨full, room⟩ | ⟨found, room⟩⟩ := sound.kzalloc_room .kernel small (by decide)
  · rw [if_pos full]
    exact .inl ⟨room, _, _, rfl⟩
  · have status := diskstreamerRead_status disk0 (int32 (((fatCopies header).toNat *
      (sectorsPerFat header).toNat + (reservedSectors header).toNat : Int) * phixSectorSize))
      ((rootDirEntries header).toNat * sizeofFatDirectoryItem)
    rw [if_neg found, status, if_neg (lt_irrefl 0)]
    have proper : Proper (BitVec.ofNat 32 sizeofFatDirectoryItem) := ⟨by decide, by decide⟩
    exact .inr ⟨by omega, _, _, rfl, rfl, rfl, sound.kzalloc .kernel proper found⟩

/-- What mounting does with a first sector that has the signature of FAT16. -/
theorem resolveHeader_signed (signed : signature (slice disk.image 0 sizeofFatHeader) =
    phixFat16Signature) (record : DiskRecord) (machine : Machine) (stream privateData : Word)
    (streams : StreamPointers) :
    resolveHeader disk record machine stream privateData streams = (do
      let (ret, rootDirectory, rootItems, machine) ←
        fat16GetRootDirectory disk (slice disk.image 0 sizeofFatHeader) machine
      let content : FatPrivate :=
        ⟨slice disk.image 0 sizeofFatHeader, rootDirectory, rootItems, streams⟩
      if ret < 0 then some (resolveOut record machine stream privateData (- EIO) content)
      else some (0, ⟨true, privateData⟩, content, machine.kfree stream)) := by
  have read := diskstreamerRead_eq disk0 (show 0 + sizeofFatHeader ≤ 2 ^ 31 by decide)
  rw [Nat.cast_zero] at read
  unfold resolveHeader
  rw [read]
  dsimp only
  rw [if_neg (lt_irrefl 0), if_neg (not_not.mpr signed)]

theorem resolveHeader_unsigned (unsigned : signature (slice disk.image 0 sizeofFatHeader) ≠
    phixFat16Signature) (record : DiskRecord) (machine : Machine) (stream privateData : Word)
    (streams : StreamPointers) :
    ∃ content, resolveHeader disk record machine stream privateData streams =
      some (resolveOut record machine stream privateData (-EFSNOTUS) content) := by
  have read := diskstreamerRead_eq disk0 (show 0 + sizeofFatHeader ≤ 2 ^ 31 by decide)
  rw [Nat.cast_zero] at read
  unfold resolveHeader
  rw [read]
  dsimp only
  rw [if_neg (lt_irrefl 0), if_pos unsigned]
  exact ⟨_, rfl⟩

end RootDirectory

/-- Another disk than disk 0 cannot be read. -/
theorem resolveHeader_absent {disk : Disk} (absent : disk.isDisk0 = false) (record : DiskRecord)
    (machine : Machine) (stream privateData : Word) (streams : StreamPointers) :
    ∃ content, resolveHeader disk record machine stream privateData streams =
      some (resolveOut record machine stream privateData (- EIO) content) := by
  have failed := diskstreamerRead_failed absent 0 sizeofFatHeader
  unfold resolveHeader
  dsimp only
  rw [failed, if_pos (by decide)]
  exact ⟨_, rfl⟩

/-- A volume with the signature and a root directory that ends is mounted while there is room. -/
theorem fat16Resolve_mounts {disk : Disk} (disk0 : disk.isDisk0 = true) {machine : Machine}
    (sound : machine.HeapSound) (room : 6 ≤ machine.freeBlocks.card)
    (signed : signature (slice disk.image 0 sizeofFatHeader) = phixFat16Signature)
    (ends : ∃ k, scanByte disk (rootDirSector (slice disk.image 0 sizeofFatHeader)) k = 0)
    (record : DiskRecord) :
    ∃ next content after, fat16Resolve disk record machine = some (0, next, content, after) ∧
      content.header = slice disk.image 0 sizeofFatHeader ∧
      content.rootDirectory.endingSectorPos =
        rootEndingSector (slice disk.image 0 sizeofFatHeader) := by
  rcases fat16Resolve_room sound disk record with
    ⟨few, -⟩ | ⟨four, -⟩ | ⟨middle, stream, privateData, streams, resolved, grown, -, taken⟩
  · omega
  · omega
  · rw [resolveHeader_signed disk0 signed] at resolved
    rcases fat16GetRootDirectory_stops disk0 (exists_stopsAt ends) grown with
      ⟨full, -⟩ | ⟨-, directory, last, read, -, ending, -⟩
    · omega
    · rw [read] at resolved
      exact ⟨_, _, _, resolved, rfl, ending⟩

/-! What is mounted. -/

/-- Mounting refuses a volume with a negative status and leaves the record of the disk as it was,
or the volume has sectors of the size that the disk has and at least one of them in a cluster. -/
def MountsSafely (disk : Disk) (record : DiskRecord) (machine : Machine) : Prop :=
  ∃ ret next content after, fat16Resolve disk record machine = some (ret, next, content, after) ∧
    ((ret = 0 ∧ (bytesPerSector content.header).toNat = phixSectorSize ∧
        sectorsPerCluster content.header ≠ 0) ∨
      (ret < 0 ∧ next.filesystem = record.filesystem ∧ next.fsPrivate = null))

/-- There is room in the heap for the private data and its streams, no private data is left from
before when there is no more room, and a first sector with the signature has a root directory that
ends and, when the rest can be allocated too, sectors of 512 bytes and at least one of them in a
cluster. -/
def MountsWhen (disk : Disk) (record : DiskRecord) (machine : Machine) : Prop :=
  let header := slice disk.image 0 sizeofFatHeader
  let room := machine.freeBlocks.card
  4 ≤ room ∧ (room = 4 → record.fsPrivate = null) ∧
    (4 < room → disk.isDisk0 = true → signature header = phixFat16Signature →
      (∃ k, scanByte disk (rootDirSector header) k = 0) ∧
        (5 < room → (bytesPerSector header).toNat = phixSectorSize ∧ sectorsPerCluster header ≠ 0))

/-- A status of an error is no success, and its record is the one before. -/
theorem mountsSafely_of_out {disk : Disk} {record : DiskRecord} {machine middle : Machine}
    {stream privateData : Word} {ret : Int} {content : FatPrivate} (failed : ret < 0)
    (resolved : fat16Resolve disk record machine =
      some (resolveOut record middle stream privateData ret content)) :
    MountsSafely disk record machine :=
  ⟨_, _, _, _, resolved, .inr ⟨failed, rfl, rfl⟩⟩

/-- What is mounted once the private data and its streams are allocated. -/
theorem mountsSafely_iff_of_private {disk : Disk} {record : DiskRecord} {machine middle : Machine}
    {stream privateData : Word} {streams : StreamPointers}
    (resolved : fat16Resolve disk record machine =
      resolveHeader disk record middle stream privateData streams) (after : middle.HeapSound) :
    MountsSafely disk record machine ↔
      (disk.isDisk0 = true →
        signature (slice disk.image 0 sizeofFatHeader) = phixFat16Signature →
          (∃ k, scanByte disk (rootDirSector (slice disk.image 0 sizeofFatHeader)) k = 0) ∧
          (0 < middle.freeBlocks.card →
            (bytesPerSector (slice disk.image 0 sizeofFatHeader)).toNat = phixSectorSize ∧
              sectorsPerCluster (slice disk.image 0 sizeofFatHeader) ≠ 0)) := by
  cases disk0 : disk.isDisk0 with
  | false =>
      obtain ⟨content, failed⟩ := resolveHeader_absent disk0 record middle stream privateData
        streams
      refine iff_of_true (mountsSafely_of_out (by decide) (resolved.trans failed))
        fun isDisk0 => ?_
      exact absurd isDisk0 (by decide)
  | true =>
      rw [forall_prop_of_true rfl]
      by_cases signed : signature (slice disk.image 0 sizeofFatHeader) = phixFat16Signature
      · rw [forall_prop_of_true signed]
        rw [resolveHeader_signed disk0 signed] at resolved
        by_cases ends : ∃ k,
          scanByte disk (rootDirSector (slice disk.image 0 sizeofFatHeader)) k = 0
        · rw [and_iff_right ends]
          rcases fat16GetRootDirectory_stops disk0 (exists_stopsAt ends) after with
            ⟨full, directory, last, failed⟩ | ⟨free, directory, last, read, -, -⟩
          · rw [failed] at resolved
            exact iff_of_true (mountsSafely_of_out (by decide) resolved) fun enough =>
              absurd full enough.ne'
          · rw [read] at resolved
            rw [forall_prop_of_true free]
            constructor
            · rintro ⟨ret, next, content, final, some, safe⟩
              cases resolved.symm.trans some
              rcases safe with ⟨-, safe⟩ | ⟨failed, -⟩
              · exact safe
              · exact absurd failed (lt_irrefl 0)
            · intro safe
              exact ⟨_, _, _, _, resolved, .inl ⟨rfl, safe⟩⟩
        · rw [fat16GetRootDirectory_endless disk0 ends] at resolved
          refine iff_of_false ?_ fun both => ends both.1
          rintro ⟨ret, next, content, last, some, -⟩
          exact Option.some_ne_none _ (some.symm.trans resolved)
      · obtain ⟨content, failed⟩ := resolveHeader_unsigned disk0 signed record middle stream
          privateData streams
        refine iff_of_true (mountsSafely_of_out (by decide) (resolved.trans failed))
          fun same => ?_
        exact absurd same signed

/-- **Mounting accepts every volume with the signature of FAT16.** It refuses a volume with a
negative status, or mounts one with sectors of 512 bytes and at least one of them in a cluster,
exactly when a first sector with the signature names these numbers, its root directory ends, and
the heap has room for what is allocated before the signature is looked at. -/
theorem fat16_resolve_iff {machine : Machine} (sound : machine.HeapSound) (disk : Disk)
    (record : DiskRecord) :
    MountsSafely disk record machine ↔ MountsWhen disk record machine := by
  unfold MountsWhen
  dsimp only
  rcases fat16Resolve_room sound disk record with
    ⟨few, panics⟩ | ⟨four, content, after, noStream⟩ |
      ⟨middle, stream, privateData, streams, resolved, after, -, room⟩
  · refine iff_of_false ?_ fun both => by omega
    rintro ⟨ret, next, content, last, some, -⟩
    exact Option.some_ne_none _ (some.symm.trans panics)
  · have failed : (-ENOMEM : Int) < 0 := by decide
    constructor
    · rintro ⟨ret, next, content, last, some, safe⟩
      cases noStream.symm.trans some
      have unset : record.fsPrivate = null := by
        rcases safe with ⟨zero, -⟩ | ⟨-, -, unset⟩
        · exact absurd failed (by omega)
        · exact unset
      exact ⟨four.ge, fun _ => unset, fun more => by omega⟩
    · rintro ⟨-, unset, -⟩
      exact ⟨_, _, _, _, noStream, .inr ⟨failed, rfl, unset four⟩⟩
  · have more : 4 < machine.freeBlocks.card := by omega
    have left : 5 < machine.freeBlocks.card ↔ 0 < middle.freeBlocks.card := by omega
    rw [mountsSafely_iff_of_private resolved after, and_iff_right more.le,
      and_iff_right fun four => absurd four more.ne', forall_prop_of_true more, left]

/-- A disk whose only bytes besides zeros are the sectors of 512 bytes, the sectors of a cluster and
the signature. -/
def signedDisk (clusterSectors : Byte) : Disk :=
  Disk.ofSectors [List.replicate 11 0 ++ [0, 2, clusterSectors] ++ List.replicate 24 0 ++ [0x29]]

/-- The disk record before anything is mounted. -/
def unmounted : DiskRecord := ⟨false, null⟩

theorem fat16_resolve_iff_mounts :
    MountsSafely (signedDisk 1) unmounted (Machine.booted fun _ => 0) := by
  have room := Machine.booted_card fun _ => 0
  exact (fat16_resolve_iff (Machine.booted_sound fun _ => 0) (signedDisk 1) unmounted).mpr
    ⟨by omega, fun _ => rfl, fun _ _ _ => ⟨⟨0, by decide⟩, fun _ => by decide⟩⟩

/-- A volume without a sector in its clusters is mounted. -/
theorem fat16_resolve_fails :
    ¬ MountsSafely (signedDisk 0) unmounted (Machine.booted fun _ => 0) := by
  have room := Machine.booted_card fun _ => 0
  obtain ⟨next, content, after, mounted, header, -⟩ := fat16Resolve_mounts
    (show (signedDisk 0).isDisk0 = true from rfl) (Machine.booted_sound fun _ => 0) (by omega)
    (by decide) ⟨0, by decide⟩ unmounted
  rintro ⟨ret, _, _, _, some, ⟨-, -, sectors⟩ | ⟨failed, -⟩⟩
  · cases mounted.symm.trans some
    rw [header] at sectors
    exact sectors (by decide)
  · cases mounted.symm.trans some
    exact absurd failed (by decide)

end Phix
