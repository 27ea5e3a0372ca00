import Phix.Disk.Streamer

/-! # Reading a FAT16 volume

The part of `fs/fat/fat16.c` that reads a mounted volume: the on-disk header, the lookup of
a cluster in the allocation table and the read of a byte range of a file. Every function that
moves one of the streams of the volume takes its position and returns the new one; a seek sets
it and does not fail. `Streams` also records the stream reads of data clusters so far, which
the code does not.
-/

namespace Phix

/-! Fields of packed structures, lowest byte first. -/

def field8 (bytes : List Byte) (k : ℕ) : Byte := bytes.getD k 0
def field16 (bytes : List Byte) (k : ℕ) : BitVec 16 := field8 bytes (k + 1) ++ field8 bytes k
def field32 (bytes : List Byte) (k : ℕ) : Word := field16 bytes (k + 2) ++ field16 bytes k

/-! `struct fat_header`, at its offsets. -/

def sectorsPerCluster (header : List Byte) : Byte := field8 header 13
def reservedSectors (header : List Byte) : BitVec 16 := field16 header 14
def fatCopies (header : List Byte) : Byte := field8 header 16
def rootDirEntries (header : List Byte) : BitVec 16 := field16 header 17
def sectorsPerFat (header : List Byte) : BitVec 16 := field16 header 22

/-- The size of `struct fat_h`. -/
def sizeofFatHeader : ℕ := 62

/-- `struct fat_directory`. -/
structure FatDirectory where
  item : Word
  total : Word
  sectorPos : Word
  endingSectorPos : Word

/-- The volume of a disk: what `struct fat_private` holds besides the streams, and the bytes at
the items of the root directory. The buffer of these is one block of the heap, so that only the
first 128 items stay as they were read: a result that depends on them bounds their number. A cluster
has at least one sector, or the code would divide by zero at the first read. -/
structure Volume where
  disk : Disk
  header : List Byte
  rootDirectory : FatDirectory
  rootItems : List Byte
  clustered : 0 < (sectorsPerCluster header).toNat

/-- A read of a stream from `pos` in a data cluster. -/
structure StreamRead where
  cluster : Int
  pos : Int
  total : Int

/-- The positions of `cluster_read_stream`, `fat_read_stream` and `directory_stream`, and the
reads of the first of them so far, the latest first. -/
structure Streams where
  cluster : Int
  fat : Int
  directory : Int
  issued : List StreamRead

namespace Volume

/-- `size_of_cluster_bytes`. -/
def sizeOfClusterBytes (volume : Volume) : ℕ :=
  (sectorsPerCluster volume.header).toNat * phixSectorSize

theorem sizeOfClusterBytes_pos (volume : Volume) : 0 < volume.sizeOfClusterBytes :=
  Nat.mul_pos volume.clustered (by decide)

end Volume

def fat16ClusterToSector (volume : Volume) (cluster : Int) : Int :=
  int32 (volume.rootDirectory.endingSectorPos.toNat +
    (cluster - 2) * (sectorsPerCluster volume.header).toNat)

def fat16GetFirstFatSector (volume : Volume) : ℕ := (reservedSectors volume.header).toNat

/-- `fat16_get_fat_entry`: the entry, or the status of a failed read cut to 16 bits, and the
position of the stream. -/
def fat16GetFatEntry (volume : Volume) (cluster : Int) : BitVec 16 × Int :=
  let fatTablePosition : ℕ := fat16GetFirstFatSector volume * phixSectorSize
  let (ret, out, fat) := diskstreamerRead volume.disk (int32 (fatTablePosition * (cluster * 2))) 2
  if ret ≠ 0 then (BitVec.ofInt 16 ret, fat) else (field16 out 0, fat)

/-- `fat16_get_cluster_for_offset`, with the position of the stream of the table. The loop over
the clusters ahead ends with a `break` in its first round. -/
def fat16GetClusterForOffset (volume : Volume) (fat cluster offset : Int) : Int × Int :=
  let clustersAhead := offset.tdiv volume.sizeOfClusterBytes
  if 0 < clustersAhead then
    let (entry, fat) := fat16GetFatEntry volume cluster
    if entry = 0xFF8 ∨ entry = 0xFFF then (- EIO, fat)
    else if entry = 0xFF7 then (- EIO, fat)
    else if entry = 0xFF0 ∨ entry = 0xFF6 then (- EIO, fat)
    else if entry = 0 then (- EIO, fat)
    else (entry.toNat, fat)
  else (cluster, fat)

/-- `fat16_read_internal_from_stream`, for the function that finds the cluster of an offset:
the status, the bytes stored and the streams. -/
def fat16ReadInternalFromStream (volume : Volume)
    (getClusterForOffset : Int → Int → Int → Int × Int) (streams : Streams)
    (cluster offset total : Int) : Int × List Byte × Streams :=
  let sizeOfClusterBytes : Int := volume.sizeOfClusterBytes
  let (clusterToUse, fat) := getClusterForOffset streams.fat cluster offset
  if clusterToUse < 0 then (clusterToUse, [], { streams with fat })
  else
    let offsetFromCluster := offset.tmod sizeOfClusterBytes
    let startSector := fat16ClusterToSector volume clusterToUse
    let startPos := int32 (startSector * phixSectorSize + offsetFromCluster)
    let totalToRead := if sizeOfClusterBytes < total then sizeOfClusterBytes else total
    let (ret, out, pos) := diskstreamerRead volume.disk startPos totalToRead
    let streams := { streams with
      fat, cluster := pos, issued := ⟨clusterToUse, startPos, totalToRead⟩ :: streams.issued }
    if ret < 0 then (ret, out, streams)
    else if 0 < total - totalToRead then
      let (ret, rest, streams) := fat16ReadInternalFromStream volume getClusterForOffset streams
        cluster (int32 (offset + totalToRead)) (total - totalToRead)
      (ret, out ++ rest, streams)
    else (ret, out, streams)
termination_by total.toNat
decreasing_by
  rename_i more
  have positive := volume.sizeOfClusterBytes_pos
  change 0 < total - (if (volume.sizeOfClusterBytes : Int) < total then _ else _) at more
  change (total - (if (volume.sizeOfClusterBytes : Int) < total then _ else _)).toNat < _
  split at more <;> rename_i larger
  · rw [if_pos larger]
    omega
  · omega

/-- `fat16_read_internal`, for the function that finds the cluster of an offset. -/
def fat16ReadInternal (volume : Volume) (getClusterForOffset : Int → Int → Int → Int × Int)
    (streams : Streams) (startCluster offset total : Int) : Int × List Byte × Streams :=
  fat16ReadInternalFromStream volume getClusterForOffset streams startCluster offset total

end Phix
