import Phix.Fs.File
import Phix.Fs.Lookup

/-! # The position of a descriptor

A read starts at the position its descriptor holds and changes nothing but the positions of the
streams (`Phix.FileSystem.fread_frame`), so the next read starts at the same byte: two
successful reads in a row never deliver what one read of the two lengths would
(`Phix.fread_sequential_never`).
-/

namespace Phix

namespace FileSystem

/-- The descriptor of the file system behind a number. -/
def fatDescriptorOf (fs : FileSystem) (fd : Int) : Word :=
  (fs.fileDescriptorAt (fs.fileDescriptorGet fd)).privateData

def position (fs : FileSystem) (fd : Int) : Word := (fs.fatDescriptorAt (fs.fatDescriptorOf fd)).pos

def itemOf (fs : FileSystem) (fd : Int) : FatItem :=
  fs.fatItemAt (fs.fatDescriptorAt (fs.fatDescriptorOf fd)).item

def filesizeOf (fs : FileSystem) (fd : Int) : Word := itemFilesize (fs.bytesAt (fs.itemOf fd).ref)

/-- The number is that of an open regular file. -/
structure OpensFile (fs : FileSystem) (fd : Int) : Prop where
  resolved : fs.fileDescriptorGet fd ≠ null
  regular : (fs.itemOf fd).type = fatItemTypeFile

/-! A read moves the streams only. -/

theorem fat16Read_loop_frame (fs : FileSystem) (item : List Byte) (size : Word) (n : ℕ)
    (offset : Int) :
    ∃ streams, (fat16Read.loop fs item size n offset).2.2 = { fs with streams } := by
  induction n generalizing fs offset with
  | zero => exact ⟨fs.streams, rfl⟩
  | succ n ih =>
      unfold fat16Read.loop
      dsimp only
      split
      · exact ⟨_, rfl⟩
      · obtain ⟨streams, rest⟩ := ih (fs.readInternal (fat16GetFirstCluser item).toInt offset
          size.toInt).2.2 (int32 (offset + size.toNat))
        exact ⟨streams, rest⟩

theorem fat16Read_frame (fs : FileSystem) (desc size n : Word) :
    ∃ streams, (fs.fat16Read desc size n).2.2 = { fs with streams } := by
  obtain ⟨streams, result⟩ := fs.fat16Read_loop_frame
    (fs.bytesAt (fs.fatItemAt (fs.fatDescriptorAt desc).item).ref) size n.toNat
    (fs.fatDescriptorAt desc).pos.toInt
  unfold fat16Read
  dsimp only
  split <;> exact ⟨streams, result⟩

theorem fread_frame (fs : FileSystem) (size n : Word) (fd : Int) :
    ∃ streams, (fs.fread size n fd).2.2 = { fs with streams } := by
  unfold fread
  split
  · exact ⟨fs.streams, rfl⟩
  · dsimp only
    split
    · exact ⟨fs.streams, rfl⟩
    · exact fs.fat16Read_frame _ size n

theorem fread_position (fs : FileSystem) (size n : Word) (fd other : Int) :
    (fs.fread size n fd).2.2.position other = fs.position other := by
  obtain ⟨streams, result⟩ := fs.fread_frame size n fd
  rw [result]
  rfl

/-- A read of one item succeeds when its first read does. -/
theorem fread_one {fs : FileSystem} {size : Word} {fd : Int} (nonempty : size * 1 ≠ 0)
    (positive : 1 ≤ fd) (resolved : fs.fileDescriptorGet fd ≠ null)
    (read : 0 ≤ (fs.readInternal (fat16GetFirstCluser (fs.bytesAt (fs.itemOf fd).ref)).toInt
      (fs.position fd).toInt size.toInt).1) :
    (fs.fread size 1 fd).1 = 1 := by
  have guard : ¬ (size * 1 = 0 ∨ fd < 1) := by
    rintro (zero | below)
    · exact nonempty zero
    · omega
  unfold position itemOf fatDescriptorOf at read
  have looped : (fat16Read.loop fs (fs.bytesAt (fs.fatItemAt (fs.fatDescriptorAt
      (fs.fileDescriptorAt (fs.fileDescriptorGet fd)).privateData).item).ref) size 1
      (fs.fatDescriptorAt (fs.fileDescriptorAt (fs.fileDescriptorGet fd)).privateData).pos.toInt).1
      = 0 := by
    unfold fat16Read.loop
    dsimp only
    rw [if_neg (Int.not_lt.mpr read)]
    rfl
  unfold fread fat16Read
  rw [if_neg guard]
  dsimp only
  rw [if_neg resolved, show (1 : Word).toNat = 1 from rfl, if_neg (by rw [looped]; decide)]
  rfl

end FileSystem

/-- Two successful reads in a row deliver what one read of both lengths does, and each advances
the position by the length it delivers; a failed read leaves the position where it was. -/
def SequentialReads (fs : FileSystem) (fd : Int) (s1 n1 s2 n2 : Word) : Prop :=
  let first := fs.fread s1 n1 fd
  let second := first.2.2.fread s2 n2 fd
  (0 ≤ first.1 → 0 ≤ second.1 →
    first.2.1.flatten ++ second.2.1.flatten = (fs.fread (s1 * n1 + s2 * n2) 1 fd).2.1.flatten ∧
      (first.2.2.position fd).toNat = (fs.position fd).toNat + s1.toNat * n1.toNat ∧
      (second.2.2.position fd).toNat = (first.2.2.position fd).toNat + s2.toNat * n2.toNat) ∧
  (first.1 < 0 → first.2.2.position fd = fs.position fd)

/-- **Successful reads in a row never concatenate**: no read advances the position. -/
theorem fread_sequential_never {fs : FileSystem} {fd : Int} {s1 n1 s2 n2 : Word}
    (size : 1 ≤ s1.toNat) (items : 1 ≤ n1.toNat) (first : 0 ≤ (fs.fread s1 n1 fd).1)
    (second : 0 ≤ ((fs.fread s1 n1 fd).2.2.fread s2 n2 fd).1) :
    ¬ SequentialReads fs fd s1 n1 s2 n2 := by
  rintro ⟨advances, _⟩
  have advanced := (advances first second).2.1
  rw [fs.fread_position] at advanced
  have positive := Nat.mul_pos size items
  omega

/-! An open file of one cluster. -/

/-- The item `A`, a file of 512 bytes in cluster 2. -/
def clusterItem : List Byte :=
  0x41 :: List.replicate 10 0x20 ++ List.replicate 15 0 ++ [2, 0, 0, 2, 0, 0]

/-- The item is open with number 1. -/
def clusterFile : FileSystem :=
  { freshFileSystem with
    fileDescriptors := Function.update (fun _ => null) 0 0x01000000
    fileDescriptorAt := fun _ => ⟨1, 0x01001000⟩
    fatDescriptorAt := fun _ => ⟨0x01002000, 0⟩
    fatItemAt := fun _ => ⟨0x01003000, fatItemTypeFile⟩
    bytesAt := fun _ => clusterItem }

theorem clusterFile_opensFile : clusterFile.OpensFile 1 where
  resolved := by decide
  regular := by decide

/-- One byte is read from it, whatever the positions of the streams. -/
theorem clusterFile_fread (streams : Streams) :
    (FileSystem.fread { clusterFile with streams } 1 1 1).1 = 1 := by
  obtain ⟨last, read⟩ := fat16ReadInternal_cluster
    (show oneSectorVolume.disk.isDisk0 = true from rfl)
    (oneSectorVolume_chain.clusters 2 (by decide)) streams
    (show 0 < oneSectorVolume.sizeOfClusterBytes by decide)
    (show 0 + 1 ≤ oneSectorVolume.sizeOfClusterBytes by decide)
  refine FileSystem.fread_one (by decide) (by decide) clusterFile_opensFile.resolved ?_
  have cluster : (fat16GetFirstCluser clusterItem).toInt = ((2 : ℕ) : Int) := by decide
  have start : (0 : Word).toInt = ((0 : ℕ) : Int) := by decide
  have one : (1 : Word).toInt = ((1 : ℕ) : Int) := by decide
  have status := congrArg Prod.fst read
  rw [← cluster, ← start, ← one] at status
  exact Int.le_of_eq status.symm

/-- Two reads of one byte each succeed. -/
theorem clusterFile_reads : 0 ≤ (clusterFile.fread 1 1 1).1 ∧
    0 ≤ ((clusterFile.fread 1 1 1).2.2.fread 1 1 1).1 := by
  obtain ⟨streams, moved⟩ := clusterFile.fread_frame 1 1 1
  constructor
  · exact (clusterFile_fread clusterFile.streams).symm ▸ Int.one_nonneg
  · rw [moved, clusterFile_fread streams]
    decide

/-- Two reads of one byte each from the start of a file of 512 bytes. -/
theorem fread_sequential_fails :
    clusterFile.OpensFile 1 ∧ (clusterFile.position 1).toNat + 2 ≤
      (clusterFile.filesizeOf 1).toNat ∧
      ¬ SequentialReads clusterFile 1 1 1 1 1 := by
  refine ⟨clusterFile_opensFile, by decide, ?_⟩
  rintro ⟨advances, -⟩
  have advanced := (advances clusterFile_reads.1 clusterFile_reads.2).2.1
  rw [clusterFile.fread_position] at advanced
  exact absurd advanced (by decide)

/-- The same two reads. -/
theorem fread_sequential_never_clusterFile : ¬ SequentialReads clusterFile 1 1 1 1 1 :=
  fread_sequential_never (by decide) (by decide) clusterFile_reads.1 clusterFile_reads.2

end Phix
