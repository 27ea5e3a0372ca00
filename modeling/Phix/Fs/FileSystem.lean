import Phix.Fs.Names
import Phix.Memory.KernelHeap

/-! # The state of the file system

The records of `fs/file.h` and `fs/fat/fat16.c`, kept by the address of the allocation that
holds them, the descriptor table of `fs/file.c`, and the volume with its streams, on the machine
whose heap they are allocated from. A record is written through the null pointer as through
any other. The only file system is FAT16 and the only disk is disk 0, so a descriptor names
neither.
-/

namespace Phix

/-- The number of slots of the descriptor table. -/
def phixMaxFileDescriptors : ℕ := 512

/-! Sizes of the structures of the 32-bit target. -/

def sizeofFatDirectory : Word := 16
def sizeofFatItem : Word := 8
def sizeofFatFileDescriptor : Word := 8
def sizeofFileDescriptor : Word := 16
def sizeofPathRoot : Word := 8
def sizeofPathPart : Word := 8

/-! What an item of the driver is, and the attributes of a directory item. -/

def fatItemTypeDirectory : Word := 0
def fatItemTypeFile : Word := 1

def fatFileReadOnly : Byte := 1 <<< 0
def fatFileSubdirectory : Byte := 1 <<< 4

/-- `struct fat_item`. The union of `item` and `directory` is one word, `ref`. -/
structure FatItem where
  ref : Word
  type : Word

/-- `struct fat_file_descriptor`. -/
structure FatFileDescriptor where
  item : Word
  pos : Word

/-- `struct file_descriptor`. -/
structure FileDescriptor where
  index : Int
  privateData : Word

/-- A cleared `struct fat_directory`. -/
def FatDirectory.zero : FatDirectory := ⟨null, 0, 0, 0⟩

/-- The state that the functions of `fs/` work on. A record of an address that no allocation holds
is what the last allocation there left. -/
structure FileSystem where
  machine : Machine
  mounted : Bool
  volume : Volume
  streams : Streams
  fileDescriptors : ℕ → Word
  fileDescriptorAt : Word → FileDescriptor
  fatDescriptorAt : Word → FatFileDescriptor
  fatItemAt : Word → FatItem
  directoryAt : Word → FatDirectory
  bytesAt : Word → List Byte

namespace FileSystem

/-- Stores a descriptor. -/
def setFileDescriptor (fs : FileSystem) (p : Word) (desc : FileDescriptor) : FileSystem :=
  { fs with fileDescriptorAt := Function.update fs.fileDescriptorAt p desc }

/-- Stores a descriptor of the driver. -/
def setFatDescriptor (fs : FileSystem) (p : Word) (desc : FatFileDescriptor) : FileSystem :=
  { fs with fatDescriptorAt := Function.update fs.fatDescriptorAt p desc }

/-- Stores an item of the driver. -/
def setFatItem (fs : FileSystem) (p : Word) (item : FatItem) : FileSystem :=
  { fs with fatItemAt := Function.update fs.fatItemAt p item }

/-- Stores a directory. -/
def setDirectory (fs : FileSystem) (p : Word) (directory : FatDirectory) : FileSystem :=
  { fs with directoryAt := Function.update fs.directoryAt p directory }

/-- Stores the content of a buffer. -/
def setBytes (fs : FileSystem) (p : Word) (bytes : List Byte) : FileSystem :=
  { fs with bytesAt := Function.update fs.bytesAt p bytes }

/-- `kzalloc` for a record of the file system. -/
def kzalloc (fs : FileSystem) (size : Word) : Word × FileSystem :=
  let (p, machine) := fs.machine.kzalloc .kernel size
  (p, { fs with machine })

/-- `kfree` of a record of the file system. -/
def kfree (fs : FileSystem) (p : Word) : FileSystem := { fs with machine := fs.machine.kfree p }

/-- `fs_init` as far as descriptors go: the table is cleared. -/
def fsInit (fs : FileSystem) : FileSystem := { fs with fileDescriptors := fun _ => null }

/-- A mounted volume on a machine, before anything is opened. -/
def fresh (machine : Machine) (volume : Volume) : FileSystem where
  machine := machine
  mounted := true
  volume := volume
  streams := ⟨0, 0, 0, []⟩
  fileDescriptors := fun _ => null
  fileDescriptorAt := fun _ => ⟨0, null⟩
  fatDescriptorAt := fun _ => ⟨null, 0⟩
  fatItemAt := fun _ => ⟨null, 0⟩
  directoryAt := fun _ => FatDirectory.zero
  bytesAt := fun _ => []

end FileSystem

end Phix
