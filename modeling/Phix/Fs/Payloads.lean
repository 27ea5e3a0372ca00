import Phix.Fs.Components
import Phix.Fs.Pieces
import Phix.Fs.Interference
import Phix.Fs.Resolution

/-! # The payload of an item

The union of `struct fat_item` holds a copy of a directory entry or a directory, as its tag says.
`fat16_load_fat_directory` negates its status before it is made a pointer, so that the failure is
stored as a directory, and `fat16_read` does not look at the tag. What `fat16_open` returns is
tagged as it should be, and used so, exactly when it is no directory and its copy is made
(`Phix.fat16_open_tagged_iff`).
-/

namespace Phix

namespace FileSystem

/-- The operations on a descriptor answer alike in two states. -/
structure SameAnswers (fs other : FileSystem) (desc : Word) : Prop where
  read : ∀ size n, (other.fat16Read desc size n).1 = (fs.fat16Read desc size n).1 ∧
    (other.fat16Read desc size n).2.1 = (fs.fat16Read desc size n).2.1
  seek : ∀ offset seekMode,
    (other.fat16Seek desc offset seekMode).1 = (fs.fat16Seek desc offset seekMode).1 ∧
      (other.fat16Seek desc offset seekMode).2.fatDescriptorAt =
        (fs.fat16Seek desc offset seekMode).2.fatDescriptorAt
  stat : other.fat16Stat desc = fs.fat16Stat desc
  close : (other.fat16Close desc).map (fun closed => (closed.1, closed.2.machine)) =
    (fs.fat16Close desc).map fun closed => (closed.1, closed.2.machine)

/-- The operations that make no sense for a directory are refused. -/
structure Refuses (fs : FileSystem) (desc : Word) : Prop where
  read : ∀ size n : Word, n ≠ 0 → (fs.fat16Read desc size n).1 < 0
  seek : ∀ offset seekMode, (fs.fat16Seek desc offset seekMode).1 < 0
  stat : (fs.fat16Stat desc).1 < 0

/-- The item of a descriptor of the file system. -/
def itemRecord (fs : FileSystem) (desc : Word) : FatItem :=
  fs.fatItemAt (fs.fatDescriptorAt desc).item

/-- The operations on a descriptor use the payload that the tag of its item announces: a file's
depend on no directory at the same place, and a directory's on no entry there. -/
structure UsesTag (fs : FileSystem) (desc : Word) : Prop where
  file : (fs.itemRecord desc).type = fatItemTypeFile →
    ∀ directory, fs.SameAnswers (fs.setDirectory (fs.itemRecord desc).ref directory) desc
  directory : (fs.itemRecord desc).type = fatItemTypeDirectory →
    fs.Refuses desc ∧ ∀ bytes, fs.SameAnswers (fs.setBytes (fs.itemRecord desc).ref bytes) desc

/-- The item is tagged as a file, and refers to a copy of an entry of the root directory. -/
structure FilePayload (fs next : FileSystem) (item : FatItem) : Prop where
  type : item.type = fatItemTypeFile
  held : next.machine.live item.ref ≠ none
  entry : ∃ i, next.bytesAt item.ref = (itemAt fs.volume.rootItems i).take sizeofFatDirectoryItem

/-- The item is tagged as a directory, and refers to one with its items. -/
structure DirectoryPayload (next : FileSystem) (item : FatItem) : Prop where
  type : item.type = fatItemTypeDirectory
  held : next.machine.live item.ref ≠ none
  items : next.machine.live (next.directoryAt item.ref).item ≠ none

/-- What is to hold of a descriptor that is returned: its item has the payload that its tag
announces, and every operation uses this one as long as the descriptor has this item. -/
structure ValidOpen (fs next : FileSystem) (desc : Word) : Prop where
  held : next.machine.live desc ≠ none ∧ next.machine.live (next.fatDescriptorAt desc).item ≠ none
  payload : fs.FilePayload next (next.itemRecord desc) ∨
    next.DirectoryPayload (next.itemRecord desc)
  later : ∀ later : FileSystem,
    (later.fatDescriptorAt desc).item = (next.fatDescriptorAt desc).item →
    later.itemRecord desc = next.itemRecord desc → later.UsesTag desc

/-- `fat16_open` returns a status or a valid descriptor. -/
def OpensTagged (fs : FileSystem) (part : PathPart) (path : List PathPart) (mode : FileMode) :
    Prop :=
  ∀ desc next, fs.fat16Open part path mode = some (desc, next) →
    desc.toInt < 0 ∨ fs.ValidOpen next desc

/-- A path of one part that is opened for reading names no item of the root directory, or one for
which there is room in the heap, and no directory whose scan ends. -/
def OpensFileOnly (fs : FileSystem) (part : PathPart) (path : List PathPart) (mode : FileMode) :
    Prop :=
  mode = .read → path = [] → 2 ≤ fs.machine.freeBlocks.card →
    ∀ i, fat16FindItemInDirectory.loop fs.volume.rootItems fs.volume.rootDirectory.total part.text =
        some i →
      3 ≤ fs.machine.freeBlocks.card ∧
        (itemAttributes (itemAt fs.volume.rootItems i) &&& fatFileSubdirectory ≠ 0 →
          fs.volume.scanOf (itemAt fs.volume.rootItems i) = none)

/-! The operations on a file use its entry only. -/

theorem fat16Close_file {fs : FileSystem} {desc : Word}
    (file : (fs.itemRecord desc).type = fatItemTypeFile) :
    fs.fat16Close desc = some (0, (fs.kfree (fs.itemRecord desc).ref).kfree desc) := by
  have notDirectory : ¬ (fs.itemRecord desc).type = fatItemTypeDirectory := by
    rw [file]
    decide
  unfold itemRecord at file notDirectory ⊢
  unfold fat16Close fat16FreeItem
  dsimp only
  rw [if_neg notDirectory, if_pos file]
  rfl

theorem fat16Seek_congr {fs next : FileSystem} {desc : Word}
    (records : next.fatDescriptorAt = fs.fatDescriptorAt) (items : next.fatItemAt = fs.fatItemAt)
    (bytes : next.bytesAt (next.itemRecord desc).ref = fs.bytesAt (fs.itemRecord desc).ref)
    (offset : Word) (seekMode : FileSeekMode) :
    (next.fat16Seek desc offset seekMode).1 = (fs.fat16Seek desc offset seekMode).1 ∧
      (next.fat16Seek desc offset seekMode).2.fatDescriptorAt =
        (fs.fat16Seek desc offset seekMode).2.fatDescriptorAt := by
  unfold itemRecord at bytes
  unfold fat16Seek
  dsimp only
  rw [bytes, records, items]
  split
  · exact ⟨rfl, records⟩
  split
  · exact ⟨rfl, records⟩
  cases seekMode with
  | set => exact ⟨rfl, congrArg (Function.update · desc _) records⟩
  | cur => exact ⟨rfl, congrArg (Function.update · desc _) records⟩
  | «end» => exact ⟨rfl, records⟩
  | other => exact ⟨rfl, records⟩

theorem usesTag_of_file {fs : FileSystem} {desc : Word}
    (file : (fs.itemRecord desc).type = fatItemTypeFile) : fs.UsesTag desc := by
  refine ⟨fun _ directory => ?_, fun isDirectory => ?_⟩
  · have closed := @fat16Close_file (fs.setDirectory (fs.itemRecord desc).ref directory) desc file
    refine ⟨fun size n => @fat16Read_congr fs (fs.setDirectory _ directory) rfl desc rfl rfl size n,
      fun offset seekMode => @fat16Seek_congr fs
        (fs.setDirectory _ directory) desc rfl rfl rfl offset seekMode, rfl, ?_⟩
    rw [closed, fat16Close_file file]
    rfl
  · rw [file] at isDirectory
    exact absurd isDirectory (by decide)

/-- A descriptor that is returned is that of a name of the root directory, which is opened for
reading with a block for the descriptor and one for its item. -/
theorem fat16Open_returned {fs next : FileSystem} (sound : fs.machine.HeapSound) {part : PathPart}
    {path : List PathPart} {mode : FileMode} {desc : Word}
    (opened : fs.fat16Open part path mode = some (desc, next)) (positive : 0 ≤ desc.toInt) :
    mode = .read ∧ path = [] ∧ 2 ≤ fs.machine.freeBlocks.card ∧
      ∃ i, fat16FindItemInDirectory.loop fs.volume.rootItems fs.volume.rootDirectory.total
        part.text = some i := by
  unfold fat16Open at opened
  by_cases read : mode = .read
  · rw [if_neg (not_not_intro read)] at opened
    obtain ⟨isNull, -⟩ | ⟨found, after, room⟩ := kzalloc_room sound
      (show 1 ≤ sizeofFatFileDescriptor.toNat by decide) (by decide)
    · dsimp only at opened
      rw [if_pos isNull] at opened
      cases opened
      exact absurd positive (by decide)
    · dsimp only at opened
      rw [if_neg found, Option.bind_eq_bind, Option.bind_eq_some_iff] at opened
      obtain ⟨⟨item, last⟩, entry, rest⟩ := opened
      have isItem : item ≠ null := by
        rintro rfl
        cases rest
        exact absurd positive (by decide)
      have volume : (fs.kzalloc sizeofFatFileDescriptor).2.volume = fs.volume := rfl
      generalize (fs.kzalloc sizeofFatFileDescriptor).2 = middle at after room entry volume
      rw [← volume]
      cases search : fat16FindItemInDirectory.loop middle.volume.rootItems
          middle.volume.rootDirectory.total part.text with
      | none =>
          rw [fat16GetDirectoryEntry_absent path search] at entry
          cases entry
          exact absurd rfl isItem
      | some i =>
          cases path with
          | nil =>
              rw [fat16GetDirectoryEntry_single search] at entry
              refine ⟨read, rfl, ?_, i, rfl⟩
              obtain ⟨isNull, -⟩ | ⟨-, -, more⟩ := kzalloc_room after
                (show 1 ≤ sizeofFatItem.toNat by decide) (by decide)
              · unfold fat16NewFatItemForDirectoryItem at entry
                dsimp only at entry
                rw [if_pos isNull] at entry
                cases entry
                exact absurd rfl isItem
              · omega
          | cons nextPart path =>
              rw [fat16GetDirectoryEntry_deep search] at entry
              obtain ⟨made, _, same⟩ := Option.map_eq_some_iff.mp entry
              cases same
              exact absurd rfl isItem
  · rw [if_pos read] at opened
    cases opened
    exact absurd positive (by decide)

/-- The state after a descriptor and an item were allocated for it. -/
structure Allocates (fs middle : FileSystem) (desc item : Word) : Prop where
  positive : 0 ≤ desc.toInt
  found : item ≠ null
  sound : middle.machine.HeapSound
  volume : middle.volume = fs.volume
  room : middle.machine.freeBlocks.card + 2 = fs.machine.freeBlocks.card
  descriptorHeld : middle.machine.live desc ≠ none
  itemHeld : middle.machine.live item ≠ none

/-- What is left of `fat16_open` once the payload of the item is there. -/
def opens (fs : FileSystem) (desc item ref type : Word) : Word × FileSystem :=
  (desc, (fs.setFatItem item ⟨ref, type⟩).setFatDescriptor desc ⟨item, 0⟩)

theorem fat16Open_found {fs : FileSystem} (sound : fs.machine.HeapSound)
    (room : 2 ≤ fs.machine.freeBlocks.card) {part : PathPart} {i : ℕ}
    (search : fat16FindItemInDirectory.loop fs.volume.rootItems fs.volume.rootDirectory.total
      part.text = some i) :
    ∃ desc item middle, fs.Allocates middle desc item ∧
      fs.fat16Open part [] .read =
        if itemAttributes (itemAt fs.volume.rootItems i) &&& fatFileSubdirectory ≠ 0 then
          (middle.fat16LoadFatDirectory (itemAt fs.volume.rootItems i)).map fun loaded =>
            loaded.2.opens desc item loaded.1 fatItemTypeDirectory
        else
          let (cpy, last) := middle.fat16CloneDirectoryItem (itemAt fs.volume.rootItems i)
            (BitVec.ofNat 32 sizeofFatDirectoryItem)
          some (last.opens desc item cpy fatItemTypeFile) := by
  obtain ⟨desc, first, allocated, made, positive, held, spends⟩ := kzalloc_spends sound
    (show 1 ≤ sizeofFatFileDescriptor.toNat by decide) (by decide) (by omega)
  obtain ⟨isNull, -⟩ | ⟨-, -, less⟩ := kzalloc_room sound
    (show 1 ≤ sizeofFatFileDescriptor.toNat by decide) (by decide)
  · rw [allocated] at isNull
    exact absurd isNull made
  rw [allocated] at less
  dsimp only at less
  obtain ⟨item, middle, second, found, -, itemHeld, more⟩ := kzalloc_spends spends.sound
    (show 1 ≤ sizeofFatItem.toNat by decide) (by decide) (by omega)
  obtain ⟨isNull, -⟩ | ⟨-, -, least⟩ := kzalloc_room spends.sound
    (show 1 ≤ sizeofFatItem.toNat by decide) (by decide)
  · rw [second] at isNull
    exact absurd isNull found
  rw [second] at least
  dsimp only at least
  refine ⟨desc, item, middle, ⟨positive, found, more.sound, more.volume.trans spends.volume,
    by omega, (kzalloc_grows spends.sound second).1.gains.kept desc held, itemHeld⟩, ?_⟩
  rw [← spends.volume] at search ⊢
  unfold fat16Open
  rw [if_neg (by decide), allocated]
  dsimp only
  rw [if_neg made, fat16GetDirectoryEntry_single search]
  unfold fat16NewFatItemForDirectoryItem
  rw [second]
  dsimp only
  rw [if_neg found]
  split
  · cases middle.fat16LoadFatDirectory (itemAt first.volume.rootItems i) with
    | none => rfl
    | some loaded =>
        simp only [Option.bind_eq_bind, Option.bind_some, Option.map_some, if_neg found]
        rfl
  · simp only [Option.bind_eq_bind, Option.bind_some, if_neg found]
    rfl

theorem opens_fatDescriptorAt (fs : FileSystem) (desc item ref type : Word) :
    (fs.opens desc item ref type).2.fatDescriptorAt desc = ⟨item, 0⟩ := Function.update_self ..

theorem opens_itemRecord (fs : FileSystem) (desc item ref type : Word) :
    (fs.opens desc item ref type).2.itemRecord desc = ⟨ref, type⟩ := by
  unfold itemRecord
  rw [opens_fatDescriptorAt]
  exact Function.update_self ..

/-- A read of one byte at the start of an item is not refused. -/
theorem not_refuses {fs : FileSystem} {desc : Word} (disk0 : fs.volume.disk.isDisk0 = true)
    (start : (fs.fatDescriptorAt desc).pos = 0) : ¬ fs.Refuses desc := by
  intro refuses
  have refused := refuses.read 1 1 (by decide)
  have cluster := fs.volume.sizeOfClusterBytes_pos
  unfold fat16Read at refused
  dsimp only at refused
  rw [start] at refused
  have reads := fat16Read_loop_neg fs (fs.bytesAt (fs.fatItemAt (fs.fatDescriptorAt desc).item).ref)
    1 1 (show int32 0 = 0 by decide)
  have whole : (1 : Word).toNat = 1 := rfl
  have beginning : (0 : Word).toInt = 0 := rfl
  rw [whole, beginning] at refused
  split at refused
  · rename_i failed
    refine (reads.mp failed).2 ⟨disk0, fun i inside => ?_⟩
    obtain rfl : i = 0 := by omega
    have single : (1 : Word).toInt ≤ fs.volume.sizeOfClusterBytes := by
      have one : (1 : Word).toInt = 1 := by decide
      omega
    refine (piecesFound_single (int32_int32 _) single).mpr (.inl ?_)
    rw [Nat.zero_mul, show int32 (0 + ((0 : ℕ) : Int)) = 0 by decide]
    omega
  · change (1 : Word).toInt < 0 at refused
    exact absurd refused (by decide)

/-- The item of a directory is not refused what makes no sense for it. -/
theorem not_validOpen_directory {fs state : FileSystem} {desc item ref : Word}
    (disk0 : state.volume.disk.isDisk0 = true) :
    ¬ fs.ValidOpen (state.opens desc item ref fatItemTypeDirectory).2 desc := by
  intro valid
  have uses := valid.later _ rfl rfl
  have type := congrArg FatItem.type (state.opens_itemRecord desc item ref fatItemTypeDirectory)
  have start := congrArg FatFileDescriptor.pos
    (state.opens_fatDescriptorAt desc item ref fatItemTypeDirectory)
  exact @not_refuses (state.opens desc item ref fatItemTypeDirectory).2 desc disk0 start
    (uses.directory type).1

/-- A file without a copy of its entry has no payload. -/
theorem not_validOpen_null {fs state : FileSystem} (sound : state.machine.HeapSound)
    {desc item : Word} : ¬ fs.ValidOpen (state.opens desc item null fatItemTypeFile).2 desc := by
  intro valid
  have payload := valid.payload
  rw [opens_itemRecord] at payload
  rcases payload with file | directory
  · exact file.held sound.live_null
  · exact absurd directory.type (by decide)

/-- A file with a copy of its entry is opened as it should be. -/
theorem validOpen_file {fs state : FileSystem} {desc item cpy : Word}
    (descriptorHeld : state.machine.live desc ≠ none) (itemHeld : state.machine.live item ≠ none)
    (held : state.machine.live cpy ≠ none) {i : ℕ}
    (bytes : state.bytesAt cpy = (itemAt fs.volume.rootItems i).take sizeofFatDirectoryItem) :
    fs.ValidOpen (state.opens desc item cpy fatItemTypeFile).2 desc := by
  refine ⟨⟨descriptorHeld, ?_⟩, .inl ?_, fun later _ same => usesTag_of_file ?_⟩
  · rw [opens_fatDescriptorAt]
    exact itemHeld
  · rw [opens_itemRecord]
    exact ⟨rfl, held, i, bytes⟩
  · rw [same, opens_itemRecord]

theorem fat16CloneDirectoryItem_full {fs : FileSystem} (sound : fs.machine.HeapSound)
    (none : fs.machine.freeBlocks.card = 0) (item : List Byte) :
    ∃ last, fs.fat16CloneDirectoryItem item (BitVec.ofNat 32 sizeofFatDirectoryItem) =
      (null, last) ∧ last.machine.HeapSound := by
  have positive : 1 ≤ (BitVec.ofNat 32 sizeofFatDirectoryItem : Word).toNat := by decide
  have after := (kzalloc_small sound positive (by decide) rfl).1
  obtain ⟨isNull, -⟩ | ⟨-, -, room⟩ := kzalloc_room sound positive (by decide)
  · refine ⟨(fs.kzalloc (BitVec.ofNat 32 sizeofFatDirectoryItem)).2, ?_, after⟩
    unfold fat16CloneDirectoryItem
    rw [if_neg (by decide)]
    dsimp only
    rw [if_pos isNull]
  · omega

/-- What is opened as it is tagged is a file. -/
theorem OpensTagged.fileOnly {fs : FileSystem} (sound : fs.machine.HeapSound)
    (disk0 : fs.volume.disk.isDisk0 = true) {part : PathPart} {path : List PathPart}
    {mode : FileMode} (tagged : fs.OpensTagged part path mode) :
    fs.OpensFileOnly part path mode := by
  rintro rfl rfl room i search
  obtain ⟨desc, item, middle, allocates, opened⟩ := fat16Open_found sound room search
  have spent := allocates.room
  by_cases directory : itemAttributes (itemAt fs.volume.rootItems i) &&& fatFileSubdirectory ≠ 0
  · rw [if_pos directory] at opened
    have endless : middle.fat16LoadFatDirectory (itemAt fs.volume.rootItems i) = none := by
      rw [Option.eq_none_iff_forall_ne_some]
      intro loaded load
      rw [load, Option.map_some] at opened
      rcases tagged _ _ opened with negative | valid
      · exact absurd allocates.positive (not_le.mpr negative)
      · have volume := (fat16LoadFatDirectory_grows allocates.sound load).1.volume
        rw [← allocates.volume, ← volume] at disk0
        exact not_validOpen_directory disk0 valid
    obtain ⟨made, scan⟩ := (fat16LoadFatDirectory_eq_none directory).mp endless
    rw [allocates.volume] at scan
    obtain ⟨isNull, -⟩ | ⟨-, -, less⟩ := kzalloc_room allocates.sound
      (show 1 ≤ sizeofFatDirectory.toNat by decide) (by decide)
    · exact absurd isNull made
    · exact ⟨by omega, fun _ => scan⟩
  · rw [if_neg directory] at opened
    refine ⟨?_, fun isDirectory => absurd isDirectory directory⟩
    by_contra short
    obtain ⟨last, cloned, after⟩ := fat16CloneDirectoryItem_full allocates.sound (by omega)
      (itemAt fs.volume.rootItems i)
    rw [cloned] at opened
    rcases tagged _ _ opened with negative | valid
    · exact absurd allocates.positive (not_le.mpr negative)
    · exact not_validOpen_null after valid

/-- A file is opened as it is tagged. -/
theorem OpensFileOnly.tagged {fs : FileSystem} (sound : fs.machine.HeapSound) {part : PathPart}
    {path : List PathPart} {mode : FileMode} (fileOnly : fs.OpensFileOnly part path mode) :
    fs.OpensTagged part path mode := by
  intro desc next opened
  by_cases negative : desc.toInt < 0
  · exact .inl negative
  obtain ⟨rfl, rfl, room, i, search⟩ := fat16Open_returned sound opened (not_lt.mp negative)
  obtain ⟨enough, endless⟩ := fileOnly rfl rfl room i search
  obtain ⟨desc', item, middle, allocates, opens⟩ := fat16Open_found sound room search
  have spent := allocates.room
  rw [opens] at opened
  by_cases directory : itemAttributes (itemAt fs.volume.rootItems i) &&& fatFileSubdirectory ≠ 0
  · have made : (middle.kzalloc sizeofFatDirectory).1 ≠ null := by
      obtain ⟨-, none⟩ | ⟨made, -⟩ := kzalloc_room allocates.sound
        (show 1 ≤ sizeofFatDirectory.toNat by decide) (by decide)
      · omega
      · exact made
    have scan : middle.volume.scanOf (itemAt fs.volume.rootItems i) = none := by
      rw [allocates.volume]
      exact endless directory
    rw [if_pos directory, (fat16LoadFatDirectory_eq_none directory).mpr ⟨made, scan⟩] at opened
    cases opened
  · obtain ⟨cpy, last, cloned, kept, held, bytes, -⟩ :=
      fat16CloneDirectoryItem_spends allocates.sound (by omega) (itemAt fs.volume.rootItems i)
    rw [if_neg directory, cloned] at opened
    obtain ⟨rfl, rfl⟩ := Prod.mk.inj (Option.some.inj opened)
    have descriptorHeld := kept desc' allocates.descriptorHeld
    have itemHeld := kept item allocates.itemHeld
    have valid : fs.ValidOpen (last.opens desc' item cpy fatItemTypeFile).2 desc' :=
      validOpen_file descriptorHeld itemHeld held bytes
    exact .inr valid

end FileSystem

/-- **Only files are opened as they are tagged**: what `fat16_open` returns is a status, or a
descriptor whose item has the payload that its tag announces and is used by its tag, exactly when
no directory is loaded and the copy of the entry of a file is made. -/
theorem fat16_open_tagged_iff {fs : FileSystem} (sound : fs.machine.HeapSound)
    (disk0 : fs.volume.disk.isDisk0 = true) (part : PathPart) (path : List PathPart)
    (mode : FileMode) : fs.OpensTagged part path mode ↔ fs.OpensFileOnly part path mode :=
  ⟨fun tagged => tagged.fileOnly sound disk0, fun fileOnly => fileOnly.tagged sound⟩

/-- The directory `D` is opened, and can be read. -/
theorem fat16_open_tagged_fails : ¬ nestedFileSystem.OpensTagged partD [] .read := by
  intro tagged
  have fileOnly := tagged.fileOnly (Machine.booted_sound _) rfl
  obtain ⟨pos, scanned⟩ := nestedVolume_scanned
  have room : nestedFileSystem.machine.freeBlocks.card = 25600 := Machine.booted_card _
  have endless := (fileOnly rfl rfl (by omega) 0 nestedFileSystem_search).2 (by decide)
  cases scanned.symm.trans endless

def partA : PathPart := ⟨null, null, nameA.bytes⟩

/-- The file `A` is opened. -/
theorem fat16_open_tagged_iff_file : singleFileSystem.OpensTagged partA [] .read := by
  have room : singleFileSystem.machine.freeBlocks.card = 25600 := Machine.booted_card _
  have search : fat16FindItemInDirectory.loop singleFileSystem.volume.rootItems
      singleFileSystem.volume.rootDirectory.total partA.text = some 0 := by decide
  refine (fat16_open_tagged_iff (Machine.booted_sound _) rfl partA [] .read).mpr ?_
  intro _ _ _ i found
  cases search.symm.trans found
  exact ⟨by omega, fun isDirectory => absurd (show _ = _ by decide) isDirectory⟩

end Phix
