import Phix.Fs.Growth

/-! # What opening adds

`Phix.FileSystem.fopen_outcome` lists what `fopen` does: a failed call only leaves allocations
behind, and a successful one puts a descriptor in the first free slot, whose objects are all
new when the heap serves every request. The calls below it are taken from the bottom up, the
loading of a directory first.
-/

namespace Phix

namespace FileSystem

theorem fat16FreeDirectory_empty {fs : FileSystem} {directory : Word} (made : directory ≠ null)
    (empty : (fs.directoryAt directory).item = null) :
    fs.fat16FreeDirectory directory = fs.kfree directory := by
  unfold fat16FreeDirectory
  rw [if_neg made]
  dsimp only
  rw [empty, if_neg (not_not_intro rfl)]

theorem fat16FreeDirectory_items {fs : FileSystem} {directory items : Word}
    (made : directory ≠ null)
    (content : (fs.directoryAt directory).item = items) (found : items ≠ null) :
    fs.fat16FreeDirectory directory = (fs.kfree items).kfree directory := by
  subst content
  unfold fat16FreeDirectory
  rw [if_neg made]
  dsimp only
  rw [if_pos found]

/-- The state after the items of a directory were counted. -/
def scanned (fs : FileSystem) (pos : Int) : FileSystem :=
  { fs with streams := { fs.streams with directory := pos } }

/-- The items of a directory that were read, and whether they could be. -/
def readItems (fs : FileSystem) (item : List Byte) (directory items total : Word) :
    Int × List Byte × FileSystem :=
  (fs.setDirectory directory { FatDirectory.zero with total, item := items }).readInternal
    (fat16GetFirstCluser item).toInt 0 (total * BitVec.ofNat 32 sizeofFatDirectoryItem).toInt

theorem scanned_grows {fs : FileSystem} (sound : fs.machine.HeapSound) (pos : Int) :
    fs.Grows (fs.scanned pos) [] where
  gains := .refl _
  same _ _ := ⟨rfl, rfl, rfl, rfl, rfl⟩
  volume := rfl
  fileDescriptors := rfl
  sound := .of_requests rfl sound

/-- What loading a directory did. -/
inductive LoadOutcome (fs : FileSystem) (item : List Byte) : Word × FileSystem → Prop where
  | notDirectory (file : itemAttributes item &&& fatFileSubdirectory = 0) :
      LoadOutcome fs item (BitVec.ofInt 32 (-EINVAL), fs)
  | noDirectory (middle : FileSystem) (allocated : fs.kzalloc sizeofFatDirectory = (null, middle)) :
      LoadOutcome fs item (BitVec.ofInt 32 ENOMEM, middle)
  | noItems (directory : Word) (middle last : FileSystem) (totalItems pos : Int)
      (allocated : fs.kzalloc sizeofFatDirectory = (directory, middle)) (made : directory ≠ null)
      (second : (middle.scanned pos).kzalloc
        (BitVec.ofInt 32 totalItems * BitVec.ofNat 32 sizeofFatDirectoryItem) = (null, last)) :
      LoadOutcome fs item ((last.setDirectory directory
        { FatDirectory.zero with total := BitVec.ofInt 32 totalItems, item :=
          null }).loadOut directory
          (-ENOMEM))
  | read (directory items : Word) (middle last : FileSystem) (totalItems pos : Int)
      (allocated : fs.kzalloc sizeofFatDirectory = (directory, middle)) (made : directory ≠ null)
      (counted : fat16GetTotalItemsForDirectory middle.volume.disk (BitVec.ofInt 32
        (fat16ClusterToSector middle.volume (fat16GetFirstCluser item).toInt)) = some
          (totalItems, pos))
      (second : (middle.scanned pos).kzalloc
        (BitVec.ofInt 32 totalItems * BitVec.ofNat 32 sizeofFatDirectoryItem) = (items, last))
      (found : items ≠ null) :
      LoadOutcome fs item
        (((last.readItems item directory items (BitVec.ofInt 32 totalItems)).2.2.setBytes items
            (last.readItems item directory items
              (BitVec.ofInt 32 totalItems)).2.1).loadOut directory
          (last.readItems item directory items (BitVec.ofInt 32 totalItems)).1)

theorem fat16LoadFatDirectory_outcome {fs : FileSystem} {item : List Byte}
    {result : Word × FileSystem} (loaded : fs.fat16LoadFatDirectory item = some result) :
    LoadOutcome fs item result := by
  unfold fat16LoadFatDirectory at loaded
  split at loaded
  · rename_i file
    cases loaded
    exact .notDirectory file
  · cases allocated : fs.kzalloc sizeofFatDirectory with
    | mk directory middle =>
        rw [allocated] at loaded
        dsimp only at loaded
        by_cases made : directory = null
        · rw [if_pos made] at loaded
          cases loaded
          exact .noDirectory middle (made ▸ allocated)
        · rw [if_neg made, Option.bind_eq_bind, Option.bind_eq_some_iff] at loaded
          obtain ⟨⟨totalItems, pos⟩, counted, rest⟩ := loaded
          cases second : (middle.scanned pos).kzalloc
              (BitVec.ofInt 32 totalItems * BitVec.ofNat 32 sizeofFatDirectoryItem) with
          | mk items last =>
              have state := second
              unfold scanned at state
              dsimp only at rest
              rw [state] at rest
              dsimp only at rest
              by_cases noItems : items = null
              · rw [if_pos noItems] at rest
                subst noItems
                cases rest
                exact .noItems directory middle last totalItems pos allocated made second
              · rw [if_neg noItems] at rest
                cases rest
                exact .read directory items middle last totalItems pos allocated made counted second
                  noItems

/-- If the item is a directory, its items can be read once they are counted. -/
def DirectoryReadable (volume : Volume) (item : List Byte) : Prop :=
  itemAttributes item &&& fatFileSubdirectory ≠ 0 → ∀ totalItems pos,
    fat16GetTotalItemsForDirectory volume.disk (BitVec.ofInt 32
      (fat16ClusterToSector volume (fat16GetFirstCluser item).toInt)) = some (totalItems, pos) →
    ∀ streams, 0 ≤ (fat16ReadInternal volume (fat16GetClusterForOffset volume) streams
      (fat16GetFirstCluser item).toInt 0
      (BitVec.ofInt 32 totalItems * BitVec.ofNat 32 sizeofFatDirectoryItem).toInt).1

theorem setDirectory_directoryAt (fs : FileSystem) (p : Word) (directory : FatDirectory) :
    (fs.setDirectory p directory).directoryAt p = directory := Function.update_self ..

/-- Loading a directory releases only what it has allocated. -/
theorem fat16LoadFatDirectory_grows {fs next : FileSystem} (sound : fs.machine.HeapSound)
    {item : List Byte} {p : Word} (loaded : fs.fat16LoadFatDirectory item = some (p, next)) :
    fs.Grows next [] ∧ fs.machine.Ensures Request.Served next.machine
      (itemAttributes item &&& fatFileSubdirectory ≠ 0 → DirectoryReadable fs.volume item →
        fs.Grows next [(next.directoryAt p).item, p]) := by
  have outcome := fat16LoadFatDirectory_outcome loaded
  generalize result : (p, next) = pair at outcome
  rw [show next = pair.2 from congrArg Prod.snd result,
    show p = pair.1 from congrArg Prod.fst result]
  clear result loaded
  cases outcome with
  | notDirectory file =>
      exact ⟨.refl sound, .of_requests rfl fun isDirectory => absurd file isDirectory⟩
  | noDirectory middle allocated =>
      obtain ⟨grows, _, _, served⟩ := kzalloc_grows sound allocated
      exact ⟨grows, served.imp fun holds => absurd rfl holds.1⟩
  | noItems directory middle last totalItems pos allocated made second =>
      obtain ⟨after, grows⟩ := kzalloc_small sound (by decide) (by decide) allocated
      obtain ⟨more, _, _, served⟩ := kzalloc_grows
        (show (middle.scanned pos).machine.HeapSound from after) second
      rw [Machine.obtained_of_ne made] at grows
      have counted := (grows.trans (scanned_grows after pos)).trans more
      have written : fs.Grows (last.setDirectory directory
          { FatDirectory.zero with total := BitVec.ofInt 32 totalItems, item := null }) _ :=
        counted.write rfl rfl rfl
        (grows.gains.fresh directory (List.mem_singleton_self directory))
        fun q different => last.setDirectory_sameAt different _
      have never : fs.machine.Ensures Request.Served last.machine False :=
        (grows.trans (scanned_grows after pos)).sound.after (served.imp fun holds => holds.1 rfl)
      unfold loadOut
      rw [if_pos (by decide), fat16FreeDirectory_empty made (by rw [setDirectory_directoryAt])]
      exact ⟨written.release, (never.congr rfl).imp False.elim⟩
  | read directory items middle last totalItems pos allocated made counted second found =>
      obtain ⟨after, grows⟩ := kzalloc_small sound (by decide) (by decide) allocated
      obtain ⟨more, fresh, held, served⟩ := kzalloc_grows
        (show (middle.scanned pos).machine.HeapSound from after) second
      rw [Machine.obtained_of_ne made] at grows
      have scan := grows.trans (scanned_grows after pos)
      have directoryFresh := grows.gains.fresh directory (List.mem_singleton_self directory)
      have itemsFresh : fs.machine.live items = none := by
        by_contra live
        exact grows.gains.kept items live (fresh found)
      have reading : ∀ {pointers}, fs.Grows last pointers → fs.Grows
          ((last.readItems item directory items (BitVec.ofInt 32 totalItems)).2.2.setBytes items
            (last.readItems item directory items (BitVec.ofInt 32 totalItems)).2.1) pointers := by
        intro pointers grown
        have written : fs.Grows (last.setDirectory directory
            { FatDirectory.zero with total := BitVec.ofInt 32 totalItems, item := items })
            pointers :=
          grown.write rfl rfl rfl directoryFresh fun q different =>
            last.setDirectory_sameAt different _
        have read : fs.Grows
            (last.readItems item directory items (BitVec.ofInt 32 totalItems)).2.2 pointers :=
          written.write rfl rfl rfl directoryFresh fun q _ => ⟨rfl, rfl, rfl, rfl, rfl⟩
        exact read.write rfl rfl rfl itemsFresh fun q different => setBytes_sameAt _ different _
      have content : (((last.readItems item directory items
          (BitVec.ofInt 32 totalItems)).2.2.setBytes items (last.readItems item directory items
            (BitVec.ofInt 32 totalItems)).2.1).directoryAt directory).item = items :=
        congrArg FatDirectory.item (last.setDirectory_directoryAt directory _)
      have readable : itemAttributes item &&& fatFileSubdirectory ≠ 0 →
          DirectoryReadable fs.volume item →
          0 ≤ (last.readItems item directory items (BitVec.ofInt 32 totalItems)).1 := by
        intro isDirectory readable
        rw [grows.volume] at counted
        have volume : last.volume = fs.volume := (scan.trans more).volume
        have status := readable isDirectory totalItems pos counted last.streams
        rwa [← volume] at status
      unfold loadOut
      split
      · rename_i failed
        rw [fat16FreeDirectory_items made content found]
        refine ⟨((reading (scan.trans more)).kfree itemsFresh ?_ ?_).release, ?_⟩
        · exact fun member => grows.gains.held items member (fresh found)
        · exact scan.sound.after (held.imp fun holds => holds found)
        · refine (scan.sound.after served).congr rfl |>.imp fun _ isDirectory canRead => ?_
          exact absurd failed (not_lt.mpr (readable isDirectory canRead))
      · refine ⟨(reading (scan.trans more)).none, ?_⟩
        refine (scan.sound.after served).congr rfl |>.imp fun holds _ _ => ?_
        rw [content]
        exact reading (scan.trans holds.2.1)

theorem fat16CloneDirectoryItem_grows {fs next : FileSystem} (sound : fs.machine.HeapSound)
    {item : List Byte} {cpy : Word}
    (cloned : fs.fat16CloneDirectoryItem item (BitVec.ofNat 32 sizeofFatDirectoryItem) =
    (cpy, next)) :
    fs.Grows next [] ∧ fs.machine.Ensures Request.Served next.machine (fs.Grows next [cpy]) := by
  unfold fat16CloneDirectoryItem at cloned
  rw [if_neg (by decide)] at cloned
  cases allocated : fs.kzalloc (BitVec.ofNat 32 sizeofFatDirectoryItem) with
  | mk p middle =>
      obtain ⟨grows, fresh, _, served⟩ := kzalloc_grows sound allocated
      rw [allocated] at cloned
      dsimp only at cloned
      by_cases isNull : p = null
      · rw [if_pos isNull] at cloned
        cases cloned
        exact ⟨grows, served.imp fun holds => absurd isNull holds.1⟩
      · rw [if_neg isNull] at cloned
        cases cloned
        have writes : ∀ {pointers}, fs.Grows middle pointers →
            fs.Grows (middle.setBytes cpy
              (item.take (BitVec.ofNat 32 sizeofFatDirectoryItem).toNat))
              pointers :=
          fun grown => grown.write rfl rfl rfl (fresh isNull) fun q different =>
            middle.setBytes_sameAt different _
        exact ⟨writes grows, (served.congr rfl).imp fun holds => writes holds.2.1⟩

/-- What an item refers to: a copy of its bytes, or a directory with its items. -/
def contents (fs : FileSystem) (item : Word) : List Word :=
  let record := fs.fatItemAt item
  if record.type = fatItemTypeDirectory then [(fs.directoryAt record.ref).item, record.ref]
  else [record.ref]

def IsItem (fs : FileSystem) (item : Word) : Prop :=
  (fs.fatItemAt item).type = fatItemTypeDirectory ∨ (fs.fatItemAt item).type = fatItemTypeFile

theorem setFatItem_fatItemAt (fs : FileSystem) (p : Word) (item : FatItem) :
    (fs.setFatItem p item).fatItemAt p = item := Function.update_self ..

theorem contents_directory {fs : FileSystem} {item ref : Word}
    (record : fs.fatItemAt item = ⟨ref, fatItemTypeDirectory⟩) :
    fs.contents item = [(fs.directoryAt ref).item, ref] := by
  unfold contents
  rw [record]
  exact if_pos rfl

theorem contents_file {fs : FileSystem} {item ref : Word}
    (record : fs.fatItemAt item = ⟨ref, fatItemTypeFile⟩) : fs.contents item = [ref] := by
  unfold contents
  rw [record]
  exact if_neg (show fatItemTypeFile ≠ fatItemTypeDirectory by decide)

/-- A new item, which is all new with what it refers to when every request is served. -/
theorem fat16NewFatItemForDirectoryItem_grows {fs next : FileSystem} (sound : fs.machine.HeapSound)
    {item : List Byte} {p : Word}
    (made : fs.fat16NewFatItemForDirectoryItem item = some (p, next)) :
    fs.Grows next (Machine.obtained p) ∧ (p ≠ null → next.IsItem p) ∧
      fs.machine.Ensures Request.Served next.machine
        (DirectoryReadable fs.volume item → fs.Grows next (next.contents p ++ [p])) := by
  unfold fat16NewFatItemForDirectoryItem at made
  cases allocated : fs.kzalloc sizeofFatItem with
  | mk fItem middle =>
      obtain ⟨after, grows⟩ := kzalloc_small sound (by decide) (by decide) allocated
      obtain ⟨_, fresh, _, served⟩ := kzalloc_grows sound allocated
      rw [allocated] at made
      dsimp only at made
      by_cases isNull : fItem = null
      · rw [if_pos isNull] at made
        cases made
        rw [isNull] at grows
        exact ⟨grows, fun found => absurd rfl found, served.imp fun holds => absurd isNull holds.1⟩
      · rw [if_neg isNull] at made
        rw [Machine.obtained_of_ne isNull] at grows
        have writes : ∀ {last : FileSystem} {pointers} record, fs.Grows last pointers →
            fs.Grows (last.setFatItem fItem record) pointers := fun record grown =>
          grown.write rfl rfl rfl (fresh isNull) fun q different => setFatItem_sameAt _ different _
        by_cases isDirectory : itemAttributes item &&& fatFileSubdirectory ≠ 0
        · rw [if_pos isDirectory, Option.bind_eq_bind, Option.bind_eq_some_iff] at made
          obtain ⟨⟨directory, last⟩, loaded, rest⟩ := made
          cases rest
          obtain ⟨more, full⟩ := fat16LoadFatDirectory_grows after loaded
          have record := last.setFatItem_fatItemAt p ⟨directory, fatItemTypeDirectory⟩
          rw [Machine.obtained_of_ne isNull, contents_directory record]
          refine ⟨writes _ (grows.trans more), fun _ => .inl (by rw [record]), ?_⟩
          refine (grows.sound.after full).congr rfl |>.imp fun holds readable => ?_
          rw [← grows.volume] at readable
          exact writes _ (grows.trans (holds isDirectory readable))
        · rw [if_neg isDirectory] at made
          cases cloned : middle.fat16CloneDirectoryItem item
              (BitVec.ofNat 32 sizeofFatDirectoryItem) with
          | mk cpy last =>
              rw [cloned] at made
              cases made
              obtain ⟨more, full⟩ := fat16CloneDirectoryItem_grows after cloned
              have record := last.setFatItem_fatItemAt p ⟨cpy, fatItemTypeFile⟩
              rw [Machine.obtained_of_ne isNull, contents_file record]
              refine ⟨writes _ (grows.trans more), fun _ => .inr (by rw [record]), ?_⟩
              exact (grows.sound.after full).congr rfl |>.imp fun holds _ =>
                writes _ (grows.trans holds)

/-- What the name finds in the root directory can be read if it is a directory. -/
def NameReadable (volume : Volume) (name : List Byte) : Prop :=
  ∀ i, fat16FindItemInDirectory.loop volume.rootItems volume.rootDirectory.total name = some i →
    DirectoryReadable volume (itemAt volume.rootItems i)

/-- A path of more than one part finds nothing. -/
theorem fat16GetDirectoryEntry_grows {fs next : FileSystem} (sound : fs.machine.HeapSound)
    {part : PathPart} {path : List PathPart} {p : Word}
    (entry : fs.fat16GetDirectoryEntry part path = some (p, next)) :
    fs.Grows next (Machine.obtained p) ∧ (p ≠ null → next.IsItem p) ∧
      fs.machine.Ensures Request.Served next.machine
        (p ≠ null → NameReadable fs.volume part.text → fs.Grows next (next.contents p ++ [p])) := by
  unfold fat16GetDirectoryEntry fat16FindItemInDirectory at entry
  rw [Option.bind_eq_bind, Option.bind_eq_some_iff] at entry
  obtain ⟨⟨rootItem, middle⟩, found, rest⟩ := entry
  dsimp only at rest
  cases search : fat16FindItemInDirectory.loop fs.volume.rootItems fs.volume.rootDirectory.total
      part.text with
  | none =>
      rw [search] at found
      cases found
      rw [if_pos rfl] at rest
      cases rest
      rw [Machine.obtained_null]
      exact ⟨.refl sound, fun found => absurd rfl found, .of_requests rfl fun found =>
        absurd rfl found⟩
  | some i =>
      rw [search] at found
      obtain ⟨grows, isItem, full⟩ := fat16NewFatItemForDirectoryItem_grows sound found
      by_cases isNull : rootItem = null
      · rw [if_pos isNull] at rest
        cases rest
        rw [isNull] at grows
        exact ⟨grows, fun found => absurd rfl found, full.imp fun _ found => absurd rfl found⟩
      · rw [if_neg isNull] at rest
        cases path with
        | nil =>
            cases rest
            exact ⟨grows, isItem, full.imp fun holds _ readable => holds (readable i search)⟩
        | cons nextPart path =>
            rw [fat16GetDirectoryEntry.loop_cons middle isNull] at rest
            cases rest
            rw [Machine.obtained_null]
            exact ⟨grows.none, fun found => absurd rfl found,
              full.imp fun _ found => absurd rfl found⟩

theorem setFatDescriptor_fatDescriptorAt (fs : FileSystem) (p : Word) (desc : FatFileDescriptor) :
    (fs.setFatDescriptor p desc).fatDescriptorAt p = desc := Function.update_self ..

/-- A descriptor that `fat16_open` returns comes with an item. -/
theorem fat16Open_grows {fs next : FileSystem} (sound : fs.machine.HeapSound) {part : PathPart}
    {path : List PathPart} {mode : FileMode} {p : Word}
    (opened : fs.fat16Open part path mode = some (p, next)) :
    fs.Grows next [] ∧ (0 ≤ p.toInt → fs.Grows next [(next.fatDescriptorAt p).item, p] ∧
      next.IsItem (next.fatDescriptorAt p).item ∧
      fs.machine.Ensures Request.Served next.machine (NameReadable fs.volume part.text →
        fs.Grows next (next.contents (next.fatDescriptorAt p).item ++
          [(next.fatDescriptorAt p).item, p]))) := by
  unfold fat16Open at opened
  split at opened
  · cases opened
    exact ⟨.refl sound, fun positive => absurd positive (by decide)⟩
  · cases allocated : fs.kzalloc sizeofFatFileDescriptor with
    | mk desc middle =>
        obtain ⟨after, grows⟩ := kzalloc_small sound (by decide) (by decide) allocated
        rw [allocated] at opened
        dsimp only at opened
        split at opened
        · cases opened
          exact ⟨grows.none, fun positive => absurd positive (by decide)⟩
        · rename_i made
          rw [Machine.obtained_of_ne made] at grows
          rw [Option.bind_eq_bind, Option.bind_eq_some_iff] at opened
          obtain ⟨⟨item, last⟩, entry, rest⟩ := opened
          obtain ⟨more, isItem, full⟩ := fat16GetDirectoryEntry_grows after entry
          have fresh := grows.gains.fresh desc (List.mem_singleton_self desc)
          have writes : ∀ {pointers}, fs.Grows last pointers →
              fs.Grows (last.setFatDescriptor desc ⟨item, 0⟩) pointers := fun grown =>
            grown.write rfl rfl rfl fresh fun q different =>
              last.setFatDescriptor_sameAt different _
          dsimp only at rest
          split at rest
          · cases rest
            exact ⟨(writes (grows.trans more.none)).release,
              fun positive => absurd positive (by decide)⟩
          · rename_i found
            cases rest
            rw [Machine.obtained_of_ne found] at more
            rw [last.setFatDescriptor_fatDescriptorAt]
            refine ⟨writes (grows.trans more).none,
              fun _ => ⟨writes (grows.trans more), isItem found, ?_⟩⟩
            refine (grows.sound.after full).congr rfl |>.imp fun holds readable => ?_
            rw [← grows.volume] at readable
            have whole := grows.trans (holds found readable)
            rw [List.append_assoc] at whole
            exact writes whole

/-- The objects of a descriptor: its two records, the item, and what the item refers to. -/
def objects (fs : FileSystem) (desc : Word) : List Word :=
  let privateData := (fs.fileDescriptorAt desc).privateData
  let item := (fs.fatDescriptorAt privateData).item
  desc :: (fs.contents item ++ [item, privateData])

/-- What `fopen` did. The heap is sound to the end only if every request is clean. -/
inductive OpenOutcome (fs : FileSystem) (filename : List Byte) : Int → FileSystem → Prop where
  | failed (status : Int) (next : FileSystem) (negative : status < 0) (grows : fs.Grows next [])
      (rooted : ¬ PathRejected filename → fs.machine.freeBlocks ≠ ∅ → ∃ root,
        fs.Grows next [root]) :
      OpenOutcome fs filename status next
  | opened (i : ℕ) (desc : Word) (middle : FileSystem)
      (slot : Searches.first (fun i => fs.fileDescriptors i = null) phixMaxFileDescriptors 0 =
        some i)
      (index : (middle.fileDescriptorAt desc).index = i + 1)
      (isItem : middle.IsItem
        (middle.fatDescriptorAt (middle.fileDescriptorAt desc).privateData).item)
      (gains : ∃ pointers, pointers.length = 5 ∧ fs.machine.Gains middle.machine pointers)
      (grows : fs.machine.Ensures Request.Clean middle.machine (fs.Grows middle []))
      (full : fs.machine.Ensures Request.Served middle.machine
        (NameReadable fs.volume (firstName filename) →
          desc ≠ null ∧ fs.Grows middle (middle.objects desc))) :
      OpenOutcome fs filename (i + 1)
        { middle with fileDescriptors := Function.update fs.fileDescriptors i desc }

theorem setFileDescriptor_fileDescriptorAt (fs : FileSystem) (p : Word) (desc : FileDescriptor) :
    (fs.setFileDescriptor p desc).fileDescriptorAt p = desc := Function.update_self ..

/-- An allocation ensures what it does of a sound heap. -/
theorem kzalloc_ensures {fs next : FileSystem} {size p : Word}
    (allocated : fs.kzalloc size = (p, next))
    {permitted : Request → Prop} {outcome : Prop}
    (holds : fs.machine.HeapSound → fs.machine.Ensures permitted next.machine outcome) :
    fs.machine.Ensures permitted next.machine (fs.machine.HeapSound → outcome) := by
  by_cases sound : fs.machine.HeapSound
  · exact (holds sound).imp fun outcome _ => outcome
  · have after : (fs.kzalloc size).2 = next := congrArg Prod.snd allocated
    subst after
    exact ⟨[fs.machine.request size], rfl, fun _ isSound => absurd isSound sound⟩

/-- The end of `fopen`: a descriptor is allocated for an open item. -/
theorem fileDescriptorNew_outcome {fs last : FileSystem} {filename : List Byte} {privateData : Word}
    {item : Word} (tracked : item = (last.fatDescriptorAt privateData).item) {pointers : List Word}
    (five : pointers.length = 5) (grows : fs.Grows last pointers) (isItem : last.IsItem item)
    (full : fs.machine.Ensures Request.Served last.machine
      (NameReadable fs.volume (firstName filename) →
        fs.Grows last (last.contents item ++ [item, privateData]))) {i : ℕ}
    (slot : Searches.first (fun i => last.fileDescriptors i = null) phixMaxFileDescriptors 0 =
    some i)
    {desc : Word} {next : FileSystem}
    (allocated : last.kzalloc sizeofFileDescriptor = (desc, next)) :
    OpenOutcome fs filename (i + 1)
      { next.setFileDescriptor desc ⟨i + 1, privateData⟩ with
        fileDescriptors := Function.update last.fileDescriptors i desc } := by
  have after : (last.kzalloc sizeofFileDescriptor).2 = next := congrArg Prod.snd allocated
  have kept : last.machine.Gains next.machine [] := after ▸ last.machine.kzalloc_kept .kernel _
  have record := next.setFileDescriptor_fileDescriptorAt desc ⟨i + 1, privateData⟩
  have isNew : last.machine.HeapSound → (desc ≠ null → last.machine.live desc = none) →
      fs.machine.live desc = none := by
    intro sound' fresh
    by_contra live
    refine grows.gains.kept desc live ?_
    by_cases isNull : desc = null
    · rw [isNull]
      exact sound'.live_null
    · exact fresh isNull
  have writes : ∀ {pointers}, fs.machine.live desc = none → fs.Grows next pointers →
      fs.Grows { next.setFileDescriptor desc ⟨i + 1, privateData⟩ with
        fileDescriptors := fs.fileDescriptors } pointers := by
    intro pointers fresh grown
    exact grown.write rfl rfl grown.fileDescriptors.symm fresh fun q different =>
      ⟨(next.setFileDescriptor_sameAt different _).fileDescriptor, rfl, rfl, rfl, rfl⟩
  have objects : (next.setFileDescriptor desc ⟨i + 1, privateData⟩).objects desc =
      desc :: (last.contents item ++ [item, privateData]) := by
    subst tracked after
    unfold FileSystem.objects
    rw [record]
    rfl
  rw [grows.fileDescriptors] at slot ⊢
  refine .opened i desc { next.setFileDescriptor desc ⟨i + 1, privateData⟩ with
    fileDescriptors := fs.fileDescriptors } slot (congrArg FileDescriptor.index record) ?_ ?_ ?_ ?_
  · subst tracked after
    rw [show ((last.kzalloc sizeofFileDescriptor).2.setFileDescriptor desc
      ⟨i + 1, privateData⟩).fileDescriptorAt desc = _ from record]
    exact isItem
  · exact ⟨_, five, grows.gains.trans kept⟩
  · refine (grows.sound.trans (kzalloc_ensures allocated fun sound' => ?_)).congr rfl
    obtain ⟨more, fresh, _⟩ := kzalloc_grows sound' allocated
    exact more.sound.imp fun _ => (writes (isNew sound' fresh) (grows.trans more)).none
  · have allocates := kzalloc_ensures allocated fun sound' => (kzalloc_grows sound' allocated).2.2.2
    refine (((grows.sound.mono fun _ => .inl).and full).trans
      (allocates.imp fun served before readable => ?_)).congr rfl
    obtain ⟨found, more, _⟩ := served before.1
    refine ⟨found, ?_⟩
    have all := writes (isNew before.1 (kzalloc_grows before.1 allocated).2.1)
      ((before.2 readable).trans more)
    exact objects ▸ all

theorem fileDescriptorNew_full {fs : FileSystem}
    (full : Searches.first (fun i => fs.fileDescriptors i = null) phixMaxFileDescriptors 0 = none) :
    fs.fileDescriptorNew = (-ENOMEM, null, fs) := by
  unfold fileDescriptorNew
  rw [full]

/-- The descriptor that `fopen` fills in after it was made. -/
theorem fileDescriptorNew_filled (fs : FileSystem) (privateData : Word) {i : ℕ}
    (slot : Searches.first (fun i => fs.fileDescriptors i = null) phixMaxFileDescriptors 0 =
    some i) :
    ∃ desc next, fs.kzalloc sizeofFileDescriptor = (desc, next) ∧ ∃ made,
      fs.fileDescriptorNew = (0, desc, made) ∧
      made.setFileDescriptor desc { made.fileDescriptorAt desc with privateData } =
        { next.setFileDescriptor desc ⟨i + 1, privateData⟩ with
          fileDescriptors := Function.update fs.fileDescriptors i desc } := by
  cases allocated : fs.kzalloc sizeofFileDescriptor with
  | mk desc next =>
      have after : (fs.kzalloc sizeofFileDescriptor).2 = next := congrArg Prod.snd allocated
      refine ⟨desc, next, rfl, { next.setFileDescriptor desc ⟨i + 1, null⟩ with
        fileDescriptors := Function.update fs.fileDescriptors i desc }, ?_, ?_⟩
      · unfold fileDescriptorNew
        rw [slot]
        dsimp only
        rw [allocated]
        subst after
        rfl
      · unfold setFileDescriptor
        dsimp only
        rw [Function.update_self, Function.update_idem]

theorem fopen_outcome {fs next : FileSystem} (sound : fs.machine.HeapSound)
    {filename modeStr : List Byte} {status : Int}
    (opened : fs.fopen filename modeStr = some (status, next)) :
    OpenOutcome fs filename status next := by
  unfold fopen at opened
  cases parsed : fs.pparserParse filename with
  | mk result middle =>
      rw [parsed] at opened
      cases result with
      | none =>
          have none : (fs.pparserParse filename).1 = none := by rw [parsed]
          cases opened
          refine .failed _ _ (by decide) (pparserParse_grows_none sound parsed) fun accepted room =>
            ?_
          exact absurd ((fs.pparserParse_eq_none filename).mp none) (not_or.mpr ⟨accepted, room⟩)
      | some root =>
          obtain ⟨root, driveNo, parts⟩ := root
          obtain ⟨_, after, grows, text⟩ := pparserParse_grows sound parsed
          have rooted : fs.Grows middle [root] := grows.sublist (List.sublist_append_right _ _)
          have failing : ∀ {code : Int}, code < 0 → some (code, middle) = some (status, next) →
              OpenOutcome fs filename status next := by
            intro code negative same
            cases same
            exact .failed _ _ negative rooted.none fun _ _ => ⟨root, rooted⟩
          dsimp only at opened
          cases parts with
          | nil => exact failing (by decide) opened
          | cons part path =>
              dsimp only at opened
              split at opened
              · exact failing (by decide) opened
              split at opened
              · exact failing (by decide) opened
              split at opened
              · exact failing (by decide) opened
              rw [Option.bind_eq_bind, Option.bind_eq_some_iff] at opened
              obtain ⟨⟨privateData, last⟩, entry, rest⟩ := opened
              obtain ⟨kept, item⟩ := fat16Open_grows after entry
              dsimp only at rest
              split at rest
              · rename_i negative
                cases rest
                exact .failed _ _ negative (rooted.trans kept).none fun _ _ =>
                  ⟨root, rooted.trans kept⟩
              · rename_i positive
                obtain ⟨more, isItem, full⟩ := item (not_lt.mp positive)
                cases slot : Searches.first (fun i => last.fileDescriptors i = null)
                    phixMaxFileDescriptors 0 with
                | none =>
                    rw [fileDescriptorNew_full slot] at rest
                    dsimp only at rest
                    rw [if_pos (by decide)] at rest
                    cases rest
                    exact .failed _ _ (by decide) (rooted.trans kept).none fun _ _ =>
                      ⟨root, rooted.trans kept⟩
                | some i =>
                    obtain ⟨desc, allocatedState, allocated, made, new, filled⟩ :=
                      last.fileDescriptorNew_filled privateData slot
                    rw [new] at rest
                    dsimp only at rest
                    rw [if_neg (lt_irrefl 0), filled] at rest
                    obtain ⟨index, state⟩ := Prod.mk.inj (Option.some.inj rest)
                    have number : (i : Int) + 1 = status := by
                      rw [← index]
                      exact (congrArg FileDescriptor.index
                        (allocatedState.setFileDescriptor_fileDescriptorAt
                        desc ⟨i + 1, privateData⟩)).symm
                    rw [← state, ← number]
                    refine fileDescriptorNew_outcome rfl rfl
                      (grows.trans more) isItem ?_ slot allocated
                    refine grows.sound.after full |>.imp fun holds readable => ?_
                    rw [← grows.volume, ← text part rfl] at readable
                    exact (rooted.none.trans (holds readable)).sublist
                      (List.sublist_append_left _ _)

end FileSystem

end Phix
