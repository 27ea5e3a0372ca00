import Phix.Fs.Opening
import Phix.Fs.Position

/-! # Opening with room in the heap

While eight blocks are free, opening a regular file of the root directory succeeds and takes at
most eight (`Phix.FileSystem.fopen_succeeds`).
-/

namespace Phix

namespace FileSystem

/-- At most `n` free blocks are spent on requests that are served, and the volume and the table of
descriptors are the same. -/
structure Spends (fs next : FileSystem) (n : ℕ) : Prop where
  served : fs.machine.Permits Request.Served next.machine
  sound : next.machine.HeapSound
  room : fs.machine.freeBlocks.card ≤ next.machine.freeBlocks.card + n
  volume : next.volume = fs.volume
  mounted : next.mounted = fs.mounted
  fileDescriptors : next.fileDescriptors = fs.fileDescriptors

theorem Spends.trans {fs middle next : FileSystem} {n m : ℕ} (first : fs.Spends middle n)
    (second : middle.Spends next m) : fs.Spends next (n + m) where
  served := first.served.trans second.served
  sound := second.sound
  room := by
    have earlier := first.room
    have later := second.room
    omega
  volume := second.volume.trans first.volume
  mounted := second.mounted.trans first.mounted
  fileDescriptors := second.fileDescriptors.trans first.fileDescriptors

theorem kzalloc_spends {fs : FileSystem} (sound : fs.machine.HeapSound) {size : Word}
    (positive : 1 ≤ size.toNat) (small : size.toNat ≤ 4096)
    (room : 1 ≤ fs.machine.freeBlocks.card) :
    ∃ p next, fs.kzalloc size = (p, next) ∧ p ≠ null ∧ 0 ≤ p.toInt ∧ next.machine.live p ≠ none ∧
      fs.Spends next 1 := by
  obtain ⟨found, takes⟩ := sound.kzalloc_block .kernel positive small (Finset.card_pos.mp room)
  have proper : Proper size := ⟨positive, by unfold maxRequest; omega⟩
  have cleared := sound.kzalloc .kernel proper found
  obtain ⟨s, inside, pointer⟩ := cleared.pool
  have granted := fs.machine.request_served positive small (Finset.card_pos.mp room)
  refine ⟨(fs.kzalloc size).1, (fs.kzalloc size).2, rfl, found, ?_, ?_,
    ⟨[fs.machine.request size], rfl, fun request member => List.mem_singleton.mp member ▸ granted⟩,
    cleared.sound,
    takes.card.ge, rfl, rfl, rfl⟩
  · change 0 ≤ (fs.machine.kzalloc .kernel size).1.toInt
    rw [pointer, BitVec.toInt_eq_toNat_of_lt (by rw [poolBlock_toNat inside]; omega)]
    exact Int.natCast_nonneg _
  · exact fun none => Option.some_ne_none _ (cleared.held.symm.trans none)

theorem kfree_spends {fs next : FileSystem} {n : ℕ} (spends : fs.Spends next n) {p : Word}
    (held : next.machine.live p ≠ none) : fs.Spends (next.kfree p) n where
  served := spends.served
  sound := by
    obtain ⟨allocation, isLive⟩ := Option.ne_none_iff_exists'.mp held
    exact spends.sound.kfree isLive
  room := spends.room.trans
    (Nat.add_le_add_right (Finset.card_le_card (next.machine.freeBlocks_kfree p)) n)
  volume := spends.volume
  mounted := spends.mounted
  fileDescriptors := spends.fileDescriptors

/-! Parsing a path of one part. -/

theorem pparserParsePathPart_spends {fs : FileSystem} (sound : fs.machine.HeapSound)
    {path : List Byte} (named : path.takeWhile (fun c => c ≠ 0x2F) ≠ [])
    (room : 2 ≤ fs.machine.freeBlocks.card) :
    ∃ part next, fs.pparserParsePathPart path =
        (some part, (path.dropWhile fun c => c ≠ 0x2F).tail, next) ∧
      part.text = path.takeWhile (fun c => c ≠ 0x2F) ∧ fs.Spends next 2 := by
  obtain ⟨buffer, middle, allocated, found, _, _, spends⟩ := kzalloc_spends sound
    (show 1 ≤ ((phixMaxPath : ℕ) : Word).toNat by decide) (by decide) (by omega)
  have spent := spends.room
  obtain ⟨part, next, second, made, _, _, more⟩ := kzalloc_spends spends.sound
    (show 1 ≤ sizeofPathPart.toNat by decide) (by decide) (by omega)
  refine ⟨⟨part, buffer, _⟩, next, ?_, rfl, spends.trans more⟩
  unfold pparserParsePathPart pparserGetPathPart
  rw [allocated]
  dsimp only
  rw [if_neg named]
  dsimp only
  rw [if_neg found, second]
  dsimp only
  rw [if_neg made]

theorem pparserParsePathPart_spends_none {fs : FileSystem} (sound : fs.machine.HeapSound)
    {path : List Byte} (unnamed : path.takeWhile (fun c => c ≠ 0x2F) = [])
    (room : 1 ≤ fs.machine.freeBlocks.card) :
    ∃ next, fs.pparserParsePathPart path =
      (none, (path.dropWhile fun c => c ≠ 0x2F).tail, next) ∧ fs.Spends next 1 := by
  obtain ⟨buffer, middle, allocated, _, _, held, spends⟩ := kzalloc_spends sound
    (show 1 ≤ ((phixMaxPath : ℕ) : Word).toNat by decide) (by decide) room
  refine ⟨middle.kfree buffer, ?_, kfree_spends spends held⟩
  unfold pparserParsePathPart pparserGetPathPart
  rw [allocated]
  dsimp only
  rw [if_pos unnamed]
  rfl

/-- A part takes two blocks, or none when there is none. -/
theorem pparserParsePathPart_spent {fs : FileSystem} (sound : fs.machine.HeapSound)
    (path : List Byte) (room : 2 ≤ fs.machine.freeBlocks.card) :
    ∃ n ≤ 2, fs.Spends (fs.pparserParsePathPart path).2.2 n := by
  by_cases named : path.takeWhile (fun c => c ≠ 0x2F) = []
  · obtain ⟨next, parsed, spends⟩ := pparserParsePathPart_spends_none sound named (by omega)
    rw [parsed]
    exact ⟨1, by decide, spends⟩
  · obtain ⟨part, next, parsed, -, spends⟩ := pparserParsePathPart_spends sound named room
    rw [parsed]
    exact ⟨2, le_rfl, spends⟩

/-- The parts of a path are made while there are two blocks for each of its characters. -/
theorem pparserParse.loop_spent {fs : FileSystem} (sound : fs.machine.HeapSound) {path : List Byte}
    (room : 2 * path.length + 2 ≤ fs.machine.freeBlocks.card) :
    ∃ n, fs.Spends (pparserParse.loop fs path).2 n := by
  induction fs, path using pparserParse.loop.induct with
  | case1 fs path rest middle none =>
      obtain ⟨n, -, spends⟩ := pparserParsePathPart_spent sound path (by omega)
      rw [none] at spends
      refine ⟨n, ?_⟩
      rw [pparserParse.loop]
      split
      · rename_i same
        cases none.symm.trans same
        exact spends
      · rename_i same
        cases none.symm.trans same
  | case2 fs path part rest middle found others last looped ih =>
      obtain ⟨n, few, spends⟩ := pparserParsePathPart_spent sound path (by omega)
      have shorter := pparserParsePathPart_shorter found
      rw [found] at spends
      have left := spends.room
      dsimp only at left
      obtain ⟨m, more⟩ := ih spends.sound (by omega)
      refine ⟨n + m, ?_⟩
      rw [pparserParse.loop]
      split
      · rename_i same
        cases found.symm.trans same
      · rename_i same
        cases found.symm.trans same
        exact spends.trans more

theorem pparserParse_spends {fs : FileSystem} (sound : fs.machine.HeapSound) {path name : List Byte}
    (accepted : ¬ PathRejected path) (rest : (pparserGetDriveByPath path).2 = name)
    (named : name ≠ []) (single : ∀ c ∈ name, c ≠ 0x2F) (room : 4 ≤ fs.machine.freeBlocks.card) :
    ∃ root part next, fs.pparserParse path = (some ⟨root, 0, [part]⟩, next) ∧ part.text = name ∧
      fs.Spends next 4 := by
  have whole : name.takeWhile (fun c => c ≠ 0x2F) = name :=
    List.takeWhile_eq_self_iff.mpr fun c member => decide_eq_true (single c member)
  have nothing : (name.dropWhile fun c => c ≠ 0x2F) = [] :=
    List.dropWhile_eq_nil_iff.mpr fun c member => decide_eq_true (single c member)
  obtain ⟨root, middle, allocated, found, _, _, spends⟩ := kzalloc_spends sound
    (show 1 ≤ sizeofPathRoot.toNat by decide) (by decide) (by omega)
  have first := spends.room
  obtain ⟨part, parsed, result, text, more⟩ := pparserParsePathPart_spends spends.sound
    (show name.takeWhile (fun c => c ≠ 0x2F) ≠ [] by rwa [whole]) (by omega)
  have second := more.room
  obtain ⟨next, ended, last⟩ := pparserParsePathPart_spends_none more.sound
    (show [].takeWhile (fun c : Byte => decide (c ≠ 0x2F)) = [] from rfl) (by omega)
  rw [nothing] at result
  have empty : pparserParse.loop parsed [] = ([], next) := by
    rw [pparserParse.loop]
    split
    · rename_i same
      cases ended.symm.trans same
      rfl
    · rename_i same
      cases ended.symm.trans same
  have looped : pparserParse.loop middle name = ([part], next) := by
    rw [pparserParse.loop]
    split
    · rename_i same
      cases result.symm.trans same
    · rename_i same
      cases result.symm.trans same
      rw [List.tail_nil, empty]
  refine ⟨root, part, next, ?_, text.trans whole, (spends.trans more).trans last⟩
  rw [fs.pparserParse_accepted accepted, allocated, rest]
  dsimp only
  rw [if_neg found, looped]

/-- A path is parsed while there are two blocks for each of its characters. -/
theorem pparserParse_spent {fs : FileSystem} (sound : fs.machine.HeapSound) {path : List Byte}
    (accepted : ¬ PathRejected path) (room : 2 * path.length + 3 ≤ fs.machine.freeBlocks.card) :
    ∃ n, fs.Spends (fs.pparserParse path).2 n := by
  obtain ⟨root, middle, allocated, found, _, _, spends⟩ := kzalloc_spends sound
    (show 1 ≤ sizeofPathRoot.toNat by decide) (by decide) (by omega)
  have left := spends.room
  have shorter : (pparserGetDriveByPath path).2.length ≤ path.length := by
    unfold pparserGetDriveByPath
    split
    · exact le_rfl
    · exact path.length_drop.trans_le (Nat.sub_le ..)
  obtain ⟨n, more⟩ := pparserParse.loop_spent spends.sound
    (show 2 * (pparserGetDriveByPath path).2.length + 2 ≤ _ by omega)
  refine ⟨1 + n, ?_⟩
  rw [fs.pparserParse_accepted accepted, allocated]
  dsimp only
  rw [if_neg found]
  exact spends.trans more

/-! Opening a regular file of the root directory. -/

/-- The name is that of a regular file in the root directory. -/
def NamesFile (volume : Volume) (name : List Byte) : Prop :=
  ∃ i, fat16FindItemInDirectory.loop volume.rootItems volume.rootDirectory.total name = some i ∧
    itemAttributes (itemAt volume.rootItems i) &&& fatFileSubdirectory = 0

/-- With a free block the copy of an item is made. -/
theorem fat16CloneDirectoryItem_spends {fs : FileSystem} (sound : fs.machine.HeapSound)
    (room : 1 ≤ fs.machine.freeBlocks.card) (item : List Byte) :
    ∃ cpy last, fs.fat16CloneDirectoryItem item (BitVec.ofNat 32 sizeofFatDirectoryItem) =
      (cpy, last) ∧ (∀ p, fs.machine.live p ≠ none → last.machine.live p ≠ none) ∧
        last.machine.live cpy ≠ none ∧ last.bytesAt cpy = item.take sizeofFatDirectoryItem ∧
        fs.Spends last 1 := by
  obtain ⟨cpy, last, allocated, made, -, held, spends⟩ := kzalloc_spends sound
    (show 1 ≤ (BitVec.ofNat 32 sizeofFatDirectoryItem : Word).toNat by decide) (by decide) room
  have after : (fs.kzalloc (BitVec.ofNat 32 sizeofFatDirectoryItem)).2 = last :=
    congrArg Prod.snd allocated
  refine ⟨cpy, last.setBytes cpy (item.take sizeofFatDirectoryItem), ?_, ?_, held,
    Function.update_self .., ⟨spends.served, spends.sound, spends.room, spends.volume,
      spends.mounted, spends.fileDescriptors⟩⟩
  · unfold fat16CloneDirectoryItem
    rw [if_neg (by decide), allocated]
    dsimp only
    rw [if_neg made]
    rfl
  · rw [← after]
    exact (fs.machine.kzalloc_kept .kernel _).kept

/-- The item of the root directory that is found by a name, as it is copied. -/
def FindsItem (volume : Volume) (name bytes : List Byte) : Prop :=
  ∃ i, fat16FindItemInDirectory.loop volume.rootItems volume.rootDirectory.total name = some i ∧
    bytes = (itemAt volume.rootItems i).take sizeofFatDirectoryItem

/-- The item is a regular file with these bytes. -/
structure IsFile (fs : FileSystem) (item : Word) (bytes : List Byte) : Prop where
  regular : (fs.fatItemAt item).type = fatItemTypeFile
  copied : fs.bytesAt (fs.fatItemAt item).ref = bytes

theorem fat16GetDirectoryEntry_spends {fs : FileSystem} (sound : fs.machine.HeapSound)
    {part : PathPart} (file : NamesFile fs.volume part.text)
    (room : 2 ≤ fs.machine.freeBlocks.card) :
    ∃ item next, fs.fat16GetDirectoryEntry part [] = some (item, next) ∧ item ≠ null ∧
      (∀ bytes, FindsItem fs.volume part.text bytes → next.IsFile item bytes) ∧
      fs.Spends next 2 := by
  obtain ⟨i, search, regular⟩ := file
  obtain ⟨item, middle, allocated, found, _, _, spends⟩ := kzalloc_spends sound
    (show 1 ≤ sizeofFatItem.toNat by decide) (by decide) (by omega)
  have spent := spends.room
  obtain ⟨cpy, last, cloned, _, _, copied, more⟩ :=
    fat16CloneDirectoryItem_spends spends.sound (by omega) (itemAt fs.volume.rootItems i)
  have both := spends.trans more
  refine ⟨item, last.setFatItem item ⟨cpy, fatItemTypeFile⟩, ?_, found, ?_,
    ⟨both.served, both.sound, both.room, both.volume, both.mounted, both.fileDescriptors⟩⟩
  swap
  · rintro _ ⟨j, same, rfl⟩
    obtain rfl : i = j := Option.some.inj (search.symm.trans same)
    have record := last.setFatItem_fatItemAt item ⟨cpy, fatItemTypeFile⟩
    exact ⟨congrArg FatItem.type record, by rw [record]; exact copied⟩
  unfold fat16GetDirectoryEntry fat16FindItemInDirectory
  rw [search]
  unfold fat16NewFatItemForDirectoryItem
  rw [allocated]
  dsimp only
  rw [if_neg found, if_neg (not_not_intro regular), cloned]
  simp only [Option.bind_eq_bind, Option.bind_some, if_neg found]
  rfl

theorem fat16Open_spends {fs : FileSystem} (sound : fs.machine.HeapSound) {part : PathPart}
    (file : NamesFile fs.volume part.text) (room : 3 ≤ fs.machine.freeBlocks.card) :
    ∃ desc next, fs.fat16Open part [] .read = some (desc, next) ∧ 0 ≤ desc.toInt ∧
      (next.fatDescriptorAt desc).pos = 0 ∧
      (∀ bytes, FindsItem fs.volume part.text bytes →
        next.IsFile (next.fatDescriptorAt desc).item bytes) ∧
      fs.Spends next 3 := by
  obtain ⟨desc, middle, allocated, made, positive, _, spends⟩ := kzalloc_spends sound
    (show 1 ≤ sizeofFatFileDescriptor.toNat by decide) (by decide) (by omega)
  have spent := spends.room
  obtain ⟨item, last, entry, found, isFile, more⟩ := fat16GetDirectoryEntry_spends spends.sound
    (show NamesFile middle.volume part.text from spends.volume ▸ file) (by omega)
  have both := spends.trans more
  have record := last.setFatDescriptor_fatDescriptorAt desc ⟨item, 0⟩
  refine ⟨desc, last.setFatDescriptor desc ⟨item, 0⟩, ?_, positive,
    congrArg FatFileDescriptor.pos record, fun bytes finds => ?_,
    ⟨both.served, both.sound, both.room, both.volume, both.mounted, both.fileDescriptors⟩⟩
  swap
  · rw [record]
    rw [← spends.volume] at finds
    exact ⟨(isFile bytes finds).regular, (isFile bytes finds).copied⟩
  unfold fat16Open
  rw [if_neg (by decide), allocated]
  dsimp only
  rw [if_neg made, entry]
  simp only [Option.bind_eq_bind, Option.bind_some, if_neg found]

/-- The number is that of a regular file with these bytes as its item, at the start of the file. -/
structure ServesFile (fs : FileSystem) (fd : Int) (bytes : List Byte) : Prop where
  opens : fs.OpensFile fd
  atStart : fs.position fd = 0
  copied : fs.bytesAt (fs.itemOf fd).ref = bytes

/-- With a free slot and eight free blocks, opening a regular file of the root directory
succeeds. The file can be read with the number unless it is that of the last slot. -/
theorem fopen_succeeds {fs : FileSystem} (sound : fs.machine.HeapSound)
    (mounted : fs.mounted = true)
    {filename name : List Byte} (accepted : ¬ PathRejected filename)
    (rest : (pparserGetDriveByPath filename).2 = name) (named : name ≠ [])
    (single : ∀ c ∈ name, c ≠ 0x2F) (file : NamesFile fs.volume name) {i : ℕ}
    (slot : Searches.first (fun i => fs.fileDescriptors i = null) phixMaxFileDescriptors 0 = some i)
    (room : 8 ≤ fs.machine.freeBlocks.card) :
    ∃ desc next, fs.fopen filename [0x72] = some ((i : Int) + 1, next) ∧ desc ≠ null ∧
      next.fileDescriptors = Function.update fs.fileDescriptors i desc ∧
      next.machine.HeapSound ∧ next.volume = fs.volume ∧ next.mounted = fs.mounted ∧
      fs.machine.freeBlocks.card ≤ next.machine.freeBlocks.card + 8 ∧
      fs.machine.Permits Request.Served next.machine ∧
      (i + 1 < phixMaxFileDescriptors → ∀ bytes, FindsItem fs.volume name bytes →
        next.ServesFile (i + 1) bytes) := by
  obtain ⟨root, part, parsed, parses, text, spends⟩ :=
    pparserParse_spends sound accepted rest named single (by omega)
  have first := spends.room
  obtain ⟨privateData, opened, opens, positive, start, isFile, more⟩ :=
    fat16Open_spends spends.sound
      (show NamesFile parsed.volume part.text by rw [spends.volume, text]; exact file) (by omega)
  have both := spends.trans more
  have second := both.room
  rw [← both.fileDescriptors] at slot ⊢
  obtain ⟨desc, allocatedState, allocated, made, new, filled⟩ :=
    opened.fileDescriptorNew_filled privateData slot
  obtain ⟨desc', last, again, found, _, _, end'⟩ := kzalloc_spends both.sound
    (show 1 ≤ sizeofFileDescriptor.toNat by decide) (by decide) (by omega)
  cases allocated.symm.trans again
  have all := both.trans end'
  refine ⟨desc, { allocatedState.setFileDescriptor desc ⟨i + 1, privateData⟩ with
    fileDescriptors := Function.update opened.fileDescriptors i desc }, ?_, found, rfl, all.sound,
    all.volume, all.mounted, all.room, all.served, fun below bytes finds => ?_⟩
  swap
  · have after : (opened.kzalloc sizeofFileDescriptor).2 = allocatedState :=
      congrArg Prod.snd again
    subst after
    rw [← text, ← spends.volume] at finds
    generalize resulting : FileSystem.mk _ _ _ _ _ _ _ _ _ _ = next
    have descriptor : next.fileDescriptorGet (i + 1) = desc := by
      unfold fileDescriptorGet
      rw [if_neg (by omega), ← resulting, show ((i : Int) + 1 - 1).toNat = i by omega]
      exact Function.update_self ..
    have owner : next.fatDescriptorOf (i + 1) = privateData := by
      unfold fatDescriptorOf
      rw [descriptor, ← resulting]
      exact congrArg FileDescriptor.privateData
        ((opened.kzalloc sizeofFileDescriptor).2.setFileDescriptor_fileDescriptorAt desc
          ⟨i + 1, privateData⟩)
    have file := isFile bytes finds
    refine ⟨⟨descriptor ▸ found, ?_⟩, ?_, ?_⟩
    · unfold itemOf
      rw [owner, ← resulting]
      exact file.regular
    · unfold position
      rw [owner, ← resulting]
      exact start
    · unfold itemOf
      rw [owner, ← resulting]
      exact file.copied
  have readMode : fileGetModeByString [0x72] = .read := by decide
  have drive : diskGet 0 = true := by decide
  have number := congrArg FileDescriptor.index
    (allocatedState.setFileDescriptor_fileDescriptorAt desc ⟨i + 1, privateData⟩)
  unfold fopen
  rw [parses]
  dsimp only
  rw [if_neg (not_not_intro drive), if_neg (not_not_intro (spends.mounted.trans mounted)), readMode,
    if_neg (by decide), opens]
  simp only [Option.bind_eq_bind, Option.bind_some, if_neg (not_lt.mpr positive), new]
  rw [if_neg (lt_irrefl 0), filled]
  exact congrArg some (Prod.ext number rfl)

end FileSystem

end Phix
