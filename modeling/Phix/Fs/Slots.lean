import Phix.Fs.Opening
import Phix.Fs.Position

/-! # The slots of the descriptor table

Only two functions write the descriptor table: `file_descriptor_new` fills the first free slot, and
`file_descriptor_free` clears the one with the descriptor's number. Everything else that `fopen`,
`fread` and `fclose` call leaves the table and its records alone (`Phix.FileSystem.SameTable`),
whatever the heap answers.
-/

namespace Phix

namespace FileSystem

/-- The descriptor table, its records and the volume are the same. -/
structure SameTable (fs next : FileSystem) : Prop where
  slots : next.fileDescriptors = fs.fileDescriptors
  records : next.fileDescriptorAt = fs.fileDescriptorAt
  volume : next.volume = fs.volume

namespace SameTable

variable {fs middle next : FileSystem}

/-- Every state has its own table. -/
theorem refl (fs : FileSystem) : fs.SameTable fs := ⟨rfl, rfl, rfl⟩

/-- What two steps leave alone, the two together leave alone. -/
theorem trans (first : fs.SameTable middle) (second : middle.SameTable next) : fs.SameTable next :=
  ⟨second.slots.trans first.slots, second.records.trans first.records,
    second.volume.trans first.volume⟩

/-- An allocation touches the machine only. -/
theorem kzalloc (fs : FileSystem) (size : Word) : fs.SameTable (fs.kzalloc size).2 :=
  ⟨rfl, rfl, rfl⟩

/-- A release touches the machine only. -/
theorem kfree (fs : FileSystem) (p : Word) : fs.SameTable (fs.kfree p) := ⟨rfl, rfl, rfl⟩

end SameTable

/-! `fs/pparser.c` -/

/-- A part of a path is two allocations at most. -/
theorem pparserParsePathPart_sameTable (fs : FileSystem) (path : List Byte) :
    fs.SameTable (fs.pparserParsePathPart path).2.2 := by
  unfold pparserParsePathPart pparserGetPathPart
  dsimp only
  split
  · exact (SameTable.kzalloc fs _).trans (.kfree _ _)
  · split
    · exact .kzalloc fs _
    · split
      · exact (SameTable.kzalloc fs _).trans (.kzalloc _ _)
      · exact (SameTable.kzalloc fs _).trans (.kzalloc _ _)

/-- The parts of a path, by induction on the rounds of the loop. -/
theorem pparserParse_loop_sameTable (fs : FileSystem) (path : List Byte) :
    fs.SameTable (pparserParse.loop fs path).2 := by
  induction fs, path using pparserParse.loop.induct with
  | case1 fs path rest middle parsed =>
      have same := fs.pparserParsePathPart_sameTable path
      unfold pparserParse.loop
      split
      · rename_i again
        rw [again] at same
        exact same
      · rename_i again
        cases parsed.symm.trans again
  | case2 fs path part rest middle parsed others last looped ih =>
      have same := fs.pparserParsePathPart_sameTable path
      rw [parsed] at same
      rw [looped] at ih
      rw [pparserParse.loop]
      split
      · rename_i again
        cases parsed.symm.trans again
      · rename_i again
        cases parsed.symm.trans again
        rw [looped]
        exact same.trans ih

/-- Parsing a path leaves the table alone. -/
theorem pparserParse_sameTable (fs : FileSystem) (path : List Byte) :
    fs.SameTable (fs.pparserParse path).2 := by
  by_cases rejected : PathRejected path
  · rw [fs.pparserParse_rejected rejected]
    exact .refl fs
  · rw [fs.pparserParse_accepted rejected]
    split
    · exact .kzalloc fs _
    · exact (SameTable.kzalloc fs _).trans (pparserParse_loop_sameTable _ _)

/-! `fs/fat/fat16.c` -/

/-- Releasing a directory leaves the table alone. -/
theorem fat16FreeDirectory_sameTable (fs : FileSystem) (directory : Word) :
    fs.SameTable (fs.fat16FreeDirectory directory) := by
  unfold fat16FreeDirectory
  split
  · exact .refl fs
  · dsimp only
    split
    · exact (SameTable.kfree fs _).trans (.kfree _ _)
    · exact .kfree fs _

/-- Releasing an item leaves the table alone. -/
theorem fat16FreeItem_sameTable {fs next : FileSystem} {item : Word}
    (freed : fs.fat16FreeItem item = some next) : fs.SameTable next := by
  unfold fat16FreeItem at freed
  dsimp only at freed
  split at freed
  · cases freed
    exact fs.fat16FreeDirectory_sameTable _
  · split at freed
    · cases freed
      exact .kfree fs _
    · cases freed

/-- The end of `fat16_load_fat_directory` leaves the table alone. -/
theorem loadOut_sameTable (fs : FileSystem) (directory : Word) (ret : Int) :
    fs.SameTable (fs.loadOut directory ret).2 := by
  unfold loadOut
  split
  · exact fs.fat16FreeDirectory_sameTable directory
  · exact .refl fs

/-- Loading a directory leaves the table alone, wherever it stops. -/
theorem fat16LoadFatDirectory_sameTable {fs : FileSystem} {item : List Byte}
    {result : Word × FileSystem} (loaded : fs.fat16LoadFatDirectory item = some result) :
    fs.SameTable result.2 := by
  have allocates : ∀ {state after : FileSystem} {size p : Word},
      state.kzalloc size = (p, after) → state.SameTable after := by
    intro state after size p allocated
    have next : (state.kzalloc size).2 = after := congrArg Prod.snd allocated
    exact next ▸ .kzalloc state size
  cases fat16LoadFatDirectory_outcome loaded with
  | notDirectory => exact .refl fs
  | noDirectory middle allocated => exact allocates allocated
  | noItems directory middle last totalItems pos allocated made second =>
      have counted : middle.SameTable (middle.scanned pos) := ⟨rfl, rfl, rfl⟩
      have same := ((allocates allocated).trans counted).trans (allocates second)
      have out := loadOut_sameTable (last.setDirectory directory
        { FatDirectory.zero with total := BitVec.ofInt 32 totalItems, item := null }) directory
        (-ENOMEM)
      exact same.trans ⟨out.slots, out.records, out.volume⟩
  | read directory items middle last totalItems pos allocated made counted second found =>
      have counted : middle.SameTable (middle.scanned pos) := ⟨rfl, rfl, rfl⟩
      have same := ((allocates allocated).trans counted).trans (allocates second)
      have out := loadOut_sameTable
        ((last.readItems item directory items (BitVec.ofInt 32 totalItems)).2.2.setBytes items
          (last.readItems item directory items (BitVec.ofInt 32 totalItems)).2.1) directory
        (last.readItems item directory items (BitVec.ofInt 32 totalItems)).1
      exact same.trans ⟨out.slots, out.records, out.volume⟩

/-- A new item, directory or file, leaves the table alone. -/
theorem fat16NewFatItemForDirectoryItem_sameTable {fs next : FileSystem} {item : List Byte}
    {p : Word} (made : fs.fat16NewFatItemForDirectoryItem item = some (p, next)) :
    fs.SameTable next := by
  unfold fat16NewFatItemForDirectoryItem at made
  dsimp only at made
  split at made
  · cases made
    exact .kzalloc fs _
  · split at made
    · obtain ⟨⟨directory, last⟩, loaded, rest⟩ := Option.bind_eq_some_iff.mp made
      cases Option.some.inj rest
      have same := fat16LoadFatDirectory_sameTable loaded
      exact (SameTable.kzalloc fs _).trans ⟨same.slots, same.records, same.volume⟩
    · cases Option.some.inj made
      unfold fat16CloneDirectoryItem
      split
      · exact ⟨rfl, rfl, rfl⟩
      · dsimp only
        split <;> exact ⟨rfl, rfl, rfl⟩

/-- A search leaves the table alone. -/
theorem fat16FindItemInDirectory_sameTable {fs next : FileSystem} {items name : List Byte}
    {total p : Word} (found : fs.fat16FindItemInDirectory items total name = some (p, next)) :
    fs.SameTable next := by
  unfold fat16FindItemInDirectory at found
  split at found
  · exact fat16NewFatItemForDirectoryItem_sameTable found
  · cases found
    exact .refl fs

/-- The walk along a path leaves the table alone. -/
theorem fat16GetDirectoryEntry_sameTable {fs next : FileSystem} {part : PathPart}
    {path : List PathPart} {p : Word}
    (walked : fs.fat16GetDirectoryEntry part path = some (p, next)) : fs.SameTable next := by
  obtain ⟨⟨item, middle⟩, found, rest⟩ := Option.bind_eq_some_iff.mp walked
  have same := fat16FindItemInDirectory_sameTable found
  dsimp only at rest
  split at rest
  · cases Option.some.inj rest
    exact same
  · rename_i nonNull
    cases path with
    | nil =>
        cases Option.some.inj rest
        exact same
    | cons nextPart path =>
        rw [fat16GetDirectoryEntry.loop_cons middle nonNull] at rest
        cases Option.some.inj rest
        exact same

/-- A negative pointer that `fat16_open` returns is one of three statuses. -/
theorem fat16Open_status {fs next : FileSystem} {part : PathPart} {path : List PathPart}
    {mode : FileMode} {p : Word} (opened : fs.fat16Open part path mode = some (p, next))
    (negative : p.toInt < 0) : p.toInt = -ERDONLY ∨ p.toInt = -ENOMEM ∨ p.toInt = - EIO := by
  unfold fat16Open at opened
  split at opened
  · cases opened
    exact .inl rfl
  · dsimp only at opened
    split at opened
    · cases opened
      exact .inr (.inl rfl)
    · rename_i made
      obtain ⟨⟨item, middle⟩, walked, rest⟩ := Option.bind_eq_some_iff.mp opened
      dsimp only at rest
      split at rest
      · cases Option.some.inj rest
        exact .inr (.inr rfl)
      · cases Option.some.inj rest
        rcases fs.machine.kmalloc_poolBlock .kernel sizeofFatFileDescriptor with isNull |
          ⟨s, inside, block⟩
        · exact absurd isNull made
        · have pointer : (fs.kzalloc sizeofFatFileDescriptor).1 = poolBlock s := block
          have place := poolBlock_toNat inside
          rw [pointer, BitVec.toInt_eq_toNat_of_lt (by omega)] at negative
          omega

/-- The driver's open leaves the table alone. -/
theorem fat16Open_sameTable {fs next : FileSystem} {part : PathPart} {path : List PathPart}
    {mode : FileMode} {p : Word} (opened : fs.fat16Open part path mode = some (p, next)) :
    fs.SameTable next := by
  unfold fat16Open at opened
  split at opened
  · cases opened
    exact .refl fs
  · dsimp only at opened
    split at opened
    · cases opened
      exact .kzalloc fs _
    · obtain ⟨⟨item, middle⟩, walked, rest⟩ := Option.bind_eq_some_iff.mp opened
      have same := (SameTable.kzalloc fs _).trans (fat16GetDirectoryEntry_sameTable walked)
      dsimp only at rest
      split at rest
      · cases Option.some.inj rest
        exact ⟨same.slots, same.records, same.volume⟩
      · cases Option.some.inj rest
        exact ⟨same.slots, same.records, same.volume⟩

/-! `fs/file.c` -/

/-- Reading leaves the table alone. -/
theorem fread_sameTable (fs : FileSystem) (size n : Word) (fd : Int) :
    fs.SameTable (fs.fread size n fd).2.2 := by
  obtain ⟨streams, result⟩ := fs.fread_frame size n fd
  rw [result]
  exact ⟨rfl, rfl, rfl⟩

/-- The slot that `fopen` takes. -/
def freeSlot (fs : FileSystem) : Option ℕ :=
  Searches.first (fun i => fs.fileDescriptors i = null) phixMaxFileDescriptors 0

/-- What `fopen` does to the table: a failed call leaves it alone, and another puts a descriptor,
if there is a block for it, in the first free slot. -/
inductive FopenTable (fs : FileSystem) (fd : Int) (next : FileSystem) : Prop where
  | failed (negative : fd < 0) (status : fd ≠ -EBADFORMAT) (same : fs.SameTable next)
  | opened (i : ℕ) (desc : Word) (slot : fs.freeSlot = some i) (number : fd = i + 1)
      (slots : next.fileDescriptors = Function.update fs.fileDescriptors i desc)
      (index : (next.fileDescriptorAt desc).index = i + 1)

/-- Every call of `fopen` that returns does one of the two. -/
theorem fopen_table {fs next : FileSystem} {filename modeStr : List Byte} {fd : Int}
    (opened : fs.fopen filename modeStr = some (fd, next)) : fs.FopenTable fd next := by
  have same := fs.pparserParse_sameTable filename
  unfold fopen at opened
  split at opened
  · rename_i parsed
    rw [parsed] at same
    cases opened
    exact .failed (by decide) (by decide) same
  · rename_i root driveNo parts middle parsed
    rw [parsed] at same
    split at opened
    · cases opened
      exact .failed (by decide) (by decide) same
    · split at opened
      · cases opened
        exact .failed (by decide) (by decide) same
      split at opened
      · cases opened
        exact .failed (by decide) (by decide) same
      split at opened
      · cases opened
        exact .failed (by decide) (by decide) same
      obtain ⟨⟨privateData, last⟩, opens, rest⟩ := Option.bind_eq_some_iff.mp opened
      have same := same.trans (fat16Open_sameTable opens)
      dsimp only at rest
      split at rest
      · rename_i negative
        cases Option.some.inj rest
        refine .failed negative ?_ same
        rcases fat16Open_status opens negative with readOnly | noMemory | failed
        · rw [readOnly]
          decide
        · rw [noMemory]
          decide
        · rw [failed]
          decide
      · cases slot : Searches.first (fun i => last.fileDescriptors i = null)
          phixMaxFileDescriptors 0 with
        | none =>
            rw [fileDescriptorNew_full slot] at rest
            cases rest
            exact .failed (show (-ENOMEM : Int) < 0 by decide)
              (show (-ENOMEM : Int) ≠ -EBADFORMAT by decide) same
        | some i =>
            obtain ⟨desc, spare, _, made, new, filled⟩ :=
              last.fileDescriptorNew_filled privateData slot
            rw [new] at rest
            dsimp only at rest
            rw [if_neg (lt_irrefl 0), filled] at rest
            cases Option.some.inj rest
            have index := congrArg FileDescriptor.index
              (spare.setFileDescriptor_fileDescriptorAt desc ⟨i + 1, privateData⟩)
            rw [same.slots] at slot
            refine .opened i desc slot index ?_ index
            rw [← same.slots]

/-- `fclose` clears the slot of the descriptor's number. -/
theorem fclose_slots {fs next : FileSystem} {fd ret : Int}
    (closed : fs.fclose fd = some (ret, next)) :
    next = fs ∨ fs.fileDescriptorGet fd ≠ null ∧
      next.fileDescriptors = Function.update fs.fileDescriptors
        ((fs.fileDescriptorAt (fs.fileDescriptorGet fd)).index - 1).toNat null := by
  unfold fclose at closed
  dsimp only at closed
  split at closed
  · cases closed
    exact .inl rfl
  · rename_i resolves
    obtain ⟨⟨status, middle⟩, closes, rest⟩ := Option.bind_eq_some_iff.mp closed
    obtain ⟨last, freed, result⟩ := Option.bind_eq_some_iff.mp closes
    cases Option.some.inj result
    have same := fat16FreeItem_sameTable freed
    dsimp only at rest
    rw [if_pos rfl] at rest
    cases Option.some.inj rest
    refine .inr ⟨resolves, ?_⟩
    unfold fileDescriptorFree
    have records : (last.kfree (fs.fileDescriptorAt (fs.fileDescriptorGet fd)).privateData
      ).fileDescriptorAt = fs.fileDescriptorAt := same.records
    have slots : (last.kfree (fs.fileDescriptorAt (fs.fileDescriptorGet fd)).privateData
      ).fileDescriptors = fs.fileDescriptors := same.slots
    dsimp only
    rw [records, slots]
    rfl

/-! A file that is not there. -/

/-- No item of the root directory has the name of the first part of the path. -/
def Misses (fs : FileSystem) (filename : List Byte) : Prop :=
  fat16FindItemInDirectory.loop fs.volume.rootItems fs.volume.rootDirectory.total
    ((pparserGetDriveByPath filename).2.takeWhile fun c => c ≠ 0x2F) = none

/-- The text of a part is what stands before the next slash. -/
theorem pparserParsePathPart_text {fs next : FileSystem} {path rest : List Byte} {part : PathPart}
    (parsed : fs.pparserParsePathPart path = (some part, rest, next)) :
    part.text = path.takeWhile fun c => c ≠ 0x2F := by
  unfold pparserParsePathPart pparserGetPathPart at parsed
  dsimp only at parsed
  split at parsed
  · cases parsed
  · split at parsed
    · cases parsed
    · split at parsed
      · cases parsed
      · cases parsed
        rfl

/-- The first part is what stands before the first slash. -/
theorem pparserParse.loop_head {fs next : FileSystem} {path : List Byte} {part : PathPart}
    {parts : List PathPart} (parsed : pparserParse.loop fs path = (part :: parts, next)) :
    part.text = path.takeWhile fun c => c ≠ 0x2F := by
  rw [pparserParse.loop] at parsed
  split at parsed
  · cases parsed
  · rename_i found
    cases parsed
    exact pparserParsePathPart_text found

/-- The driver opens no file whose first part has no item. -/
theorem fat16Open_missing {fs : FileSystem} {part : PathPart}
    (missing : fat16FindItemInDirectory.loop fs.volume.rootItems fs.volume.rootDirectory.total
      part.text = none) (path : List PathPart) (mode : FileMode) :
    ∃ desc next, fs.fat16Open part path mode = some (desc, next) ∧ desc.toInt < 0 := by
  unfold fat16Open
  split
  · exact ⟨_, _, rfl, by decide⟩
  · dsimp only
    split
    · exact ⟨_, _, rfl, by decide⟩
    · have absent : (fs.kzalloc sizeofFatFileDescriptor).2.fat16GetDirectoryEntry part path =
          some (null, (fs.kzalloc sizeofFatFileDescriptor).2) := by
        unfold fat16GetDirectoryEntry fat16FindItemInDirectory
        rw [show (fs.kzalloc sizeofFatFileDescriptor).2.volume = fs.volume from rfl, missing]
        rfl
      rw [absent]
      exact ⟨_, _, rfl, by decide⟩

/-- A file that is not there is not opened, whatever the heap answers. -/
theorem fopen_missing {fs : FileSystem} {filename : List Byte} (missing : fs.Misses filename)
    (modeStr : List Byte) : ∃ fd next, fs.fopen filename modeStr = some (fd, next) ∧ fd < 0 := by
  have invalid : (-EINVAL : Int) < 0 := by decide
  have failed : (- EIO : Int) < 0 := by decide
  unfold fopen
  by_cases rejected : PathRejected filename
  · rw [fs.pparserParse_rejected rejected]
    exact ⟨_, _, rfl, invalid⟩
  · rw [fs.pparserParse_accepted rejected]
    split
    · rename_i same
      exact ⟨_, _, rfl, invalid⟩
    · rename_i root driveNo parts middle same
      split at same
      · cases same
      · cases looped : pparserParse.loop (fs.kzalloc sizeofPathRoot).2
            (pparserGetDriveByPath filename).2 with
        | mk found last =>
            have kept := pparserParse_loop_sameTable (fs.kzalloc sizeofPathRoot).2
              (pparserGetDriveByPath filename).2
            rw [looped] at same kept
            cases same
            cases parts with
            | nil => exact ⟨_, _, rfl, invalid⟩
            | cons part path =>
                have text := pparserParse.loop_head looped
                have volume : middle.volume = fs.volume := kept.volume
                unfold Misses at missing
                rw [← volume, ← text] at missing
                obtain ⟨desc, next, opened, negative⟩ :=
                  fat16Open_missing missing path (fileGetModeByString modeStr)
                dsimp only
                split
                · exact ⟨_, _, rfl, failed⟩
                split
                · exact ⟨_, _, rfl, failed⟩
                split
                · exact ⟨_, _, rfl, invalid⟩
                rw [opened]
                dsimp only [Option.bind_eq_bind, Option.bind_some]
                rw [if_pos negative]
                exact ⟨_, _, rfl, negative⟩

/-- The slots that are taken. -/
def openDescriptors (fs : FileSystem) : Set ℕ :=
  { i | i < phixMaxFileDescriptors ∧ fs.fileDescriptors i ≠ null }

end FileSystem

end Phix
