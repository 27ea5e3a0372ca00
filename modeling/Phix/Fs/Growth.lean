import Phix.Fs.File
import Phix.Memory.Gains

/-! # What calls add

The calls below `fopen` allocate, and release only what they have allocated themselves:
between the states before and after one of them (`Phix.FileSystem.Grows`) everything that was
live still is, with the same records. Parsing a path leaves its root and its parts behind
(`Phix.FileSystem.pparserParse_grows`).
-/

namespace Phix

namespace FileSystem

/-- The records at an address are the same. -/
structure SameAt (fs next : FileSystem) (p : Word) : Prop where
  fileDescriptor : next.fileDescriptorAt p = fs.fileDescriptorAt p
  fatDescriptor : next.fatDescriptorAt p = fs.fatDescriptorAt p
  fatItem : next.fatItemAt p = fs.fatItemAt p
  directory : next.directoryAt p = fs.directoryAt p
  bytes : next.bytesAt p = fs.bytesAt p

theorem SameAt.refl (fs : FileSystem) (p : Word) : fs.SameAt fs p := ⟨rfl, rfl, rfl, rfl, rfl⟩

theorem SameAt.trans {fs middle next : FileSystem} {p : Word} (first : fs.SameAt middle p)
    (second : middle.SameAt next p) : fs.SameAt next p where
  fileDescriptor := second.fileDescriptor.trans first.fileDescriptor
  fatDescriptor := second.fatDescriptor.trans first.fatDescriptor
  fatItem := second.fatItem.trans first.fatItem
  directory := second.directory.trans first.directory
  bytes := second.bytes.trans first.bytes

/-! A record is written at one address. -/

section Writes

variable (fs : FileSystem) {p q : Word} (different : q ≠ p)

include different

theorem setFileDescriptor_sameAt (desc : FileDescriptor) :
    fs.SameAt (fs.setFileDescriptor p desc) q where
  fileDescriptor := Function.update_of_ne different ..
  fatDescriptor := rfl
  fatItem := rfl
  directory := rfl
  bytes := rfl

theorem setFatDescriptor_sameAt (desc : FatFileDescriptor) :
    fs.SameAt (fs.setFatDescriptor p desc) q where
  fileDescriptor := rfl
  fatDescriptor := Function.update_of_ne different ..
  fatItem := rfl
  directory := rfl
  bytes := rfl

theorem setFatItem_sameAt (item : FatItem) : fs.SameAt (fs.setFatItem p item) q where
  fileDescriptor := rfl
  fatDescriptor := rfl
  fatItem := Function.update_of_ne different ..
  directory := rfl
  bytes := rfl

theorem setDirectory_sameAt (directory : FatDirectory) :
    fs.SameAt (fs.setDirectory p directory) q where
  fileDescriptor := rfl
  fatDescriptor := rfl
  fatItem := rfl
  directory := Function.update_of_ne different ..
  bytes := rfl

theorem setBytes_sameAt (bytes : List Byte) : fs.SameAt (fs.setBytes p bytes) q where
  fileDescriptor := rfl
  fatDescriptor := rfl
  fatItem := rfl
  directory := rfl
  bytes := Function.update_of_ne different ..

end Writes

/-- Everything live still is, with the same records, and the pointers are new. The heap stays
sound when every request is clean. -/
structure Grows (fs next : FileSystem) (pointers : List Word) : Prop where
  gains : fs.machine.Gains next.machine pointers
  same : ∀ p, fs.machine.live p ≠ none → fs.SameAt next p
  volume : next.volume = fs.volume
  fileDescriptors : next.fileDescriptors = fs.fileDescriptors
  sound : fs.machine.Ensures Request.Clean next.machine next.machine.HeapSound

namespace Grows

variable {fs middle next : FileSystem} {pointers earlier later : List Word}

theorem refl (sound : fs.machine.HeapSound) : fs.Grows fs [] where
  gains := .refl _
  same p _ := .refl fs p
  volume := rfl
  fileDescriptors := rfl
  sound := .of_requests rfl sound

theorem trans (first : fs.Grows middle earlier) (second : middle.Grows next later) :
    fs.Grows next (later ++ earlier) where
  gains := first.gains.trans second.gains
  same p live := (first.same p live).trans (second.same p (first.gains.kept p live))
  volume := second.volume.trans first.volume
  fileDescriptors := second.fileDescriptors.trans first.fileDescriptors
  sound := first.sound.trans (second.sound.imp fun sound _ => sound)

theorem sublist (grows : fs.Grows next pointers) (part : earlier.Sublist pointers) :
    fs.Grows next earlier :=
  { grows with gains := grows.gains.sublist part }

theorem none (grows : fs.Grows next pointers) : fs.Grows next [] :=
  grows.sublist (List.nil_sublist pointers)

/-- Records are written that were not live before. -/
theorem write (grows : fs.Grows next pointers) {other : FileSystem}
    (machine : other.machine = next.machine) (volume : other.volume = next.volume)
    (fileDescriptors : other.fileDescriptors = next.fileDescriptors) {p : Word}
    (fresh : fs.machine.live p = .none) (away : ∀ q, q ≠ p → next.SameAt other q) :
    fs.Grows other pointers where
  gains := machine ▸ grows.gains
  same q live := (grows.same q live).trans (away q fun same => live (same ▸ fresh))
  volume := volume.trans grows.volume
  fileDescriptors := fileDescriptors.trans grows.fileDescriptors
  sound := machine ▸ grows.sound

/-- A new pointer is released that is live when every request is clean. -/
theorem kfree (grows : fs.Grows next pointers) {p : Word} (fresh : fs.machine.live p = .none)
    (other : p ∉ pointers)
    (held : fs.machine.Ensures Request.Clean next.machine (next.machine.live p ≠ .none)) :
    fs.Grows (next.kfree p) pointers where
  gains := grows.gains.kfree fresh other
  same q live := (grows.same q live).trans ⟨rfl, rfl, rfl, rfl, rfl⟩
  volume := grows.volume
  fileDescriptors := grows.fileDescriptors
  sound := (held.and grows.sound).imp fun ⟨live, sound⟩ => by
    obtain ⟨allocation, isLive⟩ := Option.ne_none_iff_exists'.mp live
    exact sound.kfree isLive

/-- The pointer gained last is released. -/
theorem release {p : Word} (grows : fs.Grows next (p :: pointers)) :
    fs.Grows (next.kfree p) pointers :=
  (grows.sublist (List.sublist_cons_self p pointers)).kfree
    (grows.gains.fresh p (List.mem_cons_self ..)) (List.nodup_cons.mp grows.gains.distinct).1
    (grows.sound.imp fun _ => grows.gains.held p (List.mem_cons_self ..))

end Grows

/-- An allocation. -/
theorem kzalloc_grows {fs next : FileSystem} (sound : fs.machine.HeapSound) {size p : Word}
    (allocated : fs.kzalloc size = (p, next)) :
    fs.Grows next [] ∧ (p ≠ null → fs.machine.live p = none) ∧
      fs.machine.Ensures Request.Clean next.machine (p ≠ null → next.machine.live p ≠ none) ∧
      fs.machine.Ensures Request.Served next.machine
        (p ≠ null ∧ fs.Grows next [p] ∧ next.machine.HeapSound) := by
  have pointer : (fs.kzalloc size).1 = p := congrArg Prod.fst allocated
  have after : (fs.kzalloc size).2 = next := congrArg Prod.snd allocated
  subst pointer after
  have grows : fs.Grows (fs.kzalloc size).2 [] := {
    gains := fs.machine.kzalloc_kept .kernel size
    same := fun p _ => ⟨rfl, rfl, rfl, rfl, rfl⟩
    volume := rfl
    fileDescriptors := rfl
    sound := sound.kzalloc_clean .kernel size }
  refine ⟨grows, sound.kzalloc_fresh .kernel, ⟨[fs.machine.request size], rfl, fun all found => ?_⟩,
    [fs.machine.request size], rfl, fun all => ?_⟩
  · rcases all _ (List.mem_singleton_self _) with served | refused
    · have held := (sound.kzalloc_served .kernel served).2.held
      exact fun none => Option.some_ne_none _ (held.symm.trans none)
    · exact absurd (fs.machine.kzalloc_refused .kernel refused) found
  · have served := all _ (List.mem_singleton_self _)
    obtain ⟨found, cleared⟩ := sound.kzalloc_served .kernel served
    exact ⟨found, { grows with gains := sound.kzalloc_gains .kernel served.1 found }, cleared.sound⟩

/-- An allocation of at most a block. -/
theorem kzalloc_small {fs next : FileSystem} (sound : fs.machine.HeapSound) {size p : Word}
    (positive : 1 ≤ size.toNat) (small : size.toNat ≤ 4096)
    (allocated : fs.kzalloc size = (p, next)) :
    next.machine.HeapSound ∧ fs.Grows next (Machine.obtained p) := by
  have grows := (kzalloc_grows sound allocated).1
  have pointer : (fs.kzalloc size).1 = p := congrArg Prod.fst allocated
  have after : (fs.kzalloc size).2 = next := congrArg Prod.snd allocated
  subst pointer after
  refine ⟨sound.kzalloc_small .kernel positive small, { grows with gains := ?_ }⟩
  exact sound.kzalloc_obtained .kernel ⟨positive, by unfold maxRequest; omega⟩

/-! Parsing. -/

theorem pparserGetPathPart_grows {fs next : FileSystem} (sound : fs.machine.HeapSound)
    {path text rest : List Byte} {pathPart : Word}
    (got : fs.pparserGetPathPart path = (pathPart, text, rest, next)) :
    next.machine.HeapSound ∧ fs.Grows next (Machine.obtained pathPart) := by
  unfold pparserGetPathPart at got
  cases allocated : fs.kzalloc phixMaxPath with
  | mk p middle =>
      obtain ⟨after, grows⟩ := kzalloc_small sound (by decide) (by decide) allocated
      rw [allocated] at got
      dsimp only at got
      split at got <;> cases got
      · -- The buffer of an empty part is freed.
        rw [Machine.obtained_null]
        by_cases isNull : p = null
        · subst isNull
          obtain ⟨released, live⟩ := after.kfree_null
          exact ⟨released, { grows.none with
            gains := grows.none.gains.congr live
            same := fun q was => (grows.same q was).trans ⟨rfl, rfl, rfl, rfl, rfl⟩
            sound := grows.sound.imp fun _ => released }⟩
        · rw [Machine.obtained_of_ne isNull] at grows
          obtain ⟨allocation, held⟩ :=
            Option.ne_none_iff_exists'.mp (grows.gains.held p (List.mem_singleton_self p))
          exact ⟨after.kfree held, grows.release⟩
      · exact ⟨after, grows⟩

/-- The allocations of a part. -/
def PathPart.pointers (part : PathPart) : List Word := [part.self, part.part]

theorem pparserParsePathPart_grows {fs next : FileSystem} (sound : fs.machine.HeapSound)
    {path rest : List Byte} {part : Option PathPart}
    (parsed : fs.pparserParsePathPart path = (part, rest, next)) :
    next.machine.HeapSound ∧ fs.Grows next (part.elim [] PathPart.pointers) ∧
      ∀ found ∈ part, found.text = path.takeWhile fun c => c ≠ 0x2F := by
  unfold pparserParsePathPart at parsed
  cases got : fs.pparserGetPathPart path with
  | mk pathPart result =>
      obtain ⟨text, remaining, middle⟩ := result
      obtain ⟨after, grows⟩ := pparserGetPathPart_grows sound got
      have first : text = path.takeWhile fun c => c ≠ 0x2F := by
        unfold pparserGetPathPart at got
        dsimp only at got
        split at got <;> cases got <;> rfl
      rw [got] at parsed
      dsimp only at parsed
      split at parsed
      · cases parsed
        exact ⟨after, grows.none, fun found none => absurd none (Option.not_mem_none found)⟩
      · rename_i found
        rw [Machine.obtained_of_ne found] at grows
        cases allocated : middle.kzalloc sizeofPathPart with
        | mk self last =>
            obtain ⟨ends, more⟩ := kzalloc_small after (by decide) (by decide) allocated
            rw [allocated] at parsed
            dsimp only at parsed
            split at parsed <;> cases parsed
            · exact ⟨ends, (grows.trans more).none,
                fun found none => absurd none (Option.not_mem_none found)⟩
            · rename_i made
              rw [Machine.obtained_of_ne made] at more
              refine ⟨ends, grows.trans more, fun found same => ?_⟩
              cases same
              exact first

/-- Of the parts, the allocations and the text of the first. -/
theorem pparserParse.loop_grows {fs next : FileSystem} (sound : fs.machine.HeapSound)
    {path : List Byte} {parts : List PathPart}
    (parsed : pparserParse.loop fs path = (parts, next)) :
    next.machine.HeapSound ∧ fs.Grows next (parts.head?.elim [] PathPart.pointers) ∧
      ∀ first ∈ parts.head?, first.text = path.takeWhile fun c => c ≠ 0x2F := by
  induction fs, path using pparserParse.loop.induct generalizing parts next with
  | case1 fs path rest middle part =>
      obtain ⟨after, grows, text⟩ := pparserParsePathPart_grows sound part
      rw [pparserParse.loop] at parsed
      split at parsed
      · rename_i same
        cases parsed
        cases part.symm.trans same
        exact ⟨after, grows, text⟩
      · rename_i same
        cases part.symm.trans same
  | case2 fs path first rest middle part others last looped ih =>
      obtain ⟨after, grows, text⟩ := pparserParsePathPart_grows sound part
      obtain ⟨ends, more, _⟩ := ih after looped
      rw [pparserParse.loop] at parsed
      split at parsed
      · rename_i same
        cases part.symm.trans same
      · rename_i same
        cases part.symm.trans same
        rw [looped] at parsed
        cases parsed
        exact ⟨ends, grows.trans more.none, text⟩

/-- The path is too long or badly formed. -/
def PathRejected (path : List Byte) : Prop :=
  phixMaxPath < path.length ∨ ¬ pparserPathValidFormat path

theorem toDigit_nonneg {c : Byte} (digit : isDigit c = true) : 0 ≤ toDigit c := by
  revert c
  decide

theorem pparserGetDriveByPath_neg (path : List Byte) :
    (pparserGetDriveByPath path).1 < 0 ↔ ¬ pparserPathValidFormat path := by
  unfold pparserGetDriveByPath
  by_cases valid : pparserPathValidFormat path = true
  · rw [if_neg (not_not_intro valid)]
    have digit : isDigit (field8 path 0) = true := by
      unfold pparserPathValidFormat at valid
      exact (of_decide_eq_true valid).2.1
    exact iff_of_false (not_lt.mpr (toDigit_nonneg digit)) (not_not_intro valid)
  · rw [if_pos valid]
    exact iff_of_true (show -EBADPATH < 0 by decide) valid

theorem pparserParse_rejected (fs : FileSystem) {path : List Byte} (rejected : PathRejected path) :
    fs.pparserParse path = (none, fs) := by
  unfold pparserParse
  by_cases long : phixMaxPath < path.length
  · rw [if_pos long]
  · rw [if_neg long]
    have negative := (pparserGetDriveByPath_neg path).mpr (rejected.resolve_left long)
    dsimp only
    rw [if_pos negative, if_pos one_ne_zero]

/-- A path that is accepted, up to the allocation of the root. -/
theorem pparserParse_accepted (fs : FileSystem) {path : List Byte}
    (accepted : ¬ PathRejected path) :
    fs.pparserParse path =
      if (fs.kzalloc sizeofPathRoot).1 = null then (none, (fs.kzalloc sizeofPathRoot).2)
      else
        let (parts, next) := pparserParse.loop (fs.kzalloc sizeofPathRoot).2
          (pparserGetDriveByPath path).2
        (some ⟨(fs.kzalloc sizeofPathRoot).1, 0, parts⟩, next) := by
  obtain ⟨short, valid⟩ := not_or.mp accepted
  have drive := mt (pparserGetDriveByPath_neg path).mp valid
  unfold pparserParse pparserCreateRoot
  rw [if_neg short]
  dsimp only
  rw [if_neg drive, if_neg (not_not_intro rfl)]

/-- Parsing makes no root exactly when the path is rejected or no block is free. -/
theorem pparserParse_eq_none (fs : FileSystem) (path : List Byte) :
    (fs.pparserParse path).1 = none ↔ PathRejected path ∨ fs.machine.freeBlocks = ∅ := by
  by_cases rejected : PathRejected path
  · rw [fs.pparserParse_rejected rejected]
    exact iff_of_true rfl (.inl rejected)
  · rw [or_iff_right rejected, fs.pparserParse_accepted rejected,
      ← fs.machine.kzalloc_eq_null_iff .kernel (show 1 ≤ sizeofPathRoot.toNat by decide)
        (by decide)]
    change _ ↔ (fs.kzalloc sizeofPathRoot).1 = null
    split
    · rename_i isNull
      exact iff_of_true rfl isNull
    · rename_i found
      exact iff_of_false (Option.some_ne_none _) found

/-- The text of the first part of a path. -/
def firstName (path : List Byte) : List Byte :=
  (pparserGetDriveByPath path).2.takeWhile fun c => c ≠ 0x2F

theorem pparserParse_grows {fs next : FileSystem} (sound : fs.machine.HeapSound) {path : List Byte}
    {root : PathRoot} (parsed : fs.pparserParse path = (some root, next)) :
    root.driveNo = 0 ∧ next.machine.HeapSound ∧
      fs.Grows next (root.parts.head?.elim [] PathPart.pointers ++ [root.self]) ∧
      ∀ first ∈ root.parts.head?, first.text = firstName path := by
  by_cases rejected : PathRejected path
  · rw [fs.pparserParse_rejected rejected] at parsed
    cases parsed
  · rw [fs.pparserParse_accepted rejected] at parsed
    split at parsed
    · cases parsed
    · rename_i found
      obtain ⟨after, grows⟩ := kzalloc_small sound (show 1 ≤ sizeofPathRoot.toNat by decide)
        (by decide) Prod.mk.eta.symm
      rw [Machine.obtained_of_ne found] at grows
      cases looped : pparserParse.loop (fs.kzalloc sizeofPathRoot).2
          (pparserGetDriveByPath path).2 with
      | mk parts last =>
          obtain ⟨ends, more, text⟩ := pparserParse.loop_grows after looped
          rw [looped] at parsed
          cases parsed
          exact ⟨rfl, ends, grows.trans more, text⟩

/-- Parsing that makes no root. -/
theorem pparserParse_grows_none {fs next : FileSystem} (sound : fs.machine.HeapSound)
    {path : List Byte} (parsed : fs.pparserParse path = (none, next)) : fs.Grows next [] := by
  by_cases rejected : PathRejected path
  · rw [fs.pparserParse_rejected rejected] at parsed
    cases parsed
    exact .refl sound
  · rw [fs.pparserParse_accepted rejected] at parsed
    split at parsed
    · cases parsed
      exact (kzalloc_grows sound Prod.mk.eta.symm).1
    · cases parsed

end FileSystem

end Phix
