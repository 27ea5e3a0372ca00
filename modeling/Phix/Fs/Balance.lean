import Phix.Fs.Lookup
import Phix.Fs.Opening

/-! # Opening and closing

`fopen` never frees the path it has parsed, so whenever the path is accepted and there is a
block for its root the call leaves an allocation behind: the root of a failed call, and one at
least of the five that a successful call makes, as `fclose` releases no more than four
(`Phix.FileSystem.fclose_releases`). Opening and closing balance exactly when the path is
rejected or no block is free (`Phix.fopen_fclose_balance_iff`).
-/

namespace Phix

namespace FileSystem

theorem fat16FreeDirectory_releases (fs : FileSystem) (directory : Word) :
    fs.machine.Releases (fs.fat16FreeDirectory directory).machine 2 := by
  by_cases made : directory = null
  · unfold fat16FreeDirectory
    rw [if_pos made]
    exact .refl _ 2
  · by_cases empty : (fs.directoryAt directory).item = null
    · rw [fat16FreeDirectory_empty made empty]
      exact (Machine.Releases.refl _ 1).kfree _
    · rw [fat16FreeDirectory_items made rfl empty]
      exact ((Machine.Releases.refl _ 0).kfree _).kfree _

theorem fat16FreeItem_releases {fs next : FileSystem} {item : Word}
    (freed : fs.fat16FreeItem item = some next) : fs.machine.Releases next.machine 2 := by
  unfold fat16FreeItem at freed
  dsimp only at freed
  split at freed
  · cases freed
    exact fs.fat16FreeDirectory_releases _
  · split at freed <;> cases freed
    exact (Machine.Releases.refl _ 1).kfree _

/-- `fclose` releases at most four allocations. -/
theorem fclose_releases {fs next : FileSystem} {fd ret : Int}
    (closed : fs.fclose fd = some (ret, next)) :
    fs.machine.Releases next.machine 4 := by
  unfold fclose at closed
  dsimp only at closed
  split at closed
  · cases closed
    exact .refl _ 4
  · unfold fat16Close at closed
    simp only [Option.bind_eq_bind, Option.bind_eq_some_iff, Option.some.injEq] at closed
    obtain ⟨⟨code, last⟩, ⟨middle, freed, result⟩, rest⟩ := closed
    cases result
    rw [if_pos rfl] at rest
    cases rest
    exact ((fat16FreeItem_releases freed).kfree _).kfree _

end FileSystem

/-- The descriptor table, the live allocations and the free blocks are as before. -/
structure FileSystem.Restored (fs next : FileSystem) : Prop where
  fileDescriptors : next.fileDescriptors = fs.fileDescriptors
  live : next.machine.live = fs.machine.live
  freeBlocks : next.machine.freeBlocks = fs.machine.freeBlocks

/-- What `fopen` returned balances: a failed call has left everything as it was, and closing the
descriptor of a successful one succeeds and restores everything. -/
def Balances (fs : FileSystem) (status : Int) (next : FileSystem) : Prop :=
  (status < 0 → fs.Restored next) ∧
    (0 ≤ status → ∃ after, next.fclose status = some (0, after) ∧ fs.Restored after)

theorem FileSystem.Restored.not_gained {fs next : FileSystem} (restored : fs.Restored next)
    {p : Word}
    (fresh : fs.machine.live p = none) (held : next.machine.live p ≠ none) : False := by
  rw [restored.live] at held
  exact held fresh

/-- A call that parses its path leaves something behind. -/
theorem not_balances {fs next : FileSystem} (sound : fs.machine.HeapSound)
    {filename modeStr : List Byte} {status : Int} (accepted : ¬ FileSystem.PathRejected filename)
    (room : fs.machine.freeBlocks ≠ ∅) (opened : fs.fopen filename modeStr = some (status, next)) :
    ¬ Balances fs status next := by
  rintro ⟨failed, succeeded⟩
  cases FileSystem.fopen_outcome sound opened with
  | failed _ _ negative _ rooted =>
      obtain ⟨root, grows⟩ := rooted accepted room
      exact (failed negative).not_gained (grows.gains.fresh root (List.mem_singleton_self root))
        (grows.gains.held root (List.mem_singleton_self root))
  | opened i desc middle _ _ _ gains =>
      obtain ⟨pointers, five, gains⟩ := gains
      obtain ⟨after, closed, restored⟩ := succeeded (by omega)
      have releases := FileSystem.fclose_releases closed
      obtain ⟨p, fresh, held⟩ := releases.survivor gains (by omega)
      exact restored.not_gained fresh held

/-- A call whose path has no root fails and changes nothing. -/
theorem restored_of_no_root {fs : FileSystem} (sound : fs.machine.HeapSound)
    {filename : List Byte} (modeStr : List Byte)
    (none : FileSystem.PathRejected filename ∨ fs.machine.freeBlocks = ∅) :
    ∃ next, fs.fopen filename modeStr = some (-EINVAL, next) ∧ fs.Restored next := by
  by_cases rejected : FileSystem.PathRejected filename
  · refine ⟨fs, ?_, rfl, rfl, rfl⟩
    unfold FileSystem.fopen
    rw [fs.pparserParse_rejected rejected]
  · have full := none.resolve_left rejected
    have isNull := (fs.machine.kzalloc_eq_null_iff .kernel (show 1 ≤ sizeofPathRoot.toNat by decide)
      (by decide)).mpr full
    obtain ⟨live, freeBlocks⟩ := sound.kzalloc_null .kernel (by decide) isNull
    refine ⟨(fs.kzalloc sizeofPathRoot).2, ?_, rfl, live, freeBlocks⟩
    unfold FileSystem.fopen
    rw [fs.pparserParse_accepted rejected,
      if_pos (show (fs.kzalloc sizeofPathRoot).1 = null from isNull)]

/-- **Opening and closing balance exactly when the path is rejected or the heap is full**: the
parsed path is never freed. -/
theorem fopen_fclose_balance_iff {fs next : FileSystem} (sound : fs.machine.HeapSound)
    {filename modeStr : List Byte} {status : Int}
    (opened : fs.fopen filename modeStr = some (status, next)) :
    Balances fs status next ↔ FileSystem.PathRejected filename ∨ fs.machine.freeBlocks = ∅ := by
  constructor
  · intro balances
    by_contra accepted
    obtain ⟨valid, room⟩ := not_or.mp accepted
    exact not_balances sound valid room opened balances
  · intro none
    obtain ⟨after, failed, restored⟩ := restored_of_no_root sound modeStr none
    cases opened.symm.trans failed
    exact ⟨fun _ => restored, fun positive => absurd positive (by decide)⟩

/-- The path `0:/`. -/
def rootPath : List Byte := [0x30, 0x3A, 0x2F]

theorem pparserParse.loop_nil (fs : FileSystem) : ∃ next,
    FileSystem.pparserParse.loop fs [] = ([], next) := by
  have noPart : ∃ rest next, fs.pparserParsePathPart [] = (none, rest, next) := ⟨_, _, rfl⟩
  obtain ⟨rest, next, parsed⟩ := noPart
  rw [FileSystem.pparserParse.loop]
  split
  · exact ⟨_, rfl⟩
  · rename_i same
    cases parsed.symm.trans same

theorem freshFileSystem_sound : freshFileSystem.machine.HeapSound := Machine.booted_sound _

/-- Opening the root directory fails and keeps the root of its path. -/
theorem fopen_fclose_balance_fails :
    ∃ status next, freshFileSystem.fopen rootPath [0x72] = some (status, next) ∧
      ¬ Balances freshFileSystem status next := by
  have accepted : ¬ FileSystem.PathRejected rootPath := by
    unfold FileSystem.PathRejected
    decide
  obtain ⟨status, next, opened⟩ : ∃ status next,
      freshFileSystem.fopen rootPath [0x72] = some (status, next) := by
    obtain ⟨next, looped⟩ := pparserParse.loop_nil (freshFileSystem.kzalloc sizeofPathRoot).2
    have rest : (pparserGetDriveByPath rootPath).2 = [] := by decide
    have found : ¬ (freshFileSystem.machine.kzalloc .kernel sizeofPathRoot).1 = null :=
      mt (freshFileSystem.machine.kzalloc_eq_null_iff .kernel
        (show 1 ≤ sizeofPathRoot.toNat by decide) (by decide)).mp freshFileSystem_room
    unfold FileSystem.fopen
    rw [freshFileSystem.pparserParse_accepted accepted, rest, looped,
      if_neg (show ¬ (freshFileSystem.kzalloc sizeofPathRoot).1 = null from found)]
    exact ⟨_, _, rfl⟩
  exact ⟨status, next, opened,
    not_balances freshFileSystem_sound accepted freshFileSystem_room opened⟩

/-- The first `k` blocks of an empty heap are allocated one by one. -/
def Machine.filled : ℕ → Machine
  | 0 => Machine.booted fun _ => 0
  | k + 1 => ((Machine.filled k).kzalloc .kernel 4096).2

theorem Machine.filled_sound {k : ℕ} (within : k ≤ 25600) :
    (Machine.filled k).HeapSound ∧ (Machine.filled k).freeBlocks = Finset.Ico k 25600 ∧
      ∀ i < k, (Machine.filled k).live (poolBlock i) ≠ none := by
  have proper : Proper 4096 := ⟨by decide, by decide⟩
  have one : blockCount 4096 = 1 := by decide
  induction k with
  | zero =>
      refine ⟨Machine.booted_sound _, ?_, fun i absent => absurd absent (Nat.not_lt_zero i)⟩
      exact (Machine.booted_freeBlocks _).trans (Finset.range_eq_Ico 25600)
  | succ k ih =>
      obtain ⟨sound, free, live⟩ := ih (by omega)
      obtain ⟨pointer, rest⟩ := sound.kzalloc_next .kernel proper free (by omega)
      rw [one] at rest
      have found : ((Machine.filled k).kzalloc .kernel 4096).1 ≠ null := by
        rw [pointer]
        exact poolBlock_ne_null (by omega)
      have cleared := sound.kzalloc .kernel proper found
      refine ⟨cleared.sound, rest, fun i below => ?_⟩
      rcases Nat.lt_succ_iff_lt_or_eq.mp below with before | rfl
      · exact ((Machine.filled k).kzalloc_kept .kernel 4096).kept _ (live i before)
      · rw [← pointer]
        exact fun none => Option.some_ne_none _ (cleared.held.symm.trans none)

/-- The file `A` is not opened on a full heap, and nothing is left behind. -/
theorem fopen_fclose_balance_iff_full :
    ∃ status next, (FileSystem.fresh (Machine.filled 25600) oneSectorVolume).fopen
        [0x30, 0x3A, 0x2F, 0x41] [0x72] = some (status, next) ∧
      Balances (FileSystem.fresh (Machine.filled 25600) oneSectorVolume) status next := by
  obtain ⟨sound, free, -⟩ := Machine.filled_sound le_rfl
  generalize Machine.filled 25600 = machine at sound free ⊢
  rw [Finset.Ico_self] at free
  have full : (FileSystem.fresh machine oneSectorVolume).machine.freeBlocks = ∅ := free
  obtain ⟨next, opened, _⟩ := restored_of_no_root
    (show (FileSystem.fresh machine oneSectorVolume).machine.HeapSound from sound) [0x72]
    (.inr full)
  exact ⟨_, next, opened, (fopen_fclose_balance_iff sound opened).mpr (.inr full)⟩

end Phix
