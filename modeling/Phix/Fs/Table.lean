import Phix.Foundation.Traces
import Phix.Fs.Descriptors
import Phix.Fs.Room

/-! # The descriptor table over runs

A run of `fopen` and `fclose` from `fs_init`, with the number and the descriptor of every file
that is open kept beside the state. Where every successful `fopen` finds a slot below the last
one and the heap serves it, every number resolves to its own descriptor until it is closed
(`Phix.descriptor_table_resolves`). The last slot has a number that never resolves
(`Phix.FileSystem.fileDescriptorGet_last`).
-/

namespace Phix

open Searches Traces

/-- The file system, with the descriptor each number was returned for. -/
structure OpenFiles where
  fs : FileSystem
  numbers : Int → Option Word

/-- A call on files. -/
inductive FileCall where
  | fopen (filename modeStr : List Byte)
  | fclose (fd : Int)

namespace OpenFiles

/-- A call; one that does not return leaves the state as it is. -/
def step (files : OpenFiles) : FileCall → OpenFiles
  | .fopen filename modeStr =>
      match files.fs.fopen filename modeStr with
      | none => files
      | some (status, fs) =>
          if 0 ≤ status then
            ⟨fs, Function.update files.numbers status
              (some (fs.fileDescriptors (status - 1).toNat))⟩
          else ⟨fs, files.numbers⟩
  | .fclose fd =>
      match files.fs.fclose fd with
      | none => files
      | some (ret, fs) => if ret = 0 then ⟨fs, Function.update files.numbers fd none⟩
          else ⟨fs, files.numbers⟩

/-- Just after `fs_init`. -/
def start (fs : FileSystem) : OpenFiles := ⟨fs.fsInit, fun _ => none⟩

/-- Open descriptors have the numbers of their slots, a number resolves to the descriptor it was
returned for, and another number is rejected. -/
structure TableSound (files : OpenFiles) : Prop where
  index : ∀ i, files.fs.fileDescriptors i ≠ null →
    (files.fs.fileDescriptorAt (files.fs.fileDescriptors i)).index = i + 1
  distinct : ∀ i j, files.fs.fileDescriptors i ≠ null → files.fs.fileDescriptors j ≠ null →
    (files.fs.fileDescriptorAt (files.fs.fileDescriptors i)).index =
      (files.fs.fileDescriptorAt (files.fs.fileDescriptors j)).index → i = j
  resolved : ∀ n desc, files.numbers n = some desc →
    files.fs.fileDescriptorGet n = desc ∧ desc ≠ null
  rejected : ∀ n, files.numbers n = none → files.fs.fileDescriptorGet n = null

/-- A call that takes a slot below the last one and safely opens. -/
def Sheltered (files : OpenFiles) : FileCall → Prop
  | .fopen filename modeStr => ∀ status next,
    files.fs.fopen filename modeStr = some (status, next) →
      files.fs.OpensSafely filename status next ∧
        (0 ≤ status → ∃ i, i + 1 < phixMaxFileDescriptors ∧ files.fs.fileDescriptors i = null)
  | .fclose _ => True

/-- The open files are those in the slots below the last one. -/
structure Invariant (files : OpenFiles) : Prop where
  separate : files.fs.Separate
  below : ∀ i, files.fs.fileDescriptors i ≠ null → i + 1 < phixMaxFileDescriptors
  named : ∀ n desc, files.numbers n = some desc ↔
    ∃ i : ℕ, n = i + 1 ∧ files.fs.fileDescriptors i = desc ∧ desc ≠ null

namespace Invariant

variable {files : OpenFiles} (inv : files.Invariant)

include inv

theorem tableSound : files.TableSound where
  index i isOpen := (inv.separate.holds i isOpen).index
  distinct i j first second same := by
    rw [(inv.separate.holds i first).index, (inv.separate.holds j second).index] at same
    omega
  resolved n desc held := by
    obtain ⟨i, number, slot, found⟩ := (inv.named n desc).mp held
    have below := inv.below i (slot ▸ found)
    refine ⟨?_, found⟩
    unfold FileSystem.fileDescriptorGet
    rw [if_neg (by omega), number, show ((i : Int) + 1 - 1).toNat = i by omega, slot]
  rejected n absent := by
    by_contra resolved
    obtain ⟨i, number, _, slot⟩ := FileSystem.fileDescriptorGet_slot resolved
    have held := (inv.named n _).mpr ⟨i, number, slot.symm, resolved⟩
    rw [absent] at held
    cases held

/-- The numbers after a slot has changed. -/
theorem named_update {fs : FileSystem} {i : ℕ} {desc : Word} {value : Option Word}
    (table : fs.fileDescriptors = Function.update files.fs.fileDescriptors i desc)
    (agrees : ∀ held, value = some held ↔ desc = held ∧ held ≠ null) (n : Int) (held : Word) :
    Function.update files.numbers (i + 1) value n = some held ↔
      ∃ k : ℕ, n = k + 1 ∧ fs.fileDescriptors k = held ∧ held ≠ null := by
  rw [table]
  by_cases here : n = i + 1
  · rw [here, Function.update_self, agrees]
    constructor
    · rintro ⟨slot, found⟩
      exact ⟨i, rfl, (Function.update_self ..).trans slot, found⟩
    · rintro ⟨k, same, slot, found⟩
      rw [show k = i by omega, Function.update_self] at slot
      exact ⟨slot, found⟩
  · rw [Function.update_of_ne here, inv.named]
    refine exists_congr fun k => and_congr_right fun number => ?_
    rw [Function.update_of_ne (show k ≠ i by rintro rfl; exact here number)]

theorem step {call : FileCall} (sheltered : files.Sheltered call) :
    (files.step call).Invariant := by
  cases call with
  | fopen filename modeStr =>
      unfold OpenFiles.step
      dsimp only
      cases opened : files.fs.fopen filename modeStr with
      | none => exact inv
      | some result =>
          obtain ⟨status, fs⟩ := result
          obtain ⟨safe, room⟩ := sheltered status fs opened
          obtain ⟨separate, _, failed, succeeded⟩ :=
            FileSystem.fopen_separate inv.separate opened safe
          dsimp only
          by_cases positive : 0 ≤ status
          · rw [if_pos positive]
            obtain ⟨i, desc, slot, rfl, found, table⟩ := succeeded positive
            obtain ⟨_, _, _, least⟩ := first_eq_some.mp slot
            obtain ⟨k, below, free⟩ := room positive
            have early : i ≤ k := not_lt.mp fun later => least k (Nat.zero_le k) later free
            rw [show ((i : Int) + 1 - 1).toNat = i by omega,
              show fs.fileDescriptors i = desc by rw [table, Function.update_self]]
            refine ⟨separate, fun j isOpen => ?_, inv.named_update table fun held => ?_⟩
            · change fs.fileDescriptors j ≠ null at isOpen
              rw [table] at isOpen
              by_cases here : j = i
              · omega
              · rw [Function.update_of_ne here] at isOpen
                exact inv.below j isOpen
            · rw [Option.some_inj]
              exact (and_iff_left_of_imp fun same => same ▸ found).symm
          · rw [if_neg positive]
            have table := failed (not_le.mp positive)
            refine ⟨separate, fun j isOpen => inv.below j (table ▸ isOpen), fun n desc => ?_⟩
            rw [table]
            exact inv.named n desc
  | fclose fd =>
      unfold OpenFiles.step
      dsimp only
      by_cases resolved : files.fs.fileDescriptorGet fd = null
      · have rejected : files.fs.fclose fd = some (-EINVAL, files.fs) := by
          unfold FileSystem.fclose
          exact if_pos resolved
        rw [rejected]
        dsimp only
        rw [if_neg (by decide)]
        exact inv
      · obtain ⟨i, rfl, _, slot⟩ := FileSystem.fileDescriptorGet_slot resolved
        obtain ⟨fs, closed, separate, table, _⟩ :=
          FileSystem.fclose_separate inv.separate resolved slot
        rw [closed]
        dsimp only
        rw [if_pos rfl]
        refine ⟨separate, fun j isOpen => ?_, inv.named_update table fun held => ?_⟩
        · change fs.fileDescriptors j ≠ null at isOpen
          rw [table] at isOpen
          by_cases here : j = i
          · rw [here, Function.update_self] at isOpen
            exact absurd rfl isOpen
          · rw [Function.update_of_ne here] at isOpen
            exact inv.below j isOpen
        · exact iff_of_false (fun some => by cases some) fun ⟨isNull, found⟩ => found isNull.symm

end Invariant

theorem start_invariant {fs : FileSystem} (sound : fs.machine.HeapSound) :
    (start fs).Invariant where
  separate := ⟨sound, fun _ isOpen => absurd rfl isOpen, fun _ _ _ isOpen => absurd rfl isOpen⟩
  below _ isOpen := absurd rfl isOpen
  named n desc := by
    refine iff_of_false (fun held => by cases held) ?_
    rintro ⟨_, _, slot, found⟩
    exact found slot.symm

end OpenFiles

/-- The number of the last slot does not resolve. -/
theorem FileSystem.fileDescriptorGet_last (fs : FileSystem) :
    fs.fileDescriptorGet phixMaxFileDescriptors = null := if_pos (.inr le_rfl)

/-! A volume with the file `A`, opened again and again. -/

def singleFileVolume : Volume where
  disk := oneSectorVolume.disk
  header := oneSectorVolume.header
  rootDirectory := ⟨null, 1, 0, 1⟩
  rootItems := plainItem 0x41 ++ List.replicate 32 0
  clustered := oneSectorVolume.clustered

def singleFileSystem : FileSystem := FileSystem.fresh (Machine.booted fun _ => 0) singleFileVolume

/-- The path `0:/a`. -/
def pathA : List Byte := [0x30, 0x3A, 0x2F, 0x61]

theorem pathA_accepted : ¬ FileSystem.PathRejected pathA := by
  unfold FileSystem.PathRejected
  decide

theorem singleFileVolume_namesFile : FileSystem.NamesFile singleFileVolume [0x61] :=
  ⟨0, by decide, by decide⟩

/-- After `k` calls the first `k` slots are taken. -/
structure OpenedTimes (k : ℕ) (files : OpenFiles) : Prop where
  sound : files.fs.machine.HeapSound
  mounted : files.fs.mounted = true
  volume : files.fs.volume = singleFileVolume
  room : 25600 ≤ files.fs.machine.freeBlocks.card + 8 * k
  taken : ∀ i, files.fs.fileDescriptors i = null ↔ k ≤ i
  named : ∀ i < k, ∃ desc, desc ≠ null ∧ files.numbers (i + 1) = some desc

theorem openedTimes (k : ℕ) (within : k ≤ phixMaxFileDescriptors) :
    OpenedTimes k (exec OpenFiles.step (.start singleFileSystem)
      (List.replicate k (.fopen pathA [0x72]))) := by
  induction k with
  | zero =>
      refine ⟨Machine.booted_sound _, rfl, rfl, ?_, fun i => iff_of_true rfl (Nat.zero_le i),
        fun i below => absurd below (Nat.not_lt_zero i)⟩
      change 25600 ≤ (Machine.booted fun _ => 0).freeBlocks.card + 8 * 0
      rw [Machine.booted_card]
  | succ k ih =>
      have before := ih (by omega)
      rw [List.replicate_succ', exec_append]
      generalize exec OpenFiles.step (.start singleFileSystem)
        (List.replicate k (.fopen pathA [0x72])) = files at before ⊢
      have room := before.room
      unfold phixMaxFileDescriptors at within
      have slot : first (fun i => files.fs.fileDescriptors i = null) phixMaxFileDescriptors 0 =
          some k := by
        rw [first_eq_some]
        refine ⟨Nat.zero_le k, by unfold phixMaxFileDescriptors; omega, (before.taken k).mpr le_rfl,
          fun j _ earlier isNull => ?_⟩
        exact absurd ((before.taken j).mp isNull) (by omega)
      obtain ⟨desc, next, opened, found, table, sound, volume, mounted, spent, served, -⟩ :=
        FileSystem.fopen_succeeds before.sound before.mounted pathA_accepted
          (show (pparserGetDriveByPath pathA).2 = [0x61] by decide) (by decide) (by decide)
          (before.volume ▸ singleFileVolume_namesFile) slot (by omega)
      have step : OpenFiles.step files (.fopen pathA [0x72]) = ⟨next, Function.update files.numbers
          ((k : Int) + 1) (some desc)⟩ := by
        unfold OpenFiles.step
        dsimp only
        rw [opened]
        dsimp only
        rw [if_pos (by omega), show ((k : Int) + 1 - 1).toNat = k by omega, table,
          Function.update_self]
      change OpenedTimes (k + 1) (OpenFiles.step files (.fopen pathA [0x72]))
      rw [step]
      refine ⟨sound, mounted.trans before.mounted, volume.trans before.volume, ?_, fun i => ?_,
        fun i below => ?_⟩
      · dsimp only
        omega
      · dsimp only
        rw [table]
        by_cases here : i = k
        · rw [here, Function.update_self]
          exact iff_of_false found (by omega)
        · rw [Function.update_of_ne here, before.taken]
          omega
      · dsimp only
        by_cases here : i = k
        · exact ⟨desc, found, by rw [here, Function.update_self]⟩
        · obtain ⟨held, isHeld, number⟩ := before.named i (by omega)
          exact ⟨held, isHeld, by rw [Function.update_of_ne (by omega), number]⟩

theorem singleFileVolume_readable : FileSystem.NameReadable singleFileVolume [0x61] := by
  intro i search
  have first : fat16FindItemInDirectory.loop singleFileVolume.rootItems
      singleFileVolume.rootDirectory.total [0x61] = some 0 := by decide
  cases first.symm.trans search
  exact fun isDirectory => absurd (show _ = _ by decide) isDirectory

end Phix
