import Mathlib.Data.Nat.Count
import Phix.Fs.Directory
import Phix.Fs.Reading
import Phix.Memory.PagingSystem

/-! # Looking a name up in a directory

The scan of a directory on disk counts the live items, and the lookup searches that many items
from the first one on, deleted ones included. It finds the first live item with the name
exactly when no deleted item has the name and the first live item that has it is among as many
as are live (`Phix.fat16_find_item_in_directory_iff`).
-/

namespace Phix

open Slices

/-- The item is not deleted. -/
def Live (items : List Byte) (i : ℕ) : Prop := field8 (itemAt items i) 0 ≠ 0xE5

instance (items : List Byte) : DecidablePred (Live items) :=
    fun _ => inferInstanceAs (Decidable (_ ≠ _))

/-- The rendered name of the item is the name, up to case. -/
def HasName (items name : List Byte) (i : ℕ) : Prop :=
  SameName (fat16GetFullRelativeFilename (itemAt items i)) name

instance (items name : List Byte) : DecidablePred (HasName items name) :=
  fun _ => inferInstanceAs (Decidable (SameName _ _))

/-- The content of a directory of `count` items: none of them starts with a NUL, and the one
that follows does. -/
structure DirectoryContent (items : List Byte) (count : ℕ) : Prop where
  used : ∀ i < count, field8 (itemAt items i) 0 ≠ 0
  terminated : field8 (itemAt items count) 0 = 0

/-- The first live item with the name, in a directory of `count` items. -/
structure FirstLive (items name : List Byte) (count i : ℕ) : Prop where
  inside : i < count
  live : Live items i
  named : HasName items name i
  least : ∀ j < i, Live items j → ¬ HasName items name j

/-- The position on the disk of an item of a directory that starts at a sector. -/
def itemPosition (sector : Word) (i : ℕ) : ℕ :=
  sector.toNat * phixSectorSize + sizeofFatDirectoryItem * i

theorem itemPosition_succ (sector : Word) (i : ℕ) :
    itemPosition sector (i + 1) = itemPosition sector i + 32 := by
  unfold itemPosition sizeofFatDirectoryItem
  omega

theorem itemPosition_mono (sector : Word) {i j : ℕ} (le : i ≤ j) :
    itemPosition sector i + 32 * (j - i) = itemPosition sector j := by
  unfold itemPosition sizeofFatDirectoryItem
  omega

/-- The items of a directory lie on the disk from a sector on. -/
structure Disk.HoldsItems (disk : Disk) (items : List Byte) (count : ℕ) (sector : Word) : Prop where
  addressed : itemPosition sector (count + 1) ≤ 2 ^ 31
  stored : ∀ i ≤ count, slice disk.image (itemPosition sector i) sizeofFatDirectoryItem =
    (itemAt items i).take sizeofFatDirectoryItem

theorem Disk.HoldsItems.small {disk : Disk} {items : List Byte} {count : ℕ} {sector : Word}
    (holds : disk.HoldsItems items count sector) : count < 2 ^ 26 := by
  have addressed := holds.addressed
  unfold itemPosition sizeofFatDirectoryItem at addressed
  omega

theorem field8_take (bytes : List Byte) {k n : ℕ} (inside : k < n) :
    field8 (bytes.take n) k = field8 bytes k := by
  unfold field8
  rw [List.getD_eq_getElem?_getD, List.getD_eq_getElem?_getD, List.getElem?_take_of_lt inside]

section Count

variable {disk : Disk} {items : List Byte} {count : ℕ} {sector : Word}

theorem count_lt (p : ℕ → Prop) [DecidablePred p] {i bound : ℕ} (below : i < bound) :
    Nat.count p i < bound := (Nat.count_le p).trans_lt below

/-- The scan counts the live items. -/
theorem fat16GetTotalItemsForDirectory.loop_eq (disk0 : disk.isDisk0 = true)
    (content : DirectoryContent items count) (holds : disk.HoldsItems items count sector)
    {remaining i : ℕ} (inside : i ≤ count) (enough : count - i < remaining) :
    ∃ pos, fat16GetTotalItemsForDirectory.loop disk remaining (itemPosition sector i)
        (Nat.count (Live items) i : ℕ) = some
            (((Nat.count (Live items) count : ℕ) : Int), pos) := by
  have addressed := holds.addressed
  have small := holds.small
  induction remaining generalizing i with
  | zero => omega
  | succ remaining ih =>
      have next := itemPosition_succ sector i
      have bound := itemPosition_mono sector (show i + 1 ≤ count + 1 by omega)
      have read : diskstreamerRead disk (itemPosition sector i) sizeofFatDirectoryItem =
          (0, (itemAt items i).take sizeofFatDirectoryItem,
              int32 (itemPosition sector (i + 1))) := by
        rw [diskstreamerRead_eq disk0 (by unfold sizeofFatDirectoryItem; omega),
          holds.stored i inside, next]
        rfl
      have first : field8 ((itemAt items i).take sizeofFatDirectoryItem) 0 =
          field8 (itemAt items i) 0 := field8_take _ (by decide)
      unfold fat16GetTotalItemsForDirectory.loop
      rw [read]
      dsimp only
      rw [if_neg (lt_irrefl 0), first]
      by_cases last : i = count
      · rw [last, if_pos content.terminated]
        exact ⟨_, rfl⟩
      · have before : i < count := by omega
        have after := itemPosition_succ sector (i + 1)
        have limit := itemPosition_mono sector (show i + 1 + 1 ≤ count + 1 by omega)
        have moved : int32 (itemPosition sector (i + 1)) = itemPosition sector (i + 1) := by
          rw [int32_eq_self] <;> omega
        obtain ⟨pos, rest⟩ := ih before (by omega)
        rw [if_neg (content.used i before), moved]
        refine ⟨pos, ?_⟩
        by_cases live : Live items i
        · have counted := count_lt (Live items) (before.trans small)
          have grows : int32 ((Nat.count (Live items) i : ℕ) + 1) =
              ((Nat.count (Live items) (i + 1) : ℕ) : Int) := by
            rw [Nat.count_succ, if_pos live, int32_eq_self (by omega) (by omega), Nat.cast_add,
              Nat.cast_one]
          rw [if_neg live, grows, rest]
        · have same : Nat.count (Live items) (i + 1) = Nat.count (Live items) i := by
            rw [Nat.count_succ, if_neg live, Nat.add_zero]
          rw [if_pos (not_not.mp live), ← same, rest]

theorem fat16GetTotalItemsForDirectory_eq (disk0 : disk.isDisk0 = true)
    (content : DirectoryContent items count) (holds : disk.HoldsItems items count sector) :
    ∃ pos, fat16GetTotalItemsForDirectory disk sector =
      some (((Nat.count (Live items) count : ℕ) : Int), pos) := by
  have addressed := holds.addressed
  have bound := itemPosition_mono sector (Nat.zero_le (count + 1))
  have start : int32 (sector.toNat * phixSectorSize) = itemPosition sector 0 := by
    have exact : sector.toNat * phixSectorSize = itemPosition sector 0 := (Nat.add_zero _).symm
    rw [← Nat.cast_mul, exact, int32_eq_self] <;> omega
  unfold fat16GetTotalItemsForDirectory
  rw [start]
  have scan := fat16GetTotalItemsForDirectory.loop_eq disk0 content holds (Nat.zero_le count)
    (show count - 0 < scanLimit by unfold scanLimit; omega)
  rwa [Nat.count_zero] at scan

end Count

section Names

variable {items : List Byte} {i : ℕ}

/-- The rendered name of an item starts with `0xE5` exactly when the item is deleted. -/
theorem fat16GetFullRelativeFilename_head (item : List Byte) :
    (fat16GetFullRelativeFilename item).head? = some 0xE5 ↔ field8 item 0 = 0xE5 := by
  have stripped : (strcpyStrip item).head? = some 0xE5 ↔ field8 item 0 = 0xE5 := by
    unfold strcpyStrip field8
    cases item with
    | nil => exact iff_of_false (by simp) (by decide)
    | cons c rest =>
        rw [List.head?_takeWhile]
        simp only [List.head?_cons, List.getD_cons_zero, Option.filter_eq_some_iff, Option.some_inj]
        exact and_iff_left_of_imp fun _ => by decide
  have dotted : ∀ rest : List Byte, (strcpyStrip item ++ 0x2E :: rest).head? = some 0xE5 ↔
      (strcpyStrip item).head? = some 0xE5 := by
    intro rest
    cases strcpyStrip item with
    | nil => exact iff_of_false (fun same => absurd (Option.some.inj same) (by decide)) (by decide)
    | cons c name => rfl
  unfold fat16GetFullRelativeFilename
  split
  · rw [dotted, stripped]
  · exact stripped

theorem toLower_eq_deleted {c : Byte} : toLower c = 0xE5 ↔ c = 0xE5 := by
  revert c
  decide

/-- A name that a deleted item has is no live item's. -/
theorem HasName.not_live {name : List Byte} {j : ℕ} (deleted : ¬ Live items i)
    (named : HasName items name i) (other : HasName items name j) : ¬ Live items j := by
  have first : ((fat16GetFullRelativeFilename (itemAt items i)).map toLower).head? = some 0xE5 := by
    rw [List.head?_map, (fat16GetFullRelativeFilename_head _).mpr (not_not.mp deleted)]
    rfl
  have same : (fat16GetFullRelativeFilename (itemAt items i)).map toLower =
      (fat16GetFullRelativeFilename (itemAt items j)).map toLower := named.trans other.symm
  rw [same, List.head?_map, Option.map_eq_some_iff] at first
  obtain ⟨c, head, lower⟩ := first
  rw [toLower_eq_deleted.mp lower] at head
  exact not_not_intro ((fat16GetFullRelativeFilename_head _).mp head)

/-- The search: the first item with the name among the first `total`. -/
theorem fat16FindItemInDirectory.loop_eq_some {total : Word} {name : CString}
    (short : name.bytes.length < phixMaxPath) :
    fat16FindItemInDirectory.loop items total name.bytes = some i ↔
      i < total.toNat ∧ HasName items name.bytes i ∧ ∀ j < i, ¬ HasName items name.bytes j := by
  have compares : ∀ j, istrncmp (fat16GetFullRelativeFilename (itemAt items j)) name.bytes
      phixMaxPath = 0 ↔ HasName items name.bytes j := fun j =>
    istrncmp_eq_zero_iff (fat16GetFullRelativeFilename_terminated _) name.terminated (.inr short)
  unfold fat16FindItemInDirectory.loop
  rw [Searches.first_eq_some]
  simp only [compares, Nat.zero_le, true_and, true_implies, Nat.zero_add]

theorem fat16FindItemInDirectory.loop_eq_none {total : Word} {name : CString}
    (short : name.bytes.length < phixMaxPath) :
    fat16FindItemInDirectory.loop items total name.bytes = none ↔
      ∀ j < total.toNat, ¬ HasName items name.bytes j := by
  have compares : ∀ j, istrncmp (fat16GetFullRelativeFilename (itemAt items j)) name.bytes
      phixMaxPath = 0 ↔ HasName items name.bytes j := fun j =>
    istrncmp_eq_zero_iff (fat16GetFullRelativeFilename_terminated _) name.terminated (.inr short)
  unfold fat16FindItemInDirectory.loop
  rw [Searches.first_eq_none]
  simp only [compares, Nat.zero_le, true_implies, Nat.zero_add]

end Names

/-- The scan of the directory that an item names. -/
def Volume.scanOf (volume : Volume) (item : List Byte) : Option (Int × Int) :=
  fat16GetTotalItemsForDirectory volume.disk (BitVec.ofInt 32
    (fat16ClusterToSector volume (fat16GetFirstCluser item).toInt))

namespace FileSystem

/-- Loading a directory never ends exactly when there is a block for it and its scan does not. -/
theorem fat16LoadFatDirectory_eq_none {fs : FileSystem} {item : List Byte}
    (isDirectory : itemAttributes item &&& fatFileSubdirectory ≠ 0) :
    fs.fat16LoadFatDirectory item = none ↔
      (fs.kzalloc sizeofFatDirectory).1 ≠ null ∧ fs.volume.scanOf item = none := by
  unfold fat16LoadFatDirectory
  rw [if_neg isDirectory]
  cases allocated : fs.kzalloc sizeofFatDirectory with
  | mk directory middle =>
      have volume : middle.volume = fs.volume := by
        rw [← show (fs.kzalloc sizeofFatDirectory).2 = middle from congrArg Prod.snd allocated]
        rfl
      dsimp only
      by_cases made : directory = null
      · rw [if_pos made]
        exact iff_of_false (fun none => by cases none) fun both => both.1 made
      · rw [if_neg made, volume, and_iff_right made]
        change Option.bind (fs.volume.scanOf item) _ = none ↔ _
        cases scanned : fs.volume.scanOf item with
        | none => exact iff_of_true rfl rfl
        | some result =>
            refine iff_of_false ?_ (by simp)
            rw [Option.bind_some]
            intro never
            split at never <;> cases never

/-- The scan of the directory that an item names ends, or does not start because the heap has no
block for the directory beside that of the item. -/
def ScanEnds (fs : FileSystem) (item : List Byte) : Prop :=
  itemAttributes item &&& fatFileSubdirectory ≠ 0 →
    fs.volume.scanOf item ≠ none ∨ (fs.kzalloc sizeofFatItem).2.machine.freeBlocks = ∅

/-- Making an item never ends exactly when there is a block for it and its scan does not end. -/
theorem fat16NewFatItemForDirectoryItem_eq_none {fs : FileSystem} {item : List Byte} :
    fs.fat16NewFatItemForDirectoryItem item = none ↔
      fs.machine.freeBlocks ≠ ∅ ∧ ¬ fs.ScanEnds item := by
  rw [ne_eq, ← fs.machine.kzalloc_eq_null_iff .kernel (show 1 ≤ sizeofFatItem.toNat by decide)
    (by decide)]
  change _ ↔ (fs.kzalloc sizeofFatItem).1 ≠ null ∧ _
  unfold fat16NewFatItemForDirectoryItem ScanEnds
  have volume : (fs.kzalloc sizeofFatItem).2.volume = fs.volume := rfl
  generalize fs.kzalloc sizeofFatItem = allocated at volume
  obtain ⟨fItem, middle⟩ := allocated
  dsimp only at volume ⊢
  have second : (middle.kzalloc sizeofFatDirectory).1 = null ↔ middle.machine.freeBlocks = ∅ :=
    middle.machine.kzalloc_eq_null_iff .kernel (show 1 ≤ sizeofFatDirectory.toNat by decide)
      (by decide)
  by_cases isNull : fItem = null
  · rw [if_pos isNull]
    exact iff_of_false (fun never => by cases never) fun both => both.1 isNull
  · rw [if_neg isNull, and_iff_right isNull]
    by_cases isDirectory : itemAttributes item &&& fatFileSubdirectory ≠ 0
    · rw [if_pos isDirectory, ← volume, ← second]
      have loads : middle.fat16LoadFatDirectory item = none ↔ _ :=
        fat16LoadFatDirectory_eq_none isDirectory
      rw [Option.bind_eq_bind, Option.bind_eq_none_iff]
      constructor
      · intro never ends
        have none : middle.fat16LoadFatDirectory item = none :=
          Option.eq_none_iff_forall_ne_some.mpr fun result loaded => by cases never result loaded
        obtain ⟨made, endless⟩ := loads.mp none
        rcases ends isDirectory with scanned | full
        · exact scanned endless
        · exact made full
      · intro endless result loaded
        push Not at endless
        obtain ⟨_, scan, made⟩ := endless
        cases (loads.mpr ⟨made, scan⟩).symm.trans loaded
    · rw [if_neg isDirectory]
      exact iff_of_false (fun never => by cases never) fun ends => ends fun directory =>
        absurd directory isDirectory

/-- An item whose making never ends is a directory whose scan does not. -/
theorem fat16NewFatItemForDirectoryItem_endless {fs : FileSystem} {item : List Byte}
    (never : fs.fat16NewFatItemForDirectoryItem item = none) :
    itemAttributes item &&& fatFileSubdirectory ≠ 0 ∧ fs.volume.scanOf item = none := by
  have endless := (fat16NewFatItemForDirectoryItem_eq_none.mp never).2
  unfold ScanEnds at endless
  push Not at endless
  exact ⟨endless.1, endless.2.1⟩

end FileSystem

/-- No item is made exactly when there is no free block for it. -/
theorem FileSystem.fat16NewFatItemForDirectoryItem_null (fs : FileSystem) (item : List Byte) :
    (∃ next, fs.fat16NewFatItemForDirectoryItem item = some (null, next)) ↔
      fs.machine.freeBlocks = ∅ := by
  rw [← fs.machine.kzalloc_eq_null_iff .kernel (show 1 ≤ sizeofFatItem.toNat by decide) (by decide)]
  unfold FileSystem.fat16NewFatItemForDirectoryItem FileSystem.kzalloc
  generalize fs.machine.kzalloc .kernel sizeofFatItem = allocated
  obtain ⟨p, machine⟩ := allocated
  dsimp only
  by_cases isNull : p = null
  · rw [if_pos isNull]
    exact iff_of_true ⟨_, rfl⟩ isNull
  · rw [if_neg isNull]
    refine iff_of_false ?_ isNull
    rintro ⟨next, made⟩
    split at made
    · simp only [Option.bind_eq_bind, Option.bind_eq_some_iff, Option.some.injEq, Prod.mk.injEq]
        at made
      obtain ⟨_, _, pointer, _⟩ := made
      exact isNull pointer
    · simp only [Option.some.injEq, Prod.mk.injEq] at made
      exact isNull made.1

/-- An item is made exactly when there is a block for it and the scan of its directory ends. -/
theorem FileSystem.fat16NewFatItemForDirectoryItem_found (fs : FileSystem) (item : List Byte) :
    (∃ p next, p ≠ null ∧ fs.fat16NewFatItemForDirectoryItem item = some (p, next)) ↔
      fs.machine.freeBlocks ≠ ∅ ∧ fs.ScanEnds item := by
  constructor
  · rintro ⟨p, next, found, made⟩
    have room : fs.machine.freeBlocks ≠ ∅ := fun full => by
      obtain ⟨_, isNull⟩ := (fs.fat16NewFatItemForDirectoryItem_null item).mpr full
      cases made.symm.trans isNull
      exact found rfl
    refine ⟨room, ?_⟩
    by_contra endless
    cases (fat16NewFatItemForDirectoryItem_eq_none.mpr ⟨room, endless⟩).symm.trans made
  · rintro ⟨room, ends⟩
    cases made : fs.fat16NewFatItemForDirectoryItem item with
    | none => exact absurd ends (fat16NewFatItemForDirectoryItem_eq_none.mp made).2
    | some result =>
        refine ⟨result.1, result.2, fun isNull => room ?_, rfl⟩
        rw [← fs.fat16NewFatItemForDirectoryItem_null item]
        exact ⟨result.2, by rw [made, ← isNull]⟩

/-- **What the search among the first `total` items of a directory of `count` finds**: the first
live item with the name, nothing because no live item has it, nothing although a live item
beyond `total` has it, or a deleted item. -/
inductive LookupOutcome (items name : List Byte) (count total : ℕ) : Option ℕ → Prop where
  | found (i : ℕ) (first : FirstLive items name count i) (inside : i < total) :
      LookupOutcome items name count total (some i)
  | absent (noLive : ∀ j < count, Live items j → ¬ HasName items name j)
      (search : ∀ j < total, ¬ HasName items name j) : LookupOutcome items name count total none
  | beyond (i : ℕ) (first : FirstLive items name count i) (late : total ≤ i)
      (search : ∀ j < total, ¬ HasName items name j) : LookupOutcome items name count total none
  | deleted (i : ℕ) (inside : i < total) (notLive : ¬ Live items i) (named : HasName items name i) :
      LookupOutcome items name count total (some i)

theorem firstLive_of_exists {items name : List Byte} {count : ℕ}
    (exist : ¬ ∀ j < count, Live items j → ¬ HasName items name j) :
    ∃ i, FirstLive items name count i := by
  simp only [not_forall, not_not] at exist
  obtain ⟨j, inside, live, named⟩ := exist
  have found : ∃ i, i < count ∧ Live items i ∧ HasName items name i := ⟨j, inside, live, named⟩
  obtain ⟨below, isLive, isNamed⟩ := Nat.find_spec found
  exact ⟨Nat.find found, below, isLive, isNamed, fun k before other itsName =>
    Nat.find_min found before ⟨before.trans below, other, itsName⟩⟩

theorem fat16FindItemInDirectory.loop_outcome {items : List Byte} {count : ℕ} {total : Word}
    {name : CString} (short : name.bytes.length < phixMaxPath) (within : total.toNat ≤ count) :
    LookupOutcome items name.bytes count total.toNat
      (fat16FindItemInDirectory.loop items total name.bytes) := by
  cases search : fat16FindItemInDirectory.loop items total name.bytes with
  | none =>
      rw [fat16FindItemInDirectory.loop_eq_none short] at search
      by_cases noLive : ∀ j < count, Live items j → ¬ HasName items name.bytes j
      · exact .absent noLive search
      · obtain ⟨i, first⟩ := firstLive_of_exists noLive
        exact .beyond i first (not_lt.mp fun inside => search i inside first.named) search
  | some k =>
      rw [fat16FindItemInDirectory.loop_eq_some short] at search
      obtain ⟨inside, named, least⟩ := search
      by_cases live : Live items k
      · exact .found k ⟨inside.trans_le within, live, named,
          fun j before _ => least j before⟩ inside
      · exact .deleted k inside live named

/-- The lookup returns an item that was made for the first live one with the name, and null exactly
when no live one has it. -/
def FindsLive (fs : FileSystem) (items name : List Byte) (count : ℕ)
    (result : Option (Word × FileSystem)) : Prop :=
  (∀ i, FirstLive items name count i → ∃ p next, p ≠ null ∧ result = some (p, next) ∧
    fs.fat16NewFatItemForDirectoryItem (itemAt items i) = some (p, next)) ∧
  ((∀ i < count, Live items i → ¬ HasName items name i) → ∃ next, result = some (null, next))

theorem FirstLive.unique {items name : List Byte} {count i j : ℕ}
    (first : FirstLive items name count i)
    (other : FirstLive items name count j) : i = j := by
  rcases Nat.lt_trichotomy i j with before | same | after
  · exact absurd first.named (other.least i before first.live)
  · exact same
  · exact absurd other.named (first.least j after other.live)

/-- **A lookup sees exactly the live items when no deleted item has the name, the first live item
with the name is among as many items as are live, there is a block for it, and the scan of its
directory ends.** A full heap hides a deleted item. -/
theorem fat16_find_item_in_directory_iff {disk : Disk} (disk0 : disk.isDisk0 = true)
    {items : List Byte} {count : ℕ} {sector : Word} (content : DirectoryContent items count)
    (holds : disk.HoldsItems items count sector) {totalItems pos : Int}
    (counted : fat16GetTotalItemsForDirectory disk sector = some (totalItems, pos))
    (fs : FileSystem) {name : CString} (short : name.bytes.length < phixMaxPath) :
    FindsLive fs items name.bytes count
        (fs.fat16FindItemInDirectory items (BitVec.ofInt 32 totalItems) name.bytes) ↔
      (∀ i < Nat.count (Live items) count, HasName items name.bytes i →
        Live items i ∨ fs.machine.freeBlocks = ∅) ∧
      ∀ i, FirstLive items name.bytes count i →
        i < Nat.count (Live items) count ∧ fs.machine.freeBlocks ≠ ∅ ∧
          fs.ScanEnds (itemAt items i) := by
  obtain ⟨_, scanned⟩ := fat16GetTotalItemsForDirectory_eq disk0 content holds
  obtain ⟨rfl, _⟩ := Prod.mk.inj (Option.some.inj (counted.symm.trans scanned))
  have bound := count_lt (Live items) holds.small
  have total : (BitVec.ofInt 32 ((Nat.count (Live items) count : ℕ) : Int)).toNat =
      Nat.count (Live items) count := by
    rw [BitVec.ofInt_natCast, BitVec.toNat_ofNat, Nat.mod_eq_of_lt (by omega)]
  have outcome : LookupOutcome items name.bytes count _ _ :=
    fat16FindItemInDirectory.loop_outcome short
      (total.le.trans (Nat.count_le (Live items) (n := count)))
  have null_iff := fs.fat16NewFatItemForDirectoryItem_null
  have made_iff := fs.fat16NewFatItemForDirectoryItem_found
  unfold FileSystem.fat16FindItemInDirectory
  rw [total] at outcome
  generalize fat16FindItemInDirectory.loop items _ name.bytes = search at outcome
  cases outcome with
  | found k first inside =>
      dsimp only
      constructor
      · rintro ⟨finds, _⟩
        obtain ⟨p, next, found, _, made⟩ := finds k first
        refine ⟨fun i _ itsName => .inl ?_, fun i other => ?_⟩
        · by_contra notLive
          exact HasName.not_live notLive itsName first.named first.live
        · rw [← first.unique other]
          exact ⟨inside, (made_iff _).mp ⟨p, next, found, made⟩⟩
      · rintro ⟨_, early⟩
        refine ⟨fun i other => ?_,
          fun noLive => absurd first.named (noLive k first.inside first.live)⟩
        obtain ⟨p, next, found, made⟩ := (made_iff _).mpr (early i other).2
        rw [first.unique other]
        exact ⟨p, next, found, made, made⟩
  | absent noLive search =>
      refine iff_of_true ⟨fun i first => ?_, fun _ => ⟨fs, rfl⟩⟩
        ⟨fun i inside named => ?_, fun i first => ?_⟩
      · exact absurd first.named (noLive i first.inside first.live)
      · exact absurd named (search i inside)
      · exact absurd first.named (noLive i first.inside first.live)
  | beyond k first late =>
      refine iff_of_false (fun finds => ?_) fun early => ?_
      · obtain ⟨p, next, notNull, found, _⟩ := finds.1 k first
        cases found
        exact notNull rfl
      · exact absurd (early.2 k first).1 (not_lt.mpr late)
  | deleted k inside notLive named =>
      have noLive : ∀ j < count, Live items j → ¬ HasName items name.bytes j :=
          fun j _ live itsName =>
        HasName.not_live notLive named itsName live
      dsimp only
      constructor
      · rintro ⟨_, misses⟩
        have full := (null_iff _).mp (misses noLive)
        exact ⟨fun _ _ _ => .inr full,
          fun i first => absurd first.named (noLive i first.inside first.live)⟩
      · rintro ⟨hidden, _⟩
        have full := (hidden k inside named).resolve_left notLive
        exact ⟨fun i first => absurd first.named (noLive i first.inside first.live),
          fun _ => (null_iff _).mpr full⟩

/-! A directory with a deleted item before a live one. -/

/-- An item with a one-byte name, a blank extension and no attribute. -/
def plainItem (first : Byte) : List Byte := first :: List.replicate 10 0x20 ++ List.replicate 21 0

/-- A disk that holds the bytes from its first sector on. -/
def Disk.ofBytes (bytes : List Byte) : Disk where
  isDisk0 := true
  sector lba i := bytes.getD (lba.toNat * phixSectorSize + i) 0
  stray _ := 0

/-- The item `0xE5`, deleted, and the item `A`. -/
def deletedThenLive : List Byte := plainItem 0xE5 ++ plainItem 0x41 ++ List.replicate 32 0

theorem deletedThenLive_content : DirectoryContent deletedThenLive 2 where
  used := by decide
  terminated := by decide

theorem deletedThenLive_holds : (Disk.ofBytes deletedThenLive).HoldsItems deletedThenLive 2 0 where
  addressed := by decide
  stored := by decide

def nameA : CString := ⟨[0x61], by decide⟩

theorem deletedThenLive_first : FirstLive deletedThenLive nameA.bytes 2 1 where
  inside := by decide
  live := by decide
  named := by decide
  least := by decide

/-- A file system over an empty heap. -/
def freshFileSystem : FileSystem := FileSystem.fresh (Machine.booted fun _ => 0) oneSectorVolume

theorem freshFileSystem_room : freshFileSystem.machine.freeBlocks ≠ ∅ := by
  change (Machine.booted _).freeBlocks ≠ ∅
  rw [Machine.booted_freeBlocks]
  exact (Finset.nonempty_range_iff.mpr (by decide)).ne_empty

/-- The live item after a deleted one is not found. -/
theorem fat16_find_item_in_directory_fails :
    DirectoryContent deletedThenLive 2 ∧
      (Disk.ofBytes deletedThenLive).HoldsItems deletedThenLive 2 0 ∧
      ∃ totalItems pos, fat16GetTotalItemsForDirectory (Disk.ofBytes deletedThenLive) 0 =
          some (totalItems, pos) ∧
        ¬ FindsLive freshFileSystem deletedThenLive nameA.bytes 2
          (freshFileSystem.fat16FindItemInDirectory deletedThenLive (BitVec.ofInt 32 totalItems)
            nameA.bytes) := by
  obtain ⟨pos, counted⟩ := fat16GetTotalItemsForDirectory_eq rfl deletedThenLive_content
    deletedThenLive_holds
  refine ⟨deletedThenLive_content, deletedThenLive_holds, _, pos, counted, fun finds => ?_⟩
  have missed : fat16FindItemInDirectory.loop deletedThenLive
      (BitVec.ofInt 32 ((Nat.count (Live deletedThenLive) 2 : ℕ) : Int)) nameA.bytes = none := by
    decide
  obtain ⟨p, next, found, result, _⟩ := finds.1 1 deletedThenLive_first
  unfold FileSystem.fat16FindItemInDirectory at result
  rw [missed] at result
  cases result
  exact found rfl

/-- The only item of a directory, live, is found under its name in lower case. -/
theorem fat16_find_item_in_directory_iff_single :
    ∃ totalItems : Int, FindsLive freshFileSystem
      (plainItem 0x41 ++ List.replicate 32 0) nameA.bytes 1
      (freshFileSystem.fat16FindItemInDirectory (plainItem 0x41 ++ List.replicate 32 0)
        (BitVec.ofInt 32 totalItems) nameA.bytes) := by
  have content : DirectoryContent (plainItem 0x41 ++ List.replicate 32 0) 1 :=
    ⟨by decide, by decide⟩
  have holds : (Disk.ofBytes (plainItem 0x41 ++ List.replicate 32 0)).HoldsItems
      (plainItem 0x41 ++ List.replicate 32 0) 1 0 := ⟨by decide, by decide⟩
  obtain ⟨pos, counted⟩ := fat16GetTotalItemsForDirectory_eq rfl content holds
  refine ⟨_, (fat16_find_item_in_directory_iff rfl content holds counted freshFileSystem
    (show nameA.bytes.length < phixMaxPath by decide)).mpr ⟨?_, fun i first => ⟨?_, ?_⟩⟩⟩
  · exact fun i inside _ => .inl (by revert i; decide)
  · have inside := first.inside
    have single : Nat.count (Live (plainItem 0x41 ++ List.replicate 32 0)) 1 = 1 := by decide
    omega
  · refine ⟨freshFileSystem_room, fun directory => absurd ?_ directory⟩
    have inside := first.inside
    obtain rfl : i = 0 := by omega
    decide

end Phix
