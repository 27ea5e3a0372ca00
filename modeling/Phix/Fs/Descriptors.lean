import Phix.Fs.Opening

/-! # The descriptors that are open

In a `Phix.FileSystem.Separate` state every open slot holds a descriptor with the slot's
number, and the objects of the open descriptors are live and pairwise distinct. A call on one
descriptor leaves the objects of every other one untouched (`Phix.FileSystem.Untouched`).
-/

namespace Phix

namespace FileSystem

/-- The item behind a descriptor. -/
def itemBehind (fs : FileSystem) (desc : Word) : Word :=
  (fs.fatDescriptorAt (fs.fileDescriptorAt desc).privateData).item

/-- A descriptor with the number of its slot, whose objects are live and distinct. -/
structure Holds (fs : FileSystem) (i : ℕ) (desc : Word) : Prop where
  index : (fs.fileDescriptorAt desc).index = i + 1
  isItem : fs.IsItem (fs.itemBehind desc)
  live : ∀ p ∈ fs.objects desc, fs.machine.live p ≠ none
  distinct : (fs.objects desc).Nodup

structure Separate (fs : FileSystem) : Prop where
  heap : fs.machine.HeapSound
  holds : ∀ i, fs.fileDescriptors i ≠ null → fs.Holds i (fs.fileDescriptors i)
  apart : ∀ i j, i ≠ j → fs.fileDescriptors i ≠ null → fs.fileDescriptors j ≠ null →
    (fs.objects (fs.fileDescriptors i)).Disjoint (fs.objects (fs.fileDescriptors j))

/-! The objects of a descriptor depend on their own records only. -/

section Objects

variable {fs next : FileSystem} {desc : Word} (same : ∀ p ∈ fs.objects desc, fs.SameAt next p)

theorem mem_objects_self (fs : FileSystem) (desc : Word) : desc ∈ fs.objects desc :=
  List.mem_cons_self ..

theorem mem_objects_privateData (fs : FileSystem) (desc : Word) :
    (fs.fileDescriptorAt desc).privateData ∈ fs.objects desc :=
  List.mem_cons_of_mem _ (List.mem_append_right _ (by simp))

theorem mem_objects_item (fs : FileSystem) (desc : Word) : fs.itemBehind desc ∈ fs.objects desc :=
  List.mem_cons_of_mem _ (List.mem_append_right _ (List.mem_cons_self ..))

theorem mem_objects_ref (fs : FileSystem) (desc : Word) :
    (fs.fatItemAt (fs.itemBehind desc)).ref ∈ fs.objects desc := by
  refine List.mem_cons_of_mem _ (List.mem_append_left _ ?_)
  unfold contents itemBehind
  dsimp only
  split <;> simp

include same

theorem fileDescriptorAt_congr : next.fileDescriptorAt desc = fs.fileDescriptorAt desc :=
  (same _ (fs.mem_objects_self desc)).fileDescriptor

theorem fatDescriptorAt_congr :
    next.fatDescriptorAt (next.fileDescriptorAt desc).privateData =
      fs.fatDescriptorAt (fs.fileDescriptorAt desc).privateData := by
  rw [fileDescriptorAt_congr same]
  exact (same _ (fs.mem_objects_privateData desc)).fatDescriptor

theorem itemBehind_congr : next.itemBehind desc = fs.itemBehind desc :=
  congrArg FatFileDescriptor.item (fatDescriptorAt_congr same)

theorem fatItemAt_congr :
    next.fatItemAt (next.itemBehind desc) = fs.fatItemAt (fs.itemBehind desc) := by
  rw [itemBehind_congr same]
  exact (same _ (fs.mem_objects_item desc)).fatItem

theorem objects_congr : next.objects desc = fs.objects desc := by
  have directory := (same _ (fs.mem_objects_ref desc)).directory
  have item := itemBehind_congr same
  have record := fatItemAt_congr same
  have contents : next.contents (next.itemBehind desc) = fs.contents (fs.itemBehind desc) := by
    unfold FileSystem.contents
    dsimp only
    rw [record, directory]
  change desc :: (next.contents (next.itemBehind desc) ++
      [next.itemBehind desc, (next.fileDescriptorAt desc).privateData]) =
    desc :: (fs.contents (fs.itemBehind desc) ++
      [fs.itemBehind desc, (fs.fileDescriptorAt desc).privateData])
  rw [contents, item, fileDescriptorAt_congr same]

/-- A descriptor whose objects stay live stays in order. -/
theorem Holds.congr {i : ℕ} (holds : fs.Holds i desc)
    (live : ∀ p ∈ fs.objects desc, next.machine.live p ≠ none) : next.Holds i desc where
  index := by
    rw [fileDescriptorAt_congr same]
    exact holds.index
  isItem := by
    unfold IsItem
    rw [fatItemAt_congr same]
    exact holds.isItem
  live p member := live p (objects_congr same ▸ member)
  distinct := by
    rw [objects_congr same]
    exact holds.distinct

end Objects

/-- The slot is the same, and so are the records of its objects. -/
structure Untouched (fs next : FileSystem) (i : ℕ) : Prop where
  slot : next.fileDescriptors i = fs.fileDescriptors i
  same : ∀ p ∈ fs.objects (fs.fileDescriptors i), fs.SameAt next p
  volume : next.volume = fs.volume

namespace Untouched

variable {fs middle next : FileSystem} {i : ℕ}

theorem refl (fs : FileSystem) (i : ℕ) : fs.Untouched fs i :=
  ⟨rfl, fun p _ => .refl fs p, rfl⟩

theorem objects (untouched : fs.Untouched next i) :
    next.objects (next.fileDescriptors i) = fs.objects (fs.fileDescriptors i) := by
  rw [untouched.slot]
  exact objects_congr untouched.same

theorem trans (first : fs.Untouched middle i) (second : middle.Untouched next i) :
    fs.Untouched next i where
  slot := second.slot.trans first.slot
  same p member := (first.same p member).trans (second.same p (first.objects ▸ member))
  volume := second.volume.trans first.volume

end Untouched

/-- Everything live is kept with its records, so every open descriptor is untouched. -/
theorem Grows.untouched {fs next : FileSystem} {pointers : List Word}
    (grows : fs.Grows next pointers)
    (separate : fs.Separate) {i : ℕ} (isOpen : fs.fileDescriptors i ≠ null) :
    fs.Untouched next i where
  slot := congrFun grows.fileDescriptors i
  same p member := grows.same p ((separate.holds i isOpen).live p member)
  volume := grows.volume

/-- What is untouched stays separate, in a heap that is sound and still holds its objects. -/
theorem Separate.of_untouched {fs next : FileSystem} (separate : fs.Separate)
    (heap : next.machine.HeapSound)
    (untouched : ∀ i, next.fileDescriptors i ≠ null → fs.Untouched next i)
    (live : ∀ i, next.fileDescriptors i ≠ null → ∀ p ∈ fs.objects (fs.fileDescriptors i),
      next.machine.live p ≠ none) : next.Separate where
  heap := heap
  holds i isOpen := by
    have kept := untouched i isOpen
    rw [kept.slot]
    exact (separate.holds i (kept.slot ▸ isOpen)).congr kept.same (live i isOpen)
  apart i j different isOpen other := by
    rw [(untouched i isOpen).objects, (untouched j other).objects]
    exact separate.apart i j different ((untouched i isOpen).slot ▸ isOpen)
      ((untouched j other).slot ▸ other)

theorem Grows.separate {fs next : FileSystem} {pointers : List Word}
    (grows : fs.Grows next pointers)
    (separate : fs.Separate) (heap : next.machine.HeapSound) : next.Separate := by
  have stays : ∀ i, next.fileDescriptors i ≠ null → fs.fileDescriptors i ≠ null := fun i isOpen =>
    grows.fileDescriptors ▸ isOpen
  exact separate.of_untouched heap (fun i isOpen => grows.untouched separate (stays i isOpen))
    fun i isOpen p member => grows.gains.kept p ((separate.holds i (stays i isOpen)).live p member)

/-! Opening. -/

/-- A descriptor with new objects is put in a free slot. -/
theorem separate_opened {fs middle : FileSystem} (separate : fs.Separate) {i : ℕ} {desc : Word}
    (slot : fs.fileDescriptors i = null) (heap : middle.machine.HeapSound)
    (index : (middle.fileDescriptorAt desc).index = i + 1)
    (isItem : middle.IsItem (middle.itemBehind desc))
    (grows : fs.Grows middle (middle.objects desc)) :
    { middle with fileDescriptors := Function.update fs.fileDescriptors i desc }.Separate ∧
      ∀ j, fs.fileDescriptors j ≠ null → fs.Untouched
        { middle with fileDescriptors := Function.update fs.fileDescriptors i desc } j := by
  have elsewhere : ∀ j, j ≠ i → fs.fileDescriptors j ≠ null → fs.Untouched
      { middle with fileDescriptors := Function.update fs.fileDescriptors i desc } j := by
    intro j different isOpen
    have kept := grows.untouched separate isOpen
    exact ⟨Function.update_of_ne different .., fun p member =>
      ⟨(kept.same p member).fileDescriptor, (kept.same p member).fatDescriptor,
        (kept.same p member).fatItem, (kept.same p member).directory, (kept.same p member).bytes⟩,
      kept.volume⟩
  have here : Function.update fs.fileDescriptors i desc i = desc := Function.update_self ..
  have isOld : ∀ j, j ≠ i → Function.update fs.fileDescriptors i desc j ≠ null →
      fs.fileDescriptors j ≠ null := fun j different isOpen => by
    rwa [Function.update_of_ne different] at isOpen
  have new : ∀ j, j ≠ i → (isOpen : fs.fileDescriptors j ≠ null) →
      (fs.objects (fs.fileDescriptors j)).Disjoint (middle.objects desc) :=
          fun j _ isOpen p old member =>
    (separate.holds j isOpen).live p old (grows.gains.fresh p member)
  refine ⟨{ heap := heap, holds := fun j isOpen => ?_, apart :=
    fun j k different isOpen other => ?_ },
    fun j isOpen => elsewhere j (fun same => isOpen (same ▸ slot)) isOpen⟩
  · by_cases same : j = i
    · subst same
      change FileSystem.Holds _ j (Function.update fs.fileDescriptors j desc j)
      rw [here]
      exact ⟨index, isItem, grows.gains.held, grows.gains.distinct⟩
    · have kept := elsewhere j same (isOld j same isOpen)
      rw [kept.slot]
      exact (separate.holds j (isOld j same isOpen)).congr kept.same fun p member =>
        grows.gains.kept p ((separate.holds j (isOld j same isOpen)).live p member)
  · have mine : FileSystem.objects { middle with
        fileDescriptors := Function.update fs.fileDescriptors i desc }
        (Function.update fs.fileDescriptors i desc i) = middle.objects desc := by
      rw [here]
      rfl
    by_cases first : j = i
    · subst first
      have kept := elsewhere k different.symm (isOld k different.symm other)
      rw [mine, kept.objects]
      exact (new k different.symm (isOld k different.symm other)).symm
    · have kept := elsewhere j first (isOld j first isOpen)
      rw [kept.objects]
      by_cases second : k = i
      · subst second
        rw [mine]
        exact new j first (isOld j first isOpen)
      · rw [(elsewhere k second (isOld k second other)).objects]
        exact separate.apart j k different (isOld j first isOpen) (isOld k second other)

/-! Closing. -/

/-- Releasing what an item refers to. -/
theorem fat16FreeItem_eq {fs : FileSystem} {item : Word} (isItem : fs.IsItem item)
    (nonNull : ∀ p ∈ fs.contents item, p ≠ null) :
    fs.fat16FreeItem item =
      some { fs with machine := (fs.contents item).foldl Machine.kfree fs.machine } := by
  unfold fat16FreeItem contents
  unfold contents at nonNull
  dsimp only at nonNull ⊢
  rcases isItem with directory | file
  · rw [if_pos directory] at nonNull ⊢
    rw [if_pos directory, fat16FreeDirectory_items (nonNull _ (by simp)) rfl (nonNull _ (by simp))]
    rfl
  · have notDirectory : ¬ (fs.fatItemAt item).type = fatItemTypeDirectory := by
      rw [file]
      decide
    rw [if_neg notDirectory, if_neg notDirectory, if_pos file]
    rfl

/-- A number that resolves is that of a slot. -/
theorem fileDescriptorGet_slot {fs : FileSystem} {fd : Int}
    (resolved : fs.fileDescriptorGet fd ≠ null) :
    ∃ i : ℕ, fd = i + 1 ∧ i + 1 < phixMaxFileDescriptors ∧
      fs.fileDescriptorGet fd = fs.fileDescriptors i := by
  unfold fileDescriptorGet at resolved ⊢
  by_cases outside : fd ≤ 0 ∨ (phixMaxFileDescriptors : Int) ≤ fd
  · rw [if_pos outside] at resolved
    exact absurd rfl resolved
  · rw [if_neg outside]
    exact ⟨(fd - 1).toNat, by omega, by omega, rfl⟩

/-- An open descriptor is closed: its objects but the item are released. -/
theorem fclose_eq {fs : FileSystem} (separate : fs.Separate) {fd : Int} {i : ℕ}
    (resolved : fs.fileDescriptorGet fd ≠ null)
    (slot : fs.fileDescriptorGet fd = fs.fileDescriptors i) :
    fs.fclose fd = some (0, { fs with
      fileDescriptors := Function.update fs.fileDescriptors i null
      machine := (fs.contents (fs.itemBehind (fs.fileDescriptors i)) ++
        [(fs.fileDescriptorAt (fs.fileDescriptors i)).privateData,
          fs.fileDescriptors i]).foldl Machine.kfree fs.machine }) := by
  have isOpen : fs.fileDescriptors i ≠ null := slot ▸ resolved
  have holds := separate.holds i isOpen
  have nonNull : ∀ p ∈ fs.contents (fs.itemBehind (fs.fileDescriptors i)), p ≠ null := by
    rintro p member rfl
    exact holds.live null (List.mem_cons_of_mem _ (List.mem_append_left _ member))
      separate.heap.live_null
  have freed := fat16FreeItem_eq holds.isItem nonNull
  have place : ((fs.fileDescriptorAt (fs.fileDescriptors i)).index - 1).toNat = i := by
    rw [holds.index]
    omega
  unfold fclose fat16Close
  dsimp only
  rw [if_neg resolved, slot]
  unfold itemBehind at freed ⊢
  rw [freed]
  simp only [Option.bind_eq_bind, Option.bind_some, if_pos]
  unfold fileDescriptorFree kfree
  dsimp only
  rw [place, List.foldl_append]
  rfl

/-- Closing a descriptor frees its slot and touches no other. -/
theorem fclose_separate {fs : FileSystem} (separate : fs.Separate) {fd : Int} {i : ℕ}
    (resolved : fs.fileDescriptorGet fd ≠ null)
    (slot : fs.fileDescriptorGet fd = fs.fileDescriptors i) :
    ∃ next, fs.fclose fd = some (0, next) ∧ next.Separate ∧
      next.fileDescriptors = Function.update fs.fileDescriptors i null ∧
      ∀ j, j ≠ i → fs.fileDescriptors j ≠ null → fs.Untouched next j := by
  have isOpen : fs.fileDescriptors i ≠ null := slot ▸ resolved
  have holds := separate.holds i isOpen
  refine ⟨_, fclose_eq separate resolved slot, ?_, rfl, fun j different _ =>
    ⟨Function.update_of_ne different .., fun p _ => ⟨rfl, rfl, rfl, rfl, rfl⟩, rfl⟩⟩
  generalize released : fs.contents (fs.itemBehind (fs.fileDescriptors i)) ++
    [(fs.fileDescriptorAt (fs.fileDescriptors i)).privateData, fs.fileDescriptors i] = freed
  have own : ∀ p ∈ freed, p ∈ fs.objects (fs.fileDescriptors i) := by
    intro p member
    rw [← released] at member
    unfold objects
    unfold itemBehind at member
    simp only [List.mem_append, List.mem_cons, List.not_mem_nil, or_false] at member ⊢
    tauto
  have distinct : freed.Nodup := by
    have part : (fs.fileDescriptors i :: (fs.contents (fs.itemBehind (fs.fileDescriptors i)) ++
        [(fs.fileDescriptorAt (fs.fileDescriptors i)).privateData])).Nodup := by
      refine holds.distinct.sublist (List.Sublist.cons_cons _ ?_)
      exact (List.sublist_cons_self _ _).append_left _
    have last := List.perm_append_singleton (fs.fileDescriptors i)
      (fs.contents (fs.itemBehind (fs.fileDescriptors i)) ++
        [(fs.fileDescriptorAt (fs.fileDescriptors i)).privateData])
    rw [List.append_assoc] at last
    rw [← released]
    exact last.nodup_iff.mpr part
  obtain ⟨heap, kept⟩ := separate.heap.foldl_kfree distinct fun p member =>
    holds.live p (own p member)
  have others : ∀ j, Function.update fs.fileDescriptors i null j ≠ null →
      j ≠ i ∧ fs.fileDescriptors j ≠ null := by
    intro j isOther
    have different : j ≠ i := by
      rintro rfl
      rw [Function.update_self] at isOther
      exact isOther rfl
    rw [Function.update_of_ne different] at isOther
    exact ⟨different, isOther⟩
  refine separate.of_untouched heap (fun j isOther => ?_) fun j isOther p member => ?_
  · exact ⟨Function.update_of_ne (others j isOther).1 .., fun p _ => ⟨rfl, rfl, rfl, rfl, rfl⟩, rfl⟩
  · obtain ⟨different, wasOpen⟩ := others j isOther
    change (freed.foldl Machine.kfree fs.machine).live p ≠ none
    rw [kept p fun mine => separate.apart j i different wasOpen isOpen member (own p mine)]
    exact (separate.holds j wasOpen).live p member

/-- What `fopen` may be asked: no request of the heap does harm, and when it succeeds the heap has
served every request and a directory of that name can be read. -/
def OpensSafely (fs : FileSystem) (filename : List Byte) (status : Int) (next : FileSystem) :
    Prop :=
  fs.machine.Permits Request.Clean next.machine ∧
    (0 ≤ status → fs.machine.Permits Request.Served next.machine ∧
      NameReadable fs.volume (firstName filename))

/-- `fopen` takes the first free slot, if it succeeds, and touches no open descriptor. -/
theorem fopen_separate {fs next : FileSystem} (separate : fs.Separate)
    {filename modeStr : List Byte} {status : Int}
    (opened : fs.fopen filename modeStr = some (status, next))
    (safe : fs.OpensSafely filename status next) :
    next.Separate ∧ (∀ j, fs.fileDescriptors j ≠ null → fs.Untouched next j) ∧
      (status < 0 → next.fileDescriptors = fs.fileDescriptors) ∧
      (0 ≤ status → ∃ (i : ℕ) (desc : Word),
        Searches.first (fun i => fs.fileDescriptors i = null) phixMaxFileDescriptors 0 = some i ∧
          status = i + 1 ∧ desc ≠ null ∧
          next.fileDescriptors = Function.update fs.fileDescriptors i desc) := by
  obtain ⟨clean, granted⟩ := safe
  cases fopen_outcome separate.heap opened with
  | failed _ _ negative grows =>
      exact ⟨grows.separate separate (grows.sound.apply clean), fun j isOpen =>
        grows.untouched separate isOpen, fun _ => grows.fileDescriptors, fun positive =>
        absurd positive (not_le.mpr negative)⟩
  | opened i desc middle slot index isItem _ grows full =>
      obtain ⟨served, readable⟩ := granted (by omega)
      obtain ⟨found, whole⟩ := full.apply served readable
      have heap : middle.machine.HeapSound := (grows.apply clean).sound.apply clean
      have free : fs.fileDescriptors i = null := (Searches.first_eq_some.mp slot).2.2.1
      obtain ⟨after, untouched⟩ := separate_opened separate free heap index isItem whole
      exact ⟨after, untouched, fun negative => by omega, fun _ => ⟨i, desc, slot, rfl, found, rfl⟩⟩

end FileSystem

end Phix
