import Phix.Memory.Gains

/-! # What a failing call keeps

A call of the kernel may allocate, and release what it has allocated; the file system may also
release its own. Between the machines before and after such a call (`Phix.Machine.Keeps`)
every allocation that is not the file system's is still live. A pointer is disposable when its
release keeps that: it is null, was allocated since, or points at a block that is free.
-/

namespace Phix

/-- Releasing a block that is free takes none that is taken. -/
theorem HeapInv.free_of_free {heap : Heap} {live : LiveSizes} (inv : HeapInv heap live)
    (nonNull : heap.saddr ≠ null) {s : ℕ} (inside : s < heap.table.total.toNat)
    (free : heap.table.IsFree s) : HeapInv (heapFree heap (heap.blockAddress s)) live := by
  refine inv.of_taken (heapFree_saddr ..) (heapFree_total ..) fun i _ taken => ?_
  have notNull := inv.pool.blockAddress_ne_null nonNull inside
  unfold HeapTable.IsTaken
  rw [heapFree_blockAddress_entries inv.pool inside notNull]
  split
  · rw [Function.update_of_ne]
    · exact taken
    · rintro rfl
      exact free.not_taken taken
  · exact taken

/-- A write of up to `size` bytes. -/
theorem write_beyond (memory : ByteMemory) {p x size : Word} (content : ℕ → Byte) {n : ℕ}
    (fits : n ≤ size.toNat) (beyond : ¬ (x - p).toNat < size.toNat) :
    memory.write p content n x = memory x := by
  have bound := size.isLt
  rw [memory.write_apply p content (by omega), if_neg (by omega)]

namespace Machine

/-- The heap and its chunks are sound, and what was live and not the file system's still is. -/
structure Keeps (machine next : Machine) : Prop where
  paging : next.PagingSound
  kept : ∀ p allocation, machine.live p = some allocation → allocation.owner ≠ .kernel →
    next.live p = some allocation

/-- A pointer that is not live, except for the file system. -/
def Spare (machine : Machine) (p : Word) : Prop :=
  ∀ allocation, machine.live p = some allocation → allocation.owner = .kernel

/-- Releasing the pointer in `next` takes nothing away that was live in `machine`. -/
def Disposable (machine next : Machine) (p : Word) : Prop :=
  p = null ∨ (machine.Spare p ∧ ∃ allocation, next.live p = some allocation ∧
    ¬ allocation.owner.IsPaging) ∨
  ∃ s < 25600, p = poolBlock s ∧ (kernelHeap next.memory).table.IsFree s

theorem HeapSound.kfree_null_eq {machine : Machine} (sound : machine.HeapSound) :
    machine.kfree null = machine := by
  have live : (machine.kfree null).live = machine.live := sound.kfree_null.2
  have memory : (machine.kfree null).memory = machine.memory := by
    change storeTable (heapFree (kernelHeap machine.memory) null).table = machine.memory
    unfold heapFree
    rw [if_pos rfl, storeTable_kernelHeap]
  calc
    machine.kfree null = { machine with
        memory := (machine.kfree null).memory, live := (machine.kfree null).live } := rfl
    _ = machine := by rw [live, memory]

/-- A request for nothing marks no block: it fails, or it returns one that stays free. -/
theorem HeapSound.kzalloc_zero {machine : Machine} (sound : machine.HeapSound) (owner : Owner) :
    (¬ (kernelHeap machine.memory).table.TailFree ∧ (machine.kzalloc owner 0).1 = null) ∨
      (kernelHeap machine.memory).table.TailFree ∧ ∃ s < 25600,
        (machine.kzalloc owner 0).1 = poolBlock s ∧
          (kernelHeap (machine.kzalloc owner 0).2.memory).table.IsFree s := by
  have improper : ¬ Proper 0 := by decide
  obtain ⟨_, same⟩ := sound.kzalloc_unchanged owner (by decide)
    (fun granted => improper granted.2)
  rcases heapMalloc_of_not_proper (kernelHeap_pool machine.memory) improper with
    ⟨taken, result⟩ | ⟨tail, s, inside, free, result⟩
  · exact .inl ⟨taken, congrArg Prod.fst result⟩
  · refine .inr ⟨tail, s, inside, congrArg Prod.fst result, ?_⟩
    have member : s ∈ machine.freeBlocks := mem_freeBlocks.mpr ⟨inside, free⟩
    rw [← same] at member
    exact (mem_freeBlocks.mp member).2

/-- Releasing a block that is free changes no live allocation. -/
theorem PagingSound.kfree_free {machine : Machine} (paging : machine.PagingSound) {s : ℕ}
    (inside : s < 25600) (free : (kernelHeap machine.memory).table.IsFree s) :
    (machine.kfree (poolBlock s)).PagingSound ∧
      (machine.kfree (poolBlock s)).live = machine.live := by
  have absent := paging.sound.not_live_of_free inside free
  have live : (machine.kfree (poolBlock s)).live = machine.live := by
    change Function.update machine.live (poolBlock s) none = machine.live
    rw [← absent, Function.update_eq_self]
  have sizes : (machine.kfree (poolBlock s)).sizes = machine.sizes := by
    unfold sizes
    rw [live]
  have sound : (machine.kfree (poolBlock s)).HeapSound := by
    unfold HeapSound
    rw [sizes]
    exact (HeapInv.free_of_free paging.sound (show phixHeapSaddress ≠ null by decide) inside
      free).of_storeTable
      (heapFree_saddr ..) (heapFree_total ..)
  have released : machine.Released ∅ (machine.kfree (poolBlock s)) :=
    ⟨sound, fun p member => member.elim, fun p _ => by rw [live], fun x => machine.kfree_memory _⟩
  exact ⟨paging.released released fun _ _ _ _ _ _ member => member.elim, live⟩

namespace Keeps

variable {machine middle next : Machine}

theorem refl (paging : machine.PagingSound) : machine.Keeps machine :=
    ⟨paging, fun _ _ held _ => held⟩

theorem trans (first : machine.Keeps middle) (second : middle.Keeps next) : machine.Keeps next where
  paging := second.paging
  kept p allocation held owned :=
    second.kept p allocation (first.kept p allocation held owned) owned

/-- What has been granted since was spare. -/
theorem spare (keeps : machine.Keeps next) {p : Word} (absent : next.live p = none) :
    machine.Spare p := by
  intro allocation held
  by_contra owned
  have later := keeps.kept p allocation held owned
  rw [absent] at later
  cases later

/-- A disposable pointer is released. -/
theorem discard (keeps : machine.Keeps next) {p : Word} (disposable : machine.Disposable next p) :
    machine.Keeps (next.kfree p) := by
  rcases disposable with rfl | ⟨spare, allocation, held, notPaging⟩ | ⟨s, inside, rfl, free⟩
  · rw [keeps.paging.sound.kfree_null_eq]
    exact keeps
  · refine ⟨keeps.paging.kfree held notPaging, fun q other isLive owned => ?_⟩
    have different : q ≠ p := by
      rintro rfl
      exact owned (spare other isLive)
    rw [next.kfree_live_of_ne different]
    exact keeps.kept q other isLive owned
  · obtain ⟨paging, live⟩ := keeps.paging.kfree_free inside free
    exact ⟨paging, fun q other isLive owned => live ▸ keeps.kept q other isLive owned⟩

/-- An allocation that is no part of a chunk, with the pointer it returns. -/
theorem kzalloc (keeps : machine.Keeps next) {owner : Owner} (notPaging : ¬ owner.IsPaging)
    {size : Word} (harmless : (next.request size).Harmless) :
    machine.Keeps (next.kzalloc owner size).2 ∧
      machine.Disposable (next.kzalloc owner size).2 (next.kzalloc owner size).1 := by
  obtain ⟨grown, _⟩ := keeps.paging.sound.kzalloc_harmless owner harmless
  refine ⟨⟨keeps.paging.kzalloc notPaging harmless, fun p allocation held owned =>
    grown.kept p _ (keeps.kept p allocation held owned)⟩, ?_⟩
  rcases harmless with served | refused | zero
  · obtain ⟨_, cleared⟩ := keeps.paging.sound.kzalloc_served owner served
    exact .inr (.inl ⟨keeps.spare cleared.fresh, _, cleared.held, notPaging⟩)
  · exact .inl (next.kzalloc_refused owner refused)
  · have zero : size = 0 := zero
    subst zero
    rcases keeps.paging.sound.kzalloc_zero owner with ⟨_, isNull⟩ | ⟨_, s, inside, pointer, free⟩
    · exact .inl isNull
    · exact .inr (.inr ⟨s, inside, pointer, free⟩)

/-- A pointer that is allocated and filled with up to as many bytes. -/
theorem filled (keeps : machine.Keeps next) {owner : Owner} (notPaging : ¬ owner.IsPaging)
    {size : Word} (harmless : (next.request size).Harmless)
    (found : (next.kzalloc owner size).1 ≠ null) (content : ℕ → Byte) {n : ℕ}
    (fits : n ≤ size.toNat) :
    let p := (next.kzalloc owner size).1
    let after := { (next.kzalloc owner size).2 with
      memory := (next.kzalloc owner size).2.memory.write p content n }
    machine.Keeps after ∧ machine.Disposable after p := by
  obtain ⟨kept, disposable⟩ := keeps.kzalloc notPaging harmless
  rcases harmless with served | refused | zero
  · obtain ⟨_, cleared⟩ := keeps.paging.sound.kzalloc_served owner served
    refine ⟨⟨kept.paging.fill cleared.held notPaging fun x beyond => write_beyond _ content fits
      beyond, kept.kept⟩, .inr (.inl ?_)⟩
    exact ⟨keeps.spare cleared.fresh, _, cleared.held, notPaging⟩
  · exact absurd (next.kzalloc_refused owner refused) found
  · have zero : size = 0 := zero
    obtain rfl : n = 0 := by
      rw [zero] at fits
      exact Nat.le_zero.mp fits
    exact ⟨kept, disposable⟩

end Keeps

/-- What is kept, where every chunk that is not one of `own` has the address space it had. -/
structure KeepsBut (machine : Machine) (own : Set Word) (next : Machine) : Prop
    extends machine.Keeps next where
  spaces : ∀ {chunk directory}, chunk ∉ own → machine.HasChunk chunk directory →
    next.HasChunk chunk directory ∧
      directory.space next.memory = directory.space machine.memory

namespace KeepsBut

variable {machine middle next : Machine} {own : Set Word}

theorem refl (paging : machine.PagingSound) : machine.KeepsBut own machine :=
  ⟨.refl paging, fun _ has => ⟨has, rfl⟩⟩

theorem trans (first : machine.KeepsBut own middle) (second : middle.KeepsBut own next) :
    machine.KeepsBut own next where
  toKeeps := first.toKeeps.trans second.toKeeps
  spaces outside has := by
    obtain ⟨before, same⟩ := first.spaces outside has
    obtain ⟨after, again⟩ := second.spaces outside before
    exact ⟨after, again.trans same⟩

/-- Chunks that were not live need not be left out. -/
theorem old (keeps : machine.KeepsBut own next) (spare : ∀ chunk ∈ own, machine.Spare chunk) :
    machine.KeepsBut ∅ next where
  toKeeps := keeps.toKeeps
  spaces _ has := keeps.spaces (fun member => Owner.noConfusion (spare _ member _ has.held)) has

theorem of_grown (paging : machine.PagingSound) (after : next.PagingSound)
    (grown : machine.Grown next) : machine.KeepsBut own next :=
  ⟨⟨after, fun p allocation held _ => grown.kept p allocation held⟩,
    fun _ has => grown.hasChunk has paging.sound⟩

/-- A disposable pointer is released. -/
theorem discard (keeps : machine.KeepsBut own next) {p : Word}
    (disposable : machine.Disposable next p) : machine.KeepsBut own (next.kfree p) := by
  refine ⟨keeps.toKeeps.discard disposable, fun {chunk directory} outside has => ?_⟩
  obtain ⟨before, same⟩ := keeps.spaces outside has
  rcases disposable with rfl | ⟨_, allocation, held, notPaging⟩ | ⟨s, inside, rfl, free⟩
  · rw [keeps.paging.sound.kfree_null_eq]
    exact ⟨before, same⟩
  · obtain ⟨after, again⟩ := keeps.paging.kfree_hasChunk held notPaging before
    exact ⟨after, again.trans same⟩
  · obtain ⟨_, live⟩ := keeps.paging.kfree_free inside free
    have released : (next.kfree (poolBlock s)).HasChunk chunk directory ∧
        directory.space (next.kfree (poolBlock s)).memory = directory.space next.memory :=
      before.congr keeps.paging.sound fun q other isLive _ => ⟨live ▸ isLive, fun x within =>
        next.kfree_memory _ (keeps.paging.sound.tableLimit_le isLive within)⟩
    exact ⟨released.1, released.2.trans same⟩

theorem kzalloc (keeps : machine.KeepsBut own next) {owner : Owner} (notPaging : ¬ owner.IsPaging)
    {size : Word} (harmless : (next.request size).Harmless) :
    machine.KeepsBut own (next.kzalloc owner size).2 ∧
      machine.Disposable (next.kzalloc owner size).2 (next.kzalloc owner size).1 := by
  obtain ⟨kept, disposable⟩ := keeps.toKeeps.kzalloc notPaging harmless
  refine ⟨⟨kept, fun outside has => ?_⟩, disposable⟩
  obtain ⟨before, same⟩ := keeps.spaces outside has
  obtain ⟨grown, _⟩ := keeps.paging.sound.kzalloc_harmless owner harmless
  obtain ⟨after, again⟩ := grown.hasChunk before keeps.paging.sound
  exact ⟨after, again.trans same⟩

theorem filled (keeps : machine.KeepsBut own next) {owner : Owner} (notPaging : ¬ owner.IsPaging)
    {size : Word} (harmless : (next.request size).Harmless)
    (found : (next.kzalloc owner size).1 ≠ null) (content : ℕ → Byte) {n : ℕ}
    (fits : n ≤ size.toNat) :
    let p := (next.kzalloc owner size).1
    let after := { (next.kzalloc owner size).2 with
      memory := (next.kzalloc owner size).2.memory.write p content n }
    machine.KeepsBut own after ∧ machine.Disposable after p := by
  obtain ⟨granted, _⟩ := keeps.kzalloc notPaging harmless
  obtain ⟨kept, disposable⟩ := keeps.toKeeps.filled notPaging harmless found content fits
  refine ⟨⟨kept, fun outside has => ?_⟩, disposable⟩
  obtain ⟨before, same⟩ := granted.spaces outside has
  rcases harmless with served | refused | zero
  · obtain ⟨_, cleared⟩ := keeps.paging.sound.kzalloc_served owner served
    have filled := granted.paging.fill_hasChunk cleared.held notPaging
      (fun x beyond => write_beyond (next.kzalloc owner size).2.memory content fits beyond) before
    exact ⟨filled.1, filled.2.trans same⟩
  · exact absurd (next.kzalloc_refused owner refused) found
  · have zero : size = 0 := zero
    obtain rfl : n = 0 := by
      rw [zero] at fits
      exact Nat.le_zero.mp fits
    exact ⟨before, same⟩

end KeepsBut

end Machine

end Phix
