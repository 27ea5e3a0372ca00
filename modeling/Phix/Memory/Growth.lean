import Phix.Memory.Chunk

/-! # Growing the set of live allocations

Between two machines related by `Machine.Grown` allocations were only added, and
memory from the table limit on changed only inside the added ones. An older live
allocation then still has the contents it had (`Phix.Machine.Grown.agree`), and with it
a chunk whose directory and tables are live still gives the same address space
(`Phix.Machine.Grown.hasChunk`).
-/

namespace Phix

/-- `x` is a byte of an allocation that is live in `next` and not in `machine`. -/
def Machine.AddedByte (machine next : Machine) (x : Word) : Prop :=
  ∃ q allocation, machine.live q = none ∧ next.live q = some allocation ∧
    (x - q).toNat < allocation.size.toNat

structure Machine.Grown (machine next : Machine) : Prop where
  sound : next.HeapSound
  kept : ∀ p allocation, machine.live p = some allocation → next.live p = some allocation
  memory : ∀ x : Word, tableLimit ≤ x.toNat → ¬ machine.AddedByte next x →
    next.memory x = machine.memory x

namespace Machine.Grown

variable {machine middle next : Machine}

theorem refl (sound : machine.HeapSound) : machine.Grown machine :=
  ⟨sound, fun _ _ => id, fun _ _ _ => rfl⟩

theorem trans (first : machine.Grown middle) (second : middle.Grown next) : machine.Grown next where
  sound := second.sound
  kept p allocation held := second.kept p _ (first.kept p _ held)
  memory x beyond outside := by
    rw [second.memory x beyond, first.memory x beyond]
    · rintro ⟨q, allocation, absent, present, inside⟩
      exact outside ⟨q, allocation, absent, second.kept q _ present, inside⟩
    · rintro ⟨q, allocation, absent, present, inside⟩
      refine outside ⟨q, allocation, ?_, present, inside⟩
      rcases held : machine.live q with _ | earlier
      · rfl
      · rw [first.kept q _ held] at absent
        cases absent

/-- A write inside allocations that were added. -/
theorem write (grown : machine.Grown next) (memory : ByteMemory)
    (low : ∀ x : Word, x.toNat < tableLimit → memory x = next.memory x)
    (added : ∀ x : Word, ¬ machine.AddedByte next x → memory x = next.memory x) :
    machine.Grown { next with memory } where
  sound := grown.sound.of_agree rfl low
  kept := grown.kept
  memory x beyond outside := (added x outside).trans (grown.memory x beyond outside)

end Machine.Grown

/-- The bytes of a live allocation lie beyond the block table. -/
theorem Machine.HeapSound.tableLimit_le {machine : Machine} (sound : machine.HeapSound) {p x : Word}
    {allocation : Allocation} (held : machine.live p = some allocation)
    (inside : (x - p).toNat < allocation.size.toNat) : tableLimit ≤ x.toNat := by
  obtain ⟨s, bounded, rfl, _⟩ := sound.pointer held
  have limit := (sound.sized _ _ (Machine.sizes_of_live held)).2
  have number := poolBlock_toNat bounded
  have := x.isLt
  unfold maxRequest at limit
  unfold tableLimit
  rw [BitVec.toNat_sub] at inside
  omega

/-- An older live allocation keeps its contents. -/
theorem Machine.Grown.agree {machine next : Machine} (grown : machine.Grown next) {p x : Word}
    {allocation : Allocation} (held : machine.live p = some allocation)
    (inside : (x - p).toNat < allocation.size.toNat) : next.memory x = machine.memory x := by
  have later := grown.kept p _ held
  refine grown.memory x (grown.sound.tableLimit_le later inside) ?_
  rintro ⟨q, other, absent, present, within⟩
  refine grown.sound.frames_disjoint ?_ later present inside within rfl
  rintro rfl
  rw [held] at absent
  cases absent

theorem Machine.Cleared.grown {machine next : Machine} {owner : Owner} {size p : Word}
    (cleared : machine.Cleared owner size p next) : machine.Grown next where
  sound := cleared.sound
  kept q allocation held := by
    rw [cleared.live, Function.update_of_ne]
    · exact held
    · rintro rfl
      rw [cleared.fresh] at held
      cases held
  memory x beyond outside := by
    refine (cleared.memory x beyond).trans (if_neg fun inside => outside ?_)
    exact ⟨p, _, cleared.fresh, by rw [cleared.live, Function.update_self], inside⟩

/-- The chunk, its directory and its page tables are live, and point at each other. -/
structure Machine.HasChunk (machine : Machine) (chunk : Word) (directory : PageDirectory) :
    Prop where
  held : machine.live chunk = some ⟨4, .chunk directory.base⟩
  base : machine.live directory.base = some ⟨4096, .directory⟩
  tables : ∀ i < 1024, machine.live (directory.table i) = some ⟨4096, .table directory.base i⟩
  root : machine.memory.load32 chunk = directory.base
  pointers : ∀ i < 1024,
    machine.memory.load32 (directory.pointer i) &&& 0xfffff000 = directory.table i

theorem Machine.HeapSound.aligned {machine : Machine} (sound : machine.HeapSound) {p : Word}
    {allocation : Allocation} (held : machine.live p = some allocation) :
    p.toNat % 4096 = 0 := by
  obtain ⟨s, bounded, rfl, _⟩ := sound.pointer held
  rw [poolBlock_toNat bounded]
  omega

/-- Live allocations that were made for different purposes are in different frames. -/
theorem Machine.HeapSound.pageNumber_ne {machine : Machine} (sound : machine.HeapSound)
    {p q : Word} {first second : Allocation} (left : machine.live p = some first)
    (right : machine.live q = some second) (different : first ≠ second) :
    pageNumber p ≠ pageNumber q := by
  intro same
  have equal := PageDirectory.pageNumber_injective (sound.aligned left) (sound.aligned right) same
  rw [equal, right] at left
  exact different (Option.some.inj left).symm

/-- Nothing live is in the frames of the block table. -/
theorem Machine.HeapSound.pageNumber_ne_of_low {machine : Machine} (sound : machine.HeapSound)
    {p x : Word} {allocation : Allocation} (held : machine.live p = some allocation)
    (low : x.toNat < tableLimit) : pageNumber x ≠ pageNumber p := by
  have positive := (sound.sized _ _ (Machine.sizes_of_live held)).1
  have limit := sound.tableLimit_le held (show (p - p).toNat < _ by rw [sub_self]; exact positive)
  unfold tableLimit at limit low
  unfold pageNumber
  omega

section HasChunk

variable {machine : Machine} {chunk : Word} {directory : PageDirectory}
  (has : machine.HasChunk chunk directory)

include has

theorem Machine.HasChunk.chunkAt (sound : machine.HeapSound) :
    ChunkAt machine.memory chunk directory where
  aligned := sound.aligned has.held
  apart := by
    rintro ⟨i, inside, same⟩
    exact sound.pageNumber_ne (has.tables i inside) has.held (by simp) same
  root := has.root
  wired := {
    aligned := sound.aligned has.base
    tableAligned := fun i inside => sound.aligned (has.tables i inside)
    distinct := by
      intro i inside j other same
      have first := has.tables i inside
      rw [same, has.tables j other] at first
      simpa [eq_comm] using first
    apart := by
      intro i inside same
      have first := has.tables i inside
      rw [same, has.base] at first
      simp at first
    pointers := has.pointers }

/-- A machine in which the chunk's parts are still live and have the same contents. -/
theorem Machine.HasChunk.congr {next : Machine} (sound : machine.HeapSound)
    (kept : ∀ p allocation, machine.live p = some allocation →
      (p = chunk ∨ p = directory.base ∨ ∃ i < 1024, p = directory.table i) →
      next.live p = some allocation ∧
        ∀ x : Word, (x - p).toNat < allocation.size.toNat → next.memory x = machine.memory x) :
    next.HasChunk chunk directory ∧
      directory.space next.memory = directory.space machine.memory := by
  have chunkAt := has.chunkAt sound
  have atChunk := kept _ _ has.held (.inl rfl)
  have atBase := kept _ _ has.base (.inr (.inl rfl))
  have atTable := fun i inside => kept _ _ (has.tables i inside) (.inr (.inr ⟨i, inside, rfl⟩))
  refine ⟨⟨atChunk.1, atBase.1, fun i inside => (atTable i inside).1, ?_, fun i inside => ?_⟩, ?_⟩
  · rw [← has.root]
    refine ByteMemory.load32_congr fun k small => atChunk.2 _ ?_
    rw [add_sub_cancel_left]
    exact small
  · rw [← has.pointers i inside]
    congr 1
    refine ByteMemory.load32_congr fun k small => atBase.2 _ ?_
    unfold PageDirectory.pointer
    have index := PageDirectory.word_toNat inside
    rw [BitVec.add_assoc, add_sub_cancel_left, BitVec.toNat_add, index]
    change (4 * i + k.toNat) % 2 ^ 32 < 4096
    omega
  · funext u
    refine chunkAt.wired.entry_congr (fun x inTable => ?_) u
    obtain ⟨i, inside, same⟩ := inTable
    refine (atTable i inside).2 x ?_
    have near := AddressSpace.offset_lt_iff (chunkAt.wired.tableAligned i inside) x
    exact near.mpr same.symm

/-- A chunk survives the growth of the heap. -/
theorem Machine.Grown.hasChunk {next : Machine} (sound : machine.HeapSound)
    (grown : machine.Grown next) : next.HasChunk chunk directory ∧
      directory.space next.memory = directory.space machine.memory :=
  has.congr sound fun p _ held _ => ⟨grown.kept p _ held, fun _ => grown.agree held⟩

end HasChunk

end Phix
