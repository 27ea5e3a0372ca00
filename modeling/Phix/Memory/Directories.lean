import Phix.Memory.NewChunk

/-! # All live chunks together

`Phix.Machine.PagingSound` says that every live chunk is complete in memory and that no
two chunks share a directory. It is kept when the heap grows without a new chunk, when
`paging_new_chunk` adds one, when allocations that are no part of a chunk are
released, when `paging_free_chunk` releases a chunk, and by writes through a chunk, which
leave the address space of every other chunk alone
(`Phix.Machine.PagingSound.write_other`).
-/

namespace Phix

/-- `chunk` is a live chunk whose directory was allocated at `base`. -/
def Machine.IsChunk (machine : Machine) (chunk base : Word) : Prop :=
  ∃ size, machine.live chunk = some ⟨size, .chunk base⟩

structure Machine.PagingSound (machine : Machine) : Prop where
  sound : machine.HeapSound
  chunks : ∀ chunk base, machine.IsChunk chunk base →
    ∃ table, machine.HasChunk chunk ⟨base, table⟩
  unique : ∀ chunk other base, machine.IsChunk chunk base → machine.IsChunk other base →
    chunk = other

theorem Machine.HasChunk.isChunk {machine : Machine} {chunk : Word} {directory : PageDirectory}
    (has : machine.HasChunk chunk directory) : machine.IsChunk chunk directory.base :=
  ⟨4, has.held⟩

/-- Where the parts of a chunk are. -/
def ChunkPart (chunk : Word) (directory : PageDirectory) (p : Word) : Prop :=
  p = chunk ∨ p = directory.base ∨ ∃ i < 1024, p = directory.table i

/-- The allocation of a part of a chunk names the chunk's directory, or is that directory. -/
theorem Machine.HasChunk.part {machine : Machine} {chunk : Word} {directory : PageDirectory}
    (has : machine.HasChunk chunk directory) {p : Word} (part : ChunkPart chunk directory p) :
    ∃ allocation, machine.live p = some allocation ∧
      (allocation.owner = .chunk directory.base ∨
        allocation.owner = .directory ∧ p = directory.base ∨
        ∃ i, allocation.owner = .table directory.base i) := by
  rcases part with rfl | rfl | ⟨i, inside, rfl⟩
  · exact ⟨_, has.held, .inl rfl⟩
  · exact ⟨_, has.base, .inr (.inl ⟨rfl, rfl⟩)⟩
  · exact ⟨_, has.tables i inside, .inr (.inr ⟨i, rfl⟩)⟩

/-- The allocation is a part of a chunk. -/
def Owner.IsPaging : Owner → Prop
  | .directory | .table _ _ | .chunk _ => True
  | _ => False

theorem Machine.HasChunk.part_isPaging {machine : Machine} {chunk : Word}
    {directory : PageDirectory} (has : machine.HasChunk chunk directory) {p : Word}
    {allocation : Allocation} (held : machine.live p = some allocation)
    (part : ChunkPart chunk directory p) : allocation.owner.IsPaging := by
  obtain ⟨same, owns, owner⟩ := has.part part
  cases held.symm.trans owns
  rcases owner with owner | ⟨owner, _⟩ | ⟨_, owner⟩ <;> rw [owner] <;> trivial

/-- Chunks with different directories share no part. -/
theorem Machine.HasChunk.parts_disjoint {machine : Machine} {chunk other : Word}
    {directory second : PageDirectory} (has : machine.HasChunk chunk directory)
    (hasOther : machine.HasChunk other second) (different : directory.base ≠ second.base) {p : Word}
    (part : ChunkPart chunk directory p) : ¬ ChunkPart other second p := by
  intro shared
  obtain ⟨allocation, held, owner⟩ := has.part part
  obtain ⟨again, heldAgain, ownerAgain⟩ := hasOther.part shared
  cases held.symm.trans heldAgain
  rcases owner with owner | ⟨owner, here⟩ | ⟨i, owner⟩ <;>
    rcases ownerAgain with ownerAgain | ⟨ownerAgain, there⟩ | ⟨j, ownerAgain⟩ <;>
    simp_all

namespace Machine.PagingSound

variable {machine next : Machine} (paging : machine.PagingSound)

include paging

theorem base_ne {chunk other base second : Word} (different : chunk ≠ other)
    (isChunk : machine.IsChunk chunk base) (isOther : machine.IsChunk other second) :
    base ≠ second := by
  rintro rfl
  exact different (paging.unique chunk other base isChunk isOther)

/-- Growth that adds no chunk. -/
theorem grown (grown : machine.Grown next)
    (noChunk : ∀ chunk base, next.IsChunk chunk base → machine.IsChunk chunk base) :
    next.PagingSound where
  sound := grown.sound
  chunks chunk base isChunk := by
    obtain ⟨table, has⟩ := paging.chunks chunk base (noChunk chunk base isChunk)
    exact ⟨table, (grown.hasChunk has paging.sound).1⟩
  unique chunk other base isChunk isOther :=
    paging.unique chunk other base (noChunk chunk base isChunk) (noChunk other base isOther)

/-- A granted allocation that is no part of a chunk. -/
theorem cleared {owner : Owner} {size p : Word} (cleared : machine.Cleared owner size p next)
    (notPaging : ¬ owner.IsPaging) : next.PagingSound := by
  refine paging.grown cleared.grown fun chunk base isChunk => ?_
  obtain ⟨size, present⟩ := isChunk
  rw [cleared.live] at present
  by_cases here : chunk = p
  · rw [here, Function.update_self] at present
    cases present
    exact absurd trivial notPaging
  · rw [Function.update_of_ne here] at present
    exact ⟨size, present⟩

theorem newChunk {flags : Byte} {chunk : Word} {directory : PageDirectory}
    (made : machine.NewChunk flags chunk directory next) : next.PagingSound := by
  have origin : ∀ other base, next.IsChunk other base →
      machine.IsChunk other base ∨ other = chunk ∧ base = directory.base := by
    rintro other base ⟨size, present⟩
    rcases made.origin other _ present with before | rfl | absent | ⟨j, absent⟩
    · exact .inl ⟨size, before⟩
    · refine .inr ⟨rfl, ?_⟩
      rw [made.has.held] at present
      cases present
      rfl
    · cases absent
    · cases absent
  have notOld : ∀ other, ¬ machine.IsChunk other directory.base := by
    intro other isChunk
    obtain ⟨table, has⟩ := paging.chunks other _ isChunk
    have held := has.base
    rw [made.added] at held
    cases held
  refine ⟨made.grown.sound, fun other base isChunk => ?_, fun first second base left right => ?_⟩
  · rcases origin other base isChunk with before | ⟨rfl, rfl⟩
    · obtain ⟨table, has⟩ := paging.chunks other base before
      exact ⟨table, (made.grown.hasChunk has paging.sound).1⟩
    · exact ⟨directory.table, made.has⟩
  · rcases origin first base left with before | ⟨rfl, rfl⟩
    · rcases origin second base right with earlier | ⟨rfl, rfl⟩
      · exact paging.unique first second base before earlier
      · exact absurd before (notOld first)
    · rcases origin second _ right with earlier | ⟨rfl, _⟩
      · exact absurd earlier (notOld second)
      · rfl

/-- A release of allocations that include no part of a chunk that stays. -/
theorem released {gone : Set Word} (released : machine.Released gone next)
    (apart : ∀ chunk directory, machine.HasChunk chunk directory → chunk ∉ gone →
      ∀ p, ChunkPart chunk directory p → p ∉ gone) : next.PagingSound := by
  have older : ∀ chunk base, next.IsChunk chunk base → chunk ∉ gone ∧
      machine.IsChunk chunk base := by
    rintro chunk base ⟨size, present⟩
    have stays : chunk ∉ gone := fun dropped => by
      rw [released.dropped chunk dropped] at present
      cases present
    exact ⟨stays, size, released.kept chunk stays ▸ present⟩
  refine ⟨released.sound, fun chunk base isChunk => ?_, fun chunk other base left right => ?_⟩
  · obtain ⟨stays, before⟩ := older chunk base isChunk
    obtain ⟨table, has⟩ := paging.chunks chunk base before
    have parts := apart chunk _ has stays
    exact ⟨table, (released.hasChunk paging.sound has stays (parts _ (.inr (.inl rfl)))
      fun i inside => parts _ (.inr (.inr ⟨i, inside, rfl⟩))).1⟩
  · exact paging.unique chunk other base (older chunk base left).2 (older other base right).2

theorem freeChunk {chunk : Word} {directory : PageDirectory}
    (has : machine.HasChunk chunk directory) : (machine.pagingFreeChunk chunk).PagingSound := by
  refine paging.released (has.pagingFreeChunk paging.sound)
    fun other second hasOther stays p part => ?_
  have different : chunk ≠ other := fun same => stays (.inl same.symm)
  exact hasOther.parts_disjoint has
    (paging.base_ne different has.isChunk hasOther.isChunk).symm part

/-- A release of an allocation that is no part of a chunk. -/
theorem kfree {p : Word} {allocation : Allocation} (held : machine.live p = some allocation)
    (notPaging : ¬ allocation.owner.IsPaging) : (machine.kfree p).PagingSound := by
  refine paging.released (paging.sound.kfree_released held) fun chunk directory has _ q part here =>
    ?_
  rw [Set.mem_singleton_iff] at here
  exact notPaging (has.part_isPaging held (here ▸ part))

/-- Such a release leaves every chunk alone. -/
theorem kfree_hasChunk {p chunk : Word} {allocation : Allocation} {directory : PageDirectory}
    (held : machine.live p = some allocation) (notPaging : ¬ allocation.owner.IsPaging)
    (has : machine.HasChunk chunk directory) : (machine.kfree p).HasChunk chunk directory ∧
      directory.space (machine.kfree p).memory = directory.space machine.memory := by
  have parts : ∀ q, ChunkPart chunk directory q → q ∉ ({p} : Set Word) := by
    intro q part here
    rw [Set.mem_singleton_iff] at here
    exact notPaging (has.part_isPaging held (here ▸ part))
  exact (paging.sound.kfree_released held).hasChunk paging.sound has (parts _ (.inl rfl))
    (parts _ (.inr (.inl rfl))) fun i inside => parts _ (.inr (.inr ⟨i, inside, rfl⟩))

section Fill

variable {p : Word} {allocation : Allocation} {memory : ByteMemory}
  (held : machine.live p = some allocation) (notPaging : ¬ allocation.owner.IsPaging)
  (same : ∀ x : Word, ¬ (x - p).toNat < allocation.size.toNat → memory x = machine.memory x)

include held same

omit paging in
/-- The block table is not inside an allocation. -/
theorem fill_low (sound : machine.HeapSound) {x : Word} (low : x.toNat < tableLimit) :
    memory x = machine.memory x :=
  same x fun inside => absurd (sound.tableLimit_le held inside) (not_le.mpr low)

include notPaging

/-- A write inside an allocation that is no part of a chunk leaves every chunk alone. -/
theorem fill_hasChunk {chunk : Word} {directory : PageDirectory}
    (has : machine.HasChunk chunk directory) :
    ({ machine with memory } : Machine).HasChunk chunk directory ∧
      directory.space memory = directory.space machine.memory := by
  refine has.congr paging.sound fun q part owns member => ⟨owns, fun x inside => ?_⟩
  refine same x fun within => ?_
  refine paging.sound.frames_disjoint ?_ owns held inside within rfl
  rintro rfl
  exact notPaging (has.part_isPaging held member)

theorem fill : ({ machine with memory } : Machine).PagingSound where
  sound := paging.sound.of_agree rfl fun _ low => fill_low held same paging.sound low
  chunks chunk base isChunk := by
    obtain ⟨table, has⟩ := paging.chunks chunk base isChunk
    exact ⟨table, (paging.fill_hasChunk held notPaging same has).1⟩
  unique := paging.unique

end Fill

section Write

variable {chunk : Word} {directory : PageDirectory} {space : AddressSpace} {memory : ByteMemory}
  (has : machine.HasChunk chunk directory)
  (update : ChunkUpdate machine.memory memory chunk directory space)

include update has

/-- A part of another chunk has the contents it had before a write through this one. -/
theorem write_outside {p x : Word} {allocation : Allocation}
    (held : machine.live p = some allocation)
    (noTable : ∀ i < 1024, p ≠ directory.table i)
    (inside : (x - p).toNat < allocation.size.toNat) : memory x = machine.memory x := by
  refine update.outside x ?_
  rintro ⟨i, bound, same⟩
  refine paging.sound.frames_disjoint (noTable i bound) held (has.tables i bound) inside ?_ rfl
  exact (AddressSpace.offset_lt_iff (paging.sound.aligned (has.tables i bound)) x).mpr same.symm

/-- A write through one chunk leaves the address space of every other chunk alone. -/
theorem write_other {other : Word} {second : PageDirectory}
    (hasOther : machine.HasChunk other second) (different : other ≠ chunk) :
    ({ machine with memory } : Machine).HasChunk other second ∧
      second.space memory = second.space machine.memory := by
  have apart := paging.base_ne different hasOther.isChunk has.isChunk
  refine hasOther.congr paging.sound fun p allocation held part =>
    ⟨held, fun x inside => paging.write_outside has update held (fun i bound same => ?_) inside⟩
  exact hasOther.parts_disjoint has apart part (.inr (.inr ⟨i, bound, same⟩))

omit paging in
theorem write_self : ({ machine with memory } : Machine).HasChunk chunk directory where
  held := has.held
  base := has.base
  tables := has.tables
  root := update.chunkAt.root
  pointers := update.chunkAt.wired.pointers

theorem write : ({ machine with memory } : Machine).PagingSound where
  sound := paging.sound.of_agree rfl fun x low => by
    refine update.outside x ?_
    rintro ⟨i, bound, same⟩
    exact paging.sound.pageNumber_ne_of_low (has.tables i bound) low same.symm
  chunks other base isChunk := by
    by_cases same : other = chunk
    · subst same
      obtain ⟨size, held⟩ := isChunk
      have rooted : directory.base = base := by
        have held : machine.live other = some ⟨size, .chunk base⟩ := held
        rw [has.held] at held
        cases held
        rfl
      exact ⟨directory.table, rooted ▸ write_self has update⟩
    · obtain ⟨table, hasOther⟩ := paging.chunks other base isChunk
      exact ⟨table, (paging.write_other has update hasOther same).1⟩
  unique := paging.unique

end Write

end Machine.PagingSound

end Phix
