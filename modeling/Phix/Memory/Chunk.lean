import Phix.Memory.Paging

/-! # A chunk as an address space

A chunk whose directory is wired in memory gives an address space, the entry of every
virtual page. Updates through the chunk refine the updates of address spaces and
write only the frames of its page tables (`Phix.ChunkAt.pagingSet`,
`Phix.ChunkAt.pagingMapTo`); lookups read the address space
(`Phix.ChunkAt.pagingGetPaddr`).
-/

namespace Phix

/-- The flags of an entry, as a word. -/
def flagWord (flags : Byte) : Word := flags.setWidth 32

theorem flagWord_lt (flags : Byte) : (flagWord flags).toNat < 4096 := by
  have := flags.isLt
  unfold flagWord
  rw [BitVec.toNat_setWidth]
  omega

theorem pagingAligned_iff (x : Word) : pagingAligned x = true ↔ x.toNat % 4096 = 0 := by
  unfold pagingAligned
  rw [decide_eq_true_iff, ← BitVec.toNat_inj, BitVec.toNat_umod]
  rfl

theorem pageAlignLower_aligned (x : Word) : (pageAlignLower x).toNat % 4096 = 0 := by
  unfold pageAlignLower pagingPageSize
  rw [alignLower_toNat]
  omega

theorem pageNumber_pageAlignLower (x : Word) : pageNumber (pageAlignLower x) = pageNumber x := by
  unfold pageNumber pageAlignLower pagingPageSize
  rw [alignLower_toNat]
  omega

theorem pagingGetIndexes_of_aligned {v : Word} (aligned : v.toNat % 4096 = 0) :
    pagingGetIndexes v = .ok (BitVec.ofNat 32 (v.toNat / 2 ^ 22),
      BitVec.ofNat 32 (pageNumber v % 1024)) := by
  have size : pagingTotalEntriesPerTable * pagingPageSize = 4194304#32 := by decide
  have directoryIndex : v / 4194304#32 = BitVec.ofNat 32 (v.toNat / 2 ^ 22) := by
    apply BitVec.eq_of_toNat_eq
    rw [BitVec.toNat_udiv]
    change v.toNat / 4194304 = _
    rw [BitVec.toNat_ofNat]
    omega
  have tableIndex : v % 4194304#32 / pagingPageSize = BitVec.ofNat 32 (pageNumber v % 1024) := by
    apply BitVec.eq_of_toNat_eq
    unfold pageNumber
    rw [BitVec.toNat_udiv, BitVec.toNat_umod]
    change v.toNat % 4194304 / 4096 = _
    rw [BitVec.toNat_ofNat]
    omega
  unfold pagingGetIndexes
  rw [if_neg (by rw [(pagingAligned_iff v).mpr aligned]; decide), size, directoryIndex, tableIndex]

/-- The chunk points at a directory that is wired in memory, and no page table is in the
chunk's own frame. -/
structure ChunkAt (memory : ByteMemory) (chunk : Word) (directory : PageDirectory) : Prop where
  aligned : chunk.toNat % 4096 = 0
  apart : pageNumber chunk ∉ directory.tableFrames
  root : memory.load32 chunk = directory.base
  wired : directory.Wired memory

/-- The result of an update through a chunk: the chunk is still there, its address space
is the one given, and memory outside its page tables is unchanged. -/
structure ChunkUpdate (memory other : ByteMemory) (chunk : Word) (directory : PageDirectory)
    (space : AddressSpace) : Prop where
  chunkAt : ChunkAt other chunk directory
  mapped : directory.space other = space
  outside : ∀ x, pageNumber x ∉ directory.tableFrames → other x = memory x

section Lookup

variable {memory : ByteMemory} {directory : PageDirectory} (wired : directory.Wired memory)

include wired

theorem tableEntryAddress_eq (v : Word) :
    tableEntryAddress memory directory.base (BitVec.ofNat 32 (v.toNat / 2 ^ 22))
      (BitVec.ofNat 32 (pageNumber v % 1024)) = directory.slot v := by
  have pointers := wired.pointers _ (PageDirectory.index_lt v)
  unfold PageDirectory.pointer at pointers
  rw [BitVec.ofNat_mul] at pointers
  unfold tableEntryAddress PageDirectory.slot
  rw [BitVec.ofNat_mul]
  exact congrArg (· + 4#32 * BitVec.ofNat 32 (pageNumber v % 1024)) pointers

theorem pagingSet_eq {v : Word} (aligned : v.toNat % 4096 = 0) (val : Word) :
    pagingSet memory directory.base v val = (0, memory.store32 (directory.slot v) val) := by
  unfold pagingSet
  rw [if_neg (by rw [(pagingAligned_iff v).mpr aligned]; decide),
    pagingGetIndexes_of_aligned aligned]
  dsimp only
  rw [tableEntryAddress_eq wired]

/-- `paging_get` reads the entry of an aligned address. -/
theorem pagingGet_eq (v : Word) :
    pagingGet memory directory.base v =
      if v.toNat % 4096 = 0 then .ok (directory.entry memory v) else .error (-EINVAL) := by
  unfold pagingGet
  by_cases aligned : v.toNat % 4096 = 0
  · rw [if_pos aligned, pagingGetIndexes_of_aligned aligned]
    dsimp only
    rw [tableEntryAddress_eq wired]
    rfl
  · unfold pagingGetIndexes
    rw [if_neg aligned, if_pos (mt (pagingAligned_iff v).mp aligned)]

theorem pagingGetPaddr_eq (v : Word) :
    pagingGetPaddr memory directory.base v = (directory.space memory).translate v := by
  unfold pagingGetPaddr
  rw [pagingGetIndexes_of_aligned (pageAlignLower_aligned v)]
  dsimp only
  rw [tableEntryAddress_eq wired]
  change (directory.entry memory (pageAlignLower v) &&& 0xfffff000) + _ = _
  rw [PageDirectory.entry_of_samePage (pageNumber_pageAlignLower v)]
  rfl

theorem pagingGetFlags_eq (v : Word) :
    pagingGetFlags memory directory.base v = (directory.space memory).flags v := by
  unfold pagingGetFlags
  rw [pagingGetIndexes_of_aligned (pageAlignLower_aligned v)]
  dsimp only
  rw [tableEntryAddress_eq wired]
  change directory.entry memory (pageAlignLower v) &&& 0xfff = _
  rw [PageDirectory.entry_of_samePage (pageNumber_pageAlignLower v)]
  rfl

end Lookup

theorem ChunkUpdate.refl {memory : ByteMemory} {chunk : Word} {directory : PageDirectory}
    (chunkAt : ChunkAt memory chunk directory) :
    ChunkUpdate memory memory chunk directory (directory.space memory) :=
  ⟨chunkAt, rfl, fun _ _ => rfl⟩

section Update

variable {memory : ByteMemory} {chunk : Word} {directory : PageDirectory}
  (chunkAt : ChunkAt memory chunk directory)

include chunkAt

/-- Memory that agrees outside the page tables still has the chunk. -/
theorem ChunkAt.congr {other : ByteMemory}
    (same : ∀ x, pageNumber x = pageNumber chunk ∨ pageNumber x = pageNumber directory.base →
      other x = memory x) : ChunkAt other chunk directory where
  aligned := chunkAt.aligned
  apart := chunkAt.apart
  root := by
    rw [← chunkAt.root]
    refine ByteMemory.load32_congr fun k small => same _ (.inl ?_)
    exact pageNumber_add_of_aligned chunkAt.aligned (by omega)
  wired := chunkAt.wired.congr fun x base => same x (.inr base)

theorem ChunkAt.store (v val : Word) :
    ChunkUpdate memory (memory.store32 (directory.slot v) val) chunk directory
      ((directory.space memory).set v val) where
  chunkAt := by
    refine chunkAt.congr fun x place => chunkAt.wired.store_apply v val ?_
    rcases place with atChunk | atBase
    · exact atChunk ▸ chunkAt.apart
    · exact atBase ▸ chunkAt.wired.base_notMem
  mapped := funext fun u => chunkAt.wired.entry_store v val u
  outside _ := chunkAt.wired.store_apply v val

/-- `paging_set` through a chunk sets the entry of one page. -/
theorem ChunkAt.pagingSet {v : Word} (aligned : v.toNat % 4096 = 0) (val : Word) :
    (pagingSet memory directory.base v val).1 = 0 ∧
      ChunkUpdate memory (pagingSet memory directory.base v val).2 chunk directory
        ((directory.space memory).set v val) := by
  rw [pagingSet_eq chunkAt.wired aligned val]
  exact ⟨rfl, chunkAt.store v val⟩

theorem ChunkAt.pagingMap {v p : Word} (aligned : v.toNat % 4096 = 0)
    (frame : p.toNat % 4096 = 0) (flags : Byte) :
    (pagingMap memory chunk v p flags).1 = 0 ∧
      ChunkUpdate memory (pagingMap memory chunk v p flags).2 chunk directory
        ((directory.space memory).set v (p ||| flagWord flags)) := by
  unfold Phix.pagingMap
  rw [if_neg, chunkAt.root]
  · exact chunkAt.pagingSet aligned _
  · rw [(pagingAligned_iff v).mpr aligned, (pagingAligned_iff p).mpr frame]
    decide

end Update

theorem aligned_add_page {v : Word} (aligned : v.toNat % 4096 = 0) :
    (v + pagingPageSize).toNat % 4096 = 0 := by
  rw [BitVec.toNat_add]
  change (v.toNat + 4096) % 2 ^ 32 % 4096 = 0
  omega

/-- The loop of `paging_map_range` maps a run of pages. -/
theorem ChunkAt.mapRangeLoop {memory : ByteMemory} {chunk : Word} {directory : PageDirectory}
    (chunkAt : ChunkAt memory chunk directory) {v p : Word} (aligned : v.toNat % 4096 = 0)
    (frame : p.toNat % 4096 = 0) (flags : Byte) {rounds : ℕ} (bound : rounds ≤ 2 ^ 20) :
    ChunkUpdate memory (pagingMapRange.loop chunk flags rounds v p memory) chunk directory
      ((directory.space memory).map v p (flagWord flags) rounds) := by
  induction rounds generalizing v p memory with
  | zero =>
      rw [AddressSpace.map_zero]
      exact ChunkUpdate.refl chunkAt
  | succ rounds ih =>
      obtain ⟨status, update⟩ := chunkAt.pagingMap aligned frame flags
      have rest := ih update.chunkAt (aligned_add_page aligned) (aligned_add_page frame) (by omega)
      rw [update.mapped] at rest
      unfold pagingMapRange.loop
      dsimp only
      rw [status, if_neg (by decide), ← AddressSpace.map_succ _ p _ aligned (by omega)]
      exact ⟨rest.chunkAt, rest.mapped,
        fun x outside => (rest.outside x outside).trans (update.outside x outside)⟩

/-- The arguments `paging_map_to` accepts. -/
def MapToAccepts (vaddr paddr pend : Word) : Prop :=
  vaddr.toNat % 4096 = 0 ∧ paddr.toNat % 4096 = 0 ∧ pend.toNat % 4096 = 0 ∧ paddr ≤ pend

instance (vaddr paddr pend : Word) : Decidable (MapToAccepts vaddr paddr pend) :=
  inferInstanceAs (Decidable (_ ∧ _))

/-- The pages `paging_map_to` maps. -/
def mapToPages (paddr pend : Word) : ℕ := (pend - paddr).toNat / 4096

/-- Arguments that are not accepted are refused before anything is written. -/
theorem pagingMapTo_refused (memory : ByteMemory) (chunk : Word) {vaddr paddr pend : Word}
    (refused : ¬ MapToAccepts vaddr paddr pend) (flags : Byte) :
    pagingMapTo memory chunk vaddr paddr pend flags = (-EINVAL, memory) := by
  unfold pagingMapTo
  simp only [pagingAligned_iff, BitVec.lt_def]
  split
  · rfl
  split
  · rfl
  split
  · rfl
  split
  · rfl
  rename_i first second third fourth
  rw [not_not] at first second third
  exact absurd ⟨first, second, third, BitVec.le_def.mpr (not_lt.mp fourth)⟩ refused

theorem pagingMapTo_accepted (memory : ByteMemory) (chunk : Word) {vaddr paddr pend : Word}
    (accepts : MapToAccepts vaddr paddr pend) (flags : Byte) :
    pagingMapTo memory chunk vaddr paddr pend flags =
      pagingMapRange memory chunk vaddr paddr ((pend - paddr) / pagingPageSize) flags := by
  obtain ⟨aligned, frame, stop, ordered⟩ := accepts
  unfold pagingMapTo
  simp only [(pagingAligned_iff _).mpr aligned, (pagingAligned_iff _).mpr frame,
    (pagingAligned_iff _).mpr stop, BitVec.not_lt.mpr ordered, not_true_eq_false, if_false]

/-- `paging_map_to` maps the pages from `vaddr` onto the frames from `paddr` to `pend`. -/
theorem ChunkAt.pagingMapTo {memory : ByteMemory} {chunk : Word} {directory : PageDirectory}
    (chunkAt : ChunkAt memory chunk directory) {vaddr paddr pend : Word}
    (accepts : MapToAccepts vaddr paddr pend) (flags : Byte) :
    (pagingMapTo memory chunk vaddr paddr pend flags).1 = 0 ∧
      ChunkUpdate memory (pagingMapTo memory chunk vaddr paddr pend flags).2 chunk directory
        ((directory.space memory).map vaddr paddr (flagWord flags) (mapToPages paddr pend)) := by
  rw [pagingMapTo_accepted memory chunk accepts flags]
  obtain ⟨aligned, frame, stop, ordered⟩ := accepts
  have count : ((pend - paddr) / pagingPageSize).toNat = mapToPages paddr pend := by
    rw [BitVec.toNat_udiv]
    rfl
  have bound : mapToPages paddr pend ≤ 2 ^ 20 := by
    have := (pend - paddr).isLt
    unfold mapToPages
    omega
  unfold pagingMapRange
  rw [count]
  exact ⟨rfl, chunkAt.mapRangeLoop aligned frame flags bound⟩

end Phix
