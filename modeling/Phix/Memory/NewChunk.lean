import Phix.Memory.Growth

/-! # Creating and freeing a chunk

`paging_new_chunk`, when no allocation fails, adds a chunk with a directory and 1024 page
tables whose address space is the identity, and changes nothing that was live
(`Phix.Machine.HeapSound.pagingNewChunk`). `paging_free_chunk` removes exactly these
allocations and writes only the block table (`Phix.Machine.HasChunk.pagingFreeChunk`).
-/

namespace Phix

/-- The entry of a page directory for the table at `entry`. -/
def pointerWord (entry : Word) (flags : Byte) : Word :=
  entry ||| flagWord flags ||| flagWord pagingIsWritable

section Fill

variable {entry : Word} (aligned : entry.toNat % 4096 = 0)

include aligned in
/-- Filling a table writes only its frame. -/
theorem fillTable_apply (offset : Word) (flags : Byte) {rounds : ℕ} (bound : rounds ≤ 1024)
    (memory : ByteMemory) {x : Word} (outside : pageNumber x ≠ pageNumber entry) :
    fillTable entry offset flags rounds memory x = memory x := by
  induction rounds with
  | zero => rfl
  | succ b ih =>
      unfold fillTable
      rw [ByteMemory.store32_apply_of_far _ _
        (PageDirectory.word_far aligned (by omega) outside), ih (by omega)]

theorem fillTable_entry (entry offset : Word) (flags : Byte) {rounds : ℕ} (bound : rounds ≤ 1024)
    (memory : ByteMemory) {j : ℕ} (inside : j < rounds) :
    (fillTable entry offset flags rounds memory).load32 (entry + BitVec.ofNat 32 (4 * j)) =
      (offset + BitVec.ofNat 32 j * pagingPageSize) ||| flagWord flags := by
  induction rounds with
  | zero => omega
  | succ b ih =>
      unfold fillTable
      by_cases last : j = b
      · rw [last, ByteMemory.load32_store32_self]
        rfl
      · rw [ByteMemory.load32_store32_of_far _ _
          (PageDirectory.words_far entry (by omega) (by omega) last)
          (PageDirectory.words_far entry (by omega) (by omega) (Ne.symm last)),
          ih (by omega) (by omega)]

variable {base : Word} (alignedBase : base.toNat % 4096 = 0)
  (apart : pageNumber entry ≠ pageNumber base) (offset : Word) (flags : Byte)
  (memory : ByteMemory) {i : ℕ} (inside : i < 1024)

include aligned alignedBase inside

/-- Making a table writes only its frame and that of the directory. -/
theorem setTable_apply {x : Word} (notEntry : pageNumber x ≠ pageNumber entry)
    (notBase : pageNumber x ≠ pageNumber base) :
    setTable base entry offset i flags memory x = memory x := by
  unfold setTable
  rw [ByteMemory.store32_apply_of_far _ _ (PageDirectory.word_far alignedBase inside notBase),
    fillTable_apply aligned _ _ le_rfl _ notEntry]

include apart

theorem setTable_pointer {j : ℕ} (other : j < 1024) :
    (setTable base entry offset i flags memory).load32 (base + BitVec.ofNat 32 (4 * j)) =
      if j = i then pointerWord entry flags
      else memory.load32 (base + BitVec.ofNat 32 (4 * j)) := by
  unfold setTable
  split
  · rename_i same
    rw [same]
    exact ByteMemory.load32_store32_self ..
  · rename_i different
    rw [ByteMemory.load32_store32_of_far _ _
      (PageDirectory.words_far base other inside different)
      (PageDirectory.words_far base inside other (Ne.symm different))]
    refine ByteMemory.load32_congr fun k small => ?_
    refine fillTable_apply aligned _ _ le_rfl _ ?_
    rw [PageDirectory.pageNumber_word alignedBase other small]
    exact apart.symm

theorem setTable_entry {b : ℕ} (bounded : b < 1024) :
    (setTable base entry offset i flags memory).load32 (entry + BitVec.ofNat 32 (4 * b)) =
      (offset + BitVec.ofNat 32 b * pagingPageSize) ||| flagWord flags := by
  rw [← fillTable_entry entry offset flags le_rfl memory bounded]
  refine ByteMemory.load32_congr fun k small => ?_
  refine ByteMemory.store32_apply_of_far _ _ (PageDirectory.word_far alignedBase inside ?_)
  rw [PageDirectory.pageNumber_word aligned bounded small]
  exact apart

end Fill

/-- What `paging_new_chunk` has made after `i` tables. -/
structure Machine.Building (machine next : Machine) (base : Word) (flags : Byte) (i : ℕ)
    (table : ℕ → Word) : Prop where
  grown : machine.Grown next
  added : machine.live base = none
  held : next.live base = some ⟨4096, .directory⟩
  tables : ∀ j < i, next.live (table j) = some ⟨4096, .table base j⟩
  pointers : ∀ j < i,
    next.memory.load32 (base + BitVec.ofNat 32 (4 * j)) = pointerWord (table j) flags
  entries : ∀ j < i, ∀ b < 1024, next.memory.load32 (table j + BitVec.ofNat 32 (4 * b)) =
    BitVec.ofNat 32 (2 ^ 22 * j + 4096 * b) ||| flagWord flags
  origin : ∀ p allocation, next.live p = some allocation → machine.live p = some allocation ∨
    allocation.owner = .directory ∨ ∃ j, allocation.owner = .table base j

/-- A fresh directory, before its first table. -/
theorem Machine.Cleared.building {machine next : Machine} {base : Word}
    (cleared : machine.Cleared .directory 4096 base next) (flags : Byte) :
    machine.Building next base flags 0 fun _ => null where
  grown := cleared.grown
  added := cleared.fresh
  held := cleared.held
  tables j absent := by omega
  pointers j absent := by omega
  entries j absent := by omega
  origin p allocation present := by
    rw [cleared.live] at present
    by_cases isBase : p = base
    · rw [isBase, Function.update_self] at present
      cases present
      exact .inr (.inl rfl)
    · rw [Function.update_of_ne isBase] at present
      exact .inl present

/-- One round of the outer loop of `paging_new_chunk`. -/
theorem Machine.Building.step {machine next last : Machine} {base entry : Word} {flags : Byte}
    {i : ℕ} {table : ℕ → Word} (building : machine.Building next base flags i table)
    (inside : i < 1024) (cleared : next.Cleared (.table base i) 4096 entry last) :
    machine.Building
      { last with memory := setTable base entry (BitVec.ofNat 32 (2 ^ 22 * i)) i flags last.memory }
      base flags (i + 1) (Function.update table i entry) := by
  have more := cleared.grown
  have sound := more.sound
  have held : last.live entry = some ⟨4096, .table base i⟩ := cleared.held
  have heldBase := more.kept _ _ building.held
  have heldTable : ∀ j < i, last.live (table j) = some ⟨4096, .table base j⟩ :=
    fun j earlier => more.kept _ _ (building.tables j earlier)
  have aligned := sound.aligned held
  have alignedBase := sound.aligned heldBase
  have apart := sound.pageNumber_ne held heldBase (by simp)
  have same := fun x => setTable_apply aligned alignedBase (BitVec.ofNat 32 (2 ^ 22 * i)) flags
    last.memory inside (x := x)
  have entryFresh : machine.live entry = none := by
    rcases earlier : machine.live entry with _ | allocation
    · rfl
    · have kept := building.grown.kept _ _ earlier
      rw [cleared.fresh] at kept
      cases kept
  refine {
    grown := (building.grown.trans more).write _ (fun x low => ?_) fun x outside => ?_
    added := building.added
    held := heldBase
    tables := fun j earlier => ?_
    pointers := fun j earlier => ?_
    entries := fun j earlier b bounded => ?_
    origin := fun p allocation present => ?_ }
  · exact same x (sound.pageNumber_ne_of_low held low) (sound.pageNumber_ne_of_low heldBase low)
  · refine same x (fun place => outside ?_) fun place => outside ?_
    · exact ⟨entry, _, entryFresh, held, (AddressSpace.offset_lt_iff aligned x).mpr place⟩
    · exact ⟨base, _, building.added, heldBase,
        (AddressSpace.offset_lt_iff alignedBase x).mpr place⟩
  · rcases Nat.lt_succ_iff_lt_or_eq.mp earlier with before | rfl
    · rw [Function.update_of_ne before.ne]
      exact heldTable j before
    · rw [Function.update_self]
      exact held
  · have small : j < 1024 := by omega
    refine (setTable_pointer aligned alignedBase apart _ flags last.memory inside small).trans ?_
    rcases Nat.lt_succ_iff_lt_or_eq.mp earlier with before | rfl
    · rw [if_neg before.ne, Function.update_of_ne before.ne, ← building.pointers j before]
      refine ByteMemory.load32_congr fun k word => more.agree building.held ?_
      exact (AddressSpace.offset_lt_iff alignedBase _).mpr
        (PageDirectory.pageNumber_word alignedBase small word)
    · rw [if_pos rfl, Function.update_self]
  · rcases Nat.lt_succ_iff_lt_or_eq.mp earlier with before | rfl
    · rw [Function.update_of_ne before.ne, ← building.entries j before b bounded]
      have alignedTable := sound.aligned (heldTable j before)
      refine ByteMemory.load32_congr fun k word => ?_
      have place := PageDirectory.pageNumber_word alignedTable bounded word
      refine (same _ ?_ ?_).trans (more.agree (building.tables j before) ?_)
      · rw [place]
        exact sound.pageNumber_ne (heldTable j before) held (by simp [before.ne])
      · rw [place]
        exact sound.pageNumber_ne (heldTable j before) heldBase (by simp)
      · exact (AddressSpace.offset_lt_iff alignedTable _).mpr place
    · rw [Function.update_self]
      refine (setTable_entry aligned alignedBase apart _ flags last.memory inside bounded).trans ?_
      rw [BitVec.ofNat_add, Nat.mul_comm 4096 b, BitVec.ofNat_mul b]
      rfl
  · change last.live p = some allocation at present
    rw [cleared.live] at present
    by_cases isEntry : p = entry
    · rw [isEntry, Function.update_self] at present
      cases present
      exact .inr (.inr ⟨i, rfl⟩)
    · rw [Function.update_of_ne isEntry] at present
      exact building.origin p allocation present

theorem tableSize_toNat : (4 * pagingTotalEntriesPerTable : Word).toNat = 4096 := by decide

theorem tableSize_proper : Proper (4 * pagingTotalEntriesPerTable) := by decide

/-- The state after the `i`-th round of the outer loop, whose allocation is made in `next`. -/
def Machine.withTable (next : Machine) (base : Word) (flags : Byte) (i : ℕ) : Machine :=
  let (entry, last) := next.kzalloc (.table base i) (4 * pagingTotalEntriesPerTable)
  { last with memory := setTable base entry (BitVec.ofNat 32 (2 ^ 22 * i)) i flags last.memory }

/-- What the rounds of the outer loop keep holds of the tables made. -/
theorem Machine.Building.newTables_invariant {machine start : Machine} {base : Word} {flags : Byte}
    {table : ℕ → Word} (initial : machine.Building start base flags 0 table)
    {I : ℕ → (ℕ → Word) → Machine → Prop} (starts : I 0 table start)
    (kept : ∀ i table next, i < 1024 → machine.Building next base flags i table →
      (next.kzalloc (.table base i) (4 * pagingTotalEntriesPerTable)).1 ≠ null →
      I i table next → I (i + 1)
        (Function.update table i (next.kzalloc (.table base i) (4 * pagingTotalEntriesPerTable)).1)
        (next.withTable base flags i))
    {i : ℕ} (bound : i ≤ 1024) {next : Machine} {offset : Word}
    (made : start.newTables base flags i = some (next, offset)) :
    offset = BitVec.ofNat 32 (2 ^ 22 * i) ∧
      ∃ table, machine.Building next base flags i table ∧ I i table next := by
  induction i generalizing next offset with
  | zero =>
      cases made
      exact ⟨rfl, table, initial, starts⟩
  | succ i ih =>
      simp only [Machine.newTables, Option.bind_eq_bind, Option.bind_eq_some_iff] at made
      obtain ⟨⟨middle, before⟩, earlier, made⟩ := made
      obtain ⟨rfl, table, building, holds⟩ := ih (by omega) earlier
      dsimp only at made
      split at made
      · cases made
      · rename_i found
        cases made
        have cleared := building.grown.sound.kzalloc (.table base i) tableSize_proper
          found
        refine ⟨?_, _, building.step (by omega) cleared,
          kept i table middle (by omega) building found holds⟩
        rw [Nat.mul_succ, BitVec.ofNat_add]
        rfl

theorem Machine.Building.newTables {machine start : Machine} {base : Word} {flags : Byte}
    {table : ℕ → Word} (initial : machine.Building start base flags 0 table) {i : ℕ}
    (bound : i ≤ 1024) {next : Machine} {offset : Word}
    (made : start.newTables base flags i = some (next, offset)) :
    offset = BitVec.ofNat 32 (2 ^ 22 * i) ∧ ∃ table, machine.Building next base flags i table := by
  obtain ⟨value, table, building, _⟩ := initial.newTables_invariant
    (I := fun _ _ _ => True) trivial (fun _ _ _ _ _ _ _ => trivial) bound made
  exact ⟨value, table, building⟩

/-- The result of `paging_new_chunk`: nothing that was live has changed, and the new chunk
is the identity. -/
structure Machine.NewChunk (machine : Machine) (flags : Byte) (chunk : Word)
    (directory : PageDirectory) (next : Machine) : Prop where
  grown : machine.Grown next
  fresh : machine.live chunk = none
  added : machine.live directory.base = none
  has : next.HasChunk chunk directory
  space : directory.space next.memory = AddressSpace.identity (flagWord flags)
  origin : ∀ p allocation, next.live p = some allocation → machine.live p = some allocation ∨
    p = chunk ∨ allocation.owner = .directory ∨ ∃ j, allocation.owner = .table directory.base j

theorem pointerWord_high {entry : Word} (aligned : entry.toNat % 4096 = 0) (flags : Byte) :
    pointerWord entry flags &&& 0xfffff000 = entry := by
  unfold pointerWord
  rw [BitVec.or_assoc]
  refine AddressSpace.or_high aligned ?_
  rw [BitVec.toNat_or]
  exact Nat.or_lt_two_pow (n := 12) (flagWord_lt flags) (flagWord_lt pagingIsWritable)

/-- The last allocation of `paging_new_chunk`, the chunk itself. -/
theorem Machine.Building.finish {machine next last : Machine} {base chunk : Word} {flags : Byte}
    {table : ℕ → Word} (building : machine.Building next base flags 1024 table)
    (cleared : next.Cleared (.chunk base) 4 chunk last) :
    machine.NewChunk flags chunk ⟨base, table⟩
      { last with memory := last.memory.store32 chunk base } := by
  have more := cleared.grown
  have sound := more.sound
  have held : last.live chunk = some ⟨4, .chunk base⟩ := cleared.held
  have heldBase := more.kept _ _ building.held
  have heldTable : ∀ j < 1024, last.live (table j) = some ⟨4096, .table base j⟩ :=
    fun j inside => more.kept _ _ (building.tables j inside)
  have fresh : machine.live chunk = none := by
    rcases earlier : machine.live chunk with _ | allocation
    · rfl
    · have kept := building.grown.kept _ _ earlier
      rw [cleared.fresh] at kept
      cases kept
  have same : ∀ x : Word, 4 ≤ (x - chunk).toNat →
    last.memory.store32 chunk base x = last.memory x :=
    fun x far => last.memory.store32_apply_of_far base far
  have older : ∀ {p : Word} {allocation : Allocation}, next.live p = some allocation → ∀ x : Word,
      (x - p).toNat < allocation.size.toNat →
        last.memory.store32 chunk base x = next.memory x := by
    intro p allocation present x inside
    refine (same x ?_).trans (more.agree present inside)
    by_contra near
    refine sound.frames_disjoint (fun equal => ?_) (more.kept p _ present) held inside
      (not_le.mp near) rfl
    rw [equal, cleared.fresh] at present
    cases present
  have word : ∀ {p : Word} {allocation : Allocation}, next.live p = some allocation →
      allocation.size = 4096 → ∀ j < 1024,
        (last.memory.store32 chunk base).load32 (p + BitVec.ofNat 32 (4 * j)) =
          next.memory.load32 (p + BitVec.ofNat 32 (4 * j)) := by
    intro p allocation present size j inside
    have aligned := building.grown.sound.aligned present
    refine ByteMemory.load32_congr fun k small => older present _ ?_
    rw [size]
    exact (AddressSpace.offset_lt_iff aligned _).mpr
      (PageDirectory.pageNumber_word aligned inside small)
  refine {
    grown := (building.grown.trans more).write _ (fun x low => same x ?_) fun x outside => same x ?_
    fresh := fresh
    added := building.added
    has := ⟨held, heldBase, heldTable, ByteMemory.load32_store32_self .., fun j inside => ?_⟩
    space := funext fun u => ?_
    origin := fun p allocation present => ?_ }
  · by_contra near
    exact absurd (sound.tableLimit_le held (not_le.mp near)) (not_le.mpr low)
  · by_contra near
    exact outside ⟨chunk, _, fresh, held, not_le.mp near⟩
  · refine (congrArg (· &&& 0xfffff000) (word building.held rfl j inside)).trans ?_
    rw [building.pointers j inside]
    exact pointerWord_high (sound.aligned (heldTable j inside)) flags
  · have index := PageDirectory.index_lt u
    have offset : pageNumber u % 1024 < 1024 := Nat.mod_lt _ (by decide)
    refine (word (building.tables _ index) rfl _ offset).trans ?_
    rw [building.entries _ index _ offset]
    refine congrArg (· ||| flagWord flags) (BitVec.eq_of_toNat_eq ?_)
    rw [AddressSpace.high_toNat, BitVec.toNat_ofNat]
    have := u.isLt
    unfold pageNumber
    omega
  · change last.live p = some allocation at present
    rw [cleared.live] at present
    by_cases isChunk : p = chunk
    · exact .inr (.inl isChunk)
    · rw [Function.update_of_ne isChunk] at present
      rcases building.origin p allocation present with before | other
      · exact .inl before
      · exact .inr (.inr other)

/-- What a new chunk is made of: a block for the directory, its tables and a block for the chunk,
none of which is null. -/
theorem Machine.pagingNewChunk_cases {machine next : Machine} {flags : Byte} {chunk : Word}
    (made : machine.pagingNewChunk flags = some (chunk, next)) :
    let directory := machine.kzalloc .directory (4 * pagingTotalEntriesPerTable)
    ∃ middle offset, directory.1 ≠ null ∧
      directory.2.newTables directory.1 flags 1024 = some (middle, offset) ∧
      (middle.kzalloc (.chunk directory.1) 4).1 ≠ null ∧
      chunk = (middle.kzalloc (.chunk directory.1) 4).1 ∧
      next = { (middle.kzalloc (.chunk directory.1) 4).2 with
        memory := (middle.kzalloc (.chunk directory.1) 4).2.memory.store32 chunk directory.1 } := by
  unfold Machine.pagingNewChunk at made
  dsimp only at made
  split at made
  · cases made
  · rename_i found
    rw [Option.bind_eq_bind, Option.bind_eq_some_iff] at made
    obtain ⟨⟨middle, offset⟩, tables, made⟩ := made
    dsimp only at made
    split at made
    · cases made
    · rename_i foundChunk
      cases made
      exact ⟨middle, offset, found, tables, foundChunk, rfl, rfl⟩

/-- `paging_new_chunk`, when no allocation fails. -/
theorem Machine.HeapSound.pagingNewChunk {machine next : Machine} (sound : machine.HeapSound)
    {flags : Byte} {chunk : Word} (made : machine.pagingNewChunk flags = some (chunk, next)) :
    ∃ directory, machine.NewChunk flags chunk directory next := by
  obtain ⟨middle, offset, found, tables, foundChunk, rfl, rfl⟩ := Machine.pagingNewChunk_cases made
  have cleared := sound.kzalloc .directory tableSize_proper found
  obtain ⟨_, table, building⟩ := (cleared.building flags).newTables le_rfl tables
  have last := building.grown.sound.kzalloc (.chunk _) (show Proper 4 by decide) foundChunk
  exact ⟨_, building.finish last⟩

/-! Releases write only the block table. -/

/-- The allocations in `gone` were released; memory from the table limit on is the same. -/
structure Machine.Released (machine : Machine) (gone : Set Word) (next : Machine) : Prop where
  sound : next.HeapSound
  dropped : ∀ p ∈ gone, next.live p = none
  kept : ∀ p ∉ gone, next.live p = machine.live p
  memory : ∀ x : Word, tableLimit ≤ x.toNat → next.memory x = machine.memory x

theorem Machine.HeapSound.kfree_released {machine : Machine} (sound : machine.HeapSound) {p : Word}
    {allocation : Allocation} (held : machine.live p = some allocation) :
    machine.Released {p} (machine.kfree p) where
  sound := sound.kfree held
  dropped q here := by
    rw [Set.mem_singleton_iff] at here
    rw [here]
    exact Function.update_self ..
  kept q elsewhere := Function.update_of_ne elsewhere ..
  memory _ := machine.kfree_memory p

theorem Machine.Released.trans {machine middle next : Machine} {first second : Set Word}
    (earlier : machine.Released first middle) (later : middle.Released second next) :
    machine.Released (second ∪ first) next where
  sound := later.sound
  dropped p member := by
    by_cases here : p ∈ second
    · exact later.dropped p here
    · rw [later.kept p here, earlier.dropped p (member.resolve_left here)]
  kept p outside := by
    rw [Set.mem_union, not_or] at outside
    rw [later.kept p outside.1, earlier.kept p outside.2]
  memory x beyond := (later.memory x beyond).trans (earlier.memory x beyond)

/-- A chunk survives the release of other allocations. -/
theorem Machine.Released.hasChunk {machine next : Machine} {gone : Set Word}
    (released : machine.Released gone next) (sound : machine.HeapSound) {chunk : Word}
    {directory : PageDirectory} (has : machine.HasChunk chunk directory) (keptChunk : chunk ∉ gone)
    (keptBase : directory.base ∉ gone) (keptTables : ∀ i < 1024, directory.table i ∉ gone) :
    next.HasChunk chunk directory ∧
      directory.space next.memory = directory.space machine.memory := by
  refine has.congr sound fun p allocation held part => ⟨?_, fun x inside => ?_⟩
  · rw [released.kept p, held]
    rcases part with rfl | rfl | ⟨i, inside, rfl⟩
    · exact keptChunk
    · exact keptBase
    · exact keptTables i inside
  · exact released.memory x (sound.tableLimit_le held inside)

section Free

variable {machine : Machine} (sound : machine.HeapSound) {chunk : Word}
  {directory : PageDirectory} (has : machine.HasChunk chunk directory)

include sound has

/-- A round of the loop of `paging_free_chunk` reads the directory back through memory that the
rounds before have not touched. -/
theorem Machine.HasChunk.freeTables_succ {i : ℕ} (inside : i < 1024)
    (released : machine.Released {p | ∃ j < i, p = directory.table j}
    (machine.freeTables chunk i)) :
    machine.freeTables chunk (i + 1) = (machine.freeTables chunk i).kfree (directory.table i) := by
  have word : ∀ {p : Word} {allocation : Allocation}, machine.live p = some allocation →
      ∀ a : Word, (∀ k : Word, k.toNat < 4 → (a + k - p).toNat < allocation.size.toNat) →
        (machine.freeTables chunk i).memory.load32 a = machine.memory.load32 a :=
    fun held a inside => ByteMemory.load32_congr fun k small =>
      released.memory _ (sound.tableLimit_le held (inside k small))
  have root : (machine.freeTables chunk i).memory.load32 chunk = directory.base := by
    rw [word has.held chunk fun k small => ?_, has.root]
    rw [add_sub_cancel_left]
    exact small
  have table : (machine.freeTables chunk i).memory.load32
      (directory.base + BitVec.ofNat 32 (4 * i)) &&& 0xfffff000 = directory.table i := by
    have aligned := sound.aligned has.base
    rw [word has.base _ fun k small => ?_]
    · exact has.pointers i inside
    · exact (AddressSpace.offset_lt_iff aligned _).mpr
        (PageDirectory.pageNumber_word aligned inside small)
  rw [Machine.freeTables, root, table]

theorem Machine.HasChunk.freeTables {i : ℕ} (bound : i ≤ 1024) :
    machine.Released {p | ∃ j < i, p = directory.table j} (machine.freeTables chunk i) := by
  induction i with
  | zero =>
      exact ⟨sound, fun p ⟨_, absent, _⟩ => absurd absent (Nat.not_lt_zero _), fun _ _ => rfl,
        fun _ _ => rfl⟩
  | succ i ih =>
      have released := ih (by omega)
      have distinct := (has.chunkAt sound).wired.distinct
      have held : (machine.freeTables chunk i).live (directory.table i) =
          some ⟨4096, .table directory.base i⟩ := by
        rw [released.kept, has.tables i (by omega)]
        rintro ⟨j, earlier, same⟩
        exact earlier.ne' (distinct i (by omega) j (by omega) same)
      have step := released.trans (released.sound.kfree_released held)
      have parts : {directory.table i} ∪ {p | ∃ j < i, p = directory.table j} =
          {p | ∃ j < i + 1, p = directory.table j} := by
        ext p
        exact Or.comm.trans Nat.exists_lt_succ_right.symm
      rw [has.freeTables_succ sound (by omega) released, ← parts]
      exact step

/-- The directory and the chunk are released last. -/
theorem Machine.HasChunk.pagingFreeChunk_eq : machine.pagingFreeChunk chunk =
    ((machine.freeTables chunk 1024).kfree directory.base).kfree chunk := by
  have root : (machine.freeTables chunk 1024).memory.load32 chunk = directory.base := by
    rw [← has.root]
    refine ByteMemory.load32_congr fun k small =>
      (has.freeTables sound le_rfl).memory _ (sound.tableLimit_le has.held ?_)
    rw [add_sub_cancel_left]
    exact small
  unfold Machine.pagingFreeChunk
  dsimp only
  rw [root]

/-- `paging_free_chunk` releases the chunk, its directory and its page tables. -/
theorem Machine.HasChunk.pagingFreeChunk :
    machine.Released {p | p = chunk ∨ p = directory.base ∨ ∃ j < 1024, p = directory.table j}
      (machine.pagingFreeChunk chunk) := by
  have chunkAt := has.chunkAt sound
  have tables := has.freeTables sound le_rfl
  have chunkKept : chunk ∉ {p | ∃ j < 1024, p = directory.table j} := by
    rintro ⟨j, inside, same⟩
    exact chunkAt.apart ⟨j, inside, by rw [same]⟩
  have baseKept : directory.base ∉ {p | ∃ j < 1024, p = directory.table j} := by
    rintro ⟨j, inside, same⟩
    exact chunkAt.wired.apart j inside same.symm
  have heldBase := (tables.kept _ baseKept).trans has.base
  have noBase := tables.trans (tables.sound.kfree_released heldBase)
  have chunkNotBase : chunk ≠ directory.base := by
    intro same
    have held := has.held
    rw [same, has.base] at held
    simp at held
  have heldChunk := (noBase.kept chunk (by
    rw [Set.mem_union, not_or]
    exact ⟨chunkNotBase, chunkKept⟩)).trans has.held
  rw [has.pagingFreeChunk_eq sound]
  exact noBase.trans (noBase.sound.kfree_released heldChunk)

end Free

end Phix
