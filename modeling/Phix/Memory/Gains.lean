import Phix.Memory.Requests

/-! # What calls leave allocated

`Phix.Machine.Gains` relates the live allocations before and after calls that may allocate
and release what they allocated: what was live still is, and the listed pointers are live now
and were not before. Allocating gains the pointer returned (`Phix.Machine.HeapSound.kzalloc_gains`),
and releasing a gained pointer gives it up (`Phix.Machine.Gains.release`).
`Phix.Machine.Ensures` says what calls ensure when the requests they make of the heap are of
some kind, such as served.
-/

namespace Phix

structure Machine.Gains (machine next : Machine) (pointers : List Word) : Prop where
  kept : ∀ p, machine.live p ≠ none → next.live p ≠ none
  distinct : pointers.Nodup
  fresh : ∀ p ∈ pointers, machine.live p = none
  held : ∀ p ∈ pointers, next.live p ≠ none

namespace Machine

theorem kfree_live (machine : Machine) (p : Word) :
    (machine.kfree p).live = Function.update machine.live p none := rfl

theorem kfree_live_of_ne (machine : Machine) {p q : Word} (different : q ≠ p) :
    (machine.kfree p).live q = machine.live q := by
  rw [kfree_live, Function.update_of_ne different]

namespace Gains

variable {machine middle next : Machine} {pointers earlier later : List Word}

theorem refl (machine : Machine) : machine.Gains machine [] where
  kept _ := id
  distinct := List.nodup_nil
  fresh _ member := absurd member List.not_mem_nil
  held _ member := absurd member List.not_mem_nil

theorem trans (first : machine.Gains middle earlier) (second : middle.Gains next later) :
    machine.Gains next (later ++ earlier) where
  kept p live := second.kept p (first.kept p live)
  distinct := second.distinct.append first.distinct fun p new old =>
    first.held p old (second.fresh p new)
  fresh p member := by
    rcases List.mem_append.mp member with new | old
    · by_contra live
      exact first.kept p live (second.fresh p new)
    · exact first.fresh p old
  held p member := by
    rcases List.mem_append.mp member with new | old
    · exact second.held p new
    · exact second.kept p (first.held p old)

/-- Some of the pointers gained. -/
theorem sublist (gains : machine.Gains next pointers) (part : earlier.Sublist pointers) :
    machine.Gains next earlier where
  kept := gains.kept
  distinct := gains.distinct.sublist part
  fresh p member := gains.fresh p (part.subset member)
  held p member := gains.held p (part.subset member)

theorem none (gains : machine.Gains next pointers) : machine.Gains next [] :=
  gains.sublist (List.nil_sublist pointers)

theorem congr (gains : machine.Gains next pointers) {other : Machine}
    (live : other.live = next.live) : machine.Gains other pointers where
  kept p was := by
    rw [live]
    exact gains.kept p was
  distinct := gains.distinct
  fresh := gains.fresh
  held p member := by
    rw [live]
    exact gains.held p member

/-- A pointer that was not live is released. -/
theorem kfree (gains : machine.Gains next pointers) {p : Word} (fresh : machine.live p = .none)
    (other : p ∉ pointers) : machine.Gains (next.kfree p) pointers where
  kept q live := by
    rw [next.kfree_live_of_ne]
    · exact gains.kept q live
    · rintro rfl
      exact live fresh
  distinct := gains.distinct
  fresh := gains.fresh
  held q member := by
    rw [next.kfree_live_of_ne]
    · exact gains.held q member
    · rintro rfl
      exact other member

/-- The pointer gained last is released. -/
theorem release {p : Word} (gains : machine.Gains next (p :: pointers)) :
    machine.Gains (next.kfree p) pointers :=
  (gains.sublist (List.sublist_cons_self p pointers)).kfree
    (gains.fresh p (List.mem_cons_self ..)) (List.nodup_cons.mp gains.distinct).1

end Gains

/-- At most `n` allocations were released, and none was made. -/
def Releases (machine next : Machine) (n : ℕ) : Prop :=
  ∃ freed : List Word, freed.length ≤ n ∧ ∀ p, p ∉ freed → next.live p = machine.live p

namespace Releases

variable {machine middle next : Machine} {n : ℕ}

theorem refl (machine : Machine) (n : ℕ) : machine.Releases machine n :=
  ⟨[], Nat.zero_le n, fun _ _ => rfl⟩

theorem kfree (releases : machine.Releases next n) (p : Word) :
    machine.Releases (next.kfree p) (n + 1) := by
  obtain ⟨freed, few, same⟩ := releases
  refine ⟨p :: freed, Nat.succ_le_succ few, fun q outside => ?_⟩
  obtain ⟨different, rest⟩ := List.ne_and_not_mem_of_not_mem_cons outside
  rw [next.kfree_live_of_ne different, same q rest]

/-- Of more pointers than are released one stays. -/
theorem survivor (releases : middle.Releases next n) {pointers : List Word}
    (gains : machine.Gains middle pointers) (many : n < pointers.length) :
    ∃ p, machine.live p = none ∧ next.live p ≠ none := by
  obtain ⟨freed, few, same⟩ := releases
  obtain ⟨p, member, outside⟩ : ∃ p ∈ pointers, p ∉ freed := by
    by_contra all
    push Not at all
    have bound := (List.subperm_of_subset gains.distinct all).length_le
    omega
  refine ⟨p, gains.fresh p member, ?_⟩
  rw [same p outside]
  exact gains.held p member

end Releases

/-- An allocation forgets no live pointer. -/
theorem kzalloc_kept (machine : Machine) (owner : Owner) (size : Word) :
    machine.Gains (machine.kzalloc owner size).2 [] where
  kept p live := by
    rw [kzalloc_live, kmalloc_live]
    split
    · by_cases same : p = (machine.kmalloc owner size).1
      · rw [same, Function.update_self]
        exact Option.some_ne_none _
      · rw [Function.update_of_ne same]
        exact live
    · exact live
  distinct := List.nodup_nil
  fresh _ member := absurd member List.not_mem_nil
  held _ member := absurd member List.not_mem_nil

/-- The pointer, unless it is null. -/
def obtained (p : Word) : List Word := if p = null then [] else [p]

theorem obtained_null : obtained null = [] := if_pos rfl

theorem obtained_of_ne {p : Word} (found : p ≠ null) : obtained p = [p] := if_neg found

namespace HeapSound

variable {machine : Machine} (sound : machine.HeapSound) (owner : Owner) {size : Word}

include sound

theorem kzalloc_fresh (found : (machine.kzalloc owner size).1 ≠ null) :
    machine.live (machine.kzalloc owner size).1 = none :=
  sound.kmalloc_fresh owner found

theorem kzalloc_gains (proper : Proper size) (found : (machine.kzalloc owner size).1 ≠ null) :
    machine.Gains (machine.kzalloc owner size).2 [(machine.kzalloc owner size).1] where
  kept := (machine.kzalloc_kept owner size).kept
  distinct := List.nodup_singleton _
  fresh p member := by
    rw [List.mem_singleton.mp member]
    exact sound.kzalloc_fresh owner found
  held p member := by
    rw [List.mem_singleton.mp member, (sound.kzalloc owner proper found).held]
    exact Option.some_ne_none _

theorem kzalloc_obtained (proper : Proper size) :
    machine.Gains (machine.kzalloc owner size).2 (obtained (machine.kzalloc owner size).1) := by
  by_cases found : (machine.kzalloc owner size).1 = null
  · rw [found, obtained_null]
    exact machine.kzalloc_kept owner size
  · rw [obtained_of_ne found]
    exact sound.kzalloc_gains owner proper found

/-- An allocation of at most a block keeps the heap sound, whether it succeeds or not. -/
theorem kzalloc_small (positive : 1 ≤ size.toNat) (small : size.toNat ≤ 4096) :
    (machine.kzalloc owner size).2.HeapSound := by
  by_cases found : (machine.kzalloc owner size).1 = null
  · refine (sound.kzalloc_idle owner (small.trans ?_) fun granted => granted.1 found).1
    decide
  · exact (sound.kzalloc owner ⟨positive, by unfold maxRequest; omega⟩ found).sound

/-- A request that grants nothing changes neither the allocations nor the block table. -/
theorem kzalloc_unchanged (small : size.toNat ≤ phixHeapTableAddress.toNat)
    (idle : ¬ ((machine.kzalloc owner size).1 ≠ null ∧ Proper size)) :
    (machine.kzalloc owner size).2.live = machine.live ∧
      (machine.kzalloc owner size).2.freeBlocks = machine.freeBlocks := by
  obtain ⟨_, live, memory⟩ := sound.kzalloc_idle owner small idle
  refine ⟨live, ?_⟩
  ext i
  rw [mem_freeBlocks, mem_freeBlocks]
  refine and_congr_right fun inside => ?_
  have entry : (kernelHeap (machine.kzalloc owner size).2.memory).table.entries i =
      (kernelHeap machine.memory).table.entries i := by
    refine memory _ ?_
    rw [BitVec.toNat_add, BitVec.toNat_ofNat]
    change 0x7E00 ≤ (0x7E00 + i % 2 ^ 32) % 2 ^ 32
    omega
  unfold HeapTable.IsFree
  rw [entry]

/-- An allocation of at most a block that fails changes neither the live allocations nor the free
blocks. -/
theorem kzalloc_null (small : size.toNat ≤ 4096) (isNull : (machine.kzalloc owner size).1 = null) :
    (machine.kzalloc owner size).2.live = machine.live ∧
      (machine.kzalloc owner size).2.freeBlocks = machine.freeBlocks :=
  sound.kzalloc_unchanged owner (small.trans (by decide)) fun granted => granted.1 isNull

/-- A request of at most a block takes one, or finds none. -/
theorem kzalloc_room (positive : 1 ≤ size.toNat) (small : size.toNat ≤ 4096) :
    (machine.kzalloc owner size).2.HeapSound ∧
      (((machine.kzalloc owner size).1 = null ∧ machine.freeBlocks.card = 0) ∨
        ((machine.kzalloc owner size).1 ≠ null ∧
          (machine.kzalloc owner size).2.freeBlocks.card + 1 = machine.freeBlocks.card)) := by
  refine ⟨sound.kzalloc_small owner positive small, ?_⟩
  by_cases free : machine.freeBlocks.Nonempty
  · obtain ⟨found, takes⟩ := sound.kzalloc_block owner positive small free
    exact .inr ⟨found, takes.card⟩
  · have none := Finset.not_nonempty_iff_eq_empty.mp free
    exact .inl ⟨(machine.kzalloc_eq_null_iff owner positive small).mpr none,
      Finset.card_eq_zero.mpr none⟩

/-- Distinct live pointers are released one after another. -/
theorem foldl_kfree {pointers : List Word} (distinct : pointers.Nodup)
    (live : ∀ p ∈ pointers, machine.live p ≠ none) :
    (pointers.foldl Machine.kfree machine).HeapSound ∧
      ∀ p ∉ pointers, (pointers.foldl Machine.kfree machine).live p = machine.live p := by
  induction pointers generalizing machine with
  | nil => exact ⟨sound, fun _ _ => rfl⟩
  | cons p pointers ih =>
      obtain ⟨allocation, held⟩ := Option.ne_none_iff_exists'.mp (live p (List.mem_cons_self ..))
      obtain ⟨absent, rest⟩ := List.nodup_cons.mp distinct
      have others : ∀ q ∈ pointers, (machine.kfree p).live q ≠ none := by
        intro q member
        have different : q ≠ p := fun same => absent (same ▸ member)
        rw [machine.kfree_live_of_ne different]
        exact live q (List.mem_cons_of_mem _ member)
      obtain ⟨ends, kept⟩ := ih (sound.kfree held) rest others
      refine ⟨ends, fun q outside => ?_⟩
      obtain ⟨different, absent⟩ := List.ne_and_not_mem_of_not_mem_cons outside
      rw [List.foldl_cons, kept q absent, machine.kfree_live_of_ne different]

/-- Releasing the null pointer does nothing. -/
theorem kfree_null : (machine.kfree null).HeapSound ∧ (machine.kfree null).live = machine.live := by
  have live : (machine.kfree null).live = machine.live := by
    rw [kfree_live, ← sound.live_null, Function.update_eq_self]
  have memory : (machine.kfree null).memory = machine.memory := by
    change storeTable (heapFree (kernelHeap machine.memory) null).table = machine.memory
    unfold heapFree
    rw [if_pos rfl, storeTable_kernelHeap]
  exact ⟨sound.of_agree live fun x _ => congrFun memory x, live⟩

end HeapSound

/-- Calls made requests of the heap, and with all of them permitted the outcome holds. -/
def Ensures (permitted : Request → Prop) (machine next : Machine) (outcome : Prop) : Prop :=
  ∃ made, next.requests = made ++ machine.requests ∧
    ((∀ request ∈ made, permitted request) → outcome)

/-- Every request that was made is permitted. -/
def Permits (permitted : Request → Prop) (machine next : Machine) : Prop :=
  ∃ made, next.requests = made ++ machine.requests ∧ ∀ request ∈ made, permitted request

namespace Ensures

variable {permitted : Request → Prop} {machine middle next : Machine} {outcome later : Prop}

theorem of_requests (same : next.requests = machine.requests) (holds : outcome) :
    Ensures permitted machine next outcome :=
  ⟨[], same, fun _ => holds⟩

theorem trans (first : Ensures permitted machine middle outcome)
    (second : Ensures permitted middle next (outcome → later)) :
    Ensures permitted machine next later := by
  obtain ⟨earlier, requests, holds⟩ := first
  obtain ⟨made, moreRequests, leads⟩ := second
  refine ⟨made ++ earlier, by rw [moreRequests, requests, List.append_assoc], fun all => ?_⟩
  exact leads (fun request member => all request (List.mem_append_left _ member))
    (holds fun request member => all request (List.mem_append_right _ member))

theorem imp (ensures : Ensures permitted machine next outcome) (leads : outcome → later) :
    Ensures permitted machine next later := by
  obtain ⟨made, requests, holds⟩ := ensures
  exact ⟨made, requests, fun all => leads (holds all)⟩

theorem mono {other : Request → Prop} (ensures : Ensures permitted machine next outcome)
    (weaker : ∀ request, other request → permitted request) :
    Ensures other machine next outcome := by
  obtain ⟨made, requests, holds⟩ := ensures
  exact ⟨made, requests, fun all => holds fun request member => weaker request (all request member)⟩

theorem congr (ensures : Ensures permitted machine middle outcome)
    (same : next.requests = middle.requests) : Ensures permitted machine next outcome := by
  obtain ⟨made, requests, holds⟩ := ensures
  exact ⟨made, same.trans requests, holds⟩

/-- Calls that ensure something come between the states before and after others. -/
theorem after {other : Request → Prop} (first : Ensures other machine middle outcome)
    (second : Ensures permitted middle next later) : Ensures permitted machine next later := by
  obtain ⟨earlier, requests, _⟩ := first
  exact trans ⟨earlier, requests, fun _ => trivial⟩ (second.imp fun holds _ => holds)

theorem and (first : Ensures permitted machine next outcome)
    (second : Ensures permitted machine next later) :
    Ensures permitted machine next (outcome ∧ later) := by
  obtain ⟨made, requests, holds⟩ := first
  obtain ⟨other, sameRequests, alsoHolds⟩ := second
  cases List.append_cancel_right (requests.symm.trans sameRequests)
  exact ⟨made, requests, fun all => ⟨holds all, alsoHolds all⟩⟩

theorem apply (ensures : Ensures permitted machine next outcome)
    (permits : Permits permitted machine next) : outcome := by
  obtain ⟨made, requests, holds⟩ := ensures
  obtain ⟨other, sameRequests, all⟩ := permits
  cases List.append_cancel_right (requests.symm.trans sameRequests)
  exact holds all

/-- Of two series of calls whose requests are all permitted, the first has its outcome and the
requests of the second are permitted. -/
theorem split (first : Ensures permitted machine middle outcome)
    (second : Ensures permitted middle next later) (permits : Permits permitted machine next) :
    outcome ∧ Permits permitted middle next := by
  obtain ⟨earlier, requests, holds⟩ := first
  obtain ⟨made, moreRequests, _⟩ := second
  obtain ⟨whole, sameRequests, all⟩ := permits
  rw [moreRequests, requests, ← List.append_assoc] at sameRequests
  cases List.append_cancel_right sameRequests
  exact ⟨holds fun request member => all request (List.mem_append_right _ member),
    made, moreRequests, fun request member => all request (List.mem_append_left _ member)⟩

end Ensures

theorem Permits.trans {permitted : Request → Prop} {machine middle next : Machine}
    (first : Permits permitted machine middle) (second : Permits permitted middle next) :
    Permits permitted machine next := by
  obtain ⟨earlier, requests, before⟩ := first
  obtain ⟨made, moreRequests, after⟩ := second
  refine ⟨made ++ earlier, by rw [moreRequests, requests, List.append_assoc],
    fun request member => ?_⟩
  exact (List.mem_append.mp member).elim (after request) (before request)

theorem Permits.mono {permitted other : Request → Prop} {machine next : Machine}
    (permits : Permits permitted machine next)
    (weaker : ∀ request, permitted request → other request) :
    Permits other machine next := by
  obtain ⟨made, requests, all⟩ := permits
  exact ⟨made, requests, fun request member => weaker request (all request member)⟩

/-- A request of at most a block is served while a block is free. -/
theorem request_served {machine : Machine} {size : Word} (positive : 1 ≤ size.toNat)
    (small : size.toNat ≤ 4096) (free : machine.freeBlocks.Nonempty) :
    (machine.request size).Served := by
  obtain ⟨i, member⟩ := free
  rw [mem_freeBlocks] at member
  have single : blockCount size = 1 := by
    unfold blockCount
    omega
  refine ⟨⟨positive, by unfold maxRequest; exact small.trans (by decide)⟩, i, ?_⟩
  change (kernelHeap machine.memory).table.FreeRun i (blockCount size)
  rw [single]
  exact ⟨member.1, Runs.isRun_one member.2⟩

/-- A request is served while the end of the pool is free. -/
theorem FreeFrom.served {machine : Machine} {k : ℕ} (free : machine.FreeFrom k) {size : Word}
    (proper : Proper size) (room : k + blockCount size ≤ 25600) :
    (machine.request size).Served := by
  refine ⟨proper, k, room, fun i lower upper => ?_⟩
  exact (mem_freeBlocks.mp (free i lower (lt_of_lt_of_le upper room))).2

end Machine

/-- The request is served, or refused without harm. -/
def Request.Clean (request : Request) : Prop := request.Served ∨ request.Refused

namespace Machine

variable {machine : Machine} (sound : machine.HeapSound) (owner : Owner) (size : Word)

include sound

theorem HeapSound.kzalloc_clean :
    Ensures Request.Clean machine (machine.kzalloc owner size).2
      (machine.kzalloc owner size).2.HeapSound := by
  refine ⟨[machine.request size], rfl, fun all => ?_⟩
  have harmless : (machine.request size).Harmless :=
    (all _ (List.mem_singleton_self _)).imp_right Or.inl
  exact (sound.kzalloc_harmless owner harmless).1.sound

end Machine

/-! Where live pointers lie. -/

/-- Every live pointer is a block of the pool. -/
def Machine.LivePool (machine : Machine) : Prop :=
  ∀ p, machine.live p ≠ none → ∃ s < 25600, p = poolBlock s

namespace Machine

variable {machine : Machine}

theorem HeapSound.livePool (sound : machine.HeapSound) : machine.LivePool := by
  intro p held
  obtain ⟨allocation, isLive⟩ := Option.ne_none_iff_exists'.mp held
  obtain ⟨s, inside, pointer, -⟩ := sound.pointer isLive
  exact ⟨s, inside, pointer⟩

theorem LivePool.kzalloc (pool : machine.LivePool) (owner : Owner) (size : Word) :
    (machine.kzalloc owner size).2.LivePool := by
  intro p held
  rw [kzalloc_live, kmalloc_live] at held
  split at held
  · rename_i grants
    by_cases same : p = (machine.kmalloc owner size).1
    · rw [same]
      exact (machine.kmalloc_poolBlock owner size).resolve_left grants.1
    · rw [Function.update_of_ne same] at held
      exact pool p held
  · exact pool p held

theorem LivePool.kfree (pool : machine.LivePool) (q : Word) : (machine.kfree q).LivePool := by
  intro p held
  refine pool p fun free => held ?_
  change Function.update machine.live q none p = none
  by_cases same : p = q
  · rw [same, Function.update_self]
  · rw [Function.update_of_ne same, free]

theorem LivePool.not_live (pool : machine.LivePool) {p : Word}
    (outside : p.toNat < 0x01000000 ∨ 0x80000000 ≤ p.toNat) : machine.live p = none := by
  by_contra held
  obtain ⟨s, inside, rfl⟩ := pool p held
  rw [poolBlock_toNat inside] at outside
  omega

/-- No allocation that a program asks for is added. -/
def AddsNoUser (machine next : Machine) : Prop :=
  ∀ p allocation q, allocation.owner = .user q → next.live p = some allocation →
    machine.live p = some allocation

namespace AddsNoUser

variable {machine middle next : Machine}

theorem refl (machine : Machine) : machine.AddsNoUser machine := fun _ _ _ _ held => held

theorem trans (first : machine.AddsNoUser middle) (second : middle.AddsNoUser next) :
    machine.AddsNoUser next :=
  fun p allocation q user held => first p allocation q user (second p allocation q user held)

theorem of_live (live : next.live = machine.live) : machine.AddsNoUser next :=
  fun _ _ _ _ held => live ▸ held

/-- An allocation of the kernel. -/
theorem kzalloc {owner : Owner} (other : ∀ q, owner ≠ .user q) (size : Word) :
    machine.AddsNoUser (machine.kzalloc owner size).2 := by
  intro p allocation q user held
  rw [kzalloc_live, kmalloc_live] at held
  split at held
  · by_cases here : p = (machine.kmalloc owner size).1
    · rw [here, Function.update_self] at held
      cases held
      exact absurd user (other q)
    · rwa [Function.update_of_ne here] at held
  · exact held

theorem kfree (p : Word) : machine.AddsNoUser (machine.kfree p) := by
  intro q allocation r user held
  rw [kfree_live] at held
  by_cases here : q = p
  · rw [here, Function.update_self] at held
    cases held
  · rwa [Function.update_of_ne here] at held

theorem newTables {directory : Word} {flags : Byte} {i : ℕ} {offset : Word}
    (made : machine.newTables directory flags i = some (next, offset)) :
    machine.AddsNoUser next := by
  induction i generalizing next offset with
  | zero =>
      cases made
      exact .refl machine
  | succ i ih =>
      unfold Machine.newTables at made
      rw [Option.bind_eq_bind, Option.bind_eq_some_iff] at made
      obtain ⟨⟨middle, _⟩, before, rest⟩ := made
      dsimp only at rest
      split at rest
      · cases rest
      · cases rest
        have table : middle.AddsNoUser
            (middle.kzalloc (.table directory i) (4 * pagingTotalEntriesPerTable)).2 :=
          kzalloc (fun _ => Owner.noConfusion) _
        exact ((ih before).trans table).trans (.of_live rfl)

theorem pagingNewChunk {flags : Byte} {chunk : Word}
    (made : machine.pagingNewChunk flags = some (chunk, next)) : machine.AddsNoUser next := by
  unfold Machine.pagingNewChunk at made
  dsimp only at made
  split at made
  · cases made
  · rw [Option.bind_eq_bind, Option.bind_eq_some_iff] at made
    obtain ⟨⟨middle, _⟩, tables, rest⟩ := made
    dsimp only at rest
    split at rest
    · cases rest
    · cases rest
      have directory : machine.AddsNoUser
          (machine.kzalloc .directory (4 * pagingTotalEntriesPerTable)).2 :=
        kzalloc (fun _ => Owner.noConfusion) _
      have chunk : middle.AddsNoUser
          (middle.kzalloc (.chunk (machine.kzalloc .directory
            (4 * pagingTotalEntriesPerTable)).1) 4).2 :=
        kzalloc (fun _ => Owner.noConfusion) _
      exact ((directory.trans (newTables tables)).trans chunk).trans (.of_live rfl)

theorem freeTables (chunk : Word) (i : ℕ) : machine.AddsNoUser (machine.freeTables chunk i) := by
  induction i with
  | zero => exact .refl machine
  | succ i ih => exact ih.trans (.kfree _)

theorem pagingFreeChunk (chunk : Word) : machine.AddsNoUser (machine.pagingFreeChunk chunk) := by
  have tables := @freeTables machine chunk 1024
  unfold Machine.pagingFreeChunk
  generalize machine.freeTables chunk 1024 = middle at tables ⊢
  exact (tables.trans (.kfree _)).trans (.kfree _)

end AddsNoUser

end Machine

end Phix
