import Phix.Heap.Containment

/-! # Which frees leak

The extent of an allocation is recorded only by continuation flags, and these do not fit
into an entry, so a release clears a single block. The taken blocks are therefore
exactly the blocks of live allocations (`Phix.HeapState.Exact`) as long as
every release is of an allocation of one block that the code can locate, and not after any
other release (`Phix.heap_exact_iff`).
-/

namespace Phix

open Extents Runs Traces

/-- A block of the table is taken exactly when it belongs to a live allocation. -/
def HeapState.Exact (state : HeapState) : Prop :=
  ∀ b < state.heap.table.total.toNat, state.heap.table.IsTaken b ↔
    ∃ p size, state.live p = some size ∧ state.heap.HoldsBlock p size b

/-- Allocating `size` bytes and freeing the result gives the table back. -/
def HeapState.Restores (state : HeapState) (size : Word) : Prop :=
  (heapFree (heapMalloc state.heap size).2 (heapMalloc state.heap size).1).table =
    state.heap.table

/-- The call asks for a positive size for which a run of free blocks is long enough, or
frees a live pointer. -/
def HeapState.Served (state : HeapState) : HeapOp → Prop
  | .malloc size => 1 ≤ size.toNat ∧ ∃ s, state.heap.table.FreeRun s (blockCount size)
  | .free p => (state.live p).isSome

/-- The condition under which a call keeps the table exact. A size past the sign boundary may be
asked for only while the last block is taken; a release must be of a single block in the first
two gigabytes of the pool. -/
def HeapState.Releasable (state : HeapState) : HeapOp → Prop
  | .malloc size => size.toNat ≤ maxRequest ∨ ¬ state.heap.table.TailFree
  | .free p => ∀ size, state.live p = some size →
      blockCount size = 1 ∧ state.heap.blockIndex p < 2 ^ 19

structure HeapState.Tight (state : HeapState) : Prop where
  inv : HeapInv state.heap state.live
  nonNull : state.heap.saddr ≠ null
  contained : ∀ p size, state.live p = some size →
    state.heap.blockIndex p + blockCount size ≤ state.heap.table.total.toNat
  exact : ∀ b < state.heap.table.total.toNat, state.heap.table.IsTaken b ↔
    ∃ p size, state.live p = some size ∧ b ∈ (state.heap.extent p size).indices
  cleared : ∀ b < state.heap.table.total.toNat, state.heap.table.IsFree b ∨
    state.heap.table.IsTaken b
  zero : ∀ b < state.heap.table.total.toNat, state.heap.table.IsFree b →
    state.heap.table.entries b = heapBlockTableEntryFree

namespace HeapState.Tight

variable {state : HeapState} (tight : state.Tight)

include tight

theorem toExact : state.Exact := by
  intro b inside
  rw [tight.exact b inside]
  constructor
  · rintro ⟨p, size, held, member⟩
    exact ⟨p, size, held, (tight.inv.holdsBlock_iff held b).mpr member⟩
  · rintro ⟨p, size, held, holds⟩
    exact ⟨p, size, held, (tight.inv.holdsBlock_iff held b).mp holds⟩

end HeapState.Tight

section Step

variable {state : HeapState} (tight : state.Tight)

include tight

private theorem HeapState.Tight.malloc_step {size : Word} (served : state.Served (.malloc size))
    (bound : size.toNat ≤ maxRequest) : (state.step (.malloc size)).Tight := by
  obtain ⟨positive, present⟩ := served
  obtain ⟨s, after, run, _, result, saddr, total, entries⟩ :=
    heapMalloc_found tight.inv.pool positive bound present
  have started : s < state.heap.table.total.toNat := by
    have := run.1
    have := one_le_blockCount positive
    omega
  have notNull := tight.inv.pool.blockAddress_ne_null tight.nonNull started
  have next : state.step (.malloc size) =
      ⟨after, Function.update state.live (state.heap.blockAddress s) (some size)⟩ := by
    simp only [HeapState.step, result, LiveSizes.grant, notNull, ↓reduceIte]
  have invNext : HeapInv (state.step (.malloc size)).heap (state.step (.malloc size)).live :=
    tight.inv.malloc positive bound
  rw [next] at invNext ⊢
  have index : ∀ p, after.blockIndex p = state.heap.blockIndex p := fun p => by
    unfold Heap.blockIndex
    rw [saddr]
  have fresh : state.live (state.heap.blockAddress s) = none := by
    by_contra held
    obtain ⟨other, owns⟩ := Option.ne_none_iff_exists'.mp held
    have first := one_le_blockCount (tight.inv.sized _ _ owns).1
    refine (run.2 s le_rfl (Nat.lt_add_of_pos_right (one_le_blockCount positive))).not_taken ?_
    refine (tight.exact s started).mpr ⟨_, other, owns, ?_⟩
    rw [Extent.mem_indices]
    unfold Heap.extent
    rw [tight.inv.pool.blockIndex_blockAddress started]
    exact ⟨le_rfl, Nat.lt_add_of_pos_right first⟩
  have taken : ∀ b, after.table.IsTaken b ↔
      b ∈ (Extent.mk s (blockCount size)).indices ∨ state.heap.table.IsTaken b := by
    intro b
    unfold HeapTable.IsTaken
    rw [entries b]
    by_cases member : b ∈ (Extent.mk s (blockCount size)).indices
    · simp only [member, ↓reduceIte, heapType_markedEntry, true_or]
    · simp only [member, ↓reduceIte, false_or]
  refine ⟨invNext, saddr ▸ tight.nonNull, ?_, ?_, ?_, ?_⟩
  · intro p held owns
    dsimp only at owns ⊢
    rw [index, total]
    by_cases same : p = state.heap.blockAddress s
    · rw [same, Function.update_self] at owns
      cases owns
      rw [same, tight.inv.pool.blockIndex_blockAddress started]
      exact run.1
    · rw [Function.update_of_ne same] at owns
      exact tight.contained p held owns
  · intro b inside
    dsimp only at inside ⊢
    rw [total] at inside
    rw [taken b, tight.exact b inside]
    unfold Heap.extent
    simp only [index]
    constructor
    · rintro (member | ⟨p, held, owns, member⟩)
      · refine ⟨state.heap.blockAddress s, size, Function.update_self .., ?_⟩
        rw [tight.inv.pool.blockIndex_blockAddress started]
        exact member
      · refine ⟨p, held, ?_, member⟩
        rw [Function.update_of_ne]
        · exact owns
        · intro same
          rw [same, fresh] at owns
          cases owns
    · rintro ⟨p, held, owns, member⟩
      by_cases same : p = state.heap.blockAddress s
      · rw [same, Function.update_self] at owns
        cases owns
        rw [same, tight.inv.pool.blockIndex_blockAddress started] at member
        exact .inl member
      · rw [Function.update_of_ne same] at owns
        exact .inr ⟨p, held, owns, member⟩
  · intro b inside
    dsimp only at inside ⊢
    rw [total] at inside
    rw [taken b]
    unfold HeapTable.IsFree
    rw [entries b]
    by_cases member : b ∈ (Extent.mk s (blockCount size)).indices
    · exact .inr (.inl member)
    · rw [if_neg member]
      exact (tight.cleared b inside).imp id .inr
  · intro b inside free
    dsimp only at inside free ⊢
    rw [total] at inside
    unfold HeapTable.IsFree at free
    rw [entries b] at free ⊢
    by_cases member : b ∈ (Extent.mk s (blockCount size)).indices
    · rw [if_pos member, heapType_markedEntry] at free
      exact absurd free (by decide)
    · rw [if_neg member] at free ⊢
      exact tight.zero b inside free

private theorem HeapState.Tight.free_step {p size : Word} (held : state.live p = some size)
    (single : blockCount size = 1) (low : state.heap.blockIndex p < 2 ^ 19) :
    (state.step (.free p)).Tight := by
  have index : ∀ q, (heapFree state.heap p).blockIndex q = state.heap.blockIndex q := fun q => by
    unfold Heap.blockIndex
    rw [heapFree_saddr]
  have entries := tight.inv.free_entries held
  rw [if_pos low] at entries
  have older : ∀ q found, Function.update state.live p none q = some found →
      q ≠ p ∧ state.live q = some found := by
    intro q found present
    by_cases same : q = p
    · rw [same, Function.update_self] at present
      cases present
    · exact ⟨same, by rwa [Function.update_of_ne same] at present⟩
  have extent : ∀ b, b ∈ (state.heap.extent p size).indices ↔ b = state.heap.blockIndex p := by
    intro b
    rw [Extent.mem_indices]
    unfold Heap.extent
    rw [single]
    constructor
    · rintro ⟨lower, upper⟩
      dsimp only at lower upper
      omega
    · rintro rfl
      exact ⟨le_rfl, Nat.lt_succ_self _⟩
  refine ⟨tight.inv.free held, ?_, ?_, ?_, ?_, ?_⟩
  · change (heapFree state.heap p).saddr ≠ null
    rw [heapFree_saddr]
    exact tight.nonNull
  · intro q found present
    change (heapFree state.heap p).blockIndex q + blockCount found ≤ _
    rw [index]
    change _ ≤ (heapFree state.heap p).table.total.toNat
    rw [heapFree_total]
    exact tight.contained q found (older q found present).2
  · intro b inside
    change b < (heapFree state.heap p).table.total.toNat at inside
    rw [heapFree_total] at inside
    change (heapFree state.heap p).table.IsTaken b ↔
      ∃ q found, Function.update state.live p none q = some found ∧
        b ∈ ((heapFree state.heap p).extent q found).indices
    unfold HeapTable.IsTaken Heap.extent
    simp only [index]
    rw [entries]
    by_cases freed : b = state.heap.blockIndex p
    · rw [freed, Function.update_self]
      refine iff_of_false (by decide) ?_
      rintro ⟨q, found, present, member⟩
      obtain ⟨different, owns⟩ := older q found present
      have apart := tight.inv.placed.separated q p _ _ different
        (state.heap.extents_of_live owns) (state.heap.extents_of_live held)
      exact Set.disjoint_left.mp apart member ((extent _).mpr rfl)
    · rw [Function.update_of_ne freed]
      refine (tight.exact b inside).trans ⟨?_, ?_⟩
      · rintro ⟨q, found, owns, member⟩
        have different : q ≠ p := by
          rintro rfl
          rw [held] at owns
          cases owns
          exact freed ((extent b).mp member)
        exact ⟨q, found, by rwa [Function.update_of_ne different], member⟩
      · rintro ⟨q, found, present, member⟩
        exact ⟨q, found, (older q found present).2, member⟩
  · intro b inside
    change b < (heapFree state.heap p).table.total.toNat at inside
    rw [heapFree_total] at inside
    change (heapFree state.heap p).table.IsFree b ∨ (heapFree state.heap p).table.IsTaken b
    unfold HeapTable.IsFree HeapTable.IsTaken
    rw [entries]
    by_cases freed : b = state.heap.blockIndex p
    · rw [freed, Function.update_self]
      decide
    · rw [Function.update_of_ne freed]
      exact tight.cleared b inside
  · intro b inside free
    change b < (heapFree state.heap p).table.total.toNat at inside
    rw [heapFree_total] at inside
    change heapType ((heapFree state.heap p).table.entries b) = _ at free
    change (heapFree state.heap p).table.entries b = _
    rw [entries] at free ⊢
    by_cases freed : b = state.heap.blockIndex p
    · rw [freed, Function.update_self]
    · rw [Function.update_of_ne freed] at free ⊢
      exact tight.zero b inside free

theorem HeapState.Tight.step {op : HeapOp} (served : state.Served op)
    (releasable : state.Releasable op) : (state.step op).Tight := by
  cases op with
  | malloc size =>
      by_cases bound : size.toNat ≤ maxRequest
      · exact tight.malloc_step served bound
      · rcases heapMalloc_of_not_proper tight.inv.pool (mt And.right bound) with
          ⟨_, failed⟩ | ⟨tailFree, _⟩
        · have same : state.step (.malloc size) = state := by
            simp only [HeapState.step, failed, LiveSizes.grant, ↓reduceIte]
          rw [same]
          exact tight
        · exact absurd tailFree (releasable.resolve_left bound)
  | free p =>
      obtain ⟨size, held⟩ := Option.isSome_iff_exists.mp served
      exact tight.free_step held (releasable size held).1 (releasable size held).2

/-- A block that stays taken after its allocation is freed is leaked. -/
private theorem HeapState.Tight.not_exact_of_leaked {p size : Word}
    (held : state.live p = some size)
    (b : ℕ) (member : b ∈ (state.heap.extent p size).indices)
    (stays : (heapFree state.heap p).table.entries b = state.heap.table.entries b) :
    ¬ (state.step (.free p)).Exact := by
  have inside : b < state.heap.table.total.toNat :=
    lt_of_lt_of_le member.2 (tight.contained p size held)
  have taken := (tight.exact b inside).mpr ⟨p, size, held, member⟩
  have invNext := tight.inv.free held
  have index : ∀ q found, (heapFree state.heap p).extent q found = state.heap.extent q found := by
    intro q found
    unfold Heap.extent Heap.blockIndex
    rw [heapFree_saddr]
  intro exact
  have total : b < (heapFree state.heap p).table.total.toNat := by
    rw [heapFree_total]
    exact inside
  have takenNext : (heapFree state.heap p).table.IsTaken b := by
    unfold HeapTable.IsTaken
    rw [stays]
    exact taken
  obtain ⟨q, found, present, holds⟩ := (exact b total).mp takenNext
  have foreign := (invNext.holdsBlock_iff present b).mp holds
  rw [index] at foreign
  change Function.update state.live p none q = some found at present
  by_cases same : q = p
  · rw [same, Function.update_self] at present
    cases present
  · rw [Function.update_of_ne same] at present
    have apart := tight.inv.placed.separated q p _ _ same
      (state.heap.extents_of_live present) (state.heap.extents_of_live held)
    exact Set.disjoint_left.mp apart foreign member

/-- Every other call breaks exactness at once. -/
theorem HeapState.Tight.step_broken {op : HeapOp} (served : state.Served op)
    (other : ¬ state.Releasable op) : ¬ (state.step op).Exact := by
  cases op with
  | malloc size =>
      obtain ⟨large, tailFree⟩ := not_or.mp other
      rcases heapMalloc_of_not_proper tight.inv.pool (mt And.right large) with
        ⟨taken, _⟩ | ⟨_, s, started, free, result⟩
      · exact absurd taken tailFree
      · have notNull := tight.inv.pool.blockAddress_ne_null tight.nonNull started
        have address := tight.inv.pool.blockAddress_toNat started
        intro exact
        have next : state.step (.malloc size) = ⟨state.heap,
            Function.update state.live (state.heap.blockAddress s) (some size)⟩ := by
          simp only [HeapState.step, result, LiveSizes.grant, notNull, ↓reduceIte]
        rw [next] at exact
        refine free.not_taken ((exact s started).mpr ⟨_, size, Function.update_self .., ?_⟩)
        have positive := served.1
        refine ⟨(state.heap.blockAddress s).toNat, ⟨le_rfl, by omega⟩, ?_, ?_⟩ <;>
          dsimp only <;> omega
  | free p =>
      obtain ⟨size, held⟩ := Option.isSome_iff_exists.mp served
      have positive := one_le_blockCount (tight.inv.sized p size held).1
      have entries := tight.inv.free_entries held
      by_cases low : state.heap.blockIndex p < 2 ^ 19
      · have several : 1 < blockCount size := by
          by_contra single
          refine other fun found owns => ?_
          rw [held] at owns
          cases owns
          exact ⟨by omega, low⟩
        refine tight.not_exact_of_leaked held (state.heap.blockIndex p + 1)
          ⟨Nat.le_succ _, Nat.add_lt_add_left several _⟩ ?_
        rw [entries, if_pos low, Function.update_of_ne (Nat.succ_ne_self _)]
      · refine tight.not_exact_of_leaked held (state.heap.blockIndex p)
          ⟨le_rfl, Nat.lt_add_of_pos_right positive⟩ ?_
        rw [entries, if_neg low]

/-- Allocating and freeing gives the table back exactly for a request of one block that
is served in the first two gigabytes, and for a size past the sign boundary, which marks
nothing. -/
theorem HeapState.Tight.restores_iff {size : Word} (positive : 1 ≤ size.toNat)
    (present : ∃ s, state.heap.table.FreeRun s (blockCount size)) :
    state.Restores size ↔ maxRequest < size.toNat ∨
      blockCount size = 1 ∧ ∃ s < 2 ^ 19, state.heap.table.FreeRun s 1 := by
  have pool := tight.inv.pool
  unfold HeapState.Restores
  rcases Nat.lt_or_ge maxRequest size.toNat with large | bound
  · refine iff_of_true ?_ (.inl large)
    rcases heapMalloc_of_not_proper pool (mt And.right (not_le.mpr large))
      with ⟨_, failed⟩ | ⟨_, s, started, free, result⟩
    · rw [failed]
      rfl
    · rw [result]
      refine HeapTable.ext ?_ (heapFree_total _ _)
      rw [heapFree_blockAddress_entries pool started
        (pool.blockAddress_ne_null tight.nonNull started)]
      split
      · rw [← tight.zero s started free, Function.update_eq_self]
      · rfl
  · obtain ⟨s, after, run, least, result, saddr, total, entries⟩ :=
      heapMalloc_found pool positive bound present
    have count := one_le_blockCount positive
    have started : s < state.heap.table.total.toNat := by
      have := run.1
      omega
    have address : after.blockAddress s = state.heap.blockAddress s := by
      unfold Heap.blockAddress heapBlockToAddress
      rw [saddr]
    have afterPool : after.Pool := ⟨saddr ▸ pool.aligned, by rw [saddr, total]; exact pool.bounded⟩
    have freed := heapFree_blockAddress_entries afterPool (total.symm ▸ started)
      (address ▸ pool.blockAddress_ne_null tight.nonNull started)
    rw [result]
    dsimp only
    rw [← address]
    have free := run.2 s le_rfl (Nat.lt_add_of_pos_right count)
    -- Any entry the release leaves marked differs from the free entry it had before.
    have marked : ∀ i ∈ (Extent.mk s (blockCount size)).indices,
        (heapFree after (after.blockAddress s)).table.entries i = after.table.entries i →
          (heapFree after (after.blockAddress s)).table ≠ state.heap.table := by
      intro i member stays same
      have before := run.2 i member.1 member.2
      unfold HeapTable.IsFree at before
      rw [← same, stays, entries i, if_pos member, heapType_markedEntry] at before
      exact absurd before (by decide)
    constructor
    · intro same
      right
      have low : s < 2 ^ 19 := by
        by_contra high
        refine marked s ⟨le_rfl, Nat.lt_add_of_pos_right count⟩ ?_ same
        rw [freed, if_neg high]
      have single : blockCount size = 1 := by
        by_contra several
        have second : 1 < blockCount size := by omega
        refine marked (s + 1) ⟨Nat.le_succ s, Nat.add_lt_add_left second s⟩ ?_ same
        rw [freed, if_pos low, Function.update_of_ne (Nat.succ_ne_self s)]
      exact ⟨single, s, low, single ▸ run⟩
    · rintro (large | ⟨single, t, lowT, runT⟩)
      · omega
      · have low : s < 2 ^ 19 := by
          by_contra high
          exact least t (by omega) (single ▸ runT.2)
        refine HeapTable.ext ?_ ((heapFree_total _ _).trans total)
        rw [freed, if_pos low]
        funext i
        by_cases here : i = s
        · rw [here, Function.update_self, tight.zero s started free]
        · rw [Function.update_of_ne here, entries i, if_neg]
          rw [Extent.mem_indices]
          dsimp only
          omega

end Step

theorem HeapState.created_tight {initial heap : Heap} {start stop : Word} {table : HeapTable}
    (created : heapCreate initial start stop table = (0, heap)) (ordered : start ≤ stop)
    (nonNull : start ≠ null) : (HeapState.created heap).Tight := by
  obtain ⟨pool, based, zero⟩ := heapCreate_pool created ordered
  have free := fun b inside => HeapTable.isFree_of_entry (zero b inside)
  refine {
    inv := heapInv_none pool
    nonNull := based.symm ▸ nonNull
    contained := fun _ _ absent => by cases absent
    exact := fun b inside => iff_of_false (free b inside).not_taken ?_
    cleared := fun b inside => .inl (free b inside)
    zero := fun b inside _ => zero b inside }
  rintro ⟨_, _, absent, _⟩
  cases absent

/-- **When no block leaks.** Over every trace of served allocations and releases of live
pointers from a created heap, the taken blocks are throughout exactly the blocks of
live allocations if and only if every call meets `HeapState.Releasable`; and after such
a trace a served request is undone by freeing its result exactly when it is for one
block in the first two gigabytes, or its size is past the sign boundary. -/
theorem heap_exact_iff {initial heap : Heap} {start stop : Word} {table : HeapTable}
    (created : heapCreate initial start stop table = (0, heap)) (ordered : start ≤ stop)
    (nonNull : start ≠ null) {ops : List HeapOp}
    (served : Along HeapState.step HeapState.Served (HeapState.created heap) ops) :
    (Throughout HeapState.step HeapState.Exact (HeapState.created heap) ops ↔
      Along HeapState.step HeapState.Releasable (HeapState.created heap) ops) ∧
    (Along HeapState.step HeapState.Releasable (HeapState.created heap) ops →
      let state := exec HeapState.step (HeapState.created heap) ops
      ∀ size : Word, state.Served (.malloc size) →
        (state.Restores size ↔ maxRequest < size.toNat ∨
          blockCount size = 1 ∧ ∃ s < 2 ^ 19, state.heap.table.FreeRun s 1)) := by
  have tight := HeapState.created_tight created ordered nonNull
  constructor
  · exact throughout_iff_along HeapState.Tight
      (fun _ _ tight served met => tight.step served met)
      (fun _ _ tight served missed => tight.step_broken served missed)
      (fun _ tight => tight.toExact) tight served
  · intro met state size request
    have reached : state.Tight := invariant_exec HeapState.Tight
      (fun _ _ tight both => tight.step both.1 both.2) tight (served.and met)
    exact reached.restores_iff request.1 request.2

theorem heap_exact_iff_smallHeap :
    Throughout HeapState.step HeapState.Exact (HeapState.created smallHeap)
      [.malloc 4096, .free 0x1000] := by
  have served : Along HeapState.step HeapState.Served (HeapState.created smallHeap)
      [.malloc 4096, .free 0x1000] := by
    refine ⟨⟨by decide, 0, by decide, fun i _ upper => ?_⟩, rfl, trivial⟩
    have inside : i < 1 := upper
    interval_cases i
    rfl
  refine (heap_exact_iff smallHeap_created (by decide) (by decide) served).1.mpr
    ⟨.inl (by decide), fun size held => ?_, trivial⟩
  cases held
  decide

/-- Freeing two blocks leaves the second one taken with nothing live. -/
theorem heap_exact_leak :
    Along HeapState.step HeapState.Served (HeapState.created smallHeap)
        [.malloc 8192, .free 0x1000] ∧
      ¬ Throughout HeapState.step HeapState.Exact (HeapState.created smallHeap)
        [.malloc 8192, .free 0x1000] ∧
      ¬ (HeapState.created smallHeap).Restores 8192 := by
  refine ⟨⟨⟨by decide, 0, by decide, fun i _ upper => ?_⟩, rfl, trivial⟩, ?_, ?_⟩
  · have inside : i < 2 := upper
    interval_cases i <;> rfl
  · rintro ⟨_, _, exact⟩
    obtain ⟨p, size, held, _⟩ := (exact 1 (by decide)).mp rfl
    change Function.update (Function.update (fun _ => none) 0x1000 (some 8192)) 0x1000 none p =
      some size at held
    rw [Function.update_idem, Function.update_eq_self] at held
    cases held
  · intro same
    have entry := congrArg (fun table => HeapTable.entries table 1) same
    exact absurd entry (by decide)

end Phix
