import Phix.Foundation.ByteMemory
import Phix.Foundation.Word

/-! # Two-level page tables in a byte memory

A 32-bit virtual address is looked up through a directory of 1024 page tables of
1024 entries. `PageDirectory.Wired` says that the directory's entries in memory
point at its tables and that the tables are distinct frames apart from the directory;
then storing one table entry changes the entry of one virtual page and keeps the
directory wired (`PageDirectory.Wired.store`). Memory that agrees on the frames
of a directory gives the same entries (`PageDirectory.entry_congr`).
-/

/-- The number of the 4096-byte page or frame of an address. -/
def pageNumber (x : BitVec 32) : ℕ := x.toNat / 4096

/-- Adding less than a page to a page-aligned address stays on its page. -/
theorem pageNumber_add_of_aligned {a k : BitVec 32} (aligned : a.toNat % 4096 = 0)
    (small : k.toNat < 4096) : pageNumber (a + k) = pageNumber a := by
  have := a.isLt
  unfold pageNumber
  rw [BitVec.toNat_add]
  omega

/-- Where a page directory and its page tables are. -/
structure PageDirectory where
  base : BitVec 32
  table : ℕ → BitVec 32

namespace PageDirectory

/-- The address of the table entry for a virtual address. -/
def slot (directory : PageDirectory) (v : BitVec 32) : BitVec 32 :=
  directory.table (v.toNat / 2 ^ 22) + BitVec.ofNat 32 (4 * (pageNumber v % 1024))

def entry (directory : PageDirectory) (memory : ByteMemory) (v : BitVec 32) : BitVec 32 :=
  memory.load32 (directory.slot v)

/-- The address of a directory entry. -/
def pointer (directory : PageDirectory) (i : ℕ) : BitVec 32 :=
  directory.base + BitVec.ofNat 32 (4 * i)

/-- The frames of the page tables. -/
def tableFrames (directory : PageDirectory) : Set ℕ :=
  {n | ∃ i < 1024, pageNumber (directory.table i) = n}

/-- The frames of the directory and of its tables. -/
def frames (directory : PageDirectory) : Set ℕ :=
  insert (pageNumber directory.base) directory.tableFrames

structure Wired (directory : PageDirectory) (memory : ByteMemory) : Prop where
  aligned : directory.base.toNat % 4096 = 0
  tableAligned : ∀ i < 1024, (directory.table i).toNat % 4096 = 0
  distinct : ∀ i < 1024, ∀ j < 1024, directory.table i = directory.table j → i = j
  apart : ∀ i < 1024, directory.table i ≠ directory.base
  pointers : ∀ i < 1024, memory.load32 (directory.pointer i) &&& 0xfffff000 = directory.table i

/-- The directory's entries are marked as present. -/
def Present (directory : PageDirectory) (memory : ByteMemory) : Prop :=
  ∀ i < 1024, memory.load32 (directory.pointer i) &&& 1 ≠ 0

variable {directory : PageDirectory} {memory other : ByteMemory}

theorem index_lt (v : BitVec 32) : v.toNat / 2 ^ 22 < 1024 := by
  have := v.isLt
  omega

theorem word_toNat {i : ℕ} (inside : i < 1024) : (BitVec.ofNat 32 (4 * i)).toNat = 4 * i := by
  rw [BitVec.toNat_ofNat]
  omega

/-- The bytes of a word of an aligned frame are in the frame. -/
theorem pageNumber_word {a k : BitVec 32} (aligned : a.toNat % 4096 = 0) {i : ℕ}
    (inside : i < 1024) (small : k.toNat < 4) :
    pageNumber (a + BitVec.ofNat 32 (4 * i) + k) = pageNumber a := by
  have index := word_toNat inside
  rw [BitVec.add_assoc]
  refine pageNumber_add_of_aligned aligned ?_
  rw [BitVec.toNat_add, index]
  omega

/-- A byte outside an aligned frame is outside every word of the frame. -/
theorem word_far {a x : BitVec 32} (aligned : a.toNat % 4096 = 0) {i : ℕ} (inside : i < 1024)
    (outside : pageNumber x ≠ pageNumber a) : 4 ≤ (x - (a + BitVec.ofNat 32 (4 * i))).toNat := by
  by_contra near
  have place := pageNumber_word aligned inside (not_le.mp near)
  rw [BitVec.add_comm, BitVec.sub_add_cancel] at place
  exact outside place

/-- Different words of a frame share no byte. -/
theorem words_far (a : BitVec 32) {i j : ℕ} (first : i < 1024) (second : j < 1024)
    (different : i ≠ j) :
    4 ≤ ((a + BitVec.ofNat 32 (4 * i)) - (a + BitVec.ofNat 32 (4 * j))).toNat := by
  have left := word_toNat first
  have right := word_toNat second
  rw [add_sub_add_left_eq_sub, BitVec.toNat_sub, left, right]
  omega

theorem pageNumber_injective {a b : BitVec 32} (left : a.toNat % 4096 = 0)
    (right : b.toNat % 4096 = 0) (same : pageNumber a = pageNumber b) : a = b := by
  apply BitVec.eq_of_toNat_eq
  unfold pageNumber at same
  omega

theorem slot_of_samePage {u v : BitVec 32} (same : pageNumber u = pageNumber v) :
    directory.slot u = directory.slot v := by
  have index : u.toNat / 2 ^ 22 = v.toNat / 2 ^ 22 := by
    unfold pageNumber at same
    omega
  unfold slot
  rw [same, index]

theorem entry_of_samePage {u v : BitVec 32} (same : pageNumber u = pageNumber v) :
    directory.entry memory u = directory.entry memory v := by
  unfold entry
  rw [slot_of_samePage same]

section Wired

variable (wired : directory.Wired memory)

include wired

theorem Wired.pageNumber_slot (v : BitVec 32) {k : BitVec 32} (small : k.toNat < 4) :
    pageNumber (directory.slot v + k) = pageNumber (directory.table (v.toNat / 2 ^ 22)) :=
  pageNumber_word (wired.tableAligned _ (index_lt v)) (Nat.mod_lt _ (by decide)) small

theorem Wired.slot_mem (v : BitVec 32) {k : BitVec 32} (small : k.toNat < 4) :
    pageNumber (directory.slot v + k) ∈ directory.tableFrames :=
  ⟨_, index_lt v, (wired.pageNumber_slot v small).symm⟩

theorem Wired.base_notMem : pageNumber directory.base ∉ directory.tableFrames := by
  rintro ⟨i, inside, same⟩
  exact wired.apart i inside
    (pageNumber_injective (wired.tableAligned i inside) wired.aligned same)

/-- The slots of different pages share no byte. -/
theorem Wired.slot_far {u v : BitVec 32} (different : pageNumber u ≠ pageNumber v) :
    4 ≤ (directory.slot u - directory.slot v).toNat := by
  by_contra near
  have first := wired.pageNumber_slot v (not_le.mp near)
  have second := wired.pageNumber_slot u (show (0 : BitVec 32).toNat < 4 by decide)
  rw [BitVec.add_comm, BitVec.sub_add_cancel] at first
  rw [add_zero] at second
  have table := wired.distinct _ (index_lt u) _ (index_lt v)
    (pageNumber_injective (wired.tableAligned _ (index_lt u)) (wired.tableAligned _ (index_lt v))
      (second.symm.trans first))
  -- In one table, different pages have different indices.
  refine near ?_
  unfold slot
  rw [table]
  refine words_far _ (Nat.mod_lt _ (by decide)) (Nat.mod_lt _ (by decide)) ?_
  unfold pageNumber at different ⊢
  omega

theorem Wired.congr (same : ∀ x, pageNumber x = pageNumber directory.base → other x = memory x) :
    directory.Wired other where
  aligned := wired.aligned
  tableAligned := wired.tableAligned
  distinct := wired.distinct
  apart := wired.apart
  pointers i inside := by
    rw [← wired.pointers i inside]
    congr 1
    exact ByteMemory.load32_congr fun k small =>
      same _ (pageNumber_word wired.aligned inside small)

theorem Wired.present_congr (present : directory.Present memory)
    (same : ∀ x, pageNumber x = pageNumber directory.base → other x = memory x) :
    directory.Present other := by
  intro i inside
  have entry : other.load32 (directory.pointer i) = memory.load32 (directory.pointer i) :=
    ByteMemory.load32_congr fun k small => same _ (pageNumber_word wired.aligned inside small)
  rw [entry]
  exact present i inside

theorem Wired.entry_congr (same : ∀ x, pageNumber x ∈ directory.tableFrames → other x = memory x)
    (v : BitVec 32) : directory.entry other v = directory.entry memory v :=
  ByteMemory.load32_congr fun _ small => same _ (wired.slot_mem v small)

/-- A store to a table entry changes memory in the table only. -/
theorem Wired.store_apply (v value : BitVec 32) {x : BitVec 32}
    (outside : pageNumber x ∉ directory.tableFrames) :
    memory.store32 (directory.slot v) value x = memory x := by
  refine memory.store32_apply_of_far value ?_
  refine word_far (wired.tableAligned _ (index_lt v)) (Nat.mod_lt _ (by decide)) ?_
  exact fun same => outside ⟨_, index_lt v, same.symm⟩

theorem Wired.store (v value : BitVec 32) :
    directory.Wired (memory.store32 (directory.slot v) value) :=
  wired.congr fun _ base => wired.store_apply v value (base ▸ wired.base_notMem)

/-- Storing a table entry changes the entry of its page and no other. -/
theorem Wired.entry_store (v value u : BitVec 32) :
    directory.entry (memory.store32 (directory.slot v) value) u =
      if pageNumber u = pageNumber v then value else directory.entry memory u := by
  unfold entry
  split
  · rename_i same
    rw [slot_of_samePage same, ByteMemory.load32_store32_self]
  · rename_i different
    exact memory.load32_store32_of_far value (wired.slot_far different)
      (wired.slot_far (Ne.symm different))

end Wired

end PageDirectory
