import Phix.Foundation.Strings
import Phix.Memory.Walk

/-! # Copying strings from a task

`strncpy` under an address translation, which may itself be read from memory. Where the copy does
not disturb the translation or the source, it writes the string, cut before the last byte it may
use, and a zero byte (`Phix.strncpy_eq`). `copy_string_from_task` runs it twice: through the page
directory of the task into a block that it allocates and maps there, and from the block to the
destination.
-/

namespace Phix

open Strings ByteMemory

/-- `strncpy`. `walk` finds the byte of an address, as the processor does while the call runs; at a
page fault the kernel panics, which is `none` here. -/
def strncpy (walk : ByteMemory → Word → Option Word) :
    ℕ → ByteMemory → Word → Word → Option ByteMemory
  | 0, memory, dest, src => do
      let _ ← walk memory src
      let last ← walk memory dest
      some (Function.update memory last 0)
  | n + 1, memory, dest, src => do
      let place ← walk memory src
      if memory place ≠ 0 ∧ 1 < n + 1 then
        let target ← walk memory dest
        strncpy walk n (Function.update memory target (memory place)) (dest + 1) (src + 1)
      else
        let last ← walk memory dest
        some (Function.update memory last 0)

/-- Whatever is written to the target, the bytes of the string are found at their places, which are
not in the target, and the bytes of the destination, which are, at their own addresses. -/
structure Copies (walk : ByteMemory → Word → Option Word) (memory : ByteMemory)
    (target : Word → Prop) (place : ℕ → Word) (dest src : Word) (count : ℕ) : Prop where
  reads : ∀ other : ByteMemory, (∀ x, ¬ target x → other x = memory x) → ∀ i ≤ count,
    walk other (src + BitVec.ofNat 32 i) = some (place i)
  writes : ∀ other : ByteMemory, (∀ x, ¬ target x → other x = memory x) → ∀ i ≤ count,
    walk other (dest + BitVec.ofNat 32 i) = some (dest + BitVec.ofNat 32 i)
  inside : ∀ i ≤ count, target (dest + BitVec.ofNat 32 i)
  apart : ∀ i ≤ count, ¬ target (place i)

section Copies

variable {walk : ByteMemory → Word → Option Word} {memory : ByteMemory} {target : Word → Prop}
  {place : ℕ → Word} {dest src : Word} {count n : ℕ}

theorem Copies.first_read (copies : Copies walk memory target place dest src count) :
    walk memory src = some (place 0) := by
  have found := copies.reads memory (fun _ _ => rfl) 0 (Nat.zero_le _)
  rwa [BitVec.add_zero] at found

theorem Copies.first_write (copies : Copies walk memory target place dest src count) :
    walk memory dest = some dest ∧ target dest := by
  have found := copies.writes memory (fun _ _ => rfl) 0 (Nat.zero_le _)
  have inside := copies.inside 0 (Nat.zero_le _)
  rw [BitVec.add_zero] at found inside
  exact ⟨found, inside⟩

theorem add_one_add (a : Word) (i : ℕ) :
    a + 1 + BitVec.ofNat 32 i = a + BitVec.ofNat 32 (i + 1) := by
  rw [Nat.add_comm i 1, BitVec.ofNat_add, ← BitVec.add_assoc]
  rfl

/-- After the first byte. -/
theorem Copies.rest (copies : Copies walk memory target place dest src (count + 1)) (c : Byte) :
    Copies walk (Function.update memory dest c) target (fun i => place (i + 1)) (dest + 1)
      (src + 1) count := by
  have same {other : ByteMemory} (agree : ∀ x, ¬ target x → other x =
      Function.update memory dest c x) (x : Word) (outside : ¬ target x) : other x = memory x := by
    have different : x ≠ dest := fun equal => outside (equal ▸ copies.first_write.2)
    rw [agree x outside, Function.update_of_ne different]
  refine ⟨fun other agree i bound => ?_, fun other agree i bound => ?_, fun i bound => ?_,
    fun i bound => copies.apart (i + 1) (Nat.succ_le_succ bound)⟩
  · rw [add_one_add]
    exact copies.reads other (same agree) (i + 1) (Nat.succ_le_succ bound)
  · rw [add_one_add]
    exact copies.writes other (same agree) (i + 1) (Nat.succ_le_succ bound)
  · rw [add_one_add]
    exact copies.inside (i + 1) (Nat.succ_le_succ bound)

/-- `strncpy` writes the string, cut before its last byte, and a zero byte. -/
theorem strncpy_eq (copies : Copies walk memory target place dest src
      (length (fun i => memory (place i)) n)) :
    strncpy walk (n + 1) memory dest src =
      some (memory.write dest
        (terminated (fun i => memory (place i)) (length (fun i => memory (place i)) n))
        (length (fun i => memory (place i)) n + 1)) := by
  induction n generalizing memory place dest src with
  | zero =>
      rw [strncpy, copies.first_read]
      simp only [Option.bind_eq_bind, Option.bind_some]
      rw [if_neg fun more => absurd more.2 (by omega), copies.first_write.1]
      simp [ByteMemory.write, length, terminated]
  | succ n ih =>
      rw [strncpy, copies.first_read]
      simp only [Option.bind_eq_bind, Option.bind_some]
      by_cases zero : memory (place 0) = 0
      · rw [if_neg fun more => more.1 zero, copies.first_write.1,
          @length_succ_of_zero (fun i => memory (place i)) n zero]
        simp [ByteMemory.write, terminated]
      · rw [@length_succ_of_ne_zero (fun i => memory (place i)) n zero] at copies ⊢
        rw [if_pos ⟨zero, by omega⟩, copies.first_write.1, Option.bind_some]
        have rest := copies.rest (memory (place 0))
        have bytes : ∀ i ≤ length (fun i => memory (place (i + 1))) n,
            Function.update memory dest (memory (place 0)) (place (i + 1)) =
              memory (place (i + 1)) := fun i bound => by
          have different : place (i + 1) ≠ dest := fun equal =>
            rest.apart i bound (equal.symm ▸ copies.first_write.2)
          rw [Function.update_of_ne different]
        have same := @length_congr (fun i => memory (place (i + 1))) _ n bytes
        rw [ih (same ▸ rest), same]
        have pieces := memory.write_append dest (terminated (fun i => memory (place i))
          (length (fun i => memory (place (i + 1))) n + 1)) 1
          (length (fun i => memory (place (i + 1))) n + 1)
        rw [Nat.add_comm 1] at pieces
        rw [← pieces]
        have head : memory.write dest (terminated (fun i => memory (place i))
            (length (fun i => memory (place (i + 1))) n + 1)) 1 =
              Function.update memory dest (memory (place 0)) := by
          simp [ByteMemory.write, terminated]
        rw [head]
        refine congrArg some (write_congr _ _ fun i small => ?_)
        rw [terminated, terminated, Nat.add_comm 1 i]
        by_cases inside : i < length (fun i => memory (place (i + 1))) n
        · rw [if_pos inside, if_pos (Nat.succ_lt_succ inside)]
          exact bytes i inside.le
        · rw [if_neg inside, if_neg fun more => inside (Nat.lt_of_succ_lt_succ more)]

end Copies

/-- The flags under which the temporary block is mapped for the task. -/
def lendFlags : Byte := pagingIsWritable ||| pagingIsPresent ||| pagingAccessFromAll

/-- `copy_string_from_task`, with the page directory of the task. -/
def Machine.copyStringFromTask (machine : Machine) (chunk virtual phys : Word) (max : Int) :
    Option (Int × Machine) :=
  if (pagingPageSize.toNat : Int) ≤ max then some (-EINVAL, machine)
  else
    let size := BitVec.ofInt 32 max
    let (tmp, machine) := machine.kzalloc .kernel size
    if tmp = null then some (-ENOMEM, machine)
    else match pagingGet machine.memory (machine.memory.load32 chunk) tmp with
      | .error ret => some (ret, machine)
      | .ok oldDirectory => do
          let memory := (pagingMap machine.memory chunk tmp tmp lendFlags).2
          -- From `paging_switch` to `kernel_page`.
          let memory ← strncpy (walk (memory.load32 chunk)) size.toNat memory tmp virtual
          let (ret, memory) := pagingSet memory (memory.load32 chunk) tmp oldDirectory
          if ret < 0 then some (ret, { machine with memory }.kfree tmp)
          else
            let memory ← strncpy physical size.toNat memory phys tmp
            some (ret, { machine with memory }.kfree tmp)

/-- The page directory of a task in a state of the kernel heap. -/
structure Machine.TaskPages (machine : Machine) (chunk : Word) (directory : PageDirectory) :
    Prop where
  sound : machine.HeapSound
  clear : ClearEntries machine.memory
  has : machine.HasChunk chunk directory
  present : directory.Present machine.memory

/-- The chunk that `paging_new_chunk` makes for a task. -/
theorem Machine.HeapSound.pagingNewChunk_pages {machine next : Machine} (sound : machine.HeapSound)
    (clear : ClearEntries machine.memory) {flags : Byte} (present : flags &&& 1 ≠ 0)
    {chunk : Word} (made : machine.pagingNewChunk flags = some (chunk, next)) :
    ∃ directory, next.TaskPages chunk directory ∧
      directory.space next.memory = AddressSpace.identity (flagWord flags) := by
  obtain ⟨directory, new, mapped⟩ := sound.pagingNewChunk_present present made
  obtain ⟨other, again, marks⟩ := sound.pagingNewChunk_marks made
  refine ⟨directory, ⟨new.grown.sound, fun i inside free => ?_, new.has, mapped⟩, new.space⟩
  by_cases part : ChunkPart chunk other (poolBlock i)
  · obtain ⟨allocation, held, _⟩ := again.has.part part
    rw [new.grown.sound.not_live_of_free inside free] at held
    cases held
  · rw [marks.low _ (entryAddress_low inside) (mt (isEntryOf_iff inside).mp part)]
    exact clear i inside (marks.isFree inside free)

/-- The temporary block of a copy: taking it changed its page and its entry of the block table,
which was clear. -/
structure Machine.Temporary (machine next : Machine) (size tmp : Word) : Prop where
  cleared : machine.Cleared .kernel size tmp next
  small : size.toNat < 4096
  entry : ∀ x, IsEntryOf {tmp} x → machine.memory x = 0
  taken : ∀ x, pageNumber x ≠ pageNumber tmp → ¬ IsEntryOf {tmp} x →
    next.memory x = machine.memory x

theorem Machine.TaskPages.temporary {machine : Machine} {chunk : Word} {directory : PageDirectory}
    (pages : machine.TaskPages chunk directory) {size : Word} (positive : 1 ≤ size.toNat)
    (small : size.toNat < 4096) (found : (machine.kzalloc .kernel size).1 ≠ null) :
    machine.Temporary (machine.kzalloc .kernel size).2 size (machine.kzalloc .kernel size).1 := by
  have cleared := pages.sound.kzalloc .kernel ⟨positive, by unfold maxRequest; omega⟩ found
  have marks := pages.sound.kzalloc_marks .kernel positive small.le found
  refine ⟨cleared, small, ?_, fun x outside notEntry => ?_⟩
  · rintro x ⟨i, inside, part, rfl⟩
    obtain ⟨j, bound, same, free⟩ := marks.free _ part
    obtain rfl := poolBlock_injective inside bound same
    exact pages.clear i inside free
  · rcases lt_or_ge x.toNat tableLimit with low | high
    · exact marks.low x low notEntry
    · rw [cleared.memory x high, if_neg]
      intro near
      refine outside ((AddressSpace.offset_lt_iff ?_ x).mp (near.trans small))
      exact cleared.sound.aligned cleared.held

/-- The page directory of the task reads as on the machine, but for the page of the block, which
is mapped onto itself. -/
structure Lent (machine : Machine) (chunk tmp : Word) (directory : PageDirectory)
    (memory : ByteMemory) : Prop where
  chunkAt : ChunkAt memory chunk directory
  present : directory.Present memory
  space : directory.space memory =
    (directory.space machine.memory).set tmp (tmp ||| flagWord lendFlags)

section Temporary

variable {machine next : Machine} {chunk size tmp : Word} {directory : PageDirectory}

theorem Machine.Temporary.aligned (temporary : machine.Temporary next size tmp) :
    tmp.toNat % 4096 = 0 :=
  temporary.cleared.sound.aligned temporary.cleared.held

variable (pages : machine.TaskPages chunk directory)

include pages

/-- The block is no part of the chunk. -/
theorem Machine.TaskPages.apart (temporary : machine.Temporary next size tmp) :
    pageNumber chunk ≠ pageNumber tmp ∧ ∀ n ∈ directory.frames, n ≠ pageNumber tmp := by
  have kept {p : Word} {allocation : Allocation} (held : machine.live p = some allocation)
      (owner : allocation.owner ≠ .kernel) : pageNumber p ≠ pageNumber tmp := by
    have cleared := temporary.cleared
    refine cleared.sound.pageNumber_ne (cleared.grown.kept _ _ held) cleared.held fun same => ?_
    exact owner (same.symm ▸ rfl)
  refine ⟨kept pages.has.held (by simp), ?_⟩
  rintro n (rfl | ⟨i, inside, rfl⟩)
  · exact kept pages.has.base (by simp)
  · exact kept (pages.has.tables i inside) (by simp)

/-- Mapping the block. -/
theorem Machine.TaskPages.lent (temporary : machine.Temporary next size tmp) :
    Lent machine chunk tmp directory (pagingMap next.memory chunk tmp tmp lendFlags).2 := by
  have cleared := temporary.cleared
  obtain ⟨has, space⟩ := cleared.grown.hasChunk pages.has pages.sound
  have chunkAt := has.chunkAt cleared.sound
  obtain ⟨-, update⟩ := chunkAt.pagingMap temporary.aligned temporary.aligned lendFlags
  refine ⟨update.chunkAt, ?_, by rw [update.mapped, space]⟩
  refine (pages.has.chunkAt pages.sound).wired.present_congr pages.present fun x base => ?_
  have inside : (x - directory.base).toNat < 4096 :=
    (AddressSpace.offset_lt_iff chunkAt.wired.aligned x).mpr base
  exact (update.outside x (base ▸ chunkAt.wired.base_notMem)).trans
    (cleared.grown.agree pages.has.base inside)

theorem Lent.congr (temporary : machine.Temporary next size tmp) {memory other : ByteMemory}
    (lent : Lent machine chunk tmp directory memory)
    (same : ∀ x, pageNumber x ≠ pageNumber tmp → other x = memory x) :
    Lent machine chunk tmp directory other := by
  obtain ⟨atChunk, frames⟩ := pages.apart temporary
  have base : ∀ x, pageNumber x = pageNumber directory.base → other x = memory x :=
    fun x place => same x (frames _ (.inl place))
  refine ⟨lent.chunkAt.congr fun x place => ?_, lent.chunkAt.wired.present_congr lent.present base,
    ?_⟩
  · exact place.elim (fun chunk => same x (chunk ▸ atChunk)) (base x)
  · rw [← lent.space]
    funext v
    exact lent.chunkAt.wired.entry_congr (fun x table => same x (frames _ (.inr table))) v

omit pages in
/-- Apart from the block's page, the processor finds bytes where the task would. -/
theorem Lent.walk_outside (pages : machine.TaskPages chunk directory) {memory : ByteMemory}
    (lent : Lent machine chunk tmp directory memory) {v : Word}
    (outside : pageNumber v ≠ pageNumber tmp) :
    walk directory.base memory v = walk directory.base machine.memory v := by
  have same : directory.space memory v = directory.space machine.memory v := by
    rw [lent.space]
    exact if_neg outside
  rw [walk_eq lent.chunkAt.wired lent.present,
    walk_eq (pages.has.chunkAt pages.sound).wired pages.present]
  unfold AddressSpace.flags AddressSpace.translate
  rw [same]

end Temporary

/-- The block is found at its own address. -/
theorem Lent.walk_block {machine : Machine} {chunk tmp : Word} {directory : PageDirectory}
    {memory : ByteMemory} (lent : Lent machine chunk tmp directory memory)
    (aligned : tmp.toNat % 4096 = 0) {i : ℕ} (small : i < 4096) :
    walk directory.base memory (tmp + BitVec.ofNat 32 i) = some (tmp + BitVec.ofNat 32 i) := by
  have offset : (BitVec.ofNat 32 i).toNat = i := by
    rw [BitVec.toNat_ofNat]
    omega
  have page := pageNumber_add_of_aligned aligned (k := BitVec.ofNat 32 i)
    (by rw [offset]; exact small)
  have same : directory.space memory (tmp + BitVec.ofNat 32 i) = tmp ||| flagWord lendFlags := by
    rw [lent.space]
    exact if_pos page
  rw [walk_eq lent.chunkAt.wired lent.present]
  unfold AddressSpace.flags AddressSpace.translate
  rw [same, AddressSpace.or_low aligned (flagWord_lt _),
    AddressSpace.or_high aligned (flagWord_lt _),
    if_neg (by decide)]
  refine congrArg some (congrArg (tmp + ·) (BitVec.eq_of_toNat_eq ?_))
  rw [BitVec.toNat_umod, BitVec.toNat_add, offset]
  change (tmp.toNat + i) % 2 ^ 32 % 4096 = i
  omega

end Phix
