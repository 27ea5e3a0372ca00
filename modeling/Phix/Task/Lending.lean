import Phix.Memory.Sparing
import Phix.Task.Traceless

/-! # Copying a string spares the heap

Whatever string a program points at, `copy_string_from_task` writes its temporary block and the
destination only, besides the entry of the block's page, which it puts back: the heap and every
address space are as they were (`Phix.Machine.PagingSound.copyStringFromTask`).
-/

namespace Phix

open ByteMemory

/-- `strncpy` writes the target only, when the bytes of the destination are found in it. -/
theorem strncpy_spares {walk : ByteMemory → Word → Option Word} {target : Word → Prop}
    {start memory after : ByteMemory} {dest src : Word} {n : ℕ}
    (stays : ∀ other : ByteMemory, (∀ x, ¬ target x → other x = start x) → ∀ i ≤ n, ∀ place,
      walk other (dest + BitVec.ofNat 32 i) = some place → target place)
    (agree : ∀ x, ¬ target x → memory x = start x)
    (copied : strncpy walk (n + 1) memory dest src = some after) :
    ∀ x, ¬ target x → after x = start x := by
  have write : ∀ {other : ByteMemory}, (∀ x, ¬ target x → other x = start x) → ∀ {place c},
      target place → ∀ x, ¬ target x → Function.update other place c x = start x := by
    intro other same place c inside x outside
    have different : x ≠ place := fun equal => outside (equal ▸ inside)
    rw [Function.update_of_ne different, same x outside]
  have first : ∀ place, walk memory dest = some place → target place := fun place found =>
    stays memory agree 0 (Nat.zero_le n) place (by rw [BitVec.add_zero]; exact found)
  induction n generalizing memory dest src with
  | zero =>
      rw [strncpy, Option.bind_eq_bind, Option.bind_eq_some_iff] at copied
      obtain ⟨place, _, rest⟩ := copied
      rw [if_neg fun more => absurd more.2 (by decide), Option.bind_eq_some_iff] at rest
      obtain ⟨last, found, rest⟩ := rest
      cases rest
      exact write agree (first last found)
  | succ n ih =>
      rw [strncpy, Option.bind_eq_bind, Option.bind_eq_some_iff] at copied
      obtain ⟨place, _, rest⟩ := copied
      split at rest
      · rw [Option.bind_eq_some_iff] at rest
        obtain ⟨next, found, rest⟩ := rest
        have after := write (c := memory place) agree (first next found)
        have later : ∀ other : ByteMemory, (∀ x, ¬ target x → other x = start x) → ∀ i ≤ n,
            ∀ place, walk other (dest + 1 + BitVec.ofNat 32 i) = some place → target place := by
          intro other same i bound place found
          rw [add_one_add] at found
          exact stays other same (i + 1) (Nat.succ_le_succ bound) place found
        exact ih later after rest fun place found =>
          later _ after 0 (Nat.zero_le n) place (by rw [BitVec.add_zero]; exact found)
      · rw [Option.bind_eq_some_iff] at rest
        obtain ⟨last, found, rest⟩ := rest
        cases rest
        exact write agree (first last found)

/-- What `strncpy` leaves at its destination ends in a zero byte. -/
theorem strncpy_terminates {memory after : ByteMemory} {dest src : Word} {n : ℕ}
    (copied : strncpy physical (n + 1) memory dest src = some after) :
    ∃ k ≤ n, after (dest + BitVec.ofNat 32 k) = 0 := by
  have last : ∀ {other : ByteMemory} {dest : Word},
      Function.update other dest (0 : Byte) (dest + BitVec.ofNat 32 0) = 0 := by
    intro other dest
    rw [BitVec.add_zero, Function.update_self]
  induction n generalizing memory dest src with
  | zero =>
      rw [strncpy, physical, Option.bind_eq_bind, Option.bind_some,
        if_neg fun more => absurd more.2 (by decide)] at copied
      cases copied
      exact ⟨0, le_rfl, last⟩
  | succ n ih =>
      rw [strncpy, physical, Option.bind_eq_bind, Option.bind_some] at copied
      split at copied
      · obtain ⟨k, bound, zero⟩ := ih copied
        rw [add_one_add] at zero
        exact ⟨k + 1, Nat.succ_le_succ bound, zero⟩
      · cases copied
        exact ⟨0, Nat.zero_le _, last⟩

/-- While the block is lent to a task, its page is found at its own address. -/
theorem walk_lent {memory : ByteMemory} {chunk tmp : Word} {directory : PageDirectory}
    {space : AddressSpace} (chunkAt : ChunkAt memory chunk directory)
    (lent : directory.space memory = space.set tmp (tmp ||| flagWord lendFlags))
    (aligned : tmp.toNat % 4096 = 0) {i : ℕ} (small : i < 4096) {place : Word}
    (found : walk directory.base memory (tmp + BitVec.ofNat 32 i) = some place) :
    place = tmp + BitVec.ofNat 32 i := by
  have offset := ofNat_toNat small
  have page := pageNumber_add_of_aligned aligned (k := BitVec.ofNat 32 i)
    (by rw [offset]; exact small)
  unfold walk at found
  dsimp only at found
  split at found
  · cases found
  · cases found
    rw [pagingGetPaddr_eq chunkAt.wired, lent]
    unfold AddressSpace.translate AddressSpace.set
    rw [if_pos page, AddressSpace.or_high aligned (flagWord_lt _)]
    refine congrArg (tmp + ·) (BitVec.eq_of_toNat_eq ?_)
    rw [BitVec.toNat_umod, BitVec.toNat_add, offset]
    change (tmp.toNat + i) % 2 ^ 32 % 4096 = i
    omega

namespace Machine

section Copy

variable {machine : Machine} (paging : machine.PagingSound) {chunk : Word}
  {directory : PageDirectory} (has : machine.HasChunk chunk directory)

include paging has

/-- The copy while the block is lent, and the entry of its page put back. -/
theorem PagingSound.lend {size tmp virtual : Word} (small : size.toNat < 4096)
    (held : machine.live tmp = some ⟨size, .kernel⟩) {copied : ByteMemory}
    (first : strncpy (walk ((lentMemory machine chunk tmp).load32 chunk)) size.toNat
      (lentMemory machine chunk tmp) tmp virtual = some copied) :
    let put := pagingSet copied (copied.load32 chunk) tmp (directory.entry machine.memory tmp)
    put.1 = 0 ∧ machine.SamePaging { machine with memory := put.2 } := by
  have aligned := paging.sound.aligned held
  have positive : 1 ≤ size.toNat := (paging.sound.sized _ _ (sizes_of_live held)).1
  have chunkAt := has.chunkAt paging.sound
  have stored := lentMemory_eq chunkAt aligned
  have update : ChunkUpdate machine.memory (lentMemory machine chunk tmp) chunk directory _ :=
    (chunkAt.pagingMap aligned aligned lendFlags).2
  have written := paging.write has update
  generalize lentMemory machine chunk tmp = lent at *
  rw [show lent.load32 chunk = directory.base from update.chunkAt.root] at first
  -- A change of the block leaves the mapping alone.
  have filled : ∀ {other : ByteMemory}, (∀ x : Word, ¬ (x - tmp).toNat < size.toNat →
      other x = lent x) → ChunkAt other chunk directory ∧
        directory.space other = (directory.space machine.memory).set tmp
          (tmp ||| flagWord lendFlags) := by
    intro other same
    have kept := written.fill_hasChunk held id same (PagingSound.write_self has update)
    exact ⟨kept.1.chunkAt (written.fill held id same).sound, kept.2.trans update.mapped⟩
  have block : ∀ x : Word, ¬ (x - tmp).toNat < size.toNat → copied x = lent x := by
    obtain ⟨n, count⟩ := Nat.exists_eq_add_of_le' positive
    rw [count] at first
    refine strncpy_spares (fun other same i bound place found => ?_) (fun _ _ => rfl) first
    obtain ⟨atOther, mapped⟩ := filled same
    rw [walk_lent atOther mapped aligned (by omega) found, add_sub_cancel_left,
      ofNat_toNat (by omega)]
    omega
  have atCopied := (filled block).1
  rw [show copied.load32 chunk = directory.base from atCopied.root,
    pagingSet_eq atCopied.wired aligned]
  have restored : ∀ x : Word, ¬ (x - tmp).toNat < size.toNat →
      copied.store32 (directory.slot tmp) (directory.entry machine.memory tmp) x =
        machine.memory x := by
    intro x outside
    refine store32_load32 fun far => ?_
    rw [block x outside, stored]
    exact machine.memory.store32_apply_of_far _ far
  exact ⟨rfl, paging.fill held id restored, rfl, fun kept =>
    paging.fill_hasChunk held id restored kept⟩

end Copy

/-- The bytes of an array of the kernel, whose image and stacks start at 1 MiB. -/
def KernelArray (p : Word) (size : ℕ) : Prop := ∀ i < size,
  tableLimit ≤ (p + BitVec.ofNat 32 i).toNat ∧
    (p + BitVec.ofNat 32 i).toNat < phixHeapSaddress.toNat

theorem KernelArray.inKernel {p : Word} {size i : ℕ} (array : KernelArray p size)
    (inside : i < size) : InKernel (p + BitVec.ofNat 32 i) :=
  ⟨(show blockTableEnd ≤ tableLimit by decide).trans (array i inside).1, (array i inside).2⟩

/-- A copy within the kernel. -/
theorem PagingSound.copyInKernel {machine : Machine} (paging : machine.PagingSound)
    {size : ℕ} (positive : 1 ≤ size) {phys tmp : Word} (array : KernelArray phys size)
    {memory : ByteMemory} (copied : strncpy physical size machine.memory phys tmp = some memory) :
    machine.SamePaging { machine with memory } ∧
      ∃ k < size, memory (phys + BitVec.ofNat 32 k) = 0 := by
  obtain ⟨n, rfl⟩ := Nat.exists_eq_add_of_le' positive
  obtain ⟨k, bound, zero⟩ := strncpy_terminates copied
  refine ⟨paging.kernelWrite (strncpy_spares (fun _ _ i bound place found => ?_) (fun _ _ => rfl)
    copied), k, Nat.lt_succ_of_le bound, zero⟩
  cases found
  exact array.inKernel (Nat.lt_succ_of_le bound)

/-- `copy_string_from_task` into an array of the kernel, whatever the task points at. -/
theorem PagingSound.copyStringFromTask {machine last : Machine} (paging : machine.PagingSound)
    {chunk : Word} {directory : PageDirectory} (has : machine.HasChunk chunk directory)
    {virtual phys : Word} {max ret : Int} (positive : 1 ≤ max) (small : max < 4096)
    (array : KernelArray phys max.toNat)
    (copied : machine.copyStringFromTask chunk virtual phys max = some (ret, last)) :
    machine.SamePaging last ∧
      (¬ ret < 0 → ∃ k < max.toNat, last.memory (phys + BitVec.ofNat 32 k) = 0) := by
  have count : (BitVec.ofInt 32 max).toNat = max.toNat := by
    rw [BitVec.toNat_ofInt]
    omega
  have harmless : (machine.request (BitVec.ofInt 32 max)).Harmless :=
    machine.request_block_harmless (by omega) (by omega)
  obtain ⟨grown, _⟩ := paging.sound.kzalloc_harmless .kernel harmless
  have paged := paging.kzalloc (show ¬ Owner.kernel.IsPaging from id) harmless
  have page : ¬ (pagingPageSize.toNat : Int) ≤ max := not_le.mpr small
  unfold Machine.copyStringFromTask at copied
  dsimp only at copied
  rw [if_neg page] at copied
  by_cases refused : (machine.kzalloc .kernel (BitVec.ofInt 32 max)).1 = null
  · rw [if_pos refused] at copied
    cases copied
    have live : (machine.kzalloc .kernel (BitVec.ofInt 32 max)).2.live = machine.live :=
      if_neg fun granted => granted.1 refused
    exact ⟨⟨paged, live, fun kept => grown.hasChunk kept paging.sound⟩,
      absurd (show (-ENOMEM : Int) < 0 by decide)⟩
  have cleared := paging.sound.kzalloc .kernel ⟨by omega, by unfold maxRequest; omega⟩ refused
  rw [if_neg refused] at copied
  generalize (machine.kzalloc .kernel (BitVec.ofInt 32 max)).1 = tmp at copied cleared
  generalize (machine.kzalloc .kernel (BitVec.ofInt 32 max)).2 = next at copied cleared grown paged
  have aligned := cleared.sound.aligned cleared.held
  have hasNext := (grown.hasChunk has paging.sound).1
  have atNext := hasNext.chunkAt cleared.sound
  rw [show next.memory.load32 chunk = directory.base from hasNext.root,
    pagingGet_eq atNext.wired, if_pos aligned] at copied
  dsimp only at copied
  rw [Option.bind_eq_bind, Option.bind_eq_some_iff] at copied
  obtain ⟨memory, first, rest⟩ := copied
  obtain ⟨set, lent⟩ := paged.lend hasNext (by omega) cleared.held first
  generalize pagingSet memory (memory.load32 chunk) tmp (directory.entry next.memory tmp) = put
    at rest set lent
  obtain ⟨status, restored⟩ := put
  obtain rfl : status = 0 := set
  rw [if_neg (lt_irrefl 0), Option.bind_eq_some_iff] at rest
  obtain ⟨last, second, rest⟩ := rest
  cases rest
  rw [count] at second
  obtain ⟨inKernel, ended⟩ := lent.paging.copyInKernel (by omega) array second
  have same := lent.trans inKernel
  have held : ({ next with memory := last } : Machine).live tmp = _ := cleared.held
  refine ⟨⟨same.paging.kfree held id, ?_, fun kept => ?_⟩, fun _ => ?_⟩
  · change Function.update next.live tmp none = machine.live
    rw [cleared.live, Function.update_idem, ← cleared.fresh, Function.update_eq_self]
  · obtain ⟨before, first⟩ := grown.hasChunk kept paging.sound
    obtain ⟨after, second⟩ := same.chunks before
    obtain ⟨freed, third⟩ := same.paging.kfree_hasChunk held id after
    exact ⟨freed, third.trans (second.trans first)⟩
  · obtain ⟨k, bound, zero⟩ := ended
    refine ⟨k, bound, ?_⟩
    rw [Machine.kfree_memory _ _ (array k bound).1]
    exact zero

end Machine

end Phix
