import Phix.Interrupts.System
import Phix.Task.Lending
import Phix.Task.UserHeap

/-! # What a system call leaves as it was

A system call that returns to its program leaves what runs, and every address space but the
program's own, as they were.
-/

namespace Phix

open Strings

/-- Live tasks, processes and chunks stay so, and every chunk but one has the address space it
had. -/
structure Machine.SpacesBut (machine : Machine) (own : Word) (next : Machine) : Prop where
  retains : machine.Retains next
  chunks : ∀ {chunk directory}, machine.HasChunk chunk directory →
    next.HasChunk chunk directory ∧
      (chunk ≠ own → directory.space next.memory = directory.space machine.memory)

namespace Machine.SpacesBut

variable {machine middle next : Machine} {own : Word}

/-- A step that leaves every address space as it was. -/
theorem of_spaces (retains : machine.Retains next)
    (spaces : ∀ {chunk directory}, machine.HasChunk chunk directory →
      next.HasChunk chunk directory ∧
        directory.space next.memory = directory.space machine.memory) :
    machine.SpacesBut own next :=
  ⟨retains, fun has => (spaces has).imp_right fun same _ => same⟩

/-- Two steps that change one chunk change that chunk. -/
theorem trans (first : machine.SpacesBut own middle) (second : middle.SpacesBut own next) :
    machine.SpacesBut own next where
  retains p allocation held owner :=
    second.retains p allocation (first.retains p allocation held owner) owner
  chunks has := by
    obtain ⟨before, same⟩ := first.chunks has
    obtain ⟨after, again⟩ := second.chunks before
    exact ⟨after, fun different => (again different).trans (same different)⟩

/-- A step that changes no chunk. -/
theorem of_same (same : machine.SamePaging next) : machine.SpacesBut own next :=
  of_spaces same.keeps.retains same.chunks

/-- An allocation changes no chunk. -/
theorem of_grown (sound : machine.HeapSound) (grown : machine.Grown next) :
    machine.SpacesBut own next :=
  of_spaces (fun p allocation held _ => grown.kept p allocation held)
    fun has => grown.hasChunk has sound

/-- A release of an allocation that is no part of a chunk, and neither a task nor a process. -/
theorem kfree (paging : machine.PagingSound) {p : Word} {allocation : Allocation}
    (held : machine.live p = some allocation) (notPaging : ¬ allocation.owner.IsPaging)
    (noTask : allocation.owner ≠ .task) (noProcess : allocation.owner ≠ .process) :
    machine.SpacesBut own (machine.kfree p) := by
  refine of_spaces (fun q other isLive owner => ?_)
    fun has => paging.kfree_hasChunk held notPaging has
  have different : q ≠ p := by
    rintro rfl
    cases held.symm.trans isLive
    exact owner.elim noTask noProcess
  rw [machine.kfree_live_of_ne different]
  exact isLive

/-- A write through the chunk. -/
theorem write (paging : machine.PagingSound) {directory : PageDirectory} {space : AddressSpace}
    {memory : ByteMemory} (has : machine.HasChunk own directory)
    (update : ChunkUpdate machine.memory memory own directory space) :
    machine.SpacesBut own { machine with memory } := by
  refine ⟨fun _ _ held _ => held, fun {chunk second} kept => ?_⟩
  by_cases here : chunk = own
  · refine ⟨?_, fun different => absurd here different⟩
    rw [here] at kept ⊢
    have base : second.base = directory.base := by
      simpa using kept.held.symm.trans has.held
    have pointer : second.pointer = directory.pointer := by
      unfold PageDirectory.pointer
      rw [base]
    refine ⟨kept.held, kept.base, kept.tables, base ▸ update.chunkAt.root, fun i inside => ?_⟩
    have table := kept.pointers i inside
    rw [pointer, has.pointers i inside] at table
    rw [pointer, ← table]
    exact update.chunkAt.wired.pointers i inside
  · obtain ⟨after, same⟩ := paging.write_other has update kept here
    exact ⟨after, fun _ => same⟩

/-- A release of a block that is free. -/
theorem kfree_free (paging : machine.PagingSound) {s : ℕ} (inside : s < 25600)
    (free : (kernelHeap machine.memory).table.IsFree s) :
    machine.SpacesBut own (machine.kfree (poolBlock s)) := by
  obtain ⟨_, live⟩ := paging.kfree_free inside free
  refine of_spaces (fun p allocation held _ => live ▸ held) fun has => ?_
  refine has.congr paging.sound fun p allocation held _ => ⟨live ▸ held, fun x within => ?_⟩
  exact machine.kfree_memory _ (paging.sound.tableLimit_le held within)

end Machine.SpacesBut

namespace Kernel

/-- A mapping changes the chunk of its process only. -/
theorem mapTo_spaces {kernel : Kernel} (paging : kernel.machine.PagingSound) {process : Word}
    {directory : PageDirectory} (has : kernel.machine.HasChunk (kernel.chunkOf process) directory)
    (vaddr paddr pend : Word) (flags : Byte) :
    kernel.machine.SpacesBut (kernel.chunkOf process)
      (kernel.mapTo process vaddr paddr pend flags).2.machine := by
  by_cases accepts : MapToAccepts vaddr paddr pend
  · exact .write paging has (mapTo_update kernel process paging has accepts flags).2
  · have refused : kernel.mapTo process vaddr paddr pend flags = (-EINVAL, kernel) := by
      unfold mapTo
      rw [pagingMapTo_refused _ _ accepts]
    rw [refused]
    exact .of_same (.refl paging)

section Heap

variable {kernel : Kernel} {process : Word} (accounts : kernel.Accounts {process})

include accounts

/-- `process_malloc` changes the address space of its process only. -/
theorem Accounts.malloc_spaces {size : Word} (answered : kernel.Answered (.malloc process size)) :
    kernel.machine.SpacesBut (kernel.chunkOf process)
      (kernel.processMalloc process size).2.machine := by
  obtain ⟨directory, has⟩ := accounts.paging.directory (accounts.chunk process rfl)
  have harmless : (kernel.machine.request size).Harmless :=
    answered.imp_right (Or.imp_right And.left)
  obtain ⟨grown, _⟩ := accounts.paging.sound.kzalloc_harmless (.user process) harmless
  have paging := accounts.paging.kzalloc (show ¬ (Owner.user process).IsPaging from id) harmless
  have taken : kernel.machine.SpacesBut (kernel.chunkOf process) _ :=
    .of_grown accounts.paging.sound grown
  by_cases isNull : (kernel.machine.kzalloc (.user process) size).1 = null
  · rw [processMalloc_null kernel process size isNull]
    exact taken
  cases search : findAllocation (kernel.processAt process) null phixMaxProgramAllocations 0 with
  | none =>
      rw [processMalloc_full isNull search]
      refine taken.trans ?_
      rcases harmless with served | refused | zero
      · have cleared := (accounts.paging.sound.kzalloc_served (.user process) served).2
        exact .kfree paging cleared.held id Owner.noConfusion Owner.noConfusion
      · exact absurd (kernel.machine.kzalloc_refused (.user process) refused) isNull
      · obtain rfl : size = 0 := zero
        rcases accounts.paging.sound.kzalloc_zero (.user process) with
          ⟨_, none⟩ | ⟨_, s, inside, pointer, free⟩
        · exact absurd none isNull
        · change Machine.SpacesBut _ _ ((kernel.machine.kzalloc (.user process) 0).2.kfree
            (kernel.machine.kzalloc (.user process) 0).1)
          rw [pointer]
          exact .kfree_free paging inside free
  | some slot =>
      have served : (kernel.machine.request size).Served := by
        rcases answered with served | refused | ⟨_, full⟩
        · exact served
        · exact absurd (kernel.machine.kzalloc_refused (.user process) refused) isNull
        · rw [findAllocation_of_noSlot full] at search
          cases search
      have cleared := (accounts.paging.sound.kzalloc_served (.user process) served).2
      have proper : Proper size := served.1
      have accepts := allocation_accepts (allocationEnd proper cleared.pool).1 proper cleared.pool
      rw [processMalloc_eq isNull accepts search]
      have there : ((kernel.kzalloc (.user process) size).2).machine.HasChunk
          (((kernel.kzalloc (.user process) size).2).chunkOf process) directory :=
        (grown.hasChunk has accounts.paging.sound).1
      exact taken.trans (mapTo_spaces paging there ..)

/-- So does `process_free`. -/
theorem Accounts.free_spaces (p : Word) :
    kernel.machine.SpacesBut (kernel.chunkOf process) (kernel.processFree process p).machine := by
  cases search : findAllocation (kernel.processAt process) p phixMaxProgramAllocations 0 with
  | none =>
      rw [processFree_unknown search]
      exact .of_same (.refl accounts.paging)
  | some slot =>
      obtain ⟨directory, has⟩ := accounts.paging.directory (accounts.chunk process rfl)
      obtain ⟨mapped, _⟩ := mapTo_keeps kernel process p 0
        (pageAlign (p + ((kernel.processAt process).allocations slot).size)) 0 accounts.paging
        directory has
      rw [processFree_found search]
      have first := mapTo_spaces accounts.paging has p 0
        (pageAlign (p + ((kernel.processAt process).allocations slot).size)) 0
      refine first.trans ?_
      by_cases isNull : p = null
      · have same := mapped.paging.sound.kfree_null_eq
        rw [← isNull] at same
        change Machine.SpacesBut _ _ (Machine.kfree _ p)
        exact (congrArg (Machine.SpacesBut _ _) same).mpr (.of_same (.refl mapped.paging))
      · exact .kfree mapped.paging (accounts.found rfl isNull search).held id Owner.noConfusion
          Owner.noConfusion

end Heap

end Kernel

/-! The path of the exec system call. -/

/-- `sto_lower` writes the string only. -/
theorem stoLower_outside {memory : ByteMemory} {str : Word} {count : ℕ}
    (ends : memory (str + BitVec.ofNat 32 count) = 0) {x : Word}
    (outside : ∀ i < count, x ≠ str + BitVec.ofNat 32 i) : stoLower memory str x = memory x := by
  have short : strlen memory str ≤ count := by
    by_contra more
    exact ne_zero_of_lt (not_le.mp more) ends
  have loop : ∀ n ≤ count, stoLower.loop str n memory x = memory x := by
    intro n
    induction n with
    | zero => exact fun _ => rfl
    | succ n ih =>
        intro bound
        unfold stoLower.loop
        dsimp only
        rw [Function.update_of_ne (outside n bound), ih (Nat.le_of_succ_le bound)]
  exact loop _ short

/-- Fetching the path of the exec system call changes no chunk. -/
theorem Machine.PagingSound.syscall6Path {machine last : Machine} (paging : machine.PagingSound)
    {chunk esp filename : Word} {directory : PageDirectory}
    (has : machine.HasChunk chunk directory) (array : KernelArray filename (phixMaxPath + 3))
    {ret : Int} (called : machine.syscall6Path chunk esp filename = some (ret, last)) :
    machine.SamePaging last := by
  have frame : machine.SamePaging (machine.syscall6Frame filename) := by
    refine paging.kernelWrite fun x outside => ?_
    refine (machine.syscall6Frame_apply filename x).trans (if_neg fun near => outside ?_)
    have place := array.inKernel (near.trans (Nat.lt_add_of_pos_right (by decide)))
    rwa [BitVec.ofNat_toNat, BitVec.setWidth_eq, add_sub_cancel] at place
  have behind : KernelArray (filename + 3) (phixMaxPath : Int).toNat := fun i inside => by
    have place := array (i + 3) (Nat.add_lt_add_right inside 3)
    rwa [Nat.add_comm, BitVec.ofNat_add, ← add_assoc] at place
  unfold Machine.syscall6Path at called
  dsimp only at called
  rw [Option.bind_eq_bind, Option.bind_eq_some_iff] at called
  obtain ⟨virtual, _, rest⟩ := called
  rw [Option.bind_eq_bind, Option.bind_eq_some_iff] at rest
  obtain ⟨⟨status, copied⟩, copy, rest⟩ := rest
  obtain ⟨same, ends⟩ := frame.paging.copyStringFromTask (frame.chunks has).1 (by decide)
    (by decide) behind copy
  have whole := frame.trans same
  dsimp only at rest
  split at rest
  · cases rest
    exact whole
  · rename_i finished
    cases rest
    obtain ⟨k, bound, zero⟩ := ends finished
    have total : copied.memory (filename + BitVec.ofNat 32 (3 + k)) = 0 := by
      rw [BitVec.ofNat_add, ← add_assoc]
      exact zero
    refine whole.trans (whole.paging.kernelWrite fun x outside => ?_)
    refine stoLower_outside total fun i inside here => outside ?_
    rw [here]
    refine array.inKernel (inside.trans ?_)
    change k < 108 at bound
    change 3 + k < 111
    omega

/-! The terminal. -/

namespace Terminal

/-- What the terminal writes lies in the kernel, wherever its 16-bit counters put the cursor. -/
structure Writes (terminal next : Terminal) : Prop where
  videoMem : next.videoMem = terminal.videoMem
  memory : ∀ x, ¬ InKernel x → next.memory x = terminal.memory x

/-- Nothing is written. -/
theorem Writes.refl (terminal : Terminal) : terminal.Writes terminal := ⟨rfl, fun _ _ => rfl⟩

variable {terminal middle next : Terminal}

/-- Two steps one after the other. -/
theorem Writes.trans (first : terminal.Writes middle) (second : middle.Writes next) :
    terminal.Writes next :=
  ⟨second.videoMem.trans first.videoMem,
    fun x outside => (second.memory x outside).trans (first.memory x outside)⟩

/-- The cursor may be put anywhere. -/
theorem Writes.cursor (writes : terminal.Writes next) (row col : BitVec 16) :
    terminal.Writes { next with row, col } := ⟨writes.videoMem, writes.memory⟩

/-- A cell with 16-bit coordinates lies in the kernel, on the screen or behind it. -/
theorem terminalPutchar_writes (placed : terminal.videoMem = vgaAddress) (x y : BitVec 16)
    (c color : Byte) :
    terminal.Writes (terminal.terminalPutchar (x.setWidth 32) (y.setWidth 32) c color) := by
  refine ⟨rfl, fun a outside => terminal.memory.store16_apply_of_far _ ?_⟩
  have column : (x.setWidth 32 : Word).toNat < 2 ^ 16 := by
    rw [BitVec.toNat_setWidth]
    omega
  have row : (y.setWidth 32 : Word).toNat < 2 ^ 16 := by
    rw [BitVec.toNat_setWidth]
    omega
  have index := cellIndex_toNat column row
  generalize cellIndex (x.setWidth 32) (y.setWidth 32) = cell at index ⊢
  have double : (2 * cell).toNat = 2 * cell.toNat := by
    rw [BitVec.toNat_mul]
    exact Nat.mod_eq_of_lt (by change 2 * _ < _; omega)
  have screen : vgaAddress.toNat = 0xB8000 := rfl
  have limit : blockTableEnd = 0xE200 := rfl
  have pool : phixHeapSaddress.toNat = 0x01000000 := rfl
  rw [placed]
  unfold InKernel at outside
  have sum : (vgaAddress + 2 * cell).toNat = 0xB8000 + 2 * cell.toNat := by
    rw [BitVec.toNat_add, double, screen]
    omega
  have bound := a.isLt
  rw [BitVec.toNat_sub, sum]
  omega

/-- A character and the step of the cursor. -/
theorem writeCell_writes (placed : terminal.videoMem = vgaAddress) (c color : Byte) :
    terminal.Writes (terminal.writeCell c color) := by
  have stored := terminalPutchar_writes placed terminal.col terminal.row c color
  unfold writeCell
  dsimp only
  split
  · exact ⟨stored.videoMem, stored.memory⟩
  · exact ⟨stored.videoMem, stored.memory⟩

/-- A character, a newline or a backspace. -/
theorem terminalWritechar_writes (placed : terminal.videoMem = vgaAddress) (c color : Byte) :
    terminal.Writes (terminal.terminalWritechar c color) := by
  unfold terminalWritechar
  split
  · unfold terminalBackspace
    split
    · exact .refl terminal
    · have step : ∀ {moved : Terminal}, moved.videoMem = vgaAddress →
          moved.memory = terminal.memory →
          terminal.Writes { moved.writeCell spaceChar 15 with
            col := (moved.writeCell spaceChar 15).col - 1 } := fun {moved} there same => by
        have stored := writeCell_writes there spaceChar 15
        exact ⟨stored.videoMem.trans (there.trans placed.symm),
          fun x outside => (stored.memory x outside).trans (congrFun same x)⟩
      dsimp only
      split
      · exact step placed rfl
      · exact step placed rfl
  split
  · exact ⟨rfl, fun _ _ => rfl⟩
  · exact writeCell_writes placed c color

/-- A string, by induction on its length. -/
theorem printFrom_writes (placed : terminal.videoMem = vgaAddress) (str : Word) (n : ℕ) :
    terminal.Writes (terminal.printFrom str n) := by
  induction n with
  | zero => exact .refl terminal
  | succ n ih => exact ih.trans (terminalWritechar_writes (ih.videoMem.trans placed) _ 15)

end Terminal

end Phix
