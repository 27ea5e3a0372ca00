import Phix.Fs.Slots
import Phix.Fs.Table
import Phix.Task.LoadSystem

/-! # Descriptors over loads

`elf_load` opens the file and never closes it; `process_load_binary` closes what it opens. A load
leaves the open descriptors as they were exactly when `elf_load` does not open its file, and so
does a run of loads (`Phix.process_load_descriptors_iff`).
-/

namespace Phix

open Traces

namespace LoadSystem

/-! What a load does to the table. -/

theorem elfLoadOut_status (system : LoadSystem) (elfFile : Word) (ret : Int) (file : Option Word) :
    (system.elfLoadOut elfFile ret file).1 = ret := by
  change (system.kernel.elfLoadOut elfFile ret file).1 = ret
  unfold Kernel.elfLoadOut
  split <;> rfl

theorem fread_files (system : LoadSystem) (p size n : Word) (fd : Int) :
    system.files.SameTable (system.fread p size n fd).2.files := by
  have same := system.fs.fread_sameTable size n fd
  exact ⟨same.slots, same.records, same.volume⟩

theorem fread_withKernel_files (system : LoadSystem) (kernel : Kernel) (p size n : Word)
    (fd : Int) : system.files.SameTable ((system.withKernel kernel).fread p size n fd).2.files :=
  (system.withKernel kernel).fread_files p size n fd

theorem elfLoadOpened_files (system : LoadSystem) (process elfFile : Word) (fd : Int) :
    system.files.SameTable (system.elfLoadOpened process elfFile fd).2.2.files := by
  unfold elfLoadOpened
  generalize system.fs.fstat fd = answer
  obtain ⟨ret, stat⟩ := answer
  dsimp only
  split
  · exact .refl _
  generalize (stat.map FileStat.filesize).getD 0 = filesize
  cases system.kernel.kzalloc (.image process) filesize with
  | mk elfMemory kernel =>
      dsimp only
      split
      · exact .refl _
      have same := system.fread_withKernel_files
        (kernel.setElfFile elfFile { ElfFile.zero with elfMemory }) elfMemory filesize 1 fd
      generalize (system.withKernel (kernel.setElfFile elfFile { ElfFile.zero with elfMemory })
        ).fread elfMemory filesize 1 fd = read at same ⊢
      obtain ⟨status, last⟩ := read
      dsimp only at same ⊢
      split
      · exact same
      split
      · exact same
      · exact same

/-- A number that does not resolve is refused by `fstat`. -/
theorem elfLoadOpened_unresolved {system : LoadSystem} {fd : Int}
    (unresolved : system.files.fileDescriptorGet fd = null) (process elfFile : Word) :
    (system.elfLoadOpened process elfFile fd).1 = -EINVAL := by
  have refused : system.fs.fstat fd = (-EINVAL, none) := if_pos unresolved
  unfold elfLoadOpened
  rw [refused]
  dsimp only
  rw [if_pos (show (-EINVAL : Int) < 0 by decide), elfLoadOut_status]

theorem fopen_files {system next : LoadSystem} {filename : List Byte} {fd : Int}
    (opened : system.fopen filename = some (fd, next)) : system.files.FopenTable fd next.files := by
  obtain ⟨⟨number, fs⟩, opens, rest⟩ := Option.bind_eq_some_iff.mp opened
  cases Option.some.inj rest
  cases FileSystem.fopen_table opens with
  | failed negative status same =>
      exact .failed negative status ⟨same.slots, same.records, same.volume⟩
  | opened i desc slot number slots index => exact .opened i desc slot number slots index

/-- `elf_load` opens the file, and there is a block for the descriptor. -/
def ElfOpens (system : LoadSystem) (filename : List Byte) : Prop :=
  let (elfFile, kernel) := system.kernel.kzalloc .elfFile sizeofElfFile
  elfFile ≠ null ∧ ∃ fd opened,
    (system.withKernel (kernel.setElfFile elfFile ElfFile.zero)).fopen filename =
      some (fd, opened) ∧ ¬ fd < 0 ∧ opened.files.fileDescriptors (fd - 1).toNat ≠ null

/-- What `elf_load` does to the table: it takes a slot if it opens the file, and leaves the table
alone otherwise, with another status than that of a file which is no ELF file. -/
theorem elfLoad_table {system next : LoadSystem} {process : Word} {filename : List Byte} {ret : Int}
    {file : Option Word} (loaded : system.elfLoad process filename = some (ret, file, next)) :
    (system.ElfOpens filename → ∃ i < phixMaxFileDescriptors,
      system.files.fileDescriptors i = null ∧ next.files.fileDescriptors i ≠ null) ∧
    (¬ system.ElfOpens filename →
      next.files.fileDescriptors = system.files.fileDescriptors ∧ ret ≠ -EBADFORMAT) := by
  unfold elfLoad at loaded
  unfold ElfOpens
  cases allocated : system.kernel.kzalloc .elfFile sizeofElfFile with
  | mk elfFile kernel =>
      rw [allocated] at loaded
      dsimp only at loaded ⊢
      by_cases refused : elfFile = null
      · rw [if_pos refused] at loaded
        cases loaded
        exact ⟨fun opens => absurd refused opens.1, fun _ => ⟨rfl, by decide⟩⟩
      rw [if_neg refused] at loaded
      obtain ⟨⟨fd, opened⟩, opens, rest⟩ := Option.bind_eq_some_iff.mp loaded
      dsimp only at rest
      rw [opens]
      cases fopen_files opens with
      | failed negative status same =>
          rw [if_pos negative] at rest
          have result := Option.some.inj rest
          have code := congrArg Prod.fst result
          have files : opened.files = next.files := congrArg (fun out => out.2.2.files) result
          rw [elfLoadOut_status] at code
          have code : fd = ret := code
          refine ⟨?_, fun _ => ⟨?_, code ▸ status⟩⟩
          · rintro ⟨_, number, other, same, positive, _⟩
            cases Option.some.inj same
            exact absurd negative positive
          · rw [← files]
            exact same.slots
      | opened i desc slot number slots index =>
          rw [if_neg (by omega)] at rest
          have result := Option.some.inj rest
          have kept := opened.elfLoadOpened_files process elfFile fd
          rw [result] at kept
          obtain ⟨_, below, isNull, _⟩ := Searches.first_eq_some.mp slot
          have place : (fd - 1).toNat = i := by omega
          have here : opened.files.fileDescriptors i = desc := by
            rw [slots, Function.update_self]
          constructor
          · rintro ⟨_, other, last, same, _, found⟩
            cases Option.some.inj same
            rw [place] at found
            refine ⟨i, by omega, isNull, ?_⟩
            rw [kept.slots]
            exact found
          · intro nothing
            have noBlock : desc = null := by
              by_contra made
              refine nothing ⟨refused, fd, opened, rfl, by omega, ?_⟩
              rw [place, here]
              exact made
            have same : opened.files.fileDescriptors = system.files.fileDescriptors := by
              rw [slots, noBlock]
              exact Function.update_eq_self_iff.mpr isNull.symm
            have unresolved : opened.files.fileDescriptorGet fd = null := by
              unfold FileSystem.fileDescriptorGet
              rw [place, here, noBlock, ite_self]
            have status := elfLoadOpened_unresolved unresolved process elfFile
            rw [result] at status
            refine ⟨kept.slots.trans same, ?_⟩
            rw [show ret = -EINVAL from status]
            decide

/-- The slots that are taken stay taken. -/
def Retains (system next : LoadSystem) : Prop :=
  ∀ i, system.files.fileDescriptors i ≠ null → next.files.fileDescriptors i ≠ null

theorem Retains.of_slots {system next : LoadSystem}
    (slots : next.files.fileDescriptors = system.files.fileDescriptors) : system.Retains next := by
  intro i taken
  rw [slots]
  exact taken

theorem fclose_slots {system next : LoadSystem} {fd ret : Int}
    (closed : system.fclose fd = some (ret, next)) :
    next.files.fileDescriptors = system.files.fileDescriptors ∨
      system.files.fileDescriptorGet fd ≠ null ∧
        next.files.fileDescriptors = Function.update system.files.fileDescriptors
          ((system.files.fileDescriptorAt (system.files.fileDescriptorGet fd)).index - 1).toNat
          null := by
  obtain ⟨⟨status, fs⟩, closes, result⟩ := Option.bind_eq_some_iff.mp closed
  cases Option.some.inj result
  rcases FileSystem.fclose_slots closes with untouched | cleared
  · left
    change fs.fileDescriptors = system.files.fileDescriptors
    rw [untouched]
    rfl
  · exact .inr cleared

/-- `process_load_binary` leaves through `fclose`. -/
theorem processLoadBinaryOut_closes {system next : LoadSystem} {fd ret status : Int}
    {programData : Word} (left : system.processLoadBinaryOut fd programData ret =
      some (status, next)) :
    ∃ (leaving : LoadSystem) (closed : Int), leaving.files = system.files ∧
      leaving.fclose fd = some (closed, next) := by
  obtain ⟨⟨closed, last⟩, closes, result⟩ := Option.bind_eq_some_iff.mp left
  cases Option.some.inj result
  refine ⟨_, closed, ?_, closes⟩
  split <;> rfl

/-- `process_load_binary` closes the file it has opened, and no other. -/
theorem processLoadBinaryOut_retains {system opened closing next : LoadSystem} {i : ℕ}
    {fd ret status : Int} {desc programData : Word}
    (left : closing.processLoadBinaryOut fd programData ret = some (status, next))
    (same : opened.files.SameTable closing.files)
    (isNull : system.files.fileDescriptors i = null) (number : fd = i + 1)
    (slots : opened.files.fileDescriptors = Function.update system.files.fileDescriptors i desc)
    (index : (opened.files.fileDescriptorAt desc).index = i + 1) : system.Retains next := by
  intro k taken
  have different : k ≠ i := fun same => taken (same ▸ isNull)
  have stays : closing.files.fileDescriptors k = system.files.fileDescriptors k := by
    rw [same.slots, slots, Function.update_of_ne different]
  obtain ⟨leaving, closed, files, closes⟩ := processLoadBinaryOut_closes left
  rcases fclose_slots closes with untouched | ⟨resolves, cleared⟩
  · rw [untouched, files, stays]
    exact taken
  · rw [files] at resolves cleared
    have record : closing.files.fileDescriptorGet fd = desc := by
      unfold FileSystem.fileDescriptorGet at resolves ⊢
      split
      · rename_i outside
        exact absurd (if_pos outside) resolves
      · rw [same.slots, slots, show (fd - 1).toNat = i by omega, Function.update_self]
    have place : ((closing.files.fileDescriptorAt desc).index - 1).toNat = i := by
      rw [same.records, index]
      omega
    rw [cleared, record, place, Function.update_of_ne different, stays]
    exact taken

theorem processLoadBinary_retains {system next : LoadSystem} {process : Word} {filename : List Byte}
    {ret : Int} (loaded : system.processLoadBinary process filename = some (ret, next)) :
    system.Retains next := by
  obtain ⟨⟨fd, opened⟩, opens, rest⟩ := Option.bind_eq_some_iff.mp loaded
  dsimp only at rest
  cases fopen_files opens with
  | failed negative status same =>
      rw [if_pos negative] at rest
      cases Option.some.inj rest
      exact .of_slots same.slots
  | opened i desc slot number slots index =>
      obtain ⟨_, _, isNull, _⟩ := Searches.first_eq_some.mp slot
      rw [if_neg (by omega)] at rest
      generalize opened.fs.fstat fd = answer at rest
      obtain ⟨status, stat⟩ := answer
      dsimp only at rest
      split at rest
      · exact processLoadBinaryOut_retains rest (.refl _) isNull number slots index
      generalize (stat.map FileStat.filesize).getD 0 = filesize at rest
      cases allocated : opened.kernel.kzalloc (.image process) filesize with
      | mk programData kernel =>
          rw [allocated] at rest
          dsimp only at rest
          split at rest
          · exact processLoadBinaryOut_retains rest (.refl _) isNull number slots index
          have same := opened.fread_withKernel_files kernel programData filesize 1 fd
          generalize (opened.withKernel kernel).fread programData filesize 1 fd = read at rest same
          obtain ⟨status, last⟩ := read
          dsimp only at rest same
          split at rest
          · exact processLoadBinaryOut_retains rest same isNull number slots index
          · exact processLoadBinaryOut_retains rest same isNull number slots index

theorem processLoadData_table {system next : LoadSystem} {process : Word} {call : LoadCall}
    {ret : Int} (loaded : system.processLoadData process call = some (ret, next)) :
    (system.ElfOpens call.filename → ∃ i < phixMaxFileDescriptors,
      system.files.fileDescriptors i = null ∧ next.files.fileDescriptors i ≠ null) ∧
    (¬ system.ElfOpens call.filename →
      next.files.fileDescriptors = system.files.fileDescriptors) := by
  obtain ⟨⟨status, middle⟩, elf, rest⟩ := Option.bind_eq_some_iff.mp loaded
  obtain ⟨⟨code, file, last⟩, opens, stored⟩ := Option.bind_eq_some_iff.mp elf
  obtain ⟨leaks, balanced⟩ := elfLoad_table opens
  have kept : middle.files = last.files ∧ (status = -EBADFORMAT → code = -EBADFORMAT) := by
    dsimp only at stored
    split at stored
    · cases Option.some.inj stored
      exact ⟨rfl, id⟩
    · cases Option.some.inj stored
      exact ⟨rfl, fun absurdity => by cases absurdity⟩
  dsimp only at rest
  constructor
  · intro elfOpens
    obtain ⟨i, below, isNull, taken⟩ := leaks elfOpens
    refine ⟨i, below, isNull, ?_⟩
    rw [← kept.1] at taken
    split at rest
    · exact processLoadBinary_retains rest i taken
    · cases Option.some.inj rest
      exact taken
  · intro nothing
    obtain ⟨slots, otherStatus⟩ := balanced nothing
    rw [if_neg fun format => otherStatus (kept.2 format)] at rest
    cases Option.some.inj rest
    rw [kept.1]
    exact slots

/-- The load opens the file in `elf_load`: a slot of the process table is free, there is a block
for the record, and `elf_load` then opens the file. -/
def OpensImage (system : LoadSystem) (call : LoadCall) : Prop :=
  let (process, kernel) := system.kernel.kzalloc .process sizeofProcess
  ¬ system.kernel.processGetFreeSlot < 0 ∧ process ≠ null ∧
    (system.withKernel (kernel.setProcess process Process.zero)).ElfOpens call.filename

/-- The load returns. -/
def Returns (system : LoadSystem) (call : LoadCall) : Prop :=
  system.processLoad call ≠ none

theorem processLoad_table {system next : LoadSystem} {call : LoadCall} {ret : Int}
    {stored : Option Word} (loaded : system.processLoad call = some (ret, stored, next)) :
    (system.OpensImage call → ∃ i < phixMaxFileDescriptors,
      system.files.fileDescriptors i = null ∧ next.files.fileDescriptors i ≠ null) ∧
    (¬ system.OpensImage call →
      next.files.fileDescriptors = system.files.fileDescriptors) := by
  unfold processLoad at loaded
  unfold OpensImage
  cases allocated : system.kernel.kzalloc .process sizeofProcess with
  | mk process kernel =>
      dsimp only at loaded ⊢
      split at loaded
      · rename_i full
        cases Option.some.inj loaded
        exact ⟨fun opens => absurd full opens.1, fun _ => rfl⟩
      rename_i free
      have isFree := Kernel.processGet_freeSlot free
      unfold processLoadForSlot at loaded
      dsimp only at loaded
      rw [isFree, if_neg (show ¬ (null : Word).toInt < 0 by decide), if_neg (not_not.mpr rfl),
        allocated] at loaded
      dsimp only at loaded
      split at loaded
      · rename_i refused
        cases Option.some.inj loaded
        exact ⟨fun opens => absurd refused opens.2.1, fun _ => rfl⟩
      rename_i made
      unfold processLoadLabel at loaded
      obtain ⟨⟨status, data⟩, loads, rest⟩ := Option.bind_eq_some_iff.mp loaded
      have table := processLoadData_table loads
      have files : next.files = data.files := by
        dsimp only at rest
        split at rest
        · cases Option.some.inj rest
          rfl
        · obtain ⟨label, _, ends⟩ := Option.bind_eq_some_iff.mp rest
          cases Option.some.inj ends
          rfl
      rw [files]
      exact ⟨fun opens => table.1 opens.2.2, fun nothing =>
        table.2 fun opens => nothing ⟨free, made, opens⟩⟩

/-- The open descriptors are those of `start`, and if it had a free slot there is one. -/
structure KeepsDescriptors (start later : LoadSystem) : Prop where
  same : later.files.openDescriptors = start.files.openDescriptors
  room : start.files.freeSlot ≠ none → later.files.freeSlot ≠ none

theorem KeepsDescriptors.refl (system : LoadSystem) : system.KeepsDescriptors system := ⟨rfl, id⟩

theorem KeepsDescriptors.step {start system : LoadSystem} {call : LoadCall}
    (keeps : start.KeepsDescriptors system) (balanced : ¬ system.OpensImage call) :
    start.KeepsDescriptors (system.step call) := by
  unfold LoadSystem.step
  cases loaded : system.processLoad call with
  | none => exact keeps
  | some result =>
      obtain ⟨ret, stored, next⟩ := result
      have slots := (processLoad_table loaded).2 balanced
      dsimp only
      refine ⟨?_, fun room => ?_⟩
      · rw [← keeps.same]
        unfold FileSystem.openDescriptors
        rw [slots]
      · have earlier := keeps.room room
        unfold FileSystem.freeSlot at earlier ⊢
        rw [slots]
        exact earlier

theorem KeepsDescriptors.broken {start system : LoadSystem} {call : LoadCall}
    (keeps : start.KeepsDescriptors system) (returns : system.Returns call)
    (opens : system.OpensImage call) : ¬ start.KeepsDescriptors (system.step call) := by
  intro later
  unfold Returns at returns
  unfold LoadSystem.step at later
  cases loaded : system.processLoad call with
  | none => exact returns loaded
  | some result =>
      obtain ⟨ret, stored, next⟩ := result
      obtain ⟨i, below, isNull, taken⟩ := (processLoad_table loaded).1 opens
      rw [loaded] at later
      have same : next.files.openDescriptors = system.files.openDescriptors :=
        later.same.trans keeps.same.symm
      have member : i ∈ next.files.openDescriptors := ⟨below, taken⟩
      rw [same] at member
      exact member.2 isNull

end LoadSystem

/-! A file opened as often as there are slots below the last one, and then loaded. -/

/-- The kernel without processes on the machine of these files. -/
def LoadSystem.beside (fs : FileSystem) : LoadSystem where
  kernel := { Kernel.booted (fun _ => 0) with machine := fs.machine }
  files := fs

/-- After 511 calls of `fopen`. -/
def crowdedSystem : LoadSystem :=
  .beside (exec OpenFiles.step (.start singleFileSystem)
    (List.replicate 511 (.fopen pathA [0x72]))).fs

namespace Kernel

/-- A record is allocated while few blocks are taken. -/
theorem kzalloc_succeeds {kernel : Kernel} (sound : kernel.machine.HeapSound) (owner : Owner)
    {size : Word} (proper : Proper size)
    (room : blockCount size * (25600 - kernel.machine.freeBlocks.card + 1) ≤ 25600) :
    ∃ p next, kernel.kzalloc owner size = (p, next) ∧ p ≠ null ∧ next.machine.HeapSound ∧
      next.machine.freeBlocks.card + blockCount size = kernel.machine.freeBlocks.card := by
  obtain ⟨found, takes⟩ := sound.kzalloc_takes owner proper (Machine.exists_freeRun room)
  exact ⟨_, _, rfl, found, (sound.kzalloc owner proper found).sound, takes.card⟩

end Kernel

namespace LoadSystem

/-- A load that fails in `elf_load` returns. -/
theorem processLoad_failed {system next : LoadSystem} {call : LoadCall} {kernel : Kernel}
    {process : Word} {file : Option Word} (free : ¬ system.kernel.processGetFreeSlot < 0)
    (allocated : system.kernel.kzalloc .process sizeofProcess = (process, kernel))
    (made : process ≠ null)
    (failed : (system.withKernel (kernel.setProcess process Process.zero)).elfLoad process
      call.filename = some (-EINVAL, file, next)) : system.Returns call := by
  have data : (system.withKernel (kernel.setProcess process Process.zero)).processLoadData process
      call = some (-EINVAL, next) := by
    unfold processLoadData processLoadElf
    rw [failed]
    rfl
  have reached : (system.withKernel kernel).processLoadLabel call
      system.kernel.processGetFreeSlot.toNat process ≠ none := by
    unfold processLoadLabel
    change ((system.withKernel (kernel.setProcess process Process.zero)).processLoadData process
      call).bind _ ≠ none
    rw [data]
    exact Option.some_ne_none _
  unfold Returns processLoad processLoadForSlot
  dsimp only
  rw [if_neg free, Kernel.processGet_freeSlot free,
    if_neg (show ¬ (null : Word).toInt < 0 by decide), if_neg (not_not.mpr rfl), allocated]
  dsimp only
  rw [if_neg made]
  exact reached

theorem elfLoad_unresolved {system opened : LoadSystem} {kernel : Kernel} {elfFile : Word}
    {filename : List Byte} {fd : Int}
    (allocated : system.kernel.kzalloc .elfFile sizeofElfFile = (elfFile, kernel))
    (made : elfFile ≠ null)
    (opens : (system.withKernel (kernel.setElfFile elfFile ElfFile.zero)).fopen filename =
      some (fd, opened)) (positive : ¬ fd < 0)
    (unresolved : opened.files.fileDescriptorGet fd = null) (process : Word) :
    ∃ file next, system.elfLoad process filename = some (-EINVAL, file, next) := by
  have outcome : system.elfLoad process filename =
      some (opened.elfLoadOpened process elfFile fd) := by
    unfold elfLoad
    rw [allocated]
    dsimp only
    rw [if_neg made, opens]
    dsimp only [Option.bind_eq_bind, Option.bind_some]
    rw [if_neg positive]
  have status := elfLoadOpened_unresolved unresolved process elfFile
  rw [outcome]
  exact ⟨_, _, congrArg some (Prod.ext status rfl)⟩

theorem ElfOpens.intro {system opened : LoadSystem} {kernel : Kernel} {elfFile : Word}
    {filename : List Byte} {fd : Int}
    (allocated : system.kernel.kzalloc .elfFile sizeofElfFile = (elfFile, kernel))
    (made : elfFile ≠ null)
    (opens : (system.withKernel (kernel.setElfFile elfFile ElfFile.zero)).fopen filename =
      some (fd, opened)) (positive : ¬ fd < 0)
    (record : opened.files.fileDescriptors (fd - 1).toNat ≠ null) : system.ElfOpens filename := by
  unfold ElfOpens
  rw [allocated]
  exact ⟨made, fd, opened, opens, positive, record⟩

theorem OpensImage.intro {system : LoadSystem} {call : LoadCall} {kernel : Kernel} {process : Word}
    (free : ¬ system.kernel.processGetFreeSlot < 0)
    (allocated : system.kernel.kzalloc .process sizeofProcess = (process, kernel))
    (made : process ≠ null)
    (opens : (system.withKernel (kernel.setProcess process Process.zero)).ElfOpens call.filename) :
    system.OpensImage call := by
  unfold OpensImage
  rw [allocated]
  exact ⟨free, made, opens⟩

/-- With 511 files open `elf_load` takes the last slot, and its number does not resolve. -/
theorem elfOpens_last (system : LoadSystem) (sound : system.kernel.machine.HeapSound)
    (mounted : system.files.mounted = true) (volume : system.files.volume = singleFileVolume)
    (full : system.files.freeSlot = some 511)
    (room : 9 ≤ system.kernel.machine.freeBlocks.card) (process : Word) :
    system.ElfOpens pathA ∧
      ∃ file next, system.elfLoad process pathA = some (-EINVAL, file, next) := by
  have small : blockCount sizeofElfFile = 1 := by decide
  obtain ⟨elfFile, kernel, allocated, made, sound, left⟩ := Kernel.kzalloc_succeeds sound .elfFile
    (show Proper sizeofElfFile by decide) (by rw [small]; omega)
  rw [small] at left
  generalize named : system.withKernel (kernel.setElfFile elfFile ElfFile.zero) = ready
  have machine : ready.fs.machine = kernel.machine := by
    rw [← named]
    rfl
  have soundReady : ready.fs.machine.HeapSound := by
    rw [machine]
    exact sound
  have files : ready.files = system.files := by
    rw [← named]
    rfl
  have table : ready.files.fileDescriptors = system.files.fileDescriptors := by rw [files]
  have mounted : ready.files.mounted = true := by rw [files, mounted]
  have volume : ready.files.volume = singleFileVolume := by rw [files, volume]
  unfold FileSystem.freeSlot at full
  rw [← table] at full
  obtain ⟨desc, next, opened, record, slots, _⟩ :=
    FileSystem.fopen_succeeds soundReady mounted pathA_accepted
      (show (pparserGetDriveByPath pathA).2 = [0x61] by decide) (by decide) (by decide)
      (show FileSystem.NamesFile ready.files.volume [0x61] by
        rw [volume]
        exact singleFileVolume_namesFile) full (by rw [machine]; omega)
  have opens : ready.fopen pathA = some (((511 : ℕ) : Int) + 1, ready.withFs next) := by
    unfold fopen
    rw [opened]
    rfl
  have last : (((511 : ℕ) : Int) + 1 - 1).toNat = 511 := by decide
  have taken : (ready.withFs next).files.fileDescriptors (((511 : ℕ) : Int) + 1 - 1).toNat ≠
      null := by
    rw [last]
    change next.fileDescriptors 511 ≠ null
    rw [slots, Function.update_self]
    exact record
  have positive : ¬ (((511 : ℕ) : Int) + 1 < 0) := by decide
  rw [← named] at opens
  exact ⟨.intro allocated made opens positive taken, elfLoad_unresolved allocated made opens
    positive (FileSystem.fileDescriptorGet_last next) process⟩

theorem beside_free (fs : FileSystem) : ¬ (beside fs).kernel.processGetFreeSlot < 0 := by
  have first : Searches.first (fun i => (beside fs).kernel.processes i = null)
      phixMaxProcesses 0 = some 0 :=
    Searches.first_eq_some.mpr ⟨le_rfl, by decide, rfl, fun _ lower upper => by omega⟩
  unfold Kernel.processGetFreeSlot
  rw [Kernel.processGetFreeSlot_loop, first]
  decide

theorem beside_opens {files : OpenFiles} (before : OpenedTimes 511 files) :
    (beside files.fs).OpensImage ⟨pathA, null⟩ ∧ (beside files.fs).Returns ⟨pathA, null⟩ := by
  have full : files.fs.freeSlot = some 511 := by
    unfold FileSystem.freeSlot
    rw [Searches.first_eq_some]
    refine ⟨Nat.zero_le _, by decide, (before.taken 511).mpr le_rfl, fun j _ earlier isNull => ?_⟩
    exact absurd ((before.taken j).mp isNull) (by omega)
  have free := beside_free files.fs
  have large : blockCount sizeofProcess = 3 := by decide
  have room := before.room
  obtain ⟨process, kernel, allocated, made, sound, left⟩ :=
    Kernel.kzalloc_succeeds (show (beside files.fs).kernel.machine.HeapSound from before.sound)
      .process (show Proper sizeofProcess by decide) (by
        change _ * (25600 - files.fs.machine.freeBlocks.card + 1) ≤ 25600
        rw [large]
        omega)
  rw [large] at left
  change kernel.machine.freeBlocks.card + 3 = files.fs.machine.freeBlocks.card at left
  obtain ⟨opens, file, last, failed⟩ :=
    ((beside files.fs).withKernel (kernel.setProcess process Process.zero)).elfOpens_last
      sound before.mounted before.volume full
      (show 9 ≤ kernel.machine.freeBlocks.card by omega) process
  exact ⟨.intro free allocated made opens, processLoad_failed free allocated made failed⟩

end LoadSystem

/-- A load that returns and opens its file in `elf_load` leaves one more descriptor open. -/
theorem LoadSystem.OpensImage.leaks {system : LoadSystem} {call : LoadCall}
    (opens : system.OpensImage call) (returns : system.Returns call) :
    ∃ ret stored next, system.processLoad call = some (ret, stored, next) ∧
      next.files.openDescriptors ≠ system.files.openDescriptors := by
  obtain ⟨⟨ret, stored, next⟩, loaded⟩ := Option.ne_none_iff_exists'.mp returns
  refine ⟨ret, stored, next, loaded, fun same => ?_⟩
  obtain ⟨i, below, isNull, taken⟩ := (LoadSystem.processLoad_table loaded).1 opens
  have member : i ∈ next.files.openDescriptors := ⟨below, taken⟩
  rw [same] at member
  exact member.2 isNull

/-! Loads of files that are not there, whatever the heap answers. -/

namespace LoadSystem

theorem fopen_missing {system : LoadSystem} {filename : List Byte}
    (missing : system.files.Misses filename) : ∃ fd opened,
      system.fopen filename = some (fd, opened) ∧ fd < 0 ∧ fd ≠ -EBADFORMAT ∧
        opened.files.volume = system.files.volume := by
  obtain ⟨fd, next, opened, negative⟩ := FileSystem.fopen_missing
    (show system.fs.Misses filename from missing) [0x72]
  have opens : system.fopen filename = some (fd, system.withFs next) := by
    unfold fopen
    rw [opened]
    rfl
  refine ⟨fd, _, opens, negative, ?_⟩
  cases fopen_files opens with
  | failed _ status same => exact ⟨status, same.volume⟩
  | opened i _ _ number => omega

theorem elfLoad_missing {system : LoadSystem} {filename : List Byte}
    (missing : system.files.Misses filename) (process : Word) : ¬ system.ElfOpens filename ∧
      ∃ ret file next, system.elfLoad process filename = some (ret, file, next) ∧ ret < 0 ∧
        ret ≠ -EBADFORMAT ∧ next.files.volume = system.files.volume := by
  unfold ElfOpens elfLoad
  cases allocated : system.kernel.kzalloc .elfFile sizeofElfFile with
  | mk elfFile kernel =>
      obtain ⟨fd, opened, opens, negative, status, volume⟩ := fopen_missing
        (show (system.withKernel (kernel.setElfFile elfFile ElfFile.zero)).files.Misses filename
          from missing)
      dsimp only
      refine ⟨?_, ?_⟩
      · rintro ⟨_, other, _, same, positive, _⟩
        cases opens.symm.trans same
        exact positive negative
      · split
        · exact ⟨_, _, _, rfl, by decide, by decide, rfl⟩
        · rw [opens]
          dsimp only [Option.bind_eq_bind, Option.bind_some]
          rw [if_pos negative]
          have code := opened.elfLoadOut_status elfFile fd none
          exact ⟨_, _, _, rfl, code.trans_lt negative, code.trans_ne status, volume⟩

theorem processLoad_missing {system : LoadSystem} {call : LoadCall}
    (missing : system.files.Misses call.filename) : ¬ system.OpensImage call ∧
      ∃ ret stored next, system.processLoad call = some (ret, stored, next) ∧
        next.files.volume = system.files.volume := by
  unfold OpensImage processLoad processLoadForSlot
  dsimp only
  cases allocated : system.kernel.kzalloc .process sizeofProcess with
  | mk process kernel =>
      obtain ⟨unopened, ret, file, next, loaded, negative, status, volume⟩ := elfLoad_missing
        (show (system.withKernel (kernel.setProcess process Process.zero)).files.Misses
          call.filename from missing) process
      refine ⟨fun opens => unopened opens.2.2, ?_⟩
      split
      · exact ⟨_, _, _, rfl, rfl⟩
      split
      · exact ⟨_, _, _, rfl, rfl⟩
      split
      · exact ⟨_, _, _, rfl, rfl⟩
      split
      · exact ⟨_, _, _, rfl, rfl⟩
      have data : (system.withKernel (kernel.setProcess process Process.zero)).processLoadData
          process call = some (ret, next) := by
        unfold processLoadData processLoadElf
        rw [loaded]
        dsimp only [Option.bind_eq_bind, Option.bind_some]
        rw [if_pos negative]
        exact if_neg status
      have label : (system.withKernel kernel).processLoadLabel call
          system.kernel.processGetFreeSlot.toNat process =
            some ((Kernel.LoadLabel.out ⟨next.kernel, null, null, ret, none⟩).1,
              (Kernel.LoadLabel.out ⟨next.kernel, null, null, ret, none⟩).2.1,
              next.withKernel (Kernel.LoadLabel.out ⟨next.kernel, null, null, ret, none⟩).2.2) := by
        unfold processLoadLabel
        change ((system.withKernel (kernel.setProcess process Process.zero)).processLoadData process
          call).bind _ = _
        rw [data, Option.bind_some]
        exact if_pos negative
      exact ⟨_, _, _, label, volume⟩

/-- A run of them returns, and no file is opened. -/
theorem along_missing {system : LoadSystem} {calls : List LoadCall}
    (missing : ∀ call ∈ calls, system.files.Misses call.filename) :
    Along LoadSystem.step LoadSystem.Returns system calls ∧
      Along LoadSystem.step (fun before call => ¬ before.OpensImage call) system calls := by
  induction calls generalizing system with
  | nil => exact ⟨trivial, trivial⟩
  | cons call calls ih =>
      obtain ⟨unopened, ret, stored, next, loaded, volume⟩ :=
        processLoad_missing (missing call (List.mem_cons_self ..))
      have stepped : system.step call = next := by
        unfold LoadSystem.step
        rw [loaded]
      have later : ∀ other ∈ calls, (system.step call).files.Misses other.filename := by
        intro other member
        unfold FileSystem.Misses
        rw [stepped, volume]
        exact missing other (List.mem_cons_of_mem _ member)
      obtain ⟨returns, none⟩ := ih later
      refine ⟨⟨?_, returns⟩, unopened, none⟩
      unfold Returns
      rw [loaded]
      exact Option.some_ne_none _

end LoadSystem

/-- **A load leaves `elf_load`'s descriptor open**: in a run of loads that return, the open
descriptors are those of the start in every state exactly when no load opens its file in
`elf_load`. -/
theorem process_load_descriptors_iff (system : LoadSystem) (calls : List LoadCall)
    (returns : Along LoadSystem.step LoadSystem.Returns system calls) :
    Throughout LoadSystem.step system.KeepsDescriptors system calls ↔
      Along LoadSystem.step (fun before call => ¬ before.OpensImage call) system calls :=
  throughout_iff_along system.KeepsDescriptors
    (fun _ _ keeps _ balanced => keeps.step balanced)
    (fun _ _ keeps returns opens => keeps.broken returns (not_not.mp opens)) (fun _ => id)
    (.refl system) returns

theorem process_load_leaks_descriptor : ∃ ret stored next,
    crowdedSystem.processLoad ⟨pathA, null⟩ = some (ret, stored, next) ∧
      next.files.openDescriptors ≠ crowdedSystem.files.openDescriptors := by
  have opened : OpenedTimes 511 (exec OpenFiles.step (.start singleFileSystem)
    (List.replicate 511 (.fopen pathA [0x72]))) := openedTimes 511 (by decide)
  unfold crowdedSystem
  generalize exec OpenFiles.step (.start singleFileSystem)
    (List.replicate 511 (.fopen pathA [0x72])) = files at opened ⊢
  obtain ⟨opens, returns⟩ := LoadSystem.beside_opens opened
  exact opens.leaks returns

/-- The path `0:/b`. -/
def pathB : List Byte := [0x30, 0x3A, 0x2F, 0x62]

/-- Three loads of files that are not there leave the open descriptors as they are. -/
theorem process_load_descriptors_missing :
    Throughout LoadSystem.step (LoadSystem.beside singleFileSystem).KeepsDescriptors
      (.beside singleFileSystem) [⟨pathB, null⟩, ⟨[], null⟩, ⟨pathB, null⟩] := by
  have volume : (LoadSystem.beside singleFileSystem).files.volume = singleFileVolume := rfl
  have absent : ∀ filename ∈ [pathB, [], pathB],
    fat16FindItemInDirectory.loop singleFileVolume.rootItems
      singleFileVolume.rootDirectory.total
      ((pparserGetDriveByPath filename).2.takeWhile fun c => c ≠ 0x2F) = none := by decide
  have missing : ∀ call ∈ [(⟨pathB, null⟩ : LoadCall), ⟨[], null⟩, ⟨pathB, null⟩],
      (LoadSystem.beside singleFileSystem).files.Misses call.filename := by
    intro call member
    unfold FileSystem.Misses
    rw [volume]
    exact absent _ (List.mem_map_of_mem (f := LoadCall.filename) member)
  obtain ⟨returns, unopened⟩ := LoadSystem.along_missing missing
  exact (process_load_descriptors_iff _ _ returns).mpr unopened

end Phix
