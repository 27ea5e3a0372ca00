import Phix.Fs.Balance
import Phix.Fs.WholeFile
import Phix.Memory.Refusal
import Phix.Task.Loads
import Phix.Task.Start

/-! # What an ELF load reports

`elf_load` reuses one variable for the descriptor, the statuses and the count of items. When no
blocks are found for the image the variable holds the status of `fstat`, which is 0: the call
reports success and stores no file. In every other case it succeeds exactly when it delivers an
image, as far as the read delivers the file (`Phix.elf_load_delivers_iff`).
-/

namespace Phix

/-- There is a run of free blocks for a request, or the last block of the pool is free. -/
def Machine.FindsBlocks (machine : Machine) (size : Word) : Prop :=
  (kernelHeap machine.memory).table.TailFree ∨ (1 ≤ (heapRequest size).toNat ∧
    ∃ s, (kernelHeap machine.memory).table.FreeRun s (heapRequest size).toNat)

theorem Machine.kzalloc_ne_null_iff (machine : Machine) (owner : Owner) (size : Word) :
    (machine.kzalloc owner size).1 ≠ null ↔ machine.FindsBlocks size := by
  have none := kernelHeap_null_iff machine size
  rw [← not_or] at none
  exact (not_congr none).trans not_not

/-- The pointers are released one after another, each once. -/
structure ReleasedOnce (machine next : Machine) (pointers : List Word) : Prop where
  once : pointers.Nodup
  released : next = pointers.foldl Machine.kfree machine
  gone : ∀ p ∈ pointers, next.live p = none

namespace LoadSystem

/-- What `elf_load` has in hand at its label `out`. -/
structure ElfLoadLabel where
  system : LoadSystem
  elfFile : Word
  ret : Int
  file : Option Word

/-- `elf_load` up to its label `out`, once the file is opened. -/
def elfLoadLabelOpened (system : LoadSystem) (process elfFile : Word) (fd : Int) : ElfLoadLabel :=
  let (ret, stat) := system.fs.fstat fd
  if ret < 0 then ⟨system, elfFile, ret, none⟩
  else
    let filesize := (stat.map FileStat.filesize).getD 0
    let (elfMemory, kernel) := system.kernel.kzalloc (.image process) filesize
    let system := system.withKernel
      (kernel.setElfFile elfFile { ElfFile.zero with elfMemory })
    if elfMemory = null then ⟨system, elfFile, ret, none⟩
    else
      let (ret, system) := system.fread elfMemory filesize 1 fd
      if ret < 0 then ⟨system, elfFile, ret, none⟩
      else
        let (ret, file) :=
          elfProcessLoaded system.kernel.machine.memory (system.kernel.elfFileAt elfFile)
        let system := system.withKernel (system.kernel.setElfFile elfFile file)
        if ret < 0 then ⟨system, elfFile, ret, none⟩ else ⟨system, elfFile, ret, some elfFile⟩

/-- The record of `elf_load`, and the descriptor of the file that is opened for it. -/
def elfOpened (system : LoadSystem) (filename : List Byte) : Option (Int × LoadSystem) :=
  let (elfFile, kernel) := system.kernel.kzalloc .elfFile sizeofElfFile
  (system.withKernel (kernel.setElfFile elfFile ElfFile.zero)).fopen filename

/-- `elf_load` up to its label `out`, with a record. -/
def elfLoadLabel (system : LoadSystem) (process : Word) (filename : List Byte) :
    Option ElfLoadLabel := do
  let elfFile := (system.kernel.kzalloc .elfFile sizeofElfFile).1
  let (fd, system) ← system.elfOpened filename
  if fd < 0 then some ⟨system, elfFile, fd, none⟩
  else some (system.elfLoadLabelOpened process elfFile fd)

namespace ElfLoadLabel

variable (label : ElfLoadLabel)

/-- The image that is recorded. -/
def image : Word := (label.system.kernel.elfFileAt label.elfFile).elfMemory

/-- What the call has allocated. -/
def allocations : List Word := [label.image, label.elfFile].filter fun p => p ≠ null

/-- The label's code. -/
def out : Int × Option Word × LoadSystem :=
  label.system.elfLoadOut label.elfFile label.ret label.file

theorem out_status : label.out.1 = label.ret := elfLoadOut_status ..

theorem out_file : label.out.2.1 = label.file := by
  change (label.system.kernel.elfLoadOut label.elfFile label.ret label.file).2.1 = label.file
  unfold Kernel.elfLoadOut
  split <;> rfl

/-- A load that succeeds leaves through the label as it is. -/
theorem out_succeeds (succeeds : label.ret = 0) : label.out.2.2 = label.system := by
  unfold out LoadSystem.elfLoadOut Kernel.elfLoadOut
  rw [if_neg (not_not.mpr succeeds)]
  rfl

/-- The label releases what was allocated, on any status but 0. -/
theorem out_released (failed : label.ret ≠ 0) (found : label.elfFile ≠ null)
    (apart : label.image = null ∧ label.system.kernel.machine.HeapSound ∨
      label.image ≠ null ∧ label.image ≠ label.elfFile) :
    ReleasedOnce label.system.kernel.machine label.out.2.2.kernel.machine label.allocations := by
  have out : label.out.2.2.kernel.machine =
      (label.system.kernel.machine.kfree label.image).kfree label.elfFile := by
    unfold ElfLoadLabel.out LoadSystem.elfLoadOut Kernel.elfLoadOut
    rw [if_pos failed]
    rfl
  rcases apart with ⟨noImage, sound⟩ | ⟨isImage, apart⟩
  · have only : label.allocations = [label.elfFile] := by
      unfold ElfLoadLabel.allocations
      rw [noImage]
      simp [found]
    rw [only, out, noImage, sound.kfree_null_eq]
    refine ⟨List.nodup_singleton _, rfl, fun p member => ?_⟩
    rw [List.mem_singleton.mp member, Machine.kfree_live, Function.update_self]
  · have both : label.allocations = [label.image, label.elfFile] := by
      unfold ElfLoadLabel.allocations
      simp [found, isImage]
    rw [both, out]
    refine ⟨by simp [apart], rfl, fun p member => ?_⟩
    rw [Machine.kfree_live]
    by_cases same : p = label.elfFile
    · rw [same, Function.update_self]
    · have image : p = label.image := by simpa [same] using member
      rw [Function.update_of_ne same, image, Machine.kfree_live, Function.update_self]

end ElfLoadLabel

theorem elfLoadOpened_eq (system : LoadSystem) (process elfFile : Word) (fd : Int) :
    system.elfLoadOpened process elfFile fd =
      (system.elfLoadLabelOpened process elfFile fd).out := by
  unfold elfLoadOpened elfLoadLabelOpened
  dsimp only
  split
  · rfl
  split
  · rfl
  split
  · rfl
  split <;> rfl

theorem elfLoad_eq {system : LoadSystem} (process : Word) (filename : List Byte)
    (found : (system.kernel.kzalloc .elfFile sizeofElfFile).1 ≠ null) :
    system.elfLoad process filename =
      (system.elfLoadLabel process filename).map ElfLoadLabel.out := by
  unfold elfLoad elfLoadLabel elfOpened
  dsimp only
  rw [if_neg found]
  generalize LoadSystem.fopen _ filename = opened
  cases opened with
  | none => rfl
  | some result =>
      obtain ⟨fd, opened⟩ := result
      simp only [Option.bind_eq_bind, Option.bind_some, elfLoadOpened_eq]
      split <;> rfl

/-! What is read. -/

/-- The buffer that is allocated for an opened file. -/
def fileBuffer (opened : LoadSystem) (process : Word) (fd : Int) : Word × Kernel :=
  opened.kernel.kzalloc (.image process) (opened.fs.filesizeOf fd)

/-- Memory with what is read of the file in the buffer. -/
def imageMemory (opened : LoadSystem) (process : Word) (fd : Int) : ByteMemory :=
  (opened.fileBuffer process fd).2.machine.memory.write (opened.fileBuffer process fd).1
    (fun k => (opened.fs.delivered fd).getD k 0) (opened.fs.delivered fd).length

/-- What `elf_process_loaded` makes of it. -/
def processedImage (opened : LoadSystem) (process : Word) (fd : Int) : Int × ElfFile :=
  elfProcessLoaded (opened.imageMemory process fd)
    { ElfFile.zero with elfMemory := (opened.fileBuffer process fd).1 }

/-- How `elf_load` gets from an opened file to its label. -/
inductive ElfLoadOutcome (opened : LoadSystem) (process : Word) (fd : Int) (label : ElfLoadLabel) :
    Prop where
  | unopened (other : ¬ opened.fs.OpensFile fd) (failed : label.ret < 0)
      (nothing : label.file = none) (noImage : label.image = null)
      (machine : label.system.kernel.machine = opened.kernel.machine)
  | unserved (opens : opened.fs.OpensFile fd) (isNull : (opened.fileBuffer process fd).1 = null)
      (status : label.ret = 0) (nothing : label.file = none)
  | refused (opens : opened.fs.OpensFile fd) (found : (opened.fileBuffer process fd).1 ≠ null)
      (reason : opened.fs.Readable fd → (opened.processedImage process fd).1 < 0)
      (place : label.image = (opened.fileBuffer process fd).1) (failed : label.ret < 0)
      (nothing : label.file = none)
  | stored (opens : opened.fs.OpensFile fd) (found : (opened.fileBuffer process fd).1 ≠ null)
      (readable : opened.fs.Readable fd) (accepted : (opened.processedImage process fd).1 = 0)
      (succeeds : label.ret = 0) (file : label.file = some label.elfFile)
      (memory : label.system.kernel.machine.memory = opened.imageMemory process fd)
      (record : label.system.kernel.elfFileAt label.elfFile =
        (opened.processedImage process fd).2)

/-- The read of the whole file into a buffer. -/
theorem fread_whole {system : LoadSystem} {fd : Int} (opens : system.fs.OpensFile fd) (p : Word) :
    let read := system.fread p (system.fs.filesizeOf fd) 1 fd
    (read.1 < 0 ↔ ¬ system.fs.Readable fd) ∧
      read.2.kernel.elfFileAt = system.kernel.elfFileAt ∧
      (system.fs.Readable fd → read.2.kernel.machine.memory = system.kernel.machine.memory.write p
        (fun k => (system.fs.delivered fd).getD k 0) (system.fs.delivered fd).length) := by
  have fails := FileSystem.fread_whole_neg opens
  have delivers := FileSystem.fread_whole_delivers opens
  obtain ⟨streams, frame⟩ := system.fs.fread_frame (system.fs.filesizeOf fd) 1 fd
  have machine : (system.fs.fread (system.fs.filesizeOf fd) 1 fd).2.2.machine =
      system.kernel.machine := congrArg FileSystem.machine frame
  unfold fread
  generalize system.fs.fread (system.fs.filesizeOf fd) 1 fd = read at fails delivers machine ⊢
  obtain ⟨ret, items, fs⟩ := read
  refine ⟨fails, rfl, fun readable => ?_⟩
  have stored : items = [system.fs.delivered fd] := (delivers readable).1
  change storeItems fs.machine.memory p (system.fs.filesizeOf fd) items = _
  rw [stored, show fs.machine = system.kernel.machine from machine]
  rfl

/-- Whether a file can be read, and what is delivered, is no matter of the kernel. -/
theorem withKernel_readable (opened : LoadSystem) (kernel : Kernel) (fd : Int) :
    (opened.withKernel kernel).fs.Readable fd ↔ opened.fs.Readable fd :=
  ⟨fun readable => ⟨readable.nonempty, readable.disk0, readable.found⟩,
    fun readable => ⟨readable.nonempty, readable.disk0, readable.found⟩⟩

theorem elfLoadLabelOpened_outcome {opened : LoadSystem} {elfFile : Word} (process : Word)
    (fd : Int) (empty : opened.kernel.elfFileAt elfFile = ElfFile.zero) :
    (opened.elfLoadLabelOpened process elfFile fd).elfFile = elfFile ∧
      ElfLoadOutcome opened process fd (opened.elfLoadLabelOpened process elfFile fd) := by
  have noImage : (opened.kernel.elfFileAt elfFile).elfMemory = null := by rw [empty]; rfl
  unfold elfLoadLabelOpened
  by_cases opens : opened.fs.OpensFile fd
  swap
  · have failed : (-EINVAL : Int) < 0 := by decide
    rw [FileSystem.fstat_fails opens]
    dsimp only
    rw [if_pos failed]
    exact ⟨rfl, .unopened opens failed rfl noImage rfl⟩
  obtain ⟨stat, answers, size⟩ := FileSystem.fstat_opens opens
  have buffer : opened.kernel.kzalloc (.image process) stat.filesize =
      opened.fileBuffer process fd := by
    rw [size]
    rfl
  rw [answers]
  dsimp only
  rw [if_neg (lt_irrefl 0), Option.map_some, Option.getD_some, buffer]
  by_cases found : (opened.fileBuffer process fd).1 = null
  · rw [if_pos found]
    exact ⟨rfl, .unserved opens found rfl rfl⟩
  rw [if_neg found, size]
  have recorded := (opened.fileBuffer process fd).2.setElfFile_elfFileAt elfFile
    { ElfFile.zero with elfMemory := (opened.fileBuffer process fd).1 }
  have sameMemory : ((opened.fileBuffer process fd).2.setElfFile elfFile
    { ElfFile.zero with elfMemory := (opened.fileBuffer process fd).1 }).machine.memory =
      (opened.fileBuffer process fd).2.machine.memory := rfl
  generalize (opened.fileBuffer process fd).2.setElfFile elfFile
    { ElfFile.zero with elfMemory := (opened.fileBuffer process fd).1 } = kernel
    at recorded sameMemory ⊢
  have size : opened.fs.filesizeOf fd = (opened.withKernel kernel).fs.filesizeOf fd := rfl
  obtain ⟨fails, record, memory⟩ := fread_whole
    (show (opened.withKernel kernel).fs.OpensFile fd from ⟨opens.resolved, opens.regular⟩)
    (opened.fileBuffer process fd).1
  rw [withKernel_readable] at fails memory
  rw [← size] at fails record memory
  generalize (opened.withKernel kernel).fread (opened.fileBuffer process fd).1
    (opened.fs.filesizeOf fd) 1 fd = read at fails record memory ⊢
  obtain ⟨ret, last⟩ := read
  have memory : opened.fs.Readable fd →
      last.kernel.machine.memory = opened.imageMemory process fd := fun readable => by
    unfold imageMemory
    rw [← sameMemory]
    exact memory readable
  have record : last.kernel.elfFileAt elfFile =
      { ElfFile.zero with elfMemory := (opened.fileBuffer process fd).1 } :=
    (congrFun record elfFile).trans recorded
  dsimp only at fails ⊢
  by_cases failed : ret < 0
  · rw [if_pos failed]
    refine ⟨rfl, .refused opens found (fun readable => absurd readable (fails.mp failed)) ?_ failed
      rfl⟩
    exact congrArg ElfFile.elfMemory record
  have readable := not_not.mp (mt fails.mpr failed)
  have processed : elfProcessLoaded last.kernel.machine.memory
      { ElfFile.zero with elfMemory := (opened.fileBuffer process fd).1 } =
        opened.processedImage process fd := by
    unfold processedImage
    rw [memory readable]
  rw [if_neg failed, record, processed]
  have place : (opened.processedImage process fd).2.elfMemory = (opened.fileBuffer process fd).1 :=
    elfProcessLoaded_elfMemory ..
  have accepts : ¬ (opened.processedImage process fd).1 < 0 →
      (opened.processedImage process fd).1 = 0 := elfProcessLoaded_status
  cases result : opened.processedImage process fd with
  | mk status file =>
      have code : (opened.processedImage process fd).1 = status := congrArg Prod.fst result
      have recorded := last.kernel.setElfFile_elfFileAt elfFile file
      rw [result] at place accepts
      dsimp only at place accepts ⊢
      by_cases rejected : status < 0
      · rw [if_pos rejected]
        exact ⟨rfl, .refused opens found (fun _ => code ▸ rejected)
          ((congrArg ElfFile.elfMemory recorded).trans place) rejected rfl⟩
      · rw [if_neg rejected]
        exact ⟨rfl, .stored opens found readable (code.trans (accepts rejected)) (accepts rejected)
          rfl (memory readable) (recorded.trans (congrArg Prod.snd result).symm)⟩

/-- How `elf_load` gets to its label once `fopen` has returned. -/
theorem elfLoadLabel_outcome {system opened : LoadSystem} {filename : List Byte} {fd : Int}
    (process : Word) (opens : system.elfOpened filename = some (fd, opened))
    (empty : opened.kernel.elfFileAt (system.kernel.kzalloc .elfFile sizeofElfFile).1 =
      ElfFile.zero) :
    ∃ label, system.elfLoadLabel process filename = some label ∧
      label.elfFile = (system.kernel.kzalloc .elfFile sizeofElfFile).1 ∧
      ElfLoadOutcome opened process fd label := by
  unfold elfLoadLabel
  rw [opens]
  simp only [Option.bind_eq_bind, Option.bind_some]
  by_cases failed : fd < 0
  · rw [if_pos failed]
    refine ⟨_, rfl, rfl, .unopened (fun opens => ?_) failed rfl
      (congrArg ElfFile.elfMemory empty) rfl⟩
    exact opens.positive (by omega)
  · rw [if_neg failed]
    exact ⟨_, rfl, elfLoadLabelOpened_outcome process fd empty⟩

/-- The record is still allocated once the file is opened, when what is asked of the heap meanwhile
is served or refused. -/
theorem elfOpened_record {system opened : LoadSystem} {filename : List Byte} {fd : Int}
    (sound : system.kernel.machine.HeapSound)
    (found : (system.kernel.kzalloc .elfFile sizeofElfFile).1 ≠ null)
    (opens : system.elfOpened filename = some (fd, opened))
    (orderly : (system.kernel.kzalloc .elfFile sizeofElfFile).2.machine.Permits Request.Clean
      opened.kernel.machine) :
    opened.kernel.machine.HeapSound ∧
      opened.kernel.machine.live (system.kernel.kzalloc .elfFile sizeofElfFile).1 ≠ none ∧
      opened.kernel.elfFileAt (system.kernel.kzalloc .elfFile sizeofElfFile).1 = ElfFile.zero := by
  have proper : Proper sizeofElfFile := ⟨by decide, by decide⟩
  have cleared := sound.kzalloc .elfFile proper found
  have held : (system.kernel.kzalloc .elfFile sizeofElfFile).2.machine.live
      (system.kernel.kzalloc .elfFile sizeofElfFile).1 ≠ none :=
    fun none => Option.some_ne_none _ (cleared.held.symm.trans none)
  obtain ⟨⟨number, fs⟩, opened', same⟩ := Option.bind_eq_some_iff.mp opens
  cases Option.some.inj same
  have start : (((system.withKernel ((system.kernel.kzalloc .elfFile sizeofElfFile).2.setElfFile
    (system.kernel.kzalloc .elfFile sizeofElfFile).1 ElfFile.zero)).fs).machine).HeapSound :=
      cleared.sound
  refine ⟨?_, ?_, Kernel.setElfFile_elfFileAt ..⟩
  · cases FileSystem.fopen_outcome start opened' with
    | failed _ _ _ grows => exact grows.sound.apply orderly
    | opened _ _ _ _ _ _ _ grows => exact (grows.apply orderly).sound.apply orderly
  · cases FileSystem.fopen_outcome start opened' with
    | failed _ _ _ grows => exact grows.gains.kept _ held
    | opened _ _ _ _ _ _ gains =>
        obtain ⟨_, _, gains⟩ := gains
        exact gains.kept _ held

/-- A stored file records the image that was processed, and this holds the whole file. -/
structure HoldsImage (next : LoadSystem) (elfFile : Word) (opened : LoadSystem) (fd : Int) :
    Prop where
  whole : ∃ bytes, opened.fs.Content fd bytes ∧ ∀ k < opened.fs.filesizeOf fd,
    next.kernel.machine.memory ((next.kernel.elfFileAt elfFile).elfMemory + k) =
      bytes.getD k.toNat 0
  validated : elfProcessLoaded next.kernel.machine.memory
    { ElfFile.zero with elfMemory := (next.kernel.elfFileAt elfFile).elfMemory } =
      (0, next.kernel.elfFileAt elfFile)

/-- The status is 0 exactly when a file is stored whose image holds the whole file and has been
processed; otherwise it is negative, and what was allocated is released once. -/
structure Delivered (system : LoadSystem) (process : Word) (filename : List Byte) (ret : Int)
    (file : Option Word) (next : LoadSystem) : Prop where
  stored : ret = 0 ↔ ∃ elfFile fd opened, file = some elfFile ∧
    system.elfOpened filename = some (fd, opened) ∧ next.HoldsImage elfFile opened fd
  negative : ret ≠ 0 → ret < 0
  released : ret ≠ 0 → (system.kernel.kzalloc .elfFile sizeofElfFile).1 ≠ null →
    ∀ label, system.elfLoadLabel process filename = some label →
      ReleasedOnce label.system.kernel.machine next.kernel.machine label.allocations

/-- `elf_load` returns, and delivers as its status says. -/
def Delivers (system : LoadSystem) (process : Word) (filename : List Byte) : Prop :=
  ∃ ret file next, system.elfLoad process filename = some (ret, file, next) ∧
    system.Delivered process filename ret file next

/-- What the stream delivers for the read of the whole file is the file. -/
def DeliversContent (opened : LoadSystem) (fd : Int) : Prop :=
  ∃ bytes, opened.fs.Content fd bytes ∧ ∀ k < opened.fs.filesizeOf fd,
    (opened.fs.delivered fd).getD k.toNat 0 = bytes.getD k.toNat 0

/-- No block is free for the record; or `fopen` returns, and no file is open then, or the heap finds
blocks for its size, and the read of it fails, what it reads is refused by `elf_process_loaded`, or
it reads the file. -/
def FindsImage (system : LoadSystem) (process : Word) (filename : List Byte) : Prop :=
  system.kernel.machine.freeBlocks = ∅ ∨
    ∃ fd opened, system.elfOpened filename = some (fd, opened) ∧
      (opened.fs.OpensFile fd →
        opened.kernel.machine.FindsBlocks (opened.fs.filesizeOf fd) ∧
        (opened.fs.Readable fd → 0 ≤ (opened.processedImage process fd).1 →
          opened.DeliversContent fd))

/-- The bytes of the image are what the stream delivers. -/
theorem imageMemory_apply {opened : LoadSystem} {process : Word} {fd : Int}
    (opens : opened.fs.OpensFile fd) (readable : opened.fs.Readable fd) {k : Word}
    (inside : k < opened.fs.filesizeOf fd) :
    opened.imageMemory process fd ((opened.fileBuffer process fd).1 + k) =
      (opened.fs.delivered fd).getD k.toNat 0 := by
  have length := (FileSystem.fread_whole_delivers opens readable).2
  have size := (opened.fs.filesizeOf fd).isLt
  unfold imageMemory
  rw [ByteMemory.write_apply _ _ _ (by omega), add_sub_cancel_left]
  split
  · rfl
  · rename_i beyond
    rw [List.getD_eq_getElem?_getD, List.getElem?_eq_none (not_lt.mp beyond), Option.getD_none]
    -- What is not read is as `kzalloc` has left it.
    refine (opened.kernel.machine.kzalloc_apply (.image process) _ _).trans (if_pos ?_)
    change ((opened.fileBuffer process fd).1 + k - (opened.fileBuffer process fd).1).toNat < _
    rw [add_sub_cancel_left]
    exact inside

/-- An image that is stored holds the whole file exactly when the stream has delivered it. -/
theorem holdsImage_iff {opened next : LoadSystem} {process elfFile : Word} {fd : Int}
    (opens : opened.fs.OpensFile fd) (readable : opened.fs.Readable fd)
    (accepted : (opened.processedImage process fd).1 = 0)
    (memory : next.kernel.machine.memory = opened.imageMemory process fd)
    (record : next.kernel.elfFileAt elfFile = (opened.processedImage process fd).2) :
    next.HoldsImage elfFile opened fd ↔ opened.DeliversContent fd := by
  have place : (next.kernel.elfFileAt elfFile).elfMemory = (opened.fileBuffer process fd).1 := by
    rw [record]
    exact elfProcessLoaded_elfMemory ..
  have holds : ∀ bytes : List Byte, (∀ k < opened.fs.filesizeOf fd, next.kernel.machine.memory
      ((next.kernel.elfFileAt elfFile).elfMemory + k) = bytes.getD k.toNat 0) ↔
        ∀ k < opened.fs.filesizeOf fd,
          (opened.fs.delivered fd).getD k.toNat 0 = bytes.getD k.toNat 0 := by
    intro bytes
    refine forall₂_congr fun k inside => ?_
    rw [memory, place, imageMemory_apply opens readable inside]
  constructor
  · rintro ⟨⟨bytes, content, whole⟩, -⟩
    exact ⟨bytes, content, (holds bytes).mp whole⟩
  · rintro ⟨bytes, content, whole⟩
    refine ⟨⟨bytes, content, (holds bytes).mpr whole⟩, ?_⟩
    have pair : ∀ {result : Int × ElfFile}, result.1 = 0 → result = (0, result.2) := by
      rintro ⟨status, file⟩ rfl
      rfl
    rw [memory, place, record, ← pair accepted]
    unfold processedImage
    rfl

section Outcomes

variable {system opened : LoadSystem} {process : Word} {filename : List Byte} {fd : Int}
  {label : ElfLoadLabel}

/-- A load that fails at the label has stored nothing, and delivers as its status says. -/
theorem delivers_of_failed (found : (system.kernel.kzalloc .elfFile sizeofElfFile).1 ≠ null)
    (reached : system.elfLoadLabel process filename = some label) (failed : label.ret < 0)
    (nothing : label.file = none) (named : label.elfFile ≠ null)
    (apart : label.image = null ∧ label.system.kernel.machine.HeapSound ∨
      label.image ≠ null ∧ label.image ≠ label.elfFile) : system.Delivers process filename := by
  have loaded := elfLoad_eq process filename found
  rw [reached, Option.map_some] at loaded
  refine ⟨label.out.1, label.out.2.1, label.out.2.2, loaded, ?_, fun _ => ?_, fun _ _ => ?_⟩
  · rw [label.out_status, label.out_file, nothing]
    refine iff_of_false failed.ne ?_
    rintro ⟨_, _, _, stored, _⟩
    cases stored
  · rw [label.out_status]
    exact failed
  · intro other same
    cases reached.symm.trans same
    exact label.out_released failed.ne named apart

/-- A load that reports success delivers when the file it stores holds the whole file. -/
theorem delivers_iff_of_succeeds
    (found : (system.kernel.kzalloc .elfFile sizeofElfFile).1 ≠ null)
    (reached : system.elfLoadLabel process filename = some label) (succeeds : label.ret = 0)
    (opens : system.elfOpened filename = some (fd, opened)) :
    system.Delivers process filename ↔ ∃ elfFile, label.file = some elfFile ∧
      label.system.HoldsImage elfFile opened fd := by
  have loaded := elfLoad_eq process filename found
  rw [reached, Option.map_some] at loaded
  have status := label.out_status.trans succeeds
  constructor
  · rintro ⟨ret, file, next, same, delivered⟩
    have result := Option.some.inj (loaded.symm.trans same)
    rw [result] at status
    obtain ⟨elfFile, number, state, stored, again, holds⟩ := delivered.stored.mp status
    cases opens.symm.trans again
    have left := label.out_succeeds succeeds
    have file := label.out_file
    rw [result] at left file
    exact ⟨elfFile, file.symm.trans stored, left ▸ holds⟩
  · rintro ⟨elfFile, stored, holds⟩
    refine ⟨label.out.1, label.out.2.1, label.out.2.2, loaded, ?_,
      fun failed => absurd status failed,
      fun failed => absurd status failed⟩
    refine iff_of_true status ⟨elfFile, fd, opened, label.out_file.trans stored, opens, ?_⟩
    rw [label.out_succeeds succeeds]
    exact holds

end Outcomes

end LoadSystem

/-- **A load of an ELF file succeeds exactly when it delivers an image**, unless the file is opened
and the heap finds no blocks of its size, or the read delivers other bytes than the file's that are
accepted as an image. -/
theorem elf_load_delivers_iff {system : LoadSystem} {process : Word} {filename : List Byte}
    (sound : system.kernel.machine.HeapSound)
    (orderly : ∀ fd opened, system.elfOpened filename = some (fd, opened) →
      (system.kernel.kzalloc .elfFile sizeofElfFile).2.machine.Permits Request.Clean
        opened.kernel.machine) :
    system.Delivers process filename ↔ system.FindsImage process filename := by
  have record : (system.kernel.kzalloc .elfFile sizeofElfFile).1 = null ↔
      system.kernel.machine.freeBlocks = ∅ :=
    system.kernel.machine.kzalloc_eq_null_iff .elfFile (by decide) (by decide)
  unfold LoadSystem.FindsImage
  rw [← record]
  by_cases full : (system.kernel.kzalloc .elfFile sizeofElfFile).1 = null
  · -- Without a record nothing is allocated.
    refine iff_of_true ?_ (.inl full)
    refine ⟨-ENOMEM, none, _, if_pos full, ?_, fun _ => show (-ENOMEM : Int) < 0 by decide,
      fun _ found => absurd full found⟩
    refine iff_of_false (show (-ENOMEM : Int) ≠ 0 by decide) ?_
    rintro ⟨_, _, _, stored, _⟩
    cases stored
  rw [or_iff_right full]
  cases opens : system.elfOpened filename with
  | none =>
      -- `fopen` does not return.
      refine iff_of_false ?_ fun ⟨_, _, same, _⟩ => by cases same
      rintro ⟨ret, file, next, loaded, _⟩
      have missed := LoadSystem.elfLoad_eq process filename full
      unfold LoadSystem.elfLoadLabel at missed
      rw [opens] at missed
      cases missed.symm.trans loaded
  | some result =>
      obtain ⟨fd, opened⟩ := result
      obtain ⟨after, held, empty⟩ :=
        LoadSystem.elfOpened_record sound full opens (orderly fd opened opens)
      obtain ⟨label, reached, place, outcome⟩ :=
        LoadSystem.elfLoadLabel_outcome process opens empty
      have named : label.elfFile ≠ null := place ▸ full
      have apart : (opened.fileBuffer process fd).1 ≠ null →
          (opened.fileBuffer process fd).1 ≠ label.elfFile := by
        intro isImage same
        rw [place] at same
        exact held (same ▸ after.kzalloc_fresh (.image process) isImage)
      have blocks := opened.kernel.machine.kzalloc_ne_null_iff (.image process)
        (opened.fs.filesizeOf fd)
      have single : ∀ {holds : Int → LoadSystem → Prop},
          (∃ number state, some (fd, opened) = some (number, state) ∧ holds number state) ↔
            holds fd opened := by
        refine fun {holds} => ⟨?_, fun here => ⟨fd, opened, rfl, here⟩⟩
        rintro ⟨_, _, same, here⟩
        cases same
        exact here
      rw [single]
      cases outcome with
      | unopened other failed nothing noImage machine =>
          refine iff_of_true (LoadSystem.delivers_of_failed full reached failed nothing named
            (.inl ⟨noImage, machine ▸ after⟩)) fun isOpen => absurd isOpen other
      | unserved isOpen isNull status nothing =>
          rw [LoadSystem.delivers_iff_of_succeeds full reached status opens]
          refine iff_of_false ?_ fun finds => blocks.mpr (finds isOpen).1 isNull
          rintro ⟨_, stored, _⟩
          cases nothing.symm.trans stored
      | refused isOpen found reason image failed nothing =>
          refine iff_of_true (LoadSystem.delivers_of_failed full reached failed nothing named
            (.inr ⟨image ▸ found, image ▸ apart found⟩)) fun _ => ⟨blocks.mp found, ?_⟩
          exact fun readable accepted => absurd (reason readable) (not_lt.mpr accepted)
      | stored isOpen found readable accepted succeeds file memory image =>
          rw [LoadSystem.delivers_iff_of_succeeds full reached succeeds opens]
          have stores : (∃ elfFile, label.file = some elfFile ∧
              label.system.HoldsImage elfFile opened fd) ↔ opened.DeliversContent fd := by
            rw [← LoadSystem.holdsImage_iff isOpen readable accepted memory image, file]
            exact ⟨fun ⟨_, same, holds⟩ => Option.some.inj same ▸ holds,
              fun holds => ⟨_, rfl, holds⟩⟩
          rw [stores]
          exact ⟨fun content _ => ⟨blocks.mp found, fun _ _ => content⟩, fun finds =>
            (finds isOpen).2 readable accepted.ge⟩

/-! A heap whose free blocks lie apart, and a file of two blocks. -/

/-- The first `n` of the even blocks are released. -/
def Machine.punctured (machine : Machine) : ℕ → Machine
  | 0 => machine
  | n + 1 => (machine.punctured n).kfree (poolBlock (2 * n))

section Punctured

variable {machine : Machine} (sound : machine.HeapSound)
  (live : ∀ i < 25600, machine.live (poolBlock i) ≠ none) {n : ℕ} (within : 2 * n ≤ 25600)

include sound live within

theorem Machine.punctured_sound :
    (machine.punctured n).HeapSound ∧ (∀ j < n, 2 * j ∈ (machine.punctured n).freeBlocks) ∧
      ∀ i < 25600, i % 2 = 1 ∨ 2 * n ≤ i → (machine.punctured n).live (poolBlock i) ≠ none := by
  induction n with
  | zero =>
      exact ⟨sound, fun j absent => absurd absent (Nat.not_lt_zero j),
        fun i inside _ => live i inside⟩
  | succ n ih =>
      obtain ⟨soundBefore, free, held⟩ := ih (by omega)
      obtain ⟨allocation, isLive⟩ :=
        Option.ne_none_iff_exists'.mp (held (2 * n) (by omega) (.inr le_rfl))
      refine ⟨soundBefore.kfree isLive, fun j below => ?_, fun i inside other => ?_⟩
      · rcases Nat.lt_succ_iff_lt_or_eq.mp below with before | rfl
        · exact Machine.freeBlocks_kfree _ _ (free j before)
        · exact Machine.mem_freeBlocks_kfree _ (by omega)
      · have different : poolBlock i ≠ poolBlock (2 * n) := fun same => by
          have := poolBlock_injective inside (by omega) same
          omega
        change ((machine.punctured n).kfree (poolBlock (2 * n))).live (poolBlock i) ≠ none
        rw [Machine.kfree_live_of_ne _ different]
        exact held i inside (by omega)

theorem Machine.punctured_card : n ≤ (machine.punctured n).freeBlocks.card := by
  have free : (Finset.range n).image (2 * ·) ⊆ (machine.punctured n).freeBlocks := by
    intro i member
    obtain ⟨j, below, rfl⟩ := Finset.mem_image.mp member
    exact (Machine.punctured_sound sound live within).2.1 j (Finset.mem_range.mp below)
  have count := Finset.card_le_card free
  rwa [Finset.card_image_of_injective _ (mul_right_injective₀ two_ne_zero), Finset.card_range]
    at count

end Punctured

/-- With the odd blocks live there is no run of two blocks, and the last block is taken. -/
theorem Machine.HeapSound.not_findsBlocks {machine : Machine} (sound : machine.HeapSound)
    (live : ∀ i < 25600, i % 2 = 1 → machine.live (poolBlock i) ≠ none) {size : Word}
    (two : 2 ≤ (heapRequest size).toNat) : ¬ machine.FindsBlocks size := by
  have taken : ∀ i < 25600, i % 2 = 1 → ¬ (kernelHeap machine.memory).table.IsFree i :=
    fun i inside odd free => live i inside odd (sound.not_live_of_free inside free)
  rintro (tail | ⟨-, s, fits, run⟩)
  · exact taken 25599 (by decide) (by decide) tail.2
  · rw [kernelHeap_total, totalTableEntries_toNat] at fits
    rcases Nat.mod_two_eq_zero_or_one s with even | odd
    · exact taken (s + 1) (by omega) (by omega) (run (s + 1) (by omega) (by omega))
    · exact taken s (by omega) odd (run s le_rfl (by omega))

/-- `elf_load` opens the file `0:/a` of a volume on a machine with nine free blocks. -/
theorem LoadSystem.elfOpened_fresh {machine : Machine} (sound : machine.HeapSound)
    (room : 9 ≤ machine.freeBlocks.card) {volume : Volume} {bytes : List Byte}
    (file : FileSystem.NamesFile volume [0x61]) (item : FileSystem.FindsItem volume [0x61] bytes) :
    ∃ opened, (LoadSystem.beside (.fresh machine volume)).elfOpened pathA = some (1, opened) ∧
      (machine.kzalloc .elfFile sizeofElfFile).2.Permits Request.Clean opened.kernel.machine ∧
      opened.kernel.machine.HeapSound ∧
      (∀ p, machine.live p ≠ none → opened.kernel.machine.live p ≠ none) ∧
      machine.freeBlocks.card ≤ opened.kernel.machine.freeBlocks.card + 9 ∧
      opened.fs.volume = volume ∧ opened.fs.ServesFile 1 bytes := by
  obtain ⟨found, takes⟩ := sound.kzalloc_block .elfFile (show 1 ≤ sizeofElfFile.toNat by decide)
    (by decide) (Finset.card_pos.mp (by omega))
  have spent := takes.card
  have recorded := (sound.kzalloc .elfFile (show Proper sizeofElfFile by decide) found).sound
  have kept := (machine.kzalloc_kept .elfFile sizeofElfFile).kept
  generalize allocated : machine.kzalloc .elfFile sizeofElfFile = result at *
  obtain ⟨elfFile, after⟩ := result
  dsimp only at recorded kept spent ⊢
  obtain ⟨desc, next, succeeds, -, -, nextSound, sameVolume, -, blocks, served, serves⟩ :=
    FileSystem.fopen_succeeds
      (show (FileSystem.fresh after volume).machine.HeapSound from recorded) rfl pathA_accepted
      (show (pparserGetDriveByPath pathA).2 = [0x61] by decide) (by decide) (by decide) file
      (show Searches.first (fun _ => (null : Word) = null) phixMaxFileDescriptors 0 =
        some 0 from rfl)
      (show 8 ≤ after.freeBlocks.card by omega)
  change after.freeBlocks.card ≤ _ at blocks
  have keeps : ∀ p, after.live p ≠ none → next.machine.live p ≠ none := by
    cases FileSystem.fopen_outcome
      (show (FileSystem.fresh after volume).machine.HeapSound from recorded) succeeds with
    | failed _ _ negative => omega
    | opened _ _ _ _ _ _ gains =>
        obtain ⟨_, _, gains⟩ := gains
        exact gains.kept
  let system := LoadSystem.beside (.fresh machine volume)
  let record := { system.kernel with machine := after }.setElfFile elfFile ElfFile.zero
  have opens : (system.withKernel record).fopen pathA =
      some (1, (system.withKernel record).withFs next) := by
    unfold LoadSystem.fopen
    rw [show (system.withKernel record).fs = .fresh after volume from rfl, succeeds]
    rfl
  refine ⟨(system.withKernel record).withFs next, ?_, served.mono fun _ => .inl, nextSound,
    fun p isLive => keeps p (kept p isLive), ?_, sameVolume, serves (by decide) bytes item⟩
  · have allocates : system.kernel.kzalloc .elfFile sizeofElfFile =
        (elfFile, { system.kernel with machine := after }) := by
      unfold Kernel.kzalloc
      rw [show system.kernel.machine = machine from rfl, allocated]
    unfold LoadSystem.elfOpened
    rw [allocates]
    exact opens
  · change machine.freeBlocks.card ≤ next.machine.freeBlocks.card + 9
    omega

/-- The item `A`, a file in cluster 2 with the size of the two bytes. -/
def fileItem (low high : Byte) : List Byte :=
  0x41 :: List.replicate 10 0x20 ++ List.replicate 15 0 ++ [2, 0, low, high, 0, 0]

/-- A disk with clusters of 16 sectors, which holds one file in cluster 2. -/
def programDisk (item content : List Byte) : Disk :=
  Disk.ofSectors [List.replicate 11 0 ++ [0, 2, 16, 1, 0, 1, 16, 0, 0, 0, 0, 1] ++
    List.replicate 15 0 ++ [0x29], List.replicate 4 0 ++ [0xFF, 0xFF], item, content]

def programVolume (item content : List Byte) : Volume where
  disk := programDisk item content
  header := Slices.slice (programDisk item content).image 0 sizeofFatHeader
  rootDirectory := ⟨null, 1, 2, 3⟩
  rootItems := item
  clustered := of_decide_eq_true rfl

/-- All blocks are allocated, one by one, and twelve of them released that lie apart. -/
def apartSystem : LoadSystem :=
  .beside (.fresh ((Machine.filled 25600).punctured 12) (programVolume (fileItem 0 0x20) []))

/-- A load that finds no blocks for the image reports success, and stores nothing. -/
theorem LoadSystem.elfLoad_unserved {machine : Machine} (sound : machine.HeapSound)
    (room : 9 ≤ machine.freeBlocks.card)
    (live : ∀ i < 25600, i % 2 = 1 → machine.live (poolBlock i) ≠ none) {volume : Volume}
    {bytes : List Byte} (file : FileSystem.NamesFile volume [0x61])
    (item : FileSystem.FindsItem volume [0x61] bytes)
    (two : 2 ≤ (heapRequest (itemFilesize bytes)).toNat) (process : Word) :
    (∃ next, (LoadSystem.beside (.fresh machine volume)).elfLoad process pathA =
        some (0, none, next)) ∧
      ¬ (LoadSystem.beside (.fresh machine volume)).Delivers process pathA := by
  obtain ⟨opened, opens, clean, after, kept, -, -, serves⟩ :=
    LoadSystem.elfOpened_fresh sound room file item
  have found : ((LoadSystem.beside (.fresh machine volume)).kernel.kzalloc .elfFile
      sizeofElfFile).1 ≠ null :=
    (sound.kzalloc_block .elfFile (show 1 ≤ sizeofElfFile.toNat by decide) (by decide)
      (Finset.card_pos.mp (by omega))).1
  obtain ⟨-, -, empty⟩ := LoadSystem.elfOpened_record
    (show (LoadSystem.beside (.fresh machine volume)).kernel.machine.HeapSound from sound) found
    opens clean
  generalize LoadSystem.beside (.fresh machine volume) = system at opens found empty ⊢
  obtain ⟨label, reached, place, outcome⟩ := LoadSystem.elfLoadLabel_outcome process opens empty
  have size : opened.fs.filesizeOf 1 = itemFilesize bytes := congrArg itemFilesize serves.copied
  have none : (opened.fileBuffer process 1).1 = null := by
    by_contra isImage
    rw [← size] at two
    refine after.not_findsBlocks (fun i inside odd => kept _ (live i inside odd)) two ?_
    exact (opened.kernel.machine.kzalloc_ne_null_iff (.image process) _).mp isImage
  cases outcome with
  | unopened other => exact absurd serves.opens other
  | refused _ isImage => exact absurd none isImage
  | stored _ isImage => exact absurd none isImage
  | unserved _ _ status nothing =>
      refine ⟨⟨label.out.2.2, ?_⟩, ?_⟩
      · rw [LoadSystem.elfLoad_eq process pathA found, reached, Option.map_some]
        exact congrArg some (Prod.ext (label.out_status.trans status)
          (Prod.ext (label.out_file.trans nothing) rfl))
      · rw [LoadSystem.delivers_iff_of_succeeds found reached status opens]
        rintro ⟨_, stored, _⟩
        cases nothing.symm.trans stored

/-- A file of two blocks is opened, and there are no two free blocks in a row. -/
theorem elf_load_delivers_fails :
    (∃ next, apartSystem.elfLoad null pathA = some (0, none, next)) ∧
      ¬ apartSystem.Delivers null pathA := by
  obtain ⟨sound, -, live⟩ := Machine.filled_sound le_rfl
  unfold apartSystem
  generalize Machine.filled 25600 = machine at sound live ⊢
  have within : 2 * 12 ≤ 25600 := by decide
  obtain ⟨soundApart, -, liveApart⟩ := Machine.punctured_sound sound live within
  have card := Machine.punctured_card sound live within
  exact LoadSystem.elfLoad_unserved soundApart (by omega)
    (fun i inside odd => liveApart i inside (.inl odd)) ⟨0, by decide, by decide⟩
    (show FileSystem.FindsItem _ [0x61] (fileItem 0 0x20) from ⟨0, by decide, by decide⟩)
    (by decide) null

/-- A load stores an image that it finds blocks for, reads and accepts. -/
theorem LoadSystem.elfLoad_stores {system opened : LoadSystem} {process : Word}
    {filename : List Byte} {fd : Int}
    (found : (system.kernel.kzalloc .elfFile sizeofElfFile).1 ≠ null)
    (opens : system.elfOpened filename = some (fd, opened))
    (empty : opened.kernel.elfFileAt (system.kernel.kzalloc .elfFile sizeofElfFile).1 =
      ElfFile.zero)
    (isOpen : opened.fs.OpensFile fd) (isImage : (opened.fileBuffer process fd).1 ≠ null)
    (readable : opened.fs.Readable fd) (accepted : 0 ≤ (opened.processedImage process fd).1) :
    ∃ elfFile next, system.elfLoad process filename = some (0, some elfFile, next) := by
  obtain ⟨label, reached, place, outcome⟩ := LoadSystem.elfLoadLabel_outcome process opens empty
  cases outcome with
  | unopened other => exact absurd isOpen other
  | unserved _ isNull => exact absurd isNull isImage
  | refused _ _ reason => exact absurd (reason readable) (not_lt.mpr accepted)
  | stored _ _ _ _ succeeds file =>
      refine ⟨label.elfFile, label.out.2.2, ?_⟩
      rw [LoadSystem.elfLoad_eq process filename found, reached, Option.map_some]
      exact congrArg some (Prod.ext (label.out_status.trans succeeds)
        (Prod.ext (label.out_file.trans file) rfl))

/-- The volume with an executable of one segment. -/
def plainVolume : Volume := programVolume (fileItem 96 0) ((List.range 96).map plainElf)

theorem plainVolume_image {k : ℕ} (inside : k < 96) :
    plainVolume.disk.image (plainVolume.clusterStart 2 + k) = plainElf k := by
  have start : plainVolume.clusterStart 2 = 3 * phixSectorSize := by decide
  have sector : (3 * phixSectorSize + k) / phixSectorSize = 3 := by
    unfold phixSectorSize
    omega
  have place : (3 * phixSectorSize + k) % phixSectorSize = k := by
    unfold phixSectorSize
    omega
  unfold Disk.image
  rw [start, sector, place]
  change ((List.range 96).map plainElf).getD k 0 = plainElf k
  simp [inside]

/-- The file is read from its cluster. -/
theorem plainVolume_oneCluster {fs : FileSystem} {fd : Int} (volume : fs.volume = plainVolume)
    (serves : fs.ServesFile fd (fileItem 96 0)) : fs.OneCluster fd 2 := by
  have cluster : fs.firstClusterOf fd = 2 := by
    unfold FileSystem.firstClusterOf
    rw [serves.copied]
    decide
  have size : fs.filesizeOf fd = 96 := by
    unfold FileSystem.filesizeOf
    rw [serves.copied]
    decide
  refine ⟨?_, serves.atStart, ?_, ?_, ?_, ?_⟩
  · rw [volume]
    rfl
  · rw [cluster]
    rfl
  · rw [volume]
    exact ⟨le_rfl, by decide⟩
  · rw [volume]
    decide
  · rw [volume, size]
    decide

/-- What is read of it is accepted. -/
theorem plainVolume_accepted {opened : LoadSystem} {process : Word} {fd : Int}
    (volume : opened.fs.volume = plainVolume) (serves : opened.fs.ServesFile fd (fileItem 96 0))
    (readable : opened.fs.Readable fd) : 0 ≤ (opened.processedImage process fd).1 := by
  have single := plainVolume_oneCluster volume serves
  have size : opened.fs.filesizeOf fd = 96 := by
    unfold FileSystem.filesizeOf
    rw [serves.copied]
    decide
  have shows : Shows (opened.imageMemory process fd) (opened.fileBuffer process fd).1
      (FileAnswers.ofFile 96 plainElf).file 96 := by
    intro k inside
    have small : k.toNat < 96 := inside
    rw [LoadSystem.imageMemory_apply serves.opens readable
      (show k < opened.fs.filesizeOf fd by rw [size]; exact inside), single.delivered, size,
        Slices.getD_slice _ inside, volume, plainVolume_image small]
    exact (if_pos inside).symm
  have accepted := ((shows.accepted_iff plainElf_loadable.complete).mpr plainElf_loadable.accepted)
  have signature := plainElf_loadable.signature
  rw [← shows.elfValidSignature plainElf_loadable.complete.header] at signature
  have place : ({ ElfFile.zero with elfMemory := (opened.fileBuffer process fd).1 } :
      ElfFile).elfMemory = (opened.fileBuffer process fd).1 := rfl
  rw [← place] at accepted signature
  exact (accepted.elfProcessLoaded signature).ge

/-- The executable is loaded on a machine with an empty heap. -/
theorem elf_load_delivers_iff_plain :
    let system := LoadSystem.beside (.fresh (Machine.booted fun _ => 0) plainVolume)
    system.Delivers null pathA ∧
      ∃ elfFile next, system.elfLoad null pathA = some (0, some elfFile, next) := by
  have sound := Machine.booted_sound fun _ => 0
  have card := Machine.booted_card fun _ => 0
  generalize Machine.booted (fun _ => 0) = machine at sound card ⊢
  obtain ⟨opened, opens, clean, after, -, room, volume, serves⟩ :=
    LoadSystem.elfOpened_fresh sound (by omega)
      (show FileSystem.NamesFile plainVolume [0x61] from ⟨0, by decide, by decide⟩)
      (show FileSystem.FindsItem _ [0x61] (fileItem 96 0) from ⟨0, by decide, by decide⟩)
  have cluster := plainVolume_oneCluster volume serves
  have size : opened.fs.filesizeOf 1 = 96 := by
    unfold FileSystem.filesizeOf
    rw [serves.copied]
    decide
  have isImage : (opened.fileBuffer null 1).1 ≠ null := by
    unfold LoadSystem.fileBuffer
    rw [size]
    exact (after.kzalloc_block (.image null) (show 1 ≤ (96 : Word).toNat by decide) (by decide)
      (Finset.card_pos.mp (by omega))).1
  have readable := cluster.readable (show opened.fs.filesizeOf 1 ≠ 0 by rw [size]; decide)
  have accepted : 0 ≤ (opened.processedImage null 1).1 :=
    plainVolume_accepted volume serves readable
  have found : ((LoadSystem.beside (.fresh machine plainVolume)).kernel.kzalloc .elfFile
      sizeofElfFile).1 ≠ null :=
    (sound.kzalloc_block .elfFile (show 1 ≤ sizeofElfFile.toNat by decide) (by decide)
      (Finset.card_pos.mp (by omega))).1
  have soundSystem : (LoadSystem.beside (.fresh machine plainVolume)).kernel.machine.HeapSound :=
    sound
  obtain ⟨-, -, empty⟩ := LoadSystem.elfOpened_record soundSystem found opens clean
  refine ⟨(elf_load_delivers_iff soundSystem fun _ _ same => ?_).mpr (.inr ⟨1, opened, opens,
    fun _ => ⟨?_, fun _ _ => ⟨_, cluster.content, fun k _ => ?_⟩⟩⟩), ?_⟩
  · cases opens.symm.trans same
    exact clean
  · exact (opened.kernel.machine.kzalloc_ne_null_iff (.image null) _).mp isImage
  · rw [cluster.delivered]
  · exact LoadSystem.elfLoad_stores found opens empty serves.opens isImage readable accepted

end Phix
