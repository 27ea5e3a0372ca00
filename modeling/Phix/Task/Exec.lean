import Phix.Fs.Names
import Phix.Task.Traceless

/-! # The path of the exec system call

`syscall6_process_load_start` keeps the path of the program in an array of `PHIX_MAX_PATH` bytes
that starts with "0:/", and lets `copy_string_from_task` write as many bytes behind these three. The
path stays inside the array exactly when the string of the task is short enough to leave room for
them (`Phix.syscall6_path_iff`).
-/

namespace Phix

open Strings ByteMemory

/-- `strlen` of a string in memory. -/
def strlen (memory : ByteMemory) (str : Word) : ℕ :=
  length (fun i => memory (str + BitVec.ofNat 32 i)) (2 ^ 32)

/-- The loop of `sto_lower`: the first `i` bytes. -/
def stoLower.loop (str : Word) : ℕ → ByteMemory → ByteMemory
  | 0, memory => memory
  | i + 1, memory =>
      let memory := stoLower.loop str i memory
      Function.update memory (str + BitVec.ofNat 32 i) (toLower (memory (str + BitVec.ofNat 32 i)))

def stoLower (memory : ByteMemory) (str : Word) : ByteMemory :=
  stoLower.loop str (strlen memory str) memory

/-- `task_get_stack_item`, through the page directory of the task. -/
def Machine.taskGetStackItem (machine : Machine) (chunk esp index : Word) : Option Word := do
  let find := walk (machine.memory.load32 chunk) machine.memory
  let p := esp + 4 * index
  let first ← find p
  let second ← find (p + 1)
  let third ← find (p + 2)
  let fourth ← find (p + 3)
  some (machine.memory fourth ++ machine.memory third ++ machine.memory second ++
    machine.memory first)

/-- The array `filename` at the start of the call: "0:/" and zeros. -/
def filenameBytes : ℕ → Byte
  | 0 => 0x30
  | 1 => 0x3A
  | 2 => 0x2F
  | _ => 0

/-- The stack frame of `syscall6_process_load_start`, with the array at `filename`. -/
def Machine.syscall6Frame (machine : Machine) (filename : Word) : Machine :=
  { machine with memory := machine.memory.write filename filenameBytes phixMaxPath }

/-- `syscall6_process_load_start` up to its call of `process_load_switch`, which is made when the
status is not negative, with the path at `filename`; `esp` is the stack pointer of the task. -/
def Machine.syscall6Path (machine : Machine) (chunk esp filename : Word) :
    Option (Int × Machine) := do
  let machine := machine.syscall6Frame filename
  let filenameUserPtr ← machine.taskGetStackItem chunk esp 0
  let (ret, machine) ← machine.copyStringFromTask chunk filenameUserPtr (filename + 3) phixMaxPath
  if ret < 0 then some (ret, machine)
  else some (ret, { machine with memory := stoLower machine.memory filename })

/-- The path of a program: "0:/" and the string in lower case. -/
def pathBytes (string : ℕ → Byte) : ℕ → Byte
  | 0 => 0x30
  | 1 => 0x3A
  | 2 => 0x2F
  | i + 3 => toLower (string i)

theorem pathBytes_ne_zero {string : ℕ → Byte} {total i : ℕ} (nonzero : ∀ i < total, string i ≠ 0)
    (inside : i < 3 + total) : pathBytes string i ≠ 0 := by
  rcases lt_or_ge i 3 with small | large
  · have start : pathBytes string i = filenameBytes i := by
      interval_cases i <;> rfl
    rw [start]
    interval_cases i <;> decide
  · obtain ⟨j, rfl⟩ := Nat.exists_eq_add_of_le' large
    exact fun stops => nonzero j (by omega) (toLower_eq_zero.mp stops)

/-- The call stays inside its array and hands over the path, which is cut if need be and ends in
the array. -/
structure HandsPath (machine last : Machine) (tmp filename : Word) (string : ℕ → Byte)
    (total : ℕ) : Prop where
  inside : ∀ x, phixMaxPath ≤ (x - filename).toNat → pageNumber x ≠ pageNumber tmp →
    last.memory x = machine.memory x
  path : ∃ shown ≤ total, 3 + shown < phixMaxPath ∧
    (∀ i < 3 + shown, last.memory (filename + BitVec.ofNat 32 i) = pathBytes string i) ∧
      last.memory (filename + BitVec.ofNat 32 (3 + shown)) = 0

section Lower

variable {memory : ByteMemory} {str : Word}

theorem stoLower_loop_eq {n : ℕ} (bound : n ≤ 2 ^ 32) :
    stoLower.loop str n memory =
      memory.write str (fun i => toLower (memory (str + BitVec.ofNat 32 i))) n := by
  induction n with
  | zero => rfl
  | succ n ih =>
      have offset : (str + BitVec.ofNat 32 n - str).toNat = n := by
        rw [add_sub_cancel_left, BitVec.toNat_ofNat]
        omega
      rw [stoLower.loop, ih (by omega), ByteMemory.write, memory.write_apply str _ (by omega),
        offset, if_neg (lt_irrefl n)]

/-- `sto_lower` of a string with `n` bytes before its zero byte. -/
theorem stoLower_eq {n : ℕ} (bound : n < 2 ^ 32)
    (bytes : ∀ i < n, memory (str + BitVec.ofNat 32 i) ≠ 0)
    (last : memory (str + BitVec.ofNat 32 n) = 0) :
    stoLower memory str =
      memory.write str (fun i => toLower (memory (str + BitVec.ofNat 32 i))) n := by
  have count : strlen memory str = n :=
    (length_eq_min bytes last).trans (Nat.min_eq_left bound.le)
  rw [stoLower, count]
  exact stoLower_loop_eq bound.le

end Lower

/-- A write that spares the chunk and the block table. -/
theorem Machine.TaskPages.write {machine : Machine} {chunk : Word} {directory : PageDirectory}
    (pages : machine.TaskPages chunk directory) {memory : ByteMemory}
    (atChunk : ∀ x, pageNumber x = pageNumber chunk → memory x = machine.memory x)
    (frames : ∀ x, pageNumber x ∈ directory.frames → memory x = machine.memory x)
    (entries : ∀ i < 25600, memory (entryAddress i) = machine.memory (entryAddress i)) :
    ({ machine with memory } : Machine).TaskPages chunk directory where
  sound := HeapInv.congr pages.sound rfl rfl entries
  clear := pages.clear.of_entries fun i inside => .inl (entries i inside)
  has := by
    have chunkAt := pages.has.chunkAt pages.sound
    have after : ChunkAt memory chunk directory := chunkAt.congr fun x place =>
      place.elim (atChunk x) fun base => frames x (.inl base)
    exact ⟨pages.has.held, pages.has.base, pages.has.tables, after.root, after.wired.pointers⟩
  present := by
    have wired := (pages.has.chunkAt pages.sound).wired
    exact wired.present_congr pages.present fun x base => frames x (.inl base)

section Frame

variable {machine : Machine} {chunk tmp filename : Word} {directory : PageDirectory}

/-- Only the array is written. -/
theorem Machine.syscall6Frame_apply (machine : Machine) (filename x : Word) :
    (machine.syscall6Frame filename).memory x =
      if (x - filename).toNat < phixMaxPath then filenameBytes (x - filename).toNat
      else machine.memory x :=
  machine.memory.write_apply filename filenameBytes (by decide) x

theorem Machine.TaskPages.syscall6Frame (pages : machine.TaskPages chunk directory)
    (spare : SpareBytes chunk tmp directory filename phixMaxPath) :
    (machine.syscall6Frame filename).TaskPages chunk directory := by
  refine pages.write (fun x atChunk => ?_) (fun x frame => ?_) fun i inside => ?_
  · refine (machine.syscall6Frame_apply filename x).trans (if_neg fun near => ?_)
    exact (spare.of_near near).2.1 atChunk
  · refine (machine.syscall6Frame_apply filename x).trans (if_neg fun near => ?_)
    exact (spare.of_near near).2.2.1 frame
  · refine (machine.syscall6Frame_apply filename _).trans (if_neg fun near => ?_)
    exact (spare.of_near near).2.2.2 i inside rfl

end Frame

/-- What `sto_lower` makes of "0:/" with a string behind it. -/
theorem stoLower_path {memory : ByteMemory} {filename : Word} {string : ℕ → Byte} {count : ℕ}
    (fits : 3 + count < 2 ^ 32)
    (start : ∀ i < 3, memory (filename + BitVec.ofNat 32 i) = filenameBytes i)
    (bytes : ∀ i < count, memory (filename + BitVec.ofNat 32 (3 + i)) = string i)
    (nonzero : ∀ i < count, string i ≠ 0)
    (last : memory (filename + BitVec.ofNat 32 (3 + count)) = 0) (x : Word) :
    stoLower memory filename x =
      if (x - filename).toNat < 3 + count then pathBytes string (x - filename).toNat
      else memory x := by
  have prefixed : ∀ i < 3, filenameBytes i ≠ 0 ∧
      toLower (filenameBytes i) = pathBytes string i := by
    intro i small
    interval_cases i <;> exact ⟨by decide, rfl⟩
  have each : ∀ i < 3 + count, memory (filename + BitVec.ofNat 32 i) ≠ 0 ∧
      toLower (memory (filename + BitVec.ofNat 32 i)) = pathBytes string i := by
    intro i inside
    rcases lt_or_ge i 3 with small | large
    · rw [start i small]
      exact prefixed i small
    · obtain ⟨j, rfl⟩ := Nat.exists_eq_add_of_le large
      have behind : j < count := by omega
      rw [bytes j behind, Nat.add_comm 3 j]
      exact ⟨nonzero j behind, rfl⟩
  rw [stoLower_eq fits (fun i inside => (each i inside).1) last,
    memory.write_apply filename _ fits.le]
  split
  · rename_i near
    exact (each _ near).2
  · rfl

theorem filename_add (filename : Word) (i : ℕ) :
    filename + 3 + BitVec.ofNat 32 i = filename + BitVec.ofNat 32 (3 + i) := by
  rw [BitVec.ofNat_add, ← BitVec.add_assoc]
  rfl

/-- What the call leaves in memory when it hands over a path, `total` being the length of the string
of the task. -/
def Machine.PathWritten (machine last : Machine) (tmp filename : Word) (string : ℕ → Byte)
    (total : ℕ) : Prop :=
  ∀ x, pageNumber x ≠ pageNumber tmp → last.memory x =
    if (x - filename).toNat < 3 + min total (phixMaxPath - 1) then
      pathBytes string (x - filename).toNat
    else if (x - filename).toNat = 3 + min total (phixMaxPath - 1) then 0
    else (machine.syscall6Frame filename).memory x

theorem Machine.syscall6Path_eq (machine : Machine) {chunk esp filename virtual : Word}
    (pointer : (machine.syscall6Frame filename).taskGetStackItem chunk esp 0 = some virtual) :
    machine.syscall6Path chunk esp filename =
      ((machine.syscall6Frame filename).copyStringFromTask chunk virtual (filename + 3)
        phixMaxPath).bind fun result =>
          if result.1 < 0 then some result
          else some (result.1,
            { result.2 with memory := stoLower result.2.memory filename }) := by
  unfold Machine.syscall6Path
  simp only [Option.bind_eq_bind]
  rw [pointer, Option.bind_some]

section Path

variable {machine : Machine} {chunk esp filename virtual : Word} {directory : PageDirectory}
  {total : ℕ}

/-- The call, with a block to spare and a string that can be read. -/
theorem Machine.TaskPages.syscall6Path_written (pages : machine.TaskPages chunk directory)
    (spare : SpareBytes chunk ((machine.syscall6Frame filename).kzalloc .kernel
      (BitVec.ofInt 32 phixMaxPath)).1 directory filename (phixMaxPath + 3))
    (pointer : (machine.syscall6Frame filename).taskGetStackItem chunk esp 0 = some virtual)
    (free : (machine.syscall6Frame filename).freeBlocks.Nonempty)
    (nonzero : ∀ i < total, taskString (machine.syscall6Frame filename) chunk virtual i ≠ 0)
    (zero : taskString (machine.syscall6Frame filename) chunk virtual total = 0)
    (readable : Readable (machine.syscall6Frame filename) directory
      ((machine.syscall6Frame filename).kzalloc .kernel (BitVec.ofInt 32 phixMaxPath)).1 virtual
      (taskPlace (machine.syscall6Frame filename) chunk virtual) (min total (phixMaxPath - 1))) :
    ∃ last, machine.syscall6Path chunk esp filename = some (0, last) ∧
      machine.PathWritten last ((machine.syscall6Frame filename).kzalloc .kernel
        (BitVec.ofInt 32 phixMaxPath)).1 filename
        (taskString (machine.syscall6Frame filename) chunk virtual) total := by
  have limit : phixMaxPath = 108 := rfl
  have framed := pages.syscall6Frame (spare.mono (Nat.le_add_right _ _))
  have count : length (taskString (machine.syscall6Frame filename) chunk virtual)
      (phixMaxPath - 1) = min total (phixMaxPath - 1) := length_eq_min nonzero zero
  have shifted : SpareBytes chunk ((machine.syscall6Frame filename).kzalloc .kernel
      (BitVec.ofInt 32 phixMaxPath)).1 directory (filename + 3) phixMaxPath := by
    refine ⟨fun i inside => ?_, fun i inside => ?_, fun i inside => ?_, fun i inside => ?_⟩ <;>
      rw [filename_add]
    · exact spare.block (3 + i) (by omega)
    · exact spare.chunk (3 + i) (by omega)
    · exact spare.directory (3 + i) (by omega)
    · exact spare.table (3 + i) (by omega)
  obtain ⟨last, copied, string, terminator, same⟩ :=
    framed.copyStringFromTask_string (by decide) (by decide) free (count ▸ readable) shifted
  have ends : last.memory (filename + 3 + BitVec.ofNat 32 (length (taskString
      (machine.syscall6Frame filename) chunk virtual) (phixMaxPath - 1))) = 0 := terminator
  rw [count, filename_add] at ends
  have offset {i : ℕ} (small : i < 4096) : (filename + BitVec.ofNat 32 i - filename).toNat = i := by
    rw [add_sub_cancel_left, ofNat_toNat small]
  have three : (3 : Word).toNat = 3 := rfl
  have start : ∀ i < 3, last.memory (filename + BitVec.ofNat 32 i) = filenameBytes i := by
    intro i small
    rw [same _ (spare.block i (by omega)) ?_, machine.syscall6Frame_apply, offset (by omega),
      if_pos (by omega)]
    have back : filename + BitVec.ofNat 32 i - (filename + 3) = BitVec.ofNat 32 i - 3 :=
      add_sub_add_left_eq_sub ..
    have bound := length_le (taskString (machine.syscall6Frame filename) chunk virtual)
      (phixMaxPath - 1)
    rw [back, BitVec.toNat_sub, ofNat_toNat (by omega), three]
    refine lt_of_le_of_lt bound ?_
    omega
  have path := stoLower_path (by omega) start
    (fun i inside => filename_add filename i ▸ string i (count.symm ▸ inside))
    (fun i inside => nonzero i (by omega)) ends
  rw [machine.syscall6Path_eq pointer, copied, Option.bind_some]
  refine ⟨_, rfl, fun x apart => (path x).trans ?_⟩
  split
  · rfl
  · rename_i beyond
    split
    · rename_i stops
      have place : filename + BitVec.ofNat 32 (x - filename).toNat = x := by
        rw [BitVec.ofNat_toNat, BitVec.setWidth_eq, add_sub_cancel]
      rw [stops] at place
      exact place ▸ ends
    · rename_i behind
      refine same x apart (count.trans_lt ?_)
      rw [sub_add_eq_sub_sub, BitVec.toNat_sub, three]
      omega

/-- The path is handed over inside the array exactly if it fits. -/
theorem handsPath_iff {last : Machine} {tmp : Word} {string : ℕ → Byte}
    (written : machine.PathWritten last tmp filename string total)
    (nonzero : ∀ i < total, string i ≠ 0)
    (block : ∀ i < phixMaxPath, pageNumber (filename + BitVec.ofNat 32 i) ≠ pageNumber tmp) :
    HandsPath machine last tmp filename string total ↔ total ≤ phixMaxPath - 4 := by
  have limit : phixMaxPath = 108 := rfl
  have byte {i : ℕ} (inside : i < phixMaxPath) := written _ (block i inside)
  have offset {i : ℕ} (small : i < 4096) : (filename + BitVec.ofNat 32 i - filename).toNat = i := by
    rw [add_sub_cancel_left, ofNat_toNat small]
  constructor
  · intro hands
    obtain ⟨shown, within, room, -, stops⟩ := hands.path
    by_contra long
    rw [byte room, offset (by omega), if_pos (by omega)] at stops
    exact pathBytes_ne_zero nonzero (by omega) stops
  · intro short
    have whole : min total (phixMaxPath - 1) = total := by omega
    refine ⟨fun x outside apart => ?_, total, le_rfl, by omega, fun i inside => ?_, ?_⟩
    · rw [written x apart, if_neg (by omega), if_neg (by omega), machine.syscall6Frame_apply,
        if_neg (not_lt.mpr outside)]
    · rw [byte (by omega), offset (by omega), whole, if_pos inside]
    · rw [byte (by omega), offset (by omega), whole, if_neg (lt_irrefl _), if_pos rfl]

end Path

/-- **The exec system call stays inside its buffer, and hands over the path, exactly for strings of
at most `PHIX_MAX_PATH - 4` bytes.** The array is spare memory of the kernel, and so are the bytes
behind it that the copy may reach. -/
theorem syscall6_path_iff {machine : Machine} {chunk : Word} {directory : PageDirectory}
    (pages : machine.TaskPages chunk directory) (esp filename : Word) :
    let started := machine.syscall6Frame filename
    let tmp := (started.kzalloc .kernel (BitVec.ofInt 32 phixMaxPath)).1
    SpareBytes chunk tmp directory filename (phixMaxPath + 3) →
    ∀ virtual, started.taskGetStackItem chunk esp 0 = some virtual →
    (started.freeBlocks = ∅ →
      ∃ last, machine.syscall6Path chunk esp filename = some (-ENOMEM, last)) ∧
    (started.freeBlocks.Nonempty →
      ∀ total, (∀ i < total, taskString started chunk virtual i ≠ 0) →
        taskString started chunk virtual total = 0 →
        Readable started directory tmp virtual (taskPlace started chunk virtual)
          (min total (phixMaxPath - 1)) →
        ∃ last, machine.syscall6Path chunk esp filename = some (0, last) ∧
          (HandsPath machine last tmp filename (taskString started chunk virtual) total ↔
            total ≤ phixMaxPath - 4)) := by
  intro started tmp spare virtual pointer
  refine ⟨fun none => ?_, fun free total nonzero zero readable => ?_⟩
  · have null := (started.kzalloc_eq_null_iff .kernel
      (by decide : 1 ≤ (BitVec.ofInt 32 phixMaxPath).toNat) (by decide)).mpr none
    have refused : started.copyStringFromTask chunk virtual (filename + 3) phixMaxPath =
        some (-ENOMEM, (started.kzalloc .kernel (BitVec.ofInt 32 phixMaxPath)).2) := by
      unfold Machine.copyStringFromTask
      rw [if_neg (by decide)]
      exact if_pos null
    rw [machine.syscall6Path_eq pointer, refused]
    exact ⟨_, rfl⟩
  · obtain ⟨last, called, written⟩ :=
      pages.syscall6Path_written spare pointer free nonzero zero readable
    refine ⟨last, called, handsPath_iff written nonzero fun i inside => ?_⟩
    exact spare.block i (by omega)

/-- A task with a string of `n` bytes "A" at `0x1000`, whose address is on top of its stack at
`0x3000`. -/
def execMemory (n : ℕ) : ByteMemory := fun x =>
  if (x - 0x1000).toNat < n then 0x41 else if x = 0x3001 then 0x10 else 0

theorem Machine.freeBlocks_of_entries {machine other : Machine}
    (entries : ∀ i < 25600, other.memory (entryAddress i) = machine.memory (entryAddress i)) :
    other.freeBlocks = machine.freeBlocks := by
  ext i
  rw [Machine.mem_freeBlocks, Machine.mem_freeBlocks]
  refine and_congr_right fun inside => ?_
  have entry : (kernelHeap other.memory).table.entries i =
      (kernelHeap machine.memory).table.entries i := entries i inside
  unfold HeapTable.IsFree
  rw [entry]

/-- The call of that task, its array at `0x2000`. -/
theorem Machine.booted_exec {n : ℕ} (bound : n < 4096) : ∃ chunk directory machine,
    (Machine.booted (execMemory n)).pagingNewChunk 5 = some (chunk, machine) ∧
      machine.TaskPages chunk directory ∧
      (∀ x : Word, x.toNat < 0x7E00 → machine.memory x = execMemory n x) ∧
      let started := machine.syscall6Frame 0x2000
      let tmp := (started.kzalloc .kernel (BitVec.ofInt 32 phixMaxPath)).1
      SpareBytes chunk tmp directory 0x2000 (phixMaxPath + 3) ∧
      started.taskGetStackItem chunk 0x3000 0 = some 0x1000 ∧ started.freeBlocks.Nonempty ∧
      (∀ i < n, taskString started chunk 0x1000 i = 0x41) ∧
      taskString started chunk 0x1000 n = 0 ∧
      Readable started directory tmp 0x1000 (taskPlace started chunk 0x1000)
        (min n (phixMaxPath - 1)) := by
  have limit : phixMaxPath = 108 := rfl
  obtain ⟨chunk, directory, machine, made, pages, free, identity, memory⟩ :=
    Machine.booted_task (execMemory n)
  refine ⟨chunk, directory, machine, made, pages, memory, ?_⟩
  have lower : 1 ≤ (BitVec.ofInt 32 phixMaxPath).toNat := by decide
  have upper : (BitVec.ofInt 32 phixMaxPath).toNat < 4096 := by decide
  obtain ⟨found, -⟩ := pages.sound.kzalloc_block .kernel lower upper.le free
  have array : SpareBytes chunk (machine.kzalloc .kernel (BitVec.ofInt 32 phixMaxPath)).1 directory
      0x2000 phixMaxPath :=
    pages.spare (pages.temporary lower upper found) (by decide) (by decide)
  have framed := pages.syscall6Frame array
  have same {x : Word} (far : ¬ (x - 0x2000).toNat < phixMaxPath) :
      (machine.syscall6Frame 0x2000).memory x = machine.memory x :=
    (machine.syscall6Frame_apply 0x2000 x).trans (if_neg far)
  have blocks : (machine.syscall6Frame 0x2000).freeBlocks = machine.freeBlocks :=
    Machine.freeBlocks_of_entries fun i inside =>
      same fun near => (array.of_near near).2.2.2 i inside rfl
  have space : directory.space (machine.syscall6Frame 0x2000).memory =
      AddressSpace.identity (flagWord 5) := by
    rw [← identity]
    funext v
    refine (pages.has.chunkAt pages.sound).wired.entry_congr (fun x table => same fun near => ?_) v
    exact (array.of_near near).2.2.1 (.inr table)
  have available : (machine.syscall6Frame 0x2000).freeBlocks.Nonempty := by
    rw [blocks]
    exact free
  obtain ⟨granted, -⟩ := framed.sound.kzalloc_block .kernel lower upper.le available
  have temporary := framed.temporary lower upper granted
  have walks := framed.identity_walk space
  have string (i : ℕ) : taskString (machine.syscall6Frame 0x2000) chunk 0x1000 i =
      (machine.syscall6Frame 0x2000).memory (0x1000 + BitVec.ofNat 32 i) := by
    rw [taskString, taskPlace, (walks _).2]
  have place {i : ℕ} (inside : i ≤ n) : (0x1000 + BitVec.ofNat 32 i : Word).toNat = 0x1000 + i := by
    rw [BitVec.toNat_add, ofNat_toNat (by omega)]
    change (0x1000 + i) % 2 ^ 32 = _
    omega
  have user {i : ℕ} (inside : i ≤ n) :
      taskString (machine.syscall6Frame 0x2000) chunk 0x1000 i = if i < n then 0x41 else 0 := by
    have apart : ¬ (0x1000 + BitVec.ofNat 32 i - 0x2000 : Word).toNat < phixMaxPath := by
      rw [BitVec.toNat_sub, place inside]
      change ¬ (2 ^ 32 - 0x2000 + (0x1000 + i)) % 2 ^ 32 < 108
      omega
    have offset : (0x1000 + BitVec.ofNat 32 i - 0x1000 : Word).toNat = i := by
      rw [add_sub_cancel_left, ofNat_toNat (by omega)]
    have notStack : (0x1000 + BitVec.ofNat 32 i : Word) ≠ 0x3001 := fun equal => by
      have value := congrArg BitVec.toNat equal
      rw [place inside] at value
      change 0x1000 + i = 0x3001 at value
      omega
    rw [string, same apart, memory _ (by rw [place inside]; omega), execMemory, offset,
      if_neg notStack]
  refine ⟨framed.spare temporary (by decide) (by decide), ?_, available,
    fun i inside => (user inside.le).trans (if_pos inside),
    (user le_rfl).trans (if_neg (lt_irrefl n)),
    framed.readable temporary space fun i inside => ?_⟩
  · have stack (x : Word) (above : 0x3000 ≤ x.toNat) (below : x.toNat < 0x7E00) :
        (machine.syscall6Frame 0x2000).memory x = if x = 0x3001 then 0x10 else 0 := by
      have apart : ¬ (x - 0x2000).toNat < phixMaxPath := by
        rw [BitVec.toNat_sub]
        change ¬ (2 ^ 32 - 0x2000 + x.toNat) % 2 ^ 32 < 108
        omega
      refine (same apart).trans ((memory x below).trans (if_neg ?_))
      rw [BitVec.toNat_sub]
      change ¬ (2 ^ 32 - 0x1000 + x.toNat) % 2 ^ 32 < n
      omega
    unfold Machine.taskGetStackItem
    rw [framed.has.root]
    simp only [(walks _).1, Option.bind_eq_bind, Option.bind_some]
    rw [stack _ (by decide) (by decide), stack _ (by decide) (by decide),
      stack _ (by decide) (by decide), stack _ (by decide) (by decide)]
    rfl
  · rw [place (by omega)]
    omega

/-- The longest string for which the call stays inside its array. -/
theorem syscall6_path_iff_booted : ∃ chunk machine last,
    (Machine.booted (execMemory 104)).pagingNewChunk 5 = some (chunk, machine) ∧
      machine.syscall6Path chunk 0x3000 0x2000 = some (0, last) ∧
      HandsPath machine last ((machine.syscall6Frame 0x2000).kzalloc .kernel
        (BitVec.ofInt 32 phixMaxPath)).1 0x2000
        (taskString (machine.syscall6Frame 0x2000) chunk 0x1000) 104 := by
  obtain ⟨chunk, directory, machine, made, pages, -, spare, pointer, free, user, zero, readable⟩ :=
    Machine.booted_exec (by decide : 104 < 4096)
  have nonzero : ∀ i < 104, taskString (machine.syscall6Frame 0x2000) chunk 0x1000 i ≠ 0 :=
    fun i inside => by
      rw [user i inside]
      decide
  obtain ⟨last, called, hands⟩ :=
    (syscall6_path_iff pages 0x3000 0x2000 spare 0x1000 pointer).2 free 104 nonzero zero readable
  exact ⟨chunk, machine, last, made, called, hands.mpr (by decide)⟩

/-- With a string of 106 bytes, the call writes the byte behind its array and hands over a path that
does not end in it. -/
theorem syscall6_path_overruns : ∃ chunk directory machine last,
    (Machine.booted (execMemory 106)).pagingNewChunk 5 = some (chunk, machine) ∧
      machine.TaskPages chunk directory ∧
      let started := machine.syscall6Frame 0x2000
      let tmp := (started.kzalloc .kernel (BitVec.ofInt 32 phixMaxPath)).1
      SpareBytes chunk tmp directory 0x2000 (phixMaxPath + 3) ∧
      machine.syscall6Path chunk 0x3000 0x2000 = some (0, last) ∧
      (∀ i < 106, taskString started chunk 0x1000 i = 0x41) ∧
      taskString started chunk 0x1000 106 = 0 ∧
      last.memory (0x2000 + BitVec.ofNat 32 phixMaxPath) ≠
        machine.memory (0x2000 + BitVec.ofNat 32 phixMaxPath) ∧
      ∀ i < phixMaxPath, last.memory (0x2000 + BitVec.ofNat 32 i) ≠ 0 := by
  have limit : phixMaxPath = 108 := rfl
  obtain ⟨chunk, directory, machine, made, pages, memory, spare, pointer, free, user, zero,
    readable⟩ := Machine.booted_exec (by decide : 106 < 4096)
  have letter : (0x41 : Byte) ≠ 0 := by decide
  have nonzero : ∀ i < 106, taskString (machine.syscall6Frame 0x2000) chunk 0x1000 i ≠ 0 :=
    fun i inside => (user i inside).symm ▸ letter
  obtain ⟨last, called, written⟩ :=
    pages.syscall6Path_written spare pointer free nonzero zero readable
  have byte {i : ℕ} (inside : i < 109) : last.memory (0x2000 + BitVec.ofNat 32 i) =
      pathBytes (taskString (machine.syscall6Frame 0x2000) chunk 0x1000) i := by
    rw [written _ (spare.block i (by omega)), add_sub_cancel_left, ofNat_toNat (by omega),
      if_pos (by omega)]
  refine ⟨chunk, directory, machine, last, made, pages, spare, called, user, zero, ?_,
    fun i inside => ?_⟩
  · rw [byte (by decide), memory _ (by decide)]
    change toLower (taskString (machine.syscall6Frame 0x2000) chunk 0x1000 105) ≠ _
    rw [user 105 (by decide)]
    decide
  · rw [byte (by omega)]
    exact pathBytes_ne_zero nonzero (by omega)

end Phix
