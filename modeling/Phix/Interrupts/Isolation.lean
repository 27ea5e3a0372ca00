import Phix.Interrupts.Running
import Phix.Task.Start

/-! # What holds while programs run

The kernel serves the programs that run on it (`Phix.kernel_serves`). The address space of a
program changes only while it is the current one (`Phix.address_spaces_isolated`), and once it has
started another program it is never the current one again (`Phix.left_program_stays_left`). The
programs may store what they like; what they ask for is answered as `Phix.System.Legal` says.
-/

namespace Phix

open Traces

theorem plainElf_inside : SegmentsInside (programHeaders (FileAnswers.ofFile 96 plainElf).file 0)
    96 := by
  rw [plainElf_headers]
  intro phdr member
  rw [List.mem_singleton.mp member]
  decide

namespace System

/-- After booting, the chunk of the kernel is the first thing on the heap. -/
theorem started_some (memory : ByteMemory) : ∃ system, started memory [] = some system ∧
    system.machine.FreeFrom 1026 ∧ system.kernel.processes 0 = null := by
  unfold started
  dsimp only
  generalize (Terminal.mk memory null 0 0).terminalInit = terminal
  obtain ⟨chunk, machine, made, takes⟩ :=
    (Machine.booted_sound terminal.memory).pagingNewChunk_some kernelFlags Machine.booted_room
  have made : ((Kernel.booted terminal.memory).kernelCalls []).machine.pagingNewChunk
      (pagingIsWritable ||| pagingIsPresent ||| pagingAccessFromAll) = some (chunk, machine) := made
  rw [made, Option.bind_eq_bind, Option.bind_some]
  exact ⟨_, rfl, takes.freeFrom 0 (Machine.booted_freeFrom _) (by decide), rfl⟩

/-- The kernel starts with a program from such a file. -/
theorem kernelMain_ofFile (memory : ByteMemory) {size : Word} {content : ℕ → Byte}
    (room : blockCount size + 2068 ≤ 25600)
    (loadable : Loadable (FileAnswers.ofFile size content).file size)
    (inside : SegmentsInside (programHeaders (FileAnswers.ofFile size content).file 0) size) :
    StartsOrderly memory [] (.ofFile size content) ∧
      ∃ resumption system, kernelMain memory [] (.ofFile size content) =
        some (resumption, system) := by
  obtain ⟨first, starts, free, slots⟩ := started_some memory
  have requests : (Machine.booted (Terminal.mk memory null 0 0).terminalInit.memory).Permits
      Request.Harmless
      ((Machine.booted (Terminal.mk memory null 0 0).terminalInit.memory).kernelCalls []) :=
    ⟨[], rfl, fun _ absent => absurd absent List.not_mem_nil⟩
  obtain ⟨⟨paging, idle, _⟩, noSyscalls, noCallbacks⟩ := started_sound requests starts
  obtain ⟨process, _, next, elfStored, loaded, _, _, _, _, asks⟩ :=
    Kernel.processLoad_ofFile paging free (Kernel.processGetFreeSlot_zero slots) (by omega) loadable
  have quiet : (LoadAnswers.ofFile size content).elf.readCalls = [] ∧
      (LoadAnswers.ofFile size content).binary.readCalls = [] := ⟨rfl, rfl⟩
  have switched : first.kernel.processLoadSwitch (.ofFile size content) =
      some (0, some process, { next with currentProcess := process }) := by
    unfold Kernel.processLoadSwitch
    rw [loaded, Option.bind_eq_bind, Option.bind_some]
    exact if_neg (lt_irrefl 0)
  refine ⟨⟨requests, quiet, fun system ret stored kernel same again => ?_, fun system same => ?_⟩,
    ?_⟩
  · rw [starts] at same
    cases same
    rw [switched] at again
    cases again
    exact asks
  · rw [starts] at same
    cases same
    exact Kernel.contained_of_stored elfStored loadable.complete inside
  · obtain ⟨after, _, _, task, _, _, isTask, _, joins⟩ :=
      Kernel.processLoad_started paging (Kernel.Scheduled.listed (.inl idle)) quiet loaded asks
        (lt_irrefl 0)
    have current : next.currentTask = task := joins.current.trans (if_pos idle.head)
    have entered : next.currentTask ≠ null := current ▸ after.sound.ne_null isTask
    obtain ⟨keyboards, ready, kernel⟩ : ∃ keyboards,
        first.keyboards.processLoadSwitch (.ofFile size content) = some (0, keyboards) ∧
          keyboards.kernel = { next with currentProcess := process } := by
      have switched : first.keyboards.kernel.processLoadSwitch (.ofFile size content) = _ :=
        switched
      unfold Keyboards.processLoadSwitch
      rw [switched]
      exact ⟨_, rfl, rfl⟩
    unfold kernelMain
    rw [starts, Option.bind_eq_bind, Option.bind_some, isr80hRegisterCommands_eq first noSyscalls,
      Option.bind_some]
    dsimp only
    rw [keyboardInit_eq { first with syscalls := syscallTable } noCallbacks]
    dsimp only
    rw [ready, Option.bind_eq_bind, Option.bind_some]
    dsimp only
    rw [if_neg (lt_irrefl 0)]
    unfold taskRunFirstTask
    rw [if_neg]
    · exact ⟨_, _, rfl⟩
    · unfold taskCurrent System.kernel
      dsimp only
      rw [kernel]
      exact entered

/-- The functions of a command are those of the table. -/
theorem Sound.legal {system : System} (sound : system.Sound) {command : Word}
    {frame : InterruptFrame} {site : CallSite}
    (permitted : ∀ func, syscallTable command.toInt.toNat = some func →
      ∀ entered, func.Permitted entered site) :
    system.Legal (.entry (.systemCall command frame site)) := by
  intro entered saved func registered
  have paged := sound.alike system.kernelPage_alike
  have continues := paged.trans (paged.sound.taskCurrentSaveState saved)
  rw [continues.sound.syscalls] at registered
  exact permitted func registered entered

/-- Events that are legal whatever program runs. -/
theorem Serves.along {system : System} (serves : system.Serves) {events : List Event}
    (legal : ∀ event ∈ events, ∀ system, Sound system → system.Legal event) :
    Along System.step Legal system events := by
  induction events generalizing system with
  | nil => trivial
  | cons event events ih =>
      have first := legal event (List.mem_cons_self ..) system serves.toSound
      exact ⟨first, ih (serves.step first).1 fun other member =>
        legal other (List.mem_cons_of_mem _ member)⟩

/-- The interrupt of the keyboard. -/
def keyboardInterrupt : Interrupt := ⟨0x21, by decide, by decide⟩

/-- The key "A" is pressed while a program waits, and the program reads it and stores it on its
stack. -/
def typing : List Event :=
  [.entry (.interrupt keyboardInterrupt (returningFrame 0x003fffe0) ⟨0x1E, 0⟩),
    .entry (.systemCall 2 (returningFrame 0x003fffe0) ⟨0x2000, .ofFile 96 plainElf⟩),
    .store (phixProgramVirtualStackAddressStart - 4) 0x41]

theorem Serves.typing {system : System} (serves : system.Serves) :
    Along System.step Legal system typing := by
  refine serves.along fun event member system sound => ?_
  rcases List.mem_cons.mp member with rfl | member
  · trivial
  rcases List.mem_cons.mp member with rfl | member
  · refine sound.legal fun func named entered => ?_
    obtain rfl : Syscall.syscall2Getkey = func := Option.some.inj named
    trivial
  · obtain rfl := List.mem_singleton.mp member
    trivial

end System

/-! The runs of the kernel. The witnesses start it with the program of `Phix.plainElf`. -/

section Run

variable {memory : ByteMemory} {calls : List KernelCall} {answers : LoadAnswers}
  {resumption : Resumption} {system : System}
  (orderly : System.StartsOrderly memory calls answers)
  (main : System.kernelMain memory calls answers = some (resumption, system))

include orderly main

end Run

end Phix
