import Phix.Foundation.Processor
import Phix.Task.Kernel

/-! # Saving and resuming a task

An interrupt from user mode pushes the registers of the interrupted program in the layout of
`struct interrupt_frame`; `task_save_state` copies them into the record of the task, and
`task_return` (`task/task.asm`) loads them back and returns to user mode. The program resumes
with all registers of the frame except `ebp` and the flags, which are those of the kernel
(`Phix.task_return_resumes_iff`).
-/

namespace Phix

open Processor ByteMemory

/-- `struct interrupt_frame`. The stack pointer that `pushad` pushes is `unused`. -/
structure InterruptFrame where
  edi : Word
  esi : Word
  ebp : Word
  unused : Word
  ebx : Word
  edx : Word
  ecx : Word
  eax : Word
  ip : Word
  cs : Word
  flags : Word
  esp : Word
  ss : Word

/-- The interrupt frame at an address. -/
def interruptFrameAt (memory : ByteMemory) (p : Word) : InterruptFrame where
  edi := memory.load32 p
  esi := memory.load32 (p + 4)
  ebp := memory.load32 (p + 8)
  unused := memory.load32 (p + 12)
  ebx := memory.load32 (p + 16)
  edx := memory.load32 (p + 20)
  ecx := memory.load32 (p + 24)
  eax := memory.load32 (p + 28)
  ip := memory.load32 (p + 32)
  cs := memory.load32 (p + 36)
  flags := memory.load32 (p + 40)
  esp := memory.load32 (p + 44)
  ss := memory.load32 (p + 48)

/-- The `struct registers` at an address. -/
def registersAt (memory : ByteMemory) (p : Word) : Registers where
  edi := memory.load32 p
  esi := memory.load32 (p + 4)
  ebp := memory.load32 (p + 8)
  ebx := memory.load32 (p + 12)
  edx := memory.load32 (p + 16)
  ecx := memory.load32 (p + 20)
  eax := memory.load32 (p + 24)
  ip := memory.load32 (p + 28)
  cs := memory.load32 (p + 32)
  flags := memory.load32 (p + 36)
  esp := memory.load32 (p + 40)
  ss := memory.load32 (p + 44)

/-- `sizeof(struct registers)`. -/
def sizeofRegisters : ℕ := 48

/-- `task_save_state`. -/
def taskSaveState (task : Task) (frame : InterruptFrame) : Task :=
  { task with
    registers :=
      { ip := frame.ip, cs := frame.cs, flags := frame.flags, esp := frame.esp, ss := frame.ss
        eax := frame.eax, ebp := frame.ebp, ebx := frame.ebx, ecx := frame.ecx
        edi := frame.edi, edx := frame.edx, esi := frame.esi } }

/-! `task/task.asm` -/

/-- Where `restore_general_purpose_registers` starts. -/
def restoreLabel : Word := 19

def taskReturn : List Instruction :=
  [.mov .ebp (.reg .esp),
    .mov .ebx (.mem .ebp 4),
    .push (.mem .ebx 44),
    .push (.mem .ebx 40),
    .pushf,
    .pop .eax,
    .or .eax 0x200,
    .push (.reg .eax),
    .push (.mem .ebx 32),
    .push (.mem .ebx 28),
    .movAx (.mem .ebx 44),
    .movSegment .ds,
    .movSegment .es,
    .movSegment .fs,
    .movSegment .gs,
    .push (.mem .ebp 4),
    .call restoreLabel,
    .add .esp 4,
    .iretd]

def restoreGeneralPurposeRegisters : List Instruction :=
  [.push (.reg .ebp),
    .mov .ebp (.reg .esp),
    .mov .ebx (.mem .ebp 8),
    .mov .edi (.mem .ebx 0),
    .mov .esi (.mem .ebx 4),
    .mov .ebp (.mem .ebx 8),
    .mov .edx (.mem .ebx 16),
    .mov .ecx (.mem .ebx 20),
    .mov .eax (.mem .ebx 24),
    .mov .ebx (.mem .ebx 12),
    .pop .ebp,
    .ret]

/-- The text of `task/task.asm`: `task_return` at its start. -/
def taskText : List Instruction := taskReturn ++ restoreGeneralPurposeRegisters

/-- `task_return` is called with a pointer to the saved registers, which lie apart from the 32
bytes it uses of the stack. -/
structure CallsTaskReturn (state : State) (registers : Registers) : Prop where
  kernel : state.cpu.privilege = 0
  entry : state.cpu.eip = 0
  saved : registersAt state.memory (state.memory.load32 (state.cpu.esp + 4)) = registers
  apart : ∀ x : Word, (x - state.memory.load32 (state.cpu.esp + 4)).toNat < sizeofRegisters →
    ApartFromStack state.cpu.esp 32 x

/-- The processor runs the program of the frame, with its registers and interrupts enabled. -/
structure Resumes (frame : InterruptFrame) (cpu : Cpu) : Prop where
  edi : cpu.edi = frame.edi
  esi : cpu.esi = frame.esi
  ebp : cpu.ebp = frame.ebp
  ebx : cpu.ebx = frame.ebx
  edx : cpu.edx = frame.edx
  ecx : cpu.ecx = frame.ecx
  eax : cpu.eax = frame.eax
  ip : cpu.eip = frame.ip
  cs : cpu.cs = frame.cs.setWidth 16
  flags : cpu.flags = frame.flags ||| 0x200
  esp : cpu.esp = frame.esp
  ss : cpu.ss = frame.ss.setWidth 16

/-- An interrupt of a user program and `pushad` leave the registers of the program in the layout
of the frame. -/
theorem interruptFrame_captured (flagsAfter : Word → Word → Word) (user : State) (esp0 : Word)
    (ss0 : BitVec 16) (handler : Word) (selector : BitVec 16) (flags : Word) :
    let captured := Instruction.pushad.exec flagsAfter
      (user.interrupt esp0 ss0 handler selector flags)
    interruptFrameAt captured.memory captured.cpu.esp =
      { edi := user.cpu.edi, esi := user.cpu.esi, ebp := user.cpu.ebp, unused := esp0 - 20,
        ebx := user.cpu.ebx, edx := user.cpu.edx, ecx := user.cpu.ecx, eax := user.cpu.eax,
        ip := user.cpu.eip, cs := user.cpu.cs.setWidth 32, flags := user.cpu.flags,
        esp := user.cpu.esp, ss := user.cpu.ss.setWidth 32 } := by
  intro captured
  have interrupted := user.interrupt_stacked esp0 ss0 handler selector flags
    (by decide : 20 ≤ 52) (by decide)
  have stacked : captured.Stacked user.memory esp0 52 _ :=
    interrupted.pushad flagsAfter (by simp) (by decide)
  rw [State.interrupt_cpu] at stacked
  dsimp only at stacked
  rw [stackPointer_eq] at stacked
  clear_value captured
  have first := stacked.load32 0 rfl
  rw [Nat.mul_zero, BitVec.add_zero] at first
  rw [interruptFrameAt, InterruptFrame.mk.injEq]
  exact ⟨first, stacked.load32 1 rfl, stacked.load32 2 rfl, stacked.load32 3 rfl,
    stacked.load32 4 rfl, stacked.load32 5 rfl, stacked.load32 6 rfl, stacked.load32 7 rfl,
    stacked.load32 8 rfl, stacked.load32 9 rfl, stacked.load32 10 rfl, stacked.load32 11 rfl,
    stacked.load32 12 rfl⟩

section Return

variable {flagsAfter : Word → Word → Word} {cpu : Cpu} {memory after : ByteMemory}
  {registers : Registers} {words : List Word} {post : State → Prop}

/-- The saved registers and the pointer to them are not on the part of the stack that
`task_return` uses. -/
theorem CallsTaskReturn.kept (calls : CallsTaskReturn ⟨cpu, memory⟩ registers)
    (pushed : Pushed memory after cpu.esp 32 words) :
    after.load32 (cpu.esp + 4) = memory.load32 (cpu.esp + 4) ∧
      registersAt after (memory.load32 (cpu.esp + 4)) = registers := by
  have pointer : after.load32 (cpu.esp + 4) = memory.load32 (cpu.esp + 4) := by
    refine pushed.load32_of_apart fun k small => ?_
    have one : (1 : Word).toNat = 1 := rfl
    have four : (4 : Word).toNat = 4 := rfl
    have := cpu.esp.isLt
    rw [ApartFromStack, BitVec.toNat_sub, BitVec.toNat_sub, BitVec.toNat_add, BitVec.toNat_add, one,
      four]
    omega
  refine ⟨pointer, ?_⟩
  rw [← calls.saved]
  change registersAt after (memory.load32 (cpu.esp + 4)) =
    registersAt memory (memory.load32 (cpu.esp + 4))
  have field (offset : Word) (inside : offset.toNat + 4 ≤ sizeofRegisters) :
      after.load32 (memory.load32 (cpu.esp + 4) + offset) =
        memory.load32 (memory.load32 (cpu.esp + 4) + offset) := by
    refine pushed.load32_of_apart fun k small => calls.apart _ ?_
    change (_ - memory.load32 (cpu.esp + 4)).toNat < sizeofRegisters
    rw [add_assoc, add_sub_cancel_left, BitVec.toNat_add]
    omega
  unfold registersAt
  rw [field 4 (by decide), field 8 (by decide), field 12 (by decide), field 16 (by decide),
    field 20 (by decide), field 24 (by decide), field 28 (by decide), field 32 (by decide),
    field 36 (by decide), field 40 (by decide), field 44 (by decide)]
  have first := field 0 (by decide)
  rw [add_zero] at first
  rw [first]

/-- What `task_return` has pushed when `restore_general_purpose_registers` starts. -/
theorem taskReturn_enters (calls : CallsTaskReturn ⟨cpu, memory⟩ registers)
    (rest : ∀ after eax ebx ds es fs gs flags,
      Pushed memory after cpu.esp 32
        [17, memory.load32 (cpu.esp + 4), registers.ip, registers.cs, cpu.flags ||| 0x200,
          registers.esp, registers.ss] →
      Leads flagsAfter taskText 14
        ⟨{ cpu with ebp := cpu.esp, esp := stackPointer cpu.esp 7, eip := restoreLabel, eax, ebx,
                    ds, es, fs, gs, flags }, after⟩ post) :
    Leads flagsAfter taskText 31 ⟨{ cpu with eip := 0 }, memory⟩ post := by
  have kernel : cpu.privilege = 0 := calls.kernel
  have empty : Pushed memory memory cpu.esp 32 [] := Pushed.nil ..
  refine Leads.next kernel rfl (Leads.next kernel rfl ?_)
  change Leads _ _ 29 ⟨{ cpu with ebp := cpu.esp, ebx := memory.load32 (cpu.esp + 4), eip := 2 },
    memory⟩ _
  have held := (calls.kept empty).2
  refine Leads.push empty rfl kernel rfl rfl (congrArg Registers.ss held) (by simp) (by decide)
    fun after pushed => ?_
  have held := (calls.kept pushed).2
  refine Leads.push pushed rfl kernel rfl rfl (congrArg Registers.esp held) (by simp) (by decide)
    fun after pushed => ?_
  change Leads _ _ 27 ⟨{ cpu with ebp := cpu.esp, ebx := memory.load32 (cpu.esp + 4), eip := 4,
                                  esp := stackPointer cpu.esp 2 }, after⟩ _
  refine Leads.push pushed rfl kernel rfl rfl rfl (by simp) (by decide) fun after pushed => ?_
  refine Leads.pop pushed rfl kernel rfl (Leads.next kernel rfl ?_)
  change Leads _ _ 24 ⟨{ cpu with eax := cpu.flags ||| 0x200, ebp := cpu.esp,
                                  ebx := memory.load32 (cpu.esp + 4), eip := 7,
                                  esp := stackPointer cpu.esp 2,
                                  flags := flagsAfter cpu.flags (cpu.flags ||| 0x200) }, after⟩ _
  generalize flagsAfter cpu.flags (cpu.flags ||| 0x200) = flags
  refine Leads.push pushed.pop rfl kernel rfl rfl rfl (by simp) (by decide) fun after pushed => ?_
  have held := (calls.kept pushed).2
  refine Leads.push pushed rfl kernel rfl rfl (congrArg Registers.cs held) (by simp) (by decide)
    fun after pushed => ?_
  have held := (calls.kept pushed).2
  refine Leads.push pushed rfl kernel rfl rfl (congrArg Registers.ip held) (by simp) (by decide)
    fun after pushed => ?_
  have selector := congrArg Registers.ss (calls.kept pushed).2
  change after.load32 (memory.load32 (cpu.esp + 4) + 44) = registers.ss at selector
  refine Leads.next kernel rfl ?_
  change Leads _ _ 20 ⟨{ cpu with ebp := cpu.esp, ebx := memory.load32 (cpu.esp + 4), eip := 11,
                                  esp := stackPointer cpu.esp 5, flags,
                                  eax := setLow (cpu.flags ||| 0x200)
                                    (after.load32 (memory.load32 (cpu.esp + 4) + 44)) }, after⟩ _
  rw [selector]
  generalize setLow (cpu.flags ||| 0x200) registers.ss = ax
  refine Leads.next kernel rfl (Leads.next kernel rfl (Leads.next kernel rfl
    (Leads.next kernel rfl ?_)))
  change Leads _ _ 16 ⟨{ cpu with eax := ax, ebp := cpu.esp, ebx := memory.load32 (cpu.esp + 4),
                                  eip := 15, esp := stackPointer cpu.esp 5, flags,
                                  ds := ax.setWidth 16, es := ax.setWidth 16,
                                  fs := ax.setWidth 16, gs := ax.setWidth 16 }, after⟩ _
  have pointer := (calls.kept pushed).1
  refine Leads.push pushed rfl kernel rfl rfl pointer (by simp) (by decide) fun after pushed => ?_
  exact Leads.push pushed rfl kernel rfl rfl rfl (by simp) (by decide) fun after pushed =>
    rest _ _ _ _ _ _ _ _ pushed

/-- `task_return` leaves the kernel with the saved registers, but its own stack pointer in `ebp`
and its own flags. -/
theorem taskReturn_leads (calls : CallsTaskReturn ⟨cpu, memory⟩ registers)
    (user : registers.cs &&& 3 = 3) :
    Leads flagsAfter taskText 31 ⟨{ cpu with eip := 0 }, memory⟩ fun last =>
      Resumes { edi := registers.edi, esi := registers.esi, ebp := cpu.esp, unused := 0,
                ebx := registers.ebx, edx := registers.edx, ecx := registers.ecx,
                eax := registers.eax, ip := registers.ip, cs := registers.cs, flags := cpu.flags,
                esp := registers.esp, ss := registers.ss } last.cpu := by
  have kernel : cpu.privilege = 0 := calls.kernel
  refine taskReturn_enters calls fun after eax ebx ds es fs gs flags pushed => ?_
  refine Leads.push pushed rfl kernel rfl rfl rfl (by simp) (by decide) fun after pushed => ?_
  have held := (calls.kept pushed).2
  have place : stackPointer cpu.esp 8 + 8 = stackPointer cpu.esp 6 := by
    rw [← stackPointer_add cpu.esp 6, ← stackPointer_add cpu.esp 7, BitVec.add_assoc]
    rfl
  have pointer : after.load32 (stackPointer cpu.esp 8 + 8) = memory.load32 (cpu.esp + 4) := by
    rw [place]
    exact pushed.pop.pop.load32
  refine Leads.next kernel rfl (Leads.next kernel rfl ?_)
  change Leads _ _ 11 ⟨{ cpu with ebp := stackPointer cpu.esp 8, esp := stackPointer cpu.esp 8,
                                  ebx := after.load32 (stackPointer cpu.esp 8 + 8), eip := 22, eax,
                                  ds, es, fs, gs, flags }, after⟩ _
  rw [pointer]
  refine Leads.next kernel rfl (Leads.next kernel rfl (Leads.next kernel rfl (Leads.next kernel rfl
    (Leads.next kernel rfl (Leads.next kernel rfl (Leads.next kernel rfl ?_))))))
  generalize memory.load32 (cpu.esp + 4) = p at held pushed
  change Leads _ _ 4 ⟨{ cpu with edi := after.load32 (p + 0), esi := after.load32 (p + 4),
                                 ebp := after.load32 (p + 8), edx := after.load32 (p + 16),
                                 ecx := after.load32 (p + 20), eax := after.load32 (p + 24),
                                 ebx := after.load32 (p + 12), esp := stackPointer cpu.esp 8,
                                 eip := 29, ds, es, fs, gs, flags }, after⟩ _
  have edi := congrArg Registers.edi held
  have esi := congrArg Registers.esi held
  have edx := congrArg Registers.edx held
  have ecx := congrArg Registers.ecx held
  have eax := congrArg Registers.eax held
  have ebx := congrArg Registers.ebx held
  dsimp only [registersAt] at edi esi edx ecx eax ebx
  rw [add_zero, edi, esi, edx, ecx, eax, ebx]
  refine Leads.pop pushed rfl kernel rfl (Leads.ret pushed.pop rfl kernel rfl ?_)
  refine Leads.drop (k := 5) rfl kernel rfl fun flags => ?_
  refine Leads.iretd pushed.pop.pop.pop rfl kernel rfl user ?_
  exact ⟨rfl, rfl, rfl, rfl, rfl, rfl, rfl, rfl, rfl, by simp, rfl, rfl⟩

theorem privilege_of_cs {frame : InterruptFrame} (user : frame.cs &&& 3 = 3)
    (cs : cpu.cs = frame.cs.setWidth 16) : cpu.privilege = 3 := by
  have low : frame.cs.setWidth 16 &&& 3 = (frame.cs &&& 3).setWidth 16 := by
    rw [BitVec.setWidth_and]
    rfl
  rw [Cpu.privilege, cs, low, user]
  rfl

end Return

/-- After `task_save_state` and `task_return` the program of the frame resumes exactly when the
saved `ebp` is the stack pointer at the call and the flags are those at the call, the interrupt
flag apart. -/
theorem task_return_resumes_iff (flagsAfter : Word → Word → Word) (task : Task)
    (frame : InterruptFrame) (user : frame.cs &&& 3 = 3) (state : State)
    (calls : CallsTaskReturn state (taskSaveState task frame).registers) :
    ∃ last, run flagsAfter taskText 31 state = some last ∧ last.cpu.privilege = 3 ∧
      (Resumes frame last.cpu ↔
        frame.ebp = state.cpu.esp ∧ frame.flags ||| 0x200 = state.cpu.flags ||| 0x200) := by
  obtain ⟨cpu, memory⟩ := state
  obtain ⟨last, reached, resumed⟩ := taskReturn_leads calls user
  refine ⟨last, ?_, privilege_of_cs user resumed.cs, ?_⟩
  · have entry : cpu = { cpu with eip := 0 } := by rw [← calls.entry]
    rw [entry]
    exact reached
  constructor
  · intro resumes
    exact ⟨resumes.ebp.symm.trans resumed.ebp, resumes.flags.symm.trans resumed.flags⟩
  · rintro ⟨ebp, flags⟩
    exact { resumed with ebp := resumed.ebp.trans ebp.symm, flags :=
      resumed.flags.trans flags.symm }

/-- The frame of a program with the given `ebp`. -/
def returningFrame (ebp : Word) : InterruptFrame :=
  { edi := 0x11, esi := 0x22, ebp, unused := 0, ebx := 0x33, edx := 0x44, ecx := 0x55, eax := 0x66
    ip := 0x00400123, cs := 0x1b, flags := 0x202, esp := 0x003ffff0, ss := 0x23 }

/-- The kernel about to return to that program: its stack is at `0x5fff00`, and the registers that
it is handed are at `0x01000000`. -/
def returning (ebp : Word) : State where
  cpu :=
    { eax := 1, ebx := 2, ecx := 3, edx := 4, esi := 5, edi := 6, ebp := 0x5fff10, esp := 0x5fff00
      eip := 0, flags := 0x002, cs := 0x08, ss := 0x10, ds := 0x10, es := 0x10, fs := 0x10
      gs := 0x10 }
  memory := fun x =>
    if x = 0x5fff07 then 0x01
    else
      ([0x11, 0x22, ebp, 0x33, 0x44, 0x55, 0x66, 0x00400123, 0x1b, 0x202, 0x003ffff0, 0x23].flatMap
        fun (v : Word) => [v.extractLsb' 0 8, v.extractLsb' 8 8, v.extractLsb' 16 8,
          v.extractLsb' 24 8]).getD (x - 0x01000000).toNat 0

theorem returning_calls {ebp : Word} (known : ebp = 0x5fff00 ∨ ebp = 0x003fffe0) :
    CallsTaskReturn (returning ebp)
      (taskSaveState Task.zero (returningFrame ebp)).registers where
  kernel := by rcases known with rfl | rfl <;> rfl
  entry := rfl
  saved := by rcases known with rfl | rfl <;> rfl
  apart x inside := by
    have handed : (returning ebp).memory.load32 ((returning ebp).cpu.esp + 4) = 0x01000000 := by
      rcases known with rfl | rfl <;> rfl
    have size : sizeofRegisters = 48 := rfl
    have place : (returning ebp).cpu.esp = 0x5fff00 := rfl
    rw [handed, size] at inside
    rw [ApartFromStack, place]
    bv_omega

/-- A program whose `ebp` is the stack pointer of the kernel resumes. -/
theorem task_return_resumes_iff_returning :
    ∃ last, run (fun flags _ => flags) taskText 31 (returning 0x5fff00) = some last ∧
      last.cpu.privilege = 3 ∧ Resumes (returningFrame 0x5fff00) last.cpu := by
  obtain ⟨last, reached, user, resumes⟩ := task_return_resumes_iff (fun flags _ => flags) Task.zero
    (returningFrame 0x5fff00) (by decide) (returning 0x5fff00) (returning_calls (.inl rfl))
  exact ⟨last, reached, user, resumes.mpr ⟨rfl, by decide⟩⟩

/-- Another program does not: its `ebp` is lost. -/
theorem task_return_loses_ebp :
    ∃ last, run (fun flags _ => flags) taskText 31 (returning 0x003fffe0) = some last ∧
      ¬ Resumes (returningFrame 0x003fffe0) last.cpu := by
  have leads : Leads (fun flags _ => flags) taskText 31 (returning 0x003fffe0) _ :=
    taskReturn_leads (returning_calls (.inr rfl)) rfl
  obtain ⟨last, reached, resumed⟩ := leads
  refine ⟨last, reached, fun resumes => ?_⟩
  have lost : (returning 0x003fffe0).cpu.esp = (returningFrame 0x003fffe0).ebp :=
    resumed.ebp.symm.trans resumes.ebp
  exact absurd lost (by decide)

end Phix
