import Phix.Foundation.Traps
import Phix.Interrupts.Idt
import Phix.Task.Context

/-! # The way of a system call

The wrappers of the user library (`phix.asm`), which raise interrupt 0x80, and `isr80h_wrapper`
of `idt/idt.asm`, which captures the registers of the program, calls the compiled
`isr80h_handler` and returns to the program. The handler finds the number of the command, the
frame of the program and the argument on the stack of the program; the program finds the result
in `eax`, and every other general purpose register as it was (`Phix.system_call_returns`).
-/

namespace Phix

open Processor ByteMemory InterruptGates

/-- `isr80h_wrapper`. -/
def isr80hWrapper (isr80hHandler tmpRes : Word) : List Op :=
  [.cli,
    .plain .pushad,
    .plain (.push (.reg .esp)),
    .plain (.push (.reg .eax)),
    .plain (.call isr80hHandler),
    .store tmpRes .eax,
    .plain (.add .esp 8),
    .popad,
    .load .eax tmpRes,
    .plain .iretd]

/-! `phix.asm` -/

def phixPrint : List Op :=
  [.plain (.push (.reg .ebp)),
    .plain (.mov .ebp (.reg .esp)),
    .plain (.push (.mem .ebp 8)),
    .movImmediate .eax 1,
    .int 0x80,
    .plain (.add .esp 4),
    .plain (.pop .ebp),
    .plain .ret]

def phixGetkey : List Op :=
  [.plain (.push (.reg .ebp)),
    .plain (.mov .ebp (.reg .esp)),
    .movImmediate .eax 2,
    .int 0x80,
    .plain (.pop .ebp),
    .plain .ret]

/-- The wrapper that the other calls share: the command goes to `eax` before the argument is
pushed. -/
def phixCall (command : Word) : List Op :=
  [.plain (.push (.reg .ebp)),
    .plain (.mov .ebp (.reg .esp)),
    .movImmediate .eax command,
    .plain (.push (.mem .ebp 8)),
    .int 0x80,
    .plain (.add .esp 4),
    .plain (.pop .ebp),
    .plain .ret]

def phixPutchar : List Op := phixCall 3
def phixMalloc : List Op := phixCall 4
def phixFree : List Op := phixCall 5
def phixExec : List Op := phixCall 6
def phixGetPaddr : List Op := phixCall 7
def phixGetFlags : List Op := phixCall 8

/-- A wrapper: its text, the command it asks for, and whether it passes an argument on. -/
structure PhixWrapper where
  text : List Op
  command : Word
  passes : Bool

def phixWrappers : List PhixWrapper :=
  [⟨phixPrint, 1, true⟩, ⟨phixGetkey, 2, false⟩, ⟨phixPutchar, 3, true⟩, ⟨phixMalloc, 4, true⟩,
    ⟨phixFree, 5, true⟩, ⟨phixExec, 6, true⟩, ⟨phixGetPaddr, 7, true⟩, ⟨phixGetFlags, 8, true⟩]

/-- The frame of a program that raises an interrupt with the instruction before `ip`. -/
def userFrame (cpu : Cpu) (ip esp0 : Word) : InterruptFrame :=
  { edi := cpu.edi, esi := cpu.esi, ebp := cpu.ebp, unused := stackPointer esp0 5, ebx := cpu.ebx
    edx := cpu.edx, ecx := cpu.ecx, eax := cpu.eax, ip := ip, cs := cpu.cs.setWidth 32
    flags := cpu.flags, esp := cpu.esp, ss := cpu.ss.setWidth 32 }

/-- The handler is entered: the arguments are the command and the frame of the program, and only
the kernel's stack has been written. -/
structure Entered (platform : Platform) (isr80hHandler : Word) (user entered : State) : Prop where
  entry : entered.cpu.eip = isr80hHandler
  selector : entered.cpu.cs = kernelCodeSelector
  command : entered.memory.load32 (entered.cpu.esp + 4) = user.cpu.eax
  frame : interruptFrameAt entered.memory (entered.memory.load32 (entered.cpu.esp + 8)) =
    userFrame user.cpu (user.cpu.eip + 1) platform.esp0
  memory : ∀ x, ApartFromStack platform.esp0 64 x → entered.memory x = user.memory x

/-- The kernel's side of a system call: the wrapper, the handler behind it, and a place for the
result apart from the stack. -/
structure Kernelside (platform : Platform) (isr80hWrapperAt isr80hHandler tmpRes : Word)
    (handler : State → Option State) : Prop where
  text : platform.Holds isr80hWrapperAt (isr80hWrapper isr80hHandler tmpRes)
  entry : platform.compiled isr80hHandler = some handler
  result : ∀ k : Word, k.toNat < 4 → ApartFromStack platform.esp0 64 (tmpRes + k)

/-- The result is stored apart from the kernel's stack. -/
theorem Kernelside.store_apart {platform : Platform} {isr80hWrapperAt isr80hHandler tmpRes : Word}
    {handler : State → Option State}
    (kernelside : Kernelside platform isr80hWrapperAt isr80hHandler tmpRes handler)
    (memory : ByteMemory) (v x : Word)
    (inside : (x - stackPointer platform.esp0 15).toNat < 4 * 15) :
    memory.store32 tmpRes v x = memory x := by
  refine memory.store32_apply_of_far v (not_lt.mp fun near => ?_)
  have apart := kernelside.result (x - tmpRes) near
  have back : tmpRes + (x - tmpRes) = x := add_sub_cancel ..
  rw [back, ApartFromStack] at apart
  rw [stackPointer_eq] at inside
  bv_omega

section Trap

variable {platform : Platform} {isr80hWrapperAt isr80hHandler tmpRes : Word}
  {handler : State → Option State} {cpu : Cpu} {memory : ByteMemory} {post : State → Prop} {n : ℕ}

/-- From the interrupt to the entry of the handler. -/
private theorem trap_enters (kernelside : Kernelside platform isr80hWrapperAt isr80hHandler tmpRes
      handler) {start : Word} {ops : List Op} (program : platform.Holds start ops) {i : ℕ}
    (fetched : ops[i]? = some (.int 0x80)) (place : cpu.eip = start + BitVec.ofNat 32 i)
    (level : cpu.privilege = 3)
    (gate : vector memory platform.table 3 0x80 = some (isr80hWrapperAt, kernelCodeSelector))
    (rest : ∀ after flags, Pushed memory after platform.esp0 64
        [isr80hWrapperAt + 5, cpu.eax, stackPointer platform.esp0 13, cpu.edi, cpu.esi, cpu.ebp,
          stackPointer platform.esp0 5, cpu.ebx, cpu.edx, cpu.ecx, cpu.eax, cpu.eip + 1,
          cpu.cs.setWidth 32, cpu.flags, cpu.esp, cpu.ss.setWidth 32] →
      platform.Leads n ⟨{ cpu with esp := stackPointer platform.esp0 16, ss := platform.ss0,
                                   eip := isr80hHandler, cs := kernelCodeSelector, flags },
        after⟩ post) :
    platform.Leads (n + 6) ⟨cpu, memory⟩ post := by
  have zero : kernelCodeSelector &&& 3 = 0 := by decide
  have text := kernelside.text
  have three : (3 : BitVec 16).toNat = 3 := rfl
  refine Platform.Leads.trap program fetched place (by rw [level]; decide)
    (by rw [level, three]; exact gate) (by decide : 20 ≤ 64) (by decide) fun after flags pushed =>
      ?_
  refine Platform.Leads.next text (i := 0) rfl (BitVec.add_zero _).symm (if_pos zero) rfl ?_
  dsimp only
  generalize platform.masked flags = flags
  refine Platform.Leads.pushad pushed rfl text (i := 1) rfl rfl (by simp) (by decide)
    fun after pushed => ?_
  refine Platform.Leads.push pushed rfl text (i := 2) rfl rfl rfl (by simp)
    (by decide) fun after pushed => ?_
  refine Platform.Leads.push pushed rfl text (i := 3) rfl rfl rfl (by simp)
    (by decide) fun after pushed => ?_
  refine Platform.Leads.callee pushed rfl text (i := 4) rfl rfl (by simp) (by decide)
    fun after pushed => ?_
  exact rest after flags pushed

/-- From the return of the handler to the program. -/
private theorem trap_leaves (kernelside : Kernelside platform isr80hWrapperAt isr80hHandler tmpRes
      handler) (level : cpu.privilege = 3) {ip command frame unused eax : Word} {inner : Cpu}
    (pushed : Pushed memory memory platform.esp0 64
      [command, frame, cpu.edi, cpu.esi, cpu.ebp, unused, cpu.ebx, cpu.edx, cpu.ecx, eax, ip,
        cpu.cs.setWidth 32, cpu.flags, cpu.esp, cpu.ss.setWidth 32])
    (place : inner.eip = isr80hWrapperAt + 5) (esp : inner.esp = stackPointer platform.esp0 15)
    (selector : inner.cs = kernelCodeSelector)
    (rest : platform.Leads n ⟨{ cpu with eax := inner.eax, eip := ip, ds := inner.ds,
                                         es := inner.es, fs := inner.fs, gs := inner.gs },
      memory.store32 tmpRes inner.eax⟩ post) :
    platform.Leads (n + 5) ⟨inner, memory⟩ post := by
  have text := kernelside.text
  have kernel : kernelCodeSelector &&& 3 = 0 := by decide
  have user : cpu.cs.setWidth 32 &&& 3 = 3 := by
    have low : (cpu.cs &&& 3).setWidth 32 = cpu.cs.setWidth 32 &&& 3 := BitVec.setWidth_and ..
    rw [← low, ← Cpu.privilege, level]
    rfl
  refine Platform.Leads.store text (i := 5) place rfl ?_
  have stored := pushed_rebase pushed (by simp) (kernelside.store_apart memory inner.eax)
  have result := memory.load32_store32_self tmpRes inner.eax
  change platform.Leads (n + 4) ⟨_, memory.store32 tmpRes inner.eax⟩ post
  generalize memory.store32 tmpRes inner.eax = memory at stored result rest ⊢
  refine Platform.Leads.drop text (i := 6) rfl (m := 2) rfl esp fun flags => ?_
  refine Platform.Leads.popad text (i := 7) rfl stored.pop.pop rfl rfl ?_
  refine Platform.Leads.load text (i := 8) rfl rfl ?_
  rw [result]
  refine Platform.Leads.iretd text (i := 9) rfl (pushed_drop stored 10) rfl ?_ user rfl ?_
  · change inner.cs &&& 3 = 0
    rw [selector, kernel]
  · have cs : (cpu.cs.setWidth 32).setWidth 16 = cpu.cs :=
      BitVec.setWidth_setWidth_of_le _ (by decide)
    have ss : (cpu.ss.setWidth 32).setWidth 16 = cpu.ss :=
      BitVec.setWidth_setWidth_of_le _ (by decide)
    rw [cs, ss]
    exact rest

/-- What the handler finds. -/
private theorem entered_of_pushed {entered : Cpu} {after : ByteMemory} {ret : Word}
    (pushed : Pushed memory after platform.esp0 64
      [ret, cpu.eax, stackPointer platform.esp0 13, cpu.edi, cpu.esi, cpu.ebp,
        stackPointer platform.esp0 5, cpu.ebx, cpu.edx, cpu.ecx, cpu.eax, cpu.eip + 1,
        cpu.cs.setWidth 32, cpu.flags, cpu.esp, cpu.ss.setWidth 32])
    (entry : entered.eip = isr80hHandler) (esp : entered.esp = stackPointer platform.esp0 16)
    (selector : entered.cs = kernelCodeSelector) :
    Entered platform isr80hHandler ⟨cpu, memory⟩ ⟨entered, after⟩ where
  entry := entry
  selector := selector
  command := by
    rw [esp]
    exact pushed.load32_of_get (i := 1) rfl
  frame := by
    have pointer : after.load32 (entered.esp + 8) = stackPointer platform.esp0 13 := by
      rw [esp]
      exact pushed.load32_of_get (i := 2) rfl
    have frame := pushed_drop pushed 3
    have first := frame.load32_of_get (i := 0) rfl
    rw [Nat.mul_zero, BitVec.add_zero] at first
    change interruptFrameAt after (after.load32 (entered.esp + 8)) = _
    rw [pointer, interruptFrameAt, userFrame, InterruptFrame.mk.injEq]
    exact ⟨first, frame.load32_of_get (i := 1) rfl, frame.load32_of_get (i := 2) rfl,
      frame.load32_of_get (i := 3) rfl, frame.load32_of_get (i := 4) rfl,
      frame.load32_of_get (i := 5) rfl, frame.load32_of_get (i := 6) rfl,
      frame.load32_of_get (i := 7) rfl, frame.load32_of_get (i := 8) rfl,
      frame.load32_of_get (i := 9) rfl, frame.load32_of_get (i := 10) rfl,
      frame.load32_of_get (i := 11) rfl, frame.load32_of_get (i := 12) rfl⟩
  memory := pushed.outside

/-- A system call as its program sees it: up to the entry of the handler, and on from its return. -/
private theorem trap_returns (kernelside : Kernelside platform isr80hWrapperAt isr80hHandler tmpRes
      handler) {start : Word} {ops : List Op} (program : platform.Holds start ops) {i : ℕ}
    (fetched : ops[i]? = some (.int 0x80)) (place : cpu.eip = start + BitVec.ofNat 32 i)
    (level : cpu.privilege = 3)
    (gate : vector memory platform.table 3 0x80 = some (isr80hWrapperAt, kernelCodeSelector))
    {spared : Word → Prop} {reached : State → Prop}
    (rest : ∀ entered, Entered platform isr80hHandler ⟨cpu, memory⟩ entered →
      (∀ after, handler entered = some after → ReturnsTo entered after platform.esp0 spared →
        ∀ {n post}, platform.Leads n
          ⟨{ cpu with eax := after.cpu.eax, eip := cpu.eip + 1, ds := after.cpu.ds
                      es := after.cpu.es, fs := after.cpu.fs, gs := after.cpu.gs },
            after.memory.store32 tmpRes after.cpu.eax⟩ post →
          platform.Leads (n + 6) entered post) → reached entered) :
    platform.Leads 6 ⟨cpu, memory⟩ reached := by
  refine trap_enters kernelside program fetched place level gate fun stack flags pushed => ?_
  let entered : State := ⟨{ cpu with
    esp := stackPointer platform.esp0 16, ss := platform.ss0, eip := isr80hHandler,
    cs := kernelCodeSelector, flags }, stack⟩
  have enters : Entered platform isr80hHandler ⟨cpu, memory⟩ entered :=
    entered_of_pushed pushed rfl rfl rfl
  refine Platform.Leads.done (rest entered enters fun after called returned n post onward => ?_)
  refine Platform.Leads.call kernelside.entry called ?_
  have behind : entered.cpu.esp + 4 = stackPointer platform.esp0 15 := stackPointer_add ..
  have size : (platform.esp0 - stackPointer platform.esp0 15).toNat = 60 := by
    rw [stackPointer_eq, sub_sub_cancel]
    rfl
  have kept := pushed_rebase pushed.pop (by simp) fun x inside =>
    returned.stack x (by rw [behind, size]; exact inside)
  exact trap_leaves kernelside level kept (returned.eip.trans pushed.load32)
    (returned.esp.trans behind) (returned.cs.trans enters.selector) onward

end Trap

/-- The program's side: the three words of its stack that a wrapper uses, below `top`, lie apart
from the kernel's stack, the result of the call and the table of gates. -/
structure Userside (platform : Platform) (tmpRes idtDescriptors top : Word) : Prop where
  kernelStack : ∀ x, ¬ ApartFromStack top 12 x → ApartFromStack platform.esp0 64 x
  result : ∀ x, ¬ ApartFromStack top 12 x → 4 ≤ (x - tmpRes).toNat
  table : ∀ x : Word, (x - idtDescriptors).toNat < 4096 → ApartFromStack top 12 x

/-- What a system call gives to the handler, by the call of the wrapper. -/
structure Receives (caller entered : State) (wrapper : PhixWrapper) : Prop where
  command : entered.memory.load32 (entered.cpu.esp + 4) = wrapper.command
  eax : (interruptFrameAt entered.memory (entered.memory.load32 (entered.cpu.esp + 8))).eax =
    wrapper.command
  item : wrapper.passes → entered.memory.load32
    (interruptFrameAt entered.memory (entered.memory.load32 (entered.cpu.esp + 8))).esp =
      caller.memory.load32 (caller.cpu.esp + 4)

/-- The wrapper returns to its caller: `eax` holds the result, and of the other registers only the
flags and the data segments have changed. -/
structure GoesOn (caller after last : State) : Prop where
  cpu : last.cpu =
    { caller.cpu with
      eax := after.cpu.eax, esp := caller.cpu.esp + 4
      eip := caller.memory.load32 caller.cpu.esp, flags := last.cpu.flags
      ds := after.cpu.ds, es := after.cpu.es, fs := after.cpu.fs, gs := after.cpu.gs }

section Wrapper

variable {platform : Platform} {isr80hWrapperAt isr80hHandler tmpRes idtDescriptors : Word}
  {handler : State → Option State} {cpu : Cpu} {memory start : ByteMemory} {top : Word}
  {words : List Word} {post : State → Prop} {n : ℕ}

/-- A system call leaves the words of the wrapper on the stack of the program. -/
private theorem wrapper_trap (kernelside : Kernelside platform isr80hWrapperAt isr80hHandler tmpRes
      handler) (userside : Userside platform tmpRes idtDescriptors top)
    (pushed : Pushed start memory top 12 words) (fits : words.length ≤ 3) {entry : Word}
    {ops : List Op} (program : platform.Holds entry ops) {i : ℕ}
    (fetched : ops[i]? = some (.int 0x80)) (place : cpu.eip = entry + BitVec.ofNat 32 i)
    (level : cpu.privilege = 3)
    (gate : ∀ other, (∀ x : Word, (x - idtDescriptors).toNat < 4096 → other x = start x) →
      vector other platform.table 3 0x80 = some (isr80hWrapperAt, kernelCodeSelector))
    {reached : State → Prop}
    (rest : ∀ entered, Entered platform isr80hHandler ⟨cpu, memory⟩ entered →
      (∀ after, handler entered = some after →
        ReturnsTo entered after platform.esp0 (¬ ApartFromStack top 12 ·) →
        ∀ {n post},
          (Pushed (after.memory.store32 tmpRes after.cpu.eax)
              (after.memory.store32 tmpRes after.cpu.eax) top 12 words →
            platform.Leads n
              ⟨{ cpu with eax := after.cpu.eax, eip := entry + BitVec.ofNat 32 (i + 1)
                          ds := after.cpu.ds, es := after.cpu.es, fs := after.cpu.fs
                          gs := after.cpu.gs },
                after.memory.store32 tmpRes after.cpu.eax⟩ post) →
          platform.Leads (n + 6) entered post) → reached entered) :
    platform.Leads 6 ⟨cpu, memory⟩ reached := by
  have installed := gate memory fun x inside => pushed.outside x (userside.table x inside)
  refine trap_returns kernelside program fetched place level installed fun entered enters returns =>
    rest entered enters fun after called returned n post onward => returns after called returned ?_
  have following : cpu.eip + 1 = entry + BitVec.ofNat 32 (i + 1) := by
    rw [place, BitVec.ofNat_add, ← BitVec.add_assoc]
    rfl
  rw [following]
  refine onward (pushed_rebase pushed (by omega) fun x inside => ?_)
  have onStack : ¬ ApartFromStack top 12 x := by
    rw [stackPointer_eq] at inside
    unfold ApartFromStack
    bv_omega
  have stored := after.memory.store32_apply_of_far after.cpu.eax (userside.result x onStack)
  rw [stored, returned.spared x onStack]
  exact enters.memory x (userside.kernelStack x onStack)

/-- The end of a wrapper that has passed an argument on. -/
private theorem wrapper_ends {arg ebp ret : Word} {ops : List Op} {entry : Word}
    (program : platform.Holds entry ops) (pushed : Pushed start memory top 12 [arg, ebp, ret])
    (esp : cpu.esp = stackPointer top 3) {i : ℕ} (place : cpu.eip = entry + BitVec.ofNat 32 i)
    (dropped : ops[i]? = some (.plain (.add .esp 4)))
    (popped : ops[i + 1]? = some (.plain (.pop .ebp)))
    (returned : ops[i + 2]? = some (.plain .ret))
    (rest : ∀ flags, platform.Leads n ⟨{ cpu with ebp, esp := top, eip := ret, flags }, memory⟩
      post) : platform.Leads (n + 3) ⟨cpu, memory⟩ post := by
  refine Platform.Leads.drop program place (m := 1) dropped esp fun flags => ?_
  refine Platform.Leads.pop pushed.pop rfl program rfl popped ?_
  exact Platform.Leads.ret pushed.pop.pop rfl program rfl returned (rest flags)

/-- The stack of the program at the entry of a wrapper: the return address. -/
private theorem pushed_return (memory : ByteMemory) (esp : Word) :
    Pushed memory memory (esp + 4) 12 [memory.load32 esp] ∧ esp = stackPointer (esp + 4) 1 := by
  have place : stackPointer (esp + 4) 1 = esp := add_sub_cancel_right ..
  refine ⟨⟨fun i word present => ?_, fun _ _ => rfl⟩, place.symm⟩
  obtain ⟨inside, same⟩ := List.getElem?_eq_some_iff.mp present
  have first : i = 0 := Nat.lt_one_iff.mp inside
  subst first
  rw [← same]
  exact congrArg memory.load32 place

/-- The argument of a wrapper, found through its `ebp`. -/
private theorem argument_of_pushed {esp : Word} (pushed : Pushed memory start (esp + 4) 12 words) :
    start.load32 (stackPointer (esp + 4) 2 + 8) = memory.load32 (esp + 4) := by
  have place : stackPointer (esp + 4) 2 + 8 = esp + 4 :=
    stackPointer_sub (esp + 4) (show 2 ≤ 2 from le_rfl)
  rw [place]
  refine pushed.load32_of_apart fun k small => ?_
  unfold ApartFromStack
  bv_omega

/-- What the handler receives. -/
private theorem receives_of_entered (userside : Userside platform tmpRes idtDescriptors top)
    {caller entered : State} {wrapper : PhixWrapper}
    (enters : Entered platform isr80hHandler ⟨cpu, memory⟩ entered)
    (eax : cpu.eax = wrapper.command)
    (item : wrapper.passes → cpu.esp = stackPointer top 3 ∧
      memory.load32 cpu.esp = caller.memory.load32 (caller.cpu.esp + 4)) :
    Receives caller entered wrapper where
  command := enters.command.trans eax
  eax := (congrArg InterruptFrame.eax enters.frame).trans eax
  item passes := by
    obtain ⟨place, argument⟩ := item passes
    have esp := congrArg InterruptFrame.esp enters.frame
    rw [esp, ← argument]
    refine load32_congr fun k small => enters.memory _ (userside.kernelStack _ ?_)
    change ¬ ApartFromStack top 12 (cpu.esp + k)
    rw [place, stackPointer_eq]
    unfold ApartFromStack
    bv_omega

end Wrapper

/-- What comes of the call of a wrapper: the handler is entered for it, and if it returns then, the
wrapper returns too. -/
def CallReturns (platform : Platform) (isr80hHandler tmpRes : Word)
    (handler : State → Option State) (wrapper : PhixWrapper) (caller : State) : Prop :=
  ∃ m entered, platform.run m caller = some entered ∧ entered.cpu.eip = isr80hHandler ∧
    Receives caller entered wrapper ∧ ∀ after, handler entered = some after →
      ReturnsTo entered after platform.esp0 (¬ ApartFromStack (caller.cpu.esp + 4) 12 ·) →
      ∃ n last, platform.run n entered = some last ∧ GoesOn caller after last ∧
        last.memory = after.memory.store32 tmpRes after.cpu.eax

/-- A wrapper that passes an argument on: what stands around its two instructions that set the
command and push the argument. -/
structure PassesOn (ops : List Op) : Prop where
  saves : ops[0]? = some (.plain (.push (.reg .ebp)))
  links : ops[1]? = some (.plain (.mov .ebp (.reg .esp)))
  traps : ops[4]? = some (.int 0x80)
  drops : ops[5]? = some (.plain (.add .esp 4))
  restores : ops[6]? = some (.plain (.pop .ebp))
  returns : ops[7]? = some (.plain .ret)

section Wrappers

variable {platform : Platform} {isr80hWrapperAt isr80hHandler tmpRes idtDescriptors entry : Word}
  {handler : State → Option State} {cpu : Cpu} {memory : ByteMemory}
  (kernelside : Kernelside platform isr80hWrapperAt isr80hHandler tmpRes handler)
  (userside : Userside platform tmpRes idtDescriptors (cpu.esp + 4))
  (level : cpu.privilege = 3)
  (gate : ∀ other, (∀ x : Word, (x - idtDescriptors).toNat < 4096 → other x = memory x) →
    vector other platform.table 3 0x80 = some (isr80hWrapperAt, kernelCodeSelector))

include kernelside userside level gate

/-- The wrappers with an argument, whichever of their two middle instructions comes first. -/
private theorem passesOn_returns {ops : List Op} {command : Word} (shape : PassesOn ops)
    (text : platform.Holds entry ops) (starts : cpu.eip = entry)
    (middle : ∀ {stack : ByteMemory} {reached : State → Prop},
      Pushed memory stack (cpu.esp + 4) 12 [cpu.ebp, memory.load32 cpu.esp] →
      (∀ after, Pushed memory after (cpu.esp + 4) 12
          [memory.load32 (cpu.esp + 4), cpu.ebp, memory.load32 cpu.esp] →
        platform.Leads 6 ⟨{ cpu with eax := command, ebp := stackPointer (cpu.esp + 4) 2
                                     esp := stackPointer (cpu.esp + 4) 3
                                     eip := entry + BitVec.ofNat 32 4 }, after⟩ reached) →
      platform.Leads 8 ⟨{ cpu with ebp := stackPointer (cpu.esp + 4) 2
                                   esp := stackPointer (cpu.esp + 4) 2
                                   eip := entry + BitVec.ofNat 32 2 }, stack⟩ reached) :
    CallReturns platform isr80hHandler tmpRes handler ⟨ops, command, true⟩ ⟨cpu, memory⟩ := by
  obtain ⟨pushed, esp⟩ := pushed_return memory cpu.esp
  have leads : platform.Leads 10 ⟨cpu, memory⟩ fun entered => entered.cpu.eip = isr80hHandler ∧
      Receives ⟨cpu, memory⟩ entered ⟨ops, command, true⟩ ∧ ∀ after, handler entered = some after →
        ReturnsTo entered after platform.esp0 (¬ ApartFromStack (cpu.esp + 4) 12 ·) →
        platform.Leads 9 entered fun last => GoesOn ⟨cpu, memory⟩ after last ∧
          last.memory = after.memory.store32 tmpRes after.cpu.eax := by
    refine Platform.Leads.push pushed esp text shape.saves
      (starts.trans (BitVec.add_zero _).symm) rfl (by simp) (by decide) fun stack pushed => ?_
    refine Platform.Leads.mov text (i := 1) rfl shape.links ?_
    refine middle pushed fun stack pushed => ?_
    refine wrapper_trap kernelside userside pushed (by simp) text shape.traps ?_ ?_ gate
      fun entered enters returns => ?_
    · rfl
    · exact level
    refine ⟨enters.entry, ?_, fun after called returned => ?_⟩
    · exact receives_of_entered userside enters rfl fun _ => ⟨rfl, pushed.load32⟩
    · refine returns after called returned fun stacked => ?_
      refine wrapper_ends text stacked rfl rfl shape.drops shape.restores shape.returns
        fun flags => ?_
      exact Platform.Leads.done ⟨⟨rfl⟩, rfl⟩
  obtain ⟨entered, reached, enters, receives, returns⟩ := leads
  exact ⟨10, entered, reached, enters, receives, fun after called returned =>
    ⟨9, returns after called returned⟩⟩

private theorem phixCall_returns {command : Word} (text : platform.Holds entry (phixCall command))
    (starts : cpu.eip = entry) : CallReturns platform isr80hHandler tmpRes handler
      ⟨phixCall command, command, true⟩ ⟨cpu, memory⟩ := by
  refine passesOn_returns kernelside userside level gate ⟨rfl, rfl, rfl, rfl, rfl, rfl⟩ text starts
    fun pushed rest => ?_
  refine Platform.Leads.movImmediate text (i := 2) rfl rfl ?_
  exact Platform.Leads.push pushed rfl text (i := 3) rfl rfl (argument_of_pushed pushed) (by simp)
    (by decide) rest

private theorem phixPrint_returns (text : platform.Holds entry phixPrint)
    (starts : cpu.eip = entry) :
    CallReturns platform isr80hHandler tmpRes handler ⟨phixPrint, 1, true⟩ ⟨cpu, memory⟩ := by
  refine passesOn_returns kernelside userside level gate ⟨rfl, rfl, rfl, rfl, rfl, rfl⟩ text starts
    fun pushed rest => ?_
  refine Platform.Leads.push pushed rfl text (i := 2) rfl rfl (argument_of_pushed pushed) (by simp)
    (by decide) fun stack pushed => ?_
  exact Platform.Leads.movImmediate text (i := 3) rfl rfl (rest stack pushed)

private theorem phixGetkey_returns (text : platform.Holds entry phixGetkey)
    (starts : cpu.eip = entry) :
    CallReturns platform isr80hHandler tmpRes handler ⟨phixGetkey, 2, false⟩ ⟨cpu, memory⟩ := by
  obtain ⟨pushed, esp⟩ := pushed_return memory cpu.esp
  have leads : platform.Leads 9 ⟨cpu, memory⟩ fun entered => entered.cpu.eip = isr80hHandler ∧
      Receives ⟨cpu, memory⟩ entered ⟨phixGetkey, 2, false⟩ ∧ ∀ after,
        handler entered = some after →
        ReturnsTo entered after platform.esp0 (¬ ApartFromStack (cpu.esp + 4) 12 ·) →
        platform.Leads 8 entered fun last => GoesOn ⟨cpu, memory⟩ after last ∧
          last.memory = after.memory.store32 tmpRes after.cpu.eax := by
    refine Platform.Leads.push pushed esp text (i := 0) rfl (starts.trans (BitVec.add_zero _).symm)
      rfl (by simp) (by decide) fun stack pushed => ?_
    refine Platform.Leads.mov text (i := 1) rfl rfl ?_
    refine Platform.Leads.movImmediate text (i := 2) rfl rfl ?_
    refine wrapper_trap kernelside userside pushed (by simp) text (i := 3) rfl ?_ ?_ gate
      fun entered enters returns => ?_
    · rfl
    · exact level
    refine ⟨enters.entry, ?_, fun after called returned => ?_⟩
    · exact receives_of_entered userside enters rfl fun passes => absurd passes Bool.false_ne_true
    · refine returns after called returned fun stacked => ?_
      refine Platform.Leads.pop stacked rfl text (i := 4) rfl rfl ?_
      refine Platform.Leads.ret stacked.pop rfl text (i := 5) rfl rfl ?_
      exact Platform.Leads.done ⟨⟨rfl⟩, rfl⟩
  obtain ⟨entered, reached, enters, receives, returns⟩ := leads
  exact ⟨9, entered, reached, enters, receives, fun after called returned =>
    ⟨8, returns after called returned⟩⟩

end Wrappers

/-- **A system call goes to the handler and comes back.** Whichever wrapper of the library a program
calls, the handler is entered with the command and finds the argument on the program's stack; if it
returns, the program goes on behind its call with the result in `eax`, its stack pointer back, and
every other general purpose register as it was. -/
theorem system_call_returns {platform : Platform}
    {isr80hWrapperAt isr80hHandler tmpRes idtDescriptors idtrDescriptor pageFaultIntrCb : Word}
    {handler : State → Option State} {caller : State} {initial : ByteMemory}
    {interruptPointerTable : ℕ → Word}
    (kernelside : Kernelside platform isr80hWrapperAt isr80hHandler tmpRes handler)
    (userside : Userside platform tmpRes idtDescriptors (caller.cpu.esp + 4))
    (level : caller.cpu.privilege = 3)
    (apart : IdtrApart idtDescriptors idtrDescriptor)
    (table : platform.table = (idtInit initial idtDescriptors idtrDescriptor interruptPointerTable
      isr80hWrapperAt pageFaultIntrCb).1)
    (idt : ∀ x : Word, (x - idtDescriptors).toNat < 4096 → caller.memory x =
      (idtInit initial idtDescriptors idtrDescriptor interruptPointerTable isr80hWrapperAt
        pageFaultIntrCb).2 x)
    {wrapper : PhixWrapper} (member : wrapper ∈ phixWrappers)
    (text : platform.Holds caller.cpu.eip wrapper.text) :
    CallReturns platform isr80hHandler tmpRes handler wrapper caller := by
  obtain ⟨cpu, memory⟩ := caller
  have gate : ∀ other, (∀ x : Word, (x - idtDescriptors).toNat < 4096 → other x = memory x) →
      vector other platform.table 3 0x80 = some (isr80hWrapperAt, kernelCodeSelector) := by
    intro other same
    rw [table]
    exact idtInit_vector apart (fun x inside => (same x inside).trans (idt x inside)) 0x80 le_rfl
  have call (command : Word) (text : platform.Holds cpu.eip (phixCall command)) :=
    phixCall_returns kernelside userside level gate text rfl
  simp only [phixWrappers, List.mem_cons, List.not_mem_nil, or_false] at member
  rcases member with rfl | rfl | rfl | rfl | rfl | rfl | rfl | rfl
  · exact phixPrint_returns kernelside userside level gate text rfl
  · exact phixGetkey_returns kernelside userside level gate text rfl
  · exact call 3 text
  · exact call 4 text
  · exact call 5 text
  · exact call 6 text
  · exact call 7 text
  · exact call 8 text

/-- A handler that returns 42. -/
def constantHandler (state : State) : Option State :=
  some ⟨{ state.cpu with
    eip := state.memory.load32 state.cpu.esp, esp := state.cpu.esp + 4, eax := 42 }, state.memory⟩

/-- A platform with the wrapper of the kernel at `0x100000`, `phix_malloc` at `0x400000`, and the
table of gates at `0x10000`. -/
def smallPlatform : Platform where
  text a := (isr80hWrapper 0x200000 0x20000)[(a - 0x100000).toNat]? <|>
    phixMalloc[(a - 0x400000).toNat]?
  compiled a := if a = 0x200000 then some constantHandler else none
  table := ⟨4095, 0x10000⟩
  esp0 := 0x600000
  ss0 := 0x10
  flagsAfter flags _ := flags
  masked flags := flags &&& ~~~0x200

/-- A program that is about to call `phix_malloc`. -/
def mallocCaller : State where
  cpu :=
    { eax := 0, ebx := 1, ecx := 2, edx := 3, esi := 4, edi := 5, ebp := 6, esp := 0x3FF000
      eip := 0x400000, flags := 0x202, cs := 0x1B, ss := 0x23, ds := 0x23, es := 0x23, fs := 0x23
      gs := 0x23 }
  memory := (idtInit (fun _ => 0) 0x10000 0x11000 (fun _ => 0) 0x100000 0).2

theorem smallPlatform_kernelside :
    Kernelside smallPlatform 0x100000 0x200000 0x20000 constantHandler where
  text i op present := by
    obtain ⟨inside, -⟩ := List.getElem?_eq_some_iff.mp present
    have small : i < 10 := inside
    interval_cases i <;> exact ⟨rfl, present⟩
  entry := rfl
  result k small := by
    change 64 ≤ ((0x600000 : Word) - 1 - (0x20000 + k)).toNat
    bv_omega

theorem smallPlatform_userside :
    Userside smallPlatform 0x20000 0x10000 (mallocCaller.cpu.esp + 4) := by
  have top : mallocCaller.cpu.esp + 4 = 0x3FF004 := rfl
  have kernel : smallPlatform.esp0 = 0x600000 := rfl
  rw [top]
  refine ⟨fun x on => ?_, fun x on => ?_, fun x inside => ?_⟩ <;> unfold ApartFromStack at *
  · rw [kernel]
    bv_omega
  · bv_omega
  · bv_omega

/-- `phix_malloc` on the small platform: the handler is entered, and its 42 comes back. -/
theorem system_call_returns_malloc : ∃ m entered n last,
    smallPlatform.run m mallocCaller = some entered ∧ entered.cpu.eip = 0x200000 ∧
    smallPlatform.run n entered = some last ∧ last.cpu.eax = 42 ∧ last.cpu.esp = 0x3FF004 ∧
    last.cpu.ebx = 1 ∧ last.cpu.ecx = 2 ∧ last.cpu.edx = 3 ∧ last.cpu.ebp = 6 := by
  have apart : IdtrApart 0x10000 0x11000 := fun k small => by bv_omega
  have idt : ∀ x : Word, (x - 0x10000).toNat < 4096 → mallocCaller.memory x =
      (idtInit (fun _ => 0) 0x10000 0x11000 (fun _ => 0) 0x100000 0).2 x := fun _ _ => rfl
  have text : smallPlatform.Holds mallocCaller.cpu.eip phixMalloc := fun i op present => by
    obtain ⟨inside, -⟩ := List.getElem?_eq_some_iff.mp present
    have small : i < 8 := inside
    interval_cases i <;> exact ⟨rfl, present⟩
  obtain ⟨m, entered, reached, enters, -, returns⟩ := system_call_returns
    smallPlatform_kernelside smallPlatform_userside rfl apart (idtInit_table apart).symm idt
    (show ⟨phixMalloc, 4, true⟩ ∈ phixWrappers by simp [phixWrappers]) text
  obtain ⟨n, last, onward, ⟨cpu⟩, -⟩ := returns _ rfl
    ⟨rfl, rfl, rfl, rfl, rfl, rfl, rfl, rfl, fun _ _ => rfl, fun _ _ => rfl⟩
  refine ⟨m, entered, n, last, reached, enters, onward, ?_⟩
  rw [cpu]
  exact ⟨rfl, rfl, rfl, rfl, rfl, rfl⟩

end Phix
