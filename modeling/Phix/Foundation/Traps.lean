import Phix.Foundation.InterruptGates
import Phix.Foundation.Processor

/-! # Traps into compiled code

A processor that runs the text of programs of both levels: the instructions of
`Phix.Foundation.Processor`, those that raise an interrupt through the table of gates, and calls of
compiled functions, of which only the calling convention is known. A compiled function runs in one
step, from its entry until it has returned.

`Processor.Platform.Leads` says where a number of steps leads. `Processor.ReturnsTo` is what a
caller may rely on when a compiled function has returned.
-/

namespace Processor

open ByteMemory

/-- An instruction of a program on either side of a trap. -/
inductive Op where
  | plain (instruction : Instruction)
  | movImmediate (dst : Reg) (value : BitVec 32)
  | load (dst : Reg) (address : BitVec 32)
  | store (address : BitVec 32) (src : Reg)
  | popad
  | cli
  | int (n : BitVec 8)

/-- What the programs run on: their text, the compiled functions by their entries, the table of
gates, the kernel's stack, and what instructions do to the flags. -/
structure Platform where
  text : BitVec 32 → Option Op
  compiled : BitVec 32 → Option (State → Option State)
  table : InterruptGates.Table
  esp0 : BitVec 32
  ss0 : BitVec 16
  flagsAfter : BitVec 32 → BitVec 32 → BitVec 32
  masked : BitVec 32 → BitVec 32

/-- The registers that `popad` loads, from the stack pointer on. -/
def State.popad (state : State) : State :=
  let word (i : ℕ) := state.memory.load32 (state.cpu.esp + BitVec.ofNat 32 (4 * i))
  { state with
    cpu := { state.cpu with
      edi := word 0, esi := word 1, ebp := word 2, ebx := word 4, edx := word 5, ecx := word 6
      eax := word 7, esp := state.cpu.esp + 32 } }

theorem State.popad_pushed {cpu : Cpu} {memory start : ByteMemory} {top : BitVec 32} {room : ℕ}
    {edi esi ebp unused ebx edx ecx eax : BitVec 32} {words : List (BitVec 32)}
    (pushed : Pushed start memory top room
      (edi :: esi :: ebp :: unused :: ebx :: edx :: ecx :: eax :: words))
    (place : cpu.esp = stackPointer top (words.length + 8)) : State.popad ⟨cpu, memory⟩ =
      ⟨{ cpu with edi, esi, ebp, ebx, edx, ecx, eax, esp := stackPointer top words.length },
        memory⟩ := by
  have word {i : ℕ} {value : BitVec 32} (present : (edi :: esi :: ebp :: unused :: ebx :: edx ::
      ecx :: eax :: words)[i]? = some value) :
      memory.load32 (cpu.esp + BitVec.ofNat 32 (4 * i)) = value := by
    rw [place]
    exact pushed.load32_of_get present
  have behind : cpu.esp + 32 = stackPointer top words.length := by
    rw [place]
    exact stackPointer_sub top (show 8 ≤ words.length + 8 by omega)
  unfold State.popad
  dsimp only
  rw [word (i := 0) rfl, word (i := 1) rfl, word (i := 2) rfl, word (i := 4) rfl,
    word (i := 5) rfl, word (i := 6) rfl, word (i := 7) rfl, behind]

/-- The words below the latest ones. -/
theorem pushed_drop {start memory : ByteMemory} {top : BitVec 32} {room : ℕ}
    {words : List (BitVec 32)} (pushed : Pushed start memory top room words) (k : ℕ) :
    Pushed start memory top room (words.drop k) := by
  induction k generalizing words with
  | zero => exact pushed
  | succ k ih =>
      cases words with
      | nil => exact pushed
      | cons word words => exact ih pushed.pop

/-- Words that are as they were are still pushed, whatever else has changed. -/
theorem pushed_rebase {start memory other : ByteMemory} {top : BitVec 32} {room : ℕ}
    {words : List (BitVec 32)} (pushed : Pushed start memory top room words)
    (size : 4 * words.length < 2 ^ 32) (same : ∀ x,
      (x - stackPointer top words.length).toNat < 4 * words.length → other x = memory x) :
    Pushed other other top room words where
  held i word present := by
    have inside : i < words.length := (List.getElem?_eq_some_iff.mp present).1
    rw [← pushed.held i word present]
    refine load32_congr fun k small => same _ ?_
    rw [← stackPointer_sub top inside.le]
    have distance : stackPointer top words.length + BitVec.ofNat 32 (4 * i) + k -
        stackPointer top words.length = BitVec.ofNat 32 (4 * i) + k := by
      rw [BitVec.add_assoc, add_sub_cancel_left]
    rw [distance, BitVec.toNat_add, BitVec.toNat_ofNat]
    omega
  outside _ _ := rfl

namespace Platform

variable (platform : Platform)

/-- One instruction. A trap of a program changes to the kernel's stack. -/
def exec (state : State) : Op → Option State
  | .plain instruction => some (instruction.exec platform.flagsAfter state)
  | .movImmediate dst value => some { state with cpu := state.cpu.set value dst }.next
  | .load dst address =>
      some { state with cpu := state.cpu.set (state.memory.load32 address) dst }.next
  | .store address src =>
      some { state with memory := state.memory.store32 address (state.cpu.get src) }.next
  | .popad => some state.popad.next
  | .cli =>
      if state.cpu.privilege = 0 then
        some { state with cpu := { state.cpu with flags := platform.masked state.cpu.flags } }.next
      else none
  | .int n =>
      if state.cpu.privilege = 0 then none
      else
        (InterruptGates.vector state.memory platform.table state.cpu.privilege.toNat n).map
          fun (handler, selector) => state.next.interrupt platform.esp0 platform.ss0 handler
            selector (platform.masked state.cpu.flags)

def step (state : State) : Option State :=
  match platform.compiled state.cpu.eip with
  | some function => function state
  | none => (platform.text state.cpu.eip).bind (platform.exec state)

def run : ℕ → State → Option State
  | 0, state => some state
  | n + 1, state => (platform.step state).bind (run n)

/-- In `n` steps the state leads to one with the property. -/
def Leads (n : ℕ) (state : State) (post : State → Prop) : Prop :=
  ∃ last, platform.run n state = some last ∧ post last

/-- The instructions stand in the text from an address on. -/
def Holds (start : BitVec 32) (ops : List Op) : Prop :=
  ∀ i op, ops[i]? = some op →
    platform.compiled (start + BitVec.ofNat 32 i) = none ∧
      platform.text (start + BitVec.ofNat 32 i) = some op

namespace Leads

variable {platform} {n : ℕ} {state : State} {post : State → Prop}

theorem done (holds : post state) : platform.Leads 0 state post := ⟨state, rfl, holds⟩

theorem of_step {next : State} (stepped : platform.step state = some next)
    (rest : platform.Leads n next post) : platform.Leads (n + 1) state post := by
  obtain ⟨last, reached, holds⟩ := rest
  refine ⟨last, ?_, holds⟩
  rw [run, stepped]
  exact reached

section Text

variable {base : BitVec 32} {ops : List Op} {i : ℕ} {op : Op} {cpu other : Cpu}
  {memory after : ByteMemory} (text : platform.Holds base ops) (fetched : ops[i]? = some op)
  (place : cpu.eip = base + BitVec.ofNat 32 i)

include text fetched place

/-- One instruction of a text. -/
theorem leave {next : State} (executed : platform.exec ⟨cpu, memory⟩ op = some next)
    (rest : platform.Leads n next post) : platform.Leads (n + 1) ⟨cpu, memory⟩ post := by
  obtain ⟨plain, there⟩ := text i op fetched
  refine of_step ?_ rest
  unfold step
  dsimp only
  rw [place, plain, there]
  exact executed

/-- One instruction, from which the text goes on. -/
theorem next (executed : platform.exec ⟨cpu, memory⟩ op = some ⟨other.next, after⟩)
    (same : other.eip = cpu.eip)
    (rest : platform.Leads n ⟨{ other with eip := base + BitVec.ofNat 32 (i + 1) }, after⟩ post) :
    platform.Leads (n + 1) ⟨cpu, memory⟩ post := by
  refine leave text fetched place executed ?_
  have following : other.eip + 1 = base + BitVec.ofNat 32 (i + 1) := by
    rw [same, place, BitVec.ofNat_add, ← BitVec.add_assoc]
    rfl
  unfold Cpu.next
  rw [following]
  exact rest

theorem set {dst : Reg} {value : BitVec 32}
    (executed : platform.exec ⟨cpu, memory⟩ op = some ⟨(cpu.set value dst).next, memory⟩)
    (rest : platform.Leads n ⟨{ (cpu.set value dst) with eip := base + BitVec.ofNat 32 (i + 1) },
      memory⟩ post) : platform.Leads (n + 1) ⟨cpu, memory⟩ post := by
  refine next text fetched place executed ?_ rest
  cases dst <;> rfl

omit fetched

theorem mov {dst : Reg} {src : Source} (fetched : ops[i]? = some (.plain (.mov dst src)))
    (rest : platform.Leads n ⟨{ (cpu.set (src.value ⟨cpu, memory⟩) dst) with
      eip := base + BitVec.ofNat 32 (i + 1) }, memory⟩ post) :
    platform.Leads (n + 1) ⟨cpu, memory⟩ post :=
  set text fetched place rfl rest

theorem movImmediate {dst : Reg} {value : BitVec 32}
    (fetched : ops[i]? = some (.movImmediate dst value))
    (rest : platform.Leads n ⟨{ (cpu.set value dst) with eip := base + BitVec.ofNat 32 (i + 1) },
      memory⟩ post) : platform.Leads (n + 1) ⟨cpu, memory⟩ post :=
  set text fetched place rfl rest

theorem load {dst : Reg} {address : BitVec 32} (fetched : ops[i]? = some (.load dst address))
    (rest : platform.Leads n ⟨{ (cpu.set (memory.load32 address) dst) with
      eip := base + BitVec.ofNat 32 (i + 1) }, memory⟩ post) :
    platform.Leads (n + 1) ⟨cpu, memory⟩ post :=
  set text fetched place rfl rest

theorem store {src : Reg} {address : BitVec 32} (fetched : ops[i]? = some (.store address src))
    (rest : platform.Leads n ⟨{ cpu with eip := base + BitVec.ofNat 32 (i + 1) },
      memory.store32 address (cpu.get src)⟩ post) : platform.Leads (n + 1) ⟨cpu, memory⟩ post :=
  next text fetched place rfl rfl rest

/-- Words are dropped from the stack. -/
theorem drop {top : BitVec 32} {k m : ℕ}
    (fetched : ops[i]? = some (.plain (.add .esp (BitVec.ofNat 32 (4 * m)))))
    (esp : cpu.esp = stackPointer top (k + m))
    (rest : ∀ flags, platform.Leads n
      ⟨{ cpu with esp := stackPointer top k, flags, eip := base + BitVec.ofNat 32 (i + 1) },
        memory⟩ post) : platform.Leads (n + 1) ⟨cpu, memory⟩ post := by
  have behind : cpu.esp + BitVec.ofNat 32 (4 * m) = stackPointer top k := by
    rw [esp, stackPointer_sub top (Nat.le_add_left m k), Nat.add_sub_cancel]
  let flags := platform.flagsAfter cpu.flags (stackPointer top k)
  have executed : platform.exec ⟨cpu, memory⟩ (.plain (.add .esp (BitVec.ofNat 32 (4 * m)))) =
      some ⟨({ cpu with esp := stackPointer top k, flags } : Cpu).next, memory⟩ := by
    unfold flags
    rw [← behind]
    rfl
  exact next text fetched place executed rfl (rest _)

theorem popad {start : ByteMemory} {top : BitVec 32} {room : ℕ}
    {edi esi ebp unused ebx edx ecx eax : BitVec 32} {words : List (BitVec 32)}
    (pushed : Pushed start memory top room
      (edi :: esi :: ebp :: unused :: ebx :: edx :: ecx :: eax :: words))
    (esp : cpu.esp = stackPointer top (words.length + 8)) (fetched : ops[i]? = some .popad)
    (rest : platform.Leads n ⟨{ cpu with edi, esi, ebp, ebx, edx, ecx, eax
                                         esp := stackPointer top words.length
                                         eip := base + BitVec.ofNat 32 (i + 1) }, memory⟩ post) :
    platform.Leads (n + 1) ⟨cpu, memory⟩ post := by
  have executed : platform.exec ⟨cpu, memory⟩ .popad =
      some (State.next (State.popad ⟨cpu, memory⟩)) := rfl
  rw [State.popad_pushed pushed esp] at executed
  exact next text fetched place executed rfl rest

/-- A return to a program. -/
theorem iretd {start : ByteMemory} {top : BitVec 32} {room : ℕ} {eip cs flags esp ss : BitVec 32}
    {words : List (BitVec 32)}
    (pushed : Pushed start memory top room (eip :: cs :: flags :: esp :: ss :: words))
    (pointer : cpu.esp = stackPointer top (words.length + 5)) (kernel : cpu.privilege = 0)
    (user : cs &&& 3 = 3) (fetched : ops[i]? = some (.plain .iretd))
    (rest : platform.Leads n ⟨{ cpu with eip, cs := cs.setWidth 16, flags, esp
                                         ss := ss.setWidth 16 }, memory⟩ post) :
    platform.Leads (n + 1) ⟨cpu, memory⟩ post := by
  refine leave text fetched place rfl ?_
  unfold Instruction.exec
  dsimp only
  rw [State.iretd_pushed pushed pointer kernel user]
  exact rest

end Text

/-- A compiled function. -/
theorem call {function : State → Option State} {next : State}
    (entry : platform.compiled state.cpu.eip = some function)
    (returned : function state = some next)
    (rest : platform.Leads n next post) : platform.Leads (n + 1) state post := by
  refine of_step ?_ rest
  rw [step, entry]
  exact returned

/-- A program raises an interrupt. -/
theorem trap {base : BitVec 32} {ops : List Op} {i room : ℕ} {v : BitVec 8} {cpu : Cpu}
    {memory : ByteMemory} {handler : BitVec 32} {selector : BitVec 16}
    (text : platform.Holds base ops) (fetched : ops[i]? = some (.int v))
    (place : cpu.eip = base + BitVec.ofNat 32 i) (level : cpu.privilege ≠ 0)
    (gate : InterruptGates.vector memory platform.table cpu.privilege.toNat v =
      some (handler, selector)) (fits : 20 ≤ room) (bounded : room < 2 ^ 31)
    (rest : ∀ after flags, Pushed memory after platform.esp0 room
        [cpu.eip + 1, cpu.cs.setWidth 32, cpu.flags, cpu.esp, cpu.ss.setWidth 32] →
      platform.Leads n ⟨{ cpu with esp := stackPointer platform.esp0 5, ss := platform.ss0
                                   eip := handler, cs := selector, flags }, after⟩ post) :
    platform.Leads (n + 1) ⟨cpu, memory⟩ post := by
  let user : State := ⟨cpu.next, memory⟩
  have raised : platform.exec ⟨cpu, memory⟩ (.int v) =
      some (user.interrupt platform.esp0 platform.ss0 handler selector
        (platform.masked cpu.flags)) := by
    unfold exec
    dsimp only
    rw [if_neg level, gate]
    rfl
  have stacked := user.interrupt_stacked platform.esp0 platform.ss0 handler selector
    (platform.masked cpu.flags) fits bounded
  have registers := user.interrupt_cpu platform.esp0 platform.ss0 handler selector
    (platform.masked cpu.flags)
  refine leave text fetched place raised ?_
  generalize user.interrupt platform.esp0 platform.ss0 handler selector
    (platform.masked cpu.flags) = entered at stacked registers
  obtain ⟨inner, after⟩ := entered
  obtain ⟨esp, pushed⟩ := stacked
  subst registers
  exact rest after _ pushed

section Stack

variable {base top : BitVec 32} {ops : List Op} {i room : ℕ} {cpu : Cpu} {memory start : ByteMemory}
  {words : List (BitVec 32)} {word : BitVec 32}

theorem push {src : Source} (pushed : Pushed start memory top room words)
    (esp : cpu.esp = stackPointer top words.length) (text : platform.Holds base ops)
    (fetched : ops[i]? = some (.plain (.push src))) (place : cpu.eip = base + BitVec.ofNat 32 i)
    (same : src.value ⟨cpu, memory⟩ = word) (fits : 4 * words.length + 4 ≤ room)
    (bounded : room < 2 ^ 31)
    (rest : ∀ after, Pushed start after top room (word :: words) →
      platform.Leads n ⟨{ cpu with esp := stackPointer top (words.length + 1)
                                   eip := base + BitVec.ofNat 32 (i + 1) }, after⟩ post) :
    platform.Leads (n + 1) ⟨cpu, memory⟩ post := by
  have executed : platform.exec ⟨cpu, memory⟩ (.plain (.push src)) = some
      ⟨({ cpu with esp := stackPointer top (words.length + 1) } : Cpu).next,
        memory.store32 (stackPointer top (words.length + 1)) word⟩ := by
    rw [← same, stackPointer, ← esp]
    rfl
  exact next text fetched place executed rfl (rest _ (pushed.push fits bounded word))

/-- A call pushes the address behind it. -/
theorem callee {target : BitVec 32} (pushed : Pushed start memory top room words)
    (esp : cpu.esp = stackPointer top words.length) (text : platform.Holds base ops)
    (fetched : ops[i]? = some (.plain (.call target))) (place : cpu.eip = base + BitVec.ofNat 32 i)
    (fits : 4 * words.length + 4 ≤ room) (bounded : room < 2 ^ 31)
    (rest : ∀ after, Pushed start after top room ((base + BitVec.ofNat 32 (i + 1)) :: words) →
      platform.Leads n ⟨{ cpu with esp := stackPointer top (words.length + 1), eip := target },
        after⟩ post) :
    platform.Leads (n + 1) ⟨cpu, memory⟩ post := by
  have following : cpu.eip + 1 = base + BitVec.ofNat 32 (i + 1) := by
    rw [place, BitVec.ofNat_add, ← BitVec.add_assoc]
    rfl
  refine leave text fetched place rfl ?_
  unfold Instruction.exec State.push
  dsimp only
  rw [following, esp]
  exact rest _ (pushed.push fits bounded _)

theorem pushad (pushed : Pushed start memory top room words)
    (esp : cpu.esp = stackPointer top words.length) (text : platform.Holds base ops)
    (fetched : ops[i]? = some (.plain .pushad)) (place : cpu.eip = base + BitVec.ofNat 32 i)
    (fits : 4 * (words.length + 8) ≤ room) (bounded : room < 2 ^ 31)
    (rest : ∀ after, Pushed start after top room (cpu.edi :: cpu.esi :: cpu.ebp :: cpu.esp ::
        cpu.ebx :: cpu.edx :: cpu.ecx :: cpu.eax :: words) →
      platform.Leads n ⟨{ cpu with esp := stackPointer top (words.length + 8)
                                   eip := base + BitVec.ofNat 32 (i + 1) }, after⟩ post) :
    platform.Leads (n + 1) ⟨cpu, memory⟩ post := by
  let state : State := ⟨cpu, memory⟩
  have stacked : state.Stacked start top room words := ⟨esp, pushed⟩
  have captured := stacked.pushad platform.flagsAfter fits bounded
  have registers := state.pushAll_cpu [cpu.eax, cpu.ecx, cpu.edx, cpu.ebx, cpu.esp, cpu.ebp,
    cpu.esi, cpu.edi]
  have executed : Instruction.pushad.exec platform.flagsAfter state = State.next
      (state.pushAll [cpu.eax, cpu.ecx, cpu.edx, cpu.ebx, cpu.esp, cpu.ebp, cpu.esi, cpu.edi]) :=
        rfl
  rw [executed] at captured
  generalize state.pushAll [cpu.eax, cpu.ecx, cpu.edx, cpu.ebx, cpu.esp, cpu.ebp, cpu.esi, cpu.edi]
    = stored at captured registers executed
  obtain ⟨inner, after⟩ := stored
  have pointer : inner.esp = stackPointer top (words.length + 8) := captured.esp
  dsimp only at registers
  rw [pointer] at registers
  subst registers
  exact next text fetched place (congrArg some executed) rfl (rest after captured.pushed)

variable (pushed : Pushed start memory top room (word :: words))
  (esp : cpu.esp = stackPointer top (words.length + 1)) (text : platform.Holds base ops)
  (place : cpu.eip = base + BitVec.ofNat 32 i)

include pushed esp text place

theorem pop {dst : Reg} (fetched : ops[i]? = some (.plain (.pop dst)))
    (rest : platform.Leads n
      ⟨{ ({ cpu with esp := stackPointer top words.length }.set word dst) with
          eip := base + BitVec.ofNat 32 (i + 1) }, memory⟩ post) :
    platform.Leads (n + 1) ⟨cpu, memory⟩ post := by
  have popped : Instruction.exec platform.flagsAfter ⟨cpu, memory⟩ (.pop dst) =
      ⟨({ cpu with esp := stackPointer top words.length }.set word dst).next, memory⟩ := by
    unfold Instruction.exec State.pop State.top
    dsimp only
    rw [esp, pushed.load32, stackPointer_add]
    rfl
  refine next text fetched place (congrArg some popped) ?_ rest
  cases dst <;> rfl

theorem ret (fetched : ops[i]? = some (.plain .ret))
    (rest : platform.Leads n
      ⟨{ cpu with esp := stackPointer top words.length, eip := word }, memory⟩ post) :
    platform.Leads (n + 1) ⟨cpu, memory⟩ post := by
  refine leave text fetched place rfl ?_
  unfold Instruction.exec State.pop State.top
  dsimp only
  rw [esp, pushed.load32, stackPointer_add]
  exact rest

end Stack

theorem append {m : ℕ} (first : platform.Leads m state fun middle => platform.Leads n middle post) :
    platform.Leads (m + n) state post := by
  induction m generalizing state with
  | zero =>
      obtain ⟨last, reached, rest⟩ := first
      cases reached
      rwa [Nat.zero_add]
  | succ m ih =>
      obtain ⟨last, reached, rest⟩ := first
      rw [run, Option.bind_eq_some_iff] at reached
      obtain ⟨middle, stepped, reached⟩ := reached
      rw [Nat.succ_add]
      exact of_step stepped (ih ⟨last, reached, rest⟩)

end Leads

end Platform

/-- The calling convention: the function has returned to its caller, with the stack pointer behind
the return address and the registers that belong to the caller, and the caller's stack up to `top`
and the bytes that the function is known to spare are as they were. -/
structure ReturnsTo (before after : State) (top : BitVec 32) (spared : BitVec 32 → Prop) :
    Prop where
  eip : after.cpu.eip = before.memory.load32 before.cpu.esp
  esp : after.cpu.esp = before.cpu.esp + 4
  ebx : after.cpu.ebx = before.cpu.ebx
  esi : after.cpu.esi = before.cpu.esi
  edi : after.cpu.edi = before.cpu.edi
  ebp : after.cpu.ebp = before.cpu.ebp
  cs : after.cpu.cs = before.cpu.cs
  ss : after.cpu.ss = before.cpu.ss
  stack : ∀ x, (x - (before.cpu.esp + 4)).toNat < (top - (before.cpu.esp + 4)).toNat →
    after.memory x = before.memory x
  spared : ∀ x, spared x → after.memory x = before.memory x

end Processor
