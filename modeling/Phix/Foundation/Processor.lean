import Mathlib.Data.BitVec
import Phix.Foundation.WordStack

/-! # A 32-bit processor

The part of a 32-bit x86 processor that entering and leaving the kernel exercises: the general
purpose registers, the flags, the segment registers and a stack in memory, with the instructions
that move words between them. A program is a list of instructions and `eip` an index into it;
the privileged mode runs the program, and a return from interrupt may leave it. What an
arithmetic instruction leaves in the flags is a parameter.

`Processor.Leads` says where a number of steps leads. `Processor.Leads.next` takes one step; the
rules after it take a step on the stack in terms of `ByteMemory.Pushed`.
-/

namespace Processor

open ByteMemory

/-- The general purpose registers. -/
inductive Reg where
  | eax | ebx | ecx | edx | esi | edi | ebp | esp

/-- The segment registers that `mov` may load. -/
inductive Segment where
  | ds | es | fs | gs

structure Cpu where
  eax : BitVec 32
  ebx : BitVec 32
  ecx : BitVec 32
  edx : BitVec 32
  esi : BitVec 32
  edi : BitVec 32
  ebp : BitVec 32
  esp : BitVec 32
  eip : BitVec 32
  flags : BitVec 32
  cs : BitVec 16
  ss : BitVec 16
  ds : BitVec 16
  es : BitVec 16
  fs : BitVec 16
  gs : BitVec 16

namespace Cpu

def get (cpu : Cpu) : Reg → BitVec 32
  | .eax => cpu.eax
  | .ebx => cpu.ebx
  | .ecx => cpu.ecx
  | .edx => cpu.edx
  | .esi => cpu.esi
  | .edi => cpu.edi
  | .ebp => cpu.ebp
  | .esp => cpu.esp

def set (cpu : Cpu) (value : BitVec 32) : Reg → Cpu
  | .eax => { cpu with eax := value }
  | .ebx => { cpu with ebx := value }
  | .ecx => { cpu with ecx := value }
  | .edx => { cpu with edx := value }
  | .esi => { cpu with esi := value }
  | .edi => { cpu with edi := value }
  | .ebp => { cpu with ebp := value }
  | .esp => { cpu with esp := value }

def setSegment (cpu : Cpu) (value : BitVec 16) : Segment → Cpu
  | .ds => { cpu with ds := value }
  | .es => { cpu with es := value }
  | .fs => { cpu with fs := value }
  | .gs => { cpu with gs := value }

/-- The privilege level: 0 for the kernel, 3 for user programs. -/
def privilege (cpu : Cpu) : BitVec 16 := cpu.cs &&& 3

/-- Go on with the next instruction. -/
def next (cpu : Cpu) : Cpu := { cpu with eip := cpu.eip + 1 }

end Cpu

structure State where
  cpu : Cpu
  memory : ByteMemory

/-- Where an instruction takes a word from. -/
inductive Source where
  | reg (r : Reg)
  | mem (base : Reg) (displacement : BitVec 32)

def Source.value (state : State) : Source → BitVec 32
  | .reg r => state.cpu.get r
  | .mem base displacement => state.memory.load32 (state.cpu.get base + displacement)

inductive Instruction where
  | mov (dst : Reg) (src : Source)
  /-- `mov ax`: the low half of `eax`. -/
  | movAx (src : Source)
  /-- `mov` of a segment register from `ax`. -/
  | movSegment (dst : Segment)
  | push (src : Source)
  | pop (dst : Reg)
  | pushf
  | pushad
  | or (dst : Reg) (immediate : BitVec 32)
  | add (dst : Reg) (immediate : BitVec 32)
  | call (target : BitVec 32)
  | ret
  | iretd

namespace State

def push (state : State) (word : BitVec 32) : State where
  cpu := { state.cpu with esp := state.cpu.esp - 4 }
  memory := state.memory.store32 (state.cpu.esp - 4) word

def pushAll (state : State) (words : List (BitVec 32)) : State := words.foldl push state

/-- The word on top of the stack. -/
def top (state : State) : BitVec 32 := state.memory.load32 state.cpu.esp

def pop (state : State) : State :=
  { state with cpu := { state.cpu with esp := state.cpu.esp + 4 } }

def next (state : State) : State := { state with cpu := state.cpu.next }

end State

/-- An interrupt of a less privileged level: the processor takes the stack of the kernel and
pushes where and with what flags the program was. -/
def State.interrupt (state : State) (esp0 : BitVec 32) (ss0 : BitVec 16) (handler : BitVec 32)
    (selector : BitVec 16) (flags : BitVec 32) : State :=
  let cpu := state.cpu
  let kernel : State := { state with cpu := { cpu with esp := esp0, ss := ss0 } }
  let entered := kernel.pushAll
    [cpu.ss.setWidth 32, cpu.esp, cpu.flags, cpu.cs.setWidth 32, cpu.eip]
  { entered with cpu := { entered.cpu with eip := handler, cs := selector, flags } }

/-- A return from interrupt: to a less privileged level it pops the stack of that level, too. -/
def State.iretd (state : State) : State :=
  let eip := state.top
  let state := state.pop
  let cs := state.top.setWidth 16
  let state := state.pop
  let flags := state.top
  let state := state.pop
  if state.cpu.privilege < cs &&& 3 then
    let esp := state.top
    let ss := state.pop.top.setWidth 16
    { state with cpu := { state.cpu with eip, cs, flags, esp, ss } }
  else { state with cpu := { state.cpu with eip, cs, flags } }

/-- The word with the low half of the value. -/
def setLow (word value : BitVec 32) : BitVec 32 := (word &&& 0xffff0000) ||| (value &&& 0xffff)

variable (flagsAfter : BitVec 32 → BitVec 32 → BitVec 32)

/-- One instruction. `flagsAfter` gives the flags after an arithmetic result. -/
def Instruction.exec (state : State) : Instruction → State
  | .mov dst src => { state with cpu := state.cpu.set (src.value state) dst }.next
  | .movAx src =>
      { state with cpu := { state.cpu with eax := setLow state.cpu.eax (src.value state) } }.next
  | .movSegment dst =>
      { state with cpu := state.cpu.setSegment (state.cpu.eax.setWidth 16) dst }.next
  | .push src => (state.push (src.value state)).next
  | .pop dst => { state.pop with cpu := state.pop.cpu.set state.top dst }.next
  | .pushf => (state.push state.cpu.flags).next
  | .pushad =>
      let cpu := state.cpu
      (state.pushAll [cpu.eax, cpu.ecx, cpu.edx, cpu.ebx, cpu.esp, cpu.ebp, cpu.esi, cpu.edi]).next
  | .or dst immediate =>
      let result := state.cpu.get dst ||| immediate
      let cpu := { state.cpu with flags := flagsAfter state.cpu.flags result }
      { state with cpu := cpu.set result dst }.next
  | .add dst immediate =>
      let result := state.cpu.get dst + immediate
      let cpu := { state.cpu with flags := flagsAfter state.cpu.flags result }
      { state with cpu := cpu.set result dst }.next
  | .call target =>
      let state := state.push (state.cpu.eip + 1)
      { state with cpu := { state.cpu with eip := target } }
  | .ret => { state.pop with cpu := { state.pop.cpu with eip := state.top } }
  | .iretd => state.iretd

/-- One step of the program, in privileged mode. -/
def step (program : List Instruction) (state : State) : Option State :=
  if state.cpu.privilege = 0 then
    (program[state.cpu.eip.toNat]?).map fun instruction => instruction.exec flagsAfter state
  else none

def run (program : List Instruction) : ℕ → State → Option State
  | 0, state => some state
  | n + 1, state => (step flagsAfter program state).bind (run program n)

/-- The state has pushed the words below `top`. -/
structure State.Stacked (state : State) (start : ByteMemory) (top : BitVec 32) (room : ℕ)
    (words : List (BitVec 32)) : Prop where
  esp : state.cpu.esp = stackPointer top words.length
  pushed : Pushed start state.memory top room words

namespace State

variable {state : State} {start : ByteMemory} {top : BitVec 32} {room : ℕ}
  {words : List (BitVec 32)}

theorem Stacked.push (stacked : state.Stacked start top room words)
    (fits : 4 * words.length + 4 ≤ room) (bounded : room < 2 ^ 31) (word : BitVec 32) :
    (state.push word).Stacked start top room (word :: words) where
  esp := by
    rw [State.push, stacked.esp]
    rfl
  pushed := by
    rw [State.push, stacked.esp]
    exact stacked.pushed.push fits bounded word

theorem Stacked.pushAll (stacked : state.Stacked start top room words) (more : List (BitVec 32))
    (fits : 4 * (words.length + more.length) ≤ room) (bounded : room < 2 ^ 31) :
    (state.pushAll more).Stacked start top room (more.reverse ++ words) := by
  induction more generalizing state words with
  | nil => exact stacked
  | cons word more ih =>
      rw [List.length_cons] at fits
      rw [List.reverse_cons, List.append_assoc]
      exact ih (stacked.push (by omega) bounded word) (by rw [List.length_append]; simp; omega)

theorem Stacked.pushad (flagsAfter : BitVec 32 → BitVec 32 → BitVec 32)
    (stacked : state.Stacked start top room words) (fits : 4 * (words.length + 8) ≤ room)
    (bounded : room < 2 ^ 31) :
    (Instruction.pushad.exec flagsAfter state).Stacked start top room
      (state.cpu.edi :: state.cpu.esi :: state.cpu.ebp :: state.cpu.esp :: state.cpu.ebx ::
        state.cpu.edx :: state.cpu.ecx :: state.cpu.eax :: words) := by
  have pushed := stacked.pushAll [state.cpu.eax, state.cpu.ecx, state.cpu.edx, state.cpu.ebx,
    state.cpu.esp, state.cpu.ebp, state.cpu.esi, state.cpu.edi] fits bounded
  exact ⟨pushed.esp, pushed.pushed⟩

/-- Pushing leaves the other registers alone. -/
theorem pushAll_cpu (state : State) (words : List (BitVec 32)) :
    (state.pushAll words).cpu = { state.cpu with esp := (state.pushAll words).cpu.esp } := by
  induction words generalizing state with
  | nil => rfl
  | cons word words ih =>
      change ((state.push word).pushAll words).cpu = _
      rw [ih]
      rfl

theorem interrupt_stacked (user : State) (esp0 : BitVec 32) (ss0 : BitVec 16) (handler : BitVec 32)
    (selector : BitVec 16) (flags : BitVec 32) (fits : 20 ≤ room) (bounded : room < 2 ^ 31) :
    (user.interrupt esp0 ss0 handler selector flags).Stacked user.memory esp0 room
      [user.cpu.eip, user.cpu.cs.setWidth 32, user.cpu.flags, user.cpu.esp,
        user.cpu.ss.setWidth 32] := by
  let kernel : State := { user with cpu := { user.cpu with esp := esp0, ss := ss0 } }
  have empty : kernel.Stacked user.memory esp0 room [] := ⟨rfl, Pushed.nil ..⟩
  have entered := empty.pushAll [user.cpu.ss.setWidth 32, user.cpu.esp, user.cpu.flags,
    user.cpu.cs.setWidth 32, user.cpu.eip] fits bounded
  exact ⟨entered.esp, entered.pushed⟩

theorem interrupt_cpu (user : State) (esp0 : BitVec 32) (ss0 : BitVec 16) (handler : BitVec 32)
    (selector : BitVec 16) (flags : BitVec 32) :
    (user.interrupt esp0 ss0 handler selector flags).cpu =
      { user.cpu with esp := stackPointer esp0 5, ss := ss0, eip := handler, cs := selector,
                      flags } := by
  have stacked := user.interrupt_stacked esp0 ss0 handler selector flags
    (by decide : 20 ≤ 20) (by decide)
  have esp : _ = stackPointer esp0 5 := stacked.esp
  rw [← esp]
  unfold interrupt
  dsimp only
  rw [pushAll_cpu]

/-- The words from the stack pointer on. -/
theorem Stacked.load32 (stacked : state.Stacked start top room words) (i : ℕ) {word : BitVec 32}
    (present : words[i]? = some word) :
    state.memory.load32 (state.cpu.esp + BitVec.ofNat 32 (4 * i)) = word := by
  rw [stacked.esp]
  exact stacked.pushed.load32_of_get present

/-- A return from interrupt to a program pops the words of an interrupt frame. -/
theorem iretd_pushed {cpu : Cpu} {memory : ByteMemory} {eip cs flags esp ss : BitVec 32}
    (pushed : Pushed start memory top room (eip :: cs :: flags :: esp :: ss :: words))
    (place : cpu.esp = stackPointer top (words.length + 5)) (kernel : cpu.privilege = 0)
    (user : cs &&& 3 = 3) : State.iretd ⟨cpu, memory⟩ =
      ⟨{ cpu with eip, cs := cs.setWidth 16, flags, esp, ss := ss.setWidth 16 }, memory⟩ := by
  have first := pushed.load32
  have second := pushed.pop.load32
  have third := pushed.pop.pop.load32
  have fourth := pushed.pop.pop.pop.load32
  have fifth := pushed.pop.pop.pop.pop.load32
  have lower : cpu.privilege < cs.setWidth 16 &&& 3 := by
    have same : cs.setWidth 16 &&& 3 = (cs &&& 3).setWidth 16 := by
      rw [BitVec.setWidth_and]
      rfl
    rw [kernel, same, user]
    decide
  simp only [List.length_cons] at first second third fourth fifth
  simp only [State.iretd, State.top, State.pop, place, stackPointer_add, first, second, third,
    fourth, fifth]
  exact if_pos lower

end State

/-- In `n` steps of the program the state leads to one with the property. -/
def Leads (program : List Instruction) (n : ℕ) (state : State) (post : State → Prop) : Prop :=
  ∃ last, run flagsAfter program n state = some last ∧ post last

namespace Leads

variable {flagsAfter} {program : List Instruction} {n : ℕ} {state : State} {post : State → Prop}

theorem done (holds : post state) : Leads flagsAfter program 0 state post := ⟨state, rfl, holds⟩

/-- One instruction and the rest. -/
theorem next {instruction : Instruction} (kernel : state.cpu.privilege = 0)
    (fetched : program[state.cpu.eip.toNat]? = some instruction)
    (rest : Leads flagsAfter program n (instruction.exec flagsAfter state) post) :
    Leads flagsAfter program (n + 1) state post := by
  obtain ⟨last, reached, holds⟩ := rest
  refine ⟨last, ?_, holds⟩
  rw [run, step, if_pos kernel, fetched]
  exact reached

section Stack

variable {cpu other : Cpu} {memory start : ByteMemory} {top : BitVec 32} {room : ℕ}
  {words : List (BitVec 32)} {word value : BitVec 32} {instruction : Instruction}

/-- An instruction that pushes a word. -/
theorem push (pushed : Pushed start memory top room words)
    (esp : cpu.esp = stackPointer top words.length) (kernel : cpu.privilege = 0)
    (fetched : program[cpu.eip.toNat]? = some instruction)
    (pushes : instruction.exec flagsAfter ⟨cpu, memory⟩ =
      ⟨other, memory.store32 (cpu.esp - 4) value⟩) (same : value = word)
    (fits : 4 * words.length + 4 ≤ room) (bounded : room < 2 ^ 31)
    (rest : ∀ after, Pushed start after top room (word :: words) →
      Leads flagsAfter program n ⟨other, after⟩ post) :
    Leads flagsAfter program (n + 1) ⟨cpu, memory⟩ post := by
  refine next kernel fetched ?_
  rw [pushes, esp, same]
  exact rest _ (pushed.push fits bounded word)

variable (pushed : Pushed start memory top room (word :: words))
  (esp : cpu.esp = stackPointer top (words.length + 1)) (kernel : cpu.privilege = 0)

include pushed esp kernel

theorem pop {dst : Reg} (fetched : program[cpu.eip.toNat]? = some (.pop dst))
    (rest : Leads flagsAfter program n
      ⟨({ cpu with esp := stackPointer top words.length }.set word dst).next, memory⟩ post) :
    Leads flagsAfter program (n + 1) ⟨cpu, memory⟩ post := by
  refine next kernel fetched ?_
  unfold Instruction.exec State.pop State.top
  dsimp only
  rw [esp, pushed.load32, stackPointer_add]
  exact rest

theorem ret (fetched : program[cpu.eip.toNat]? = some .ret)
    (rest : Leads flagsAfter program n
      ⟨{ cpu with esp := stackPointer top words.length, eip := word }, memory⟩ post) :
    Leads flagsAfter program (n + 1) ⟨cpu, memory⟩ post := by
  refine next kernel fetched ?_
  unfold Instruction.exec State.pop State.top
  dsimp only
  rw [esp, pushed.load32, stackPointer_add]
  exact rest

end Stack

/-- A word is dropped. -/
theorem drop {cpu : Cpu} {memory : ByteMemory} {top : BitVec 32} {k : ℕ}
    (esp : cpu.esp = stackPointer top (k + 1)) (kernel : cpu.privilege = 0)
    (fetched : program[cpu.eip.toNat]? = some (.add .esp 4))
    (rest : ∀ flags, Leads flagsAfter program n
      ⟨{ cpu with esp := stackPointer top k, flags }.next, memory⟩ post) :
    Leads flagsAfter program (n + 1) ⟨cpu, memory⟩ post := by
  refine next kernel fetched ?_
  unfold Instruction.exec Cpu.get Cpu.set
  dsimp only
  rw [esp, stackPointer_add]
  exact rest _

/-- The words of an interrupt frame are popped on the way to user mode. -/
theorem iretd {cpu : Cpu} {memory start : ByteMemory} {top : BitVec 32} {room : ℕ}
    {eip cs flags esp ss : BitVec 32} {words : List (BitVec 32)}
    (pushed : Pushed start memory top room (eip :: cs :: flags :: esp :: ss :: words))
    (place : cpu.esp = stackPointer top (words.length + 5)) (kernel : cpu.privilege = 0)
    (fetched : program[cpu.eip.toNat]? = some .iretd) (user : cs &&& 3 = 3)
    (holds : post ⟨{ cpu with eip, cs := cs.setWidth 16, flags, esp, ss := ss.setWidth 16 },
      memory⟩) :
    Leads flagsAfter program 1 ⟨cpu, memory⟩ post := by
  refine next kernel fetched (done ?_)
  unfold Instruction.exec
  dsimp only
  rw [State.iretd_pushed pushed place kernel user]
  exact holds

end Leads

end Processor
