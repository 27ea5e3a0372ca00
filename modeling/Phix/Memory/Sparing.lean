import Phix.Memory.Keeping
import Phix.Memory.Neutral

/-! # Writes of the kernel that spare the heap

The block table lies below the kernel and the pool above it. What the kernel writes between them,
its stack and the screen included, leaves the heap and all chunks as they are
(`Phix.Machine.PagingSound.kernelWrite`).
-/

namespace Phix

/-- The byte behind the block table. -/
def blockTableEnd : ℕ := phixHeapTableAddress.toNat + totalTableEntries.toNat

/-- A byte between the block table and the pool. -/
def InKernel (x : Word) : Prop := blockTableEnd ≤ x.toNat ∧ x.toNat < phixHeapSaddress.toNat

namespace Machine

/-- The heap is sound, the same pointers are live, and every chunk has the address space it had. -/
structure SamePaging (machine next : Machine) : Prop where
  paging : next.PagingSound
  live : next.live = machine.live
  chunks : ∀ {chunk directory}, machine.HasChunk chunk directory →
    next.HasChunk chunk directory ∧
      directory.space next.memory = directory.space machine.memory

namespace SamePaging

variable {machine middle next : Machine}

theorem refl (paging : machine.PagingSound) : machine.SamePaging machine :=
  ⟨paging, rfl, fun has => ⟨has, rfl⟩⟩

theorem trans (first : machine.SamePaging middle) (second : middle.SamePaging next) :
    machine.SamePaging next where
  paging := second.paging
  live := second.live.trans first.live
  chunks has := by
    obtain ⟨before, same⟩ := first.chunks has
    obtain ⟨after, again⟩ := second.chunks before
    exact ⟨after, again.trans same⟩

theorem keeps (same : machine.SamePaging next) : machine.Keeps next :=
  ⟨same.paging, fun _ _ held _ => same.live ▸ held⟩

end SamePaging

/-- An allocation has no byte in the kernel. -/
theorem HeapSound.notInKernel {machine : Machine} (sound : machine.HeapSound) {p x : Word}
    {allocation : Allocation} (held : machine.live p = some allocation)
    (inside : (x - p).toNat < allocation.size.toNat) : ¬ InKernel x := by
  rintro ⟨_, below⟩
  have proper := (sound.sized _ _ (sizes_of_live held)).2
  obtain ⟨s, bounded, rfl, _⟩ := sound.pointer held
  have address := poolBlock_toNat bounded
  have pool : phixHeapSaddress.toNat = 0x01000000 := rfl
  unfold maxRequest at proper
  rw [BitVec.toNat_sub] at inside
  omega

theorem PagingSound.kernelWrite {machine : Machine} (paging : machine.PagingSound)
    {memory : ByteMemory} (same : ∀ x, ¬ InKernel x → memory x = machine.memory x) :
    machine.SamePaging { machine with memory } := by
  have chunks : ∀ {chunk directory}, machine.HasChunk chunk directory →
      ({ machine with memory } : Machine).HasChunk chunk directory ∧
        directory.space memory = directory.space machine.memory := fun has =>
    has.congr paging.sound fun p allocation held _ =>
      ⟨held, fun x inside => same x (paging.sound.notInKernel held inside)⟩
  refine ⟨⟨HeapInv.congr paging.sound rfl rfl fun i inside => same _ fun inKernel => ?_,
    fun chunk base isChunk => ?_, paging.unique⟩, rfl, chunks⟩
  · have table : i < 25600 := inside
    have behind : 0xE200 ≤ (entryAddress i).toNat := inKernel.1
    rw [entryAddress_toNat table] at behind
    omega
  · obtain ⟨table, has⟩ := paging.chunks chunk base isChunk
    exact ⟨table, (chunks has).1⟩

end Machine

end Phix
