import Phix.Common
import Phix.Foundation.InterruptGates

/-! # The interrupt descriptor table

`idt_set` and `idt_init` of `idt/idt.c`. Every gate is a present interrupt gate into the kernel's
code segment that the least privileged level may use, so every interrupt that a program raises by
an instruction is handled, at the kernel's level, by the handler it is set up for
(`Phix.idt_init_vectors`).
-/

namespace Phix

open InterruptGates ByteMemory

def phixTotalInterrupts : ℕ := 512
def kernelCodeSelector : BitVec 16 := 0x08

/-- `sizeof(struct idt_desc)`. -/
def sizeofIdtDesc : ℕ := 8

/-- `idt_set`, with the table at `idtDescriptors`. -/
def idtSet (memory : ByteMemory) (idtDescriptors : Word) (i : ℕ) (addr : Word) : ByteMemory :=
  let desc := idtDescriptors + BitVec.ofNat 32 (sizeofIdtDesc * i)
  let memory := memory.store16 desc ((addr &&& 0x0000ffff).setWidth 16)
  let memory := memory.store16 (desc + 2) kernelCodeSelector
  let memory : ByteMemory := Function.update memory (desc + 4) 0
  let memory : ByteMemory := Function.update memory (desc + 5) 0xEE
  memory.store16 (desc + 6) ((addr >>> 16).setWidth 16)

/-- The loop of `idt_init`: the first `i` gates. -/
def idtInit.loop (idtDescriptors : Word) (interruptPointerTable : ℕ → Word) :
    ℕ → ByteMemory → ByteMemory
  | 0, memory => memory
  | i + 1, memory =>
      idtSet (loop idtDescriptors interruptPointerTable i memory) idtDescriptors i
        (interruptPointerTable i)

/-- `idt_init`, with `idtr_descriptor` at `idtrDescriptor`: what `idt_load` loads, and the
memory. -/
def idtInit (memory : ByteMemory) (idtDescriptors idtrDescriptor : Word)
    (interruptPointerTable : ℕ → Word) (isr80hWrapper pageFaultIntrCb : Word) :
    Table × ByteMemory :=
  let size := sizeofIdtDesc * phixTotalInterrupts
  let memory := memory.memset idtDescriptors 0 size
  let memory := memory.store16 idtrDescriptor (BitVec.ofNat 16 (size - 1))
  let memory := memory.store32 (idtrDescriptor + 2) idtDescriptors
  let memory := idtInit.loop idtDescriptors interruptPointerTable phixTotalInterrupts memory
  let memory := idtSet memory idtDescriptors 0x80 isr80hWrapper
  let memory := idtSet memory idtDescriptors 14 pageFaultIntrCb
  (tableAt memory idtrDescriptor, memory)

/-- `idtr_descriptor` and `idt_descriptors` are two objects: none of the six bytes of the one lies
in the other. -/
def IdtrApart (idtDescriptors idtrDescriptor : Word) : Prop :=
  ∀ k : Word, k.toNat < 6 → 4096 ≤ (idtrDescriptor + k - idtDescriptors).toNat

/-- The gate that `idt_set` describes. -/
def idtGate (addr : Word) : Gate where
  offset := addr
  selector := kernelCodeSelector
  present := true
  privilege := 3
  kind := interruptGate

/-- Who handles an interrupt. -/
def idtHandler (interruptPointerTable : ℕ → Word) (isr80hWrapper pageFaultIntrCb : Word) (i : ℕ) :
    Word :=
  if i = 14 then pageFaultIntrCb else if i = 0x80 then isr80hWrapper else interruptPointerTable i

section Gates

variable (memory : ByteMemory) (idtDescriptors : Word)

/-- The eight bytes of a gate are written. -/
theorem idtSet_eq_write (i : ℕ) (addr : Word) : idtSet memory idtDescriptors i addr =
    memory.write (idtDescriptors + BitVec.ofNat 32 (sizeofIdtDesc * i)) (gateBytes (idtGate addr))
      sizeofIdtDesc := by
  generalize place : idtDescriptors + BitVec.ofNat 32 (sizeofIdtDesc * i) = desc
  have offset : (gateBytes (idtGate addr) 1 ++ gateBytes (idtGate addr) 0 : BitVec (8 + 8)) =
      (addr &&& 0x0000ffff).setWidth 16 := by
    have mask : (0x0000ffff : Word).setWidth 16 = BitVec.allOnes 16 := rfl
    rw [BitVec.setWidth_and, mask, BitVec.and_allOnes, BitVec.setWidth_eq_extractLsb' (by decide)]
    exact BitVec.extractLsb'_append_extractLsb'_eq_extractLsb' (by decide)
  have selector : (gateBytes (idtGate addr) 3 ++ gateBytes (idtGate addr) 2 : BitVec (8 + 8)) =
      kernelCodeSelector :=
    show (kernelCodeSelector.extractLsb' 8 8 ++ kernelCodeSelector.extractLsb' 0 8 :
      BitVec (8 + 8)) = kernelCodeSelector by decide
  have high : (gateBytes (idtGate addr) 7 ++ gateBytes (idtGate addr) 6 : BitVec (8 + 8)) =
      (addr >>> 16).setWidth 16 := by
    have shifted : (addr >>> 16).setWidth 16 = addr.extractLsb' 16 16 := by
      ext i _
      simp
    rw [shifted]
    exact BitVec.extractLsb'_append_extractLsb'_eq_extractLsb' (by decide)
  have first : memory.store16 desc ((addr &&& 0x0000ffff).setWidth 16) =
      memory.write desc (gateBytes (idtGate addr)) 2 := by
    have stored := memory.write_store16 desc (gateBytes (idtGate addr)) 0
    rw [offset, BitVec.add_zero] at stored
    exact stored
  have second : (memory.write desc (gateBytes (idtGate addr)) 2).store16 (desc + 2)
      kernelCodeSelector = memory.write desc (gateBytes (idtGate addr)) 4 := by
    have stored := memory.write_store16 desc (gateBytes (idtGate addr)) 2
    rw [selector] at stored
    exact stored
  have last : (memory.write desc (gateBytes (idtGate addr)) 6).store16 (desc + 6)
      ((addr >>> 16).setWidth 16) = memory.write desc (gateBytes (idtGate addr)) 8 := by
    have stored := memory.write_store16 desc (gateBytes (idtGate addr)) 6
    rw [high] at stored
    exact stored
  have access : gateBytes (idtGate addr) 5 = 0xEE :=
    show (BitVec.ofBool true ++ (3 : BitVec 2) ++ interruptGate : BitVec (1 + 2 + 5)) = 0xEE by
      decide
  have middle : memory.write desc (gateBytes (idtGate addr)) 6 =
      Function.update (Function.update (memory.write desc (gateBytes (idtGate addr)) 4)
        (desc + 4) 0) (desc + 5) 0xEE := by
    rw [ByteMemory.write, ByteMemory.write, access]
    rfl
  unfold idtSet
  rw [place]
  dsimp only
  rw [first, second, ← middle, last]
  rfl

variable {memory idtDescriptors}

/-- A gate of the table is changed, and no other byte. -/
theorem idtSet_apply (memory : ByteMemory) (idtDescriptors : Word) {i : ℕ}
    (inside : i < phixTotalInterrupts) (addr x : Word) :
    idtSet memory idtDescriptors i addr x =
      if (x - idtDescriptors).toNat / 8 = i then
        gateBytes (idtGate addr) ((x - idtDescriptors).toNat % 8)
      else memory x := by
  have place : (BitVec.ofNat 32 (sizeofIdtDesc * i)).toNat = 8 * i := by
    unfold phixTotalInterrupts at inside
    rw [BitVec.toNat_ofNat]
    exact Nat.mod_eq_of_lt (by unfold sizeofIdtDesc; omega)
  have offset : x - (idtDescriptors + BitVec.ofNat 32 (sizeofIdtDesc * i)) =
      (x - idtDescriptors) - BitVec.ofNat 32 (sizeofIdtDesc * i) := sub_add_eq_sub_sub ..
  rw [idtSet_eq_write, write_apply _ _ _ (by decide), offset]
  generalize x - idtDescriptors = distance
  generalize BitVec.ofNat 32 (sizeofIdtDesc * i) = start at place
  unfold phixTotalInterrupts at inside
  unfold sizeofIdtDesc
  have bound := distance.isLt
  rw [BitVec.toNat_sub, place]
  by_cases here : distance.toNat / 8 = i
  · rw [if_pos here, if_pos (by omega)]
    congr 1
    omega
  · rw [if_neg here, if_neg (by omega)]

/-- The gates that the loop has set. -/
theorem idtInit_loop_apply (interruptPointerTable : ℕ → Word) {i : ℕ}
    (inside : i ≤ phixTotalInterrupts) (x : Word) :
    idtInit.loop idtDescriptors interruptPointerTable i memory x =
      if (x - idtDescriptors).toNat / 8 < i then
        gateBytes (idtGate (interruptPointerTable ((x - idtDescriptors).toNat / 8)))
          ((x - idtDescriptors).toNat % 8)
      else memory x := by
  induction i with
  | zero => rfl
  | succ i ih =>
      rw [idtInit.loop, idtSet_apply _ _ (by omega), ih (by omega)]
      by_cases here : (x - idtDescriptors).toNat / 8 = i
      · rw [if_pos here, if_pos (by omega), here]
      · rw [if_neg here]
        by_cases earlier : (x - idtDescriptors).toNat / 8 < i
        · rw [if_pos earlier, if_pos (by omega)]
        · rw [if_neg earlier, if_neg (by omega)]

/-- The six bytes of `idtr_descriptor`. -/
theorem idtr_apply_of_far (memory : ByteMemory) (limit : BitVec 16) (base : Word)
    {idtrDescriptor x : Word} (far : 6 ≤ (x - idtrDescriptor).toNat) :
    (memory.store16 idtrDescriptor limit).store32 (idtrDescriptor + 2) base x = memory x := by
  have behind : 4 ≤ (x - (idtrDescriptor + 2)).toNat := by bv_omega
  rw [store32_apply_of_far _ _ behind, store16_apply_of_far _ _ (by omega)]

/-- The memory of `idt_init`: the gates in the table, and `idtr_descriptor`. -/
theorem idtInit_apply (interruptPointerTable : ℕ → Word)
    (isr80hWrapper pageFaultIntrCb idtrDescriptor x : Word) :
    (idtInit memory idtDescriptors idtrDescriptor interruptPointerTable isr80hWrapper
        pageFaultIntrCb).2 x =
      if (x - idtDescriptors).toNat < 4096 then
        gateBytes (idtGate (idtHandler interruptPointerTable isr80hWrapper pageFaultIntrCb
          ((x - idtDescriptors).toNat / 8))) ((x - idtDescriptors).toNat % 8)
      else ((memory.memset idtDescriptors 0 4096).store16 idtrDescriptor 4095).store32
        (idtrDescriptor + 2) idtDescriptors x := by
  have total : phixTotalInterrupts = 512 := rfl
  unfold idtInit idtHandler
  dsimp only
  rw [idtSet_apply _ _ (by decide), idtSet_apply _ _ (by decide), idtInit_loop_apply _ le_rfl]
  by_cases fault : (x - idtDescriptors).toNat / 8 = 14
  · rw [if_pos fault, if_pos fault, if_pos (by omega)]
  · rw [if_neg fault, if_neg fault]
    by_cases call : (x - idtDescriptors).toNat / 8 = 0x80
    · rw [if_pos call, if_pos call, if_pos (by omega)]
    · rw [if_neg call, if_neg call]
      by_cases inside : (x - idtDescriptors).toNat < 4096
      · rw [if_pos (by omega), if_pos inside]
      · rw [if_neg (by omega), if_neg inside]
        rfl

end Gates

section Installed

variable {memory : ByteMemory} {idtDescriptors idtrDescriptor : Word}
  {interruptPointerTable : ℕ → Word} {isr80hWrapper pageFaultIntrCb : Word}

/-- What `idt_load` finds in `idtr_descriptor`. -/
theorem idtInit_table (apart : IdtrApart idtDescriptors idtrDescriptor) :
    (idtInit memory idtDescriptors idtrDescriptor interruptPointerTable isr80hWrapper
      pageFaultIntrCb).1 = ⟨4095, idtDescriptors⟩ := by
  let recorded := ((memory.memset idtDescriptors 0 4096).store16 idtrDescriptor 4095).store32
    (idtrDescriptor + 2) idtDescriptors
  have loaded : (idtInit memory idtDescriptors idtrDescriptor interruptPointerTable isr80hWrapper
      pageFaultIntrCb).1 = tableAt (idtInit memory idtDescriptors idtrDescriptor
        interruptPointerTable isr80hWrapper pageFaultIntrCb).2 idtrDescriptor := rfl
  have kept (k : Word) (small : k.toNat < 6) :
      (idtInit memory idtDescriptors idtrDescriptor interruptPointerTable isr80hWrapper
        pageFaultIntrCb).2 (idtrDescriptor + k) = recorded (idtrDescriptor + k) :=
    (idtInit_apply ..).trans (if_neg (not_lt.mpr (apart k small)))
  have limit : recorded.load16 idtrDescriptor = 4095 := by
    refine Eq.trans (load16_congr fun k small => ?_)
      (load16_store16_self (memory.memset idtDescriptors 0 4096) idtrDescriptor 4095)
    have before : 4 ≤ (k - 2).toNat := by bv_omega
    exact store32_apply_of_far _ _ (by rwa [add_sub_add_left_eq_sub])
  have base : recorded.load32 (idtrDescriptor + 2) = idtDescriptors := load32_store32_self ..
  rw [loaded]
  unfold tableAt
  rw [Table.mk.injEq]
  refine ⟨(load16_congr fun k small => kept k (by omega)).trans limit,
    (load32_congr fun k small => ?_).trans base⟩
  have within : (2 + k).toNat < 6 := by bv_omega
  rw [add_assoc]
  exact kept (2 + k) within

/-- The vectors of a memory that holds the table. -/
theorem idtInit_vector {other : ByteMemory} (apart : IdtrApart idtDescriptors idtrDescriptor)
    (holds : ∀ x : Word, (x - idtDescriptors).toNat < 4096 → other x =
      (idtInit memory idtDescriptors idtrDescriptor interruptPointerTable isr80hWrapper
        pageFaultIntrCb).2 x)
    (n : Byte) {level : ℕ} (least : level ≤ 3) :
    vector other (idtInit memory idtDescriptors idtrDescriptor interruptPointerTable isr80hWrapper
      pageFaultIntrCb).1 level n =
        some (idtHandler interruptPointerTable isr80hWrapper pageFaultIntrCb n.toNat,
          kernelCodeSelector) := by
  have bound := n.isLt
  have gate : gateAt other (idtDescriptors + BitVec.ofNat 32 (8 * n.toNat)) =
      idtGate (idtHandler interruptPointerTable isr80hWrapper pageFaultIntrCb n.toNat) := by
    refine gateAt_of_bytes fun j inside => ?_
    have distance : (idtDescriptors + BitVec.ofNat 32 (8 * n.toNat) + BitVec.ofNat 32 j -
        idtDescriptors).toNat = 8 * n.toNat + j := by
      rw [BitVec.add_assoc, ← BitVec.ofNat_add, add_sub_cancel_left, BitVec.toNat_ofNat]
      omega
    have quotient : (8 * n.toNat + j) / 8 = n.toNat := by omega
    have remainder : (8 * n.toNat + j) % 8 = j := by omega
    rw [holds _ (by rw [distance]; omega), idtInit_apply, distance, if_pos (by omega), quotient,
      remainder]
  rw [idtInit_table apart]
  unfold vector
  dsimp only
  rw [gate]
  exact if_pos ⟨show 8 * n.toNat + 7 ≤ 4095 by omega, rfl, rfl, least⟩

end Installed

/-- **Every interrupt is handled by its own handler, at the kernel's level, whichever level raises
it**, once the table is set up; the rest of the memory is as it was, but for `idtr_descriptor`. -/
theorem idt_init_vectors (memory : ByteMemory) {idtDescriptors idtrDescriptor : Word}
    (apart : IdtrApart idtDescriptors idtrDescriptor) (interruptPointerTable : ℕ → Word)
    (isr80hWrapper pageFaultIntrCb : Word) :
    let installed := idtInit memory idtDescriptors idtrDescriptor interruptPointerTable
      isr80hWrapper pageFaultIntrCb
    (∀ (n : Byte) (level : ℕ), level ≤ 3 → vector installed.2 installed.1 level n =
      some (idtHandler interruptPointerTable isr80hWrapper pageFaultIntrCb n.toNat,
        kernelCodeSelector)) ∧
    tableAt installed.2 idtrDescriptor = ⟨4095, idtDescriptors⟩ ∧
    ∀ x : Word, 4096 ≤ (x - idtDescriptors).toNat → 6 ≤ (x - idtrDescriptor).toNat →
      installed.2 x = memory x := by
  intro installed
  refine ⟨fun n level least => idtInit_vector apart (fun _ _ => rfl) n least, idtInit_table apart,
    fun x outside far => ?_⟩
  have zeroed : memory.memset idtDescriptors 0 4096 x = memory x :=
    (memset_apply _ _ _ (by decide) x).trans (if_neg (not_lt.mpr outside))
  exact (idtInit_apply ..).trans ((if_neg (not_lt.mpr outside)).trans
    ((idtr_apply_of_far _ _ _ far).trans zeroed))

/-- The table at `0x10000` and the record behind it, as a linker may place them. -/
theorem idt_init_vectors_behind : vector
      (idtInit (fun _ => 0) 0x10000 0x11000 (fun n => BitVec.ofNat 32 n) 0x100000 0x200000).2
      ⟨4095, 0x10000⟩ 3 0x80 = some (0x100000, kernelCodeSelector) := by
  have apart : IdtrApart 0x10000 0x11000 := fun k small => by bv_omega
  have installed := idt_init_vectors (fun _ => 0) apart (fun n => BitVec.ofNat 32 n) 0x100000
    0x200000
  rw [← installed.2.1]
  exact installed.1 0x80 3 le_rfl

end Phix
