import Mathlib.Logic.Function.Basic
import Mathlib.Tactic.IntervalCases
import Phix.Common
import Phix.Foundation.SegmentDescriptors

/-! # The global descriptor table

`boot/gdt/gdt.c`: the kernel describes its segments by base, limit and type and has the table
of eight-byte descriptors computed from them. The table is a sequence of bytes; descriptor `i`
starts at byte `8 * i`. A limit above `65536` is stored in units of pages, so it has to end in
twelve ones, and `encode_gdt_entry` panics otherwise (`Phix.encodeGdtEntry_eq_none`). Every
other description is what the processor reads back
(`Phix.gdt_descriptors_decode_to_their_segments`).
-/

namespace Phix

structure GdtStructured where
  base : Word
  limit : Word
  type : Byte

/-- `sizeof(struct gdt)`: the structure is packed. -/
def gdtSize : ℕ := 8

/-- `encode_gdt_entry` over the byte table that holds the target; a panic does not return. -/
def encodeGdtEntry (table : ℕ → Byte) (target : ℕ) (src : GdtStructured) : Option (ℕ → Byte) :=
  if src.limit > 65536 ∧ src.limit &&& 0xFFF ≠ 0xFFF then none
  else
    let table := Function.update table (target + 6) 0x40
    let table := if src.limit > 65536 then Function.update table (target + 6) 0xC0 else table
    let limit := if src.limit > 65536 then src.limit >>> 12 else src.limit
    -- Encode the limit
    let table := Function.update table target ((limit &&& 0xFF).setWidth 8)
    let table := Function.update table (target + 1) (((limit >>> 8) &&& 0xFF).setWidth 8)
    let table := Function.update table (target + 6)
      (((table (target + 6)).setWidth 32 ||| ((limit >>> 16) &&& 0x0F)).setWidth 8)
    -- Encode the base
    let table := Function.update table (target + 2) ((src.base &&& 0xFF).setWidth 8)
    let table := Function.update table (target + 3) (((src.base >>> 8) &&& 0xFF).setWidth 8)
    let table := Function.update table (target + 4) (((src.base >>> 16) &&& 0xFF).setWidth 8)
    let table := Function.update table (target + 7) (((src.base >>> 24) &&& 0xFF).setWidth 8)
    -- Set the type
    some (Function.update table (target + 5) src.type)

def gdtStructuredToGdt.loop : (structured : List GdtStructured) → (i : ℕ) → (gdt : ℕ → Byte) →
    Option (ℕ → Byte)
  | [], _, gdt => some gdt
  | src :: rest, i, gdt => (encodeGdtEntry gdt (gdtSize * i) src).bind (loop rest (i + 1))

def gdtStructuredToGdt (gdt : ℕ → Byte) (structured : List GdtStructured) : Option (ℕ → Byte) :=
  gdtStructuredToGdt.loop structured 0 gdt

/-- The limit is small or ends in twelve ones. -/
def GdtStructured.Accepted (src : GdtStructured) : Prop :=
  src.limit ≤ 65536 ∨ src.limit &&& 0xFFF = 0xFFF

/-- The segment that the description asks for. -/
def GdtStructured.segment (src : GdtStructured) : SegmentDescriptors.Segment where
  base := src.base.toNat
  limit := src.limit.toNat
  access := src.type
  size32 := true

theorem encodeGdtEntry_eq_none (table : ℕ → Byte) (target : ℕ) (src : GdtStructured) :
    encodeGdtEntry table target src = none ↔ ¬ src.Accepted := by
  unfold encodeGdtEntry GdtStructured.Accepted
  by_cases refused : src.limit > 65536 ∧ src.limit &&& 0xFFF ≠ 0xFFF
  · rw [if_pos refused]
    exact iff_of_true rfl (not_or.mpr ⟨BitVec.not_le.mpr refused.1, refused.2⟩)
  · rw [if_neg refused]
    refine iff_of_false (Option.some_ne_none _) (not_not.mpr ?_)
    rw [not_and_or, not_ne_iff] at refused
    exact refused.imp BitVec.not_lt.mp id

/-- The limit as it is stored. -/
def GdtStructured.storedLimit (src : GdtStructured) : Word :=
  if src.limit > 65536 then src.limit >>> 12 else src.limit

/-- The flags in the high half of byte 6. -/
def GdtStructured.flags (src : GdtStructured) : Byte := if src.limit > 65536 then 0xC0 else 0x40

/-- The eight bytes of a descriptor. -/
def GdtStructured.descriptor (src : GdtStructured) : ℕ → Byte
  | 0 => (src.storedLimit &&& 0xFF).setWidth 8
  | 1 => ((src.storedLimit >>> 8) &&& 0xFF).setWidth 8
  | 2 => (src.base &&& 0xFF).setWidth 8
  | 3 => ((src.base >>> 8) &&& 0xFF).setWidth 8
  | 4 => ((src.base >>> 16) &&& 0xFF).setWidth 8
  | 5 => src.type
  | 6 => (src.flags.setWidth 32 ||| ((src.storedLimit >>> 16) &&& 0x0F)).setWidth 8
  | _ => ((src.base >>> 24) &&& 0xFF).setWidth 8

/-- An accepted description is written to the eight bytes of its descriptor only. -/
theorem encodeGdtEntry_of_accepted (table : ℕ → Byte) (target : ℕ) {src : GdtStructured}
    (accepted : src.Accepted) :
    ∃ after, encodeGdtEntry table target src = some after ∧
      (∀ j < gdtSize, after (target + j) = src.descriptor j) ∧
      ∀ p, p < target ∨ target + gdtSize ≤ p → after p = table p := by
  have passes : ¬ (src.limit > 65536 ∧ src.limit &&& 0xFFF ≠ 0xFFF) := by
    rw [not_and_or, not_ne_iff]
    exact accepted.imp BitVec.not_lt.mpr id
  unfold encodeGdtEntry
  rw [if_neg passes]
  refine ⟨_, rfl, fun j inside => ?_, fun p outside => ?_⟩
  · unfold gdtSize at inside
    unfold GdtStructured.descriptor GdtStructured.storedLimit GdtStructured.flags
    by_cases large : src.limit > 65536
    · simp only [if_pos large]
      interval_cases j <;> simp
    · simp only [if_neg large]
      interval_cases j <;> simp
  · unfold gdtSize at outside
    have away : ∀ k < 8, p ≠ target + k := fun k inside => by omega
    have here : p ≠ target := away 0 (by decide)
    by_cases large : src.limit > 65536
    · simp only [if_pos large]
      simp [here, away]
    · simp only [if_neg large]
      simp [here, away]

private theorem fragment_toNat (w : Word) (k : ℕ) :
    (((w >>> k) &&& 0xFF).setWidth 8 : Byte).toNat = w.toNat / 2 ^ k % 2 ^ 8 := by
  have masked := MachineWord.and_low_toNat (w >>> k) 8 (by decide)
  rw [BitVec.toNat_ushiftRight, Nat.shiftRight_eq_div_pow] at masked
  rw [BitVec.toNat_setWidth]
  change ((w >>> k) &&& BitVec.ofNat 32 (2 ^ 8 - 1)).toNat % 2 ^ 8 = _
  rw [masked, Nat.mod_mod]

private theorem fragment_zero_toNat (w : Word) :
    ((w &&& 0xFF).setWidth 8 : Byte).toNat = w.toNat % 2 ^ 8 := by
  have fragment := fragment_toNat w 0
  rw [BitVec.ushiftRight_zero, Nat.pow_zero, Nat.div_one] at fragment
  exact fragment

namespace GdtStructured

variable (src : GdtStructured)

private theorem descriptor_base : SegmentDescriptors.base src.descriptor = src.base.toNat :=
  SegmentDescriptors.base_of_fragments src.base.isLt (fragment_zero_toNat src.base)
    (fragment_toNat src.base 8) (fragment_toNat src.base 16) (fragment_toNat src.base 24)

private theorem descriptor_six : src.descriptor 6 =
    (src.flags.setWidth 32 ||| ((src.storedLimit >>> 16) &&& 0x0F)).setWidth 8 := rfl

/-- The flags and the top of the limit share byte 6. -/
private theorem descriptor_six_mod :
    (src.descriptor 6).toNat % 2 ^ 4 = src.storedLimit.toNat / 2 ^ 16 % 2 ^ 4 := by
  have masked : ((src.storedLimit >>> 16) &&& 0x0F).toNat =
    src.storedLimit.toNat / 2 ^ 16 % 2 ^ 4 :=
    (MachineWord.and_low_toNat (src.storedLimit >>> 16) 4 (by decide)).trans (by
      rw [BitVec.toNat_ushiftRight, Nat.shiftRight_eq_div_pow])
  have clear : src.flags.toNat % 2 ^ 4 = 0 := by
    unfold flags
    split <;> decide
  have flagsWord : (src.flags.setWidth 32 : Word).toNat = src.flags.toNat := by
    rw [BitVec.toNat_setWidth]
    exact Nat.mod_eq_of_lt (lt_trans src.flags.isLt (by decide))
  rw [descriptor_six, BitVec.toNat_setWidth, BitVec.toNat_or, masked, flagsWord,
    Nat.mod_mod_of_dvd _ (by decide), Nat.or_mod_two_pow, clear, Nat.zero_or, Nat.mod_mod]

private theorem descriptor_six_bit {k : ℕ} (high : 4 ≤ k) (inside : k < 8) :
    (src.descriptor 6).getLsbD k = src.flags.getLsbD k := by
  rw [descriptor_six, BitVec.getLsbD_setWidth, BitVec.getLsbD_or, BitVec.getLsbD_and,
    BitVec.getLsbD_setWidth]
  have clear : (0x0F : Word).getLsbD k = false := by interval_cases k <;> decide
  rw [clear, Bool.and_false, Bool.or_false, decide_eq_true inside,
    decide_eq_true (show k < 32 by omega), Bool.true_and, Bool.true_and]

theorem storedLimit_toNat : src.storedLimit.toNat =
    if 65536 < src.limit.toNat then src.limit.toNat / 4096 else src.limit.toNat := by
  unfold storedLimit
  by_cases large : src.limit > 65536
  · have more : 65536 < src.limit.toNat := large
    rw [if_pos large, if_pos more, BitVec.toNat_ushiftRight, Nat.shiftRight_eq_div_pow]
  · have less : ¬ 65536 < src.limit.toNat := large
    rw [if_neg large, if_neg less]

theorem Accepted.ends_in_ones {src : GdtStructured} (accepted : src.Accepted)
    (large : 65536 < src.limit.toNat) : src.limit.toNat % 4096 = 4095 := by
  have ones : src.limit &&& 0xFFF = 0xFFF :=
    accepted.resolve_left (BitVec.not_le.mpr large)
  have masked : (src.limit &&& 0xFFF).toNat = src.limit.toNat % 4096 :=
    MachineWord.and_low_toNat src.limit 12 (by decide)
  rw [← masked]
  exact congrArg BitVec.toNat ones

private theorem descriptor_rawLimit :
    SegmentDescriptors.rawLimit src.descriptor = src.storedLimit.toNat := by
  have below := src.limit.isLt
  have bound : src.storedLimit.toNat < 2 ^ 20 := by
    rw [storedLimit_toNat]
    split <;> omega
  exact SegmentDescriptors.rawLimit_of_fragments bound (fragment_zero_toNat src.storedLimit)
    (fragment_toNat src.storedLimit 8) src.descriptor_six_mod

private theorem descriptor_granular :
    SegmentDescriptors.granular src.descriptor = decide (65536 < src.limit.toNat) := by
  unfold SegmentDescriptors.granular
  rw [descriptor_six_bit src (by decide) (by decide)]
  unfold flags
  by_cases large : src.limit > 65536
  · rw [if_pos large, decide_eq_true (show 65536 < src.limit.toNat from large)]
    decide
  · rw [if_neg large, decide_eq_false (show ¬ 65536 < src.limit.toNat from large)]
    decide

private theorem descriptor_size32 : (src.descriptor 6).getLsbD 6 = true := by
  rw [descriptor_six_bit src (by decide) (by decide)]
  unfold flags
  split <;> decide

variable {src}

/-- The processor reads back what an accepted description asks for. -/
theorem decode_descriptor (accepted : src.Accepted) :
    SegmentDescriptors.decode src.descriptor = src.segment := by
  have limit : SegmentDescriptors.limit src.descriptor = src.limit.toNat := by
    have raw := src.descriptor_rawLimit
    have granular := src.descriptor_granular
    rw [storedLimit_toNat] at raw
    by_cases large : 65536 < src.limit.toNat
    · rw [if_pos large] at raw
      rw [decide_eq_true large] at granular
      exact SegmentDescriptors.limit_of_granular granular raw (accepted.ends_in_ones large)
    · rw [if_neg large] at raw
      rw [decide_eq_false large] at granular
      exact SegmentDescriptors.limit_of_bytes granular raw
  exact SegmentDescriptors.Segment.ext src.descriptor_base limit rfl src.descriptor_size32

end GdtStructured

/-- The loop writes the descriptors from `i` on, and only these. -/
private theorem gdtStructuredToGdt.loop_spec (structured : List GdtStructured) (i : ℕ)
    (gdt : ℕ → Byte) (accepted : ∀ src ∈ structured, src.Accepted) :
    ∃ after, gdtStructuredToGdt.loop structured i gdt = some after ∧
      (∀ k src, structured[k]? = some src →
        ∀ j < gdtSize, after (gdtSize * (i + k) + j) = src.descriptor j) ∧
      ∀ p, p < gdtSize * i ∨ gdtSize * (i + structured.length) ≤ p → after p = gdt p := by
  induction structured generalizing i gdt with
  | nil =>
      refine ⟨gdt, rfl, fun k src absent => ?_, fun p _ => rfl⟩
      rw [List.getElem?_nil] at absent
      cases absent
  | cons first rest ih =>
      obtain ⟨first_accepted, rest_accepted⟩ := List.forall_mem_cons.mp accepted
      obtain ⟨middle, encoded, written, kept⟩ :=
        encodeGdtEntry_of_accepted gdt (gdtSize * i) first_accepted
      obtain ⟨after, looped, later, frame⟩ := ih (i + 1) middle rest_accepted
      unfold gdtSize at *
      refine ⟨after, ?_, fun k src entry j inside => ?_, fun p outside => ?_⟩
      · unfold gdtStructuredToGdt.loop gdtSize
        rw [encoded]
        exact looped
      · cases k with
        | zero =>
            cases entry
            rw [frame _ (.inl (by omega))]
            exact written j inside
        | succ k =>
            have next := later k src entry j inside
            rw [show i + (k + 1) = i + 1 + k by omega]
            exact next
      · rw [List.length_cons] at outside
        rw [frame p (by omega), kept p (by omega)]

/-- **Segment descriptors decode to what was asked for.** The processor reads every description
that `encode_gdt_entry` accepts back from the table; the bytes behind the table do not change. -/
theorem gdt_descriptors_decode_to_their_segments (gdt : ℕ → Byte)
    (structured : List GdtStructured) (accepted : ∀ src ∈ structured, src.Accepted) :
    ∃ after, gdtStructuredToGdt gdt structured = some after ∧
      (∀ i src, structured[i]? = some src →
        SegmentDescriptors.decode (fun j => after (gdtSize * i + j)) = src.segment) ∧
      ∀ p, gdtSize * structured.length ≤ p → after p = gdt p := by
  obtain ⟨after, returned, written, frame⟩ :=
    gdtStructuredToGdt.loop_spec structured 0 gdt accepted
  refine ⟨after, returned, fun i src entry => ?_, fun p behind => frame p (.inr ?_)⟩
  · rw [← GdtStructured.decode_descriptor (accepted src (List.mem_of_getElem? entry))]
    have bytes := written i src entry
    rw [Nat.zero_add] at bytes
    unfold gdtSize at *
    unfold SegmentDescriptors.decode SegmentDescriptors.limit SegmentDescriptors.granular
      SegmentDescriptors.rawLimit SegmentDescriptors.base
    simp only [bytes 0 (by decide), bytes 1 (by decide), bytes 2 (by decide), bytes 3 (by decide),
      bytes 4 (by decide), bytes 5 (by decide), bytes 6 (by decide), bytes 7 (by decide)]
  · rw [Nat.zero_add]
    exact behind

/-- The null segment and a data segment of all four gigabytes. -/
theorem gdt_of_flat_data_segment :
    ∃ after, gdtStructuredToGdt (fun _ => 0) [⟨0, 0, 0⟩, ⟨0, 0xFFFFFFFF, 0x92⟩] = some after ∧
      (∀ i src, [⟨0, 0, 0⟩, ⟨0, 0xFFFFFFFF, 0x92⟩][i]? = some src →
        SegmentDescriptors.decode (fun j => after (gdtSize * i + j)) =
          GdtStructured.segment src) ∧
      ∀ p, gdtSize * 2 ≤ p → after p = 0 := by
  refine gdt_descriptors_decode_to_their_segments (fun _ => 0)
    [⟨0, 0, 0⟩, ⟨0, 0xFFFFFFFF, 0x92⟩] fun src listed => ?_
  rw [List.mem_pair] at listed
  rcases listed with rfl | rfl
  · exact .inl (by decide)
  · exact .inr (by decide)

end Phix
