import Phix.Memory.Neutral

/-! # What the paging functions map

`paging_map_to` refuses arguments that are not page aligned or that end before they
start, and otherwise makes every byte of the virtual range translate to the byte of the
physical range at the same offset; the virtual range wraps, and the entries of all other
pages stay (`Phix.paging_map_to_exact`). A chunk that `paging_new_chunk` returns is the
identity map over all 4 GiB (`Phix.paging_new_chunk_identity`).
-/

namespace Phix

variable {memory : ByteMemory} {chunk : Word} {directory : PageDirectory}

/-- The pages of an accepted call are the bytes from `paddr` to `pend`. -/
theorem mapToPages_bytes {vaddr paddr pend : Word} (accepts : MapToAccepts vaddr paddr pend) :
    4096 * mapToPages paddr pend = (pend - paddr).toNat := by
  obtain ⟨-, frame, stop, ordered⟩ := accepts
  rw [BitVec.le_def] at ordered
  have difference : (pend - paddr).toNat = pend.toNat - paddr.toNat :=
    BitVec.toNat_sub_of_le (BitVec.le_def.mpr ordered)
  unfold mapToPages
  omega

/-- The lookups in a chunk whose address space is known. -/
theorem ChunkUpdate.lookup {other : ByteMemory} {space : AddressSpace}
    (update : ChunkUpdate memory other chunk directory space) (v : Word) :
    pagingGetPaddr other (other.load32 chunk) v = space.translate v ∧
      pagingGetFlags other (other.load32 chunk) v = space.flags v := by
  have wired := update.chunkAt.wired
  rw [update.chunkAt.root, pagingGetPaddr_eq wired, pagingGetFlags_eq wired, update.mapped]
  exact ⟨rfl, rfl⟩

/-- Where the address spaces agree, so do the entries that `paging_get` reads. -/
theorem ChunkUpdate.pagingGet_eq {other : ByteMemory} {space : AddressSpace}
    (chunkAt : ChunkAt memory chunk directory)
    (update : ChunkUpdate memory other chunk directory space) {v : Word}
    (same : space v = directory.space memory v) :
    pagingGet other (other.load32 chunk) v = pagingGet memory (memory.load32 chunk) v := by
  have entry : directory.entry other v = directory.entry memory v :=
    (congrFun update.mapped v).trans same
  rw [update.chunkAt.root, chunkAt.root, Phix.pagingGet_eq update.chunkAt.wired,
    Phix.pagingGet_eq chunkAt.wired, entry]

/-- **`paging_map_to` is exact.** Through a chunk whose page tables are distinct, a call
with an address that is not page aligned, or with `pend` below `paddr`, returns a negative
status and changes nothing. Any other call returns 0; afterwards the byte at each offset
`k` of the virtual range translates to the byte at offset `k` of the physical range, with
the flags of the call, and the entry of every page outside the virtual range, which wraps,
is the one from before. -/
theorem paging_map_to_exact (chunkAt : ChunkAt memory chunk directory) (vaddr paddr pend : Word)
    (flags : Byte) :
    let result := pagingMapTo memory chunk vaddr paddr pend flags
    let next := result.2
    (¬ MapToAccepts vaddr paddr pend → result.1 < 0 ∧ next = memory) ∧
    (MapToAccepts vaddr paddr pend → result.1 = 0 ∧
      (∀ k, k < pend - paddr →
        pagingGetPaddr next (next.load32 chunk) (vaddr + k) = paddr + k ∧
        pagingGetFlags next (next.load32 chunk) (vaddr + k) = flagWord flags) ∧
      ∀ v, ¬ v - vaddr < pend - paddr →
        pagingGet next (next.load32 chunk) v = pagingGet memory (memory.load32 chunk) v) := by
  intro result next
  refine ⟨fun refused => ?_, fun accepts => ?_⟩
  · have unchanged : result = (-EINVAL, memory) := pagingMapTo_refused memory chunk refused flags
    have negative : (-EINVAL : ℤ) < 0 := by decide
    exact ⟨by rw [unchanged]; exact negative, congrArg Prod.snd unchanged⟩
  · obtain ⟨status, update⟩ := chunkAt.pagingMapTo accepts flags
    have bytes := mapToPages_bytes accepts
    obtain ⟨aligned, frame, -, -⟩ := accepts
    refine ⟨status, fun k small => ?_, fun v outside => ?_⟩
    · have offset : vaddr + k - vaddr = k := add_sub_cancel_left vaddr k
      have inside : (vaddr + k - vaddr).toNat < 4096 * mapToPages paddr pend := by
        rw [bytes, offset]
        exact BitVec.lt_def.mp small
      have found := update.lookup (vaddr + k)
      rw [AddressSpace.translate_map _ inside aligned frame (flagWord_lt flags), offset,
        AddressSpace.flags_map _ inside frame (flagWord_lt flags)] at found
      exact found
    · refine update.pagingGet_eq chunkAt (AddressSpace.map_of_notMem _ ?_)
      rw [bytes, ← BitVec.lt_def]
      exact outside

/-- An empty heap has room for a chunk. -/
theorem Machine.booted_room : 1026 ≤ (Machine.booted memory).freeBlocks.card := by
  rw [Machine.booted_card]
  decide

/-- A call through a new chunk on an empty heap, whose virtual range wraps. -/
theorem paging_map_to_exact_booted : ∃ chunk next,
    (Machine.booted fun _ => 0).pagingNewChunk 7 = some (chunk, next) ∧
      let result := pagingMapTo next.memory chunk 0xfffff000 0x01000000 0x01002000 7
      result.1 = 0 ∧
        pagingGetPaddr result.2 (result.2.load32 chunk) (0xfffff000 + 0x1234) = 0x01001234 := by
  have sound := Machine.booted_sound fun _ => 0
  obtain ⟨chunk, next, made, -⟩ := sound.pagingNewChunk_some 7 Machine.booted_room
  obtain ⟨directory, new⟩ := sound.pagingNewChunk made
  refine ⟨chunk, next, made, ?_⟩
  obtain ⟨status, mapped, -⟩ := (paging_map_to_exact (new.has.chunkAt new.grown.sound)
    0xfffff000 0x01000000 0x01002000 7).2 (by decide)
  exact ⟨status, (mapped 0x1234 (by decide)).1⟩

/-- **A new page directory is the identity map.** In a chunk that `paging_new_chunk`
returns, every 32-bit address, aligned or not, translates to itself with the flags of the
call. -/
theorem paging_new_chunk_identity (machine : Machine) (flags : Byte) {next : Machine}
    (made : machine.pagingNewChunk flags = some (chunk, next)) (v : Word) :
    pagingGetPaddr next.memory (next.memory.load32 chunk) v = v ∧
      pagingGetFlags next.memory (next.memory.load32 chunk) v = flagWord flags := by
  -- What the machine records besides memory plays no part in the call.
  have bare : machine.memory = machine.bare.memory := rfl
  obtain ⟨other, again, same⟩ := Machine.pagingNewChunk_same bare made
  obtain ⟨directory, new⟩ := machine.bare_sound.pagingNewChunk again
  have wired := (new.has.chunkAt new.grown.sound).wired
  rw [same, new.has.root, pagingGetPaddr_eq wired, pagingGetFlags_eq wired, new.space]
  exact ⟨AddressSpace.translate_identity (flagWord_lt flags) v,
    AddressSpace.flags_identity (flagWord_lt flags) v⟩

/-- In a new chunk of an empty heap, the last byte of memory is itself. -/
theorem paging_new_chunk_identity_booted : ∃ chunk next,
    (Machine.booted fun _ => 0).pagingNewChunk 7 = some (chunk, next) ∧
      pagingGetPaddr next.memory (next.memory.load32 chunk) 0xffffffff = 0xffffffff := by
  obtain ⟨chunk, next, made, -⟩ :=
    (Machine.booted_sound fun _ => 0).pagingNewChunk_some 7 Machine.booted_room
  exact ⟨chunk, next, made, (paging_new_chunk_identity _ 7 made 0xffffffff).1⟩

end Phix
