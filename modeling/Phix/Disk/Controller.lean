import Phix.Common
import Phix.Foundation.AtaDevice

/-! # Reading sectors through the ports

`disk_read_sector` of `disk/disk.c`: the registers of the first ATA channel are written through
its ports, the status is polled before each sector, and its words are stored one by one. The
device behind the ports is a parameter. If it does what is documented of it, a call for sectors
that the drive has, on the idle device, returns for a total of at most 256, and then it has stored
the sectors that the low 28 bits of the address select, on the drive that bit 28 selects
(`Phix.disk_read_sector_exact`).
-/

namespace Phix

open Ata

/-- The ports of the registers of the first channel. -/
def ataPort : Register → BitVec 16
  | .data => 0x1F0
  | .count => 0x1F2
  | .lbaLow => 0x1F3
  | .lbaMiddle => 0x1F4
  | .lbaHigh => 0x1F5
  | .device => 0x1F6
  | .command => 0x1F7

/-- The state of what is behind the ports, and the memory. -/
structure Ports (σ : Type) where
  state : σ
  memory : ByteMemory

namespace Ports

section Driver

variable {σ : Type} (device : Device (BitVec 16) σ)

def outb (ports : Ports σ) (port : BitVec 16) (val : Byte) : Ports σ :=
  { ports with state := device.outByte ports.state port val }

def insb (ports : Ports σ) (port : BitVec 16) : Byte × Ports σ :=
  let (value, state) := device.inByte ports.state port
  (value, { ports with state })

def insw (ports : Ports σ) (port : BitVec 16) : BitVec 16 × Ports σ :=
  let (value, state) := device.inWord ports.state port
  (value, { ports with state })

/-- `while (!(insb(0x1F7) & 0x08))`, in at most the given number of rounds. -/
def awaitBuffer : (polls : ℕ) → Ports σ → Option (Ports σ)
  | 0, _ => none
  | polls + 1, ports =>
      let (status, ports) := ports.insb device 0x1F7
      if status &&& 0x08 = 0 then awaitBuffer polls ports else some ports

/-- The inner loop of `disk_read_sector`, with the pointer behind the words. -/
def copyWords : (words : ℕ) → Ports σ → (p : Word) → Ports σ × Word
  | 0, ports, p => (ports, p)
  | words + 1, ports, p =>
      let (word, ports) := ports.insw device 0x1F0
      copyWords words { ports with memory := ports.memory.store16 p word } (p + 2)

/-- The outer loop of `disk_read_sector`. -/
def readSectors (polls : ℕ) : (sectors : ℕ) → Ports σ → (p : Word) → Option (Ports σ)
  | 0, ports, _ => some ports
  | sectors + 1, ports, p => do
      let ports ← ports.awaitBuffer device polls
      let (ports, p) := ports.copyWords device 256 p
      readSectors polls sectors ports p

/-- The writes of `disk_read_sector` to the registers. -/
def command (ports : Ports σ) (lba total : Word) : Ports σ :=
  let ports := ports.outb device 0x1F6 ((lba.sshiftRight 24 ||| 0xE0).setWidth 8)
  let ports := ports.outb device 0x1F2 (total.setWidth 8)
  let ports := ports.outb device 0x1F3 ((lba &&& 0xff).setWidth 8)
  let ports := ports.outb device 0x1F4 ((lba.sshiftRight 8).setWidth 8)
  let ports := ports.outb device 0x1F5 ((lba.sshiftRight 16).setWidth 8)
  ports.outb device 0x1F7 0x20

/-- `disk_read_sector`, when the status is read at most `polls` times in a row. -/
def diskReadSector (polls : ℕ) (ports : Ports σ) (lba total buf : Word) : Option (Int × Ports σ) :=
  (readSectors device polls total.toInt.toNat (ports.command device lba total) buf).map
    fun ports => (0, ports)

/-- `disk_read_block`; only `disk0` is read. -/
def diskReadBlock (polls : ℕ) (isDisk0 : Bool) (ports : Ports σ) (lba total buf : Word) :
    Option (Int × Ports σ) :=
  if isDisk0 then diskReadSector device polls ports lba total buf else some (- EIO, ports)

/-! The loops in terms of the device. -/

theorem insb_status (ports : Ports σ) : ports.insb device 0x1F7 =
    ((device.inByte ports.state (ataPort .command)).1,
      { ports with state := (device.inByte ports.state (ataPort .command)).2 }) := rfl

theorem insw_data (ports : Ports σ) : ports.insw device 0x1F0 =
    ((device.inWord ports.state (ataPort .data)).1,
      { ports with state := (device.inWord ports.state (ataPort .data)).2 }) := rfl

theorem awaitBuffer_eq (polls : ℕ) (ports : Ports σ) : ports.awaitBuffer device polls =
    (device.poll (ataPort .command) polls ports.state).map fun state => { ports with state } := by
  induction polls generalizing ports with
  | zero => rfl
  | succ polls ih =>
      have mask : (0x08 : Byte) = dataRequest := rfl
      rw [awaitBuffer, insb_status, Device.poll_succ, mask]
      dsimp only
      by_cases unready : (device.inByte ports.state (ataPort .command)).1 &&& dataRequest = 0
      · rw [if_pos unready, if_pos unready]
        exact ih _
      · rw [if_neg unready, if_neg unready]
        rfl

theorem copyWords_eq (words : ℕ) (ports : Ports σ) (p : Word) : ports.copyWords device words p =
    ({ state := (device.transfer (ataPort .data) words ports.state ports.memory p).1
       memory := (device.transfer (ataPort .data) words ports.state ports.memory p).2 },
      p + BitVec.ofNat 32 (2 * words)) := by
  induction words generalizing ports p with
  | zero => exact Prod.ext rfl (BitVec.add_zero p).symm
  | succ words ih =>
      rw [copyWords, insw_data, Device.transfer_succ]
      dsimp only
      rw [ih, Nat.mul_succ, Nat.add_comm (2 * words), BitVec.ofNat_add, ← BitVec.add_assoc]
      rfl

end Driver

/-- The bytes of the sectors of a drive from `sector` on. -/
def sectorBytes (media : Bool → ℕ → ℕ → Byte) (drive : Bool) (sector i : ℕ) : Byte :=
  media drive (sector + i / 512) (i % 512)

theorem sectorBytes_first (media : Bool → ℕ → ℕ → Byte) (drive : Bool) (sector : ℕ) {i : ℕ}
    (inside : i < 512) : sectorBytes media drive sector i = media drive sector i := by
  unfold sectorBytes
  rw [Nat.div_eq_of_lt inside, Nat.mod_eq_of_lt inside, Nat.add_zero]

/-- The first sector is followed by the others. -/
theorem write_sectors (memory : ByteMemory) (p : Word) (media : Bool → ℕ → ℕ → Byte)
    (drive : Bool) (sector n : ℕ) :
    (memory.write p (media drive sector) 512).write (p + 512)
        (sectorBytes media drive (sector + 1)) (512 * n) =
      memory.write p (sectorBytes media drive sector) (512 * (n + 1)) := by
  have first : memory.write p (media drive sector) 512 =
      memory.write p (sectorBytes media drive sector) 512 :=
    memory.write_congr p fun i inside => (sectorBytes_first media drive sector inside).symm
  have others : sectorBytes media drive (sector + 1) =
      fun i => sectorBytes media drive sector (512 + i) := by
    funext i
    unfold sectorBytes
    rw [Nat.add_mod_left, Nat.add_div_left i (by decide), Nat.add_right_comm, Nat.add_assoc]
  rw [first, others, Nat.mul_succ, Nat.add_comm (512 * n)]
  exact memory.write_append p _ 512 (512 * n)

/-! The address and the total, as the registers take them. -/

/-- The sector that an address selects on its drive. -/
def sectorOf (lba : Word) : ℕ := lba.toNat % 2 ^ 28

/-- The drive that an address selects. -/
def driveOf (lba : Word) : Bool := lba.getLsbD 28

/-- How many sectors a total asks the device for. -/
def sectorCount (total : Word) : ℕ :=
  if total.toNat % 256 = 0 then 256 else total.toNat % 256

/-- A byte of the address, shifted down. -/
private theorem shifted_byte (lba : Word) (n : ℕ) (inside : n + 8 ≤ 32) :
    (lba.sshiftRight n).setWidth 8 = lba.extractLsb' n 8 := by
  ext i _
  simp only [BitVec.getElem_setWidth, BitVec.getLsbD_sshiftRight, BitVec.getElem_extractLsb']
  grind

private theorem address_byte (lba : Word) (n : ℕ) (inside : n + 8 ≤ 32) :
    ((lba.sshiftRight n).setWidth 8).toNat = lba.toNat / 2 ^ n % 2 ^ 8 := by
  rw [shifted_byte lba n inside, BitVec.extractLsb'_toNat, Nat.shiftRight_eq_div_pow]

/-- The byte that goes to the device register. -/
private theorem device_byte (lba : Word) :
    ((lba.sshiftRight 24 ||| 0xE0).setWidth 8).toNat % 2 ^ 4 = lba.toNat / 2 ^ 24 % 2 ^ 4 ∧
      ((lba.sshiftRight 24 ||| 0xE0).setWidth 8).getLsbD 4 = lba.getLsbD 28 ∧
      ((lba.sshiftRight 24 ||| 0xE0).setWidth 8).getLsbD 6 = true := by
  have mask : (0xE0 : Word).setWidth 8 = 0xE0 := rfl
  rw [BitVec.setWidth_or, shifted_byte lba 24 (by decide), mask]
  refine ⟨?_, ?_, ?_⟩
  · rw [BitVec.toNat_or, Nat.or_mod_two_pow, BitVec.extractLsb'_toNat, Nat.shiftRight_eq_div_pow]
    have clear : (0xE0 : Byte).toNat % 2 ^ 4 = 0 := rfl
    rw [clear, Nat.or_zero, Nat.mod_mod_of_dvd _ (by decide)]
  · rw [BitVec.getLsbD_or, BitVec.getLsbD_extractLsb']
    have clear : (0xE0 : Byte).getLsbD 4 = false := rfl
    rw [clear, Bool.or_false]
    rfl
  · rw [BitVec.getLsbD_or]
    have set : (0xE0 : Byte).getLsbD 6 = true := rfl
    rw [set, Bool.or_true]

/-- The registers as `disk_read_sector` leaves them. -/
def commandRegisters (lba total : Word) : Registers where
  count := total.setWidth 8
  lbaLow := (lba &&& 0xff).setWidth 8
  lbaMiddle := (lba.sshiftRight 8).setWidth 8
  lbaHigh := (lba.sshiftRight 16).setWidth 8
  device := (lba.sshiftRight 24 ||| 0xE0).setWidth 8

theorem commandRegisters_lbaMode (lba total : Word) : (commandRegisters lba total).lbaMode = true :=
  (device_byte lba).2.2

theorem commandRegisters_drive (lba total : Word) :
    (commandRegisters lba total).drive = driveOf lba := (device_byte lba).2.1

theorem commandRegisters_lba (lba total : Word) :
    (commandRegisters lba total).lba = sectorOf lba := by
  have low : ((lba &&& 0xff).setWidth 8).toNat = lba.toNat % 2 ^ 8 := by
    rw [BitVec.setWidth_and, show (0xff : Word).setWidth 8 = BitVec.allOnes 8 from rfl,
      BitVec.and_allOnes, BitVec.toNat_setWidth]
  change ((lba &&& 0xff).setWidth 8).toNat +
    2 ^ 8 * ((lba.sshiftRight 8).setWidth 8).toNat +
    2 ^ 16 * ((lba.sshiftRight 16).setWidth 8).toNat +
    2 ^ 24 * (((lba.sshiftRight 24 ||| 0xE0).setWidth 8).toNat % 2 ^ 4) = _
  rw [low, (device_byte lba).1, address_byte lba 8 (by decide), address_byte lba 16 (by decide),
    sectorOf]
  omega

theorem commandRegisters_sectors (lba total : Word) :
    (commandRegisters lba total).sectors = sectorCount total := by
  have byte : (total.setWidth 8).toNat = total.toNat % 256 := BitVec.toNat_setWidth ..
  have zero : total.setWidth 8 = 0 ↔ total.toNat % 256 = 0 := by
    rw [← BitVec.toNat_inj, byte]
    rfl
  change (if total.setWidth 8 = 0 then 256 else (total.setWidth 8).toNat) = _
  rw [byte]
  exact if_congr zero rfl rfl

/-- The total counts the sectors, unless the byte of the register does not hold it. -/
theorem sectorCount_eq {total : Word} (positive : 0 < total.toInt) (small : total.toInt ≤ 256) :
    sectorCount total = total.toInt.toNat := by
  have unsigned : total.toInt = total.toNat := by
    have bound := total.isLt
    rw [BitVec.toInt_eq_toNat_cond] at positive ⊢
    split at positive
    · rw [if_pos ‹_›]
    · omega
  unfold sectorCount
  split <;> omega

theorem sectorCount_lt {total : Word} (large : 256 < total.toInt) :
    sectorCount total < total.toInt.toNat := by
  unfold sectorCount
  split <;> omega

theorem sectorCount_pos (total : Word) : 0 < sectorCount total := by
  unfold sectorCount
  split <;> omega

section Reads

variable {σ : Type} {device : Device (BitVec 16) σ} {media : Bool → ℕ → ℕ → Byte}
  {capacity : Bool → ℕ} {At : σ → Phase → Prop}
  (documented : device.Documented ataPort media capacity At) {state : σ}

include documented

/-- One round of the outer loop, when the status is read often enough. -/
theorem readSectors_succ {drive : Bool} {sector left : ℕ}
    (serving : Remaining At drive sector (left + 1) state) (memory : ByteMemory) (p : Word) :
    ∃ next, Remaining At drive (sector + 1) left next ∧ ∃ bound, ∀ polls, ∀ sectors,
      readSectors device polls (sectors + 1) ⟨state, memory⟩ p =
        if bound ≤ polls then
          readSectors device polls sectors ⟨next, memory.write p (media drive sector) 512⟩ (p + 512)
        else none := by
  obtain ⟨bound, requested, ready, polled⟩ := documented.polled serving
  obtain ⟨next, remaining, transferred⟩ := documented.transfer_sector ready memory p
  have behind : BitVec.ofNat 32 (2 * 256) = (512 : Word) := by decide
  refine ⟨next, remaining, bound, fun polls sectors => ?_⟩
  rw [readSectors, awaitBuffer_eq, polled polls]
  split
  · rw [Option.map_some, Option.bind_eq_bind, Option.bind_some, copyWords_eq, transferred, behind]
  · rfl

/-- The loop stores the sectors that are being delivered. -/
theorem readSectors_serving {drive : Bool} {sector left n : ℕ}
    (serving : Remaining At drive sector (n + left) state) (memory : ByteMemory) (p : Word) :
    ∃ last, Remaining At drive (sector + n) left last ∧ ∃ bound, ∀ polls, bound ≤ polls →
      readSectors device polls n ⟨state, memory⟩ p =
        some ⟨last, memory.write p (sectorBytes media drive sector) (512 * n)⟩ := by
  induction n generalizing state sector memory p with
  | zero =>
      rw [Nat.zero_add] at serving
      exact ⟨state, serving, 0, fun _ _ => rfl⟩
  | succ n ih =>
      rw [Nat.succ_add] at serving
      obtain ⟨next, remaining, bound, round⟩ := readSectors_succ documented serving memory p
      obtain ⟨last, served, bound', rest⟩ := ih remaining
        (memory.write p (media drive sector) 512) (p + 512)
      refine ⟨last, ?_, max bound bound', fun polls enough => ?_⟩
      · rw [Nat.add_comm n 1, ← Nat.add_assoc]
        exact served
      · rw [round, if_pos (by omega), rest polls (by omega), write_sectors]

/-- A loop over more sectors than are delivered does not end. -/
theorem readSectors_beyond {drive : Bool} {sector left : ℕ}
    (serving : Remaining At drive sector left state) {sectors : ℕ} (more : left < sectors)
    (polls : ℕ) (memory : ByteMemory) (p : Word) :
    readSectors device polls sectors ⟨state, memory⟩ p = none := by
  obtain ⟨rounds, rfl⟩ := Nat.exists_eq_add_of_lt more
  clear more
  induction left generalizing state sector memory p with
  | zero =>
      rw [Nat.zero_add, readSectors, awaitBuffer_eq, documented.poll_idle serving]
      rfl
  | succ left ih =>
      obtain ⟨next, remaining, bound, round⟩ := readSectors_succ documented serving memory p
      rw [show left + 1 + rounds + 1 = left + rounds + 1 + 1 by omega, round]
      split
      · exact ih remaining ..
      · rfl

/-- The command makes an idle device deliver the sectors. -/
theorem command_serving (idle : Idle At state) {lba total : Word}
    (within : sectorOf lba + sectorCount total ≤ capacity (driveOf lba)) (memory : ByteMemory) :
    ∃ next, command device ⟨state, memory⟩ lba total = ⟨next, memory⟩ ∧
      Remaining At (driveOf lba) (sectorOf lba) (sectorCount total) next := by
  obtain ⟨registers, here⟩ := idle
  have addressed := documented.keeps (documented.keeps (documented.keeps (documented.keeps
    (documented.keeps here (show Register.device ≠ .data by decide) (by decide)
      (commandRegisters lba total).device)
    (show Register.count ≠ .data by decide) (by decide) (commandRegisters lba total).count)
    (show Register.lbaLow ≠ .data by decide) (by decide) (commandRegisters lba total).lbaLow)
    (show Register.lbaMiddle ≠ .data by decide) (by decide) (commandRegisters lba total).lbaMiddle)
    (show Register.lbaHigh ≠ .data by decide) (by decide) (commandRegisters lba total).lbaHigh
  change At _ (.idle (commandRegisters lba total)) at addressed
  have started := documented.starts addressed (commandRegisters_lbaMode lba total)
  rw [commandRegisters_lba, commandRegisters_drive, commandRegisters_sectors] at started
  exact ⟨_, rfl, started within⟩

/-- What a read of 1 to 256 sectors stores. -/
theorem diskReadSector_stored (idle : Idle At state) {lba total : Word}
    (within : sectorOf lba + sectorCount total ≤ capacity (driveOf lba)) (memory : ByteMemory)
    (buf : Word) (positive : 0 < total.toInt) (small : total.toInt ≤ 256) :
    ∃ last, Idle At last ∧ ∃ bound, ∀ polls, bound ≤ polls →
      diskReadSector device polls ⟨state, memory⟩ lba total buf = some (0, ⟨last, memory.write buf
        (sectorBytes media (driveOf lba) (sectorOf lba)) (512 * total.toInt.toNat)⟩) := by
  obtain ⟨next, sent, serving⟩ := command_serving documented idle within memory
  rw [sectorCount_eq positive small, ← Nat.add_zero total.toInt.toNat] at serving
  obtain ⟨last, served, bound, reads⟩ := readSectors_serving documented serving memory buf
  refine ⟨last, served, bound, fun polls enough => ?_⟩
  unfold diskReadSector
  rw [sent, reads polls enough]
  rfl

/-- A read of no sectors leaves the command behind. -/
theorem diskReadSector_none (idle : Idle At state) {lba total : Word}
    (within : sectorOf lba + sectorCount total ≤ capacity (driveOf lba)) (memory : ByteMemory)
    (buf : Word) (none : total.toInt ≤ 0) :
    ∃ last, Remaining At (driveOf lba) (sectorOf lba) (sectorCount total) last ∧ ¬ Idle At last ∧
      ∀ polls, diskReadSector device polls ⟨state, memory⟩ lba total buf =
        some (0, ⟨last, memory⟩) := by
  obtain ⟨next, sent, serving⟩ := command_serving documented idle within memory
  refine ⟨next, serving, documented.not_idle serving (sectorCount_pos total), fun polls => ?_⟩
  unfold diskReadSector
  rw [sent, Int.toNat_of_nonpos none]
  rfl

end Reads

end Ports

open Ports

/-- **What a read of sectors through the ports does, on an idle device that does what is documented
of it, for sectors that the drive has.** It returns exactly
for a total of at most 256. A total from 1 to 256 stores that many sectors of the drive, the
first being the one that the address selects, and leaves the device idle; with a total below
1 the call returns at once, and the command is still being carried out. -/
theorem disk_read_sector_exact {σ : Type} {device : Device (BitVec 16) σ}
    {media : Bool → ℕ → ℕ → Byte} {capacity : Bool → ℕ} {At : σ → Phase → Prop}
    (documented : device.Documented ataPort media capacity At) {state : σ} (idle : Idle At state)
    {lba total : Word} (within : sectorOf lba + sectorCount total ≤ capacity (driveOf lba))
    (memory : ByteMemory) (buf : Word) :
    ((∃ polls result, diskReadSector device polls ⟨state, memory⟩ lba total buf = some result) ↔
      total.toInt ≤ 256) ∧
    (0 < total.toInt → total.toInt ≤ 256 →
      ∃ last, Idle At last ∧ ∃ bound, ∀ polls, bound ≤ polls →
        diskReadSector device polls ⟨state, memory⟩ lba total buf =
          some (0, ⟨last, memory.write buf (sectorBytes media (driveOf lba) (sectorOf lba))
            (512 * total.toInt.toNat)⟩)) ∧
    (total.toInt ≤ 0 →
      ∃ last, Remaining At (driveOf lba) (sectorOf lba) (sectorCount total) last ∧
        ¬ Idle At last ∧ ∀ polls, diskReadSector device polls ⟨state, memory⟩ lba total buf =
          some (0, ⟨last, memory⟩)) := by
  refine ⟨⟨fun returns => ?_, fun small => ?_⟩,
    diskReadSector_stored documented idle within memory buf,
    diskReadSector_none documented idle within memory buf⟩
  · obtain ⟨polls, result, returned⟩ := returns
    by_contra large
    obtain ⟨next, sent, serving⟩ := command_serving documented idle within memory
    unfold diskReadSector at returned
    rw [sent, readSectors_beyond documented serving (sectorCount_lt (not_le.mp large))] at returned
    cases returned
  · rcases lt_or_ge 0 total.toInt with positive | none
    · obtain ⟨last, -, bound, reads⟩ :=
        diskReadSector_stored documented idle within memory buf positive small
      exact ⟨bound, _, reads bound le_rfl⟩
    · obtain ⟨last, -, -, reads⟩ := diskReadSector_none documented idle within memory buf none
      exact ⟨0, _, reads 0⟩

/-- A disk whose first drive has 1024 sectors, each filled with the low byte of its number. It is
busy for three reads of the status before each of them. -/
structure NumberedDisk where
  phase : Phase
  wait : ℕ

namespace NumberedDisk

def media (_ : Bool) (sector _ : ℕ) : Byte := BitVec.ofNat 8 sector

def capacity (drive : Bool) : ℕ := if drive then 0 else 1024

/-- What is behind a port. -/
def register (port : BitVec 16) : Option Register :=
  [Register.data, .count, .lbaLow, .lbaMiddle, .lbaHigh, .device, .command].find? (ataPort · = port)

/-- The disk that has so many sectors to deliver. -/
def delivering (drive : Bool) (sector : ℕ) : (n : ℕ) → NumberedDisk
  | 0 => { phase := .idle ⟨0, 0, 0, 0, 0⟩, wait := 0 }
  | left + 1 => { phase := .serving drive sector left, wait := 3 }

def outByte (disk : NumberedDisk) (port : BitVec 16) (value : Byte) : NumberedDisk :=
  match disk.phase, register port with
  | .idle registers, some .command =>
      if value = Ata.readSectors ∧ registers.lbaMode = true ∧
          registers.lba + registers.sectors ≤ capacity registers.drive then
        delivering registers.drive registers.lba registers.sectors
      else disk
  | .idle registers, some register => { disk with phase := .idle (registers.set register value) }
  | _, _ => disk

def inByte (disk : NumberedDisk) (_ : BitVec 16) : Byte × NumberedDisk :=
  match disk.phase with
  | .idle _ => (0x50, disk)
  | .serving drive sector left =>
      if disk.wait = 0 then (0x58, { disk with phase := .requesting drive sector left 0 })
      else (0x80, { disk with wait := disk.wait - 1 })
  | .requesting .. => (0x58, disk)

def inWord (disk : NumberedDisk) (_ : BitVec 16) : BitVec 16 × NumberedDisk :=
  match disk.phase with
  | .requesting drive sector left word =>
      (media drive sector (2 * word + 1) ++ media drive sector (2 * word),
        if word + 1 < 256 then { disk with phase := .requesting drive sector left (word + 1) }
        else delivering drive (sector + 1) left)
  | _ => (0xFFFF, disk)

def device : Device (BitVec 16) NumberedDisk := ⟨outByte, inByte, inWord⟩

/-- The phase of the disk. -/
def At (disk : NumberedDisk) (phase : Phase) : Prop := disk.phase = phase

theorem register_ataPort (r : Register) : register (ataPort r) = some r := by
  cases r <;> rfl

theorem remaining_delivering (drive : Bool) (sector n : ℕ) :
    Remaining At drive sector n (delivering drive sector n) := by
  cases n with
  | zero => exact ⟨_, rfl⟩
  | succ left => exact rfl

theorem polled {drive : Bool} {sector left wait : ℕ} :
    device.poll (ataPort .command) (wait + 1) ⟨.serving drive sector left, wait⟩ =
      some ⟨.requesting drive sector left 0, 0⟩ := by
  induction wait with
  | zero =>
      rw [Device.poll_succ]
      exact if_neg (show ¬ (0x58 : Byte) &&& dataRequest = 0 by decide)
  | succ wait ih =>
      rw [Device.poll_succ]
      exact (if_pos (show (0x80 : Byte) &&& dataRequest = 0 by decide)).trans ih

/-- The disk does what is documented. -/
theorem documented : device.Documented ataPort media capacity At where
  keeps := by
    intro disk registers register here data command value
    change (outByte disk (ataPort register) value).phase = _
    unfold outByte
    rw [show disk.phase = .idle registers from here, register_ataPort]
    cases register with
    | data => exact absurd rfl data
    | command => exact absurd rfl command
    | _ => rfl
  starts := by
    intro disk registers here addressed within
    change Remaining At _ _ _ (outByte disk (ataPort .command) Ata.readSectors)
    unfold outByte
    rw [show disk.phase = .idle registers from here, register_ataPort]
    dsimp only
    rw [if_pos ⟨rfl, addressed, within⟩]
    exact remaining_delivering ..
  requests := by
    intro disk drive sector left here
    obtain ⟨phase, wait⟩ := disk
    obtain rfl : phase = .serving drive sector left := here
    exact ⟨wait + 1, _, polled, rfl⟩
  shows := by
    intro disk drive sector left word here
    change (inWord disk (ataPort .data)).1 = _
    unfold inWord
    rw [show disk.phase = .requesting drive sector left word from here]
  advances := by
    intro disk drive sector left word here more
    change (inWord disk (ataPort .data)).2.phase = _
    unfold inWord
    rw [show disk.phase = .requesting drive sector left word from here]
    dsimp only
    rw [if_pos more]
  completes := by
    intro disk drive sector left here
    change Remaining At drive (sector + 1) left (inWord disk (ataPort .data)).2
    unfold inWord
    rw [show disk.phase = .requesting drive sector left 255 from here]
    exact remaining_delivering ..
  quiet := by
    intro disk registers here
    have idle : inByte disk (ataPort .command) = (0x50, disk) := by
      unfold inByte
      rw [show disk.phase = .idle registers from here]
    change (inByte disk (ataPort .command)).1 &&& dataRequest = 0 ∧
      (inByte disk (ataPort .command)).2.phase = _
    rw [idle]
    exact ⟨show (0x50 : Byte) &&& dataRequest = 0 by decide, here⟩

/-- The disk before the first command. -/
def reset : NumberedDisk := delivering false 0 0

theorem reset_idle : Idle At reset := remaining_delivering false 0 0

end NumberedDisk

/-- Two sectors of that disk. -/
theorem disk_read_sector_exact_two :
    ∃ polls ports, diskReadSector NumberedDisk.device polls ⟨NumberedDisk.reset, fun _ => 0⟩ 5 2
        0x8000 = some (0, ports) ∧
      ports.memory 0x81FF = 5 ∧ ports.memory 0x8200 = 6 ∧ ports.memory 0x8400 = 0 := by
  obtain ⟨-, stored, -⟩ := disk_read_sector_exact NumberedDisk.documented NumberedDisk.reset_idle
    (show sectorOf 5 + sectorCount 2 ≤ NumberedDisk.capacity (driveOf 5) by decide) (fun _ => 0)
    0x8000
  obtain ⟨last, -, bound, reads⟩ := stored (by decide) (by decide)
  refine ⟨bound, _, reads bound le_rfl, ?_⟩
  dsimp only
  rw [ByteMemory.write_apply _ _ _ (by decide), ByteMemory.write_apply _ _ _ (by decide),
    ByteMemory.write_apply _ _ _ (by decide)]
  decide

end Phix
