import Phix.Foundation.ByteMemory

/-! # An ATA device read by programmed input

A driver reaches a device through ports: it writes bytes to them, and reads bytes and words. What
the device does then is a parameter (`Ata.Device`). `Ata.Device.Documented` states what is
documented of it for the reading of sectors that it has: the registers of the command block keep
what is written to them, the command delivers the sectors one after the other, before each the
status requests the transfer after a while, and the data register then shows its words.

A driver polls the status (`Ata.Device.poll`) and reads the words of a sector
(`Ata.Device.Documented.transfer_sector`).
-/

namespace Ata

/-- The registers of the command block that are used to read sectors. The status is read where the
command is written. -/
inductive Register where
  | data | count | lbaLow | lbaMiddle | lbaHigh | device | command
  deriving DecidableEq

/-- `READ SECTORS`. -/
def readSectors : BitVec 8 := 0x20

/-- The bit of the status that requests a transfer. -/
def dataRequest : BitVec 8 := 0x08

/-- What the command block holds. -/
structure Registers where
  count : BitVec 8
  lbaLow : BitVec 8
  lbaMiddle : BitVec 8
  lbaHigh : BitVec 8
  device : BitVec 8

namespace Registers

def set (registers : Registers) (register : Register) (value : BitVec 8) : Registers :=
  match register with
  | .data => registers
  | .count => { registers with count := value }
  | .lbaLow => { registers with lbaLow := value }
  | .lbaMiddle => { registers with lbaMiddle := value }
  | .lbaHigh => { registers with lbaHigh := value }
  | .device => { registers with device := value }
  | .command => registers

variable (registers : Registers)

/-- The 28 bits of the address of a sector. -/
def lba : ℕ :=
  registers.lbaLow.toNat + 2 ^ 8 * registers.lbaMiddle.toNat + 2 ^ 16 * registers.lbaHigh.toNat +
    2 ^ 24 * (registers.device.toNat % 2 ^ 4)

/-- The bit that selects addresses in place of cylinders. -/
def lbaMode : Bool := registers.device.getLsbD 6

/-- The bit that selects one of the two drives. -/
def drive : Bool := registers.device.getLsbD 4

/-- How many sectors are asked for. A count of 0 stands for 256. -/
def sectors : ℕ := if registers.count = 0 then 256 else registers.count.toNat

end Registers

/-- What writing and reading a port does to the state of a device. -/
structure Device (π σ : Type) where
  outByte : σ → π → BitVec 8 → σ
  inByte : σ → π → BitVec 8 × σ
  inWord : σ → π → BitVec 16 × σ

/-- How far a device is with a command. -/
inductive Phase where
  | idle (registers : Registers)
  /-- Before the transfer of a sector, which `left` others follow. -/
  | serving (drive : Bool) (sector left : ℕ)
  /-- In it, before the given word. -/
  | requesting (drive : Bool) (sector left word : ℕ)

/-- No command is being carried out. -/
def Idle {σ : Type} (At : σ → Phase → Prop) (state : σ) : Prop :=
  ∃ registers, At state (.idle registers)

/-- There are `n` sectors to be delivered, from `sector` on. -/
def Remaining {σ : Type} (At : σ → Phase → Prop) (drive : Bool) (sector : ℕ) :
    (n : ℕ) → (state : σ) → Prop
  | 0, state => Idle At state
  | left + 1, state => At state (.serving drive sector left)

namespace Device

variable {π σ : Type} (device : Device π σ)

/-- A driver reads the status until a transfer is requested, at most `n` times. -/
def poll (port : π) : (n : ℕ) → σ → Option σ
  | 0, _ => none
  | n + 1, state =>
      let (status, state) := device.inByte state port
      if status &&& dataRequest = 0 then poll port n state else some state

/-- `n` words from the data register are stored from `p` on. -/
def transfer (port : π) : (n : ℕ) → σ → ByteMemory → (p : BitVec 32) → σ × ByteMemory
  | 0, state, memory, _ => (state, memory)
  | n + 1, state, memory, p =>
      let (word, state) := device.inWord state port
      transfer port n state (memory.store16 p word) (p + 2)

/-- What is documented of a device whose registers are behind the ports: it has the first
`capacity` sectors of each drive, with the bytes of the media. -/
structure Documented (port : Register → π) (media : Bool → ℕ → ℕ → BitVec 8)
    (capacity : Bool → ℕ) (At : σ → Phase → Prop) : Prop where
  /-- A register of the command block keeps what is written to it. -/
  keeps : ∀ {state registers register}, At state (.idle registers) → register ≠ .data →
    register ≠ .command → ∀ value,
      At (device.outByte state (port register) value) (.idle (registers.set register value))
  /-- The command asks for sectors of the drive. -/
  starts : ∀ {state registers}, At state (.idle registers) → registers.lbaMode = true →
    registers.lba + registers.sectors ≤ capacity registers.drive →
      Remaining At registers.drive registers.lba registers.sectors
        (device.outByte state (port .command) readSectors)
  /-- The device requests each transfer after a while. -/
  requests : ∀ {state drive sector left}, At state (.serving drive sector left) →
    ∃ n next, device.poll (port .command) n state = some next ∧
      At next (.requesting drive sector left 0)
  /-- The data register shows the words of the sector, lowest byte first. -/
  shows : ∀ {state drive sector left word}, At state (.requesting drive sector left word) →
    (device.inWord state (port .data)).1 =
      media drive sector (2 * word + 1) ++ media drive sector (2 * word)
  /-- One word follows the other. -/
  advances : ∀ {state drive sector left word}, At state (.requesting drive sector left word) →
    word + 1 < 256 →
      At (device.inWord state (port .data)).2 (.requesting drive sector left (word + 1))
  /-- The next sector, if any, follows the last word. -/
  completes : ∀ {state drive sector left}, At state (.requesting drive sector left 255) →
    Remaining At drive (sector + 1) left (device.inWord state (port .data)).2
  /-- No transfer is requested without a command. -/
  quiet : ∀ {state registers}, At state (.idle registers) →
    (device.inByte state (port .command)).1 &&& dataRequest = 0 ∧
      At (device.inByte state (port .command)).2 (.idle registers)

variable {device}

theorem poll_succ (port : π) (n : ℕ) (state : σ) : device.poll port (n + 1) state =
    if (device.inByte state port).1 &&& dataRequest = 0 then
      device.poll port n (device.inByte state port).2
    else some (device.inByte state port).2 := rfl

/-- Polling that ends does so after some number of reads, however many are at hand. -/
theorem poll_ends {port : π} {n : ℕ} {state next : σ}
    (found : device.poll port n state = some next) :
    ∃ bound, ∀ m, device.poll port m state = if bound ≤ m then some next else none := by
  induction n generalizing state with
  | zero => cases found
  | succ n ih =>
      rw [poll_succ] at found
      split at found
      · rename_i unready
        obtain ⟨bound, ends⟩ := ih found
        refine ⟨bound + 1, fun m => ?_⟩
        cases m with
        | zero => rfl
        | succ m =>
            rw [poll_succ, if_pos unready, ends m]
            exact if_congr Nat.succ_le_succ_iff.symm rfl rfl
      · rename_i requested
        refine ⟨1, fun m => ?_⟩
        cases m with
        | zero => rfl
        | succ m =>
            rw [poll_succ, if_neg requested, if_pos (Nat.le_add_left 1 m)]
            exact found

theorem transfer_succ (port : π) (n : ℕ) (state : σ) (memory : ByteMemory) (p : BitVec 32) :
    device.transfer port (n + 1) state memory p =
      device.transfer port n (device.inWord state port).2
        (memory.store16 p (device.inWord state port).1) (p + 2) := rfl

namespace Documented

variable {port : Register → π} {media : Bool → ℕ → ℕ → BitVec 8} {capacity : Bool → ℕ}
  {At : σ → Phase → Prop} (documented : device.Documented port media capacity At) {state : σ}
  {drive : Bool} {sector left : ℕ}

include documented

/-- Nothing is ever requested of an idle device. -/
theorem poll_idle (idle : Idle At state) (n : ℕ) : device.poll (port .command) n state = none := by
  induction n generalizing state with
  | zero => rfl
  | succ n ih =>
      obtain ⟨registers, here⟩ := idle
      obtain ⟨unready, still⟩ := documented.quiet here
      rw [poll_succ, if_pos unready]
      exact ih ⟨registers, still⟩

/-- A driver that polls long enough finds the transfer requested. -/
theorem polled (remaining : Remaining At drive sector (left + 1) state) :
    ∃ bound next, At next (.requesting drive sector left 0) ∧
      ∀ n, device.poll (port .command) n state = if bound ≤ n then some next else none := by
  obtain ⟨n, next, found, requesting⟩ := documented.requests remaining
  obtain ⟨bound, ends⟩ := poll_ends found
  exact ⟨bound, next, requesting, ends⟩

/-- A device with sectors to deliver is not idle. -/
theorem not_idle {n : ℕ} (remaining : Remaining At drive sector n state) (some_left : 0 < n) :
    ¬ Idle At state := by
  obtain ⟨left, rfl⟩ := Nat.exists_eq_add_of_le' some_left
  intro idle
  obtain ⟨bound, next, -, ends⟩ := documented.polled remaining
  have found := ends bound
  rw [documented.poll_idle idle, if_pos le_rfl] at found
  cases found

/-- The rest of a sector is stored behind what has been stored of it. -/
theorem transfer_from {word n : ℕ} (requests : At state (.requesting drive sector left word))
    (rest : word + (n + 1) = 256) (memory : ByteMemory) (p : BitVec 32) :
    ∃ next, Remaining At drive (sector + 1) left next ∧
      device.transfer (port .data) (n + 1) state
          (memory.write p (media drive sector) (2 * word)) (p + BitVec.ofNat 32 (2 * word)) =
        (next, memory.write p (media drive sector) 512) := by
  induction n generalizing state word with
  | zero =>
      obtain rfl : word = 255 := by omega
      refine ⟨_, documented.completes requests, ?_⟩
      rw [transfer_succ, documented.shows requests, ByteMemory.write_store16]
      rfl
  | succ n ih =>
      have follows := p.add_assoc (BitVec.ofNat 32 (2 * word)) 2
      rw [show (2 : BitVec 32) = BitVec.ofNat 32 2 from rfl, ← BitVec.ofNat_add] at follows
      obtain ⟨next, remaining, stored⟩ := ih (documented.advances requests (by omega)) (by omega)
      refine ⟨next, remaining, ?_⟩
      rw [transfer_succ, documented.shows requests, ByteMemory.write_store16,
        show (2 : BitVec 32) = BitVec.ofNat 32 2 from rfl, follows]
      exact stored

/-- **256 words from the data register are the bytes of the sector**, and then the device turns to
the next one. -/
theorem transfer_sector (requests : At state (.requesting drive sector left 0))
    (memory : ByteMemory) (p : BitVec 32) :
    ∃ next, Remaining At drive (sector + 1) left next ∧
      device.transfer (port .data) 256 state memory p =
        (next, memory.write p (media drive sector) 512) := by
  obtain ⟨next, remaining, stored⟩ := documented.transfer_from requests
    (show 0 + (255 + 1) = 256 from rfl) memory p
  rw [Nat.mul_zero, BitVec.add_zero] at stored
  exact ⟨next, remaining, stored⟩

end Documented

end Device

end Ata
