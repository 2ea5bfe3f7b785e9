/-
# An ATA bus with two channels

What a driver for programmed input sees of its disks: on each of two channels a set of registers
that both drives of the channel share, a data port and a status port.  A read command takes the
address of 28 bits and the number of sectors from the registers, selects one of the two drives, and
from then on the data port delivers the words of one sector after the other.

When the device is busy, when it has failed and when it is ready is left open: a poll of the status
port is answered by any byte, but for one thing.  The device requests a transfer of data (`DRQ`)
only while there is a sector left that it has.
-/
import Mathlib.Data.Nat.Bitwise
import Mathlib.Logic.Function.Basic

namespace AtaBus

/-! ## 1. Drives and registers -/

/-- A drive: the number of its sectors, and the 256 words of each. -/
structure Drive where
  capacity : Nat
  word : Nat → Nat → UInt16

/-- A transfer in progress: the drive, the sector and the word in it that come next, and the number
of sectors that are left. -/
@[ext] structure Transfer where
  slave : Bool
  sector : Nat
  left : Nat
  pos : Nat

/-- A channel: the registers and the transfer. -/
structure Channel where
  seccount : UInt8
  lbaLo : UInt8
  lbaMid : UInt8
  lbaHi : UInt8
  select : UInt8
  transfer : Option Transfer

/-- The address in the registers: its highest four bits are in the drive register. -/
def Channel.lba (c : Channel) : Nat :=
  c.select.toNat % 16 * 2 ^ 24 + c.lbaHi.toNat * 2 ^ 16 + c.lbaMid.toNat * 2 ^ 8 + c.lbaLo.toNat

/-- Bit 4 of the drive register selects the drive. -/
def Channel.slave (c : Channel) : Bool := c.select.toNat.testBit 4

/-- Bit 6 of the drive register says that the address is one. -/
def Channel.lbaMode (c : Channel) : Bool := c.select.toNat.testBit 6

/-- A command: reading, with the number of sectors modulo 256, is the one of interest. -/
def Channel.command (c : Channel) (cmd : UInt8) : Channel :=
  if cmd = 0x20 ∧ c.lbaMode then
    { c with
      transfer := some ⟨c.slave, c.lba, if c.seccount = 0 then 256 else c.seccount.toNat, 0⟩ }
  else { c with transfer := none }

/-- A byte written to a register. -/
def Channel.write (c : Channel) (reg : Nat) (b : UInt8) : Channel :=
  match reg with
  | 2 => { c with seccount := b }
  | 3 => { c with lbaLo := b }
  | 4 => { c with lbaMid := b }
  | 5 => { c with lbaHi := b }
  | 6 => { c with select := b }
  | 7 => c.command b
  | _ => c

/-! ## 2. Transfers -/

/-- Behind the last word of a sector comes the next sector. -/
def Transfer.next (t : Transfer) : Transfer :=
  if t.pos + 1 < 256 then { t with pos := t.pos + 1 }
  else { t with sector := t.sector + 1, left := t.left - 1, pos := 0 }

/-- Is there a sector to deliver? -/
def Channel.serves (drives : Bool → Drive) (c : Channel) : Bool :=
  match c.transfer with
  | none => false
  | some t => 0 < t.left ∧ t.sector < (drives t.slave).capacity

/-- The status a poll finds, when the device answers `b`: bit 3 is `DRQ`. -/
def Channel.status (drives : Bool → Drive) (c : Channel) (b : UInt8) : UInt8 :=
  if c.serves drives then b else b &&& 0xF7

/-- A word read from the data port. -/
def Channel.read (drives : Bool → Drive) (c : Channel) : UInt16 × Channel :=
  match c.transfer with
  | none => (0xFFFF, c)
  | some t => ((drives t.slave).word t.sector t.pos, { c with transfer := some t.next })

/-! ## 3. Ports -/

/-- The two channels; the second is the secondary one. -/
abbrev Bus := Bool → Channel

/-- The drives of both channels. -/
abbrev Disks := Bool → Bool → Drive

/-- The first port of a channel. -/
def base (channel : Bool) : UInt16 := if channel then 0x170 else 0x1F0

/-- The channel and the register of a port. -/
def decode (port : UInt16) : Option (Bool × Nat) :=
  if 0x1F0 ≤ port ∧ port < 0x1F8 then some (false, (port - 0x1F0).toNat)
  else if 0x170 ≤ port ∧ port < 0x178 then some (true, (port - 0x170).toNat)
  else none

def outb (bus : Bus) (port : UInt16) (b : UInt8) : Bus :=
  match decode port with
  | none => bus
  | some (channel, reg) => Function.update bus channel ((bus channel).write reg b)

/-- A byte read from a port, of which only the status port is of interest; `b` is the device's
answer. -/
def inb (disks : Disks) (bus : Bus) (port : UInt16) (b : UInt8) : UInt8 :=
  match decode port with
  | some (channel, 7) => (bus channel).status (disks channel) b
  | _ => b

/-- A word read from a port. -/
def inw (disks : Disks) (bus : Bus) (port : UInt16) : UInt16 × Bus :=
  match decode port with
  | some (channel, 0) =>
    let r := (bus channel).read (disks channel)
    (r.1, Function.update bus channel r.2)
  | _ => (0xFFFF, bus)

/-- A register of a channel is at the channel's base. -/
theorem decode_base (channel : Bool) {reg : UInt16} (h : reg < 8) :
    decode (base channel + reg) = some (channel, reg.toNat) := by
  have hall : ∀ (channel : Bool) (k : Fin 8),
      decode (base channel + UInt16.ofNat k) = some (channel, k.val) := by decide
  have hreg := hall channel ⟨reg.toNat, UInt16.lt_iff_toNat_lt.mp h⟩
  rwa [UInt16.ofNat_toNat] at hreg

/-! ## 4. Rules -/

variable {disks : Disks} {bus : Bus} {channel : Bool} {t : Transfer}

theorem outb_register {reg : UInt16} (h : reg < 8) (bus : Bus) (channel : Bool) (b : UInt8) :
    outb bus (base channel + reg) b =
      Function.update bus channel ((bus channel).write reg.toNat b) := by
  rw [outb, decode_base channel h]

theorem inb_status (disks : Disks) (bus : Bus) (channel : Bool) (b : UInt8) :
    inb disks bus (base channel + 7) b = (bus channel).status (disks channel) b := by
  have hdecode : decode (base channel + 7) = some (channel, 7) := decode_base channel (by decide)
  rw [inb, hdecode]
  rfl

/-- `DRQ` is set only while there is a sector to deliver. -/
theorem serves_of_drq {b : UInt8} (h : inb disks bus (base channel + 7) b &&& 0x08 ≠ 0) :
    (bus channel).serves (disks channel) = true := by
  by_contra hnot
  refine h ?_
  rw [inb_status, Channel.status, if_neg hnot, UInt8.and_assoc]
  exact UInt8.and_zero

/-- A transfer that can be served has a sector left, and the drive has it. -/
theorem serves_iff (disks : Disks) (ht : (bus channel).transfer = some t) :
    (bus channel).serves (disks channel) = true ↔
      0 < t.left ∧ t.sector < (disks channel t.slave).capacity := by
  rw [Channel.serves, ht]
  exact decide_eq_true_iff

/-- The transfer of a channel, and nothing else, set to `t`. -/
def Bus.goOn (bus : Bus) (channel : Bool) (t : Transfer) : Bus :=
  Function.update bus channel { bus channel with transfer := some t }

@[simp] theorem Bus.goOn_transfer (bus : Bus) (channel : Bool) (t : Transfer) :
    (Bus.goOn bus channel t channel).transfer = some t := by
  simp [Bus.goOn]

/-- A word of the transfer is taken. -/
theorem inw_data (ht : (bus channel).transfer = some t) :
    inw disks bus (base channel + 0) =
      ((disks channel t.slave).word t.sector t.pos, Bus.goOn bus channel t.next) := by
  have hdecode : decode (base channel + 0) = some (channel, 0) := decode_base channel (by decide)
  rw [inw, hdecode]
  simp only [Channel.read, ht]
  rfl

end AtaBus
