/-
# An ATA bus whose drives can be written

`AtaBus` is the bus as a reader sees it: the drives never change.  Here they do.  A write command
takes the address and the number of sectors from the registers, as a read command does, and from
then on the data port takes the words of one sector after the other.  A drive also describes itself,
in the 256 words that it delivers after a command to identify; a drive that is not an ATA disk
refuses that command and leaves a signature in the address registers.

Again, when the device is busy, has failed or is ready is left open, but for one thing: it requests
a transfer of data only while there is something to transfer.  The cache of a drive is part of the
drive: a word that it has taken is stored.

A system that is neither written nor asked to identify itself is an `AtaBus` (`bus_outb`,
`inb_status_idle`, `inw_idle`).
-/
import FlowOS.Lib.AtaBus

namespace AtaDisk

open AtaBus

/-! ## 1. Drives -/

/-- A drive, with what it says about itself; the signature of an ATA disk is two zeros. -/
structure Disk extends Drive where
  present : Bool
  signature : UInt8 × UInt8
  identify : Nat → UInt16

/-- A channel with its two drives: `storing` is a write in progress, `telling` the next word of the
description of the selected drive. -/
structure Device where
  chan : Channel
  storing : Option Transfer
  telling : Option Nat
  disk : Bool → Disk

namespace Device

def selected (d : Device) : Disk := d.disk d.chan.slave

def drives (d : Device) : Bool → Drive := fun slave => (d.disk slave).toDrive

/-- What the registers ask for. -/
def request (d : Device) : Transfer :=
  ⟨d.chan.slave, d.chan.lba, if d.chan.seccount = 0 then 256 else d.chan.seccount.toNat, 0⟩

/-- A command. -/
def command (d : Device) (cmd : UInt8) : Device :=
  let chan := d.chan.command cmd
  let asked : Bool := cmd = 0xEC ∧ d.selected.present
  let disk : Bool := d.selected.signature = (0, 0)
  { d with
    chan := if asked && !disk then
        { chan with lbaMid := d.selected.signature.1, lbaHi := d.selected.signature.2 }
      else chan
    storing := if cmd = 0x30 ∧ d.chan.lbaMode then some d.request else none
    telling := if asked && disk then some 0 else none }

/-- A byte written to a register. -/
def write (d : Device) (reg : Nat) (b : UInt8) : Device :=
  if reg = 7 then d.command b else { d with chan := d.chan.write reg b }

/-- Is there room for the next word of a write? -/
def takes (d : Device) : Bool :=
  match d.storing with
  | none => false
  | some t => 0 < t.left ∧ t.sector < (d.disk t.slave).capacity

/-- Is there anything to transfer? -/
def wants (d : Device) : Bool := d.chan.serves d.drives || d.takes || d.telling.isSome

/-- The status that a poll finds, when the device answers `b`: bit 3 is `DRQ`. -/
def status (d : Device) (b : UInt8) : UInt8 := if d.wants then b else b &&& 0xF7

/-- A word read from the data port. -/
def read (d : Device) : UInt16 × Device :=
  match d.telling with
  | some n => (d.selected.identify n,
      { d with telling := if n + 1 < 256 then some (n + 1) else none })
  | none =>
    let r := d.chan.read d.drives
    (r.1, { d with chan := r.2 })

end Device

/-- The drive with another word. -/
def Disk.set (d : Disk) (sector pos : Nat) (w : UInt16) : Disk :=
  { d with word := fun k i => if k = sector ∧ i = pos then w else d.word k i }

/-- A word written to the data port. -/
def Device.put (d : Device) (w : UInt16) : Device :=
  match d.storing with
  | none => d
  | some t =>
    if d.takes then
      { d with
        storing := some t.next
        disk := Function.update d.disk t.slave ((d.disk t.slave).set t.sector t.pos w) }
    else d

/-! ## 2. Ports -/

/-- The two channels. -/
abbrev System := Bool → Device

def outb (sys : System) (port : UInt16) (b : UInt8) : System :=
  match decode port with
  | none => sys
  | some (channel, reg) => Function.update sys channel ((sys channel).write reg b)

/-- A byte read from a port; `b` is the device's answer to a poll. -/
def inb (sys : System) (port : UInt16) (b : UInt8) : UInt8 :=
  match decode port with
  | some (channel, 4) => (sys channel).chan.lbaMid
  | some (channel, 5) => (sys channel).chan.lbaHi
  | some (channel, 7) => (sys channel).status b
  | _ => b

def inw (sys : System) (port : UInt16) : UInt16 × System :=
  match decode port with
  | some (channel, 0) =>
    let r := (sys channel).read
    (r.1, Function.update sys channel r.2)
  | _ => (0xFFFF, sys)

def outw (sys : System) (port : UInt16) (w : UInt16) : System :=
  match decode port with
  | some (channel, 0) => Function.update sys channel ((sys channel).put w)
  | _ => sys

/-! ## 3. Rules -/

variable {sys : System} {channel : Bool} {t : Transfer}

theorem outb_register {reg : UInt16} (h : reg < 8) (sys : System) (channel : Bool) (b : UInt8) :
    outb sys (base channel + reg) b =
      Function.update sys channel ((sys channel).write reg.toNat b) := by
  rw [outb, decode_base channel h]

theorem inb_status (sys : System) (channel : Bool) (b : UInt8) :
    inb sys (base channel + 7) b = (sys channel).status b := by
  have hdecode : decode (base channel + 7) = some (channel, 7) := decode_base channel (by decide)
  rw [inb, hdecode]
  rfl

theorem inb_lbaMid (sys : System) (channel : Bool) (b : UInt8) :
    inb sys (base channel + 4) b = (sys channel).chan.lbaMid := by
  have hdecode : decode (base channel + 4) = some (channel, 4) := decode_base channel (by decide)
  rw [inb, hdecode]
  rfl

theorem inb_lbaHi (sys : System) (channel : Bool) (b : UInt8) :
    inb sys (base channel + 5) b = (sys channel).chan.lbaHi := by
  have hdecode : decode (base channel + 5) = some (channel, 5) := decode_base channel (by decide)
  rw [inb, hdecode]
  rfl

theorem inw_data (sys : System) (channel : Bool) :
    inw sys (base channel + 0) =
      ((sys channel).read.1, Function.update sys channel (sys channel).read.2) := by
  have hdecode : decode (base channel + 0) = some (channel, 0) := decode_base channel (by decide)
  rw [inw, hdecode]
  rfl

theorem outw_data (sys : System) (channel : Bool) (w : UInt16) :
    outw sys (base channel + 0) w = Function.update sys channel ((sys channel).put w) := by
  have hdecode : decode (base channel + 0) = some (channel, 0) := decode_base channel (by decide)
  rw [outw, hdecode]
  rfl

/-- `DRQ` is set only while there is something to transfer. -/
theorem wants_of_drq {b : UInt8} (h : inb sys (base channel + 7) b &&& 0x08 ≠ 0) :
    (sys channel).wants = true := by
  by_contra hnot
  refine h ?_
  rw [inb_status, Device.status, if_neg hnot, UInt8.and_assoc]
  exact UInt8.and_zero

/-- The busy bit is the device's to set. -/
theorem inb_busy (sys : System) (channel : Bool) (b : UInt8) :
    inb sys (base channel + 7) b &&& 0x80 = b &&& 0x80 := by
  rw [inb_status, Device.status]
  split
  · rfl
  · rw [UInt8.and_assoc]
    rfl

/-! ## 4. The bus that a reader sees -/

/-- The registers and the reads. -/
def System.bus (sys : System) : Bus := fun channel => (sys channel).chan

/-- What is on the drives. -/
def System.disks (sys : System) : Disks := fun channel => (sys channel).drives

/-- The channel is not being written, and not describing a drive. -/
structure Device.Idle (d : Device) : Prop where
  storing : d.storing = none
  telling : d.telling = none

theorem Device.Idle.wants {d : Device} (h : d.Idle) : d.wants = d.chan.serves d.drives := by
  rw [Device.wants, Device.takes, h.storing, h.telling]
  simp

theorem Device.Idle.read {d : Device} (h : d.Idle) :
    d.read = ((d.chan.read d.drives).1, { d with chan := (d.chan.read d.drives).2 }) := by
  obtain ⟨chan, storing, telling, disk⟩ := d
  obtain rfl : telling = none := h.telling
  rfl

theorem bus_update (sys : System) (channel : Bool) (d : Device) :
    System.bus (Function.update sys channel d) = Function.update sys.bus channel d.chan := by
  funext c
  unfold System.bus
  by_cases hc : c = channel
  · rw [hc, Function.update_self, Function.update_self]
  · rw [Function.update_of_ne hc, Function.update_of_ne hc]

theorem disks_update (sys : System) {channel : Bool} {d : Device}
    (h : d.drives = (sys channel).drives) :
    System.disks (Function.update sys channel d) = sys.disks := by
  funext c
  unfold System.disks
  by_cases hc : c = channel
  · rw [hc, Function.update_self, h]
  · rw [Function.update_of_ne hc]

theorem bus_outb (sys : System) (port : UInt16) {b : UInt8}
    (hb : ∀ channel, decode port = some (channel, 7) → b ≠ 0xEC) :
    (outb sys port b).bus = AtaBus.outb sys.bus port b := by
  unfold outb AtaBus.outb
  cases hport : decode port with
  | none => rfl
  | some x =>
    obtain ⟨channel, reg⟩ := x
    have hchan : ((sys channel).write reg b).chan = (sys channel).chan.write reg b := by
      rw [Device.write]
      split
      · rename_i hreg
        subst hreg
        have hne := hb channel hport
        simp only [Device.command, hne, false_and, decide_false, Bool.false_and]
        rfl
      · rfl
    dsimp only
    rw [bus_update, hchan]
    rfl

theorem write_drives (d : Device) (reg : Nat) (b : UInt8) : (d.write reg b).drives = d.drives := by
  rw [Device.write]
  split <;> rfl

theorem disks_outb (sys : System) (port : UInt16) (b : UInt8) :
    (outb sys port b).disks = sys.disks := by
  unfold outb
  split
  · rfl
  · exact disks_update sys (write_drives _ _ b)

/-- A command to read makes a channel idle. -/
theorem idle_read (d : Device) : (d.write 7 0x20).Idle := ⟨rfl, rfl⟩

theorem inb_status_idle (h : (sys channel).Idle) (b : UInt8) :
    inb sys (base channel + 7) b = AtaBus.inb sys.disks sys.bus (base channel + 7) b := by
  rw [inb_status, AtaBus.inb_status, Device.status, h.wants]
  rfl

theorem inw_idle (h : (sys channel).Idle) :
    let r := inw sys (base channel + 0)
    (r.1, r.2.bus) = AtaBus.inw sys.disks sys.bus (base channel + 0) ∧ r.2.disks = sys.disks ∧
      (r.2 channel).Idle := by
  intro r
  have hdecode : decode (base channel + 0) = some (channel, 0) := decode_base channel (by decide)
  have hr : r = (((sys channel).chan.read (sys channel).drives).1, Function.update sys channel
      { sys channel with chan := ((sys channel).chan.read (sys channel).drives).2 }) := by
    show inw sys (base channel + 0) = _
    rw [inw_data, h.read]
  rw [hr]
  refine ⟨?_, disks_update sys rfl, ?_⟩
  · rw [bus_update, AtaBus.inw, hdecode]
    rfl
  · dsimp only
    rw [Function.update_self]
    exact ⟨h.storing, h.telling⟩

end AtaDisk
