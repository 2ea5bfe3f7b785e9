/-
# The interrupt controllers (`pic.c`)

What the driver writes to the ports of the two chips, and what the chips (`I8259`) make of it.  The
kernel initializes them twice, saves the masks of the firmware over each time, and after that only
opens and closes single lines and announces the ends of services.
-/
import FlowOS.Lib.I8259

namespace FlowOS.Pic

open I8259

/-! ## 1. The driver -/

/-- `PIC1_COMMAND`. -/
def pic1Command : UInt16 := 0x20

/-- `PIC1_DATA`. -/
def pic1Data : UInt16 := 0x21

/-- `PIC2_COMMAND`. -/
def pic2Command : UInt16 := 0xA0

/-- `PIC2_DATA`. -/
def pic2Data : UInt16 := 0xA1

/-- `PIC_EOI`. -/
def picEoi : UInt8 := 0x20

/-- `ICW1_INIT | ICW1_ICW4`. -/
def icw1 : UInt8 := 0x10 ||| 0x01

/-- `ICW4_8086`. -/
def icw4x86 : UInt8 := 0x01

/-- `io_wait`. -/
def ioWait (p : Pair) : Pair := p.outb 0x80 0

/-- `pic_remap`. -/
def picRemap (offset1 offset2 : UInt32) (p : Pair) : Pair :=
  let a1 := p.inb pic1Data
  let a2 := p.inb pic2Data
  -- start the initialization sequence
  let p := ioWait (p.outb pic1Command icw1)
  let p := ioWait (p.outb pic2Command icw1)
  -- the vectors
  let p := ioWait (p.outb pic1Data offset1.toUInt8)
  let p := ioWait (p.outb pic2Data offset2.toUInt8)
  -- the cascade
  let p := ioWait (p.outb pic1Data 4)
  let p := ioWait (p.outb pic2Data 2)
  let p := ioWait (p.outb pic1Data icw4x86)
  let p := ioWait (p.outb pic2Data icw4x86)
  -- the saved masks
  let p := p.outb pic1Data a1
  p.outb pic2Data a2

/-- `pic_send_eoi`, as the bytes it sends. -/
def picSendEoi (irq : UInt8) : List (UInt16 × UInt8) :=
  (if 8 ≤ irq then [(pic2Command, picEoi)] else []) ++ [(pic1Command, picEoi)]

/-- The port of a line's mask and the bit in it. -/
def maskPort (irq : UInt8) : UInt16 × UInt8 :=
  if irq < 8 then (pic1Data, irq) else (pic2Data, irq - 8)

/-- `pic_set_mask`. -/
def picSetMask (irq : UInt8) (p : Pair) : Pair :=
  let (port, bit) := maskPort irq
  let value := (p.inb port).toUInt32 ||| (1 <<< bit.toUInt32)
  p.outb port value.toUInt8

/-- `pic_clear_mask`. -/
def picClearMask (irq : UInt8) (p : Pair) : Pair :=
  let (port, bit) := maskPort irq
  let value := (p.inb port).toUInt32 &&& ~~~(1 <<< bit.toUInt32)
  p.outb port value.toUInt8

/-! ## 2. What the chips make of it -/

variable {p : Pair} {base₁ base₂ : UInt8}

/-- **Whatever the chips were doing**, after `pic_remap` they are in use with the vectors that were
asked for and the masks they had, and nothing is in service or requested. -/
theorem picRemap_running (offset1 offset2 : UInt32) (p : Pair) :
    (picRemap offset1 offset2 p).Running (offset1.toUInt8 &&& 0xF8) (offset2.toUInt8 &&& 0xF8) ∧
      (picRemap offset1 offset2 p).Quiet ∧
      (picRemap offset1 offset2 p).master.imr = p.master.imr ∧
      (picRemap offset1 offset2 p).slave.imr = p.slave.imr :=
  ⟨⟨⟨rfl, rfl, rfl, rfl, rfl⟩, ⟨rfl, rfl, rfl, rfl, rfl⟩⟩, ⟨rfl, rfl⟩, rfl, rfl⟩

/-- The line, of sixteen, is masked. -/
def lineMasked (p : Pair) (k : Fin 16) : Bool :=
  if h : k.val < 8 then p.master.masked ⟨k, h⟩ else p.slave.masked ⟨k - 8, by omega⟩

/-- The byte with the bit of a line set. -/
theorem testBit_set (b : UInt8) (i l : Fin 8) :
    ((b.toUInt32 ||| (1 <<< (UInt8.ofNat i).toUInt32)).toUInt8).toNat.testBit l =
      (b.toNat.testBit l || decide (l = i)) := by
  have hl := l.isLt
  have hone : (1 <<< (UInt8.ofNat i).toUInt32 : UInt32).toNat = 2 ^ i.val := by
    revert i
    decide
  rw [UInt32.toNat_toUInt8, UInt32.toNat_or, hone, UInt8.toNat_toUInt32, Nat.testBit_mod_two_pow,
    Nat.testBit_or, Nat.testBit_two_pow]
  simp [hl, Fin.ext_iff, eq_comm]

/-- The byte with it cleared. -/
theorem testBit_clear (b : UInt8) (i l : Fin 8) :
    ((b.toUInt32 &&& ~~~(1 <<< (UInt8.ofNat i).toUInt32)).toUInt8).toNat.testBit l =
      (b.toNat.testBit l && !decide (l = i)) := by
  have hl := l.isLt
  have hl' : (l : Nat) < 32 := by omega
  have hlt : 2 ^ i.val < 2 ^ 32 := Nat.pow_lt_pow_right (by decide) (by omega)
  have hmask : (~~~(1 <<< (UInt8.ofNat i).toUInt32) : UInt32).toNat = 2 ^ 32 - (2 ^ i.val + 1) := by
    revert i
    decide
  rw [UInt32.toNat_toUInt8, UInt32.toNat_and, UInt8.toNat_toUInt32, Nat.testBit_mod_two_pow,
    Nat.testBit_and, hmask, Nat.testBit_two_pow_sub_succ hlt, Nat.testBit_two_pow]
  simp [hl, hl', Fin.ext_iff, eq_comm]

/-- Other masks. -/
def withMasks (p : Pair) (m₁ m₂ : UInt8) : Pair :=
  ⟨{ p.master with imr := m₁ }, { p.slave with imr := m₂ }⟩

theorem withMasks_running (h : p.Running base₁ base₂) (m₁ m₂ : UInt8) :
    (withMasks p m₁ m₂).Running base₁ base₂ :=
  ⟨⟨h.master.phase, h.master.x86, h.master.autoEoi, h.master.base, h.master.cascade⟩,
    ⟨h.slave.phase, h.slave.x86, h.slave.autoEoi, h.slave.base, h.slave.cascade⟩⟩

theorem maskPort_eq : ∀ irq : Fin 16, maskPort (UInt8.ofNat irq) =
    if irq.val < 8 then (pic1Data, UInt8.ofNat irq) else (pic2Data, UInt8.ofNat (irq - 8)) := by
  decide

theorem inb_pic1Data (p : Pair) : p.inb pic1Data = p.master.imr := rfl

theorem inb_pic2Data (p : Pair) : p.inb pic2Data = p.slave.imr := rfl

theorem outb_pic1Data (h : p.Running base₁ base₂) (v : UInt8) :
    p.outb pic1Data v = withMasks p v p.slave.imr := by
  have hout : p.outb pic1Data v = { p with master := p.master.data v } := rfl
  rw [hout, h.master.data]
  rfl

theorem outb_pic2Data (h : p.Running base₁ base₂) (v : UInt8) :
    p.outb pic2Data v = withMasks p p.master.imr v := by
  have hout : p.outb pic2Data v = { p with slave := p.slave.data v } := rfl
  rw [hout, h.slave.data]
  rfl

/-- Replacing a byte of the masks, where `f` does `g` to one bit of the byte. -/
theorem masks_of_byte (h : p.Running base₁ base₂) {f : UInt8 → UInt8 → UInt8}
    {g : Bool → Bool → Bool} (hfg : ∀ b (i l : Fin 8),
      (f b (UInt8.ofNat i)).toNat.testBit l = g (b.toNat.testBit l) (decide (l = i)))
    (hg : ∀ x, g x false = x) (irq : Fin 16) :
    let place := maskPort (UInt8.ofNat irq)
    ∃ m₁ m₂, p.outb place.1 (f (p.inb place.1) place.2) = withMasks p m₁ m₂ ∧
      ∀ k, lineMasked (withMasks p m₁ m₂) k = g (lineMasked p k) (decide (k = irq)) := by
  intro place
  have hat : place = if irq.val < 8 then (pic1Data, UInt8.ofNat irq)
      else (pic2Data, UInt8.ofNat (irq - 8)) := maskPort_eq irq
  rw [hat]
  by_cases hirq : irq.val < 8
  · rw [if_pos hirq, outb_pic1Data h, inb_pic1Data]
    refine ⟨_, _, rfl, fun k => ?_⟩
    unfold lineMasked
    split
    · rename_i hk
      exact (hfg _ ⟨irq, hirq⟩ ⟨k, hk⟩).trans (by simp [Chip.masked, Fin.ext_iff])
    · have hne : k ≠ irq := fun hki => by omega
      simp [hne, withMasks, Chip.masked, hg]
  · rw [if_neg hirq, outb_pic2Data h, inb_pic2Data]
    refine ⟨_, _, rfl, fun k => ?_⟩
    unfold lineMasked
    split
    · have hne : k ≠ irq := fun hki => by omega
      simp [hne, withMasks, Chip.masked, hg]
    · rename_i hk
      have hki : k.val - 8 = irq.val - 8 ↔ k = irq := by
        rw [Fin.ext_iff]
        omega
      exact (hfg _ ⟨irq - 8, by omega⟩ ⟨k - 8, by omega⟩).trans (by simp [Chip.masked, hki])

/-- **`pic_set_mask` closes one line** of the sixteen and touches nothing else. -/
theorem picSetMask_masks (h : p.Running base₁ base₂) (irq : Fin 16) :
    ∃ m₁ m₂, picSetMask (UInt8.ofNat irq) p = withMasks p m₁ m₂ ∧
      ∀ k, lineMasked (withMasks p m₁ m₂) k = (lineMasked p k || decide (k = irq)) :=
  @masks_of_byte p base₁ base₂ h (fun b i => (b.toUInt32 ||| (1 <<< i.toUInt32)).toUInt8)
    (fun x y => x || y) testBit_set Bool.or_false irq

/-- **`pic_clear_mask` opens one line.** -/
theorem picClearMask_masks (h : p.Running base₁ base₂) (irq : Fin 16) :
    ∃ m₁ m₂, picClearMask (UInt8.ofNat irq) p = withMasks p m₁ m₂ ∧
      ∀ k, lineMasked (withMasks p m₁ m₂) k = (lineMasked p k && !decide (k = irq)) :=
  @masks_of_byte p base₁ base₂ h (fun b i => (b.toUInt32 &&& ~~~(1 <<< i.toUInt32)).toUInt8)
    (fun x y => x && !y) testBit_clear Bool.and_true irq

end FlowOS.Pic
