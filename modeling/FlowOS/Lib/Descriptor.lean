/-
# Segment descriptors, gates and the I/O permission bitmap of the x86

A descriptor of the global descriptor table scatters its base address over three fields and its
20-bit limit over two.  A descriptor of a task state segment (TSS) says where the segment lies and
which of its bytes may be used; at offset 102 the segment holds the offset of a bitmap with one bit
for each I/O port.

Code whose privilege level is above IOPL may access a port only if its bit is clear.  The processor
reads two bytes of the bitmap and denies the access if they are not within the limit.

A gate of the interrupt descriptor table says where the code for a vector begins, and who may ask
for it with an `int` instruction; a vector that cannot be entered becomes a fault, with a gate of
its own.
-/
import FlowOS.Lib.Mem

namespace X86

/-! ## 1. Descriptors -/

/-- The eight bytes of a descriptor. -/
structure Descriptor where
  limitLow : UInt16
  baseLow : UInt16
  baseMiddle : UInt8
  access : UInt8
  granularity : UInt8
  baseHigh : UInt8
  deriving DecidableEq

namespace Descriptor

/-- The base address. -/
def base (d : Descriptor) : Nat :=
  d.baseLow.toNat + 2 ^ 16 * d.baseMiddle.toNat + 2 ^ 24 * d.baseHigh.toNat

/-- The largest offset; with the granularity bit the unit is a page. -/
def limit (d : Descriptor) : Nat :=
  let raw := d.limitLow.toNat + 2 ^ 16 * (d.granularity.toNat % 16)
  if d.granularity.toNat.testBit 7 then 4096 * raw + 4095 else raw

end Descriptor

/-! ## 2. Access to ports -/

/-- The bit of a port in the bitmap of a TSS. -/
def portBit (tss : Descriptor) (m : Mem) (port : UInt16) : Bool :=
  let offset := m.ld16 (tss.base + 102) + port.toNat / 8
  (m ((tss.base + offset) % 2 ^ 32)).toNat.testBit (port.toNat % 8)

/-- **The rule for port access**: at privilege level `cpl`, with the I/O privilege level `iopl`. -/
def PortAllowed (cpl iopl : Nat) (tss : Descriptor) (m : Mem) (port : UInt16) : Prop :=
  cpl ≤ iopl ∨
    m.ld16 (tss.base + 102) + port.toNat / 8 + 1 ≤ tss.limit ∧ portBit tss m port = false

instance (cpl iopl : Nat) (tss : Descriptor) (m : Mem) (port : UInt16) :
    Decidable (PortAllowed cpl iopl tss m port) := inferInstanceAs (Decidable (_ ∨ _ ∧ _))

/-- The upper half of a word in memory. -/
theorem ld16_upper (m : Mem) (a : Nat) : m.ld16 (a + 2) = m.ld32 a / 65536 := by
  have h0 := (m a).toNat_lt
  have h1 := (m (a + 1)).toNat_lt
  have h16 : m.ld16 (a + 2) = (m (a + 2)).toNat + 256 * (m (a + 3)).toNat := rfl
  rw [h16, Mem.ld32]
  omega

/-- A bit of a word in memory is a bit of one of its bytes. -/
theorem testBit_ld32 (m : Mem) (a : Nat) {i : Nat} (hi : i < 32) :
    (m.ld32 a).testBit i = (m (a + i / 8)).toNat.testBit (i % 8) := by
  have h0 := (m a).toNat_lt
  have h1 := (m (a + 1)).toNat_lt
  have h2 := (m (a + 2)).toNat_lt
  have h3 := (m (a + 3)).toNat_lt
  have hbyte : (m (a + i / 8)).toNat = m.ld32 a / 2 ^ (8 * (i / 8)) % 2 ^ 8 := by
    have hcases : i / 8 = 0 ∨ i / 8 = 1 ∨ i / 8 = 2 ∨ i / 8 = 3 := by omega
    unfold Mem.ld32
    rcases hcases with h | h | h | h <;> rw [h]
    · simp only [Nat.mul_zero, Nat.pow_zero, Nat.add_zero]
      omega
    · simp only [Nat.mul_one, Nat.reducePow]
      omega
    · simp only [Nat.reduceMul, Nat.reducePow]
      omega
    · simp only [Nat.reduceMul, Nat.reducePow]
      omega
  have hbit : i % 8 < 8 := Nat.mod_lt i (by decide)
  rw [hbyte, Nat.testBit_mod_two_pow, Nat.testBit_div_two_pow, Nat.mod_add_div]
  simp [hbit]

/-! ## 3. Gates -/

/-- The eight bytes of a gate. -/
structure Gate where
  offsetLow : UInt16
  selector : UInt16
  zero : UInt8
  flags : UInt8
  offsetHigh : UInt16
  deriving DecidableEq

namespace Gate

/-- The address of the code. -/
def offset (g : Gate) : UInt32 := UInt32.ofNat (g.offsetLow.toNat + 2 ^ 16 * g.offsetHigh.toNat)

def present (g : Gate) : Bool := g.flags.toNat.testBit 7

/-- The privilege level that an `int` instruction needs. -/
def dpl (g : Gate) : Nat := g.flags.toNat / 32 % 4

/-- A 32-bit interrupt gate, which turns interrupts off, or a trap gate, which does not. -/
def kind (g : Gate) : Nat := g.flags.toNat % 32

end Gate

/-- What the processor does with a gate. -/
inductive Entry
  | enter (selector : UInt16) (offset : UInt32) (interruptsOff : Bool)
  | fault (vector : UInt8)
  deriving DecidableEq

/-- **The rule for gates**, at the privilege level `cpl`; `software` says that an `int` instruction
asks. -/
def Gate.entry (g : Gate) (software : Bool) (cpl : Nat) : Entry :=
  if g.kind ≠ 14 ∧ g.kind ≠ 15 then .fault 13
  else if software ∧ g.dpl < cpl then .fault 13
  else if g.present = false then .fault 11
  else .enter g.selector g.offset (g.kind = 14)

/-- An interrupt gate that is present is entered, unless an `int` instruction lacks the
privilege. -/
theorem Gate.entry_enter {g : Gate} {software : Bool} {cpl : Nat} (hkind : g.kind = 14)
    (hpresent : g.present = true) (hpriv : software = true → cpl ≤ g.dpl) :
    g.entry software cpl = .enter g.selector g.offset true := by
  have hdpl : ¬ (software = true ∧ g.dpl < cpl) := fun h => Nat.not_lt.mpr (hpriv h.1) h.2
  simp [Gate.entry, hkind, hpresent, hdpl]

/-- The `int` instruction is refused. -/
theorem Gate.entry_refused {g : Gate} {cpl : Nat}
    (h : g.dpl < cpl ∨ (g.kind ≠ 14 ∧ g.kind ≠ 15)) : g.entry true cpl = .fault 13 := by
  unfold Gate.entry
  split
  · rfl
  · rename_i hkind
    rw [if_pos ⟨rfl, h.resolve_right hkind⟩]

/-- The vector, the selector and the address that a request ends at; `none` if the fault has no gate
either. -/
def deliver (idt : UInt8 → Gate) (v : UInt8) (software : Bool) (cpl : Nat) :
    Option (UInt8 × UInt16 × UInt32 × Bool) :=
  match (idt v).entry software cpl with
  | .enter sel off intr => some (v, sel, off, intr)
  | .fault f =>
    match (idt f).entry false cpl with
    | .enter sel off intr => some (f, sel, off, intr)
    | .fault _ => none

section Deliver

variable {idt : UInt8 → Gate} {v f : UInt8} {software : Bool} {cpl : Nat} {sel : UInt16}
  {off : UInt32} {intr : Bool}

theorem deliver_enter (h : (idt v).entry software cpl = .enter sel off intr) :
    deliver idt v software cpl = some (v, sel, off, intr) := by
  rw [deliver, h]

/-- A request that is refused is delivered as the fault. -/
theorem deliver_fault (h : (idt v).entry software cpl = .fault f)
    (hf : (idt f).entry false cpl = .enter sel off intr) :
    deliver idt v software cpl = some (f, sel, off, intr) := by
  rw [deliver, h]
  dsimp only
  rw [hf]

end Deliver

end X86
