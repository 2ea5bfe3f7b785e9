/-
# The descriptor table and the TSS (`gdt.c`)

`write_tss` makes the descriptor of the task state segment and fills the segment.  Two slips decide
which ports a program may use.  The limit it passes is the address of the end of the structure, not
its size, and 20 bits of that are kept.  And `iomap_base` stays 0, so the bitmap starts at the
beginning of the segment: the ports' bits are those of the stack pointers and selectors stored
there, and of whatever lies behind.

So a port is denied only if the truncated limit ends before its bit, or if the bit happens to be set
(`port_denied_iff`).
-/
import FlowOS.Lib.Descriptor
import Mathlib.Logic.Function.Basic
import Mathlib.Tactic.IntervalCases

namespace FlowOS.Gdt

open X86

/-! ## 1. The model -/

/-- The table, and the memory with `tss_entry`. -/
structure State where
  gdt : Nat → Descriptor
  mem : Mem

/-- `gdt_set_gate`. -/
def gdtSetGate (s : State) (num : Nat) (base limit : UInt32) (access gran : UInt8) : State :=
  { s with gdt := Function.update s.gdt num {
      baseLow := (base &&& 0xFFFF).toUInt16
      baseMiddle := ((base >>> 16) &&& 0xFF).toUInt8
      baseHigh := ((base >>> 24) &&& 0xFF).toUInt8
      limitLow := (limit &&& 0xFFFF).toUInt16
      granularity := ((limit >>> 16) &&& 0x0F).toUInt8 ||| (gran &&& 0xF0)
      access := access } }

/-- `sizeof(tss_entry)`. -/
def tssSize : Nat := 104

/-- The fields of the TSS that `write_tss` sets, at their offsets. -/
def storeFields (m : Mem) (base : Nat) (ss0 : UInt16) (esp0 : UInt32) : Mem :=
  let m := m.st32 (base + 8) ss0.toNat
  let m := m.st32 (base + 4) esp0.toNat
  let m := m.st32 (base + 76) 0x0b  -- cs
  let m := m.st32 (base + 80) 0x13  -- ss
  let m := m.st32 (base + 84) 0x13  -- ds
  let m := m.st32 (base + 72) 0x13  -- es
  let m := m.st32 (base + 88) 0x13  -- fs
  m.st32 (base + 92) 0x13  -- gs

/-- `write_tss`, for `tss_entry` at the address `base`. -/
def writeTss (base : UInt32) (s : State) (num : Nat) (ss0 : UInt16) (esp0 : UInt32) : State :=
  let limit := base + UInt32.ofNat tssSize
  let s := gdtSetGate s num base limit 0xE9 0x00
  let m := s.mem.copy base.toNat (fun _ => 0) 0 tssSize
  { s with mem := storeFields m base.toNat ss0 esp0 }

/-- `gdt_init`, up to the loading of the registers. -/
def gdtInit (base : UInt32) (s : State) : State :=
  let s := gdtSetGate s 0 0 0 0 0
  let s := gdtSetGate s 1 0 0xFFFFFFFF 0x9A 0xCF  -- kernel code
  let s := gdtSetGate s 2 0 0xFFFFFFFF 0x92 0xCF  -- kernel data
  let s := gdtSetGate s 3 0 0xFFFFFFFF 0xFA 0xCF  -- user code
  let s := gdtSetGate s 4 0 0xFFFFFFFF 0xF2 0xCF  -- user data
  writeTss base s 5 0x10 0x0

/-! ## 2. The descriptor -/

theorem gdtSetGate_base (s : State) (num : Nat) (base limit : UInt32) (access gran : UInt8) :
    ((gdtSetGate s num base limit access gran).gdt num).base = base.toNat := by
  have hlt := base.toNat_lt
  have hlow : base.toNat &&& 65535 = base.toNat % 2 ^ 16 := Nat.and_two_pow_sub_one_eq_mod _ 16
  have hbyte : ∀ x, x &&& 255 = x % 2 ^ 8 := fun x => Nat.and_two_pow_sub_one_eq_mod x 8
  simp only [gdtSetGate, Function.update_self, Descriptor.base, UInt32.toNat_toUInt16,
    UInt32.toNat_toUInt8, UInt32.toNat_and, UInt32.toNat_shiftRight, UInt32.reduceToNat, hlow,
    hbyte, Nat.shiftRight_eq_div_pow, Nat.reduceMod, Nat.reducePow]
  omega

/-- 20 bits of the limit are kept. -/
theorem gdtSetGate_limit (s : State) (num : Nat) (base limit : UInt32) (access : UInt8) :
    ((gdtSetGate s num base limit access 0).gdt num).limit = limit.toNat % 2 ^ 20 := by
  have hlow : limit.toNat &&& 65535 = limit.toNat % 2 ^ 16 := Nat.and_two_pow_sub_one_eq_mod _ 16
  have hhigh : ∀ x, x &&& 15 = x % 2 ^ 4 := fun x => Nat.and_two_pow_sub_one_eq_mod x 4
  have hgran : (((limit >>> 16) &&& 0x0F).toUInt8 ||| ((0 : UInt8) &&& 0xF0)).toNat
      = limit.toNat / 2 ^ 16 % 16 := by
    have hzero : (0 : UInt8) &&& 0xF0 = 0 := by decide
    rw [hzero, UInt8.or_zero]
    simp only [UInt32.toNat_toUInt8, UInt32.toNat_and, UInt32.toNat_shiftRight,
      UInt32.reduceToNat, hhigh, Nat.shiftRight_eq_div_pow, Nat.reduceMod, Nat.reducePow]
    omega
  have hbit : (limit.toNat / 2 ^ 16 % 16).testBit 7 = false :=
    Nat.testBit_lt_two_pow (by omega)
  simp only [gdtSetGate, Function.update_self, Descriptor.limit, hgran, hbit,
    UInt32.toNat_toUInt16, UInt32.toNat_and, UInt32.reduceToNat, hlow]
  simp only [Bool.false_eq_true, if_false]
  omega

/-! ## 3. The segment -/

/-- The words of the TSS as `write_tss` leaves it. -/
def tssWord (ss0 : UInt16) (esp0 : UInt32) : Nat → Nat
  | 1 => esp0.toNat
  | 2 => ss0.toNat
  | 18 | 20 | 21 | 22 | 23 => 0x13
  | 19 => 0x0b
  | _ => 0

theorem ld32_zeros {m : Mem} {base k : Nat} (hk : k < 26) :
    (m.copy base (fun _ => 0) 0 tssSize).ld32 (base + 4 * k) = 0 := by
  have hsame : ∀ x, base + 4 * k ≤ x → x < base + 4 * k + 4 →
      m.copy base (fun _ => 0) 0 tssSize x = (fun _ => 0 : Mem) x := by
    intro x hlow hhigh
    obtain ⟨j, rfl⟩ := Nat.exists_eq_add_of_le (show base ≤ x by omega)
    exact Mem.copy_inside (show j < 104 by omega)
  rw [Mem.ld32_congr hsame]
  rfl

/-- **What `write_tss` leaves in the segment.** -/
theorem writeTss_word (base : UInt32) (s : State) (num : Nat) (ss0 : UInt16) (esp0 : UInt32)
    {k : Nat} (hk : k < 26) :
    (writeTss base s num ss0 esp0).mem.ld32 (base.toNat + 4 * k) = tssWord ss0 esp0 k := by
  have hss0 : ss0.toNat < 2 ^ 32 := lt_trans ss0.toNat_lt (by decide)
  have hesp0 := esp0.toNat_lt
  have hzero := @ld32_zeros (gdtSetGate s num base (base + UInt32.ofNat tssSize) 0xE9 0).mem
    base.toNat k hk
  unfold writeTss storeFields
  dsimp only
  generalize Mem.copy _ base.toNat _ 0 tssSize = m at hzero ⊢
  interval_cases k <;>
    simp (disch := first | omega | decide) only [Mem.ld32_st32_same, Mem.ld32_st32_disjoint,
      tssWord, hzero]

/-- Nothing outside the segment is written. -/
theorem writeTss_outside {base : UInt32} {s : State} {num : Nat} {ss0 : UInt16} {esp0 : UInt32}
    {x : Nat} (hx : x < base.toNat ∨ base.toNat + tssSize ≤ x) :
    (writeTss base s num ss0 esp0).mem x = s.mem x := by
  have hsize : tssSize = 104 := rfl
  unfold writeTss storeFields
  dsimp only
  rw [Mem.st32_outside _ (by omega), Mem.st32_outside _ (by omega), Mem.st32_outside _ (by omega),
    Mem.st32_outside _ (by omega), Mem.st32_outside _ (by omega), Mem.st32_outside _ (by omega),
    Mem.st32_outside _ (by omega), Mem.st32_outside _ (by omega), Mem.copy_outside hx]
  rfl

/-! ## 4. The ports -/

/-- The bit that the processor takes for that of a port: one of the segment's words, or for the
ports from 832 on one of the memory behind the segment. -/
def bitRead (base : UInt32) (s : State) (ss0 : UInt16) (esp0 : UInt32) (port : UInt16) : Bool :=
  if port.toNat < 832 then (tssWord ss0 esp0 (port.toNat / 32)).testBit (port.toNat % 32)
  else (s.mem ((base.toNat + port.toNat / 8) % 2 ^ 32)).toNat.testBit (port.toNat % 8)

section Ports

variable (base : UInt32) (hfits : base.toNat + tssSize ≤ 2 ^ 32) (s : State) (num : Nat)
  (ss0 : UInt16) (esp0 : UInt32)

theorem writeTss_base : ((writeTss base s num ss0 esp0).gdt num).base = base.toNat :=
  gdtSetGate_base s num base _ _ _

theorem writeTss_limit :
    ((writeTss base s num ss0 esp0).gdt num).limit = (base.toNat + tssSize) % 2 ^ 20 := by
  have hsum : (base + UInt32.ofNat tssSize).toNat = (base.toNat + tssSize) % 2 ^ 32 :=
    UInt32.toNat_add _ _
  refine (gdtSetGate_limit s num base _ _).trans ?_
  rw [hsum]
  omega

/-- `iomap_base` is 0. -/
theorem writeTss_iomap : (writeTss base s num ss0 esp0).mem.ld16 (base.toNat + 102) = 0 := by
  have hword := writeTss_word base s num ss0 esp0 (show 25 < 26 by decide)
  have hupper := ld16_upper (writeTss base s num ss0 esp0).mem (base.toNat + 4 * 25)
  have hzero : tssWord ss0 esp0 25 = 0 := rfl
  rw [hword, hzero, Nat.zero_div] at hupper
  exact hupper

include hfits in
theorem portBit_writeTss (port : UInt16) :
    portBit ((writeTss base s num ss0 esp0).gdt num) (writeTss base s num ss0 esp0).mem port
      = bitRead base s ss0 esp0 port := by
  have hsize : tssSize = 104 := rfl
  have hport := port.toNat_lt
  unfold portBit bitRead
  dsimp only
  rw [writeTss_base, writeTss_iomap, Nat.zero_add]
  split
  · rename_i hlt
    have haddr : (base.toNat + port.toNat / 8) % 2 ^ 32
        = base.toNat + 4 * (port.toNat / 32) + port.toNat % 32 / 8 := by omega
    have hbit : port.toNat % 8 = port.toNat % 32 % 8 := by omega
    rw [haddr, hbit, ← testBit_ld32 _ _ (by omega), writeTss_word base s num ss0 esp0 (by omega)]
  · rw [writeTss_outside (by omega)]

include hfits in
/-- A port is denied at privilege level 3 exactly when the limit does not reach the bytes that are
read for it, or the bit read is set. -/
theorem writeTss_denies_iff (port : UInt16) :
    ¬PortAllowed 3 0 ((writeTss base s num ss0 esp0).gdt num)
        (writeTss base s num ss0 esp0).mem port ↔
      (base.toNat + tssSize) % 2 ^ 20 ≤ port.toNat / 8 ∨ bitRead base s ss0 esp0 port = true := by
  unfold PortAllowed
  rw [portBit_writeTss base hfits, writeTss_base, writeTss_iomap, writeTss_limit]
  cases bitRead base s ss0 esp0 port with
  | false =>
    simp only [and_true, reduceCtorEq, or_false]
    omega
  | true =>
    simp only [reduceCtorEq, and_false, or_true, iff_true]
    decide

include hfits in
/-- **Which ports a program is denied.**  With the TSS and the descriptor of `write_tss`, a port is
denied at privilege level 3 exactly when the limit, 20 bits of the address where the TSS ends, does
not reach the bytes that are read for it, or the bit read is set.  All ports are denied only if
those 20 bits are zero. -/
theorem port_denied_iff :
    (∀ port, ¬PortAllowed 3 0 ((writeTss base s num ss0 esp0).gdt num)
        (writeTss base s num ss0 esp0).mem port ↔
      (base.toNat + tssSize) % 2 ^ 20 ≤ port.toNat / 8 ∨ bitRead base s ss0 esp0 port = true) ∧
    ((∀ port, ¬PortAllowed 3 0 ((writeTss base s num ss0 esp0).gdt num)
        (writeTss base s num ss0 esp0).mem port) ↔ (base.toNat + tssSize) % 2 ^ 20 = 0) := by
  have hone := writeTss_denies_iff base hfits s num ss0 esp0
  refine ⟨hone, ?_⟩
  constructor
  · intro h
    -- the bit of port 0 is one of `prev_tss`
    rcases (hone 0).mp (h 0) with hlow | hbit
    · exact Nat.le_zero.mp hlow
    · have hprev : bitRead base s ss0 esp0 0 = false := Nat.zero_testBit 0
      rw [hprev] at hbit
      cases hbit
  · intro h port
    exact (hone port).mpr (Or.inl (by rw [h]; exact Nat.zero_le _))

end Ports

/-- A TSS that ends at a multiple of 1 MiB. -/
theorem port_denied_iff_aligned : ¬PortAllowed 3 0
    ((writeTss 0x1FFF98 ⟨fun _ => ⟨0, 0, 0, 0, 0, 0⟩, fun _ => 0⟩ 5 0x10 0).gdt 5)
    (writeTss 0x1FFF98 ⟨fun _ => ⟨0, 0, 0, 0, 0, 0⟩, fun _ => 0⟩ 5 0x10 0).mem 0x60 :=
  ((port_denied_iff 0x1FFF98 (by decide) _ 5 0x10 0).2.mpr (by decide)) 0x60

/-- A kernel with its TSS at 0x120000: a program may access the data register of the disk. -/
theorem disk_port_open : PortAllowed 3 0
    ((writeTss 0x120000 ⟨fun _ => ⟨0, 0, 0, 0, 0, 0⟩, fun _ => 0⟩ 5 0x10 0x10B000).gdt 5)
    (writeTss 0x120000 ⟨fun _ => ⟨0, 0, 0, 0, 0, 0⟩, fun _ => 0⟩ 5 0x10 0x10B000).mem 0x1F0 := by
  decide +kernel

/-- After `gdt_init` this is so in every kernel whose limit reaches the bits of the disk's ports:
they are bits of `ebp`, which is zero. -/
theorem gdtInit_disk_open {base : UInt32} (hfits : base.toNat + tssSize ≤ 2 ^ 32)
    (hlimit : 0x1F0 / 8 < (base.toNat + tssSize) % 2 ^ 20) (s : State) {port : UInt16}
    (hlow : 0x1F0 ≤ port.toNat) (hhigh : port.toNat < 0x1F8) :
    PortAllowed 3 0 ((gdtInit base s).gdt 5) (gdtInit base s).mem port := by
  by_contra hdenied
  rcases (writeTss_denies_iff base hfits _ 5 0x10 0 port).mp hdenied with hout | hbit
  · omega
  · have hword : port.toNat / 32 = 15 := by omega
    rw [bitRead, if_pos (by omega), hword] at hbit
    exact Bool.false_ne_true ((Nat.zero_testBit _).symm.trans hbit)

end FlowOS.Gdt
