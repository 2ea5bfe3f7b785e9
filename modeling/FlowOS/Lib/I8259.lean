/-
# Two cascaded interrupt controllers

The pair of 8259A chips of a PC: eight lines each, the second chip behind line 2 of the first.  A
chip latches requests (IRR), hides some of them (IMR), and remembers the lines that are being served
(ISR) until software says that a service has ended.  A line is not passed on while one of the same
or of a higher priority is in service, so a service that nobody ends blocks its line for good.

The processor acknowledges without knowing what has asked.  If the request has gone by then, the
chip answers for its line 7 and marks nothing as in service: a spurious interrupt.  If it is the
second chip that has nothing to say, line 2 of the first one is in service all the same.

Requests come and go as the devices like; here they are part of the state that anything may change.
Rotating priorities, the special mask mode and the reading of IRR and ISR are left out: a command
that asks for one of them does nothing.
-/
import Mathlib.Data.Fin.Basic
import Mathlib.Data.List.FinRange
import Mathlib.Data.Nat.Bitwise
import Mathlib.Logic.Function.Basic

namespace I8259

/-! ## 1. A chip -/

/-- What the next byte at the data port is: a mask, or one of the bytes that follow a command to
initialize. -/
inductive Phase
  | ready
  | icw2
  | icw3
  | icw4
  deriving DecidableEq

structure Chip where
  imr : UInt8
  irr : Fin 8 → Bool
  isr : Fin 8 → Bool
  /-- The vector of line 0. -/
  base : UInt8
  cascade : UInt8
  x86 : Bool
  autoEoi : Bool
  phase : Phase
  single : Bool
  icw4 : Bool

/-- The line is hidden. -/
def Chip.masked (c : Chip) (l : Fin 8) : Bool := c.imr.toNat.testBit l

/-- The first line of a set, line 0 being the most urgent. -/
def first (f : Fin 8 → Bool) : Option (Fin 8) := (List.finRange 8).find? f

/-- The line that a chip passes on: the first request that is not masked, unless something as urgent
is in service. -/
def Chip.request (c : Chip) : Option (Fin 8) :=
  match first fun l => c.irr l && !c.masked l with
  | none => none
  | some l => if (List.finRange 8).any fun s => c.isr s && decide (s ≤ l) then none else some l

/-- The most urgent service ends. -/
def Chip.eoi (c : Chip) : Chip :=
  match first c.isr with
  | none => c
  | some l => { c with isr := Function.update c.isr l false }

/-- A byte at the command port. -/
def Chip.command (c : Chip) (v : UInt8) : Chip :=
  if v.toNat.testBit 4 then
    { c with
      imr := 0, irr := fun _ => false, isr := fun _ => false, x86 := false, autoEoi := false,
      phase := .icw2, single := v.toNat.testBit 1, icw4 := v.toNat.testBit 0 }
  else if v.toNat.testBit 3 then c
  else
    match v.toNat / 32 with
    | 1 => c.eoi
    | 3 => { c with isr := Function.update c.isr (Fin.ofNat 8 v.toNat) false }
    | _ => c

/-- A byte at the data port. -/
def Chip.data (c : Chip) (v : UInt8) : Chip :=
  let last : Phase := if c.icw4 then .icw4 else .ready
  match c.phase with
  | .ready => { c with imr := v }
  | .icw2 => { c with base := v &&& 0xF8, phase := if c.single then last else .icw3 }
  | .icw3 => { c with cascade := v, phase := last }
  | .icw4 => { c with x86 := v.toNat.testBit 0, autoEoi := v.toNat.testBit 1, phase := .ready }

/-- The service of a line begins. -/
def Chip.serve (c : Chip) (l : Fin 8) : Chip :=
  { c with
    irr := Function.update c.irr l false
    isr := if c.autoEoi then c.isr else Function.update c.isr l true }

/-- The vector of a line. -/
def Chip.vector (c : Chip) (l : Fin 8) : Option UInt8 :=
  if c.x86 then some (c.base + UInt8.ofNat l) else none

/-- Nothing is in service. -/
def Chip.Quiet (c : Chip) : Prop := c.isr = fun _ => false

/-! ## 2. The pair -/

structure Pair where
  master : Chip
  slave : Chip

/-- `out`, at the ports of a PC. -/
def Pair.outb (p : Pair) (port : UInt16) (v : UInt8) : Pair :=
  if port = 0x20 then { p with master := p.master.command v }
  else if port = 0x21 then { p with master := p.master.data v }
  else if port = 0xA0 then { p with slave := p.slave.command v }
  else if port = 0xA1 then { p with slave := p.slave.data v }
  else p

/-- `in`, at the data ports: the mask. -/
def Pair.inb (p : Pair) (port : UInt16) : UInt8 :=
  if port = 0x21 then p.master.imr
  else if port = 0xA1 then p.slave.imr
  else 0xFF

/-- The processor acknowledges: the vector it reads, if there is a chip that delivers one. -/
def Pair.inta (p : Pair) : Option UInt8 × Pair :=
  match p.master.request with
  | none => (p.master.vector 7, p)
  | some l =>
    let p := { p with master := p.master.serve l }
    if p.master.cascade.toNat.testBit l then
      if p.slave.cascade.toNat % 8 = l then
        match p.slave.request with
        | none => (p.slave.vector 7, p)
        | some k => (p.slave.vector k, { p with slave := p.slave.serve k })
      else (none, p)
    else (p.master.vector l, p)

def Pair.Quiet (p : Pair) : Prop := p.master.Quiet ∧ p.slave.Quiet

/-- A chip is in use: it delivers the vectors from `base` on, and a service lasts until its end is
announced. -/
structure Chip.Running (c : Chip) (base cascade : UInt8) : Prop where
  phase : c.phase = .ready
  x86 : c.x86 = true
  autoEoi : c.autoEoi = false
  base : c.base = base
  cascade : c.cascade = cascade

/-- The pair is in use, the second chip at line 2. -/
structure Pair.Running (p : Pair) (base₁ base₂ : UInt8) : Prop where
  master : p.master.Running base₁ 4
  slave : p.slave.Running base₂ 2

/-! ## 3. Services and their ends -/

theorem first_eq_none {f : Fin 8 → Bool} : first f = none ↔ ∀ l, f l = false := by
  simp [first, List.find?_eq_none]

theorem first_some {f : Fin 8 → Bool} {l : Fin 8} (h : first f = some l) : f l = true :=
  List.find?_some h

/-- The only line of a set is its first one. -/
theorem first_single : ∀ l, first (Function.update (fun _ => false) l true) = some l := by decide

/-- The second chip is at line 2. -/
theorem cascade_four : ∀ l : Fin 8, (4 : UInt8).toNat.testBit l = true ↔ l = 2 := by decide

/-- Nothing more urgent is in the set. -/
theorem first_min {f : Fin 8 → Bool} {l j : Fin 8} (h : first f = some l) (hj : j < l) :
    f j = false := by
  obtain ⟨-, i, hi, hl, hbefore⟩ := List.find?_eq_some_iff_getElem.mp h
  rw [List.getElem_finRange] at hl
  have hji : j.val < i := by
    rw [← hl] at hj
    exact hj
  have hnone := hbefore j.val hji
  rw [List.getElem_finRange] at hnone
  simpa using hnone

variable {c : Chip} {p : Pair} {base base₁ base₂ cascade : UInt8} {l : Fin 8}

/-- When nothing is in service, nothing is held back. -/
theorem Chip.Quiet.request (h : c.Quiet) : c.request = first fun l => c.irr l && !c.masked l := by
  have hisr : ∀ s, c.isr s = false := congrFun h
  unfold Chip.request
  cases first fun l => c.irr l && !c.masked l with
  | none => rfl
  | some l => simp [hisr]

/-- The line asks for service and is not hidden. -/
def Chip.Asks (c : Chip) (l : Fin 8) : Prop := c.irr l = true ∧ c.masked l = false

/-- It asks, and none of the more urgent ones does. -/
def Chip.Urgent (c : Chip) (l : Fin 8) : Prop := c.Asks l ∧ ∀ j < l, ¬ c.Asks j

theorem Chip.Quiet.urgent (h : c.Quiet) (hl : c.request = some l) : c.Urgent l := by
  have hasks : ∀ j, (c.irr j && !c.masked j) = true ↔ c.Asks j := by
    intro j
    simp [Chip.Asks]
  rw [h.request] at hl
  refine ⟨(hasks l).mp (first_some hl), fun j hj hask => ?_⟩
  have hnone := first_min hl hj
  rw [(hasks j).mpr hask] at hnone
  cases hnone

theorem Chip.Quiet.asks_none (h : c.Quiet) (hnone : c.request = none) (l : Fin 8) : ¬ c.Asks l := by
  rw [h.request, first_eq_none] at hnone
  rintro ⟨hirr, hmask⟩
  have := hnone l
  rw [hirr, hmask] at this
  cases this

theorem Chip.Quiet.eoi (h : c.Quiet) : c.eoi = c := by
  have hnone : first c.isr = none := first_eq_none.mpr (congrFun h)
  rw [Chip.eoi, hnone]

/-- **A service that began when there was no other is ended by the next announcement.** -/
theorem Chip.Quiet.eoi_serve (h : c.Quiet) (l : Fin 8) : (c.serve l).eoi.Quiet := by
  by_cases hauto : c.autoEoi = true
  · have hserve : (c.serve l).Quiet := by
      unfold Chip.Quiet Chip.serve
      rw [hauto]
      exact h
    rw [hserve.eoi]
    exact hserve
  · have hisr : (c.serve l).isr = Function.update (fun _ => false) l true := by
      unfold Chip.serve
      rw [h]
      simp [hauto]
    have hfirst : first (c.serve l).isr = some l := by
      rw [hisr]
      exact first_single l
    unfold Chip.Quiet Chip.eoi
    rw [hfirst]
    dsimp only
    rw [hisr, Function.update_idem, Function.update_eq_self]

/-- What ends a service depends on the services alone. -/
theorem Chip.eoi_isr {c' : Chip} (h : c.isr = c'.isr) : c.eoi.isr = c'.eoi.isr := by
  unfold Chip.eoi
  rw [← h]
  cases first c.isr with
  | none => exact h
  | some l => rfl

theorem Chip.Running.eoi (h : c.Running base cascade) : c.eoi.Running base cascade := by
  unfold Chip.eoi
  cases first c.isr with
  | none => exact h
  | some l => exact ⟨h.phase, h.x86, h.autoEoi, h.base, h.cascade⟩

theorem Chip.Running.serve (h : c.Running base cascade) (l : Fin 8) :
    (c.serve l).Running base cascade := ⟨h.phase, h.x86, h.autoEoi, h.base, h.cascade⟩

theorem Chip.Running.vector (h : c.Running base cascade) (l : Fin 8) :
    c.vector l = some (base + UInt8.ofNat l) := by
  rw [Chip.vector, if_pos h.x86, h.base]

/-- A byte at the data port of a chip in use is a mask. -/
theorem Chip.Running.data (h : c.Running base cascade) (v : UInt8) :
    c.data v = { c with imr := v } := by
  rw [Chip.data, h.phase]

/-- **The answers of a pair in use**: a line of the first chip, a line of the second one, or a
spurious interrupt of one of the two. -/
inductive Acknowledged (p : Pair) (base₁ base₂ : UInt8) : Option UInt8 × Pair → Prop
  | master {l : Fin 8} (hl : l ≠ 2) (hreq : p.master.request = some l) :
      Acknowledged p base₁ base₂
        (some (base₁ + UInt8.ofNat l), ⟨p.master.serve l, p.slave⟩)
  | spurious (hreq : p.master.request = none) :
      Acknowledged p base₁ base₂ (some (base₁ + 7), p)
  | slave {k : Fin 8} (hreq : p.master.request = some 2) (hk : p.slave.request = some k) :
      Acknowledged p base₁ base₂
        (some (base₂ + UInt8.ofNat k), ⟨p.master.serve 2, p.slave.serve k⟩)
  | spuriousSlave (hreq : p.master.request = some 2) (hk : p.slave.request = none) :
      Acknowledged p base₁ base₂ (some (base₂ + 7), ⟨p.master.serve 2, p.slave⟩)

theorem Pair.Running.inta (h : p.Running base₁ base₂) : Acknowledged p base₁ base₂ p.inta := by
  unfold Pair.inta
  cases hreq : p.master.request with
  | none =>
    dsimp only
    rw [h.master.vector]
    exact .spurious hreq
  | some l =>
    have hcascade : (p.master.serve l).cascade.toNat.testBit l = true ↔ l = 2 := by
      rw [(h.master.serve l).cascade]
      exact cascade_four l
    by_cases hl : l = 2
    · subst hl
      dsimp only
      rw [if_pos (hcascade.mpr rfl), if_pos (by rw [h.slave.cascade]; rfl)]
      cases hk : p.slave.request with
      | none =>
        dsimp only
        rw [h.slave.vector]
        exact .spuriousSlave hreq hk
      | some k =>
        dsimp only
        rw [h.slave.vector]
        exact .slave hreq hk
    · dsimp only
      rw [if_neg (hcascade.not.mpr hl), (h.master.serve l).vector]
      exact .master hl hreq

end I8259
