/-
# Traps, with every flag and every segment register

`X86` keeps one selector for the four data segment registers and one bit of `EFLAGS`, and its rules
for the stack ask for room below the stack pointer.  Code that saves and restores registers can be
looked at more closely: here each segment register is a register of its own, the processor pushes
any `EFLAGS` and, for some vectors, an error code, and the stack may wrap around the address space
(`Words`).  What the closer machine does is, without the segment registers, what `X86` does
(`runSeg_state`).
-/
import FlowOS.Lib.X86

namespace X86

/-! ## 1. Words on a stack that may wrap -/

/-- The words `ws` lie at `sp`, addresses taken modulo `2 ^ 32`. -/
def Words (m : Mem) (sp : UInt32) (ws : List UInt32) : Prop :=
  ∀ i w, ws[i]? = some w → load m (sp + UInt32.ofNat (4 * i)) = w

variable {m : Mem} {sp w : UInt32} {us ws : List UInt32}

theorem Words.nil (m : Mem) (sp : UInt32) : Words m sp [] := by
  intro i w hi
  cases hi

theorem load_store_same (m : Mem) (a w : UInt32) : load (store m a w) a = w := by
  rw [load, store, Mem.ld32_st32_same w.toNat_lt, UInt32.ofNat_toNat]

/-- Words at a distance of four at least, either way around. -/
theorem load_store_apart (m : Mem) (a w : UInt32) {d : Nat} (h4 : 4 ≤ d) (hd : d + 4 ≤ 2 ^ 32) :
    load (store m a w) (a + UInt32.ofNat d) = load m (a + UInt32.ofNat d) := by
  have ha := a.toNat_lt
  have hsum : (a + UInt32.ofNat d).toNat = (a.toNat + d) % 2 ^ 32 := by
    rw [UInt32.toNat_add, UInt32.toNat_ofNat', Nat.add_mod_mod]
  rw [load, load, store, Mem.ld32_st32_disjoint _ (by omega)]

theorem Words.push (h : Words m sp ws) (hlen : 4 * (ws.length + 1) ≤ 2 ^ 32) (w : UInt32) :
    Words (store m (sp - 4) w) (sp - 4) (w :: ws) := by
  intro i u hi
  cases i with
  | zero =>
    obtain rfl := Option.some.inj hi
    rw [show UInt32.ofNat (4 * 0) = 0 from rfl, UInt32.add_zero]
    exact load_store_same m _ _
  | succ i =>
    rw [List.getElem?_cons_succ] at hi
    have hlt : i < ws.length := (List.getElem?_eq_some_iff.mp hi).1
    have haddr : sp - 4 + UInt32.ofNat (4 * (i + 1)) = sp + UInt32.ofNat (4 * i) := by
      rw [Nat.mul_succ, UInt32.ofNat_add, show UInt32.ofNat 4 = 4 from rfl]
      grind
    rw [load_store_apart m _ _ (by omega) (by omega), haddr]
    exact h i u hi

theorem Words.pop (h : Words m sp (w :: ws)) : load m sp = w ∧ Words m (sp + 4) ws := by
  constructor
  · have h0 := h 0 w rfl
    rwa [show UInt32.ofNat (4 * 0) = 0 from rfl, UInt32.add_zero] at h0
  · intro i u hi
    have haddr : sp + 4 + UInt32.ofNat (4 * i) = sp + UInt32.ofNat (4 * (i + 1)) := by
      rw [Nat.mul_succ, UInt32.ofNat_add, show UInt32.ofNat 4 = 4 from rfl]
      grind
    rw [haddr]
    exact h (i + 1) u hi

theorem Words.pushAll {s : State} (h : Words s.2 (s.1.reg .esp) ws)
    (hlen : 4 * (us.length + ws.length) ≤ 2 ^ 32) :
    Words (pushAll us s).2 ((pushAll us s).1.reg .esp) (us.reverse ++ ws) := by
  induction us generalizing s ws with
  | nil => exact h
  | cons u us ih =>
    rw [List.length_cons] at hlen
    have hpush := h.push (by omega) u
    have hsp : (X86.push u s).1.reg .esp = s.1.reg .esp - 4 := by
      simp only [X86.push, Cpu.set, Function.update_self]
    rw [← hsp] at hpush
    have hrest := @ih (u :: ws) (X86.push u s) hpush (by rw [List.length_cons]; omega)
    simpa [pushAll_cons] using hrest

theorem pushAll_sp (ws : List UInt32) (s : State) :
    (pushAll ws s).1.reg .esp = s.1.reg .esp - UInt32.ofNat (4 * ws.length) := by
  induction ws generalizing s with
  | nil =>
    show s.1.reg .esp = s.1.reg .esp - 0
    rw [UInt32.sub_zero]
  | cons w ws ih =>
    have hsp : (X86.push w s).1.reg .esp = s.1.reg .esp - 4 := by
      simp only [X86.push, Cpu.set, Function.update_self]
    rw [pushAll_cons, ih, hsp, List.length_cons, Nat.mul_succ, UInt32.ofNat_add,
      show UInt32.ofNat 4 = 4 from rfl]
    grind

theorem pushAll_append (us ws : List UInt32) (s : State) :
    pushAll (us ++ ws) s = pushAll ws (pushAll us s) := List.foldl_append

theorem toUInt16_setLow (r : UInt32) (w : UInt16) : (setLow r w).toUInt16 = w := by
  refine UInt16.toBitVec_inj.mp (BitVec.eq_of_getElem_eq fun i hi => ?_)
  simp [setLow]

/-! ## 2. What the processor pushes -/

/-- The frame of an interrupt, with the processor's `EFLAGS` given as a word. -/
def trapFrame (c : Cpu) (flags : UInt32) : List UInt32 :=
  (if c.user then [c.ss.toUInt32, c.reg .esp] else []) ++ [flags, c.cs.toUInt32, c.eip]

/-- An interrupt through a gate whose code segment is `selector`, with the error code, if the vector
has one, pushed last. -/
def trap (tss : Tss) (selector : UInt16) (flags : UInt32) (err : Option UInt32) (s : State) :
    State :=
  let r := pushAll (trapFrame s.1 flags ++ err.toList) (interruptCpu tss s.1, s.2)
  ({ r.1 with cs := selector, intr := false }, r.2)

/-- Without an error code, and with the flags that `X86` keeps, it is its interrupt. -/
theorem trap_interrupt (tss : Tss) (selector : UInt16) (s : State) :
    trap tss selector s.1.eflags none s = interrupt tss selector s := by
  unfold trap interrupt trapFrame interruptFrame
  rw [Option.toList_none, List.append_nil]

/-! ## 3. The segment registers -/

/-- A state in which `ds` is one data segment register of four. -/
structure SegState where
  state : State
  es : UInt16
  fs : UInt16
  gs : UInt16

/-- An instruction of `X86`, in which `movDsAx` loads `ds` alone, or one that loads another data
segment register. -/
inductive SegInstr
  | base (i : Instr)
  | movEsAx
  | movFsAx
  | movGsAx

def SegState.ax (s : SegState) : UInt16 := (s.state.1.reg .eax).toUInt16

def execSeg (s : SegState) : SegInstr → SegState
  | .base i => { s with state := exec s.state i }
  | .movEsAx => { s with es := s.ax }
  | .movFsAx => { s with fs := s.ax }
  | .movGsAx => { s with gs := s.ax }

def runSeg (code : List SegInstr) (s : SegState) : SegState := code.foldl execSeg s

/-- The instruction as `X86` sees it. -/
def SegInstr.erase : SegInstr → List Instr
  | .base i => [i]
  | _ => []

/-- **Simulation**: without the other segment registers it is the run of `X86`. -/
theorem runSeg_state (code : List SegInstr) (s : SegState) :
    (runSeg code s).state = run (code.flatMap SegInstr.erase) s.state := by
  induction code generalizing s with
  | nil => rfl
  | cons i code ih =>
    rw [List.flatMap_cons, run_append]
    have hstep : (execSeg s i).state = run i.erase s.state := by
      cases i <;> rfl
    rw [← hstep]
    exact ih (execSeg s i)

end X86
