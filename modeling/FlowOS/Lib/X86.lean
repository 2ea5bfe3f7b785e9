/-
# A 32-bit x86, as far as kernel stubs use it

The general registers, the instruction pointer, the segment selectors, the interrupt flag and
memory; the instructions entry, exit and switching code is written in; and what the processor
does at an interrupt gate.  The privilege level is the low two bits of `cs`, as on the machine.
One selector stands for the four data segment registers, and of `EFLAGS` only the interrupt flag
is kept: nothing here computes with the others.

The rules are about the stack.  `Stack m sp ws` says that the words `ws` lie at `sp`, the next
one to be popped first; a push puts a word in front (`Stack.push`), a pop takes it off
(`Stack.pop`), and what is outside the pushed words keeps its value (`pushAll_outside`).
-/
import FlowOS.Lib.Mem
import Mathlib.Logic.Function.Basic

namespace X86

/-! ## 1. The processor -/

/-- The general registers, in the order `pusha` stores them. -/
inductive Reg
  | eax | ecx | edx | ebx | esp | ebp | esi | edi
  deriving DecidableEq, Repr

/-- The registers of the processor; `intr` is the interrupt flag. -/
@[ext] structure Cpu where
  reg : Reg → UInt32
  eip : UInt32
  cs : UInt16
  ss : UInt16
  ds : UInt16
  intr : Bool

/-- The processor and the memory it runs on. -/
abbrev State := Cpu × Mem

/-- Is the processor at privilege level 3? -/
def Cpu.user (c : Cpu) : Bool := c.cs % 4 = 3

/-- Write a general register. -/
def Cpu.set (c : Cpu) (r : Reg) (w : UInt32) : Cpu := { c with reg := Function.update c.reg r w }

@[simp] theorem Cpu.set_reg_self (c : Cpu) (r : Reg) (w : UInt32) : (c.set r w).reg r = w := by
  simp [Cpu.set]

@[simp] theorem Cpu.set_reg_other (c : Cpu) {r r' : Reg} (w : UInt32) (h : r' ≠ r) :
    (c.set r w).reg r' = c.reg r' := by
  simp [Cpu.set, h]

/-- `EFLAGS` as `pushf` stores it: bit 1 is always set, bit 9 is the interrupt flag. -/
def Cpu.eflags (c : Cpu) : UInt32 := if c.intr then 0x202 else 0x002

/-- The interrupt flag in a stored `EFLAGS`. -/
def intrOf (eflags : UInt32) : Bool := eflags.toNat.testBit 9

/-- The word at an address. -/
def load (m : Mem) (a : UInt32) : UInt32 := UInt32.ofNat (m.ld32 a.toNat)

/-- Store a word at an address. -/
def store (m : Mem) (a w : UInt32) : Mem := m.st32 a.toNat w.toNat

/-- Push a word. -/
def push (w : UInt32) (s : State) : State :=
  let sp := s.1.reg .esp - 4
  (s.1.set .esp sp, store s.2 sp w)

/-- Push words, the first one first. -/
def pushAll (ws : List UInt32) (s : State) : State := ws.foldl (fun s w => push w s) s

/-- Write the low half of a register. -/
def setLow (r : UInt32) (w : UInt16) : UInt32 := (r >>> 16) <<< 16 ||| w.toUInt32

/-! ## 2. Instructions -/

/-- Instructions.  `load` is `mov dst, [base + off]`, `store` is `mov [base], src`, `movDsAx` loads
all the data segment registers. -/
inductive Instr
  | push (r : Reg)
  | pushImm (w : UInt32)
  | pushf
  | pusha
  | pop (r : Reg)
  | popa
  | load (dst base : Reg) (off : UInt32)
  | store (base src : Reg)
  | add (r : Reg) (w : UInt32)
  | or (r : Reg) (w : UInt32)
  | movAx (w : UInt16)
  | movAxDs
  | movDsAx
  | cli
  | ret
  | iret

/-- The registers after `popa` with the stack pointer `sp`; the stored `esp` is skipped. -/
def popaReg (m : Mem) (sp : UInt32) : Reg → UInt32
  | .edi => load m sp
  | .esi => load m (sp + 4)
  | .ebp => load m (sp + 4 + 4)
  | .esp => sp + 4 + 4 + 4 + 4 + 4 + 4 + 4 + 4
  | .ebx => load m (sp + 4 + 4 + 4 + 4)
  | .edx => load m (sp + 4 + 4 + 4 + 4 + 4)
  | .ecx => load m (sp + 4 + 4 + 4 + 4 + 4 + 4)
  | .eax => load m (sp + 4 + 4 + 4 + 4 + 4 + 4 + 4)

/-- `iret`: the stack pointer and `ss` are popped too when the return is to level 3. -/
def iret (s : State) : State :=
  let sp := s.1.reg .esp
  let cs := (load s.2 (sp + 4)).toUInt16
  let c := { s.1 with eip := load s.2 sp, cs := cs, intr := intrOf (load s.2 (sp + 4 + 4)) }
  if c.user then
    ({ c.set .esp (load s.2 (sp + 4 + 4 + 4)) with
        ss := (load s.2 (sp + 4 + 4 + 4 + 4)).toUInt16 }, s.2)
  else (c.set .esp (sp + 4 + 4 + 4), s.2)

/-- Execute one instruction. -/
def exec (s : State) : Instr → State
  | .push r => push (s.1.reg r) s
  | .pushImm w => push w s
  | .pushf => push s.1.eflags s
  | .pusha => pushAll ([.eax, .ecx, .edx, .ebx, .esp, .ebp, .esi, .edi].map s.1.reg) s
  | .pop r => ((s.1.set .esp (s.1.reg .esp + 4)).set r (load s.2 (s.1.reg .esp)), s.2)
  | .popa => ({ s.1 with reg := popaReg s.2 (s.1.reg .esp) }, s.2)
  | .load dst base off => (s.1.set dst (load s.2 (s.1.reg base + off)), s.2)
  | .store base src => (s.1, store s.2 (s.1.reg base) (s.1.reg src))
  | .add r w => (s.1.set r (s.1.reg r + w), s.2)
  | .or r w => (s.1.set r (s.1.reg r ||| w), s.2)
  | .movAx w => (s.1.set .eax (setLow (s.1.reg .eax) w), s.2)
  | .movAxDs => (s.1.set .eax (setLow (s.1.reg .eax) s.1.ds), s.2)
  | .movDsAx => ({ s.1 with ds := (s.1.reg .eax).toUInt16 }, s.2)
  | .cli => ({ s.1 with intr := false }, s.2)
  | .ret => ({ s.1.set .esp (s.1.reg .esp + 4) with eip := load s.2 (s.1.reg .esp) }, s.2)
  | .iret => iret s

/-- Execute straight-line code. -/
def run (code : List Instr) (s : State) : State := code.foldl exec s

theorem run_append (xs ys : List Instr) (s : State) : run (xs ++ ys) s = run ys (run xs s) :=
  List.foldl_append

/-- `call`: the code runs with the return address, which is `eip`, pushed. -/
def call (code : List Instr) (s : State) : State := run code (push s.1.eip s)

/-- The stack for interrupts from level 3, from the task state segment. -/
structure Tss where
  ss0 : UInt16
  esp0 : UInt32
  deriving DecidableEq

/-- The stack an interrupt is taken on: from level 3 the one of the task state segment. -/
def interruptCpu (tss : Tss) (c : Cpu) : Cpu :=
  if c.user then { c.set .esp tss.esp0 with ss := tss.ss0 } else c

/-- What the processor saves at an interrupt: from level 3 the old stack too. -/
def interruptFrame (c : Cpu) : List UInt32 :=
  (if c.user then [c.ss.toUInt32, c.reg .esp] else []) ++ [c.eflags, c.cs.toUInt32, c.eip]

/-- **What the processor does at an interrupt gate**: it changes stacks, saves its frame there, and
goes on in the gate's code segment with the interrupt flag clear.  Like `call`, it leaves the
choice of the code to its user. -/
def interrupt (tss : Tss) (selector : UInt16) (s : State) : State :=
  let r := pushAll (interruptFrame s.1) (interruptCpu tss s.1, s.2)
  ({ r.1 with cs := selector, intr := false }, r.2)

/-! ## 3. Rules for the stack -/

/-- The words `ws` lie at `sp`, the next one to be popped first. -/
def Stack (m : Mem) (sp : UInt32) (ws : List UInt32) : Prop :=
  sp.toNat + 4 * ws.length ≤ 2 ^ 32 ∧
    ∀ i w, ws[i]? = some w → m.ld32 (sp.toNat + 4 * i) = w.toNat

theorem Stack.nil (m : Mem) (sp : UInt32) : Stack m sp [] :=
  ⟨Nat.le_of_lt sp.toNat_lt, by simp⟩

/-- The words of a stack see only their own bytes. -/
theorem Stack.congr {m m' : Mem} {sp : UInt32} {ws : List UInt32} (h : Stack m sp ws)
    (heq : ∀ x, sp.toNat ≤ x → x < sp.toNat + 4 * ws.length → m' x = m x) : Stack m' sp ws := by
  refine ⟨h.1, fun i w hi => ?_⟩
  have hlt : i < ws.length := (List.getElem?_eq_some_iff.mp hi).1
  rw [← h.2 i w hi]
  exact Mem.ld32_congr fun x h1 h2 => heq x (by omega) (by omega)

/-- The first words of a stack. -/
theorem Stack.left {m : Mem} {sp : UInt32} {us ws : List UInt32} (h : Stack m sp (us ++ ws)) :
    Stack m sp us := by
  obtain ⟨h1, h2⟩ := h
  rw [List.length_append] at h1
  refine ⟨by omega, fun i w hi => h2 i w ?_⟩
  have hlt : i < us.length := (List.getElem?_eq_some_iff.mp hi).1
  rw [List.getElem?_append_left hlt, hi]

/-- A pop takes the first word off. -/
theorem Stack.pop {m : Mem} {sp w : UInt32} {ws : List UInt32} (h : Stack m sp (w :: ws)) :
    load m sp = w ∧ Stack m (sp + 4) ws := by
  obtain ⟨h1, h2⟩ := h
  rw [List.length_cons] at h1
  refine ⟨?_, ?_⟩
  · have h0 : m.ld32 sp.toNat = w.toNat := h2 0 w rfl
    rw [load, h0, UInt32.ofNat_toNat]
  · rcases ws with _ | ⟨v, ws⟩
    · exact Stack.nil m _
    · rw [List.length_cons] at h1
      have hsp : (sp + 4).toNat = sp.toNat + 4 := by
        rw [UInt32.toNat_add]
        exact Nat.mod_eq_of_lt (by simp only [UInt32.reduceToNat]; omega)
      refine ⟨by rw [hsp, List.length_cons]; omega, fun i u hi => ?_⟩
      rw [hsp, Nat.add_assoc, ← Nat.mul_succ 4 i |>.trans (Nat.add_comm _ _)]
      exact h2 (i + 1) u hi

/-- A pop into another register than the stack pointer takes the word on top. -/
theorem Stack.exec_pop {c : Cpu} {m : Mem} {w : UInt32} {ws : List UInt32}
    (h : Stack m (c.reg .esp) (w :: ws)) {r : Reg} (hr : r ≠ .esp) :
    exec (c, m) (.pop r) = ((c.set .esp (c.reg .esp + 4)).set r w, m) ∧
      Stack m (((c.set .esp (c.reg .esp + 4)).set r w).reg .esp) ws := by
  obtain ⟨hw, hrest⟩ := h.pop
  constructor
  · rw [exec, hw]
  · rwa [Cpu.set_reg_other _ _ hr.symm, Cpu.set_reg_self]

/-- A word of the stack, read at its offset. -/
theorem Stack.get {m : Mem} {sp w : UInt32} {ws : List UInt32} (h : Stack m sp ws) {i : Nat}
    (hi : ws[i]? = some w) : load m (sp + UInt32.ofNat (4 * i)) = w := by
  have hlt : i < ws.length := (List.getElem?_eq_some_iff.mp hi).1
  have hsp : (sp + UInt32.ofNat (4 * i)).toNat = sp.toNat + 4 * i := by
    have h1 := h.1
    rw [UInt32.toNat_add, UInt32.toNat_ofNat', Nat.mod_eq_of_lt (a := 4 * i) (by omega)]
    exact Nat.mod_eq_of_lt (by omega)
  rw [load, hsp, h.2 i w hi, UInt32.ofNat_toNat]

/-- The stack pointer after a push. -/
theorem toNat_sub_four {sp : UInt32} (h : 4 ≤ sp.toNat) : (sp - 4).toNat = sp.toNat - 4 :=
  UInt32.toNat_sub_of_le _ _ (UInt32.le_iff_toNat_le.mpr h)

/-- A push puts a word in front. -/
theorem Stack.push {m : Mem} {sp : UInt32} {ws : List UInt32} (h : Stack m sp ws) (w : UInt32)
    (h4 : 4 ≤ sp.toNat) : Stack (store m (sp - 4) w) (sp - 4) (w :: ws) := by
  have hsp := toNat_sub_four h4
  obtain ⟨h1, h2⟩ := h
  unfold Stack store
  rw [hsp, List.length_cons]
  refine ⟨by omega, fun i u hi => ?_⟩
  cases i with
  | zero =>
    obtain rfl := Option.some.inj hi
    exact Mem.ld32_st32_same w.toNat_lt
  | succ i =>
    rw [Mem.ld32_st32_disjoint _ (by omega), ← h2 i u hi]
    congr 1
    omega

@[simp] theorem push_reg (w : UInt32) (s : State) {r : Reg} (hr : r ≠ .esp) :
    (push w s).1.reg r = s.1.reg r := Cpu.set_reg_other s.1 _ hr

theorem pushAll_cons (w : UInt32) (ws : List UInt32) (s : State) :
    pushAll (w :: ws) s = pushAll ws (X86.push w s) := rfl

/-- Pushing changes the stack pointer and no other register. -/
theorem pushAll_fst (ws : List UInt32) (s : State) :
    (pushAll ws s).1 = s.1.set .esp ((pushAll ws s).1.reg .esp) := by
  induction ws generalizing s with
  | nil => simp [pushAll, Cpu.set]
  | cons w ws ih =>
    rw [pushAll_cons, ih]
    simp [X86.push, Cpu.set]

theorem pushAll_esp {ws : List UInt32} {s : State} (h : 4 * ws.length ≤ (s.1.reg .esp).toNat) :
    ((pushAll ws s).1.reg .esp).toNat = (s.1.reg .esp).toNat - 4 * ws.length := by
  induction ws generalizing s with
  | nil => rfl
  | cons w ws ih =>
    rw [List.length_cons] at h
    have hsp : ((X86.push w s).1.reg .esp).toNat = (s.1.reg .esp).toNat - 4 := by
      simp only [X86.push, Cpu.set, Function.update_self]
      exact toNat_sub_four (by omega)
    rw [pushAll_cons, ih (by omega), hsp, List.length_cons]
    omega

/-- **Frame rule**: pushing writes the words below the stack pointer and nothing else. -/
theorem pushAll_outside {ws : List UInt32} {s : State} {x : Nat}
    (h : 4 * ws.length ≤ (s.1.reg .esp).toNat)
    (hx : x < (s.1.reg .esp).toNat - 4 * ws.length ∨ (s.1.reg .esp).toNat ≤ x) :
    (pushAll ws s).2 x = s.2 x := by
  induction ws generalizing s with
  | nil => rfl
  | cons w ws ih =>
    rw [List.length_cons] at h hx
    have hsp : ((X86.push w s).1.reg .esp).toNat = (s.1.reg .esp).toNat - 4 := by
      simp only [X86.push, Cpu.set, Function.update_self]
      exact toNat_sub_four (by omega)
    rw [pushAll_cons, ih (by omega) (by omega)]
    simp only [X86.push, store]
    rw [toNat_sub_four (by omega)]
    exact Mem.st32_outside _ (by omega)

/-- Pushing puts the words in front, the last one first. -/
theorem Stack.pushAll {us ws : List UInt32} {s : State} (h : Stack s.2 (s.1.reg .esp) ws)
    (hroom : 4 * us.length ≤ (s.1.reg .esp).toNat) :
    Stack (pushAll us s).2 ((pushAll us s).1.reg .esp) (us.reverse ++ ws) := by
  induction us generalizing s ws with
  | nil => exact h
  | cons u us ih =>
    rw [List.length_cons] at hroom
    have hpush := h.push u (by omega)
    have hsp : (X86.push u s).1.reg .esp = s.1.reg .esp - 4 := by
      simp only [X86.push, Cpu.set, Function.update_self]
    rw [← hsp] at hpush
    have hn : ((X86.push u s).1.reg .esp).toNat = (s.1.reg .esp).toNat - 4 := by
      rw [hsp]
      exact toNat_sub_four (by omega)
    have := @ih (u :: ws) (X86.push u s) hpush (by omega)
    simpa [pushAll_cons] using this

/-! ## 4. Code that pushes -/

/-- From `s` to `s'` the stack has grown by `n` words and memory has changed only there. -/
def Pushes (n : Nat) (s s' : State) : Prop :=
  4 * n ≤ (s.1.reg .esp).toNat → (s'.1.reg .esp).toNat = (s.1.reg .esp).toNat - 4 * n ∧
    ∀ x, x < (s.1.reg .esp).toNat - 4 * n ∨ (s.1.reg .esp).toNat ≤ x → s'.2 x = s.2 x

theorem pushes_pushAll (ws : List UInt32) (s : State) : Pushes ws.length s (pushAll ws s) :=
  fun h => ⟨pushAll_esp h, fun _ hx => pushAll_outside h hx⟩

theorem pushes_push (w : UInt32) (s : State) : Pushes 1 s (push w s) := pushes_pushAll [w] s

theorem interrupt_pushes (tss : Tss) (selector : UInt16) (s : State) :
    Pushes (interruptFrame s.1).length (interruptCpu tss s.1, s.2) (interrupt tss selector s) :=
  fun h => ⟨pushAll_esp h, fun _ hx => pushAll_outside h hx⟩

/-- Code that leaves the stack pointer and memory alone. -/
theorem pushes_zero {s s' : State} (hesp : s'.1.reg .esp = s.1.reg .esp) (hmem : s'.2 = s.2) :
    Pushes 0 s s' :=
  fun _ => ⟨by rw [hesp]; rfl, fun _ _ => by rw [hmem]⟩

theorem Pushes.trans {n k : Nat} {s s' s'' : State} (h : Pushes n s s') (h' : Pushes k s' s'') :
    Pushes (n + k) s s'' := by
  intro hroom
  obtain ⟨h1, h2⟩ := h (by omega)
  obtain ⟨h3, h4⟩ := h' (by omega)
  refine ⟨by omega, fun x hx => ?_⟩
  rw [h4 x (by omega), h2 x (by omega)]

/-- The words an instruction pushes, if it is one that pushes or leaves the stack alone. -/
def Instr.pushed : Instr → Option Nat
  | .push _ | .pushImm _ | .pushf => some 1
  | .pusha => some 8
  | .movAx _ | .movAxDs | .movDsAx | .cli => some 0
  | .load dst _ _ | .or dst _ => if dst = .esp then none else some 0
  | _ => none

/-- The words that code pushes, if all its instructions push or leave the stack alone. -/
def pushed : List Instr → Option Nat
  | [] => some 0
  | i :: code =>
    match i.pushed, pushed code with
    | some n, some k => some (n + k)
    | _, _ => none

theorem exec_pushes {i : Instr} {n : Nat} (h : i.pushed = some n) (s : State) :
    Pushes n s (exec s i) := by
  cases i with
  | push | pushImm | pushf =>
    obtain rfl := Option.some.inj h
    exact pushes_push _ s
  | pusha =>
    obtain rfl := Option.some.inj h
    have hpush := pushes_pushAll ([.eax, .ecx, .edx, .ebx, .esp, .ebp, .esi, .edi].map s.1.reg) s
    rw [List.length_map] at hpush
    rw [exec]
    exact hpush
  | movAx | movAxDs | movDsAx | cli =>
    obtain rfl := Option.some.inj h
    exact pushes_zero (by simp [exec]) rfl
  | load dst | or dst =>
    simp only [Instr.pushed, Option.ite_none_left_eq_some, Option.some.injEq] at h
    obtain ⟨hdst, rfl⟩ := h
    exact pushes_zero (Cpu.set_reg_other _ _ (Ne.symm hdst)) rfl
  | _ => cases h

/-- **Code that pushes `n` words.** -/
theorem run_pushes {code : List Instr} {n : Nat} (h : pushed code = some n) (s : State) :
    Pushes n s (run code s) := by
  induction code generalizing n s with
  | nil =>
    obtain rfl := Option.some.inj h
    exact pushes_zero rfl rfl
  | cons i code ih =>
    unfold pushed at h
    split at h
    · rename_i n' k hi hk
      obtain rfl := Option.some.inj h
      exact (exec_pushes hi s).trans (ih hk _)
    · cases h

end X86
