/-
# The interrupt frame (`isr.asm`, `idt.h`)

An interrupt reaches its C handler through a stub of its own, which pushes the vector number, below
a dummy error code if the processor has pushed none, and one of the two common stubs, which push the
general registers and `ds` and pass the stack pointer to the handler.  `struct registers` is what
the handler finds there: sixteen words, declared in the order in which they lie in memory.

Push order, dummy error codes and the struct are written in three places.  That they fit, for every
vector with a stub, is the first half of `frame_restored`; the second is the way back, when the
handler has changed nothing of the struct but `eax`.

The two common stubs differ in the handler they call, and the handler is any change of the state
here.
-/
import FlowOS.Lib.Trap
import FlowOS.Process.Switch

namespace FlowOS.Process

open X86

/-! ## 1. The stubs -/

/-- `ISR_NOERRCODE`, up to the jump to the common stub. -/
def isrNoErrcode (n : Nat) : List SegInstr :=
  [.base (.pushImm 0), .base (.pushImm (UInt32.ofNat n))]

/-- `ISR_ERRCODE`: the error code is there already. -/
def isrErrcode (n : Nat) : List SegInstr := [.base (.pushImm (UInt32.ofNat n))]

/-- `IRQ`, for a line and its vector. -/
def irq (_line n : Nat) : List SegInstr :=
  [.base (.pushImm 0), .base (.pushImm (UInt32.ofNat n))]

/-- The vectors declared with `ISR_ERRCODE`. -/
def errcodeVectors : List Nat := [8, 10, 11, 12, 13, 14, 17, 30]

/-- The stub of a vector. -/
def stub (n : Nat) : Option (List SegInstr) :=
  if n ∈ errcodeVectors then some (isrErrcode n)
  else if n < 32 ∨ n = 128 then some (isrNoErrcode n)
  else if n < 48 then some (irq (n - 32) n)
  else none

/-- `isr_common_stub` and `irq_common_stub`, up to the call of the handler. -/
def commonEntry : List SegInstr :=
  [.base .pusha, .base .movAxDs, .base (.push .eax), .base (.movAx 0x10), .base .movDsAx, .movEsAx,
    .movFsAx, .movGsAx, .base (.push .esp)]

/-- From the return of the handler to the `iret`. -/
def commonExit : List SegInstr :=
  [.base (.add .esp 4), .base (.pop .eax), .base .movDsAx, .movEsAx, .movFsAx, .movGsAx,
    .base .popa, .base (.add .esp 8)]

/-- `struct registers`. -/
@[ext] structure Registers where
  ds : UInt32
  edi : UInt32
  esi : UInt32
  ebp : UInt32
  esp : UInt32
  ebx : UInt32
  edx : UInt32
  ecx : UInt32
  eax : UInt32
  intNo : UInt32
  errCode : UInt32
  eip : UInt32
  cs : UInt32
  eflags : UInt32
  useresp : UInt32
  ss : UInt32

/-- The field with the name of a register. -/
def Registers.gp (r : Registers) : Reg → UInt32
  | .eax => r.eax
  | .ecx => r.ecx
  | .edx => r.edx
  | .ebx => r.ebx
  | .esp => r.esp
  | .ebp => r.ebp
  | .esi => r.esi
  | .edi => r.edi

/-- The struct that a pointer points to. -/
def Registers.of (m : Mem) (p : UInt32) : Registers :=
  let field (i : Nat) := load m (p + UInt32.ofNat (4 * i))
  ⟨field 0, field 1, field 2, field 3, field 4, field 5, field 6, field 7, field 8, field 9,
    field 10, field 11, field 12, field 13, field 14, field 15⟩

/-- An interrupt with a vector, through its gate: an error code is pushed for the vectors of
`errcodeVectors`. -/
def trapped (tss : Tss) (flags err : UInt32) (n : Nat) (s : SegState) : SegState :=
  { s with state := trap tss 0x08 flags (if n ∈ errcodeVectors then some err else none) s.state }

/-- The state in which the handler is called. -/
def atHandler (tss : Tss) (flags err : UInt32) (n : Nat) (code : List SegInstr) (s : SegState) :
    SegState :=
  runSeg (code ++ commonEntry) (trapped tss flags err n s)

/-- The handler's argument: the word on top of the stack. -/
def argument (s : SegState) : UInt32 := load s.state.2 (s.state.1.reg .esp)

/-- Other values of `eax` and of the last two fields, which are not part of the frame unless the
interrupt came from level 3. -/
def Registers.write (r : Registers) (eax useresp ss : UInt32) : Registers :=
  { r with eax := eax, useresp := useresp, ss := ss }

/-- The handler returns, and of the frame has written at most `eax`. -/
structure WritesOnlyEax (before after : SegState) : Prop where
  esp : after.state.1.reg .esp = before.state.1.reg .esp
  struct : ∃ eax useresp ss, Registers.of after.state.2 (argument before) =
    (Registers.of before.state.2 (argument before)).write eax useresp ss

/-- Without an error code, and with the flags `X86` keeps, a handler is called in the state in which
the machine of the processes calls it. -/
theorem atHandler_state (tss : Tss) (err : UInt32) {n : Nat} (hn : n ∉ errcodeVectors)
    (s : SegState) :
    (atHandler tss s.state.1.eflags err n (isrNoErrcode n) s).state =
      run (stubEntry (UInt32.ofNat n)) (interrupt tss 0x08 s.state) := by
  rw [atHandler, runSeg_state, trapped, if_neg hn, trap_interrupt]
  rfl

/-- And it returns as there. -/
theorem commonExit_state (s : SegState) :
    (runSeg (commonExit ++ [.base .iret]) s).state = run stubExit s.state := runSeg_state _ s

/-! ## 2. The way in -/

variable {tss : Tss} {flags err : UInt32} {n : Nat} {code : List SegInstr} {s : SegState}

/-- The error code in the frame, with the dummy. -/
def frameError (n : Nat) (err : UInt32) : UInt32 := if n ∈ errcodeVectors then err else 0

/-- The words pushed before the common stub. -/
def vectorWords (flags err : UInt32) (n : Nat) (c : Cpu) : List UInt32 :=
  trapFrame c flags ++ [frameError n err, UInt32.ofNat n]

/-- **Whatever the vector, the common stub finds the same frame**: the processor's, an error code
and the vector. -/
theorem stub_state (h : stub n = some code) :
    run (code.flatMap SegInstr.erase) (trapped tss flags err n s).state =
      let r := pushAll (vectorWords flags err n s.state.1)
        (interruptCpu tss s.state.1, s.state.2)
      ({ r.1 with cs := 0x08, intr := false }, r.2) := by
  unfold trapped trap vectorWords frameError
  dsimp only
  by_cases hn : n ∈ errcodeVectors
  · rw [stub, if_pos hn] at h
    obtain rfl := Option.some.inj h
    rw [if_pos hn, if_pos hn]
    simp only [pushAll_append]
    rfl
  · have hcode : code.flatMap SegInstr.erase = [.pushImm 0, .pushImm (UInt32.ofNat n)] := by
      rw [stub, if_neg hn] at h
      split at h
      · obtain rfl := Option.some.inj h
        rfl
      · split at h
        · obtain rfl := Option.some.inj h
          rfl
        · cases h
    rw [if_neg hn, if_neg hn, hcode]
    simp only [pushAll_append]
    rfl

/-- The words the common stub pushes: the general registers, `ds` in the low half of `eax`, and the
address of the struct. -/
def commonWords (c : Cpu) : List UInt32 :=
  [.eax, .ecx, .edx, .ebx, .esp, .ebp, .esi, .edi].map c.reg ++
    [setLow (c.reg .eax) c.ds, c.reg .esp - 36]

theorem commonEntry_state (s : X86.State) :
    (run (commonEntry.flatMap SegInstr.erase) s).2 = (pushAll (commonWords s.1) s).2 ∧
      (run (commonEntry.flatMap SegInstr.erase) s).1.reg .esp =
        (pushAll (commonWords s.1) s).1.reg .esp := by
  let gp := [Reg.eax, .ecx, .edx, .ebx, .esp, .ebp, .esi, .edi].map s.1.reg
  have hfst : (pushAll gp s).1 = s.1.set .esp ((pushAll gp s).1.reg .esp) := pushAll_fst gp s
  have hsp : (pushAll gp s).1.reg .esp = s.1.reg .esp - 32 := pushAll_sp gp s
  have heax : (pushAll gp s).1.reg .eax = s.1.reg .eax := by
    rw [hfst]
    exact Cpu.set_reg_other _ _ (by decide)
  have hds : (pushAll gp s).1.ds = s.1.ds := by
    rw [hfst]
    rfl
  have harg : s.1.reg .esp - 36 = s.1.reg .esp - 32 - 4 := by grind
  have hcode : commonEntry.flatMap SegInstr.erase =
      [.pusha] ++ [.movAxDs, .push .eax, .movAx 0x10, .movDsAx, .push .esp] := rfl
  have hpusha : run [.pusha] s = pushAll gp s := by
    rw [run, List.foldl_cons, List.foldl_nil, exec]
  have hentry : run (commonEntry.flatMap SegInstr.erase) s =
      run [.movAxDs, .push .eax, .movAx 0x10, .movDsAx, .push .esp] (pushAll gp s) := by
    rw [hcode, run_append, hpusha]
  have hwords : pushAll (commonWords s.1) s =
      push (s.1.reg .esp - 36) (push (setLow (s.1.reg .eax) s.1.ds) (pushAll gp s)) := by
    rw [commonWords, pushAll_append]
    rfl
  rw [hentry, hwords, harg, ← hsp, ← heax, ← hds]
  generalize pushAll gp s = p
  simp [run, exec, push, Cpu.set]

/-- An interrupt changes the stack pointer and no other general register. -/
theorem interruptCpu_reg (tss : Tss) (c : Cpu) {r : Reg} (hr : r ≠ .esp) :
    (interruptCpu tss c).reg r = c.reg r := by
  unfold interruptCpu
  split
  · exact Cpu.set_reg_other _ _ hr
  · rfl

theorem interruptCpu_ds (tss : Tss) (c : Cpu) : (interruptCpu tss c).ds = c.ds := by
  unfold interruptCpu
  split <;> rfl

/-- Where the frame of the processor begins: the stack pointer that an `iret` needs. -/
def cpuFrame (tss : Tss) (flags : UInt32) (s : X86.State) : UInt32 :=
  (pushAll (trapFrame s.1 flags) (interruptCpu tss s.1, s.2)).1.reg .esp

/-- What the processor and the vector's stub have pushed, the last word first. -/
theorem vector_stack (tss : Tss) (flags err : UInt32) (n : Nat) (s : X86.State) :
    let r := pushAll (vectorWords flags err n s.1) (interruptCpu tss s.1, s.2)
    r.1.reg .esp + 8 = cpuFrame tss flags s ∧
      ∃ rest, rest.length ≤ 2 ∧ Words r.2 (r.1.reg .esp)
        (UInt32.ofNat n :: frameError n err :: s.1.eip :: s.1.cs.toUInt32 :: flags :: rest) := by
  intro r
  constructor
  · have hsp : r.1.reg .esp = cpuFrame tss flags s - 8 := by
      show (pushAll (trapFrame s.1 flags ++ _) _).1.reg .esp = _
      rw [pushAll_append]
      exact pushAll_sp [frameError n err, UInt32.ofNat n] _
    rw [hsp]
    grind
  · let old := if s.1.user then [s.1.reg .esp, s.1.ss.toUInt32] else []
    have hold : old.length ≤ 2 := by
      show (if s.1.user then _ else _ : List UInt32).length ≤ 2
      split <;> simp
    have hrev : (vectorWords flags err n s.1).reverse ++ [] =
        UInt32.ofNat n :: frameError n err :: s.1.eip :: s.1.cs.toUInt32 :: flags :: old := by
      show _ = _ :: _ :: _ :: _ :: _ :: (if s.1.user then _ else _)
      unfold vectorWords trapFrame
      split <;> simp
    have hlen : (vectorWords flags err n s.1).length ≤ 7 := by
      have hlength := congrArg List.length hrev
      simp only [List.append_nil, List.length_reverse, List.length_cons] at hlength
      omega
    refine ⟨old, hold, ?_⟩
    rw [← hrev]
    refine Words.pushAll (s := (interruptCpu tss s.1, s.2)) (Words.nil _ _) ?_
    rw [List.length_nil]
    omega

/-- What the common stub pushes on top: the struct begins with `ds`, below the argument. -/
theorem common_stack (s : X86.State) {ws : List UInt32} (h : Words s.2 (s.1.reg .esp) ws)
    (hlen : ws.length ≤ 7) :
    let r := run (commonEntry.flatMap SegInstr.erase) s
    r.1.reg .esp + 4 = s.1.reg .esp - 36 ∧ load r.2 (r.1.reg .esp) = s.1.reg .esp - 36 ∧
      Words r.2 (s.1.reg .esp - 36)
        (setLow (s.1.reg .eax) s.1.ds :: s.1.reg .edi :: s.1.reg .esi :: s.1.reg .ebp ::
          s.1.reg .esp :: s.1.reg .ebx :: s.1.reg .edx :: s.1.reg .ecx :: s.1.reg .eax :: ws) := by
  intro r
  obtain ⟨hmem, hesp⟩ := commonEntry_state s
  have hsp : r.1.reg .esp + 4 = s.1.reg .esp - 36 := by
    have hpushed : (pushAll (commonWords s.1) s).1.reg .esp = s.1.reg .esp - 40 := pushAll_sp _ _
    show (run (commonEntry.flatMap SegInstr.erase) s).1.reg .esp + 4 = _
    rw [hesp, hpushed]
    grind
  have hwords : Words r.2 (r.1.reg .esp) ((commonWords s.1).reverse ++ ws) := by
    show Words (run (commonEntry.flatMap SegInstr.erase) s).2
      ((run (commonEntry.flatMap SegInstr.erase) s).1.reg .esp) _
    rw [hmem, hesp]
    exact h.pushAll (show 4 * (10 + ws.length) ≤ 2 ^ 32 by omega)
  obtain ⟨harg, hframe⟩ := Words.pop hwords
  rw [hsp] at hframe
  exact ⟨hsp, harg, hframe⟩

/-- The words of the struct that are always there, for an interrupted processor. -/
def frameWords (c : Cpu) (flags err sp : UInt32) (n : Nat) : List UInt32 :=
  [setLow (c.reg .eax) c.ds, c.reg .edi, c.reg .esi, c.reg .ebp, sp, c.reg .ebx, c.reg .edx,
    c.reg .ecx, c.reg .eax, UInt32.ofNat n, err, c.eip, c.cs.toUInt32, flags]

/-- **The frame the handler is called with.** -/
theorem atHandler_words (h : stub n = some code) :
    let now := atHandler tss flags err n code s
    now.state.1.reg .esp + 4 = argument now ∧
      argument now + 44 = cpuFrame tss flags s.state ∧
      ∃ sp rest, Words now.state.2 (argument now)
        (frameWords s.state.1 flags (frameError n err) sp n ++ rest) := by
  intro now
  have hstate : now.state = run (commonEntry.flatMap SegInstr.erase)
      (run (code.flatMap SegInstr.erase) (trapped tss flags err n s).state) := by
    rw [← run_append, ← List.flatMap_append]
    exact runSeg_state _ _
  obtain ⟨hframe, rest, hrest, hvec⟩ := vector_stack tss flags err n s.state
  have hfst := pushAll_fst (vectorWords flags err n s.state.1)
    (interruptCpu tss s.state.1, s.state.2)
  rw [stub_state h] at hstate
  generalize pushAll (vectorWords flags err n s.state.1)
    (interruptCpu tss s.state.1, s.state.2) = r at hframe hvec hfst hstate
  obtain ⟨hsp, harg, hwords⟩ := common_stack
    ({ r.1 with cs := 0x08, intr := false }, r.2) hvec (by simp only [List.length_cons]; omega)
  have hreg : ∀ x, x ≠ Reg.esp → r.1.reg x = s.state.1.reg x := by
    intro x hx
    rw [hfst, Cpu.set_reg_other _ _ hx]
    exact interruptCpu_reg tss _ hx
  have hds : r.1.ds = s.state.1.ds := by
    rw [hfst]
    exact interruptCpu_ds tss _
  have hargument : argument now = r.1.reg .esp - 36 := by
    rw [argument, hstate]
    exact harg
  refine ⟨?_, ?_, r.1.reg .esp, rest, ?_⟩
  · rw [hargument, hstate]
    exact hsp
  · rw [hargument, ← hframe]
    grind
  · rw [hargument, hstate, frameWords, ← hds, ← hreg .edi (by decide), ← hreg .esi (by decide),
      ← hreg .ebp (by decide), ← hreg .ebx (by decide), ← hreg .edx (by decide),
      ← hreg .ecx (by decide), ← hreg .eax (by decide)]
    exact hwords

/-! ## 3. The way back -/

/-- The common stub when the handler has returned with the struct at `p`. -/
theorem commonExit_run {after : SegState} {p : UInt32} (hp : after.state.1.reg .esp + 4 = p) :
    let out := runSeg commonExit after
    out.state.2 = after.state.2 ∧ out.state.1.reg .esp = p + 44 ∧
      (∀ r, r ≠ Reg.esp → out.state.1.reg r = popaReg after.state.2 (p + 4) r) ∧
      out.state.1.ds = (load after.state.2 p).toUInt16 ∧ out.es = (load after.state.2 p).toUInt16 ∧
      out.fs = (load after.state.2 p).toUInt16 ∧ out.gs = (load after.state.2 p).toUInt16 := by
  subst hp
  refine ⟨rfl, ?_, ?_, ?_, ?_, ?_, ?_⟩
  · simp [runSeg, commonExit, execSeg, exec, popaReg]
    grind
  · intro r hr
    simp [runSeg, commonExit, execSeg, exec, hr]
  all_goals simp [runSeg, commonExit, execSeg, exec, SegState.ax, Cpu.set]

/-- `popa` takes each register from the field of its name; it skips `esp`. -/
theorem popaReg_eq (m : Mem) (p : UInt32) {x : Reg} (hx : x ≠ .esp) :
    popaReg m (p + 4) x = (Registers.of m p).gp x := by
  cases x with
  | esp => exact absurd rfl hx
  | _ =>
    simp only [popaReg, UInt32.add_assoc]
    rfl

/-! ## 4. There and back -/

/-- **What the handler sees** of an interrupted processor, in the struct. -/
structure Registers.Shows (r : Registers) (c : Cpu) (flags err : UInt32) (n : Nat) : Prop where
  gp : ∀ x, x ≠ .esp → r.gp x = c.reg x
  intNo : r.intNo = UInt32.ofNat n
  errCode : r.errCode = err
  eip : r.eip = c.eip
  cs : r.cs = c.cs.toUInt32
  eflags : r.eflags = flags

/-- **What the `iret` finds** when `s` has been interrupted: the frame of the processor on top of
the stack, and the registers of `s`, with `eax` as given. -/
structure Restored (tss : Tss) (flags eax : UInt32) (s out : SegState) : Prop where
  esp : out.state.1.reg .esp = cpuFrame tss flags s.state
  frame : Words out.state.2 (cpuFrame tss flags s.state)
    [s.state.1.eip, s.state.1.cs.toUInt32, flags]
  eax : out.state.1.reg .eax = eax
  gp : ∀ x, x ≠ .esp → x ≠ .eax → out.state.1.reg x = s.state.1.reg x
  ds : out.state.1.ds = s.state.1.ds
  es : out.es = s.es
  fs : out.fs = s.fs
  gs : out.gs = s.gs

theorem Registers.of_words {m : Mem} {p sp : UInt32} {c : Cpu} {rest : List UInt32}
    (h : Words m p (frameWords c flags err sp n ++ rest)) :
    (Registers.of m p).Shows c flags err n ∧ (Registers.of m p).ds = setLow (c.reg .eax) c.ds := by
  refine ⟨⟨fun x hx => ?_, h 9 _ rfl, h 10 _ rfl, h 11 _ rfl, h 12 _ rfl, h 13 _ rfl⟩, h 0 _ rfl⟩
  cases x with
  | eax => exact h 8 _ rfl
  | ecx => exact h 7 _ rfl
  | edx => exact h 6 _ rfl
  | ebx => exact h 5 _ rfl
  | esp => exact absurd rfl hx
  | ebp => exact h 3 _ rfl
  | esi => exact h 2 _ rfl
  | edi => exact h 1 _ rfl

/-- The frame of the processor lies behind the first eleven fields. -/
theorem Registers.Shows.frame {m : Mem} {p : UInt32} {r : Registers} {c : Cpu}
    (h : r.Shows c flags err n) (heip : (Registers.of m p).eip = r.eip)
    (hcs : (Registers.of m p).cs = r.cs) (hflags : (Registers.of m p).eflags = r.eflags) :
    Words m (p + 44) [c.eip, c.cs.toUInt32, flags] := by
  intro i w hi
  rw [UInt32.add_assoc]
  match i, hi with
  | 0, hi => exact (heip.trans h.eip).trans (Option.some.inj hi)
  | 1, hi => exact (hcs.trans h.cs).trans (Option.some.inj hi)
  | 2, hi => exact (hflags.trans h.eflags).trans (Option.some.inj hi)

/-- A handler that stores to `regs->eax` writes only that. -/
theorem writesOnlyEax_store (s : SegState) (w : UInt32) :
    WritesOnlyEax s { s with state := (s.state.1, store s.state.2 (argument s + 32) w) } := by
  have hfield : ∀ i, i < 16 → i ≠ 8 →
      load (store s.state.2 (argument s + 32) w) (argument s + UInt32.ofNat (4 * i)) =
        load s.state.2 (argument s + UInt32.ofNat (4 * i)) := by
    intro i hi hne
    have haddr : argument s + UInt32.ofNat (4 * i) =
        argument s + 32 + UInt32.ofNat ((4 * i + (2 ^ 32 - 32)) % 2 ^ 32) := by
      refine UInt32.toNat_inj.mp ?_
      simp only [UInt32.toNat_add, UInt32.toNat_ofNat', UInt32.reduceToNat]
      omega
    rw [haddr]
    exact load_store_apart _ _ _ (by omega) (by omega)
  have heax : load (store s.state.2 (argument s + 32) w) (argument s + 32) = w :=
    load_store_same _ _ _
  refine ⟨rfl, w, (Registers.of s.state.2 (argument s)).useresp,
    (Registers.of s.state.2 (argument s)).ss, ?_⟩
  exact Registers.ext (hfield 0 (by decide) (by decide)) (hfield 1 (by decide) (by decide))
    (hfield 2 (by decide) (by decide)) (hfield 3 (by decide) (by decide))
    (hfield 4 (by decide) (by decide)) (hfield 5 (by decide) (by decide))
    (hfield 6 (by decide) (by decide)) (hfield 7 (by decide) (by decide)) heax
    (hfield 9 (by decide) (by decide)) (hfield 10 (by decide) (by decide))
    (hfield 11 (by decide) (by decide)) (hfield 12 (by decide) (by decide))
    (hfield 13 (by decide) (by decide)) (hfield 14 (by decide) (by decide))
    (hfield 15 (by decide) (by decide))

/-- A program at level 3. -/
def userState : SegState :=
  { state := (⟨fun _ => 5, 0x40000000, 0x1B, 0x23, 0x23, true⟩, fun _ => 0)
    es := 0x23
    fs := 0x23
    gs := 0x23 }

/-- **The interrupt frame fits its struct, and the way back restores it.**  For every processor and
every vector with a stub, on any stack, the handler finds what was interrupted in the struct; and if
it changes no field but `eax`, the `iret` finds the processor's frame and every register as it was,
but for `eax`, which is the field's. -/
theorem frame_restored (tss : Tss) (flags err : UInt32) {n : Nat} {code : List SegInstr}
    (hstub : stub n = some code) {s : SegState}
    (hseg : s.es = s.state.1.ds ∧ s.fs = s.state.1.ds ∧ s.gs = s.state.1.ds) :
    let now := atHandler tss flags err n code s
    (Registers.of now.state.2 (argument now)).Shows s.state.1 flags (frameError n err) n ∧
      ∀ after, WritesOnlyEax now after →
        Restored tss flags (Registers.of after.state.2 (argument now)).eax s
          (runSeg commonExit after) := by
  intro now
  obtain ⟨hsp, hframe, sp, rest, hwords⟩ := @atHandler_words tss flags err n code s hstub
  obtain ⟨hshows, hds⟩ := Registers.of_words hwords
  refine ⟨hshows, fun after hafter => ?_⟩
  obtain ⟨eax, useresp, ss, hstruct⟩ := hafter.struct
  obtain ⟨hmem, hesp, hgp, hsegs⟩ := commonExit_run (hafter.esp ▸ hsp)
  -- `pop eax` takes the word whose low half is `ds`
  have hload : (load after.state.2 (argument now)).toUInt16 = s.state.1.ds := by
    have hfield : (Registers.of after.state.2 (argument now)).ds =
        (Registers.of now.state.2 (argument now)).ds := by
      rw [hstruct]
      rfl
    have hword : load after.state.2 (argument now) =
        (Registers.of after.state.2 (argument now)).ds := by
      show _ = load _ (argument now + 0)
      rw [UInt32.add_zero]
    rw [hword, hfield, hds]
    exact toUInt16_setLow _ _
  rw [hload] at hsegs
  obtain ⟨hds', hes, hfs, hgs⟩ := hsegs
  have hpop : ∀ x, x ≠ .esp → (runSeg commonExit after).state.1.reg x =
      (Registers.of after.state.2 (argument now)).gp x :=
    fun x hx => (hgp x hx).trans (popaReg_eq _ _ hx)
  have hkept : ∀ x, x ≠ .eax → (Registers.of after.state.2 (argument now)).gp x =
      (Registers.of now.state.2 (argument now)).gp x := by
    intro x hx
    rw [hstruct]
    cases x with
    | eax => exact absurd rfl hx
    | _ => rfl
  refine ⟨hesp.trans hframe, ?_, hpop .eax (by decide), fun x hx hne => ?_, hds',
    hes.trans hseg.1.symm, hfs.trans hseg.2.1.symm, hgs.trans hseg.2.2.symm⟩
  · rw [hmem, ← hframe]
    exact hshows.frame (by rw [hstruct]; rfl) (by rw [hstruct]; rfl) (by rw [hstruct]; rfl)
  · rw [hpop x hx, hkept x hne]
    exact hshows.gp x hx

/-- A system call that returns 7. -/
theorem frame_restored_syscall :
    let now := atHandler ⟨0x10, 0x200000⟩ 0x202 0 128 (isrNoErrcode 128) userState
    Restored ⟨0x10, 0x200000⟩ 0x202 7 userState (runSeg commonExit
      { now with state := (now.state.1, store now.state.2 (argument now + 32) 7) }) := by
  intro now
  have hrestored := (frame_restored ⟨0x10, 0x200000⟩ 0x202 0
    (show stub 128 = some (isrNoErrcode 128) from rfl)
    (show userState.es = userState.state.1.ds ∧ _ from ⟨rfl, rfl, rfl⟩)).2 _
    (writesOnlyEax_store now 7)
  have heax : (Registers.of (store now.state.2 (argument now + 32) 7) (argument now)).eax = 7 :=
    load_store_same _ _ _
  rwa [heax] at hrestored

end FlowOS.Process
