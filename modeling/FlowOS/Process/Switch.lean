/-
# The switching code (`switch.asm`, `isr.asm`)

`context_switch`, `enter_usermode` and the interrupt stubs as instruction lists, and what they do
to the registers and the stack.  `contextSwitch_saves` and `contextSwitch_restores` are the two
halves of a switch: the caller's frame and stack pointer are in memory afterwards, and the
registers are those of the frame it switches to.  No part of it touches the interrupt flag
(`contextSwitch_intr`).
-/
import FlowOS.Lib.X86

namespace FlowOS.Process

open X86

/-! ## 1. The code -/

/-- `context_switch`. -/
def contextSwitch : List Instr :=
  [.push .ebx, .push .esi, .push .edi, .push .ebp,
    .load .eax .esp 20, .store .eax .esp,  -- *old_esp = esp
    .load .esp .esp 24,                    -- esp = new_esp
    .pop .ebp, .pop .edi, .pop .esi, .pop .ebx, .ret]

/-- `enter_usermode`. -/
def enterUsermode : List Instr :=
  [.cli, .movAx 0x23, .movDsAx, .load .eax .esp 8, .pushImm 0x23, .push .eax,
    .pushf, .pop .eax, .or .eax 0x200, .push .eax, .pushImm 0x1B, .load .eax .esp 20, .push .eax,
    .iret]

/-- The stub of a vector without error code and the common stub, up to the call of the C handler. -/
def stubEntry (vector : UInt32) : List Instr :=
  [.pushImm 0, .pushImm vector, .pusha, .movAxDs, .push .eax, .movAx 0x10, .movDsAx, .push .esp]

/-- The common stub after the C handler has returned. -/
def stubExit : List Instr := [.add .esp 4, .pop .eax, .movDsAx, .popa, .add .esp 8, .iret]

/-! ## 2. `context_switch` -/

/-- The words `context_switch` saves for its caller, the return address first. -/
def savedWords (c : Cpu) : List UInt32 :=
  [c.eip, c.reg .ebx, c.reg .esi, c.reg .edi, c.reg .ebp]

/-- Memory when the caller's stack pointer has been stored through `old`. -/
def savedMem (s : X86.State) (old : UInt32) : Mem :=
  store (pushAll (savedWords s.1) s).2 old ((pushAll (savedWords s.1) s).1.reg .esp)

/-- The registers after the pops and the return: the callee-saved ones, the stack pointer and the
return address are the new process's, `eax` holds `old_esp`, and the rest is unchanged. -/
def resumedCpu (c : Cpu) (ebp edi esi ebx eip esp old : UInt32) : Cpu :=
  { c with
    eip := eip
    reg := fun
      | .ebp => ebp
      | .edi => edi
      | .esi => esi
      | .ebx => ebx
      | .esp => esp
      | .eax => old
      | .ecx => c.reg .ecx
      | .edx => c.reg .edx }

variable {s : X86.State} {old new ebp edi esi ebx eip : UInt32} {rest : List UInt32}

/-- The pushes of `context_switch`, with the return address below them. -/
theorem switch_pushes (s : X86.State) :
    run [.push .ebx, .push .esi, .push .edi, .push .ebp] (push s.1.eip s)
      = pushAll (savedWords s.1) s := by
  simp [run, exec, pushAll, savedWords]

/-- The pops of `context_switch` and its return. -/
theorem run_pops {c : Cpu} {m : Mem}
    (h : Stack m (c.reg .esp) (ebp :: edi :: esi :: ebx :: eip :: rest)) :
    run [.pop .ebp, .pop .edi, .pop .esi, .pop .ebx, .ret] (c, m)
      = (resumedCpu c ebp edi esi ebx eip (c.reg .esp + 4 + 4 + 4 + 4 + 4) (c.reg .eax), m) := by
  obtain ⟨h1, h⟩ := h.exec_pop (r := .ebp) (by decide)
  obtain ⟨h2, h⟩ := h.exec_pop (r := .edi) (by decide)
  obtain ⟨h3, h⟩ := h.exec_pop (r := .esi) (by decide)
  obtain ⟨h4, h⟩ := h.exec_pop (r := .ebx) (by decide)
  obtain ⟨h5, -⟩ := h.pop
  rw [run, List.foldl_cons, h1, List.foldl_cons, h2, List.foldl_cons, h3, List.foldl_cons, h4,
    List.foldl_cons, List.foldl_nil, exec, h5]
  refine Prod.ext (Cpu.ext (funext fun r => ?_) rfl rfl rfl rfl rfl) rfl
  cases r <;> simp [resumedCpu]

/-- With the arguments `old` and `new` where the code looks for them, and the frame at `new` still
there when the caller's has been saved, the registers are the frame's. -/
theorem contextSwitch_eq (hold : load (pushAll (savedWords s.1) s).2
      ((pushAll (savedWords s.1) s).1.reg .esp + 20) = old)
    (hnew : load (savedMem s old) ((pushAll (savedWords s.1) s).1.reg .esp + 24) = new)
    (hframe : Stack (savedMem s old) new [ebp, edi, esi, ebx, eip]) :
    call contextSwitch s = (resumedCpu s.1 ebp edi esi ebx eip (new + 4 + 4 + 4 + 4 + 4) old,
      savedMem s old) := by
  have hcode : contextSwitch = [.push .ebx, .push .esi, .push .edi, .push .ebp] ++
      ([.load .eax .esp 20, .store .eax .esp, .load .esp .esp 24] ++
        [.pop .ebp, .pop .edi, .pop .esi, .pop .ebx, .ret]) := rfl
  obtain ⟨sp, hfst⟩ : ∃ sp, (pushAll (savedWords s.1) s).1 = s.1.set .esp sp :=
    ⟨_, pushAll_fst (savedWords s.1) s⟩
  rw [call, hcode, run_append, run_append, switch_pushes]
  generalize hp : pushAll (savedWords s.1) s = p at *
  have hmid : run [.load .eax .esp 20, .store .eax .esp, .load .esp .esp 24] p
      = ((p.1.set .eax old).set .esp new, savedMem s old) := by
    have hmem : savedMem s old = store p.2 old (p.1.reg .esp) := by rw [savedMem, hp]
    rw [hmem] at hnew ⊢
    simp [run, exec, hold, hnew]
  have hesp : ((p.1.set .eax old).set .esp new).reg .esp = new := Cpu.set_reg_self _ _ _
  rw [hmid, run_pops (by rw [hesp]; exact hframe), hesp]
  refine Prod.ext (Cpu.ext (funext fun r => ?_) rfl ?_ ?_ ?_ ?_) rfl
  · cases r <;> simp [resumedCpu, hfst]
  all_goals simp [resumedCpu, hfst, Cpu.set]

/-- **The saving half.**  The caller's frame lies below its arguments, `old` points to it, and
nothing else has changed. -/
theorem savedMem_spec (hroom : 20 ≤ (s.1.reg .esp).toNat)
    (hold : old.toNat + 4 ≤ (s.1.reg .esp).toNat - 20 ∨ (s.1.reg .esp).toNat ≤ old.toNat) :
    Stack (savedMem s old) ((pushAll (savedWords s.1) s).1.reg .esp) (savedWords s.1).reverse ∧
      (savedMem s old).ld32 old.toNat = (s.1.reg .esp).toNat - 20 ∧
      ∀ x, (x < (s.1.reg .esp).toNat - 20 ∨ (s.1.reg .esp).toNat ≤ x) →
        (x < old.toNat ∨ old.toNat + 4 ≤ x) → savedMem s old x = s.2 x := by
  have hlen : 4 * (savedWords s.1).length ≤ (s.1.reg .esp).toNat := hroom
  have hesp : ((pushAll (savedWords s.1) s).1.reg .esp).toNat = (s.1.reg .esp).toNat - 20 :=
    pushAll_esp hlen
  refine ⟨?_, ?_, fun x h1 h2 => ?_⟩
  · have hstack := (Stack.nil s.2 (s.1.reg .esp)).pushAll hlen
    rw [List.append_nil] at hstack
    refine hstack.congr fun x h1 h2 => Mem.st32_outside _ ?_
    have hlt : x < (s.1.reg .esp).toNat - 20 + 20 := by rw [← hesp]; exact h2
    omega
  · rw [← hesp]
    exact Mem.ld32_st32_same (UInt32.toNat_lt _)
  · rw [savedMem, store, Mem.st32_outside _ h2]
    exact pushAll_outside hlen h1

/-- **A switch.**  With `old` and `new` on the caller's stack and a frame at `new` that is apart
from what the switch writes, the registers afterwards are the frame's. -/
theorem contextSwitch_spec (hroom : 20 ≤ (s.1.reg .esp).toNat)
    (hargs : Stack s.2 (s.1.reg .esp) [old, new])
    (hframe : Stack s.2 new [ebp, edi, esi, ebx, eip])
    (hold : old.toNat + 4 ≤ (s.1.reg .esp).toNat - 20 ∨ (s.1.reg .esp).toNat + 8 ≤ old.toNat)
    (hnew : new.toNat + 20 ≤ (s.1.reg .esp).toNat - 20 ∨ (s.1.reg .esp).toNat ≤ new.toNat)
    (hcell : old.toNat + 4 ≤ new.toNat ∨ new.toNat + 20 ≤ old.toNat) :
    call contextSwitch s = (resumedCpu s.1 ebp edi esi ebx eip (new + 4 + 4 + 4 + 4 + 4) old,
      savedMem s old) := by
  have hlen : 4 * (savedWords s.1).length ≤ (s.1.reg .esp).toNat := hroom
  have hstack := hargs.pushAll hlen
  have hesp : ((pushAll (savedWords s.1) s).1.reg .esp).toNat = (s.1.reg .esp).toNat - 20 :=
    pushAll_esp hlen
  obtain ⟨-, -, hout⟩ := @savedMem_spec s old hroom (by omega)
  have hold' := hstack.get (i := 5) (w := old) rfl
  refine contextSwitch_eq hold' ?_ (hframe.congr fun x h1 h2 => hout x ?_ ?_)
  · -- the store through `old` leaves the second argument alone
    have hsaved : Stack (savedMem s old) ((pushAll (savedWords s.1) s).1.reg .esp)
        ((savedWords s.1).reverse ++ [old, new]) := by
      refine hstack.congr fun x h1 h2 => Mem.st32_outside _ ?_
      have hlt : x < (s.1.reg .esp).toNat - 20 + 28 := by rw [← hesp]; exact h2
      omega
    exact hsaved.get (i := 6) (w := new) rfl
  · have : x < new.toNat + 20 := h2
    omega
  · have : x < new.toNat + 20 := h2
    omega

/-! ## 3. Stubs and the way to level 3 -/

/-- The stub pushes twelve words. -/
theorem stubEntry_pushes (vector : UInt32) (s : X86.State) :
    Pushes 12 s (run (stubEntry vector) s) := run_pushes rfl s

/-- The way through an interrupt gate at level 0 pushes fifteen words in all. -/
theorem interrupt_kernel_pushes {s : X86.State} (tss : Tss) (hu : s.1.user = false)
    (vector : UInt32) :
    Pushes 15 s (run (stubEntry vector) (interrupt tss 0x08 s)) := by
  have h := (interrupt_pushes tss 0x08 s).trans (stubEntry_pushes vector _)
  simpa [interruptFrame, interruptCpu, hu] using h

/-- From level 3 it pushes seventeen, onto the stack of the task state segment. -/
theorem interrupt_user_pushes {s : X86.State} (tss : Tss) (hu : s.1.user = true) (vector : UInt32) :
    Pushes 17 (interruptCpu tss s.1, s.2) (run (stubEntry vector) (interrupt tss 0x08 s)) := by
  have h := (interrupt_pushes tss 0x08 s).trans (stubEntry_pushes vector _)
  simpa [interruptFrame, hu] using h

/-- The return from an interrupt only reads memory. -/
theorem iret_mem (s : X86.State) : (iret s).2 = s.2 := by
  unfold iret
  dsimp only
  split <;> rfl

theorem run_iret_mem (s : X86.State) : (run [.iret] s).2 = s.2 := iret_mem s

theorem stubExit_mem (s : X86.State) : (run stubExit s).2 = s.2 := iret_mem _

/-- `enter_usermode`, called with its two arguments, writes the eight words below the stack
pointer: the arguments, the return address and the frame of its `iret`. -/
theorem enterUsermode_mem {s : X86.State} (entry stack : UInt32)
    (hroom : 32 ≤ (s.1.reg .esp).toNat) {x : Nat}
    (hx : x < (s.1.reg .esp).toNat - 32 ∨ (s.1.reg .esp).toNat ≤ x) :
    (call enterUsermode (push entry (push stack s))).2 x = s.2 x := by
  -- the code up to `pushf`, the `pop` that takes the flags back, and the rest up to `iret`
  let front : List Instr :=
    [.cli, .movAx 0x23, .movDsAx, .load .eax .esp 8, .pushImm 0x23, .push .eax, .pushf]
  let back : List Instr :=
    [.or .eax 0x200, .push .eax, .pushImm 0x1B, .load .eax .esp 20, .push .eax]
  let flags : List Instr := [.pop .eax]
  have hcode : enterUsermode = front ++ (flags ++ (back ++ [.iret])) := rfl
  rw [call, hcode, run_append, run_append, run_append]
  have h1 := (((pushes_push stack s).trans (pushes_push entry _)).trans
    (pushes_push (push entry (push stack s)).1.eip _)).trans
    (run_pushes (show pushed front = some 3 from rfl) _)
  generalize run front (push (push entry (push stack s)).1.eip (push entry (push stack s))) = s₁
    at h1 ⊢
  obtain ⟨hesp, hmem⟩ := h1 (by omega)
  have hpop : ((run [.pop .eax] s₁).1.reg .esp).toNat = (s.1.reg .esp).toNat - 20 := by
    have h : (run [.pop .eax] s₁).1.reg .esp = s₁.1.reg .esp + 4 := by simp [run, exec]
    have hlt := (s.1.reg .esp).toNat_lt
    rw [h, UInt32.toNat_add, hesp]
    simp only [UInt32.reduceToNat]
    omega
  have hpopmem : (run [.pop .eax] s₁).2 = s₁.2 := rfl
  have h2 := run_pushes (show pushed back = some 3 from rfl) (run [.pop .eax] s₁)
  obtain ⟨-, hmem'⟩ := h2 (by omega)
  rw [run_iret_mem, hmem' x (by omega), hpopmem, hmem x (by omega)]

/-- `context_switch` neither saves nor changes the interrupt flag. -/
theorem contextSwitch_intr (s : X86.State) : (call contextSwitch s).1.intr = s.1.intr := rfl

end FlowOS.Process
