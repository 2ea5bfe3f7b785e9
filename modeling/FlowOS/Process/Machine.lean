/-
# The processor under the scheduler

The scheduler's model stops where `schedule` calls `context_switch`.  Here the call is carried
out: the machine has registers and memory, `context_switch` and the interrupt stubs run as code
on them, and interrupts go through a gate, onto the stack of the task state segment when they
come from level 3.  An action is one thing that can happen while a process is current: its own
work, a call into the kernel that may switch, a trap, a timer tick.  `Enabled` says when it can,
`next` what it does.

Three history variables record what the properties are about and nothing depends on: how each
process that is not running left the processor, on which stack it is, and what every return from
`context_switch` found.
-/
import FlowOS.Lib.Trace
import FlowOS.Process.Run
import FlowOS.Process.Switch

namespace FlowOS.Process

open X86

variable {σ : Type}

/-! ## 1. The machine -/

/-- A stretch of memory used as a stack, `hi` excluded. -/
structure Region where
  lo : Nat
  hi : Nat
  deriving DecidableEq

/-- The address lies in the stretch. -/
def Region.Has (r : Region) (a : Nat) : Prop := r.lo ≤ a ∧ a < r.hi

/-- Two stretches without common addresses. -/
def Region.Apart (r r' : Region) : Prop := r.hi ≤ r'.lo ∨ r'.hi ≤ r.lo

instance (r : Region) (a : Nat) : Decidable (r.Has a) := inferInstanceAs (Decidable (_ ∧ _))

instance (r r' : Region) : Decidable (r.Apart r') := inferInstanceAs (Decidable (_ ∨ _))

/-- The two ways into `schedule`. -/
inductive Kind
  | voluntary | preemption
  deriving DecidableEq, Repr

/-- How a process came to its frame: `process_create` built it for an entry function, or the
process called `context_switch` with these registers, `eip` being the return address. -/
inductive Origin
  | created (entry : UInt32)
  | called (kind : Kind) (cpu : Cpu)

/-- What is kept of a process that is not running: where its frame begins, and memory when the
frame was complete. -/
structure Context where
  origin : Origin
  esp : Nat
  mem : Mem

/-- A return from `context_switch`: the process that continues, what it had left behind, and the
processor and memory it finds. -/
structure Resumption where
  process : Slot
  context : Option Context
  cpu : Cpu
  mem : Mem

/-- The processor, the scheduler with its memory, the other kernel services, and the history. -/
structure Machine (σ : Type) where
  k : σ
  sched : Sched
  cpu : Cpu
  tss : Tss
  context : Slot → Option Context
  stack : Slot → Region
  log : List Resumption

/-- `sizeof(kernel_interrupt_stack)`. -/
def interruptStackSize : Nat := 8192

/-- `kernel_interrupt_stack`, which the task state segment points to the end of. -/
def interruptRegion (tss : Tss) : Region := ⟨tss.esp0.toNat - interruptStackSize, tss.esp0.toNat⟩

/-- The stack for interrupts from level 3. -/
def Machine.interruptStack (m : Machine σ) : Region := interruptRegion m.tss

/-- The machine with other registers and memory. -/
def Machine.withState (m : Machine σ) (s : X86.State) : Machine σ :=
  { m with cpu := s.1, sched := { m.sched with mem := s.2 } }

@[simp] theorem withState_context (m : Machine σ) (s : X86.State) :
    (m.withState s).context = m.context := rfl

@[simp] theorem withState_log (m : Machine σ) (s : X86.State) : (m.withState s).log = m.log := rfl

@[simp] theorem withState_stack (m : Machine σ) (s : X86.State) :
    (m.withState s).stack = m.stack := rfl

/-- The process that is current. -/
def Machine.current (m : Machine σ) : Slot := m.sched.currentProcess.getD 0

/-- The registers and memory. -/
def Machine.state (m : Machine σ) : X86.State := (m.cpu, m.sched.mem)

/-! ## 2. What happens -/

/-- The calls by which a process gives up the processor. -/
inductive Call
  | yield
  | sleep (ms : Nat)
  | exit (code : Int)

/-- The call as an operation of the scheduler. -/
def Call.op : Call → Op
  | .yield => .yield
  | .sleep ms => .sleep ms
  | .exit code => .exit code

/-- What can happen while a process is current.  `work` is any code that neither switches nor
changes the interrupt flag or the privilege level; the handler of a `tick` is such code too, up to
the `context_switch` it may call. -/
inductive Act (σ : Type)
  | work (k : σ) (cpu : Cpu) (writes : List (Nat × UInt8))
  | flag (intr : Bool)
  | preemption (enabled : Bool)
  | create (name : List UInt8) (entry : UInt32)
  | call (c : Call)
  | enter (entry stack : UInt32)
  | trap (vector : UInt32)
  | tick (cpu : Cpu) (writes : List (Nat × UInt8))
  | iret

/-- `f` with another value at the slot `p`. -/
def setAt {α : Type} (f : Slot → α) (p : Slot) (x : α) : Slot → α :=
  fun q => if q = p then x else f q

@[simp] theorem setAt_self {α : Type} (f : Slot → α) (p : Slot) (x : α) : setAt f p x p = x :=
  if_pos rfl

theorem setAt_other {α : Type} (f : Slot → α) {p q : Slot} (x : α) (h : q ≠ p) :
    setAt f p x q = f q := if_neg h

/-- Bytes written one after the other. -/
def writeAll (m : Mem) (writes : List (Nat × UInt8)) : Mem :=
  writes.foldl (fun m w => m.st8 w.1 w.2) m

/-- The registers and memory at the call `context_switch(&prev->esp, next->esp)`, with its arguments
pushed. -/
def Machine.calling (env : ProcEnv σ) (m : Machine σ) (prev next : Slot) : X86.State :=
  let newEsp := load m.sched.mem (UInt32.ofNat (espAddr env next))
  push (UInt32.ofNat (espAddr env prev)) (push newEsp m.state)

/-- What the process that makes the call leaves behind: `context_switch` pushes five words and
stores the stack pointer. -/
def Machine.left (env : ProcEnv σ) (m : Machine σ) (kind : Kind) (prev next : Slot) : Context :=
  let s := m.calling env prev next
  ⟨.called kind s.1, (s.1.reg .esp - 20).toNat, (X86.call contextSwitch s).2⟩

/-- **The call of `context_switch`.** -/
def Machine.switch (env : ProcEnv σ) (m : Machine σ) (kind : Kind) (prev next : Slot) :
    Machine σ :=
  let r := X86.call contextSwitch (m.calling env prev next)
  { m.withState r with
    context :=
      setAt (setAt m.context prev (some (m.left env kind prev next))) next none
    log := m.log ++ [⟨next, m.context next, r.1, r.2⟩] }

theorem switch_context (env : ProcEnv σ) (m : Machine σ) (kind : Kind) (prev next p : Slot) :
    (m.switch env kind prev next).context p
      = if p = next then none else if p = prev then some (m.left env kind prev next)
        else m.context p := by
  simp only [Machine.switch, setAt]

theorem switch_sched (env : ProcEnv σ) (m : Machine σ) (kind : Kind) (prev next : Slot) :
    (m.switch env kind prev next).sched
      = { m.sched with mem := (X86.call contextSwitch (m.calling env prev next)).2 } := by
  simp only [Machine.switch, Machine.withState]

theorem switch_mem (env : ProcEnv σ) (m : Machine σ) (kind : Kind) (prev next : Slot) :
    (m.switch env kind prev next).sched.mem
      = (X86.call contextSwitch (m.calling env prev next)).2 := by
  rw [switch_sched]

theorem switch_tss (env : ProcEnv σ) (m : Machine σ) (kind : Kind) (prev next : Slot) :
    (m.switch env kind prev next).tss = m.tss := by
  simp only [Machine.switch, Machine.withState]

theorem switch_log (env : ProcEnv σ) (m : Machine σ) (kind : Kind) (prev next : Slot) :
    (m.switch env kind prev next).log = m.log ++ [⟨next, m.context next,
      (X86.call contextSwitch (m.calling env prev next)).1,
      (X86.call contextSwitch (m.calling env prev next)).2⟩] := by
  simp only [Machine.switch]

theorem switch_stack (env : ProcEnv σ) (m : Machine σ) (kind : Kind) (prev next : Slot) :
    (m.switch env kind prev next).stack = m.stack := by
  simp only [Machine.switch, withState_stack]

/-- The end of an operation: the switch it makes, if it makes one. -/
def Machine.finish (env : ProcEnv σ) (m : Machine σ) (kind : Kind) : Switch → Machine σ
  | none => m
  | some (prev, next) => m.switch env kind prev next

/-- The interrupt gate and the stub, up to the C handler, for the current process `c`.  An
interrupt from level 3 puts the process on the interrupt stack. -/
def Machine.interrupted (m : Machine σ) (c : Slot) (vector : UInt32) : Machine σ :=
  { m.withState (X86.run (stubEntry vector) (interrupt m.tss 0x08 m.state)) with
    stack := if m.cpu.user then setAt m.stack c m.interruptStack else m.stack }

/-- A process created: its frame is the one `process_create` built, at the top of its stack. -/
def Machine.created (m : Machine σ) (entry : UInt32) : Option Slot → Machine σ
  | none => m
  | some p =>
    let top := (m.sched.processTable p).kernelStack
    { m with
      context := setAt m.context p (some ⟨.created entry, top - 28, m.sched.mem⟩)
      stack := setAt m.stack p ⟨top - kernelStackSize, top⟩ }

/-- The machine in which `timer_callback` runs: interrupted, with the handler's own use of
registers and stack. -/
def Machine.handling (m : Machine σ) (cpu : Cpu) (writes : List (Nat × UInt8)) : Machine σ :=
  let m := m.interrupted m.current 32
  m.withState (cpu, writeAll m.sched.mem writes)

/-- **What an action does.** -/
def Machine.next (env : ProcEnv σ) (m : Machine σ) : Act σ → Machine σ
  | .work k cpu writes => { m.withState (cpu, writeAll m.sched.mem writes) with k := k }
  | .flag intr => { m with cpu := { m.cpu with intr := intr } }
  | .preemption enabled =>
    { m with
      sched := if enabled then timerEnablePreemption m.sched else timerDisablePreemption m.sched }
  | .create name entry =>
    let r := processCreate env m.k m.sched name entry.toNat
    Machine.created { m with k := r.2.1, sched := r.2.2 } entry r.1
  | .call c =>
    let r := perform env m.k m.sched c.op
    Machine.finish env { m with k := r.1, sched := r.2.1 } .voluntary r.2.2
  | .enter entry stack =>
    m.withState (X86.call enterUsermode (push entry (push stack m.state)))
  | .trap vector => m.interrupted m.current vector
  | .tick cpu writes =>
    let m₁ := m.handling cpu writes
    let r := timerCallback m₁.sched
    match r.2 with
    | some (prev, next) => Machine.switch env { m₁ with sched := r.1 } .preemption prev next
    | none =>
      -- the handler returns to the stub, whose stack pointer is the one it was called with
      let cpu := (m.interrupted m.current 32).cpu
      { m₁ with sched := r.1, cpu := (X86.run stubExit (cpu, r.1.mem)).1 }
  | .iret => m.withState (X86.run stubExit m.state)

/-- **When an action can happen.**  Kernel code runs at level 0, and the timer interrupts only
where the interrupt flag is set. -/
def Machine.Enabled (m : Machine σ) : Act σ → Prop
  | .work _ cpu _ => cpu.intr = m.cpu.intr ∧ cpu.cs = m.cpu.cs
  | .trap _ => True
  | .tick cpu _ => m.cpu.intr = true ∧ cpu.intr = false ∧ cpu.cs = 0x08
  | _ => m.cpu.user = false

instance (m : Machine σ) : (a : Act σ) → Decidable (m.Enabled a)
  | .work _ _ _ => inferInstanceAs (Decidable (_ ∧ _))
  | .trap _ => .isTrue trivial
  | .tick _ _ => inferInstanceAs (Decidable (_ ∧ _ ∧ _))
  | .flag _ | .preemption _ | .create _ _ | .call _ | .enter _ _ | .iret =>
    inferInstanceAs (Decidable (_ = _))

/-- The machine when `kmain` has initialised the processes: the boot code is the process in slot
0, on the boot stack. -/
def bootMachine (env : ProcEnv σ) (k : σ) (kernelPd : Nat) (mem : Mem) (cpu : Cpu)
    (interruptStackTop : UInt32) (bootStack : Region) : Machine σ :=
  let r := bootProcesses env k kernelPd mem
  { k := r.1
    sched := r.2
    cpu := cpu
    tss := ⟨0x10, interruptStackTop⟩
    context := fun _ => none
    stack := fun _ => bootStack
    log := [] }

/-- Services that hand out one stack after the other. -/
def bumpEnv : ProcEnv Nat where
  kmalloc := fun n k => (k, k + n + 16)
  kfree := fun _ k => k
  pagingClonePd := fun k => (0x400000, k)
  idleProcess := 0x100100
  processWrapper := 0x100200
  processTable := 0x110000

/-- Kernel registers, with a stack pointer. -/
def kernelCpu (esp : UInt32) (intr : Bool) : Cpu where
  reg
    | .esp => esp
    | _ => 0
  eip := 0x100500
  cs := 0x08
  ss := 0x10
  ds := 0x10
  intr := intr

/-- A machine that has booted, with interrupts still disabled. -/
def smallMachine : Machine Nat :=
  bootMachine bumpEnv 0xC0000010 0x200000 (fun _ => 0) (kernelCpu 0x108000 false) 0x10E000
    ⟨0x104000, 0x108000⟩

/-! ## 3. Every process that is not running has left a context -/

/-- The scheduler is in order, and every process that could be switched to has left a context. -/
structure Accounted (m : Machine σ) : Prop where
  sched : ∃ q, Inv m.sched m.current q
  context : ∀ p, p ≠ m.current → m.sched.Live p → ∃ x, m.context p = some x

variable {env : ProcEnv σ} {m m' : Machine σ}

theorem Accounted.current (h : Accounted m) : m.sched.currentProcess = some m.current := by
  obtain ⟨q, hq⟩ := h.sched
  exact hq.current

/-- Registers, memory, stacks and the other services may change. -/
theorem Accounted.congr (h : Accounted m) (hsched : ∃ mem, m'.sched = { m.sched with mem := mem })
    (hctx : m'.context = m.context) : Accounted m' := by
  obtain ⟨mem, hsched⟩ := hsched
  have hcur : m'.current = m.current := by rw [Machine.current, hsched]; rfl
  obtain ⟨q, hq⟩ := h.sched
  refine ⟨⟨q, ?_⟩, fun p hp hl => ?_⟩
  · rw [hcur, hsched]
    exact hq.congr rfl rfl rfl rfl
  · rw [hcur] at hp
    rw [hsched] at hl
    rw [hctx]
    exact h.context p hp hl

theorem Accounted.withState (h : Accounted m) (s : X86.State) : Accounted (m.withState s) :=
  h.congr ⟨s.2, rfl⟩ rfl

theorem Accounted.interrupted (h : Accounted m) (c : Slot) (vector : UInt32) :
    Accounted (m.interrupted c vector) := by
  have h' := h.withState (X86.run (stubEntry vector) (interrupt m.tss 0x08 m.state))
  exact ⟨h'.sched, h'.context⟩

/-- A process that is live after an operation was live before it. -/
theorem Performed.live_before {s : Sched} {c p : Slot} {exits : Bool} {r : Sched × Switch}
    (h : Performed s c none exits r) (hl : r.1.Live p) : s.Live p :=
  h.live_of_ne (by simp) hl

/-- A call of the process that runs creates no process. -/
theorem Accounted.performed_call (env : ProcEnv σ) (h : Accounted m) (c : Call) :
    Performed m.sched m.current none c.op.exits (perform env m.k m.sched c.op).2 := by
  obtain ⟨q, hq⟩ := h.sched
  have hr := perform_performed env m.k hq c.op
  have hnew : newProcess env m.k m.sched c.op = none := by cases c <;> rfl
  rwa [hnew] at hr

/-- An operation that creates no process, with its switch. -/
theorem Accounted.finish (env : ProcEnv σ) (h : Accounted m) {exits : Bool} {r : Sched × Switch}
    {k : σ} (kind : Kind) (hr : Performed m.sched m.current none exits r) :
    Accounted (Machine.finish env { m with k := k, sched := r.1 } kind r.2) := by
  obtain ⟨next, q, hq, hsw⟩ := hr.inv
  have hlive := fun p => @Performed.live_before m.sched m.current p exits r hr
  rw [hsw]
  by_cases hn : next = m.current
  · rw [if_pos hn]
    have hcur : (Machine.finish env { m with k := k, sched := r.1 } kind none).current = next := by
      simp only [Machine.finish, Machine.current, hq.current, Option.getD_some]
    refine ⟨⟨q, ?_⟩, fun p hp hl => ?_⟩
    · rw [hcur]
      exact hq
    · rw [hcur, hn] at hp
      exact h.context p hp (hlive p hl)
  · rw [if_neg hn]
    have hcur : (Machine.finish env { m with k := k, sched := r.1 } kind
        (some (m.current, next))).current = next := by
      simp only [Machine.finish, Machine.switch, Machine.withState, Machine.current, hq.current,
        Option.getD_some]
    refine ⟨⟨q, ?_⟩, fun p hp hl => ?_⟩
    · rw [hcur]
      exact hq.congr rfl rfl rfl rfl
    · rw [hcur] at hp
      rw [Machine.finish, switch_context, if_neg hp]
      split
      · exact ⟨_, rfl⟩
      · rename_i hpc
        exact h.context p hpc (hlive p hl)

theorem Accounted.created (h : Accounted m) (name : List UInt8) (entry : UInt32) :
    Accounted (m.next env (.create name entry)) := by
  obtain ⟨q, hq⟩ := h.sched
  have hr := processCreate_performed env m.k hq name entry.toNat
  obtain ⟨q', hq'⟩ := hr.inv_stay
  rw [Machine.next]
  generalize processCreate env m.k m.sched name entry.toNat = r at hr hq'
  have hcur : (Machine.created { m with k := r.2.1, sched := r.2.2 } entry r.1).sched = r.2.2 := by
    cases r.1 <;> rfl
  have hcur' : (Machine.created { m with k := r.2.1, sched := r.2.2 } entry r.1).current
      = m.current := by
    rw [Machine.current, hcur, hq'.current]
    rfl
  refine ⟨⟨q', ?_⟩, fun p hp hl => ?_⟩
  · rw [hcur, hcur']
    exact hq'
  · rw [hcur'] at hp
    rw [hcur] at hl
    by_cases hnew : r.1 = some p
    · rw [hnew]
      exact ⟨_, setAt_self _ _ _⟩
    · -- a process that was there before the creation
      obtain ⟨x, hx⟩ := h.context p hp (hr.live_of_ne hnew hl)
      refine ⟨x, ?_⟩
      cases hr1 : r.1 with
      | none => exact hx
      | some p' =>
        have hpp : p ≠ p' := fun hpp => hnew (by rw [hr1, hpp])
        rw [← hx]
        exact setAt_other _ _ hpp

/-- **Step lemma.** -/
theorem Accounted.next (h : Accounted m) (a : Act σ) : Accounted (m.next env a) := by
  cases a with
  | work k cpu writes =>
    have h' := h.withState (cpu, writeAll m.sched.mem writes)
    exact ⟨h'.sched, h'.context⟩
  | flag intr => exact ⟨h.sched, h.context⟩
  | preemption enabled =>
    obtain ⟨q, hq⟩ := h.sched
    rw [Machine.next]
    cases enabled with
    | false => exact ⟨⟨q, hq.congr rfl rfl rfl rfl⟩, h.context⟩
    | true => exact ⟨⟨q, hq.congr rfl rfl rfl rfl⟩, h.context⟩
  | create name entry => exact h.created name entry
  | call c => exact h.finish env .voluntary (h.performed_call env c)
  | enter entry stack => exact h.withState _
  | trap vector => exact h.interrupted _ _
  | tick cpu writes =>
    have h' : Accounted (m.handling cpu writes) := (h.interrupted m.current 32).withState _
    obtain ⟨q, hq⟩ := h'.sched
    have hfin := h'.finish env (k := (m.handling cpu writes).k) .preemption
      (timerCallback_performed hq)
    rw [Machine.next]
    dsimp only
    split
    · rename_i prev next hsw
      rw [hsw] at hfin
      exact hfin
    · rename_i hsw
      rw [hsw] at hfin
      exact ⟨hfin.sched, hfin.context⟩
  | iret => exact h.withState _

end FlowOS.Process
