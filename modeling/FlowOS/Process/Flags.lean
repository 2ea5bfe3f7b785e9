/-
# The interrupt flag across switches

`context_switch` carries the callee-saved registers and nothing else, so the process that
continues finds the interrupt flag of the process that called.  A voluntary call is made with the
flag set, a preemption inside the interrupt gate, with the flag clear.  Hence a process finds the
flag it left with exactly when the switch that resumes it is of the kind that took it off the
processor, and a new process starts with interrupts enabled exactly when a voluntary switch starts
it: `flags_ok_iff`, for every run.
-/
import FlowOS.Process.Machine

namespace FlowOS.Process

open X86 Trace

variable {σ : Type}

/-! ## 1. The property and the condition -/

/-- The process that continues finds the interrupt flag it called `context_switch` with; a new
process finds it set. -/
def Resumption.FlagOk (e : Resumption) : Prop :=
  match e.context with
  | some ⟨.called _ cpu, _, _⟩ => e.cpu.intr = cpu.intr
  | some ⟨.created _, _, _⟩ => e.cpu.intr = true
  | none => False

/-- Every return from `context_switch` so far found the right flag. -/
def FlagsOk (m : Machine σ) : Prop := ∀ e ∈ m.log, e.FlagOk

/-- The process was left by a switch of this kind, or is new and the kind is voluntary. -/
def Meets (kind : Kind) : Option Context → Prop
  | some ⟨.called kind' _, _, _⟩ => kind' = kind
  | some ⟨.created _, _, _⟩ => kind = .voluntary
  | none => False

/-- The process that a switch resumes was left by a switch of the same kind. -/
def MeetsNext (m : Machine σ) (kind : Kind) : Switch → Prop
  | some (_, next) => Meets kind (m.context next)
  | none => True

/-- **The kinds pair up**: the process `schedule` picks in this action was left by the same kind of
call, or is a new one and the call is voluntary. -/
def Paired (env : ProcEnv σ) (m : Machine σ) : Act σ → Prop
  | .call c => MeetsNext m .voluntary (perform env m.k m.sched c.op).2.2
  | .tick cpu writes => MeetsNext m .preemption (timerCallback (m.handling cpu writes).sched).2
  | _ => True

/-- Processes give up the processor with interrupts enabled. -/
def CallsEnabled (m : Machine σ) : Act σ → Prop
  | .call _ => m.cpu.intr = true
  | _ => True

instance : (e : Resumption) → Decidable e.FlagOk
  | ⟨_, some ⟨.called _ cpu, _, _⟩, cpu', _⟩ => inferInstanceAs (Decidable (cpu'.intr = cpu.intr))
  | ⟨_, some ⟨.created _, _, _⟩, cpu', _⟩ => inferInstanceAs (Decidable (cpu'.intr = true))
  | ⟨_, none, _, _⟩ => .isFalse id

instance (m : Machine σ) : Decidable (FlagsOk m) :=
  inferInstanceAs (Decidable (∀ e ∈ m.log, e.FlagOk))

instance (kind : Kind) : (x : Option Context) → Decidable (Meets kind x)
  | some ⟨.called kind' _, _, _⟩ => inferInstanceAs (Decidable (kind' = kind))
  | some ⟨.created _, _, _⟩ => inferInstanceAs (Decidable (kind = .voluntary))
  | none => .isFalse id

instance (m : Machine σ) (kind : Kind) : (sw : Switch) → Decidable (MeetsNext m kind sw)
  | some (_, next) => inferInstanceAs (Decidable (Meets kind (m.context next)))
  | none => .isTrue trivial

instance (env : ProcEnv σ) (m : Machine σ) : (a : Act σ) → Decidable (Paired env m a)
  | .call _ => inferInstanceAs (Decidable (MeetsNext m _ _))
  | .tick _ _ => inferInstanceAs (Decidable (MeetsNext m _ _))
  | .work _ _ _ | .flag _ | .preemption _ | .create _ _ | .enter _ _ | .trap _ | .iret =>
    .isTrue trivial

instance (m : Machine σ) : (a : Act σ) → Decidable (CallsEnabled m a)
  | .call _ => inferInstanceAs (Decidable (_ = _))
  | .work _ _ _ | .flag _ | .preemption _ | .create _ _ | .enter _ _ | .trap _ | .tick _ _
  | .iret =>
    .isTrue trivial

/-! ## 2. One action -/

/-- The flag with which a process leaves the processor shows the kind of its call. -/
def Kinds (m : Machine σ) : Prop :=
  ∀ p kind cpu esp mem, m.context p = some ⟨.called kind cpu, esp, mem⟩ →
    cpu.intr = decide (kind = .voluntary)

variable {env : ProcEnv σ} {m : Machine σ}

/-- The flag found is the flag left with exactly when the kinds are the same. -/
theorem flagOk_iff_meets {e : Resumption} {kind : Kind}
    (hk : ∀ kind' cpu esp mem, e.context = some ⟨.called kind' cpu, esp, mem⟩ →
      cpu.intr = decide (kind' = .voluntary))
    (hf : e.cpu.intr = decide (kind = .voluntary)) : e.FlagOk ↔ Meets kind e.context := by
  obtain ⟨p, x, cpu, mem⟩ := e
  rcases x with _ | ⟨entry | ⟨kind', cpu'⟩, esp, mem'⟩
  · exact Iff.rfl
  · change cpu.intr = true ↔ kind = .voluntary
    rw [hf, decide_eq_true_iff]
  · have hk' := hk kind' cpu' esp mem' rfl
    change cpu.intr = cpu'.intr ↔ kind' = kind
    rw [hf, hk']
    cases kind <;> cases kind' <;> decide

theorem calling_intr (m : Machine σ) (prev next : Slot) :
    (m.calling env prev next).1.intr = m.cpu.intr := rfl

/-- What a switch does, made with the flag its kind has. -/
theorem switch_flags (hk : Kinds m) {kind : Kind} (prev next : Slot)
    (hf : m.cpu.intr = decide (kind = .voluntary)) :
    Kinds (m.switch env kind prev next) ∧
      (FlagsOk (m.switch env kind prev next) ↔ FlagsOk m ∧ Meets kind (m.context next)) := by
  refine ⟨fun p kind' cpu esp mem hp => ?_, ?_⟩
  · rw [switch_context] at hp
    split at hp
    · cases hp
    · split at hp
      · -- the process that has just called
        rw [Option.some.injEq, Machine.left, Context.mk.injEq, Origin.called.injEq] at hp
        rw [← hp.1.1, ← hp.1.2, calling_intr]
        exact hf
      · exact hk p kind' cpu esp mem hp
  · have hintr := contextSwitch_intr (m.calling env prev next)
    rw [calling_intr, hf] at hintr
    have hlast := flagOk_iff_meets (e := ⟨next, m.context next,
      (X86.call contextSwitch (m.calling env prev next)).1,
      (X86.call contextSwitch (m.calling env prev next)).2⟩) (hk next) hintr
    rw [← hlast]
    simp only [FlagsOk, Machine.switch, List.mem_append, List.mem_singleton, or_imp, forall_and,
      forall_eq]

/-- The same for an operation, whether it switches or not. -/
theorem finish_flags (hk : Kinds m) (kind : Kind) (sw : Switch)
    (hf : m.cpu.intr = decide (kind = .voluntary)) :
    Kinds (m.finish env kind sw) ∧
      (FlagsOk (m.finish env kind sw) ↔ FlagsOk m ∧ MeetsNext m kind sw) := by
  cases sw with
  | none => exact ⟨hk, (and_iff_left trivial).symm⟩
  | some sw => exact switch_flags hk sw.1 sw.2 hf

/-- An action without a switch. -/
theorem quiet_flags {m' : Machine σ} (hk : Kinds m) (hctx : m'.context = m.context)
    (hlog : m'.log = m.log) : Kinds m' ∧ (FlagsOk m' ↔ FlagsOk m ∧ True) := by
  refine ⟨?_, ?_⟩
  · rw [Kinds, hctx]
    exact hk
  · rw [and_true, FlagsOk, hlog]
    rfl

theorem create_flags (hk : Kinds m) (name : List UInt8) (entry : UInt32) :
    Kinds (m.next env (.create name entry)) ∧
      (FlagsOk (m.next env (.create name entry)) ↔ FlagsOk m ∧ True) := by
  rw [Machine.next]
  generalize processCreate env m.k m.sched name entry.toNat = r
  cases r.1 with
  | none => exact quiet_flags hk rfl rfl
  | some p =>
    refine ⟨fun p' kind cpu esp mem hp => ?_, (and_iff_left trivial).symm⟩
    simp only [Machine.created, setAt] at hp
    split at hp
    · cases hp
    · exact hk p' kind cpu esp mem hp

/-- **Step lemma.** -/
theorem next_flags (hk : Kinds m) {a : Act σ} (he : m.Enabled a) (hc : CallsEnabled m a) :
    Kinds (m.next env a) ∧ (FlagsOk (m.next env a) ↔ FlagsOk m ∧ Paired env m a) := by
  cases a with
  | call c =>
    let r := perform env m.k m.sched c.op
    exact finish_flags (m := { m with k := r.1, sched := r.2.1 }) hk .voluntary r.2.2 hc
  | tick cpu writes =>
    have hk' : Kinds (m.handling cpu writes) := hk
    rw [Machine.next, Paired]
    dsimp only
    generalize timerCallback (m.handling cpu writes).sched = r
    obtain ⟨s, sw⟩ := r
    cases sw with
    | none => exact quiet_flags hk rfl rfl
    | some sw =>
      -- the gate has cleared the flag
      exact switch_flags (m := { m.handling cpu writes with sched := s }) hk' sw.1 sw.2 he.2.1
  | create name entry => exact create_flags hk name entry
  | work k cpu writes => exact quiet_flags hk (by simp [Machine.next]) (by simp [Machine.next])
  | flag intr => exact quiet_flags hk rfl rfl
  | preemption enabled => exact quiet_flags hk rfl rfl
  | enter entry stack => exact quiet_flags hk (by simp [Machine.next]) (by simp [Machine.next])
  | trap vector =>
    exact quiet_flags hk (by simp [Machine.next, Machine.interrupted])
      (by simp [Machine.next, Machine.interrupted])
  | iret => exact quiet_flags hk (by simp [Machine.next]) (by simp [Machine.next])

/-! ## 3. Runs -/

/-- **The interrupt flag is right at every return from `context_switch` exactly when the kinds pair
up at every switch**, in every run in which processes give up the processor with interrupts
enabled. -/
theorem flags_ok_iff (env : ProcEnv σ) (k : σ) (kernelPd : Nat) (mem : Mem) (cpu : Cpu)
    (interruptStackTop : UInt32) (bootStack : Region) (acts : List (Act σ))
    (hrun : Along (Machine.next env) Machine.Enabled
      (bootMachine env k kernelPd mem cpu interruptStackTop bootStack) acts)
    (hcalls : Along (Machine.next env) CallsEnabled
      (bootMachine env k kernelPd mem cpu interruptStackTop bootStack) acts) :
    FlagsOk (acts.foldl (Machine.next env)
        (bootMachine env k kernelPd mem cpu interruptStackTop bootStack)) ↔
      Along (Machine.next env) (Paired env)
        (bootMachine env k kernelPd mem cpu interruptStackTop bootStack) acts := by
  have hboot : FlagsOk (bootMachine env k kernelPd mem cpu interruptStackTop bootStack) :=
    fun e he => by cases he
  have hkinds : Kinds (bootMachine env k kernelPd mem cpu interruptStackTop bootStack) :=
    fun p kind cpu esp mem hp => by cases hp
  rw [(hrun.and hcalls).iff (I := Kinds) (C := Paired env)
    (fun m a hk h => (next_flags hk h.1 h.2).1) (fun m a hk h => (next_flags hk h.1 h.2).2) hkinds]
  exact and_iff_right hboot

/-- The boot process enables interrupts and preemption, creates two processes and yields. -/
def startTwo : List (Act Nat) :=
  [.flag true, .create [65] 0x100300, .create [66] 0x100400, .preemption true, .call .yield]

/-- A tick whose handler runs on the first process's stack. -/
def tickFirst : Act Nat := .tick (kernelCpu 0xC0001F00 false) []

/-- Voluntary switches only: each new process starts with interrupts enabled. -/
theorem flags_ok_iff_yields :
    let acts := startTwo ++ [.call .yield]
    let m := acts.foldl (Machine.next bumpEnv) smallMachine
    m.log.map (fun e => (e.process, e.cpu.intr)) = [(1, true), (2, true)] ∧ FlagsOk m := by
  have h := flags_ok_iff bumpEnv 0xC0000010 0x200000 (fun _ => 0) (kernelCpu 0x108000 false)
    0x10E000 ⟨0x104000, 0x108000⟩ (startTwo ++ [.call .yield]) (by decide +kernel)
    (by decide +kernel)
  exact ⟨by decide +kernel, h.mpr (by decide +kernel)⟩

/-- The first process is preempted when its time slice ends, and the second one starts inside the
gate of that interrupt: with interrupts disabled. -/
theorem flags_preempted_start :
    let acts := startTwo ++ List.replicate 10 tickFirst
    let m := acts.foldl (Machine.next bumpEnv) smallMachine
    Along (Machine.next bumpEnv) Machine.Enabled smallMachine acts ∧
      Along (Machine.next bumpEnv) CallsEnabled smallMachine acts ∧
      m.log.map (fun e => (e.process, e.cpu.intr)) = [(1, true), (2, false)] ∧ ¬ FlagsOk m :=
  ⟨by decide +kernel, by decide +kernel, by decide +kernel, by decide +kernel⟩

end FlowOS.Process
