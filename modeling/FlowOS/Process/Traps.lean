/-
# Interrupts from level 3

The task state segment is written once at boot, so every interrupt from level 3 pushes its frame at
the top of the same stack, whichever process is running, and a process that is preempted there
leaves its frames behind on it.  `frames_kept_iff` says what that costs: in every run, the frames of
the processes that are not running survive, each on a stack of its own, exactly when no interrupt
from level 3 comes while another process is on the interrupt stack.
-/
import FlowOS.Process.Resume

namespace FlowOS.Process

open X86 Trace

variable {σ : Type} {env : ProcEnv σ} {m : Machine σ}

/-- **The frames of the live processes that are not running are as they were left**, from the stack
pointer in the control block to the top of the stack, and no two live processes are on the same
stack. -/
structure FramesKept (env : ProcEnv σ) (m : Machine σ) : Prop where
  frame : ∀ p x, p ≠ m.current → m.sched.Live p → m.context p = some x →
    m.sched.mem.ld32 (espAddr env p) = x.esp ∧
      ∀ a, x.esp ≤ a → a < (m.stack p).hi → m.sched.mem a = x.mem a
  apart : ∀ p q, p ≠ q → m.sched.Live p → m.sched.Live q → (m.stack p).Apart (m.stack q)

theorem Safe.framesKept (h : Safe env m) : FramesKept env m where
  frame := fun p x hp hl hx => ⟨(h.saved p x hp hl hx).cell, (h.saved p x hp hl hx).bytes⟩
  apart := h.layout.apart

/-- The task state segment is never written again. -/
theorem next_tss (a : Act σ) : (m.next env a).tss = m.tss := by
  cases a with
  | create name entry =>
    rw [Machine.next]
    generalize processCreate env m.k m.sched name entry.toNat = r
    cases r.1 <;> rfl
  | call c =>
    rw [Machine.next]
    generalize perform env m.k m.sched c.op = r
    obtain ⟨k, s, sw⟩ := r
    cases sw with
    | none => rfl
    | some sw => exact switch_tss _ _ _ _ _
  | tick cpu writes =>
    rw [Machine.next]
    dsimp only
    generalize timerCallback (m.handling cpu writes).sched = r
    obtain ⟨s, sw⟩ := r
    cases sw with
    | none => rfl
    | some sw => exact switch_tss _ _ _ _ _
  | work | flag | preemption | trap => rfl
  | enter entry stack => rw [Machine.next, Machine.withState]
  | iret => rw [Machine.next, Machine.withState]

theorem interrupted_stack (hu : m.cpu.user = true) (vector : UInt32) :
    (m.interrupted m.current vector).stack
      = setAt m.stack m.current m.interruptStack := by
  simp only [Machine.interrupted, hu, if_true]

/-- After a tick from level 3 the interrupted process is on the interrupt stack, and every live
process is still live. -/
theorem next_tick (h : Accounted m) (hu : m.cpu.user = true) (cpu : Cpu)
    (writes : List (Nat × UInt8)) :
    (m.next env (.tick cpu writes)).stack = setAt m.stack m.current m.interruptStack ∧
      ∀ p, m.sched.Live p → (m.next env (.tick cpu writes)).sched.Live p := by
  have h' : Accounted (m.handling cpu writes) := (h.interrupted m.current 32).withState _
  have hstack : (m.handling cpu writes).stack
      = setAt m.stack m.current m.interruptStack := interrupted_stack hu 32
  obtain ⟨q, hq⟩ := h'.sched
  have hr := timerCallback_performed hq
  have hlive : ∀ p, m.sched.Live p → (timerCallback (m.handling cpu writes).sched).1.Live p :=
    fun p hp => hr.live p (fun _ => rfl) hp
  rw [Machine.next]
  dsimp only
  generalize timerCallback (m.handling cpu writes).sched = r at hlive ⊢
  obtain ⟨s, sw⟩ := r
  cases sw with
  | none => exact ⟨hstack, hlive⟩
  | some sw =>
    refine ⟨(switch_stack _ _ _ _ _).trans hstack, fun p hp => ?_⟩
    dsimp only
    rw [switch_sched]
    exact hlive p hp

/-- Two live processes on the interrupt stack are not on stacks of their own. -/
theorem not_kept_of_shared {m' : Machine σ} {p : Slot}
    (hroom : interruptStackSize ≤ m.tss.esp0.toNat)
    (hstack : m'.stack = setAt m.stack m.current m.interruptStack)
    (hp : p ≠ m.current) (hsame : m.stack p = m.interruptStack) (hl : m'.sched.Live p)
    (hl' : m'.sched.Live m.current) : ¬ FramesKept env m' := by
  intro hkept
  have hapart := hkept.apart p m.current hp hl hl'
  rw [hstack, setAt_self, setAt_other _ _ hp, hsame] at hapart
  unfold Region.Apart Machine.interruptStack interruptRegion at hapart
  unfold interruptStackSize at hroom hapart
  dsimp only at hapart
  omega

/-- **Only an interrupt that finds nobody else on the interrupt stack leaves the frames kept.** -/
theorem alone_of_framesKept (h : Accounted m) (hroom : interruptStackSize ≤ m.tss.esp0.toNat)
    {a : Act σ} (hk : FramesKept env (m.next env a)) : Alone m a := by
  have hcur : m.sched.Live m.current := by
    obtain ⟨q, hq⟩ := h.sched
    exact hq.current_live
  cases a with
  | trap vector =>
    intro hu p hp hl hsame
    exact not_kept_of_shared hroom (interrupted_stack hu vector) hp hsame hl hcur hk
  | tick cpu writes =>
    intro hu p hp hl hsame
    obtain ⟨hstack, hlive⟩ := @next_tick σ env m h hu cpu writes
    exact not_kept_of_shared hroom hstack hp hsame (hlive p hl) (hlive _ hcur) hk
  | _ => trivial

/-- **The frames of preempted processes survive exactly when interrupts from level 3 find nobody
else on the interrupt stack**, in every run of code that stays where it may. -/
theorem frames_kept_iff (env : ProcEnv σ) (k : σ) (kernelPd : Nat) (mem : Mem) (cpu : Cpu)
    (top : UInt32) (bootStack : Region) (hi : Image env ⟨0x10, top⟩ bootStack)
    (acts : List (Act σ))
    (hsane : Along (Machine.next env) (Sane env)
      (bootMachine env k kernelPd mem cpu top bootStack) acts) :
    Throughout (Machine.next env) (FramesKept env)
        (bootMachine env k kernelPd mem cpu top bootStack) acts ↔
      Along (Machine.next env) Alone (bootMachine env k kernelPd mem cpu top bootStack) acts := by
  have hsafe := bootMachine_safe k kernelPd mem cpu hi
  refine ⟨fun h => ?_, fun halone => ?_⟩
  · refine h.along (I := fun m => Accounted m ∧ interruptStackSize ≤ m.tss.esp0.toNat)
      (fun m a hm => ⟨hm.1.next a, ?_⟩) (fun m a hm hk => alone_of_framesKept hm.1 hm.2 hk)
      ⟨hsafe.toAccounted, hi.room⟩
    rw [next_tss]
    exact hm.2
  · exact (hsane.and halone).throughout (I := Safe env) (fun m a hm hc => hm.next hc.1 hc.2)
      (fun m hm => hm.framesKept) hsafe

/-- A tick in the handler of which the kernel runs on the interrupt stack. -/
def tickUser : Act Nat := .tick (kernelCpu 0x10DF00 false) []

/-- Two processes are started; the first goes to level 3 and is preempted there, and the second
starts, and yields back. -/
def preemptOne : List (Act Nat) :=
  [.flag true, .create [65] 0x100300, .create [66] 0x100400, .preemption true, .call .yield,
    .enter 0x40001000 0xBFFFE000] ++ List.replicate 10 tickUser ++ [.call .yield]

/-- Then the second goes to level 3 as well, and is preempted in turn. -/
def preemptBoth : List (Act Nat) :=
  [.flag true, .create [65] 0x100300, .create [66] 0x100400, .preemption true, .call .yield,
    .enter 0x40001000 0xBFFFE000] ++ List.replicate 10 tickUser ++
    [.enter 0x40002000 0xBFFFD000] ++ List.replicate 10 tickUser

/-- One process at level 3: its frames wait on the interrupt stack until it is resumed. -/
theorem frames_kept_iff_one :
    let m := preemptOne.foldl (Machine.next bumpEnv) smallMachine
    m.log.map (fun e => e.process) = [1, 2, 1] ∧
      Throughout (Machine.next bumpEnv) (FramesKept bumpEnv) smallMachine preemptOne := by
  have h := frames_kept_iff bumpEnv 0xC0000010 0x200000 (fun _ => 0) (kernelCpu 0x108000 false)
    0x10E000 ⟨0x104000, 0x108000⟩ smallImage_apart preemptOne (by decide +kernel)
  exact ⟨by decide +kernel, h.mpr (by decide +kernel)⟩

/-- Two processes at level 3: when the first is resumed and its interrupt returns, it continues at
level 3 as the second, with that one's instruction pointer and stack. -/
theorem frames_overwritten :
    let acts := preemptBoth ++ [.work 0xC0004000 (kernelCpu (0x10E000 - 68) false) [], .iret]
    let m := acts.foldl (Machine.next bumpEnv) smallMachine
    Along (Machine.next bumpEnv) Machine.Enabled smallMachine acts ∧
      Along (Machine.next bumpEnv) (Sane bumpEnv) smallMachine acts ∧
      m.log.map (fun e => e.process) = [1, 2, 1] ∧ m.current = 1 ∧ m.cpu.user = true ∧
      m.cpu.eip = 0x40002000 ∧ m.cpu.reg .esp = 0xBFFFD000 := by
  decide +kernel

end FlowOS.Process
