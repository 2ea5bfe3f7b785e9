/-
# Every switch resumes the right context

Each action keeps every frame (`Safe.next`), so in every run in which code stays where it may and
no two processes share the interrupt stack, a process that had called `context_switch` continues at
its return address with its own registers, and a new process enters `process_wrapper` with its
entry function: `resume_ok`.  The process in slot 0 is the code that booted; it is never entered
through the frame `process_init` built for `idle_process`.
-/
import FlowOS.Process.Saved

namespace FlowOS.Process

open Word X86 Trace

variable {σ : Type} {env : ProcEnv σ} {m : Machine σ}

/-! ## 1. Own work -/

theorem Safe.current_live (h : Safe env m) : m.sched.Live m.current := by
  obtain ⟨q, hq⟩ := h.sched
  exact hq.current_live

/-- What the current process may write is on no other live process's stack. -/
theorem Safe.not_has_of_mayWrite (h : Safe env m) {a : Nat} (ha : MayWrite env m a) {p : Slot}
    (hp : p ≠ m.current) (hl : m.sched.Live p) : ¬ (m.stack p).Has a := by
  intro hhas
  by_cases heq : m.stack p = m.stack m.current
  · have hapart := h.layout.apart p m.current hp hl h.current_live
    exact hapart.not_has hhas (heq ▸ hhas)
  · exact ha.2 p hp hl heq hhas

theorem writeAll_outside {mem : Mem} {writes : List (Nat × UInt8)} {a : Nat}
    (h : ∀ w ∈ writes, w.1 ≠ a) : writeAll mem writes a = mem a := by
  unfold writeAll
  induction writes generalizing mem with
  | nil => rfl
  | cons w ws ih =>
    rw [List.foldl_cons, ih fun w' hw' => h w' (List.mem_cons_of_mem _ hw')]
    exact Mem.st8_other _ (Ne.symm (h w List.mem_cons_self))

/-- Code that writes where it may. -/
theorem Safe.work (h : Safe env m) (cpu : Cpu) {writes : List (Nat × UInt8)}
    (hw : ∀ w ∈ writes, MayWrite env m w.1) :
    Safe env (m.withState (cpu, writeAll m.sched.mem writes)) := by
  refine h.withState _ (fun a ha => ?_) fun p hp hl a ha => ?_
  · refine writeAll_outside fun w hmem heq => ?_
    exact (hw w hmem).1 (heq ▸ ha)
  · refine writeAll_outside fun w hmem heq => ?_
    exact h.not_has_of_mayWrite (hw w hmem) hp hl (heq ▸ ha)

/-- Code that writes on the stack of the current process. -/
theorem Safe.onStack (h : Safe env m) {s : X86.State}
    (hs : ∀ a, ¬ (m.stack m.current).Has a → s.2 a = m.sched.mem a) :
    Safe env (m.withState s) := by
  refine h.withState s (fun a ha => hs a ?_) fun p hp hl a ha => hs a ?_
  · exact (h.layout.table _ h.current_live).symm.not_has ha
  · exact (h.layout.apart p m.current hp hl h.current_live).not_has ha

theorem Safe.enter (h : Safe env m) (entry stack : UInt32) (hroom : HasRoom m 32) :
    Safe env (m.withState (X86.call enterUsermode (push entry (push stack m.state)))) := by
  obtain ⟨hlo, hhi⟩ := hroom
  refine h.onStack fun a ha => enterUsermode_mem entry stack (s := m.state) ?_ ?_
  · change 32 ≤ (m.cpu.reg .esp).toNat
    omega
  · change a < (m.cpu.reg .esp).toNat - 32 ∨ (m.cpu.reg .esp).toNat ≤ a
    unfold Region.Has at ha
    omega

/-! ## 2. Interrupts -/

/-- **An interrupt**: at level 0 it is taken on the process's stack, from level 3 on the interrupt
stack, where no other process is. -/
theorem Safe.interrupted (h : Safe env m) (vector : UInt32)
    (hroom : m.cpu.user = false → HasRoom m 60)
    (halone : m.cpu.user = true → ∀ p, p ≠ m.current → m.sched.Live p →
      m.stack p ≠ m.interruptStack) : Safe env (m.interrupted m.current vector) := by
  cases hu : m.cpu.user with
  | false =>
    obtain ⟨hlo, hhi⟩ := hroom hu
    have hpush := interrupt_kernel_pushes (s := m.state) m.tss hu vector
    unfold Machine.interrupted
    generalize X86.run (stubEntry vector) (interrupt m.tss 0x08 m.state) = s at hpush ⊢
    rw [hu]
    obtain ⟨-, hmem⟩ := hpush (show 60 ≤ (m.cpu.reg .esp).toNat by omega)
    refine h.onStack fun a ha => hmem a ?_
    change a < (m.cpu.reg .esp).toNat - 60 ∨ (m.cpu.reg .esp).toNat ≤ a
    unfold Region.Has at ha
    omega
  | true =>
    have h' := h.onInterruptStack (halone hu)
    have hpush := interrupt_user_pushes (s := m.state) m.tss hu vector
    unfold Machine.interrupted
    generalize X86.run (stubEntry vector) (interrupt m.tss 0x08 m.state) = s at hpush ⊢
    rw [hu]
    have hesp : (interruptCpu m.tss m.state.1).reg .esp = m.tss.esp0 := by
      have hu' : m.state.1.user = true := hu
      simp [interruptCpu, hu']
    have hr := h.linked.room
    unfold interruptStackSize at hr
    unfold Pushes at hpush
    rw [hesp] at hpush
    obtain ⟨-, hmem⟩ := hpush (by omega)
    refine h'.onStack (s := s) fun a ha => hmem a ?_
    have hself : setAt m.stack m.current m.interruptStack m.current
        = m.interruptStack := setAt_self _ _ _
    change ¬ (setAt m.stack m.current m.interruptStack m.current).Has a at ha
    rw [hself] at ha
    unfold Region.Has Machine.interruptStack interruptRegion interruptStackSize at ha
    dsimp only at ha
    omega

/-! ## 3. New processes -/

/-- The frame `process_create` stores is what pushes from the top of the stack would leave. -/
theorem storeBelow_eq (c : Cpu) (mem : Mem) (top : UInt32) (ws : List UInt32) :
    storeBelow mem top.toNat (ws.map UInt32.toNat) = (pushAll ws (c.set .esp top, mem)).2 := by
  induction ws generalizing mem top with
  | nil => rfl
  | cons w ws ih =>
    have hsub : sub32 top.toNat 4 = (top - 4).toNat := by
      rw [sub32, UInt32.toNat_sub]
      simp only [UInt32.reduceToNat]
      congr 1
      omega
    have hpush : X86.push w (c.set .esp top, mem)
        = (c.set .esp (top - 4), store mem (top - 4) w) := by
      simp [X86.push, Cpu.set]
    rw [List.map_cons, storeBelow, hsub, pushAll_cons, hpush]
    exact ih (store mem (top - 4) w) (top - 4)

/-- So the words are on the stack, and nothing but their cells has changed. -/
theorem storeBelow_stack (c : Cpu) (mem : Mem) {top : UInt32} {ws : List UInt32}
    (hroom : 4 * ws.length ≤ top.toNat) :
    Stack (storeBelow mem top.toNat (ws.map UInt32.toNat))
        (UInt32.ofNat (top.toNat - 4 * ws.length)) ws.reverse ∧
      ∀ a, (a < top.toNat - 4 * ws.length ∨ top.toNat ≤ a) →
        storeBelow mem top.toNat (ws.map UInt32.toNat) a = mem a := by
  have hreg : (c.set .esp top).reg .esp = top := Cpu.set_reg_self c .esp top
  have hroom' : 4 * ws.length ≤ ((c.set .esp top).reg .esp).toNat := by
    rw [hreg]
    exact hroom
  have hesp := @pushAll_esp ws (c.set .esp top, mem) hroom'
  have hstack := @Stack.pushAll ws [] (c.set .esp top, mem) (Stack.nil _ _) hroom'
  dsimp only at hesp hstack
  rw [hreg] at hesp
  rw [storeBelow_eq c]
  constructor
  · rw [← hesp, UInt32.ofNat_toNat]
    rwa [List.append_nil] at hstack
  · intro a ha
    refine pushAll_outside hroom' ?_
    rw [hreg]
    exact ha

/-- What `process_create` leaves in memory: the frame, and the stack pointer in the control
block. -/
theorem initialFrame_saved {mem : Mem} {entry : UInt32} {lo : Nat} (p : Slot)
    (hl : Linked env m.tss) (hlt : lo + kernelStackSize < 2 ^ 32)
    (happart : Region.Apart ⟨lo, lo + kernelStackSize⟩ (tableRegion env)) :
    let mem' := (storeBelow mem (lo + kernelStackSize) (initialFrame env entry.toNat)).st32
      (espAddr env p) (sub32 (lo + kernelStackSize) 28)
    Saved env mem' ⟨lo, lo + kernelStackSize⟩ p
        ⟨.created entry, lo + kernelStackSize - 28, mem'⟩ ∧
      ∀ a, ¬ Region.Has ⟨lo, lo + kernelStackSize⟩ a →
        (a < espAddr env p ∨ espAddr env p + 4 ≤ a) → mem' a = mem a := by
  have hsize : kernelStackSize = 4096 := rfl
  have htop : (UInt32.ofNat (lo + kernelStackSize)).toNat = lo + kernelStackSize := by
    rw [UInt32.toNat_ofNat']
    exact Nat.mod_eq_of_lt hlt
  have hwrapper : (UInt32.ofNat env.processWrapper).toNat = env.processWrapper := by
    rw [UInt32.toNat_ofNat']
    exact Nat.mod_eq_of_lt hl.wrapper
  let ws : List UInt32 := [entry, 0, UInt32.ofNat env.processWrapper, 0, 0, 0, 0]
  have hframe : initialFrame env entry.toNat = ws.map UInt32.toNat := by
    simp [ws, initialFrame, hwrapper]
  have hlen : 4 * ws.length = 28 := rfl
  obtain ⟨hstack, hout⟩ := storeBelow_stack m.cpu mem
    (show 4 * ws.length ≤ (UInt32.ofNat (lo + kernelStackSize)).toNat by omega)
  rw [htop, ← hframe, hlen] at hstack hout
  rw [sub32_of_le (by omega) hlt]
  have hcell := espAddr_bounds env p
  unfold Region.Apart at happart
  dsimp only at happart
  refine ⟨⟨?_, ?_, Nat.le_of_eq ?_, fun _ _ _ => rfl, ?_, by simp⟩, fun a ha hc => ?_⟩
  · exact Mem.ld32_st32_same (by omega)
  · change lo ≤ lo + kernelStackSize - 28
    omega
  · change lo + kernelStackSize - 28 + 28 = lo + kernelStackSize
    omega
  · refine hstack.congr fun a h1 h2 => Mem.st32_outside _ ?_
    have hwords : 4 * ws.reverse.length = 28 := rfl
    rw [UInt32.toNat_ofNat', Nat.mod_eq_of_lt (by omega)] at h1 h2
    omega
  · rw [Mem.st32_outside _ hc]
    refine hout a ?_
    unfold Region.Has at ha
    dsimp only at ha
    omega

/-- **A creation keeps every frame and adds one.** -/
theorem Safe.created (h : Safe env m) (name : List UInt8) (entry : UInt32)
    (hs : Sane env m (.create name entry)) : Safe env (m.next env (.create name entry)) := by
  obtain ⟨q, hq⟩ := h.sched
  have hr := processCreate_performed env m.k hq name entry.toNat
  have hacc : Accounted (m.next env (.create name entry)) := h.toAccounted.created name entry
  have hcases := processCreate_cases env m.k m.sched name entry.toNat
  rw [Machine.next] at hacc ⊢
  rw [Sane] at hs
  generalize processCreate env m.k m.sched name entry.toNat = r at hr hacc hcases hs
  cases hcases with
  | full => exact h.stay hr
  | failed p k' proc hp0 hp hproc => exact h.stay hr
  | ok p k' proc a hp0 hp ha ha0 hproc hstack =>
    -- the scheduler's part keeps the memory and the new process's stack
    generalize hs₀ : Sched.put { m.sched with
      nextPid := add32 m.sched.nextPid 1
      mem := (storeBelow m.sched.mem (add32 a kernelStackSize)
        (initialFrame env entry.toNat)).st32 (espAddr env p)
          (sub32 (add32 a kernelStackSize) 28) } p proc = s₀ at hr hacc hs ⊢
    have hkeep := (setState_keeps s₀ p .ready).trans
      (schedulerAdd_keeps (setState s₀ p .ready) p)
    have hks := hkeep.kernelStack p
    have hmem := hkeep.mem
    generalize schedulerAdd (setState s₀ p .ready) p = s' at hr hacc hs hks hmem ⊢
    obtain ⟨hsize, hfresh⟩ := hs
    obtain ⟨lo, hlo⟩ : ∃ lo, (s'.processTable p).kernelStack = lo + kernelStackSize :=
      ⟨_, (Nat.sub_add_cancel hsize).symm⟩
    rw [hlo, Nat.add_sub_cancel] at hfresh
    have htop : add32 a kernelStackSize = lo + kernelStackSize := by
      rw [← hlo, hks, ← hs₀, put_processTable, if_pos rfl, hstack]
    have hmem' : s'.mem = (storeBelow m.sched.mem (lo + kernelStackSize)
        (initialFrame env entry.toNat)).st32 (espAddr env p) (sub32 (lo + kernelStackSize) 28) := by
      rw [hmem, ← hs₀, ← htop]
      rfl
    obtain ⟨hself, hout⟩ := @initialFrame_saved σ env m m.sched.mem entry lo p h.linked
      hfresh.below hfresh.table
    rw [← hmem'] at hself hout
    have hbefore : ∀ q, q ≠ p → s'.Live q → m.sched.Live q := fun q hqp hq' =>
      hr.live_of_ne (fun heq => hqp (Option.some.inj heq).symm) hq'
    have hcur : s'.currentProcess.getD 0 = m.current := by
      obtain ⟨q', hq'⟩ := hr.inv_stay
      rw [hq'.current, Option.getD_some]
    have hregion : (⟨(s'.processTable p).kernelStack - kernelStackSize,
        (s'.processTable p).kernelStack⟩ : Region) = ⟨lo, lo + kernelStackSize⟩ := by
      rw [hlo, Nat.add_sub_cancel]
    refine ⟨hacc, h.linked, ?_, fun q' x hq' hl hx => ?_, h.log⟩
    · simp only [Machine.created, hregion]
      exact h.layout.update hbefore (Nat.le_of_lt hfresh.below) hfresh.table
        (Or.inr hfresh.interrupt) fun q' hqp hl => hfresh.live q' (hbefore q' hqp hl)
    · simp only [Machine.created, hregion, setAt] at hx ⊢
      change q' ≠ s'.currentProcess.getD 0 at hq'
      rw [hcur] at hq'
      by_cases hqp : q' = p
      · rw [if_pos hqp] at hx ⊢
        obtain rfl := Option.some.inj hx
        rw [hqp, hlo]
        exact hself
      · rw [if_neg hqp] at hx ⊢
        have hl' := hbefore q' hqp hl
        refine (h.saved q' x hq' hl' hx).congr (fun b hb => hout b ?_ ?_)
          fun b h1 h2 => hout b ?_ ?_
        · exact (hfresh.live q' hl').symm.not_has hb
        · have htable := (h.layout.table q' hl').not_has hb
          have hcell := espAddr_bounds env p
          unfold Region.Has at htable
          omega
        · have hb := espAddr_bounds env q'
          exact hfresh.table.symm.not_has ⟨by omega, by omega⟩
        · have hcell := espAddr_apart env hqp
          omega

/-! ## 4. Runs -/

/-- **Step lemma.** -/
theorem Safe.next (h : Safe env m) {a : Act σ} (hs : Sane env m a) (ha : Alone m a) :
    Safe env (m.next env a) := by
  cases a with
  | work k cpu writes =>
    have h' := h.work cpu hs
    exact ⟨⟨h'.sched, h'.context⟩, h'.linked, h'.layout, h'.saved, h'.log⟩
  | flag intr => exact ⟨⟨h.sched, h.context⟩, h.linked, h.layout, h.saved, h.log⟩
  | preemption enabled =>
    obtain ⟨q, hq⟩ := h.sched
    cases enabled with
    | true => exact h.stay (k := m.k) (perform_performed env m.k hq .enablePreemption)
    | false => exact h.stay (k := m.k) (perform_performed env m.k hq .disablePreemption)
  | create name entry => exact h.created name entry hs
  | call c => exact h.finish .voluntary (h.toAccounted.performed_call env c) hs
  | enter entry stack => exact h.enter entry stack hs
  | trap vector => exact h.interrupted vector hs ha
  | tick cpu writes =>
    obtain ⟨hroom, hw, hroom'⟩ := hs
    have h' : Safe env (m.handling cpu writes) := (h.interrupted 32 hroom ha).work cpu hw
    obtain ⟨q, hq⟩ := h'.sched
    have hr := timerCallback_performed hq
    have hfin := h'.finish (k := (m.handling cpu writes).k) .preemption hr hroom'
    rw [Machine.next]
    dsimp only
    split
    · rename_i prev next hsw
      rw [hsw] at hfin
      exact hfin
    · rename_i hsw
      rw [hsw] at hfin
      exact ⟨⟨hfin.sched, hfin.context⟩, hfin.linked, hfin.layout, hfin.saved, hfin.log⟩
  | iret =>
    rw [Machine.next]
    exact h.onStack fun a _ => by rw [stubExit_mem]; rfl

/-- The addresses of the linked image: the boot stack, the interrupt stack and the process table
do not overlap. -/
structure Image (env : ProcEnv σ) (tss : Tss) (bootStack : Region) : Prop extends
    Linked env tss where
  bootBelow : bootStack.hi ≤ 2 ^ 32
  bootTable : bootStack.Apart (tableRegion env)
  bootInterrupt : bootStack.Apart (interruptRegion tss)

/-- At boot only the process in slot 0 is live. -/
theorem live_boot {k : σ} {kernelPd : Nat} {mem : Mem} {p : Slot}
    (h : (bootProcesses env k kernelPd mem).2.Live p) : p = 0 := by
  by_contra hp
  have hst := stateOf_bootProcesses env k kernelPd mem p
  rw [if_neg hp] at hst
  exact h.1 hst

theorem bootMachine_safe (k : σ) (kernelPd : Nat) (mem : Mem) (cpu : Cpu) {top : UInt32}
    {bootStack : Region} (hi : Image env ⟨0x10, top⟩ bootStack) :
    Safe env (bootMachine env k kernelPd mem cpu top bootStack) := by
  have hcur : (bootMachine env k kernelPd mem cpu top bootStack).current = 0 := rfl
  refine ⟨⟨⟨[], bootProcesses_inv env k kernelPd mem⟩, fun p hp hl => ?_⟩, hi.toLinked, ?_,
    fun p x hp hl _ => ?_, by simp [bootMachine]⟩
  · exact absurd (live_boot hl) hp
  · refine ⟨fun _ _ => hi.bootBelow, fun _ _ => hi.bootTable, fun p q hpq hp hq => ?_,
      fun _ _ => Or.inr hi.bootInterrupt⟩
    exact absurd ((live_boot hp).trans (live_boot hq).symm) hpq
  · exact absurd (live_boot hl) hp

/-- The context is that of a process that has called `context_switch`. -/
def Context.IsCall (x : Context) : Prop := ∃ kind cpu, x.origin = .called kind cpu

/-- The process in slot 0 is the code that booted: it leaves the processor by its own calls. -/
structure BootRuns (m : Machine σ) : Prop where
  context : ∀ x, m.context 0 = some x → x.IsCall
  log : ∀ e ∈ m.log, e.process = 0 → ∀ x, e.context = some x → x.IsCall

theorem BootRuns.finish (h : BootRuns m) (kind : Kind) (sw : Switch) :
    BootRuns (m.finish env kind sw) := by
  cases sw with
  | none => exact h
  | some sw =>
    obtain ⟨prev, next⟩ := sw
    rw [Machine.finish]
    refine ⟨fun x hx => ?_, fun e he h0 x hx => ?_⟩
    · rw [switch_context] at hx
      split at hx
      · cases hx
      · split at hx
        · obtain rfl := Option.some.inj hx
          exact ⟨kind, _, rfl⟩
        · exact h.context x hx
    · rw [switch_log] at he
      rcases List.mem_append.mp he with he | he
      · exact h.log e he h0 x hx
      · obtain rfl := List.mem_singleton.mp he
        obtain rfl : next = 0 := h0
        exact h.context x hx

theorem BootRuns.congr {m' : Machine σ} (h : BootRuns m) (hctx : m'.context = m.context)
    (hlog : m'.log = m.log) : BootRuns m' :=
  ⟨by rw [hctx]; exact h.context, by rw [hlog]; exact h.log⟩

theorem BootRuns.next (h : BootRuns m) (a : Act σ) : BootRuns (m.next env a) := by
  cases a with
  | create name entry =>
    have hcases := processCreate_cases env m.k m.sched name entry.toNat
    rw [Machine.next]
    generalize processCreate env m.k m.sched name entry.toNat = r at hcases
    cases hcases with
    | full => exact h.congr rfl rfl
    | failed => exact h.congr rfl rfl
    | ok p k' proc a hp0 =>
      refine ⟨fun x hx => ?_, h.log⟩
      simp only [Machine.created, setAt_other _ _ (Ne.symm hp0)] at hx
      exact h.context x hx
  | call c =>
    let r := perform env m.k m.sched c.op
    exact BootRuns.finish (m := { m with k := r.1, sched := r.2.1 }) (h.congr rfl rfl) .voluntary
      r.2.2
  | tick cpu writes =>
    have h' : BootRuns (m.handling cpu writes) := h.congr rfl rfl
    rw [Machine.next]
    dsimp only
    generalize timerCallback (m.handling cpu writes).sched = r
    obtain ⟨s, sw⟩ := r
    cases sw with
    | none => exact h'.congr rfl rfl
    | some sw =>
      exact BootRuns.finish (m := { m.handling cpu writes with sched := s }) (h'.congr rfl rfl)
        .preemption (some sw)
  | work k cpu writes => exact h.congr (by simp [Machine.next]) (by simp [Machine.next])
  | flag intr => exact h.congr rfl rfl
  | preemption enabled => exact h.congr rfl rfl
  | enter entry stack => exact h.congr (by simp [Machine.next]) (by simp [Machine.next])
  | trap vector =>
    exact h.congr (by simp [Machine.next, Machine.interrupted])
      (by simp [Machine.next, Machine.interrupted])
  | iret => exact h.congr (by simp [Machine.next]) (by simp [Machine.next])

/-- Every return from `context_switch` so far found what it should, and the process in slot 0 was
always one that had called. -/
def ResumesOk (env : ProcEnv σ) (m : Machine σ) : Prop :=
  ∀ e ∈ m.log, e.ContextOk env ∧ (e.process = 0 → ∃ x, e.context = some x ∧ x.IsCall)

theorem smallImage_apart : Image bumpEnv ⟨0x10, 0x10E000⟩ ⟨0x104000, 0x108000⟩ :=
  ⟨⟨by decide, by decide, by decide, by decide⟩, by decide, by decide, by decide⟩

/-- Two processes are started; the first exits and the second resumes the code that booted. -/
def startAndExit : List (Act Nat) :=
  [.flag true, .create [65] 0x100300, .create [66] 0x100400, .call .yield, .call (.exit 0),
    .call (.exit 0)]

end FlowOS.Process
