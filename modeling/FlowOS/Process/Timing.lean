/-
# Time slices and deadlines

What the timer is for: to take the processor from a process whose slice is over, and to let a
process wait for a number of ticks.

PREEMPTION.  `timer_callback` yields for the current process only when that process is marked
`RUNNING`.  `schedule` marks the one it switches to, and `process_init` makes the boot context
current without that mark, so the boot context is not preempted before it has given up the
processor once by itself.

WAITING.  A deadline is `ticks + n` and is due when `ticks` has reached it, both in 32 bits.  The
sleeper is woken by any pass of `schedule`, so the law is about runs: nothing that happens before
the deadline wakes it.  It holds as long as the sum, and before it the product `ms * 100`, does
not wrap, and is broken whenever one of them does.
-/
import FlowOS.Process.Run

namespace FlowOS.Process

open Word Fifo

variable {σ : Type} {s s' : Sched} {c p : Slot} {q : List Slot}

/-! ## 1. The end of a time slice -/

/-- The next tick switches from `c` to `p`. -/
def Preempts (s : Sched) (c p : Slot) : Prop :=
  (timerCallback s).2 = some (c, p) ∧ (timerCallback s).1.currentProcess = some p

/-- The boot context is current and has not been scheduled yet. -/
def Booting (s : Sched) : Prop := s.currentProcess = some 0 ∧ s.stateOf 0 = .ready

/-- A tick that ends the slice yields for the current process, if that one is running. -/
theorem timerCallback_slice (hpre : s.preemptionEnabled = true) (hslice : s.sliceRemaining ≤ 1)
    (hc : s.currentProcess = some c) :
    timerCallback s =
      if s.stateOf c = .running then
        processYield { s with ticks := add32 s.ticks 1, sliceRemaining := s.timeSlice }
      else ({ s with ticks := add32 s.ticks 1, sliceRemaining := s.timeSlice }, none) := by
  have hzero : (if 0 < s.sliceRemaining then
      { s with ticks := add32 s.ticks 1, sliceRemaining := s.sliceRemaining - 1 }
      else { s with ticks := add32 s.ticks 1 }) =
        { s with ticks := add32 s.ticks 1, sliceRemaining := 0 } := by
    split
    · rw [show s.sliceRemaining - 1 = 0 by omega]
    · rw [show s.sliceRemaining = 0 by omega]
  unfold timerCallback
  dsimp only
  rw [hzero, if_pos hpre, if_pos rfl]
  dsimp only
  rw [hc]
  rfl

/-- A running process that yields is followed by the head of the queue. -/
theorem processYield_head (h : Inv s c (p :: q)) :
    (processYield s).2 = some (c, p) ∧ (processYield s).1.currentProcess = some p := by
  have hpc : p ≠ c := by
    rintro rfl
    exact h.notQueued List.mem_cons_self
  have key : ∀ {s₁ : Sched} {q₁ : List Slot}, Pre s₁ c (p :: q₁) →
      (∀ x, s₁.stateOf x ≠ .running) →
      (schedule s₁).2 = some (c, p) ∧ (schedule s₁).1.currentProcess = some p := by
    intro s₁ q₁ hpre hrun
    obtain ⟨next, q', hs, hnext⟩ := schedule_inv hpre hrun
    obtain rfl := hnext p rfl
    exact ⟨by rw [hs.switch, if_neg hpc], hs.inv.current⟩
  unfold processYield
  rw [h.current]
  dsimp only
  split
  · refine key (h.toPre.enqueue h.notQueued) fun x hx => ?_
    rw [stateOf_schedulerAdd, stateOf_setState] at hx
    split at hx
    · cases hx
    · rename_i hxc
      exact hxc (h.running x hx)
  · rename_i hnr
    exact key h.toPre fun x hx => hnr (h.running x hx ▸ hx)

/-- **A tick that ends the slice switches to the head of the ready queue**, in every state a run
reaches, exactly when the current process is not the boot context before its first switch. -/
theorem preempts_iff (env : ProcEnv σ) (k : σ) (kernelPd : Nat) (mem : Mem) {t : σ × Sched}
    (hrun : Relation.ReflTransGen (Step env) (bootProcesses env k kernelPd mem) t)
    (hpre : t.2.preemptionEnabled = true) (hslice : t.2.sliceRemaining ≤ 1) (c p : Slot)
    (hc : t.2.currentProcess = some c) (hp : t.2.readyQueueHead = some p) :
    Preempts t.2 c p ↔ ¬ Booting t.2 := by
  obtain ⟨c', q, hinv⟩ := (run_inv hrun ⟨0, [], bootProcesses_inv env k kernelPd mem⟩).1
  obtain rfl : c' = c := Option.some.inj (hinv.current.symm.trans hc)
  have htick := timerCallback_slice hpre hslice hc
  unfold Preempts
  rw [htick]
  constructor
  · rintro ⟨hswitch, -⟩ ⟨h0, hready⟩
    obtain rfl : c' = 0 := Option.some.inj (hc.symm.trans h0)
    rw [if_neg (by rw [hready]; decide)] at hswitch
    cases hswitch
  · intro hboot
    have hrunning : t.2.stateOf c' = .running := by
      rcases hinv.currentState with h | ⟨rfl, h⟩
      · exact h
      · exact absurd ⟨hc, h⟩ hboot
    rw [if_pos hrunning]
    -- the head of the queue is the `p` of the statement
    have hq : q.head? = some p := hinv.queue.head.symm.trans hp
    cases q with
    | nil => cases hq
    | cons p' q =>
      obtain rfl : p' = p := Option.some.inj hq
      exact processYield_head (hinv.congr rfl rfl rfl rfl)

/-- The boot context has yielded to the first of two processes; the tenth tick hands over to the
second. -/
theorem preempts_iff_turns :
    let t := runOps fixedEnv (bootProcesses fixedEnv () 0x200000 fun _ => 0)
      [.create [112] 0x100300, .create [113] 0x100400, .enablePreemption, .yield, .tick, .tick,
        .tick, .tick, .tick, .tick, .tick, .tick, .tick]
    t.2.currentProcess = some 1 ∧ Preempts t.2 1 2 := by
  intro t
  refine ⟨by decide +kernel, ?_⟩
  exact (preempts_iff fixedEnv () 0x200000 (fun _ => 0) (runOps_steps fixedEnv _ _)
    (by decide +kernel) (by decide +kernel) 1 2 (by decide +kernel) (by decide +kernel)).mpr
      fun h => absurd h.1 (by decide +kernel)

/-- A kernel that creates a process and turns preemption on: at the tenth tick, the end of the
slice, the boot context stays current and the process goes on waiting. -/
theorem boot_not_preempted :
    let t := runOps fixedEnv (bootProcesses fixedEnv () 0x200000 fun _ => 0)
      [.create [112] 0x100300, .enablePreemption, .tick, .tick, .tick, .tick, .tick, .tick, .tick,
        .tick, .tick]
    t.2.preemptionEnabled = true ∧ t.2.sliceRemaining = 1 ∧ t.2.currentProcess = some 0 ∧
      t.2.readyQueueHead = some 1 ∧ (timerCallback t.2).1.currentProcess = some 0 ∧
      (timerCallback t.2).2 = none := by
  decide +kernel

/-! ## 2. Who is asleep after `schedule` -/

theorem stateOf_wakeOne (t : Nat) (s : Sched) (i x : Slot) :
    (wakeOne t s i).stateOf x =
      if x = i ∧ s.stateOf i = .sleeping ∧ (s.processTable i).sleepUntil ≤ t then .ready
      else s.stateOf x := by
  unfold wakeOne
  by_cases hs : (s.processTable i).state = .sleeping
  · by_cases ht : (s.processTable i).sleepUntil ≤ t
    · rw [if_pos hs, if_pos ht, stateOf_schedulerAdd, stateOf_setState]
      simp [Sched.stateOf, hs, ht]
    · rw [if_pos hs, if_neg ht]
      simp [ht]
  · rw [if_neg hs, if_neg fun h => hs h.2.1]

/-- Waking leaves asleep who is not due. -/
theorem wakeSleepingProcesses_sleeping (s : Sched) (p : Slot) :
    (wakeSleepingProcesses s).stateOf p = .sleeping ↔
      s.stateOf p = .sleeping ∧ s.ticks < (s.processTable p).sleepUntil := by
  have key : ∀ (slots : List Slot) (t : Nat) (s : Sched),
      (slots.foldl (wakeOne t) s).stateOf p = .sleeping ↔
        s.stateOf p = .sleeping ∧ (p ∈ slots → t < (s.processTable p).sleepUntil) := by
    intro slots t
    induction slots with
    | nil => simp
    | cons i slots ih =>
      intro s
      rw [List.foldl_cons, ih, (wakeOne_keeps t s i).sleepUntil, stateOf_wakeOne]
      by_cases hpi : p = i
      · subst hpi
        by_cases hs : s.stateOf p = .sleeping
        · by_cases ht : (s.processTable p).sleepUntil ≤ t
          · simp [hs, ht, Nat.not_lt.mpr ht]
          · simp [hs, ht, Nat.lt_of_not_le ht]
        · simp [hs]
      · simp [hpi]
  unfold wakeSleepingProcesses
  rw [key]
  simp

/-- **`schedule` leaves asleep exactly who is not due.** -/
theorem schedule_sleeping (h : Pre s c q) (hp : p ≠ 0) :
    (schedule s).1.stateOf p = .sleeping ↔
      s.stateOf p = .sleeping ∧ s.ticks < (s.processTable p).sleepUntil := by
  rw [← wakeSleepingProcesses_sleeping]
  obtain ⟨w, hw, -, -⟩ := wakeSleepingProcesses_pre h
  unfold schedule
  rw [h.current]
  generalize wakeSleepingProcesses s = s₁ at hw ⊢
  generalize q ++ w = q₁ at hw
  dsimp only
  cases q₁ with
  | nil =>
    have hsw := @switchTo_switched s₁ c 0 hw.current hw.pd
    rw [show s₁.readyQueueHead = none from hw.queue.head_none_iff.mpr rfl]
    dsimp only
    rw [hsw.state, if_neg hp]
  | cons next q₁ =>
    have hhead : s₁.readyQueueHead = some next := hw.queue.head
    obtain ⟨htc, htpd⟩ := takeHead_currentProcess s₁ next
    have hsw := @switchTo_switched (takeHead s₁ next) c next (htc.trans hw.current)
      (htpd.trans (hw.pd.trans ((takeHead_keeps s₁ next).pageDirectory c).symm))
    rw [hhead]
    dsimp only
    rw [hsw.state, stateOf_takeHead]
    -- the process that runs next was ready, not asleep
    split
    · rename_i hpn
      rw [hpn, hw.ready next List.mem_cons_self]
      decide
    · rfl

/-! ## 3. A sleeper sleeps on -/

/-- `p` sleeps until the tick `d`. -/
def Asleep (s : Sched) (p : Slot) (d : Nat) : Prop :=
  s.stateOf p = .sleeping ∧ (s.processTable p).sleepUntil = d

/-- The process that calls is not the one that is asleep. -/
theorem Asleep.ne_current {d : Nat} (hs : Asleep s p d) (h : Inv s c q) : p ≠ c := by
  rintro rfl
  rcases h.currentState with hst | ⟨-, hst⟩
  · rw [hs.1] at hst
    cases hst
  · rw [hs.1] at hst
    cases hst

/-- Whoever calls `schedule`, a process that is not due stays asleep. -/
theorem Asleep.schedule {d : Nat} (hs : Asleep s p d) (h : Pre s c q) (hp : p ≠ 0)
    (hd : s.ticks < d) : Asleep (schedule s).1 p d :=
  ⟨(schedule_sleeping h hp).mpr ⟨hs.1, hs.2.symm ▸ hd⟩,
    ((schedule_keeps s).sleepUntil p).trans hs.2⟩

theorem Asleep.put {d : Nat} (hs : Asleep s p d) (hpc : p ≠ c) (proc : Process) :
    Asleep (s.put c proc) p d := by
  refine ⟨?_, ?_⟩
  · rw [stateOf_put, if_neg hpc]
    exact hs.1
  · rw [put_processTable, if_neg hpc]
    exact hs.2

theorem Asleep.enqueue {d : Nat} (hs : Asleep s p d) (hpc : p ≠ c) :
    Asleep (schedulerAdd (setState s c .ready) c) p d := by
  have hset := hs.put hpc { s.processTable c with state := .ready }
  refine ⟨(stateOf_schedulerAdd _ c p).trans hset.1, ?_⟩
  exact ((schedulerAdd_keeps (setState s c .ready) c).sleepUntil p).trans hset.2

theorem Asleep.yield {d : Nat} (hs : Asleep s p d) (h : Inv s c q) (hp : p ≠ 0)
    (hd : s.ticks < d) : Asleep (processYield s).1 p d := by
  have hpc := hs.ne_current h
  have hticks : (schedulerAdd (setState s c .ready) c).ticks = s.ticks :=
    ((setState_keeps s c .ready).trans (schedulerAdd_keeps _ c)).ticks
  unfold processYield
  rw [h.current]
  dsimp only
  split
  · exact (hs.enqueue hpc).schedule (h.toPre.enqueue h.notQueued) hp (hticks ▸ hd)
  · exact hs.schedule h.toPre hp hd

theorem Asleep.create {d : Nat} (hs : Asleep s p d) (env : ProcEnv σ) (k : σ) (name : List UInt8)
    (entry : Nat) : Asleep (processCreate env k s name entry).2.2 p d := by
  have hne : ∀ x, s.stateOf x = .unused → p ≠ x := by
    rintro x hx rfl
    rw [hs.1] at hx
    cases hx
  have hcases := processCreate_cases env k s name entry
  generalize processCreate env k s name entry = r at hcases
  cases hcases with
  | full => exact hs
  | failed x k' proc hx0 hx hproc =>
    have hs' : Asleep { s with nextPid := add32 s.nextPid 1 } p d := hs
    exact hs'.put (hne x hx) proc
  | ok x k' proc a hx0 hx ha ha0 hproc hstack =>
    have hs' : Asleep { s with
        nextPid := add32 s.nextPid 1
        mem := (storeBelow s.mem (add32 a kernelStackSize) (initialFrame env entry)).st32
          (espAddr env x) (sub32 (add32 a kernelStackSize) 28) } p d := hs
    exact (hs'.put (hne x hx) proc).enqueue (hne x hx)

/-- How many ticks an operation is. -/
def Op.ticks : Op → Nat
  | .tick => 1
  | _ => 0

/-- Only a tick advances the counter. -/
theorem perform_ticks (env : ProcEnv σ) (k : σ) (s : Sched) (hs : s.ticks < 2 ^ 32) (o : Op) :
    (perform env k s o).2.1.ticks = add32 s.ticks o.ticks := by
  have hzero : add32 s.ticks 0 = s.ticks := add32_of_lt (by omega)
  cases o with
  | create name entry =>
    have hcases := processCreate_cases env k s name entry
    have hticks : (processCreate env k s name entry).2.2.ticks = s.ticks := by
      generalize processCreate env k s name entry = r at hcases
      cases hcases with
      | full => rfl
      | failed => rfl
      | ok x => exact (schedulerAdd_keeps _ x).ticks
    exact hticks.trans hzero.symm
  | yield => exact (processYield_keeps s).ticks.trans hzero.symm
  | sleep ms =>
    refine Eq.trans ?_ hzero.symm
    simp only [perform, processSleep]
    split
    · rfl
    · exact (schedule_keeps _).ticks
  | exit code =>
    refine Eq.trans ?_ hzero.symm
    unfold perform processExit
    dsimp only
    split
    · rfl
    · rename_i c _
      split
      · rfl
      · exact (schedule_keeps (s.put c
          { s.processTable c with exitCode := code, state := .terminated })).ticks
  | tick =>
    rw [Op.ticks]
    exact (timerCallback_keeps s).ticks
  | enablePreemption => exact hzero.symm
  | disablePreemption => exact hzero.symm

/-- **Step lemma**: no operation wakes a process before it is due. -/
theorem Asleep.perform {d : Nat} (hs : Asleep s p d) (h : Inv s c q) (hp : p ≠ 0)
    (env : ProcEnv σ) (k : σ) (o : Op) (hd : s.ticks + o.ticks < d) (hlt : d < 2 ^ 32) :
    Asleep (perform env k s o).2.1 p d := by
  have hpc := hs.ne_current h
  have hticks : s.ticks < d := by omega
  cases o with
  | create name entry => exact hs.create env k name entry
  | yield => exact hs.yield h hp hticks
  | sleep ms =>
    simp only [Process.perform, processSleep]
    rw [h.current]
    obtain ⟨hpre, -⟩ := @Inv.leave s c q h
      { s.processTable c with sleepUntil := add32 s.ticks (sleepTicks ms), state := .sleeping }
      rfl rfl rfl (by simp) (by simp) (by simp)
    exact (hs.put hpc _).schedule hpre hp hticks
  | exit code =>
    unfold Process.perform processExit
    rw [h.current]
    dsimp only
    split
    · exact hs
    · rename_i hpid
      obtain ⟨hpre, -⟩ := @Inv.leave s c q h
        { s.processTable c with exitCode := code, state := .terminated }
        rfl rfl rfl (by simp) (by simp) (fun h0 => absurd (h0 ▸ h.idlePid) hpid)
      have hs' := hs.put hpc { s.processTable c with exitCode := code, state := .terminated }
      exact hs'.schedule hpre hp hticks
  | tick =>
    have hd' : s.ticks + 1 < d := hd
    obtain ⟨n, hcases⟩ := timerCallback_cases s
    have hs' : Asleep { s with ticks := add32 s.ticks 1, sliceRemaining := n } p d := hs
    have hinv : Inv { s with ticks := add32 s.ticks 1, sliceRemaining := n } c q :=
      h.congr rfl rfl rfl rfl
    simp only [Process.perform]
    rcases hcases with heq | ⟨-, -, heq⟩
    · rw [heq]
      exact hs'
    · rw [heq]
      have hnow : add32 s.ticks 1 < d := by
        rw [add32_of_lt (by omega)]
        exact hd'
      exact hs'.yield hinv hp hnow
  | enablePreemption => exact hs
  | disablePreemption => exact hs

/-! ## 4. Runs with their ticks counted -/

/-- A run in which `n` ticks occur. -/
inductive TickRun (env : ProcEnv σ) (t : σ × Sched) : Nat → σ × Sched → Prop
  | refl : TickRun env t 0 t
  | op {n : Nat} {k : σ} {s : Sched} (o : Op) (h : TickRun env t n (k, s)) :
      TickRun env t (n + o.ticks) ((perform env k s o).1, (perform env k s o).2.1)
  | work {n : Nat} {k : σ} {s : Sched} (k' : σ) (mem : Mem) (h : TickRun env t n (k, s)) :
      TickRun env t n (k', { s with mem := mem })

variable {env : ProcEnv σ} {t t' : σ × Sched} {n d : Nat}

theorem TickRun.steps (h : TickRun env t n t') : Relation.ReflTransGen (Step env) t t' := by
  induction h with
  | refl => exact .refl
  | op o _ ih => exact ih.tail (.op _ _ o)
  | work k' mem _ ih => exact ih.tail (.work _ k' _ mem)

/-- The counter after `n` ticks. -/
theorem TickRun.ticks (h : TickRun env t n t') (ht : t.2.ticks < 2 ^ 32) :
    t'.2.ticks = add32 t.2.ticks n := by
  induction h with
  | refl => exact ((add32_of_lt ht).trans (Nat.add_zero _)).symm
  | @op n k s o h' ih =>
    have hs : s.ticks = add32 t.2.ticks n := ih
    dsimp only
    rw [perform_ticks env k s (hs ▸ add32_lt _ _), hs]
    unfold add32
    omega
  | work k' mem _ ih => exact ih

/-- **Run lemma**: a process that is not due sleeps through the run. -/
theorem Asleep.run (h : TickRun env t n t') (hinv : ∃ c q, Inv t.2 c q) (hp : p ≠ 0)
    (hlt : d < 2 ^ 32) (hs : Asleep t.2 p d) (hd : t.2.ticks + n < d) : Asleep t'.2 p d := by
  induction h with
  | refl => exact hs
  | @op n k s o h' ih =>
    obtain ⟨c, q, hi⟩ := (run_inv h'.steps hinv).1
    have hticks : s.ticks = t.2.ticks + n :=
      (h'.ticks (by omega)).trans (add32_of_lt (by omega))
    have hd' : s.ticks + o.ticks < d := by omega
    exact (ih (by omega)).perform hi hp env k o hd' hlt
  | work k' mem _ ih => exact ih hd

/-- The next `n` ticks. -/
theorem exists_ticks (env : ProcEnv σ) (n : Nat) (t : σ × Sched) : ∃ t', TickRun env t n t' := by
  induction n with
  | zero => exact ⟨t, .refl⟩
  | succ n ih =>
    obtain ⟨t', h⟩ := ih
    exact ⟨_, h.op .tick⟩

/-- The tick counter is a 32-bit number. -/
theorem ticks_lt (hrun : Relation.ReflTransGen (Step env) t t') (ht : t.2.ticks < 2 ^ 32) :
    t'.2.ticks < 2 ^ 32 := by
  induction hrun with
  | refl => exact ht
  | tail _ hstep ih =>
    cases hstep with
    | op k s o =>
      dsimp only
      rw [perform_ticks env k s ih]
      exact add32_lt _ _
    | work => exact ih

/-! ## 5. Waiting -/

/-- `timer_wait` with the deadline `deadline`: it returns in `t'`, `n` ticks after `t`.  Between
two looks at the counter anything may happen. -/
inductive TimerWait (env : ProcEnv σ) (deadline : Nat) : Nat → σ × Sched → σ × Sched → Prop
  | done (t : σ × Sched) (h : ¬ t.2.ticks < deadline) : TimerWait env deadline 0 t t
  | halt {n m : Nat} {t t₁ t' : σ × Sched} (h : t.2.ticks < deadline) (hrun : TickRun env t n t₁)
      (hrest : TimerWait env deadline m t₁ t') : TimerWait env deadline (n + m) t t'

/-- `timer_wait(wait)` does not return before `wait` ticks have occurred. -/
def WaitsOut (env : ProcEnv σ) (t : σ × Sched) (wait : Nat) : Prop :=
  ∀ n t', TimerWait env (add32 t.2.ticks wait) n t t' → wait ≤ n

/-- The process `c` that calls `process_sleep(ms)` sleeps for the ticks of `ms` milliseconds, and
for one at least. -/
def SleepsOut (env : ProcEnv σ) (t : σ × Sched) (c : Slot) (ms : Nat) : Prop :=
  ∀ n t', n < max 1 (ms / 10) → TickRun env (t.1, (processSleep t.2 ms).1) n t' →
    t'.2.stateOf c = .sleeping

/-- The counter has reached the deadline when `timer_wait` returns. -/
theorem TimerWait.ticks {deadline : Nat} (h : TimerWait env deadline n t t')
    (ht : t.2.ticks < 2 ^ 32) : deadline ≤ add32 t.2.ticks n := by
  induction h with
  | done t h =>
    rw [add32_of_lt (by omega)]
    omega
  | @halt n m t t₁ t' h hrun hrest ih =>
    have hticks := hrun.ticks ht
    have := ih (hticks ▸ add32_lt _ _)
    rw [hticks] at this
    refine this.trans_eq ?_
    unfold add32
    omega

theorem waitsOut_iff (ht : t.2.ticks < 2 ^ 32) {wait : Nat} (hw : wait < 2 ^ 32) :
    WaitsOut env t wait ↔ t.2.ticks + wait < 2 ^ 32 := by
  constructor
  · intro h
    by_contra hwrap
    -- the deadline has wrapped below the counter: the first look ends the wait
    have hdue : ¬ t.2.ticks < add32 t.2.ticks wait := by
      unfold add32
      omega
    have := h 0 t (.done t hdue)
    omega
  · intro hfit n t' h
    have := h.ticks ht
    rw [add32_of_lt hfit] at this
    unfold add32 at this
    have hmod := Nat.mod_le (t.2.ticks + n) (2 ^ 32)
    omega

/-- The product has not wrapped. -/
theorem sleepTicks_eq {ms : Nat} (h : ms * 100 < 2 ^ 32) : sleepTicks ms = max 1 (ms / 10) := by
  unfold sleepTicks
  rw [Nat.mod_eq_of_lt h]
  dsimp only
  split <;> omega

/-- It has, and the time has become shorter. -/
theorem sleepTicks_lt {ms : Nat} (h : 2 ^ 32 ≤ ms * 100) : sleepTicks ms < ms / 10 := by
  have hdiv := Nat.div_add_mod (ms * 100) (2 ^ 32)
  have hpos : 1 ≤ ms * 100 / 2 ^ 32 := (Nat.one_le_div_iff (by decide)).mpr h
  unfold sleepTicks
  dsimp only
  split <;> omega

theorem sleepTicks_pos (ms : Nat) : 1 ≤ sleepTicks ms := by
  unfold sleepTicks
  dsimp only
  split <;> omega

theorem sleepTicks_le (ms : Nat) : sleepTicks ms ≤ 2 ^ 32 := by
  have := Nat.mod_lt (ms * 100) (show 0 < 2 ^ 32 by decide)
  unfold sleepTicks
  dsimp only
  split <;> omega

/-- Right after the call: asleep, unless the deadline is due already. -/
theorem processSleep_sleeping (h : Inv s c q) (hc : c ≠ 0) (ms : Nat) :
    ((processSleep s ms).1.stateOf c = .sleeping ↔ s.ticks < add32 s.ticks (sleepTicks ms)) ∧
      ((processSleep s ms).1.processTable c).sleepUntil = add32 s.ticks (sleepTicks ms) ∧
      (processSleep s ms).1.ticks = s.ticks := by
  obtain ⟨hpre, -⟩ := @Inv.leave s c q h
    { s.processTable c with sleepUntil := add32 s.ticks (sleepTicks ms), state := .sleeping }
    rfl rfl rfl (by simp) (by simp) (by simp)
  unfold processSleep
  rw [h.current]
  dsimp only
  refine ⟨?_, ?_, (schedule_keeps _).ticks⟩
  · rw [schedule_sleeping hpre hc, stateOf_put, put_processTable, if_pos rfl, if_pos rfl]
    exact and_iff_right rfl
  · rw [(schedule_keeps _).sleepUntil, put_processTable, if_pos rfl]

/-- A sleeper that is due does not survive the next pass of the scheduler. -/
theorem processYield_due (h : Inv s c q) (hp : p ≠ 0)
    (hdue : (s.processTable p).sleepUntil ≤ s.ticks) :
    (processYield s).1.stateOf p ≠ .sleeping := by
  unfold processYield
  rw [h.current]
  dsimp only
  split
  · rw [Ne, schedule_sleeping (h.toPre.enqueue h.notQueued) hp]
    have hk := (setState_keeps s c .ready).trans (schedulerAdd_keeps _ c)
    rw [hk.sleepUntil, hk.ticks]
    omega
  · rw [Ne, schedule_sleeping h.toPre hp]
    omega

theorem sleepsOut_iff (h : Inv t.2 c q) (hc : c ≠ 0) (ht : t.2.ticks < 2 ^ 32) (ms : Nat) :
    SleepsOut env t c ms ↔ ms * 100 < 2 ^ 32 ∧ t.2.ticks + max 1 (ms / 10) < 2 ^ 32 := by
  obtain ⟨hasleep, huntil, hticks⟩ := processSleep_sleeping h hc ms
  obtain ⟨next, q', hinv, -⟩ := (processSleep_performed h ms).inv
  have hpos := sleepTicks_pos ms
  have hle := sleepTicks_le ms
  constructor
  · intro hout
    -- the deadline itself has not wrapped, or the call would not have put `c` to sleep
    have hfit : t.2.ticks + sleepTicks ms < 2 ^ 32 := by
      have hnow := hasleep.mp (hout 0 _ (by omega) .refl)
      unfold add32 at hnow
      omega
    have hms : ms * 100 < 2 ^ 32 := by
      by_contra hwrap
      have hshort := sleepTicks_lt (Nat.le_of_not_lt hwrap)
      rw [add32_of_lt hfit] at huntil
      -- all but one of the ticks the code waits for, then that one, then a pass of the scheduler
      obtain ⟨t₁, hrun⟩ := exists_ticks env (sleepTicks ms - 1) (t.1, (processSleep t.2 ms).1)
      have hs₀ : Asleep (processSleep t.2 ms).1 c (t.2.ticks + sleepTicks ms) :=
        ⟨hout 0 _ (by omega) .refl, huntil⟩
      have hs₁ := hs₀.run hrun ⟨next, q', hinv⟩ hc hfit (by dsimp only; omega)
      have hrun₂ : TickRun env (t.1, (processSleep t.2 ms).1) (sleepTicks ms - 1 + 1)
          (t₁.1, (timerCallback t₁.2).1) := hrun.op .tick
      obtain ⟨c₂, q₂, hinv₂⟩ := (run_inv hrun₂.steps ⟨next, q', hinv⟩).1
      have hticks₂ := hrun₂.ticks (by dsimp only; omega)
      dsimp only at hinv₂ hticks₂
      rw [hticks, add32_of_lt (by omega)] at hticks₂
      have hn : sleepTicks ms - 1 + 1 + Op.ticks .yield < max 1 (ms / 10) := by
        have : Op.ticks .yield = 0 := rfl
        omega
      have hend := hout _ _ hn (hrun₂.op .yield)
      refine processYield_due hinv₂ hc ?_ hend
      rw [(timerCallback_keeps t₁.2).sleepUntil]
      exact hs₁.2.trans_le (by omega)
    exact ⟨hms, sleepTicks_eq hms ▸ hfit⟩
  · rintro ⟨hms, hfit⟩ n t' hn hrun
    rw [← sleepTicks_eq hms] at hn hfit
    rw [add32_of_lt hfit] at hasleep huntil
    have hs₀ : Asleep (processSleep t.2 ms).1 c (t.2.ticks + sleepTicks ms) :=
      ⟨hasleep.mpr (by omega), huntil⟩
    exact (hs₀.run hrun ⟨next, q', hinv⟩ hc hfit (by dsimp only; omega)).1

/-- **Waiting is never cut short** exactly when nothing wraps: for `process_sleep(ms)` neither
`ms * 100` nor the deadline, for `timer_wait(wait)` the deadline. -/
theorem waiting_iff (env : ProcEnv σ) (k : σ) (kernelPd : Nat) (mem : Mem) {t : σ × Sched}
    (hrun : Relation.ReflTransGen (Step env) (bootProcesses env k kernelPd mem) t) :
    (∀ c, t.2.currentProcess = some c → c ≠ 0 → ∀ ms < 2 ^ 32,
      (SleepsOut env t c ms ↔ ms * 100 < 2 ^ 32 ∧ t.2.ticks + max 1 (ms / 10) < 2 ^ 32)) ∧
      ∀ wait < 2 ^ 32, (WaitsOut env t wait ↔ t.2.ticks + wait < 2 ^ 32) := by
  obtain ⟨c', q, hinv⟩ := (run_inv hrun ⟨0, [], bootProcesses_inv env k kernelPd mem⟩).1
  have ht : t.2.ticks < 2 ^ 32 := ticks_lt hrun (Nat.two_pow_pos 32)
  refine ⟨fun c hc hc0 ms _ => ?_, fun wait hw => waitsOut_iff ht hw⟩
  obtain rfl : c' = c := Option.some.inj (hinv.current.symm.trans hc)
  exact sleepsOut_iff hinv hc0 ht ms

/-- A created process that sleeps for a second, and the boot context that waits for five ticks. -/
theorem waiting_iff_second :
    let t := runOps fixedEnv (bootProcesses fixedEnv () 0x200000 fun _ => 0)
      [.create [112] 0x100300, .yield]
    SleepsOut fixedEnv t 1 1000 ∧ WaitsOut fixedEnv t 5 := by
  intro t
  have hticks : t.2.ticks = 0 := by decide +kernel
  obtain ⟨hsleep, hwait⟩ := waiting_iff fixedEnv () 0x200000 (fun _ => 0)
    (runOps_steps fixedEnv _ [.create [112] 0x100300, .yield])
  refine ⟨(hsleep 1 (by decide +kernel) (by decide) 1000 (by decide)).mpr ⟨by decide, ?_⟩,
    (hwait 5 (by decide)).mpr ?_⟩
  · exact hticks.symm ▸ (by decide)
  · exact hticks.symm ▸ (by decide)

/-- `process_sleep(42949673)`, twelve hours, has wrapped to one tick: the process is ready after
the next one. -/
theorem sleep_cut_short :
    let t := runOps fixedEnv (bootProcesses fixedEnv () 0x200000 fun _ => 0)
      [.create [112] 0x100300, .yield]
    t.2.currentProcess = some 1 ∧ 1 < max 1 (42949673 / 10) ∧
      (runOps fixedEnv t [.sleep 42949673, .tick, .yield]).2.stateOf 1 = .ready := by
  decide +kernel

end FlowOS.Process
