/-
# Nobody starves

The scheduler as a round (`Rotation`): the current process and the ready queue.  An operation either
leaves the current process and appends to the queue, or it calls `schedule`, once, and the head of
the queue follows; the sleepers that are due have been appended before that.  So the round is
simulated, and what is known about rounds holds for whole runs of the kernel: a ready process with
`n` others before it runs after `n + 1` calls of `schedule`, no matter what the processes do in
between.

With preemption the calls come by themselves, one in ten ticks at the latest, so the bound is one on
time as well.  It needs a current process that is marked as running, which excludes the boot context
before its first switch, and that nobody turns preemption on anew, which starts the slice again.
-/
import FlowOS.Process.Timing
import FlowOS.Lib.Rotation
import Mathlib.Data.Fintype.Card
import Mathlib.Data.Finset.Card

namespace FlowOS.Process

open Word Fifo

variable {σ : Type} {s s' : Sched} {c p : Slot} {q : List Slot}

/-! ## 1. Which operations call `schedule` -/

/-- Does the operation call `schedule`? -/
def Sched.calls (s : Sched) : Op → Bool
  | .yield => true
  | .sleep _ => s.currentProcess.isSome
  | .exit _ => s.currentProcess.any fun c => (s.processTable c).pid ≠ 0
  | .tick => s.preemptionEnabled && decide (s.sliceRemaining ≤ 1) &&
      s.currentProcess.any fun c => (s.processTable c).state = .running
  | .create _ _ | .enablePreemption | .disablePreemption => false

/-- The sleepers that are due, `p = 0` aside, which is not woken to wait for its turn. -/
def Due (s : Sched) (t : Nat) (p : Slot) : Prop :=
  p ≠ 0 ∧ s.stateOf p = .sleeping ∧ (s.processTable p).sleepUntil ≤ t

/-- **A call of `schedule`**: the sleepers that are due are appended, and the head of the queue
follows, or the idle process when there is none.  Who is neither queued nor followed is left as it
was. -/
theorem schedule_turn (h : Pre s c q) (hrun : ∀ p, s.stateOf p ≠ .running) :
    ∃ w next q', Inv (schedule s).1 next q' ∧ (schedule s).1.stateOf next = .running ∧
      (q ++ w = next :: q' ∨ (q ++ w = [] ∧ q' = [])) ∧ (∀ p, Due s s.ticks p → p ∈ w) ∧
      ∀ p, p ≠ 0 → p ≠ next → p ∉ q' → (schedule s).1.stateOf p = s.stateOf p := by
  obtain ⟨w, hw, -, hwoken⟩ := wakeSleepingProcesses_pre h
  have hrun' : ∀ p, (wakeSleepingProcesses s).stateOf p ≠ .running := by
    intro p hp
    rcases hwoken p with he | ⟨-, hr⟩
    · exact hrun p (he.symm.trans hp)
    · rw [hr] at hp
      cases hp
  have hdue : ∀ p, Due s s.ticks p → p ∈ w := by
    rintro p ⟨hp0, hsleep, huntil⟩
    have hready : (wakeSleepingProcesses s).stateOf p = .ready := by
      rcases hwoken p with he | ⟨-, hr⟩
      · have hstill := (wakeSleepingProcesses_sleeping s p).mp (he.trans hsleep)
        omega
      · exact hr
    refine (List.mem_append.mp (hw.queued p hp0 hready)).resolve_left fun hq => ?_
    rw [h.ready p hq] at hsleep
    cases hsleep
  have hsame : ∀ p, p ≠ 0 → p ∉ q ++ w → (wakeSleepingProcesses s).stateOf p = s.stateOf p := by
    intro p hp0 hp
    rcases hwoken p with he | ⟨-, hr⟩
    · exact he
    · exact absurd (hw.queued p hp0 hr) hp
  unfold schedule
  rw [h.current]
  generalize wakeSleepingProcesses s = s₁ at hw hrun' hsame
  dsimp only
  generalize hq₁ : q ++ w = q₁ at hw hsame
  cases q₁ with
  | nil =>
    rw [show s₁.readyQueueHead = none from hw.queue.head_none_iff.mpr rfl]
    have hch := hw.chosen_idle
    have hs := hch.scheduled hrun'
    refine ⟨w, 0, [], hs.inv, hs.runs, Or.inr ⟨hq₁, rfl⟩, hdue, fun p hp0 hpn hpq => ?_⟩
    dsimp only
    rw [(@switchTo_switched s₁ c 0 hch.current hch.pd).state, if_neg hpn]
    exact hsame p hp0 hpq
  | cons next q' =>
    rw [show s₁.readyQueueHead = some next from hw.queue.head]
    have hch := hw.chosen_head
    have hs := hch.scheduled fun p => by
      rw [stateOf_takeHead]
      exact hrun' p
    refine ⟨w, next, q', hs.inv, hs.runs, Or.inl hq₁, hdue, fun p hp0 hpn hpq => ?_⟩
    dsimp only
    rw [(@switchTo_switched (takeHead s₁ next) c next hch.current hch.pd).state, if_neg hpn,
      stateOf_takeHead]
    exact hsame p hp0 fun hmem => (List.mem_cons.mp hmem).elim hpn hpq

/-! ## 2. What one operation does to the round -/

/-- **What an operation does**, when the round is at `(c, q)`: it leaves the process and appends `w`
to the queue, or it is a turn, before which `w` is appended.  The processes it does not touch keep
their states, and a sleeper keeps its deadline. -/
inductive Turned (s : Sched) (c : Slot) (q : List Slot) (s' : Sched) :
    Bool → Slot → List Slot → Prop
  | stays (w : List Slot) (hinv : Inv s' c (q ++ w))
      (hsame : ∀ p, p ∉ w → s'.stateOf p = s.stateOf p)
      (huntil : ∀ p, s.stateOf p = .sleeping →
        (s'.processTable p).sleepUntil = (s.processTable p).sleepUntil) :
      Turned s c q s' false c (q ++ w)
  | turns {next : Slot} {w q' : List Slot} (hinv : Inv s' next q')
      (hruns : s'.stateOf next = .running)
      (hqueue : q ++ w = next :: q' ∨ (q ++ w = [] ∧ q' = []))
      (hdue : ∀ p, p ≠ c → Due s s'.ticks p → p ∈ w)
      (hsame : ∀ p, p ≠ 0 → p ≠ c → p ≠ next → p ∉ q' → s'.stateOf p = s.stateOf p)
      (huntil : ∀ p, p ≠ c → (s'.processTable p).sleepUntil = (s.processTable p).sleepUntil) :
      Turned s c q s' true next q'

theorem Turned.inv {b : Bool} {c' : Slot} {q' : List Slot} (h : Turned s c q s' b c' q') :
    Inv s' c' q' := by
  cases h with
  | stays _ hinv => exact hinv
  | turns hinv => exact hinv

/-- It is a step of the round. -/
theorem Turned.step {b : Bool} {c' : Slot} {q' : List Slot} (h : Turned s c q s' b c' q') :
    Rotation.Step (c, q) b (c', q') := by
  cases h with
  | stays w => exact .stay c q w
  | @turns next w q' _ _ hqueue =>
    rcases hqueue with hq | ⟨hq, rfl⟩
    · exact .turn hq
    · rw [(List.append_eq_nil_iff.mp hq).1]
      exact .idle c _

/-- A call of `schedule` in a state `s₁` that the operation has made of `s`, with `a` appended to
the queue. -/
theorem Turned.of_schedule {s₁ : Sched} {a : List Slot} (hpre : Pre s₁ c (q ++ a))
    (hrun : ∀ p, s₁.stateOf p ≠ .running)
    (hsame : ∀ p, p ≠ c → s₁.stateOf p = s.stateOf p ∧
      (s₁.processTable p).sleepUntil = (s.processTable p).sleepUntil) :
    ∃ c' q', Turned s c q (schedule s₁).1 true c' q' := by
  obtain ⟨w, next, q', hinv, hruns, hqueue, hdue, hkept⟩ := schedule_turn hpre hrun
  rw [List.append_assoc] at hqueue
  have hk := schedule_keeps s₁
  refine ⟨next, q', .turns hinv hruns hqueue (fun p hpc hp => ?_) (fun p hp0 hpc hpn hpq => ?_)
    fun p hpc => ?_⟩
  · obtain ⟨hstate, huntil⟩ := hsame p hpc
    rw [hk.ticks] at hp
    exact List.mem_append_right _
      (hdue p ⟨hp.1, hstate.trans hp.2.1, huntil.trans_le hp.2.2⟩)
  · exact (hkept p hp0 hpn hpq).trans (hsame p hpc).1
  · exact (hk.sleepUntil p).trans (hsame p hpc).2

theorem processYield_turned (h : Inv s c q) :
    ∃ c' q', Turned s c q (processYield s).1 true c' q' := by
  unfold processYield
  rw [h.current]
  dsimp only
  split
  · have hk := (setState_keeps s c .ready).trans (schedulerAdd_keeps (setState s c .ready) c)
    refine Turned.of_schedule (h.toPre.enqueue h.notQueued) (fun p hp => ?_)
      fun p hpc => ⟨?_, hk.sleepUntil p⟩
    · rw [stateOf_schedulerAdd, stateOf_setState] at hp
      split at hp
      · cases hp
      · rename_i hpc
        exact hpc (h.running p hp)
    · rw [stateOf_schedulerAdd, stateOf_setState, if_neg hpc]
  · -- the boot process, which is not marked as running yet
    rename_i hnr
    have hpre : Pre s c (q ++ []) := by
      rw [List.append_nil]
      exact h.toPre
    exact Turned.of_schedule hpre (fun p hp => hnr (h.running p hp ▸ hp)) fun p _ => ⟨rfl, rfl⟩

/-- The current process leaves, in a state that is neither ready nor running, and calls
`schedule`. -/
theorem put_turned (h : Inv s c q) (proc : Process)
    (hnext : proc.next = (s.processTable c).next) (hpid : proc.pid = (s.processTable c).pid)
    (hdir : proc.pageDirectory = (s.processTable c).pageDirectory)
    (hready : proc.state ≠ .ready) (hrunning : proc.state ≠ .running)
    (halive : c = 0 → proc.state ≠ .unused ∧ proc.state ≠ .terminated) :
    ∃ c' q', Turned s c q (schedule (s.put c proc)).1 true c' q' := by
  obtain ⟨hpre, hrun⟩ := h.leave hnext hpid hdir hready hrunning halive
  rw [← List.append_nil q] at hpre
  refine Turned.of_schedule hpre hrun fun p hpc => ?_
  rw [stateOf_put, put_processTable, if_neg hpc, if_neg hpc]
  exact ⟨rfl, rfl⟩

/-- An operation that appends nothing and touches no state and no deadline of a sleeper. -/
theorem Turned.of_same (h : Inv s' c q) (hsame : ∀ p, s'.stateOf p = s.stateOf p)
    (huntil : ∀ p, s.stateOf p = .sleeping →
      (s'.processTable p).sleepUntil = (s.processTable p).sleepUntil) :
    ∃ c' q', Turned s c q s' false c' q' := by
  rw [← List.append_nil q] at h
  exact ⟨c, q ++ [], .stays [] h (fun p _ => hsame p) huntil⟩

theorem processCreate_turned (env : ProcEnv σ) (k : σ) (h : Inv s c q) (name : List UInt8)
    (entry : Nat) :
    ∃ c' q', Turned s c q (processCreate env k s name entry).2.2 false c' q' := by
  have hne : ∀ {x p}, s.stateOf p = .unused → s.stateOf x = .sleeping → x ≠ p := by
    rintro x _ hp hx rfl
    rw [hp] at hx
    cases hx
  have hcases := processCreate_cases env k s name entry
  generalize processCreate env k s name entry = r at hcases
  cases hcases with
  | full => exact Turned.of_same h (fun _ => rfl) fun _ _ => rfl
  | failed p k' proc hp0 hp hproc =>
    obtain ⟨hpc, hpq⟩ := h.fresh hp
    have h1 : Inv { s with nextPid := add32 s.nextPid 1 } c q := h.congr rfl rfl rfl rfl
    refine Turned.of_same (h1.setFresh hp0 hpc hpq (by simp [hproc]) (by simp [hproc]))
      (fun x => ?_) fun x hx => ?_
    · rw [stateOf_put]
      split
      · rename_i hx
        rw [hx, hproc, hp]
      · rfl
    · rw [put_processTable, if_neg (hne hp hx)]
  | ok p k' proc a hp0 hp ha ha0 hproc hstack =>
    refine ⟨c, q ++ [p], .stays [p] (h.create hp0 hp hproc _ _) (fun x hx => ?_) fun x hx => ?_⟩
    · have hxp : x ≠ p := fun hxp => hx (List.mem_singleton.mpr hxp)
      rw [stateOf_schedulerAdd, stateOf_setState, if_neg hxp, stateOf_put, if_neg hxp]
      rfl
    · rw [(schedulerAdd_keeps _ p).sleepUntil, (setState_keeps _ p .ready).sleepUntil,
        put_processTable, if_neg (hne hp hx)]

/-- A tick that does not end the slice. -/
theorem timerCallback_counts (h : ¬(s.preemptionEnabled = true ∧ s.sliceRemaining ≤ 1)) :
    timerCallback s = ({ s with
      ticks := add32 s.ticks 1
      sliceRemaining :=
        if s.preemptionEnabled then s.sliceRemaining - 1 else s.sliceRemaining }, none) := by
  unfold timerCallback
  dsimp only
  by_cases hp : s.preemptionEnabled = true
  · have hpos : 1 < s.sliceRemaining := Nat.lt_of_not_le fun hle => h ⟨hp, hle⟩
    have hslice : (if 0 < s.sliceRemaining then
        { s with ticks := add32 s.ticks 1, sliceRemaining := s.sliceRemaining - 1 }
        else { s with ticks := add32 s.ticks 1 }) =
          { s with ticks := add32 s.ticks 1, sliceRemaining := s.sliceRemaining - 1 } :=
      if_pos (by omega)
    have hleft : ¬ s.sliceRemaining - 1 = 0 := by omega
    rw [hslice, if_pos hp, if_neg hleft, if_pos hp]
  · rw [if_neg hp, if_neg hp]

theorem timerCallback_turned (h : Inv s c q) :
    ∃ c' q', Turned s c q (timerCallback s).1 (s.calls .tick) c' q' := by
  have hslice : ∀ n, Inv { s with ticks := add32 s.ticks 1, sliceRemaining := n } c q :=
    fun n => h.congr rfl rfl rfl rfl
  by_cases hend : s.preemptionEnabled = true ∧ s.sliceRemaining ≤ 1
  · have htick := timerCallback_slice hend.1 hend.2 h.current
    by_cases hr : s.stateOf c = .running
    · have hcalls : s.calls .tick = true := by
        have hr' : (s.processTable c).state = .running := hr
        simp [Sched.calls, hend, h.current, hr']
      rw [htick, if_pos hr, hcalls]
      obtain ⟨c', q', ht⟩ := processYield_turned (hslice s.timeSlice)
      refine ⟨c', q', ?_⟩
      cases ht with
      | turns hinv hruns hqueue hdue hsame huntil =>
        exact .turns hinv hruns hqueue hdue hsame huntil
    · have hcalls : s.calls .tick = false := by
        have hr' : ¬ (s.processTable c).state = .running := hr
        simp [Sched.calls, h.current, hr']
      rw [htick, if_neg hr, hcalls]
      exact Turned.of_same (hslice s.timeSlice) (fun _ => rfl) fun _ _ => rfl
  · have hcalls : s.calls .tick = false := by
      rcases not_and_or.mp hend with he | he
      · simp [Sched.calls, he]
      · simp [Sched.calls, he]
    rw [hcalls]
    rw [timerCallback_counts hend]
    exact Turned.of_same (hslice _) (fun _ => rfl) fun _ _ => rfl

/-- **Step lemma.** -/
theorem perform_turned (env : ProcEnv σ) (k : σ) (h : Inv s c q) (o : Op) :
    ∃ c' q', Turned s c q (perform env k s o).2.1 (s.calls o) c' q' := by
  cases o with
  | create name entry => exact processCreate_turned env k h name entry
  | yield => exact processYield_turned h
  | sleep ms =>
    have hcalls : s.calls (.sleep ms) = true := by simp [Sched.calls, h.current]
    rw [hcalls]
    unfold perform processSleep
    rw [h.current]
    dsimp only
    exact put_turned h { s.processTable c with
      sleepUntil := add32 s.ticks (sleepTicks ms), state := .sleeping }
      rfl rfl rfl (by simp) (by simp) (by simp)
  | exit code =>
    unfold perform processExit
    rw [h.current]
    dsimp only
    split
    · rename_i hpid
      have hcalls : s.calls (.exit code) = false := by simp [Sched.calls, h.current, hpid]
      rw [hcalls]
      exact Turned.of_same h (fun _ => rfl) fun _ _ => rfl
    · rename_i hpid
      have hcalls : s.calls (.exit code) = true := by simp [Sched.calls, h.current, hpid]
      have hc0 : c ≠ 0 := by
        rintro rfl
        exact hpid h.idlePid
      rw [hcalls]
      exact put_turned h { s.processTable c with exitCode := code, state := .terminated }
        rfl rfl rfl (by simp) (by simp) fun h0 => absurd h0 hc0
  | tick => exact timerCallback_turned h
  | enablePreemption =>
    have hinv : Inv (timerEnablePreemption s) c q := h.congr rfl rfl rfl rfl
    exact Turned.of_same hinv (fun _ => rfl) fun _ _ => rfl
  | disablePreemption =>
    have hinv : Inv (timerDisablePreemption s) c q := h.congr rfl rfl rfl rfl
    exact Turned.of_same hinv (fun _ => rfl) fun _ _ => rfl

/-! ## 3. Runs with their events -/

/-- What happens at a step: whether `schedule` is called, and by which operation; `none` is other
work of the current process. -/
structure Event where
  calls : Bool
  op : Option Op

/-- The event is a tick of the timer. -/
def Event.tick (e : Event) : Bool :=
  match e.op with
  | some .tick => true
  | _ => false

/-- The event turns preemption on or off. -/
def Event.sets (e : Event) : Bool :=
  match e.op with
  | some .enablePreemption | some .disablePreemption => true
  | _ => false

/-- One step of the system, with its event. -/
inductive Happens (env : ProcEnv σ) : σ × Sched → Event → σ × Sched → Prop
  | op (k : σ) (s : Sched) (o : Op) :
      Happens env (k, s) ⟨s.calls o, some o⟩ ((perform env k s o).1, (perform env k s o).2.1)
  | work (k k' : σ) (s : Sched) (mem : Mem) :
      Happens env (k, s) ⟨false, none⟩ (k', { s with mem := mem })

variable {env : ProcEnv σ} {t t' : σ × Sched} {e : Event} {ls : List Event} {d : Nat}

/-- Every step of the system has an event. -/
theorem step_iff_happens : Step env t t' ↔ ∃ e, Happens env t e t' := by
  constructor
  · rintro (⟨k, s, o⟩ | ⟨k, k', s, mem⟩)
    · exact ⟨_, .op k s o⟩
    · exact ⟨_, .work k k' s mem⟩
  · rintro ⟨e, ⟨k, s, o⟩ | ⟨k, k', s, mem⟩⟩
    · exact .op k s o
    · exact .work k k' s mem

theorem Happens.turned (h : Happens env t e t') (hinv : Inv t.2 c q) :
    ∃ c' q', Turned t.2 c q t'.2 e.calls c' q' := by
  cases h with
  | op k s o => exact perform_turned env k hinv o
  | work k k' s mem =>
    have hinv' : Inv { s with mem := mem } c q := hinv.congr rfl rfl rfl rfl
    exact Turned.of_same hinv' (fun _ => rfl) fun _ _ => rfl

/-- **The kernel simulates the round.** -/
theorem Happens.simulates {x : Slot × List Slot} (hinv : Inv t.2 x.1 x.2)
    (h : Happens env t e t') :
    ∃ x' : Slot × List Slot, Inv t'.2 x'.1 x'.2 ∧ Rotation.Step x e.calls x' := by
  obtain ⟨c', q', ht⟩ := h.turned hinv
  exact ⟨(c', q'), ht.inv, ht.step⟩

/-- The events of a run that is computed. -/
def eventsOf (env : ProcEnv σ) : σ × Sched → List Op → List Event
  | _, [] => []
  | t, o :: ops =>
    ⟨t.2.calls o, some o⟩ ::
      eventsOf env ((perform env t.1 t.2 o).1, (perform env t.1 t.2 o).2.1) ops

theorem runOps_happens (env : ProcEnv σ) (t : σ × Sched) (ops : List Op) :
    Rotation.Run (Happens env) t (eventsOf env t ops) (runOps env t ops) := by
  induction ops generalizing t with
  | nil => exact .refl t
  | cons o ops ih => exact .head (.op t.1 t.2 o) (ih _)

/-! ## 4. Everybody has a turn -/

/-- The current process and the ready queue of a state a run reaches. -/
theorem reachable_inv {k : σ} {kernelPd : Nat} {mem : Mem}
    (hreach : Relation.ReflTransGen (Step env) (bootProcesses env k kernelPd mem) t)
    (hq : Holds t.2.queue q) : ∃ c, Inv t.2 c q := by
  obtain ⟨c, q', hinv⟩ := (run_inv hreach ⟨0, [], bootProcesses_inv env k kernelPd mem⟩).1
  obtain rfl := hinv.queue.unique hq
  exact ⟨c, hinv⟩

/-- **First come, first served**, from every state the kernel reaches: in whatever way it goes on,
a ready process with the processes `pre` before it waits behind the rest of them after each call of
`schedule`, and is the current process after the call number `pre.length + 1`. -/
theorem ready_served (env : ProcEnv σ) (k : σ) (kernelPd : Nat) (mem : Mem) {t t' : σ × Sched}
    (hreach : Relation.ReflTransGen (Step env) (bootProcesses env k kernelPd mem) t)
    {pre post : List Slot} {p : Slot} (hq : Holds t.2.queue (pre ++ p :: post))
    {ls : List Event} (hrun : Rotation.Run (Happens env) t ls t') :
    (ls.countP Event.calls ≤ pre.length →
      ∃ post', Holds t'.2.queue (pre.drop (ls.countP Event.calls) ++ p :: post')) ∧
    (pre.length < ls.countP Event.calls →
      ∃ ls₁, ls₁.countP Event.calls = pre.length + 1 ∧
        Rotation.Passes (Happens env) t ls t' ls₁ fun t₁ => t₁.2.currentProcess = some p) := by
  obtain ⟨c, hinv⟩ := reachable_inv hreach hq
  constructor
  · intro hn
    obtain ⟨c', post', h⟩ := hrun.behind (R := fun t x => Inv t.2 x.1 x.2) Happens.simulates hinv hn
    exact ⟨post', h.queue⟩
  · intro hn
    obtain ⟨ls₁, hls, t₁, ls₂, hsplit, h₁, h₂, q, h⟩ :=
      hrun.served (R := fun t x => Inv t.2 x.1 x.2) Happens.simulates hinv hn
    exact ⟨ls₁, hls, t₁, ls₂, hsplit, h₁, h₂, h.current⟩

/-- Three processes wait; the second of them is the current one after two yields. -/
theorem ready_served_second :
    let boot := bootProcesses fixedEnv () 0x200000 fun _ => 0
    let t := runOps fixedEnv boot
      [.create [112] 0x100300, .create [113] 0x100400, .create [114] 0x100500]
    let ls := eventsOf fixedEnv t [.yield, .tick, .sleep 50, .yield]
    ∃ ls₁, ls₁.countP Event.calls = 2 ∧
      Rotation.Passes (Happens fixedEnv) t ls (runOps fixedEnv t [.yield, .tick, .sleep 50, .yield])
        ls₁ fun t₁ => t₁.2.currentProcess = some 2 := by
  intro boot t ls
  have hreach := runOps_steps fixedEnv boot
    [.create [112] 0x100300, .create [113] 0x100400, .create [114] 0x100500]
  have hq : Holds t.2.queue ([1] ++ 2 :: [3]) :=
    ⟨⟨by decide +kernel, by decide +kernel, by decide +kernel, trivial⟩, by decide +kernel,
      by decide +kernel, by decide +kernel⟩
  exact (ready_served fixedEnv () 0x200000 (fun _ => 0) hreach hq
    (runOps_happens fixedEnv t _)).2 (by decide +kernel)

/-! ## 5. The clock of the slices -/

/-- The variables of the timer that count slices. -/
def Sched.timer (s : Sched) : Bool × Nat × Nat :=
  (s.preemptionEnabled, s.timeSlice, s.sliceRemaining)

theorem put_timer (s : Sched) (p : Slot) (x : Process) : (s.put p x).timer = s.timer := rfl

theorem schedulerAdd_timer (s : Sched) (p : Slot) : (schedulerAdd s p).timer = s.timer := by
  unfold schedulerAdd
  dsimp only
  split <;> rfl

theorem wakeSleepingProcesses_timer (s : Sched) : (wakeSleepingProcesses s).timer = s.timer := by
  have hone : ∀ (t : Nat) (s : Sched) (i : Slot), (wakeOne t s i).timer = s.timer := by
    intro t s i
    unfold wakeOne
    split
    · split
      · exact schedulerAdd_timer _ i
      · rfl
    · rfl
  unfold wakeSleepingProcesses
  generalize s.ticks = t
  generalize List.finRange maxProcesses = slots
  induction slots generalizing s with
  | nil => rfl
  | cons i slots ih => exact (ih _).trans (hone t s i)

theorem switchTo_timer (s : Sched) (prev next : Slot) :
    (switchTo s prev next).1.timer = s.timer := by
  unfold switchTo
  split
  · rfl
  · dsimp only
    split <;> rfl

theorem takeHead_timer (s : Sched) (next : Slot) : (takeHead s next).timer = s.timer := by
  unfold takeHead
  dsimp only
  split <;> rfl

theorem schedule_timer (s : Sched) : (schedule s).1.timer = s.timer := by
  unfold schedule
  split
  · rfl
  · dsimp only
    split
    · rw [switchTo_timer, takeHead_timer, wakeSleepingProcesses_timer]
    · rw [switchTo_timer, wakeSleepingProcesses_timer]

theorem processYield_timer (s : Sched) : (processYield s).1.timer = s.timer := by
  unfold processYield
  split
  · exact schedule_timer s
  · split
    · exact (schedule_timer _).trans (schedulerAdd_timer _ _)
    · exact schedule_timer s

/-- Nothing but a tick and the two switches of preemption touches them. -/
theorem Happens.timer_eq (h : Happens env t e t') (htick : e.tick = false)
    (hsets : e.sets = false) : t'.2.timer = t.2.timer := by
  cases h with
  | work => rfl
  | op k s o =>
    cases o with
    | create name entry =>
      have hcases := processCreate_cases env k s name entry
      unfold perform
      dsimp only
      generalize processCreate env k s name entry = r at hcases ⊢
      cases hcases with
      | full => rfl
      | failed => rfl
      | ok x => exact schedulerAdd_timer _ x
    | yield => exact processYield_timer s
    | sleep ms =>
      unfold perform processSleep
      dsimp only
      split
      · rfl
      · rw [schedule_timer, put_timer]
    | exit code =>
      unfold perform processExit
      dsimp only
      split
      · rfl
      · split
        · rfl
        · rw [schedule_timer, put_timer]
    | tick => cases htick
    | enablePreemption => cases hsets
    | disablePreemption => cases hsets

/-- The slice that is counted down, of ten ticks. -/
structure Slice (s : Sched) : Prop where
  length : s.timeSlice = 10
  pos : s.preemptionEnabled = true → 1 ≤ s.sliceRemaining
  le : s.preemptionEnabled = true → s.sliceRemaining ≤ 10

theorem Slice.of_timer (h : Slice s) (ht : s'.timer = s.timer) : Slice s' := by
  simp only [Sched.timer, Prod.mk.injEq] at ht
  obtain ⟨hp, hl, hr⟩ := ht
  exact ⟨hl.trans h.length, fun hp' => hr ▸ h.pos (hp ▸ hp'), fun hp' => hr ▸ h.le (hp ▸ hp')⟩

/-- A tick that does not yield counts down, or starts a slice that nobody is interrupted at. -/
theorem Slice.tick (h : Slice s) (hinv : Inv s c q) :
    Slice (timerCallback s).1 ∧
      (timerCallback s).1.preemptionEnabled = s.preemptionEnabled ∧
      (s.preemptionEnabled = true → s.stateOf c = .running →
        (timerCallback s).1.sliceRemaining + 1 =
          s.sliceRemaining + 10 * (s.calls .tick).toNat) := by
  by_cases hend : s.preemptionEnabled = true ∧ s.sliceRemaining ≤ 1
  · have hone : s.sliceRemaining = 1 := le_antisymm hend.2 (h.pos hend.1)
    have htimer : (timerCallback s).1.timer = (true, s.timeSlice, s.timeSlice) := by
      rw [timerCallback_slice hend.1 hend.2 hinv.current]
      split
      · rw [processYield_timer]
        simp [Sched.timer, hend.1]
      · simp [Sched.timer, hend.1]
    simp only [Sched.timer, Prod.mk.injEq] at htimer
    obtain ⟨hp, hl, hr⟩ := htimer
    refine ⟨⟨hl.trans h.length, fun _ => ?_, fun _ => ?_⟩, hp.trans hend.1.symm, fun _ hrun => ?_⟩
    · rw [hr, h.length]
      decide
    · rw [hr, h.length]
    · have hrun' : (s.processTable c).state = .running := hrun
      have hcalls : s.calls .tick = true := by simp [Sched.calls, hend, hinv.current, hrun']
      rw [hr, hcalls, h.length, hone]
      rfl
  · have hcalls : s.calls .tick = false := by
      rcases not_and_or.mp hend with he | he
      · simp [Sched.calls, he]
      · simp [Sched.calls, he]
    rw [timerCallback_counts hend, hcalls]
    by_cases hp : s.preemptionEnabled = true
    · have hgt : 1 < s.sliceRemaining := Nat.lt_of_not_le fun hle => hend ⟨hp, hle⟩
      have hle := h.le hp
      rw [if_pos hp]
      refine ⟨⟨h.length, fun _ => ?_, fun _ => ?_⟩, rfl, fun _ _ => ?_⟩
      · exact Nat.le_sub_one_of_lt hgt
      · exact (Nat.sub_le _ _).trans hle
      · exact Nat.sub_add_cancel hgt.le
    · exact ⟨⟨h.length, fun hp' => absurd hp' hp, fun hp' => absurd hp' hp⟩, rfl,
        fun hp' => absurd hp' hp⟩

theorem Happens.slice (h : Happens env t e t') (hinv : Inv t.2 c q) (hs : Slice t.2) :
    Slice t'.2 := by
  by_cases hquiet : e.tick = false ∧ e.sets = false
  · exact hs.of_timer (h.timer_eq hquiet.1 hquiet.2)
  · cases h with
    | work => exact absurd ⟨rfl, rfl⟩ hquiet
    | op k s o =>
      cases o with
      | tick => exact (hs.tick hinv).1
      | enablePreemption =>
        have hten : (timerEnablePreemption s).sliceRemaining = 10 := hs.length
        exact ⟨hs.length, fun _ => hten ▸ (by decide), fun _ => hten.le⟩
      | disablePreemption =>
        have hoff : (timerDisablePreemption s).preemptionEnabled ≠ true := Bool.false_ne_true
        exact ⟨hs.length, fun hp => absurd hp hoff, fun hp => absurd hp hoff⟩
      | _ => exact absurd ⟨rfl, rfl⟩ hquiet

theorem reachable_slice {k : σ} {kernelPd : Nat} {mem : Mem}
    (hreach : Relation.ReflTransGen (Step env) (bootProcesses env k kernelPd mem) t) :
    Slice t.2 := by
  have hoff : (bootProcesses env k kernelPd mem).2.preemptionEnabled ≠ true := Bool.false_ne_true
  have hboot : Slice (bootProcesses env k kernelPd mem).2 :=
    ⟨rfl, fun hp => absurd hp hoff, fun hp => absurd hp hoff⟩
  induction hreach with
  | refl => exact hboot
  | tail hrun hstep ih =>
    obtain ⟨e, he⟩ := step_iff_happens.mp hstep
    obtain ⟨c, q, hinv⟩ := (run_inv hrun ⟨0, [], bootProcesses_inv env k kernelPd mem⟩).1
    exact he.slice hinv ih

/-! ## 6. Everybody has a turn in time -/

/-- **Time is sliced**: preemption is on and the current process, `c`, is marked as running. -/
structure Sliced (s : Sched) (c : Slot) (q : List Slot) : Prop where
  inv : Inv s c q
  running : s.stateOf c = .running
  slice : Slice s
  enabled : s.preemptionEnabled = true

theorem Turned.running {b : Bool} {c' : Slot} {q' : List Slot} (h : Turned s c q s' b c' q')
    (hrun : s.stateOf c = .running) : s'.stateOf c' = .running := by
  cases h with
  | stays w hinv hsame =>
    have hw : c ∉ w := fun hw => hinv.notQueued (List.mem_append_right q hw)
    exact (hsame c hw).trans hrun
  | turns _ hruns => exact hruns

/-- **Step lemma**: nothing but the two switches of preemption ends the slicing, and a tick is
paid for by the slice or by a call of `schedule`. -/
theorem Happens.sliced (h : Happens env t e t') (hs : Sliced t.2 c q) (hsets : e.sets = false) :
    ∃ c' q', Turned t.2 c q t'.2 e.calls c' q' ∧ Sliced t'.2 c' q' ∧
      t'.2.sliceRemaining + e.tick.toNat ≤ t.2.sliceRemaining + 10 * e.calls.toNat := by
  obtain ⟨c', q', hturned⟩ := h.turned hs.inv
  have hslice := h.slice hs.inv hs.slice
  have hclock : t'.2.preemptionEnabled = t.2.preemptionEnabled ∧
      t'.2.sliceRemaining + e.tick.toNat ≤ t.2.sliceRemaining + 10 * e.calls.toNat := by
    cases htick : e.tick with
    | false =>
      have htimer := h.timer_eq htick hsets
      simp only [Sched.timer, Prod.mk.injEq] at htimer
      exact ⟨htimer.1, htimer.2.2.trans_le (Nat.le_add_right _ _)⟩
    | true =>
      cases h with
      | work => cases htick
      | op k s o =>
        cases o with
        | tick =>
          obtain ⟨-, hp, hcount⟩ := hs.slice.tick hs.inv
          exact ⟨hp, (hcount hs.enabled hs.running).le⟩
        | _ => cases htick
  exact ⟨c', q', hturned,
    ⟨hturned.inv, hturned.running hs.running, hslice, hclock.1.trans hs.enabled⟩, hclock.2⟩

/-- **Run lemma**: ten ticks or a call of `schedule`, whatever comes first. -/
theorem Sliced.run (hrun : Rotation.Run (Happens env) t ls t') (hs : Sliced t.2 c q)
    (hsets : ∀ e ∈ ls, e.sets = false) :
    ∃ c' q', Sliced t'.2 c' q' ∧
      t'.2.sliceRemaining + ls.countP Event.tick ≤
        t.2.sliceRemaining + 10 * ls.countP Event.calls := by
  induction hrun generalizing c q with
  | refl => exact ⟨c, q, hs, le_rfl⟩
  | @head t t₁ t' e ls hstep hrun ih =>
    obtain ⟨c₁, q₁, -, hs₁, hclock⟩ := hstep.sliced hs (hsets e List.mem_cons_self)
    obtain ⟨c', q', hs', hcount⟩ := ih hs₁ fun x hx => hsets x (List.mem_cons_of_mem e hx)
    refine ⟨c', q', hs', ?_⟩
    have htick : (e :: ls).countP Event.tick = ls.countP Event.tick + e.tick.toNat := by
      rw [List.countP_cons]
      cases e.tick <;> rfl
    have hcalls : (e :: ls).countP Event.calls = ls.countP Event.calls + e.calls.toNat := by
      rw [List.countP_cons]
      cases e.calls <;> rfl
    omega

/-- Who waits behind `pre` when time is sliced is the current process within ten ticks for each of
those before it and ten more. -/
theorem Sliced.served {pre post : List Slot} (hs : Sliced t.2 c (pre ++ p :: post))
    (hrun : Rotation.Run (Happens env) t ls t') (hsets : ∀ e ∈ ls, e.sets = false)
    (hticks : 10 * (pre.length + 1) ≤ ls.countP Event.tick) :
    ∃ ls₁, Rotation.Passes (Happens env) t ls t' ls₁ fun t₁ => t₁.2.currentProcess = some p := by
  obtain ⟨c', q', hs', hcount⟩ := hs.run hrun hsets
  have hle := hs.slice.le hs.enabled
  have hpos := hs'.slice.pos hs'.enabled
  have hn : pre.length < ls.countP Event.calls := by omega
  obtain ⟨ls₁, -, t₁, ls₂, hsplit, h₁, h₂, q, h⟩ :=
    hrun.served (R := fun t x => Inv t.2 x.1 x.2) Happens.simulates hs.inv hn
  exact ⟨ls₁, t₁, ls₂, hsplit, h₁, h₂, h.current⟩

/-- What a state that a run reaches needs for its time to be sliced. -/
theorem reachable_sliced {k : σ} {kernelPd : Nat} {mem : Mem}
    (hreach : Relation.ReflTransGen (Step env) (bootProcesses env k kernelPd mem) t)
    (hpre : t.2.preemptionEnabled = true) (hboot : ¬ Booting t.2) :
    ∃ c q, Sliced t.2 c q := by
  obtain ⟨c, q, hinv⟩ := (run_inv hreach ⟨0, [], bootProcesses_inv env k kernelPd mem⟩).1
  refine ⟨c, q, hinv, ?_, reachable_slice hreach, hpre⟩
  rcases hinv.currentState with hrun | ⟨rfl, hready⟩
  · exact hrun
  · exact absurd ⟨hinv.current, hready⟩ hboot

/-- **A ready process runs in time**: with preemption on, and when the boot context has been
switched from once, a process with `n` others before it in the queue is the current one within
`10 * (n + 1)` ticks, whatever the processes do, unless they turn preemption on or off. -/
theorem ready_served_in_time (env : ProcEnv σ) (k : σ) (kernelPd : Nat) (mem : Mem)
    {t t' : σ × Sched}
    (hreach : Relation.ReflTransGen (Step env) (bootProcesses env k kernelPd mem) t)
    (hpre : t.2.preemptionEnabled = true) (hboot : ¬ Booting t.2)
    {pre post : List Slot} {p : Slot} (hq : Holds t.2.queue (pre ++ p :: post))
    {ls : List Event} (hrun : Rotation.Run (Happens env) t ls t')
    (hsets : ∀ e ∈ ls, e.sets = false)
    (hticks : 10 * (pre.length + 1) ≤ ls.countP Event.tick) :
    ∃ ls₁, Rotation.Passes (Happens env) t ls t' ls₁ fun t₁ => t₁.2.currentProcess = some p := by
  obtain ⟨c, q, hs⟩ := reachable_sliced hreach hpre hboot
  obtain rfl := hs.inv.queue.unique hq
  exact hs.served hrun hsets hticks

/-- The events of a run of operations none of which touches preemption. -/
theorem eventsOf_sets (env : ProcEnv σ) (t : σ × Sched) (ops : List Op)
    (h : ∀ o ∈ ops, (Event.mk false (some o)).sets = false) :
    ∀ e ∈ eventsOf env t ops, e.sets = false := by
  induction ops generalizing t with
  | nil => exact fun e he => absurd he List.not_mem_nil
  | cons o ops ih =>
    intro e he
    rcases List.mem_cons.mp he with rfl | he
    · exact h o List.mem_cons_self
    · exact ih _ (fun x hx => h x (List.mem_cons_of_mem o hx)) e he

theorem eventsOf_ticks (env : ProcEnv σ) (t : σ × Sched) (n : Nat) :
    (eventsOf env t (List.replicate n .tick)).countP Event.tick = n := by
  induction n generalizing t with
  | zero => rfl
  | succ n ih =>
    rw [List.replicate_succ, eventsOf, List.countP_cons, ih]
    rfl

/-- A process has yielded to another one that never gives up the processor; it runs again within
ten ticks. -/
theorem ready_served_in_time_hogs :
    let boot := bootProcesses fixedEnv () 0x200000 fun _ => 0
    let t := runOps fixedEnv boot
      [.create [112] 0x100300, .create [113] 0x100400, .enablePreemption, .yield, .yield]
    let ops := List.replicate 10 Op.tick
    ∃ ls₁, Rotation.Passes (Happens fixedEnv) t (eventsOf fixedEnv t ops) (runOps fixedEnv t ops)
      ls₁ fun t₁ => t₁.2.currentProcess = some 1 := by
  intro boot t ops
  have hreach := runOps_steps fixedEnv boot
    [.create [112] 0x100300, .create [113] 0x100400, .enablePreemption, .yield, .yield]
  have hq : Holds t.2.queue ([] ++ 1 :: []) :=
    ⟨⟨by decide +kernel, trivial⟩, by decide +kernel, by decide +kernel, by decide +kernel⟩
  refine ready_served_in_time fixedEnv () 0x200000 (fun _ => 0) hreach (by decide +kernel)
    (fun h => absurd h.1 (by decide +kernel)) hq (runOps_happens fixedEnv t ops)
    (eventsOf_sets fixedEnv t ops (by decide)) ?_
  rw [eventsOf_ticks]
  decide

/-! ## 7. A sleeper runs in time -/

/-- `p` has its turn or waits for it. -/
def InLine (s : Sched) (p : Slot) : Prop := ∃ c q, Sliced s c q ∧ (p = c ∨ p ∈ q)

/-- Only a tick advances the counter. -/
theorem Happens.ticks_eq (h : Happens env t e t') (hlt : t.2.ticks + e.tick.toNat < 2 ^ 32) :
    t'.2.ticks = t.2.ticks + e.tick.toNat := by
  cases h with
  | work => rfl
  | op k s o =>
    have hs : s.ticks < 2 ^ 32 := lt_of_le_of_lt (Nat.le_add_right _ _) hlt
    have hticks := perform_ticks env k s hs o
    dsimp only at hlt ⊢
    rw [hticks]
    cases o <;> exact add32_of_lt hlt

/-- A sleeper sleeps on or is in line, and it is in line when `schedule` has been called at its
time or later. -/
theorem Asleep.turned {b : Bool} {c' : Slot} {q' : List Slot} (hsleep : Asleep s p d)
    (hinv : Inv s c q) (hp : p ≠ 0) (h : Turned s c q s' b c' q') :
    (p = c' ∨ p ∈ q') ∨ (Asleep s' p d ∧ (b = true → s'.ticks < d)) := by
  have hpc := hsleep.ne_current hinv
  cases h with
  | stays w _ hsame huntil =>
    by_cases hw : p ∈ w
    · exact Or.inl (Or.inr (List.mem_append_right q hw))
    · exact Or.inr ⟨⟨(hsame p hw).trans hsleep.1, (huntil p hsleep.1).trans hsleep.2⟩,
        fun hb => by cases hb⟩
  | @turns next w q' _ _ hqueue hdue hsame huntil =>
    by_cases hline : p = c' ∨ p ∈ q'
    · exact Or.inl hline
    · obtain ⟨hnext, hq'⟩ := not_or.mp hline
      refine Or.inr ⟨⟨(hsame p hp hpc hnext hq').trans hsleep.1, (huntil p hpc).trans hsleep.2⟩,
        fun _ => ?_⟩
      -- a sleeper that is due would be among those appended
      by_contra hlate
      have hw : p ∈ q ++ w := List.mem_append_right q
        (hdue p hpc ⟨hp, hsleep.1, hsleep.2.trans_le (Nat.le_of_not_lt hlate)⟩)
      rcases hqueue with hcons | ⟨hnil, -⟩
      · rw [hcons] at hw
        exact (List.mem_cons.mp hw).elim hnext hq'
      · rw [hnil] at hw
        exact List.not_mem_nil hw

/-- **A sleeper is woken**: `D` is its time, or now if that is over.  Ten ticks after it at the
latest the sleeper is in line. -/
theorem Asleep.woken {D : Nat} (hrun : Rotation.Run (Happens env) t ls t') (hp : p ≠ 0)
    (hD : d ≤ D) (hs : Sliced t.2 c q) (hsets : ∀ e ∈ ls, e.sets = false)
    (hwrap : t.2.ticks + ls.countP Event.tick < 2 ^ 32) (hsleep : Asleep t.2 p d)
    (hlate : t.2.ticks < d ∨ t.2.ticks + t.2.sliceRemaining ≤ D + 10) :
    (∃ ls₁, Rotation.Passes (Happens env) t ls t' ls₁ fun t₁ =>
      InLine t₁.2 p ∧ t₁.2.ticks ≤ D + 10) ∨ t'.2.ticks ≤ D + 10 := by
  induction hrun generalizing c q with
  | refl t =>
    have := hs.slice.pos hs.enabled
    exact Or.inr (by omega)
  | @head t t₁ t' e ls hstep hrun ih =>
    obtain ⟨c₁, q₁, hturned, hs₁, hclock⟩ := hstep.sliced hs (hsets e List.mem_cons_self)
    have htick : (e :: ls).countP Event.tick = ls.countP Event.tick + e.tick.toNat := by
      rw [List.countP_cons]
      cases e.tick <;> rfl
    have hnow := hstep.ticks_eq (by omega)
    have hone := Bool.toNat_le e.tick
    have hpos := hs.slice.pos hs.enabled
    rcases hsleep.turned hs.inv hp hturned with hline | ⟨hstill, hcall⟩
    · exact Or.inl ⟨[e], t₁, ls, rfl, .head hstep (.refl t₁), hrun, ⟨c₁, q₁, hs₁, hline⟩,
        by omega⟩
    · have hlate₁ : t₁.2.ticks < d ∨ t₁.2.ticks + t₁.2.sliceRemaining ≤ D + 10 := by
        rcases Nat.lt_or_ge t₁.2.ticks d with hlt | hge
        · exact Or.inl hlt
        · -- no call of `schedule` since the time is over: the slice is what is left to wait
          have hnocall : e.calls = false := by
            by_contra hc
            have := hcall (by simpa using hc)
            omega
          have hle₁ := hs₁.slice.le hs₁.enabled
          rw [hnocall, Bool.toNat_false] at hclock
          right
          omega
      rcases ih hs₁ (fun x hx => hsets x (List.mem_cons_of_mem e hx)) (by omega) hstill hlate₁
        with ⟨ls₁, hpass⟩ | hend
      · exact Or.inl ⟨e :: ls₁, hpass.cons hstep⟩
      · exact Or.inr hend

/-- The counter along a run that it does not wrap in. -/
theorem run_ticks (hrun : Rotation.Run (Happens env) t ls t')
    (hwrap : t.2.ticks + ls.countP Event.tick < 2 ^ 32) :
    t'.2.ticks = t.2.ticks + ls.countP Event.tick := by
  induction hrun with
  | refl => rfl
  | @head t t₁ t' e ls hstep hrun ih =>
    have htick : (e :: ls).countP Event.tick = ls.countP Event.tick + e.tick.toNat := by
      rw [List.countP_cons]
      cases e.tick <;> rfl
    have hnow := hstep.ticks_eq (by omega)
    have := ih (by omega)
    omega

/-- Nobody has more than 254 others before it: there are 256 slots, one of them is current. -/
theorem Inv.before_le {pre post : List Slot} (h : Inv s c (pre ++ p :: post)) :
    pre.length ≤ 254 := by
  have hnodup : (c :: (pre ++ p :: post)).Nodup := List.nodup_cons.mpr ⟨h.notQueued, h.queue.nodup⟩
  have hcard := hnodup.length_le_card
  rw [Fintype.card_fin, List.length_cons, List.length_append, List.length_cons] at hcard
  unfold maxProcesses at hcard
  omega

/-- **A sleeper runs in time**: with preemption on, and when the boot context has been switched
from once, a process that sleeps until the tick `d` is the current one within 2560 ticks of that
time, whatever the other processes do, unless they turn preemption on or off.  The counter must not
wrap in between. -/
theorem sleeper_served (env : ProcEnv σ) (k : σ) (kernelPd : Nat) (mem : Mem) {t t' : σ × Sched}
    (hreach : Relation.ReflTransGen (Step env) (bootProcesses env k kernelPd mem) t)
    (hpre : t.2.preemptionEnabled = true) (hboot : ¬ Booting t.2)
    {p : Slot} {d : Nat} (hp : p ≠ 0) (hsleep : Asleep t.2 p d)
    {ls : List Event} (hrun : Rotation.Run (Happens env) t ls t')
    (hsets : ∀ e ∈ ls, e.sets = false)
    (hwrap : t.2.ticks + ls.countP Event.tick < 2 ^ 32)
    (hticks : (d - t.2.ticks) + 2560 ≤ ls.countP Event.tick) :
    ∃ ls₁, Rotation.Passes (Happens env) t ls t' ls₁ fun t₁ => t₁.2.currentProcess = some p := by
  obtain ⟨c, q, hs⟩ := reachable_sliced hreach hpre hboot
  have hle := hs.slice.le hs.enabled
  have hend := run_ticks hrun hwrap
  rcases hsleep.woken hrun hp (Nat.le_max_left d t.2.ticks) hs hsets hwrap (by omega) with
    ⟨ls₁, t₁, ls₂, rfl, h₁, h₂, ⟨c₁, q₁, hs₁, hline⟩, hnow⟩ | hlate
  · rcases hline with rfl | hq₁
    · exact ⟨ls₁, t₁, ls₂, rfl, h₁, h₂, hs₁.inv.current⟩
    · -- in the queue, with 2550 ticks to go
      obtain ⟨pre, post, rfl⟩ := List.append_of_mem hq₁
      have hbefore := hs₁.inv.before_le
      rw [List.countP_append] at hticks hwrap hend
      have hsofar := run_ticks h₁ (by omega)
      obtain ⟨ls₃, t₃, ls₄, rfl, h₃, h₄, hcurrent⟩ := hs₁.served h₂
        (fun e he => hsets e (List.mem_append_right ls₁ he)) (by omega)
      exact ⟨ls₁ ++ ls₃, t₃, ls₄, (List.append_assoc ls₁ ls₃ ls₄).symm, h₁.append h₃, h₄, hcurrent⟩
  · omega

/-- A process sleeps for 50 ms while another one never gives up the processor. -/
theorem sleeper_served_hog :
    let boot := bootProcesses fixedEnv () 0x200000 fun _ => 0
    let t := runOps fixedEnv boot
      [.create [112] 0x100300, .create [113] 0x100400, .enablePreemption, .yield, .sleep 50]
    let ops := List.replicate 2565 Op.tick
    Asleep t.2 1 5 ∧
    ∃ ls₁, Rotation.Passes (Happens fixedEnv) t (eventsOf fixedEnv t ops) (runOps fixedEnv t ops)
      ls₁ fun t₁ => t₁.2.currentProcess = some 1 := by
  intro boot t ops
  have hreach := runOps_steps fixedEnv boot
    [.create [112] 0x100300, .create [113] 0x100400, .enablePreemption, .yield, .sleep 50]
  have hsleep : Asleep t.2 1 5 := ⟨by decide +kernel, by decide +kernel⟩
  have hzero : t.2.ticks = 0 := by decide +kernel
  refine ⟨hsleep, sleeper_served fixedEnv () 0x200000 (fun _ => 0) hreach (by decide +kernel)
    (fun h => absurd h.1 (by decide +kernel)) (by decide) hsleep (runOps_happens fixedEnv t ops)
    (eventsOf_sets fixedEnv t ops ?_) ?_ ?_⟩
  · intro o ho
    rw [List.eq_of_mem_replicate ho]
    rfl
  · rw [eventsOf_ticks, hzero]
    decide
  · rw [eventsOf_ticks, hzero]

end FlowOS.Process
