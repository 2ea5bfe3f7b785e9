/-
# The ready queue and `schedule`

`schedule` and everything it calls write two fields of the control blocks, `state` and `next`
(`Keeps`), and through `next` they edit the ready queue.  `Pre` is what holds of the queue when
`schedule` is entered, whatever the calling process has just become (queued again, asleep,
terminated, or the boot process that is ready without being queued); `Inv` is what holds when
it returns.  The module's result is `schedule_inv`: from `Pre` to `Inv`.
-/
import FlowOS.Process.Basic
import FlowOS.Lib.Fifo

namespace FlowOS.Process

open Word Fifo

/-! ## 1. Control blocks -/

/-- The scheduling state of a process. -/
def Sched.stateOf (s : Sched) (p : Slot) : State := (s.processTable p).state

/-- The slot holds a process that has not ended. -/
def Sched.Live (s : Sched) (p : Slot) : Prop :=
  s.stateOf p ≠ .unused ∧ s.stateOf p ≠ .terminated

instance (s : Sched) (p : Slot) : Decidable (s.Live p) := inferInstanceAs (Decidable (_ ∧ _))

theorem Sched.live_of_state {s : Sched} {p : Slot} {st : State} (h : s.stateOf p = st)
    (h1 : st ≠ .unused) (h2 : st ≠ .terminated) : s.Live p := by
  subst h
  exact ⟨h1, h2⟩

/-- A process stays live where the only state written is a live one. -/
theorem Sched.Live.set {s s' : Sched} {n p : Slot} {st : State} (hp : s.Live p)
    (h : ∀ x, s'.stateOf x = if x = n then st else s.stateOf x) (h1 : st ≠ .unused)
    (h2 : st ≠ .terminated) : s'.Live p := by
  have hst := h p
  split at hst
  · exact live_of_state hst h1 h2
  · exact ⟨hst ▸ hp.1, hst ▸ hp.2⟩

@[simp] theorem put_processTable (s : Sched) (p x : Slot) (proc : Process) :
    (s.put p proc).processTable x = if x = p then proc else s.processTable x := by
  simp only [Sched.put, Function.update_apply]

theorem stateOf_put (s : Sched) (p x : Slot) (proc : Process) :
    (s.put p proc).stateOf x = if x = p then proc.state else s.stateOf x := by
  simp only [Sched.stateOf, put_processTable]
  split <;> rfl

@[simp] theorem stateOf_setState (s : Sched) (p x : Slot) (st : State) :
    (setState s p st).stateOf x = if x = p then st else s.stateOf x := stateOf_put s p x _

/-- **What scheduling leaves alone**: all of a control block but `state` and `next`, memory,
and the static variables other than the queue, the current process and its directory. -/
structure Keeps (s s' : Sched) : Prop where
  block : ∀ x, ∃ st nx, s'.processTable x = { s.processTable x with state := st, next := nx }
  mem : s'.mem = s.mem
  kernelPdPhys : s'.kernelPdPhys = s.kernelPdPhys
  ticks : s'.ticks = s.ticks
  nextPid : s'.nextPid = s.nextPid

theorem Keeps.refl (s : Sched) : Keeps s s := ⟨fun _ => ⟨_, _, rfl⟩, rfl, rfl, rfl, rfl⟩

theorem Keeps.trans {s₁ s₂ s₃ : Sched} (h : Keeps s₁ s₂) (h' : Keeps s₂ s₃) : Keeps s₁ s₃ := by
  refine ⟨?_, h'.mem.trans h.mem, h'.kernelPdPhys.trans h.kernelPdPhys, h'.ticks.trans h.ticks,
    h'.nextPid.trans h.nextPid⟩
  intro x
  obtain ⟨st, nx, hx⟩ := h.block x
  obtain ⟨st', nx', hx'⟩ := h'.block x
  exact ⟨st', nx', by rw [hx', hx]⟩

theorem Keeps.pid {s s' : Sched} (h : Keeps s s') (x : Slot) :
    (s'.processTable x).pid = (s.processTable x).pid := by
  obtain ⟨st, nx, hx⟩ := h.block x
  rw [hx]

theorem Keeps.pageDirectory {s s' : Sched} (h : Keeps s s') (x : Slot) :
    (s'.processTable x).pageDirectory = (s.processTable x).pageDirectory := by
  obtain ⟨st, nx, hx⟩ := h.block x
  rw [hx]

theorem Keeps.kernelStack {s s' : Sched} (h : Keeps s s') (x : Slot) :
    (s'.processTable x).kernelStack = (s.processTable x).kernelStack := by
  obtain ⟨st, nx, hx⟩ := h.block x
  rw [hx]

theorem Keeps.parent {s s' : Sched} (h : Keeps s s') (x : Slot) :
    (s'.processTable x).parent = (s.processTable x).parent := by
  obtain ⟨st, nx, hx⟩ := h.block x
  rw [hx]

theorem Keeps.sleepUntil {s s' : Sched} (h : Keeps s s') (x : Slot) :
    (s'.processTable x).sleepUntil = (s.processTable x).sleepUntil := by
  obtain ⟨st, nx, hx⟩ := h.block x
  rw [hx]

theorem setState_keeps (s : Sched) (p : Slot) (st : State) : Keeps s (setState s p st) := by
  refine ⟨fun x => ?_, rfl, rfl, rfl, rfl⟩
  simp only [setState, put_processTable]
  split
  · rename_i hx
    exact ⟨_, _, by rw [hx]⟩
  · exact ⟨_, _, rfl⟩

theorem setNext_keeps (s : Sched) (p : Slot) (nx : Option Slot) : Keeps s (setNext s p nx) := by
  refine ⟨fun x => ?_, rfl, rfl, rfl, rfl⟩
  simp only [setNext, put_processTable]
  split
  · rename_i hx
    exact ⟨_, _, by rw [hx]⟩
  · exact ⟨_, _, rfl⟩

@[simp] theorem stateOf_setNext (s : Sched) (p x : Slot) (nx : Option Slot) :
    (setNext s p nx).stateOf x = s.stateOf x := by
  simp only [Sched.stateOf, setNext, put_processTable]
  split
  · rename_i hx
    rw [hx]
  · rfl

/-! ## 2. The queue operations -/

/-- The pointers of the ready queue. -/
def Sched.queue (s : Sched) : Queue Slot :=
  ⟨fun p => (s.processTable p).next, s.readyQueueHead, s.readyQueueTail⟩

/-- A control block write that keeps `next` keeps the queue. -/
theorem setState_queue (s : Sched) (p : Slot) (st : State) : (setState s p st).queue = s.queue := by
  unfold Sched.queue setState
  congr 1
  funext x
  simp only [put_processTable]
  split
  · rename_i hx
    rw [hx]
  · rfl

theorem setNext_next (s : Sched) (p : Slot) (nx : Option Slot) :
    (fun x => ((setNext s p nx).processTable x).next)
      = Function.update (fun x => (s.processTable x).next) p nx := by
  funext x
  simp only [setNext, put_processTable, Function.update_apply]
  split <;> rfl

/-- `scheduler_add` is a push. -/
theorem schedulerAdd_queue (s : Sched) (p : Slot) : (schedulerAdd s p).queue = push s.queue p := by
  unfold schedulerAdd push
  have htail : (setNext s p none).readyQueueTail = s.readyQueueTail := rfl
  have hq : s.queue.tail = s.readyQueueTail := rfl
  simp only [htail, hq]
  cases s.readyQueueTail with
  | none =>
    simp only [Sched.queue, setNext_next]
  | some t =>
    simp only [Sched.queue, setNext_next]
    rfl

theorem schedulerAdd_keeps (s : Sched) (p : Slot) : Keeps s (schedulerAdd s p) := by
  have h1 := setNext_keeps s p none
  unfold schedulerAdd
  dsimp only
  split
  · exact ⟨h1.block, rfl, rfl, rfl, rfl⟩
  · rename_i t _
    have h2 := h1.trans (setNext_keeps (setNext s p none) t (some p))
    exact ⟨h2.block, rfl, rfl, rfl, rfl⟩

@[simp] theorem stateOf_schedulerAdd (s : Sched) (p x : Slot) :
    (schedulerAdd s p).stateOf x = s.stateOf x := by
  unfold schedulerAdd
  dsimp only
  split
  · exact stateOf_setNext s p x none
  · rename_i t _
    exact (stateOf_setNext (setNext s p none) t x (some p)).trans (stateOf_setNext s p x none)

theorem schedulerAdd_currentProcess (s : Sched) (p : Slot) :
    (schedulerAdd s p).currentProcess = s.currentProcess ∧
      (schedulerAdd s p).currentPdPhys = s.currentPdPhys := by
  unfold schedulerAdd
  dsimp only
  split <;> exact ⟨rfl, rfl⟩

/-- Taking the head off is a pop. -/
theorem takeHead_queue (s : Sched) (p : Slot) : (takeHead s p).queue = pop s.queue p := by
  have hnext := setNext_next s p none
  by_cases h : (s.processTable p).next = none
  · have hq : s.queue.next p = none := h
    simp only [takeHead, pop, hq, h, if_true]
    exact congrArg (fun n => (⟨n, none, none⟩ : Queue Slot)) hnext
  · have hq : s.queue.next p ≠ none := h
    simp only [takeHead, pop, hq, h, if_false]
    exact congrArg (fun n => (⟨n, s.queue.next p, s.queue.tail⟩ : Queue Slot)) hnext

theorem takeHead_keeps (s : Sched) (p : Slot) : Keeps s (takeHead s p) := by
  unfold takeHead
  dsimp only
  split
  · exact ⟨(setNext_keeps s p none).block, rfl, rfl, rfl, rfl⟩
  · exact ⟨(setNext_keeps s p none).block, rfl, rfl, rfl, rfl⟩

@[simp] theorem stateOf_takeHead (s : Sched) (p x : Slot) :
    (takeHead s p).stateOf x = s.stateOf x := by
  unfold takeHead
  dsimp only
  split <;> exact stateOf_setNext s p x none

theorem takeHead_currentProcess (s : Sched) (p : Slot) :
    (takeHead s p).currentProcess = s.currentProcess ∧
      (takeHead s p).currentPdPhys = s.currentPdPhys := by
  unfold takeHead
  dsimp only
  split <;> exact ⟨rfl, rfl⟩

theorem wakeOne_keeps (t : Nat) (s : Sched) (i : Slot) : Keeps s (wakeOne t s i) := by
  unfold wakeOne
  split
  · split
    · exact (setState_keeps s i .ready).trans (schedulerAdd_keeps _ i)
    · exact Keeps.refl s
  · exact Keeps.refl s

theorem wakeSleepingProcesses_keeps (s : Sched) : Keeps s (wakeSleepingProcesses s) := by
  unfold wakeSleepingProcesses
  generalize s.ticks = t
  generalize List.finRange maxProcesses = slots
  induction slots generalizing s with
  | nil => exact Keeps.refl s
  | cons i slots ih => exact (wakeOne_keeps t s i).trans (ih _)

theorem switchTo_keeps (s : Sched) (prev next : Slot) : Keeps s (switchTo s prev next).1 := by
  unfold switchTo
  split
  · exact setState_keeps s prev .running
  · have hset := setState_keeps s next .running
    dsimp only
    split <;> exact ⟨hset.block, rfl, rfl, rfl, rfl⟩

/-- `schedule` keeps its frame whatever it is called in. -/
theorem schedule_keeps (s : Sched) : Keeps s (schedule s).1 := by
  unfold schedule
  split
  · exact Keeps.refl s
  · have hwake := wakeSleepingProcesses_keeps s
    dsimp only
    split
    · exact (hwake.trans (takeHead_keeps _ _)).trans (switchTo_keeps _ _ _)
    · exact hwake.trans (switchTo_keeps _ _ _)

/-! ## 3. From the call of `schedule` to its return -/

/-- **What holds when `schedule` is entered** by the process `c`, with `q` the ready queue:
exactly the ready processes are queued, the idle slot excepted. -/
structure Pre (s : Sched) (c : Slot) (q : List Slot) : Prop where
  current : s.currentProcess = some c
  queue : Holds s.queue q
  ready : ∀ p ∈ q, s.stateOf p = .ready
  queued : ∀ p, p ≠ 0 → s.stateOf p = .ready → p ∈ q
  idlePid : (s.processTable 0).pid = 0
  idleAlive : s.Live 0
  pd : s.currentPdPhys = (s.processTable c).pageDirectory

/-- **What holds when `schedule` has returned**: one process runs, it is the current one, and it
is not queued.  Only the boot process, before its first switch, is current without running. -/
structure Inv (s : Sched) (c : Slot) (q : List Slot) : Prop extends Pre s c q where
  running : ∀ p, s.stateOf p = .running → p = c
  currentState : s.stateOf c = .running ∨ (c = 0 ∧ s.stateOf c = .ready)
  notQueued : c ∉ q

/-- What waking may do to the states. -/
def Woken (s s' : Sched) : Prop :=
  ∀ p, s'.stateOf p = s.stateOf p ∨ (s.stateOf p = .sleeping ∧ s'.stateOf p = .ready)

variable {s : Sched} {c : Slot} {q : List Slot}

/-- A process that becomes ready and is queued keeps `Pre`. -/
theorem Pre.enqueue (h : Pre s c q) {p : Slot} (hp : p ∉ q) :
    Pre (schedulerAdd (setState s p .ready) p) c (q ++ [p]) := by
  have hk := (setState_keeps s p .ready).trans (schedulerAdd_keeps (setState s p .ready) p)
  obtain ⟨hcur, hpd⟩ := schedulerAdd_currentProcess (setState s p .ready) p
  refine ⟨hcur.trans h.current, ?_, ?_, ?_, (hk.pid 0).trans h.idlePid, ?_, ?_⟩
  · rw [schedulerAdd_queue, setState_queue]
    exact push_holds h.queue hp
  · intro x hx
    rw [stateOf_schedulerAdd, stateOf_setState]
    split
    · rfl
    · rename_i hxp
      rcases List.mem_append.mp hx with hx | hx
      · exact h.ready x hx
      · exact absurd (List.mem_singleton.mp hx) hxp
  · intro x hx0 hx
    rw [stateOf_schedulerAdd, stateOf_setState] at hx
    split at hx
    · rename_i hxp
      simp [hxp]
    · exact List.mem_append_left _ (h.queued x hx0 hx)
  · refine h.idleAlive.set (n := p) (fun x => ?_) (show State.ready ≠ _ by decide) (by decide)
    rw [stateOf_schedulerAdd, stateOf_setState]
  · rw [hk.pageDirectory]
    exact hpd.trans h.pd

theorem wakeOne_pre (h : Pre s c q) (t : Nat) (i : Slot) :
    ∃ w, Pre (wakeOne t s i) c (q ++ w) ∧ Keeps s (wakeOne t s i) ∧ Woken s (wakeOne t s i) := by
  by_cases hwake : s.stateOf i = .sleeping ∧ (s.processTable i).sleepUntil ≤ t
  · have heq : wakeOne t s i = schedulerAdd (setState s i .ready) i := by
      unfold wakeOne
      rw [if_pos (show (s.processTable i).state = .sleeping from hwake.1), if_pos hwake.2]
    have hi : i ∉ q := by
      intro hmem
      have := h.ready i hmem
      rw [hwake.1] at this
      cases this
    rw [heq]
    refine ⟨[i], h.enqueue hi,
      (setState_keeps s i .ready).trans (schedulerAdd_keeps _ i), ?_⟩
    intro p
    rw [stateOf_schedulerAdd, stateOf_setState]
    split
    · rename_i hpi
      exact Or.inr ⟨by rw [hpi]; exact hwake.1, rfl⟩
    · exact Or.inl rfl
  · have heq : wakeOne t s i = s := by
      unfold wakeOne
      split
      · rename_i hs
        rw [if_neg fun ht => hwake ⟨hs, ht⟩]
      · rfl
    rw [heq]
    exact ⟨[], by rwa [List.append_nil], Keeps.refl s, fun p => Or.inl rfl⟩

/-- **Waking** only moves sleeping processes to the end of the queue. -/
theorem wakeSleepingProcesses_pre (h : Pre s c q) :
    ∃ w, Pre (wakeSleepingProcesses s) c (q ++ w) ∧ Keeps s (wakeSleepingProcesses s) ∧
      Woken s (wakeSleepingProcesses s) := by
  unfold wakeSleepingProcesses
  generalize s.ticks = t
  generalize List.finRange maxProcesses = slots
  -- the loop, one slot at a time
  induction slots generalizing s q with
  | nil => exact ⟨[], by rwa [List.append_nil], Keeps.refl s, fun p => Or.inl rfl⟩
  | cons i slots ih =>
    obtain ⟨w, h1, hk1, hw1⟩ := wakeOne_pre h t i
    obtain ⟨w', h2, hk2, hw2⟩ := ih h1
    refine ⟨w ++ w', by rwa [← List.append_assoc], hk1.trans hk2, ?_⟩
    intro p
    rcases hw2 p with he | ⟨hs, hr⟩
    · rcases hw1 p with he' | ⟨hs', hr'⟩
      · exact Or.inl (he.trans he')
      · exact Or.inr ⟨hs', he.trans hr'⟩
    · rcases hw1 p with he' | ⟨hs', hr'⟩
      · exact Or.inr ⟨he'.symm.trans hs, hr⟩
      · rw [hr'] at hs
        cases hs

/-- **The switch**: everything the end of `schedule` does. -/
structure Switched (s : Sched) (c next : Slot) (r : Sched × Switch) : Prop where
  state : ∀ x, r.1.stateOf x = if x = next then .running else s.stateOf x
  queue : r.1.queue = s.queue
  keeps : Keeps s r.1
  current : r.1.currentProcess = some next
  pd : r.1.currentPdPhys = (s.processTable next).pageDirectory
  switch : r.2 = if next = c then none else some (c, next)

theorem switchTo_switched {next : Slot} (hcur : s.currentProcess = some c)
    (hpd : s.currentPdPhys = (s.processTable c).pageDirectory) :
    Switched s c next (switchTo s c next) := by
  unfold switchTo
  by_cases hnc : next = c
  · subst hnc
    rw [if_pos rfl]
    exact ⟨fun x => stateOf_setState s next x .running, setState_queue s next .running,
      setState_keeps s next .running, hcur, hpd, by simp⟩
  · rw [if_neg hnc]
    have hset := setState_keeps s next .running
    have hdir : ∀ x, ((setState { s with currentProcess := some next } next .running).processTable
        x).pageDirectory = (s.processTable x).pageDirectory := hset.pageDirectory
    dsimp only
    rw [hdir, hdir]
    -- `paging_switch` is skipped exactly when the directories are equal already
    split
    · exact ⟨fun x => stateOf_setState s next x .running, setState_queue s next .running,
        ⟨hset.block, rfl, rfl, rfl, rfl⟩, rfl, rfl, by rw [if_neg hnc]⟩
    · rename_i heq
      exact ⟨fun x => stateOf_setState s next x .running, setState_queue s next .running,
        ⟨hset.block, rfl, rfl, rfl, rfl⟩, rfl, hpd.trans (not_not.mp heq), by rw [if_neg hnc]⟩

/-- What `schedule` establishes, with the process it chose. -/
structure Scheduled (s : Sched) (c next : Slot) (q' : List Slot) (r : Sched × Switch) :
    Prop where
  inv : Inv r.1 next q'
  keeps : Keeps s r.1
  runs : r.1.stateOf next = .running
  gone : ∀ p, ¬ s.Live p → r.1.stateOf p = s.stateOf p
  live : ∀ p, s.Live p → r.1.Live p
  switch : r.2 = if next = c then none else some (c, next)

/-- A step before the choice that leaves the dead processes alone and brings none to life. -/
theorem Scheduled.of_keeps {s' : Sched} {next : Slot} {r : Sched × Switch}
    (h : Scheduled s' c next q r) (hkeep : Keeps s s')
    (hgone : ∀ p, ¬ s.Live p → s'.stateOf p = s.stateOf p) (hlive : ∀ p, s.Live p ↔ s'.Live p) :
    Scheduled s c next q r where
  inv := h.inv
  keeps := hkeep.trans h.keeps
  runs := h.runs
  gone := fun p hp => (h.gone p fun hp' => hp ((hlive p).mpr hp')).trans (hgone p hp)
  live := fun p hp => h.live p ((hlive p).mp hp)
  switch := h.switch

theorem Woken.gone {s' : Sched} (hw : Woken s s') (p : Slot) (hp : ¬ s.Live p) :
    s'.stateOf p = s.stateOf p := by
  rcases hw p with he | ⟨hs, -⟩
  · exact he
  · exact absurd (Sched.live_of_state hs (by decide) (by decide)) hp

theorem Woken.live_iff {s' : Sched} (hw : Woken s s') (p : Slot) : s.Live p ↔ s'.Live p := by
  rcases hw p with he | ⟨hs, hr⟩
  · simp only [Sched.Live, he]
  · simp [Sched.Live, hs, hr]

/-- **The choice**: `schedule` has picked `next` and taken it off the queue. -/
structure Chosen (s : Sched) (c next : Slot) (q : List Slot) : Prop where
  current : s.currentProcess = some c
  queue : Holds s.queue q
  ready : ∀ p ∈ q, s.stateOf p = .ready
  queued : ∀ p, p ≠ 0 → p ≠ next → s.stateOf p = .ready → p ∈ q
  idlePid : (s.processTable 0).pid = 0
  idleAlive : s.Live 0
  pd : s.currentPdPhys = (s.processTable c).pageDirectory
  alive : s.Live next
  notQueued : next ∉ q

/-- No process is ready: the idle process is chosen, in whatever state it is. -/
theorem Pre.chosen_idle (h : Pre s c []) : Chosen s c 0 [] where
  current := h.current
  queue := h.queue
  ready := h.ready
  queued := fun p hp0 _ hp => h.queued p hp0 hp
  idlePid := h.idlePid
  idleAlive := h.idleAlive
  pd := h.pd
  alive := h.idleAlive
  notQueued := List.not_mem_nil

theorem Pre.chosen_head {next : Slot} (h : Pre s c (next :: q)) :
    Chosen (takeHead s next) c next q := by
  have hk := takeHead_keeps s next
  obtain ⟨hc, hpd⟩ := takeHead_currentProcess s next
  have hlive : ∀ p, s.Live p → (takeHead s next).Live p := by
    intro p hp
    simpa only [Sched.Live, stateOf_takeHead] using hp
  have hready := h.ready next List.mem_cons_self
  refine ⟨hc.trans h.current, ?_, ?_, ?_, (hk.pid 0).trans h.idlePid, hlive 0 h.idleAlive,
    hpd.trans (h.pd.trans (hk.pageDirectory c).symm),
    hlive next (Sched.live_of_state hready (by decide) (by decide)),
    (List.nodup_cons.mp h.queue.nodup).1⟩
  · rw [takeHead_queue]
    exact pop_holds h.queue
  · intro p hp
    rw [stateOf_takeHead]
    exact h.ready p (List.mem_cons_of_mem _ hp)
  · intro p hp0 hne hp
    rw [stateOf_takeHead] at hp
    exact (List.mem_cons.mp (h.queued p hp0 hp)).resolve_left hne

/-- Switching to the chosen process establishes the invariant. -/
theorem Chosen.scheduled {next : Slot} (h : Chosen s c next q)
    (hrun : ∀ p, s.stateOf p ≠ .running) : Scheduled s c next q (switchTo s c next) := by
  have hsw := @switchTo_switched s c next h.current h.pd
  have hruns : (switchTo s c next).1.stateOf next = .running := by
    rw [hsw.state, if_pos rfl]
  have hinv : Inv (switchTo s c next).1 next q := by
    refine ⟨⟨hsw.current, ?_, ?_, ?_, (hsw.keeps.pid 0).trans h.idlePid,
      h.idleAlive.set hsw.state (by decide) (by decide),
      hsw.pd.trans (hsw.keeps.pageDirectory next).symm⟩, ?_, Or.inl hruns, h.notQueued⟩
    · rw [hsw.queue]
      exact h.queue
    · intro p hp
      have hne : p ≠ next := by
        rintro rfl
        exact h.notQueued hp
      rw [hsw.state, if_neg hne]
      exact h.ready p hp
    · intro p hp0 hp
      rw [hsw.state] at hp
      split at hp
      · cases hp
      · rename_i hne
        exact h.queued p hp0 hne hp
    · intro p hp
      by_contra hne
      rw [hsw.state, if_neg hne] at hp
      exact hrun p hp
  refine ⟨hinv, hsw.keeps, hruns, ?_, ?_, hsw.switch⟩
  · intro p hp
    have hne : p ≠ next := by
      rintro rfl
      exact hp h.alive
    rw [hsw.state, if_neg hne]
  · exact fun p hp => hp.set hsw.state (by decide) (by decide)

/-- **`schedule` restores the invariant.**  The head of the queue, or the idle process when
there is none, becomes the one running process, and no terminated process comes back. -/
theorem schedule_inv (h : Pre s c q) (hrun : ∀ p, s.stateOf p ≠ .running) :
    ∃ next q', Scheduled s c next q' (schedule s) ∧ ∀ p ∈ q.head?, next = p := by
  obtain ⟨w, hw, hkeep, hwoken⟩ := wakeSleepingProcesses_pre h
  have hrun' : ∀ p, (wakeSleepingProcesses s).stateOf p ≠ .running := by
    intro p hp
    rcases hwoken p with he | ⟨-, hr⟩
    · exact hrun p (he.symm.trans hp)
    · rw [hr] at hp
      cases hp
  have hgone := hwoken.gone
  have hlive := hwoken.live_iff
  unfold schedule
  rw [h.current]
  generalize wakeSleepingProcesses s = s' at hw hkeep hrun' hgone hlive
  have hfirst : ∀ p ∈ q.head?, (q ++ w).head? = some p := fun p hp => by
    rw [List.head?_append, hp, Option.some_or]
  generalize q ++ w = q' at hw hfirst
  dsimp only
  cases q' with
  | nil =>
    have hhead : s'.readyQueueHead = none := hw.queue.head_none_iff.mpr rfl
    rw [hhead]
    refine ⟨0, [], (hw.chosen_idle.scheduled hrun').of_keeps hkeep hgone hlive, fun p hp => ?_⟩
    cases hfirst p hp
  | cons next q' =>
    have hhead : s'.readyQueueHead = some next := hw.queue.head
    rw [hhead]
    have hsched : Scheduled (takeHead s' next) c next q' (switchTo (takeHead s' next) c next) :=
      hw.chosen_head.scheduled fun p => by
        rw [stateOf_takeHead]
        exact hrun' p
    refine ⟨next, q', hsched.of_keeps (hkeep.trans (takeHead_keeps s' next)) ?_ ?_,
      fun p hp => Option.some.inj (hfirst p hp)⟩
    · intro p hp
      rw [stateOf_takeHead]
      exact hgone p hp
    · intro p
      rw [hlive p, Sched.Live, Sched.Live, stateOf_takeHead]

end FlowOS.Process
