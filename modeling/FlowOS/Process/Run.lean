/-
# The scheduler over whole runs

A run starts after `process_init` and `scheduler_init` and is any sequence of the operations the
current process can perform, timer ticks, and other work of the current process (which may
change the heap, paging and memory in any way).  One step lemma says that each operation keeps
the scheduler's invariant; `sched_run_ok` collects it over the run, in the words of the
scheduler's data structures.
-/
import FlowOS.Process.Queue
import Mathlib.Data.List.Nodup
import Mathlib.Logic.Relation

namespace FlowOS.Process

open Word Fifo

variable {σ : Type}

/-! ## 1. Operations -/

/-- What can happen while a process is current. -/
inductive Op
  | create (name : List UInt8) (entry : Nat)
  | yield
  | sleep (ms : Nat)
  | exit (code : Int)
  | tick
  | enablePreemption
  | disablePreemption

/-- An operation performed by the current process, up to the `context_switch` it ends with. -/
def perform (env : ProcEnv σ) (k : σ) (s : Sched) : Op → σ × Sched × Switch
  | .create name entry =>
    let r := processCreate env k s name entry
    (r.2.1, r.2.2, none)
  | .yield => (k, processYield s)
  | .sleep ms => (k, processSleep s ms)
  | .exit code => processExit env k s code
  | .tick => (k, timerCallback s)
  | .enablePreemption => (k, timerEnablePreemption s, none)
  | .disablePreemption => (k, timerDisablePreemption s, none)

/-- One step of the system: an operation, or other work of the current process. -/
inductive Step (env : ProcEnv σ) : σ × Sched → σ × Sched → Prop
  | op (k : σ) (s : Sched) (o : Op) :
      Step env (k, s) ((perform env k s o).1, (perform env k s o).2.1)
  | work (k k' : σ) (s : Sched) (mem : Mem) : Step env (k, s) (k', { s with mem := mem })

/-! ## 2. Each operation keeps the invariant -/

/-- The process an operation creates. -/
def newProcess (env : ProcEnv σ) (k : σ) (s : Sched) : Op → Option Slot
  | .create name entry => (processCreate env k s name entry).1
  | _ => none

/-- Does the operation end the process that performs it? -/
def Op.exits : Op → Bool
  | .exit _ => true
  | _ => false

/-- The stack, the identifier and the parent of a process: what only `process_create` writes. -/
structure SameBlock (x y : Process) : Prop where
  kernelStack : y.kernelStack = x.kernelStack
  pid : y.pid = x.pid
  parent : y.parent = x.parent

theorem SameBlock.trans {x y z : Process} (h : SameBlock x y) (h' : SameBlock y z) :
    SameBlock x z :=
  ⟨h'.kernelStack.trans h.kernelStack, h'.pid.trans h.pid, h'.parent.trans h.parent⟩

theorem Keeps.same {s s' : Sched} (h : Keeps s s') (p : Slot) :
    SameBlock (s.processTable p) (s'.processTable p) := ⟨h.kernelStack p, h.pid p, h.parent p⟩

/-- **What an operation performed by `c` leaves behind**, where `new` is the process it creates and
`exits` says that `c` may have ended. -/
structure Performed (s : Sched) (c : Slot) (new : Option Slot) (exits : Bool)
    (r : Sched × Switch) : Prop where
  inv : ∃ next q, Inv r.1 next q ∧ r.2 = if next = c then none else some (c, next)
  gone : ∀ p, ¬ s.Live p → new ≠ some p → r.1.stateOf p = s.stateOf p
  fresh : ∀ p, new = some p → s.stateOf p = .unused ∧ r.1.Live p
  live : ∀ p, (p = c → exits = false) → s.Live p → r.1.Live p
  mem : new = none → r.1.mem = s.mem
  used : ∀ p, s.stateOf p ≠ .unused → r.1.stateOf p ≠ .unused
  block : ∀ p, s.Live p → SameBlock (s.processTable p) (r.1.processTable p)

variable {s s' : Sched} {c : Slot} {q : List Slot}

/-- A process that is live after an operation, and not the one it created, was live before. -/
theorem Performed.live_of_ne {new : Option Slot} {exits : Bool} {r : Sched × Switch}
    (h : Performed s c new exits r) {p : Slot} (hp : new ≠ some p) (hl : r.1.Live p) :
    s.Live p := by
  by_contra hn
  have hst := h.gone p hn hp
  exact hn ⟨hst ▸ hl.1, hst ▸ hl.2⟩

/-- Without a switch the current process stays. -/
theorem Performed.inv_stay {new : Option Slot} {exits : Bool}
    (h : Performed s c new exits (s', none)) : ∃ q, Inv s' c q := by
  obtain ⟨next, q, hq, hsw⟩ := h.inv
  have hn : next = c := by
    by_contra hn
    rw [if_neg hn] at hsw
    cases hsw
  exact ⟨q, hn ▸ hq⟩

theorem Performed.dead {new : Option Slot} {exits : Bool} {r : Sched × Switch}
    (h : Performed s c new exits r) {p : Slot} (hp : s.stateOf p = .terminated) :
    r.1.stateOf p = .terminated := by
  refine (h.gone p (fun hl => hl.2 hp) fun hnew => ?_).trans hp
  have := (h.fresh p hnew).1
  rw [hp] at this
  cases this

/-- The invariant is about the process table, the queue and the directory only. -/
theorem Inv.congr (h : Inv s c q) (htable : s'.processTable = s.processTable)
    (hcurrent : s'.currentProcess = s.currentProcess) (hqueue : s'.queue = s.queue)
    (hpd : s'.currentPdPhys = s.currentPdPhys) : Inv s' c q := by
  have hst : ∀ p, s'.stateOf p = s.stateOf p := fun p => by rw [Sched.stateOf, htable]; rfl
  refine ⟨⟨hcurrent.trans h.current, ?_, ?_, ?_, ?_, ?_, ?_⟩, ?_, ?_, h.notQueued⟩
  · rw [hqueue]
    exact h.queue
  · exact fun p hp => (hst p).trans (h.ready p hp)
  · exact fun p h0 hp => h.queued p h0 ((hst p).symm.trans hp)
  · rw [htable]
    exact h.idlePid
  · exact ⟨(hst 0).trans_ne h.idleAlive.1, (hst 0).trans_ne h.idleAlive.2⟩
  · rw [htable]
    exact hpd.trans h.pd
  · exact fun p hp => h.running p ((hst p).symm.trans hp)
  · rw [hst]
    exact h.currentState

/-- The current process is not one that has ended. -/
theorem Inv.current_live (h : Inv s c q) : s.Live c := by
  rcases h.currentState with h1 | ⟨-, h1⟩
  · exact Sched.live_of_state h1 (by decide) (by decide)
  · exact Sched.live_of_state h1 (by decide) (by decide)

/-- An operation that touches neither a state nor memory. -/
theorem Inv.stay {exits : Bool} (hinv : Inv s' c q) (hst : ∀ p, s'.stateOf p = s.stateOf p)
    (hmem : s'.mem = s.mem)
    (hblock : ∀ p, s.Live p → SameBlock (s.processTable p) (s'.processTable p)) :
    Performed s c none exits (s', none) where
  inv := ⟨c, q, hinv, by simp⟩
  gone := fun p _ _ => hst p
  fresh := by simp
  live := fun p _ hp => ⟨(hst p).trans_ne hp.1, (hst p).trans_ne hp.2⟩
  mem := fun _ => hmem
  used := fun p hp => (hst p).trans_ne hp
  block := hblock

/-- The current process gives up the processor: it is in a state that is neither ready nor
running, and `Pre` holds for the call of `schedule`. -/
theorem Inv.leave (h : Inv s c q) {proc : Process}
    (hnext : proc.next = (s.processTable c).next) (hpid : proc.pid = (s.processTable c).pid)
    (hdir : proc.pageDirectory = (s.processTable c).pageDirectory)
    (hready : proc.state ≠ .ready) (hrunning : proc.state ≠ .running)
    (halive : c = 0 → proc.state ≠ .unused ∧ proc.state ≠ .terminated) :
    Pre (s.put c proc) c q ∧ ∀ p, (s.put c proc).stateOf p ≠ .running := by
  have hst := fun x => stateOf_put s c x proc
  refine ⟨⟨h.current, ?_, ?_, ?_, ?_, ?_, ?_⟩, ?_⟩
  · refine h.queue.congr rfl rfl ?_
    intro x _
    simp only [Sched.queue, put_processTable]
    split
    · rename_i hx
      rw [hx, hnext]
    · rfl
  · intro p hp
    have hpc : p ≠ c := by
      rintro rfl
      exact h.notQueued hp
    rw [hst, if_neg hpc]
    exact h.ready p hp
  · intro p h0 hp
    rw [hst] at hp
    split at hp
    · exact absurd hp hready
    · exact h.queued p h0 hp
  · simp only [put_processTable]
    split
    · rename_i h0
      rw [hpid, ← h0]
      exact h.idlePid
    · exact h.idlePid
  · by_cases h0 : c = 0
    · exact h.idleAlive.set hst (halive h0).1 (halive h0).2
    · exact ⟨by simpa [hst, Ne.symm h0] using h.idleAlive.1,
        by simpa [hst, Ne.symm h0] using h.idleAlive.2⟩
  · simp only [put_processTable, if_true, hdir]
    exact h.pd
  · intro p hp
    rw [hst] at hp
    split at hp
    · exact hrunning hp
    · rename_i hpc
      exact hpc (h.running p hp)

/-- Writing to a control block whose stack and identifier stay. -/
theorem put_same (s : Sched) (c : Slot) {proc : Process} (h : SameBlock (s.processTable c) proc)
    (p : Slot) : SameBlock (s.processTable p) ((s.put c proc).processTable p) := by
  rw [put_processTable]
  split
  · rename_i hp
    rw [hp]
    exact h
  · exact ⟨rfl, rfl, rfl⟩

/-- An operation that sets the state of the current process and ends in `schedule`. -/
theorem performed_of_schedule {s₁ : Sched} {st : State} {exits : Bool} (h : Inv s c q)
    {q₁ : List Slot} (hpre : Pre s₁ c q₁) (hrun : ∀ p, s₁.stateOf p ≠ .running)
    (hst : ∀ p, s₁.stateOf p = if p = c then st else s.stateOf p) (hmem : s₁.mem = s.mem)
    (hblock : ∀ p, SameBlock (s.processTable p) (s₁.processTable p)) (hused : st ≠ .unused)
    (hlive : exits = false → st ≠ .terminated) :
    Performed s c none exits (schedule s₁) := by
  obtain ⟨next, q', hs, -⟩ := schedule_inv hpre hrun
  refine ⟨⟨next, q', hs.inv, hs.switch⟩, fun p hp _ => ?_, by simp, fun p hp hl => ?_,
    fun _ => hs.keeps.mem.trans hmem, fun p hp => ?_, fun p _ => ?_⟩
  · have hpc : p ≠ c := by
      rintro rfl
      exact hp h.current_live
    have hst' := hst p
    rw [if_neg hpc] at hst'
    refine (hs.gone p fun hl => hp ?_).trans hst'
    exact ⟨hst' ▸ hl.1, hst' ▸ hl.2⟩
  · refine hs.live p ?_
    by_cases hpc : p = c
    · exact hl.set hst hused (hlive (hp hpc))
    · have hst' := hst p
      rw [if_neg hpc] at hst'
      exact ⟨hst' ▸ hl.1, hst' ▸ hl.2⟩
  · have hp₁ : s₁.stateOf p ≠ .unused := by
      rw [hst]
      split
      · exact hused
      · exact hp
    by_cases hl : s₁.Live p
    · exact (hs.live p hl).1
    · exact (hs.gone p hl).trans_ne hp₁
  · exact (hblock p).trans (hs.keeps.same p)

theorem processYield_performed (h : Inv s c q) : Performed s c none false (processYield s) := by
  unfold processYield
  rw [h.current]
  dsimp only
  split
  · have hst : ∀ p, (schedulerAdd (setState s c .ready) c).stateOf p
        = if p = c then .ready else s.stateOf p := by
      intro p
      rw [stateOf_schedulerAdd, stateOf_setState]
    have hkeeps := (setState_keeps s c .ready).trans (schedulerAdd_keeps (setState s c .ready) c)
    refine performed_of_schedule h (h.toPre.enqueue h.notQueued) ?_ hst hkeeps.mem hkeeps.same
      (by simp) (by simp)
    intro p hp
    rw [hst] at hp
    split at hp
    · cases hp
    · rename_i hpc
      exact hpc (h.running p hp)
  · -- the boot process, which is not marked as running yet
    rename_i hnr
    have hst : ∀ p, s.stateOf p = if p = c then s.stateOf c else s.stateOf p := by
      intro p
      split
      · rename_i hpc
        rw [hpc]
      · rfl
    refine performed_of_schedule h h.toPre ?_ hst rfl (fun _ => ⟨rfl, rfl, rfl⟩) h.current_live.1
      fun _ => h.current_live.2
    intro p hp
    have hpc := h.running p hp
    exact hnr (hpc ▸ hp)

theorem processSleep_performed (h : Inv s c q) (ms : Nat) :
    Performed s c none false (processSleep s ms) := by
  unfold processSleep
  rw [h.current]
  dsimp only
  obtain ⟨hpre, hrun⟩ := @Inv.leave s c q h
    { s.processTable c with sleepUntil := add32 s.ticks (sleepTicks ms), state := .sleeping }
    rfl rfl rfl (by simp) (by simp) (by simp)
  exact performed_of_schedule h hpre hrun (fun p => stateOf_put s c p _) rfl
    (put_same s c ⟨rfl, rfl, rfl⟩) (by simp) (by simp)

theorem processExit_performed (env : ProcEnv σ) (k : σ) (h : Inv s c q) (code : Int) :
    Performed s c none true (processExit env k s code).2 := by
  unfold processExit
  rw [h.current]
  dsimp only
  split
  · exact h.stay (fun _ => rfl) rfl fun _ _ => ⟨rfl, rfl, rfl⟩
  · rename_i hpid
    have hc0 : c ≠ 0 := by
      rintro rfl
      exact hpid h.idlePid
    obtain ⟨hpre, hrun⟩ := @Inv.leave s c q h
      { s.processTable c with exitCode := code, state := .terminated }
      rfl rfl rfl (by simp) (by simp) (fun h0 => absurd h0 hc0)
    dsimp only
    exact performed_of_schedule h hpre hrun (fun p => stateOf_put s c p _) rfl
      (put_same s c ⟨rfl, rfl, rfl⟩) (by simp) (by simp)

/-- Everything a tick can do: count, or count and preempt the running process. -/
theorem timerCallback_cases (s : Sched) : ∃ n,
    timerCallback s = ({ s with ticks := add32 s.ticks 1, sliceRemaining := n }, none) ∨
    (s.preemptionEnabled = true ∧ (∃ c, s.currentProcess = some c ∧ s.stateOf c = .running) ∧
      timerCallback s
        = processYield { s with ticks := add32 s.ticks 1, sliceRemaining := n }) := by
  have hslice : ∃ n, (if 0 < s.sliceRemaining then
      { s with ticks := add32 s.ticks 1, sliceRemaining := s.sliceRemaining - 1 }
      else { s with ticks := add32 s.ticks 1 }) =
        { s with ticks := add32 s.ticks 1, sliceRemaining := n } := by
    split
    · exact ⟨_, rfl⟩
    · exact ⟨s.sliceRemaining, rfl⟩
  obtain ⟨n, hn⟩ := hslice
  unfold timerCallback
  dsimp only
  rw [hn]
  by_cases hp : s.preemptionEnabled = true
  · rw [if_pos hp]
    dsimp only
    by_cases h0 : n = 0
    · rw [if_pos h0]
      refine ⟨s.timeSlice, ?_⟩
      split
      · exact Or.inl rfl
      · rename_i c hc
        split
        · rename_i hrun
          exact Or.inr ⟨hp, ⟨c, hc, hrun⟩, rfl⟩
        · exact Or.inl rfl
    · rw [if_neg h0]
      exact ⟨_, Or.inl rfl⟩
  · rw [if_neg hp]
    exact ⟨s.sliceRemaining, Or.inl rfl⟩

theorem processYield_keeps (s : Sched) : Keeps s (processYield s).1 := by
  unfold processYield
  split
  · exact schedule_keeps s
  · rename_i c _
    split
    · exact ((setState_keeps s c .ready).trans (schedulerAdd_keeps _ c)).trans (schedule_keeps _)
    · exact schedule_keeps s

/-- A tick counts, and does not move the deadlines. -/
theorem timerCallback_keeps (s : Sched) :
    Keeps { s with ticks := add32 s.ticks 1 } (timerCallback s).1 := by
  obtain ⟨n, heq | ⟨-, -, heq⟩⟩ := timerCallback_cases s
  · rw [heq]
    exact ⟨fun _ => ⟨_, _, rfl⟩, rfl, rfl, rfl, rfl⟩
  · rw [heq]
    have hk := processYield_keeps { s with ticks := add32 s.ticks 1, sliceRemaining := n }
    exact ⟨hk.block, hk.mem, hk.kernelPdPhys, hk.ticks, hk.nextPid⟩

theorem timerCallback_performed (h : Inv s c q) : Performed s c none false (timerCallback s) := by
  obtain ⟨n, hcases⟩ := timerCallback_cases s
  have hinv : Inv { s with ticks := add32 s.ticks 1, sliceRemaining := n } c q :=
    h.congr rfl rfl rfl rfl
  rcases hcases with heq | ⟨-, -, heq⟩
  · rw [heq]
    exact hinv.stay (fun _ => rfl) rfl fun _ _ => ⟨rfl, rfl, rfl⟩
  · rw [heq]
    obtain ⟨h1, h2, h3, h4, h5, h6, h7⟩ := processYield_performed hinv
    exact ⟨h1, h2, h3, h4, h5, h6, h7⟩

/-! ## 3. `process_create` -/

theorem findFreeSlot_some {p : Slot} (h : findFreeSlot s = some p) :
    p ≠ 0 ∧ s.stateOf p = .unused := by
  have := List.find?_some h
  simpa [Sched.stateOf] using this

/-- Writing to a control block that is neither queued nor current, in a state in which it is not
to be scheduled, keeps the invariant. -/
theorem Inv.setFresh (h : Inv s c q) {p : Slot} (hp0 : p ≠ 0) (hpc : p ≠ c) (hpq : p ∉ q)
    {proc : Process} (hready : proc.state ≠ .ready) (hrunning : proc.state ≠ .running) :
    Inv (s.put p proc) c q := by
  have hst : ∀ x, x ≠ p → (s.put p proc).stateOf x = s.stateOf x := by
    intro x hx
    rw [stateOf_put, if_neg hx]
  have hstp : (s.put p proc).stateOf p = proc.state := by
    rw [stateOf_put, if_pos rfl]
  refine ⟨⟨h.current, ?_, ?_, ?_, ?_, ?_, ?_⟩, ?_, ?_, h.notQueued⟩
  · refine h.queue.congr rfl rfl ?_
    intro x hx
    have hxp : x ≠ p := by
      rintro rfl
      exact hpq hx
    simp only [Sched.queue, put_processTable, if_neg hxp]
  · intro x hx
    have hxp : x ≠ p := by
      rintro rfl
      exact hpq hx
    rw [hst x hxp]
    exact h.ready x hx
  · intro x h0 hx
    by_cases hxp : x = p
    · rw [hxp, hstp] at hx
      exact absurd hx hready
    · rw [hst x hxp] at hx
      exact h.queued x h0 hx
  · rw [put_processTable, if_neg hp0.symm]
    exact h.idlePid
  · exact ⟨(hst 0 hp0.symm).trans_ne h.idleAlive.1, (hst 0 hp0.symm).trans_ne h.idleAlive.2⟩
  · rw [put_processTable, if_neg hpc.symm]
    exact h.pd
  · intro x hx
    by_cases hxp : x = p
    · rw [hxp, hstp] at hx
      exact absurd hx hrunning
    · rw [hst x hxp] at hx
      exact h.running x hx
  · rw [hst c hpc.symm]
    exact h.currentState

/-- The invariant does not see a new process until it is queued; then it is a ready process at
the end of the queue. -/
theorem Inv.enqueue (h : Inv s c q) {p : Slot} (hpc : p ≠ c) (hpq : p ∉ q) :
    Inv (schedulerAdd (setState s p .ready) p) c (q ++ [p]) := by
  refine ⟨h.toPre.enqueue hpq, ?_, ?_, ?_⟩
  · intro x hx
    rw [stateOf_schedulerAdd, stateOf_setState] at hx
    split at hx
    · cases hx
    · exact h.running x hx
  · rw [stateOf_schedulerAdd, stateOf_setState, if_neg hpc.symm]
    exact h.currentState
  · simp [h.notQueued, hpc.symm]

/-- Everything `process_create` can do: nothing, when the table is full; a write to the unused
slot that leaves it unused, when a directory or a stack is missing; or a new process at the end
of the queue, with its first frame on the stack at `a`. -/
inductive Created (env : ProcEnv σ) (k : σ) (s : Sched) (entry : Nat) :
    Option Slot × σ × Sched → Prop
  | full : Created env k s entry (none, k, s)
  | failed (p : Slot) (k' : σ) (proc : Process) (hp0 : p ≠ 0) (hp : s.stateOf p = .unused)
      (hproc : proc.state = .unused) (hfree : findFreeSlot s = some p)
      (hstack : proc.kernelStack = (s.processTable p).kernelStack ∨ proc.kernelStack = 0)
      (hpid : proc.pid = s.nextPid) (hparent : proc.parent = s.currentProcess) :
      Created env k s entry (none, k', { s with nextPid := add32 s.nextPid 1 }.put p proc)
  | ok (p : Slot) (k' : σ) (proc : Process) (a : Nat) (hp0 : p ≠ 0) (hp : s.stateOf p = .unused)
      (ha : a = (env.kmalloc kernelStackSize (env.pagingClonePd k).2).1) (ha0 : a ≠ 0)
      (hproc : proc.state = .created) (hstack : proc.kernelStack = add32 a kernelStackSize)
      (hfree : findFreeSlot s = some p) :
      Created env k s entry (some p, k',
        schedulerAdd (setState (Sched.put { s with
          nextPid := add32 s.nextPid 1
          mem := (storeBelow s.mem (add32 a kernelStackSize) (initialFrame env entry)).st32
            (espAddr env p) (sub32 (add32 a kernelStackSize) 28) } p proc) p .ready) p)

theorem processCreate_cases (env : ProcEnv σ) (k : σ) (s : Sched) (name : List UInt8)
    (entry : Nat) : Created env k s entry (processCreate env k s name entry) := by
  unfold processCreate
  split
  · exact .full
  · rename_i p hp
    obtain ⟨hp0, hpu⟩ := findFreeSlot_some hp
    dsimp only
    split
    · exact .failed p _ _ hp0 hpu rfl hp (Or.inl rfl) rfl rfl
    · split
      · rename_i ha
        exact .failed p _ _ hp0 hpu rfl hp (Or.inr ha) rfl rfl
      · rename_i ha
        exact .ok p _ _ _ hp0 hpu rfl ha rfl rfl hp

/-- The other control blocks when a process is entered and queued. -/
theorem queued_same (s : Sched) {p x : Slot} {proc : Process} (hx : x ≠ p) (nextPid : Nat)
    (mem : Mem) : SameBlock (s.processTable x) ((schedulerAdd (setState
      (Sched.put { s with nextPid := nextPid, mem := mem } p proc) p .ready) p).processTable
        x) := by
  have hkeeps := (setState_keeps (Sched.put { s with nextPid := nextPid, mem := mem } p proc) p
    .ready).trans (schedulerAdd_keeps _ p)
  have hsame := hkeeps.same x
  rwa [put_processTable, if_neg hx] at hsame

/-- A slot that is unused is neither queued nor current. -/
theorem Inv.fresh (h : Inv s c q) {p : Slot} (hp : s.stateOf p = .unused) : p ≠ c ∧ p ∉ q := by
  refine ⟨?_, fun hq => ?_⟩
  · rintro rfl
    exact h.current_live.1 hp
  · have := h.ready p hq
    rw [hp] at this
    cases this

/-- A new process in an unused slot. -/
theorem Inv.create (h : Inv s c q) {p : Slot} (hp0 : p ≠ 0) (hp : s.stateOf p = .unused)
    {proc : Process} (hproc : proc.state = .created) (nextPid : Nat) (mem : Mem) :
    Inv (schedulerAdd (setState (Sched.put { s with nextPid := nextPid, mem := mem } p proc) p
      .ready) p) c (q ++ [p]) := by
  obtain ⟨hpc, hpq⟩ := h.fresh hp
  have h1 : Inv { s with nextPid := nextPid, mem := mem } c q := h.congr rfl rfl rfl rfl
  exact (h1.setFresh hp0 hpc hpq (by simp [hproc]) (by simp [hproc])).enqueue hpc hpq

theorem processCreate_performed (env : ProcEnv σ) (k : σ) (h : Inv s c q) (name : List UInt8)
    (entry : Nat) : Performed s c (processCreate env k s name entry).1 false
      ((processCreate env k s name entry).2.2, none) := by
  have hcases := processCreate_cases env k s name entry
  generalize processCreate env k s name entry = r at hcases
  cases hcases with
  | full => exact h.stay (fun _ => rfl) rfl fun _ _ => ⟨rfl, rfl, rfl⟩
  | failed p k' proc hp0 hp hproc =>
    obtain ⟨hpc, hpq⟩ := h.fresh hp
    have h1 : Inv { s with nextPid := add32 s.nextPid 1 } c q := h.congr rfl rfl rfl rfl
    refine (h1.setFresh hp0 hpc hpq (by simp [hproc]) (by simp [hproc])).stay (fun x => ?_) rfl
      fun x hx => ?_
    · rw [stateOf_put]
      split
      · rename_i hx
        rw [hx, hproc, hp]
      · rfl
    · -- the slot written to is not that of a live process
      have hne : x ≠ p := by
        rintro rfl
        exact hx.1 hp
      rw [put_processTable, if_neg hne]
      exact ⟨rfl, rfl, rfl⟩
  | ok p k' proc a hp0 hp ha ha0 hproc hstack =>
    have hst : ∀ x, (schedulerAdd (setState (Sched.put { s with
          nextPid := add32 s.nextPid 1
          mem := (storeBelow s.mem (add32 a kernelStackSize) (initialFrame env entry)).st32
            (espAddr env p) (sub32 (add32 a kernelStackSize) 28) } p proc) p .ready) p).stateOf x
        = if x = p then .ready else s.stateOf x := by
      intro x
      rw [stateOf_schedulerAdd, stateOf_setState]
      split
      · rfl
      · rename_i hx
        rw [stateOf_put, if_neg hx]
        rfl
    refine ⟨⟨c, _, h.create hp0 hp hproc _ _, by simp⟩, fun x _ hx => ?_, fun x hx => ?_,
      fun x _ hx => ?_, by simp, fun x hx => ?_, fun x hx => ?_⟩
    · have hxp : x ≠ p := fun hxp => hx (by rw [hxp])
      rw [hst, if_neg hxp]
    · obtain rfl := Option.some.inj hx
      refine ⟨hp, Sched.live_of_state ((hst p).trans (if_pos rfl)) (by decide) (by decide)⟩
    · exact hx.set hst (by decide) (by decide)
    · rw [hst]
      split
      · decide
      · exact hx
    · have hne : x ≠ p := by
        rintro rfl
        exact hx.1 hp
      exact queued_same s hne _ _

/-! ## 4. Runs -/

/-- **Step lemma.** -/
theorem perform_performed (env : ProcEnv σ) (k : σ) (h : Inv s c q) (o : Op) :
    Performed s c (newProcess env k s o) o.exits (perform env k s o).2 := by
  cases o with
  | create name entry => exact processCreate_performed env k h name entry
  | yield => exact processYield_performed h
  | sleep ms => exact processSleep_performed h ms
  | exit code => exact processExit_performed env k h code
  | tick => exact timerCallback_performed h
  | enablePreemption =>
    have hinv : Inv (timerEnablePreemption s) c q := h.congr rfl rfl rfl rfl
    exact hinv.stay (fun _ => rfl) rfl fun _ _ => ⟨rfl, rfl, rfl⟩
  | disablePreemption =>
    have hinv : Inv (timerDisablePreemption s) c q := h.congr rfl rfl rfl rfl
    exact hinv.stay (fun _ => rfl) rfl fun _ _ => ⟨rfl, rfl, rfl⟩

theorem stateOf_bootProcesses (env : ProcEnv σ) (k : σ) (kernelPd : Nat) (mem : Mem) (p : Slot) :
    (bootProcesses env k kernelPd mem).2.stateOf p = if p = 0 then .ready else .unused := by
  by_cases hp : p = 0
  · subst hp
    simp [Sched.stateOf, bootProcesses, processInit, schedulerInit]
  · simp [Sched.stateOf, bootProcesses, processInit, schedulerInit, hp]

theorem bootProcesses_inv (env : ProcEnv σ) (k : σ) (kernelPd : Nat) (mem : Mem) :
    Inv (bootProcesses env k kernelPd mem).2 0 [] := by
  have hst := stateOf_bootProcesses env k kernelPd mem
  refine ⟨⟨rfl, ⟨trivial, rfl, rfl, List.nodup_nil⟩, by simp, ?_, rfl, ?_, rfl⟩, ?_, ?_, by simp⟩
  · intro p h0 hp
    rw [hst, if_neg h0] at hp
    cases hp
  · exact Sched.live_of_state ((hst 0).trans (if_pos rfl)) (by decide) (by decide)
  · intro p hp
    rw [hst] at hp
    split at hp <;> cases hp
  · exact Or.inr ⟨rfl, by rw [hst]; rfl⟩

theorem step_inv {env : ProcEnv σ} {t t' : σ × Sched} (h : Step env t t')
    (hi : ∃ c q, Inv t.2 c q) : (∃ c q, Inv t'.2 c q) ∧
      ∀ p, t.2.stateOf p = .terminated → t'.2.stateOf p = .terminated := by
  obtain ⟨c, q, hi⟩ := hi
  cases h with
  | op k s o =>
    have hp := perform_performed env k hi o
    obtain ⟨next, q', hinv, -⟩ := hp.inv
    exact ⟨⟨next, q', hinv⟩, fun p => hp.dead⟩
  | work k k' s mem => exact ⟨⟨c, q, hi.congr rfl rfl rfl rfl⟩, fun p hp => hp⟩

/-- **Run lemma.** -/
theorem run_inv {env : ProcEnv σ} {t t' : σ × Sched} (h : Relation.ReflTransGen (Step env) t t')
    (hi : ∃ c q, Inv t.2 c q) : (∃ c q, Inv t'.2 c q) ∧
      ∀ p, t.2.stateOf p = .terminated → t'.2.stateOf p = .terminated := by
  induction h with
  | refl => exact ⟨hi, fun p hp => hp⟩
  | tail _ hstep ih =>
    obtain ⟨hinv, hdead⟩ := step_inv hstep ih.1
    exact ⟨hinv, fun p hp => hdead p (ih.2 p hp)⟩

/-- **The scheduler's data structures are in order**, with `c` the current process and `q` the
ready queue. -/
structure SchedOk (s : Sched) (c : Slot) (q : List Slot) : Prop where
  current : s.currentProcess = some c
  links : Linked.Seg (follow fun p => (s.processTable p).next) (q.map some) none
  head : s.readyQueueHead = q.head?
  tail : s.readyQueueTail = q.getLast?
  nodup : q.Nodup
  bothNull : s.readyQueueHead = none ↔ s.readyQueueTail = none
  tailNext : ∀ t, s.readyQueueTail = some t → (s.processTable t).next = none
  queuedReady : ∀ p ∈ q, (s.processTable p).state = .ready
  readyQueued : ∀ p, p ≠ 0 → (s.processTable p).state = .ready → q.count p = 1
  oneRunning : ∀ p, (s.processTable p).state = .running → p = c
  currentNotQueued : c ∉ q
  terminatedGone : ∀ p, (s.processTable p).state = .terminated → p ∉ q ∧ p ≠ c
  directory : s.currentPdPhys = (s.processTable c).pageDirectory

theorem Inv.ok (h : Inv s c q) : SchedOk s c q where
  current := h.current
  links := h.queue.links
  head := h.queue.head
  tail := h.queue.tail
  nodup := h.queue.nodup
  bothNull := h.queue.head_none_iff.trans h.queue.tail_none_iff.symm
  tailNext := fun _ ht => h.queue.next_tail ht
  queuedReady := h.ready
  readyQueued := fun p h0 hp => List.count_eq_one_of_mem h.queue.nodup (h.queued p h0 hp)
  oneRunning := h.running
  currentNotQueued := h.notQueued
  terminatedGone := by
    intro p hp
    refine ⟨fun hq => ?_, ?_⟩
    · have hr : (s.processTable p).state = .ready := h.ready p hq
      rw [hp] at hr
      cases hr
    · rintro rfl
      exact h.current_live.2 hp
  directory := h.pd

/-- **Every run keeps the scheduler in order**, and a process that has terminated stays
terminated, so it is never queued nor current again. -/
theorem sched_run_ok (env : ProcEnv σ) (k : σ) (kernelPd : Nat) (mem : Mem) {t : σ × Sched}
    (hrun : Relation.ReflTransGen (Step env) (bootProcesses env k kernelPd mem) t) :
    (∃ c q, SchedOk t.2 c q) ∧
      ∀ t', Relation.ReflTransGen (Step env) t t' → ∀ p, (t.2.processTable p).state = .terminated →
        (t'.2.processTable p).state = .terminated := by
  obtain ⟨hinv, -⟩ := run_inv hrun ⟨0, [], bootProcesses_inv env k kernelPd mem⟩
  refine ⟨?_, ?_⟩
  · obtain ⟨c, q, h⟩ := hinv
    exact ⟨c, q, h.ok⟩
  · intro t' hrun' p hp
    exact (run_inv hrun' hinv).2 p hp

/-- A run of operations, computed. -/
def runOps (env : ProcEnv σ) (t : σ × Sched) (ops : List Op) : σ × Sched :=
  ops.foldl (fun t o => ((perform env t.1 t.2 o).1, (perform env t.1 t.2 o).2.1)) t

theorem runOps_steps (env : ProcEnv σ) (t : σ × Sched) (ops : List Op) :
    Relation.ReflTransGen (Step env) t (runOps env t ops) := by
  induction ops generalizing t with
  | nil => exact .refl
  | cons o ops ih => exact .head (.op t.1 t.2 o) (ih _)

/-- Services that hand out a fixed stack and a fixed directory. -/
def fixedEnv : ProcEnv Unit where
  kmalloc := fun _ k => (0xC0001000, k)
  kfree := fun _ k => k
  pagingClonePd := fun k => (0x400000, k)
  idleProcess := 0x100100
  processWrapper := 0x100200
  processTable := 0x110000

/-- The boot process creates a process and yields to it; that one exits, and the boot process,
which was never queued, is the one left to run. -/
theorem sched_run_ok_exit :
    let boot := bootProcesses fixedEnv () 0x200000 fun _ => 0
    let t := runOps fixedEnv boot [.create [112] 0x100300, .yield, .exit 0]
    (runOps fixedEnv boot [.create [112] 0x100300, .yield]).2.currentProcess = some 1 ∧
      t.2.currentProcess = some 0 ∧ (t.2.processTable 1).state = .terminated ∧
      ∃ c q, SchedOk t.2 c q := by
  refine ⟨by decide +kernel, by decide +kernel, by decide +kernel, ?_⟩
  exact (sched_run_ok fixedEnv () 0x200000 (fun _ => 0) (runOps_steps fixedEnv _ _)).1

end FlowOS.Process
