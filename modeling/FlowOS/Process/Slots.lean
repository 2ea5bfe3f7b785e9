/-
# The slots of the process table

A slot leaves the state `UNUSED` when a process is created in it and never returns to it:
`process_exit` makes it `TERMINATED`.  So a slot that is unused has never held a process, and what
its control block holds is what the program image and failed creations have put there (`Vacant`):
no stack, and no parent unless the last creation has failed.
-/
import FlowOS.Process.Run
import Mathlib.Data.Finset.Card
import Mathlib.Data.Fintype.Card

namespace FlowOS.Process

open Word

variable {σ : Type} {env : ProcEnv σ} {s s' : Sched} {c p : Slot} {q : List Slot}

/-! ## 1. Slots that stay unused -/

/-- Only `process_create` writes the lasting fields of a control block, and only it counts. -/
theorem perform_same (env : ProcEnv σ) (k : σ) (s : Sched) {o : Op}
    (ho : ∀ name entry, o ≠ .create name entry) :
    (∀ p, SameBlock (s.processTable p) ((perform env k s o).2.1.processTable p)) ∧
      (perform env k s o).2.1.nextPid = s.nextPid := by
  have key : ∀ c proc, SameBlock (s.processTable c) proc →
      (∀ p, SameBlock (s.processTable p) ((schedule (s.put c proc)).1.processTable p)) ∧
        (schedule (s.put c proc)).1.nextPid = s.nextPid := fun c proc h =>
    ⟨fun p => (put_same s c h p).trans ((schedule_keeps _).same p), (schedule_keeps _).nextPid⟩
  cases o with
  | create name entry => exact absurd rfl (ho name entry)
  | yield => exact ⟨(processYield_keeps s).same, (processYield_keeps s).nextPid⟩
  | sleep ms =>
    unfold perform processSleep
    dsimp only
    split
    · exact ⟨fun _ => ⟨rfl, rfl, rfl⟩, rfl⟩
    · exact key _ _ ⟨rfl, rfl, rfl⟩
  | exit code =>
    unfold perform processExit
    dsimp only
    split
    · exact ⟨fun _ => ⟨rfl, rfl, rfl⟩, rfl⟩
    · rename_i c _
      split
      · exact ⟨fun _ => ⟨rfl, rfl, rfl⟩, rfl⟩
      · exact key c { s.processTable c with exitCode := code, state := .terminated } ⟨rfl, rfl, rfl⟩
  | tick => exact ⟨(timerCallback_keeps s).same, (timerCallback_keeps s).nextPid⟩
  | enablePreemption => exact ⟨fun _ => ⟨rfl, rfl, rfl⟩, rfl⟩
  | disablePreemption => exact ⟨fun _ => ⟨rfl, rfl, rfl⟩, rfl⟩

theorem newProcess_none {k : σ} {o : Op} (ho : ∀ name entry, o ≠ .create name entry) :
    newProcess env k s o = none := by
  cases o with
  | create name entry => exact absurd rfl (ho name entry)
  | _ => rfl

/-- `find_free_slot` sees only which slots are unused. -/
theorem findFreeSlot_congr (h : ∀ p, s'.stateOf p = .unused ↔ s.stateOf p = .unused) :
    findFreeSlot s' = findFreeSlot s := by
  unfold findFreeSlot
  congr 1
  funext p
  have hp : (s'.processTable p).state = .unused ↔ (s.processTable p).state = .unused := h p
  simp only [hp]

/-- Without a new process the same slots are unused. -/
theorem Performed.unused_iff {exits : Bool} {r : Sched × Switch}
    (h : Performed s c none exits r) (p : Slot) :
    r.1.stateOf p = .unused ↔ s.stateOf p = .unused := by
  constructor
  · intro hp
    by_contra hne
    exact h.used p hne hp
  · intro hp
    exact (h.gone p (fun hl => hl.1 hp) (by simp)).trans hp

/-- **What the control block of an unused slot holds.** -/
structure Vacant (s : Sched) : Prop where
  stack : ∀ p, p ≠ 0 → s.stateOf p = .unused → (s.processTable p).kernelStack = 0
  parent : ∀ p, p ≠ 0 → s.stateOf p = .unused → (s.processTable p).parent = none ∨
    (findFreeSlot s = some p ∧ s.nextPid = add32 (s.processTable p).pid 1)

/-- Where the same slots are unused and their blocks are kept. -/
theorem Vacant.same (hv : Vacant s) (hu : ∀ p, s'.stateOf p = .unused ↔ s.stateOf p = .unused)
    (hb : ∀ p, SameBlock (s.processTable p) (s'.processTable p)) (hn : s'.nextPid = s.nextPid) :
    Vacant s' := by
  refine ⟨fun p hp0 hp => ?_, fun p hp0 hp => ?_⟩
  · exact (hb p).kernelStack.trans (hv.stack p hp0 ((hu p).mp hp))
  · rw [(hb p).parent, (hb p).pid, hn, findFreeSlot_congr hu]
    exact hv.parent p hp0 ((hu p).mp hp)

/-- A slot other than the one a creation takes has not been touched. -/
theorem Vacant.untouched (hv : Vacant s) (hp : findFreeSlot s = some p) {x : Slot} (hx0 : x ≠ 0)
    (hx : s.stateOf x = .unused) (hxp : x ≠ p) : (s.processTable x).parent = none := by
  refine (hv.parent x hx0 hx).resolve_right fun h => hxp ?_
  exact Option.some.inj (h.1.symm.trans hp)

theorem Vacant.create (hv : Vacant s) (env : ProcEnv σ) (k : σ) (name : List UInt8)
    (entry : Nat) : Vacant (processCreate env k s name entry).2.2 := by
  have hcases := processCreate_cases env k s name entry
  generalize processCreate env k s name entry = r at hcases
  cases hcases with
  | full => exact hv
  | failed p k' proc hp0 hp hproc hfree hstack hpid hparent =>
    have hu : ∀ x, (Sched.put { s with nextPid := add32 s.nextPid 1 } p proc).stateOf x = .unused ↔
        s.stateOf x = .unused := fun x => by
      rw [stateOf_put]
      split
      · rename_i hx
        rw [hx, hproc, hp]
      · rfl
    refine ⟨fun x hx0 hx => ?_, fun x hx0 hx => ?_⟩
    · dsimp only
      rw [put_processTable]
      split
      · rcases hstack with h | h
        · exact h.trans (hv.stack p hp0 hp)
        · exact h
      · exact hv.stack x hx0 ((hu x).mp hx)
    · dsimp only
      rw [put_processTable]
      split
      · rename_i hxp
        refine Or.inr ⟨?_, by rw [hpid]; rfl⟩
        rw [findFreeSlot_congr hu, hxp]
        exact hfree
      · rename_i hxp
        exact Or.inl (hv.untouched hfree hx0 ((hu x).mp hx) hxp)
  | ok p k' proc a hp0 hp ha ha0 hproc hstack hfree =>
    -- the slot that is taken is not unused any more
    have hst : ∀ (m : Mem) (x : Slot), (schedulerAdd (setState (Sched.put { s with
        nextPid := add32 s.nextPid 1, mem := m } p proc) p .ready) p).stateOf x = .unused →
        x ≠ p ∧ s.stateOf x = .unused := by
      intro m x hx
      rw [stateOf_schedulerAdd, stateOf_setState] at hx
      split at hx
      · cases hx
      · rename_i hxp
        rw [stateOf_put, if_neg hxp] at hx
        exact ⟨hxp, hx⟩
    refine ⟨fun x hx0 hx => ?_, fun x hx0 hx => ?_⟩
    · obtain ⟨hxp, hxu⟩ := hst _ x hx
      exact (queued_same s hxp _ _).kernelStack.trans (hv.stack x hx0 hxu)
    · obtain ⟨hxp, hxu⟩ := hst _ x hx
      exact Or.inl ((queued_same s hxp _ _).parent.trans (hv.untouched hfree hx0 hxu hxp))

/-- **Step lemma.** -/
theorem Vacant.perform (hv : Vacant s) (h : Inv s c q) (env : ProcEnv σ) (k : σ) (o : Op) :
    Vacant (perform env k s o).2.1 := by
  by_cases ho : ∃ name entry, o = .create name entry
  · obtain ⟨name, entry, rfl⟩ := ho
    exact hv.create env k name entry
  · have ho' : ∀ name entry, o ≠ .create name entry := fun name entry he => ho ⟨name, entry, he⟩
    obtain ⟨hsame, hpid⟩ := perform_same env k s ho'
    have hperf := perform_performed env k h o
    rw [newProcess_none ho'] at hperf
    exact hv.same hperf.unused_iff hsame hpid

theorem bootProcesses_vacant (env : ProcEnv σ) (k : σ) (kernelPd : Nat) (mem : Mem) :
    Vacant (bootProcesses env k kernelPd mem).2 := by
  refine ⟨fun p hp0 _ => ?_, fun p hp0 _ => Or.inl ?_⟩
  · simp [bootProcesses, processInit, schedulerInit, statics, hp0]
  · simp [bootProcesses, processInit, schedulerInit, statics, hp0]

/-- **Run lemma**: in every state a run reaches. -/
theorem run_vacant {t t' : σ × Sched} (h : Relation.ReflTransGen (Step env) t t')
    (hi : ∃ c q, Inv t.2 c q) (hv : Vacant t.2) : Vacant t'.2 := by
  induction h with
  | refl => exact hv
  | tail hrun hstep ih =>
    obtain ⟨c, q, hinv⟩ := (run_inv hrun hi).1
    cases hstep with
    | op k s o => exact ih.perform hinv env k o
    | work k k' s mem => exact ih.same (fun _ => Iff.rfl) (fun _ => ⟨rfl, rfl, rfl⟩) rfl

/-! ## 2. Counting them -/

/-- The slots of the table that are unused. -/
def unusedSlots (s : Sched) : Nat := (Finset.univ.filter fun p => s.stateOf p = .unused).card

theorem Performed.unusedSlots_eq {exits : Bool} {r : Sched × Switch}
    (h : Performed s c none exits r) : unusedSlots r.1 = unusedSlots s := by
  unfold unusedSlots
  simp only [h.unused_iff]

/-- A new process takes one. -/
theorem Performed.unusedSlots_new {exits : Bool} {r : Sched × Switch}
    (h : Performed s c (some p) exits r) : unusedSlots r.1 + 1 = unusedSlots s := by
  obtain ⟨hp, hlive⟩ := h.fresh p rfl
  have hset : (Finset.univ.filter fun x => r.1.stateOf x = .unused)
      = (Finset.univ.filter fun x => s.stateOf x = .unused).erase p := by
    ext x
    simp only [Finset.mem_filter, Finset.mem_univ, true_and, Finset.mem_erase]
    constructor
    · intro hx
      refine ⟨?_, ?_⟩
      · rintro rfl
        exact hlive.1 hx
      · by_contra hne
        exact h.used x hne hx
    · rintro ⟨hxp, hx⟩
      exact (h.gone x (fun hl => hl.1 hx) fun he => hxp (Option.some.inj he).symm).trans hx
  unfold unusedSlots
  rw [hset]
  exact Finset.card_erase_add_one (by simpa using hp)

/-- The idle process has a slot. -/
theorem Inv.unusedSlots_le (h : Inv s c q) : unusedSlots s ≤ 255 := by
  have hlt : unusedSlots s < (Finset.univ : Finset Slot).card := by
    refine Finset.card_lt_card ?_
    rw [Finset.filter_ssubset]
    exact ⟨0, Finset.mem_univ _, h.idleAlive.1⟩
  rw [Finset.card_univ, Fintype.card_fin] at hlt
  exact Nat.le_of_lt_succ hlt

end FlowOS.Process
