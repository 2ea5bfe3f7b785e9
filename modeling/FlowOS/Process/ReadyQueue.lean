/-
# The ready queue as a FIFO

`scheduler_add`, `scheduler_remove` and the head removal in `schedule` edit one singly linked list
with a pointer to its head and one to its tail.  Each of them is the operation of the same name on
the queue of `Lib/Fifo.lean`: a push, a removal and a pop.  So along any sequence of calls the
pointers spell out a list of processes, and the calls append to it, delete from it and take its
first element.

`scheduler_remove` has no caller in the kernel.
-/
import FlowOS.Process.Queue
import FlowOS.Lib.Trace
import Mathlib.Data.Fintype.Card

namespace FlowOS.Process

open Fifo

/-! ## 1. `scheduler_remove` -/

theorem seekPrev_eq (s : Sched) (proc : Slot) (n : Nat) (prev : Slot) :
    seekPrev s proc n prev = seek s.queue.next proc n prev := by
  induction n generalizing prev with
  | zero => rfl
  | succ n ih =>
    have hnext : s.queue.next prev = (s.processTable prev).next := rfl
    rw [seekPrev, seek, hnext]
    cases (s.processTable prev).next with
    | none => rfl
    | some next => simp only [ih]

theorem setNext_queue (s : Sched) (p : Slot) (nx : Option Slot) :
    (setNext s p nx).queue = ⟨Function.update s.queue.next p nx, s.queue.head, s.queue.tail⟩ := by
  unfold Sched.queue
  rw [setNext_next]
  rfl

/-- **`scheduler_remove` is a removal.** -/
theorem schedulerRemove_queue (s : Sched) (proc : Slot) :
    (schedulerRemove s (some proc)).map Sched.queue = remove maxProcesses s.queue proc := by
  unfold schedulerRemove remove
  have hhead : s.queue.head = s.readyQueueHead := rfl
  rw [hhead]
  cases hr : s.readyQueueHead with
  | none => rfl
  | some head =>
    dsimp only
    by_cases hp : head = proc
    · rw [if_pos hp, if_pos hp]
      exact congrArg some (takeHead_queue s proc)
    · rw [if_neg hp, if_neg hp, seekPrev_eq]
      cases hseek : seek s.queue.next proc maxProcesses head with
      | none => rfl
      | some prev =>
        have hnext : s.queue.next prev = (s.processTable prev).next := rfl
        dsimp only
        rw [hnext]
        by_cases hlink : (s.processTable prev).next = some proc
        · rw [if_pos hlink, if_pos hlink, Option.map_some, setNext_queue]
          have htail : (setNext s prev (s.processTable proc).next).readyQueueTail
              = s.queue.tail := rfl
          have hprev := setNext_queue s prev (s.processTable proc).next
          rw [htail, ← hr]
          split
          · exact congrArg (fun q : Queue Slot =>
              some (⟨Function.update q.next proc none, q.head, some prev⟩ : Queue Slot)) hprev
          · exact congrArg (fun q : Queue Slot =>
              some (⟨Function.update q.next proc none, q.head, q.tail⟩ : Queue Slot)) hprev
        · rw [if_neg hlink, if_neg hlink]
          rfl

theorem length_le_processes {s : Sched} {q : List Slot} (h : Holds s.queue q) :
    q.length ≤ maxProcesses := by
  have hlen := List.Nodup.length_le_card h.nodup
  rwa [Fintype.card_fin] at hlen

/-- What it does to a queue with the processes `q`. -/
theorem schedulerRemove_holds {s : Sched} {q : List Slot} (h : Holds s.queue q) (proc : Slot) :
    ∃ s', schedulerRemove s (some proc) = some s' ∧ Holds s'.queue (q.erase proc) := by
  obtain ⟨queue, hremove, hholds⟩ := remove_holds h proc (length_le_processes h)
  rw [← schedulerRemove_queue] at hremove
  obtain ⟨s', hs', rfl⟩ := Option.map_eq_some_iff.mp hremove
  exact ⟨s', hs', hholds⟩

/-- A process that is not queued: nothing changes. -/
theorem schedulerRemove_absent {s : Sched} {q : List Slot} (h : Holds s.queue q) {proc : Slot}
    (hproc : proc ∉ q) : schedulerRemove s (some proc) = some s := by
  have hhead : s.readyQueueHead = q.head? := h.head
  unfold schedulerRemove
  cases q with
  | nil =>
    rw [hhead]
    rfl
  | cons p q =>
    obtain ⟨prev, hseek, hnext⟩ := h.seek_absent hproc (length_le_processes h)
    have hnext : (s.processTable prev).next = none := hnext
    have hp : p ≠ proc := fun he => hproc (he ▸ List.mem_cons_self)
    rw [hhead]
    dsimp only [List.head?_cons]
    rw [if_neg hp, seekPrev_eq, hseek]
    dsimp only
    rw [hnext, if_neg (by simp)]

/-! ## 2. Sequences of calls -/

/-- A call that edits the queue: `scheduler_add`, `scheduler_remove`, and the removal of the head by
`schedule`. -/
inductive QueueCall
  | add (proc : Slot)
  | remove (proc : Option Slot)
  | takeHead

def queueNext (s : Sched) : QueueCall → Sched
  | .add proc => schedulerAdd s proc
  | .remove proc => (schedulerRemove s proc).getD s  -- it always returns: `queue_fifo`
  | .takeHead =>
    match s.readyQueueHead with
    | some next => takeHead s next
    | none => s

/-- What the calls mean for the sequence of processes. -/
def fifoNext (q : List Slot) : QueueCall → List Slot
  | .add proc => q ++ [proc]
  | .remove none => q
  | .remove (some proc) => q.erase proc
  | .takeHead => q.tail

/-- Only processes that are not queued are added. -/
def Unqueued (q : List Slot) : QueueCall → Prop
  | .add proc => proc ∉ q
  | _ => True

instance (q : List Slot) : (c : QueueCall) → Decidable (Unqueued q c)
  | .add proc => inferInstanceAs (Decidable (proc ∉ q))
  | .remove _ => .isTrue trivial
  | .takeHead => .isTrue trivial

/-- **Step lemma.** -/
theorem queueNext_holds {s : Sched} {q : List Slot} (h : Holds s.queue q) {c : QueueCall}
    (hc : Unqueued q c) : Holds (queueNext s c).queue (fifoNext q c) := by
  cases c with
  | add proc =>
    rw [queueNext, schedulerAdd_queue]
    exact push_holds h hc
  | remove proc =>
    cases proc with
    | none => exact h
    | some proc =>
      obtain ⟨s', hremove, hholds⟩ := schedulerRemove_holds h proc
      rw [queueNext, hremove]
      exact hholds
  | takeHead =>
    have hhead : s.readyQueueHead = q.head? := h.head
    unfold queueNext
    cases q with
    | nil =>
      rw [hhead]
      exact h
    | cons p q =>
      rw [hhead]
      dsimp only [List.head?_cons]
      rw [takeHead_queue]
      exact pop_holds h

/-- **Run lemma.** -/
theorem queue_run_holds {s : Sched} {q : List Slot} (h : Holds s.queue q) {calls : List QueueCall}
    (hcalls : Trace.Along fifoNext Unqueued q calls) :
    Holds (calls.foldl queueNext s).queue (calls.foldl fifoNext q) := by
  induction calls generalizing s q with
  | nil => exact h
  | cons c calls ih => exact ih (queueNext_holds h hcalls.1) hcalls.2

/-- **The ready queue is a FIFO.**  After any sequence of calls that adds only processes which are
not queued, the pointers spell out the sequence of processes the calls have led to, with the tail
pointer at its last element; and there `scheduler_remove` returns for every process, and changes
nothing for one that is not queued. -/
theorem queue_fifo (s : Sched) (calls : List QueueCall)
    (hcalls : Trace.Along fifoNext Unqueued [] calls) :
    Holds (calls.foldl queueNext (schedulerInit s)).queue (calls.foldl fifoNext []) ∧
      ∀ proc, (schedulerRemove (calls.foldl queueNext (schedulerInit s)) proc).isSome ∧
        (proc ∉ (calls.foldl fifoNext []).map some →
          schedulerRemove (calls.foldl queueNext (schedulerInit s)) proc
            = some (calls.foldl queueNext (schedulerInit s))) := by
  have hinit : Holds (schedulerInit s).queue [] := ⟨trivial, rfl, rfl, List.nodup_nil⟩
  have h := queue_run_holds hinit hcalls
  refine ⟨h, fun proc => ?_⟩
  cases proc with
  | none => exact ⟨rfl, fun _ => rfl⟩
  | some proc =>
    obtain ⟨s', hremove, -⟩ := schedulerRemove_holds h proc
    refine ⟨by rw [hremove]; rfl, fun hproc => schedulerRemove_absent h fun hmem => hproc ?_⟩
    exact List.mem_map_of_mem hmem

/-- The static variables as the kernel image has them. -/
def zeroed : Sched where
  processTable _ := ⟨0, .unused, 0, 0, 0, 0, none, none, fun _ => 0⟩
  currentProcess := none
  readyQueueHead := none
  readyQueueTail := none
  nextPid := 0
  ticks := 0
  preemptionEnabled := false
  timeSlice := 0
  sliceRemaining := 0
  currentPdPhys := 0
  kernelPdPhys := 0
  mem _ := 0

/-- Of three processes the second and then the last one are removed, and a new one is added behind
the one that is left. -/
theorem queue_fifo_three :
    Holds ([.add 1, .add 2, .add 3, .remove (some 2), .remove (some 3), .add 4].foldl queueNext
      (schedulerInit zeroed)).queue [1, 4] := by
  have hcalls : Trace.Along fifoNext Unqueued []
      [.add 1, .add 2, .add 3, .remove (some 2), .remove (some 3), .add 4] := by decide
  exact (queue_fifo zeroed _ hcalls).1

end FlowOS.Process
