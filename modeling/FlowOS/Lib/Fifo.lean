/-
# A FIFO queue linked through its elements

The queue of a scheduler: every element has one `next` pointer of its own, and the queue is a
pointer to the first element and a pointer to the last one.  `Holds s q` says that these pointers
spell out the list `q`, without repetition; `push`, `pop` and `remove` are the usual pointer
manipulations, and the three theorems say that they are appending at the end of `q`, taking its head
off, and deleting an element wherever it stands.
-/
import FlowOS.Lib.Linked
import Mathlib.Logic.Function.Basic

namespace Fifo

open Linked

variable {α : Type}

/-- The pointers of a queue over the elements `α`; `none` is the null pointer. -/
structure Queue (α : Type) where
  next : α → Option α
  head : Option α
  tail : Option α

/-- Following a pointer; the null pointer leads nowhere. -/
def follow (next : α → Option α) (p : Option α) : Option α := p.bind next

/-- **What the pointers spell out.**  Starting from `head`, the elements `q` follow each other
through `next`, the last one has no next element and is `tail`, and none occurs twice. -/
structure Holds (s : Queue α) (q : List α) : Prop where
  links : Seg (follow s.next) (q.map some) none
  head : s.head = q.head?
  tail : s.tail = q.getLast?
  nodup : q.Nodup

variable {s : Queue α} {q : List α} {a : α}

theorem headD_map_some (q : List α) : (q.map some).headD none = q.head? := by
  cases q <;> rfl

/-- The first pointer of a held list. -/
theorem Holds.next_head (h : Holds s (a :: q)) : s.next a = q.head? := by
  have := h.links.1
  rwa [headD_map_some] at this

/-- The last element has no next one. -/
theorem Holds.next_tail {q : List α} (h : Holds s q) (ha : s.tail = some a) : s.next a = none := by
  rw [h.tail] at ha
  obtain ⟨pre, rfl⟩ := List.getLast?_eq_some_iff.mp ha
  have hl := h.links
  rw [List.map_append, seg_append] at hl
  exact hl.2.1

/-- A queue is empty exactly when its head pointer is null, and when its tail pointer is. -/
theorem Holds.head_none_iff (h : Holds s q) : s.head = none ↔ q = [] := by
  rw [h.head, List.head?_eq_none_iff]

theorem Holds.tail_none_iff (h : Holds s q) : s.tail = none ↔ q = [] := by
  rw [h.tail, List.getLast?_eq_none_iff]

/-- The pointers spell out one list. -/
theorem Holds.unique {q' : List α} (h : Holds s q) (h' : Holds s q') : q = q' := by
  have key : ∀ {q q' : List α}, q.head? = q'.head? → Seg (follow s.next) (q.map some) none →
      Seg (follow s.next) (q'.map some) none → q = q' := by
    intro q
    induction q with
    | nil =>
      intro q' hhead _ _
      exact (List.head?_eq_none_iff.mp hhead.symm).symm
    | cons x q ih =>
      intro q' hhead hl hl'
      obtain ⟨rest, rfl⟩ := List.head?_eq_some_iff.mp hhead.symm
      have hnext : q.head? = rest.head? := by
        rw [← headD_map_some, ← headD_map_some]
        exact hl.1.symm.trans hl'.1
      rw [ih hnext hl.2 hl'.2]
  exact key (h.head.symm.trans h'.head) h.links h'.links

/-- Changing pointers of elements that are not queued does not change what is held. -/
theorem Holds.congr {s' : Queue α} (h : Holds s q) (hhead : s'.head = s.head)
    (htail : s'.tail = s.tail) (hnext : ∀ x ∈ q, s'.next x = s.next x) : Holds s' q := by
  refine ⟨h.links.congr ?_, hhead.trans h.head, htail.trans h.tail, h.nodup⟩
  intro p hp
  obtain ⟨x, hx, rfl⟩ := List.mem_map.mp hp
  exact hnext x hx

/-! ## Push and pop -/

section Ops

variable [DecidableEq α]

/-- Append an element: clear its pointer, link it after the last one. -/
def push (s : Queue α) (a : α) : Queue α :=
  let next := Function.update s.next a none
  match s.tail with
  | none => ⟨next, some a, some a⟩
  | some t => ⟨Function.update next t (some a), s.head, some a⟩

/-- Take the first element off: the queue starts at its `next`, its pointer is cleared, and an
emptied queue loses its tail pointer. -/
def pop (s : Queue α) (a : α) : Queue α :=
  ⟨Function.update s.next a none, s.next a, if s.next a = none then none else s.tail⟩

/-- **Pushing appends at the end.** -/
theorem push_holds (h : Holds s q) (ha : a ∉ q) : Holds (push s a) (q ++ [a]) := by
  unfold push
  cases ht : s.tail with
  | none =>
    obtain rfl := h.tail_none_iff.mp ht
    exact ⟨⟨by simp [follow], trivial⟩, rfl, rfl, by simp⟩
  | some t =>
    obtain ⟨pre, rfl⟩ := List.getLast?_eq_some_iff.mp (h.tail.symm.trans ht)
    have hta : t ≠ a := fun hta => ha (by simp [hta])
    have hnd := h.nodup
    have hl := h.links
    rw [List.map_append, seg_append] at hl
    refine ⟨?_, ?_, by simp, ?_⟩
    · rw [List.append_assoc, List.map_append, seg_append]
      refine ⟨hl.1.congr ?_, by simp [follow], by simp [follow, hta.symm], trivial⟩
      intro p hp
      obtain ⟨x, hx, rfl⟩ := List.mem_map.mp hp
      have hxt : x ≠ t := by
        rintro rfl
        exact (List.nodup_append.mp hnd).2.2 x hx x (by simp) rfl
      have hxa : x ≠ a := fun hxa => ha (by simp [← hxa, hx])
      simp [follow, hxt, hxa]
    · rw [h.head]
      cases pre <;> simp
    · refine List.nodup_append.mpr ⟨hnd, by simp, ?_⟩
      intro x hx y hy hxy
      obtain rfl := List.mem_singleton.mp hy
      exact ha (hxy ▸ hx)

/-- **Popping takes the head off.** -/
theorem pop_holds (h : Holds s (a :: q)) : Holds (pop s a) q := by
  have hna := List.nodup_cons.mp h.nodup
  refine ⟨h.links.2.congr ?_, h.next_head, ?_, hna.2⟩
  · intro p hp
    obtain ⟨x, hx, rfl⟩ := List.mem_map.mp hp
    have hxa : x ≠ a := by
      rintro rfl
      exact hna.1 hx
    simp [pop, follow, hxa]
  · have hn := h.next_head
    have ht := h.tail
    cases q with
    | nil => simp [pop, hn]
    | cons b q => simp [pop, hn, ht]

/-! ## Removal -/

/-- Walk from `prev` to the element in front of `a`, or to the last one; `none` if that takes more
than `n` steps. -/
def seek (next : α → Option α) (a : α) : Nat → α → Option α
  | 0, _ => none
  | n + 1, prev =>
    match next prev with
    | none => some prev
    | some p => if p = a then some prev else seek next a n p

/-- Remove an element: the head is popped; any other one is unlinked from the element in front of
it, which becomes the last one if the removed element was. -/
def remove (fuel : Nat) (s : Queue α) (a : α) : Option (Queue α) :=
  match s.head with
  | none => some s
  | some h =>
    if h = a then some (pop s a)
    else
      match seek s.next a fuel h with
      | none => none
      | some prev =>
        if s.next prev = some a then
          some ⟨Function.update (Function.update s.next prev (s.next a)) a none, s.head,
            if s.tail = some a then some prev else s.tail⟩
        else some s

/-- **The walk ends** at the element in front of `a`, or at the end of a list without `a`. -/
theorem seek_ends {next : α → Option α} {p : α} {l : List α} {n : Nat}
    (hl : Seg (follow next) ((p :: l).map some) none) (hp : p ≠ a) (hn : l.length < n) :
    ∃ pre prev post, p :: l = pre ++ prev :: post ∧ seek next a n p = some prev ∧ a ∉ pre ∧
      prev ≠ a ∧ (post = [] ∨ ∃ post', post = a :: post') := by
  induction l generalizing p n with
  | nil =>
    obtain ⟨n, rfl⟩ := Nat.exists_eq_add_one.mpr hn
    have hnext : next p = none := hl.1
    exact ⟨[], p, [], rfl, by rw [seek, hnext], by simp, hp, Or.inl rfl⟩
  | cons b l ih =>
    obtain ⟨n, rfl⟩ := Nat.exists_eq_add_one.mpr (Nat.zero_lt_of_lt hn)
    have hnext : next p = some b := hl.1
    by_cases hb : b = a
    · subst hb
      refine ⟨[], p, b :: l, rfl, ?_, by simp, hp, Or.inr ⟨l, rfl⟩⟩
      rw [seek, hnext]
      exact if_pos rfl
    · obtain ⟨pre, prev, post, hsplit, hseek, hpre, hprev, hpost⟩ := ih hl.2 hb (by simpa using hn)
      refine ⟨p :: pre, prev, post, by rw [hsplit]; rfl, ?_, ?_, hprev, hpost⟩
      · rw [seek, hnext]
        exact (if_neg hb).trans hseek
      · simp [hp.symm, hpre]

/-- In a queue without `a` it ends at the last element. -/
theorem Holds.seek_absent {b : α} {fuel : Nat} (h : Holds s (b :: q)) (ha : a ∉ b :: q)
    (hfuel : q.length < fuel) : ∃ prev, seek s.next a fuel b = some prev ∧ s.next prev = none := by
  obtain ⟨pre, prev, post, hsplit, hseek, -, -, rfl | ⟨post, rfl⟩⟩ :=
    seek_ends h.links (fun hb => ha (hb ▸ List.mem_cons_self)) hfuel
  · rw [hsplit] at h
    exact ⟨prev, hseek, h.next_tail (by rw [h.tail]; simp)⟩
  · exact absurd (by simp [hsplit]) ha

/-- The pointers after unlinking `a` from `prev`. -/
theorem unlink_holds {pre post : List α} {prev : α} (h : Holds s (pre ++ prev :: a :: post)) :
    Holds ⟨Function.update (Function.update s.next prev (s.next a)) a none, s.head,
      if s.tail = some a then some prev else s.tail⟩ (pre ++ prev :: post) := by
  have hl := h.links
  rw [List.map_append, seg_append] at hl
  obtain ⟨hpre, -, hnexta, hpost⟩ := hl
  have hnexta : s.next a = post.head? := hnexta.trans (headD_map_some post)
  obtain ⟨-, hndr, hapart⟩ := List.nodup_append.mp h.nodup
  obtain ⟨hprev, hnda⟩ := List.nodup_cons.mp hndr
  obtain ⟨ha, -⟩ := List.nodup_cons.mp hnda
  have hne : prev ≠ a := fun he => hprev (he ▸ List.mem_cons_self)
  -- the other elements keep their pointers
  have hsame : ∀ x, x ≠ prev → x ≠ a →
      follow (Function.update (Function.update s.next prev (s.next a)) a none) (some x)
        = follow s.next (some x) := by
    intro x hxp hxa
    simp [follow, hxp, hxa]
  refine ⟨?_, ?_, ?_, ?_⟩
  · rw [List.map_append, seg_append]
    refine ⟨hpre.congr fun p hp => ?_, ?_, hpost.congr fun p hp => ?_⟩
    · obtain ⟨x, hx, rfl⟩ := List.mem_map.mp hp
      exact hsame x (hapart x hx prev (by simp)) (hapart x hx a (by simp))
    · rw [headD_map_some, ← hnexta]
      simp [follow, hne]
    · obtain ⟨x, hx, rfl⟩ := List.mem_map.mp hp
      exact hsame x (fun he => hprev (he ▸ List.mem_cons_of_mem a hx)) fun he => ha (he ▸ hx)
  · rw [h.head]
    cases pre <;> rfl
  · rw [h.tail]
    cases post with
    | nil => simp
    | cons b post =>
      have hlast : (b :: post).getLast? ≠ some a := fun he => ha (List.mem_of_getLast? he)
      rw [List.getLast?_append_cons, List.getLast?_append_cons, List.getLast?_cons_cons,
        List.getLast?_cons_cons, List.getLast?_cons_cons, if_neg hlast]
  · exact h.nodup.sublist (by simp)

/-- **Removing deletes the element**, if it is in the queue. -/
theorem remove_holds (h : Holds s q) (a : α) {fuel : Nat} (hfuel : q.length ≤ fuel) : ∃ s',
    remove fuel s a = some s' ∧ Holds s' (q.erase a) := by
  unfold remove
  cases q with
  | nil =>
    rw [h.head]
    exact ⟨s, rfl, h⟩
  | cons b q =>
    have hhead : s.head = some b := h.head
    rw [hhead]
    dsimp only
    by_cases hb : b = a
    · subst hb
      rw [if_pos rfl, List.erase_cons_head]
      exact ⟨_, rfl, pop_holds h⟩
    · rw [if_neg hb]
      obtain ⟨pre, prev, post, hsplit, hseek, hpre, hprev, hpost⟩ := seek_ends h.links hb hfuel
      rw [hseek, hsplit]
      rw [hsplit] at h
      dsimp only
      rcases hpost with rfl | ⟨post, rfl⟩
      · -- the walk has come to the end
        have hnot : a ∉ pre ++ [prev] := by simp [hpre, hprev.symm]
        have hnext : s.next prev = none := h.next_tail (by rw [h.tail]; simp)
        rw [hnext, if_neg (by simp), List.erase_of_not_mem hnot]
        exact ⟨s, rfl, h⟩
      · have hnext : s.next prev = some a := by
          have hl := h.links
          rw [List.map_append, seg_append] at hl
          exact hl.2.1
        have herase : (pre ++ prev :: a :: post).erase a = pre ++ prev :: post := by
          rw [List.erase_append_right _ hpre, List.erase_cons_tail (by simpa using hprev),
            List.erase_cons_head]
        rw [if_pos hnext, herase, ← hhead]
        exact ⟨_, rfl, unlink_holds h⟩

end Ops

end Fifo
