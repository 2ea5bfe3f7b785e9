/-
# Taking turns

The round of a scheduler with one queue, over any type of participants: one of them has its turn,
the others wait in order.  Newcomers are appended at any time; at a turn the head of the queue
follows, or somebody from outside it when there is nobody in the queue.

Whoever waits behind `n` others is served at the turn number `n + 1`, whatever else happens
(`Step.waits`).  A system that simulates the round inherits this: `Run.served`, for runs of any
transition system whose steps carry a label that says whether they are turns.
-/
import Mathlib.Data.List.Basic

namespace Rotation

variable {α : Type}

/-! ## 1. The round -/

/-- A step of the round; `true` is a turn. -/
inductive Step : α × List α → Bool → α × List α → Prop
  | stay (c : α) (q w : List α) : Step (c, q) false (c, q ++ w)
  | turn {c next : α} {q w q' : List α} (h : q ++ w = next :: q') : Step (c, q) true (next, q')
  | idle (c next : α) : Step (c, []) true (next, [])

/-- **One step.**  Who waits behind `pre` goes on waiting behind `pre`, or at a turn behind the rest
of it; at the head of the queue a turn is the own one. -/
theorem Step.waits {c p : α} {pre post : List α} {b : Bool} {x : α × List α}
    (h : Step (c, pre ++ p :: post) b x) :
    (b = false ∧ ∃ post', x.2 = pre ++ p :: post') ∨
    (b = true ∧ pre = [] ∧ x.1 = p) ∨
    (b = true ∧ pre ≠ [] ∧ ∃ post', x.2 = pre.tail ++ p :: post') := by
  generalize hq : pre ++ p :: post = q at h
  cases h with
  | stay _ _ w => exact Or.inl ⟨rfl, post ++ w, by simp [← hq]⟩
  | @turn _ next _ w q' h =>
    rw [← hq] at h
    cases pre with
    | nil => exact Or.inr (Or.inl ⟨rfl, rfl, (List.cons.inj h).1.symm⟩)
    | cons y pre =>
      refine Or.inr (Or.inr ⟨rfl, List.cons_ne_nil y pre, post ++ w, ?_⟩)
      have htail := (List.cons.inj h).2
      rw [← htail]
      simp
  | idle => simp at hq

/-! ## 2. Runs -/

section Runs

variable {τ β : Type}

/-- The runs of a transition system, with the labels of their steps. -/
inductive Run (step : τ → β → τ → Prop) : τ → List β → τ → Prop
  | refl (t : τ) : Run step t [] t
  | head {t t₁ t' : τ} {b : β} {ls : List β} (h : step t b t₁) (hrun : Run step t₁ ls t') :
      Run step t (b :: ls) t'

variable {step : τ → β → τ → Prop} {t t' : τ} {ls ls' : List β}

theorem Run.append {t'' : τ} (h : Run step t ls t') (h' : Run step t' ls' t'') :
    Run step t (ls ++ ls') t'' := by
  induction h with
  | refl => exact h'
  | head hstep _ ih => exact .head hstep (ih h')

/-- An invariant of the steps is one of the runs. -/
theorem Run.keeps {P : τ → Prop} (hstep : ∀ t b t', P t → step t b t' → P t')
    (h : Run step t ls t') (ht : P t) : P t' := by
  induction h with
  | refl => exact ht
  | head hs _ ih => exact ih (hstep _ _ _ ht hs)

/-- `P` holds somewhere on a run, after the labels `ls₁` of it. -/
def Passes (step : τ → β → τ → Prop) (t : τ) (ls : List β) (t' : τ) (ls₁ : List β)
    (P : τ → Prop) : Prop :=
  ∃ t₁ ls₂, ls = ls₁ ++ ls₂ ∧ Run step t ls₁ t₁ ∧ Run step t₁ ls₂ t' ∧ P t₁

theorem Passes.cons {t₁ : τ} {b : β} {ls₁ : List β} {P : τ → Prop} (h : step t b t₁)
    (hp : Passes step t₁ ls t' ls₁ P) : Passes step t (b :: ls) t' (b :: ls₁) P := by
  obtain ⟨x, ls₂, rfl, h₁, h₂, hx⟩ := hp
  exact ⟨x, ls₂, rfl, .head h h₁, h₂, hx⟩

/-- The state after the first `n` steps. -/
theorem Run.split (h : Run step t ls t') {n : Nat} (hn : n ≤ ls.length) :
    Passes step t ls t' (ls.take n) fun _ => True := by
  induction h generalizing n with
  | refl t => exact ⟨t, [], by simp, by simpa using .refl t, .refl t, trivial⟩
  | @head t t₁ t' b ls hs hrun ih =>
    cases n with
    | zero => exact ⟨t, b :: ls, rfl, .refl t, .head hs hrun, trivial⟩
    | succ n => exact (ih (Nat.le_of_succ_le_succ hn)).cons hs

end Runs

/-! ## 3. Systems that take turns -/

section Simulation

variable {τ β : Type} {step : τ → β → τ → Prop} {turn : β → Bool} {R : τ → α × List α → Prop}
  (hsim : ∀ {t b t' x}, R t x → step t b t' → ∃ x', R t' x' ∧ Step x (turn b) x')

include hsim

/-- **A system that simulates the round serves everybody**: who waits behind `pre` is served in
every run with more turns than `pre` has members, at the turn after the last of them. -/
theorem Run.served {t t' : τ} {ls : List β} (h : Run step t ls t') {c p : α} {pre post : List α}
    (hR : R t (c, pre ++ p :: post)) (hn : pre.length < ls.countP turn) :
    ∃ ls₁, ls₁.countP turn = pre.length + 1 ∧
      Passes step t ls t' ls₁ fun t₁ => ∃ q, R t₁ (p, q) := by
  induction h generalizing c pre post with
  | refl => simp at hn
  | @head t t₁ t' b ls hs hrun ih =>
    obtain ⟨x, hRx, hx⟩ := hsim hR hs
    rw [List.countP_cons] at hn
    rcases hx.waits with ⟨hb, post', hq⟩ | ⟨hb, rfl, hp⟩ | ⟨hb, hne, post', hq⟩
    · rw [hb, if_neg Bool.false_ne_true] at hn
      obtain ⟨ls₁, hls, hpass⟩ := ih (c := x.1) (by rw [← hq]; exact hRx) hn
      exact ⟨b :: ls₁, by rw [List.countP_cons, hb, if_neg Bool.false_ne_true, hls],
        hpass.cons hs⟩
    · refine ⟨[b], by simp [hb], t₁, ls, rfl, .head hs (.refl t₁), hrun, x.2, ?_⟩
      rw [← hp]
      exact hRx
    · rw [hb, if_pos rfl] at hn
      have hlen : pre.tail.length + 1 = pre.length := by
        rw [List.length_tail]
        have := List.length_pos_iff.mpr hne
        omega
      obtain ⟨ls₁, hls, hpass⟩ := ih (c := x.1) (by rw [← hq]; exact hRx) (by omega)
      exact ⟨b :: ls₁, by rw [List.countP_cons, hb, if_pos rfl, hls, hlen], hpass.cons hs⟩

/-- **Nobody is overtaken**: after `n` turns the first `n` are gone and the others are where they
were. -/
theorem Run.behind {t t' : τ} {ls : List β} (h : Run step t ls t') {c p : α} {pre post : List α}
    (hR : R t (c, pre ++ p :: post)) (hn : ls.countP turn ≤ pre.length) :
    ∃ c' post', R t' (c', pre.drop (ls.countP turn) ++ p :: post') := by
  induction h generalizing c pre post with
  | refl => exact ⟨c, post, hR⟩
  | @head t t₁ t' b ls hs hrun ih =>
    obtain ⟨x, hRx, hx⟩ := hsim hR hs
    rw [List.countP_cons] at hn ⊢
    rcases hx.waits with ⟨hb, post', hq⟩ | ⟨hb, rfl, hp⟩ | ⟨hb, hne, post', hq⟩
    · rw [hb, if_neg Bool.false_ne_true, Nat.add_zero] at hn ⊢
      exact ih (c := x.1) (by rw [← hq]; exact hRx) hn
    · rw [hb, if_pos rfl] at hn
      simp at hn
    · rw [hb, if_pos rfl] at hn ⊢
      rw [← List.drop_one] at hq
      have hRx' : R t₁ (x.1, pre.drop 1 ++ p :: post') := by
        rw [← hq]
        exact hRx
      obtain ⟨c', post'', h'⟩ := ih hRx' (by rw [List.length_drop]; omega)
      rw [List.drop_drop, Nat.add_comm 1] at h'
      exact ⟨c', post'', h'⟩

end Simulation

end Rotation
