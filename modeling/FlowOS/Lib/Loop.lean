/-
# Loops that return early

`for (i = start; i < start + n; i++) if (f(i)) return ...;`: the loop that searches a range of
numbers and returns at the first one that answers.  It is a function of the remaining rounds, so
that it stops computing where the loop stops.

A `while` loop with nothing to count is a function of fuel, the number of rounds it may make.
What decides about its end is a small part of its state, the place it has got to: `returns_iff`
says that it returns for some fuel exactly when one of the places on its way is a stop.

A loop that fills a table writes to a place of its own in each round; `fill_at` and `fill_other`
read the table afterwards.
-/
import Mathlib.Data.List.Induction
import Mathlib.Data.Nat.Init
import Mathlib.Logic.Function.Basic
import Mathlib.Logic.Function.Iterate

namespace Loop

/-! ## 1. Counting loops -/

variable {β : Type}

/-- The first answer of `f` among the `n` numbers from `i` on. -/
def firstSome (f : Nat → Option β) : Nat → Nat → Option β
  | 0, _ => none
  | n + 1, i =>
    match f i with
    | some b => some b
    | none => firstSome f n (i + 1)

/-- The loop returns an answer of the range, and nothing before it had one. -/
theorem firstSome_some {f : Nat → Option β} {n i : Nat} {b : β} (h : firstSome f n i = some b) :
    ∃ k, i ≤ k ∧ k < i + n ∧ f k = some b ∧ ∀ k', i ≤ k' → k' < k → f k' = none := by
  induction n generalizing i with
  | zero => cases h
  | succ n ih =>
    rw [firstSome] at h
    split at h
    · rename_i b' hb
      obtain rfl := Option.some.inj h
      exact ⟨i, Nat.le_refl i, by omega, hb, fun k' h1 h2 => by omega⟩
    · rename_i hnone
      obtain ⟨k, hik, hkn, hk, hmin⟩ := ih h
      refine ⟨k, by omega, by omega, hk, ?_⟩
      intro k' h1 h2
      rcases Nat.eq_or_lt_of_le h1 with rfl | h1
      · exact hnone
      · exact hmin k' h1 h2

/-- The loop runs to its end exactly when nothing in the range has an answer. -/
theorem firstSome_none {f : Nat → Option β} {n i : Nat} :
    firstSome f n i = none ↔ ∀ k, i ≤ k → k < i + n → f k = none := by
  induction n generalizing i with
  | zero =>
    constructor
    · intro _ k h1 h2
      omega
    · intro _
      rfl
  | succ n ih =>
    rw [firstSome]
    split
    · rename_i b hb
      refine iff_of_false (by simp) fun hall => ?_
      rw [hall i (Nat.le_refl i) (by omega)] at hb
      cases hb
    · rename_i hnone
      rw [ih]
      constructor
      · intro hall k h1 h2
        rcases Nat.eq_or_lt_of_le h1 with rfl | h1
        · exact hnone
        · exact hall k h1 (by omega)
      · intro hall k h1 h2
        exact hall k (by omega) (by omega)

/-! ## 2. Loops that may not end -/

section Rounds

variable {α σ ρ : Type} (next : α → α) (Stops : α → Prop)

/-- The loop gets to round `k` from `a`: none of the places before it is a stop. -/
def Gets (a : α) (k : Nat) : Prop := ∀ j < k, ¬Stops (next^[j] a)

variable {next Stops}

theorem gets_zero (a : α) : Gets next Stops a 0 := fun j hj => absurd hj (Nat.not_lt_zero j)

theorem gets_succ {a : α} {k : Nat} :
    Gets next Stops a (k + 1) ↔ ¬Stops a ∧ Gets next Stops (next a) k := by
  constructor
  · intro h
    exact ⟨h 0 (Nat.succ_pos k), fun j hj => h (j + 1) (Nat.succ_lt_succ hj)⟩
  · rintro ⟨h0, h⟩ j hj
    cases j with
    | zero => exact h0
    | succ j => exact h j (Nat.lt_of_succ_lt_succ hj)

/-- **When a loop returns.**  Let `E` be a loop with fuel and `place` what decides about its end:
at a stop the round returns, elsewhere the loop goes on at the next place.  Then it returns for
some fuel if and only if there is a stop on its way. -/
theorem returns_iff {E : Nat → σ → Option ρ} {I : σ → Prop} {place : σ → α}
    (hzero : ∀ s, E 0 s = none)
    (hstop : ∀ s, I s → Stops (place s) → ∀ n, ∃ r, E (n + 1) s = some r)
    (hgo : ∀ s, I s → ¬Stops (place s) →
      ∃ s', I s' ∧ place s' = next (place s) ∧ ∀ n, E (n + 1) s = E n s')
    {s : σ} (hs : I s) : (∃ n r, E n s = some r) ↔ ∃ k, Stops (next^[k] (place s)) := by
  constructor
  · rintro ⟨n, r, h⟩
    induction n generalizing s with
    | zero =>
      rw [hzero] at h
      cases h
    | succ n ih =>
      by_cases hst : Stops (place s)
      · exact ⟨0, hst⟩
      · obtain ⟨s', hs', hplace, heq⟩ := hgo s hs hst
        rw [heq] at h
        obtain ⟨k, hk⟩ := ih hs' h
        rw [hplace] at hk
        exact ⟨k + 1, hk⟩
  · rintro ⟨k, hk⟩
    induction k generalizing s with
    | zero => exact ⟨1, hstop s hs hk 0⟩
    | succ k ih =>
      by_cases hst : Stops (place s)
      · exact ⟨1, hstop s hs hst 0⟩
      · obtain ⟨s', hs', hplace, heq⟩ := hgo s hs hst
        rw [Function.iterate_succ_apply, ← hplace] at hk
        obtain ⟨n, r, h⟩ := ih hs' hk
        exact ⟨n + 1, r, (heq n).trans h⟩

/-- **Getting to a round.**  With no stop before it, the loop does come to the round, in a state
at the place that belongs to it; `I` may count the rounds that are left. -/
theorem gets_run {E : Nat → σ → Option ρ} {I : Nat → σ → Prop} {place : σ → α}
    (hgo : ∀ k s, I (k + 1) s → ¬Stops (place s) →
      ∃ s', I k s' ∧ place s' = next (place s) ∧ ∀ n, E (n + 1) s = E n s')
    {k : Nat} {s : σ} (hs : I k s) (hgets : Gets next Stops (place s) k) :
    ∃ s', I 0 s' ∧ place s' = next^[k] (place s) ∧ ∀ n, E (n + k) s = E n s' := by
  induction k generalizing s with
  | zero => exact ⟨s, hs, rfl, fun n => rfl⟩
  | succ k ih =>
    obtain ⟨hst, hrest⟩ := gets_succ.mp hgets
    obtain ⟨s₁, hs₁, hplace₁, heq₁⟩ := hgo k s hs hst
    rw [← hplace₁] at hrest
    obtain ⟨s', hs', hplace, heq⟩ := ih hs₁ hrest
    refine ⟨s', hs', ?_, ?_⟩
    · rw [hplace, hplace₁, Function.iterate_succ_apply]
    · intro n
      rw [← Nat.add_assoc, heq₁, heq]

/-- **What a loop has done when it returns.**  `V` holds of every place on the way; a round at
such a place returns something good or goes on at the next place. -/
theorem gets_rule {E : Nat → σ → Option ρ} {Ok : σ → Prop} {Done : ρ → Prop} {place : σ → α}
    {V : α → Prop} (hzero : ∀ s, E 0 s = none)
    (hround : ∀ n s r, Ok s → V (place s) → E (n + 1) s = some r →
      Done r ∨ ¬Stops (place s) ∧ ∃ s', Ok s' ∧ place s' = next (place s) ∧ E n s' = some r)
    {n : Nat} {s : σ} {r : ρ} (hs : Ok s)
    (hV : ∀ k, Gets next Stops (place s) k → V (next^[k] (place s))) (h : E n s = some r) :
    Done r := by
  induction n generalizing s with
  | zero =>
    rw [hzero] at h
    cases h
  | succ n ih =>
    rcases hround n s r hs (hV 0 (gets_zero _)) h with hdone | ⟨hst, s', hs', hplace, h'⟩
    · exact hdone
    · refine ih hs' ?_ h'
      intro k hk
      rw [hplace] at hk ⊢
      exact hV (k + 1) (gets_succ.mpr ⟨hst, hk⟩)

end Rounds

/-! ## 3. Loops that fill a table -/

section Fill

variable {ι κ : Type} [DecidableEq κ]

/-- One write for each member of a list. -/
def fill (key : ι → κ) (val : ι → β) (g : κ → β) (l : List ι) : κ → β :=
  l.foldl (fun g i => Function.update g (key i) (val i)) g

theorem fill_snoc (key : ι → κ) (val : ι → β) (g : κ → β) (l : List ι) (j : ι) :
    fill key val g (l ++ [j]) = Function.update (fill key val g l) (key j) (val j) := by
  rw [fill, List.foldl_append]
  rfl

/-- A place that is written to, always with the same value. -/
theorem fill_at {key : ι → κ} {val : ι → β} (g : κ → β) {l : List ι} {i : ι} (hi : i ∈ l)
    (hval : ∀ j ∈ l, key j = key i → val j = val i) : fill key val g l (key i) = val i := by
  induction l using List.reverseRecOn with
  | nil => exact absurd hi List.not_mem_nil
  | append_singleton l j ih =>
    rw [fill_snoc]
    by_cases hji : key j = key i
    · rw [hji, Function.update_self]
      exact hval j (List.mem_append_right l (List.mem_singleton.mpr rfl)) hji
    · rw [Function.update_of_ne (Ne.symm hji)]
      refine ih ((List.mem_append.mp hi).resolve_right fun h => ?_)
        fun x hx => hval x (List.mem_append_left [j] hx)
      exact hji (congrArg key (List.mem_singleton.mp h)).symm

theorem fill_other {key : ι → κ} (val : ι → β) (g : κ → β) {l : List ι} {k : κ}
    (hk : ∀ i ∈ l, key i ≠ k) : fill key val g l k = g k := by
  induction l using List.reverseRecOn with
  | nil => rfl
  | append_singleton l j ih =>
    rw [fill_snoc, Function.update_of_ne
      (hk j (List.mem_append_right l (List.mem_singleton.mpr rfl))).symm]
    exact ih fun i hi => hk i (List.mem_append_left [j] hi)

end Fill

end Loop
