/-
# Programs with a state and early exits

A program is an `EStateM` computation: it returns a value in a new state, or it leaves early.
The module gives the inversion rules (what a program that returned must have done) and the rules
for comparing two runs: `Follows R x s` says that a run of `x` from a state related to `s` goes
the way the run from `s` does, and ends in related states.  `Moves R x s` speaks of one run: it
ends, returning or not, in a state related to `s`.  `Ends P x Q E` is the triple of pre- and
postconditions, with a postcondition of its own for each way out.
-/
import Mathlib.Logic.Basic

namespace Prog

variable {ε σ α β : Type}

/-! ## 1. Inversion -/

/-- A sequence that returned has returned from both parts. -/
theorem bind_ok {x : EStateM ε σ α} {f : α → EStateM ε σ β} {s s' : σ} {b : β}
    (h : (x >>= f) s = .ok b s') : ∃ a s₁, x s = .ok a s₁ ∧ f a s₁ = .ok b s' := by
  change EStateM.bind x f s = .ok b s' at h
  unfold EStateM.bind at h
  split at h
  · rename_i a s₁ hx
    exact ⟨a, s₁, hx, h⟩
  · cases h

theorem bind_eq {x : EStateM ε σ α} {f : α → EStateM ε σ β} {s s₁ : σ} {a : α}
    (h : x s = .ok a s₁) : (x >>= f) s = f a s₁ := by
  change EStateM.bind x f s = f a s₁
  rw [EStateM.bind, h]

theorem bind_error {x : EStateM ε σ α} {f : α → EStateM ε σ β} {s s₁ : σ} {e : ε}
    (h : x s = .error e s₁) : (x >>= f) s = .error e s₁ := by
  change EStateM.bind x f s = .error e s₁
  rw [EStateM.bind, h]

theorem pure_ok {a b : α} {s s' : σ} (h : (pure a : EStateM ε σ α) s = .ok b s') :
    a = b ∧ s = s' := by
  cases h
  exact ⟨rfl, rfl⟩

theorem throw_ok {e : ε} {b : α} {s s' : σ} (h : (throw e : EStateM ε σ α) s = .ok b s') :
    False := by
  cases h

/-! ## 2. Related runs -/

/-- The runs from states related to `s` return what the run from `s` returns, in related
states. -/
def Follows (R : σ → σ → Prop) (x : EStateM ε σ α) (s : σ) : Prop :=
  ∀ ⦃t⦄, R s t → ∀ ⦃a s'⦄, x s = .ok a s' → ∃ t', x t = .ok a t' ∧ R s' t'

variable {R : σ → σ → Prop} {s : σ}

theorem follows_pure (a : α) : Follows R (pure a : EStateM ε σ α) s := by
  intro t hst b s' h
  obtain ⟨rfl, rfl⟩ := pure_ok h
  exact ⟨t, rfl, hst⟩

theorem follows_throw (e : ε) : Follows R (throw e : EStateM ε σ α) s :=
  fun _ _ _ _ h => (throw_ok h).elim

theorem Follows.bind {x : EStateM ε σ α} {f : α → EStateM ε σ β} (hx : Follows R x s)
    (hf : ∀ a s₁, x s = .ok a s₁ → Follows R (f a) s₁) : Follows R (x >>= f) s := by
  intro t hst b s' h
  obtain ⟨a, s₁, h₁, h₂⟩ := bind_ok h
  obtain ⟨t₁, ht₁, hst₁⟩ := hx hst h₁
  obtain ⟨t', ht', hst'⟩ := hf a s₁ h₁ hst₁ h₂
  exact ⟨t', (bind_eq ht₁).trans ht', hst'⟩

/-! ## 3. Where a run can go -/

/-- The state a run ends in. -/
def endState : EStateM.Result ε σ α → σ
  | .ok _ s => s
  | .error _ s => s

/-- The run of `x` from `s` ends in a state that `R` relates to `s`. -/
def Moves (R : σ → σ → Prop) (x : EStateM ε σ α) (s : σ) : Prop := R s (endState (x s))

theorem moves_pure (hrefl : ∀ s, R s s) (a : α) : Moves R (pure a : EStateM ε σ α) s := hrefl s

theorem moves_throw (hrefl : ∀ s, R s s) (e : ε) : Moves R (throw e : EStateM ε σ α) s := hrefl s

theorem Moves.bind {x : EStateM ε σ α} {f : α → EStateM ε σ β}
    (htrans : ∀ s t u, R s t → R t u → R s u) (hx : Moves R x s)
    (hf : ∀ a s₁, x s = .ok a s₁ → Moves R (f a) s₁) : Moves R (x >>= f) s := by
  change R s (endState (EStateM.bind x f s))
  unfold Moves at hx
  unfold EStateM.bind
  cases hrun : x s with
  | ok a s₁ =>
    rw [hrun] at hx
    exact htrans _ _ _ hx (hf a s₁ hrun)
  | error e s₁ =>
    rw [hrun] at hx
    exact hx

/-! ## 4. Pre- and postconditions -/

/-- From a state with `P`, a run of `x` returns a value and a state with `Q`, or leaves early with
`E`. -/
def Ends (P : σ → Prop) (x : EStateM ε σ α) (Q : α → σ → Prop) (E : ε → σ → Prop) : Prop :=
  ∀ s, P s → match x s with
    | .ok a t => Q a t
    | .error e t => E e t

variable {P : σ → Prop} {Q : α → σ → Prop} {E : ε → σ → Prop}

theorem ends_pure {a : α} (h : ∀ s, P s → Q a s) : Ends P (pure a : EStateM ε σ α) Q E := h

theorem ends_throw {e : ε} (h : ∀ s, P s → E e s) : Ends P (throw e : EStateM ε σ α) Q E := h

theorem Ends.bind {x : EStateM ε σ α} {f : α → EStateM ε σ β} {Q' : β → σ → Prop}
    (hx : Ends P x Q E) (hf : ∀ a, Ends (Q a) (f a) Q' E) : Ends P (x >>= f) Q' E := by
  intro s hs
  have hrun := hx s hs
  change match EStateM.bind x f s with
    | .ok a t => Q' a t
    | .error e t => E e t
  unfold EStateM.bind
  cases hxs : x s with
  | ok a t =>
    rw [hxs] at hrun
    exact hf a t hrun
  | error e t =>
    rw [hxs] at hrun
    exact hrun

/-- What every run keeps. -/
theorem ends_of_moves {x : EStateM ε σ α} (hx : ∀ s, Moves (fun s t => P s → P t) x s)
    (hE : ∀ e s, P s → E e s) : Ends P x (fun _ => P) E := by
  intro s hs
  have hend := hx s hs
  cases hrun : x s with
  | ok a t =>
    rw [hrun] at hend
    exact hend
  | error e t =>
    rw [hrun] at hend
    exact hE e t hend

end Prog
