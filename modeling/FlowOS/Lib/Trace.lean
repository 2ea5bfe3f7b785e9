/-
# Runs of a state machine given as a list of actions

`next` is total; what may happen, and what is assumed to happen, are conditions on an action and
the state it is taken in.  `Along` says that a condition holds at every action of a run,
`Throughout` that a property holds in every state of it.  The rules are the two inductions over a
run: an invariant that each allowed action keeps, and an equivalence that each one carries.
-/
import Mathlib.Data.List.Basic

namespace Trace

variable {S A : Type} (next : S → A → S)

/-- The condition `C` holds at every action of the run. -/
def Along (C : S → A → Prop) : S → List A → Prop
  | _, [] => True
  | s, a :: as => C s a ∧ Along C (next s a) as

/-- The property `P` holds in every state of the run, the first and the last included. -/
def Throughout (P : S → Prop) : S → List A → Prop
  | s, [] => P s
  | s, a :: as => P s ∧ Throughout P (next s a) as

instance decidableAlong (C : S → A → Prop) [∀ s a, Decidable (C s a)] :
    ∀ (as : List A) (s : S), Decidable (Along next C s as)
  | [], _ => .isTrue trivial
  | a :: as, s =>
    @instDecidableAnd (C s a) (Along next C (next s a) as) _ (decidableAlong C as (next s a))

variable {next} {C D : S → A → Prop} {I P : S → Prop}

theorem Along.and {s : S} {as : List A} (hC : Along next C s as) (hD : Along next D s as) :
    Along next (fun s a => C s a ∧ D s a) s as := by
  induction as generalizing s with
  | nil => trivial
  | cons a as ih => exact ⟨⟨hC.1, hD.1⟩, ih hC.2 hD.2⟩

/-- A run extended by one action. -/
theorem Along.snoc {s : S} {as : List A} {a : A} (h : Along next C s as)
    (ha : C (as.foldl next s) a) : Along next C s (as ++ [a]) := by
  induction as generalizing s with
  | nil => exact ⟨ha, trivial⟩
  | cons b as ih => exact ⟨h.1, ih h.2 ha⟩

/-- **Invariant rule.** -/
theorem Along.inv {s : S} {as : List A} (h : Along next C s as)
    (hstep : ∀ s a, I s → C s a → I (next s a)) (hI : I s) : I (as.foldl next s) := by
  induction as generalizing s with
  | nil => exact hI
  | cons a as ih => exact ih h.2 (hstep s a hI h.1)

/-- The same when every action is allowed. -/
theorem foldl_inv {s : S} (as : List A) (hstep : ∀ s a, I s → I (next s a)) (hI : I s) :
    I (as.foldl next s) := by
  induction as generalizing s with
  | nil => exact hI
  | cons a as ih => exact ih (hstep s a hI)

/-- A condition that each allowed action meets, in the states of an invariant. -/
theorem Along.imp {s : S} {as : List A} (h : Along next C s as)
    (hstep : ∀ s a, I s → C s a → I (next s a) ∧ D s a) (hI : I s) : Along next D s as := by
  induction as generalizing s with
  | nil => trivial
  | cons a as ih =>
    obtain ⟨hnext, hD⟩ := hstep s a hI h.1
    exact ⟨hD, ih h.2 hnext⟩

/-- **Equivalence rule.**  When each allowed action keeps `P` exactly when it meets the condition
`C`, a run keeps `P` exactly when all its actions meet `C`. -/
theorem Along.iff {s : S} {as : List A} (h : Along next D s as)
    (hI : ∀ s a, I s → D s a → I (next s a))
    (hstep : ∀ s a, I s → D s a → (P (next s a) ↔ P s ∧ C s a)) (h0 : I s) :
    P (as.foldl next s) ↔ P s ∧ Along next C s as := by
  induction as generalizing s with
  | nil => exact (and_iff_left trivial).symm
  | cons a as ih =>
    rw [List.foldl_cons, ih h.2 (hI s a h0 h.1), hstep s a h0 h.1, and_assoc]
    rfl

/-- An invariant that implies a property gives it throughout the run. -/
theorem Along.throughout {s : S} {as : List A} (h : Along next C s as)
    (hstep : ∀ s a, I s → C s a → I (next s a)) (hP : ∀ s, I s → P s) (hI : I s) :
    Throughout next P s as := by
  induction as generalizing s with
  | nil => exact hP s hI
  | cons a as ih => exact ⟨hP s hI, ih h.2 (hstep s a hI h.1)⟩

/-- A property that only actions with the condition `C` lead to gives `C` along the run. -/
theorem Throughout.along {s : S} {as : List A} (h : Throughout next P s as)
    (hstep : ∀ s a, I s → I (next s a)) (hC : ∀ s a, I s → P (next s a) → C s a) (hI : I s) :
    Along next C s as := by
  induction as generalizing s with
  | nil => trivial
  | cons a as ih =>
    obtain ⟨-, h⟩ := h
    have hnext : P (next s a) := by
      cases as with
      | nil => exact h
      | cons b bs => exact h.1
    exact ⟨hC s a hI hnext, ih h (hstep s a hI)⟩

/-- **Equivalence rule for every state of a run.**  When each allowed action taken where `P` holds
keeps `P` exactly when it meets the condition `C`, a run that starts with `P` has it in every state
exactly when all its actions meet `C`. -/
theorem Along.throughout_iff {s : S} {as : List A} (h : Along next D s as)
    (hI : ∀ s a, I s → D s a → I (next s a))
    (hstep : ∀ s a, I s → D s a → P s → (P (next s a) ↔ C s a)) (h0 : I s) (hP : P s) :
    Throughout next P s as ↔ Along next C s as := by
  induction as generalizing s with
  | nil => exact iff_of_true hP trivial
  | cons a as ih =>
    have hnext := hstep s a h0 h.1 hP
    refine (and_iff_right hP).trans ?_
    constructor
    · intro hrest
      have hP' : P (next s a) := by
        cases as with
        | nil => exact hrest
        | cons b bs => exact hrest.1
      exact ⟨hnext.mp hP', (ih h.2 (hI s a h0 h.1) hP').mp hrest⟩
    · rintro ⟨hC, hrest⟩
      exact (ih h.2 (hI s a h0 h.1) (hnext.mpr hC)).mpr hrest

end Trace
