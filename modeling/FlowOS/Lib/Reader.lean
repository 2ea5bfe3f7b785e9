/-
# Programs that read a stream

A reader waits for one element of a stream after the other.  It is given by the states in which it
waits, and by what it does with an element until it waits again or has come to its end; so a state
is always one between two elements.  `run` feeds it a list: what it leaves is the state and the
elements that it has not asked for.

A program that reads in rounds, each of them a run of one reader, is a reader again; `Rounds.run_eq`
takes its runs apart.  So is a reader that hands over to another one at its end (`run_andThen`): the
second one reads what the first one leaves.
-/
import Mathlib.Data.List.Basic

/-- A program that reads. -/
structure Reader (κ σ : Type) where
  wants : σ → Bool
  feed : σ → κ → σ

namespace Reader

/-! ## 1. Runs -/

variable {κ σ : Type} (R : Reader κ σ)

/-- The reader on a list: the state it is left in, and what it has not read. -/
def run : σ → List κ → σ × List κ
  | s, [] => (s, [])
  | s, c :: cs => if R.wants s then run (R.feed s c) cs else (s, c :: cs)

variable {R} {s t : σ} {c : κ} {cs ds : List κ}

@[simp] theorem run_nil (s : σ) : R.run s [] = (s, []) := rfl

theorem run_cons (h : R.wants s = true) (c : κ) (cs : List κ) :
    R.run s (c :: cs) = R.run (R.feed s c) cs := by
  rw [run, if_pos h]

/-- A reader that has come to its end leaves everything. -/
theorem run_ended (h : R.wants s = false) (cs : List κ) : R.run s cs = (s, cs) := by
  cases cs with
  | nil => rfl
  | cons c cs => rw [run, if_neg (by rw [h]; decide)]

theorem run_append (s : σ) (cs ds : List κ) (h : (R.run s cs).2 = []) :
    R.run s (cs ++ ds) = R.run (R.run s cs).1 ds := by
  induction cs generalizing s with
  | nil => rfl
  | cons c cs ih =>
    by_cases hs : R.wants s = true
    · rw [run_cons hs] at h
      rw [List.cons_append, run_cons hs, run_cons hs, ih _ h]
    · rw [run, if_neg hs] at h
      cases h

/-- One element more. -/
theorem run_snoc (h : R.run s cs = (t, [])) (ht : R.wants t = true) (c : κ) :
    R.run s (cs ++ [c]) = (R.feed t c, []) := by
  rw [run_append s cs [c] (by rw [h]), h, run_cons ht, run_nil]

/-- **Invariants**: what every element keeps, a run keeps. -/
theorem run_inv {I : σ → Prop} (hfeed : ∀ s c, R.wants s = true → I s → I (R.feed s c)) (hs : I s)
    (cs : List κ) : I (R.run s cs).1 := by
  induction cs generalizing s with
  | nil => exact hs
  | cons c cs ih =>
    by_cases hw : R.wants s = true
    · rw [run_cons hw]
      exact ih (hfeed s c hw hs)
    · rw [run, if_neg hw]
      exact hs

/-- **Two runs side by side.**  A relation between states with the streams that they have before
them, which keeps as long as both take an element. -/
theorem run_sim {Sim : σ → List κ → σ → List κ → Prop}
    (hwants : ∀ {s cs s' ds}, Sim s cs s' ds → R.wants s = R.wants s')
    (hnil : ∀ {s s' ds}, Sim s [] s' ds → ds = [])
    (hfeed : ∀ {s c cs s' ds}, Sim s (c :: cs) s' ds → R.wants s = true →
      ∃ c' cs', ds = c' :: cs' ∧ Sim (R.feed s c) cs (R.feed s' c') cs')
    {s' : σ} (h : Sim s cs s' ds) :
    Sim (R.run s cs).1 (R.run s cs).2 (R.run s' ds).1 (R.run s' ds).2 := by
  induction cs generalizing s s' ds with
  | nil =>
    obtain rfl := hnil h
    exact h
  | cons c cs ih =>
    cases hs : R.wants s with
    | true =>
      obtain ⟨c', cs', rfl, hnext⟩ := hfeed h hs
      rw [run_cons hs, run_cons ((hwants h).symm.trans hs)]
      exact ih hnext
    | false =>
      rw [run_ended hs, run_ended ((hwants h).symm.trans hs)]
      exact h

end Reader

/-! ## 2. Rounds -/

/-- A program that reads in rounds: `start` and `finish` say how a round begins and what it leaves,
and the program `stops` when there are no more rounds. -/
structure Rounds (κ σ τ : Type) where
  reader : Reader κ σ
  start : τ → σ
  finish : τ → σ → τ
  stops : τ → Bool

namespace Rounds

variable {κ σ τ : Type} (P : Rounds κ σ τ)

/-- The beginning of a round. -/
def enter (w : τ) : τ × σ := (w, P.start w)

/-- The program, in the middle of a round. -/
def toReader : Reader κ (τ × σ) where
  wants x := !P.stops x.1
  feed x c :=
    let s := P.reader.feed x.2 c
    if P.reader.wants s then (x.1, s) else P.enter (P.finish x.1 s)

variable {P} {w : τ} {s : σ}

theorem run_stops (h : P.stops w = true) (s : σ) (cs : List κ) :
    P.toReader.run (w, s) cs = ((w, s), cs) :=
  Reader.run_ended (show (!P.stops w) = false by rw [h]; rfl) cs

/-- **A round, and then the others.** -/
theorem run_eq (hstops : P.stops w = false) (hs : P.reader.wants s = true) (cs : List κ) :
    P.toReader.run (w, s) cs =
      let r := P.reader.run s cs
      if P.reader.wants r.1 then ((w, r.1), [])
      else P.toReader.run (P.enter (P.finish w r.1)) r.2 := by
  have hwants : P.toReader.wants (w, s) = true := show (!P.stops w) = true by rw [hstops]; rfl
  induction cs generalizing s with
  | nil =>
    rw [Reader.run_nil, Reader.run_nil]
    exact (if_pos hs).symm
  | cons c cs ih =>
    rw [Reader.run_cons hwants, Reader.run_cons hs]
    by_cases hnext : P.reader.wants (P.reader.feed s c) = true
    · have hfeed : P.toReader.feed (w, s) c = (w, P.reader.feed s c) := if_pos hnext
      rw [hfeed]
      exact ih hnext hwants
    · have hfeed : P.toReader.feed (w, s) c = P.enter (P.finish w (P.reader.feed s c)) :=
        if_neg hnext
      have hend : P.reader.run (P.reader.feed s c) cs = (P.reader.feed s c, cs) :=
        Reader.run_ended (Bool.eq_false_iff.mpr hnext) cs
      rw [hfeed, hend]
      exact (if_neg hnext).symm

end Rounds

/-! ## 3. One after the other -/

namespace Reader

variable {κ σ τ : Type}

/-- A reader that hands over to another one when it has come to its end. -/
def andThen (R : Reader κ σ) (S : Reader κ τ) (go : σ → τ) : Reader κ (σ ⊕ τ) where
  wants
    | .inl s => R.wants s
    | .inr t => S.wants t
  feed
    | .inl s, c => if R.wants (R.feed s c) then .inl (R.feed s c) else .inr (go (R.feed s c))
    | .inr t, c => .inr (S.feed t c)

variable {R : Reader κ σ} {S : Reader κ τ} {go : σ → τ} {s : σ}

theorem run_andThen_inr (t : τ) (cs : List κ) :
    (R.andThen S go).run (.inr t) cs = (.inr (S.run t cs).1, (S.run t cs).2) := by
  induction cs generalizing t with
  | nil => rfl
  | cons c cs ih =>
    by_cases ht : S.wants t = true
    · have hwants : (R.andThen S go).wants (.inr t) = true := ht
      rw [run_cons hwants, run_cons ht]
      exact ih (S.feed t c)
    · have hwants : (R.andThen S go).wants (.inr t) = false := Bool.eq_false_iff.mpr ht
      rw [run_ended hwants, run_ended (Bool.eq_false_iff.mpr ht)]

/-- **The second reader reads what the first one leaves.** -/
theorem run_andThen (hs : R.wants s = true) (cs : List κ) :
    (R.andThen S go).run (.inl s) cs =
      let r := R.run s cs
      if R.wants r.1 then (.inl r.1, [])
      else (.inr (S.run (go r.1) r.2).1, (S.run (go r.1) r.2).2) := by
  induction cs generalizing s with
  | nil =>
    rw [run_nil, run_nil]
    exact (if_pos hs).symm
  | cons c cs ih =>
    have hwants : (R.andThen S go).wants (.inl s) = true := hs
    rw [run_cons hwants, run_cons hs]
    by_cases hnext : R.wants (R.feed s c) = true
    · have hfeed : (R.andThen S go).feed (.inl s) c = .inl (R.feed s c) := if_pos hnext
      rw [hfeed]
      exact ih hnext
    · have hfeed : (R.andThen S go).feed (.inl s) c = .inr (go (R.feed s c)) := if_neg hnext
      have hend : R.run (R.feed s c) cs = (R.feed s c, cs) :=
        run_ended (Bool.eq_false_iff.mpr hnext) cs
      rw [hfeed, hend, run_andThen_inr]
      exact (if_neg hnext).symm

end Reader
