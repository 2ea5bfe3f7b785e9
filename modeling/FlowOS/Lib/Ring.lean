/-
# Ring buffers with one slot kept free

`N` slots used in a circle, an index of the first element and an index one behind the last.  The
indices are equal when the buffer is empty; it counts as full with `N - 1` elements, so that the
two cases differ.  `Holds` says which list is in the buffer; the lemmas say that the comparisons
of the indices test for empty and full, that storing at the end appends, and that advancing the
start takes the head off.
-/
import Mathlib.Data.List.Basic
import Mathlib.Logic.Function.Basic

namespace Ring

variable {α : Type} {N : Nat}

/-- The elements between the two indices. -/
def contents (N : Nat) (slots : Nat → α) (start stop : Nat) : List α :=
  (List.range ((stop + N - start) % N)).map fun i => slots ((start + i) % N)

/-- The slots hold the list `q`, from index `start` up to index `stop`. -/
structure Holds (N : Nat) (slots : Nat → α) (start stop : Nat) (q : List α) : Prop where
  start_lt : start < N
  stop_eq : stop = (start + q.length) % N
  fits : q.length < N
  slot : ∀ i (hi : i < q.length), slots ((start + i) % N) = q[i]

variable {slots : Nat → α} {start stop : Nat} {q : List α} {x : α}

/-- An index wraps at most once. -/
theorem mod_wrap {a : Nat} (h : a < N + N) : a % N = if a < N then a else a - N := by
  split
  · rename_i hlt
    exact Nat.mod_eq_of_lt hlt
  · rename_i hge
    rw [Nat.mod_eq_sub_mod (Nat.le_of_not_lt hge), Nat.mod_eq_of_lt (by omega)]

theorem Holds.stop_wrap (h : Holds N slots start stop q) :
    stop = if start + q.length < N then start + q.length else start + q.length - N := by
  have := h.start_lt
  have := h.fits
  rw [h.stop_eq, mod_wrap (by omega)]

theorem holds_nil (hN : 0 < N) (slots : Nat → α) : Holds N slots 0 0 [] :=
  ⟨hN, (Nat.zero_mod N).symm, hN, fun i hi => absurd hi (Nat.not_lt_zero i)⟩

/-- **Equal indices** mean an empty buffer. -/
theorem Holds.empty_iff (h : Holds N slots start stop q) : start = stop ↔ q = [] := by
  have hlt := h.start_lt
  have hfits := h.fits
  rw [h.stop_wrap, ← List.length_eq_zero_iff]
  split <;> omega

/-- **The end right before the start** means a full buffer. -/
theorem Holds.full_iff (h : Holds N slots start stop q) :
    (stop + 1) % N = start ↔ q.length + 1 = N := by
  have hlt := h.start_lt
  have hfits := h.fits
  have hstop := h.stop_wrap
  have hle : stop + 1 < N + N := by
    rw [hstop]
    split <;> omega
  rw [mod_wrap hle, hstop]
  split <;> split <;> omega

/-- The list can be read off the slots. -/
theorem Holds.contents_eq (h : Holds N slots start stop q) : contents N slots start stop = q := by
  have hlt := h.start_lt
  have hfits := h.fits
  have hlen : (stop + N - start) % N = q.length := by
    rw [h.stop_wrap]
    split
    · rw [mod_wrap (by omega)]
      split <;> omega
    · rw [mod_wrap (by omega)]
      split <;> omega
  rw [contents, hlen]
  refine List.ext_getElem (by simp) fun i hi hi' => ?_
  rw [List.getElem_map, List.getElem_range]
  exact h.slot i hi'

/-- **Storing at the end appends.** -/
theorem Holds.push (h : Holds N slots start stop q) (hroom : q.length + 1 < N) (x : α) :
    Holds N (Function.update slots stop x) start ((stop + 1) % N) (q ++ [x]) := by
  have hlt := h.start_lt
  refine ⟨hlt, ?_, by simpa using hroom, fun i hi => ?_⟩
  · rw [h.stop_eq, Nat.mod_add_mod, List.length_append, List.length_singleton, Nat.add_assoc]
  · rw [List.length_append, List.length_singleton] at hi
    rcases Nat.lt_or_ge i q.length with hold | hnew
    · -- the slots in use are not the one at the end
      have hne : (start + i) % N ≠ stop := by
        rw [h.stop_wrap, mod_wrap (by omega)]
        split <;> split <;> omega
      rw [Function.update_of_ne hne, List.getElem_append_left hold]
      exact h.slot i hold
    · obtain rfl : i = q.length := by omega
      rw [← h.stop_eq, Function.update_self, List.getElem_concat_length rfl]

/-- The first element is at the start. -/
theorem Holds.front (h : Holds N slots start stop (x :: q)) : slots start = x := by
  have hslot := h.slot 0 (Nat.zero_lt_succ _)
  rwa [Nat.add_zero, Nat.mod_eq_of_lt h.start_lt] at hslot

/-- **Advancing the start takes the head off.** -/
theorem Holds.pop (h : Holds N slots start stop (x :: q)) :
    Holds N slots ((start + 1) % N) stop q := by
  have hlt := h.start_lt
  have hfits := h.fits
  rw [List.length_cons] at hfits
  refine ⟨Nat.mod_lt _ (by omega), ?_, by omega, fun i hi => ?_⟩
  · rw [h.stop_eq, Nat.mod_add_mod, List.length_cons, Nat.add_assoc, Nat.add_comm 1]
  · have hslot := h.slot (i + 1) (Nat.succ_lt_succ hi)
    rw [Nat.mod_add_mod, Nat.add_assoc, Nat.add_comm 1]
    exact hslot

end Ring
