/-
# Linked lists threaded through pointer functions

A data structure in memory is seen through its pointer fields: `nxt a` is what the `next`
field of the node at `a` holds, `prv a` what its `prev` field holds.  `Seg nxt as q` says that
the nodes `as` follow each other through `nxt` and that the last one points to `q`; `DSeg`
adds the backward pointers.  Nothing is assumed about what the nodes are: the pointer type and
the end marker `q` are parameters, so the same lemmas serve a list ended by `NULL` and a
segment in the middle of another list.
-/
import Mathlib.Data.List.Basic

namespace Linked

variable {π : Type}

/-! ## 1. Singly linked segments -/

/-- The nodes `as` are linked in order through `nxt`, the last one to `q`. -/
def Seg (nxt : π → π) : List π → π → Prop
  | [], _ => True
  | a :: as, q => nxt a = as.headD q ∧ Seg nxt as q

theorem headD_append (xs ys : List π) (q : π) : (xs ++ ys).headD q = xs.headD (ys.headD q) := by
  cases xs <;> rfl

theorem seg_append {nxt : π → π} {xs ys : List π} {q : π} :
    Seg nxt (xs ++ ys) q ↔ Seg nxt xs (ys.headD q) ∧ Seg nxt ys q := by
  induction xs with
  | nil => simp [Seg]
  | cons x xs ih => simp only [List.cons_append, Seg, ih, headD_append, and_assoc]

/-- A segment survives any change of pointers outside it. -/
theorem Seg.congr {nxt nxt' : π → π} {q : π} : ∀ {as : List π}, Seg nxt as q →
    (∀ a ∈ as, nxt' a = nxt a) → Seg nxt' as q
  | [], _, _ => trivial
  | a :: _, h, hc =>
    ⟨(hc a List.mem_cons_self).trans h.1,
      Seg.congr h.2 fun x hx => hc x (List.mem_cons_of_mem _ hx)⟩

/-! ## 2. Doubly linked segments -/

/-- The nodes `as` are linked in order through `nxt`, the last one to `q`, and backwards
through `prv`, the first one to `p`. -/
def DSeg (nxt prv : π → π) : π → List π → π → Prop
  | _, [], _ => True
  | p, a :: as, q => prv a = p ∧ nxt a = as.headD q ∧ DSeg nxt prv a as q

theorem getLastD_append (xs ys : List π) (p : π) :
    (xs ++ ys).getLastD p = ys.getLastD (xs.getLastD p) := by
  induction xs generalizing p with
  | nil => simp
  | cons x xs ih => simp only [List.cons_append, List.getLastD_cons, ih]

theorem dseg_append {nxt prv : π → π} {xs ys : List π} {p q : π} :
    DSeg nxt prv p (xs ++ ys) q ↔
      DSeg nxt prv p xs (ys.headD q) ∧ DSeg nxt prv (xs.getLastD p) ys q := by
  induction xs generalizing p with
  | nil => simp [DSeg]
  | cons x xs ih =>
    simp only [List.cons_append, DSeg, ih, headD_append, and_assoc, List.getLastD_cons]

/-- A doubly linked segment survives any change of pointers outside it. -/
theorem DSeg.congr {nxt prv nxt' prv' : π → π} {q : π} : ∀ {as : List π} {p : π},
    DSeg nxt prv p as q → (∀ a ∈ as, nxt' a = nxt a ∧ prv' a = prv a) → DSeg nxt' prv' p as q
  | [], _, _, _ => trivial
  | a :: _, _, h, hc =>
    ⟨(hc a List.mem_cons_self).2.trans h.1, (hc a List.mem_cons_self).1.trans h.2.1,
      DSeg.congr h.2.2 fun x hx => hc x (List.mem_cons_of_mem _ hx)⟩

/-- A doubly linked segment is a segment. -/
theorem DSeg.seg {nxt prv : π → π} {q : π} : ∀ {as : List π} {p : π}, DSeg nxt prv p as q →
    Seg nxt as q
  | [], _, _ => trivial
  | _ :: _, _, h => ⟨h.2.1, DSeg.seg h.2.2⟩

/-- Replacing what stands before a segment only changes the first node's back pointer. -/
theorem DSeg.reanchor {nxt prv prv' : π → π} {p p' q : π} {as : List π}
    (h : DSeg nxt prv p as q) (hhead : ∀ a, as.head? = some a → prv' a = p')
    (htail : ∀ a ∈ as.tail, prv' a = prv a) : DSeg nxt prv' p' as q := by
  cases as with
  | nil => trivial
  | cons a as =>
    exact ⟨hhead a rfl, h.2.1, h.2.2.congr fun x hx => ⟨rfl, htail x hx⟩⟩

end Linked
