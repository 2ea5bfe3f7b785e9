/-
# Tilings of an address range

A list of objects, each with a start address and a length, TILES a range when the first one
starts at its lower end, each next one starts where the previous one ends, and the last one
ends at its upper end.  The facts here are the ones a proof about an allocator's block list
uses: tilings split and join at any element, every member lies in the range, members are in
address order and pairwise disjoint, and the lengths add up to the range.
-/
import Mathlib.Algebra.GroupWithZero.Nat
import Mathlib.Data.List.Basic

namespace Tiling

variable {α : Type} (addr len : α → Nat)

/-- `Tiles addr len a xs e`: the objects `xs`, in order, cover `[a, e)` exactly. -/
def Tiles : Nat → List α → Nat → Prop
  | a, [], e => a = e
  | a, x :: xs, e => addr x = a ∧ Tiles (a + len x) xs e

variable {addr len}

theorem tiles_append {xs ys : List α} {a e : Nat} :
    Tiles addr len a (xs ++ ys) e ↔ ∃ c, Tiles addr len a xs c ∧ Tiles addr len c ys e := by
  induction xs generalizing a with
  | nil => simp [Tiles]
  | cons x xs ih =>
    simp only [List.cons_append, Tiles, ih]
    constructor
    · rintro ⟨hx, c, h1, h2⟩
      exact ⟨c, ⟨hx, h1⟩, h2⟩
    · rintro ⟨c, ⟨hx, h1⟩, h2⟩
      exact ⟨hx, c, h1, h2⟩

theorem Tiles.le : ∀ {xs : List α} {a e : Nat}, Tiles addr len a xs e → a ≤ e
  | [], _, _, h => Nat.le_of_eq h
  | _ :: _, _, _, h => by
    have := Tiles.le h.2
    omega

/-- Every member of a tiling lies inside the tiled range. -/
theorem Tiles.mem_range : ∀ {xs : List α} {a e : Nat}, Tiles addr len a xs e →
    ∀ {x : α}, x ∈ xs → a ≤ addr x ∧ addr x + len x ≤ e
  | y :: ys, a, e, h, x, hx => by
    rcases List.mem_cons.mp hx with rfl | hx
    · have := h.1
      have := Tiles.le h.2
      omega
    · have := Tiles.mem_range h.2 hx
      omega

/-- The members of a tiling stand in address order, each ending before the next begins. -/
theorem Tiles.ordered : ∀ {xs : List α} {a e : Nat}, Tiles addr len a xs e →
    xs.Pairwise (fun x y => addr x + len x ≤ addr y)
  | [], _, _, _ => List.Pairwise.nil
  | x :: xs, a, e, h => by
    refine List.Pairwise.cons (fun y hy => ?_) (Tiles.ordered h.2)
    rw [h.1]
    exact (Tiles.mem_range h.2 hy).1

/-- The lengths add up to the tiled range. -/
theorem Tiles.sum_len : ∀ {xs : List α} {a e : Nat}, Tiles addr len a xs e →
    a + (xs.map len).sum = e
  | [], a, _, h => by
    have : a = _ := h
    simpa using this
  | x :: xs, a, e, h => by
    have := Tiles.sum_len h.2
    simp only [List.map_cons, List.sum_cons]
    omega

/-- A tiling around one of its members: what stands before ends where it begins, what stands
after begins where it ends. -/
theorem tiles_middle {pre post : List α} {x : α} {a e : Nat} :
    Tiles addr len a (pre ++ x :: post) e ↔
      Tiles addr len a pre (addr x) ∧ Tiles addr len (addr x + len x) post e := by
  rw [tiles_append]
  constructor
  · rintro ⟨c, h1, h2, h3⟩
    subst h2
    exact ⟨h1, h3⟩
  · rintro ⟨h1, h2⟩
    exact ⟨addr x, h1, rfl, h2⟩

end Tiling
