/-
# Scanning a list that has an end mark

A scan goes through the items of a list up to the first that marks the end, and looks only at
those that are listed.  `listing` is what a scan can see.  A scan that goes through a list in
pieces sees the listing of the first piece and, unless the end mark was in it, the listing of
the rest.
-/
import Mathlib.Data.List.TakeWhile

namespace Scan

variable {α : Type} (ends listed : α → Bool)

/-- The listed items before the end mark. -/
def listing (l : List α) : List α := (l.takeWhile fun a => !ends a).filter listed

@[simp] theorem listing_nil : listing ends listed [] = [] := rfl

variable {ends listed}

theorem listing_cons_end {a : α} {l : List α} (h : ends a = true) :
    listing ends listed (a :: l) = [] := by
  simp [listing, h]

theorem listing_cons_listed {a : α} {l : List α} (h : ends a = false) (hl : listed a = true) :
    listing ends listed (a :: l) = a :: listing ends listed l := by
  simp [listing, h, hl]

theorem listing_cons_skipped {a : α} {l : List α} (h : ends a = false) (hl : listed a = false) :
    listing ends listed (a :: l) = listing ends listed l := by
  simp [listing, h, hl]

/-- Nothing is seen behind the end mark. -/
theorem listing_append_ended {l₁ : List α} (l₂ : List α) (h : l₁.any ends = true) :
    listing ends listed (l₁ ++ l₂) = listing ends listed l₁ := by
  induction l₁ with
  | nil => cases h
  | cons a l₁ ih =>
    rw [List.cons_append]
    cases hend : ends a with
    | true => rw [listing_cons_end hend, listing_cons_end hend]
    | false =>
      have hrest : l₁.any ends = true := by simpa [hend] using h
      cases hl : listed a with
      | true => rw [listing_cons_listed hend hl, listing_cons_listed hend hl, ih hrest]
      | false => rw [listing_cons_skipped hend hl, listing_cons_skipped hend hl, ih hrest]

/-- Without an end mark all listed items are seen. -/
theorem listing_eq_filter {l : List α} (h : l.any ends = false) :
    listing ends listed l = l.filter listed := by
  have hall : ∀ a ∈ l, (!ends a) = true := by simpa using h
  rw [listing, List.takeWhile_eq_self_iff.mpr hall]

/-- A piece without end mark puts its listing in front. -/
theorem listing_append {l₁ : List α} (l₂ : List α) (h : l₁.any ends = false) :
    listing ends listed (l₁ ++ l₂) = listing ends listed l₁ ++ listing ends listed l₂ := by
  have hall : ∀ a ∈ l₁, (!ends a) = true := by simpa using h
  unfold listing
  rw [List.takeWhile_append_of_pos hall, List.filter_append, List.takeWhile_eq_self_iff.mpr hall]

end Scan
