/-
# Bitmaps packed into words

A set of numbers kept as bits of an array of `w`-bit words: number `p` is bit `p % w` of word
`p / w`.  Setting, clearing and testing are the usual mask operations; the lemmas say that they
are insertion, removal and membership, and that the scan which skips words with all bits set
finds the least clear bit.
-/
import FlowOS.Lib.Loop
import Mathlib.Logic.Function.Basic

namespace Bitmap

variable {w : Nat}

/-- The words of a bitmap. -/
abbrev Words (w : Nat) := Nat → BitVec w

/-- `map[p / w] |= 1 << (p % w)`. -/
def set (m : Words w) (p : Nat) : Words w :=
  Function.update m (p / w) (m (p / w) ||| 1#w <<< (p % w))

/-- `map[p / w] &= ~(1 << (p % w))`. -/
def clear (m : Words w) (p : Nat) : Words w :=
  Function.update m (p / w) (m (p / w) &&& ~~~(1#w <<< (p % w)))

/-- `map[p / w] & (1 << (p % w))`. -/
def test (m : Words w) (p : Nat) : Bool := m (p / w) &&& 1#w <<< (p % w) != 0#w

/-- Testing a bit of a word with a mask. -/
theorem and_mask_ne_zero (x : BitVec w) {i : Nat} (hi : i < w) :
    (x &&& 1#w <<< i != 0#w) = x.getLsbD i := by
  rw [← BitVec.twoPow_eq, BitVec.and_twoPow]
  cases hx : x.getLsbD i with
  | false => simp
  | true =>
    have hne : BitVec.twoPow w i ≠ 0#w := by
      intro h0
      have := congrArg (fun y => y.getLsbD i) h0
      simp [hi] at this
    simpa using hne

theorem test_eq (hw : 0 < w) (m : Words w) (p : Nat) :
    test m p = (m (p / w)).getLsbD (p % w) := and_mask_ne_zero _ (Nat.mod_lt p hw)

/-- A number is its word and its bit. -/
theorem eq_iff_div_mod (p q : Nat) : q = p ↔ q / w = p / w ∧ q % w = p % w := by
  constructor
  · rintro rfl
    exact ⟨rfl, rfl⟩
  · rintro ⟨hd, hm⟩
    rw [← Nat.div_add_mod q w, ← Nat.div_add_mod p w, hd, hm]

/-- **Setting inserts.** -/
theorem test_set (hw : 0 < w) (m : Words w) (p q : Nat) :
    test (set m p) q = (decide (q = p) || test m q) := by
  rw [test_eq hw, test_eq hw, set]
  by_cases hd : q / w = p / w
  · rw [hd, Function.update_self, BitVec.getLsbD_or, ← BitVec.twoPow_eq, BitVec.getLsbD_twoPow,
      Bool.or_comm]
    have hiff := @eq_iff_div_mod w p q
    simp only [hd, true_and] at hiff
    simp [Nat.mod_lt p hw, hiff, eq_comm]
  · have hne : q ≠ p := fun h => hd (by rw [h])
    rw [Function.update_of_ne hd]
    simp [hne]

/-- **Clearing removes.** -/
theorem test_clear (hw : 0 < w) (m : Words w) (p q : Nat) :
    test (clear m p) q = (decide (q ≠ p) && test m q) := by
  rw [test_eq hw, test_eq hw, clear]
  by_cases hd : q / w = p / w
  · rw [hd, Function.update_self, BitVec.getLsbD_and, BitVec.getLsbD_not, ← BitVec.twoPow_eq,
      BitVec.getLsbD_twoPow, Bool.and_comm]
    have hiff := @eq_iff_div_mod w p q
    simp only [hd, true_and] at hiff
    simp [Nat.mod_lt p hw, Nat.mod_lt q hw, hiff, eq_comm]
  · have hne : q ≠ p := fun h => hd (by rw [h])
    rw [Function.update_of_ne hd]
    simp [hne]

/-- A bitmap is determined by its bits. -/
theorem ext_test (hw : 0 < w) {m m' : Words w} (h : ∀ p, test m p = test m' p) : m = m' := by
  funext i
  refine BitVec.eq_of_getLsbD_eq fun j hj => ?_
  have hbit := h (w * i + j)
  rw [test_eq hw, test_eq hw, Nat.mul_add_div hw, Nat.div_eq_of_lt hj, Nat.mul_add_mod,
    Nat.mod_eq_of_lt hj, Nat.add_zero] at hbit
  exact hbit

/-! ## Searching for a clear bit -/

/-- The first clear bit of a word, scanning all of them. -/
def clearBit (x : BitVec w) : Option Nat :=
  Loop.firstSome (fun j => if x &&& 1#w <<< j == 0#w then some j else none) w 0

/-- The scan of `n` words: the first word that is not all ones, and its first clear bit. -/
def firstClear (m : Words w) (n : Nat) : Option Nat :=
  Loop.firstSome
    (fun i => if m i ≠ BitVec.allOnes w then (clearBit (m i)).map fun j => i * w + j else none) n 0

theorem clearBit_some {x : BitVec w} {j : Nat} (h : clearBit x = some j) :
    j < w ∧ x.getLsbD j = false := by
  obtain ⟨k, -, hk, hans, -⟩ := Loop.firstSome_some h
  rw [Nat.zero_add] at hk
  have hbit := and_mask_ne_zero x hk
  split at hans
  · rename_i hzero
    obtain rfl := Option.some.inj hans
    rw [bne, hzero] at hbit
    exact ⟨hk, hbit.symm⟩
  · cases hans

/-- No bit below the one that is found is clear. -/
theorem clearBit_le {x : BitVec w} {j k : Nat} (h : clearBit x = some j) (hk : k < w)
    (hclear : x.getLsbD k = false) : j ≤ k := by
  obtain ⟨j', -, -, hans, hmin⟩ := Loop.firstSome_some h
  have hj : j' = j := by
    split at hans
    · exact Option.some.inj hans
    · cases hans
  by_contra hlt
  have hnone := hmin k (Nat.zero_le k) (by omega)
  rw [← and_mask_ne_zero x hk, bne, Bool.not_eq_false'] at hclear
  rw [if_pos hclear] at hnone
  cases hnone

/-- The scan of a word's bits ends without an answer exactly when it is all ones. -/
theorem clearBit_none {x : BitVec w} : clearBit x = none ↔ x = BitVec.allOnes w := by
  constructor
  · intro h
    refine BitVec.eq_of_getLsbD_eq fun j hj => ?_
    have hans := Loop.firstSome_none.mp h j (Nat.zero_le j) (by omega)
    have hbit := and_mask_ne_zero x hj
    split at hans
    · cases hans
    · rename_i hne
      rw [bne, Bool.eq_false_iff.mpr hne] at hbit
      simp [← hbit, hj]
  · rintro rfl
    cases h : clearBit (BitVec.allOnes w) with
    | none => rfl
    | some j =>
      obtain ⟨hj, hclear⟩ := clearBit_some h
      simp [hj] at hclear

/-- **The scan finds a clear bit** among the first `n * w`. -/
theorem firstClear_some (hw : 0 < w) {m : Words w} {n p : Nat} (h : firstClear m n = some p) :
    p < n * w ∧ test m p = false := by
  obtain ⟨i, -, hin, hp, -⟩ := Loop.firstSome_some h
  rw [Nat.zero_add] at hin
  split at hp
  · obtain ⟨j, hj, rfl⟩ := Option.map_eq_some_iff.mp hp
    obtain ⟨hjw, hclear⟩ := clearBit_some hj
    have hdiv : (i * w + j) / w = i := by
      rw [Nat.mul_comm, Nat.mul_add_div hw, Nat.div_eq_of_lt hjw, Nat.add_zero]
    have hmod : (i * w + j) % w = j := by
      rw [Nat.mul_comm, Nat.mul_add_mod, Nat.mod_eq_of_lt hjw]
    refine ⟨?_, ?_⟩
    · calc i * w + j < i * w + w := by omega
        _ = (i + 1) * w := (Nat.succ_mul i w).symm
        _ ≤ n * w := Nat.mul_le_mul_right w hin
    · rw [test_eq hw, hdiv, hmod]
      exact hclear
  · cases hp

/-- **It finds the least one.** -/
theorem firstClear_le (hw : 0 < w) {m : Words w} {n p q : Nat} (h : firstClear m n = some p)
    (hq : test m q = false) : p ≤ q := by
  obtain ⟨i, -, -, hp, hmin⟩ := Loop.firstSome_some h
  rw [test_eq hw] at hq
  have hqw : q % w < w := Nat.mod_lt q hw
  split at hp
  · obtain ⟨j, hj, rfl⟩ := Option.map_eq_some_iff.mp hp
    have hdiv : w * (q / w) + q % w = q := Nat.div_add_mod q w
    rcases Nat.lt_trichotomy (q / w) i with hlt | rfl | hgt
    · -- the words before the one that answers are all ones
      have hnone := hmin (q / w) (Nat.zero_le _) hlt
      have hones : m (q / w) ≠ BitVec.allOnes w := by
        intro hones
        simp [hones, hqw] at hq
      rw [if_pos hones, Option.map_eq_none_iff, clearBit_none] at hnone
      exact absurd hnone hones
    · have hle := clearBit_le hj hqw hq
      rw [Nat.mul_comm] at hdiv
      omega
    · obtain ⟨hjw, -⟩ := clearBit_some hj
      have hmul : (i + 1) * w ≤ q / w * w := Nat.mul_le_mul_right w hgt
      rw [Nat.mul_comm] at hdiv
      rw [Nat.succ_mul] at hmul
      omega
  · cases hp

/-- It fails only when there is none. -/
theorem firstClear_none (hw : 0 < w) {m : Words w} {n : Nat} :
    firstClear m n = none ↔ ∀ p < n * w, test m p = true := by
  constructor
  · intro h p hp
    have hdiv : p / w < n := (Nat.div_lt_iff_lt_mul hw).mpr hp
    have hword := Loop.firstSome_none.mp h (p / w) (Nat.zero_le _) (by omega)
    have hones : m (p / w) = BitVec.allOnes w := by
      by_contra hne
      rw [if_pos hne, Option.map_eq_none_iff, clearBit_none] at hword
      exact hne hword
    rw [test_eq hw, hones]
    simp [Nat.mod_lt p hw]
  · intro h
    cases hf : firstClear m n with
    | none => rfl
    | some p =>
      obtain ⟨hp, hclear⟩ := firstClear_some hw hf
      rw [h p hp] at hclear
      cases hclear

end Bitmap
