/-
# 32-bit words as naturals

A C `uint32_t` is modelled as a natural number below `2 ^ 32`, with the wrap-around written
where the source computes modulo `2 ^ 32`.  This module has the wrapping operations and
the few facts about masks that the rest of the development needs: a mask of high bits rounds
down to a multiple, a mask of low bits is a remainder, and OR-ing flags into the clear low
bits of an aligned address is an addition.
-/
import Mathlib.Data.Nat.Bitwise

namespace Word

/-! ## 1. Wrapping addition and subtraction -/

/-- `a + b` in 32-bit unsigned arithmetic. -/
def add32 (a b : Nat) : Nat := (a + b) % 2 ^ 32

/-- `a - b` in 32-bit unsigned arithmetic. -/
def sub32 (a b : Nat) : Nat := (a + 2 ^ 32 - b) % 2 ^ 32

/-- `~a` in 32 bits. -/
def not32 (a : Nat) : Nat := 2 ^ 32 - 1 - a

theorem add32_lt (a b : Nat) : add32 a b < 2 ^ 32 := Nat.mod_lt _ (by decide)

theorem sub32_lt (a b : Nat) : sub32 a b < 2 ^ 32 := Nat.mod_lt _ (by decide)

theorem add32_of_lt {a b : Nat} (h : a + b < 2 ^ 32) : add32 a b = a + b := Nat.mod_eq_of_lt h

theorem sub32_of_le {a b : Nat} (hba : b ≤ a) (ha : a < 2 ^ 32) : sub32 a b = a - b := by
  unfold sub32
  omega

/-! ## 2. Masks -/

/-- A mask of the bits `k .. w - 1` rounds a `w`-bit number down to a multiple of `2 ^ k`. -/
theorem and_highMask {w k x : Nat} (hk : k ≤ w) (hx : x < 2 ^ w) :
    x &&& (2 ^ w - 2 ^ k) = x / 2 ^ k * 2 ^ k := by
  have hmask : 2 ^ w - 2 ^ k = (2 ^ (w - k) - 1) * 2 ^ k := by
    rw [Nat.sub_mul, ← Nat.pow_add, Nat.sub_add_cancel hk, Nat.one_mul]
  rw [hmask]
  apply Nat.eq_of_testBit_eq
  intro i
  rw [Nat.testBit_and, Nat.testBit_mul_two_pow, Nat.testBit_mul_two_pow,
    Nat.testBit_two_pow_sub_one, Nat.testBit_div_two_pow]
  by_cases hi : k ≤ i
  · have hik : i - k + k = i := by omega
    simp only [hi, decide_true, Bool.true_and, hik]
    by_cases hiw : i - k < w - k
    · simp [hiw]
    · -- a bit above the width is clear on both sides
      have hbit : x.testBit i = false :=
        Nat.testBit_lt_two_pow (lt_of_lt_of_le hx (Nat.pow_le_pow_right (by omega) (by omega)))
      simp [hbit]
  · simp [hi]

/-- `x & ~(2 ^ k - 1)` rounds down to a multiple of `2 ^ k`. -/
theorem and_not32 {k x : Nat} (hk : k ≤ 32) (hx : x < 2 ^ 32) :
    x &&& not32 (2 ^ k - 1) = x / 2 ^ k * 2 ^ k := by
  have hpos := Nat.two_pow_pos k
  rw [not32, show 2 ^ 32 - 1 - (2 ^ k - 1) = 2 ^ 32 - 2 ^ k by omega]
  exact and_highMask hk hx

/-- OR-ing a value below `2 ^ k` into a multiple of `2 ^ k` adds it. -/
theorem or_of_aligned {k a b : Nat} (ha : 2 ^ k ∣ a) (hb : b < 2 ^ k) : a ||| b = a + b := by
  obtain ⟨c, rfl⟩ := ha
  exact (Nat.two_pow_add_eq_or_of_lt hb c).symm

/-- Setting the lowest bit of a number makes it odd. -/
theorem or_one_mod_two (n : Nat) : (n ||| 1) % 2 = 1 := by
  have h : (n ||| 1).testBit 0 = true := by simp
  rw [Nat.testBit_zero] at h
  exact of_decide_eq_true h

end Word
