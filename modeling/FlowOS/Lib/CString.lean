/-
# C strings in memory

A C string is the bytes from an address up to the first zero byte.  `CStr m a s` says that the
string at `a` is `s`; it takes the memory apart one character at a time, which is how the loops
that compare and copy strings go through it.

`CArray.textOf` computes the string in an array of a given size, whose index is a signed number.
-/
import FlowOS.Lib.Mem

namespace Mem

/-- The C string at `a` is `s`: the characters of `s`, none of them zero, and a zero byte. -/
def CStr (m : Mem) (a : Nat) (s : List UInt8) : Prop :=
  m.bytes a (s.length + 1) = s ++ [0] ∧ 0 ∉ s

instance (m : Mem) (a : Nat) (s : List UInt8) : Decidable (m.CStr a s) :=
  inferInstanceAs (Decidable (_ ∧ _))

theorem bytes_succ (m : Mem) (a n : Nat) : m.bytes a (n + 1) = m a :: m.bytes (a + 1) n := by
  rw [Nat.add_comm n 1, bytes_add]
  rfl

theorem cstr_nil {m : Mem} {a : Nat} : m.CStr a [] ↔ m a = 0 := by
  simp [CStr, bytes_succ, bytes_zero]

theorem cstr_cons {m : Mem} {a : Nat} {c : UInt8} {s : List UInt8} :
    m.CStr a (c :: s) ↔ m a = c ∧ c ≠ 0 ∧ m.CStr (a + 1) s := by
  unfold CStr
  rw [List.length_cons, bytes_succ, List.cons_append, List.cons.injEq, List.mem_cons, not_or]
  constructor
  · rintro ⟨⟨hc, hs⟩, h0, hmem⟩
    exact ⟨hc, fun h => h0 h.symm, hs, hmem⟩
  · rintro ⟨hc, h0, hs, hmem⟩
    exact ⟨⟨hc, hs⟩, fun h => h0 h.symm, hmem⟩

/-- There is at most one string at an address. -/
theorem CStr.unique {m : Mem} {a : Nat} {s t : List UInt8} (hs : m.CStr a s) (ht : m.CStr a t) :
    s = t := by
  induction s generalizing a t with
  | nil =>
    cases t with
    | nil => rfl
    | cons c t =>
      obtain ⟨hc, h0, -⟩ := cstr_cons.mp ht
      exact absurd (hc.symm.trans (cstr_nil.mp hs)) h0
  | cons c s ih =>
    obtain ⟨hc, h0, hs⟩ := cstr_cons.mp hs
    cases t with
    | nil => exact absurd (hc.symm.trans (cstr_nil.mp ht)) h0
    | cons c' t =>
      obtain ⟨hc', -, ht⟩ := cstr_cons.mp ht
      rw [ih hs ht, ← hc, ← hc']

/-- Two memories hold the same C string, each at its start. -/
def StrEq (m m' : Mem) : Prop := ∃ s, m.CStr 0 s ∧ m'.CStr 0 s

theorem CStr.strEq_iff {m m' : Mem} {s : List UInt8} (h : m.CStr 0 s) :
    m.StrEq m' ↔ m'.CStr 0 s := by
  constructor
  · rintro ⟨t, hm, hm'⟩
    rwa [h.unique hm]
  · exact fun hm' => ⟨s, h, hm'⟩

/-- Bytes followed by a zero byte are a string, which ends at the first zero among them. -/
theorem cstr_takeWhile {m : Mem} {a : Nat} {s : List UInt8}
    (h : m.bytes a (s.length + 1) = s ++ [0]) : m.CStr a (s.takeWhile (· ≠ 0)) := by
  induction s generalizing a with
  | nil =>
    rw [List.length_nil, bytes_succ, List.nil_append] at h
    exact cstr_nil.mpr (List.cons.inj h).1
  | cons c s ih =>
    rw [List.length_cons, bytes_succ, List.cons_append] at h
    obtain ⟨hc, hs⟩ := List.cons.inj h
    by_cases h0 : c = 0
    · rw [List.takeWhile_cons_of_neg (by simpa using h0)]
      exact cstr_nil.mpr (hc.trans h0)
    · rw [List.takeWhile_cons_of_pos (by simpa using h0)]
      exact cstr_cons.mpr ⟨hc, h0, ih hs⟩

end Mem

/-! ## Strings in an array -/

namespace CArray

/-- The string that starts at an index of an array, of which `size` bytes are left. -/
def textFrom (mem : Int → UInt8) : Nat → Int → List UInt8
  | 0, _ => []
  | size + 1, i => if mem i = 0 then [] else mem i :: textFrom mem size (i + 1)

/-- The string in an array of `size` bytes. -/
def textOf (mem : Int → UInt8) (size : Nat) : List UInt8 := textFrom mem size 0

theorem textFrom_length (mem : Int → UInt8) (size : Nat) (i : Int) :
    (textFrom mem size i).length ≤ size := by
  induction size generalizing i with
  | zero => exact Nat.le_refl 0
  | succ size ih =>
    rw [textFrom]
    split
    · exact Nat.zero_le _
    · exact Nat.succ_le_succ (ih (i + 1))

/-- The characters of a text and a zero behind them. -/
theorem textFrom_eq {mem : Int → UInt8} {text : List UInt8} (hzero : ∀ c ∈ text, c ≠ 0)
    {size : Nat} (hsize : text.length < size) {i : Int}
    (hmem : ∀ j (hj : j < text.length), mem (i + j) = text[j]) (hend : mem (i + text.length) = 0) :
    textFrom mem size i = text := by
  induction text generalizing size i with
  | nil =>
    obtain ⟨size, rfl⟩ := Nat.exists_eq_succ_of_ne_zero (Nat.ne_of_gt hsize)
    rw [textFrom, if_pos (by simpa using hend)]
  | cons c text ih =>
    obtain ⟨size, rfl⟩ := Nat.exists_eq_succ_of_ne_zero (Nat.ne_of_gt (Nat.zero_lt_of_lt hsize))
    have hfirst : mem i = c := by simpa using hmem 0 (Nat.zero_lt_succ _)
    rw [List.length_cons] at hsize hend
    rw [textFrom, hfirst, if_neg (hzero c List.mem_cons_self)]
    congr 1
    refine ih (fun d hd => hzero d (List.mem_cons_of_mem c hd)) (by omega) (fun j hj => ?_) ?_
    · rw [Int.add_assoc, Int.add_comm 1]
      exact hmem (j + 1) (Nat.succ_lt_succ hj)
    · rw [Int.add_assoc, Int.add_comm 1]
      exact hend

end CArray
