/-
# Byte-addressed memory

Memory is a total function from addresses to bytes.  `ld32` and `st32` are the little-endian
32-bit accesses of the x86; the module proves their round trip, that they only touch the four
bytes they name, and the frame rule every proof about a data structure in memory uses: a load
sees only the bytes it reads.  `bytes` reads a stretch as a list and `copy` is the byte loop that
moves one, between two memories or between two buffers seen as memories of their own.
-/
import Mathlib.Data.Nat.Bitwise

/-- A memory: one byte at every address. -/
abbrev Mem := Nat → UInt8

namespace Mem

/-! ## 1. Loads and stores -/

/-- Store one byte. -/
def st8 (m : Mem) (a : Nat) (b : UInt8) : Mem := fun x => if x = a then b else m x

/-- The little-endian 32-bit word at `a`. -/
def ld32 (m : Mem) (a : Nat) : Nat :=
  (m a).toNat + 256 * (m (a + 1)).toNat + 65536 * (m (a + 2)).toNat +
    16777216 * (m (a + 3)).toNat

/-- Store the 32-bit word `v` at `a`, lowest byte first. -/
def st32 (m : Mem) (a v : Nat) : Mem := fun x =>
  if x = a then UInt8.ofNat v
  else if x = a + 1 then UInt8.ofNat (v / 256)
  else if x = a + 2 then UInt8.ofNat (v / 65536)
  else if x = a + 3 then UInt8.ofNat (v / 16777216)
  else m x

/-- The little-endian 64-bit word at `a`. -/
def ld64 (m : Mem) (a : Nat) : Nat := m.ld32 a + 2 ^ 32 * m.ld32 (a + 4)

/-- The little-endian 16-bit word at `a`. -/
def ld16 (m : Mem) (a : Nat) : Nat := (m a).toNat + 256 * (m (a + 1)).toNat

/-- A buffer of bytes seen as a memory of its own. -/
def ofBytes (b : List UInt8) : Mem := fun i => b.getD i 0

theorem st8_same (m : Mem) (a : Nat) (b : UInt8) : st8 m a b a = b := by simp [st8]

theorem st8_other {m : Mem} {a x : Nat} (b : UInt8) (h : x ≠ a) : st8 m a b x = m x := by
  simp [st8, h]

/-- A store leaves every byte outside its four alone. -/
theorem st32_outside {m : Mem} {a x : Nat} (v : Nat) (h : x < a ∨ a + 4 ≤ x) :
    st32 m a v x = m x := by
  unfold st32
  rw [if_neg (by omega), if_neg (by omega), if_neg (by omega), if_neg (by omega)]

/-- A load sees only the four bytes it reads. -/
theorem ld32_congr {m m' : Mem} {a : Nat} (h : ∀ x, a ≤ x → x < a + 4 → m' x = m x) :
    ld32 m' a = ld32 m a := by
  unfold ld32
  rw [h a (by omega) (by omega), h (a + 1) (by omega) (by omega),
    h (a + 2) (by omega) (by omega), h (a + 3) (by omega) (by omega)]

theorem ld32_lt (m : Mem) (a : Nat) : ld32 m a < 2 ^ 32 := by
  unfold ld32
  have h0 := (m a).toNat_lt
  have h1 := (m (a + 1)).toNat_lt
  have h2 := (m (a + 2)).toNat_lt
  have h3 := (m (a + 3)).toNat_lt
  omega

/-- **Round trip.**  A 32-bit value stored is the value loaded. -/
theorem ld32_st32_same {m : Mem} {a v : Nat} (hv : v < 2 ^ 32) : ld32 (st32 m a v) a = v := by
  have h0 : st32 m a v a = UInt8.ofNat v := by simp [st32]
  have h1 : st32 m a v (a + 1) = UInt8.ofNat (v / 256) := by simp [st32]
  have h2 : st32 m a v (a + 2) = UInt8.ofNat (v / 65536) := by simp [st32]
  have h3 : st32 m a v (a + 3) = UInt8.ofNat (v / 16777216) := by simp [st32]
  rw [ld32, h0, h1, h2, h3]
  simp only [UInt8.toNat_ofNat']
  omega

/-- Storing the word that is there changes nothing. -/
theorem st32_ld32 (m : Mem) (a : Nat) : m.st32 a (m.ld32 a) = m := by
  have h0 := (m a).toNat_lt
  have h1 := (m (a + 1)).toNat_lt
  have h2 := (m (a + 2)).toNat_lt
  have h3 := (m (a + 3)).toNat_lt
  have hbyte : ∀ (y : UInt8) (v : Nat), v % 256 = y.toNat → UInt8.ofNat v = y := fun y v hv =>
    UInt8.toNat_inj.mp (by rw [UInt8.toNat_ofNat']; exact hv)
  funext x
  unfold st32 ld32
  by_cases hx : a ≤ x ∧ x < a + 4
  · have hcases : x = a ∨ x = a + 1 ∨ x = a + 2 ∨ x = a + 3 := by omega
    rcases hcases with rfl | rfl | rfl | rfl
    · rw [if_pos rfl]
      exact hbyte _ _ (by omega)
    · rw [if_neg (by omega), if_pos rfl]
      exact hbyte _ _ (by omega)
    · rw [if_neg (by omega), if_neg (by omega), if_pos rfl]
      exact hbyte _ _ (by omega)
    · rw [if_neg (by omega), if_neg (by omega), if_neg (by omega), if_pos rfl]
      exact hbyte _ _ (by omega)
  · rw [if_neg (by omega), if_neg (by omega), if_neg (by omega), if_neg (by omega)]

/-- A load disjoint from a store sees the old word. -/
theorem ld32_st32_disjoint {m : Mem} {a b : Nat} (v : Nat) (h : a + 4 ≤ b ∨ b + 4 ≤ a) :
    ld32 (st32 m a v) b = ld32 m b :=
  ld32_congr fun _ h1 h2 => st32_outside v (by omega)

/-- Stores to different bytes commute. -/
theorem st8_comm {m : Mem} {a a' : Nat} (b b' : UInt8) (h : a ≠ a') :
    (m.st8 a b).st8 a' b' = (m.st8 a' b').st8 a b := by
  funext x
  unfold st8
  by_cases hx : x = a
  · subst hx
    rw [if_neg h, if_pos rfl, if_pos rfl]
  · rw [if_neg hx, if_neg hx]

theorem st8_st8 (m : Mem) (a : Nat) (b b' : UInt8) : (m.st8 a b).st8 a b' = m.st8 a b' := by
  funext x
  unfold st8
  split <;> rfl

/-- A byte store and a word store elsewhere commute. -/
theorem st32_st8 {m : Mem} {a x : Nat} (v : Nat) (b : UInt8) (h : x < a ∨ a + 4 ≤ x) :
    (m.st8 x b).st32 a v = (m.st32 a v).st8 x b := by
  funext y
  by_cases hy : y = x
  · subst hy
    rw [st32_outside v h, st8_same, st8_same]
  · rw [st8_other b hy]
    unfold st32
    rw [st8_other b hy]

/-- The four bytes of a store do not depend on what was there. -/
theorem st32_inside (m m' : Mem) {a x : Nat} (v : Nat) (h : a ≤ x ∧ x < a + 4) :
    m.st32 a v x = m'.st32 a v x := by
  unfold st32
  have hx : x = a ∨ x = a + 1 ∨ x = a + 2 ∨ x = a + 3 := by omega
  rcases hx with rfl | rfl | rfl | rfl <;> simp

/-! ## 2. Stretches of bytes -/

/-- The `n` bytes from `a` on. -/
def bytes (m : Mem) (a n : Nat) : List UInt8 := (List.range n).map fun i => m (a + i)

@[simp] theorem length_bytes (m : Mem) (a n : Nat) : (m.bytes a n).length = n := by simp [bytes]

theorem bytes_zero (m : Mem) (a : Nat) : m.bytes a 0 = [] := rfl

theorem bytes_congr {m m' : Mem} {a n : Nat} (h : ∀ x, a ≤ x → x < a + n → m' x = m x) :
    m'.bytes a n = m.bytes a n := by
  refine List.map_congr_left fun i hi => h _ (by omega) ?_
  have := List.mem_range.mp hi
  omega

theorem bytes_add (m : Mem) (a n k : Nat) :
    m.bytes a (n + k) = m.bytes a n ++ m.bytes (a + n) k := by
  unfold bytes
  rw [List.range_add, List.map_append, List.map_map]
  congr 1
  refine List.map_congr_left fun i _ => ?_
  simp only [Function.comp_apply, Nat.add_assoc]

theorem take_bytes (m : Mem) (a n k : Nat) : (m.bytes a n).take k = m.bytes a (min k n) := by
  unfold bytes
  rw [← List.map_take, List.take_range]

theorem drop_bytes (m : Mem) (a n k : Nat) : (m.bytes a n).drop k = m.bytes (a + k) (n - k) := by
  rcases Nat.le_total k n with h | h
  · obtain ⟨d, rfl⟩ := Nat.exists_eq_add_of_le h
    rw [bytes_add, List.drop_left' (length_bytes m a k), Nat.add_sub_cancel_left]
  · rw [Nat.sub_eq_zero_of_le h, bytes_zero, List.drop_eq_nil_of_le (by simpa using h)]

/-- The bytes read from a stretch, seen as a memory, are the stretch. -/
theorem ofBytes_bytes (m : Mem) {n x : Nat} (h : x < n) : ofBytes (m.bytes 0 n) x = m x := by
  simp [ofBytes, bytes, h]

/-- `for (i = 0; i < n; i++) dst[di + i] = src[si + i];` -/
def copy (dst : Mem) (di : Nat) (src : Mem) (si : Nat) : Nat → Mem
  | 0 => dst
  | n + 1 => (copy dst di src si n).st8 (di + n) (src (si + n))

theorem copy_outside {dst src : Mem} {di si n x : Nat} (h : x < di ∨ di + n ≤ x) :
    copy dst di src si n x = dst x := by
  induction n with
  | zero => rfl
  | succ n ih => rw [copy, st8_other _ (by omega), ih (by omega)]

theorem copy_inside {dst src : Mem} {di si n k : Nat} (h : k < n) :
    copy dst di src si n (di + k) = src (si + k) := by
  induction n with
  | zero => omega
  | succ n ih =>
    rw [copy]
    rcases Nat.lt_succ_iff_lt_or_eq.mp h with hk | rfl
    · rw [st8_other _ (by omega), ih hk]
    · exact st8_same _ _ _

/-- Only the bytes that are copied matter. -/
theorem copy_congr {dst src src' : Mem} {di si n : Nat}
    (h : ∀ k < n, src' (si + k) = src (si + k)) : copy dst di src' si n = copy dst di src si n := by
  induction n with
  | zero => rfl
  | succ n ih =>
    rw [copy, copy, ih fun k hk => h k (Nat.lt_succ_of_lt hk), h n (Nat.lt_succ_self n)]

/-- The bytes copied are the bytes read. -/
theorem bytes_copy (dst : Mem) (di : Nat) (src : Mem) (si n : Nat) :
    (copy dst di src si n).bytes di n = src.bytes si n := by
  unfold bytes
  refine List.map_congr_left fun i hi => copy_inside (List.mem_range.mp hi)

end Mem
