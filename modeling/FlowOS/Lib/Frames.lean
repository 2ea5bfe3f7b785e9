/-
# Page frames and two-level page tables

Physical memory as frames of 1024 words.  `word m f i` is word `i` of the frame at address `f`;
frames stand at multiples of 4096, so writes to one frame leave every other frame alone.  On top
of this stands the two-level translation of the x86: a directory frame names table frames, a
table frame names pages.  `lookup` reads a directory as the finite map it stands for, from
virtual page numbers to page numbers and flags.
-/
import FlowOS.Lib.Mem

namespace Frames

/-! ## 1. Words of frames -/

/-- Word `i` of the frame at `f`. -/
def word (m : Mem) (f i : Nat) : Nat := m.ld32 (f + 4 * i)

/-- Write word `i` of the frame at `f`. -/
def setWord (m : Mem) (f i v : Nat) : Mem := m.st32 (f + 4 * i) v

variable {m : Mem} {f g i j v : Nat}

theorem word_lt (m : Mem) (f i : Nat) : word m f i < 2 ^ 32 := Mem.ld32_lt _ _

theorem word_setWord_same (hv : v < 2 ^ 32) : word (setWord m f i v) f i = v :=
  Mem.ld32_st32_same hv

/-- The other words of the frame are unchanged. -/
theorem word_setWord_index (hij : j ≠ i) : word (setWord m f i v) f j = word m f j :=
  Mem.ld32_st32_disjoint v (by omega)

/-- The words of other frames are unchanged. -/
theorem word_setWord_frame (hf : 4096 ∣ f) (hg : 4096 ∣ g) (hfg : g ≠ f) (hi : i < 1024)
    (hj : j < 1024) : word (setWord m f i v) g j = word m g j :=
  Mem.ld32_st32_disjoint v (by omega)

/-- The frame an address lies in, which is also the frame a table entry names. -/
def frameOf (e : Nat) : Nat := e / 4096 * 4096

theorem frameOf_lt {e n : Nat} (h : e < n) : frameOf e < n :=
  lt_of_le_of_lt (Nat.div_mul_le_self e 4096) h

theorem frameOf_aligned (e : Nat) : 4096 ∣ frameOf e := Nat.dvd_mul_left _ _

/-- The bytes of other frames are unchanged. -/
theorem setWord_outside {x : Nat} (hf : 4096 ∣ f) (hi : i < 1024) (hx : frameOf x ≠ f) :
    setWord m f i v x = m x := by
  refine Mem.st32_outside v ?_
  unfold frameOf at hx
  omega

/-- The frame and the offset of an address made of both. -/
theorem frameOf_add {o : Nat} (hf : 4096 ∣ f) (ho : o < 4096) : frameOf (f + o) = f := by
  unfold frameOf
  omega

/-- Storing a byte leaves the words of other frames alone. -/
theorem word_st8 {x : Nat} {b : UInt8} (hf : 4096 ∣ f) (hi : i < 1024) (hx : frameOf x ≠ f) :
    word (m.st8 x b) f i = word m f i := by
  refine Mem.ld32_congr fun y h1 h2 => Mem.st8_other b ?_
  rintro rfl
  unfold frameOf at hx
  omega

/-- Storing a byte and a word of another frame commute. -/
theorem setWord_st8 {x : Nat} {b : UInt8} (hf : 4096 ∣ f) (hi : i < 1024) (hx : frameOf x ≠ f) :
    setWord (m.st8 x b) f i v = (setWord m f i v).st8 x b := by
  refine Mem.st32_st8 v b ?_
  unfold frameOf at hx
  omega

/-! ## 2. Filling and copying frames -/

/-- `for (i = 0; i < n; i++) f[i] = w(i);` -/
def fill (m : Mem) (f : Nat) (w : Nat → Nat) : Nat → Mem
  | 0 => m
  | n + 1 => setWord (fill m f w n) f n (w n)

theorem word_fill {w : Nat → Nat} (hw : ∀ i, w i < 2 ^ 32) {n : Nat} (hi : i < n) :
    word (fill m f w n) f i = w i := by
  induction n with
  | zero => omega
  | succ n ih =>
    rw [fill]
    rcases Nat.lt_succ_iff_lt_or_eq.mp hi with h | rfl
    · rw [word_setWord_index (by omega), ih h]
    · exact word_setWord_same (hw i)

theorem word_fill_frame {w : Nat → Nat} {n : Nat} (hn : n ≤ 1024) (hf : 4096 ∣ f) (hg : 4096 ∣ g)
    (hfg : g ≠ f) (hj : j < 1024) : word (fill m f w n) g j = word m g j := by
  induction n with
  | zero => rfl
  | succ n ih => rw [fill, word_setWord_frame hf hg hfg (by omega) hj, ih (by omega)]

theorem fill_outside {w : Nat → Nat} {n x : Nat} (hn : n ≤ 1024) (hf : 4096 ∣ f)
    (hx : frameOf x ≠ f) : fill m f w n x = m x := by
  induction n with
  | zero => rfl
  | succ n ih => rw [fill, setWord_outside hf (by omega) hx, ih (by omega)]

theorem fill_st8 {w : Nat → Nat} {n x : Nat} {b : UInt8} (hn : n ≤ 1024) (hf : 4096 ∣ f)
    (hx : frameOf x ≠ f) : fill (m.st8 x b) f w n = (fill m f w n).st8 x b := by
  induction n with
  | zero => rfl
  | succ n ih => rw [fill, ih (by omega), setWord_st8 hf (by omega) hx, fill]

/-- A filled stretch does not depend on what was there. -/
theorem fill_inside (m m' : Mem) {w : Nat → Nat} {n x : Nat} (hx : f ≤ x ∧ x < f + 4 * n) :
    fill m f w n x = fill m' f w n x := by
  induction n with
  | zero => omega
  | succ n ih =>
    rw [fill, fill]
    by_cases hlast : f + 4 * n ≤ x
    · exact Mem.st32_inside _ _ _ (by omega)
    · unfold setWord
      rw [Mem.st32_outside _ (by omega), Mem.st32_outside _ (by omega), ih (by omega)]

/-- Filling a whole frame makes up for a byte stored there. -/
theorem fill_st8_same {w : Nat → Nat} {x : Nat} {b : UInt8} (hf : 4096 ∣ f)
    (hx : frameOf x = f) : fill (m.st8 x b) f w 1024 = fill m f w 1024 := by
  funext y
  by_cases hy : frameOf y = f
  · refine fill_inside _ _ ?_
    unfold frameOf at hy
    omega
  · rw [fill_outside (Nat.le_refl _) hf hy, fill_outside (Nat.le_refl _) hf hy]
    refine Mem.st8_other b ?_
    rintro rfl
    exact hy hx

/-- `for (i = 0; i < n; i++) f[i] = g[i];` -/
def copy (m : Mem) (f g : Nat) : Nat → Mem
  | 0 => m
  | n + 1 => setWord (copy m f g n) f n (word (copy m f g n) g n)

theorem word_copy_frame {h n : Nat} (hn : n ≤ 1024) (hf : 4096 ∣ f) (hh : 4096 ∣ h) (hfh : h ≠ f)
    (hj : j < 1024) : word (copy m f g n) h j = word m h j := by
  induction n with
  | zero => rfl
  | succ n ih => rw [copy, word_setWord_frame hf hh hfh (by omega) hj, ih (by omega)]

theorem word_copy {n : Nat} (hn : n ≤ 1024) (hf : 4096 ∣ f) (hg : 4096 ∣ g) (hfg : g ≠ f)
    (hi : i < n) : word (copy m f g n) f i = word m g i := by
  induction n with
  | zero => omega
  | succ n ih =>
    rw [copy]
    rcases Nat.lt_succ_iff_lt_or_eq.mp hi with h | rfl
    · rw [word_setWord_index (by omega), ih (by omega) h]
    · rw [word_setWord_same (word_lt _ _ _), word_copy_frame (by omega) hf hg hfg (by omega)]

/-! ## 3. Two-level translation -/

/-- The present bit of an entry. -/
def Present (e : Nat) : Prop := e % 2 = 1

instance (e : Nat) : Decidable (Present e) := inferInstanceAs (Decidable (e % 2 = 1))

/-- What a table entry says about its page: the page number and the flags. -/
def page (e : Nat) : Option (Nat × Nat) := if Present e then some (e / 4096, e % 4096) else none

/-- **A directory as a finite map**, from virtual page numbers to page numbers and flags. -/
def lookup (m : Mem) (pd vpn : Nat) : Option (Nat × Nat) :=
  let pde := word m pd (vpn / 1024)
  if Present pde then page (word m (frameOf pde) (vpn % 1024)) else none

/-- The map depends on the directory's words and on those of the tables it names. -/
theorem lookup_congr {m m' : Mem} {pd pd' vpn : Nat}
    (hdir : word m' pd' (vpn / 1024) = word m pd (vpn / 1024))
    (htable : Present (word m pd (vpn / 1024)) →
      word m' (frameOf (word m pd (vpn / 1024))) (vpn % 1024)
        = word m (frameOf (word m pd (vpn / 1024))) (vpn % 1024)) :
    lookup m' pd' vpn = lookup m pd vpn := by
  unfold lookup
  rw [hdir]
  dsimp only
  split
  · rename_i hp
    rw [htable hp]
  · rfl

end Frames
