/-
# Ownership of physical frames

Abstractly the physical memory manager is a pool of frames and a set of frames that are held: a
frame is free when it is in the pool and not held.  Each operation of `pmm.c` is one change of
that set (`pmmAllocPage_spec` and its companions), `pmm_init` decides the pool, and a run of
operations that frees only what is held never hands a frame out twice.
-/
import FlowOS.Pmm.Basic
import Mathlib.Data.List.Nodup
import Mathlib.Logic.Relation

namespace FlowOS.Pmm

open Word

/-! ## 1. Free frames -/

/-- The number of frames the bitmap describes. -/
abbrev frameCount : Nat := bitmapSize * 32

theorem frameCount_eq : frameCount = 2 ^ 20 := by decide

/-- A frame whose bit is clear. -/
def Free (m : Pmm) (f : Nat) : Prop := f < frameCount ∧ Bitmap.test m.bitmap f = false

variable {m : Pmm} {f g : Nat}

/-- Whether frames are free depends on the bitmap alone. -/
theorem free_congr {m' : Pmm} (h : m'.bitmap = m.bitmap) : Free m' g ↔ Free m g := by
  unfold Free
  rw [h]

theorem free_set {m' : Pmm} {p : Nat} (h : m'.bitmap = Bitmap.set m.bitmap p) :
    Free m' g ↔ Free m g ∧ g ≠ p := by
  unfold Free
  rw [h, Bitmap.test_set (by decide)]
  simp [and_assoc, and_comm]

theorem free_clear {m' : Pmm} {p : Nat} (h : m'.bitmap = Bitmap.clear m.bitmap p)
    (hp : p < frameCount) : Free m' g ↔ Free m g ∨ g = p := by
  unfold Free
  rw [h, Bitmap.test_clear (by decide)]
  by_cases hgp : g = p
  · subst hgp
    simp [hp]
  · simp [hgp]

/-! ## 2. One change for each operation -/

theorem pmmAllocPage_none (h : ∀ f, ¬ Free m f) : pmmAllocPage m = (0, m) := by
  have hnone : Bitmap.firstClear m.bitmap bitmapSize = none := by
    rw [Bitmap.firstClear_none (by decide)]
    intro p hp
    have := h p
    unfold Free at this
    simpa [hp] using this
  unfold pmmAllocPage
  rw [hnone]

/-- `pmm_alloc_page` when there is a free frame. -/
theorem pmmAllocPage_eq (h : ∃ f, Free m f) : ∃ f, Free m f ∧ pmmAllocPage m = (f * pageSize,
    { m with bitmap := Bitmap.set m.bitmap f, usedPages := add32 m.usedPages 1 }) := by
  have hsome : ∃ p, Bitmap.firstClear m.bitmap bitmapSize = some p := by
    by_contra hno
    have hnone : Bitmap.firstClear m.bitmap bitmapSize = none := by
      cases hf : Bitmap.firstClear m.bitmap bitmapSize with
      | none => rfl
      | some p => exact absurd ⟨p, hf⟩ hno
    obtain ⟨f, hf, hclear⟩ := h
    rw [(Bitmap.firstClear_none (by decide)).mp hnone f hf] at hclear
    cases hclear
  obtain ⟨p, hp⟩ := hsome
  have hfree : Free m p := Bitmap.firstClear_some (by decide) hp
  have hlt := hfree.1
  rw [frameCount_eq] at hlt
  have haddr : p * pageSize % 2 ^ 32 = p * pageSize :=
    Nat.mod_eq_of_lt (by simp only [pageSize]; omega)
  refine ⟨p, hfree, ?_⟩
  unfold pmmAllocPage
  rw [hp, ← haddr]

/-- **`pmm_alloc_page` takes a free frame**, if there is one. -/
theorem pmmAllocPage_spec (h : ∃ f, Free m f) : ∃ f, Free m f ∧
    (pmmAllocPage m).1 = f * pageSize ∧ ∀ g, Free (pmmAllocPage m).2 g ↔ Free m g ∧ g ≠ f := by
  obtain ⟨f, hf, he⟩ := pmmAllocPage_eq h
  rw [he]
  exact ⟨f, hf, rfl, fun g => free_set rfl⟩

/-- **`pmm_alloc_page` returns the lowest free frame.** -/
theorem pmmAllocPage_le (hf : Free m f) : (pmmAllocPage m).1 ≤ f * pageSize := by
  unfold pmmAllocPage
  split
  · rename_i p hp
    have hle : p ≤ f := Bitmap.firstClear_le (by decide) hp hf.2
    exact Nat.le_trans (Nat.mod_le _ _) (Nat.mul_le_mul_right _ hle)
  · exact Nat.zero_le _

/-- `pmm_alloc_page` frees nothing. -/
theorem free_of_alloc (h : Free (pmmAllocPage m).2 g) : Free m g := by
  by_cases hex : ∃ f, Free m f
  · obtain ⟨f, -, -, hm'⟩ := pmmAllocPage_spec hex
    exact ((hm' g).mp h).1
  · rw [pmmAllocPage_none fun f hf => hex ⟨f, hf⟩] at h
    exact h

/-- The address `pmm_alloc_page` returns is that of a frame that was free. -/
theorem alloc_addr (hz : (pmmAllocPage m).1 ≠ 0) :
    4096 ∣ (pmmAllocPage m).1 ∧ (pmmAllocPage m).1 < 2 ^ 32 ∧
      Free m ((pmmAllocPage m).1 / 4096) ∧
      ¬ Free (pmmAllocPage m).2 ((pmmAllocPage m).1 / 4096) := by
  by_cases hex : ∃ f, Free m f
  · obtain ⟨f, hf, haddr, hm'⟩ := pmmAllocPage_spec hex
    have hlt : f < 2 ^ 20 := frameCount_eq ▸ hf.1
    rw [haddr, pageSize, Nat.mul_div_cancel f (by decide)]
    exact ⟨Nat.dvd_mul_left _ _, by omega, hf, fun hfree => ((hm' f).mp hfree).2 rfl⟩
  · rw [pmmAllocPage_none fun f hf => hex ⟨f, hf⟩] at hz
    exact absurd rfl hz

/-- When `pmm_alloc_page` returns 0, and frame 0 is not free, no frame is. -/
theorem not_free_of_alloc (h0 : ¬ Free m 0) (hz : (pmmAllocPage m).1 = 0) (f : Nat) :
    ¬ Free m f := by
  intro hf
  obtain ⟨p, hp, haddr, -⟩ := pmmAllocPage_spec ⟨f, hf⟩
  rw [hz] at haddr
  rcases Nat.mul_eq_zero.mp haddr.symm with rfl | hsize
  · exact h0 hp
  · exact absurd hsize (by decide)

/-- **`pmm_free_page` frees the frame of the address.** -/
theorem pmmFreePage_spec {addr : Nat} (ha : addr < 2 ^ 32) :
    Free (pmmFreePage m addr) g ↔ Free m g ∨ g = addr / pageSize := by
  have hp : addr / pageSize < frameCount := by
    rw [frameCount_eq]
    simp only [pageSize]
    omega
  unfold pmmFreePage
  dsimp only
  split
  · exact free_clear rfl hp
  · rename_i hclear
    constructor
    · exact Or.inl
    · rintro (h | rfl)
      · exact h
      · exact ⟨hp, by simpa using hclear⟩

theorem freeOne_spec (p : Nat) : Free (m.freeOne p) g ↔ Free m g ∨ (g = p ∧ p < frameCount) := by
  unfold freeOne
  split
  · rename_i h
    rw [free_clear rfl h.1]
    constructor
    · rintro (hg | rfl)
      · exact Or.inl hg
      · exact Or.inr ⟨rfl, h.1⟩
    · rintro (hg | ⟨rfl, -⟩)
      · exact Or.inl hg
      · exact Or.inr rfl
  · rename_i h
    constructor
    · exact Or.inl
    · rintro (hg | ⟨rfl, hlt⟩)
      · exact hg
      · refine ⟨hlt, ?_⟩
        by_contra ht
        exact h ⟨hlt, by simpa using ht⟩

/-- **`pmm_free_pages` frees the frames it names.** -/
theorem pmmFreePages_spec {addr n : Nat} : Free (pmmFreePages m addr n) g ↔
    Free m g ∨ ∃ i < n, g = add32 (addr / pageSize) i ∧ g < frameCount := by
  unfold pmmFreePages
  dsimp only
  induction n with
  | zero => simp
  | succ n ih =>
    rw [List.range_succ, List.foldl_append, List.foldl_cons, List.foldl_nil, freeOne_spec, ih]
    constructor
    · rintro ((hg | ⟨i, hi, rfl, hlt⟩) | ⟨rfl, hlt⟩)
      · exact Or.inl hg
      · exact Or.inr ⟨i, by omega, rfl, hlt⟩
      · exact Or.inr ⟨n, by omega, rfl, hlt⟩
    · rintro (hg | ⟨i, hi, rfl, hlt⟩)
      · exact Or.inl (Or.inl hg)
      · rcases Nat.lt_succ_iff_lt_or_eq.mp hi with hi | rfl
        · exact Or.inl (Or.inr ⟨i, hi, rfl, hlt⟩)
        · exact Or.inr ⟨rfl, hlt⟩

/-- Marking a run of frames sets exactly their bits. -/
theorem test_takeRun {start n : Nat} (hn : start + n ≤ frameCount) (f : Nat) :
    Bitmap.test (m.takeRun start n).bitmap f =
      (decide (start ≤ f ∧ f < start + n) || Bitmap.test m.bitmap f) := by
  have hcount := frameCount_eq
  unfold takeRun
  dsimp only
  induction n with
  | zero => simp
  | succ n ih =>
    have hadd : add32 start n = start + n := add32_of_lt (by omega)
    rw [List.range_succ, List.foldl_append, List.foldl_cons, List.foldl_nil, hadd,
      Bitmap.test_set (by decide), ih (by omega), ← Bool.or_assoc, ← Bool.decide_or]
    congr 1
    exact decide_eq_decide.mpr (by omega)

/-- Marking a run used. -/
theorem takeRun_spec {start n : Nat} (hn : start + n ≤ frameCount) :
    Free (m.takeRun start n) g ↔ Free m g ∧ ¬ (start ≤ g ∧ g < start + n) := by
  unfold Free
  rw [test_takeRun hn, Bool.or_eq_false_iff, decide_eq_false_iff_not]
  tauto

/-- The `n` frames from `start` on are all free. -/
structure FreeRun (m : Pmm) (n start : Nat) : Prop where
  fits : start + n ≤ frameCount
  free : ∀ g, start ≤ g → g < start + n → Free m g

/-- The inner loop of `pmm_alloc_pages` tests for a run of free frames. -/
theorem canAlloc_iff {n start : Nat} (hle : start + n ≤ frameCount) :
    canAlloc m start n = true ↔ FreeRun m n start := by
  have hcount := frameCount_eq
  rw [canAlloc, List.all_eq_true]
  constructor
  · intro hall
    refine ⟨hle, fun g hlo hhi => ⟨by omega, ?_⟩⟩
    have hbit := hall (g - start) (List.mem_range.mpr (by omega))
    rw [add32_of_lt (by omega), Nat.add_sub_cancel' hlo] at hbit
    simpa using hbit
  · intro hrun k hk
    have hlt := List.mem_range.mp hk
    have hbit := (hrun.free (start + k) (by omega) (by omega)).2
    rw [add32_of_lt (by omega), hbit]
    rfl

/-- **`pmm_alloc_pages` searches for the first run of free frames**, and takes it. -/
theorem pmmAllocPages_cases {n : Nat} (hpos : 0 < n) (hn : n ≤ 2 ^ 20) :
    (∃ start, FreeRun m n start ∧ (∀ s < start, ¬ FreeRun m n s) ∧
      pmmAllocPages m n = some (start * pageSize, m.takeRun start n)) ∨
    ((∀ s, ¬ FreeRun m n s) ∧ pmmAllocPages m n = some (0, m)) := by
  have hcount := frameCount_eq
  have hlast : sub32 (bitmapSize * 32) n = frameCount - n :=
    sub32_of_le (by rw [show bitmapSize * 32 = 2 ^ 20 from frameCount_eq]; exact hn) (by decide)
  unfold pmmAllocPages
  rw [if_neg (Nat.ne_of_gt hpos)]
  dsimp only
  rw [hlast]
  split
  · rename_i start hfind
    obtain ⟨k, -, hk, hans, hmin⟩ := Loop.firstSome_some hfind
    obtain ⟨hcan, rfl⟩ : canAlloc m k n = true ∧ k = start := by
      split at hans
      · exact ⟨by assumption, Option.some.inj hans⟩
      · cases hans
    have haddr : k * pageSize % 2 ^ 32 = k * pageSize :=
      Nat.mod_eq_of_lt (by simp only [pageSize]; omega)
    refine Or.inl ⟨k, (canAlloc_iff (by omega)).mp hcan, fun s hs hrun => ?_, by rw [haddr]⟩
    have hnone := hmin s (Nat.zero_le s) hs
    rw [if_pos ((canAlloc_iff (by omega)).mpr hrun)] at hnone
    cases hnone
  · rename_i hfind
    refine Or.inr ⟨fun s hrun => ?_, if_neg (by omega)⟩
    have hle := hrun.fits
    have hnone := Loop.firstSome_none.mp hfind s (Nat.zero_le s) (by omega)
    rw [if_pos ((canAlloc_iff hle).mpr hrun)] at hnone
    cases hnone

/-- **`pmm_alloc_pages` takes a run of free frames**, or fails and changes nothing. -/
theorem pmmAllocPages_spec {n : Nat} (hn : n ≤ 2 ^ 20) :
    pmmAllocPages m n = some (0, m) ∨
    ∃ start, pmmAllocPages m n = some (start * pageSize, m.takeRun start n) ∧
      start + n ≤ frameCount ∧ ∀ g, start ≤ g → g < start + n → Free m g := by
  rcases Nat.eq_zero_or_pos n with rfl | hpos
  · exact Or.inl rfl
  · rcases pmmAllocPages_cases hpos hn with ⟨start, hrun, -, he⟩ | ⟨-, he⟩
    · exact Or.inr ⟨start, he, hrun.fits, hrun.free⟩
    · exact Or.inl he

/-- A run of free frames does not begin with frame 0 when that is used. -/
theorem FreeRun.ne_zero {n start : Nat} (h : FreeRun m n start) (hpos : 0 < n)
    (h0 : ¬ Free m 0) : start ≠ 0 := by
  rintro rfl
  exact h0 (h.free 0 (Nat.le_refl 0) (by omega))

/-- `pmm_alloc_pages` does not fail when there is a run of free frames. -/
theorem pmmAllocPages_ne_fail {n start : Nat} (hpos : 0 < n) (hle : start + n ≤ frameCount)
    (hfree : ∀ g, start ≤ g → g < start + n → Free m g) (h0 : ¬ Free m 0) :
    pmmAllocPages m n ≠ some (0, m) := by
  have hcount := frameCount_eq
  rcases @pmmAllocPages_cases m n hpos (by omega) with ⟨s, hrun, -, he⟩ | ⟨hnone, -⟩
  · rw [he]
    intro hfail
    have haddr : s * pageSize = 0 := (Prod.mk.inj (Option.some.inj hfail)).1
    rcases Nat.mul_eq_zero.mp haddr with hs | hsize
    · exact hrun.ne_zero hpos h0 hs
    · exact absurd hsize (by decide)
  · exact absurd ⟨hle, hfree⟩ (hnone start)

/-! ## 3. The pool: what `pmm_init` frees -/

theorem not_free_allUsed : ¬ Free allUsed g := by
  rintro ⟨-, h⟩
  have hlt : g % 32 < 32 := Nat.mod_lt g (by decide)
  rw [Bitmap.test_eq (by decide), allUsed, BitVec.getLsbD_allOnes] at h
  exact absurd (decide_eq_true hlt) (by rw [h]; decide)

theorem free_release {page : Nat} (h : Free (m.release page) g) : Free m g ∨ g = page := by
  obtain ⟨hlt, hclear⟩ := h
  unfold release at hclear
  rw [Bitmap.test_clear (by decide)] at hclear
  by_cases hg : g = page
  · exact Or.inr hg
  · exact Or.inl ⟨hlt, by simpa [hg] using hclear⟩

/-- A loop that may release each page of a list releases nothing else. -/
theorem free_foldl {step : Pmm → Nat → Pmm} {P : Nat → Prop}
    (hstep : ∀ m page, Free (step m page) g → Free m g ∨ (g = page ∧ P page)) (pages : List Nat) :
    Free (pages.foldl step m) g → Free m g ∨ (g ∈ pages ∧ P g) := by
  induction pages generalizing m with
  | nil => exact Or.inl
  | cons page pages ih =>
    intro h
    rcases ih h with h' | ⟨hmem, hP⟩
    · rcases hstep m page h' with h'' | ⟨rfl, hP⟩
      · exact Or.inl h''
      · exact Or.inr ⟨List.mem_cons_self, hP⟩
    · exact Or.inr ⟨List.mem_cons_of_mem _ hmem, hP⟩

theorem mem_pageRange {s e p : Nat} : p ∈ pageRange s e ↔ s ≤ p ∧ p < e := by
  unfold pageRange
  rw [List.mem_range'_1]
  omega

/-- A frame lies wholly in a record of available memory. -/
def InEntry (e : MmapEntry) (f : Nat) : Prop :=
  e.type = 1 ∧ e.addr ≤ f * pageSize ∧ f * pageSize + pageSize ≤ e.addr + e.len

/-- What a record of the memory map makes free lies wholly in it, above 1 MiB and above the
kernel. -/
theorem free_addEntry {k : Nat} {e : MmapEntry} (h : Free (addEntry k m e) g) :
    Free m g ∨ (InEntry e g ∧ 0x100000 ≤ g * pageSize ∧ k ≤ g * pageSize) := by
  have hg : g < 2 ^ 20 := frameCount_eq ▸ h.1
  have hmod : g * pageSize % 2 ^ 32 = g * pageSize :=
    Nat.mod_eq_of_lt (by simp only [pageSize]; omega)
  unfold addEntry at h
  split at h
  · rename_i htype
    split at h
    · rename_i haddr
      dsimp only at h
      have hstep : ∀ m page, Free (releaseUsable k m page) g → Free m g ∨
          (g = page ∧ (0x100000 ≤ page * pageSize % 2 ^ 32 ∧ k ≤ page * pageSize % 2 ^ 32)) := by
        intro m page hm
        unfold releaseUsable at hm
        dsimp only at hm
        split at hm
        · rename_i hP
          rcases free_release hm with h1 | h1
          · exact Or.inl h1
          · exact Or.inr ⟨h1, hP⟩
        · exact Or.inl hm
      rcases free_foldl hstep _ h with h1 | ⟨hmem, hP⟩
      · exact Or.inl h1
      · rw [hmod] at hP
        refine Or.inr ⟨⟨htype, ?_⟩, hP⟩
        obtain ⟨hs, he⟩ := mem_pageRange.mp hmem
        -- the page numbers fit 32 bits, and a sum that wraps has no page above the start
        simp only [pageSize] at hs he ⊢
        split at he <;> omega
    · exact Or.inl h
  · exact Or.inl h

theorem free_entries {k : Nat} (es : List MmapEntry) (h : Free (es.foldl (addEntry k) m) g) :
    Free m g ∨ (∃ e ∈ es, InEntry e g) ∧ 0x100000 ≤ g * pageSize ∧ k ≤ g * pageSize := by
  induction es generalizing m with
  | nil => exact Or.inl h
  | cons e es ih =>
    rcases ih h with h' | ⟨⟨e', he', hin⟩, hP⟩
    · rcases free_addEntry h' with h'' | ⟨hin, hP⟩
      · exact Or.inl h''
      · exact Or.inr ⟨⟨e, List.mem_cons_self, hin⟩, hP⟩
    · exact Or.inr ⟨⟨e', List.mem_cons_of_mem _ he', hin⟩, hP⟩

/-- A frame the boot loader reports as available: it lies wholly in a type 1 record, or in the
memory `mem_upper` reports when there is no map, at or above both 1 MiB and the kernel's end. -/
def Usable (mem : Mem) (linkEnd : Nat) (mboot : MultibootInfo) (f : Nat) : Prop :=
  max 0x100000 (kernelEnd linkEnd) ≤ f * pageSize ∧
  if mboot.flags &&& 1#32 <<< 6 != 0#32 then
    ∃ es, mmapEntries mem (add32 mboot.mmapAddr mboot.mmapLength) (2 ^ 32) mboot.mmapAddr
        = some es ∧
      ∃ e ∈ es, InEntry e f
  else f * pageSize + pageSize ≤ 0x100000 + mboot.memUpper * 1024

/-- `kernel_end` is a multiple of the page size. -/
theorem kernelEnd_eq (linkEnd : Nat) :
    kernelEnd linkEnd = add32 linkEnd (pageSize - 1) / pageSize * pageSize :=
  and_highMask (by decide : 12 ≤ 32) (add32_lt _ _)

/-- **`pmm_init` frees available memory only.** -/
theorem pmmInit_usable {mem : Mem} {linkEnd : Nat} {mboot : MultibootInfo} {m₀ : Pmm}
    (hk : 0x100000 ≤ kernelEnd linkEnd) (h : pmmInit mem linkEnd mboot = some m₀)
    (hf : Free m₀ f) : Usable mem linkEnd mboot f := by
  unfold pmmInit at h
  unfold Usable
  dsimp only at h
  split at h
  · rename_i hflag
    rw [if_pos hflag]
    obtain ⟨es, hes, rfl⟩ := Option.map_eq_some_iff.mp h
    rcases free_entries es ((free_congr rfl).mp hf) with h' | ⟨hin, h1, h2⟩
    · exact absurd h' not_free_allUsed
    · exact ⟨Nat.max_le.mpr ⟨h1, h2⟩, es, hes, hin⟩
  · rename_i hflag
    rw [if_neg hflag]
    obtain rfl := Option.some.inj h
    have hf' : Free (addUpper (kernelEnd linkEnd) mboot.memUpper allUsed) f :=
      (free_congr rfl).mp hf
    unfold addUpper at hf'
    have hstep : ∀ m page, Free (release m page) f → Free m f ∨ (f = page ∧ True) :=
      fun m page hm => (free_release hm).imp id fun he => ⟨he, trivial⟩
    rcases free_foldl hstep _ hf' with h' | ⟨hmem, -⟩
    · exact absurd h' not_free_allUsed
    · obtain ⟨hs, he⟩ := mem_pageRange.mp hmem
      have halign := kernelEnd_eq linkEnd
      rw [halign] at hk hs ⊢
      simp only [pageSize] at hk hs he ⊢
      have := Nat.min_le_left ((mboot.memUpper + 1024) % 2 ^ 32 * 1024 % 2 ^ 32 / 4096)
        (bitmapSize * 32)
      omega

/-! ## 4. Runs -/

/-- The frames of a run of `n` from the address an allocator returned; address 0 is failure. -/
def granted (addr n : Nat) : List Nat := if addr = 0 then [] else List.range' (addr / pageSize) n

/-- The frames a call `pmm_free_pages(addr, n)` names. -/
def named (addr n : Nat) : List Nat := (List.range n).map (add32 (addr / pageSize))

/-- One operation of a client that frees only frames it holds. -/
inductive Step : Pmm × List Nat → Pmm × List Nat → Prop
  | allocPage (m : Pmm) (held : List Nat) :
      Step (m, held) ((pmmAllocPage m).2, granted (pmmAllocPage m).1 1 ++ held)
  | allocPages (m m' : Pmm) (held : List Nat) (n addr : Nat) (hn : n ≤ 2 ^ 20)
      (h : pmmAllocPages m n = some (addr, m')) : Step (m, held) (m', granted addr n ++ held)
  | freePage (m : Pmm) (held : List Nat) (addr : Nat) (ha : addr < 2 ^ 32)
      (h : addr / pageSize ∈ held) :
      Step (m, held) (pmmFreePage m addr, held.erase (addr / pageSize))
  | freePages (m : Pmm) (held : List Nat) (addr n : Nat) (h : ∀ f ∈ named addr n, f ∈ held) :
      Step (m, held) (pmmFreePages m addr n, held.filter (· ∉ named addr n))

/-- The invariant: the free frames are those of the pool that are not held. -/
structure Inv (pool : Nat → Prop) (m : Pmm) (held : List Nat) : Prop where
  free : ∀ f, Free m f ↔ pool f ∧ f ∉ held
  nodup : held.Nodup
  mem : ∀ f ∈ held, pool f
  bound : ∀ f, pool f → f < frameCount
  zero : ¬ pool 0

variable {pool : Nat → Prop} {held : List Nat}

/-- Taking free frames keeps the invariant. -/
theorem Inv.take (h : Inv pool m held) {m' : Pmm} {fs : List Nat} (hnd : fs.Nodup)
    (hfree : ∀ f ∈ fs, Free m f) (hm' : ∀ g, Free m' g ↔ Free m g ∧ g ∉ fs) :
    Inv pool m' (fs ++ held) := by
  refine ⟨?_, ?_, ?_, h.bound, h.zero⟩
  · intro g
    rw [hm', h.free, List.mem_append]
    tauto
  · refine List.nodup_append.mpr ⟨hnd, h.nodup, ?_⟩
    intro a ha b hb hab
    exact ((h.free a).mp (hfree a ha)).2 (hab ▸ hb)
  · intro f hf
    rcases List.mem_append.mp hf with hf | hf
    · exact ((h.free f).mp (hfree f hf)).1
    · exact h.mem f hf

/-- Giving held frames back keeps the invariant. -/
theorem Inv.give (h : Inv pool m held) {m' : Pmm} {fs held' : List Nat} (hnd : held'.Nodup)
    (hmem : ∀ f ∈ fs, f ∈ held) (hm' : ∀ g, Free m' g ↔ Free m g ∨ g ∈ fs)
    (hheld : ∀ g, g ∈ held' ↔ g ∈ held ∧ g ∉ fs) : Inv pool m' held' := by
  refine ⟨fun g => ?_, hnd, fun f hf => h.mem f ((hheld f).mp hf).1, h.bound, h.zero⟩
  rw [hm', h.free, hheld]
  constructor
  · rintro (⟨hp, hn⟩ | hg)
    · exact ⟨hp, fun hc => hn hc.1⟩
    · exact ⟨h.mem g (hmem g hg), fun hc => hc.2 hg⟩
  · rintro ⟨hp, hn⟩
    by_cases hg : g ∈ fs
    · exact Or.inr hg
    · exact Or.inl ⟨hp, fun hc => hn ⟨hc, hg⟩⟩

theorem Inv.ne_zero (h : Inv pool m held) (hf : Free m f) : f ≠ 0 := by
  rintro rfl
  exact h.zero ((h.free 0).mp hf).1

theorem granted_mul {n : Nat} (hf : f ≠ 0) : granted (f * pageSize) n = List.range' f n := by
  have h0 : f * pageSize ≠ 0 := Nat.mul_ne_zero hf (by decide)
  rw [granted, if_neg h0, Nat.mul_div_cancel f (by decide)]

/-- **Step lemma.** -/
theorem step_inv {t t' : Pmm × List Nat} (hs : Step t t') (h : Inv pool t.1 t.2) :
    Inv pool t'.1 t'.2 := by
  cases hs with
  | allocPage m held =>
    by_cases hex : ∃ f, Free m f
    · obtain ⟨f, hf, haddr, hm'⟩ := pmmAllocPage_spec hex
      rw [haddr, granted_mul (h.ne_zero hf)]
      refine h.take (by simp) ?_ ?_
      · simpa using hf
      · simpa using hm'
    · rw [pmmAllocPage_none fun f hf => hex ⟨f, hf⟩]
      exact h
  | allocPages m m' held n addr hn heq =>
    rcases @pmmAllocPages_spec m n hn with hfail | ⟨start, hok, hle, hfree⟩
    · rw [hfail] at heq
      obtain ⟨rfl, rfl⟩ := Prod.mk.inj (Option.some.inj heq)
      exact h
    · rw [hok] at heq
      obtain ⟨rfl, rfl⟩ := Prod.mk.inj (Option.some.inj heq)
      have hm'' : ∀ g, Free (m.takeRun start n) g ↔ Free m g ∧ ¬ (start ≤ g ∧ g < start + n) :=
        fun g => takeRun_spec hle
      rcases Nat.eq_zero_or_pos n with rfl | hpos
      · -- a run of no frames
        have hno : granted (start * pageSize) 0 = [] := by
          unfold granted
          split <;> rfl
        rw [hno]
        exact h.take (by simp) (by simp) fun g => by rw [hm'' g]; simp
      · have hstart : start ≠ 0 := h.ne_zero (hfree start (Nat.le_refl _) (by omega))
        rw [granted_mul hstart]
        refine h.take List.nodup_range' ?_ ?_
        · intro g hg
          rw [List.mem_range'_1] at hg
          exact hfree g hg.1 hg.2
        · intro g
          rw [hm'' g, List.mem_range'_1]
  | freePage m held addr ha hmem =>
    refine @Inv.give _ _ _ h _ [addr / pageSize] _ (h.nodup.erase _) ?_ ?_ ?_
    · simpa using hmem
    · intro g
      rw [pmmFreePage_spec ha, List.mem_singleton]
    · intro g
      rw [List.Nodup.mem_erase_iff h.nodup, List.mem_singleton, and_comm]
  | freePages m held addr n hmem =>
    refine h.give (h.nodup.filter _) hmem ?_ ?_
    · intro g
      rw [pmmFreePages_spec]
      refine or_congr_right ⟨?_, fun hg => ?_⟩
      · rintro ⟨i, hi, rfl, -⟩
        exact List.mem_map.mpr ⟨i, List.mem_range.mpr hi, rfl⟩
      · obtain ⟨i, hi, rfl⟩ := List.mem_map.mp hg
        exact ⟨i, List.mem_range.mp hi, rfl, h.bound _ (h.mem _ (hmem _ hg))⟩
    · intro g
      rw [List.mem_filter, decide_eq_true_eq]

/-- **Run lemma.** -/
theorem run_inv {t t' : Pmm × List Nat} (hrun : Relation.ReflTransGen Step t t')
    (h : Inv pool t.1 t.2) : Inv pool t'.1 t'.2 := by
  induction hrun with
  | refl => exact h
  | tail _ hs ih => exact step_inv hs ih

/-- **Ownership is in order**, in a state with the frames `held` handed out. -/
structure FramesOk (usable : Nat → Prop) (m : Pmm) (held : List Nat) : Prop where
  heldOnce : held.Nodup
  heldUsable : ∀ f ∈ held, usable f
  zeroUsed : Bitmap.test m.bitmap 0 = true
  allocZero : (pmmAllocPage m).1 = 0 ↔ ∀ f < frameCount, Bitmap.test m.bitmap f = true
  allocPage : (pmmAllocPage m).1 ≠ 0 → pageSize ∣ (pmmAllocPage m).1 ∧
    ∀ f ∈ granted (pmmAllocPage m).1 1, usable f ∧ f ∉ held
  allocPages : ∀ n ≤ 2 ^ 20, ∃ addr m', pmmAllocPages m n = some (addr, m') ∧
    (addr ≠ 0 → pageSize ∣ addr ∧ ∀ f ∈ granted addr n, usable f ∧ f ∉ held)

theorem Inv.ok {usable : Nat → Prop} (h : Inv pool m held) (hu : ∀ f, pool f → usable f) :
    FramesOk usable m held := by
  have hfresh : ∀ f, Free m f → usable f ∧ f ∉ held := by
    intro f hf
    obtain ⟨hp, hn⟩ := (h.free f).mp hf
    exact ⟨hu f hp, hn⟩
  have hused : (∀ f, ¬ Free m f) ↔ ∀ f < frameCount, Bitmap.test m.bitmap f = true := by
    simp only [Free, not_and, Bool.not_eq_false]
  refine ⟨h.nodup, fun f hf => hu f (h.mem f hf), ?_, ?_, ?_, ?_⟩
  · by_contra hz
    exact h.zero ((h.free 0).mp ⟨by decide, by simpa using hz⟩).1
  · rw [← hused]
    constructor
    · intro h0 f hf
      obtain ⟨p, hp, haddr, -⟩ := pmmAllocPage_spec ⟨f, hf⟩
      rw [haddr] at h0
      rcases Nat.mul_eq_zero.mp h0 with h1 | h1
      · exact h.ne_zero hp h1
      · exact absurd h1 (by decide)
    · intro hno
      rw [pmmAllocPage_none hno]
  · intro h0
    by_cases hex : ∃ f, Free m f
    · obtain ⟨f, hf, haddr, -⟩ := pmmAllocPage_spec hex
      rw [haddr, granted_mul (h.ne_zero hf)]
      refine ⟨Nat.dvd_mul_left _ _, ?_⟩
      simpa using hfresh f hf
    · rw [pmmAllocPage_none fun f hf => hex ⟨f, hf⟩] at h0
      exact absurd rfl h0
  · intro n hn
    rcases @pmmAllocPages_spec m n hn with hfail | ⟨start, hok, hle, hfree⟩
    · exact ⟨0, m, hfail, fun h0 => absurd rfl h0⟩
    · refine ⟨_, _, hok, fun h0 => ⟨Nat.dvd_mul_left _ _, ?_⟩⟩
      intro f hf
      rw [granted_mul fun hs => h0 (by rw [hs, Nat.zero_mul]), List.mem_range'_1] at hf
      exact hfresh f (hfree f hf.1 hf.2)

/-- **Every run keeps ownership in order.**  Whatever memory map `pmm_init` was given, no frame
is held twice, the allocators hand out usable frames that nobody holds, at page-aligned
addresses, and `pmm_alloc_page` returns 0 exactly when no frame is free. -/
theorem pmm_run_ok (mem : Mem) (linkEnd : Nat) (mboot : MultibootInfo) (m₀ : Pmm)
    (hk : 0x100000 ≤ kernelEnd linkEnd) (hinit : pmmInit mem linkEnd mboot = some m₀)
    {t : Pmm × List Nat} (hrun : Relation.ReflTransGen Step (m₀, []) t) :
    FramesOk (Usable mem linkEnd mboot) t.1 t.2 := by
  have husable : ∀ f, Free m₀ f → Usable mem linkEnd mboot f := fun f => pmmInit_usable hk hinit
  have h₀ : Inv (Free m₀) m₀ [] := by
    refine ⟨by simp, List.nodup_nil, by simp, fun f hf => hf.1, ?_⟩
    intro h0
    have := (husable 0 h0).1
    rw [Nat.zero_mul] at this
    have := Nat.le_trans (Nat.le_max_left 0x100000 (kernelEnd linkEnd)) this
    omega
  exact (run_inv hrun h₀).ok husable

/-- A machine with 16 KiB above 1 MiB and no memory map, and a kernel that ends at 1 MiB. -/
def smallPmm : Pmm := { addUpper (kernelEnd 0x100000) 16 allUsed with usedPages := 0 }

/-- Its first page is the frame at 1 MiB, and after that allocation ownership is in order. -/
theorem pmm_run_ok_small : (pmmAllocPage smallPmm).1 = 0x100000 ∧
    FramesOk (Usable (fun _ => 0) 0x100000 ⟨0, 16, 0, 0⟩) (pmmAllocPage smallPmm).2
      (granted (pmmAllocPage smallPmm).1 1 ++ []) := by
  have hinit : pmmInit (fun _ => 0) 0x100000 ⟨0, 16, 0, 0⟩ = some smallPmm := by
    unfold pmmInit
    rw [if_neg (by decide)]
    rfl
  have hok := pmm_run_ok (fun _ => 0) 0x100000 ⟨0, 16, 0, 0⟩ smallPmm (by decide) hinit
    (.single (.allocPage smallPmm []))
  refine ⟨by decide +kernel, ?_⟩
  generalize pmmAllocPage smallPmm = r at hok ⊢
  exact hok

/-! ## 5. First fit -/

/-- **First fit.**  `pmm_alloc_pages(n)` takes the lowest run of `n` free frames and no other
bit, and it fails, changing nothing, exactly when there is no such run. -/
theorem pmmAllocPages_first_fit (m : Pmm) (h0 : Bitmap.test m.bitmap 0 = true) (n : Nat)
    (hpos : 1 ≤ n) (hn : n ≤ 2 ^ 20) :
    (∀ s, FreeRun m n s → (∀ s' < s, ¬ FreeRun m n s') →
      ∃ m', pmmAllocPages m n = some (4096 * s, m') ∧ 4096 * s ≠ 0 ∧
        m'.usedPages = add32 m.usedPages n ∧ m'.totalPages = m.totalPages ∧
        ∀ f, Bitmap.test m'.bitmap f = (decide (s ≤ f ∧ f < s + n) || Bitmap.test m.bitmap f)) ∧
    (pmmAllocPages m n = some (0, m) ↔ ∀ s, ¬ FreeRun m n s) := by
  have hzero : ¬ Free m 0 := fun hf => absurd (h0.symm.trans hf.2) (by decide)
  rcases @pmmAllocPages_cases m n hpos hn with ⟨start, hrun, hmin, he⟩ | ⟨hnone, he⟩
  · have hstart : 4096 * start ≠ 0 := Nat.mul_ne_zero (by decide) (hrun.ne_zero hpos hzero)
    refine ⟨fun s hs hsmin => ?_, iff_of_false (fun hfail => ?_) fun hall => hall start hrun⟩
    · obtain rfl : s = start := by
        rcases Nat.lt_trichotomy s start with hlt | heq | hgt
        · exact absurd hs (hmin s hlt)
        · exact heq
        · exact absurd hrun (hsmin start hgt)
      refine ⟨m.takeRun s n, ?_, hstart, rfl, rfl, test_takeRun hs.fits⟩
      rw [he, Nat.mul_comm]
      rfl
    · exact pmmAllocPages_ne_fail hpos hrun.fits hrun.free hzero hfail
  · exact ⟨fun s hs => absurd hs (hnone s), iff_of_true he hnone⟩

/-- In the memory of `smallPmm`, four frames from 1 MiB on, a request for three takes the first
three. -/
theorem pmmAllocPages_first_fit_small : ∃ m', pmmAllocPages smallPmm 3 = some (0x100000, m') ∧
    m'.usedPages = 3 ∧ Bitmap.test m'.bitmap 0x102 = true ∧
      Bitmap.test m'.bitmap 0x103 = false := by
  have hused : ∀ f < 0x100, Bitmap.test smallPmm.bitmap f = true := by decide +kernel
  have hclear : ∀ f < 0x103, 0x100 ≤ f → Bitmap.test smallPmm.bitmap f = false := by decide +kernel
  have hcount := frameCount_eq
  have hrun : FreeRun smallPmm 3 0x100 :=
    ⟨by omega, fun g hlo hhi => ⟨by omega, hclear g hhi hlo⟩⟩
  have hmin : ∀ s < 0x100, ¬ FreeRun smallPmm 3 s := by
    intro s hs h
    have hfree := (h.free s (Nat.le_refl s) (by omega)).2
    rw [hused s hs] at hfree
    cases hfree
  obtain ⟨m', he, -, hpages, -, hbits⟩ := (pmmAllocPages_first_fit smallPmm (hused 0 (by decide)) 3
    (by decide) (by decide)).1 0x100 hrun hmin
  refine ⟨m', he, hpages.trans (by decide +kernel), ?_, ?_⟩
  · rw [hbits]
    decide +kernel
  · rw [hbits]
    decide +kernel

end FlowOS.Pmm
