/-
# Runs of frames: how they are searched for, and how they are given back

`pmm_alloc_pages` tests one frame after the other from every `start` up to `total_avail - n`, an
unsigned difference.  For a request that fits the table this is the search of `pmm_alloc_page`
drawn out to runs, and for one frame the two are the same function.  For a larger request the
difference wraps and the search runs off the end of the bitmap.

What it takes can be given back in pieces, in any order and more than once: a release of a frame
that is free already is not counted.
-/
import FlowOS.Pmm.Count

namespace FlowOS.Pmm

open Word

variable {m : Pmm} {f : Nat}

/-! ## 1. The words the search reads -/

/-- The frames the inner loop tests, with `k` for the first of the remaining rounds: it stops at
the first frame that is used. -/
def testedFrom (m : Pmm) (start : Nat) : Nat → Nat → List Nat
  | 0, _ => []
  | rounds + 1, k =>
    let frame := add32 start k
    if Bitmap.test m.bitmap frame then [frame] else frame :: testedFrom m start rounds (k + 1)

/-- `start` is a round of the outer loop: it is within the bound, and no round before it has found
a run. -/
def Visits (m : Pmm) (n start : Nat) : Prop :=
  start ≤ sub32 (bitmapSize * 32) n ∧ ∀ s < start, canAlloc m s n = false

/-- `pmm_alloc_pages(n)` accesses word `i` of the bitmap.  The frames of a run it takes have all
been tested. -/
def Indexes (m : Pmm) (n i : Nat) : Prop :=
  ∃ start, Visits m n start ∧ ∃ f ∈ testedFrom m start n 0, i = f / 32

/-- The request returns, stays inside the bitmap, and fails without a trace when it asks for more
frames than there are. -/
structure Confined (m : Pmm) (n : Nat) : Prop where
  returns : (pmmAllocPages m n).isSome
  inside : ∀ i, Indexes m n i → i < bitmapSize
  fails : 2 ^ 20 < n → pmmAllocPages m n = some (0, m)

theorem mem_testedFrom {start rounds k : Nat} (hf : f ∈ testedFrom m start rounds k) :
    ∃ i < rounds, f = add32 start (k + i) := by
  induction rounds generalizing k with
  | zero => cases hf
  | succ rounds ih =>
    rw [testedFrom] at hf
    have hcases : f = add32 start k ∨ f ∈ testedFrom m start rounds (k + 1) := by
      split at hf
      · exact Or.inl (List.mem_singleton.mp hf)
      · exact List.mem_cons.mp hf
    rcases hcases with rfl | hrest
    · exact ⟨0, by omega, rfl⟩
    · obtain ⟨i, hi, rfl⟩ := ih hrest
      exact ⟨i + 1, by omega, by rw [Nat.add_assoc, Nat.add_comm 1 i]⟩

/-- Every frame up to the first one that is used is tested. -/
theorem testedFrom_of_clear {start rounds k i : Nat} (hi : i < rounds)
    (hclear : ∀ j < i, Bitmap.test m.bitmap (add32 start (k + j)) = false) :
    add32 start (k + i) ∈ testedFrom m start rounds k := by
  induction rounds generalizing k i with
  | zero => omega
  | succ rounds ih =>
    rw [testedFrom]
    cases i with
    | zero =>
      split <;> simp
    | succ i =>
      have hfirst : Bitmap.test m.bitmap (add32 start k) = false := hclear 0 (by omega)
      rw [if_neg (by rw [hfirst]; decide), ← Nat.add_assoc, Nat.add_right_comm]
      refine List.mem_cons_of_mem _ (ih (by omega) fun j hj => ?_)
      rw [Nat.add_right_comm, Nat.add_assoc]
      exact hclear (j + 1) (by omega)

/-- A request that fits the table is answered within it. -/
theorem confined_of_le {n : Nat} (hn : n ≤ 2 ^ 20) : Confined m n := by
  have hcount := frameCount_eq
  refine ⟨?_, ?_, fun hlt => by omega⟩
  · rcases @pmmAllocPages_spec m n hn with he | ⟨start, he, -⟩ <;> rw [he] <;> rfl
  · rintro i ⟨start, ⟨hle, -⟩, f, hf, rfl⟩
    obtain ⟨k, hk, rfl⟩ := mem_testedFrom hf
    rw [show bitmapSize * 32 = 2 ^ 20 from frameCount_eq, sub32_of_le hn (by decide)] at hle
    rw [Nat.zero_add, add32_of_lt (by omega), Nat.div_lt_iff_lt_mul (by decide),
      show bitmapSize * 32 = 2 ^ 20 from frameCount_eq]
    omega

/-- **A larger request reads past the end of the bitmap**, whatever the bitmap holds. -/
theorem indexes_past_end {n : Nat} (hn : 2 ^ 20 < n) (hlt : n < 2 ^ 32) :
    Indexes m n bitmapSize := by
  have hcount := frameCount_eq
  have hlast : 2 ^ 20 ≤ sub32 (bitmapSize * 32) n := by
    rw [show bitmapSize * 32 = 2 ^ 20 from frameCount_eq, sub32, Nat.mod_eq_of_lt (by omega)]
    omega
  have hword : bitmapSize = 2 ^ 20 / 32 := by decide
  by_cases hfound : ∃ s < 2 ^ 20, canAlloc m s n = true
  · -- the first run that is found reaches over the end
    obtain ⟨hs, hcan⟩ := Nat.find_spec hfound
    have hmin : ∀ s < Nat.find hfound, canAlloc m s n = false := fun s hlt' => by
      have := Nat.find_min hfound hlt'
      push Not at this
      simpa using this (by omega)
    generalize Nat.find hfound = s at hs hcan hmin
    rw [canAlloc, List.all_eq_true] at hcan
    refine ⟨s, ⟨by omega, hmin⟩, add32 s (0 + (2 ^ 20 - s)),
      testedFrom_of_clear (by omega) fun j hj => ?_, ?_⟩
    · rw [Nat.zero_add]
      simpa using hcan j (List.mem_range.mpr (by omega))
    · rw [Nat.zero_add, add32_of_lt (by omega), Nat.add_sub_cancel' (by omega), hword]
  · -- no run is found before the search gets there
    push Not at hfound
    refine ⟨2 ^ 20, ⟨hlast, fun s hs => by simpa using hfound s hs⟩, add32 (2 ^ 20) (0 + 0),
      testedFrom_of_clear (by omega) (by simp), ?_⟩
    rw [Nat.zero_add, add32_of_lt (by omega), Nat.add_zero, hword]

/-- **`pmm_alloc_pages(n)` is confined to its bitmap** exactly when the request is for no more
frames than there are. -/
theorem confined_iff (m : Pmm) (n : Nat) (hn : n < 2 ^ 32) : Confined m n ↔ n ≤ 2 ^ 20 := by
  refine ⟨fun h => ?_, confined_of_le⟩
  by_contra hlt
  exact absurd (h.inside bitmapSize (indexes_past_end (by omega) hn)) (lt_irrefl _)

theorem confined_iff_four : Confined smallPmm 4 ∧ 4 ≤ 2 ^ 20 :=
  ⟨(confined_iff smallPmm 4 (by decide)).mpr (by decide), by decide⟩

/-- With every frame used, a request for one frame more than there are reads word 32768 of a
bitmap of 32768 words, and the search does not end. -/
theorem search_past_end : Indexes allUsed (2 ^ 20 + 1) 32768 ∧ ¬ 32768 < bitmapSize ∧
    pmmAllocPages allUsed (2 ^ 20 + 1) = none := by
  refine ⟨indexes_past_end (by decide) (by decide), by decide, ?_⟩
  have hused : ∀ s, canAlloc allUsed s (2 ^ 20 + 1) = false := fun s => by
    rw [canAlloc, List.all_eq_false]
    refine ⟨0, List.mem_range.mpr (by decide), ?_⟩
    have hall : allUsed.bitmap = fun _ => BitVec.allOnes 32 := rfl
    rw [Bitmap.test_eq (by decide), hall, BitVec.getLsbD_allOnes,
      decide_eq_true (Nat.mod_lt _ (by decide))]
    decide
  have hlast : sub32 (bitmapSize * 32) (2 ^ 20 + 1) = 2 ^ 32 - 1 := by decide
  unfold pmmAllocPages
  rw [if_neg (by decide)]
  dsimp only
  rw [hlast]
  have hnone : Loop.firstSome (fun start => if canAlloc allUsed start (2 ^ 20 + 1) then some start
      else none) (2 ^ 32 - 1 + 1) 0 = none :=
    Loop.firstSome_none.mpr fun k _ _ => by rw [hused k]; rfl
  rw [hnone]
  exact if_pos rfl

/-! ## 2. A run of one frame -/

/-- **The two searches agree**: `pmm_alloc_pages(1)` is `pmm_alloc_page()`. -/
theorem pmmAllocPages_one (m : Pmm) : pmmAllocPages m 1 = some (pmmAllocPage m) := by
  have hone : ∀ s, FreeRun m 1 s ↔ Free m s := fun s => by
    constructor
    · exact fun h => h.free s (Nat.le_refl s) (by omega)
    · refine fun h => ⟨by have := h.1; omega, fun g hlo hhi => ?_⟩
      obtain rfl : g = s := by omega
      exact h
  rcases @pmmAllocPages_cases m 1 (by decide) (by decide) with ⟨start, hrun, hmin, he⟩ | ⟨hnone, he⟩
  · have hfree := (hone start).mp hrun
    obtain ⟨f, hf, hpage⟩ := pmmAllocPage_eq ⟨start, hfree⟩
    -- both take the lowest free frame
    have hle : f * pageSize ≤ start * pageSize := by
      have := pmmAllocPage_le hfree
      rwa [hpage] at this
    have hge : ¬ f < start := fun hlt => hmin f hlt ((hone f).mpr hf)
    obtain rfl : f = start := by
      have := Nat.le_of_mul_le_mul_right hle (by decide)
      omega
    have hcount := frameCount_eq
    have hlt := hf.1
    have htake : m.takeRun f 1
        = { m with bitmap := Bitmap.set m.bitmap f, usedPages := add32 m.usedPages 1 } := by
      have hadd : add32 f 0 = f := add32_of_lt (by omega)
      simp [takeRun, hadd]
    rw [he, hpage, htake]
  · rw [he, pmmAllocPage_none fun f hf => hnone f ((hone f).mpr hf)]

/-! ## 3. Giving a run back -/

/-- A call that releases frames. -/
inductive Release
  | page (addr : Nat)
  | pages (addr n : Nat)

/-- The call. -/
def Release.run (m : Pmm) : Release → Pmm
  | .page addr => pmmFreePage m addr
  | .pages addr n => pmmFreePages m addr n

/-- The numbers the call goes through; those from `frameCount` on it passes over. -/
def Release.names : Release → List Nat
  | .page addr => [addr / pageSize]
  | .pages addr n => named addr n

/-- The address is a 32-bit number. -/
def Release.Fits : Release → Prop
  | .page addr => addr < 2 ^ 32
  | .pages addr _ => addr < 2 ^ 32

/-- Every call releases the frames it names one by one. -/
theorem Release.run_eq {c : Release} (hc : c.Fits) : c.run m = c.names.foldl freeOne m := by
  cases c with
  | page addr =>
    have ha : addr < 2 ^ 32 := hc
    have hp : addr / pageSize < bitmapSize * 32 := by
      rw [show bitmapSize * 32 = 2 ^ 20 from frameCount_eq]
      simp only [pageSize]
      omega
    simp only [Release.run, Release.names, pmmFreePage, List.foldl_cons, List.foldl_nil, freeOne,
      hp, true_and]
  | pages addr n =>
    simp only [Release.run, Release.names, pmmFreePages, named, List.foldl_map]

theorem runs_eq {calls : List Release} (hc : ∀ c ∈ calls, c.Fits) :
    calls.foldl Release.run m = (calls.flatMap Release.names).foldl freeOne m := by
  induction calls generalizing m with
  | nil => rfl
  | cons c calls ih =>
    rw [List.foldl_cons, List.flatMap_cons, List.foldl_append,
      Release.run_eq (hc c List.mem_cons_self), ih fun d hd => hc d (List.mem_cons_of_mem _ hd)]

/-- **What is left of a run that is being given back**: `m'` is `m` with the frames of `held` in
use, which are free in `m`. -/
structure Holding (m m' : Pmm) (held : Finset Nat) : Prop where
  free : ∀ f ∈ held, Free m f
  bits : ∀ f, Bitmap.test m'.bitmap f = (decide (f ∈ held) || Bitmap.test m.bitmap f)
  used : m'.usedPages = add32 m.usedPages held.card
  total : m'.totalPages = m.totalPages

/-- One frame given back, or given back again. -/
theorem Holding.freeOne {m' : Pmm} {held : Finset Nat} (h : Holding m m' held)
    (hsmall : held.card < 2 ^ 32) {p : Nat} (hp : p < frameCount → p ∈ held ∨ Free m p) :
    Holding m (m'.freeOne p) (held.erase p) := by
  have herase : (∀ f ∈ held.erase p, Free m f) := fun f hf => h.free f (Finset.mem_of_mem_erase hf)
  unfold Pmm.freeOne
  split
  · rename_i hset
    -- its bit is set, so it is one of the frames that are held
    have hmem : p ∈ held := by
      by_contra hno
      have hfree := (hp hset.1).resolve_left hno
      rw [h.bits, hfree.2] at hset
      simp [hno] at hset
    refine ⟨herase, fun f => ?_, ?_, h.total⟩
    · dsimp only
      rw [Bitmap.test_clear (by decide), h.bits]
      by_cases hfp : f = p
      · subst hfp
        simp [(h.free f hmem).2]
      · simp [hfp]
    · dsimp only
      have hpos : 0 < held.card := Finset.card_pos.mpr ⟨p, hmem⟩
      rw [h.used, Finset.card_erase_of_mem hmem]
      unfold add32 sub32
      omega
  · rename_i hclear
    -- it is no frame, or free already
    have hmem : p ∉ held := fun hmem => by
      have hlt := (h.free p hmem).1
      exact hclear ⟨hlt, by rw [h.bits]; simp [hmem]⟩
    rw [Finset.erase_eq_of_notMem hmem]
    exact h

/-- **Run lemma**: giving back a list of frames. -/
theorem Holding.foldl {held : Finset Nat} {frames : List Nat} : ∀ {m' : Pmm} {left : Finset Nat},
    Holding m m' left → left ⊆ held → held.card < 2 ^ 32 →
    (∀ p ∈ frames, p < frameCount → p ∈ held) → (∀ p ∈ held, Free m p) →
    Holding m (frames.foldl Pmm.freeOne m') (left.filter (· ∉ frames)) := by
  induction frames with
  | nil =>
    intro m' left h _ _ _ _
    simpa using h
  | cons p frames ih =>
    intro m' left h hsub hsmall hnames hfree
    have hcard := (Finset.card_le_card hsub).trans_lt hsmall
    have hstep := h.freeOne hcard (p := p) fun hlt =>
      Or.inr (hfree p (hnames p List.mem_cons_self hlt))
    have hrest := ih hstep ((Finset.erase_subset p left).trans hsub) hsmall
      (fun q hq => hnames q (List.mem_cons_of_mem _ hq)) hfree
    have hset : (left.erase p).filter (· ∉ frames) = left.filter (· ∉ p :: frames) := by
      ext q
      simp only [Finset.mem_filter, Finset.mem_erase, List.mem_cons, not_or]
      tauto
    rw [← hset]
    exact hrest

/-- A bitmap is determined by its bits. -/
theorem Holding.eq {m' : Pmm} (h : Holding m m' ∅) (hused : m.usedPages < 2 ^ 32) : m' = m := by
  have hbits : m'.bitmap = m.bitmap := Bitmap.ext_test (by decide) fun f => by simp [h.bits]
  have hcount : m'.usedPages = m.usedPages := by
    rw [h.used, Finset.card_empty, add32_of_lt (by omega), Nat.add_zero]
  have htotal := h.total
  cases m
  cases m'
  simp_all

/-- **What `pmm_alloc_pages` takes can be given back** by any calls that cover its frames and no
others, in any order and with any repetitions: the state is what it was. -/
theorem releases_restore (m : Pmm) (hused : m.usedPages < 2 ^ 32) (n : Nat) (h1 : 1 ≤ n)
    (h2 : n ≤ 2 ^ 20) (a : Nat) (m' : Pmm) (halloc : pmmAllocPages m n = some (a, m'))
    (ha : a ≠ 0) (calls : List Release) (hfits : ∀ c ∈ calls, c.Fits)
    (hcover : ∀ f < 2 ^ 20, (∃ c ∈ calls, f ∈ c.names) ↔ a / 4096 ≤ f ∧ f < a / 4096 + n) :
    calls.foldl Release.run m' = m := by
  have hcount := frameCount_eq
  rcases @pmmAllocPages_cases m n (by omega) h2 with ⟨start, hrun, -, he⟩ | ⟨-, he⟩
  · obtain ⟨rfl, rfl⟩ := Prod.mk.inj (Option.some.inj (halloc.symm.trans he))
    have hstart : start * pageSize / 4096 = start := Nat.mul_div_cancel start (by decide)
    rw [hstart] at hcover
    have hmem : ∀ f, f ∈ Finset.Ico start (start + n) ↔ start ≤ f ∧ f < start + n :=
      fun f => Finset.mem_Ico
    have hcard : (Finset.Ico start (start + n)).card = n := by simp
    have hheld : ∀ p ∈ Finset.Ico start (start + n), Free m p := fun p hp =>
      hrun.free p ((hmem p).mp hp).1 ((hmem p).mp hp).2
    have hfirst : Holding m (m.takeRun start n) (Finset.Ico start (start + n)) := by
      refine ⟨hheld, fun f => ?_, ?_, rfl⟩
      · rw [test_takeRun hrun.fits, decide_eq_decide.mpr (hmem f)]
      · rw [hcard]
        rfl
    have hnames : ∀ p ∈ calls.flatMap Release.names, p < frameCount →
        p ∈ Finset.Ico start (start + n) := fun p hp hlt => by
      obtain ⟨c, hc, hpc⟩ := List.mem_flatMap.mp hp
      exact (hmem p).mpr ((hcover p (by omega)).mp ⟨c, hc, hpc⟩)
    have hlast := hfirst.foldl (fun _ hp => hp) (by omega) hnames hheld
    have hnone : (Finset.Ico start (start + n)).filter (· ∉ calls.flatMap Release.names) = ∅ := by
      refine Finset.filter_eq_empty_iff.mpr fun f hf hno => hno ?_
      have hrange := (hmem f).mp hf
      have hfit := hrun.fits
      obtain ⟨c, hc, hfc⟩ := (hcover f (by omega)).mpr hrange
      exact List.mem_flatMap.mpr ⟨c, hc, hfc⟩
    rw [hnone] at hlast
    rw [runs_eq hfits]
    exact hlast.eq hused
  · obtain ⟨rfl, -⟩ := Prod.mk.inj (Option.some.inj (halloc.symm.trans he))
    exact absurd rfl ha

/-- Three frames from 1 MiB on, the last two released first, then the first by an address inside
it, and the first two once more. -/
theorem releases_restore_small : ∃ m', pmmAllocPages smallPmm 3 = some (0x100000, m') ∧
    [Release.pages 0x101000 2, .page 0x100fff, .pages 0x100000 2].foldl Release.run m'
      = smallPmm := by
  have haddr : (pmmAllocPages smallPmm 3).map Prod.fst = some 0x100000 := by decide +kernel
  obtain ⟨⟨a, m'⟩, he, rfl⟩ := Option.map_eq_some_iff.mp haddr
  refine ⟨m', he, releases_restore smallPmm (by decide) 3 (by decide) (by decide) 0x100000 m' he
    (by decide) _ (by simp [Release.Fits]) fun f _ => ?_⟩
  have hnames : ∀ c ∈ [Release.pages 0x101000 2, .page 0x100fff, .pages 0x100000 2],
      ∀ f ∈ c.names, 0x100 ≤ f ∧ f < 0x103 := by decide
  constructor
  · rintro ⟨c, hc, hf⟩
    exact hnames c hc f hf
  · rintro ⟨hlo, hhi⟩
    obtain rfl | rfl | rfl : f = 0x100 ∨ f = 0x101 ∨ f = 0x102 := by omega
    · exact ⟨.page 0x100fff, by simp, by decide⟩
    · exact ⟨.pages 0x101000 2, by simp, by decide⟩
    · exact ⟨.pages 0x101000 2, by simp, by decide⟩

end FlowOS.Pmm
