/-
# Counting free frames

`pmm_get_free_pages` subtracts two counters.  Nothing in the code ties them to the bitmap: a
frame that is freed without having been allocated is subtracted from `used_pages` all the same,
which may take it below zero, and so around `2 ^ 32`.  What holds is a congruence: the number of
clear bits plus `used_pages` is `total_pages` modulo `2 ^ 32` (`Counted`).  There are fewer clear
bits than `2 ^ 32`, so the modular difference of the counters is their number.

The congruence starts with `pmm_init`, which counts a frame each time it clears its bit, and so
counts it once only if the available regions do not overlap.
-/
import FlowOS.Pmm.Run
import Mathlib.Data.Finset.Card
import Mathlib.Order.Interval.Finset.Nat

namespace FlowOS.Pmm

open Word

/-! ## 1. Clear bits -/

/-- The frames whose bit is clear. -/
def freeFrames (m : Pmm) : Finset Nat :=
  (Finset.range frameCount).filter fun f => Bitmap.test m.bitmap f = false

/-- The number of clear bits in the bitmap. -/
def clearBits (m : Pmm) : Nat := (freeFrames m).card

variable {m m' : Pmm} {f g : Nat}

theorem mem_freeFrames : f ∈ freeFrames m ↔ Free m f := by
  rw [freeFrames, Finset.mem_filter, Finset.mem_range, Free]

theorem clearBits_le (m : Pmm) : clearBits m ≤ 2 ^ 20 := by
  have h := Finset.card_filter_le (Finset.range frameCount)
    fun f => Bitmap.test m.bitmap f = false
  rw [Finset.card_range, frameCount_eq] at h
  exact h

/-- Taking a set of free frames. -/
theorem clearBits_take {fs : Finset Nat} (hfree : ∀ f ∈ fs, Free m f)
    (h : ∀ g, Free m' g ↔ Free m g ∧ g ∉ fs) : clearBits m' + fs.card = clearBits m := by
  have hsub : fs ⊆ freeFrames m := fun f hf => mem_freeFrames.mpr (hfree f hf)
  have heq : freeFrames m' = freeFrames m \ fs := by
    ext g
    rw [mem_freeFrames, Finset.mem_sdiff, mem_freeFrames, h]
  rw [clearBits, heq]
  exact Finset.card_sdiff_add_card_eq_card hsub

theorem clearBits_mono (h : ∀ g, Free m' g → Free m g) : clearBits m' ≤ clearBits m :=
  Finset.card_le_card fun g hg => mem_freeFrames.mpr (h g (mem_freeFrames.mp hg))

/-- `pmm_alloc_page` takes one frame, if it returns one. -/
theorem clearBits_alloc (h0 : ¬ Free m 0) : clearBits m =
    clearBits (pmmAllocPage m).2 + if (pmmAllocPage m).1 = 0 then 0 else 1 := by
  by_cases hex : ∃ f, Free m f
  · obtain ⟨f, hf, haddr, hm'⟩ := pmmAllocPage_spec hex
    have hz : (pmmAllocPage m).1 ≠ 0 := fun hz => not_free_of_alloc h0 hz f hf
    rw [if_neg hz, ← Finset.card_singleton f]
    refine (clearBits_take (fun g hg => ?_) fun g => ?_).symm
    · rw [Finset.mem_singleton.mp hg]
      exact hf
    · rw [hm', Finset.mem_singleton]
  · rw [pmmAllocPage_none fun f hf => hex ⟨f, hf⟩, if_pos rfl, Nat.add_zero]

/-- A frame that is handed out was free. -/
theorem clearBits_alloc_ne (h : (pmmAllocPage m).1 ≠ 0) :
    clearBits (pmmAllocPage m).2 + 1 = clearBits m := by
  by_cases hfree : ∃ f, Free m f
  · obtain ⟨f, hf, -, hspec⟩ := pmmAllocPage_spec hfree
    have htake := @clearBits_take m (pmmAllocPage m).2 {f} (by simpa using hf) fun g => by
      simpa using hspec g
    simpa using htake
  · push Not at hfree
    rw [pmmAllocPage_none hfree] at h
    exact absurd rfl h

/-- Free frames that lie between two bounds. -/
theorem clearBits_le_of_range {a b : Nat} (h : ∀ f, Free m f → a ≤ f ∧ f < b) :
    clearBits m ≤ b - a := by
  have hsub : freeFrames m ⊆ Finset.Ico a b := fun f hf =>
    Finset.mem_Ico.mpr (h f (mem_freeFrames.mp hf))
  have hcard := Finset.card_le_card hsub
  rw [Nat.card_Ico] at hcard
  exact hcard

theorem le_clearBits_of_range {a b : Nat} (h : ∀ f, a ≤ f → f < b → Free m f) :
    b - a ≤ clearBits m := by
  have hsub : Finset.Ico a b ⊆ freeFrames m := fun f hf => by
    obtain ⟨hlo, hhi⟩ := Finset.mem_Ico.mp hf
    exact mem_freeFrames.mpr (h f hlo hhi)
  have hcard := Finset.card_le_card hsub
  rw [Nat.card_Ico] at hcard
  exact hcard

theorem exists_free (h : 0 < clearBits m) : ∃ f, Free m f := by
  obtain ⟨f, hf⟩ := Finset.card_pos.mp h
  exact ⟨f, mem_freeFrames.mp hf⟩

/-- With a clear bit there is a frame to allocate. -/
theorem alloc_ne_zero (h0 : ¬ Free m 0) (h : 0 < clearBits m) : (pmmAllocPage m).1 ≠ 0 := by
  obtain ⟨f, hf⟩ := exists_free h
  exact fun hz => not_free_of_alloc h0 hz f hf

/-- Taking a run of free frames. -/
theorem clearBits_takeRun {start n : Nat} (hle : start + n ≤ frameCount)
    (hfree : ∀ g, start ≤ g → g < start + n → Free m g) :
    clearBits (m.takeRun start n) + n = clearBits m := by
  have htake : clearBits (m.takeRun start n) + (Finset.Ico start (start + n)).card
      = clearBits m := by
    refine clearBits_take (fun g hg => ?_) fun g => ?_
    · obtain ⟨hlo, hhi⟩ := Finset.mem_Ico.mp hg
      exact hfree g hlo hhi
    · rw [Finset.mem_Ico, takeRun_spec hle]
  rw [← htake, Nat.card_Ico, Nat.add_sub_cancel_left]

/-- Freeing one frame that is not free. -/
theorem clearBits_give {p : Nat} (hp : ¬ Free m p) (h : ∀ g, Free m' g ↔ Free m g ∨ g = p) :
    clearBits m' = clearBits m + 1 := by
  have heq : freeFrames m' = insert p (freeFrames m) := by
    ext g
    rw [mem_freeFrames, Finset.mem_insert, mem_freeFrames, h, or_comm]
  rw [clearBits, heq]
  exact Finset.card_insert_of_notMem fun hmem => hp (mem_freeFrames.mp hmem)

/-! ## 2. The congruence -/

/-- The counters agree with the bitmap modulo `2 ^ 32`. -/
structure Counted (m : Pmm) : Prop where
  used : m.usedPages < 2 ^ 32
  total : (clearBits m + m.usedPages) % 2 ^ 32 = m.totalPages

/-- **The difference of the counters is the number of clear bits.** -/
theorem Counted.freePages (h : Counted m) : pmmGetFreePages m = clearBits m := by
  have hle := clearBits_le m
  have hused := h.used
  have htotal := h.total
  unfold pmmGetFreePages sub32
  omega

/-- Taking `n` frames and counting them. -/
theorem Counted.take (h : Counted m) (fs : Finset Nat) {n : Nat} (hn : fs.card = n)
    (hfree : ∀ f ∈ fs, Free m f) (hm' : ∀ g, Free m' g ↔ Free m g ∧ g ∉ fs)
    (htotal : m'.totalPages = m.totalPages) (hused : m'.usedPages = add32 m.usedPages n) :
    Counted m' := by
  have hclear := clearBits_take hfree hm'
  have hcount := h.total
  refine ⟨hused ▸ add32_lt _ _, ?_⟩
  rw [htotal, hused, add32]
  omega

/-- Freeing a frame that is not free and counting it. -/
theorem Counted.give (h : Counted m) {p : Nat} (hp : ¬ Free m p)
    (hm' : ∀ g, Free m' g ↔ Free m g ∨ g = p) (htotal : m'.totalPages = m.totalPages)
    (hused : m'.usedPages = sub32 m.usedPages 1) : Counted m' := by
  have hclear := clearBits_give hp hm'
  have hcount := h.total
  refine ⟨hused ▸ sub32_lt _ _, ?_⟩
  rw [htotal, hused, sub32]
  omega

theorem pmmAllocPage_counted (h : Counted m) : Counted (pmmAllocPage m).2 := by
  by_cases hex : ∃ f, Free m f
  · obtain ⟨f, hf, he⟩ := pmmAllocPage_eq hex
    rw [he]
    have htake : ∀ g, Free { m with bitmap := Bitmap.set m.bitmap f,
                                    usedPages := add32 m.usedPages 1 } g
        ↔ Free m g ∧ g ∉ ({f} : Finset Nat) := fun g => by
      rw [Finset.mem_singleton]
      exact free_set rfl
    refine h.take {f} (Finset.card_singleton f) ?_ htake rfl rfl
    intro g hg
    rw [Finset.mem_singleton.mp hg]
    exact hf
  · rw [pmmAllocPage_none fun f hf => hex ⟨f, hf⟩]
    exact h

theorem pmmAllocPages_counted (h : Counted m) {n addr : Nat} (hn : n ≤ 2 ^ 20)
    (heq : pmmAllocPages m n = some (addr, m')) : Counted m' := by
  rcases @pmmAllocPages_spec m n hn with hfail | ⟨start, hok, hle, hfree⟩
  · rw [hfail] at heq
    obtain ⟨-, rfl⟩ := Prod.mk.inj (Option.some.inj heq)
    exact h
  · rw [hok] at heq
    obtain ⟨-, rfl⟩ := Prod.mk.inj (Option.some.inj heq)
    have hrun : ∀ g, g ∈ Finset.Ico start (start + n) ↔ start ≤ g ∧ g < start + n :=
      fun g => Finset.mem_Ico
    refine h.take (Finset.Ico start (start + n)) (by simp) ?_ ?_ rfl rfl
    · intro g hg
      obtain ⟨hlo, hhi⟩ := (hrun g).mp hg
      exact hfree g hlo hhi
    · intro g
      rw [hrun, takeRun_spec hle]

/-- Clearing a bit that is set, and counting it. -/
theorem clear_counted (h : Counted m) {p : Nat} (hp : p < frameCount)
    (hset : Bitmap.test m.bitmap p = true) :
    Counted { m with bitmap := Bitmap.clear m.bitmap p, usedPages := sub32 m.usedPages 1 } := by
  refine h.give (p := p) ?_ (fun g => free_clear rfl hp) rfl rfl
  rintro ⟨-, hclear⟩
  rw [hset] at hclear
  cases hclear

theorem pmmFreePage_counted (h : Counted m) {addr : Nat} (ha : addr < 2 ^ 32) :
    Counted (pmmFreePage m addr) := by
  have hp : addr / pageSize < frameCount := by
    rw [frameCount_eq]
    simp only [pageSize]
    omega
  unfold pmmFreePage
  dsimp only
  split
  · rename_i hset
    exact clear_counted h hp hset
  · exact h

theorem pmmFreePages_counted (h : Counted m) (addr n : Nat) : Counted (pmmFreePages m addr n) := by
  unfold pmmFreePages
  dsimp only
  induction n with
  | zero => exact h
  | succ n ih =>
    rw [List.range_succ, List.foldl_append, List.foldl_cons, List.foldl_nil]
    unfold freeOne
    split
    · rename_i hset
      exact clear_counted ih hset.1 hset.2
    · exact ih

/-! ## 3. `pmm_init` -/

/-- Releasing a page that is not free. -/
theorem release_counted (h : Counted m) {page : Nat} (hlt : page < frameCount)
    (hn : ¬ Free m page) : Counted (m.release page) := by
  have hclear : clearBits (m.release page) = clearBits m + 1 :=
    clearBits_give hn fun g => free_clear rfl hlt
  have hcount := h.total
  refine ⟨h.used, ?_⟩
  change (clearBits (m.release page) + m.usedPages) % 2 ^ 32 = add32 m.totalPages 1
  rw [hclear, add32]
  omega

/-- The frames that are free after pages have been released. -/
theorem free_foldl_release {pages : List Nat} (hlt : ∀ p ∈ pages, p < frameCount) :
    Free (pages.foldl release m) g ↔ Free m g ∨ g ∈ pages := by
  induction pages generalizing m with
  | nil => simp
  | cons p pages ih =>
    obtain ⟨hltp, hlt⟩ := List.forall_mem_cons.mp hlt
    have hp : Free (m.release p) g ↔ Free m g ∨ g = p := free_clear rfl hltp
    rw [List.foldl_cons, ih hlt, hp, List.mem_cons, or_assoc]

/-- Without a memory map the frames between the kernel and `mem_upper` are free. -/
theorem pmmInit_upper (mem : Mem) (linkEnd : Nat) {mboot : MultibootInfo}
    (hflag : ¬ (mboot.flags &&& 1#32 <<< 6 != 0#32) = true) :
    ∃ m₀, pmmInit mem linkEnd mboot = some m₀ ∧ ∀ f, Free m₀ f ↔ kernelEnd linkEnd / pageSize ≤ f ∧
      f < min ((mboot.memUpper + 1024) % 2 ^ 32 * 1024 % 2 ^ 32 / pageSize) (bitmapSize * 32) := by
  refine ⟨_, if_neg hflag, fun f => ?_⟩
  refine (show _ ↔ Free (addUpper (kernelEnd linkEnd) mboot.memUpper allUsed) f from
    Iff.rfl).trans ?_
  unfold addUpper
  dsimp only
  rw [free_foldl_release, mem_pageRange, or_iff_right not_free_allUsed]
  intro p hp
  exact Nat.lt_of_lt_of_le (mem_pageRange.mp hp).2 (Nat.min_le_right _ _)

/-- Releasing pages one after the other, each of them once. -/
theorem foldl_release_counted {pages : List Nat} (h : Counted m) (hnd : pages.Nodup)
    (hlt : ∀ p ∈ pages, p < frameCount) (hn : ∀ p ∈ pages, ¬ Free m p) :
    Counted (pages.foldl release m) ∧ (pages.foldl release m).usedPages = m.usedPages := by
  induction pages generalizing m with
  | nil => exact ⟨h, rfl⟩
  | cons p pages ih =>
    obtain ⟨hp, hnd⟩ := List.nodup_cons.mp hnd
    obtain ⟨hltp, hlt⟩ := List.forall_mem_cons.mp hlt
    obtain ⟨hnp, hn⟩ := List.forall_mem_cons.mp hn
    refine ih (release_counted h hltp hnp) hnd hlt fun q hq hfree => ?_
    rcases free_release hfree with hfree | rfl
    · exact hn q hq hfree
    · exact hp hq

/-- The pages `pmm_init` releases for one record. -/
def entryPages (kernelEnd : Nat) (e : MmapEntry) : List Nat :=
  if e.type = 1 then
    if e.addr < 2 ^ 32 then
      let len := if 2 ^ 32 < (e.addr + e.len) % 2 ^ 64 then 2 ^ 32 - e.addr else e.len
      let startPage := (e.addr + pageSize - 1) / pageSize % 2 ^ 32
      let endPage := (e.addr + len) % 2 ^ 64 / pageSize % 2 ^ 32
      (pageRange startPage endPage).filter fun page =>
        0x100000 ≤ page * pageSize % 2 ^ 32 ∧ kernelEnd ≤ page * pageSize % 2 ^ 32
    else []
  else []

theorem addEntry_eq (k : Nat) (m : Pmm) (e : MmapEntry) :
    addEntry k m e = (entryPages k e).foldl release m := by
  unfold addEntry entryPages
  split
  · split
    · dsimp only
      rw [List.foldl_filter]
      congr 1
      funext m page
      simp only [releaseUsable, decide_eq_true_eq]
    · rfl
  · rfl

theorem addEntries_eq (k : Nat) (m : Pmm) (es : List MmapEntry) :
    es.foldl (addEntry k) m = (es.flatMap (entryPages k)).foldl release m := by
  rw [List.foldl_flatMap]
  congr 1
  funext m e
  exact addEntry_eq k m e

/-- The pages released for a record lie wholly in it. -/
theorem mem_entryPages {k p : Nat} {e : MmapEntry} (h : p ∈ entryPages k e) :
    InEntry e p ∧ p < frameCount := by
  unfold entryPages at h
  split at h
  · rename_i htype
    split at h
    · rename_i haddr
      dsimp only at h
      obtain ⟨hs, he⟩ := mem_pageRange.mp (List.mem_of_mem_filter h)
      rw [frameCount_eq, InEntry]
      simp only [pageSize] at hs he ⊢
      split at he <;> omega
    · cases h
  · cases h

theorem nodup_entryPages (k : Nat) (e : MmapEntry) : (entryPages k e).Nodup := by
  unfold entryPages
  split
  · split
    · exact List.Nodup.filter _ List.nodup_range'
    · exact List.nodup_nil
  · exact List.nodup_nil

/-- The available regions of a memory map do not overlap. -/
def NoOverlap (es : List MmapEntry) : Prop :=
  es.Pairwise fun e e' => e.type = 1 → e'.type = 1 →
    e.addr + e.len ≤ e'.addr ∨ e'.addr + e'.len ≤ e.addr

/-- The available regions of the boot loader's memory map, if it gives one, do not overlap. -/
def RegionsApart (mem : Mem) (mboot : MultibootInfo) : Prop :=
  mboot.flags &&& 1#32 <<< 6 != 0#32 →
    ∀ es, mmapEntries mem (add32 mboot.mmapAddr mboot.mmapLength) (2 ^ 32) mboot.mmapAddr
        = some es →
      NoOverlap es

theorem NoOverlap.nodup {es : List MmapEntry} (h : NoOverlap es) (k : Nat) :
    (es.flatMap (entryPages k)).Nodup := by
  rw [List.nodup_flatMap]
  refine ⟨fun e _ => nodup_entryPages k e, h.imp ?_⟩
  intro e e' hee p hp hp'
  obtain ⟨⟨htype, hlo, hhi⟩, -⟩ := mem_entryPages hp
  obtain ⟨⟨htype', hlo', hhi'⟩, -⟩ := mem_entryPages hp'
  have hsize : 0 < pageSize := by decide
  rcases hee htype htype' with h | h <;> omega

theorem allUsed_counted : Counted allUsed := by
  have hempty : freeFrames allUsed = ∅ :=
    Finset.eq_empty_of_forall_notMem fun f hf => not_free_allUsed (mem_freeFrames.mp hf)
  refine ⟨by decide, ?_⟩
  rw [clearBits, hempty]
  rfl

/-- Releasing a list of pages without repetition, from the state `pmm_init` starts with. -/
theorem init_counted {pages : List Nat} (hnd : pages.Nodup) (hlt : ∀ p ∈ pages, p < frameCount) :
    Counted { pages.foldl release allUsed with usedPages := 0 } := by
  obtain ⟨hcount, hused⟩ :=
    foldl_release_counted allUsed_counted hnd hlt fun _ _ => not_free_allUsed
  have hsame : { pages.foldl release allUsed with usedPages := 0 }
      = pages.foldl release allUsed := by
    rw [show (0 : Nat) = (pages.foldl release allUsed).usedPages from hused.symm]
  rw [hsame]
  exact hcount

theorem pmmInit_counted {mem : Mem} {linkEnd : Nat} {mboot : MultibootInfo} {m₀ : Pmm}
    (hinit : pmmInit mem linkEnd mboot = some m₀) (hapart : RegionsApart mem mboot) :
    Counted m₀ := by
  unfold pmmInit at hinit
  dsimp only at hinit
  split at hinit
  · rename_i hflag
    obtain ⟨es, hes, rfl⟩ := Option.map_eq_some_iff.mp hinit
    rw [addEntries_eq]
    refine init_counted ((hapart hflag es hes).nodup _) ?_
    intro p hp
    obtain ⟨e, -, hpe⟩ := List.mem_flatMap.mp hp
    exact (mem_entryPages hpe).2
  · obtain rfl := Option.some.inj hinit
    refine init_counted List.nodup_range' ?_
    intro p hp
    obtain ⟨-, hlt⟩ := mem_pageRange.mp hp
    exact Nat.lt_of_lt_of_le hlt (Nat.min_le_right _ _)

/-! ## 4. Runs -/

/-- One operation of a client that may free whatever it likes. -/
inductive AnyStep : Pmm → Pmm → Prop
  | allocPage (m : Pmm) : AnyStep m (pmmAllocPage m).2
  | allocPages (m m' : Pmm) (n addr : Nat) (hn : n ≤ 2 ^ 20)
      (h : pmmAllocPages m n = some (addr, m')) : AnyStep m m'
  | freePage (m : Pmm) (addr : Nat) (ha : addr < 2 ^ 32) : AnyStep m (pmmFreePage m addr)
  | freePages (m : Pmm) (addr n : Nat) (ha : addr < 2 ^ 32) (hn : n < 2 ^ 32) :
      AnyStep m (pmmFreePages m addr n)

/-- **Step lemma.** -/
theorem anyStep_counted (hstep : AnyStep m m') (h : Counted m) : Counted m' := by
  cases hstep with
  | allocPage => exact pmmAllocPage_counted h
  | allocPages m' n addr hn heq => exact pmmAllocPages_counted h hn heq
  | freePage addr ha => exact pmmFreePage_counted h ha
  | freePages addr n => exact pmmFreePages_counted h addr n

/-- **Run lemma.** -/
theorem anyRun_counted (hrun : Relation.ReflTransGen AnyStep m m') (h : Counted m) :
    Counted m' := by
  induction hrun with
  | refl => exact h
  | tail _ hs ih => exact anyStep_counted hs ih

/-- **`pmm_get_free_pages` counts the clear bits**, whatever is allocated and freed after
`pmm_init`. -/
theorem freePages_eq_clearBits (mem : Mem) (linkEnd : Nat) (mboot : MultibootInfo) (m₀ : Pmm)
    (hinit : pmmInit mem linkEnd mboot = some m₀) (hapart : RegionsApart mem mboot) {m : Pmm}
    (hrun : Relation.ReflTransGen AnyStep m₀ m) : pmmGetFreePages m = clearBits m :=
  (anyRun_counted hrun (pmmInit_counted hinit hapart)).freePages

/-- Freeing frame 0, which nobody holds, takes `used_pages` around `2 ^ 32`; the difference of the
counters is right all the same. -/
theorem freePages_eq_clearBits_wrapped : (pmmFreePage smallPmm 0).usedPages = 2 ^ 32 - 1 ∧
    pmmGetFreePages (pmmFreePage smallPmm 0) = clearBits (pmmFreePage smallPmm 0) := by
  have hinit : pmmInit (fun _ => 0) 0x100000 ⟨0, 16, 0, 0⟩ = some smallPmm := by
    unfold pmmInit
    rw [if_neg (by decide)]
    rfl
  refine ⟨by decide +kernel, ?_⟩
  exact freePages_eq_clearBits (fun _ => 0) 0x100000 ⟨0, 16, 0, 0⟩ smallPmm hinit
    (fun hflag => absurd hflag (by decide)) (.single (.freePage smallPmm 0 (by decide)))

end FlowOS.Pmm
