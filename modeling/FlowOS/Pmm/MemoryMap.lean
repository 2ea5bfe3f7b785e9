/-
# What `pmm_init` makes of a memory map

The boot loader reports memory as a list of records, in any order, some available and some not.
`pmm_init` takes them one by one: it frees the frames that lie wholly in an available record, and
looks at no other record while it does so.  For each frame on its own this is right
(`pmmInit_exact`): a frame is free afterwards exactly when some available record offers it.

What it does not do is compare records.  A frame that one record offers and another one reserves
is free, and a frame that two records offer is counted twice.  `honoured_iff_apart` says that these
are the only ways to go wrong.
-/
import FlowOS.Pmm.Count

namespace FlowOS.Pmm

open Word

/-! ## 1. Which frames a record offers -/

/-- The record offers frame `f`: the frame lies wholly in it, below 4 GiB, and above the first MiB
and the kernel.  A record that runs over the end of the 64-bit addresses is taken to end where the
sum wraps round to. -/
structure Offers (kernelEnd : Nat) (e : MmapEntry) (f : Nat) : Prop where
  available : e.type = 1
  start : e.addr ≤ f * pageSize
  stop : f * pageSize + pageSize ≤ min ((e.addr + e.len) % 2 ^ 64) (2 ^ 32)
  above : max 0x100000 kernelEnd ≤ f * pageSize

variable {k f : Nat} {e : MmapEntry} {es : List MmapEntry}

theorem Offers.lt (h : Offers k e f) : f < frameCount := by
  have hstop := h.stop
  rw [frameCount_eq]
  simp only [pageSize] at hstop
  omega

/-- **The loop over the pages of a record** releases exactly the frames it offers. -/
theorem mem_entryPages_iff : f ∈ entryPages k e ↔ Offers k e f := by
  constructor
  · intro h
    have hlt := (mem_entryPages h).2
    rw [frameCount_eq] at hlt
    unfold entryPages at h
    split at h
    · rename_i htype
      split at h
      · rename_i haddr
        dsimp only at h
        obtain ⟨hrange, habove⟩ := List.mem_filter.mp h
        obtain ⟨hs, he⟩ := mem_pageRange.mp hrange
        have habove := of_decide_eq_true habove
        simp only [pageSize] at hs he habove
        refine ⟨htype, ?_, ?_, ?_⟩ <;> simp only [pageSize]
        · omega
        · split at he <;> omega
        · omega
      · cases h
    · cases h
  · rintro h
    have hlt := h.lt
    obtain ⟨htype, hstart, hstop, habove⟩ := h
    rw [frameCount_eq] at hlt
    simp only [pageSize] at hstart hstop habove
    unfold entryPages
    rw [if_pos htype, if_pos (by omega)]
    dsimp only
    refine List.mem_filter.mpr ⟨mem_pageRange.mpr ?_, decide_eq_true ?_⟩
    · simp only [pageSize]
      split <;> omega
    · simp only [pageSize]
      omega

theorem mem_flatMap_entryPages :
    f ∈ es.flatMap (entryPages k) ↔ ∃ e ∈ es, Offers k e f := by
  rw [List.mem_flatMap]
  simp only [mem_entryPages_iff]

/-! ## 2. The state after `pmm_init` -/

/-- The records the boot loader has left in memory, as the loop of `pmm_init` visits them. -/
def Reports (mem : Mem) (mboot : MultibootInfo) (es : List MmapEntry) : Prop :=
  mboot.flags &&& 1#32 <<< 6 != 0#32 ∧
    mmapEntries mem (add32 mboot.mmapAddr mboot.mmapLength) (2 ^ 32) mboot.mmapAddr = some es

variable {mem : Mem} {linkEnd : Nat} {mboot : MultibootInfo}

/-- `pmm_init` is a sequence of `bitmap_clear(page); total_pages++`. -/
theorem pmmInit_eq (h : Reports mem mboot es) : pmmInit mem linkEnd mboot =
    some { (es.flatMap (entryPages (kernelEnd linkEnd))).foldl release allUsed with
      usedPages := 0 } := by
  unfold pmmInit
  dsimp only
  rw [if_pos h.1, h.2, Option.map_some, addEntries_eq]

theorem flatMap_lt {p : Nat} (h : p ∈ es.flatMap (entryPages k)) : p < frameCount := by
  obtain ⟨e, -, ho⟩ := mem_flatMap_entryPages.mp h
  exact ho.lt

/-- The free frames after the pages were released. -/
theorem free_released {pages : List Nat} (hlt : ∀ p ∈ pages, p < frameCount) :
    Free { pages.foldl release allUsed with usedPages := 0 } f ↔ f ∈ pages := by
  have hsame : Free { pages.foldl release allUsed with usedPages := 0 } f
      ↔ Free (pages.foldl release allUsed) f := free_congr rfl
  rw [hsame, free_foldl_release hlt, or_iff_right not_free_allUsed]

/-- The words of `bitmap` that `pmm_init` accesses: all of them in the loop that marks memory used,
then `bitmap[page / 32]` for each `bitmap_clear(page)`. -/
def initAccesses (kernelEnd : Nat) (es : List MmapEntry) : List Nat :=
  List.range bitmapSize ++ (es.flatMap (entryPages kernelEnd)).map (· / 32)

/-- **A frame is free exactly when the memory map offers it**, for every map whose records end
below `2 ^ 64`; and the bitmap is accessed inside its bounds. -/
theorem pmmInit_exact (mem : Mem) (linkEnd : Nat) (mboot : MultibootInfo) (es : List MmapEntry)
    (hmap : Reports mem mboot es) (h64 : ∀ e ∈ es, e.addr + e.len < 2 ^ 64) :
    (∃ m₀, pmmInit mem linkEnd mboot = some m₀ ∧ ∀ f < frameCount, Free m₀ f ↔
      max 0x100000 (kernelEnd linkEnd) ≤ f * 4096 ∧
      ∃ e ∈ es, e.type = 1 ∧ e.addr ≤ f * 4096 ∧
        f * 4096 + 4096 ≤ min (e.addr + e.len) (2 ^ 32)) ∧
    ∀ w ∈ initAccesses (kernelEnd linkEnd) es, w < bitmapSize := by
  refine ⟨⟨_, pmmInit_eq hmap, fun f _ => ?_⟩, fun w hw => ?_⟩
  · rw [free_released fun p hp => flatMap_lt hp, mem_flatMap_entryPages]
    constructor
    · rintro ⟨e, he, ho⟩
      have hstop := ho.stop
      rw [Nat.mod_eq_of_lt (h64 e he)] at hstop
      exact ⟨ho.above, e, he, ho.available, ho.start, hstop⟩
    · rintro ⟨habove, e, he, htype, hstart, hstop⟩
      refine ⟨e, he, htype, hstart, ?_, habove⟩
      rw [Nat.mod_eq_of_lt (h64 e he)]
      exact hstop
  · rcases List.mem_append.mp hw with hw | hw
    · exact List.mem_range.mp hw
    · obtain ⟨p, hp, rfl⟩ := List.mem_map.mp hw
      have hlt := flatMap_lt hp
      rw [frameCount_eq] at hlt
      rw [bitmapSize]
      omega

deriving instance DecidableEq for MmapEntry

/-- Three records at 0x500: four available frames from 1 MiB on, the third of which another record
reserves, and the first two of them once more. -/
def overlapping : List MmapEntry :=
  [⟨20, 0x100000, 0x4000, 1⟩, ⟨20, 0x102000, 0x1000, 2⟩, ⟨20, 0x100000, 0x2000, 1⟩]

/-- A record with a 32-bit address and length, at `p`. -/
def storeRecord (mem : Mem) (p : Nat) (e : MmapEntry) : Mem :=
  (((mem.st32 p e.size).st32 (p + 4) e.addr).st32 (p + 12) e.len).st32 (p + 20) e.type

/-- The memory with the first `n` of these records. -/
def overlappingMem (n : Nat) : Mem :=
  ((overlapping.take n).zipIdx.foldl (fun m r => storeRecord m (0x500 + 24 * r.2) r.1)) fun _ => 0

theorem overlapping_reports : ∀ n ≤ 3,
    Reports (overlappingMem n) ⟨0x40, 0, 24 * n, 0x500⟩ (overlapping.take n) := by
  have hwalk : ∀ n ≤ 3, mmapEntries (overlappingMem n) (add32 0x500 (24 * n)) (2 ^ 32) 0x500
      = some (overlapping.take n) := by decide +kernel
  have hflag : (0x40#32 &&& 1#32 <<< 6 != 0#32) = true := by decide
  exact fun n hn => ⟨hflag, hwalk n hn⟩

/-- The first record alone: four frames are free. -/
theorem pmmInit_exact_first : ∃ m₀,
    pmmInit (overlappingMem 1) 0x100000 ⟨0x40, 0, 24, 0x500⟩ = some m₀ ∧ Free m₀ 0x103 ∧
      ¬ Free m₀ 0x104 := by
  have hmap := overlapping_reports 1 (by decide)
  obtain ⟨⟨m₀, hinit, hfree⟩, -⟩ := pmmInit_exact (overlappingMem 1) 0x100000 _ _ hmap (by decide)
  refine ⟨m₀, hinit, (hfree 0x103 (by decide)).mpr (by decide), fun hf => ?_⟩
  have hoff := (hfree 0x104 (by decide)).mp hf
  exact absurd hoff (by decide)

/-! ## 3. Records that overlap -/

/-- A record covers a byte of frame `f`. -/
def Meets (e : MmapEntry) (f : Nat) : Prop :=
  max e.addr (f * pageSize) < min (e.addr + e.len) (f * pageSize + pageSize)

instance (e : MmapEntry) (f : Nat) : Decidable (Meets e f) := Nat.decLt _ _

/-- What the kernel should make of a map: nothing that is not available is free, and the frames
are counted once each. -/
structure Honoured (es : List MmapEntry) (m : Pmm) : Prop where
  reserved : ∀ f, Free m f → ∀ e ∈ es, e.type ≠ 1 → ¬ Meets e f
  counted : m.totalPages = clearBits m

/-- No frame that is offered is touched by a record of another type, or offered twice. -/
structure Apart (kernelEnd : Nat) (es : List MmapEntry) : Prop where
  reserved : ∀ e ∈ es, ∀ e' ∈ es, e'.type ≠ 1 → ∀ f, Offers kernelEnd e f → ¬ Meets e' f
  once : es.Pairwise fun e e' => ∀ f, ¬ (Offers kernelEnd e f ∧ Offers kernelEnd e' f)

/-- Each release is counted, in 32 bits. -/
theorem totalPages_foldl (pages : List Nat) (m : Pmm) (hm : m.totalPages < 2 ^ 32) :
    (pages.foldl release m).totalPages = (m.totalPages + pages.length) % 2 ^ 32 := by
  induction pages generalizing m with
  | nil => exact (Nat.mod_eq_of_lt hm).symm
  | cons p pages ih =>
    rw [List.foldl_cons, ih _ (add32_lt _ _), List.length_cons]
    unfold release add32
    dsimp only
    omega

/-- The clear bits are the pages released, each once. -/
theorem clearBits_released {pages : List Nat} (hlt : ∀ p ∈ pages, p < frameCount) :
    clearBits { pages.foldl release allUsed with usedPages := 0 } = pages.toFinset.card := by
  have hset : freeFrames { pages.foldl release allUsed with usedPages := 0 } = pages.toFinset := by
    ext f
    rw [mem_freeFrames, free_released hlt, List.mem_toFinset]
  rw [clearBits, hset]

/-- No frame is offered twice exactly when the list of pages has no repetition. -/
theorem once_iff_nodup : (es.Pairwise fun e e' => ∀ f, ¬ (Offers k e f ∧ Offers k e' f)) ↔
    (es.flatMap (entryPages k)).Nodup := by
  rw [List.nodup_flatMap]
  constructor
  · intro h
    refine ⟨fun e _ => nodup_entryPages k e, h.imp fun hee f hf hf' => ?_⟩
    exact hee f ⟨mem_entryPages_iff.mp hf, mem_entryPages_iff.mp hf'⟩
  · rintro ⟨-, h⟩
    refine h.imp fun hee f hf => ?_
    exact hee (mem_entryPages_iff.mpr hf.1) (mem_entryPages_iff.mpr hf.2)

theorem length_entryPages_le (k : Nat) (e : MmapEntry) :
    (entryPages k e).length ≤ if e.type = 1 then 2 ^ 20 else 0 := by
  split
  · have hsub : (entryPages k e).toFinset ⊆ Finset.range frameCount := by
      intro p hp
      exact Finset.mem_range.mpr (mem_entryPages (List.mem_toFinset.mp hp)).2
    have hcard := Finset.card_le_card hsub
    rw [List.toFinset_card_of_nodup (nodup_entryPages k e), Finset.card_range,
      frameCount_eq] at hcard
    exact hcard
  · rename_i htype
    rw [entryPages, if_neg htype]
    exact Nat.le_refl 0

/-- With `c` available records, at most `c * 2 ^ 20` pages are released. -/
theorem length_flatMap_le (k : Nat) (es : List MmapEntry) :
    (es.flatMap (entryPages k)).length ≤ es.countP (·.type = 1) * 2 ^ 20 := by
  induction es with
  | nil => exact Nat.le_refl 0
  | cons e es ih =>
    have hle := length_entryPages_le k e
    rw [List.flatMap_cons, List.length_append, List.countP_cons]
    simp only [decide_eq_true_eq]
    split at hle <;> simp only [*, if_true, if_false] <;> omega

/-- **Overlapping records are what `pmm_init` gets wrong, and all it gets wrong.**  A map without
such an overlap is honoured; with fewer than 4096 available records, so that `total_pages` cannot
wrap, only such a map is. -/
theorem honoured_iff_apart (mem : Mem) (linkEnd : Nat) (mboot : MultibootInfo)
    (es : List MmapEntry) (hmap : Reports mem mboot es) :
    ∃ m₀, pmmInit mem linkEnd mboot = some m₀ ∧
      (Apart (kernelEnd linkEnd) es → Honoured es m₀) ∧
      (es.countP (·.type = 1) < 4096 → Honoured es m₀ → Apart (kernelEnd linkEnd) es) := by
  have hlt : ∀ p ∈ es.flatMap (entryPages (kernelEnd linkEnd)), p < frameCount :=
    fun p hp => flatMap_lt hp
  have htotal := totalPages_foldl (es.flatMap (entryPages (kernelEnd linkEnd))) allUsed (by decide)
  rw [show allUsed.totalPages = 0 from rfl, Nat.zero_add] at htotal
  refine ⟨_, pmmInit_eq hmap, ?_, ?_⟩
  · rintro ⟨hres, honce⟩
    refine ⟨fun f hf e' he' htype => ?_, ?_⟩
    · rw [free_released hlt, mem_flatMap_entryPages] at hf
      obtain ⟨e, he, ho⟩ := hf
      exact hres e he e' he' htype f ho
    · have hcard := List.toFinset_card_of_nodup (once_iff_nodup.mp honce)
      have hle := clearBits_le { (es.flatMap (entryPages (kernelEnd linkEnd))).foldl release
        allUsed with usedPages := 0 }
      rw [clearBits_released hlt, hcard] at hle ⊢
      exact htotal.trans (Nat.mod_eq_of_lt (by omega))
  · rintro hcount ⟨hres, htot⟩
    refine ⟨fun e he e' he' htype f ho => ?_, once_iff_nodup.mpr ?_⟩
    · refine hres f ?_ e' he' htype
      rw [free_released hlt, mem_flatMap_entryPages]
      exact ⟨e, he, ho⟩
    · have hlen := length_flatMap_le (kernelEnd linkEnd) es
      rw [clearBits_released hlt] at htot
      dsimp only at htot
      rw [htotal, Nat.mod_eq_of_lt (by omega)] at htot
      exact Multiset.coe_nodup.mp (Multiset.toFinset_card_eq_card_iff_nodup.mp htot.symm)

/-- The first record alone overlaps nothing. -/
theorem honoured_iff_apart_first : ∃ m₀,
    pmmInit (overlappingMem 1) 0x100000 ⟨0x40, 0, 24, 0x500⟩ = some m₀ ∧
      Honoured (overlapping.take 1) m₀ := by
  obtain ⟨m₀, hinit, hgood, -⟩ :=
    honoured_iff_apart (overlappingMem 1) 0x100000 _ _ (overlapping_reports 1 (by decide))
  have havail : ∀ e ∈ overlapping.take 1, e.type = 1 := by decide
  exact ⟨m₀, hinit, hgood ⟨fun _ _ e' he' htype => absurd (havail e' he') htype,
    List.pairwise_singleton _ _⟩⟩

/-- **A reserved frame that is free, and frames counted twice**: with all three records, frame
0x102 is free, and of four free frames six are counted. -/
theorem overlap_freed : ∃ m₀,
    pmmInit (overlappingMem 3) 0x100000 ⟨0x40, 0, 72, 0x500⟩ = some m₀ ∧ Free m₀ 0x102 ∧
      Meets ⟨20, 0x102000, 0x1000, 2⟩ 0x102 ∧ m₀.totalPages = 6 ∧ clearBits m₀ = 4 := by
  have hpages : (overlapping.take 3).flatMap (entryPages (kernelEnd 0x100000))
      = [0x100, 0x101, 0x102, 0x103, 0x100, 0x101] := by decide +kernel
  have hlt : ∀ p ∈ [0x100, 0x101, 0x102, 0x103, 0x100, 0x101], p < frameCount := by decide
  refine ⟨_, pmmInit_eq (overlapping_reports 3 (Nat.le_refl 3)), ?_, by decide, ?_, ?_⟩ <;>
    rw [hpages]
  · exact (free_released hlt).mpr (by decide)
  · exact totalPages_foldl _ allUsed (by decide)
  · exact (clearBits_released hlt).trans (by decide)

end FlowOS.Pmm
