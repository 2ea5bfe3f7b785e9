/-
# Loading segments

From the effects of the primitive steps to those of the loops of `elf_exec`.  A segment's pages
are backed, then its bytes are stored; what the loop over the segments leaves behind depends on
whether a later segment backs a page again.
-/
import FlowOS.Elf.Effect

namespace FlowOS.Elf

open Word Frames Paging

variable {σ : Type} {Held : σ → Nat → Prop} {dirs : List Nat} {env : ElfEnv σ}
  {s₀ s s' : Sys σ}

/-! ## 1. Stretches of bytes and pages -/

theorem storeBytes_effect (hown : Owns env Held) {bs : List UInt8} :
    ∀ {v : UInt32} {s : Sys σ}, Good Held dirs s₀ s → 0x40000000 ≤ v.toNat →
      v.toNat + bs.length ≤ 0xC0000000 →
      (∀ u, v.toNat ≤ u → u < v.toNat + bs.length → Unwritten Held dirs s₀ s u) →
      storeBytes env bs v s = .ok () s' →
      Effect Held dirs s₀ s s' (fun _ => False) (fun u => v.toNat ≤ u ∧ u < v.toNat + bs.length) ∧
        ∀ i c, bs[i]? = some c → ∃ F, Byte Held dirs s₀ s' (v.toNat + i) F c := by
  induction bs with
  | nil =>
    intro v s h _ _ _ hrun
    obtain ⟨-, rfl⟩ := Prog.pure_ok hrun
    exact ⟨h.effect_refl, by simp⟩
  | cons b bs ih =>
    intro v s h hlow hhigh hun hrun
    rw [List.length_cons] at hhigh hun
    obtain ⟨⟨⟩, s₁, hstore, hrest⟩ := Prog.bind_ok hrun
    obtain ⟨heff, F, hbyte⟩ := store8_effect hown h (userPage_of hlow (by omega))
      (hun _ (Nat.le_refl _) (by omega)) hstore
    have hsucc : (v + 1).toNat = v.toNat + 1 := by
      rw [UInt32.toNat_add]
      change (v.toNat + 1) % 2 ^ 32 = v.toNat + 1
      omega
    obtain ⟨heff', hbytes⟩ := @ih (v + 1) s₁ heff.good (by omega) (by omega)
      (fun u h1 h2 => heff.unwritten u (userPage_of (by omega) (by omega)) (by omega)
        (hun u (by omega) (by omega))) hrest
    rw [hsucc] at heff' hbytes
    refine ⟨heff.trans heff' (by simp) ?_, ?_⟩
    · intro u
      rw [List.length_cons]
      omega
    · intro i c hi
      cases i with
      | zero =>
        cases hi
        exact ⟨F, heff'.keep _ F b (userPage_of hlow (by omega)) (fun hf => hf) (by omega) hbyte⟩
      | succ i =>
        rw [Nat.add_comm i 1, ← Nat.add_assoc]
        exact hbytes i c hi

/-- Backing a page succeeds when the PMM has a frame. -/
theorem backPage_ok {v : UInt32} {flags : Nat} {fail : Load σ Unit}
    (hfail : ∀ s s', fail s ≠ .ok () s') (hrun : backPage env v flags fail s = .ok () s') :
    (env.pmmAllocPage s.rest).1 ≠ 0 ∧
      s' = ⟨(pagingMapPage env.pmmAllocPage (env.pmmAllocPage s.rest).2 s.paging v.toNat
          (env.pmmAllocPage s.rest).1 flags).1,
        (pagingMapPage env.pmmAllocPage (env.pmmAllocPage s.rest).2 s.paging v.toNat
          (env.pmmAllocPage s.rest).1 flags).2⟩ := by
  obtain ⟨p, s₁, halloc, hrest⟩ := Prog.bind_ok hrun
  cases halloc
  split at hrest
  · exact absurd hrest (hfail _ _)
  · rename_i hp
    cases hrest
    exact ⟨hp, rfl⟩

theorem backPage_effect (hown : Owns env Held) (h : Good Held dirs s₀ s) {v : UInt32}
    {flags : Nat} (hflags : flags < 0x1000) {fail : Load σ Unit}
    (hfail : ∀ s s', fail s ≠ .ok () s') (hrun : backPage env v flags fail s = .ok () s') :
    Effect Held dirs s₀ s s' (· = v.toNat / 4096) (fun _ => False) ∧
      ∀ u, u / 4096 = v.toNat / 4096 → Unwritten Held dirs s₀ s' u := by
  obtain ⟨hf, rfl⟩ := backPage_ok hfail hrun
  have hb := hown.backing h hf v.toNat_lt hflags
  exact ⟨hb.effect h, fun u hu => hb.unwritten h hu⟩

theorem mapSegmentPages_effect (hown : Owns env Held) {pheaders flags : Nat}
    (hflags : flags < 0x1000) {n : Nat} :
    ∀ {v : UInt32} {s : Sys σ}, Good Held dirs s₀ s → 0x40000 ≤ v.toNat / 4096 →
      v.toNat / 4096 + n ≤ 0xC0000 → mapSegmentPages env pheaders flags n v s = .ok () s' →
      Effect Held dirs s₀ s s' (fun q => v.toNat / 4096 ≤ q ∧ q < v.toNat / 4096 + n)
          (fun _ => False) ∧
        ∀ u, v.toNat / 4096 ≤ u / 4096 → u / 4096 < v.toNat / 4096 + n →
          Unwritten Held dirs s₀ s' u := by
  induction n with
  | zero =>
    intro v s h _ _ hrun
    obtain ⟨-, rfl⟩ := Prog.pure_ok hrun
    exact ⟨h.effect_refl, fun u h1 h2 => by omega⟩
  | succ n ih =>
    intro v s h hlow hhigh hrun
    obtain ⟨⟨⟩, s₁, hback, hrest⟩ := Prog.bind_ok hrun
    obtain ⟨heff, hun⟩ := backPage_effect hown h hflags (fun t t' ht => by cases ht) hback
    have hsucc : (v + 4096).toNat / 4096 = v.toNat / 4096 + 1 := by
      rw [UInt32.toNat_add]
      change (v.toNat + 4096) % 2 ^ 32 / 4096 = v.toNat / 4096 + 1
      omega
    obtain ⟨heff', hun'⟩ := @ih (v + 4096) s₁ heff.good (by omega) (by omega) hrest
    rw [hsucc] at heff' hun'
    refine ⟨heff.trans heff' (fun q => by omega) (by simp), ?_⟩
    intro u h1 h2
    -- the first page stays unwritten while the others are backed
    rcases Nat.eq_or_lt_of_le h1 with he | hlt
    · exact heff'.unwritten u ⟨by omega, by omega⟩ (fun hf => hf) (hun u he.symm)
    · exact hun' u hlt (by omega)

/-! ## 2. One segment -/

/-- A segment in user space, no longer in the file than in memory. -/
structure InUser (ph : ProgramHeader) : Prop where
  low : 0x40000000 ≤ ph.vaddr.toNat
  high : ph.vaddr.toNat + ph.memsz.toNat ≤ 0xC0000000
  filesz : ph.filesz.toNat ≤ ph.memsz.toNat

namespace ProgramHeader

/-- The pages the loader backs for the segment. -/
def Page (ph : ProgramHeader) (q : Nat) : Prop :=
  ph.vaddr.toNat / 4096 ≤ q ∧ q < (ph.vaddr.toNat + ph.memsz.toNat + 0xFFF) / 4096

/-- The addresses of the segment. -/
def Addr (ph : ProgramHeader) (u : Nat) : Prop :=
  ph.vaddr.toNat ≤ u ∧ u < ph.vaddr.toNat + ph.memsz.toNat

end ProgramHeader

variable {reads : Reads} {file : List UInt8} {pheaders i : Nat} {ph : ProgramHeader}

/-- The bytes the read of segment `i` delivers. -/
def delivered (reads : Reads) (file : List UInt8) (i : Nat) (ph : ProgramHeader) : List UInt8 :=
  ((file.drop ph.offset.toNat).take ph.filesz.toNat).take (reads.segment i)

theorem delivered_length_le : (delivered reads file i ph).length ≤ ph.filesz.toNat := by
  unfold delivered
  exact (List.length_take_le' _ _).trans (List.length_take_le _ _)

theorem InUser.pages (h : InUser ph) : ph.pageStart.toNat / 4096 = ph.vaddr.toNat / 4096 ∧
    ph.pageStart.toNat / 4096 + ph.numPages.toNat =
      (ph.vaddr.toNat + ph.memsz.toNat + 0xFFF) / 4096 :=
  ph.pages_eq h.high

theorem readSegment_effect (hown : Owns env Held) (h : Good Held dirs s₀ s) (hph : InUser ph)
    (hun : ∀ u, ph.Addr u → Unwritten Held dirs s₀ s u)
    (hrun : readSegment env reads file i ph s = .ok () s') :
    Effect Held dirs s₀ s s' (fun _ => False) (fun u => ph.vaddr.toNat ≤ u ∧
        u < ph.vaddr.toNat + (delivered reads file i ph).length) ∧
      ∀ j c, (delivered reads file i ph)[j]? = some c →
        ∃ F, Byte Held dirs s₀ s' (ph.vaddr.toNat + j) F c := by
  have hle := @delivered_length_le reads file i ph
  have hlow := hph.low
  have hhigh := hph.high
  have hfile := hph.filesz
  unfold readSegment at hrun
  split at hrun
  · obtain ⟨data, s₁, hread, hstore⟩ := Prog.bind_ok hrun
    cases hread
    have heff : Effect Held dirs s₀ s
        { s with rest := env.vfsWork ph.offset.toNat ph.filesz.toNat s.rest }
        (fun _ => False) (fun _ => False) := h.effect_rest (hown.workKeeps _ _ s.rest)
    obtain ⟨heff', hbytes⟩ := storeBytes_effect hown heff.good hlow
      (show ph.vaddr.toNat + (delivered reads file i ph).length ≤ 0xC0000000 by omega)
      (fun u h1 h2 => heff.unwritten u (userPage_of (by omega) (by omega)) (fun hf => hf)
        (hun u ⟨h1, by omega⟩)) hstore
    exact ⟨heff.trans heff' (by simp) (fun u => by simp), hbytes⟩
  · rename_i hzero
    obtain ⟨-, rfl⟩ := Prog.pure_ok hrun
    have hz : ph.filesz.toNat = 0 := by
      rw [UInt32.lt_iff_toNat_lt] at hzero
      exact Nat.eq_zero_of_not_pos hzero
    have hnil : delivered reads file i ph = [] := List.length_eq_zero_iff.mp (by omega)
    rw [hnil]
    exact ⟨h.effect_refl, by simp⟩

/-- The stretch `clearBss` stores to. -/
theorem InUser.bss (hph : InUser ph) (hlt : ph.filesz < ph.memsz) :
    (ph.vaddr + ph.filesz).toNat = ph.vaddr.toNat + ph.filesz.toNat ∧
      (ph.memsz - ph.filesz).toNat = ph.memsz.toNat - ph.filesz.toNat := by
  have hhigh := hph.high
  have hfile := hph.filesz
  refine ⟨?_, UInt32.toNat_sub_of_le _ _ (UInt32.le_of_lt hlt)⟩
  rw [UInt32.toNat_add]
  omega

theorem clearBss_effect (hown : Owns env Held) (h : Good Held dirs s₀ s) (hph : InUser ph)
    (hun : ∀ u, ph.vaddr.toNat + ph.filesz.toNat ≤ u → u < ph.vaddr.toNat + ph.memsz.toNat →
      Unwritten Held dirs s₀ s u)
    (hrun : clearBss env ph s = .ok () s') :
    Effect Held dirs s₀ s s' (fun _ => False) (fun u => ph.vaddr.toNat + ph.filesz.toNat ≤ u ∧
        u < ph.vaddr.toNat + ph.memsz.toNat) ∧
      ∀ u, ph.vaddr.toNat + ph.filesz.toNat ≤ u → u < ph.vaddr.toNat + ph.memsz.toNat →
        ∃ F, Byte Held dirs s₀ s' u F 0 := by
  have hlow := hph.low
  have hhigh := hph.high
  have hfile := hph.filesz
  unfold clearBss at hrun
  split at hrun
  · rename_i hlt
    obtain ⟨hadd, hsub⟩ := hph.bss hlt
    obtain ⟨heff, hbytes⟩ := storeBytes_effect hown h (by omega)
      (by rw [List.length_replicate]; omega)
      (fun u h1 h2 => hun u (by omega) (by rw [List.length_replicate] at h2; omega)) hrun
    rw [List.length_replicate, hadd, hsub] at heff
    have hend : ph.vaddr.toNat + ph.filesz.toNat + (ph.memsz.toNat - ph.filesz.toNat) =
        ph.vaddr.toNat + ph.memsz.toNat := by omega
    rw [hend] at heff
    refine ⟨heff, ?_⟩
    intro u h1 h2
    obtain ⟨F, hF⟩ := hbytes (u - (ph.vaddr.toNat + ph.filesz.toNat)) 0
      (List.getElem?_replicate_of_lt (by omega))
    rw [hadd, Nat.add_sub_cancel' h1] at hF
    exact ⟨F, hF⟩
  · rename_i hge
    obtain ⟨-, rfl⟩ := Prog.pure_ok hrun
    rw [UInt32.lt_iff_toNat_lt] at hge
    exact ⟨h.effect_refl, fun u h1 h2 => by omega⟩

/-- The addresses `loadSegment` stores to. -/
def Stored (reads : Reads) (file : List UInt8) (i : Nat) (ph : ProgramHeader) (u : Nat) : Prop :=
  (ph.vaddr.toNat ≤ u ∧ u < ph.vaddr.toNat + (delivered reads file i ph).length) ∨
    (ph.vaddr.toNat + ph.filesz.toNat ≤ u ∧ u < ph.vaddr.toNat + ph.memsz.toNat)

/-- **What loading a segment does.** -/
structure SegmentLoaded (Held : σ → Nat → Prop) (dirs : List Nat) (s₀ s s' : Sys σ) (reads : Reads)
    (file : List UInt8) (i : Nat) (ph : ProgramHeader) : Prop where
  effect : Effect Held dirs s₀ s s' ph.Page (Stored reads file i ph)
  unwritten : ∀ u, ph.Page (u / 4096) → ¬ Stored reads file i ph u → Unwritten Held dirs s₀ s' u
  data : ∀ j c, (delivered reads file i ph)[j]? = some c →
    ∃ F, Byte Held dirs s₀ s' (ph.vaddr.toNat + j) F c
  bss : ∀ u, ph.vaddr.toNat + ph.filesz.toNat ≤ u → u < ph.vaddr.toNat + ph.memsz.toNat →
    ∃ F, Byte Held dirs s₀ s' u F 0

/-- Once the pages are backed, the whole segment is unwritten. -/
theorem mapSegmentPages_unwritten (hown : Owns env Held) (h : Good Held dirs s₀ s)
    (hph : InUser ph) (hrun : mapSegmentPages env pheaders ph.pageFlags ph.numPages.toNat
      ph.pageStart s = .ok () s') :
    Effect Held dirs s₀ s s' ph.Page (fun _ => False) ∧
      ∀ u, ph.Addr u → Unwritten Held dirs s₀ s' u := by
  have hlow := hph.low
  have hhigh := hph.high
  obtain ⟨hstart, hend⟩ := hph.pages
  obtain ⟨e, hun⟩ := mapSegmentPages_effect hown (pageFlags_lt ph) h (by omega) (by omega) hrun
  rw [hend, hstart] at e hun
  exact ⟨e, fun u hu => hun u (Nat.div_le_div_right hu.1) (by have := hu.2; omega)⟩

/-- Reading leaves the part behind the file's data unwritten. -/
theorem readSegment_bss (hown : Owns env Held) (h : Good Held dirs s₀ s) (hph : InUser ph)
    (hun : ∀ u, ph.Addr u → Unwritten Held dirs s₀ s u)
    (hrun : readSegment env reads file i ph s = .ok () s') :
    ∀ u, ph.vaddr.toNat + ph.filesz.toNat ≤ u → u < ph.vaddr.toNat + ph.memsz.toNat →
      Unwritten Held dirs s₀ s' u := by
  have hlow := hph.low
  have hhigh := hph.high
  have hle := @delivered_length_le reads file i ph
  intro u h1 h2
  exact (readSegment_effect hown h hph hun hrun).1.unwritten u
    (userPage_of (by omega) (by omega)) (by omega) (hun u ⟨by omega, h2⟩)

theorem loadSegment_loaded (hown : Owns env Held) (h : Good Held dirs s₀ s) (hph : InUser ph)
    (htype : ph.type = ptLoad)
    (hrun : loadSegment env reads file pheaders i ph s = .ok () s') :
    SegmentLoaded Held dirs s₀ s s' reads file i ph := by
  have hlow := hph.low
  have hhigh := hph.high
  have hle := @delivered_length_le reads file i ph
  obtain ⟨hstart, hend⟩ := hph.pages
  unfold loadSegment at hrun
  rw [if_neg (not_not_intro htype)] at hrun
  obtain ⟨⟨⟩, s₁, hmap, hrun⟩ := Prog.bind_ok hrun
  obtain ⟨⟨⟩, s₂, hread, hclear⟩ := Prog.bind_ok hrun
  obtain ⟨e₁, haddr⟩ := mapSegmentPages_unwritten hown h hph hmap
  obtain ⟨-, hpage⟩ := mapSegmentPages_effect hown (pageFlags_lt ph) h (by omega) (by omega) hmap
  rw [hend, hstart] at hpage
  obtain ⟨e₂, hdata⟩ := readSegment_effect hown e₁.good hph haddr hread
  obtain ⟨e₃, hzero⟩ := clearBss_effect hown e₂.good hph
    (readSegment_bss hown e₁.good hph haddr hread) hclear
  have e₂₃ : Effect Held dirs s₀ s₁ s' (fun _ => False) (Stored reads file i ph) :=
    e₂.trans e₃ (by simp) fun _ hu => hu
  refine ⟨e₁.trans e₂₃ (fun _ hq => hq.resolve_right id) fun _ hu => hu.resolve_left id,
    ?_, ?_, hzero⟩
  · intro u hu hns
    refine e₂₃.unwritten u ⟨?_, ?_⟩ hns (hpage u hu.1 hu.2)
    · have := hu.1
      omega
    · have := hu.2
      omega
  · intro j c hj
    have hlt := (List.getElem?_eq_some_iff.mp hj).1
    have hfile := hph.filesz
    obtain ⟨F, hF⟩ := hdata j c hj
    exact ⟨F, e₃.keep _ F c (userPage_of (by omega) (by omega)) (fun hf => hf) (by omega) hF⟩

theorem loadSegment_skip (htype : ph.type ≠ ptLoad)
    (hrun : loadSegment env reads file pheaders i ph s = .ok () s') : s = s' := by
  unfold loadSegment at hrun
  rw [if_pos htype] at hrun
  exact (Prog.pure_ok hrun).2

theorem loadSegment_good (hown : Owns env Held) (h : Good Held dirs s₀ s)
    (hph : ph.type = ptLoad → InUser ph)
    (hrun : loadSegment env reads file pheaders i ph s = .ok () s') : Good Held dirs s₀ s' := by
  by_cases htype : ph.type = ptLoad
  · exact (loadSegment_loaded hown h (hph htype) htype hrun).effect.good
  · exact loadSegment_skip htype hrun ▸ h

/-! ## 3. All segments -/

variable {phs : List ProgramHeader}

/-- The `PT_LOAD` segments among `phs` that are loaded lie in user space. -/
def AllInUser (phs : List ProgramHeader) : Prop := ∀ ph ∈ phs, ph.type = ptLoad → InUser ph

/-- Some `PT_LOAD` segment among `phs` satisfies `p`. -/
def AnySegment (phs : List ProgramHeader) (p : ProgramHeader → Prop) : Prop :=
  ∃ ph ∈ phs, ph.type = ptLoad ∧ p ph

theorem AnySegment.of_cons {p : ProgramHeader → Prop} (h : AnySegment phs p) :
    AnySegment (ph :: phs) p := by
  obtain ⟨ph', hmem, hp⟩ := h
  exact ⟨ph', List.mem_cons_of_mem _ hmem, hp⟩

theorem Stored.addr (hph : InUser ph) {u : Nat} (h : Stored reads file i ph u) : ph.Addr u := by
  have hle := @delivered_length_le reads file i ph
  have hfile := hph.filesz
  rcases h with h | h <;> constructor <;> omega

/-- **What the loop over the segments does.** -/
theorem loadSegments_effect (hown : Owns env Held) :
    ∀ {i : Nat} {s : Sys σ}, AllInUser phs → Good Held dirs s₀ s →
      loadSegments env reads file pheaders i phs s = .ok () s' →
      Effect Held dirs s₀ s s' (fun q => AnySegment phs fun ph => ph.Page q)
        (fun u => AnySegment phs fun ph => ph.Addr u) := by
  induction phs with
  | nil =>
    intro i s _ h hrun
    obtain ⟨-, rfl⟩ := Prog.pure_ok hrun
    exact h.effect_refl
  | cons ph phs ih =>
    intro i s hall h hrun
    obtain ⟨⟨⟩, s₁, hload, hrest⟩ := Prog.bind_ok hrun
    have hrest' := fun hg => ih (fun ph' hmem => hall ph' (List.mem_cons_of_mem _ hmem)) hg hrest
    by_cases htype : ph.type = ptLoad
    · have hph := hall ph List.mem_cons_self htype
      have hl := loadSegment_loaded hown h hph htype hload
      refine hl.effect.trans (hrest' hl.effect.good) ?_ ?_
      · rintro q (hq | hq)
        · exact ⟨ph, List.mem_cons_self, htype, hq⟩
        · exact hq.of_cons
      · rintro u (hu | hu)
        · exact ⟨ph, List.mem_cons_self, htype, hu.addr hph⟩
        · exact hu.of_cons
    · obtain rfl := loadSegment_skip htype hload
      exact (h.effect_refl (P := fun _ => False) (B := fun _ => False)).trans (hrest' h)
        (fun q hq => (hq.resolve_left id).of_cons) (fun u hu => (hu.resolve_left id).of_cons)

/-- The loop over the segments, cut at one of them. -/
theorem loadSegments_cut {pre post : List ProgramHeader} :
    ∀ {i : Nat} {s : Sys σ},
      loadSegments env reads file pheaders i (pre ++ ph :: post) s = .ok () s' →
      ∃ s₁ s₂, loadSegments env reads file pheaders i pre s = .ok () s₁ ∧
        loadSegment env reads file pheaders (i + pre.length) ph s₁ = .ok () s₂ ∧
        loadSegments env reads file pheaders (i + pre.length + 1) post s₂ = .ok () s' := by
  induction pre with
  | nil =>
    intro i s hrun
    obtain ⟨⟨⟩, s₂, hload, hrest⟩ := Prog.bind_ok hrun
    exact ⟨s, s₂, rfl, hload, hrest⟩
  | cons ph' pre ih =>
    intro i s hrun
    obtain ⟨⟨⟩, s₁, hload, hrest⟩ := Prog.bind_ok hrun
    obtain ⟨s₂, s₃, h₁, h₂, h₃⟩ := ih hrest
    have hidx : i + (ph' :: pre).length = i + 1 + pre.length := by
      rw [List.length_cons]
      omega
    rw [hidx]
    exact ⟨s₂, s₃, (Prog.bind_eq hload).trans h₁, h₂, h₃⟩

/-- Every segment is loaded in its turn, and the later ones follow. -/
theorem loadSegments_at (hown : Owns env Held) (hall : AllInUser phs) (h : Good Held dirs s₀ s)
    (hrun : loadSegments env reads file pheaders 0 phs s = .ok () s') (hi : phs[i]? = some ph)
    (htype : ph.type = ptLoad) :
    ∃ s₁ s₂, SegmentLoaded Held dirs s₀ s₁ s₂ reads file i ph ∧
      Effect Held dirs s₀ s₂ s' (fun q => AnySegment (phs.drop (i + 1)) fun ph => ph.Page q)
        (fun u => AnySegment (phs.drop (i + 1)) fun ph => ph.Addr u) := by
  obtain ⟨hlt, rfl⟩ := List.getElem?_eq_some_iff.mp hi
  have hcut : phs = phs.take i ++ phs[i] :: phs.drop (i + 1) := by
    rw [← List.drop_eq_getElem_cons hlt, List.take_append_drop]
  rw [hcut] at hrun
  obtain ⟨s₁, s₂, hpre, hload, hpost⟩ := loadSegments_cut hrun
  have hlen : 0 + (phs.take i).length = i := by
    rw [List.length_take]
    omega
  rw [hlen] at hload
  have hg₁ := (loadSegments_effect hown
    (fun ph hmem => hall ph (List.mem_of_mem_take hmem)) h hpre).good
  have hl := loadSegment_loaded hown hg₁ (hall _ (List.getElem_mem hlt) htype) htype hload
  exact ⟨s₁, s₂, hl, loadSegments_effect hown
    (fun ph hmem => hall ph (List.mem_of_mem_drop hmem)) hl.effect.good hpost⟩

/-! ## 4. The stack -/

/-- The two pages of the user stack. -/
def StackPage (q : Nat) : Prop := q = 0xBFFFF ∨ q = 0xBFFFE

theorem mapStack_effect (hown : Owns env Held) (h : Good Held dirs s₀ s)
    (hrun : mapStack env s = .ok () s') :
    Effect Held dirs s₀ s s' StackPage (fun _ => False) ∧
      ∀ u, StackPage (u / 4096) → Unwritten Held dirs s₀ s' u := by
  have hfail : ∀ t t' : Sys σ, (mapStack.fail : Load σ Unit) t ≠ .ok () t' :=
    fun t t' ht => by cases ht
  obtain ⟨⟨⟩, s₁, hfirst, hsecond⟩ := Prog.bind_ok hrun
  obtain ⟨e₁, hun₁⟩ := backPage_effect hown h (by decide) hfail hfirst
  obtain ⟨e₂, hun₂⟩ := backPage_effect hown e₁.good (by decide) hfail hsecond
  refine ⟨e₁.trans e₂ (fun _ hq => hq) (by simp), ?_⟩
  rintro u (hu | hu)
  · exact e₂.unwritten u (by rw [hu]; constructor <;> decide) (fun hf => hf) (hun₁ u hu)
  · exact hun₂ u hu

end FlowOS.Elf
