/-
# What the loader's steps do to user memory

Every page the loader maps gets a frame of its own, taken from the PMM for this purpose, and so
a byte of user memory is in one of two states: it has the value stored last (`Byte`), or nothing
has been stored to it since its page got a frame, and it reads as whatever the frame held before
the loader started (`Unwritten`).  `Effect` says what a step can do to both, in terms of the
pages it maps and the bytes it stores, and the module proves one such statement for each of the
loader's primitive steps.
-/
import FlowOS.Elf.Moves

namespace FlowOS.Elf

open Word Frames Paging

variable {σ : Type}

/-! ## 1. Frames and their holders -/

/-- `Held k f`: the frame at `f` is not free in state `k`.  The PMM hands out frames that are
free, and nothing the loader calls gives a frame back. -/
structure Owns (env : ElfEnv σ) (Held : σ → Nat → Prop) : Prop where
  alloc : ∀ k, (env.pmmAllocPage k).1 ≠ 0 →
    4096 ∣ (env.pmmAllocPage k).1 ∧ (env.pmmAllocPage k).1 < 2 ^ 32 ∧
    ¬ Held k (env.pmmAllocPage k).1 ∧ Held (env.pmmAllocPage k).2 (env.pmmAllocPage k).1
  allocKeeps : ∀ k f, Held k f → Held (env.pmmAllocPage k).2 f
  kmallocKeeps : ∀ n k f, Held k f → Held (env.kmalloc n k).2 f
  kfreeKeeps : ∀ p k f, Held k f → Held (env.kfree p k) f
  finddirKeeps : ∀ p k f, Held k f → Held (env.vfsFinddir p k).2 f
  workKeeps : ∀ o n k f, Held k f → Held (env.vfsWork o n k) f

/-- The number of the frame behind a page of the current directory. -/
def frameAt (pg : Paging) (q : Nat) : Option Nat :=
  (lookup pg.mem pg.currentPdPhys q).map Prod.fst

/-- The address in frame number `F` of the byte at `v`. -/
def place (F v : Nat) : Nat := F * 4096 + v % 4096

theorem frameOf_place (F v : Nat) : frameOf (place F v) = F * 4096 :=
  frameOf_add (Nat.dvd_mul_left _ _) (Nat.mod_lt _ (by decide))

variable (Held : σ → Nat → Prop) (dirs : List Nat)

/-- A state in which everything the page tables use is held. -/
structure Ready (s : Sys σ) : Prop where
  inv : Inv s.paging dirs
  tables : ∀ f, InUse s.paging dirs f → Held s.rest f
  pages : ∀ q, UserPage q → ∀ F, frameAt s.paging q = some F → Held s.rest (F * 4096)

/-- A state of a run that started in `s₀`: free frames have not been written to. -/
structure Good (s₀ s : Sys σ) : Prop extends Ready Held dirs s where
  keeps : ∀ f, Held s₀.rest f → Held s.rest f
  free : ∀ x, ¬ Held s.rest (frameOf x) → s.paging.mem x = s₀.paging.mem x

theorem Ready.good {s : Sys σ} (h : Ready Held dirs s) : Good Held dirs s s :=
  ⟨h, fun _ hf => hf, fun _ _ => rfl⟩

/-- Page `q` has frame number `F`, which was taken in this run for that page alone. -/
structure Owned (s₀ s : Sys σ) (q F : Nat) : Prop where
  entry : frameAt s.paging q = some F
  only : ∀ q', UserPage q' → frameAt s.paging q' = some F → q' = q
  held : Held s.rest (F * 4096)
  new : ¬ Held s₀.rest (F * 4096)
  data : ¬ InUse s.paging dirs (F * 4096)

/-- The byte at `v` is `c`, in frame number `F`. -/
structure Byte (s₀ s : Sys σ) (v F : Nat) (c : UInt8) : Prop where
  owned : Owned Held dirs s₀ s (v / 4096) F
  value : s.paging.mem (place F v) = c

/-- Nothing has been stored at `v` since its page got a frame. -/
def Unwritten (s₀ s : Sys σ) (v : Nat) : Prop :=
  frameAt s.paging (v / 4096) = none ∨
    ∃ F, Byte Held dirs s₀ s v F (s₀.paging.mem (place F v))

/-- **What a step does** that maps pages in `P` and stores bytes in `B`. -/
structure Effect (s₀ s s' : Sys σ) (P B : Nat → Prop) : Prop where
  good : Good Held dirs s₀ s'
  keep : ∀ v F c, UserPage (v / 4096) → ¬ P (v / 4096) → ¬ B v → Byte Held dirs s₀ s v F c →
    Byte Held dirs s₀ s' v F c
  unwritten : ∀ v, UserPage (v / 4096) → ¬ B v → Unwritten Held dirs s₀ s v →
    Unwritten Held dirs s₀ s' v

variable {Held dirs} {s₀ s s' s'' : Sys σ} {P P' P'' B B' B'' : Nat → Prop}

theorem Good.effect_refl (h : Good Held dirs s₀ s) : Effect Held dirs s₀ s s P B :=
  ⟨h, fun _ _ _ _ _ _ hb => hb, fun _ _ _ hu => hu⟩

theorem Effect.trans (h : Effect Held dirs s₀ s s' P B) (h' : Effect Held dirs s₀ s' s'' P' B')
    (hP : ∀ q, P q ∨ P' q → P'' q) (hB : ∀ v, B v ∨ B' v → B'' v) :
    Effect Held dirs s₀ s s'' P'' B'' := by
  refine ⟨h'.good, ?_, ?_⟩
  · intro v F c hv hp hb hbyte
    obtain ⟨hp, hp'⟩ := not_or.mp (mt (hP _) hp)
    obtain ⟨hb, hb'⟩ := not_or.mp (mt (hB v) hb)
    exact h'.keep v F c hv hp' hb' (h.keep v F c hv hp hb hbyte)
  · intro v hv hb hu
    obtain ⟨hb, hb'⟩ := not_or.mp (mt (hB v) hb)
    exact h'.unwritten v hv hb' (h.unwritten v hv hb hu)

/-- A step that changes neither the paging state nor the holders, except by new ones. -/
theorem Good.effect_rest (h : Good Held dirs s₀ s) {k : σ} (hk : ∀ f, Held s.rest f → Held k f) :
    Effect Held dirs s₀ s { s with rest := k } P B := by
  have hbyte : ∀ v F c, Byte Held dirs s₀ s v F c →
      Byte Held dirs s₀ { s with rest := k } v F c := fun v F c hb =>
    ⟨⟨hb.owned.entry, hb.owned.only, hk _ hb.owned.held, hb.owned.new, hb.owned.data⟩, hb.value⟩
  refine ⟨⟨⟨h.inv, ?_, ?_⟩, ?_, ?_⟩, ?_, ?_⟩
  · exact fun f hf => hk f (h.tables f hf)
  · exact fun q hq F hF => hk _ (h.pages q hq F hF)
  · exact fun f hf => hk f (h.keeps f hf)
  · exact fun x hx => h.free x fun hh => hx (hk _ hh)
  · exact fun v F c _ _ _ hb => hbyte v F c hb
  · rintro v - - (hn | ⟨F, hb⟩)
    · exact Or.inl hn
    · exact Or.inr ⟨F, hbyte v F _ hb⟩

/-! ## 2. Backing a page -/

variable {env : ElfEnv σ}

theorem UserPage.lt {q : Nat} (h : UserPage q) : q < 2 ^ 20 := by
  have := h.2
  omega

theorem Owns.supplies (hown : Owns env Held) {k : σ} {pg : Paging}
    (htables : ∀ f, InUse pg dirs f → Held k f) : Supplies env.pmmAllocPage k pg dirs := by
  by_cases hz : (env.pmmAllocPage k).1 = 0
  · exact Or.inl hz
  · obtain ⟨halign, hfits, hfree, -⟩ := hown.alloc k hz
    exact Or.inr ⟨halign, hfits, fun hu => hfree (htables _ hu)⟩

/-- The frames behind the pages after the frame at `f` has been given to the page at `v`. -/
structure Backed (pg pg' : Paging) (v f : Nat) : Prop where
  here : frameAt pg' (v / 4096) = none ∨ frameAt pg' (v / 4096) = some (f / 4096)
  there : ∀ q, UserPage q → q ≠ v / 4096 → frameAt pg' q = frameAt pg q

theorem pagingMapPage_backed {pg : Paging} {k : σ} (h : Inv pg dirs)
    (hs : Supplies env.pmmAllocPage k pg dirs) {v f flags : Nat} (hv : v < 2 ^ 32)
    (hf : f < 2 ^ 32) (hflags : flags < 0x1000) :
    Inv (pagingMapPage env.pmmAllocPage k pg v f flags).2 dirs ∧
      Backed pg (pagingMapPage env.pmmAllocPage k pg v f flags).2 v f := by
  rcases pagingMapPage_cases h hs hv hf hflags with ⟨habsent, -, he⟩ | ⟨-, hm⟩
  · rw [he]
    refine ⟨h, Or.inl ?_, fun _ _ _ => rfl⟩
    rw [pdIndex_eq] at habsent
    rw [frameAt, lookup, if_neg habsent]
    rfl
  · refine ⟨hm.inv, Or.inr ?_, ?_⟩
    · have hshare : Shares (pagingMapPage env.pmmAllocPage k pg v f flags).2 pg.currentPdPhys
          (pdIndex v) := ⟨hm.present, by rw [hm.current]⟩
      rw [frameAt, hm.current, hm.lookup _ h.current _ (by omega), if_pos ⟨rfl, hshare⟩]
      rfl
    · intro q hq hqv
      rw [frameAt, hm.current, hm.lookup _ h.current q hq.lt, if_neg fun hc => hqv hc.1]
      rfl

/-- The step from `s` to `s'` gave the frame at `f`, free until then, to the page at `v`, and
perhaps took one more frame as a page table. -/
structure Backing (Held : σ → Nat → Prop) (dirs : List Nat) (s s' : Sys σ) (v f : Nat) : Prop where
  aligned : 4096 ∣ f
  inv : Inv s'.paging dirs
  backed : Backed s.paging s'.paging v f
  fresh : ¬ Held s.rest f
  taken : Held s'.rest f
  keeps : ∀ g, Held s.rest g → Held s'.rest g
  tables : ∀ g, InUse s'.paging dirs g →
    InUse s.paging dirs g ∨ (¬ Held s.rest g ∧ Held s'.rest g ∧ g ≠ f)
  mem : ∀ x, (Held s.rest (frameOf x) ∧ ¬ InUse s.paging dirs (frameOf x)) ∨ frameOf x = f ∨
    ¬ Held s'.rest (frameOf x) → s'.paging.mem x = s.paging.mem x

theorem Owns.backing (hown : Owns env Held) (h : Good Held dirs s₀ s)
    (hf : (env.pmmAllocPage s.rest).1 ≠ 0) {v flags : Nat} (hv : v < 2 ^ 32)
    (hflags : flags < 0x1000) :
    Backing Held dirs s ⟨(pagingMapPage env.pmmAllocPage (env.pmmAllocPage s.rest).2 s.paging v
        (env.pmmAllocPage s.rest).1 flags).1,
      (pagingMapPage env.pmmAllocPage (env.pmmAllocPage s.rest).2 s.paging v
        (env.pmmAllocPage s.rest).1 flags).2⟩ v (env.pmmAllocPage s.rest).1 := by
  obtain ⟨halign, hfits, hfree, hheld⟩ := hown.alloc s.rest hf
  have hkeep₁ := hown.allocKeeps s.rest
  have hs := hown.supplies fun f hu => hkeep₁ f (h.tables f hu)
  obtain ⟨huse, hmem, hk⟩ := pagingMapPage_footprint h.inv hs hv (env.pmmAllocPage s.rest).1 flags
  obtain ⟨hinv, hback⟩ := pagingMapPage_backed h.inv hs hv hfits hflags
  have htable := hown.alloc (env.pmmAllocPage s.rest).2
  have hkeep₂ := hown.allocKeeps (env.pmmAllocPage s.rest).2
  generalize pagingMapPage env.pmmAllocPage (env.pmmAllocPage s.rest).2 s.paging v
    (env.pmmAllocPage s.rest).1 flags = r at *
  generalize env.pmmAllocPage (env.pmmAllocPage s.rest).2 = t at *
  generalize env.pmmAllocPage s.rest = a at *
  have hkeep : ∀ g, Held a.2 g → Held r.1 g := by
    intro g hg
    rcases hk with he | he
    · exact he ▸ hg
    · exact he ▸ hkeep₂ g hg
  refine ⟨halign, hinv, hback, hfree, hkeep _ hheld, fun g hg => hkeep g (hkeep₁ g hg), ?_, ?_⟩
  · intro g hg
    rcases huse g hg with hu | ⟨rfl, hz, he⟩
    · exact Or.inl hu
    · obtain ⟨-, -, hn, ht⟩ := htable hz
      exact Or.inr ⟨fun hh => hn (hkeep₁ _ hh), he ▸ ht, fun he' => hn (he' ▸ hheld)⟩
  · rintro x (⟨hh, hu⟩ | hx | hx)
    · refine hmem x hu fun _ he => ?_
      by_contra hz
      exact (htable (he ▸ hz)).2.2.1 (he ▸ hkeep₁ _ hh)
    · refine hmem x (fun hu => hfree (hx ▸ h.tables _ hu)) fun _ he => ?_
      by_contra hz
      exact (htable (he ▸ hz)).2.2.1 (he ▸ hx ▸ hheld)
    · refine hmem x (fun hu => hx (hkeep _ (hkeep₁ _ (h.tables _ hu)))) fun hr he => ?_
      by_contra hz
      exact hx (he ▸ hr ▸ (htable (he ▸ hz)).2.2.2)

theorem Backing.good {v f : Nat} (hb : Backing Held dirs s s' v f) (h : Good Held dirs s₀ s) :
    Good Held dirs s₀ s' := by
  refine ⟨⟨hb.inv, ?_, ?_⟩, fun g hg => hb.keeps g (h.keeps g hg), ?_⟩
  · intro g hg
    rcases hb.tables g hg with hu | ⟨-, hg, -⟩
    · exact hb.keeps g (h.tables g hu)
    · exact hg
  · intro q hq F hF
    by_cases hqv : q = v / 4096
    · subst hqv
      rcases hb.backed.here with he | he
      · exact absurd (he.symm.trans hF) (by simp)
      · cases he.symm.trans hF
        rw [Nat.div_mul_cancel hb.aligned]
        exact hb.taken
    · rw [hb.backed.there q hq hqv] at hF
      exact hb.keeps _ (h.pages q hq F hF)
  · intro x hx
    rw [hb.mem x (Or.inr (Or.inr hx)), h.free x fun hh => hx (hb.keeps _ hh)]

/-- The bytes of the page just backed are unwritten. -/
theorem Backing.unwritten {v f : Nat} (hb : Backing Held dirs s s' v f)
    (h : Good Held dirs s₀ s) {u : Nat} (hu : u / 4096 = v / 4096) :
    Unwritten Held dirs s₀ s' u := by
  have hF : f / 4096 * 4096 = f := Nat.div_mul_cancel hb.aligned
  have hplace : frameOf (place (f / 4096) u) = f := (frameOf_place _ _).trans hF
  rcases hb.backed.here with he | he
  · exact Or.inl (hu ▸ he)
  · refine Or.inr ⟨f / 4096, ⟨hu ▸ he, ?_, ?_, ?_, ?_⟩, ?_⟩
    · intro q' hq' hF'
      by_contra hne
      rw [hb.backed.there q' hq' (hu ▸ hne)] at hF'
      exact hb.fresh (hF ▸ h.pages q' hq' _ hF')
    · rw [hF]
      exact hb.taken
    · rw [hF]
      exact fun hh => hb.fresh (h.keeps f hh)
    · rw [hF]
      intro hused
      rcases hb.tables f hused with hused | ⟨-, -, hne⟩
      · exact hb.fresh (h.tables f hused)
      · exact hne rfl
    · have hfree : ¬ Held s.rest (frameOf (place (f / 4096) u)) := by
        rw [hplace]
        exact hb.fresh
      exact (hb.mem _ (Or.inr (Or.inl hplace))).trans (h.free _ hfree)

/-- The bytes of the other pages are as before. -/
theorem Backing.keep {v f : Nat} (hb : Backing Held dirs s s' v f) {u F : Nat} {c : UInt8}
    (huser : UserPage (u / 4096)) (hu : u / 4096 ≠ v / 4096) (h : Byte Held dirs s₀ s u F c) :
    Byte Held dirs s₀ s' u F c := by
  obtain ⟨ho, hval⟩ := h
  refine ⟨⟨?_, ?_, hb.keeps _ ho.held, ho.new, ?_⟩, ?_⟩
  · rw [hb.backed.there _ huser hu, ho.entry]
  · intro q' hq' hF'
    by_cases hqv : q' = v / 4096
    · -- the new frame is not `F`, which was held before
      subst hqv
      rcases hb.backed.here with he | he
      · exact absurd (he.symm.trans hF') (by simp)
      · cases he.symm.trans hF'
        exact absurd (Nat.div_mul_cancel hb.aligned ▸ ho.held) hb.fresh
    · rw [hb.backed.there q' hq' hqv] at hF'
      exact ho.only q' hq' hF'
  · intro hused
    rcases hb.tables _ hused with hused | ⟨hn, -, -⟩
    · exact ho.data hused
    · exact hn ho.held
  · rw [hb.mem _ (Or.inl ?_), hval]
    rw [frameOf_place]
    exact ⟨ho.held, ho.data⟩

/-- **Backing a page.** -/
theorem Backing.effect {v f : Nat} (hb : Backing Held dirs s s' v f) (h : Good Held dirs s₀ s) :
    Effect Held dirs s₀ s s' (· = v / 4096) (fun _ => False) := by
  refine ⟨hb.good h, fun u F c huser hu _ => hb.keep huser hu, ?_⟩
  intro u huser _ hun
  by_cases hu : u / 4096 = v / 4096
  · exact hb.unwritten h hu
  · rcases hun with hn | ⟨F, hbyte⟩
    · exact Or.inl ((hb.backed.there _ huser hu).trans hn)
    · exact Or.inr ⟨F, hb.keep huser hu hbyte⟩

/-- **Backing a page that had no frame** disturbs no byte. -/
theorem Backing.effect_absent {v f : Nat} (hb : Backing Held dirs s s' v f)
    (h : Good Held dirs s₀ s) (habsent : frameAt s.paging (v / 4096) = none) :
    Effect Held dirs s₀ s s' (fun _ => False) (fun _ => False) := by
  refine ⟨hb.good h, ?_, (hb.effect h).unwritten⟩
  intro u F c huser _ _ hbyte
  refine hb.keep huser (fun hu => ?_) hbyte
  rw [← hu, hbyte.owned.entry] at habsent
  cases habsent

/-! ## 3. Storing a byte -/

/-- A write of the kernel to a page that is not present, without a frame for it. -/
theorem pageFaultHandler_noFrame {pmmAllocPage : σ → Nat × σ} {k : σ}
    (hz : (pmmAllocPage k).1 = 0) (pg : Paging) (v : Nat) :
    (pageFaultHandler pmmAllocPage k pg v 2).1 = false := by
  unfold pageFaultHandler
  rw [if_neg (by decide), if_neg (by decide)]
  simp only [if_pos hz]

/-- The same with a frame. -/
theorem pageFaultHandler_frame {pmmAllocPage : σ → Nat × σ} {k : σ}
    (hz : (pmmAllocPage k).1 ≠ 0) (pg : Paging) (v : Nat) :
    pageFaultHandler pmmAllocPage k pg v 2 =
      (true, pagingMapPage pmmAllocPage (pmmAllocPage k).2 pg (v &&& 0xFFFFF000)
        (pmmAllocPage k).1 (pagePresent ||| pageWrite)) := by
  have hkernel : ¬ (2 &&& 0x4 ≠ 0) := by decide
  unfold pageFaultHandler
  rw [if_neg (by decide), if_neg (by decide)]
  simp only [if_neg hz, if_neg hkernel]

/-- An access to a page that is present. -/
theorem touch_present {v n : Nat} {s : Sys σ}
    (h : (lookup s.paging.mem s.paging.currentPdPhys (v / 4096)).isSome) :
    touch env v (n + 1) s = .ok () s :=
  if_pos h

/-- An access to a page that is not present, without a frame for it. -/
theorem touch_noFrame {v n : Nat} {s : Sys σ}
    (h : ¬ (lookup s.paging.mem s.paging.currentPdPhys (v / 4096)).isSome)
    (hz : (env.pmmAllocPage s.rest).1 = 0) :
    ∃ t, touch env v (n + 1) s = .error .panics t :=
  ⟨_, (if_neg h).trans (if_neg (by rw [pageFaultHandler_noFrame hz]; decide))⟩

/-- The same with a frame: the access is tried again. -/
theorem touch_frame {v n : Nat} {s : Sys σ}
    (h : ¬ (lookup s.paging.mem s.paging.currentPdPhys (v / 4096)).isSome)
    (hz : (env.pmmAllocPage s.rest).1 ≠ 0) :
    touch env v (n + 1) s = touch env v n
      ⟨(pagingMapPage env.pmmAllocPage (env.pmmAllocPage s.rest).2 s.paging (v &&& 0xFFFFF000)
          (env.pmmAllocPage s.rest).1 (pagePresent ||| pageWrite)).1,
        (pagingMapPage env.pmmAllocPage (env.pmmAllocPage s.rest).2 s.paging (v &&& 0xFFFFF000)
          (env.pmmAllocPage s.rest).1 (pagePresent ||| pageWrite)).2⟩ := by
  refine (if_neg h).trans ?_
  rw [pageFaultHandler_frame hz]
  exact if_pos rfl

/-- An access either finds the page present or has the page fault handler back it. -/
theorem touch_effect (hown : Owns env Held) {v : Nat} (hv : v < 2 ^ 32) {n : Nat} :
    ∀ {s}, Good Held dirs s₀ s → touch env v n s = .ok () s' →
      Effect Held dirs s₀ s s' (fun _ => False) (fun _ => False) ∧
        ∃ F, frameAt s'.paging (v / 4096) = some F := by
  induction n with
  | zero =>
    intro s _ hrun
    cases hrun
  | succ n ih =>
    intro s h hrun
    by_cases hsome : (lookup s.paging.mem s.paging.currentPdPhys (v / 4096)).isSome
    · rw [touch_present hsome] at hrun
      cases hrun
      obtain ⟨⟨F, fl⟩, hF⟩ := Option.isSome_iff_exists.mp hsome
      exact ⟨h.effect_refl, F, by rw [frameAt, hF]; rfl⟩
    · have habsent : frameAt s.paging (v / 4096) = none := by
        rw [frameAt, Option.not_isSome_iff_eq_none.mp hsome]
        rfl
      by_cases hf : (env.pmmAllocPage s.rest).1 = 0
      · obtain ⟨t, ht⟩ := touch_noFrame (n := n) hsome hf
        rw [ht] at hrun
        cases hrun
      · rw [touch_frame hsome hf] at hrun
        have hpage : (v &&& 0xFFFFF000) / 4096 = v / 4096 := by
          rw [and_mask_eq hv, frameOf, Nat.mul_div_cancel _ (by decide)]
        have hlt : v &&& 0xFFFFF000 < 2 ^ 32 := Nat.lt_of_le_of_lt Nat.and_le_left hv
        have hb := hown.backing h hf hlt (show pagePresent ||| pageWrite < 0x1000 by decide)
        have heff := hb.effect_absent h (by rw [hpage]; exact habsent)
        obtain ⟨heff', hF⟩ := ih heff.good hrun
        exact ⟨heff.trans heff' (by simp) (by simp), hF⟩

/-- Storing to a byte of an owned page. -/
theorem Owned.store_effect (h : Good Held dirs s₀ s) {v F : Nat} (hv : UserPage (v / 4096))
    (ho : Owned Held dirs s₀ s (v / 4096) F) (b : UInt8) :
    let s' : Sys σ := { s with
      paging := { s.paging with mem := s.paging.mem.st8 (place F v) b } }
    Effect Held dirs s₀ s s' (fun _ => False) (· = v) ∧ Byte Held dirs s₀ s' v F b := by
  intro s'
  have hsame : SameTables s.paging s'.paging dirs :=
    sameTables_st8 h.inv b (by rw [frameOf_place]; exact ho.data)
  have hframe : ∀ q, UserPage q → frameAt s'.paging q = frameAt s.paging q := by
    intro q hq
    exact congrArg (Option.map Prod.fst) (hsame.lookup h.inv.current hq.lt)
  have howned : ∀ u G, UserPage (u / 4096) → Owned Held dirs s₀ s (u / 4096) G →
      Owned Held dirs s₀ s' (u / 4096) G := by
    intro u G hu hG
    refine ⟨(hframe _ hu).trans hG.entry, ?_, hG.held, hG.new, ?_⟩
    · intro q' hq' hF'
      exact hG.only q' hq' ((hframe q' hq').symm.trans hF')
    · exact fun hused => hG.data ((hsame.inUse _).mp hused)
  -- a byte other than `v` is somewhere else: in another frame, or at another offset
  have hbyte : ∀ u G c, UserPage (u / 4096) → u ≠ v → Byte Held dirs s₀ s u G c →
      Byte Held dirs s₀ s' u G c := by
    intro u G c hu huv hb
    refine ⟨howned u G hu hb.owned, ?_⟩
    have hne : place G u ≠ place F v := by
      intro he
      have hGF : G = F := by
        have := congrArg frameOf he
        rw [frameOf_place, frameOf_place] at this
        omega
      have hpage := ho.only _ hu (hGF ▸ hb.owned.entry)
      unfold place at he
      omega
    exact (Mem.st8_other b hne).trans hb.value
  refine ⟨⟨⟨⟨hsame.inv h.inv, ?_, ?_⟩, h.keeps, ?_⟩, ?_, ?_⟩, howned v F hv ho, Mem.st8_same _ _ _⟩
  · exact fun f hf => h.tables f ((hsame.inUse f).mp hf)
  · exact fun q hq G hG => h.pages q hq G ((hframe q hq).symm.trans hG)
  · intro x hx
    have hne : x ≠ place F v := fun he => hx (by rw [he, frameOf_place]; exact ho.held)
    exact (Mem.st8_other b hne).trans (h.free x hx)
  · exact fun u G c hu _ huv hb => hbyte u G c hu huv hb
  · rintro u hu huv (hn | ⟨G, hb⟩)
    · exact Or.inl ((hframe _ hu).trans hn)
    · exact Or.inr ⟨G, hbyte u G _ hu huv hb⟩

/-- After an access to an unwritten byte, its page has a frame of its own. -/
theorem touch_owned (hown : Owns env Held) (h : Good Held dirs s₀ s) {v n : Nat}
    (hv : UserPage (v / 4096)) (hun : Unwritten Held dirs s₀ s v)
    (hrun : touch env v n s = .ok () s') :
    ∃ F, Owned Held dirs s₀ s' (v / 4096) F ∧ pagingGetPhysical s'.paging v = place F v := by
  have hlt : v < 2 ^ 32 := by
    have := hv.lt
    omega
  obtain ⟨heff, F, hF⟩ := touch_effect hown hlt h hrun
  rcases heff.unwritten v hv (fun hf => hf) hun with hn | ⟨G, hb⟩
  · rw [hF] at hn
    cases hn
  · cases hF.symm.trans hb.owned.entry
    refine ⟨F, hb.owned, ?_⟩
    obtain ⟨⟨F', fl⟩, hl, rfl⟩ := Option.map_eq_some_iff.mp hF
    rw [pagingGetPhysical_eq, hl]
    rfl

/-- **Storing a byte** to an unwritten place. -/
theorem store8_effect (hown : Owns env Held) (h : Good Held dirs s₀ s) {v : Nat}
    (hv : UserPage (v / 4096)) (hun : Unwritten Held dirs s₀ s v) {b : UInt8}
    (hrun : store8 env v b s = .ok () s') :
    Effect Held dirs s₀ s s' (fun _ => False) (· = v) ∧ ∃ F, Byte Held dirs s₀ s' v F b := by
  have hlt : v < 2 ^ 32 := by
    have := hv.lt
    omega
  obtain ⟨⟨⟩, s₁, htouch, hstore⟩ := Prog.bind_ok hrun
  have heff := (touch_effect hown hlt h htouch).1
  obtain ⟨F, ho, hphys⟩ := touch_owned hown h hv hun htouch
  rw [hphys] at hstore
  cases hstore
  obtain ⟨heff', hbyte⟩ := ho.store_effect heff.good hv b
  exact ⟨heff.trans heff' (by simp) (by simp), F, hbyte⟩

end FlowOS.Elf
