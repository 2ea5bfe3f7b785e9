/-
# Every frame has one role

A frame taken from the PMM becomes a directory, a table, or a page: of the heap, of a program, of
a stack.  None of the places that take frames says so, but no frame ever has two roles.  The
reason is the same for all of them: a frame is taken, it is `Spare` for a moment, and then it is
entered once, at one place of one table.  `Roles` is the invariant, over all directories; the
lemmas below say what each primitive change does to it.  Below 1 GiB the kernel's identity map
shows every frame, so pages are counted from there on.
-/
import FlowOS.Vm.Tables

namespace FlowOS

open Word Frames Paging

/-! ## 1. The invariant -/

/-- The pages above the identity map. -/
def HighPage (q : Nat) : Prop := 2 ^ 18 ≤ q ∧ q < 2 ^ 20

instance (q : Nat) : Decidable (HighPage q) := instDecidableAnd

/-- Directory `d` has page `q` in frame number `F`. -/
def Vm.Maps (vm : Vm) (d q F : Nat) : Prop := ∃ flags, lookup vm.paging.mem d q = some (F, flags)

/-- A frame that has been taken and has no role yet. -/
structure Spare (vm : Vm) (dirs : List Nat) (F : Nat) : Prop where
  taken : ¬ Pmm.Free vm.pmm F
  unused : ¬ InUse vm.paging dirs (F * 4096)
  unmapped : ∀ d ∈ dirs, ∀ q, HighPage q → ¬ vm.Maps d q F

/-- Roles are exclusive. -/
structure Roles (vm : Vm) (dirs : List Nat) : Prop extends Tabled vm dirs where
  nodup : dirs.Nodup
  shared : ∀ d ∈ dirs, ∀ d' ∈ dirs, d ≠ d' → ∀ i < 1024, Present (word vm.paging.mem d i) →
    Present (word vm.paging.mem d' i) →
    frameOf (word vm.paging.mem d i) = frameOf (word vm.paging.mem d' i) →
    word vm.paging.mem vm.paging.kernelPdPhys i = word vm.paging.mem d i
  low : ∀ d ∈ dirs, ∀ q < 2 ^ 18, (lookup vm.paging.mem d q).isSome
  pages : ∀ d ∈ dirs, ∀ q, HighPage q → ∀ F, vm.Maps d q F →
    ¬ Pmm.Free vm.pmm F ∧ ¬ InUse vm.paging dirs (F * 4096)
  unique : ∀ d ∈ dirs, ∀ d' ∈ dirs, ∀ q q', HighPage q → HighPage q' → ∀ F, vm.Maps d q F →
    vm.Maps d' q' F → q = q'

variable {vm : Vm} {dirs : List Nat} {F : Nat}

/-! ## 2. Taking frames -/

/-- Frames may be taken. -/
theorem Roles.take (h : Roles vm dirs) {pmm : Pmm} (hp : ∀ g, Pmm.Free pmm g → Pmm.Free vm.pmm g) :
    Roles { vm with pmm := pmm } dirs where
  toTabled := h.toTabled.take hp
  nodup := h.nodup
  shared := h.shared
  low := h.low
  pages := by
    intro d hd q hq F hF
    obtain ⟨hfree, hused⟩ := h.pages d hd q hq F hF
    exact ⟨fun hf => hfree (hp F hf), hused⟩
  unique := h.unique

/-- A free frame that is taken is spare. -/
theorem Roles.spare (h : Roles vm dirs) {pmm : Pmm} (hfree : Pmm.Free vm.pmm F)
    (htaken : ¬ Pmm.Free pmm F) : Spare { vm with pmm := pmm } dirs F := by
  refine ⟨htaken, ?_, ?_⟩
  · intro hused
    have := h.held _ hused
    rw [Nat.mul_div_cancel F (by decide)] at this
    exact this hfree
  · intro d hd q hq hmaps
    exact (h.pages d hd q hq F hmaps).1 hfree

theorem Roles.alloc (h : Roles vm dirs) : Roles vm.allocPage.2 dirs :=
  h.take fun _ => Pmm.free_of_alloc

theorem Roles.alloc_spare (h : Roles vm dirs) (hz : vm.allocPage.1 ≠ 0) :
    Spare vm.allocPage.2 dirs (vm.allocPage.1 / 4096) := by
  obtain ⟨-, -, hfree, htaken⟩ := Pmm.alloc_addr hz
  exact h.spare hfree htaken

/-! ## 3. Mapping a spare frame -/

section Map

variable {v p flags : Nat}

/-- What a directory maps after `paging_map_page` it mapped before, or it is the new page. -/
theorem Tabled.map_maps (h : Tabled vm dirs) (hv : v < 2 ^ 32) (hp : p < 2 ^ 32)
    (hflags : flags < 0x1000) {d q : Nat} (hd : d ∈ dirs) (hq : q < 2 ^ 20)
    (hmaps : (vm.mapPage v p flags).Maps d q F) :
    vm.Maps d q F ∨ (q = v / 4096 ∧ F = p / 4096) := by
  obtain ⟨fl, hl⟩ := hmaps
  rcases h.map_cases hv hp hflags with ⟨-, -, he⟩ | ⟨-, hm⟩
  · rw [he] at hl
    exact Or.inl ⟨fl, hl⟩
  · rw [hm.lookup d hd q hq] at hl
    split at hl
    · rename_i hhit
      obtain ⟨hF, -⟩ := Prod.mk.inj (Option.some.inj hl)
      exact Or.inr ⟨hhit.1, hF.symm⟩
    · exact Or.inl ⟨fl, hl⟩

/-- A frame that is taken and not in use does not become a table. -/
theorem Tabled.map_unused (h : Tabled vm dirs) (hv : v < 2 ^ 32) (htaken : ¬ Pmm.Free vm.pmm F)
    (hunused : ¬ InUse vm.paging dirs (F * 4096)) :
    ¬ InUse (vm.mapPage v p flags).paging dirs (F * 4096) := by
  intro hused
  rcases h.map_inUse hv hused with hu | ⟨-, hfree, -⟩
  · exact hunused hu
  · rw [Nat.mul_div_cancel F (by decide)] at hfree
    exact htaken hfree

/-- The other spare frames stay spare. -/
theorem Spare.map (hs : Spare vm dirs F) (h : Roles vm dirs) (hv : v < 2 ^ 32) (hp : p < 2 ^ 32)
    (hflags : flags < 0x1000) (hne : F ≠ p / 4096) : Spare (vm.mapPage v p flags) dirs F := by
  refine ⟨fun hf => hs.taken (Vm.free_of_map hf),
    h.toTabled.map_unused hv hs.taken hs.unused, ?_⟩
  intro d hd q hq hmaps
  rcases h.toTabled.map_maps hv hp hflags hd hq.2 hmaps with hold | ⟨-, hnew⟩
  · exact hs.unmapped d hd q hq hold
  · exact hne hnew

theorem Roles.map_shared (h : Roles vm dirs) (hv : v < 2 ^ 32) (hp : p < 2 ^ 32)
    (hflags : flags < 0x1000) {d d' i : Nat} (hd : d ∈ dirs) (hd' : d' ∈ dirs) (hne : d ≠ d')
    (hi : i < 1024) (hpd : Present (word (vm.mapPage v p flags).paging.mem d i))
    (hpd' : Present (word (vm.mapPage v p flags).paging.mem d' i))
    (heq : frameOf (word (vm.mapPage v p flags).paging.mem d i)
      = frameOf (word (vm.mapPage v p flags).paging.mem d' i)) :
    word (vm.mapPage v p flags).paging.mem (vm.mapPage v p flags).paging.kernelPdPhys i
      = word (vm.mapPage v p flags).paging.mem d i := by
  rcases h.toTabled.map_cases hv hp hflags with ⟨-, -, he⟩ | ⟨-, hm⟩
  · rw [he] at hpd hpd' heq ⊢
    exact h.shared d hd d' hd' hne i hi hpd hpd' heq
  · -- a new entry names a frame that no other entry names
    have hnew : ∀ e ∈ dirs, ∀ e' ∈ dirs, e ≠ e' →
        Present (word (vm.mapPage v p flags).paging.mem e' i) →
        frameOf (word (vm.mapPage v p flags).paging.mem e i)
          = frameOf (word (vm.mapPage v p flags).paging.mem e' i) →
        word (vm.mapPage v p flags).paging.mem e i = word vm.paging.mem e i := by
      intro e he e' he' hee hpe' hfr
      refine hm.dir e he i hi ?_
      rintro ⟨rfl, rfl, habsent⟩
      have hw' := hm.dir e' he' _ hi fun hc => hee hc.1.symm
      refine hm.fresh habsent (Or.inr ⟨e', he', _, hi, ?_, ?_⟩)
      · rw [← hw']
        exact hpe'
      · rw [← hw']
        exact hfr.symm
    have hw := hnew d hd d' hd' hne hpd' heq
    have hw' := hnew d' hd' d hd hne.symm hpd heq.symm
    rw [hw] at hpd heq ⊢
    rw [hw'] at hpd' heq
    have hkernel := h.shared d hd d' hd' hne i hi hpd hpd' heq
    rw [hm.kernel, hm.dir _ h.inv.kernel i hi, hkernel]
    rintro ⟨-, -, habsent⟩
    rw [hkernel] at habsent
    exact habsent hpd

/-- **Mapping a spare frame keeps the roles exclusive.** -/
theorem Roles.map (h : Roles vm dirs) (hs : Spare vm dirs (p / 4096)) (hv : v < 2 ^ 32)
    (hp : p < 2 ^ 32) (hflags : flags < 0x1000) : Roles (vm.mapPage v p flags) dirs where
  toTabled := h.toTabled.map hv hp hflags
  nodup := h.nodup
  shared := fun d hd d' hd' hne i hi hpd hpd' =>
    h.map_shared hv hp hflags hd hd' hne hi hpd hpd'
  low := by
    intro d hd q hq
    rcases h.toTabled.map_cases hv hp hflags with ⟨-, -, he⟩ | ⟨-, hm⟩
    · rw [he]
      exact h.low d hd q hq
    · rw [hm.lookup d hd q (by omega)]
      split
      · rfl
      · exact h.low d hd q hq
  pages := by
    intro d hd q hq F hmaps
    have hof : ¬ Pmm.Free vm.pmm F ∧ ¬ InUse vm.paging dirs (F * 4096) := by
      rcases h.toTabled.map_maps hv hp hflags hd hq.2 hmaps with hold | ⟨-, rfl⟩
      · exact h.pages d hd q hq F hold
      · exact ⟨hs.taken, hs.unused⟩
    exact ⟨fun hf => hof.1 (Vm.free_of_map hf), h.toTabled.map_unused hv hof.1 hof.2⟩
  unique := by
    intro d hd d' hd' q q' hq hq' F hmaps hmaps'
    rcases h.toTabled.map_maps hv hp hflags hd hq.2 hmaps with hold | ⟨rfl, rfl⟩
    · rcases h.toTabled.map_maps hv hp hflags hd' hq'.2 hmaps' with hold' | ⟨-, rfl⟩
      · exact h.unique d hd d' hd' q q' hq hq' F hold hold'
      · exact absurd hold (hs.unmapped d hd q hq)
    · rcases h.toTabled.map_maps hv hp hflags hd' hq'.2 hmaps' with hold' | ⟨rfl, -⟩
      · exact absurd hold' (hs.unmapped d' hd' q' hq')
      · rfl

/-- **Backing a page keeps the roles exclusive.** -/
theorem Roles.back (h : Roles vm dirs) (hv : v < 2 ^ 32) (hflags : flags < 0x1000) :
    Roles (vm.backPage v flags).2 dirs := by
  unfold Vm.backPage
  dsimp only
  split
  · exact h.alloc
  · rename_i hz
    exact h.alloc.map (h.alloc_spare hz) hv (Pmm.alloc_addr hz).2.1 hflags

/-- With two frames, one for the page and one for a table, a page can be backed. -/
theorem Tabled.back_maps (h : Tabled vm dirs) (hv : v < 2 ^ 32) (hflags : flags < 0x1000)
    (hframes : 2 ≤ Pmm.clearBits vm.pmm) :
    lookup (vm.backPage v flags).2.paging.mem vm.paging.currentPdPhys (v / 4096)
      = some (vm.allocPage.1 / 4096, flags ||| pagePresent) := by
  have hz : vm.allocPage.1 ≠ 0 := Pmm.alloc_ne_zero h.zero (by omega)
  have hbits := Vm.clearBits_alloc h.zero
  rw [if_neg hz] at hbits
  have hz' : (Pmm.pmmAllocPage vm.allocPage.2.pmm).1 ≠ 0 :=
    Pmm.alloc_ne_zero h.alloc.zero (by omega)
  rw [show vm.backPage v flags = (true, vm.allocPage.2.mapPage v vm.allocPage.1 flags) from
    if_neg hz]
  rcases h.alloc.map_cases hv (Pmm.alloc_addr hz).2.1 hflags with ⟨-, hno, -⟩ | ⟨-, hm⟩
  · exact absurd hno hz'
  · refine (hm.lookup _ h.inv.current (v / 4096) (by omega)).trans (if_pos ⟨rfl, hm.present, ?_⟩)
    rw [hm.current]
    rfl

end Map

/-- **Unmapping a page above the identity map keeps the roles exclusive.** -/
theorem Roles.unmap (h : Roles vm dirs) {v : Nat} (hv : v < 2 ^ 32) (hq : HighPage (v / 4096)) :
    Roles (vm.unmapPage v) dirs := by
  obtain ⟨hinv, hlookup⟩ := pagingUnmapPage_spec h.inv hv
  obtain ⟨-, hkernel, hword⟩ := pagingUnmapPage_dir h.inv hv
  have huse : ∀ f, InUse (vm.unmapPage v).paging dirs f ↔ InUse vm.paging dirs f := by
    intro f
    refine or_congr Iff.rfl (exists_congr fun d => and_congr_right fun hd => ?_)
    refine exists_congr fun i => and_congr_right fun hi => ?_
    rw [show word (vm.unmapPage v).paging.mem d i = _ from hword d hd i hi]
  have hmaps : ∀ d ∈ dirs, ∀ q < 2 ^ 20, ∀ F, (vm.unmapPage v).Maps d q F → vm.Maps d q F := by
    rintro d hd q hlt F ⟨fl, hF⟩
    rw [show lookup (vm.unmapPage v).paging.mem d q = _ from hlookup d hd q hlt] at hF
    split at hF
    · cases hF
    · exact ⟨fl, hF⟩
  refine ⟨⟨hinv, fun f hf => h.held f ((huse f).mp hf), h.zero⟩, h.nodup, ?_, ?_, ?_, ?_⟩
  · intro d hd d' hd' hne i hi hpd hpd' heq
    dsimp only [Vm.unmapPage] at hpd hpd' heq ⊢
    rw [hword d hd i hi] at hpd heq ⊢
    rw [hword d' hd' i hi] at hpd' heq
    rw [hkernel, hword _ h.inv.kernel i hi]
    exact h.shared d hd d' hd' hne i hi hpd hpd' heq
  · intro d hd q hlow
    rw [show lookup (vm.unmapPage v).paging.mem d q = _ from hlookup d hd q (by omega), if_neg]
    · exact h.low d hd q hlow
    · rintro ⟨rfl, -⟩
      have := hq.1
      omega
  · intro d hd q hq' F hF
    obtain ⟨hf, hu⟩ := h.pages d hd q hq' F (hmaps d hd q hq'.2 F hF)
    exact ⟨hf, fun hused => hu ((huse _).mp hused)⟩
  · intro d hd d' hd' q q' hq hq' F hF hF'
    exact h.unique d hd d' hd' q q' hq hq' F (hmaps d hd q hq.2 F hF) (hmaps d' hd' q' hq'.2 F hF')

/-! ## 4. Directories and stores -/

theorem Roles.switch (h : Roles vm dirs) {d : Nat} (hd : d ∈ dirs) : Roles (vm.switch d) dirs where
  toTabled := h.toTabled.switch hd
  nodup := h.nodup
  shared := h.shared
  low := h.low
  pages := h.pages
  unique := h.unique

/-- **A clone gets a frame of its own**, and shares the tables of the kernel directory. -/
theorem Roles.clone (h : Roles vm dirs) :
    Roles vm.clonePd.2 (if vm.clonePd.1 = 0 then dirs else vm.clonePd.1 :: dirs) := by
  rcases h.toTabled.clone_cases with ⟨hz, he, -⟩ | ⟨hz, hfree, hc, ht⟩
  · rw [if_pos hz, show vm.clonePd.2 = { vm with pmm := vm.clonePd.2.pmm } by rw [← he]]
    exact h.take fun _ => Vm.free_of_clone
  · rw [if_neg hz]
    -- the new directory maps what the kernel's maps
    have hold : ∀ d ∈ vm.clonePd.1 :: dirs, ∃ d₀ ∈ dirs,
        ∀ q < 2 ^ 20, lookup vm.clonePd.2.paging.mem d q = lookup vm.paging.mem d₀ q := by
      intro d hd
      rcases List.mem_cons.mp hd with rfl | hd
      · exact ⟨_, h.inv.kernel, hc.newLookup⟩
      · exact ⟨d, hd, hc.lookup d hd⟩
    have hfresh : ∀ d ∈ dirs, d ≠ vm.clonePd.1 := by
      rintro d hd rfl
      exact h.held _ (Or.inl hd) hfree
    refine ⟨ht, List.nodup_cons.mpr ⟨fun hmem => hfresh _ hmem rfl, h.nodup⟩, ?_, ?_, ?_, ?_⟩
    · intro d hd d' hd' hne i hi hpd hpd' heq
      rw [hc.kernel, hc.dir _ h.inv.kernel i hi]
      rcases List.mem_cons.mp hd with rfl | hd
      · exact (hc.newDir i hi).symm
      · rw [hc.dir d hd i hi] at hpd heq ⊢
        rcases List.mem_cons.mp hd' with rfl | hd'
        · rw [hc.newDir i hi] at hpd' heq
          -- the kernel directory itself, or one that shares this table with it
          by_cases hk : d = vm.paging.kernelPdPhys
          · rw [hk]
          · exact h.shared d hd _ h.inv.kernel hk i hi hpd hpd' heq
        · rw [hc.dir d' hd' i hi] at hpd' heq
          exact h.shared d hd d' hd' hne i hi hpd hpd' heq
    · intro d hd q hq
      obtain ⟨d₀, hd₀, hl⟩ := hold d hd
      rw [hl q (by omega)]
      exact h.low d₀ hd₀ q hq
    · rintro d hd q hq F ⟨fl, hF⟩
      obtain ⟨d₀, hd₀, hl⟩ := hold d hd
      rw [hl q hq.2] at hF
      obtain ⟨hf, hu⟩ := h.pages d₀ hd₀ q hq F ⟨fl, hF⟩
      refine ⟨fun hf' => hf (Vm.free_of_clone hf'), fun hused => ?_⟩
      rcases hc.inUse h.inv hused with hused | hdir
      · exact hu hused
      · rw [← hdir, Nat.mul_div_cancel F (by decide)] at hfree
        exact hf hfree
    · rintro d hd d' hd' q q' hq hq' F ⟨fl, hF⟩ ⟨fl', hF'⟩
      obtain ⟨d₀, hd₀, hl⟩ := hold d hd
      obtain ⟨d₁, hd₁, hl'⟩ := hold d' hd'
      rw [hl q hq.2] at hF
      rw [hl' q' hq'.2] at hF'
      exact h.unique d₀ hd₀ d₁ hd₁ q q' hq hq' F ⟨fl, hF⟩ ⟨fl', hF'⟩

/-- A change of memory outside the directories and tables. -/
theorem Roles.sameTables (h : Roles vm dirs) {pg : Paging} (hs : SameTables vm.paging pg dirs) :
    Roles { vm with paging := pg } dirs := by
  have hword : ∀ d ∈ dirs, ∀ i < 1024, word pg.mem d i = word vm.paging.mem d i :=
    fun d hd => hs.word d (Or.inl hd)
  have hmaps : ∀ d ∈ dirs, ∀ q < 2 ^ 20, ∀ F, Vm.Maps { vm with paging := pg } d q F →
      vm.Maps d q F := by
    rintro d hd q hq F ⟨fl, hF⟩
    exact ⟨fl, (hs.lookup hd hq).symm.trans hF⟩
  refine ⟨⟨hs.inv h.inv, fun f hf => h.held f ((hs.inUse f).mp hf), h.zero⟩, h.nodup,
    ?_, ?_, ?_, ?_⟩
  · intro d hd d' hd' hne i hi hpd hpd' heq
    dsimp only at hpd hpd' heq ⊢
    rw [hword d hd i hi] at hpd heq ⊢
    rw [hword d' hd' i hi] at hpd' heq
    rw [hs.kernel, hword _ h.inv.kernel i hi]
    exact h.shared d hd d' hd' hne i hi hpd hpd' heq
  · intro d hd q hq
    dsimp only
    rw [hs.lookup hd (show q < 2 ^ 20 by omega)]
    exact h.low d hd q hq
  · intro d hd q hq F hF
    obtain ⟨hf, hu⟩ := h.pages d hd q hq F (hmaps d hd q hq.2 F hF)
    exact ⟨hf, fun hused => hu ((hs.inUse _).mp hused)⟩
  · intro d hd d' hd' q q' hq hq' F hF hF'
    exact h.unique d hd d' hd' q q' hq hq' F (hmaps d hd q hq.2 F hF) (hmaps d' hd' q' hq'.2 F hF')

/-- A store through a page above the identity map goes to that page's frame, which is no table. -/
theorem Roles.store_sameTables (h : Roles vm dirs) {v : Nat} (hq : HighPage (v / 4096))
    (hsome : (vm.entry (v / 4096)).isSome) (b : UInt8) :
    SameTables vm.paging (vm.store v b).paging dirs := by
  obtain ⟨⟨F, fl⟩, hF⟩ := Option.isSome_iff_exists.mp hsome
  have hphys : pagingGetPhysical vm.paging v = F * 4096 + v % 4096 := by
    rw [pagingGetPhysical_eq, show lookup vm.paging.mem vm.paging.currentPdPhys (v / 4096)
      = some (F, fl) from hF]
  refine sameTables_st8 h.inv b ?_
  rw [hphys, frameOf_add (Nat.dvd_mul_left _ _) (Nat.mod_lt _ (by decide))]
  exact (h.pages _ h.inv.current _ hq F ⟨fl, hF⟩).2

theorem Roles.store (h : Roles vm dirs) {v : Nat} (hq : HighPage (v / 4096))
    (hsome : (vm.entry (v / 4096)).isSome) (b : UInt8) : Roles (vm.store v b) dirs :=
  h.sameTables (h.store_sameTables hq hsome b)

end FlowOS
