/-
# Runs of the paging code

`paging_init` builds the identity map of the first GiB; from there on directories are cloned,
switched, and changed page by page.  `Step` is one such call, in a machine that knows which
directories are in use.  The invariant of `Paging/Map.lean` holds along every run (`run_inv`),
and so every call acts on the current directory as on a map (`MapOk`, `paging_run_ok`).
-/
import FlowOS.Paging.Map
import Mathlib.Logic.Relation

namespace FlowOS.Paging

open Word Frames

/-! ## 1. `paging_init` -/

variable (img : Image) (mem : Mem)

theorem Image.table_aligned (i : Nat) : 4096 ∣ img.table i := by
  have := img.tablesAligned
  unfold Image.table
  omega

theorem Image.table_ne_pd {i : Nat} (hi : i < 256) : img.table i ≠ img.kernelPd := by
  have := img.apart
  unfold Image.table
  omega

theorem Image.table_injective {i j : Nat} (h : img.table i = img.table j) : i = j := by
  unfold Image.table at h
  omega

/-- The directory entry `paging_init` writes. -/
theorem identity_pde {i : Nat} (hi : i < 256) :
    img.table i ||| pagePresent ||| pageWrite = img.table i + 3 ∧ img.table i + 3 < 2 ^ 32 := by
  have := img.tablesFit
  refine ⟨?_, by unfold Image.table; omega⟩
  rw [Nat.or_assoc]
  exact or_of_aligned (k := 12) (img.table_aligned i) (by decide)

/-- The table entry `paging_init` writes. -/
theorem identity_pte (n : Nat) :
    n * pageSize % 2 ^ 32 ||| pagePresent ||| pageWrite = n * 4096 % 2 ^ 32 + 3 := by
  rw [Nat.or_assoc]
  refine or_of_aligned (k := 12) ?_ (by decide)
  change 4096 ∣ n * 4096 % 2 ^ 32
  omega

/-- The memory after `n` rounds of the outer loop of `paging_init`. -/
def rounds (n : Nat) : Mem :=
  (List.range n).foldl (identityTable img) (fill mem img.kernelPd (fun _ => 0) 1024)

theorem rounds_succ (n : Nat) :
    rounds img mem (n + 1) = identityTable img (rounds img mem n) n := by
  rw [rounds, List.range_succ, List.foldl_append]
  rfl

theorem word_rounds_pd {n i : Nat} (hn : n ≤ 256) (hi : i < 1024) :
    word (rounds img mem n) img.kernelPd i = if i < n then img.table i + 3 else 0 := by
  induction n with
  | zero => exact word_fill (fun _ => by decide) hi
  | succ n ih =>
    obtain ⟨hpde, hlt⟩ := identity_pde img (show n < 256 by omega)
    rw [rounds_succ, identityTable, hpde]
    by_cases hin : i = n
    · rw [hin, word_setWord_same hlt, if_pos (by omega)]
    · rw [word_setWord_index hin, word_fill_frame (Nat.le_refl _) (img.table_aligned n)
        img.pdAligned (img.table_ne_pd (by omega)).symm hi, ih (by omega)]
      exact if_congr (by omega) rfl rfl

theorem word_rounds_table {n k j : Nat} (hn : n ≤ 256) (hk : k < n) (hj : j < 1024) :
    word (rounds img mem n) (img.table k) j = (k * 1024 + j) * 4096 % 2 ^ 32 + 3 := by
  induction n with
  | zero => omega
  | succ n ih =>
    rw [rounds_succ, identityTable, word_setWord_frame img.pdAligned (img.table_aligned k)
      (img.table_ne_pd (by omega)) (by omega) hj]
    by_cases hkn : k = n
    · rw [hkn, word_fill (fun _ => by rw [identity_pte]; omega) hj, identity_pte]
    · rw [word_fill_frame (Nat.le_refl _) (img.table_aligned n) (img.table_aligned k)
        (fun he => hkn (img.table_injective he)) hj]
      exact ih (by omega) (by omega)

theorem pagingInit_mem : (pagingInit img mem).mem = rounds img mem 256 := by
  simp only [pagingInit, rounds]

/-- The directory `paging_init` builds. -/
theorem word_pagingInit {i : Nat} (hi : i < 1024) :
    word (pagingInit img mem).mem img.kernelPd i = if i < 256 then img.table i + 3 else 0 := by
  rw [pagingInit_mem]
  exact word_rounds_pd img mem (Nat.le_refl _) hi

/-- The tables of the first directory. -/
theorem pagingInit_present {i : Nat} (hi : i < 1024)
    (hp : Present (word (pagingInit img mem).mem img.kernelPd i)) :
    i < 256 ∧ frameOf (word (pagingInit img mem).mem img.kernelPd i) = img.table i := by
  rw [word_pagingInit img mem hi] at hp ⊢
  by_cases hlt : i < 256
  · rw [if_pos hlt]
    exact ⟨hlt, (entry_parts (img.table_aligned i) (by decide)).2.1⟩
  · rw [if_neg hlt] at hp
    exact absurd hp (by decide)

theorem pagingInit_inv : Inv (pagingInit img mem) [img.kernelPd] := by
  refine ⟨List.mem_singleton_self _, List.mem_singleton_self _, ?_, ?_, ?_⟩
  · intro d hd
    rw [List.mem_singleton.mp hd]
    exact img.pdAligned
  · intro d hd i hi hp
    rw [List.mem_singleton.mp hd] at hp ⊢
    obtain ⟨hlt, hf⟩ := pagingInit_present img mem hi hp
    rw [hf]
    exact fun hmem => img.table_ne_pd hlt (List.mem_singleton.mp hmem)
  · intro d hd d' hd' i hi j hj hp hp' he
    rw [List.mem_singleton.mp hd] at hp he
    rw [List.mem_singleton.mp hd'] at hp' he
    rw [(pagingInit_present img mem hi hp).2, (pagingInit_present img mem hj hp').2] at he
    exact img.table_injective he

/-- The frames in use after `paging_init`. -/
theorem pagingInit_inUse {f : Nat} (h : InUse (pagingInit img mem) [img.kernelPd] f) :
    f = img.kernelPd ∨ ∃ i < 256, f = img.table i := by
  rcases h with hmem | ⟨d, hd, i, hi, hp, rfl⟩
  · exact Or.inl (List.mem_singleton.mp hmem)
  · rw [List.mem_singleton.mp hd] at hp ⊢
    obtain ⟨hlt, hf⟩ := pagingInit_present img mem hi hp
    exact Or.inr ⟨i, hlt, hf⟩

/-- **`paging_init` builds the identity on the first GiB.** -/
theorem pagingInit_lookup {vpn : Nat} (hv : vpn < 2 ^ 20) :
    lookup (pagingInit img mem).mem img.kernelPd vpn =
      if vpn < 2 ^ 18 then some (vpn, pagePresent ||| pageWrite) else none := by
  have hi : vpn / 1024 < 1024 := by omega
  have hj : vpn % 1024 < 1024 := Nat.mod_lt _ (by decide)
  rw [lookup, word_pagingInit img mem hi]
  by_cases hlow : vpn < 2 ^ 18
  · have hi' : vpn / 1024 < 256 := by omega
    obtain ⟨hp, hf, -, -⟩ := entry_parts (img.table_aligned (vpn / 1024)) (show 3 < 4096 by decide)
    rw [if_pos hi', if_pos (hp.mpr rfl), hf, if_pos hlow]
    -- entry `j` of table `i` is the page number `1024 * i + j`
    have hw : word (pagingInit img mem).mem (img.table (vpn / 1024)) (vpn % 1024)
        = vpn * 4096 + 3 := by
      rw [pagingInit_mem, word_rounds_table img mem (Nat.le_refl _) hi' hj]
      omega
    obtain ⟨hp', -, hdiv, hmod⟩ := entry_parts (Nat.dvd_mul_left 4096 vpn) (show 3 < 4096 by decide)
    rw [hw, page, if_pos (hp'.mpr rfl), hdiv, hmod, Nat.mul_div_cancel _ (by decide)]
    rfl
  · have hi' : ¬ vpn / 1024 < 256 := by omega
    rw [if_neg hi', if_neg hlow]
    rfl

/-! ## 2. Steps and runs -/

/-- The paging code in use: the state of the PMM, the paging state, and the directories that
have been made so far. -/
structure Machine (σ : Type) where
  pmm : σ
  paging : Paging
  dirs : List Nat

variable {σ : Type} {pmmAllocPage : σ → Nat × σ}

/-- The next frame of the PMM is not in use. -/
def Machine.Supplied (pmmAllocPage : σ → Nat × σ) (m : Machine σ) : Prop :=
  Supplies pmmAllocPage m.pmm m.paging m.dirs

/-- One call of the paging code.  `work` is what goes on between the calls: the PMM may serve
others, and memory changes outside the directories and tables. -/
inductive Step (pmmAllocPage : σ → Nat × σ) : Machine σ → Machine σ → Prop
  | map (m : Machine σ) (v p : Fin (2 ^ 32)) (flags : Fin 0x1000)
      (hs : m.Supplied pmmAllocPage) : Step pmmAllocPage m
        { m with
          pmm := (pagingMapPage pmmAllocPage m.pmm m.paging v p flags).1
          paging := (pagingMapPage pmmAllocPage m.pmm m.paging v p flags).2 }
  | unmap (m : Machine σ) (v : Fin (2 ^ 32)) : Step pmmAllocPage m
        { m with paging := pagingUnmapPage m.paging v }
  | clone (m : Machine σ) (hs : m.Supplied pmmAllocPage) : Step pmmAllocPage m
        { pmm := (pagingClonePd pmmAllocPage m.pmm m.paging).2.1
          paging := (pagingClonePd pmmAllocPage m.pmm m.paging).2.2
          dirs := if (pagingClonePd pmmAllocPage m.pmm m.paging).1 = 0 then m.dirs
            else (pagingClonePd pmmAllocPage m.pmm m.paging).1 :: m.dirs }
  | switch (m : Machine σ) (pd : Nat) (hd : pd ∈ m.dirs) : Step pmmAllocPage m
        { m with paging := pagingSwitch m.paging pd }
  | work (m : Machine σ) (pmm : σ) (mem : Mem)
      (hmem : ∀ f, InUse m.paging m.dirs f → ∀ i < 1024, word mem f i = word m.paging.mem f i) :
      Step pmmAllocPage m { m with pmm := pmm, paging := { m.paging with mem := mem } }

/-- **Step lemma.** -/
theorem step_inv {m m' : Machine σ} (hstep : Step pmmAllocPage m m')
    (h : Inv m.paging m.dirs) : Inv m'.paging m'.dirs := by
  cases hstep with
  | map v p flags hs =>
    rcases pagingMapPage_cases h hs v.isLt p.isLt flags.isLt with ⟨-, -, he⟩ | ⟨-, hm⟩
    · dsimp only
      rw [he]
      exact h
    · exact hm.inv
  | unmap v => exact (pagingUnmapPage_spec h v.isLt).1
  | clone hs =>
    rcases pagingClonePd_cases h hs with ⟨hz, he⟩ | ⟨hz, hc⟩
    · dsimp only
      rw [if_pos hz, he]
      exact h
    · dsimp only
      rw [if_neg hz]
      exact hc.inv
  | switch pd hd => exact h.switch hd
  | work pmm mem hmem =>
    exact h.congr rfl h.current fun d hd i hi => hmem d (Or.inl hd) i hi

/-- **Run lemma.** -/
theorem run_inv {m m' : Machine σ} (hrun : Relation.ReflTransGen (Step pmmAllocPage) m m')
    (h : Inv m.paging m.dirs) : Inv m'.paging m'.dirs := by
  induction hrun with
  | refl => exact h
  | tail _ hs ih => exact step_inv hs ih

/-! ## 3. Map semantics -/

/-- The page of an address. -/
def pageOf (v : Fin (2 ^ 32)) : Fin (2 ^ 20) := ⟨v / 4096, by omega⟩

/-- Directory `pd` as a map from virtual page numbers to frame numbers and flags. -/
def pageMap (pg : Paging) (pd : Nat) (vpn : Fin (2 ^ 20)) : Option (Nat × Nat) :=
  lookup pg.mem pd vpn

/-- The current directory as a map. -/
def currentMap (pg : Paging) : Fin (2 ^ 20) → Option (Nat × Nat) := pageMap pg pg.currentPdPhys

/-- **The calls of the paging code are map operations** on the current directory. -/
structure MapOk (pmmAllocPage : σ → Nat × σ) (m : Machine σ) : Prop where
  mapPage : m.Supplied pmmAllocPage → ∀ (v p : Fin (2 ^ 32)) (flags : Fin 0x1000),
    let pg' := (pagingMapPage pmmAllocPage m.pmm m.paging v p flags).2
    if ¬ Present (word m.paging.mem m.paging.currentPdPhys (pdIndex v)) ∧
      (pmmAllocPage m.pmm).1 = 0 then pg' = m.paging
    else currentMap pg' = Function.update (currentMap m.paging) (pageOf v)
      (some (p.val / 4096, flags.val ||| pagePresent))
  unmapPage : ∀ v : Fin (2 ^ 32), currentMap (pagingUnmapPage m.paging v) =
    Function.update (currentMap m.paging) (pageOf v) none
  clonePd : m.Supplied pmmAllocPage →
    let r := pagingClonePd pmmAllocPage m.pmm m.paging
    currentMap r.2.2 = currentMap m.paging ∧ (∀ d ∈ m.dirs, pageMap r.2.2 d = pageMap m.paging d) ∧
      if r.1 = 0 then r.2.2 = m.paging
      else pageMap r.2.2 r.1 = pageMap m.paging m.paging.kernelPdPhys
  getPhysical : ∀ v : Fin (2 ^ 32), pagingGetPhysical m.paging v =
    match currentMap m.paging (pageOf v) with
    | some (frame, _) => frame * 4096 + v % 4096
    | none => 0

theorem Inv.mapPage {pg : Paging} {dirs : List Nat} {k : σ} (h : Inv pg dirs)
    (hs : Supplies pmmAllocPage k pg dirs) (v p : Fin (2 ^ 32)) (flags : Fin 0x1000)
    (hok : ¬ (¬ Present (word pg.mem pg.currentPdPhys (pdIndex v)) ∧ (pmmAllocPage k).1 = 0)) :
    currentMap (pagingMapPage pmmAllocPage k pg v p flags).2 =
      Function.update (currentMap pg) (pageOf v)
        (some (p.val / 4096, flags.val ||| pagePresent)) := by
  rcases pagingMapPage_cases h hs v.isLt p.isLt flags.isLt with ⟨hn, hz, -⟩ | ⟨-, hm⟩
  · exact absurd ⟨hn, hz⟩ hok
  · funext vpn
    rw [currentMap, pageMap, hm.current, hm.lookup _ h.current vpn vpn.isLt, Function.update_apply]
    refine if_congr ?_ rfl rfl
    have hshare : Shares (pagingMapPage pmmAllocPage k pg v p flags).2 pg.currentPdPhys
        (pdIndex v) := ⟨hm.present, by rw [hm.current]⟩
    rw [and_iff_left hshare, Fin.ext_iff]
    rfl

theorem Inv.unmapPage {pg : Paging} {dirs : List Nat} (h : Inv pg dirs) (v : Fin (2 ^ 32)) :
    currentMap (pagingUnmapPage pg v) = Function.update (currentMap pg) (pageOf v) none := by
  have hcur : (pagingUnmapPage pg v).currentPdPhys = pg.currentPdPhys := by
    unfold pagingUnmapPage
    dsimp only
    split <;> rfl
  funext vpn
  rw [currentMap, pageMap, hcur, (pagingUnmapPage_spec h v.isLt).2 _ h.current vpn vpn.isLt,
    Function.update_apply]
  by_cases hv : vpn = pageOf v
  · have hvpn : (vpn : Nat) = v / 4096 := congrArg Fin.val hv
    rw [if_pos hv]
    -- without a table the page has no entry to erase
    by_cases hp : Present (word pg.mem pg.currentPdPhys (pdIndex v))
    · rw [if_pos ⟨hvpn, hp, shares_current hp⟩]
    · rw [if_neg fun hc => hp hc.2.1, lookup, hvpn]
      rw [pdIndex_eq] at hp
      exact if_neg hp
  · rw [if_neg hv, if_neg fun hc => hv (Fin.ext hc.1)]
    rfl

theorem Inv.mapOk {m : Machine σ} (h : Inv m.paging m.dirs) : MapOk pmmAllocPage m := by
  refine ⟨?_, h.unmapPage, ?_, fun v => pagingGetPhysical_eq m.paging v⟩
  · intro hs v p flags
    dsimp only
    split
    · rename_i hno
      rcases pagingMapPage_cases h hs v.isLt p.isLt flags.isLt with ⟨-, -, he⟩ | ⟨hor, -⟩
      · exact he
      · exact absurd hor (not_or.mpr ⟨hno.1, not_not_intro hno.2⟩)
    · rename_i hok
      exact h.mapPage hs v p flags hok
  · intro hs
    rcases pagingClonePd_cases h hs with ⟨hz, he⟩ | ⟨hz, hc⟩
    · dsimp only
      rw [if_pos hz, he]
      exact ⟨rfl, fun _ _ => rfl, rfl⟩
    · dsimp only
      rw [if_neg hz]
      have hdirs : ∀ d ∈ m.dirs, pageMap (pagingClonePd pmmAllocPage m.pmm m.paging).2.2 d
          = pageMap m.paging d := fun d hd => funext fun vpn => hc.lookup d hd vpn vpn.isLt
      refine ⟨?_, hdirs, funext fun vpn => hc.newLookup vpn vpn.isLt⟩
      rw [currentMap, hc.current]
      exact hdirs _ h.current

/-- **The two-level tables behave like a flat map.**  After `paging_init` the current directory
is the identity on the first GiB and empty above, and in every state a run reaches the calls of
the paging code act on it as map operations. -/
theorem paging_run_ok (img : Image) (mem : Mem) (pmmAllocPage : σ → Nat × σ) (k : σ)
    {m : Machine σ}
    (hrun : Relation.ReflTransGen (Step pmmAllocPage) ⟨k, pagingInit img mem, [img.kernelPd]⟩ m) :
    (∀ vpn, currentMap (pagingInit img mem) vpn =
      if vpn.val < 2 ^ 18 then some (vpn.val, pagePresent ||| pageWrite) else none) ∧
    MapOk pmmAllocPage m :=
  ⟨fun vpn => pagingInit_lookup img mem vpn.isLt, (run_inv hrun (pagingInit_inv img mem)).mapOk⟩

/-- A kernel image with its directory at 2 MiB and its tables behind it. -/
def smallImage : Image where
  kernelPd := 0x200000
  kernelPageTables := 0x201000
  pdAligned := by decide
  tablesAligned := by decide
  pdFits := by decide
  tablesFit := by decide
  apart := by decide

/-- The frame at 4 MiB is free to become a table of the first directory. -/
theorem smallImage_fresh (mem : Mem) :
    Fresh (pagingInit smallImage mem) [smallImage.kernelPd] 0x400000 := by
  refine ⟨by decide, by decide, ?_⟩
  intro hused
  rcases pagingInit_inUse smallImage mem hused with h | ⟨i, hi, h⟩
  · exact absurd h (by decide)
  · simp only [Image.table, smallImage] at h
    omega

/-- Mapping the first user page right after `paging_init`: its table is the frame at 4 MiB. -/
theorem paging_run_ok_user_page :
    MapOk (fun k : Nat => (k, k + 0x1000))
      ⟨(pagingMapPage (fun k : Nat => (k, k + 0x1000)) 0x400000
          (pagingInit smallImage fun _ => 0) 0x40000000 0x500000 7).1,
        (pagingMapPage (fun k : Nat => (k, k + 0x1000)) 0x400000
          (pagingInit smallImage fun _ => 0) 0x40000000 0x500000 7).2,
        [smallImage.kernelPd]⟩ :=
  (paging_run_ok smallImage (fun _ => 0) (fun k : Nat => (k, k + 0x1000)) 0x400000
    (.single (.map ⟨0x400000, pagingInit smallImage fun _ => 0, [smallImage.kernelPd]⟩
      0x40000000 0x500000 7 (Or.inr (smallImage_fresh _))))).2

end FlowOS.Paging
