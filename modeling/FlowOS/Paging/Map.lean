/-
# A page directory is a map

`lookup` reads a directory as a map from virtual pages to frames and flags.  This module proves
that the operations of `paging.c` are the map operations: update, erase, copy and read.  What
makes that true is a fact about sharing.  Clones share tables with the kernel directory, but a
table frame is never a directory, and it stands at one and the same index wherever it stands
(`Inv`); so a write to a table can be seen at one virtual page only.
-/
import FlowOS.Paging.Basic

namespace FlowOS.Paging

open Word Frames

/-! ## 1. Entries -/

theorem pdIndex_eq (v : Nat) : pdIndex v = v / 4096 / 1024 := by
  rw [pdIndex, Nat.shiftRight_eq_div_pow, Nat.div_div_eq_div_mul]

theorem ptIndex_eq (v : Nat) : ptIndex v = v / 4096 % 1024 := by
  rw [ptIndex, Nat.shiftRight_eq_div_pow]
  exact Nat.and_two_pow_sub_one_eq_mod _ 10

theorem and_present_eq_zero (e : Nat) : e &&& pagePresent = 0 ↔ ¬ Present e := by
  rw [pagePresent, Nat.and_one_is_mod, Present]
  omega

theorem and_mask_eq {e : Nat} (he : e < 2 ^ 32) : e &&& 0xFFFFF000 = frameOf e :=
  and_highMask (by decide : 12 ≤ 32) he

/-- An entry made of a frame and flags. -/
theorem entry_parts {f b : Nat} (hf : 4096 ∣ f) (hb : b < 4096) :
    (Present (f + b) ↔ b % 2 = 1) ∧ frameOf (f + b) = f ∧ (f + b) / 4096 = f / 4096 ∧
      (f + b) % 4096 = b := by
  unfold Present frameOf
  omega

theorem or_present_lt {flags : Nat} (h : flags < 0x1000) : flags ||| pagePresent < 4096 :=
  Nat.or_lt_two_pow (n := 12) h (by decide)

/-- The table entry `paging_map_page` writes. -/
theorem pte_eq {p flags : Nat} (hp : p < 2 ^ 32) (hflags : flags < 0x1000) :
    p &&& 0xFFFFF000 ||| flags ||| pagePresent = frameOf p + (flags ||| pagePresent) := by
  rw [and_mask_eq hp, Nat.or_assoc]
  exact or_of_aligned (k := 12) (frameOf_aligned p) (or_present_lt hflags)

theorem page_pte {p flags : Nat} (hp : p < 2 ^ 32) (hflags : flags < 0x1000) :
    page (p &&& 0xFFFFF000 ||| flags ||| pagePresent) = some (p / 4096, flags ||| pagePresent) := by
  obtain ⟨h1, h2, h3, h4⟩ := entry_parts (frameOf_aligned p) (or_present_lt hflags)
  have hodd : (flags ||| pagePresent) % 2 = 1 := or_one_mod_two flags
  rw [pte_eq hp hflags, page, if_pos (h1.mpr hodd), h3, h4, frameOf,
    Nat.mul_div_cancel _ (by decide)]

theorem pte_lt {p flags : Nat} (hp : p < 2 ^ 32) (hflags : flags < 0x1000) :
    p &&& 0xFFFFF000 ||| flags ||| pagePresent < 2 ^ 32 := by
  have := or_present_lt hflags
  rw [pte_eq hp hflags, frameOf]
  omega

/-- The directory entry `paging_map_page` writes. -/
theorem pde_eq {t : Nat} (ht : 4096 ∣ t) (flags : Nat) :
    ∃ b < 4096, b % 2 = 1 ∧ t ||| pagePresent ||| pageWrite ||| (flags &&& pageUser) = t + b := by
  have huser : flags &&& pageUser < 8 := lt_of_le_of_lt Nat.and_le_right (by decide)
  have hlow : 3 ||| (flags &&& pageUser) < 8 := Nat.or_lt_two_pow (n := 3) (by decide) huser
  refine ⟨3 ||| (flags &&& pageUser), by omega, ?_, ?_⟩
  · have h3 : (3 : Nat) ||| (flags &&& pageUser) = (2 ||| (flags &&& pageUser)) ||| 1 := by
      rw [Nat.or_right_comm]
      rfl
    rw [h3]
    exact or_one_mod_two _
  · rw [Nat.or_assoc, Nat.or_assoc, ← Nat.or_assoc pagePresent]
    exact or_of_aligned (k := 12) ht (by change 3 ||| (flags &&& pageUser) < 4096; omega)

/-! ## 2. The sharing invariant -/

/-- What holds of the directories in use, the kernel's and its clones. -/
structure Inv (pg : Paging) (dirs : List Nat) : Prop where
  kernel : pg.kernelPdPhys ∈ dirs
  current : pg.currentPdPhys ∈ dirs
  aligned : ∀ d ∈ dirs, 4096 ∣ d
  tables : ∀ d ∈ dirs, ∀ i < 1024, Present (word pg.mem d i) → frameOf (word pg.mem d i) ∉ dirs
  index : ∀ d ∈ dirs, ∀ d' ∈ dirs, ∀ i < 1024, ∀ j < 1024, Present (word pg.mem d i) →
    Present (word pg.mem d' j) → frameOf (word pg.mem d i) = frameOf (word pg.mem d' j) → i = j

/-- A frame that is a directory, or a table of one. -/
def InUse (pg : Paging) (dirs : List Nat) (f : Nat) : Prop :=
  f ∈ dirs ∨ ∃ d ∈ dirs, ∃ i < 1024, Present (word pg.mem d i) ∧ frameOf (word pg.mem d i) = f

/-- A frame the physical memory manager may supply for a new table or directory. -/
structure Fresh (pg : Paging) (dirs : List Nat) (f : Nat) : Prop where
  aligned : 4096 ∣ f
  fits : f < 2 ^ 32
  unused : ¬ InUse pg dirs f

variable {pg : Paging} {dirs : List Nat} {d : Nat}

/-- The invariant only reads the directories. -/
theorem Inv.congr (h : Inv pg dirs) {pg' : Paging} (hk : pg'.kernelPdPhys = pg.kernelPdPhys)
    (hc : pg'.currentPdPhys ∈ dirs)
    (hw : ∀ d ∈ dirs, ∀ i < 1024, word pg'.mem d i = word pg.mem d i) : Inv pg' dirs := by
  refine ⟨hk ▸ h.kernel, hc, h.aligned, ?_, ?_⟩
  · intro d hd i hi hp
    rw [hw d hd i hi] at hp ⊢
    exact h.tables d hd i hi hp
  · intro d hd d' hd' i hi j hj hp hp' he
    rw [hw d hd i hi] at hp he
    rw [hw d' hd' j hj] at hp' he
    exact h.index d hd d' hd' i hi j hj hp hp' he

/-- The directories and tables in use are the same in `pg'` as in `pg`. -/
structure SameTables (pg pg' : Paging) (dirs : List Nat) : Prop where
  kernel : pg'.kernelPdPhys = pg.kernelPdPhys
  current : pg'.currentPdPhys = pg.currentPdPhys
  word : ∀ f, InUse pg dirs f → ∀ i < 1024, Frames.word pg'.mem f i = Frames.word pg.mem f i

theorem SameTables.inv {pg' : Paging} (hsame : SameTables pg pg' dirs) (h : Inv pg dirs) :
    Inv pg' dirs :=
  h.congr hsame.kernel (hsame.current ▸ h.current) fun d hd => hsame.word d (Or.inl hd)

theorem SameTables.inUse {pg' : Paging} (hsame : SameTables pg pg' dirs) (f : Nat) :
    InUse pg' dirs f ↔ InUse pg dirs f := by
  refine or_congr Iff.rfl (exists_congr fun d => and_congr_right fun hd => ?_)
  refine exists_congr fun i => and_congr_right fun hi => ?_
  rw [hsame.word d (Or.inl hd) i hi]

theorem SameTables.lookup {pg' : Paging} (hsame : SameTables pg pg' dirs) (hd : d ∈ dirs)
    {vpn : Nat} (hvpn : vpn < 2 ^ 20) :
    Frames.lookup pg'.mem d vpn = Frames.lookup pg.mem d vpn := by
  have hi : vpn / 1024 < 1024 := by omega
  refine lookup_congr (hsame.word d (Or.inl hd) _ hi) fun hp => ?_
  exact hsame.word _ (Or.inr ⟨d, hd, _, hi, hp, rfl⟩) _ (Nat.mod_lt _ (by decide))

theorem InUse.aligned (h : Inv pg dirs) {f : Nat} (hf : InUse pg dirs f) : 4096 ∣ f := by
  rcases hf with hd | ⟨d, hd, i, hi, hp, rfl⟩
  · exact h.aligned f hd
  · exact frameOf_aligned _

/-- Storing a byte outside the directories and tables. -/
theorem sameTables_st8 (h : Inv pg dirs) {x : Nat} (b : UInt8)
    (hx : ¬ InUse pg dirs (frameOf x)) :
    SameTables pg { pg with mem := pg.mem.st8 x b } dirs :=
  ⟨rfl, rfl, fun _ hf _ hi => word_st8 (hf.aligned h) hi fun he => hx (he ▸ hf)⟩

/-- **A write to a table** is seen, through any directory, at the page it stands for in that
directory and nowhere else. -/
theorem lookup_setWord {m : Mem} {t k e : Nat} (hdirs : ∀ d ∈ dirs, 4096 ∣ d) (ht : 4096 ∣ t)
    (htd : t ∉ dirs) (hk : k < 1024) (he : e < 2 ^ 32) (hd : d ∈ dirs) {vpn : Nat}
    (hv : vpn < 2 ^ 20) :
    lookup (setWord m t k e) d vpn =
      if Present (word m d (vpn / 1024)) ∧ frameOf (word m d (vpn / 1024)) = t ∧ vpn % 1024 = k
      then page e else lookup m d vpn := by
  have hdt : d ≠ t := fun h => htd (h ▸ hd)
  have hdir : word (setWord m t k e) d (vpn / 1024) = word m d (vpn / 1024) :=
    word_setWord_frame ht (hdirs d hd) hdt hk (by omega)
  by_cases hhit : Present (word m d (vpn / 1024)) ∧ frameOf (word m d (vpn / 1024)) = t ∧
      vpn % 1024 = k
  · obtain ⟨hp, hft, hidx⟩ := hhit
    rw [if_pos ⟨hp, hft, hidx⟩, lookup, hdir, if_pos hp, hft, hidx, word_setWord_same he]
  · rw [if_neg hhit]
    refine lookup_congr hdir fun hp => ?_
    by_cases hft : frameOf (word m d (vpn / 1024)) = t
    · rw [hft]
      exact word_setWord_index fun hidx => hhit ⟨hp, hft, hidx⟩
    · exact word_setWord_frame ht (frameOf_aligned _) hft hk (Nat.mod_lt _ (by decide))

/-! ## 3. `paging_map_page` -/

theorem pdIndex_lt {v : Nat} (hv : v < 2 ^ 32) : pdIndex v < 1024 := by
  rw [pdIndex_eq]
  omega

theorem ptIndex_lt (v : Nat) : ptIndex v < 1024 := by
  rw [ptIndex_eq]
  exact Nat.mod_lt _ (by decide)

/-- Directory `d` has, at index `i`, the table the current directory has there. -/
def Shares (pg : Paging) (d i : Nat) : Prop :=
  Present (word pg.mem d i) ∧ frameOf (word pg.mem d i) = frameOf (word pg.mem pg.currentPdPhys i)

instance (pg : Paging) (d i : Nat) : Decidable (Shares pg d i) := instDecidableAnd

/-- A write to the table entry of `v` in the current directory changes the map of the
directories that share the table, at the page of `v`. -/
theorem lookup_setEntry (h : Inv pg dirs) {v e : Nat} (hv : v < 2 ^ 32) (he : e < 2 ^ 32)
    (hp : Present (word pg.mem pg.currentPdPhys (pdIndex v))) (hd : d ∈ dirs) {vpn : Nat}
    (hvpn : vpn < 2 ^ 20) :
    lookup (setWord pg.mem (frameOf (word pg.mem pg.currentPdPhys (pdIndex v))) (ptIndex v) e) d vpn
      = if vpn = v / 4096 ∧ Shares pg d (pdIndex v) then page e else lookup pg.mem d vpn := by
  rw [lookup_setWord h.aligned (frameOf_aligned _)
    (h.tables _ h.current _ (pdIndex_lt hv) hp) (ptIndex_lt v) he hd hvpn]
  refine if_congr ?_ rfl rfl
  constructor
  · rintro ⟨h1, h2, h3⟩
    -- the table stands at one index only
    have hi := h.index d hd _ h.current _ (by omega) _ (pdIndex_lt hv) h1 hp h2
    rw [pdIndex_eq] at hi
    rw [ptIndex_eq] at h3
    refine ⟨by omega, ?_⟩
    rw [pdIndex_eq, ← hi]
    rw [pdIndex_eq, ← hi] at h2
    exact ⟨h1, h2⟩
  · rintro ⟨rfl, h1, h2⟩
    rw [pdIndex_eq] at h1 h2
    rw [pdIndex_eq, ptIndex_eq]
    exact ⟨h1, h2, rfl⟩

/-- Writing to a table keeps the invariant. -/
theorem Inv.setTable (h : Inv pg dirs) {t k e : Nat} (ht : 4096 ∣ t) (htd : t ∉ dirs)
    (hk : k < 1024) : Inv { pg with mem := setWord pg.mem t k e } dirs := by
  refine h.congr rfl h.current ?_
  intro d hd i hi
  exact word_setWord_frame ht (h.aligned d hd) (fun hdt => htd (hdt ▸ hd)) hk hi

theorem shares_current {i : Nat} (hp : Present (word pg.mem pg.currentPdPhys i)) :
    Shares pg pg.currentPdPhys i := ⟨hp, rfl⟩

theorem mapInTable_eq (pg : Paging) (v p flags : Nat) : mapInTable pg v p flags =
    { pg with
      mem := setWord pg.mem (frameOf (word pg.mem pg.currentPdPhys (pdIndex v))) (ptIndex v)
        (p &&& 0xFFFFF000 ||| flags ||| pagePresent) } := by
  rw [mapInTable, and_mask_eq (word_lt _ _ _)]

theorem mapInTable_inv (h : Inv pg dirs) {v : Nat} (hv : v < 2 ^ 32)
    (hp : Present (word pg.mem pg.currentPdPhys (pdIndex v))) (p flags : Nat) :
    Inv (mapInTable pg v p flags) dirs := by
  rw [mapInTable_eq]
  exact h.setTable (frameOf_aligned _) (h.tables _ h.current _ (pdIndex_lt hv) hp) (ptIndex_lt v)

theorem mapInTable_lookup (h : Inv pg dirs) {v p flags : Nat} (hv : v < 2 ^ 32) (hp : p < 2 ^ 32)
    (hflags : flags < 0x1000) (hpres : Present (word pg.mem pg.currentPdPhys (pdIndex v)))
    (hd : d ∈ dirs) {vpn : Nat} (hvpn : vpn < 2 ^ 20) :
    lookup (mapInTable pg v p flags).mem d vpn =
      if vpn = v / 4096 ∧ Shares pg d (pdIndex v) then some (p / 4096, flags ||| pagePresent)
      else lookup pg.mem d vpn := by
  rw [mapInTable_eq, ← page_pte hp hflags]
  exact lookup_setEntry h hv (pte_lt hp hflags) hpres hd hvpn

/-- The words of all frames after `addTable`: the new frame is clear, the directory has its
entry, and nothing else has changed. -/
theorem word_addTable (h : Inv pg dirs) {t v : Nat} (ht : Fresh pg dirs t) (hv : v < 2 ^ 32)
    (flags : Nat) {f i : Nat} (hf : 4096 ∣ f) (hi : i < 1024) :
    word (addTable pg t v flags).mem f i =
      if f = t then 0
      else if f = pg.currentPdPhys ∧ i = pdIndex v then
        t ||| pagePresent ||| pageWrite ||| (flags &&& pageUser)
      else word pg.mem f i := by
  have hcur := h.aligned _ h.current
  have htc : t ≠ pg.currentPdPhys := fun he => ht.unused (Or.inl (he ▸ h.current))
  obtain ⟨b, hb, -, hpde⟩ := pde_eq ht.aligned flags
  have hlt : t ||| pagePresent ||| pageWrite ||| (flags &&& pageUser) < 2 ^ 32 := by
    have := ht.fits
    have := ht.aligned
    omega
  unfold addTable
  dsimp only
  by_cases hft : f = t
  · subst hft
    rw [if_pos rfl, word_setWord_frame hcur hf htc (pdIndex_lt hv) hi,
      word_fill (fun _ => by decide) hi]
  · rw [if_neg hft]
    by_cases hfc : f = pg.currentPdPhys
    · subst hfc
      by_cases hiv : i = pdIndex v
      · rw [if_pos ⟨rfl, hiv⟩, hiv, word_setWord_same hlt]
      · rw [if_neg fun hc => hiv hc.2, word_setWord_index hiv,
          word_fill_frame (Nat.le_refl _) ht.aligned hf hft hi]
    · rw [if_neg fun hc => hfc hc.1, word_setWord_frame hcur hf hfc (pdIndex_lt hv) hi,
        word_fill_frame (Nat.le_refl _) ht.aligned hf hft hi]

theorem Fresh.ne_table {t : Nat} (ht : Fresh pg dirs t) (hd : d ∈ dirs) {i : Nat} (hi : i < 1024)
    (hp : Present (word pg.mem d i)) : frameOf (word pg.mem d i) ≠ t :=
  fun he => ht.unused (Or.inr ⟨d, hd, i, hi, hp, he⟩)

theorem Fresh.not_mem {t : Nat} (ht : Fresh pg dirs t) : t ∉ dirs :=
  fun hmem => ht.unused (Or.inl hmem)

/-- The entries of the directories after `addTable`. -/
theorem dir_addTable (h : Inv pg dirs) {t v : Nat} (ht : Fresh pg dirs t) (hv : v < 2 ^ 32)
    (flags : Nat) (hd : d ∈ dirs) {i : Nat} (hi : i < 1024) :
    (d = pg.currentPdPhys ∧ i = pdIndex v ∧ Present (word (addTable pg t v flags).mem d i) ∧
      frameOf (word (addTable pg t v flags).mem d i) = t) ∨
    (¬ (d = pg.currentPdPhys ∧ i = pdIndex v) ∧
      word (addTable pg t v flags).mem d i = word pg.mem d i) := by
  have hdt : d ≠ t := fun he => ht.not_mem (he ▸ hd)
  rw [word_addTable h ht hv flags (h.aligned d hd) hi, if_neg hdt]
  by_cases hnew : d = pg.currentPdPhys ∧ i = pdIndex v
  · obtain ⟨b, hb, hodd, hpde⟩ := pde_eq ht.aligned flags
    obtain ⟨h1, h2, -, -⟩ := entry_parts ht.aligned hb
    rw [if_pos hnew, hpde]
    exact Or.inl ⟨hnew.1, hnew.2, h1.mpr hodd, h2⟩
  · rw [if_neg hnew]
    exact Or.inr ⟨hnew, rfl⟩

theorem addTable_present (h : Inv pg dirs) {t v : Nat} (ht : Fresh pg dirs t) (hv : v < 2 ^ 32)
    (flags : Nat) : Present (word (addTable pg t v flags).mem pg.currentPdPhys (pdIndex v)) := by
  rcases dir_addTable h ht hv flags h.current (pdIndex_lt hv) with ⟨-, -, hp, -⟩ | ⟨hn, -⟩
  · exact hp
  · exact absurd ⟨rfl, rfl⟩ hn

theorem addTable_inv (h : Inv pg dirs) {t v : Nat} (ht : Fresh pg dirs t) (hv : v < 2 ^ 32)
    (flags : Nat) : Inv (addTable pg t v flags) dirs := by
  refine ⟨h.kernel, h.current, h.aligned, ?_, ?_⟩
  · intro d hd i hi hp
    rcases dir_addTable h ht hv flags hd hi with ⟨-, -, -, hf⟩ | ⟨-, hw⟩
    · rw [hf]
      exact ht.not_mem
    · rw [hw] at hp ⊢
      exact h.tables d hd i hi hp
  · intro d hd d' hd' i hi j hj hp hp' he
    rcases dir_addTable h ht hv flags hd hi with ⟨-, hi', -, hf⟩ | ⟨-, hw⟩
    · rcases dir_addTable h ht hv flags hd' hj with ⟨-, hj', -, -⟩ | ⟨-, hw'⟩
      · exact hi'.trans hj'.symm
      · rw [hw'] at hp' he
        exact absurd (he.symm.trans hf) (ht.ne_table hd' hj hp')
    · rw [hw] at hp he
      rcases dir_addTable h ht hv flags hd' hj with ⟨-, -, -, hf'⟩ | ⟨-, hw'⟩
      · exact absurd (he.trans hf') (ht.ne_table hd hi hp)
      · rw [hw'] at hp' he
        exact h.index d hd d' hd' i hi j hj hp hp' he

/-- Adding an empty table changes no directory's map. -/
theorem addTable_lookup (h : Inv pg dirs) {t v : Nat} (ht : Fresh pg dirs t) (hv : v < 2 ^ 32)
    (flags : Nat) (habsent : ¬ Present (word pg.mem pg.currentPdPhys (pdIndex v))) (hd : d ∈ dirs)
    {vpn : Nat} (hvpn : vpn < 2 ^ 20) :
    lookup (addTable pg t v flags).mem d vpn = lookup pg.mem d vpn := by
  have hi : vpn / 1024 < 1024 := by omega
  have hj : vpn % 1024 < 1024 := Nat.mod_lt _ (by decide)
  rcases dir_addTable h ht hv flags hd hi with ⟨hdc, hiv, hp, hf⟩ | ⟨-, hw⟩
  · subst hdc
    rw [lookup, if_pos hp, hf, word_addTable h ht hv flags ht.aligned hj, if_pos rfl, lookup, hiv,
      if_neg habsent]
    rfl
  · refine lookup_congr hw fun hp => ?_
    have hdir : frameOf (word pg.mem d (vpn / 1024)) ≠ pg.currentPdPhys :=
      fun he => h.tables d hd _ hi hp (he ▸ h.current)
    rw [word_addTable h ht hv flags (frameOf_aligned _) hj, if_neg (ht.ne_table hd hi hp),
      if_neg fun hc => hdir hc.1]

/-- What `paging_map_page` has done when it had a table. -/
structure Mapped (pg : Paging) (dirs : List Nat) (v p flags : Nat) (pg' : Paging) : Prop where
  inv : Inv pg' dirs
  current : pg'.currentPdPhys = pg.currentPdPhys
  kernel : pg'.kernelPdPhys = pg.kernelPdPhys
  present : Present (word pg'.mem pg.currentPdPhys (pdIndex v))
  dir : ∀ d ∈ dirs, ∀ i < 1024, ¬ (d = pg.currentPdPhys ∧ i = pdIndex v ∧
    ¬ Present (word pg.mem d i)) → word pg'.mem d i = word pg.mem d i
  fresh : ¬ Present (word pg.mem pg.currentPdPhys (pdIndex v)) →
    ¬ InUse pg dirs (frameOf (word pg'.mem pg.currentPdPhys (pdIndex v)))
  lookup : ∀ d ∈ dirs, ∀ vpn < 2 ^ 20, Frames.lookup pg'.mem d vpn =
    if vpn = v / 4096 ∧ Shares pg' d (pdIndex v) then some (p / 4096, flags ||| pagePresent)
    else Frames.lookup pg.mem d vpn

/-- The directories are as before `mapInTable`. -/
theorem dir_mapInTable (h : Inv pg dirs) {v : Nat} (hv : v < 2 ^ 32)
    (hp : Present (word pg.mem pg.currentPdPhys (pdIndex v))) (p flags : Nat) (hd : d ∈ dirs)
    {i : Nat} (hi : i < 1024) : word (mapInTable pg v p flags).mem d i = word pg.mem d i := by
  have htable := h.tables _ h.current _ (pdIndex_lt hv) hp
  rw [mapInTable_eq]
  exact word_setWord_frame (frameOf_aligned _) (h.aligned d hd) (fun he => htable (he ▸ hd))
    (ptIndex_lt v) hi

theorem mapInTable_mapped (h : Inv pg dirs) {v p flags : Nat} (hv : v < 2 ^ 32) (hp : p < 2 ^ 32)
    (hflags : flags < 0x1000) (hpres : Present (word pg.mem pg.currentPdPhys (pdIndex v))) :
    Mapped pg dirs v p flags (mapInTable pg v p flags) where
  inv := mapInTable_inv h hv hpres p flags
  current := rfl
  kernel := rfl
  present := by
    rw [dir_mapInTable h hv hpres p flags h.current (pdIndex_lt hv)]
    exact hpres
  dir := fun d hd i hi _ => dir_mapInTable h hv hpres p flags hd hi
  fresh := fun habsent => absurd hpres habsent
  lookup := by
    intro d hd vpn hvpn
    have hshare : Shares (mapInTable pg v p flags) d (pdIndex v) ↔ Shares pg d (pdIndex v) := by
      unfold Shares
      rw [dir_mapInTable h hv hpres p flags hd (pdIndex_lt hv),
        show (mapInTable pg v p flags).currentPdPhys = pg.currentPdPhys from rfl,
        dir_mapInTable h hv hpres p flags h.current (pdIndex_lt hv)]
    rw [mapInTable_lookup h hv hp hflags hpres hd hvpn]
    exact if_congr (and_congr_right fun _ => hshare.symm) rfl rfl

/-- `addTable` followed by `mapInTable`. -/
theorem addTable_mapped (h : Inv pg dirs) {t v p flags : Nat} (ht : Fresh pg dirs t)
    (hv : v < 2 ^ 32) (hp : p < 2 ^ 32) (hflags : flags < 0x1000)
    (habsent : ¬ Present (word pg.mem pg.currentPdPhys (pdIndex v))) :
    Mapped pg dirs v p flags (mapInTable (addTable pg t v flags) v p flags) := by
  have hinv := addTable_inv h ht hv flags
  have hpres := addTable_present h ht hv flags
  have hm := mapInTable_mapped hinv hv hp hflags hpres
  refine ⟨hm.inv, hm.current, hm.kernel, hm.present, ?_, ?_, ?_⟩
  · intro d hd i hi hn
    rw [dir_mapInTable hinv hv hpres p flags hd hi]
    rcases dir_addTable h ht hv flags hd hi with ⟨hdc, hiv, -, -⟩ | ⟨-, hw⟩
    · subst hdc hiv
      exact absurd ⟨rfl, rfl, habsent⟩ hn
    · exact hw
  · intro _
    rw [dir_mapInTable hinv hv hpres p flags h.current (pdIndex_lt hv)]
    rcases dir_addTable h ht hv flags h.current (pdIndex_lt hv) with ⟨-, -, -, hf⟩ | ⟨hn, -⟩
    · rw [hf]
      exact ht.unused
    · exact absurd ⟨rfl, rfl⟩ hn
  · intro d hd vpn hvpn
    rw [hm.lookup d hd vpn hvpn, addTable_lookup h ht hv flags habsent hd hvpn]

/-- The PMM has no frame to give, or one that is not in use. -/
def Supplies {σ : Type} (pmmAllocPage : σ → Nat × σ) (k : σ) (pg : Paging) (dirs : List Nat) :
    Prop :=
  (pmmAllocPage k).1 = 0 ∨ Fresh pg dirs (pmmAllocPage k).1

section MapPage

variable {σ : Type} {pmmAllocPage : σ → Nat × σ} {k : σ} {v p flags : Nat}

/-- The table is there. -/
theorem pagingMapPage_present (hp : Present (word pg.mem pg.currentPdPhys (pdIndex v))) :
    pagingMapPage pmmAllocPage k pg v p flags = (k, mapInTable pg v p flags) :=
  if_neg fun h0 => (and_present_eq_zero _).mp h0 hp

/-- There is neither a table nor a frame for one. -/
theorem pagingMapPage_noFrame (hp : ¬ Present (word pg.mem pg.currentPdPhys (pdIndex v)))
    (hz : (pmmAllocPage k).1 = 0) :
    pagingMapPage pmmAllocPage k pg v p flags = ((pmmAllocPage k).2, pg) :=
  (if_pos ((and_present_eq_zero _).mpr hp)).trans (if_pos hz)

/-- A new table is added. -/
theorem pagingMapPage_newTable (hp : ¬ Present (word pg.mem pg.currentPdPhys (pdIndex v)))
    (hz : (pmmAllocPage k).1 ≠ 0) :
    pagingMapPage pmmAllocPage k pg v p flags = ((pmmAllocPage k).2,
      mapInTable (addTable pg (pmmAllocPage k).1 v flags) v p flags) :=
  (if_pos ((and_present_eq_zero _).mpr hp)).trans (if_neg hz)

/-- The three ways through `paging_map_page`. -/
theorem pagingMapPage_eq (pmmAllocPage : σ → Nat × σ) (k : σ) (pg : Paging) (v p flags : Nat) :
    (Present (word pg.mem pg.currentPdPhys (pdIndex v)) ∧
      pagingMapPage pmmAllocPage k pg v p flags = (k, mapInTable pg v p flags)) ∨
    (¬ Present (word pg.mem pg.currentPdPhys (pdIndex v)) ∧ (pmmAllocPage k).1 = 0 ∧
      pagingMapPage pmmAllocPage k pg v p flags = ((pmmAllocPage k).2, pg)) ∨
    (¬ Present (word pg.mem pg.currentPdPhys (pdIndex v)) ∧ (pmmAllocPage k).1 ≠ 0 ∧
      pagingMapPage pmmAllocPage k pg v p flags = ((pmmAllocPage k).2,
        mapInTable (addTable pg (pmmAllocPage k).1 v flags) v p flags)) := by
  by_cases hp : Present (word pg.mem pg.currentPdPhys (pdIndex v))
  · exact Or.inl ⟨hp, pagingMapPage_present hp⟩
  · by_cases hz : (pmmAllocPage k).1 = 0
    · exact Or.inr (Or.inl ⟨hp, hz, pagingMapPage_noFrame hp hz⟩)
    · exact Or.inr (Or.inr ⟨hp, hz, pagingMapPage_newTable hp hz⟩)

end MapPage

/-- **`paging_map_page` gives up without a trace, or maps the page.** -/
theorem pagingMapPage_cases {σ : Type} {pmmAllocPage : σ → Nat × σ} {k : σ} (h : Inv pg dirs)
    (hs : Supplies pmmAllocPage k pg dirs) {v p flags : Nat} (hv : v < 2 ^ 32) (hp : p < 2 ^ 32)
    (hflags : flags < 0x1000) :
    (¬ Present (word pg.mem pg.currentPdPhys (pdIndex v)) ∧ (pmmAllocPage k).1 = 0 ∧
      (pagingMapPage pmmAllocPage k pg v p flags).2 = pg) ∨
    ((Present (word pg.mem pg.currentPdPhys (pdIndex v)) ∨ (pmmAllocPage k).1 ≠ 0) ∧
      Mapped pg dirs v p flags (pagingMapPage pmmAllocPage k pg v p flags).2) := by
  rcases pagingMapPage_eq pmmAllocPage k pg v p flags with
    ⟨hpres, he⟩ | ⟨hpres, hz, he⟩ | ⟨hpres, hz, he⟩
  · rw [he]
    exact Or.inr ⟨Or.inl hpres, mapInTable_mapped h hv hp hflags hpres⟩
  · rw [he]
    exact Or.inl ⟨hpres, hz, rfl⟩
  · rw [he]
    exact Or.inr ⟨Or.inr hz, addTable_mapped h (hs.resolve_left hz) hv hp hflags hpres⟩

/-- `mapInTable` writes to a table in use, and puts no new frame to use. -/
theorem mapInTable_footprint (h : Inv pg dirs) {v : Nat} (hv : v < 2 ^ 32)
    (hp : Present (word pg.mem pg.currentPdPhys (pdIndex v))) (p flags : Nat) :
    (∀ g, InUse (mapInTable pg v p flags) dirs g → InUse pg dirs g) ∧
    ∀ x, ¬ InUse pg dirs (frameOf x) → (mapInTable pg v p flags).mem x = pg.mem x := by
  constructor
  · rintro g (hg | ⟨d, hd, i, hi, hpres, rfl⟩)
    · exact Or.inl hg
    · rw [dir_mapInTable h hv hp p flags hd hi] at hpres ⊢
      exact Or.inr ⟨d, hd, i, hi, hpres, rfl⟩
  · intro x hx
    rw [mapInTable_eq]
    exact setWord_outside (frameOf_aligned _) (ptIndex_lt v)
      fun he => hx (Or.inr ⟨_, h.current, _, pdIndex_lt hv, hp, he.symm⟩)

/-- `addTable` writes to its frame and to the current directory, and puts that frame to use. -/
theorem addTable_footprint (h : Inv pg dirs) {t v : Nat} (ht : Fresh pg dirs t) (hv : v < 2 ^ 32)
    (flags : Nat) :
    (∀ g, InUse (addTable pg t v flags) dirs g → InUse pg dirs g ∨ g = t) ∧
    ∀ x, ¬ InUse pg dirs (frameOf x) → frameOf x ≠ t →
      (addTable pg t v flags).mem x = pg.mem x := by
  constructor
  · rintro g (hg | ⟨d, hd, i, hi, hpres, rfl⟩)
    · exact Or.inl (Or.inl hg)
    · rcases dir_addTable h ht hv flags hd hi with ⟨-, -, -, hf⟩ | ⟨-, hw⟩
      · exact Or.inr hf
      · rw [hw] at hpres ⊢
        exact Or.inl (Or.inr ⟨d, hd, i, hi, hpres, rfl⟩)
  · intro x hx hxt
    have hcur : frameOf x ≠ pg.currentPdPhys := fun he => hx (Or.inl (he ▸ h.current))
    unfold addTable
    dsimp only
    rw [setWord_outside (h.aligned _ h.current) (pdIndex_lt hv) hcur,
      fill_outside (Nat.le_refl _) ht.aligned hxt]

/-- **The footprint of `paging_map_page`.**  It writes to directories and tables in use and to
the frame it takes, and takes that frame, if any, as a table. -/
theorem pagingMapPage_footprint {σ : Type} {pmmAllocPage : σ → Nat × σ} {k : σ} (h : Inv pg dirs)
    (hs : Supplies pmmAllocPage k pg dirs) {v : Nat} (hv : v < 2 ^ 32) (p flags : Nat) :
    let r := pagingMapPage pmmAllocPage k pg v p flags
    (∀ g, InUse r.2 dirs g → InUse pg dirs g ∨
      (g = (pmmAllocPage k).1 ∧ g ≠ 0 ∧ r.1 = (pmmAllocPage k).2)) ∧
    (∀ x, ¬ InUse pg dirs (frameOf x) →
      (r.1 = (pmmAllocPage k).2 → frameOf x = (pmmAllocPage k).1 → frameOf x = 0) →
      r.2.mem x = pg.mem x) ∧
    (r.1 = k ∨ r.1 = (pmmAllocPage k).2) := by
  rcases pagingMapPage_eq pmmAllocPage k pg v p flags with
    ⟨hpres, he⟩ | ⟨hpres, hz, he⟩ | ⟨hpres, hz, he⟩ <;> rw [he] <;> dsimp only
  · obtain ⟨huse, hmem⟩ := mapInTable_footprint h hv hpres p flags
    exact ⟨fun g hg => Or.inl (huse g hg), fun x hx _ => hmem x hx, Or.inl rfl⟩
  · exact ⟨fun g hg => Or.inl hg, fun _ _ _ => rfl, Or.inr rfl⟩
  · have ht := hs.resolve_left hz
    obtain ⟨huse, hmem⟩ := addTable_footprint h ht hv flags
    have hpres' := addTable_present h ht hv flags
    obtain ⟨huse', hmem'⟩ := mapInTable_footprint (addTable_inv h ht hv flags) hv hpres' p flags
    refine ⟨?_, ?_, Or.inr rfl⟩
    · intro g hg
      rcases huse g (huse' g hg) with hg | rfl
      · exact Or.inl hg
      · exact Or.inr ⟨rfl, hz, rfl⟩
    · intro x hx hxt
      have hne : frameOf x ≠ (pmmAllocPage k).1 := fun he => hz (he ▸ hxt rfl he)
      rw [hmem' x fun hu => ?_, hmem x hx hne]
      rcases huse _ hu with hu | hu
      · exact hx hu
      · exact hne hu

/-! ## 4. `paging_unmap_page` and `paging_get_physical` -/

/-- **`paging_unmap_page`** erases the page of `v` in the directories that share its table. -/
theorem pagingUnmapPage_spec (h : Inv pg dirs) {v : Nat} (hv : v < 2 ^ 32) :
    Inv (pagingUnmapPage pg v) dirs ∧ ∀ d ∈ dirs, ∀ vpn < 2 ^ 20,
      lookup (pagingUnmapPage pg v).mem d vpn =
        if vpn = v / 4096 ∧ Present (word pg.mem pg.currentPdPhys (pdIndex v)) ∧
          Shares pg d (pdIndex v) then none else lookup pg.mem d vpn := by
  unfold pagingUnmapPage
  simp only [and_present_eq_zero, and_mask_eq (word_lt _ _ _)]
  by_cases hpres : Present (word pg.mem pg.currentPdPhys (pdIndex v))
  · rw [if_neg (not_not_intro hpres)]
    refine ⟨h.setTable (frameOf_aligned _) (h.tables _ h.current _ (pdIndex_lt hv) hpres)
      (ptIndex_lt v), ?_⟩
    intro d hd vpn hvpn
    rw [lookup_setEntry h hv (by decide) hpres hd hvpn]
    exact if_congr (and_congr_right fun _ => (and_iff_right hpres).symm) rfl rfl
  · rw [if_pos hpres]
    refine ⟨h, ?_⟩
    intro d hd vpn hvpn
    rw [if_neg fun hc => hpres hc.2.1]

/-- `paging_unmap_page` leaves the directories alone. -/
theorem pagingUnmapPage_dir (h : Inv pg dirs) {v : Nat} (hv : v < 2 ^ 32) :
    (pagingUnmapPage pg v).currentPdPhys = pg.currentPdPhys ∧
    (pagingUnmapPage pg v).kernelPdPhys = pg.kernelPdPhys ∧
    ∀ d ∈ dirs, ∀ i < 1024, word (pagingUnmapPage pg v).mem d i = word pg.mem d i := by
  unfold pagingUnmapPage
  simp only [and_present_eq_zero, and_mask_eq (word_lt _ _ _)]
  by_cases hpres : Present (word pg.mem pg.currentPdPhys (pdIndex v))
  · rw [if_neg (not_not_intro hpres)]
    have htable := h.tables _ h.current _ (pdIndex_lt hv) hpres
    refine ⟨rfl, rfl, fun d hd i hi => ?_⟩
    exact word_setWord_frame (frameOf_aligned _) (h.aligned d hd) (fun he => htable (he ▸ hd))
      (ptIndex_lt v) hi
  · rw [if_pos hpres]
    exact ⟨rfl, rfl, fun _ _ _ _ => rfl⟩

/-- **`paging_get_physical`** reads the map. -/
theorem pagingGetPhysical_eq (pg : Paging) (v : Nat) :
    pagingGetPhysical pg v = match lookup pg.mem pg.currentPdPhys (v / 4096) with
      | some (f, _) => f * 4096 + v % 4096
      | none => 0 := by
  have hoff : v &&& 0xFFF = v % 4096 := Nat.and_two_pow_sub_one_eq_mod _ 12
  unfold pagingGetPhysical lookup page
  simp only [and_present_eq_zero, and_mask_eq (word_lt _ _ _), pdIndex_eq, ptIndex_eq, hoff]
  by_cases hpde : Present (word pg.mem pg.currentPdPhys (v / 4096 / 1024))
  · rw [if_neg (not_not_intro hpde), if_pos hpde]
    by_cases hpte : Present (word pg.mem (frameOf (word pg.mem pg.currentPdPhys
        (v / 4096 / 1024))) (v / 4096 % 1024))
    · rw [if_neg (not_not_intro hpte), if_pos hpte, add32_of_lt]
      · rfl
      · have := word_lt pg.mem (frameOf (word pg.mem pg.currentPdPhys (v / 4096 / 1024)))
          (v / 4096 % 1024)
        unfold frameOf at *
        omega
    · rw [if_pos hpte, if_neg hpte]
  · rw [if_pos hpde, if_neg hpde]

/-! ## 5. `paging_clone_pd` and `paging_switch` -/

theorem Inv.switch (h : Inv pg dirs) (hd : d ∈ dirs) : Inv (pagingSwitch pg d) dirs :=
  h.congr rfl hd fun _ _ _ _ => rfl

/-- The words of a clone are those of the kernel directory, and no other frame has changed. -/
theorem word_clone (h : Inv pg dirs) {f : Nat} (hf : Fresh pg dirs f) {g i : Nat} (hg : 4096 ∣ g)
    (hi : i < 1024) : word (copy pg.mem f pg.kernelPdPhys 1024) g i =
      if g = f then word pg.mem pg.kernelPdPhys i else word pg.mem g i := by
  split
  · rename_i hgf
    subst hgf
    exact word_copy (Nat.le_refl _) hg (h.aligned _ h.kernel)
      (fun he => hf.not_mem (he ▸ h.kernel)) hi
  · rename_i hgf
    exact word_copy_frame (Nat.le_refl _) hf.aligned hg hgf hi

/-- What `paging_clone_pd` has done when it had the frame `f`. -/
structure Cloned (pg : Paging) (dirs : List Nat) (f : Nat) (pg' : Paging) : Prop where
  inv : Inv pg' (f :: dirs)
  current : pg'.currentPdPhys = pg.currentPdPhys
  kernel : pg'.kernelPdPhys = pg.kernelPdPhys
  newDir : ∀ i < 1024, word pg'.mem f i = word pg.mem pg.kernelPdPhys i
  dir : ∀ d ∈ dirs, ∀ i < 1024, word pg'.mem d i = word pg.mem d i
  newLookup : ∀ vpn < 2 ^ 20, Frames.lookup pg'.mem f vpn = Frames.lookup pg.mem pg.kernelPdPhys vpn
  lookup : ∀ d ∈ dirs, ∀ vpn < 2 ^ 20, Frames.lookup pg'.mem d vpn = Frames.lookup pg.mem d vpn

theorem clone_cloned (h : Inv pg dirs) {f : Nat} (hf : Fresh pg dirs f) :
    Cloned pg dirs f { pg with mem := copy pg.mem f pg.kernelPdPhys 1024 } := by
  have hnew : ∀ i < 1024, word (copy pg.mem f pg.kernelPdPhys 1024) f i
      = word pg.mem pg.kernelPdPhys i := by
    intro i hi
    rw [word_clone h hf hf.aligned hi, if_pos rfl]
  have hold : ∀ d ∈ dirs, ∀ i < 1024, word (copy pg.mem f pg.kernelPdPhys 1024) d i
      = word pg.mem d i := by
    intro d hd i hi
    have hne : d ≠ f := fun he => hf.not_mem (he ▸ hd)
    rw [word_clone h hf (h.aligned d hd) hi, if_neg hne]
  -- every entry of a directory, the new one included, is an entry of an old directory
  have hentry : ∀ d ∈ f :: dirs, ∃ d₀ ∈ dirs, ∀ i < 1024,
      word (copy pg.mem f pg.kernelPdPhys 1024) d i = word pg.mem d₀ i := by
    intro d hd
    rcases List.mem_cons.mp hd with rfl | hd
    · exact ⟨_, h.kernel, hnew⟩
    · exact ⟨d, hd, hold d hd⟩
  have htable : ∀ d ∈ dirs, ∀ vpn < 2 ^ 20, Present (word pg.mem d (vpn / 1024)) →
      word (copy pg.mem f pg.kernelPdPhys 1024) (frameOf (word pg.mem d (vpn / 1024))) (vpn % 1024)
        = word pg.mem (frameOf (word pg.mem d (vpn / 1024))) (vpn % 1024) := by
    intro d hd vpn hvpn hp
    rw [word_clone h hf (frameOf_aligned _) (Nat.mod_lt _ (by decide)),
      if_neg (hf.ne_table hd (by omega) hp)]
  refine ⟨⟨?_, ?_, ?_, ?_, ?_⟩, rfl, rfl, hnew, hold, ?_, ?_⟩
  · exact List.mem_cons_of_mem _ h.kernel
  · exact List.mem_cons_of_mem _ h.current
  · exact List.forall_mem_cons.mpr ⟨hf.aligned, h.aligned⟩
  · intro d hd i hi hp
    obtain ⟨d₀, hd₀, hw⟩ := hentry d hd
    rw [hw i hi] at hp ⊢
    exact List.not_mem_cons_of_ne_of_not_mem (hf.ne_table hd₀ hi hp) (h.tables d₀ hd₀ i hi hp)
  · intro d hd d' hd' i hi j hj hp hp' he
    obtain ⟨d₀, hd₀, hw⟩ := hentry d hd
    obtain ⟨d₁, hd₁, hw'⟩ := hentry d' hd'
    rw [hw i hi] at hp he
    rw [hw' j hj] at hp' he
    exact h.index d₀ hd₀ d₁ hd₁ i hi j hj hp hp' he
  · intro vpn hvpn
    exact lookup_congr (hnew _ (by omega)) (htable _ h.kernel vpn hvpn)
  · intro d hd vpn hvpn
    exact lookup_congr (hold d hd _ (by omega)) (htable d hd vpn hvpn)

/-- The tables and directories after a clone: the new directory shares its tables. -/
theorem Cloned.inUse {pg' : Paging} {f g : Nat} (h : Inv pg dirs) (hc : Cloned pg dirs f pg')
    (hg : InUse pg' (f :: dirs) g) : InUse pg dirs g ∨ g = f := by
  rcases hg with hg | ⟨d, hd, i, hi, hp, rfl⟩
  · rcases List.mem_cons.mp hg with rfl | hg
    · exact Or.inr rfl
    · exact Or.inl (Or.inl hg)
  · rcases List.mem_cons.mp hd with rfl | hd
    · rw [hc.newDir i hi] at hp ⊢
      exact Or.inl (Or.inr ⟨_, h.kernel, i, hi, hp, rfl⟩)
    · rw [hc.dir d hd i hi] at hp ⊢
      exact Or.inl (Or.inr ⟨d, hd, i, hi, hp, rfl⟩)

/-- **`paging_clone_pd` gives up, or copies the kernel's map.** -/
theorem pagingClonePd_cases {σ : Type} {pmmAllocPage : σ → Nat × σ} {k : σ} (h : Inv pg dirs)
    (hs : Supplies pmmAllocPage k pg dirs) :
    ((pagingClonePd pmmAllocPage k pg).1 = 0 ∧ (pagingClonePd pmmAllocPage k pg).2.2 = pg) ∨
    ((pagingClonePd pmmAllocPage k pg).1 ≠ 0 ∧
      Cloned pg dirs (pagingClonePd pmmAllocPage k pg).1
        (pagingClonePd pmmAllocPage k pg).2.2) := by
  unfold pagingClonePd
  by_cases hz : (pmmAllocPage k).1 = 0
  · exact Or.inl (by simp only [if_pos hz, and_self])
  · simp only [if_neg hz]
    exact Or.inr ⟨hz, clone_cloned h (hs.resolve_left hz)⟩

end FlowOS.Paging
