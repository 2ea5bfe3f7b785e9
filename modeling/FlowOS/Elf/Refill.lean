/-
# The loader does not look at free frames

Whether `elf_exec` gets through, and which frame ends up behind which page, does not depend on
what the free frames contain.  The module compares a run with the run from a state that differs
in one byte of a free frame (`poke`): the two go the same way, and the states they reach differ
in that byte at most (`Differs`).
-/
import FlowOS.Elf.Load

namespace FlowOS.Elf

open Word Frames Paging

variable {σ : Type} {Held : σ → Nat → Prop} {dirs : List Nat} {env : ElfEnv σ}

/-- The paging state with another byte at physical address `x`. -/
def pokePaging (pg : Paging) (x : Nat) (c : UInt8) : Paging :=
  { pg with mem := pg.mem.st8 x c }

/-- The state with another byte at physical address `x`. -/
def poke (s : Sys σ) (x : Nat) (c : UInt8) : Sys σ :=
  { s with paging := pokePaging s.paging x c }

/-- `t` is `s`, or it differs from it in a byte outside the directories and tables. -/
def Differs (dirs : List Nat) (x : Nat) (c : UInt8) (s t : Sys σ) : Prop :=
  t = s ∨ (¬ InUse s.paging dirs (frameOf x) ∧ t = poke s x c)

variable {s₀ s s' t : Sys σ} {x : Nat} {c : UInt8}

/-! ## 1. `paging_map_page` -/

theorem sameTables_poke {pg : Paging} (h : Inv pg dirs) (hx : ¬ InUse pg dirs (frameOf x)) :
    SameTables pg (pokePaging pg x c) dirs :=
  sameTables_st8 h c hx

theorem mapInTable_poke {pg : Paging} (h : Inv pg dirs) (hx : ¬ InUse pg dirs (frameOf x))
    {v : Nat} (hv : v < 2 ^ 32) (hp : Present (word pg.mem pg.currentPdPhys (pdIndex v)))
    (p flags : Nat) :
    mapInTable (pokePaging pg x c) v p flags = pokePaging (mapInTable pg v p flags) x c := by
  have htable : InUse pg dirs (frameOf (word pg.mem pg.currentPdPhys (pdIndex v))) :=
    Or.inr ⟨_, h.current, _, pdIndex_lt hv, hp, rfl⟩
  have hne : frameOf x ≠ frameOf (word pg.mem pg.currentPdPhys (pdIndex v)) :=
    fun he => hx (by rw [he]; exact htable)
  have hword := (sameTables_poke (c := c) h hx).word _ (Or.inl h.current) _ (pdIndex_lt hv)
  rw [mapInTable_eq, mapInTable_eq, show (pokePaging pg x c).currentPdPhys = pg.currentPdPhys from
    rfl, hword]
  unfold pokePaging
  dsimp only
  rw [setWord_st8 (frameOf_aligned _) (ptIndex_lt v) hne]

theorem addTable_poke {pg : Paging} (h : Inv pg dirs) (hx : ¬ InUse pg dirs (frameOf x))
    {t v : Nat} (ht : 4096 ∣ t) (hv : v < 2 ^ 32) (flags : Nat) :
    addTable (pokePaging pg x c) t v flags =
      if frameOf x = t then addTable pg t v flags else pokePaging (addTable pg t v flags) x c := by
  have hcur : frameOf x ≠ pg.currentPdPhys := fun he => hx (Or.inl (he ▸ h.current))
  unfold addTable pokePaging
  dsimp only
  split
  · rename_i hxt
    rw [fill_st8_same ht hxt]
  · rename_i hxt
    rw [fill_st8 (Nat.le_refl _) ht hxt, setWord_st8 (h.aligned _ h.current) (pdIndex_lt hv) hcur]

/-- **`paging_map_page` from states that differ in a byte.** -/
theorem pagingMapPage_poke {pg : Paging} {k : σ} (h : Inv pg dirs)
    (hs : Supplies env.pmmAllocPage k pg dirs) (hx : ¬ InUse pg dirs (frameOf x)) {v : Nat}
    (hv : v < 2 ^ 32) (p flags : Nat) :
    Differs dirs x c
      ⟨(pagingMapPage env.pmmAllocPage k pg v p flags).1,
        (pagingMapPage env.pmmAllocPage k pg v p flags).2⟩
      ⟨(pagingMapPage env.pmmAllocPage k (pokePaging pg x c) v p flags).1,
        (pagingMapPage env.pmmAllocPage k (pokePaging pg x c) v p flags).2⟩ := by
  have hword : word (pokePaging pg x c).mem (pokePaging pg x c).currentPdPhys (pdIndex v) =
      word pg.mem pg.currentPdPhys (pdIndex v) :=
    (sameTables_poke h hx).word _ (Or.inl h.current) _ (pdIndex_lt hv)
  by_cases hp : Present (word pg.mem pg.currentPdPhys (pdIndex v))
  · have hp' := hp
    rw [← hword] at hp'
    rw [pagingMapPage_present hp, pagingMapPage_present hp', mapInTable_poke h hx hv hp]
    exact Or.inr ⟨fun hu => hx ((mapInTable_footprint h hv hp p flags).1 _ hu), rfl⟩
  · have hp' := hp
    rw [← hword] at hp'
    by_cases hz : (env.pmmAllocPage k).1 = 0
    · rw [pagingMapPage_noFrame hp hz, pagingMapPage_noFrame hp' hz]
      exact Or.inr ⟨hx, rfl⟩
    · have ht := hs.resolve_left hz
      have hinv := addTable_inv h ht hv flags
      have hpres := addTable_present h ht hv flags
      rw [pagingMapPage_newTable hp hz, pagingMapPage_newTable hp' hz,
        addTable_poke h hx ht.aligned hv]
      by_cases hxt : frameOf x = (env.pmmAllocPage k).1
      · -- the frame has become a table, and the byte has been cleared
        rw [if_pos hxt]
        exact Or.inl rfl
      · have hx' : ¬ InUse (addTable pg (env.pmmAllocPage k).1 v flags) dirs (frameOf x) :=
          fun hu => ((addTable_footprint h ht hv flags).1 _ hu).elim hx hxt
        rw [if_neg hxt, mapInTable_poke hinv hx' hv hpres]
        exact Or.inr ⟨fun hu => hx' ((mapInTable_footprint hinv hv hpres p flags).1 _ hu), rfl⟩

/-! ## 2. The steps of the loader -/

open Prog (Follows)

theorem follows_onRest {α : Type} (f : σ → α × σ) : Follows (Differs dirs x c) (onRest f) s := by
  rintro t (rfl | ⟨hx, rfl⟩) a s' h
  · exact ⟨s', h, Or.inl rfl⟩
  · cases h
    exact ⟨_, rfl, Or.inr ⟨hx, rfl⟩⟩

theorem follows_kfree (ptr : Nat) : Follows (Differs dirs x c) (env.calls.kfree ptr) s :=
  follows_onRest fun k => ((), env.kfree ptr k)

theorem follows_vfsRead (file : List UInt8) (outcome offset size : Nat) :
    Follows (Differs dirs x c) (vfsRead env file outcome offset size) s :=
  Follows.bind (follows_onRest fun k => ((), env.vfsWork offset size k)) fun _ _ _ =>
    Prog.follows_pure _

/-- Backing a page, from states that differ in a byte. -/
theorem Good.back_differs (hown : Owns env Held) (h : Good Held dirs s₀ s) {v : Nat}
    (hv : v < 2 ^ 32) (flags : Nat) (hx : ¬ InUse s.paging dirs (frameOf x)) :
    Differs dirs x c
      ⟨(pagingMapPage env.pmmAllocPage (env.pmmAllocPage s.rest).2 s.paging v
          (env.pmmAllocPage s.rest).1 flags).1,
        (pagingMapPage env.pmmAllocPage (env.pmmAllocPage s.rest).2 s.paging v
          (env.pmmAllocPage s.rest).1 flags).2⟩
      ⟨(pagingMapPage env.pmmAllocPage (env.pmmAllocPage s.rest).2 (pokePaging s.paging x c) v
          (env.pmmAllocPage s.rest).1 flags).1,
        (pagingMapPage env.pmmAllocPage (env.pmmAllocPage s.rest).2 (pokePaging s.paging x c) v
          (env.pmmAllocPage s.rest).1 flags).2⟩ :=
  pagingMapPage_poke h.inv
    (hown.supplies fun f hu => hown.allocKeeps s.rest f (h.tables f hu)) hx hv _ flags

theorem backPage_follows (hown : Owns env Held) (h : Good Held dirs s₀ s) {v : UInt32}
    {flags : Nat} {fail : Load σ Unit} (hfail : ∀ s s', fail s ≠ .ok () s') :
    Follows (Differs dirs x c) (backPage env v flags fail) s := by
  rintro t (rfl | ⟨hx, rfl⟩) ⟨⟩ s' hrun
  · exact ⟨s', hrun, Or.inl rfl⟩
  · obtain ⟨hf, rfl⟩ := backPage_ok hfail hrun
    refine ⟨_, ?_, h.back_differs hown v.toNat_lt flags hx⟩
    have halloc : allocPage env (poke s x c) = .ok (env.pmmAllocPage s.rest).1
      (poke { s with rest := (env.pmmAllocPage s.rest).2 } x c) := rfl
    exact (Prog.bind_eq halloc).trans (by rw [if_neg hf]; rfl)

/-- The current directory is the same map. -/
theorem lookup_poke {pg : Paging} (h : Inv pg dirs) (hx : ¬ InUse pg dirs (frameOf x)) {q : Nat}
    (hq : q < 2 ^ 20) : lookup (pokePaging pg x c).mem (pokePaging pg x c).currentPdPhys q =
      lookup pg.mem pg.currentPdPhys q :=
  (sameTables_poke h hx).lookup h.current hq

theorem pagingGetPhysical_poke {pg : Paging} (h : Inv pg dirs) (hx : ¬ InUse pg dirs (frameOf x))
    {v : Nat} (hv : v < 2 ^ 32) :
    pagingGetPhysical (pokePaging pg x c) v = pagingGetPhysical pg v := by
  have hq : v / 4096 < 2 ^ 20 := by omega
  rw [pagingGetPhysical_eq, pagingGetPhysical_eq, lookup_poke h hx hq]

theorem touch_follows (hown : Owns env Held) {v : Nat} (hv : v < 2 ^ 32) {n : Nat} :
    ∀ {s : Sys σ}, Good Held dirs s₀ s → Follows (Differs dirs x c) (touch env v n) s := by
  induction n with
  | zero =>
    intro s _ t _ a s' hrun
    cases hrun
  | succ n ih =>
    rintro s h t (rfl | ⟨hx, rfl⟩) ⟨⟩ s' hrun
    · exact ⟨s', hrun, Or.inl rfl⟩
    · have hlook : lookup (poke s x c).paging.mem (poke s x c).paging.currentPdPhys (v / 4096) =
          lookup s.paging.mem s.paging.currentPdPhys (v / 4096) :=
        lookup_poke h.inv hx (by omega)
      by_cases hsome : (lookup s.paging.mem s.paging.currentPdPhys (v / 4096)).isSome
      · rw [touch_present hsome] at hrun
        cases hrun
        exact ⟨_, touch_present (by rw [hlook]; exact hsome), Or.inr ⟨hx, rfl⟩⟩
      · by_cases hf : (env.pmmAllocPage s.rest).1 = 0
        · obtain ⟨u, hu⟩ := touch_noFrame (n := n) hsome hf
          rw [hu] at hrun
          cases hrun
        · rw [touch_frame hsome hf] at hrun
          have hstep := touch_frame (s := poke s x c) (n := n) (by rw [hlook]; exact hsome) hf
          have hlt : v &&& 0xFFFFF000 < 2 ^ 32 := Nat.lt_of_le_of_lt Nat.and_le_left hv
          have hb := hown.backing h hf hlt (show pagePresent ||| pageWrite < 0x1000 by decide)
          obtain ⟨t', ht', hd⟩ := ih (hb.good h) (h.back_differs hown hlt _ hx) hrun
          exact ⟨t', hstep.trans ht', hd⟩

theorem store8_follows (hown : Owns env Held) (h : Good Held dirs s₀ s) {v : Nat}
    (hv : UserPage (v / 4096)) (hun : Unwritten Held dirs s₀ s v) (b : UInt8) :
    Follows (Differs dirs x c) (store8 env v b) s := by
  have hlt : v < 2 ^ 32 := by
    have := hv.lt
    omega
  refine (touch_follows hown hlt h).bind ?_
  rintro ⟨⟩ s₁ htouch t (rfl | ⟨hx, rfl⟩) ⟨⟩ s' hstore
  · exact ⟨s', hstore, Or.inl rfl⟩
  · obtain ⟨F, ho, hphys⟩ := touch_owned hown h hv hun htouch
    cases hstore
    have hg := (touch_effect hown hlt h htouch).1.good
    have hphys' : pagingGetPhysical (poke s₁ x c).paging v = place F v :=
      (pagingGetPhysical_poke hg.inv hx hlt).trans hphys
    refine ⟨_, rfl, ?_⟩
    rw [hphys, hphys']
    by_cases hxv : x = place F v
    · -- the byte that differs is stored to
      subst hxv
      refine Or.inl ?_
      unfold poke pokePaging
      dsimp only
      rw [Mem.st8_st8]
    · refine Or.inr ⟨fun hu => hx ?_, ?_⟩
      · have hdata : ¬ InUse s₁.paging dirs (frameOf (place F v)) := by
          rw [frameOf_place]
          exact ho.data
        exact ((sameTables_st8 hg.inv b hdata).inUse _).mp hu
      · unfold poke pokePaging
        dsimp only
        rw [Mem.st8_comm c b hxv]

/-! ## 3. The loops, and `elf_exec` -/

theorem storeBytes_follows (hown : Owns env Held) {bs : List UInt8} :
    ∀ {v : UInt32} {s : Sys σ}, Good Held dirs s₀ s → 0x40000000 ≤ v.toNat →
      v.toNat + bs.length ≤ 0xC0000000 →
      (∀ u, v.toNat ≤ u → u < v.toNat + bs.length → Unwritten Held dirs s₀ s u) →
      Follows (Differs dirs x c) (storeBytes env bs v) s := by
  induction bs with
  | nil =>
    intro v s _ _ _ _
    exact Prog.follows_pure ()
  | cons b bs ih =>
    intro v s h hlow hhigh hun
    rw [List.length_cons] at hhigh hun
    have hv := userPage_of hlow (by omega)
    have hun₀ := hun _ (Nat.le_refl _) (by omega)
    refine (store8_follows hown h hv hun₀ b).bind ?_
    rintro ⟨⟩ s₁ hstore
    have heff := (store8_effect hown h hv hun₀ hstore).1
    have hsucc : (v + 1).toNat = v.toNat + 1 := by
      rw [UInt32.toNat_add]
      change (v.toNat + 1) % 2 ^ 32 = v.toNat + 1
      omega
    refine ih heff.good (by omega) (by omega) ?_
    intro u h1 h2
    exact heff.unwritten u (userPage_of (by omega) (by omega)) (by omega)
      (hun u (by omega) (by omega))

theorem mapSegmentPages_follows (hown : Owns env Held) {pheaders flags : Nat}
    (hflags : flags < 0x1000) {n : Nat} :
    ∀ {v : UInt32} {s : Sys σ}, Good Held dirs s₀ s →
      Follows (Differs dirs x c) (mapSegmentPages env pheaders flags n v) s := by
  induction n with
  | zero =>
    intro v s _
    exact Prog.follows_pure ()
  | succ n ih =>
    intro v s h
    refine (backPage_follows hown h fun t t' ht => by cases ht).bind ?_
    rintro ⟨⟩ s₁ hback
    exact ih (backPage_effect hown h hflags (fun t t' ht => by cases ht) hback).1.good

variable {reads : Reads} {file : List UInt8} {pheaders i : Nat} {ph : ProgramHeader}

theorem readSegment_follows (hown : Owns env Held) (h : Good Held dirs s₀ s) (hph : InUser ph)
    (hun : ∀ u, ph.Addr u → Unwritten Held dirs s₀ s u) :
    Follows (Differs dirs x c) (readSegment env reads file i ph) s := by
  have hle := @delivered_length_le reads file i ph
  have hlow := hph.low
  have hhigh := hph.high
  have hfile := hph.filesz
  unfold readSegment
  split
  · refine (follows_vfsRead _ _ _ _).bind ?_
    rintro data s₁ hread
    cases hread
    have heff : Effect Held dirs s₀ s
        { s with rest := env.vfsWork ph.offset.toNat ph.filesz.toNat s.rest }
        (fun _ => False) (fun _ => False) := h.effect_rest (hown.workKeeps _ _ s.rest)
    refine storeBytes_follows hown heff.good hlow
      (show ph.vaddr.toNat + (delivered reads file i ph).length ≤ 0xC0000000 by omega) ?_
    intro u h1 h2
    have h2' : u < ph.vaddr.toNat + (delivered reads file i ph).length := h2
    exact heff.unwritten u (userPage_of (by omega) (by omega)) (fun hf => hf)
      (hun u ⟨h1, by omega⟩)
  · exact Prog.follows_pure ()

theorem clearBss_follows (hown : Owns env Held) (h : Good Held dirs s₀ s) (hph : InUser ph)
    (hun : ∀ u, ph.vaddr.toNat + ph.filesz.toNat ≤ u → u < ph.vaddr.toNat + ph.memsz.toNat →
      Unwritten Held dirs s₀ s u) :
    Follows (Differs dirs x c) (clearBss env ph) s := by
  have hlow := hph.low
  have hhigh := hph.high
  have hfile := hph.filesz
  unfold clearBss
  split
  · rename_i hlt
    obtain ⟨hadd, hsub⟩ := hph.bss hlt
    refine storeBytes_follows hown h (by omega) (by rw [List.length_replicate]; omega) ?_
    intro u h1 h2
    rw [List.length_replicate] at h2
    exact hun u (by omega) (by omega)
  · exact Prog.follows_pure ()

theorem loadSegment_follows (hown : Owns env Held) (h : Good Held dirs s₀ s)
    (hph : ph.type = ptLoad → InUser ph) :
    Follows (Differs dirs x c) (loadSegment env reads file pheaders i ph) s := by
  unfold loadSegment
  split
  · exact Prog.follows_pure ()
  · rename_i htype
    have hph := hph (not_not.mp htype)
    refine (mapSegmentPages_follows hown (pageFlags_lt ph) h).bind ?_
    rintro ⟨⟩ s₁ hmap
    obtain ⟨e₁, hun⟩ := mapSegmentPages_unwritten hown h hph hmap
    refine (readSegment_follows hown e₁.good hph hun).bind ?_
    rintro ⟨⟩ s₂ hread
    exact clearBss_follows hown (readSegment_effect hown e₁.good hph hun hread).1.good hph
      (readSegment_bss hown e₁.good hph hun hread)

theorem loadSegments_follows (hown : Owns env Held) {phs : List ProgramHeader} :
    ∀ {i : Nat} {s : Sys σ}, AllInUser phs → Good Held dirs s₀ s →
      Follows (Differs dirs x c) (loadSegments env reads file pheaders i phs) s := by
  induction phs with
  | nil =>
    intro i s _ _
    exact Prog.follows_pure ()
  | cons ph phs ih =>
    intro i s hall h
    refine (loadSegment_follows hown h (hall ph List.mem_cons_self)).bind ?_
    rintro ⟨⟩ s₁ hload
    exact ih (fun ph' hmem => hall ph' (List.mem_cons_of_mem _ hmem))
      (loadSegment_good hown h (hall ph List.mem_cons_self) hload)

theorem mapStack_follows (hown : Owns env Held) (h : Good Held dirs s₀ s) :
    Follows (Differs dirs x c) (mapStack env) s := by
  have hfail : ∀ t t' : Sys σ, (mapStack.fail : Load σ Unit) t ≠ .ok () t' :=
    fun t t' ht => by cases ht
  refine (backPage_follows hown h hfail).bind ?_
  rintro ⟨⟩ s₁ hfirst
  exact backPage_follows hown (backPage_effect hown h (by decide) hfail hfirst).1.good hfail

end FlowOS.Elf
