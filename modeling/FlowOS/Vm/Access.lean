/-
# What a mapping grants, and what a page fault achieves

The processor allows a user access when the directory entry and the table entry are both present
and both have their user bit.  `paging_map_page` writes the table entry every time and the
directory entry only when it makes the table, so the user bit of the directory is that of the
mapping that happened to come first in the 4 MiB region: a user page behind a table that was made
for the kernel is out of reach.

A fault needs a frame for the page, and a second one when its table is missing.  The handler looks
at the first; the second is taken inside `paging_map_page`, which gives up in silence.
-/
import FlowOS.Vm.Machine

namespace FlowOS

open Word Frames Paging

/-! ## 1. Two entries -/

/-- The directory entry of an address. -/
def Paging.pde (pg : Paging) (v : Nat) : Nat := word pg.mem pg.currentPdPhys (pdIndex v)

/-- Its table entry. -/
def Paging.pte (pg : Paging) (v : Nat) : Nat := word pg.mem (frameOf (pg.pde v)) (ptIndex v)

/-- The entry has the user bit. -/
def User (e : Nat) : Prop := e &&& pageUser ≠ 0

instance (e : Nat) : Decidable (User e) := inferInstanceAs (Decidable (_ ≠ _))

/-- The processor lets user code access the address. -/
def Paging.UserAccess (pg : Paging) (v : Nat) : Prop :=
  (Present (pg.pde v) ∧ Present (pg.pte v)) ∧ User (pg.pde v) ∧ User (pg.pte v)

/-- The user bit of the table entry `paging_map_page` writes is that of the flags. -/
theorem pte_and_user (p flags : Nat) :
    (p &&& 0xFFFFF000 ||| flags ||| pagePresent) &&& pageUser = flags &&& pageUser := by
  have haddr : (p &&& 0xFFFFF000) &&& pageUser = 0 := by
    rw [Nat.and_assoc]
    exact Nat.and_zero p
  rw [Nat.and_or_distrib_right, Nat.and_or_distrib_right, haddr, Nat.zero_or,
    show pagePresent &&& pageUser = 0 from rfl, Nat.or_zero]

theorem user_pte (p flags : Nat) : User (p &&& 0xFFFFF000 ||| flags ||| pagePresent) ↔
    User flags := by
  rw [User, pte_and_user, User]

/-- So is that of the directory entry of a new table. -/
theorem user_pde {t : Nat} (ht : 4096 ∣ t) (flags : Nat) :
    User (t ||| pagePresent ||| pageWrite ||| (flags &&& pageUser)) ↔ User flags := by
  have haddr : t &&& pageUser = 0 := by
    obtain ⟨n, rfl⟩ := ht
    refine Nat.eq_of_testBit_eq fun i => ?_
    rw [Nat.testBit_and, Nat.zero_testBit, show pageUser = 2 ^ 2 from rfl, Nat.testBit_two_pow,
      show (4096 : Nat) = 2 ^ 12 from rfl, Nat.testBit_two_pow_mul]
    by_cases hi : 2 = i
    · subst hi
      rfl
    · simp [hi]
  unfold User
  rw [Nat.and_or_distrib_right, Nat.and_or_distrib_right, Nat.and_or_distrib_right, haddr,
    Nat.zero_or, show pagePresent &&& pageUser = 0 from rfl,
    show pageWrite &&& pageUser = 0 from rfl, Nat.zero_or, Nat.zero_or, Nat.and_assoc,
    Nat.and_self]

variable {vm : Vm} {dirs : List Nat} {v p flags : Nat}

theorem mapInTable_words {pg : Paging} (h : Inv pg dirs) (hv : v < 2 ^ 32) (hp : p < 2 ^ 32)
    (hflags : flags < 2 ^ 32) (hpres : Present (pg.pde v)) :
    (mapInTable pg v p flags).pde v = pg.pde v ∧
      (mapInTable pg v p flags).pte v = (p &&& 0xFFFFF000 ||| flags ||| pagePresent) := by
  have hpde : (mapInTable pg v p flags).pde v = pg.pde v :=
    dir_mapInTable h hv hpres p flags h.current (pdIndex_lt hv)
  refine ⟨hpde, ?_⟩
  unfold Paging.pte
  rw [hpde, mapInTable_eq]
  refine word_setWord_same (Nat.or_lt_two_pow (Nat.or_lt_two_pow ?_ hflags) (by decide))
  exact lt_of_le_of_lt Nat.and_le_left hp

/-- **What `paging_map_page` leaves at the address**, when it does not lack a frame: the new table
entry, behind the directory entry that was there, or behind a new one with the same user bit. -/
theorem Tabled.map_words (h : Tabled vm dirs) (hv : v < 2 ^ 32) (hp : p < 2 ^ 32)
    (hflags : flags < 2 ^ 32)
    (hframe : Present (vm.paging.pde v) ∨ (Pmm.pmmAllocPage vm.pmm).1 ≠ 0) :
    Present ((vm.mapPage v p flags).paging.pde v) ∧
      (vm.mapPage v p flags).paging.pte v = (p &&& 0xFFFFF000 ||| flags ||| pagePresent) ∧
      (User ((vm.mapPage v p flags).paging.pde v) ↔
        if Present (vm.paging.pde v) then User (vm.paging.pde v) else User flags) := by
  have hpaging : (vm.mapPage v p flags).paging
      = (pagingMapPage Pmm.pmmAllocPage vm.pmm vm.paging v p flags).2 := rfl
  rcases pagingMapPage_eq Pmm.pmmAllocPage vm.pmm vm.paging v p flags with
    ⟨hpres, he⟩ | ⟨hpres, hz, -⟩ | ⟨hpres, hz, he⟩
  · change Present (vm.paging.pde v) at hpres
    obtain ⟨hpde, hpte⟩ := mapInTable_words h.inv hv hp hflags hpres
    rw [hpaging, he]
    exact ⟨hpde.symm ▸ hpres, hpte, by rw [hpde, if_pos hpres]⟩
  · rcases hframe with hf | hf
    · exact absurd hf hpres
    · exact absurd hz hf
  · change ¬ Present (vm.paging.pde v) at hpres
    have ht := h.supplies.resolve_left hz
    have hnew : Present ((addTable vm.paging (Pmm.pmmAllocPage vm.pmm).1 v flags).pde v) :=
      addTable_present h.inv ht hv flags
    have hword : (addTable vm.paging (Pmm.pmmAllocPage vm.pmm).1 v flags).pde v
        = ((Pmm.pmmAllocPage vm.pmm).1 ||| pagePresent ||| pageWrite ||| (flags &&& pageUser)) := by
      have hne : vm.paging.currentPdPhys ≠ (Pmm.pmmAllocPage vm.pmm).1 :=
        fun he => ht.not_mem (he ▸ h.inv.current)
      have := word_addTable h.inv ht hv flags (h.inv.aligned _ h.inv.current) (pdIndex_lt hv)
      rw [if_neg hne, if_pos ⟨rfl, rfl⟩] at this
      exact this
    obtain ⟨hpde, hpte⟩ := mapInTable_words (addTable_inv h.inv ht hv flags) hv hp hflags hnew
    rw [hpaging, he]
    refine ⟨hpde.symm ▸ hnew, hpte, ?_⟩
    dsimp only
    rw [hpde, hword, user_pde ht.aligned, if_neg hpres]

/-- User access takes the flag of the mapping and that of the table, unless the table is new. -/
theorem Tabled.userAccess_iff (h : Tabled vm dirs) (hv : v < 2 ^ 32) (hp : p < 2 ^ 32)
    (hflags : flags < 2 ^ 32)
    (hframe : Present (vm.paging.pde v) ∨ (Pmm.pmmAllocPage vm.pmm).1 ≠ 0) :
    ((vm.mapPage v p flags).paging.UserAccess v ↔
      User flags ∧ (¬ Present (vm.paging.pde v) ∨ User (vm.paging.pde v))) := by
  obtain ⟨hpres, hpte, huser⟩ := h.map_words hv hp hflags hframe
  have hodd : Present (p &&& 0xFFFFF000 ||| flags ||| pagePresent) := or_one_mod_two _
  unfold Paging.UserAccess
  rw [hpte, huser, user_pte]
  by_cases hold : Present (vm.paging.pde v)
  · simp only [hpres, hodd, hold, if_true, not_true_eq_false, false_or, true_and]
    exact and_comm
  · simp only [hpres, hodd, hold, if_false, not_false_eq_true, true_or, true_and, and_true,
      and_self]

/-! ## 2. A page fault -/

/-- An address and its page have the same entries. -/
theorem entries_frameOf (pg : Paging) (v : Nat) :
    pg.pde (frameOf v) = pg.pde v ∧ pg.pte (frameOf v) = pg.pte v := by
  have hpage : frameOf v / 4096 = v / 4096 := Nat.mul_div_cancel _ (by decide)
  have hpde : pg.pde (frameOf v) = pg.pde v := by
    unfold Paging.pde
    rw [pdIndex_eq, pdIndex_eq, hpage]
  refine ⟨hpde, ?_⟩
  unfold Paging.pte
  rw [hpde, ptIndex_eq, ptIndex_eq, hpage]

/-- The handler does not panic at once, and neither the page nor its table lacks a frame. -/
def Vm.Resolves (vm : Vm) (v err : Nat) : Prop :=
  (err &&& 0x1 = 0 ∧ err &&& 0x8 = 0) ∧ vm.allocPage.1 ≠ 0 ∧
    (Present (vm.paging.pde v) ∨ vm.allocPage.2.allocPage.1 ≠ 0)

/-- What the handler then does. -/
theorem Vm.pageFault_resolves {err : Nat} (hv : v < 2 ^ 32) (h : vm.Resolves v err) :
    vm.pageFault v err
      = (true, vm.allocPage.2.mapPage (frameOf v) vm.allocPage.1 (faultFlags err)) := by
  rw [Vm.pageFault_eq vm hv err, if_pos h.1, Vm.backPage, if_neg h.2.1]

/-- **The retried access after a user fault.** -/
theorem Tabled.fault_userAccess (h : Tabled vm dirs) {err : Nat} (hv : v < 2 ^ 32)
    (hres : vm.Resolves v err) (huser : err &&& 0x4 ≠ 0) :
    (vm.pageFault v err).2.paging.UserAccess v ↔
      ¬ Present (vm.paging.pde v) ∨ User (vm.paging.pde v) := by
  have hflags : User (faultFlags err) := by
    unfold faultFlags
    rw [if_pos huser]
    decide
  obtain ⟨hpde, -⟩ := entries_frameOf vm.paging v
  have hframe : Present (vm.allocPage.2.paging.pde (frameOf v)) ∨
      (Pmm.pmmAllocPage vm.allocPage.2.pmm).1 ≠ 0 := by
    rcases hres.2.2 with hp | hf
    · exact Or.inl (hpde.symm ▸ hp)
    · exact Or.inr hf
  have hp : vm.allocPage.1 < 2 ^ 32 := (Pmm.alloc_addr hres.2.1).2.1
  have hiff := h.alloc.userAccess_iff (frameOf_lt hv) hp
    (lt_trans (faultFlags_lt err) (by decide)) hframe
  rw [Vm.pageFault_resolves hv hres]
  obtain ⟨hpde', hpte'⟩ := entries_frameOf
    (vm.allocPage.2.mapPage (frameOf v) vm.allocPage.1 (faultFlags err)).paging v
  unfold Paging.UserAccess at hiff ⊢
  rw [hpde', hpte', show vm.allocPage.2.paging.pde (frameOf v) = vm.paging.pde v from hpde] at hiff
  rw [hiff, and_iff_right hflags]

namespace Kernel

/-- A kernel mapping makes no user table. -/
theorem map_kernelTable (h : Tabled vm dirs) (hv : v < 2 ^ 32) (hp : p < 2 ^ 32)
    (hflags : flags < 0x1000) (huser : ¬ User flags) {w : Nat} (hw : pdIndex w = pdIndex v)
    (hold : Present (vm.paging.pde w) → ¬ User (vm.paging.pde w)) :
    Present ((vm.mapPage v p flags).paging.pde w) →
      ¬ User ((vm.mapPage v p flags).paging.pde w) := by
  have hpde : ∀ pg : Paging, pg.pde w = pg.pde v := fun pg => by
    unfold Paging.pde
    rw [hw]
  rw [hpde] at hold ⊢
  rcases h.map_cases hv hp hflags with ⟨-, -, hsame⟩ | ⟨hframe, -⟩
  · rw [hsame]
    exact hold
  · obtain ⟨-, -, hiff⟩ := h.map_words hv hp (lt_trans hflags (by decide)) hframe
    rw [hiff]
    intro _
    split
    · rename_i hpres
      exact hold hpres
    · exact huser

/-- The table of the heap is the kernel's. -/
theorem boot_kernelTable {img : KernelImage} {mboot : Pmm.MultibootInfo} {mem heapMem : Mem}
    {k : Kernel} (hboot : bootKernel img mboot mem heapMem = some k) {w : Nat}
    (hw : pdIndex w = 768) : Present (k.vm.paging.pde w) ∧ ¬ User (k.vm.paging.pde w) := by
  have hb := bootKernel_booted hboot
  have hpres : Present (k.vm.paging.pde w) := by
    have hsome := hb.mapped 0xC0000 (by decide) (by decide)
    unfold Paging.pde
    rw [hw, hb.current]
    by_contra hno
    rw [lookup, if_neg hno] at hsome
    cases hsome
  refine ⟨hpres, ?_⟩
  unfold bootKernel at hboot
  split at hboot
  · cases hboot
  · rename_i pmm hinit
    obtain ⟨start, hle, hfree, -, hvm, -⟩ := bootHeap_ok hboot
    obtain ⟨hroles, hspare⟩ := boot_spare hinit hle hfree
    have habsent : ¬ Present ((pagingInit img.toImage mem).pde w) := by
      have hword : word (pagingInit img.toImage mem).mem img.kernelPd 768 = 0 := by
        rw [word_pagingInit img.toImage mem (by decide), if_neg (by decide)]
      unfold Paging.pde
      rw [hw]
      exact fun hc => absurd (hword ▸ hc) (by decide)
    -- the loop of `kmain`, page by page
    have key : ∀ n ≤ 256, Present ((mapHeap (start * 4096)
        ⟨pmm.takeRun start 256, pagingInit img.toImage mem⟩ n).paging.pde w) →
        ¬ User ((mapHeap (start * 4096)
          ⟨pmm.takeRun start 256, pagingInit img.toImage mem⟩ n).paging.pde w) := by
      intro n hn
      induction n with
      | zero => exact fun hc => absurd hc habsent
      | succ n ih =>
        obtain ⟨hv, hp, -, -, hidx⟩ := heapPage (show n < 256 by omega) hle
        rw [mapHeap_succ]
        exact map_kernelTable (mapHeap_roles hroles hle hspare (by omega)).1.toTabled hv hp
          (by decide) (by decide) (hw.trans hidx.symm) (ih (by omega))
    rw [hvm] at hpres ⊢
    exact key 256 (Nat.le_refl _) hpres

end Kernel

/-! ## 3. Frames a fault takes -/

/-- **A fault is resolved or the machine stops with nothing lost**: the handler returns only with
the page mapped to the frame it took, it panics when a frame is missing, and when it panics the
frames are as they were. -/
structure Vm.FaultSafe (vm : Vm) (v err : Nat) : Prop where
  mapped : (vm.pageFault v err).1 = true →
    ∃ flags, (vm.pageFault v err).2.entry (v / 4096) = some (vm.allocPage.1 / 4096, flags)
  missing : Pmm.clearBits vm.pmm < (if Present (vm.paging.pde v) then 1 else 2) →
    (vm.pageFault v err).1 = false
  kept : (vm.pageFault v err).1 = false → (vm.pageFault v err).2.pmm = vm.pmm

/-- With no frame for the page the handler panics. -/
theorem Vm.back_noFrame (h0 : ¬ Pmm.Free vm.pmm 0) (hz : vm.allocPage.1 = 0) (v flags : Nat) :
    vm.backPage v flags = (false, vm) ∧ Pmm.clearBits vm.pmm = 0 := by
  have hnone : Pmm.clearBits vm.pmm = 0 := by
    by_contra hne
    exact Pmm.alloc_ne_zero h0 (Nat.pos_of_ne_zero hne) hz
  have hfree : ∀ f, ¬ Pmm.Free vm.pmm f := fun f hf => by
    have hpos := Pmm.le_clearBits_of_range (m := vm.pmm) (a := f) (b := f + 1) fun g hlo hhi => by
      obtain rfl : g = f := by omega
      exact hf
    omega
  refine ⟨?_, hnone⟩
  have halloc : vm.allocPage = (0, vm) := by
    unfold Vm.allocPage
    rw [Pmm.pmmAllocPage_none hfree]
  unfold Vm.backPage
  rw [halloc]
  exact if_pos rfl

/-- A handler that panics at the start has lost nothing. -/
theorem Vm.faultSafe_of_panic {err : Nat} (h : vm.pageFault v err = (false, vm)) :
    vm.FaultSafe v err where
  mapped hc := by
    rw [h] at hc
    cases hc
  missing _ := by rw [h]
  kept _ := by rw [h]

/-- The frames left when the first one has been taken. -/
theorem Tabled.second_frame (h : Tabled vm dirs) (hz : vm.allocPage.1 ≠ 0) :
    vm.allocPage.2.allocPage.1 = 0 ↔ Pmm.clearBits vm.pmm = 1 := by
  have hcount := Vm.clearBits_alloc h.zero
  rw [if_neg hz] at hcount
  have hcount' := Vm.clearBits_alloc h.alloc.zero
  constructor
  · intro hz'
    have hnone := (Vm.back_noFrame h.alloc.zero hz' 0 0).2
    rw [hcount, hnone]
  · intro hone
    by_contra hz'
    rw [if_neg hz'] at hcount'
    rw [hone, hcount'] at hcount
    exact absurd (Nat.succ.inj hcount).symm (Nat.succ_ne_zero _)

/-- The entry of a page that has been mapped. -/
theorem Tabled.map_entry (h : Tabled vm dirs) (hv : v < 2 ^ 32) (hp : p < 2 ^ 32)
    (hflags : flags < 0x1000)
    (hframe : Present (vm.paging.pde v) ∨ vm.allocPage.1 ≠ 0) :
    (vm.mapPage v p flags).entry (v / 4096) = some (p / 4096, flags ||| pagePresent) := by
  rcases h.map_cases hv hp hflags with ⟨habsent, hz, -⟩ | ⟨-, hm⟩
  · rcases hframe with hpres | hne
    · exact absurd hpres habsent
    · exact absurd hz hne
  · have hlook := hm.lookup _ h.inv.current (v / 4096) (by omega)
    have hpres := hm.present
    rw [← hm.current] at hlook hpres
    rw [if_pos ⟨rfl, shares_current hpres⟩] at hlook
    exact hlook

/-- With both frames there the page is mapped. -/
theorem Tabled.faultSafe_of_resolves (h : Tabled vm dirs) {err : Nat} (hv : v < 2 ^ 32)
    (hres : vm.Resolves v err) : vm.FaultSafe v err := by
  have hfault := Vm.pageFault_resolves hv hres
  have hp : vm.allocPage.1 < 2 ^ 32 := (Pmm.alloc_addr hres.2.1).2.1
  have hpage : frameOf v / 4096 = v / 4096 := Nat.mul_div_cancel _ (by decide)
  have hframe : Present (vm.allocPage.2.paging.pde (frameOf v)) ∨
      vm.allocPage.2.allocPage.1 ≠ 0 :=
    hres.2.2.imp_left fun hpres => (entries_frameOf vm.paging v).1.symm ▸ hpres
  have hpos : Pmm.clearBits vm.pmm ≠ 0 := fun hzero => by
    have hcount := Vm.clearBits_alloc h.zero
    rw [if_neg hres.2.1, hzero] at hcount
    exact Nat.succ_ne_zero _ hcount.symm
  refine ⟨fun _ => ?_, fun hmiss => ?_, fun hc => ?_⟩
  · have hentry := h.alloc.map_entry (frameOf_lt hv) hp (faultFlags_lt err) hframe
    rw [hpage] at hentry
    rw [hfault]
    exact ⟨_, hentry⟩
  · exfalso
    rcases hres.2.2 with hpres | hz
    · rw [if_pos hpres] at hmiss
      omega
    · have hne : Pmm.clearBits vm.pmm ≠ 1 := fun hone => hz ((h.second_frame hres.2.1).mpr hone)
      split at hmiss <;> omega
  · rw [hfault] at hc
    cases hc

/-- With only the first one nothing is mapped, and the handler returns. -/
theorem Tabled.not_faultSafe (h : Tabled vm dirs) {err : Nat} (hv : v < 2 ^ 32)
    (hbits : err &&& 0x1 = 0 ∧ err &&& 0x8 = 0) (hz : vm.allocPage.1 ≠ 0)
    (hpres : ¬ Present (vm.paging.pde v)) (hz' : vm.allocPage.2.allocPage.1 = 0) :
    (vm.pageFault v err).1 = true ∧ (vm.pageFault v err).2.entry (v / 4096) = none ∧
      Pmm.clearBits (vm.pageFault v err).2.pmm + 1 = Pmm.clearBits vm.pmm := by
  obtain ⟨hpde, -⟩ := entries_frameOf vm.paging v
  have hfault : vm.pageFault v err
      = (true, vm.allocPage.2.mapPage (frameOf v) vm.allocPage.1 (faultFlags err)) := by
    rw [Vm.pageFault_eq vm hv err, if_pos hbits, Vm.backPage, if_neg hz]
  have habsent : ¬ Present (word vm.allocPage.2.paging.mem vm.allocPage.2.paging.currentPdPhys
      (pdIndex (frameOf v))) := fun hc => hpres (hpde ▸ hc)
  have hcount := Vm.clearBits_alloc h.zero
  have hcount' := Vm.clearBits_map h.alloc.zero (frameOf v) vm.allocPage.1 (faultFlags err)
  rw [if_neg hz] at hcount
  rw [if_neg fun hc => hc.2 hz', Nat.add_zero] at hcount'
  rw [hfault]
  refine ⟨rfl, ?_, by rw [hcount, hcount']⟩
  have hmap : (vm.allocPage.2.mapPage (frameOf v) vm.allocPage.1 (faultFlags err)).paging
      = vm.paging := by
    have hnone := @pagingMapPage_noFrame _ _ Pmm.pmmAllocPage vm.allocPage.2.pmm (frameOf v)
      vm.allocPage.1 (faultFlags err) habsent hz'
    exact congrArg Prod.snd hnone
  rw [Vm.entry, hmap, lookup, ← pdIndex_eq]
  exact if_neg hpres

/-- A PMM with one frame left. -/
def Pmm.oneFree (f : Nat) : Pmm := { allUsed with bitmap := Bitmap.clear allUsed.bitmap f }

theorem Pmm.free_oneFree {f g : Nat} (hf : f < frameCount) : Free (oneFree f) g ↔ g = f := by
  have hnone : ¬ Free allUsed g := not_free_allUsed
  unfold Free oneFree at *
  dsimp only
  rw [Bitmap.test_clear (by decide)]
  by_cases hgf : g = f
  · subst hgf
    simp [hf]
  · rw [decide_eq_true hgf, Bool.true_and]
    exact iff_of_false hnone hgf

end FlowOS
