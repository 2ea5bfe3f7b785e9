/-
# Tables and directories hold their frames

`Paging/Map.lean` needs the PMM to supply frames that are not in use.  In the joined system this
is a fact: a frame that is a directory or a table has its bit set in the bitmap (`Tabled`), so
the frame `pmm_alloc_page` finds is neither.  The module shows that the kernel starts that way
and that each call of the paging code keeps it.
-/
import FlowOS.Vm.Basic
import FlowOS.Pmm.Count
import FlowOS.Paging.Run
import FlowOS.Heap.Footprint

namespace FlowOS

open Word Frames Paging

/-! ## 1. Frames that are taken -/

/-- What holds of the joined state: the tables are in order, and no frame of theirs is free. -/
structure Tabled (vm : Vm) (dirs : List Nat) : Prop where
  inv : Inv vm.paging dirs
  held : ∀ f, InUse vm.paging dirs f → ¬ Pmm.Free vm.pmm (f / 4096)
  zero : ¬ Pmm.Free vm.pmm 0

variable {vm : Vm} {dirs : List Nat}

/-- **The frame the PMM supplies is not in use.** -/
theorem Tabled.supplies (h : Tabled vm dirs) :
    Supplies Pmm.pmmAllocPage vm.pmm vm.paging dirs := by
  by_cases hz : (Pmm.pmmAllocPage vm.pmm).1 = 0
  · exact Or.inl hz
  · obtain ⟨halign, hlt, hfree, -⟩ := Pmm.alloc_addr hz
    exact Or.inr ⟨halign, hlt, fun hused => h.held _ hused hfree⟩

/-- The PMM may take more frames. -/
theorem Tabled.take (h : Tabled vm dirs) {pmm : Pmm}
    (hp : ∀ g, Pmm.Free pmm g → Pmm.Free vm.pmm g) :
    Tabled { vm with pmm := pmm } dirs :=
  ⟨h.inv, fun f hf hfree => h.held f hf (hp _ hfree), fun hfree => h.zero (hp 0 hfree)⟩

theorem Tabled.alloc (h : Tabled vm dirs) : Tabled vm.allocPage.2 dirs :=
  h.take fun _ => Pmm.free_of_alloc

theorem Vm.free_of_alloc {g : Nat} (h : Pmm.Free vm.allocPage.2.pmm g) : Pmm.Free vm.pmm g := by
  unfold Vm.allocPage at h
  exact Pmm.free_of_alloc h

theorem Vm.clearBits_alloc (h0 : ¬ Pmm.Free vm.pmm 0) : Pmm.clearBits vm.pmm =
    Pmm.clearBits vm.allocPage.2.pmm + if vm.allocPage.1 = 0 then 0 else 1 := by
  unfold Vm.allocPage
  exact Pmm.clearBits_alloc h0

/-! ## 2. The calls -/

/-- The frames that are free after `paging_map_page` were free before. -/
theorem Vm.free_of_map {v p flags g : Nat}
    (h : Pmm.Free (vm.mapPage v p flags).pmm g) : Pmm.Free vm.pmm g := by
  unfold Vm.mapPage at h
  rcases pagingMapPage_eq Pmm.pmmAllocPage vm.pmm vm.paging v p flags with
    ⟨-, he⟩ | ⟨-, -, he⟩ | ⟨-, -, he⟩ <;> rw [he] at h
  · exact h
  · exact Pmm.free_of_alloc h
  · exact Pmm.free_of_alloc h

theorem Vm.free_of_back {v flags g : Nat} (h : Pmm.Free (vm.backPage v flags).2.pmm g) :
    Pmm.Free vm.pmm g := by
  unfold Vm.backPage at h
  dsimp only at h
  split at h <;> dsimp only at h
  · exact Vm.free_of_alloc h
  · exact Vm.free_of_alloc (Vm.free_of_map h)

/-- Mapping and backing pages leave the two directory variables alone. -/
theorem Vm.map_place (v p flags : Nat) :
    (vm.mapPage v p flags).paging.kernelPdPhys = vm.paging.kernelPdPhys ∧
      (vm.mapPage v p flags).paging.currentPdPhys = vm.paging.currentPdPhys := by
  unfold Vm.mapPage
  rcases pagingMapPage_eq Pmm.pmmAllocPage vm.pmm vm.paging v p flags with
    ⟨-, he⟩ | ⟨-, -, he⟩ | ⟨-, -, he⟩ <;> rw [he] <;> exact ⟨rfl, rfl⟩

theorem Vm.back_place (v flags : Nat) :
    (vm.backPage v flags).2.paging.kernelPdPhys = vm.paging.kernelPdPhys ∧
      (vm.backPage v flags).2.paging.currentPdPhys = vm.paging.currentPdPhys := by
  unfold Vm.backPage
  dsimp only
  split
  · exact ⟨rfl, rfl⟩
  · exact Vm.map_place v _ flags

/-- `paging_map_page` takes a frame when it needs a table and there is one. -/
theorem Vm.clearBits_map (h0 : ¬ Pmm.Free vm.pmm 0) (v p flags : Nat) :
    Pmm.clearBits vm.pmm = Pmm.clearBits (vm.mapPage v p flags).pmm +
      if ¬ Present (word vm.paging.mem vm.paging.currentPdPhys (pdIndex v)) ∧
        (Pmm.pmmAllocPage vm.pmm).1 ≠ 0 then 1 else 0 := by
  have halloc := Pmm.clearBits_alloc h0
  rw [show (vm.mapPage v p flags).pmm
    = (pagingMapPage Pmm.pmmAllocPage vm.pmm vm.paging v p flags).1 from rfl]
  rcases pagingMapPage_eq Pmm.pmmAllocPage vm.pmm vm.paging v p flags with
    ⟨hp, he⟩ | ⟨hp, hz, he⟩ | ⟨hp, hz, he⟩ <;> rw [he] <;> dsimp only
  · rw [if_neg fun hc => hc.1 hp, Nat.add_zero]
  · rw [if_neg fun hc => hc.2 hz, halloc, if_pos hz]
  · rw [if_pos ⟨hp, hz⟩, halloc, if_neg hz]

/-- Backing a page takes two frames at most. -/
theorem Vm.clearBits_back (h0 : ¬ Pmm.Free vm.pmm 0) (v flags : Nat) :
    Pmm.clearBits vm.pmm ≤ Pmm.clearBits (vm.backPage v flags).2.pmm + 2 := by
  have halloc := Vm.clearBits_alloc h0
  have hmap := @Vm.clearBits_map vm.allocPage.2 (fun hf => h0 (Vm.free_of_alloc hf)) v
    vm.allocPage.1 flags
  have hle : Pmm.clearBits vm.allocPage.2.pmm
      ≤ Pmm.clearBits (vm.allocPage.2.mapPage v vm.allocPage.1 flags).pmm + 1 := by
    rw [hmap]
    split <;> omega
  unfold Vm.backPage
  dsimp only
  split
  · dsimp only
    split at halloc <;> omega
  · dsimp only
    split at halloc <;> omega

/-- The tables and directories after `paging_map_page` are those before and perhaps one frame that
was free until then. -/
theorem Tabled.map_inUse (h : Tabled vm dirs) {v : Nat} (hv : v < 2 ^ 32) {p flags g : Nat}
    (hg : InUse (vm.mapPage v p flags).paging dirs g) : InUse vm.paging dirs g ∨
      (4096 ∣ g ∧ Pmm.Free vm.pmm (g / 4096) ∧
        ¬ Pmm.Free (vm.mapPage v p flags).pmm (g / 4096)) := by
  obtain ⟨huse, -, -⟩ := pagingMapPage_footprint h.inv h.supplies hv p flags
  rcases huse g hg with hu | ⟨rfl, hz, hpmm⟩
  · exact Or.inl hu
  · obtain ⟨halign, -, hfree, htaken⟩ := Pmm.alloc_addr hz
    refine Or.inr ⟨halign, hfree, ?_⟩
    unfold Vm.mapPage
    dsimp only
    rw [hpmm]
    exact htaken

theorem Tabled.map (h : Tabled vm dirs) {v p flags : Nat} (hv : v < 2 ^ 32) (hp : p < 2 ^ 32)
    (hflags : flags < 0x1000) : Tabled (vm.mapPage v p flags) dirs := by
  refine ⟨?_, ?_, fun hfree => h.zero (Vm.free_of_map hfree)⟩
  · rcases pagingMapPage_cases h.inv h.supplies hv hp hflags with ⟨-, -, he⟩ | ⟨-, hm⟩
    · change Inv (pagingMapPage Pmm.pmmAllocPage vm.pmm vm.paging v p flags).2 dirs
      rw [he]
      exact h.inv
    · exact hm.inv
  · intro g hg
    rcases h.map_inUse hv hg with hu | ⟨-, -, htaken⟩
    · exact fun hfree => h.held g hu (Vm.free_of_map hfree)
    · exact htaken

/-- `paging_map_page` leaves the paging state alone, for lack of a table, or maps the page. -/
theorem Tabled.map_cases (h : Tabled vm dirs) {v p flags : Nat} (hv : v < 2 ^ 32)
    (hp : p < 2 ^ 32) (hflags : flags < 0x1000) :
    (¬ Present (word vm.paging.mem vm.paging.currentPdPhys (pdIndex v)) ∧
      (Pmm.pmmAllocPage vm.pmm).1 = 0 ∧ (vm.mapPage v p flags).paging = vm.paging) ∨
    ((Present (word vm.paging.mem vm.paging.currentPdPhys (pdIndex v)) ∨
      (Pmm.pmmAllocPage vm.pmm).1 ≠ 0) ∧
      Mapped vm.paging dirs v p flags (vm.mapPage v p flags).paging) :=
  pagingMapPage_cases h.inv h.supplies hv hp hflags

theorem Tabled.back (h : Tabled vm dirs) {v flags : Nat} (hv : v < 2 ^ 32)
    (hflags : flags < 0x1000) : Tabled (vm.backPage v flags).2 dirs := by
  unfold Vm.backPage
  dsimp only
  split
  · exact h.alloc
  · rename_i hz
    exact h.alloc.map hv (Pmm.alloc_addr hz).2.1 hflags

theorem Tabled.switch (h : Tabled vm dirs) {d : Nat} (hd : d ∈ dirs) :
    Tabled (vm.switch d) dirs := by
  have huse : ∀ f, InUse (vm.switch d).paging dirs f ↔ InUse vm.paging dirs f := fun _ => Iff.rfl
  exact ⟨h.inv.switch hd, fun f hf => h.held f ((huse f).mp hf), h.zero⟩

/-- The frames that are free after `paging_clone_pd` were free before. -/
theorem Vm.free_of_clone {g : Nat} (h : Pmm.Free vm.clonePd.2.pmm g) : Pmm.Free vm.pmm g := by
  unfold Vm.clonePd pagingClonePd at h
  by_cases hz : (Pmm.pmmAllocPage vm.pmm).1 = 0
  · simp only [if_pos hz] at h
    exact Pmm.free_of_alloc h
  · simp only [if_neg hz] at h
    exact Pmm.free_of_alloc h

/-- The new directory is the frame that is allocated. -/
theorem Vm.clonePd_addr (vm : Vm) : vm.clonePd.1 = (Pmm.pmmAllocPage vm.pmm).1 := by
  unfold Vm.clonePd pagingClonePd
  by_cases hz : (Pmm.pmmAllocPage vm.pmm).1 = 0
  · simp only [hz, if_true]
  · simp only [if_neg hz]

theorem Vm.clonePd_pmm (vm : Vm) : vm.clonePd.2.pmm = (Pmm.pmmAllocPage vm.pmm).2 := by
  unfold Vm.clonePd pagingClonePd
  by_cases hz : (Pmm.pmmAllocPage vm.pmm).1 = 0
  · simp only [hz, if_true]
  · simp only [if_neg hz]

/-- A clone takes a frame. -/
theorem Vm.clonePd_frames {vm : Vm} (h : vm.clonePd.1 ≠ 0) :
    Pmm.clearBits vm.clonePd.2.pmm + 1 = Pmm.clearBits vm.pmm := by
  rw [Vm.clonePd_addr] at h
  rw [Vm.clonePd_pmm]
  exact Pmm.clearBits_alloc_ne h

theorem Tabled.clone_ne_zero (h : Tabled vm dirs) (hframes : 0 < Pmm.clearBits vm.pmm) :
    vm.clonePd.1 ≠ 0 := by
  rw [Vm.clonePd_addr]
  exact Pmm.alloc_ne_zero h.zero hframes

/-- `paging_clone_pd` fails, or makes a directory out of a free frame. -/
theorem Tabled.clone_cases (h : Tabled vm dirs) :
    (vm.clonePd.1 = 0 ∧ vm.clonePd.2.paging = vm.paging ∧ Tabled vm.clonePd.2 dirs) ∨
    (vm.clonePd.1 ≠ 0 ∧ Pmm.Free vm.pmm (vm.clonePd.1 / 4096) ∧
      Cloned vm.paging dirs vm.clonePd.1 vm.clonePd.2.paging ∧
      Tabled vm.clonePd.2 (vm.clonePd.1 :: dirs)) := by
  rcases pagingClonePd_cases h.inv h.supplies with ⟨hz, he⟩ | ⟨hz, hc⟩
  · refine Or.inl ⟨hz, he, ?_⟩
    have hpaging : vm.clonePd.2 = { vm with pmm := vm.clonePd.2.pmm } := by
      rw [← (show vm.clonePd.2.paging = vm.paging from he)]
    rw [hpaging]
    exact h.take fun _ => Vm.free_of_clone
  · have haddr := vm.clonePd_addr
    have hz' : (Pmm.pmmAllocPage vm.pmm).1 ≠ 0 := by
      rw [← haddr]
      exact hz
    have hpmm := vm.clonePd_pmm
    obtain ⟨-, -, hwas, htaken⟩ := Pmm.alloc_addr hz'
    refine Or.inr ⟨hz, haddr ▸ hwas, hc, hc.inv, ?_, fun h0 => h.zero (Vm.free_of_clone h0)⟩
    intro g hg hgfree
    rcases hc.inUse h.inv hg with hu | rfl
    · exact h.held g hu (Vm.free_of_clone hgfree)
    · change Pmm.Free vm.clonePd.2.pmm (vm.clonePd.1 / 4096) at hgfree
      rw [hpmm, haddr] at hgfree
      exact htaken hgfree

/-! ## 3. The page fault handler and `kmalloc` -/

/-- The flags of a page that is demanded. -/
def faultFlags (err : Nat) : Nat :=
  if err &&& 0x4 ≠ 0 then pagePresent ||| pageWrite ||| pageUser else pagePresent ||| pageWrite

theorem faultFlags_lt (err : Nat) : faultFlags err < 0x1000 := by
  unfold faultFlags
  split <;> decide

/-- The page fault handler panics at once, or backs the page of the fault. -/
theorem Vm.pageFault_eq (vm : Vm) {v : Nat} (hv : v < 2 ^ 32) (err : Nat) : vm.pageFault v err =
    if err &&& 0x1 = 0 ∧ err &&& 0x8 = 0 then vm.backPage (frameOf v) (faultFlags err)
    else (false, vm) := by
  unfold Vm.pageFault pageFaultHandler
  by_cases h1 : err &&& 0x1 = 0
  · by_cases h8 : err &&& 0x8 = 0
    · simp only [h1, h8, ne_eq, not_true_eq_false, if_false, and_self, if_true, and_mask_eq hv]
      unfold Vm.backPage Vm.allocPage Vm.mapPage faultFlags
      by_cases hz : (Pmm.pmmAllocPage vm.pmm).1 = 0
      · simp only [if_pos hz]
      · simp only [if_neg hz, ne_eq]
    · simp only [h1, h8, ne_eq, not_true_eq_false, not_false_eq_true, if_false, and_false, if_true]
  · simp only [h1, ne_eq, not_false_eq_true, false_and, if_false, if_true]

/-- **What `kmalloc` does to the rest of the system**: nothing, unless it grows the heap, and then
it backs the page behind the heap's end. -/
theorem Kernel.kmalloc_vm {k k' : Kernel} {n p : Nat} (hk : k.kmalloc n = some (p, k')) :
    k'.dirs = k.dirs ∧ k'.heap.heapVirtStart = k.heap.heapVirtStart ∧
    if k.heap.Expands n then
      k'.vm = (k.vm.backPage k.heap.newVirt (pagePresent ||| pageWrite)).2 ∧
      k'.heap.heapSize = if k.vm.allocPage.1 = 0 then k.heap.heapSize
        else add32 k.heap.heapSize pageSize
    else k'.vm = k.vm ∧ k'.heap.heapSize = k.heap.heapSize := by
  unfold Kernel.kmalloc at hk
  obtain ⟨⟨p', vm', h'⟩, hrun, he⟩ := Option.map_eq_some_iff.mp hk
  obtain ⟨-, rfl⟩ := Prod.mk.inj he
  refine ⟨rfl, ?_⟩
  dsimp only
  rcases Heap.kmalloc_cases hrun with ⟨hexp, hs, htook⟩ | ⟨hexp, hz, hs, -, hh⟩ |
    ⟨hexp, hz, hs, htook⟩
  · rw [if_neg hexp]
    exact ⟨htook.place.virt, hs, htook.place.size⟩
  · have hz' : k.vm.allocPage.1 = 0 := hz
    rw [if_pos hexp, if_pos hz', Vm.backPage, if_pos hz', hh]
    exact ⟨rfl, hs, rfl⟩
  · have hz' : ¬ k.vm.allocPage.1 = 0 := hz
    obtain ⟨-, hsize, hvirt⟩ := Heap.appendPage_place k.heap
    rw [if_pos hexp, if_neg hz', Vm.backPage, if_neg hz']
    exact ⟨htook.place.virt.trans hvirt, hs, htook.place.size.trans hsize⟩

theorem Kernel.free_of_kmalloc {k k' : Kernel} {n p g : Nat} (hk : k.kmalloc n = some (p, k'))
    (hg : Pmm.Free k'.vm.pmm g) : Pmm.Free k.vm.pmm g := by
  obtain ⟨-, -, hvm⟩ := kmalloc_vm hk
  split at hvm <;> rw [hvm.1] at hg
  · exact Vm.free_of_back hg
  · exact hg

end FlowOS
