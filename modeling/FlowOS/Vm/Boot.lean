/-
# The kernel as `kmain` sets it up

After `pmm_init` and `paging_init` the kernel directory has the identity map and nothing else.
`kmain` then takes 256 frames in a row for the heap and maps them at 0xC0000000, which makes one
table.  `Booted` is what the runs of the following modules start from.
-/
import FlowOS.Vm.Roles

namespace FlowOS

open Word Frames Paging

/-! ## 1. After `paging_init` -/

section Init

variable {img : KernelImage} {mboot : Pmm.MultibootInfo} {mem : Mem} {pmm : Pmm}

theorem KernelImage.linkEnd_le (img : KernelImage) : img.linkEnd ≤ Pmm.kernelEnd img.linkEnd := by
  have := img.fits
  rw [Pmm.kernelEnd_eq, add32_of_lt (by simp only [pageSize]; omega)]
  simp only [pageSize]
  omega

/-- The frames `pmm_init` frees lie above the kernel. -/
theorem free_above (hinit : Pmm.pmmInit mem img.linkEnd mboot = some pmm) {f : Nat}
    (hf : Pmm.Free pmm f) : img.linkEnd ≤ f * 4096 := by
  have hend := img.linkEnd_le
  have hk : 0x100000 ≤ Pmm.kernelEnd img.linkEnd := Nat.le_trans img.base hend
  obtain ⟨hmax, -⟩ := Pmm.pmmInit_usable hk hinit hf
  exact Nat.le_trans hend (Nat.le_trans (Nat.le_max_right _ _) hmax)

theorem pagingInit_roles (hinit : Pmm.pmmInit mem img.linkEnd mboot = some pmm) :
    Roles ⟨pmm, pagingInit img.toImage mem⟩ [img.kernelPd] := by
  have hnone : ∀ d ∈ [img.kernelPd], ∀ q, HighPage q → ∀ F,
      ¬ Vm.Maps ⟨pmm, pagingInit img.toImage mem⟩ d q F := by
    rintro d hd q ⟨hlow, hq⟩ F ⟨fl, hF⟩
    rw [List.mem_singleton.mp hd, pagingInit_lookup img.toImage mem hq, if_neg (by omega)] at hF
    cases hF
  refine ⟨⟨pagingInit_inv img.toImage mem, ?_, ?_⟩, List.nodup_singleton _, ?_, ?_, ?_, ?_⟩
  · intro f hf hfree
    have habove := free_above hinit hfree
    rcases pagingInit_inUse img.toImage mem hf with rfl | ⟨i, hi, rfl⟩
    · have := img.pdBelow
      omega
    · have := img.tablesBelow
      unfold Image.table at habove
      omega
  · intro hzero
    have := free_above hinit hzero
    have := img.base
    omega
  · intro d hd d' hd' hne
    exact absurd ((List.mem_singleton.mp hd).trans (List.mem_singleton.mp hd').symm) hne
  · intro d hd q hq
    rw [List.mem_singleton.mp hd, pagingInit_lookup img.toImage mem (by omega), if_pos hq]
    rfl
  · intro d hd q hq F hF
    exact absurd hF (hnone d hd q hq F)
  · intro d hd d' hd' q q' hq hq' F hF
    exact absurd hF (hnone d hd q hq F)

end Init

/-! ## 2. The heap pages -/

namespace Kernel

variable {vm : Vm} {dirs : List Nat} {start : Nat}

theorem mapHeap_succ (heapPhys : Nat) (vm : Vm) (n : Nat) : mapHeap heapPhys vm (n + 1) =
    (mapHeap heapPhys vm n).mapPage (heapVirt + n * pageSize) (heapPhys + n * pageSize)
      (pagePresent ||| pageWrite) := by
  rw [mapHeap, List.range_succ, List.foldl_append]
  rfl

/-- One page of the heap: its address, its frame, its page number and its table. -/
theorem heapPage {n : Nat} (hn : n < 256) (hstart : start + 256 ≤ 2 ^ 20) :
    heapVirt + n * pageSize < 2 ^ 32 ∧ start * 4096 + n * pageSize < 2 ^ 32 ∧
      (heapVirt + n * pageSize) / 4096 = 0xC0000 + n ∧
      (start * 4096 + n * pageSize) / 4096 = start + n ∧
      pdIndex (heapVirt + n * pageSize) = 768 := by
  rw [pdIndex_eq]
  simp only [heapVirt, pageSize]
  omega

/-- Mapping the heap's frames, which are spare until then. -/
theorem mapHeap_roles (h : Roles vm dirs) (hstart : start + 256 ≤ 2 ^ 20)
    (hspare : ∀ i < 256, Spare vm dirs (start + i)) {n : Nat} (hn : n ≤ 256) :
    Roles (mapHeap (start * 4096) vm n) dirs ∧
      ∀ i, n ≤ i → i < 256 → Spare (mapHeap (start * 4096) vm n) dirs (start + i) := by
  induction n with
  | zero => exact ⟨h, fun i _ hi => hspare i hi⟩
  | succ n ih =>
    obtain ⟨hroles, hs⟩ := ih (by omega)
    obtain ⟨hv, hp, -, hF, -⟩ := heapPage (show n < 256 by omega) hstart
    have hflags : pagePresent ||| pageWrite < 0x1000 := by decide
    rw [mapHeap_succ]
    refine ⟨hroles.map (hF ▸ hs n (Nat.le_refl _) (by omega)) hv hp hflags, ?_⟩
    intro i hi hi'
    exact (hs i (by omega) hi').map hroles hv hp hflags (by rw [hF]; omega)

/-- The state of the loop that maps the heap: there was no frame for the table and nothing has
happened, or the first `n` pages are mapped. -/
structure HeapMapped (vm vm' : Vm) (start n : Nat) : Prop where
  current : vm'.paging.currentPdPhys = vm.paging.currentPdPhys
  kernel : vm'.paging.kernelPdPhys = vm.paging.kernelPdPhys
  dir : ∀ i < 1024, i ≠ 768 → word vm'.paging.mem vm.paging.currentPdPhys i
    = word vm.paging.mem vm.paging.currentPdPhys i
  frames : Pmm.clearBits vm.pmm ≤ Pmm.clearBits vm'.pmm + min n 1
  free : ∀ f, Pmm.Free vm'.pmm f → Pmm.Free vm.pmm f
  lookup : ∀ q < 2 ^ 20, ¬ (0xC0000 ≤ q ∧ q < 0xC0000 + n) →
    Frames.lookup vm'.paging.mem vm.paging.currentPdPhys q
      = Frames.lookup vm.paging.mem vm.paging.currentPdPhys q
  pages : (vm'.paging = vm.paging ∧ Pmm.clearBits vm'.pmm = Pmm.clearBits vm.pmm ∧
      (0 < n → ∀ f, ¬ Pmm.Free vm'.pmm f)) ∨
    (0 < n ∧ ∀ i < n, Frames.lookup vm'.paging.mem vm.paging.currentPdPhys (0xC0000 + i)
      = some (start + i, pagePresent ||| pageWrite))

section HeapMapped

variable {vm' : Vm} {n : Nat} (hmap : HeapMapped vm vm' start n)

include hmap

/-- Without a table for the heap nothing has been mapped so far. -/
theorem HeapMapped.untouched
    (hno : ¬ Present (word vm'.paging.mem vm'.paging.currentPdPhys 768)) :
    vm'.paging = vm.paging ∧ Pmm.clearBits vm'.pmm = Pmm.clearBits vm.pmm ∧
      (0 < n → ∀ f, ¬ Pmm.Free vm'.pmm f) := by
  rcases hmap.pages with hsame | ⟨hpos, hpages⟩
  · exact hsame
  · have h0 := hpages 0 hpos
    rw [hmap.current] at hno
    rw [Frames.lookup, if_neg hno] at h0
    cases h0

/-- The table cannot come later than the first page. -/
theorem HeapMapped.first (hno : ¬ Present (word vm'.paging.mem vm'.paging.currentPdPhys 768))
    (hz : (Pmm.pmmAllocPage vm'.pmm).1 ≠ 0) : n = 0 := by
  obtain ⟨-, -, hfull⟩ := hmap.untouched hno
  by_contra hn0
  exact absurd (Pmm.alloc_addr hz).2.2.1 (hfull (by omega) _)

/-- A page for which there is neither a table nor a frame. -/
theorem HeapMapped.skip (hroles : Roles vm' dirs) {v p flags : Nat}
    (hno : ¬ Present (word vm'.paging.mem vm'.paging.currentPdPhys 768))
    (hz : (Pmm.pmmAllocPage vm'.pmm).1 = 0)
    (he : (vm'.mapPage v p flags).paging = vm'.paging) :
    HeapMapped vm (vm'.mapPage v p flags) start (n + 1) := by
  obtain ⟨hsame, hbits, -⟩ := hmap.untouched hno
  have hframes := hmap.frames
  have hcount := Vm.clearBits_map hroles.zero v p flags
  rw [if_neg fun hc => hc.2 hz, Nat.add_zero] at hcount
  refine ⟨by rw [he, hmap.current], by rw [he, hmap.kernel], ?_, by omega,
    fun f hf => hmap.free f (Vm.free_of_map hf), ?_,
    Or.inl ⟨he.trans hsame, hcount.symm.trans hbits, fun _ f hf => ?_⟩⟩
  · rw [he]
    exact hmap.dir
  · rw [he]
    exact fun q hlt hout => hmap.lookup q hlt fun hin => hout ⟨hin.1, by omega⟩
  · exact Pmm.not_free_of_alloc hroles.zero hz f (Vm.free_of_map hf)

/-- A page that is mapped, with a table that was there or a new one. -/
theorem HeapMapped.extend (hroles : Roles vm' dirs) (hcur : vm.paging.currentPdPhys ∈ dirs)
    (habsent : ¬ Present (word vm.paging.mem vm.paging.currentPdPhys 768)) (hn : n < 256)
    {v p : Nat} (hq : v / 4096 = 0xC0000 + n) (hF : p / 4096 = start + n) (hidx : pdIndex v = 768)
    (hor : Present (word vm'.paging.mem vm'.paging.currentPdPhys 768) ∨
      (Pmm.pmmAllocPage vm'.pmm).1 ≠ 0)
    (hm : Mapped vm'.paging dirs v p (pagePresent ||| pageWrite)
      (vm'.mapPage v p (pagePresent ||| pageWrite)).paging) :
    HeapMapped vm (vm'.mapPage v p (pagePresent ||| pageWrite)) start (n + 1) := by
  have hframes := hmap.frames
  have hcount := Vm.clearBits_map hroles.zero v p (pagePresent ||| pageWrite)
  have hfirst : ¬ Present (word vm'.paging.mem vm'.paging.currentPdPhys 768) → n = 0 :=
    fun hno => hmap.first hno (hor.resolve_left hno)
  have hd := hmap.current ▸ hm.lookup _ hroles.inv.current
  rw [hq, hF, hidx] at hd
  have hshare : Shares (vm'.mapPage v p (pagePresent ||| pageWrite)).paging
      vm.paging.currentPdPhys 768 := by
    have hpres := hm.present
    rw [hidx, hmap.current] at hpres
    exact ⟨hpres, by rw [hm.current, hmap.current]⟩
  have hlookup : ∀ q < 2 ^ 20, Frames.lookup (vm'.mapPage v p
      (pagePresent ||| pageWrite)).paging.mem vm.paging.currentPdPhys q
      = if q = 0xC0000 + n then some (start + n, pagePresent ||| pageWrite)
        else Frames.lookup vm'.paging.mem vm.paging.currentPdPhys q := by
    intro q hlt
    rw [hd q hlt]
    exact if_congr (and_iff_left hshare) rfl rfl
  refine ⟨hm.current.trans hmap.current, hm.kernel.trans hmap.kernel, ?_, ?_,
    fun f hf => hmap.free f (Vm.free_of_map hf), ?_, Or.inr ⟨by omega, ?_⟩⟩
  · intro i hi hne
    rw [← hmap.dir i hi hne]
    exact hm.dir _ hcur i hi fun hc => hne (hc.2.1.trans hidx)
  · rw [hidx] at hcount
    split at hcount
    · rename_i hnew
      have := hfirst hnew.1
      omega
    · omega
  · intro q hlt hout
    rw [hlookup q hlt, if_neg fun he => hout (by omega)]
    exact hmap.lookup q hlt fun hin => hout ⟨hin.1, by omega⟩
  · intro i hi
    rw [hlookup _ (by omega)]
    split
    · rename_i hin
      rw [show i = n by omega]
    · rename_i hin
      rcases hmap.pages with ⟨hsame, -⟩ | ⟨-, hpages⟩
      · have := hfirst (by rw [hmap.current, hsame]; exact habsent)
        omega
      · exact hpages i (by omega)

end HeapMapped

theorem mapHeap_heapMapped (h : Roles vm dirs) (hstart : start + 256 ≤ 2 ^ 20)
    (hspare : ∀ i < 256, Spare vm dirs (start + i))
    (habsent : ¬ Present (word vm.paging.mem vm.paging.currentPdPhys 768)) {n : Nat}
    (hn : n ≤ 256) : HeapMapped vm (mapHeap (start * 4096) vm n) start n := by
  induction n with
  | zero =>
    exact ⟨rfl, rfl, fun _ _ _ => rfl, Nat.le_add_right _ _, fun _ hf => hf, fun _ _ _ => rfl,
      Or.inl ⟨rfl, rfl, fun h0 => by omega⟩⟩
  | succ n ih =>
    have hmap := ih (by omega)
    obtain ⟨hroles, -⟩ := mapHeap_roles h hstart hspare (show n ≤ 256 by omega)
    obtain ⟨hv, hp, hq, hF, hidx⟩ := heapPage (show n < 256 by omega) hstart
    rw [mapHeap_succ]
    rcases hroles.toTabled.map_cases hv hp (show pagePresent ||| pageWrite < 0x1000 by decide) with
      ⟨hno, hz, he⟩ | ⟨hor, hm⟩
    · rw [hidx] at hno
      exact hmap.skip hroles hno hz he
    · rw [hidx] at hor
      exact hmap.extend hroles h.inv.current habsent (by omega) hq hF hidx hor hm

end Kernel

/-! ## 3. The state the kernel starts in -/

/-- The kernel after `heap_init`. -/
structure Booted (img : KernelImage) (heapMem : Mem) (k : Kernel) : Prop where
  roles : Roles k.vm k.dirs
  dirs : k.dirs = [img.kernelPd]
  current : k.vm.paging.currentPdPhys = img.kernelPd
  kernel : k.vm.paging.kernelPdPhys = img.kernelPd
  heap : k.heap = Heap.heapInit heapMem 0xC0000000 0x100000
  mapped : ∀ q, 0xC0000 ≤ q → q < 0xC0100 → (lookup k.vm.paging.mem img.kernelPd q).isSome
  unmapped : ∀ q, HighPage q → ¬ (0xC0000 ≤ q ∧ q < 0xC0100) →
    lookup k.vm.paging.mem img.kernelPd q = none
  identity : ∀ q < 2 ^ 18, lookup k.vm.paging.mem img.kernelPd q
    = some (q, pagePresent ||| pageWrite)
  absent : ∀ i, 256 ≤ i → i < 1024 → i ≠ 768 → ¬ Present (word k.vm.paging.mem img.kernelPd i)
  frames : Pmm.clearBits k.vm.pmm + 512 ≤ 2 ^ 20

/-- The way through `bootHeap` that does not halt. -/
theorem Kernel.bootHeap_ok {vm : Vm} {heapMem : Mem} {k : Kernel}
    (h : bootHeap vm heapMem = some k) : ∃ start, start + 256 ≤ 2 ^ 20 ∧
      (∀ i < 256, Pmm.Free vm.pmm (start + i)) ∧
      (∀ g, Pmm.Free (vm.pmm.takeRun start 256) g ↔
        Pmm.Free vm.pmm g ∧ ¬ (start ≤ g ∧ g < start + 256)) ∧
      k.vm = mapHeap (start * 4096) { vm with pmm := vm.pmm.takeRun start 256 } 256 ∧
      (k.vm.entry 0xC0000).isSome ∧ k.heap = Heap.heapInit heapMem 0xC0000000 0x100000 ∧
      k.dirs = [k.vm.paging.kernelPdPhys] := by
  unfold bootHeap at h
  rcases @Pmm.pmmAllocPages_spec vm.pmm heapPages (by decide) with hfail | ⟨start, hok, hle, hfree⟩
  · rw [hfail] at h
    simp only [if_true, reduceCtorEq] at h
  · rw [hok] at h
    dsimp only at h
    split at h
    · cases h
    · generalize hvm : mapHeap (start * pageSize)
        { vm with pmm := vm.pmm.takeRun start heapPages } heapPages = vm' at h
      split at h
      · cases h
      · rename_i hsome
        obtain rfl := Option.some.inj h
        rw [Pmm.frameCount_eq] at hle
        refine ⟨start, hle, fun i hi => hfree _ (Nat.le_add_right _ _) ?_,
          fun g => Pmm.takeRun_spec (by rw [Pmm.frameCount_eq]; exact hle), hvm.symm, ?_, rfl, rfl⟩
        · exact Nat.add_lt_add_left hi start
        · rw [Option.isSome_iff_ne_none]
          exact fun hnone => hsome (Option.isNone_iff_eq_none.mpr hnone)

/-- The frames of the heap, when they have been taken and nothing is mapped yet. -/
theorem boot_spare {img : KernelImage} {mboot : Pmm.MultibootInfo} {mem : Mem} {pmm : Pmm}
    {start : Nat} (hinit : Pmm.pmmInit mem img.linkEnd mboot = some pmm)
    (hle : start + 256 ≤ 2 ^ 20) (hfree : ∀ i < 256, Pmm.Free pmm (start + i)) :
    Roles ⟨pmm.takeRun start 256, pagingInit img.toImage mem⟩ [img.kernelPd] ∧
      ∀ i < 256, Spare ⟨pmm.takeRun start 256, pagingInit img.toImage mem⟩ [img.kernelPd]
        (start + i) := by
  have hroles := pagingInit_roles hinit
  have htaken : ∀ g, Pmm.Free (pmm.takeRun start 256) g ↔
      Pmm.Free pmm g ∧ ¬ (start ≤ g ∧ g < start + 256) := fun g =>
    Pmm.takeRun_spec (by rw [Pmm.frameCount_eq]; exact hle)
  refine ⟨hroles.take fun g hg => ((htaken g).mp hg).1, fun i hi => ?_⟩
  exact hroles.spare (hfree i hi) fun hg => ((htaken _).mp hg).2 ⟨by omega, by omega⟩

/-- **`kmain` boots the kernel into such a state.** -/
theorem bootKernel_booted {img : KernelImage} {mboot : Pmm.MultibootInfo} {mem heapMem : Mem}
    {k : Kernel} (hboot : bootKernel img mboot mem heapMem = some k) : Booted img heapMem k := by
  unfold bootKernel at hboot
  split at hboot
  · cases hboot
  · rename_i pmm hinit
    obtain ⟨start, hle, hfree, -, hvm, hsome, hheap, hdirs⟩ := Kernel.bootHeap_ok hboot
    obtain ⟨hroles₁, hspare⟩ := boot_spare hinit hle hfree
    have hword : ∀ i < 1024, word (pagingInit img.toImage mem).mem img.kernelPd i
        = if i < 256 then img.table i + 3 else 0 := fun i hi => word_pagingInit img.toImage mem hi
    have habsent : ∀ i, 256 ≤ i → i < 1024 →
        ¬ Present (word (pagingInit img.toImage mem).mem img.kernelPd i) := by
      intro i hlow hi
      rw [hword i hi, if_neg (by omega)]
      decide
    have hmap := Kernel.mapHeap_heapMapped hroles₁ hle hspare (habsent 768 (by decide) (by decide))
      (Nat.le_refl 256)
    have hroles₂ := (Kernel.mapHeap_roles hroles₁ hle hspare (Nat.le_refl 256)).1
    rw [← hvm] at hmap hroles₂
    have hcur : k.vm.paging.currentPdPhys = img.kernelPd := hmap.current
    have hkernel : k.vm.paging.kernelPdPhys = img.kernelPd := hmap.kernel
    have hlookup : ∀ q < 2 ^ 20, ¬ (0xC0000 ≤ q ∧ q < 0xC0100) →
        lookup k.vm.paging.mem img.kernelPd q
          = if q < 2 ^ 18 then some (q, pagePresent ||| pageWrite) else none :=
      fun q hq hout => (hmap.lookup q hq hout).trans (pagingInit_lookup img.toImage mem hq)
    rw [hkernel] at hdirs
    refine ⟨hdirs ▸ hroles₂, hdirs, hcur, hkernel, hheap, ?_, ?_, ?_, ?_, ?_⟩
    · intro q hlow hhigh
      rcases hmap.pages with ⟨hsame, -⟩ | ⟨-, hpages⟩
      · -- without the table the first page of the heap would not be there
        rw [Vm.entry, hsame] at hsome
        rw [show (pagingInit img.toImage mem).currentPdPhys = img.kernelPd from rfl,
          pagingInit_lookup img.toImage mem (by decide)] at hsome
        exact absurd hsome (by decide)
      · have hq := hpages (q - 0xC0000) (by omega)
        rw [show 0xC0000 + (q - 0xC0000) = q by omega] at hq
        exact Option.isSome_iff_exists.mpr ⟨_, hq⟩
    · intro q hq hout
      rw [hlookup q hq.2 hout, if_neg (by have := hq.1; omega)]
    · intro q hq
      rw [hlookup q (by omega) (by omega), if_pos hq]
    · intro i hlow hi hne
      have := habsent i hlow hi
      rwa [← show word k.vm.paging.mem img.kernelPd i
        = word (pagingInit img.toImage mem).mem img.kernelPd i from hmap.dir i hi hne] at this
    · -- the frames below 1 MiB are not free, and the heap has 256 of the others
      have hrange : ∀ f, Pmm.Free pmm f → 0x100 ≤ f ∧ f < 2 ^ 20 := by
        intro f hf
        have := free_above hinit hf
        have := img.base
        exact ⟨by omega, Pmm.frameCount_eq ▸ hf.1⟩
      have hbits := Pmm.clearBits_le_of_range hrange
      have hrun : Pmm.clearBits (pmm.takeRun start 256) + 256 = Pmm.clearBits pmm := by
        refine Pmm.clearBits_takeRun (by rw [Pmm.frameCount_eq]; exact hle) fun g hlo hhi => ?_
        rw [show g = start + (g - start) by omega]
        exact hfree _ (by omega)
      have hmono := Pmm.clearBits_mono hmap.free
      dsimp only at hmono
      omega

/-! ## 4. A machine that boots -/

namespace Kernel

variable {vm : Vm} {dirs : List Nat}

/-- With 257 free frames in a row the heap can be set up: 256 for its pages, one for their
table. -/
theorem bootHeap_isSome (h : Roles vm dirs)
    (habsent : ¬ Present (word vm.paging.mem vm.paging.currentPdPhys 768)) {a b : Nat}
    (hfree : ∀ f, a ≤ f → f < b → Pmm.Free vm.pmm f) (hroom : a + 257 ≤ b) (heapMem : Mem) :
    ∃ k, bootHeap vm heapMem = some k ∧ Pmm.clearBits vm.pmm ≤ Pmm.clearBits k.vm.pmm + 257 := by
  have hb : b ≤ Pmm.frameCount := by
    have := (hfree (b - 1) (by omega) (by omega)).1
    omega
  have hbits := Pmm.le_clearBits_of_range hfree
  unfold bootHeap
  rcases @Pmm.pmmAllocPages_spec vm.pmm heapPages (by decide) with hfail | ⟨start, hok, hle, hrun⟩
  · refine absurd hfail (Pmm.pmmAllocPages_ne_fail (by decide)
      (show a + heapPages ≤ Pmm.frameCount by unfold heapPages; omega) ?_ h.zero)
    intro g hlo hhi
    unfold heapPages at hhi
    exact hfree g hlo (by omega)
  · have hstart : start * pageSize ≠ 0 := by
      intro h0
      rcases Nat.mul_eq_zero.mp h0 with rfl | hsize
      · exact h.zero (hrun 0 (Nat.le_refl _) (by decide))
      · exact absurd hsize (by decide)
    have htake := Pmm.clearBits_takeRun hle hrun
    have hle' : start + 256 ≤ 2 ^ 20 := Pmm.frameCount_eq ▸ hle
    have hspare : ∀ i < 256, Spare { vm with pmm := vm.pmm.takeRun start 256 } dirs
        (start + i) := by
      intro i hi
      refine h.spare (hrun _ (Nat.le_add_right _ _) (Nat.add_lt_add_left hi _)) fun hf => ?_
      exact ((Pmm.takeRun_spec hle).mp hf).2 ⟨Nat.le_add_right _ _, Nat.add_lt_add_left hi _⟩
    have hroles : Roles { vm with pmm := vm.pmm.takeRun start 256 } dirs :=
      h.take fun g hg => ((Pmm.takeRun_spec hle).mp hg).1
    have hmap := mapHeap_heapMapped hroles hle' hspare habsent (Nat.le_refl 256)
    have hframes := hmap.frames
    rw [hok]
    dsimp only
    rw [if_neg hstart]
    change Pmm.clearBits (vm.pmm.takeRun start 256) + 256 = Pmm.clearBits vm.pmm at htake
    rw [show mapHeap (start * pageSize) { vm with pmm := vm.pmm.takeRun start heapPages } heapPages
      = mapHeap (start * 4096) { vm with pmm := vm.pmm.takeRun start 256 } 256 from rfl]
    generalize mapHeap (start * 4096) { vm with pmm := vm.pmm.takeRun start 256 } 256 = vm'
      at hmap hframes ⊢
    dsimp only at hframes
    rcases hmap.pages with ⟨-, hsame, hnone⟩ | ⟨-, hpages⟩
    · dsimp only at hsame
      obtain ⟨f, hf⟩ := Pmm.exists_free (show 0 < Pmm.clearBits vm'.pmm by omega)
      exact absurd hf (hnone (by decide) f)
    · have hentry := hpages 0 (by decide)
      dsimp only at hentry
      rw [if_neg]
      · exact ⟨_, rfl, by dsimp only; omega⟩
      · rw [Vm.entry, hmap.current]
        dsimp only
        rw [show heapVirt / pageSize = 0xC0000 + 0 by decide, hentry]
        simp

end Kernel

/-- The frames that are free with `kib` KiB above the first MiB and no memory map: those from the
end of the kernel on. -/
theorem upper_free (img : KernelImage) {kib : Nat} (hhigh : kib < 2 ^ 22 - 1024) (mem : Mem) :
    ∃ pmm, Pmm.pmmInit mem img.linkEnd ⟨0, kib, 0, 0⟩ = some pmm ∧
      ∀ f, Pmm.Free pmm f ↔ Pmm.kernelEnd img.linkEnd / pageSize ≤ f ∧ f < (kib + 1024) / 4 := by
  have hflag : ¬ (0#32 &&& 1#32 <<< 6 != 0#32) = true := by decide
  obtain ⟨pmm, hinit, hfree⟩ := @Pmm.pmmInit_upper mem img.linkEnd ⟨0, kib, 0, 0⟩ hflag
  refine ⟨pmm, hinit, fun f => ?_⟩
  rw [hfree]
  dsimp only
  rw [show Pmm.bitmapSize * 32 = 2 ^ 20 by decide, pageSize]
  omega

/-- **A kernel boots on a machine without a memory map**, whatever the memory holds, when there is
enough of it. -/
theorem upper_boots (img : KernelImage) {kib first : Nat} (mem heapMem : Mem)
    (hfirst : Pmm.kernelEnd img.linkEnd / pageSize = first) (hlow : first + 257 ≤ (kib + 1024) / 4)
    (hhigh : kib < 2 ^ 22 - 1024) :
    ∃ k, bootKernel img ⟨0, kib, 0, 0⟩ mem heapMem = some k ∧
      (kib + 1024) / 4 ≤ Pmm.clearBits k.vm.pmm + (first + 257) := by
  obtain ⟨pmm, hinit, hfree⟩ := upper_free img hhigh mem
  rw [hfirst] at hfree
  have hroles := pagingInit_roles hinit
  have habsent : ¬ Present (word (pagingInit img.toImage mem).mem img.kernelPd 768) := by
    rw [word_pagingInit img.toImage mem (by decide), if_neg (by decide)]
    decide
  have hrange : ∀ f, first ≤ f → f < (kib + 1024) / 4 → Pmm.Free pmm f :=
    fun f hlo hhi => (hfree f).mpr ⟨hlo, hhi⟩
  have hbits := Pmm.le_clearBits_of_range hrange
  obtain ⟨k, hk, hframes⟩ := Kernel.bootHeap_isSome hroles habsent hrange hlow heapMem
  dsimp only at hframes
  refine ⟨k, ?_, by omega⟩
  unfold bootKernel
  rw [hinit]
  exact hk

/-- A kernel image that ends 1 MiB and one page above 2 MiB. -/
def smallKernel : KernelImage where
  toImage := Paging.smallImage
  linkEnd := 0x301000
  base := by decide
  fits := by decide
  pdBelow := by decide
  tablesBelow := by decide

theorem smallKernel_free {kib : Nat} (hhigh : kib < 2 ^ 22 - 1024) (mem : Mem) :
    ∃ pmm, Pmm.pmmInit mem smallKernel.linkEnd ⟨0, kib, 0, 0⟩ = some pmm ∧
      ∀ f, Pmm.Free pmm f ↔ 0x301 ≤ f ∧ f < (kib + 1024) / 4 := upper_free smallKernel hhigh mem

theorem smallKernel_boots {kib : Nat} (hlow : 0x1000 ≤ kib) (hhigh : kib < 2 ^ 22 - 1024)
    (mem heapMem : Mem) : ∃ k, bootKernel smallKernel ⟨0, kib, 0, 0⟩ mem heapMem = some k ∧
      (kib + 1024) / 4 ≤ Pmm.clearBits k.vm.pmm + 0x402 :=
  upper_boots smallKernel mem heapMem (by decide) (by omega) hhigh

end FlowOS
