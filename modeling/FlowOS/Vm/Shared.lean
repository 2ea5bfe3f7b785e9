/-
# The heap in every directory

The kernel runs in the directory of whichever process is current, so its heap has to be mapped the
same way in all of them.  A clone starts with the entries of the kernel directory, and from then on
shares the tables that were there, not those that come later: `paging_map_page` enters a new table
into the current directory only.

So the directories agree for as long as the heap stays within the first 4 MiB, whose table exists
before the first clone, and behind that until the heap grows into a region whose table is not
common to all of them.  Here is the exact condition, action by action.
-/
import FlowOS.Vm.Steady
import FlowOS.Vm.Access

namespace FlowOS

open Word Frames Paging

/-! ## 1. Mapping a page, in all directories -/

section MapPage

variable {vm : Vm} {dirs : List Nat} {v p flags : Nat}

/-- The table entry `paging_map_page` writes. -/
def Paging.entryWord (p flags : Nat) : Nat := p &&& 0xFFFFF000 ||| flags ||| pagePresent

theorem entryWord_lt (hp : p < 2 ^ 32) (hflags : flags < 2 ^ 32) : entryWord p flags < 2 ^ 32 :=
  Nat.or_lt_two_pow (Nat.or_lt_two_pow (lt_of_le_of_lt Nat.and_le_left hp) hflags) (by decide)

/-- The bits of an address in the flags are part of the address that is mapped. -/
theorem entryWord_normal (hp : p < 2 ^ 32) (hflags : flags < 2 ^ 32) :
    entryWord (frameOf (entryWord p flags)) (entryWord p flags % 4096) = entryWord p flags := by
  have hlt := entryWord_lt hp hflags
  have hodd : entryWord p flags % 4096 ||| pagePresent = entryWord p flags % 4096 := by
    have h1 : entryWord p flags % 2 = 1 := or_one_mod_two _
    have hbit : ∀ n, n % 2 = 1 → n ||| 1 = n := fun n hn => by
      refine Nat.eq_of_testBit_eq fun i => ?_
      rw [Nat.testBit_or]
      cases i with
      | zero => simp [hn]
      | succ i => simp [Nat.testBit_succ]
    exact hbit _ (by omega)
  have hframe : frameOf (entryWord p flags) < 2 ^ 32 := frameOf_lt hlt
  have hsame : frameOf (frameOf (entryWord p flags)) = frameOf (entryWord p flags) := by
    unfold frameOf
    omega
  have hpte := pte_eq hframe (show entryWord p flags % 4096 < 0x1000 from Nat.mod_lt _ (by decide))
  rw [hodd, hsame] at hpte
  refine hpte.trans ?_
  unfold frameOf
  omega

/-- So every call is one with flags proper. -/
theorem Vm.mapPage_normal (hp : p < 2 ^ 32) (hflags : flags < 2 ^ 32) (v : Nat) (vm : Vm) :
    vm.mapPage v p flags
      = vm.mapPage v (frameOf (entryWord p flags)) (entryWord p flags % 4096) := by
  have htable : ∀ pg : Paging, mapInTable pg v p flags
      = mapInTable pg v (frameOf (entryWord p flags)) (entryWord p flags % 4096) := fun pg => by
    have := entryWord_normal hp hflags
    unfold entryWord at this
    unfold mapInTable entryWord
    rw [this]
  have huser : (entryWord p flags % 4096) &&& pageUser = flags &&& pageUser := by
    have hlow : (entryWord p flags % 4096) &&& pageUser = entryWord p flags &&& pageUser := by
      rw [show (4096 : Nat) = 2 ^ 12 from rfl, ← Nat.and_two_pow_sub_one_eq_mod, Nat.and_assoc]
      rfl
    rw [hlow, entryWord, pte_and_user]
  have hadd : ∀ t, addTable vm.paging t v flags
      = addTable vm.paging t v (entryWord p flags % 4096) := fun t => by
    unfold addTable
    rw [huser]
  unfold Vm.mapPage pagingMapPage
  simp only [htable, hadd]

/-- The directory has the table in which the current one has the page, before the page is mapped. -/
def Vm.HasTable (vm : Vm) (d v : Nat) : Prop :=
  d = vm.paging.currentPdPhys ∨
    (Present (word vm.paging.mem vm.paging.currentPdPhys (pdIndex v)) ∧
      Shares vm.paging d (pdIndex v))

/-- **Which directories have the page** after it has been mapped to the frame `F`. -/
theorem Tabled.map_maps_iff (h : Tabled vm dirs) (hv : v < 2 ^ 32) (hp : p < 2 ^ 32)
    (hflags : flags < 0x1000)
    (hframe : Present (word vm.paging.mem vm.paging.currentPdPhys (pdIndex v)) ∨
      (Pmm.pmmAllocPage vm.pmm).1 ≠ 0) {d : Nat} (hd : d ∈ dirs) :
    (vm.mapPage v p flags).Maps d (v / 4096) (p / 4096) ↔
      vm.HasTable d v ∨ vm.Maps d (v / 4096) (p / 4096) := by
  rcases h.map_cases hv hp hflags with ⟨hno, hz, -⟩ | ⟨-, hm⟩
  · exact absurd hframe (not_or.mpr ⟨hno, fun hne => hne hz⟩)
  · have hi := pdIndex_lt hv
    have hshares : Shares (vm.mapPage v p flags).paging d (pdIndex v) ↔ vm.HasTable d v := by
      by_cases hpres : Present (word vm.paging.mem vm.paging.currentPdPhys (pdIndex v))
      · -- no directory has changed
        have hdir : ∀ d ∈ dirs, word (vm.mapPage v p flags).paging.mem d (pdIndex v)
            = word vm.paging.mem d (pdIndex v) := fun d hd => by
          refine hm.dir d hd _ hi ?_
          rintro ⟨rfl, -, habsent⟩
          exact habsent hpres
        unfold Shares Vm.HasTable
        rw [hm.current, hdir d hd, hdir _ h.inv.current]
        constructor
        · exact fun hs => Or.inr ⟨hpres, hs⟩
        · rintro (rfl | ⟨-, hs⟩)
          · exact ⟨hpres, rfl⟩
          · exact hs
      · -- the table is new, and the current directory's only
        constructor
        · intro hs
          refine Or.inl (by_contra fun hne => ?_)
          have hsame := hm.dir d hd _ hi fun hc => hne hc.1
          unfold Shares at hs
          rw [hm.current, hsame] at hs
          exact hm.fresh hpres (Or.inr ⟨d, hd, _, hi, hs.1, hs.2⟩)
        · rintro (rfl | ⟨hc, -⟩)
          · exact ⟨hm.present, by rw [hm.current]⟩
          · exact absurd hc hpres
    unfold Vm.Maps
    rw [hm.lookup d hd _ (by omega)]
    by_cases hs : Shares (vm.mapPage v p flags).paging d (pdIndex v)
    · rw [if_pos ⟨rfl, hs⟩]
      exact iff_of_true ⟨_, rfl⟩ (Or.inl (hshares.mp hs))
    · rw [if_neg fun hc => hs hc.2]
      exact (or_iff_right fun ht => hs (hshares.mpr ht)).symm

/-- The other pages stay as they are, in every directory. -/
theorem Tabled.map_lookup_other (h : Tabled vm dirs) (hv : v < 2 ^ 32) (hp : p < 2 ^ 32)
    (hflags : flags < 0x1000) {d q : Nat} (hd : d ∈ dirs) (hq : q < 2 ^ 20) (hne : q ≠ v / 4096) :
    lookup (vm.mapPage v p flags).paging.mem d q = lookup vm.paging.mem d q := by
  rcases h.map_cases hv hp hflags with ⟨-, -, he⟩ | ⟨-, hm⟩
  · rw [he]
  · rw [hm.lookup d hd q hq, if_neg fun hc => hne hc.1]

end MapPage

namespace Kernel

variable {k k' : Kernel}

/-! ## 2. Agreement -/

/-- Translation of an address through a directory. -/
def translate (mem : Mem) (pd a : Nat) : Option Nat :=
  (lookup mem pd (a / 4096)).map fun e => e.1 * 4096 + a % 4096

/-- **All directories agree on the heap**: every address of it is translated, and as the kernel
directory translates it. -/
def Agree (k : Kernel) : Prop :=
  ∀ d ∈ k.dirs, ∀ o < k.heap.heapSize,
    (translate k.vm.paging.mem d (add32 k.heap.heapVirtStart o)).isSome ∧
      translate k.vm.paging.mem d (add32 k.heap.heapVirtStart o)
        = translate k.vm.paging.mem k.vm.paging.kernelPdPhys (add32 k.heap.heapVirtStart o)

/-- The page number of the `i`-th page of the heap. -/
def heapPageNo (i : Nat) : Nat := (0xC0000 + i) % 2 ^ 20

/-- Where the heap is, and how far it can grow. -/
structure Placed (k : Kernel) : Prop where
  tabled : Tabled k.vm k.dirs
  fits : k.HeapFits
  virt : k.heap.heapVirtStart = 0xC0000000
  size : 4096 ∣ k.heap.heapSize

/-- A page on which all directories agree. -/
def AgreePage (k : Kernel) (q : Nat) : Prop := ∃ F, ∀ d ∈ k.dirs, k.vm.Maps d q F

theorem Placed.heapSize_lt (h : Placed k) : k.heap.heapSize < 2 ^ 32 := by
  have := h.fits
  unfold HeapFits at this
  omega

theorem Placed.page (h : Placed k) (o : Nat) :
    add32 k.heap.heapVirtStart o / 4096 = heapPageNo (o / 4096) := by
  rw [h.virt]
  unfold add32 heapPageNo
  omega

/-- Agreement, page by page. -/
theorem Placed.agree_iff (h : Placed k) :
    Agree k ↔ ∀ i, 4096 * i < k.heap.heapSize → AgreePage k (heapPageNo i) := by
  have hmaps : ∀ d q F, k.vm.Maps d q F ↔
      (lookup k.vm.paging.mem d q).map Prod.fst = some F := by
    intro d q F
    unfold Vm.Maps
    cases lookup k.vm.paging.mem d q with
    | none => simp
    | some e =>
      simp only [Option.some.injEq, Option.map_some]
      exact ⟨fun ⟨f, hf⟩ => by rw [hf], fun hF => ⟨e.2, Prod.ext hF rfl⟩⟩
  have htrans : ∀ d a F, k.vm.Maps d (a / 4096) F ↔
      translate k.vm.paging.mem d a = some (F * 4096 + a % 4096) := by
    intro d a F
    rw [hmaps]
    unfold translate
    cases lookup k.vm.paging.mem d (a / 4096) with
    | none => simp
    | some e =>
      simp only [Option.map_some, Option.some.injEq]
      omega
  constructor
  · intro hag i hi
    have hpage := h.page (4096 * i)
    rw [Nat.mul_div_cancel_left i (by decide)] at hpage
    obtain ⟨hsome, -⟩ := hag _ h.tabled.inv.kernel (4096 * i) hi
    rw [translate, Option.isSome_map, hpage] at hsome
    obtain ⟨⟨F, fl⟩, hF⟩ := Option.isSome_iff_exists.mp hsome
    refine ⟨F, fun d hd => ?_⟩
    have hk : k.vm.Maps k.vm.paging.kernelPdPhys (heapPageNo i) F := ⟨fl, hF⟩
    rw [← hpage] at hk ⊢
    rw [htrans] at hk ⊢
    rw [(hag d hd (4096 * i) hi).2, hk]
  · intro hpages d hd o ho
    obtain ⟨F, hF⟩ := hpages (o / 4096) (by have := h.size; omega)
    have hd' := hF d hd
    have hk := hF _ h.tabled.inv.kernel
    rw [← h.page o, htrans] at hd' hk
    rw [hd', hk]
    exact ⟨rfl, rfl⟩

/-! ## 3. Actions -/

/-- What a run is made of. -/
inductive HeapAct
  | clone
  | switch (pd : Nat)
  | kmalloc (size : Nat)
  | map (v p flags : Nat)

/-- The state after an action. -/
def heapNext (k : Kernel) : HeapAct → Kernel
  | .clone => k.clonePd
  | .switch pd => { k with vm := k.vm.switch pd }
  | .kmalloc size => ((k.kmalloc size).map Prod.snd).getD k
  | .map v p flags => { k with vm := k.vm.mapPage v p flags }

/-- What may happen: calls with 32-bit arguments that return, and switches to directories in use.
`kmalloc` writes the header of the page it adds; without a frame for the page's table that is a page
fault that cannot be resolved. -/
def HeapEnabled (k : Kernel) : HeapAct → Prop
  | .clone => True
  | .switch pd => pd ∈ k.dirs
  | .kmalloc size => (k.kmalloc size).isSome ∧ (k.heap.Expands size → k.vm.allocPage.1 ≠ 0 →
      Present (word k.vm.paging.mem k.vm.paging.currentPdPhys (pdIndex k.heap.newVirt)) ∨
        k.vm.allocPage.2.allocPage.1 ≠ 0)
  | .map v p flags => v < 2 ^ 32 ∧ p < 2 ^ 32 ∧ flags < 2 ^ 32

/-- Every directory has the table the page is entered into, or has the page at that frame. -/
def Common (k : Kernel) (v F : Nat) : Prop :=
  ∀ d ∈ k.dirs, k.vm.HasTable d v ∨ k.vm.Maps d (v / 4096) F

/-- **The condition**: a page of the heap is mapped, by `kmalloc` or directly, where it is common to
all directories. -/
def Uniform (k : Kernel) : HeapAct → Prop
  | .clone => True
  | .switch _ => True
  | .kmalloc size => k.heap.Expands size → k.vm.allocPage.1 ≠ 0 →
      Common k k.heap.newVirt (k.vm.allocPage.1 / 4096)
  | .map v p flags => (∃ o < k.heap.heapSize, v / 4096 = add32 k.heap.heapVirtStart o / 4096) →
      Common k v (entryWord p flags / 4096)

/-! ## 4. Each action -/

/-- A page that is mapped, when the current directory has it afterwards. -/
theorem agreePage_map {vm : Vm} {dirs : List Nat} {v p flags : Nat} (h : Tabled vm dirs)
    (hv : v < 2 ^ 32) (hp : p < 2 ^ 32) (hflags : flags < 0x1000)
    (hframe : Present (word vm.paging.mem vm.paging.currentPdPhys (pdIndex v)) ∨
      (Pmm.pmmAllocPage vm.pmm).1 ≠ 0) :
    (∃ F, ∀ d ∈ dirs, (vm.mapPage v p flags).Maps d (v / 4096) F) ↔
      ∀ d ∈ dirs, vm.HasTable d v ∨ vm.Maps d (v / 4096) (p / 4096) := by
  constructor
  · rintro ⟨F, hF⟩ d hd
    have hcur := (h.map_maps_iff hv hp hflags hframe h.inv.current).mpr (Or.inl (Or.inl rfl))
    obtain ⟨fl, hl⟩ := hF _ h.inv.current
    obtain ⟨fl', hl'⟩ := hcur
    obtain rfl : F = p / 4096 := (Prod.mk.inj (Option.some.inj (hl.symm.trans hl'))).1
    exact (h.map_maps_iff hv hp hflags hframe hd).mp (hF d hd)
  · exact fun hall => ⟨p / 4096, fun d hd => (h.map_maps_iff hv hp hflags hframe hd).mpr
      (hall d hd)⟩

theorem heapPageNo_ne {i j : Nat} (hi : i < 2 ^ 20) (hj : j < 2 ^ 20) (hne : i ≠ j) :
    heapPageNo i ≠ heapPageNo j := by
  unfold heapPageNo
  omega

theorem heapPageNo_lt (i : Nat) : heapPageNo i < 2 ^ 20 := Nat.mod_lt _ (by decide)

theorem Placed.clone (h : Placed k) : Placed k.clonePd := by
  refine ⟨?_, h.fits.mono rfl fun _ => Vm.free_of_clone, h.virt, h.size⟩
  unfold clonePd
  dsimp only
  rcases h.tabled.clone_cases with ⟨hz, -, ht⟩ | ⟨hz, -, -, ht⟩
  · rw [if_pos hz]
    exact ht
  · rw [if_neg hz]
    exact ht

/-- A clone agrees with the kernel directory. -/
theorem agree_clone (h : Placed k) (hag : Agree k) : Agree k.clonePd := by
  rw [h.clone.agree_iff]
  rw [h.agree_iff] at hag
  intro i hi
  obtain ⟨F, hF⟩ := hag i hi
  refine ⟨F, ?_⟩
  unfold clonePd
  dsimp only
  rcases h.tabled.clone_cases with ⟨hz, hp, -⟩ | ⟨hz, -, hc, -⟩
  · rw [if_pos hz]
    intro d hd
    unfold Vm.Maps
    rw [hp]
    exact hF d hd
  · rw [if_neg hz]
    intro d hd
    unfold Vm.Maps
    rcases List.mem_cons.mp hd with rfl | hd
    · rw [hc.newLookup _ (heapPageNo_lt i)]
      exact hF _ h.tabled.inv.kernel
    · rw [hc.lookup d hd _ (heapPageNo_lt i)]
      exact hF d hd

theorem Placed.switch (h : Placed k) {d : Nat} (hd : d ∈ k.dirs) :
    Placed { k with vm := k.vm.switch d } :=
  ⟨h.tabled.switch hd, h.fits.mono rfl fun _ hg => hg, h.virt, h.size⟩

theorem Placed.map (h : Placed k) {v p flags : Nat} (hv : v < 2 ^ 32) (hp : p < 2 ^ 32)
    (hflags : flags < 0x1000) : Placed { k with vm := k.vm.mapPage v p flags } :=
  ⟨h.tabled.map hv hp hflags, h.fits.mono rfl fun _ => Vm.free_of_map, h.virt, h.size⟩

/-- A direct call of `paging_map_page`. -/
theorem agree_map_iff (h : Placed k) (hag : Agree k) {v p flags : Nat} (hv : v < 2 ^ 32)
    (hp : p < 2 ^ 32) (hflags : flags < 0x1000) :
    Agree { k with vm := k.vm.mapPage v p flags } ↔
      ((∃ o < k.heap.heapSize, v / 4096 = add32 k.heap.heapVirtStart o / 4096) →
        Common k v (p / 4096)) := by
  rw [(h.map hv hp hflags).agree_iff]
  rw [h.agree_iff] at hag
  -- the pages other than the one that is mapped
  have hother : ∀ i, 4096 * i < k.heap.heapSize → heapPageNo i ≠ v / 4096 →
      AgreePage { k with vm := k.vm.mapPage v p flags } (heapPageNo i) := fun i hi hne => by
    obtain ⟨F, hF⟩ := hag i hi
    refine ⟨F, fun d hd => ?_⟩
    unfold Vm.Maps
    rw [h.tabled.map_lookup_other hv hp hflags hd (heapPageNo_lt i) hne]
    exact hF d hd
  have hpres : ∀ i, 4096 * i < k.heap.heapSize → heapPageNo i = v / 4096 →
      Present (word k.vm.paging.mem k.vm.paging.currentPdPhys (pdIndex v)) := fun i hi he => by
    obtain ⟨F, hF⟩ := hag i hi
    obtain ⟨fl, hl⟩ := hF _ h.tabled.inv.current
    have hentry : (k.vm.entry (heapPageNo i)).isSome := by
      rw [Vm.entry, hl]
      rfl
    rw [pdIndex_eq, ← he]
    exact present_of_entry hentry
  constructor
  · rintro hall ⟨o, ho, he⟩
    rw [h.page o] at he
    have hi : 4096 * (o / 4096) < k.heap.heapSize := by have := h.size; omega
    have hpage := hall (o / 4096) hi
    rw [← he] at hpage
    exact (agreePage_map h.tabled hv hp hflags (Or.inl (hpres _ hi he.symm))).mp hpage
  · intro hcond i hi
    by_cases he : heapPageNo i = v / 4096
    · have hcommon := hcond ⟨4096 * i, hi, by
        rw [h.page, Nat.mul_div_cancel_left i (by decide), he]⟩
      rw [he]
      exact (agreePage_map h.tabled hv hp hflags (Or.inl (hpres i hi he))).mpr hcommon
    · exact hother i hi he

/-- Agreement depends on the tables and on where the heap is. -/
theorem Agree.congr (h : Agree k) (hdirs : k'.dirs = k.dirs) (hpaging : k'.vm.paging = k.vm.paging)
    (hvirt : k'.heap.heapVirtStart = k.heap.heapVirtStart)
    (hsize : k'.heap.heapSize = k.heap.heapSize) : Agree k' := by
  unfold Agree
  rw [hdirs, hpaging, hvirt, hsize]
  exact h

/-- What `kmalloc` does here: nothing, or it maps the page behind the heap to a frame. -/
theorem Placed.kmalloc_cases (h : Placed k) {n p : Nat} (hk : k.kmalloc n = some (p, k')) :
    (¬ (k.heap.Expands n ∧ k.vm.allocPage.1 ≠ 0) ∧ k'.vm.paging = k.vm.paging ∧
      (∀ g, Pmm.Free k'.vm.pmm g → Pmm.Free k.vm.pmm g) ∧ k'.heap.heapSize = k.heap.heapSize) ∨
    ((k.heap.Expands n ∧ k.vm.allocPage.1 ≠ 0) ∧
      k'.vm = k.vm.allocPage.2.mapPage k.heap.newVirt k.vm.allocPage.1 (pagePresent ||| pageWrite) ∧
      k'.heap.heapSize = k.heap.heapSize + 4096) := by
  obtain ⟨-, -, hvm⟩ := kmalloc_vm hk
  by_cases hexp : k.heap.Expands n
  · rw [if_pos hexp] at hvm
    by_cases hz : k.vm.allocPage.1 = 0
    · rw [if_pos hz, Vm.backPage, if_pos hz] at hvm
      refine Or.inl ⟨fun hc => hc.2 hz, by rw [hvm.1]; rfl, fun g hg => ?_, hvm.2⟩
      rw [hvm.1] at hg
      exact Vm.free_of_alloc hg
    · rw [if_neg hz, Vm.backPage, if_neg hz] at hvm
      refine Or.inr ⟨⟨hexp, hz⟩, hvm.1, ?_⟩
      cases kmalloc_grows h.tabled.zero h.fits hk with
      | grows _ hsize => exact hsize
      | stays _ _ hsize =>
        have hlt := h.heapSize_lt
        have hadd := hvm.2.symm.trans hsize
        unfold add32 pageSize at hadd
        omega
  · rw [if_neg hexp] at hvm
    exact Or.inl ⟨fun hc => hexp hc.1, by rw [hvm.1], fun g hg => by rwa [hvm.1] at hg, hvm.2⟩

theorem Placed.kmalloc (h : Placed k) {n p : Nat} (hk : k.kmalloc n = some (p, k')) :
    Placed k' := by
  obtain ⟨hdirs, hvirt, -⟩ := kmalloc_vm hk
  have hfits : k'.HeapFits := by
    cases kmalloc_grows h.tabled.zero h.fits hk with
    | stays _ hfree hsize => exact h.fits.mono hsize hfree
    | grows _ hsize hframes =>
      have := h.fits
      unfold HeapFits at this ⊢
      omega
  rcases h.kmalloc_cases hk with ⟨-, hpaging, hfree, hsize⟩ | ⟨⟨-, hz⟩, hvm, hsize⟩
  · refine ⟨?_, hfits, hvirt.trans h.virt, hsize ▸ h.size⟩
    have hsame : k'.vm = ⟨k'.vm.pmm, k.vm.paging⟩ := by rw [← hpaging]
    rw [hdirs, hsame]
    exact h.tabled.take hfree
  · refine ⟨?_, hfits, hvirt.trans h.virt, hsize ▸ (Nat.dvd_add h.size (Nat.dvd_refl _))⟩
    rw [hdirs, hvm]
    exact h.tabled.alloc.map (add32_lt _ _) (Pmm.alloc_addr hz).2.1 (by decide)

/-- `kmalloc`, which may add a page. -/
theorem agree_kmalloc_iff (h : Placed k) (hag : Agree k) {n p : Nat}
    (hk : k.kmalloc n = some (p, k'))
    (hback : k.heap.Expands n → k.vm.allocPage.1 ≠ 0 →
      Present (word k.vm.paging.mem k.vm.paging.currentPdPhys (pdIndex k.heap.newVirt)) ∨
        k.vm.allocPage.2.allocPage.1 ≠ 0) :
    Agree k' ↔ (k.heap.Expands n → k.vm.allocPage.1 ≠ 0 →
      Common k k.heap.newVirt (k.vm.allocPage.1 / 4096)) := by
  obtain ⟨hdirs, hvirt, -⟩ := kmalloc_vm hk
  rcases h.kmalloc_cases hk with ⟨hno, hpaging, -, hsize⟩ | ⟨⟨hexp, hz⟩, hvm, hsize⟩
  · exact iff_of_true (hag.congr hdirs hpaging hvirt hsize) fun h1 h2 => absurd ⟨h1, h2⟩ hno
  · have hp : k.vm.allocPage.1 < 2 ^ 32 := (Pmm.alloc_addr hz).2.1
    have hv : k.heap.newVirt < 2 ^ 32 := add32_lt _ _
    have hflags : pagePresent ||| pageWrite < 0x1000 := by decide
    have hnew : k.heap.newVirt / 4096 = heapPageNo (k.heap.heapSize / 4096) := h.page _
    have hlt := h.heapSize_lt
    have hnewAgree := agreePage_map h.tabled.alloc hv hp hflags (hback hexp hz)
    rw [(h.kmalloc hk).agree_iff]
    rw [h.agree_iff] at hag
    have hpages : ∀ q, AgreePage k' q ↔ ∃ F, ∀ d ∈ k.dirs, (k.vm.allocPage.2.mapPage k.heap.newVirt
        k.vm.allocPage.1 (pagePresent ||| pageWrite)).Maps d q F := fun q => by
      unfold AgreePage
      rw [hdirs, hvm]
    constructor
    · intro hall _ _
      have hlast := hall (k.heap.heapSize / 4096) (by rw [hsize]; have := h.size; omega)
      rw [hpages, ← hnew] at hlast
      exact hnewAgree.mp hlast
    · intro hcond i hi
      rw [hpages]
      by_cases hlast : i = k.heap.heapSize / 4096
      · rw [hlast, ← hnew]
        exact hnewAgree.mpr (hcond hexp hz)
      · have hold : 4096 * i < k.heap.heapSize := by
          rw [hsize] at hi
          have := h.size
          omega
        obtain ⟨F, hF⟩ := hag i hold
        refine ⟨F, fun d hd => ?_⟩
        have hne : heapPageNo i ≠ k.heap.newVirt / 4096 :=
          hnew ▸ heapPageNo_ne (by omega) (by omega) hlast
        unfold Vm.Maps
        rw [h.tabled.alloc.map_lookup_other hv hp hflags hd (heapPageNo_lt i) hne]
        exact hF d hd

/-! ## 5. Runs -/

/-- **Step lemma**, the invariant. -/
theorem placed_next (h : Placed k) {a : HeapAct} (ha : HeapEnabled k a) :
    Placed (heapNext k a) := by
  cases a with
  | clone => exact h.clone
  | switch pd => exact h.switch ha
  | kmalloc size =>
    obtain ⟨⟨p, k'⟩, hk⟩ := Option.isSome_iff_exists.mp ha.1
    rw [heapNext, hk]
    exact h.kmalloc hk
  | map v p flags =>
    obtain ⟨hv, hp, hflags⟩ := ha
    have hlt := entryWord_lt hp hflags
    rw [heapNext, Vm.mapPage_normal hp hflags]
    exact h.map hv (frameOf_lt hlt) (Nat.mod_lt _ (by decide))

/-- **Step lemma**, agreement. -/
theorem agree_next_iff (h : Placed k) {a : HeapAct} (ha : HeapEnabled k a) (hag : Agree k) :
    Agree (heapNext k a) ↔ Uniform k a := by
  cases a with
  | clone => exact iff_of_true (agree_clone h hag) trivial
  | switch pd => exact iff_of_true hag trivial
  | kmalloc size =>
    obtain ⟨⟨p, k'⟩, hk⟩ := Option.isSome_iff_exists.mp ha.1
    rw [heapNext, hk]
    exact agree_kmalloc_iff h hag hk ha.2
  | map v p flags =>
    obtain ⟨hv, hp, hflags⟩ := ha
    have hlt := entryWord_lt hp hflags
    have hframe : frameOf (entryWord p flags) / 4096 = entryWord p flags / 4096 :=
      Nat.mul_div_cancel _ (by decide)
    have hiff := agree_map_iff h hag hv (frameOf_lt hlt)
      (show entryWord p flags % 4096 < 0x1000 from Nat.mod_lt _ (by decide))
    rw [heapNext, Vm.mapPage_normal hp hflags]
    rw [hframe] at hiff
    exact hiff

theorem booted_placed {img : KernelImage} {heapMem : Mem} (hb : Booted img heapMem k) :
    Placed k ∧ Agree k := by
  have hsize : k.heap.heapSize = 0x100000 := by rw [hb.heap]; rfl
  have hplaced : Placed k := by
    refine ⟨hb.roles.toTabled, ?_, by rw [hb.heap]; rfl, hsize ▸ by decide⟩
    have := hb.frames
    unfold HeapFits
    omega
  refine ⟨hplaced, hplaced.agree_iff.mpr fun i hi => ?_⟩
  obtain ⟨⟨F, fl⟩, hF⟩ := Option.isSome_iff_exists.mp
    (hb.mapped (0xC0000 + i) (by omega) (by omega))
  have hpage : heapPageNo i = 0xC0000 + i := Nat.mod_eq_of_lt (by omega)
  refine ⟨F, fun d hd => ⟨fl, ?_⟩⟩
  rw [hb.dirs] at hd
  rw [List.mem_singleton.mp hd, hpage, hF]

/-- The heap has grown by `n` pages and is full, and the directory `d`, which is not the current
one, has no table for the second 4 MiB of it. -/
structure Filled (d n : Nat) (k : Kernel) : Prop where
  placed : Placed k
  full : ∃ bs, Heap.Inv k.heap bs ∧ ∀ b ∈ bs, b.free = false
  start : k.heap.heapStart = 0xC0000000
  size : k.heap.heapSize = 0x100000 + 4096 * n
  frames : 4000 ≤ Pmm.clearBits k.vm.pmm + 2 * n
  dir : d ∈ k.dirs
  other : k.vm.paging.currentPdPhys ≠ d
  absent : ¬ Present (word k.vm.paging.mem d 769)

/-- Nothing that happens in the current directory enters a table into another one. -/
theorem Placed.kmalloc_dir (h : Placed k) {m p d i : Nat} (hk : k.kmalloc m = some (p, k'))
    (hd : d ∈ k.dirs) (hne : k.vm.paging.currentPdPhys ≠ d) (hi : i < 1024) :
    word k'.vm.paging.mem d i = word k.vm.paging.mem d i ∧
      k'.vm.paging.currentPdPhys = k.vm.paging.currentPdPhys := by
  rcases h.kmalloc_cases hk with ⟨-, hpaging, -⟩ | ⟨⟨-, hz⟩, hvm, -⟩
  · rw [hpaging]
    exact ⟨rfl, rfl⟩
  · have hp : k.vm.allocPage.1 < 2 ^ 32 := (Pmm.alloc_addr hz).2.1
    rw [hvm]
    refine ⟨?_, (Vm.map_place _ _ _).2⟩
    rcases h.tabled.alloc.map_cases (add32_lt k.heap.heapVirtStart k.heap.heapSize) hp
      (show pagePresent ||| pageWrite < 0x1000 by decide) with ⟨-, -, hsame⟩ | ⟨-, hm⟩
    · rw [show k.heap.newVirt = add32 k.heap.heapVirtStart k.heap.heapSize from rfl, hsame]
      rfl
    · exact hm.dir d hd i hi fun hc => hne hc.1.symm

/-- One page more. -/
theorem Filled.grow {d n : Nat} (h : Filled d n k) (hn : n < 1000) :
    HeapEnabled k (.kmalloc 4080) ∧ Filled d (n + 1) (heapNext k (.kmalloc 4080)) := by
  obtain ⟨bs, hinv, hused⟩ := h.full
  have hstart := h.start
  have hsize := h.size
  have hframes := h.frames
  have hzero := h.placed.tabled.zero
  obtain ⟨p, k', bs', hk, -, hinv', hused', hst', hsz', hless⟩ := HeapRun.kmalloc_page hinv hused
    (by simp only [pageSize]; omega) h.placed.fits hzero (by omega)
  obtain ⟨hword, hcur⟩ := h.placed.kmalloc_dir (i := 769) hk h.dir h.other (by decide)
  have hnext : heapNext k (.kmalloc 4080) = k' := by
    rw [heapNext, hk]
    rfl
  refine ⟨⟨by rw [hk]; rfl, fun _ hz => Or.inr ?_⟩, ?_⟩
  · intro hz'
    have hone := (h.placed.tabled.second_frame hz).mp hz'
    omega
  · rw [hnext]
    refine ⟨h.placed.kmalloc hk, ⟨bs', hinv', hused'⟩, hst'.trans hstart, ?_, by omega, ?_,
      hcur ▸ h.other, hword ▸ h.absent⟩
    · rw [hsz', hsize, Nat.mul_succ, Nat.add_assoc]
    · rw [(kmalloc_vm hk).1]
      exact h.dir

/-- The first megabyte is taken, then a clone is made. -/
theorem exists_filled_zero : ∃ k₀ d, bootKernel smallKernel ⟨0, 0x10000, 0, 0⟩ (fun _ => 0)
    (fun _ => 0) = some k₀ ∧
    Trace.Along heapNext HeapEnabled k₀ [.kmalloc 0xFFFF0, .clone] ∧
    Filled d 0 ([.kmalloc 0xFFFF0, .clone].foldl heapNext k₀) := by
  obtain ⟨k₀, hboot, hframes⟩ :=
    @smallKernel_boots 0x10000 (by decide) (by decide) (fun _ => 0) fun _ => 0
  have hb := bootKernel_booted hboot
  obtain ⟨hplaced, -⟩ := booted_placed hb
  obtain ⟨h', hk, hinv, hst, hsz⟩ := HeapRun.boot_exhaust hb
  have hnext : heapNext k₀ (.kmalloc 0xFFFF0) = { k₀ with heap := h' } := by
    rw [heapNext, hk]
    rfl
  have hmany : 15000 ≤ Pmm.clearBits k₀.vm.pmm := by omega
  have hz : k₀.vm.clonePd.1 ≠ 0 := hplaced.tabled.clone_ne_zero (by omega)
  have hplaced₁ := hplaced.kmalloc hk
  have hleft : Pmm.clearBits k₀.vm.clonePd.2.pmm + 1 = Pmm.clearBits k₀.vm.pmm :=
    Vm.clonePd_frames hz
  refine ⟨k₀, k₀.vm.clonePd.1, hboot, ⟨⟨by rw [hk]; rfl, fun _ hz₁ => Or.inr fun hz₂ => ?_⟩,
    trivial, trivial⟩, ?_⟩
  · have hone := (hplaced.tabled.second_frame hz₁).mp hz₂
    omega
  · rw [List.foldl_cons, hnext]
    obtain ⟨-, hfree, hc, -⟩ := hplaced.tabled.clone_cases.resolve_left fun hz' => hz hz'.1
    have hvm : ([HeapAct.clone].foldl heapNext { k₀ with heap := h' }).vm = k₀.vm.clonePd.2 := rfl
    refine ⟨hplaced₁.clone, ⟨_, hinv, by simp⟩, hst, hsz, ?_, ?_, ?_, ?_⟩
    · rw [hvm]
      omega
    · have hdirs : ({ k₀ with heap := h' } : Kernel).clonePd.dirs = k₀.vm.clonePd.1 :: k₀.dirs :=
        if_neg hz
      rw [List.foldl_cons, List.foldl_nil, heapNext, hdirs]
      exact List.mem_cons_self
    · rw [hvm, hc.current]
      intro he
      exact hplaced.tabled.held _ (Or.inl hplaced.tabled.inv.current) (he ▸ hfree)
    · rw [hvm, hc.newDir 769 (by decide), hb.kernel]
      exact hb.absent 769 (by decide) (by decide) (by decide)

theorem exists_filled (n : Nat) (hn : n ≤ 1000) : ∃ k₀ d acts, bootKernel smallKernel
    ⟨0, 0x10000, 0, 0⟩ (fun _ => 0) (fun _ => 0) = some k₀ ∧
    Trace.Along heapNext HeapEnabled k₀ acts ∧ Filled d n (acts.foldl heapNext k₀) := by
  induction n with
  | zero =>
    obtain ⟨k₀, d, hboot, hrun, hfill⟩ := exists_filled_zero
    exact ⟨k₀, d, _, hboot, hrun, hfill⟩
  | succ n ih =>
    obtain ⟨k₀, d, acts, hboot, hrun, hfill⟩ := ih (by omega)
    obtain ⟨henabled, hgrown⟩ := hfill.grow (by omega)
    refine ⟨k₀, d, acts ++ [.kmalloc 4080], hboot, hrun.snoc henabled, ?_⟩
    rw [List.foldl_append]
    exact hgrown

end Kernel

end FlowOS
