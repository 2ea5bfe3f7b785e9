/-
# Runs in which every growth of the heap pays

When `kmalloc` adds a page and still fails, the page stays behind as a free block, next to
whatever was free before it.  In the runs in which that does not happen the list is always
coalesced, and freeing everything that is held leaves one block, in whatever order it is done.
That is so until the heap ends at `2 ^ 32`: then the bound in `kfree` wraps to 0, and no pointer
is accepted any more.
-/
import FlowOS.Vm.HeapGrowth
import FlowOS.Heap.Coalesced

namespace FlowOS

/-- A kernel image that is little more than its directory and page tables. -/
def tightKernel : KernelImage where
  kernelPd := 0x110000
  kernelPageTables := 0x111000
  pdAligned := by decide
  tablesAligned := by decide
  pdFits := by decide
  tablesFit := by decide
  apart := by decide
  linkEnd := 0x211000
  base := by decide
  fits := by decide
  pdBelow := by decide
  tablesBelow := by decide

namespace HeapRun

open Word Heap

variable {k : Kernel} {s : State} {bs : List Block} {all : List (Nat × Nat)} {e : Nat × Nat}
  {n : Nat}

/-! ## 1. The runs -/

/-- A `kmalloc` that grows the heap succeeds. -/
def Pays (s : State) : Act → Prop
  | .kmalloc n => ∀ p k', s.kernel.kmalloc n = some (p, k') →
    k'.heap.heapSize ≠ s.kernel.heap.heapSize → p ≠ 0
  | _ => True

/-- The states reached by runs from boot in which every `kmalloc` that grows the heap succeeds. -/
def Steady (s : State) : Prop :=
  ∃ img mboot mem heapMem k₀ acts, bootKernel img mboot mem heapMem = some k₀ ∧
    Trace.Along next (fun s a => Enabled s a ∧ Pays s a) ⟨k₀, []⟩ acts ∧
    s = acts.foldl next ⟨k₀, []⟩

theorem Steady.next {a : Act} (hs : Steady s) (ha : Enabled s a) (hp : Pays s a) :
    Steady (next s a) := by
  obtain ⟨img, mboot, mem, heapMem, k₀, acts, hboot, hrun, rfl⟩ := hs
  refine ⟨img, mboot, mem, heapMem, k₀, acts ++ [a], hboot, hrun.snoc ⟨ha, hp⟩, ?_⟩
  rw [List.foldl_append]
  rfl

/-- **The invariant of such runs.**  Until the heap has taken all of the address space, the
allocations that are held are all there are; when it has, one of them is there to stay. -/
structure SteadyInv (s : State) (bs : List Block) (all : List (Nat × Nat)) : Prop
    extends RunInv s bs all where
  coalesced : Coalesced bs
  within : s.kernel.heap.heapSize ≤ 0x40000000
  held : s.kernel.heap.heapSize < 0x40000000 → s.live = all
  stuck : s.kernel.heap.heapSize = 0x40000000 → ∃ b ∈ bs, b.free = false

theorem boot_steady {img : KernelImage} {heapMem : Mem} (hb : Booted img heapMem k) :
    SteadyInv ⟨k, []⟩ [⟨0xC0000000, 0x100000, true⟩] [] := by
  have hsize : k.heap.heapSize = 0x100000 := by rw [hb.heap]; rfl
  refine ⟨boot_inv hb, by simp [Coalesced], ?_, fun _ => rfl, fun hfull => ?_⟩
  · rw [hsize]
    decide
  · rw [hsize] at hfull
    exact absurd hfull (by decide)

/-- A block handed out is in the list. -/
theorem exists_used {size a : Nat} {bs' : List Block} (ha : alloc size bs = some (a, bs')) :
    ∃ b ∈ bs', b.free = false := by
  obtain ⟨b, hb, -, hfree, -⟩ := alloc_granted ha
  exact ⟨b, hb, hfree⟩

theorem SteadyInv.kmalloc (hi : SteadyInv s bs all) (h1 : 1 ≤ n) (h2 : n ≤ 2 ^ 31 - 1)
    (hp : Pays s (.kmalloc n)) : ∃ bs' all', SteadyInv (next s (.kmalloc n)) bs' all' := by
  obtain ⟨p, k', bs', hk, hi', -, hout⟩ := hi.toRunInv.kmalloc h1 (by omega)
  have hpays := hp p k' hk
  have hstart : s.kernel.heap.heapStart = 0xC0000000 := by
    obtain ⟨-, -, -, -, hstart, -⟩ := hi.sound.view
    exact hstart
  have hgrows := Kernel.kmalloc_grows hi.zero hi.fits hk
  have hsize : k'.heap.heapSize ≠ s.kernel.heap.heapSize →
      k'.heap.heapSize = s.kernel.heap.heapSize + 4096 := fun hne => by
    cases hgrows with
    | stays _ _ hsame => exact absurd hsame hne
    | grows _ hgrown => exact hgrown
  have hheld : k'.heap.heapSize < 0x40000000 →
      (if p = 0 then s.live else (p, n) :: s.live) = if p = 0 then all else (p, n) :: all :=
    fun hlt => by rw [hi.held (by omega)]
  have hpages : 4096 ∣ s.kernel.heap.heapSize := by
    cases hi.sound with
    | below _ _ pages _ => exact pages
    | capped past => exact past.pages
  rw [HeapRun.next, hk]
  refine ⟨bs', _, hi', ?_, ?_, hheld, ?_⟩
  · cases hout with
    | served a ha => exact hi.coalesced.alloc ha
    | grown c a hnone _ ha => exact hi.coalesced.grow hnone ha
    | failed _ hbs => exact hbs ▸ hi.coalesced
    | wasted hp _ hne => exact absurd hp (hpays hne)
  · have hwithin := hi.within
    dsimp only
    cases hout with
    | served a _ _ hsame => omega
    | grown c a _ _ _ _ hbelow hne =>
      have := hsize hne
      omega
    | failed _ _ hsame => omega
    | wasted hp _ hne => exact absurd hp (hpays hne)
  · intro hfull
    cases hout with
    | served a ha => exact exists_used ha
    | grown c a _ _ ha => exact exists_used ha
    | failed _ hbs hsame => exact hbs ▸ hi.stuck (hsame ▸ hfull)
    | wasted hp _ hne => exact absurd hp (hpays hne)

theorem SteadyInv.kfree (hi : SteadyInv s bs all) (he : e ∈ s.live) :
    ∃ bs' all', SteadyInv (next s (.kfree e)) bs' all' := by
  have hsize : (s.kernel.kfree e.1).heap.heapSize = s.kernel.heap.heapSize :=
    (Heap.kfree_place s.kernel.heap e.1).size
  obtain ⟨g, hinv, -, -, hstart, -⟩ := hi.sound.view
  have hwithin := hi.within
  obtain ⟨-, pre, b, post, rfl, -, -, ⟨hbelow, hi'⟩ | ⟨hwraps, hi'⟩⟩ := hi.toRunInv.kfree he
  · refine ⟨_, _, hi', hi.coalesced.release fun _ => hinv.rep.before_ne, ?_, fun hlt => ?_,
      fun hfull => ?_⟩
    · exact hsize.trans_le hwithin
    · have hheld := hi.held (by omega)
      rw [HeapRun.next, hheld]
    · exact absurd (hsize.symm.trans hfull) (by omega)
  · refine ⟨_, _, hi', hi.coalesced, hsize.trans_le hwithin, fun hlt => ?_, fun _ => ?_⟩
    · exact absurd (hsize ▸ hlt) (by omega)
    · exact hi.stuck (by omega)

/-- **Step lemma.** -/
theorem steady_step {a : Act} (hi : ∃ bs all, SteadyInv s bs all) (ha : Enabled s a ∧ Pays s a) :
    ∃ bs all, SteadyInv (next s a) bs all := by
  obtain ⟨bs, all, hi⟩ := hi
  obtain ⟨ha, hp⟩ := ha
  cases a with
  | kmalloc n => exact hi.kmalloc ha.1 ha.2 hp
  | kfree e => exact hi.kfree ha
  | write e a v =>
    exact ⟨bs, all, hi.toRunInv.write ha.1 v ha.2.1 ha.2.2, hi.coalesced, hi.within, hi.held,
      hi.stuck⟩
  | other vm =>
    exact ⟨bs, all, hi.toRunInv.other _ ha, hi.coalesced, hi.within, hi.held, hi.stuck⟩

/-- **Run lemma.** -/
theorem Steady.inv (hs : Steady s) : ∃ bs all, SteadyInv s bs all := by
  obtain ⟨img, mboot, mem, heapMem, k₀, acts, hboot, hrun, rfl⟩ := hs
  exact hrun.inv (I := fun s => ∃ bs all, SteadyInv s bs all) (fun _ _ hi ha => steady_step hi ha)
    ⟨_, _, boot_steady (bootKernel_booted hboot)⟩

/-! ## 2. Filling the heap -/

/-- A page added for a request it can serve, in a heap with nothing free. -/
theorem kmalloc_carved (h1 : 1 ≤ n) (hpage : n ≤ 4080) (hi : Inv k.heap bs)
    (hused : ∀ b ∈ bs, b.free = false)
    (hroom : k.heap.heapStart + k.heap.heapSize + pageSize ≤ 2 ^ 32) (hfits : k.HeapFits)
    (hzero : ¬ Pmm.Free k.vm.pmm 0) (hframes : 0 < Pmm.clearBits k.vm.pmm) :
    ∃ p k', k.kmalloc n = some (p, k') ∧ p ≠ 0 ∧
      Inv k'.heap (bs ++ carve (align8 n) (pageBlock k.heap)) ∧
      k'.heap.heapStart = k.heap.heapStart ∧ k'.heap.heapSize = k.heap.heapSize + 4096 ∧
      Pmm.clearBits k.vm.pmm ≤ Pmm.clearBits k'.vm.pmm + 2 := by
  have hframe : k.vm.allocPage.1 ≠ 0 := Pmm.alloc_ne_zero hzero hframes
  have hnofit : ∀ b ∈ bs, Heap.fits (align8 n) b = false := fun b hb => by
    simp [Heap.fits, hused b hb]
  obtain ⟨p, vm', h', bs', hk, hinv, hst, hout, -⟩ :=
    kmalloc_refines Vm.pageEnv k.vm (n := n) hi h1 (by omega) fun _ _ => hroom
  have hk' : k.kmalloc n = some (p, { k with vm := vm', heap := h' }) := by
    unfold Kernel.kmalloc
    rw [hk]
    rfl
  have hbits : h'.heapSize = k.heap.heapSize + 4096 →
      Pmm.clearBits k.vm.pmm ≤ Pmm.clearBits vm'.pmm + 2 := fun hsize => by
    cases Kernel.kmalloc_grows hzero hfits hk' with
    | stays _ _ hsame =>
      dsimp only at hsame
      omega
    | grows hvm =>
      dsimp only at hvm
      rw [hvm]
      exact Vm.clearBits_back hzero _ _
  cases hout with
  | served a ha =>
    rw [alloc_eq_none.mpr hnofit] at ha
    cases ha
  | noPage _ hphys => exact absurd hphys hframe
  | grown _ _ _ hsize hretry =>
    have hfit := (fits_pageBlock k.heap h1 (by omega)).mpr hpage
    have halloc := @alloc_append _ _ [] hfit bs hnofit
    rcases hretry with ⟨a, ha, hp⟩ | ⟨ha, -⟩
    · obtain ⟨-, rfl⟩ := Prod.mk.inj (Option.some.inj (ha.symm.trans halloc))
      rw [List.append_nil] at hinv
      exact ⟨p, _, hk', by omega, hinv, hst, hsize, hbits hsize⟩
    · rw [halloc] at ha
      cases ha

/-- The same for a request that takes all of the page. -/
theorem kmalloc_page (hi : Inv k.heap bs) (hused : ∀ b ∈ bs, b.free = false)
    (hroom : k.heap.heapStart + k.heap.heapSize + pageSize ≤ 2 ^ 32) (hfits : k.HeapFits)
    (hzero : ¬ Pmm.Free k.vm.pmm 0) (hframes : 0 < Pmm.clearBits k.vm.pmm) :
    ∃ p k' bs', k.kmalloc 4080 = some (p, k') ∧ p ≠ 0 ∧ Inv k'.heap bs' ∧
      (∀ b ∈ bs', b.free = false) ∧ k'.heap.heapStart = k.heap.heapStart ∧
      k'.heap.heapSize = k.heap.heapSize + 4096 ∧
      Pmm.clearBits k.vm.pmm ≤ Pmm.clearBits k'.vm.pmm + 2 := by
  obtain ⟨p, k', hk, hp, hinv, hst, hsize, hbits⟩ := kmalloc_carved (n := 4080) (by decide)
    (by decide) hi hused hroom hfits hzero hframes
  refine ⟨p, k', _, hk, hp, hinv, fun b hb => ?_, hst, hsize, hbits⟩
  rcases List.mem_append.mp hb with hb | hb
  · exact hused b hb
  · rw [List.mem_singleton.mp hb]

/-- The heap can be filled page by page up to the end of the address space. -/
theorem exists_filled (n : Nat) (hn : n ≤ 261888) : ∃ s, Steady s ∧ s.live ≠ [] ∧
    ∃ bs, Inv s.kernel.heap bs ∧ (∀ b ∈ bs, b.free = false) ∧
      s.kernel.heap.heapStart = 0xC0000000 ∧ s.kernel.heap.heapSize = 0x100000 + 4096 * n ∧
      600000 ≤ Pmm.clearBits s.kernel.vm.pmm + 2 * n := by
  induction n with
  | zero =>
    obtain ⟨k, hboot, hframes⟩ := @upper_boots tightKernel 0x300000 0x211 (fun _ => 0) (fun _ => 0)
      (by decide) (by decide) (by decide)
    have hb := bootKernel_booted hboot
    obtain ⟨h', hk, hinv, hst, hsz⟩ := boot_exhaust hb
    have hboots : Steady ⟨k, []⟩ := ⟨_, _, _, _, k, [], hboot, trivial, rfl⟩
    have hrun := hboots.next (a := .kmalloc 0xFFFF0) ⟨by decide, by decide⟩ fun p k' hk' _ => by
      have he := hk.symm.trans hk'
      simp only [Option.some.injEq, Prod.mk.injEq] at he
      omega
    rw [next_exhaust hk] at hrun
    have hleft : 600000 ≤ Pmm.clearBits k.vm.pmm + 2 * 0 := by omega
    exact ⟨_, hrun, by simp, _, hinv, by simp, hst, hsz, hleft⟩
  | succ n ih =>
    obtain ⟨s, hs, -, bs, hinv, hused, hst, hsz, hframes⟩ := ih (by omega)
    obtain ⟨_, all, hi⟩ := hs.inv
    obtain ⟨p, k', bs', hk, hp, hinv', hused', hst', hsz', hframes'⟩ := kmalloc_page hinv hused
      (by simp only [pageSize]; omega) hi.fits hi.zero (by omega)
    have hnext : next s (.kmalloc 4080) = ⟨k', (p, 4080) :: s.live⟩ := by
      rw [next, hk]
      simp only [if_neg hp]
    have hrun := hs.next (a := .kmalloc 4080) ⟨by decide, by decide⟩ fun p₁ k₁ hk₁ _ => by
      have he := hk.symm.trans hk₁
      simp only [Option.some.injEq, Prod.mk.injEq] at he
      omega
    rw [hnext] at hrun
    have hsize : k'.heap.heapSize = 0x100000 + 4096 * (n + 1) := by
      rw [hsz', hsz, Nat.mul_succ, Nat.add_assoc]
    have hleft : 600000 ≤ Pmm.clearBits k'.vm.pmm + 2 * (n + 1) := by omega
    exact ⟨_, hrun, by simp, bs', hinv', hused', hst'.trans hst, hsize, hleft⟩

theorem Steady.reachable (hs : Steady s) : Reachable s := by
  obtain ⟨img, mboot, mem, heapMem, k₀, acts, hboot, hrun, rfl⟩ := hs
  exact ⟨img, mboot, mem, heapMem, k₀, acts, hboot,
    hrun.imp (I := fun _ => True) (fun _ _ _ ha => ⟨trivial, ha.1⟩) trivial, rfl⟩

/-- A heap that ends at `2 ^ 32` and has most of its last page free. -/
theorem exists_full : ∃ s, Reachable s ∧ s.kernel.heap.heapSize = 0x40000000 ∧
    s.kernel.heap.heapStart = 0xC0000000 ∧ ∃ bs, Inv s.kernel.heap
      (bs ++ [⟨0xFFFFF000, 24, false⟩, ⟨0xFFFFF018, 4072, true⟩]) ∧ ∀ b ∈ bs, b.free = false := by
  obtain ⟨s, hs, -, bs, hinv, hused, hst, hsz, hframes⟩ := exists_filled 261887 (by decide)
  obtain ⟨_, all, hi⟩ := hs.inv
  obtain ⟨p, k', hk, hp, hinv', hst', hsz', -⟩ := kmalloc_carved (n := 8) (by decide) (by decide)
    hinv hused (by simp only [pageSize]; omega) hi.fits hi.zero (by omega)
  have hpage : carve (align8 8) (pageBlock s.kernel.heap)
      = [⟨0xFFFFF000, 24, false⟩, ⟨0xFFFFF018, 4072, true⟩] := by
    rw [pageBlock, hst, hsz]
    rfl
  have hrun := hs.next (a := .kmalloc 8) ⟨by decide, by decide⟩ fun p₁ k₁ hk₁ _ => by
    have he := hk.symm.trans hk₁
    simp only [Option.some.injEq, Prod.mk.injEq] at he
    omega
  have hnext : next s (.kmalloc 8) = ⟨k', (p, 8) :: s.live⟩ := by
    rw [next, hk]
    simp only [if_neg hp]
  rw [hnext] at hrun
  rw [hpage] at hinv'
  exact ⟨_, hrun.reachable, by rw [hsz', hsz], hst'.trans hst, bs, hinv', hused⟩

/-! ## 3. Freeing everything -/

/-- In a heap that ends at `2 ^ 32` freeing what is held changes nothing. -/
theorem SteadyInv.freeAll_full (hi : SteadyInv s bs all)
    (hfull : s.kernel.heap.heapSize = 0x40000000) {es : List (Nat × Nat)} (hes : es.Perm s.live) :
    freeAll s.kernel.heap es = s.kernel.heap := by
  cases hi.sound with
  | below _ start _ high => omega
  | capped past =>
    rw [freeAll, ← List.foldl_map (f := Prod.fst) (g := Heap.kfree)]
    refine foldl_kfree_capped past _ fun q hq => ?_
    obtain ⟨e, he, rfl⟩ := List.mem_map.mp hq
    obtain ⟨b, hb, -, hptr, -⟩ := hi.block (hes.subset he)
    have hstart := past.start
    have hrange := past.range hb
    have hsize := (past.inv.rep.sizes b hb).1
    omega

/-- **Freeing everything leaves one block**, in every order, exactly when the heap has not taken
all of the address space.  No two neighbours of the list are ever both free. -/
theorem frees_merge_iff (s : State) (hs : Steady s) : ∃ bs, Sound s.kernel.heap bs ∧ Coalesced bs ∧
    ((∀ es : List (Nat × Nat), es.Perm s.live →
      Merged s.kernel.heap (freeAll s.kernel.heap es)) ↔ s.kernel.heap.heapSize < 0x40000000) := by
  obtain ⟨bs, all, hi⟩ := hs.inv
  have hwithin := hi.within
  refine ⟨bs, hi.sound, hi.coalesced, fun hall => ?_, fun hlt es hes => ?_⟩
  · by_contra hcon
    have hfull : s.kernel.heap.heapSize = 0x40000000 := by omega
    obtain ⟨hmerged, -⟩ := hall s.live (List.Perm.refl _)
    rw [hi.freeAll_full hfull (List.Perm.refl _)] at hmerged
    obtain ⟨b, hb, hfree⟩ := hi.stuck hfull
    -- the same headers cannot spell out a list with a block in use and one without
    obtain ⟨g, hinv, hmem, hgs, hst, -, hgz⟩ := hi.sound.view
    have hend : g.heapStart + g.heapSize = s.kernel.heap.heapStart + s.kernel.heap.heapSize := by
      omega
    have htiles := hinv.rep.tiles
    rw [hend, hgs, ← hst] at htiles
    have hbs := blocks_unique htiles hmerged.rep.tiles
      (fun x hx => ⟨(hinv.rep.sizes x hx).1, hmem ▸ hinv.rep.fields x hx⟩)
      fun x hx => ⟨(hmerged.rep.sizes x hx).1, hmerged.rep.fields x hx⟩
    rw [hbs] at hb
    rw [List.mem_singleton.mp hb] at hfree
    cases hfree
  · rw [hi.held hlt] at hes
    cases hi.sound with
    | below inv _ _ high => exact freeAll_merged hes inv hi.owned hi.coalesced high
    | capped past =>
      have hwraps := past.wraps
      have hstart := past.start
      omega

/-- With the first megabyte and a page as two allocations, freed in the order they were made. -/
theorem frees_merge_iff_two : ∃ s, Steady s ∧ s.live ≠ [] ∧
    Merged s.kernel.heap (freeAll s.kernel.heap s.live.reverse) := by
  obtain ⟨s, hs, hlive, -, -, -, -, hsize, -⟩ := exists_filled 1 (by decide)
  obtain ⟨bs, -, -, hiff⟩ := frees_merge_iff s hs
  exact ⟨s, hs, hlive, hiff.mpr (by rw [hsize]; decide) _ (List.reverse_perm _)⟩

/-- **A heap that ends at `2 ^ 32` cannot be freed**: with everything in use, no order of freeing
the allocations changes anything. -/
theorem frees_ignored : ∃ s, Steady s ∧ s.live ≠ [] ∧ s.kernel.heap.heapSize = 0x40000000 ∧
    s.kernel.heap.heapUsed = 0x40000010 ∧
    ∀ es : List (Nat × Nat), es.Perm s.live → freeAll s.kernel.heap es = s.kernel.heap := by
  obtain ⟨s, hs, hlive, bs, hinv, hused, -, hsz, -⟩ := exists_filled 261888 (by decide)
  obtain ⟨_, all, hi⟩ := hs.inv
  have hsum := hinv.rep.tiles.sum_len
  have hbytes := usedBytes_eq_sum hused
  refine ⟨s, hs, hlive, hsz, ?_, fun es hes => hi.freeAll_full hsz hes⟩
  rw [hinv.used]
  omega

end HeapRun

end FlowOS
