/-
# What growing the heap achieves

When `kmalloc` finds no block it adds one page to the heap and searches once more.  The page is a
block of its own, even when the last block before it is free, so it serves requests of up to 4080
bytes and no others; and when the second search fails as well, the page stays.  The module says
when a request succeeds, when a failed one leaves no trace, and when the counter of the bytes in
use stays within the size of the heap.
-/
import FlowOS.Vm.HeapRun

namespace FlowOS.HeapRun

open Word Heap

variable {k k' : Kernel} {s : State} {bs : List Block} {n : Nat}

/-! ## 1. The page that is added -/

/-- The new page serves a request exactly when it is for at most 4080 bytes. -/
theorem fits_pageBlock (h : Heap) (h1 : 1 ≤ n) (h2 : n ≤ 0xFFFFFFE8) :
    Heap.fits (align8 n) (pageBlock h) = true ↔ n ≤ 4080 := by
  obtain ⟨h8, -, hle, hlt⟩ := align8_spec h1 (by omega)
  have hpage : Heap.fits (align8 n) (pageBlock h) = decide (align8 n + 16 ≤ 4096) := rfl
  rw [hpage, decide_eq_true_eq]
  omega

/-- **What `kmalloc` does below the end of the address space**, when there is a frame to grow by:
it succeeds exactly when a block of the list or a page is large enough; and it returns `NULL`
with the page added. -/
theorem kmalloc_iff (hi : Inv k.heap bs)
    (hroom : k.heap.heapStart + k.heap.heapSize + pageSize ≤ 2 ^ 32)
    (hframe : k.vm.allocPage.1 ≠ 0) (h1 : 1 ≤ n) (h2 : n ≤ 0xFFFFFFE8) :
    ∃ p k', k.kmalloc n = some (p, k') ∧
      (p ≠ 0 ↔ (∃ b ∈ bs, b.free = true ∧ align8 n + 16 ≤ b.size) ∨ n ≤ 4080) ∧
      (p = 0 → k'.heap.heapSize = k.heap.heapSize + 4096) := by
  obtain ⟨p, vm', h', bs', hk, -, -, hout, -⟩ :=
    kmalloc_refines Vm.pageEnv k.vm hi h1 h2 fun _ _ => hroom
  have hk' : k.kmalloc n = some (p, { k with vm := vm', heap := h' }) := by
    unfold Kernel.kmalloc
    rw [hk]
    rfl
  have hfits : ∀ b : Block, Heap.fits (align8 n) b = true ↔
      b.free = true ∧ align8 n + 16 ≤ b.size := fun b => by simp [Heap.fits]
  refine ⟨p, _, hk', ?_⟩
  cases hout with
  | served a ha hp =>
    obtain ⟨pre, b, post, rfl, hfit, -⟩ := alloc_cases ha
    refine ⟨iff_of_true (by omega) (Or.inl ⟨b, by simp, (hfits b).mp hfit⟩), by omega⟩
  | noPage _ hphys => exact absurd hphys hframe
  | grown ha _ _ hsize hretry =>
    have hnone : ¬ ∃ b ∈ bs, b.free = true ∧ align8 n + 16 ≤ b.size := by
      rintro ⟨b, hb, hbf⟩
      have := alloc_eq_none.mp ha b hb
      rw [(hfits b).mpr hbf] at this
      cases this
    refine ⟨?_, fun _ => hsize⟩
    rcases hretry with ⟨a, ha', hp⟩ | ⟨ha', hp, -⟩
    · -- the block found the second time is the page
      obtain ⟨pre, b, post, hbs, hfit, -⟩ := alloc_cases ha'
      refine iff_of_true (by omega) (Or.inr ((fits_pageBlock k.heap h1 h2).mp ?_))
      have hmem : b ∈ bs ++ [pageBlock k.heap] := by rw [hbs]; simp
      rcases List.mem_append.mp hmem with hb | hb
      · exact absurd ⟨b, hb, (hfits b).mp hfit⟩ hnone
      · rwa [← List.mem_singleton.mp hb]
    · refine iff_of_false (by omega) ?_
      rintro (hb | hle)
      · exact hnone hb
      · have hfail := alloc_eq_none.mp ha' (pageBlock k.heap) (by simp)
        rw [(fits_pageBlock k.heap h1 h2).mpr hle] at hfail
        cases hfail

/-! ## 2. Requests that succeed -/

/-- The pages a request of `n` bytes needs. -/
def pagesFor (n : Nat) : Nat := (n + 16 + 4095) / 4096

/-- **When a request for up to a MiB succeeds**, with enough frames free and the grown heap within
the first page table: when a free block is large enough, or when it is for at most 4080 bytes. -/
theorem kmalloc_succeeds_iff (s : State) (hs : Reachable s) (n : Nat) (h1 : 1 ≤ n)
    (h2 : n ≤ 2 ^ 20) (hframes : pagesFor n + 1 ≤ Pmm.clearBits s.kernel.vm.pmm)
    (hfits : s.kernel.heap.heapSize + pagesFor n * 4096 ≤ 0x400000) :
    ∃ bs p k', Inv s.kernel.heap bs ∧ s.kernel.kmalloc n = some (p, k') ∧
      (p ≠ 0 ↔ (∃ b ∈ bs, b.free = true ∧ align8 n + 16 ≤ b.size) ∨ n ≤ 4080) := by
  obtain ⟨bs, all, hi⟩ := hs.inv
  have hframe : s.kernel.vm.allocPage.1 ≠ 0 := Pmm.alloc_ne_zero hi.zero (by omega)
  cases hi.sound with
  | below inv start _ high =>
    obtain ⟨p, k', hk, hiff, -⟩ := kmalloc_iff inv (by simp only [pageSize]; omega) hframe h1
      (by omega)
    exact ⟨bs, p, k', inv, hk, hiff⟩
  | capped past =>
    have hwraps := past.wraps
    have hstart := past.start
    omega

/-- The first megabyte as one allocation, right after boot. -/
theorem boot_exhaust {img : KernelImage} {heapMem : Mem} (hb : Booted img heapMem k) :
    ∃ h', k.kmalloc 0xFFFF0 = some (0xC0000010, { k with heap := h' }) ∧
      Inv h' [⟨0xC0000000, 0x100000, false⟩] ∧ h'.heapStart = 0xC0000000 ∧
      h'.heapSize = 0x100000 := by
  have hstart : k.heap.heapStart = 0xC0000000 := by rw [hb.heap]; rfl
  have hsize : k.heap.heapSize = 0x100000 := by rw [hb.heap]; rfl
  obtain ⟨h', hk, hinv, hst, hsz⟩ := Kernel.kmalloc_served (Kernel.booted_heapInv hb)
    (n := 0xFFFF0) (a := 0xC0000000) (by decide) (by decide)
    (by decide : _ = some (_, [⟨0xC0000000, 0x100000, false⟩]))
  exact ⟨h', hk, hinv, hst.trans hstart, hsz.trans hsize⟩

theorem next_exhaust {h' : Heap}
    (hk : k.kmalloc 0xFFFF0 = some (0xC0000010, { k with heap := h' })) :
    next ⟨k, []⟩ (.kmalloc 0xFFFF0) = ⟨{ k with heap := h' }, [(0xC0000010, 0xFFFF0)]⟩ := by
  rw [next, hk]
  rfl

/-- A state in which the first megabyte is one allocation. -/
theorem exists_exhausted : ∃ s, Reachable s ∧ s.live = [(0xC0000010, 0xFFFF0)] ∧
    Inv s.kernel.heap [⟨0xC0000000, 0x100000, false⟩] ∧ s.kernel.heap.heapStart = 0xC0000000 ∧
    s.kernel.heap.heapSize = 0x100000 ∧ 3 ≤ Pmm.clearBits s.kernel.vm.pmm ∧
    s.kernel.vm.allocPage.1 ≠ 0 := by
  obtain ⟨k, hboot, hframes⟩ :=
    @smallKernel_boots 0x2000 (by decide) (by decide) (fun _ => 0) fun _ => 0
  have hb := bootKernel_booted hboot
  obtain ⟨h', hk, hinv, hst, hsz⟩ := boot_exhaust hb
  have hfree : 3 ≤ Pmm.clearBits k.vm.pmm := by omega
  have halloc : k.vm.allocPage.1 ≠ 0 := Pmm.alloc_ne_zero hb.roles.zero (by omega)
  refine ⟨_, ⟨_, _, _, _, k, [.kmalloc 0xFFFF0], hboot, ⟨⟨by decide, by decide⟩, trivial⟩, rfl⟩, ?_⟩
  rw [List.foldl_cons, next_exhaust hk]
  exact ⟨rfl, hinv, hst, hsz, hfree, halloc⟩

/-- In that state the equivalence, for a request of 4080 bytes: it succeeds. -/
theorem kmalloc_succeeds_iff_page : ∃ s, Reachable s ∧
    ∃ p k', s.kernel.kmalloc 4080 = some (p, k') ∧
    p ≠ 0 := by
  obtain ⟨s, hs, -, -, -, hsize, hframes, -⟩ := exists_exhausted
  obtain ⟨bs, p, k', -, hk, hiff⟩ := kmalloc_succeeds_iff s hs 4080 (by decide) (by decide)
    (by simp only [pagesFor]; omega) (by simp only [pagesFor]; omega)
  exact ⟨s, hs, p, k', hk, hiff.mpr (Or.inr (by decide))⟩

/-- What a request for more than a page does in that state. -/
theorem exhausted_fails (hi : Inv k.heap [⟨0xC0000000, 0x100000, false⟩])
    (hstart : k.heap.heapStart = 0xC0000000) (hsize : k.heap.heapSize = 0x100000)
    (hframe : k.vm.allocPage.1 ≠ 0) (h1 : 4080 < n) (h2 : n ≤ 0xFFFFFFE8) :
    ∃ k', k.kmalloc n = some (0, k') ∧ k'.heap.heapSize = 0x101000 := by
  obtain ⟨p, k', hk, hiff, hgrown⟩ := kmalloc_iff hi (by simp only [pageSize]; omega) hframe
    (show 1 ≤ n by omega) h2
  have hp : p = 0 := by
    by_contra hne
    rcases hiff.mp hne with ⟨b, hb, hfree, -⟩ | hle
    · rw [List.mem_singleton.mp hb] at hfree
      cases hfree
    · omega
  subst hp
  exact ⟨k', hk, by rw [hgrown rfl, hsize]⟩

/-- **A kernel stack cannot be had once the first megabyte is used up**, however many frames are
free. -/
theorem stack_fails : ∃ s, Reachable s ∧
    pagesFor Process.kernelStackSize + 1 ≤ Pmm.clearBits s.kernel.vm.pmm ∧
    s.kernel.heap.heapSize + pagesFor Process.kernelStackSize * 4096 ≤ 0x400000 ∧
    ∃ k', s.kernel.kmalloc Process.kernelStackSize = some (0, k') := by
  obtain ⟨s, hs, -, hinv, hstart, hsize, hframes, hframe⟩ := exists_exhausted
  obtain ⟨k', hk, -⟩ := exhausted_fails hinv hstart hsize hframe
    (n := Process.kernelStackSize) (by decide) (by decide)
  have hpages : pagesFor Process.kernelStackSize = 2 := by decide
  refine ⟨s, hs, ?_, ?_, k', hk⟩
  · rw [hpages]
    exact hframes
  · rw [hpages, hsize]
    decide

/-! ## 3. Failed requests -/

/-- **A failed `kmalloc` leaves everything as it was** exactly when nothing was asked for, or no
block is large enough and no frame is free. -/
theorem failed_keeps_iff (k k' : Kernel) (n : Nat) (hk : k.kmalloc n = some (0, k')) :
    k' = k ↔ n = 0 ∨ (k.heap.Expands n ∧ ∀ f, ¬ Pmm.Free k.vm.pmm f) := by
  obtain ⟨⟨p, vm', h'⟩, hrun, he⟩ := Option.map_eq_some_iff.mp hk
  obtain ⟨rfl, rfl⟩ := Prod.mk.inj he
  constructor
  · intro hsame
    have hheap : h' = k.heap := congrArg Kernel.heap hsame
    have hvm : vm' = k.vm := congrArg Kernel.vm hsame
    by_cases h0 : n = 0
    · exact Or.inl h0
    rcases kmalloc_cases hrun with ⟨hexp, -, htook⟩ | ⟨hexp, -, hs, -⟩ | ⟨hexp, -, -, htook⟩
    · -- a block has been taken
      exfalso
      rcases hfind : findFreeBlock k.heap (align8 n) with _ | block
      · rw [Heap.kmalloc, if_neg h0] at hrun
        simp only [hfind, reduceCtorEq] at hrun
      · have hb : block ≠ 0 := fun hz => hexp ⟨h0, by rw [hfind, hz]⟩
        have htaken := hrun.symm.trans (kmalloc_found h0 hfind hb)
        simp only [Option.some.injEq, Prod.mk.injEq] at htaken
        exact takeBlock_ne (findFrom_isFree hb hfind) (htaken.2.2.symm.trans hheap)
    · -- a frame handed out is not free any more
      refine Or.inr ⟨hexp, fun f hf => ?_⟩
      obtain ⟨g, hg, -, hspec⟩ := Pmm.pmmAllocPage_spec ⟨f, hf⟩
      have hpmm : (Pmm.pmmAllocPage k.vm.pmm).2 = k.vm.pmm := congrArg Vm.pmm (hs.symm.trans hvm)
      rw [hpmm] at hspec
      exact ((hspec g).mp hg).2 rfl
    · -- the heap has grown
      exfalso
      have hsize := htook.place.size.trans (appendPage_place k.heap).2.1
      rw [hheap] at hsize
      unfold add32 pageSize at hsize
      omega
  · rintro (rfl | ⟨hexp, hnone⟩)
    · rw [Heap.kmalloc, if_pos rfl] at hrun
      obtain ⟨-, rfl, rfl⟩ : 0 = 0 ∧ k.vm = vm' ∧ k.heap = h' := by simpa using hrun
      rfl
    · have halloc : k.vm.allocPage = (0, k.vm) := by
        unfold Vm.allocPage
        rw [Pmm.pmmAllocPage_none hnone]
      have hrun' : Heap.kmalloc Vm.pageEnv k.vm k.heap n = some (0, k.vm, k.heap) := by
        have hz : Vm.pageEnv.pmmAllocPage k.vm = (0, k.vm) := halloc
        simp [Heap.kmalloc, hexp.1, hexp.2, hz]
      obtain ⟨rfl, rfl⟩ : vm' = k.vm ∧ h' = k.heap := by simpa using hrun.symm.trans hrun'
      rfl

/-- A request for two pages in a heap that is used up: the equivalence, and the trace it leaves. -/
theorem failed_keeps_iff_grown : ∃ s, Reachable s ∧ ∃ k', s.kernel.kmalloc 8192 = some (0, k') ∧
    (k' = s.kernel ↔ 8192 = 0 ∨ (s.kernel.heap.Expands 8192 ∧
      ∀ f, ¬ Pmm.Free s.kernel.vm.pmm f)) := by
  obtain ⟨s, hs, -, hinv, hstart, hsize, -, hframe⟩ := exists_exhausted
  obtain ⟨k', hk, -⟩ := exhausted_fails hinv hstart hsize hframe (n := 8192) (by decide) (by decide)
  exact ⟨s, hs, k', hk, failed_keeps_iff s.kernel k' 8192 hk⟩

/-- **A request that fails takes a frame and grows the heap.** -/
theorem failed_grows : ∃ s, Reachable s ∧ ∃ k', s.kernel.kmalloc 8192 = some (0, k') ∧
    s.kernel.heap.heapSize = 0x100000 ∧ k'.heap.heapSize = 0x101000 ∧
    Pmm.clearBits k'.vm.pmm < Pmm.clearBits s.kernel.vm.pmm := by
  obtain ⟨s, hs, -, hinv, hstart, hsize, hframes, hframe⟩ := exists_exhausted
  obtain ⟨k', hk, hgrown⟩ := exhausted_fails hinv hstart hsize hframe (n := 8192) (by decide)
    (by decide)
  obtain ⟨bs, all, hi⟩ := hs.inv
  refine ⟨s, hs, k', hk, hsize, hgrown, ?_⟩
  cases Kernel.kmalloc_grows hi.zero hi.fits hk with
  | stays _ _ hsame => omega
  | grows _ _ hless => omega

/-! ## 4. The counter of the bytes in use -/

/-- `heap_get_free` does not wrap, and the two counters add up to the size of the heap. -/
def Balanced (h : Heap) : Prop :=
  h.heapUsed ≤ h.heapSize ∧ heapGetUsed h + heapGetFree h = h.heapSize

/-- A list with a free block has 24 bytes that are not in use. -/
theorem usedBytes_add_free {b : Block} : ∀ {bs : List Block}, b ∈ bs → b.free = true →
    usedBytes bs + b.size ≤ (bs.map Block.size).sum
  | c :: bs, hb, hfree => by
    rw [List.map_cons, List.sum_cons]
    rcases List.mem_cons.mp hb with rfl | hb
    · have hle := usedBytes_le bs
      rw [usedBytes_of_free hfree]
      omega
    · have ih := usedBytes_add_free hb hfree
      cases hc : c.free with
      | true =>
        rw [usedBytes_of_free hc]
        omega
      | false =>
        rw [usedBytes_of_used hc]
        omega

/-- A list with no free block is in use to the last byte. -/
theorem usedBytes_eq_sum {bs : List Block} (hused : ∀ b ∈ bs, b.free = false) :
    usedBytes bs = (bs.map Block.size).sum := by
  have hfilter : usedBlocks bs = bs := List.filter_eq_self.mpr fun b hb => by simp [hused b hb]
  rw [usedBytes, hfilter]

/-- **When the counters balance**: in a state a run reaches, exactly when some block of the list is
free, or the heap has outgrown the address space. -/
theorem balanced_iff (s : State) (hs : Reachable s) : ∃ bs, Sound s.kernel.heap bs ∧
    (Balanced s.kernel.heap ↔ (∃ b ∈ bs, b.free = true) ∨ 0x40000000 < s.kernel.heap.heapSize) := by
  obtain ⟨bs, all, hi⟩ := hs.inv
  refine ⟨bs, hi.sound, ?_⟩
  obtain ⟨g, hinv, -, hgs, -, -, hgsize⟩ := hi.sound.view
  have hused := hi.sound.heapUsed_eq
  have hsum := hinv.rep.tiles.sum_len
  have hle := hinv.rep.usedBytes_le_heapSize
  have hsmall : s.kernel.heap.heapSize < 2 ^ 32 := by
    have := hi.fits
    unfold Kernel.HeapFits at this
    omega
  constructor
  · rintro ⟨hbal, -⟩
    by_contra hcon
    push Not at hcon
    obtain ⟨hnone, hbelow⟩ := hcon
    have hall := usedBytes_eq_sum fun b hb => by simpa using hnone b hb
    omega
  · intro hcond
    have hbal : s.kernel.heap.heapUsed ≤ s.kernel.heap.heapSize := by
      rcases hcond with ⟨b, hb, hfree⟩ | hbig
      · have := usedBytes_add_free hb hfree
        have := (hinv.rep.sizes b hb).1
        omega
      · -- a heap of more than 1 GiB has a page more
        cases hi.sound with
        | below _ hstart _ high => omega
        | capped past =>
          have hpages := past.pages
          omega
    refine ⟨hbal, ?_⟩
    rw [heapGetUsed, heapGetFree, sub32_of_le hbal hsmall]
    omega

/-- After boot the counters balance. -/
theorem balanced_iff_boot : ∃ s, Reachable s ∧ s.live = [(0xC0000028, 8), (0xC0000010, 5)] ∧
    ∃ bs, Sound s.kernel.heap bs ∧
      (Balanced s.kernel.heap ↔ (∃ b ∈ bs, b.free = true) ∨
        0x40000000 < s.kernel.heap.heapSize) := by
  obtain ⟨s, hs, hlive⟩ := exists_two
  exact ⟨s, hs, hlive, balanced_iff s hs⟩

/-- **With the first megabyte as one allocation** 16 bytes more are in use than there are, and
`heap_get_free` wraps. -/
theorem used_exceeds : ∃ s, Reachable s ∧ s.kernel.heap.heapUsed = 0x100010 ∧
    s.kernel.heap.heapSize = 0x100000 ∧ heapGetFree s.kernel.heap = 0xFFFFFFF0 := by
  obtain ⟨s, hs, -, hinv, -, hsize, -, -⟩ := exists_exhausted
  have hused : s.kernel.heap.heapUsed = 0x100010 := hinv.used
  refine ⟨s, hs, hused, hsize, ?_⟩
  rw [heapGetFree, hused, hsize]
  decide

end FlowOS.HeapRun
