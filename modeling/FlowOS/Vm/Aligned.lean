/-
# `kmalloc_aligned`

The allocation is made with room to spare, the pointer handed out is rounded up inside it, and the
pointer `kmalloc` returned is stored in the four bytes below.  Nothing reads it: `kfree` takes the
16 bytes below the pointer it is given for a block header, and those are the end of the real
header or bytes of the payload.  What releases such an allocation is `kfree` of the stored pointer.
-/
import FlowOS.Vm.HeapRun

namespace FlowOS

namespace Heap

open Word Tiling Linked

variable {h : Heap} {bs cs : List Block} {b : Block}

/-! ## 1. The pointer handed out -/

/-- After `kfree(q)` the heap is in order and the `size` bytes from `p` on are free. -/
def Releases (h : Heap) (q p size : Nat) : Prop :=
  ∃ bs, Inv (kfree h q) bs ∧ ∃ b ∈ bs, b.free = true ∧ b.addr ≤ p ∧ p + size ≤ b.addr + b.size

/-- The pointer `kmalloc_aligned` has stored below the one it returned. -/
def stashed (h : Heap) (p : Nat) : Nat := h.mem.ld32 (p - 4)

/-- The size `kmalloc_aligned` asks for. -/
theorem aligned_total {size j : Nat} (hlt : size + 2 ^ j + 3 < 2 ^ 31) :
    add32 (sub32 (add32 size (2 ^ j)) 1) 4 = size + 2 ^ j + 3 := by
  have hpos := Nat.two_pow_pos j
  rw [add32_of_lt (a := size) (by omega), sub32_of_le (by omega) (by omega),
    add32_of_lt (by omega)]
  omega

theorem alignment_le {size j : Nat} (hlt : size + 2 ^ j + 3 < 2 ^ 31) : j ≤ 32 := by
  by_contra hcon
  have hle : 2 ^ 33 ≤ 2 ^ j := Nat.pow_le_pow_right (by decide) (by omega)
  omega

/-- The pointer is a multiple of the alignment and leaves four bytes below it.  The sum that is
rounded down may reach `2 ^ 32`; the 1 taken off brings it back. -/
theorem aligned_ptr {ptr j : Nat} (hj : j ≤ 32) (hlt : ptr + 4 + 2 ^ j ≤ 2 ^ 32) :
    ∃ p, sub32 (add32 (add32 ptr 4) (2 ^ j)) 1 &&& not32 (sub32 (2 ^ j) 1) = p ∧ 2 ^ j ∣ p ∧
      ptr + 4 ≤ p ∧ p < ptr + 4 + 2 ^ j := by
  have hpos := Nat.two_pow_pos j
  have hsum : sub32 (add32 (add32 ptr 4) (2 ^ j)) 1 = ptr + 4 + 2 ^ j - 1 := by
    unfold add32 sub32
    omega
  have hmask : sub32 (2 ^ j) 1 = 2 ^ j - 1 := by
    unfold sub32
    omega
  have hround := Nat.div_add_mod (ptr + 4 + 2 ^ j - 1) (2 ^ j)
  have hmod := Nat.mod_lt (ptr + 4 + 2 ^ j - 1) hpos
  rw [hsum, hmask, and_not32 hj (by omega), Nat.mul_comm]
  exact ⟨_, rfl, Nat.dvd_mul_right _ _, by omega, by omega⟩

/-- **The slack suffices**: in a block with room for the size `kmalloc_aligned` asks for, the
pointer is a multiple of the alignment, with four bytes below it and `size` bytes from it on that
lie in what was asked for. -/
theorem alignPtr_inside {σ : Type} (s : σ) {h : Heap} {b : Block} {size j : Nat} (h1 : 1 ≤ size)
    (hlt : size + 2 ^ j + 3 < 2 ^ 31) (hsize : size + 2 ^ j + 3 + 16 ≤ b.size)
    (hhigh : b.addr + b.size ≤ 2 ^ 32) : ∃ p,
    alignPtr (2 ^ j) (b.addr + 16) s h
      = (p, s, { h with mem := h.mem.st32 (p - 4) (b.addr + 16) }) ∧
      2 ^ j ∣ p ∧ b.addr + 20 ≤ p ∧ p + size ≤ b.addr + 16 + (size + 2 ^ j + 3) := by
  obtain ⟨p, hp, hdvd, hlow, hupp⟩ := @aligned_ptr (b.addr + 16) j (alignment_le hlt) (by omega)
  refine ⟨p, ?_, hdvd, by omega, by omega⟩
  rw [alignPtr, if_neg (by omega)]
  dsimp only
  rw [hp, sub32_of_le (show 4 ≤ p by omega) (by omega)]

/-! ## 2. The allocation and its release -/

/-- **What `kmalloc_aligned` returns**: a pointer into a block in use, which has room for `size`
bytes from there on and whose payload address is stored below the pointer. -/
structure Placed (h : Heap) (bs : List Block) (b : Block) (p size : Nat) : Prop where
  inv : Inv h bs
  mem : b ∈ bs
  used : b.free = false
  low : b.addr + 20 ≤ p
  high : p + size ≤ b.addr + b.size
  stash : stashed h p = b.addr + 16
  below : h.heapStart + h.heapSize < 2 ^ 32

/-- `kmalloc_aligned` after its call of `kmalloc`. -/
theorem kmallocAligned_eq {σ : Type} {env : PageEnv σ} {s s' : σ} {h' : Heap} {n ptr size : Nat}
    (alignment : Nat) (hn : add32 (sub32 (add32 size alignment) 1) 4 = n)
    (hk : kmalloc env s h n = some (ptr, s', h')) :
    kmallocAligned env s h size alignment = some (alignPtr alignment ptr s' h') := by
  rw [kmallocAligned, hn, hk]
  rfl

theorem kmallocAligned_placed {σ : Type} (env : PageEnv σ) (s : σ) {size j : Nat} (hi : Inv h bs)
    (hroom : h.heapStart + h.heapSize + pageSize < 2 ^ 32) (h1 : 1 ≤ size)
    (hlt : size + 2 ^ j + 3 < 2 ^ 31) :
    ∃ p s' h', kmallocAligned env s h size (2 ^ j) = some (p, s', h') ∧
      (p ≠ 0 → 2 ^ j ∣ p ∧ ∃ bs' b, Placed h' bs' b p size) := by
  have hpos := Nat.two_pow_pos j
  obtain ⟨ptr, s', h', bs', hk, hinv, hst, hout, -⟩ :=
    kmalloc_refines env s (n := size + 2 ^ j + 3) hi (by omega) (by omega) fun _ _ => hroom.le
  rw [kmallocAligned_eq (2 ^ j) (aligned_total hlt) hk]
  by_cases hptr : ptr = 0
  · rw [alignPtr, if_pos hptr]
    exact ⟨0, s', h', rfl, fun hne => absurd rfl hne⟩
  -- the block behind the pointer, in use and large enough
  obtain ⟨⟨b, hb, hbp, hfree, hbsize⟩, hhigh⟩ : (∃ b ∈ bs', b.addr + 16 = ptr ∧ b.free = false ∧
      size + 2 ^ j + 3 + 16 ≤ b.size) ∧ h'.heapStart + h'.heapSize < 2 ^ 32 := by
    obtain ⟨-, -, hle, -⟩ := align8_spec (n := size + 2 ^ j + 3) (by omega) (by omega)
    have halloc : ∀ {a bs₁}, alloc (align8 (size + 2 ^ j + 3)) bs₁ = some (a, bs') →
        ptr = a + 16 → ∃ b ∈ bs', b.addr + 16 = ptr ∧ b.free = false ∧
          size + 2 ^ j + 3 + 16 ≤ b.size := by
      intro a bs₁ ha hp
      obtain ⟨b, hb, rfl, hfree, hsize⟩ := alloc_granted ha
      exact ⟨b, hb, hp.symm, hfree, by omega⟩
    cases hout with
    | served a ha hp _ hsize => exact ⟨halloc ha hp, by omega⟩
    | noPage _ _ hp => exact absurd hp hptr
    | grown _ _ _ hsize hretry =>
      rcases hretry with ⟨a, ha, hp⟩ | ⟨-, hp, -⟩
      · have hpage : pageSize = 4096 := rfl
        exact ⟨halloc ha hp, by omega⟩
      · exact absurd hp hptr
  have hrange := hinv.rep.mem_range hb
  obtain ⟨p, hp, hdvd, hlow, hupp⟩ := alignPtr_inside s' h1 hlt hbsize (by omega)
  rw [← hbp, hp]
  refine ⟨p, s', _, rfl, fun _ => ⟨hdvd, bs', b, ?_, hb, hfree, by omega, by omega, ?_, hhigh⟩⟩
  · exact hinv.writePayload hb fun x hx => Mem.st32_outside _ (by omega)
  · exact Mem.ld32_st32_same (by omega)

variable {p size : Nat}

/-- `kfree` of the stored pointer releases the allocation. -/
theorem Placed.releases (hp : Placed h bs b p size) : Releases h (stashed h p) p size := by
  have hlow := hp.low
  have hhigh := hp.high
  obtain ⟨pre, post, rfl⟩ := List.append_of_mem hp.mem
  obtain ⟨hfreed, -⟩ := kfree_refines hp.inv hp.used hp.below
  obtain ⟨c, hc, hcov⟩ := release_covers hp.inv.rep hp.mem (Or.inr rfl)
  have hcl := hcov.low
  have hch := hcov.high
  rw [hp.stash]
  exact ⟨_, hfreed, c, hc, hcov.free, by omega, by omega⟩

/-! ## 3. `kfree` of the pointer handed out -/

/-- The word that `kfree` takes for `is_free` is the one 12 bytes below the pointer; when it is not
zero nothing happens. -/
theorem kfree_noop (hlow : 16 ≤ p) (hlt : p < 2 ^ 32) (hword : h.mem.ld32 (p - 12) ≠ 0) :
    kfree h p = h := by
  have hsub : sub32 p blockHeaderSize = p - 16 := sub32_of_le hlow hlt
  have hfree : get h.mem .isFree (p - 16) ≠ 0 := by
    have haddr : p - 16 + Field.isFree.offset = p - 12 := by
      simp only [Field.offset]
      omega
    rw [get, haddr]
    exact hword
  unfold kfree
  rw [if_neg (by omega)]
  dsimp only
  rw [hsub, if_pos hfree]
  split <;> rfl

/-- The allocation then stays in use. -/
theorem Placed.not_releases (hp : Placed h bs b p size) (h1 : 1 ≤ size)
    (hword : h.mem.ld32 (p - 12) ≠ 0) : ¬ Releases h p p size := by
  rintro ⟨cs, hinv, c, hc, hfree, hcl, hch⟩
  have hlow := hp.low
  have hhigh := hp.high
  have hrange := hp.inv.rep.mem_range hp.mem
  have hbelow := hp.below
  rw [kfree_noop (by omega) (by omega) hword] at hinv
  obtain rfl := hinv.rep.unique hp.inv.rep
  obtain ⟨pre, post, rfl⟩ := List.append_of_mem hp.mem
  rcases List.mem_append.mp hc with hc | hc
  · have := hp.inv.rep.before hc
    omega
  · rcases List.mem_cons.mp hc with rfl | hc
    · rw [hp.used] at hfree
      cases hfree
    · have := hp.inv.rep.after hc
      omega

/-- A first block that is in use and contains `p` keeps it from being free. -/
theorem not_releases_of_used {q : Nat} (hused : get (kfree h q).mem .isFree h.heapStart = 0)
    (hhigh : p < h.heapStart + get (kfree h q).mem .size h.heapStart) : ¬ Releases h q p size := by
  rintro ⟨bs, hinv, b, hb, hfree, hbl, -⟩
  have hstart : (kfree h q).heapStart = h.heapStart := (kfree_place h q).start
  obtain ⟨c, cs, rfl⟩ := List.exists_cons_of_ne_nil hinv.nonempty
  have hca : c.addr = h.heapStart := hinv.rep.tiles.1.trans hstart
  obtain ⟨hcs, hcf⟩ := hinv.rep.fields c List.mem_cons_self
  rw [hca] at hcs hcf
  rcases List.mem_cons.mp hb with rfl | hb
  · rw [hcf] at hused
    exact (flag_ne_zero b).mpr hfree hused
  · have hrep : Rep (kfree h q) ([] ++ c :: cs) := hinv.rep
    have hafter := hrep.after hb
    omega

/-- 8 bytes at a multiple of 16 from the heap after boot: they are the last 16 of the first block's
32, and `kfree` of the pointer leaves that block in use. -/
theorem freshHeap_aligned {σ : Type} (env : PageEnv σ) (s : σ) :
    ∃ h', kmallocAligned env s freshHeap 8 16 = some (0xC0000020, s, h') ∧
      ¬ Releases h' 0xC0000020 0xC0000020 8 := by
  have hfind : findFreeBlock freshHeap (align8 27) = some 0xC0000000 := by decide +kernel
  have hk : kmalloc env s freshHeap 27 = _ := kmalloc_found (by decide) hfind (by decide)
  refine ⟨_, kmallocAligned_eq 16 (by decide) hk, not_releases_of_used ?_ ?_⟩
  · show get (kfree (alignPtr 16 0xC0000010 () (takeBlock freshHeap 0xC0000000 32).2).2.2
      0xC0000020).mem .isFree 0xC0000000 = 0
    decide +kernel
  · show 0xC0000020 < 0xC0000000 + get (kfree (alignPtr 16 0xC0000010 ()
      (takeBlock freshHeap 0xC0000000 32).2).2.2 0xC0000020).mem .size 0xC0000000
    decide +kernel

end Heap

/-- `kmalloc_aligned` in the kernel. -/
def Kernel.kmallocAligned (k : Kernel) (size alignment : Nat) : Option (Nat × Kernel) :=
  (Heap.kmallocAligned Vm.pageEnv k.vm k.heap size alignment).map fun r =>
    (r.1, { k with vm := r.2.1, heap := r.2.2 })

namespace HeapRun

open Word Heap

/-- The pointer for 8 bytes at a multiple of 16 from the heap after boot. -/
theorem kmallocAligned_fresh {k k' : Kernel} {p : Nat} (hheap : k.heap = freshHeap)
    (hk : k.kmallocAligned 8 (2 ^ 4) = some (p, k')) : p = 0xC0000020 := by
  obtain ⟨h', hk', -⟩ := freshHeap_aligned Vm.pageEnv k.vm
  rw [Kernel.kmallocAligned, hheap, show 2 ^ 4 = 16 by decide, hk'] at hk
  exact (Prod.mk.inj (Option.some.inj hk)).1.symm

/-- **`kmalloc_aligned` in a run**, the heap at the end of the address space and past it included: a
pointer it returns lies in a block that has been put into use, with four bytes of the payload below
it and `size` bytes from it on. -/
theorem RunInv.kmallocAligned {s : State} {bs : List Block} {all : List (Nat × Nat)} {size j : Nat}
    (hi : RunInv s bs all) (h1 : 1 ≤ size) (hlt : size + 2 ^ j + 3 < 2 ^ 31) :
    ∃ p k', s.kernel.kmallocAligned size (2 ^ j) = some (p, k') ∧
      (p ≠ 0 → 2 ^ j ∣ p ∧ ∃ bs' b, Sound k'.heap bs' ∧
        (usedBlocks bs').Perm (b :: usedBlocks bs) ∧
        b.addr + 20 ≤ p ∧ p + size ≤ b.addr + b.size) := by
  have hpos := Nat.two_pow_pos j
  have hn : size + 2 ^ j + 3 ≤ 0xFFFFFFE8 := by omega
  obtain ⟨ptr, k', bs', hk, hinv, -, hout⟩ := hi.kmalloc (by omega) hn
  obtain ⟨⟨ptr', vm', h'⟩, hheap, heq⟩ := Option.map_eq_some_iff.mp hk
  obtain ⟨rfl, rfl⟩ := Prod.mk.inj heq
  unfold Kernel.kmallocAligned
  rw [kmallocAligned_eq (2 ^ j) (aligned_total hlt) hheap]
  dsimp only at hinv hout
  by_cases hptr : ptr' = 0
  · rw [alignPtr, if_pos hptr]
    exact ⟨0, _, rfl, fun hne => absurd rfl hne⟩
  · rw [if_neg hptr, if_neg hptr] at hinv
    obtain ⟨b, rfl, hbsize, hused⟩ := hout.used (by omega) hn hptr
    have hb : b ∈ bs' := (mem_usedBlocks.mp (hused.symm.subset List.mem_cons_self)).1
    have hrange := hinv.sound.range hb
    obtain ⟨p, hp, hdvd, hlow, hupp⟩ := alignPtr_inside vm' h1 hlt hbsize hrange.2
    rw [hp]
    refine ⟨p, _, rfl, fun _ => ⟨hdvd, bs', b, ?_, hused, hlow, by omega⟩⟩
    -- the stashed pointer is written inside the new allocation
    exact (hinv.fill List.mem_cons_self fun x hx => Mem.st32_outside _ (by omega)).sound

/-- **An aligned allocation lies inside its block.**  In every state a run reaches, for every size
and every power of two: a pointer that `kmalloc_aligned` returns is a multiple of the alignment, and
the four bytes below it and the `size` bytes from it on lie in the payload of the one block that has
been put into use; all other blocks lie elsewhere. -/
theorem aligned_inside (s : State) (hs : Reachable s) (size j : Nat) (h1 : 1 ≤ size)
    (hlt : size + 2 ^ j + 3 < 2 ^ 31) :
    ∃ p k', s.kernel.kmallocAligned size (2 ^ j) = some (p, k') ∧
      (p ≠ 0 → 2 ^ j ∣ p ∧ ∃ bs bs' b, Sound s.kernel.heap bs ∧ Sound k'.heap bs' ∧
        (usedBlocks bs').Perm (b :: usedBlocks bs) ∧
        b.addr + 16 ≤ p - 4 ∧ p + size ≤ b.addr + b.size ∧
        ∀ c ∈ bs', c ≠ b → c.addr + c.size ≤ p - 4 ∨ p + size ≤ c.addr) := by
  obtain ⟨bs, all, hi⟩ := hs.inv
  obtain ⟨p, k', hk, hres⟩ := hi.kmallocAligned h1 hlt
  refine ⟨p, k', hk, fun hp => ?_⟩
  obtain ⟨hdvd, bs', b, hsound, hused, hlow, hupp⟩ := hres hp
  refine ⟨hdvd, bs, bs', b, hi.sound, hsound, hused, by omega, hupp, fun c hc hne => ?_⟩
  have hb : b ∈ bs' := (mem_usedBlocks.mp (hused.symm.subset List.mem_cons_self)).1
  obtain ⟨g, hg, -⟩ := hsound.view
  have hdisjoint := hg.rep.disjoint hc hb hne
  omega

/-- After boot, 8 bytes at a multiple of 16. -/
theorem aligned_inside_boot : ∃ s, Reachable s ∧ ∃ k' bs' b,
    s.kernel.kmallocAligned 8 16 = some (0xC0000020, k') ∧ Sound k'.heap bs' ∧
      b ∈ usedBlocks bs' ∧ b.addr + 16 ≤ 0xC0000020 - 4 ∧ 0xC0000020 + 8 ≤ b.addr + b.size := by
  obtain ⟨s, hs, hheap⟩ := exists_fresh
  obtain ⟨p, k', hk', hres⟩ := aligned_inside s hs 8 4 (by decide) (by decide)
  obtain rfl := kmallocAligned_fresh hheap hk'
  obtain ⟨-, bs, bs', b, -, hsound, hused, hlow, hupp, -⟩ := hres (by decide)
  exact ⟨s, hs, k', bs', b, hk', hsound, hused.symm.subset List.mem_cons_self, hlow, hupp⟩

end HeapRun

end FlowOS
