/-
# Runs of the heap

The heap together with the allocations its clients hold, and everything that can happen to the
two: `kmalloc`, `kfree` of a pointer that is held (or of `NULL`), a client writing to memory it
holds, and anything at all happening in the rest of the kernel, which decides whether the next
expansion finds a page.  `heap_run_ok` is the allocator's contract over every run from
`heap_init`.
-/
import FlowOS.Heap.Alloc
import Mathlib.Logic.Relation
import Mathlib.Algebra.BigOperators.Ring.List
import Mathlib.Algebra.Ring.Nat

namespace FlowOS.Heap

open Word Tiling Linked

/-! ## 1. Steps -/

/-- The heap as its clients see it: the kernel state behind `PageEnv`, the heap, and the
allocations held, as pairs of the pointer returned and the size asked for. -/
structure Client (σ : Type) where
  kernel : σ
  heap : Heap
  live : List (Nat × Nat)

/-- The allocation of a page leaves room below `2 ^ 32`. -/
def HasRoom {σ : Type} (env : PageEnv σ) (c : Client σ) (n : Nat) : Prop :=
  findFreeBlock c.heap (align8 n) = some 0 → (env.pmmAllocPage c.kernel).1 ≠ 0 →
    c.heap.heapStart + c.heap.heapSize + pageSize < 2 ^ 32

/-- One thing that can happen. -/
inductive Step {σ : Type} (env : PageEnv σ) : Client σ → Client σ → Prop
  | kmalloc {c : Client σ} {n p : Nat} {s' : σ} {h' : Heap} (h1 : 1 ≤ n) (h2 : n ≤ 2 ^ 31 - 1)
      (hroom : HasRoom env c n) (hk : kmalloc env c.kernel c.heap n = some (p, s', h')) :
      Step env c ⟨s', h', if p = 0 then c.live else (p, n) :: c.live⟩
  | kfree {c : Client σ} {e : Nat × Nat} (he : e ∈ c.live) :
      Step env c ⟨c.kernel, kfree c.heap e.1, c.live.erase e⟩
  | kfreeNull {c : Client σ} : Step env c ⟨c.kernel, kfree c.heap 0, c.live⟩
  | write {c : Client σ} {e : Nat × Nat} {a : Nat} (v : UInt8) (he : e ∈ c.live) (h1 : e.1 ≤ a)
      (h2 : a < e.1 + e.2) :
      Step env c ⟨c.kernel, { c.heap with mem := c.heap.mem.st8 a v }, c.live⟩
  | other {c : Client σ} (s' : σ) : Step env c ⟨s', c.heap, c.live⟩

/-- The heap as `kmain` sets it up: 1 MiB at `0xC0000000`. -/
def boot {σ : Type} (mem : Mem) (s : σ) : Client σ := ⟨s, heapInit mem 0xC0000000 0x100000, []⟩

/-! ## 2. The invariant of a run -/

/-- The allocations held are exactly the blocks in use, and each fits its block. -/
structure Owned (bs : List Block) (live : List (Nat × Nat)) : Prop where
  perm : (live.map Prod.fst).Perm ((usedBlocks bs).map fun b => b.addr + 16)
  fits : ∀ e ∈ live, ∃ b ∈ usedBlocks bs, e.1 = b.addr + 16 ∧ e.2 + 16 ≤ b.size

variable {h : Heap} {bs pre post : List Block} {b : Block} {live : List (Nat × Nat)}

theorem mem_usedBlocks : b ∈ usedBlocks bs ↔ b ∈ bs ∧ b.free = false := by
  simp [usedBlocks, List.mem_filter]

/-- Handing out a block. -/
theorem Owned.grant (ho : Owned (pre ++ b :: post) live) {size n : Nat}
    (hfit : Heap.fits size b = true) (hn : n ≤ size) :
    Owned (pre ++ (carve size b ++ post)) ((b.addr + 16, n) :: live) := by
  have hfree : b.free = true := by
    simp only [Heap.fits, Bool.and_eq_true] at hfit
    exact hfit.1
  have hold : usedBlocks (pre ++ b :: post) = usedBlocks pre ++ usedBlocks post := by
    rw [usedBlocks_append, usedBlocks_cons_free post hfree]
  have hnew : usedBlocks (pre ++ (carve size b ++ post))
      = usedBlocks pre ++ granted size b :: usedBlocks post := by
    rw [usedBlocks_append, usedBlocks_append, usedBlocks_carve, List.singleton_append]
  have hle := le_granted hfit
  obtain ⟨hperm, hf⟩ := ho
  rw [hold] at hperm hf
  refine ⟨?_, ?_⟩
  · rw [hnew, List.map_append, List.map_cons, List.map_cons]
    refine (List.Perm.cons _ hperm).trans ?_
    rw [List.map_append]
    exact List.perm_middle.symm
  · intro e he
    rw [hnew]
    rcases List.mem_cons.mp he with rfl | he
    · exact ⟨granted size b, by simp, rfl, by dsimp only; omega⟩
    · obtain ⟨x, hx, hxe⟩ := hf e he
      refine ⟨x, ?_, hxe⟩
      rcases List.mem_append.mp hx with hx | hx <;> simp [hx]

/-- Adding a free block changes nothing for the clients. -/
theorem Owned.addFree (ho : Owned bs live) (hb : b.free = true) : Owned (bs ++ [b]) live := by
  have heq : usedBlocks (bs ++ [b]) = usedBlocks bs := by
    rw [usedBlocks_append, usedBlocks_cons_free [] hb, usedBlocks_nil, List.append_nil]
  exact ⟨heq ▸ ho.perm, heq ▸ ho.fits⟩

/-- In a represented list the pointers to blocks in use are pairwise distinct. -/
theorem Rep.nodup_ptrs (hr : Rep h bs) : ((usedBlocks bs).map fun b => b.addr + 16).Nodup := by
  have hord := hr.tiles.ordered
  have hsizes := hr.sizes
  refine List.Pairwise.map (R := fun x y : Block => x.addr + x.size ≤ y.addr ∧ 24 ≤ x.size) _ ?_ ?_
  · intro x y hxy
    omega
  · refine (List.Pairwise.filter _ hord).imp_of_mem ?_
    intro x y hx _ hxy
    exact ⟨hxy, (hsizes x (List.mem_of_mem_filter hx)).1⟩

/-- Taking a block back. -/
theorem Owned.take (ho : Owned (pre ++ b :: post) live) (hr : Rep h (pre ++ b :: post))
    (hb : b.free = false) {e : Nat × Nat} (he : e ∈ live) (hptr : e.1 = b.addr + 16) :
    Owned (release b.addr (pre ++ b :: post)) (live.erase e) := by
  have hnd := hr.nodup_ptrs
  have hnew := @usedBlocks_release _ _ _ post (fun _ => hr.before_ne) (rfl : b.addr = b.addr)
  have hold : usedBlocks (pre ++ b :: post) = usedBlocks pre ++ b :: usedBlocks post := by
    rw [usedBlocks_append, usedBlocks_cons_used post hb]
  obtain ⟨hperm, hf⟩ := ho
  rw [hold] at hperm hf hnd
  have hpe : (live.map Prod.fst).Perm (e.1 :: (live.erase e).map Prod.fst) :=
    (List.perm_cons_erase he).map Prod.fst
  have hmid : ((usedBlocks pre ++ b :: usedBlocks post).map fun x => x.addr + 16).Perm
      ((b.addr + 16) :: (usedBlocks pre ++ usedBlocks post).map fun x => x.addr + 16) :=
    (List.perm_middle.map _)
  have hcons : (e.1 :: (live.erase e).map Prod.fst).Perm
      ((b.addr + 16) :: (usedBlocks pre ++ usedBlocks post).map fun x => x.addr + 16) :=
    hpe.symm.trans (hperm.trans hmid)
  refine ⟨?_, ?_⟩
  · rw [hnew]
    rw [hptr] at hcons
    exact hcons.cons_inv
  · intro f hfm
    rw [hnew]
    obtain ⟨x, hx, hxe⟩ := hf f (List.mem_of_mem_erase hfm)
    refine ⟨x, ?_, hxe⟩
    rcases List.mem_append.mp hx with hx' | hx'
    · simp [hx']
    · rcases List.mem_cons.mp hx' with rfl | hx''
      · -- a second allocation on the block taken back would repeat its pointer
        exfalso
        have hnd' := (hperm.nodup_iff.mpr hnd)
        have hdup := hpe.nodup_iff.mp hnd'
        refine (List.nodup_cons.mp hdup).1 (List.mem_map.mpr ⟨f, hfm, ?_⟩)
        rw [hptr, hxe.1]
      · simp [hx'']

/-- Writes inside a payload leave every header alone. -/
theorem Inv.writePayload {m' : Mem} (hi : Inv h bs) (hb : b ∈ bs)
    (hm : ∀ x, x < b.addr + 16 ∨ b.addr + b.size ≤ x → m' x = h.mem x) :
    Inv { h with mem := m' } bs := by
  have hget : ∀ f, ∀ x ∈ bs, get m' f x.addr = get h.mem f x.addr := by
    intro f x hx
    refine Mem.ld32_congr fun y hy1 hy2 => hm y ?_
    by_contra hcon
    have hoff : f.offset ≤ 12 := by cases f <;> decide
    have hclear := hi.rep.clear_payload hb (x := y) (by omega) (by omega) x hx
    omega
  exact ⟨hi.rep.of_headers hget rfl rfl rfl rfl, hi.nonempty, hi.used⟩

theorem heapInit_inv {mem : Mem} {start size : Nat} (hs8 : 8 ∣ start) (hlow : 48 ≤ start)
    (hz8 : 8 ∣ size) (hz : 24 ≤ size) (hhigh : start + size ≤ 2 ^ 32) :
    Inv (heapInit mem start size) [⟨start, size, true⟩] := by
  refine ⟨⟨⟨?_, ?_, trivial⟩, ?_, ⟨rfl, rfl⟩, ?_, rfl, hs8, hlow, hhigh, rfl⟩, by simp, rfl⟩
  · exact get_put_same (by decide)
  · exact (get_put_field _ (by decide)).trans (get_put_same (by decide))
  · intro x hx
    obtain rfl := List.mem_singleton.mp hx
    refine ⟨?_, ?_⟩
    · exact (get_put_field _ (by decide)).trans ((get_put_field _ (by decide)).trans
        ((get_put_field _ (by decide)).trans (get_put_same (by omega))))
    · exact (get_put_field _ (by decide)).trans ((get_put_field _ (by decide)).trans
        (get_put_same (by decide)))
  · intro x hx
    obtain rfl := List.mem_singleton.mp hx
    exact ⟨hz, hz8⟩

/-- The invariant of a run. -/
structure ClientInv {σ : Type} (c : Client σ) (bs : List Block) : Prop where
  inv : Inv c.heap bs
  owned : Owned bs c.live
  start : c.heap.heapStart = 0xC0000000
  high : c.heap.heapStart + c.heap.heapSize < 2 ^ 32

theorem boot_inv {σ : Type} (mem : Mem) (s : σ) :
    ClientInv (boot mem s) [⟨0xC0000000, 0x100000, true⟩] :=
  ⟨heapInit_inv (by decide) (by decide) (by decide) (by decide) (by decide),
    ⟨by simp [boot, usedBlocks], by simp [boot]⟩, rfl,
    show 0xC0000000 + 0x100000 < 2 ^ 32 by decide⟩

/-- An allocation with the clients' side of it: what `alloc` does to the blocks held. -/
theorem Owned.alloc {n size a : Nat} {bs' : List Block} (ho : Owned bs live)
    (ha : Heap.alloc size bs = some (a, bs')) (hn : n ≤ size) :
    Owned bs' ((a + 16, n) :: live) := by
  obtain ⟨pre, b, post, rfl, hfit, -, rfl, rfl⟩ := alloc_cases ha
  exact ho.grant hfit hn

section Steps

variable {σ : Type} {env : PageEnv σ} {c c' : Client σ}

/-- `kmalloc` keeps the invariant. -/
theorem kmalloc_step {n p : Nat} {s' : σ} {h' : Heap} (hc : ClientInv c bs) (h1 : 1 ≤ n)
    (h2 : n ≤ 2 ^ 31 - 1) (hroom : HasRoom env c n)
    (hk : Heap.kmalloc env c.kernel c.heap n = some (p, s', h')) :
    ∃ bs', ClientInv ⟨s', h', if p = 0 then c.live else (p, n) :: c.live⟩ bs' := by
  obtain ⟨p₁, s₁, h₁, bs', hk', hinv, hst, hout, -⟩ :=
    kmalloc_refines env c.kernel hc.inv h1 (by omega) fun hf hp => (hroom hf hp).le
  obtain ⟨rfl, rfl, rfl⟩ : p = p₁ ∧ s' = s₁ ∧ h' = h₁ := by
    simpa using hk.symm.trans hk'
  obtain ⟨-, -, hle, hlt⟩ := align8_spec h1 (by omega)
  have hhigh := hc.high
  cases hout with
  | served a ha hp _ hsize =>
    refine ⟨bs', hinv, ?_, hst.trans hc.start, by dsimp only; omega⟩
    rw [if_neg (by omega), hp]
    exact hc.owned.alloc ha hle
  | noPage _ _ hp _ hh hbs =>
    refine ⟨bs', hinv, ?_, hst.trans hc.start, by rw [hh]; exact hhigh⟩
    rw [if_pos hp, hbs]
    exact hc.owned
  | grown ha hphys _ hsize hretry =>
    have hroom' := hroom (hc.inv.findFreeBlock_none (by omega) ha) hphys
    refine ⟨bs', hinv, ?_, hst.trans hc.start, by dsimp only; omega⟩
    have hgrown : Owned (bs ++ [pageBlock c.heap]) c.live := hc.owned.addFree rfl
    rcases hretry with ⟨a, ha, hp⟩ | ⟨-, hp, hbs⟩
    · rw [if_neg (by omega), hp]
      exact hgrown.alloc ha hle
    · rw [if_pos hp, hbs]
      exact hgrown

/-- `kfree` of a pointer held keeps the invariant. -/
theorem kfree_step {e : Nat × Nat} (hc : ClientInv c bs) (he : e ∈ c.live) :
    ∃ bs', ClientInv ⟨c.kernel, Heap.kfree c.heap e.1, c.live.erase e⟩ bs' := by
  obtain ⟨b, hb, hptr, -⟩ := hc.owned.fits e he
  obtain ⟨hmem, hfree⟩ := mem_usedBlocks.mp hb
  obtain ⟨pre, post, rfl⟩ := List.append_of_mem hmem
  obtain ⟨hinv, hst, hsz, -⟩ := kfree_refines hc.inv hfree hc.high
  rw [hptr]
  refine ⟨release b.addr (pre ++ b :: post), hinv, hc.owned.take hc.inv.rep hfree he hptr,
    hst.trans hc.start, ?_⟩
  rw [hst, hsz]
  exact hc.high

/-- **The step lemma**: everything that can happen keeps the invariant. -/
theorem step_inv (hstep : Step env c c') (hc : ∃ bs, ClientInv c bs) :
    ∃ bs, ClientInv c' bs := by
  obtain ⟨bs, hc⟩ := hc
  cases hstep with
  | kmalloc h1 h2 hroom hk => exact kmalloc_step hc h1 h2 hroom hk
  | kfree he => exact kfree_step hc he
  | kfreeNull => exact ⟨bs, hc⟩
  | write v he h1 h2 =>
    obtain ⟨b, hb, hptr, hsz⟩ := hc.owned.fits _ he
    obtain ⟨hmem, -⟩ := mem_usedBlocks.mp hb
    exact ⟨bs, hc.inv.writePayload hmem fun x hx => Mem.st8_other v (by omega), hc.owned, hc.start,
      hc.high⟩
  | other s' => exact ⟨bs, hc.inv, hc.owned, hc.start, hc.high⟩

/-- **The run lemma.** -/
theorem run_inv {mem : Mem} {s : σ} (hrun : Relation.ReflTransGen (Step env) (boot mem s) c) :
    ∃ bs, ClientInv c bs := by
  induction hrun with
  | refl => exact ⟨_, boot_inv mem s⟩
  | tail _ hstep ih => exact step_inv hstep ih

end Steps

/-! ## 3. The contract -/

/-- What the allocator promises its clients, read off the memory: `blocks` are the headers
reached from `heap_start` through `next`. -/
structure HeapOk (h : Heap) (live : List (Nat × Nat)) (blocks : List Nat) : Prop where
  first : blocks.head? = some h.heapStart
  links : DSeg (get h.mem .next) (get h.mem .prev) 0 blocks 0
  tiles : Tiles id (get h.mem .size) h.heapStart blocks (h.heapStart + h.heapSize)
  last : blocks.getLast? = some h.heapEnd
  sizes : ∀ a ∈ blocks, 8 ∣ get h.mem .size a ∧ 24 ≤ get h.mem .size a
  used : h.heapUsed = 16 +
    ((blocks.filter fun a => get h.mem .isFree a = 0).map (get h.mem .size)).sum
  payloads : ∀ e ∈ live, ∃ a ∈ blocks, get h.mem .isFree a = 0 ∧ e.1 = a + 16 ∧ 8 ∣ e.1 ∧
    e.2 ≤ get h.mem .size a - 16
  distinct : (live.map Prod.fst).Nodup
  disjoint : live.Pairwise fun e f => e.1 + e.2 ≤ f.1 ∨ f.1 + f.2 ≤ e.1
  noHeader : ∀ e ∈ live, ∀ a ∈ blocks, a + 16 ≤ e.1 ∨ e.1 + e.2 ≤ a

theorem tiles_map {m : Mem} {e : Nat} : ∀ {bs : List Block} {a : Nat},
    (∀ b ∈ bs, get m .size b.addr = b.size) → Tiles Block.addr Block.size a bs e →
    Tiles id (get m .size) a (bs.map Block.addr) e
  | [], _, _, h => h
  | b :: bs, a, hf, h => by
    refine ⟨h.1, ?_⟩
    rw [hf b List.mem_cons_self]
    exact tiles_map (fun x hx => hf x (List.mem_cons_of_mem _ hx)) h.2

/-- Block addresses are multiples of 8. -/
theorem Rep.addr_aligned (hr : Rep h bs) (hb : b ∈ bs) : 8 ∣ b.addr := by
  obtain ⟨pre, post, rfl⟩ := List.append_of_mem hb
  have hsum := (tiles_middle.mp hr.tiles).1.sum_len
  have hdvd : 8 ∣ (pre.map Block.size).sum :=
    List.dvd_sum fun x hx => by
      obtain ⟨y, hy, rfl⟩ := List.mem_map.mp hx
      exact (hr.sizes y (by simp [hy])).2
  have := hr.aligned
  omega

/-- The usage counter as a sum over the headers. -/
theorem usedBytes_eq {m : Mem} : ∀ {bs : List Block},
    (∀ b ∈ bs, get m .size b.addr = b.size ∧ get m .isFree b.addr = b.flag) →
    usedBytes bs =
      (((bs.map Block.addr).filter fun a => get m .isFree a = 0).map (get m .size)).sum
  | [], _ => rfl
  | b :: bs, hf => by
    have ih := usedBytes_eq fun x hx => hf x (List.mem_cons_of_mem _ hx)
    obtain ⟨hs, hfl⟩ := hf b List.mem_cons_self
    rw [List.map_cons, List.filter_cons]
    cases hb : b.free with
    | true =>
      have h0 : get m .isFree b.addr ≠ 0 := by
        rw [hfl]
        exact (flag_ne_zero b).mpr hb
      rw [usedBytes_of_free hb, ih, if_neg (by simpa using h0)]
    | false =>
      have h0 : get m .isFree b.addr = 0 := by
        rw [hfl, Block.flag, hb]
        rfl
      rw [usedBytes_of_used hb, ih, if_pos (by simpa using h0), List.map_cons, List.sum_cons, hs]

/-- **The contract holds whenever the invariant does.** -/
theorem ClientInv.ok {σ : Type} {c : Client σ} (hc : ClientInv c bs) :
    HeapOk c.heap c.live (bs.map Block.addr) := by
  have hr := hc.inv.rep
  have hnd : (c.live.map Prod.fst).Nodup := hc.owned.perm.nodup_iff.mpr hr.nodup_ptrs
  -- an allocation stays clear of every header
  have hclear : ∀ e ∈ c.live, ∀ x ∈ bs, x.addr + 16 ≤ e.1 ∨ e.1 + e.2 ≤ x.addr := by
    intro e he x hx
    obtain ⟨b, hb, hptr, hsz⟩ := hc.owned.fits e he
    obtain ⟨hmem, -⟩ := mem_usedBlocks.mp hb
    have hb24 := (hr.sizes b hmem).1
    by_contra hcon
    have := hr.clear_payload hmem (x := max e.1 x.addr) (by omega) (by omega) x hx
    omega
  refine ⟨?_, hr.links, tiles_map (fun b hb => (hr.fields b hb).1) hr.tiles, ?_, ?_, ?_, ?_, hnd,
    ?_, ?_⟩
  · obtain ⟨b, rest, rfl⟩ := List.exists_cons_of_ne_nil hc.inv.nonempty
    have hb : b.addr = c.heap.heapStart := hr.tiles.1
    simp [hb]
  · have hne : bs.map Block.addr ≠ [] := by simpa using hc.inv.nonempty
    rw [hr.last, List.getLast?_eq_some_getLast hne, List.getLastD_eq_getLast?,
      List.getLast?_eq_some_getLast hne]
    rfl
  · intro a ha
    obtain ⟨b, hb, rfl⟩ := List.mem_map.mp ha
    rw [(hr.fields b hb).1]
    exact ⟨(hr.sizes b hb).2, (hr.sizes b hb).1⟩
  · rw [hc.inv.used, usedBytes_eq hr.fields]
  · intro e he
    obtain ⟨b, hb, hptr, hsz⟩ := hc.owned.fits e he
    obtain ⟨hmem, hfree⟩ := mem_usedBlocks.mp hb
    have hal := hr.addr_aligned hmem
    refine ⟨b.addr, List.mem_map.mpr ⟨b, hmem, rfl⟩, ?_, hptr, by omega, ?_⟩
    · rw [(hr.fields b hmem).2, Block.flag, hfree]
      rfl
    · rw [(hr.fields b hmem).1]
      omega
  · -- two allocations sit in different blocks, each clear of the other's header
    have hpair : c.live.Pairwise fun e f => e.1 ≠ f.1 := List.pairwise_map.mp hnd
    refine hpair.imp_of_mem ?_
    intro e f he hf hne
    obtain ⟨b, hb, hptr, hsz⟩ := hc.owned.fits e he
    obtain ⟨d, hd, hptr', hsz'⟩ := hc.owned.fits f hf
    have h1 := hclear e he d (mem_usedBlocks.mp hd).1
    have h2 := hclear f hf b (mem_usedBlocks.mp hb).1
    omega
  · intro e he a ha
    obtain ⟨x, hx, rfl⟩ := List.mem_map.mp ha
    exact hclear e he x hx

/-- **The heap contract over every run.**  However the clients allocate, free and write, and
whether or not expansions find a page, the headers reached from `heap_start` tile the heap as
a doubly linked list, the counter is right, and the allocations held are disjoint payloads of
distinct blocks in use; and the next `kmalloc` returns. -/
theorem heap_run_ok {σ : Type} {env : PageEnv σ} {mem : Mem} {s : σ} {c : Client σ}
    (hrun : Relation.ReflTransGen (Step env) (boot mem s) c) :
    (∃ blocks, HeapOk c.heap c.live blocks) ∧
      ∀ n, 1 ≤ n → n ≤ 2 ^ 31 - 1 → HasRoom env c n →
        ∃ r, Heap.kmalloc env c.kernel c.heap n = some r := by
  obtain ⟨bs, hc⟩ := run_inv hrun
  refine ⟨⟨_, hc.ok⟩, fun n h1 h2 hroom => ?_⟩
  obtain ⟨p, s', h', -, hk, -⟩ := kmalloc_refines env c.kernel hc.inv h1 (by omega)
    fun hf hp => (hroom hf hp).le
  exact ⟨_, hk⟩

/-- A kernel with no page left. -/
def noPages : PageEnv Unit := ⟨fun s => (0, s), fun _ _ _ s => s⟩

/-- The contract after a first `kmalloc(5)` at boot, which returns `0xC0000010`. -/
theorem heap_run_ok_first_alloc :
    ∃ c : Client Unit, Relation.ReflTransGen (Step noPages) (boot (fun _ => 0) ()) c ∧
      c.live = [(0xC0000010, 5)] ∧ ∃ blocks, HeapOk c.heap c.live blocks := by
  have hk : (Heap.kmalloc noPages () (boot (fun _ => 0) ()).heap 5).map (·.1)
      = some 0xC0000010 := by decide +kernel
  obtain ⟨⟨p, s', h'⟩, hk', hp⟩ := Option.map_eq_some_iff.mp hk
  obtain rfl : p = 0xC0000010 := hp
  have hroom : HasRoom noPages (boot (fun _ => 0) ()) 5 := fun _ hphys => absurd rfl hphys
  have hrun := Relation.ReflTransGen.single (Step.kmalloc (by decide) (by decide) hroom hk')
  exact ⟨_, hrun, rfl, (heap_run_ok hrun).1⟩

end FlowOS.Heap
