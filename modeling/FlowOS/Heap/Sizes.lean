/-
# Request sizes near the end of 32 bits

`kmalloc` rounds the size up to a multiple of 8, `find_free_block` adds the header to it and
`split_block` adds the header again and then the smallest block, all in 32 bits.  Up to
`0xFFFFFFE8` none of the sums that matter wraps: a block as large as the request would need is
never found, so the last of them is not computed.  From `0xFFFFFFE9` on the size looked for is 0,
8 or 16 bytes, every free block will do, and the caller gets a block that is far too small.
-/
import FlowOS.Heap.Outgrown
import FlowOS.Heap.Run

namespace FlowOS.Heap

open Word Tiling Linked

variable {h h' : Heap} {bs pre post : List Block} {b c : Block} {n p : Nat}

/-- What the caller of `kmalloc(size)` relies on when it gets `p`: the headers still spell out a
tiling of the heap, and the block behind `p` is in use and has `size` payload bytes. -/
def Grants (h : Heap) (p size : Nat) : Prop :=
  ∃ bs, Rep h bs ∧ ∃ b ∈ bs, b.addr + 16 = p ∧ b.free = false ∧ size + 16 ≤ b.size

/-! ## 1. Sizes that do not wrap -/

/-- The block an allocation hands out is in the list afterwards. -/
theorem alloc_granted {size a : Nat} {bs' : List Block} (ha : alloc size bs = some (a, bs')) :
    ∃ b ∈ bs', b.addr = a ∧ b.free = false ∧ size + 16 ≤ b.size := by
  obtain ⟨pre, b, post, rfl, hfit, -, rfl, rfl⟩ := alloc_cases ha
  have hmem : granted size b ∈ usedBlocks (carve size b) := by
    rw [usedBlocks_carve]
    exact List.mem_cons_self
  refine ⟨granted size b, ?_, rfl, rfl, le_granted hfit⟩
  exact List.mem_append_right _ (List.mem_append_left _ (mem_usedBlocks.mp hmem).1)

theorem grants_of_alloc {size a : Nat} {bs' : List Block} (hr : Rep h' bs') (hn : n ≤ size)
    (ha : alloc size bs = some (a, bs')) : Grants h' (a + 16) n := by
  obtain ⟨b, hb, rfl, hfree, hsize⟩ := alloc_granted ha
  exact ⟨bs', hr, b, hb, rfl, hfree, by omega⟩

section Kmalloc

variable {σ : Type} (env : PageEnv σ) (s : σ)

/-- The call returns, and a pointer it returns is good for `n` bytes. -/
def Honest (h : Heap) (n : Nat) : Prop :=
  ∃ p s' h', kmalloc env s h n = some (p, s', h') ∧ (p ≠ 0 → Grants h' p n)

/-- **Up to `0xFFFFFFE8` a pointer returned is good.** -/
theorem honest_of_le (hi : Inv h bs) (hstart : h.heapStart = 0xC0000000)
    (hpages : 4096 ∣ h.heapSize) (hn : n ≤ 0xFFFFFFE8) : Honest env s h n := by
  by_cases h0 : n = 0
  · exact ⟨0, s, h, by rw [kmalloc, if_pos h0], fun hp => absurd rfl hp⟩
  obtain ⟨h8, hpos, hle, hlt⟩ := align8_spec (n := n) (by omega) (by omega)
  have hhigh := hi.rep.high
  by_cases hserve : h.heapStart + h.heapSize = 2 ^ 32 ∧ alloc (align8 n) bs = none
  · -- a heap that fills the address space has nothing to offer but its list
    obtain ⟨p, s', h', hk, ⟨a, bs', ha, -⟩ | ⟨-, hp, -⟩⟩ :=
      (hi.capped hstart hserve.1).kmalloc env s (n := n) (by omega) hn
        fun _ => by simp only [pageSize]; omega
    · rw [hserve.2] at ha
      cases ha
    · exact ⟨p, s', h', hk, fun hne => absurd hp hne⟩
  · have hroom : findFreeBlock h (align8 n) = some 0 → (env.pmmAllocPage s).1 ≠ 0 →
        h.heapStart + h.heapSize + pageSize ≤ 2 ^ 32 := by
      intro hf _
      have hnone : alloc (align8 n) bs = none := by
        rcases findTake hi h8 hpos (by omega) with ⟨ha, -⟩ | ⟨a, -, -, hf', ha0, -⟩
        · exact ha
        · exact absurd (Option.some.inj (hf'.symm.trans hf)) ha0
      have hlt : h.heapStart + h.heapSize ≠ 2 ^ 32 := fun he => hserve ⟨he, hnone⟩
      simp only [pageSize]
      omega
    obtain ⟨p, s', h', bs', hk, hinv, -, hout, -⟩ :=
      kmalloc_refines env s hi (n := n) (by omega) hn hroom
    refine ⟨p, s', h', hk, fun hp => ?_⟩
    cases hout with
    | served a ha hpa =>
      rw [hpa]
      exact grants_of_alloc hinv.rep hle ha
    | noPage _ _ hp0 => exact absurd hp0 hp
    | grown _ _ _ _ hretry =>
      rcases hretry with ⟨a, ha, hpa⟩ | ⟨-, hp0, -⟩
      · rw [hpa]
        exact grants_of_alloc hinv.rep hle ha
      · exact absurd hp0 hp

/-! ## 2. Sizes that wrap -/

/-- From `0xFFFFFFE9` on, 16 bytes or less are looked for. -/
theorem align8_wrapped (hlow : 0xFFFFFFE8 < n) (hn : n < 2 ^ 32) :
    add32 (align8 n) blockHeaderSize = 0 ∨ add32 (align8 n) blockHeaderSize = 8 ∨
      add32 (align8 n) blockHeaderSize = 16 := by
  have hmask : add32 n 7 &&& 0xFFFFFFF8 = add32 n 7 / 2 ^ 3 * 2 ^ 3 :=
    and_highMask (w := 32) (k := 3) (by decide) (add32_lt _ _)
  unfold align8
  rw [hmask]
  unfold add32 blockHeaderSize
  omega

/-- Then any free block is taken. -/
theorem find_wrapped {size : Nat} (hi : Inv h bs) (hsize : add32 size blockHeaderSize ≤ 16)
    (hb : b ∈ bs) (hfree : b.free = true) :
    ∃ a, findFreeBlock h size = some a ∧ a ≠ 0 ∧ (takeBlock h a size).1 ≠ 0 := by
  have hacc : accepts size b = true := by
    have hb24 := (hi.rep.sizes b hb).1
    simp only [accepts, hfree, Bool.true_and, decide_eq_true_eq]
    omega
  obtain ⟨c, hc⟩ : ∃ c, bs.find? (accepts size) = some c :=
    Option.isSome_iff_exists.mp (List.find?_isSome.mpr ⟨b, hb, hacc⟩)
  have hcmem := List.mem_of_find?_eq_some hc
  have hrange := hi.rep.mem_range hcmem
  have hhigh := hi.rep.high
  have hc24 := (hi.rep.sizes c hcmem).1
  refine ⟨c.addr, ?_, hi.rep.addr_ne_zero hcmem, ?_⟩
  · rw [findFreeBlock_accepts size hi.rep hi.nonempty, hc]
    rfl
  · show add32 c.addr blockHeaderSize ≠ 0
    rw [add32_of_lt (by simp only [blockHeaderSize]; omega)]
    simp only [blockHeaderSize]
    omega

theorem find_none_of_used (size : Nat) (hi : Inv h bs) (hused : ∀ b ∈ bs, b.free = false) :
    findFreeBlock h size = some 0 := by
  have hnone : bs.find? (accepts size) = none :=
    List.find?_eq_none.mpr fun x hx => by simp [accepts, hused x hx]
  rw [findFreeBlock_accepts size hi.rep hi.nonempty, hnone]
  rfl

/-- **Such a call returns a pointer** whenever there is a free block or a page to be had. -/
theorem kmalloc_wrapped (hi : Inv h bs) (hlow : 0xFFFFFFE8 < n) (hn : n < 2 ^ 32)
    (hserve : (∃ b ∈ bs, b.free = true) ∨ ((env.pmmAllocPage s).1 ≠ 0 ∧
      h.heapStart + h.heapSize + pageSize ≤ 2 ^ 32)) :
    ∃ p s' h', kmalloc env s h n = some (p, s', h') ∧ p ≠ 0 ∧ h'.heapStart = h.heapStart := by
  have hsize : add32 (align8 n) blockHeaderSize ≤ 16 := by
    have := align8_wrapped hlow hn
    omega
  have hn0 : n ≠ 0 := by omega
  by_cases hfree : ∃ b ∈ bs, b.free = true
  · obtain ⟨b, hb, hbf⟩ := hfree
    obtain ⟨a, hf, ha, hp⟩ := find_wrapped hi hsize hb hbf
    exact ⟨_, s, _, kmalloc_found hn0 hf ha, hp, (takeBlock_place h a (align8 n)).start⟩
  · obtain ⟨hphys, hroom⟩ := hserve.resolve_left hfree
    have hf := find_none_of_used (align8 n) hi fun b hb => by
      simpa using fun hbf => hfree ⟨b, hb, hbf⟩
    obtain ⟨a, hf', ha, hp⟩ := find_wrapped (appendPage_inv hi hroom) hsize
      (b := pageBlock h) (by simp [pageBlock]) rfl
    refine ⟨_, env.pagingMapPage h.newVirt (env.pmmAllocPage s).1 (pagePresent ||| pageWrite)
      (env.pmmAllocPage s).2, _, ?_, hp,
      (takeBlock_place _ a (align8 n)).start.trans (appendPage_place h).1⟩
    simp [kmalloc, hn0, hf, hphys, hf', ha, newVirt]

theorem not_grants {p : Nat} (hstart : h.heapStart = 0xC0000000) (hlow : 0xFFFFFFE8 < n) :
    ¬ Grants h p n := by
  rintro ⟨bs, hr, b, hb, -, -, hsize⟩
  have hrange := hr.mem_range hb
  have hhigh := hr.high
  omega

/-! ## 3. Every size -/

/-- **When a pointer returned by `kmalloc` is good.**  On every heap that satisfies the invariant
and for every 32-bit size: exactly when the size is at most `0xFFFFFFE8`, or there is no block to
return. -/
theorem honest_iff (hi : Inv h bs) (hstart : h.heapStart = 0xC0000000)
    (hpages : 4096 ∣ h.heapSize) (hn : n < 2 ^ 32) :
    Honest env s h n ↔ n ≤ 0xFFFFFFE8 ∨ ((∀ b ∈ bs, b.free = false) ∧
      ((env.pmmAllocPage s).1 = 0 ∨ h.heapStart + h.heapSize = 2 ^ 32)) := by
  have hhigh := hi.rep.high
  constructor
  · rintro ⟨p, s', h', hk, hgrants⟩
    by_contra hcon
    push Not at hcon
    obtain ⟨hlow, hserve⟩ := hcon
    have hserve' : (∃ b ∈ bs, b.free = true) ∨ ((env.pmmAllocPage s).1 ≠ 0 ∧
        h.heapStart + h.heapSize + pageSize ≤ 2 ^ 32) := by
      by_cases hfree : ∃ b ∈ bs, b.free = true
      · exact Or.inl hfree
      · obtain ⟨hphys, hfull⟩ := hserve fun b hb => by
          simpa using fun hbf => hfree ⟨b, hb, hbf⟩
        exact Or.inr ⟨hphys, by simp only [pageSize]; omega⟩
    obtain ⟨p₁, s₁, h₁, hk', hp, hst⟩ := kmalloc_wrapped env s hi hlow hn hserve'
    obtain ⟨rfl, -, rfl⟩ : p = p₁ ∧ s' = s₁ ∧ h' = h₁ := by simpa using hk.symm.trans hk'
    exact not_grants (hst.trans hstart) hlow (hgrants hp)
  · rintro (hle | ⟨hused, hnone⟩)
    · exact honest_of_le env s hi hstart hpages hle
    · by_cases hle : n ≤ 0xFFFFFFE8
      · exact honest_of_le env s hi hstart hpages hle
      have hn0 : n ≠ 0 := by omega
      have hf := find_none_of_used (align8 n) hi hused
      by_cases hphys : (env.pmmAllocPage s).1 = 0
      · refine ⟨0, (env.pmmAllocPage s).2, h, ?_, fun hp => absurd rfl hp⟩
        simp [kmalloc, hn0, hf, hphys]
      · -- the page added at address 0 is not reached
        have hc := (hi.capped hstart (hnone.resolve_left hphys)).appendPage
          (by simp only [pageSize]; omega)
        have hf' : findFreeBlock (appendPage h) (align8 n) = some 0 :=
          @find_none_of_used (clip (appendPage h) (lastAddr bs)) bs (align8 n) hc.inv hused
        refine ⟨0, env.pagingMapPage h.newVirt (env.pmmAllocPage s).1 (pagePresent ||| pageWrite)
          (env.pmmAllocPage s).2, appendPage h, ?_, fun hp => absurd rfl hp⟩
        simp [kmalloc, hn0, hf, hphys, hf', newVirt]

end Kmalloc

/-- The heap after `heap_init`, over a memory of zeroes. -/
def freshHeap : Heap := heapInit (fun _ => 0) 0xC0000000 0x100000

theorem freshHeap_inv : Inv freshHeap [⟨0xC0000000, 0x100000, true⟩] :=
  heapInit_inv (by decide) (by decide) (by decide) (by decide) (by decide)

/-- The equivalence at the heap after boot, for `kmalloc(5)`. -/
theorem honest_iff_first : Inv freshHeap [⟨0xC0000000, 0x100000, true⟩] ∧
    Honest noPages () freshHeap 5 :=
  ⟨freshHeap_inv, (honest_iff noPages () freshHeap_inv rfl (by decide) (by decide)).mpr
    (Or.inl (by decide))⟩

/-- **`kmalloc(0xFFFFFFF0)` after boot** returns the first block, with a size of 0 and linked to
itself. -/
theorem kmalloc_selfLink : ∃ s' h', kmalloc noPages () freshHeap 0xFFFFFFF0
      = some (0xC0000010, s', h') ∧ get h'.mem .size 0xC0000000 = 0 ∧
    get h'.mem .next 0xC0000000 = 0xC0000000 ∧ ¬ Grants h' 0xC0000010 0xFFFFFFF0 := by
  have hk : (kmalloc noPages () freshHeap 0xFFFFFFF0).map (fun r => (r.1,
      get r.2.2.mem .size 0xC0000000, get r.2.2.mem .next 0xC0000000, r.2.2.heapStart))
      = some (0xC0000010, 0, 0xC0000000, 0xC0000000) := by decide +kernel
  obtain ⟨⟨p, s', h'⟩, hk', hr⟩ := Option.map_eq_some_iff.mp hk
  simp only [Prod.mk.injEq] at hr
  obtain ⟨rfl, hsize, hnext, hstart⟩ := hr
  exact ⟨s', h', hk', hsize, hnext, not_grants hstart (by decide)⟩

/-! ## 4. What a call with such a size writes

The first such call still spares what the clients hold. -/

theorem newHeader_outside {m : Mem} {block newBlock total x : Nat}
    (hx : x < newBlock ∨ newBlock + 16 ≤ x) : newHeader m block newBlock total x = m x := by
  unfold newHeader
  rw [put_outside _ hx, put_outside _ hx, put_outside _ hx, put_outside _ hx]

/-- The pointer `split_block` then follows: the header of the new block may lie over it. -/
theorem next_newHeader {t : Nat} (hr : Rep h (pre ++ b :: post)) (ht : t = 0 ∨ t = 8 ∨ t = 16)
    (hstart : h.heapStart = 0xC0000000) (hfit : t + 32 ≤ b.size) :
    get (newHeader h.mem b.addr (b.addr + t) t) .next b.addr = firstAddr post ∨
      get (newHeader h.mem b.addr (b.addr + t) t) .next b.addr + 16 ≤ 0xC0000000 := by
  have hnext : get h.mem .next b.addr = firstAddr post := hr.next_eq
  have hsize : get h.mem .size b.addr = b.size := (hr.fields b (by simp)).1
  have hrange := hr.mem_range (b := b) (by simp)
  have hhigh := hr.high
  unfold newHeader
  rcases ht with rfl | rfl | rfl
  · left
    rw [Nat.add_zero, get_put_field _ (by decide), get_put_same (get_lt _ _ _),
      get_put_field _ (by decide), get_put_field _ (by decide), hnext]
  · -- the size of the new block stands where the pointer was
    right
    have hval : sub32 b.size 8 = b.size - 8 := sub32_of_le (by omega) (by omega)
    have hover : ∀ (m : Mem) (f : Field) (v : Nat), f ≠ .size →
        get (put m f (b.addr + 8) v) .next b.addr = get m .next b.addr := by
      intro m f v hf
      refine Mem.ld32_st32_disjoint v ?_
      cases f <;> simp only [Field.offset] <;> first | omega | exact absurd rfl hf
    have hread : get (put h.mem .size (b.addr + 8) (b.size - 8)) .next b.addr = b.size - 8 :=
      Mem.ld32_st32_same (by omega)
    rw [hover _ _ _ (by decide), hover _ _ _ (by decide), hover _ _ _ (by decide), hsize, hval,
      hread]
    omega
  · left
    rw [get_put_apart _ (by omega), get_put_apart _ (by omega), get_put_apart _ (by omega),
      get_put_apart _ (by omega), hnext]

/-- Taking a block for a size that wraps writes inside the block, the header behind it, or below
the heap. -/
theorem takeBlock_wrapped_frame {size x : Nat} (hr : Rep h (pre ++ b :: post))
    (hstart : h.heapStart = 0xC0000000)
    (ht : add32 size blockHeaderSize = 0 ∨ add32 size blockHeaderSize = 8 ∨
      add32 size blockHeaderSize = 16)
    (hx : x < b.addr ∨ b.addr + b.size ≤ x) (hpost : Clear post x) (hlow : 0xC0000000 ≤ x) :
    (takeBlock h b.addr size).2.mem x = h.mem x := by
  have hsize : get h.mem .size b.addr = b.size := (hr.fields b (by simp)).1
  have hb24 := (hr.sizes b (by simp)).1
  have hrange := hr.mem_range (b := b) (by simp)
  have hhigh := hr.high
  have hhead : x < b.addr ∨ b.addr + 16 ≤ x := by omega
  show put (splitBlock h b.addr size).mem .isFree b.addr 0 x = h.mem x
  rw [put_outside _ hhead, splitBlock_mem]
  generalize add32 size blockHeaderSize = t at ht
  have hmin : add32 t minBlockSize = t + 32 := by
    rcases ht with rfl | rfl | rfl <;> rfl
  rw [hmin, hsize]
  split
  · rename_i hfit
    have hq := next_newHeader hr ht hstart hfit
    have hmem := @newHeader_outside h.mem b.addr (b.addr + t) t x (by omega)
    unfold splitHeaders
    rw [show add32 b.addr t = b.addr + t from add32_of_lt (by omega)]
    generalize newHeader h.mem b.addr (b.addr + t) t = m at hq hmem
    rw [put_outside _ hhead, put_outside _ hhead]
    split
    · rename_i hne
      rw [put_outside _ ?_, hmem]
      rcases hq with hq | hq
      · rw [hq] at hne ⊢
        exact hpost.first hne
      · omega
    · exact hmem
  · rfl
theorem takeBlock_mem_congr {g : Heap} (hmem : g.mem = h.mem) (block size : Nat) :
    (takeBlock g block size).2.mem = (takeBlock h block size).2.mem := by
  show put (splitBlock g block size).mem .isFree block 0
    = put (splitBlock h block size).mem .isFree block 0
  rw [splitBlock_mem, splitBlock_mem, hmem]

/-- Taking any block for such a size spares the payloads in use. -/
theorem Sound.took_wrapped {size x : Nat} (hs : Sound h bs)
    (ht : add32 size blockHeaderSize = 0 ∨ add32 size blockHeaderSize = 8 ∨
      add32 size blockHeaderSize = 16)
    (htook : Took h h' p size) (hc : c ∈ bs) (hused : c.free = false) (h1 : c.addr + 16 ≤ x)
    (h2 : x < c.addr + c.size) : h'.mem x = h.mem x := by
  rcases htook with ⟨-, rfl⟩ | ⟨block, h0, hf, -, rfl⟩
  · rfl
  · have hlow := (hs.range hc).1
    obtain ⟨g, hinv, hmem, hgs, hst, -⟩ := hs.view
    have hfg : findFreeBlock g size = some block := by
      rw [← hf, findFreeBlock, findFreeBlock, hmem, hgs, hst]
    rw [findFreeBlock_accepts size hinv.rep hinv.nonempty] at hfg
    cases hfind : bs.find? (accepts size) with
    | none =>
      rw [hfind] at hfg
      exact absurd (Option.some.inj hfg).symm h0
    | some b =>
      rw [hfind] at hfg
      obtain rfl : b.addr = block := Option.some.inj hfg
      have hacc := List.find?_some hfind
      have hfree : b.free = true := by
        simp only [accepts, Bool.and_eq_true] at hacc
        exact hacc.1
      obtain ⟨pre, post, rfl⟩ := List.append_of_mem (List.mem_of_find?_eq_some hfind)
      have hclear := hinv.rep.clear_payload hc h1 h2
      rw [← takeBlock_mem_congr hmem, ← hmem]
      refine takeBlock_wrapped_frame hinv.rep hgs ht ?_ (fun d hd => hclear d (by simp [hd]))
        (by omega)
      -- the block in use is another one
      rcases List.mem_append.mp hc with hc' | hc'
      · have := hinv.rep.before hc'
        omega
      · rcases List.mem_cons.mp hc' with rfl | hc'
        · rw [hused] at hfree
          cases hfree
        · have := hinv.rep.after hc'
          omega

/-- A page added to the heap. -/
theorem Sound.appendPage (hs : Sound h bs) (hsmall : h.heapSize + pageSize < 2 ^ 32) :
    ∃ bs₁, Extends bs bs₁ ∧ Sound (Heap.appendPage h) bs₁ ∧
      ∀ x, h.heapStart ≤ x → Clear bs₁ x → (Heap.appendPage h).mem x = h.mem x := by
  cases hs with
  | below inv start pages high =>
    have hroom : h.heapStart + h.heapSize + pageSize ≤ 2 ^ 32 := by
      simp only [pageSize]
      omega
    have hinv := appendPage_inv inv hroom
    obtain ⟨hst, hsz⟩ := appendPage_statics inv hroom
    refine ⟨_, Or.inr ⟨pageBlock h, rfl, rfl⟩, ?_, fun x _ => appendPage_frame inv hroom⟩
    by_cases hfull : (Heap.appendPage h).heapStart + (Heap.appendPage h).heapSize = 2 ^ 32
    · exact .capped (hinv.capped (hst.trans start) hfull)
    · refine .below hinv (hst.trans start) ?_ (by omega)
      rw [hsz]
      exact (Nat.dvd_add_iff_left (by decide)).mp pages
  | capped past =>
    exact ⟨bs, Or.inl rfl, .capped (past.appendPage hsmall), fun x hx _ => past.appendPage_above hx⟩

/-- **Such a `kmalloc` spares the payloads in use.** -/
theorem Sound.kmalloc_wrapped {σ : Type} {env : PageEnv σ} {s s' : σ} {x : Nat} (hs : Sound h bs)
    (hsmall : (env.pmmAllocPage s).1 ≠ 0 → h.heapSize + pageSize < 2 ^ 32)
    (hlow : 0xFFFFFFE8 < n) (hn : n < 2 ^ 32) (hk : Heap.kmalloc env s h n = some (p, s', h'))
    (hc : c ∈ bs) (hused : c.free = false) (h1 : c.addr + 16 ≤ x) (h2 : x < c.addr + c.size) :
    h'.mem x = h.mem x := by
  have ht := align8_wrapped hlow hn
  rcases kmalloc_cases hk with ⟨-, -, htook⟩ | ⟨-, -, -, -, rfl⟩ | ⟨-, hphys, -, htook⟩
  · exact hs.took_wrapped ht htook hc hused h1 h2
  · rfl
  · obtain ⟨bs₁, hext, hs₁, hmem⟩ := hs.appendPage (hsmall hphys)
    have hc₁ : c ∈ bs₁ := by
      rcases hext with rfl | ⟨d, -, rfl⟩
      · exact hc
      · exact List.mem_append_left _ hc
    have hrange := hs.range hc
    obtain ⟨g, hinv, -⟩ := hs₁.view
    obtain ⟨-, -, -, -, hstart, -⟩ := hs.view
    rw [hs₁.took_wrapped ht htook hc₁ hused h1 h2]
    exact hmem x (by omega) (hinv.rep.clear_payload hc₁ h1 h2)

end FlowOS.Heap
