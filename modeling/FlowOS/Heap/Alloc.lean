/-
# `kmalloc` and `kfree` compute the abstract allocator

The refinement between `heap.c` and `Heap/Blocks.lean`: on a state that represents a block
list, the walk of `find_free_block` is the first-fit search, `kmalloc` is `alloc` (with one
retry on the list extended by a page), `kfree` is `release`, and the usage counter counts the
blocks in use.  In particular no walk diverges.
-/
import FlowOS.Heap.Blocks
import FlowOS.Heap.Footprint

namespace FlowOS.Heap

open Word Tiling Linked

variable {h : Heap} {bs pre post : List Block} {b : Block}

/-! ## 1. `find_free_block` -/

/-- A heap has fewer blocks than bytes. -/
theorem Rep.length_lt (hr : Rep h bs) : bs.length < 2 ^ 32 := by
  have hsum := hr.tiles.sum_len
  have hhigh := hr.high
  have hlow := hr.low
  have hle : bs.length ≤ (bs.map Block.size).sum := by
    have hsizes := hr.sizes
    clear hsum hhigh hlow hr
    induction bs with
    | nil => simp
    | cons b bs ih =>
      have h1 := ih fun x hx => hsizes x (List.mem_cons_of_mem _ hx)
      have h2 := (hsizes b List.mem_cons_self).1
      simp only [List.length_cons, List.map_cons, List.sum_cons]
      omega
  omega

theorem flag_ne_zero (b : Block) : b.flag ≠ 0 ↔ b.free = true := by
  unfold Block.flag
  cases b.free <;> simp

/-- The test `find_free_block(size)` makes, with its 32-bit sum. -/
def accepts (size : Nat) (b : Block) : Bool :=
  b.free && decide (add32 size blockHeaderSize ≤ b.size)

theorem accepts_eq_fits {size : Nat} (hsize : size + 16 < 2 ^ 32) : accepts size = fits size := by
  funext b
  rw [accepts, fits, show add32 size blockHeaderSize = size + 16 from add32_of_lt hsize]

/-- The walk of `find_free_block` finds the first block it accepts, or runs to the end. -/
theorem findFrom_eq {m : Mem} {size : Nat} :
    ∀ (bs : List Block) (fuel : Nat), Seg (get m .next) (bs.map Block.addr) 0 →
      (∀ b ∈ bs, get m .size b.addr = b.size ∧ get m .isFree b.addr = b.flag) →
      (∀ b ∈ bs, b.addr ≠ 0) → bs.length < fuel →
      findFrom m size fuel (firstAddr bs) = some ((bs.find? (accepts size)).elim 0 Block.addr)
  | [], fuel + 1, _, _, _, _ => by
    show findFrom m size (fuel + 1) 0 = some 0
    rw [findFrom, if_pos rfl]
  | b :: bs, fuel + 1, hseg, hf, hne, hfuel => by
    obtain ⟨hbs, hbf⟩ := hf b List.mem_cons_self
    have hcond : (get m .isFree b.addr ≠ 0 ∧ add32 size blockHeaderSize ≤ get m .size b.addr) ↔
        accepts size b = true := by
      rw [hbf, hbs, flag_ne_zero]
      simp [accepts]
    rw [firstAddr_cons, findFrom, if_neg (hne b List.mem_cons_self), List.find?_cons]
    by_cases hfit : accepts size b = true
    · rw [if_pos (hcond.mpr hfit), hfit]
      rfl
    · rw [if_neg fun hc => hfit (hcond.mp hc), Bool.not_eq_true _ |>.mp hfit]
      have hnext : get m .next b.addr = firstAddr bs := hseg.1
      rw [hnext]
      exact findFrom_eq bs fuel hseg.2 (fun x hx => hf x (List.mem_cons_of_mem _ hx))
        (fun x hx => hne x (List.mem_cons_of_mem _ hx)) (by simpa using hfuel)

theorem Rep.firstAddr_eq (hr : Rep h bs) (hne : bs ≠ []) : firstAddr bs = h.heapStart := by
  cases bs with
  | nil => exact absurd rfl hne
  | cons b bs => exact hr.tiles.1

/-- `find_free_block` ends, at the first block it accepts. -/
theorem findFreeBlock_accepts (size : Nat) (hr : Rep h bs) (hne : bs ≠ []) :
    findFreeBlock h size = some ((bs.find? (accepts size)).elim 0 Block.addr) := by
  unfold findFreeBlock
  rw [← hr.firstAddr_eq hne]
  exact findFrom_eq bs _ hr.links.seg hr.fields (fun x hx => hr.addr_ne_zero hx) hr.length_lt

/-- **`find_free_block` is the first-fit search**, and its walk ends. -/
theorem findFreeBlock_eq {size : Nat} (hr : Rep h bs) (hne : bs ≠ []) (hsize : size + 16 < 2 ^ 32) :
    findFreeBlock h size = some ((bs.find? (fits size)).elim 0 Block.addr) := by
  rw [findFreeBlock_accepts size hr hne, accepts_eq_fits hsize]

/-! ## 2. Taking a block -/

theorem splitBlock_heapUsed (h : Heap) (block size : Nat) :
    (splitBlock h block size).heapUsed = h.heapUsed := by
  unfold splitBlock
  dsimp only
  split
  · split <;> split <;> rfl
  · rfl

/-- The state with the counter changed represents the same list. -/
theorem Rep.withUsed (hr : Rep h bs) (used : Nat) : Rep { h with heapUsed := used } bs :=
  hr.of_headers (fun _ _ _ => rfl) rfl rfl rfl rfl

/-- **The end of `kmalloc` carves the block it found.** -/
theorem takeBlock_rep {size : Nat} (hr : Rep h (pre ++ b :: post)) (h8 : 8 ∣ size)
    (hpos : 8 ≤ size) (hfit : size + 16 ≤ b.size) :
    (takeBlock h b.addr size).1 = b.addr + 16 ∧
      Rep (takeBlock h b.addr size).2 (pre ++ (carve size b ++ post)) ∧
      (takeBlock h b.addr size).2.heapUsed = add32 h.heapUsed (granted size b).size := by
  have hrange := hr.mem_range (b := b) (by simp)
  have hhigh := hr.high
  have hlow := hr.low
  have hbs := (hr.sizes b (by simp)).1
  have hptr : add32 b.addr blockHeaderSize = b.addr + 16 :=
    add32_of_lt (by simp only [blockHeaderSize]; omega)
  -- the list with the block split (or not) and marked used, and the size read back
  have hmain : ∃ rest, carve size b = granted size b :: rest ∧
      Rep ((splitBlock h b.addr size).set .isFree b.addr 0)
        (pre ++ granted size b :: (rest ++ post)) := by
    unfold carve granted
    by_cases hbig : size + 48 ≤ b.size
    · refine ⟨_, by rw [if_pos hbig, if_pos hbig], ?_⟩
      rw [if_pos hbig]
      exact set_isFree_rep (splitBlock_rep hr hbig h8 hpos) false
    · refine ⟨[], by rw [if_neg hbig, if_neg hbig], ?_⟩
      rw [if_neg hbig, splitBlock_small hr (by omega) (by omega)]
      exact set_isFree_rep hr false
  obtain ⟨rest, hcarve, hrep⟩ := hmain
  have hsize : get ((splitBlock h b.addr size).set .isFree b.addr 0).mem .size b.addr
      = (granted size b).size := (hrep.fields (granted size b) (by simp)).1
  refine ⟨hptr, ?_, ?_⟩
  · rw [hcarve]
    exact hrep.withUsed _
  · unfold takeBlock
    dsimp only
    rw [hsize, set_heapUsed, splitBlock_heapUsed]

/-- The block that is carved stays where it is. -/
theorem granted_mem_carve (size : Nat) (b : Block) : granted size b ∈ carve size b := by
  unfold granted carve
  split <;> exact List.mem_cons_self

/-- Taking a block writes headers only, of blocks that are in the list afterwards. -/
theorem takeBlock_frame {size x : Nat} (hr : Rep h (pre ++ b :: post)) (hfit : size + 16 ≤ b.size)
    (hx : Clear (pre ++ (carve size b ++ post)) x) :
    (takeBlock h b.addr size).2.mem x = h.mem x := by
  have hrange := hr.mem_range (b := b) (by simp)
  have hhigh := hr.high
  have hlow := hr.low
  have hb : x < b.addr ∨ b.addr + 16 ≤ x :=
    hx (granted size b) (by simp [granted_mem_carve])
  have hsplit : (splitBlock h b.addr size).mem x = h.mem x := by
    by_cases hbig : size + 48 ≤ b.size
    · have hnew := hx ⟨b.addr + (size + 16), b.size - (size + 16), true⟩ (by simp [carve, hbig])
      exact splitBlock_frame hr hbig hb hnew fun c hc => hx c (by simp [hc])
    · rw [splitBlock_small hr (by omega) (by omega)]
  exact (put_outside _ hb).trans hsplit

/-! ## 3. The invariant with the usage counter -/

/-- **The heap invariant**: the state represents a nonempty block list, and `heap_used` counts
one header and the blocks in use. -/
structure Inv (h : Heap) (bs : List Block) : Prop where
  rep : Rep h bs
  nonempty : bs ≠ []
  used : h.heapUsed = 16 + usedBytes bs

theorem usedBytes_le : ∀ bs : List Block, usedBytes bs ≤ (bs.map Block.size).sum
  | [] => by simp [usedBytes]
  | b :: bs => by
    have ih := usedBytes_le bs
    simp only [List.map_cons, List.sum_cons]
    cases hb : b.free with
    | true =>
      rw [usedBytes, usedBlocks_cons_free bs hb]
      rw [usedBytes] at ih
      omega
    | false =>
      rw [usedBytes, usedBlocks_cons_used bs hb, List.map_cons, List.sum_cons]
      rw [usedBytes] at ih
      omega

theorem Rep.usedBytes_le_heapSize (hr : Rep h bs) : usedBytes bs ≤ h.heapSize := by
  have h1 := hr.tiles.sum_len
  have h2 := usedBytes_le bs
  omega

theorem usedBytes_middle (pre mid post : List Block) :
    usedBytes (pre ++ (mid ++ post)) = usedBytes pre + usedBytes mid + usedBytes post := by
  rw [usedBytes_append, usedBytes_append]
  omega

theorem usedBytes_of_free {b : Block} (hb : b.free = true) (bs : List Block) :
    usedBytes (b :: bs) = usedBytes bs := by
  unfold usedBytes
  rw [usedBlocks_cons_free bs hb]

theorem usedBytes_of_used {b : Block} (hb : b.free = false) (bs : List Block) :
    usedBytes (b :: bs) = b.size + usedBytes bs := by
  unfold usedBytes
  rw [usedBlocks_cons_used bs hb, List.map_cons, List.sum_cons]

/-- Taking a block that fits keeps the invariant. -/
theorem takeBlock_inv {size : Nat} (hi : Inv h (pre ++ b :: post)) (hfit : fits size b = true)
    (h8 : 8 ∣ size) (hpos : 8 ≤ size) :
    (takeBlock h b.addr size).1 = b.addr + 16 ∧
      Inv (takeBlock h b.addr size).2 (pre ++ (carve size b ++ post)) := by
  obtain ⟨hfree, hle⟩ : b.free = true ∧ size + 16 ≤ b.size := by simpa [fits] using hfit
  obtain ⟨hptr, hrep, hused⟩ := takeBlock_rep hi.rep h8 hpos hle
  have hcarve : usedBytes (carve size b) = (granted size b).size := by
    simp [usedBytes, usedBlocks_carve]
  have hsum : usedBytes (pre ++ (carve size b ++ post))
      = usedBytes (pre ++ b :: post) + (granted size b).size := by
    rw [usedBytes_middle, hcarve, usedBytes_append, usedBytes_of_free hfree]
    omega
  refine ⟨hptr, hrep, by unfold carve; split <;> simp, ?_⟩
  have hle := hrep.usedBytes_le_heapSize
  have hhigh := hrep.high
  have hlow := hrep.low
  rw [hused, hi.used, hsum, add32_of_lt (by rw [hsum] at hle; omega)]
  omega

/-! ## 4. `kmalloc` -/

/-- The request size `kmalloc` works with: rounded up to a multiple of 8. -/
theorem align8_spec {n : Nat} (h1 : 1 ≤ n) (h2 : n + 7 < 2 ^ 32) :
    8 ∣ align8 n ∧ 8 ≤ align8 n ∧ n ≤ align8 n ∧ align8 n < n + 8 := by
  have hadd : add32 n 7 = n + 7 := add32_of_lt (by omega)
  have hmask : (n + 7) &&& 0xFFFFFFF8 = (n + 7) / 2 ^ 3 * 2 ^ 3 :=
    and_highMask (w := 32) (k := 3) (by decide) (by omega)
  unfold align8
  rw [hadd, hmask]
  omega

theorem takeBlock_statics (h : Heap) (block size : Nat) :
    (takeBlock h block size).2.heapStart = h.heapStart ∧
      (takeBlock h block size).2.heapSize = h.heapSize := by
  unfold takeBlock splitBlock
  dsimp only
  split
  · split <;> split <;> exact ⟨rfl, rfl⟩
  · exact ⟨rfl, rfl⟩

theorem find_fits_of_alloc {size a : Nat} {bs' : List Block} (ha : alloc size bs = some (a, bs')) :
    ∃ pre b post, bs = pre ++ b :: post ∧ fits size b = true ∧ a = b.addr ∧
      bs' = pre ++ (carve size b ++ post) ∧ bs.find? (fits size) = some b := by
  obtain ⟨pre, b, post, rfl, hfit, hpre, rfl, rfl⟩ := alloc_cases ha
  refine ⟨pre, b, post, rfl, hfit, rfl, rfl, ?_⟩
  have hnone : pre.find? (fits size) = none :=
    List.find?_eq_none.mpr fun x hx => by simp [hpre x hx]
  rw [List.find?_append, hnone, Option.none_or, List.find?_cons, hfit]

/-- When no block fits, the search finds none. -/
theorem Inv.findFreeBlock_none {size : Nat} (hi : Inv h bs) (hlt : size + 16 < 2 ^ 32)
    (ha : alloc size bs = none) : findFreeBlock h size = some 0 := by
  have hnone : bs.find? (fits size) = none :=
    List.find?_eq_none.mpr fun x hx => by simp [alloc_eq_none.mp ha x hx]
  rw [findFreeBlock_eq hi.rep hi.nonempty hlt, hnone]
  rfl

/-- Searching and taking, once: what `kmalloc` does before and after the expansion. -/
theorem findTake {size : Nat} (hi : Inv h bs) (h8 : 8 ∣ size) (hpos : 8 ≤ size)
    (hlt : size + 16 < 2 ^ 32) :
    (alloc size bs = none ∧ findFreeBlock h size = some 0) ∨
      ∃ a bs', alloc size bs = some (a, bs') ∧ findFreeBlock h size = some a ∧ a ≠ 0 ∧
        (takeBlock h a size).1 = a + 16 ∧ Inv (takeBlock h a size).2 bs' ∧
        ∀ x, Clear bs' x → (takeBlock h a size).2.mem x = h.mem x := by
  cases ha : alloc size bs with
  | none => exact Or.inl ⟨rfl, hi.findFreeBlock_none hlt ha⟩
  | some r =>
    obtain ⟨a, bs'⟩ := r
    obtain ⟨pre, b, post, rfl, hfit, rfl, rfl, hb⟩ := find_fits_of_alloc ha
    have hfind := findFreeBlock_eq hi.rep hi.nonempty hlt
    rw [hb] at hfind
    obtain ⟨hptr, hinv⟩ := takeBlock_inv hi hfit h8 hpos
    have hle : size + 16 ≤ b.size := (by simpa [fits] using hfit : b.free = true ∧ _).2
    exact Or.inr ⟨b.addr, _, rfl, hfind, hi.rep.addr_ne_zero (by simp), hptr, hinv,
      fun x hx => takeBlock_frame hi.rep hle hx⟩

theorem appendPage_inv (hi : Inv h bs) (hroom : h.heapStart + h.heapSize + pageSize ≤ 2 ^ 32) :
    Inv (appendPage h) (bs ++ [⟨h.heapStart + h.heapSize, pageSize, true⟩]) := by
  obtain ⟨pre, b, rfl⟩ : ∃ pre b, bs = pre ++ [b] :=
    ⟨bs.dropLast, bs.getLast hi.nonempty, (List.dropLast_append_getLast hi.nonempty).symm⟩
  refine ⟨?_, by simp, ?_⟩
  · rw [List.append_assoc]
    exact appendPage_rep hi.rep hroom
  · have hused : (appendPage h).heapUsed = h.heapUsed := by
      unfold appendPage
      dsimp only
      split <;> rfl
    rw [hused, hi.used, usedBytes_append (pre ++ [b])]
    rfl

theorem appendPage_statics (hi : Inv h bs) (hroom : h.heapStart + h.heapSize + pageSize ≤ 2 ^ 32) :
    (appendPage h).heapStart = h.heapStart ∧ (appendPage h).heapSize = h.heapSize + pageSize := by
  have hlow := hi.rep.low
  have hsz : add32 h.heapSize pageSize = h.heapSize + pageSize := add32_of_lt (by omega)
  unfold appendPage
  dsimp only
  rw [hsz]
  split <;> exact ⟨rfl, rfl⟩

/-- The page `kmalloc` adds to the heap, as a block. -/
def pageBlock (h : Heap) : Block := ⟨h.heapStart + h.heapSize, pageSize, true⟩

/-- An expansion writes the headers of the new page and of the block before it. -/
theorem appendPage_frame (hi : Inv h bs) (hroom : h.heapStart + h.heapSize + pageSize ≤ 2 ^ 32)
    {x : Nat} (hx : Clear (bs ++ [pageBlock h]) x) : (appendPage h).mem x = h.mem x := by
  obtain ⟨pre, b, rfl⟩ : ∃ pre b, bs = pre ++ [b] :=
    ⟨bs.dropLast, bs.getLast hi.nonempty, (List.dropLast_append_getLast hi.nonempty).symm⟩
  have hend : h.heapEnd = b.addr := (hi.rep.heapEnd_iff.mpr rfl).symm
  have hb : x < h.heapEnd ∨ h.heapEnd + 16 ≤ x := by
    rw [hend]
    exact hx b (by simp)
  have hpage : x < h.heapStart + h.heapSize ∨ h.heapStart + h.heapSize + 16 ≤ x :=
    hx (pageBlock h) (by simp)
  have hnv : add32 h.heapVirtStart h.heapSize = h.heapStart + h.heapSize := by
    rw [hi.rep.virt, add32_of_lt (by simp only [pageSize] at hroom; omega)]
  rw [appendPage_mem, pageHeader, newVirt, hnv]
  split
  · rw [put_outside _ hb, put_outside _ hpage, put_outside _ hpage, put_outside _ hpage,
      put_outside _ hpage]
  · rw [put_outside _ hpage, put_outside _ hpage, put_outside _ hpage, put_outside _ hpage]

/-- The blocks an allocation starts from are in the list afterwards. -/
theorem alloc_keeps {size a : Nat} {bs' : List Block} (ha : alloc size bs = some (a, bs')) :
    ∀ b ∈ bs, ∃ c ∈ bs', c.addr = b.addr := by
  obtain ⟨pre, d, post, rfl, -, -, -, rfl⟩ := alloc_cases ha
  intro b hb
  rcases List.mem_append.mp hb with hb | hb
  · exact ⟨b, by simp [hb], rfl⟩
  · rcases List.mem_cons.mp hb with rfl | hb
    · exact ⟨granted size b, by simp [granted_mem_carve], rfl⟩
    · exact ⟨b, by simp [hb], rfl⟩

/-- **Everything `kmalloc` can do**, in terms of the abstract allocator: serve the request from
the list, fail for want of a page, or add a page to the list and try once more. -/
inductive KmallocOutcome {σ : Type} (env : PageEnv σ) (s : σ) (h : Heap) (bs : List Block)
    (n p : Nat) (s' : σ) (h' : Heap) (bs' : List Block) : Prop
  | served (a : Nat) (ha : alloc (align8 n) bs = some (a, bs')) (hp : p = a + 16) (hs : s' = s)
      (hsize : h'.heapSize = h.heapSize)
  | noPage (ha : alloc (align8 n) bs = none) (hphys : (env.pmmAllocPage s).1 = 0) (hp : p = 0)
      (hs : s' = (env.pmmAllocPage s).2) (hh : h' = h) (hbs : bs' = bs)
  | grown (ha : alloc (align8 n) bs = none) (hphys : (env.pmmAllocPage s).1 ≠ 0)
      (hs : s' = env.pagingMapPage (h.heapStart + h.heapSize) (env.pmmAllocPage s).1
        (pagePresent ||| pageWrite) (env.pmmAllocPage s).2)
      (hsize : h'.heapSize = h.heapSize + pageSize)
      (hretry : (∃ a, alloc (align8 n) (bs ++ [pageBlock h]) = some (a, bs') ∧ p = a + 16) ∨
        (alloc (align8 n) (bs ++ [pageBlock h]) = none ∧ p = 0 ∧ bs' = bs ++ [pageBlock h]))

/-- **`kmalloc` refines the abstract allocator.**  On every heap that satisfies the invariant
it returns, keeps the invariant, and does one of the things `KmallocOutcome` lists. -/
theorem kmalloc_refines {σ : Type} (env : PageEnv σ) (s : σ) {n : Nat} (hi : Inv h bs)
    (h1 : 1 ≤ n) (h2 : n ≤ 0xFFFFFFE8)
    (hroom : findFreeBlock h (align8 n) = some 0 → (env.pmmAllocPage s).1 ≠ 0 →
      h.heapStart + h.heapSize + pageSize ≤ 2 ^ 32) :
    ∃ p s' h' bs', kmalloc env s h n = some (p, s', h') ∧ Inv h' bs' ∧
      h'.heapStart = h.heapStart ∧ KmallocOutcome env s h bs n p s' h' bs' ∧
      ∀ x, Clear bs' x → h'.mem x = h.mem x := by
  obtain ⟨h8, hpos, -, hle⟩ := align8_spec h1 (by omega)
  have hn0 : n ≠ 0 := by omega
  rcases findTake hi h8 hpos (by omega) with ⟨ha, hf⟩ | ⟨a, bs', ha, hf, ha0, hptr, hinv, hmem⟩
  · by_cases hphys : (env.pmmAllocPage s).1 = 0
    · refine ⟨0, _, h, bs, ?_, hi, rfl, .noPage ha hphys rfl rfl rfl rfl, fun _ _ => rfl⟩
      simp [kmalloc, hn0, hf, hphys]
    · have hroom' := hroom hf hphys
      have hvirt : add32 h.heapVirtStart h.heapSize = h.heapStart + h.heapSize := by
        rw [hi.rep.virt, add32_of_lt (by simp only [pageSize] at hroom'; omega)]
      have hi' := appendPage_inv hi hroom'
      obtain ⟨hst, hsz⟩ := appendPage_statics hi hroom'
      have hpage := fun x => @appendPage_frame h bs hi hroom' x
      rcases findTake hi' h8 hpos (by omega) with
        ⟨ha', hf'⟩ | ⟨a, bs', ha', hf', ha0, hptr, hinv, hmem⟩
      · refine ⟨0, _, appendPage h, _, ?_, hi', hst,
          .grown ha hphys rfl hsz (Or.inr ⟨ha', rfl, rfl⟩), hpage⟩
        simp [kmalloc, hn0, hf, hphys, hf', hvirt]
      · have hstat := takeBlock_statics (appendPage h) a (align8 n)
        refine ⟨a + 16, _, _, bs', ?_, hinv, hstat.1.trans hst,
          .grown ha hphys rfl (hstat.2.trans hsz) (Or.inl ⟨a, ha', rfl⟩),
          fun x hx => (hmem x hx).trans (hpage x (hx.mono (alloc_keeps ha')))⟩
        simp [kmalloc, hn0, hf, hphys, hf', ha0, hvirt, hptr]
  · have hstat := takeBlock_statics h a (align8 n)
    refine ⟨a + 16, s, _, bs', ?_, hinv, hstat.1, .served a ha rfl rfl hstat.2, hmem⟩
    simp [kmalloc, hn0, hf, ha0, hptr]

/-! ## 5. `kfree` -/

/-- The forward merge joins a block with its free successor. -/
theorem mergeNext_rep (hr : Rep h (pre ++ b :: post)) :
    Rep (mergeNext h b.addr) (pre ++ joinNext b post) := by
  cases post with
  | nil =>
    rw [mergeNext_noop hr (by simp)]
    exact hr
  | cons c cs =>
    rw [joinNext]
    split
    · rename_i hc
      rw [mergeNext_eq hr hc]
      exact mergeInto_rep hr
    · rename_i hc
      rw [mergeNext_noop hr fun d hd => by
        obtain rfl : c = d := by simpa using hd
        simpa using hc]
      exact hr

section Keeps

/-! What `merge_free_blocks` keeps: `f` is something of the heap that no merge changes into a block
whose address, and those of the blocks after it, have the property `Q`. -/

variable {α : Type} {f : Heap → α} {Q : Nat → Prop}
  (hmerge : ∀ (h : Heap) (b : Block) (size : Nat) (post : List Block), Q b.addr →
    (∀ c ∈ post, Q c.addr) → f (mergeInto h b.addr size (firstAddr post)) = f h)

include hmerge

theorem mergeNext_keeps (hr : Rep h (pre ++ b :: post)) (hQ : ∀ c ∈ b :: post, Q c.addr) :
    f (mergeNext h b.addr) = f h := by
  by_cases hpost : ∀ c, post.head? = some c → c.free = false
  · rw [mergeNext_noop hr hpost]
  · push Not at hpost
    obtain ⟨c, hc, hcf⟩ := hpost
    obtain ⟨cs, rfl⟩ := List.head?_eq_some_iff.mp hc
    rw [mergeNext_eq hr (by simpa using hcf)]
    exact hmerge h b _ cs (hQ b List.mem_cons_self) fun d hd => hQ d (by simp [hd])

theorem mergePrev_keeps (hr : Rep h (pre ++ b :: post)) (hQ : ∀ c ∈ pre ++ post, Q c.addr) :
    f (mergePrev h b.addr) = f h := by
  by_cases hpre : ∀ c, pre.getLast? = some c → c.free = false
  · rw [mergePrev_noop hr hpre]
  · push Not at hpre
    obtain ⟨p, hp, hpf⟩ := hpre
    obtain ⟨ps, rfl⟩ := List.getLast?_eq_some_iff.mp hp
    rw [List.append_assoc, List.singleton_append] at hr
    rw [mergePrev_eq hr (by simpa using hpf)]
    exact hmerge h p _ post (hQ p (by simp)) fun d hd => hQ d (by simp [hd])

theorem mergeFreeBlocks_keeps (hr : Rep h (pre ++ b :: post))
    (hQ : ∀ c ∈ pre ++ b :: post, Q c.addr) : f (mergeFreeBlocks h b.addr) = f h := by
  have hnext := mergeNext_keeps hmerge hr fun c hc => hQ c (List.mem_append_right _ hc)
  have hrep := mergeNext_rep hr
  obtain ⟨c, cs, hj, hca, hsub⟩ := joinNext_sub b post
  rw [hj] at hrep
  have hrest : ∀ d ∈ pre ++ cs, Q d.addr := by
    intro d hd
    rcases List.mem_append.mp hd with hd | hd
    · exact hQ d (by simp [hd])
    · exact hQ d (by simp [hsub d hd])
  have hprev := mergePrev_keeps hmerge hrep hrest
  rw [hca] at hprev
  exact hprev.trans hnext

end Keeps

/-- Merging writes headers only, of blocks that were in the list before. -/
theorem mergeFreeBlocks_frame (hr : Rep h (pre ++ b :: post)) {x : Nat}
    (hx : Clear (pre ++ b :: post) x) : (mergeFreeBlocks h b.addr).mem x = h.mem x :=
  mergeFreeBlocks_keeps (f := fun h => h.mem x) (Q := fun a => x < a ∨ a + 16 ≤ x)
    (fun _ _ _ _ => mergeInto_frame) hr hx

/-- Merging touches neither the counter nor the bounds of the heap. -/
theorem mergeFreeBlocks_statics (h : Heap) (block : Nat) :
    (mergeFreeBlocks h block).heapUsed = h.heapUsed ∧
      (mergeFreeBlocks h block).heapStart = h.heapStart ∧
      (mergeFreeBlocks h block).heapSize = h.heapSize := by
  have h1 : ∀ g : Heap, (mergePrev g block).heapUsed = g.heapUsed ∧
      (mergePrev g block).heapStart = g.heapStart ∧
      (mergePrev g block).heapSize = g.heapSize := by
    intro g
    unfold mergePrev
    dsimp only
    split
    · split <;> exact ⟨rfl, rfl, rfl⟩
    · exact ⟨rfl, rfl, rfl⟩
  have h2 : (mergeNext h block).heapUsed = h.heapUsed ∧
      (mergeNext h block).heapStart = h.heapStart ∧
      (mergeNext h block).heapSize = h.heapSize := by
    unfold mergeNext
    dsimp only
    split
    · split <;> exact ⟨rfl, rfl, rfl⟩
    · exact ⟨rfl, rfl, rfl⟩
  obtain ⟨h3, h4, h5⟩ := h1 (mergeNext h block)
  exact ⟨h3.trans h2.1, h4.trans h2.2.1, h5.trans h2.2.2⟩

/-- **`merge_free_blocks` on a block just freed is `release`.** -/
theorem mergeFreeBlocks_rep {size : Nat} {free : Bool} {a : Nat}
    (hr : Rep h (pre ++ ⟨a, size, true⟩ :: post)) :
    Rep (mergeFreeBlocks h a) (release a (pre ++ ⟨a, size, free⟩ :: post)) := by
  have hne : ∀ x ∈ pre, x.addr ≠ a := fun _ => hr.before_ne
  have hnext : Rep (mergeNext h a) (pre ++ joinNext ⟨a, size, true⟩ post) := mergeNext_rep hr
  obtain ⟨c, cs, hj, hca, hcf⟩ := joinNext_cons ⟨a, size, true⟩ post
  obtain rfl : c.addr = a := hca
  rw [hj] at hnext
  unfold mergeFreeBlocks
  by_cases hlast : ∀ x, pre.getLast? = some x → x.free = false
  · rw [mergePrev_noop hnext hlast,
      @release_append c.addr (⟨c.addr, size, free⟩ :: post) pre hne rfl hlast,
      release_head (b := ⟨c.addr, size, free⟩) rfl, hj]
    exact hnext
  · push Not at hlast
    obtain ⟨p, hp, hpf⟩ := hlast
    obtain ⟨ps, rfl⟩ := List.getLast?_eq_some_iff.mp hp
    have hpf' : p.free = true := by simpa using hpf
    rw [List.append_assoc, List.singleton_append] at hnext
    rw [List.append_assoc, List.singleton_append,
      release_append_free (b := ⟨c.addr, size, free⟩) (fun x hx => hne x (by simp [hx]))
        (hne p (by simp)) hpf' rfl hj,
      mergePrev_eq hnext hpf']
    exact mergeInto_rep hnext

/-- A block in use marked free, and no longer counted. -/
def markFree (h : Heap) (pre post : List Block) (a : Nat) : Heap :=
  { h with heapUsed := 16 + (usedBytes pre + usedBytes post) }.set .isFree a 1

theorem markFree_rep (hr : Rep h (pre ++ b :: post)) :
    Rep (markFree h pre post b.addr) (pre ++ ⟨b.addr, b.size, true⟩ :: post) :=
  set_isFree_rep (hr.withUsed _) true

/-- What `kfree` does with a pointer to a block in use. -/
theorem kfree_eq (hi : Inv h (pre ++ b :: post)) (hb : b.free = false)
    (hhigh : h.heapStart + h.heapSize < 2 ^ 32) :
    kfree h (b.addr + 16) = mergeFreeBlocks (markFree h pre post b.addr) b.addr := by
  have hmem : b ∈ pre ++ b :: post := by simp
  have hr := hi.rep
  have hrange := hr.mem_range hmem
  have hlow := hr.low
  have hbs := (hr.sizes b hmem).1
  obtain ⟨hfs, hff⟩ := hr.fields b hmem
  have hsub : sub32 (b.addr + 16) blockHeaderSize = b.addr := by
    rw [sub32_of_le (by simp only [blockHeaderSize]; omega) (by omega)]
    simp only [blockHeaderSize]
    omega
  have hend : add32 h.heapStart h.heapSize = h.heapStart + h.heapSize := add32_of_lt hhigh
  have hflag : get h.mem .isFree b.addr = 0 := by
    rw [hff, Block.flag, hb]
    rfl
  have hsum : usedBytes (pre ++ b :: post) = usedBytes pre + (b.size + usedBytes post) := by
    rw [usedBytes_append, usedBytes_of_used hb]
  have hle := hr.usedBytes_le_heapSize
  have hcount : sub32 h.heapUsed b.size = 16 + (usedBytes pre + usedBytes post) := by
    rw [hi.used, sub32_of_le (by omega) (by omega)]
    omega
  unfold kfree markFree
  simp only [Nat.add_eq_zero_iff, OfNat.ofNat_ne_zero, and_false, if_false, hsub, hend]
  rw [if_neg (by omega), if_neg (by simp [hflag]), hfs, hcount]

/-- **`kfree` refines the abstract allocator**: freeing a block in use releases it. -/
theorem kfree_refines (hi : Inv h (pre ++ b :: post)) (hb : b.free = false)
    (hhigh : h.heapStart + h.heapSize < 2 ^ 32) :
    Inv (kfree h (b.addr + 16)) (release b.addr (pre ++ b :: post)) ∧
      (kfree h (b.addr + 16)).heapStart = h.heapStart ∧
      (kfree h (b.addr + 16)).heapSize = h.heapSize ∧
      ∀ x, Clear (pre ++ b :: post) x → (kfree h (b.addr + 16)).mem x = h.mem x := by
  have hmem : b ∈ pre ++ b :: post := by simp
  have hr := hi.rep
  have hrange := hr.mem_range hmem
  have hbs := (hr.sizes b hmem).1
  have heq := kfree_eq hi hb hhigh
  have hfreed := markFree_rep hr
  have hrep : Rep (kfree h (b.addr + 16)) (release b.addr (pre ++ b :: post)) := by
    rw [heq]
    exact mergeFreeBlocks_rep hfreed
  have hne : ∀ x ∈ pre, x.addr ≠ b.addr := fun _ => hr.before_ne
  obtain ⟨hused, hstart, hsize⟩ := mergeFreeBlocks_statics (markFree h pre post b.addr) b.addr
  rw [← heq] at hused hstart hsize
  refine ⟨⟨hrep, ?_, ?_⟩, hstart, hsize, fun x hx => ?_⟩
  · -- an empty list could not tile the heap
    intro hnil
    have htile := hrep.tiles
    rw [hnil, hstart, hsize] at htile
    have hz : h.heapStart = h.heapStart + h.heapSize := htile
    omega
  · have hbytes : usedBytes (release b.addr (pre ++ b :: post))
        = usedBytes pre + usedBytes post := by
      unfold usedBytes
      rw [usedBlocks_release hne rfl, List.map_append, List.sum_append]
    rw [hused, hbytes]
    rfl
  · rw [heq]
    refine (mergeFreeBlocks_frame (b := ⟨b.addr, b.size, true⟩) hfreed
        (hx.mono fun c hc => ?_)).trans
      (put_outside _ (hx b hmem))
    rcases List.mem_append.mp hc with hc | hc
    · exact ⟨c, by simp [hc], rfl⟩
    · rcases List.mem_cons.mp hc with rfl | hc
      · exact ⟨b, hmem, rfl⟩
      · exact ⟨c, by simp [hc], rfl⟩

end FlowOS.Heap
