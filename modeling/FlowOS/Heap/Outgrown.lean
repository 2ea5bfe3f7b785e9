/-
# A heap that has outgrown the address space

`kmalloc` adds a page to the heap whenever it finds no block, and compares nothing with the end
of the address space.  After `0x40000000` bytes the sum `heap_virt_start + heap_size` wraps: the
next page is put at address 0, where the list cannot reach it since the pointer to it is `NULL`,
and every further one right behind.  The blocks above `heap_start` stay as they are from then on,
except that free ones are still handed out, and `kfree`, which computes the same sum, rejects
every pointer.
-/
import FlowOS.Heap.Alloc

namespace FlowOS.Heap

open Word Tiling Linked

variable {h : Heap} {bs pre post : List Block} {b : Block}

/-! ## 1. The part that is still a list of blocks -/

/-- The heap cut off at the end of the address space, with `last` for its last block. -/
def clip (h : Heap) (last : Nat) : Heap :=
  { h with heapSize := 2 ^ 32 - h.heapStart, heapEnd := last }

/-- **A heap of `0x40000000` bytes or more.**  The list of blocks fills the address space from
`heap_start` on; `heap_end` is its last block only until the next page is added. -/
structure Capped (h : Heap) (bs : List Block) : Prop where
  inv : Inv (h.clip (lastAddr bs)) bs
  start : h.heapStart = 0xC0000000
  pages : 4096 ∣ h.heapSize
  wraps : 2 ^ 32 ≤ h.heapStart + h.heapSize
  small : h.heapSize < 2 ^ 32
  last : (h.heapStart + h.heapSize = 2 ^ 32 ∧ h.heapEnd = lastAddr bs) ∨
    h.heapEnd + 16 ≤ h.heapStart

theorem clip_eq (hfull : h.heapStart + h.heapSize = 2 ^ 32) (hlast : h.heapEnd = lastAddr bs) :
    h.clip (lastAddr bs) = h := by
  have hsize : 2 ^ 32 - h.heapStart = h.heapSize := by omega
  rw [clip, hsize, ← hlast]

/-- A heap that ends where the address space does. -/
theorem Inv.capped (hi : Inv h bs) (hstart : h.heapStart = 0xC0000000)
    (hfull : h.heapStart + h.heapSize = 2 ^ 32) : Capped h bs := by
  refine ⟨?_, hstart, by omega, by omega, by omega, Or.inl ⟨hfull, hi.rep.last⟩⟩
  rw [clip_eq hfull hi.rep.last]
  exact hi

/-- What the blocks are read from. -/
theorem Capped.range (hc : Capped h bs) (hb : b ∈ bs) :
    0xC0000000 ≤ b.addr ∧ b.addr + b.size ≤ 2 ^ 32 := by
  have hrange := hc.inv.rep.mem_range hb
  have hstart := hc.start
  have hsize : (h.clip (lastAddr bs)).heapSize = 2 ^ 32 - h.heapStart := rfl
  have hclip : (h.clip (lastAddr bs)).heapStart = h.heapStart := rfl
  omega

/-- The next page would lie below the heap. -/
theorem Capped.newVirt (hc : Capped h bs) :
    h.newVirt = h.heapStart + h.heapSize - 2 ^ 32 ∧ h.newVirt + 16 ≤ h.heapStart := by
  have hvirt : h.heapVirtStart = h.heapStart := hc.inv.rep.virt
  have hpages := hc.pages
  have hstart := hc.start
  have hwraps := hc.wraps
  have hsmall := hc.small
  have heq : h.newVirt = h.heapStart + h.heapSize - 2 ^ 32 := by
    unfold Heap.newVirt add32
    rw [hvirt]
    omega
  exact ⟨heq, by omega⟩

/-! ## 2. `kfree` -/

/-- **`kfree` rejects every pointer into the heap.** -/
theorem Capped.kfree (hc : Capped h bs) {ptr : Nat} (hlow : h.heapStart + 16 ≤ ptr)
    (hhigh : ptr < 2 ^ 32) : Heap.kfree h ptr = h := by
  have hwraps := hc.wraps
  have hsmall := hc.small
  have hstart := hc.start
  have hsub : sub32 ptr blockHeaderSize = ptr - 16 := by
    rw [sub32_of_le (by simp only [blockHeaderSize]; omega) hhigh]
    rfl
  have hend : add32 h.heapStart h.heapSize ≤ ptr - 16 := by
    unfold add32
    omega
  unfold Heap.kfree
  rw [if_neg (by omega)]
  dsimp only
  rw [hsub, if_pos (Or.inr hend)]

/-! ## 3. `kmalloc` -/

/-- Taking a block writes the same headers wherever the heap is said to end. -/
theorem takeBlock_clip (h : Heap) (last block size : Nat) :
    (takeBlock (h.clip last) block size).1 = (takeBlock h block size).1 ∧
      (takeBlock (h.clip last) block size).2.mem = (takeBlock h block size).2.mem ∧
      (takeBlock (h.clip last) block size).2.heapUsed = (takeBlock h block size).2.heapUsed := by
  unfold takeBlock splitBlock clip
  dsimp only [Heap.set]
  split
  · split <;> split <;> split <;> exact ⟨rfl, rfl, rfl⟩
  · exact ⟨rfl, rfl, rfl⟩

theorem takeBlock_heapEnd {a size : Nat} (ha : a ≠ h.heapEnd) :
    (takeBlock h a size).2.heapEnd = h.heapEnd := by
  unfold takeBlock splitBlock
  dsimp only [Heap.set]
  split
  · split <;> rfl
  · rfl

/-- A block taken from the list. -/
theorem Capped.take (hc : Capped h bs) {a size : Nat} {bs' : List Block} (ha : h.heapStart ≤ a)
    (hinv : Inv (takeBlock (h.clip (lastAddr bs)) a size).2 bs') :
    Capped (takeBlock h a size).2 bs' := by
  obtain ⟨hstart, hsize, -⟩ := takeBlock_place h a size
  rcases hc.last with ⟨hfull, hlast⟩ | hlow
  · rw [clip_eq hfull hlast] at hinv
    exact hinv.capped (hstart.trans hc.start) (by rw [hstart, hsize]; exact hfull)
  · have hend : (takeBlock h a size).2.heapEnd = h.heapEnd := takeBlock_heapEnd (by omega)
    obtain ⟨-, hmem, hused⟩ := takeBlock_clip h (lastAddr bs) a size
    obtain ⟨hstart', hsize', hvirt'⟩ := takeBlock_place (h.clip (lastAddr bs)) a size
    obtain ⟨-, -, hvirt⟩ := takeBlock_place h a size
    have hrep : Rep ((takeBlock h a size).2.clip (lastAddr bs')) bs' := by
      refine hinv.rep.of_headers (fun f x _ => ?_) ?_ ?_ hinv.rep.last.symm ?_
      · exact congrArg (fun m => get m f x.addr) hmem.symm
      · exact hstart.trans hstart'.symm
      · exact (congrArg (2 ^ 32 - ·) hstart).trans hsize'.symm
      · exact hvirt.trans hvirt'.symm
    refine ⟨⟨hrep, hinv.nonempty, ?_⟩, hstart.trans hc.start, ?_, ?_, ?_, Or.inr ?_⟩
    · exact hused.symm.trans hinv.used
    · rw [hsize]
      exact hc.pages
    · rw [hstart, hsize]
      exact hc.wraps
    · rw [hsize]
      exact hc.small
    · rw [hend, hstart]
      exact hlow

theorem exists_of_lastAddr (hne : bs ≠ []) : ∃ b ∈ bs, lastAddr bs = b.addr := by
  obtain ⟨pre, b, rfl⟩ : ∃ pre b, bs = pre ++ [b] :=
    ⟨bs.dropLast, bs.getLast hne, (List.dropLast_append_getLast hne).symm⟩
  exact ⟨b, by simp, by simp [lastAddr]⟩

/-- The last block points nowhere. -/
theorem Rep.next_last (hr : Rep h bs) (hne : bs ≠ []) : get h.mem .next (lastAddr bs) = 0 := by
  obtain ⟨pre, b, rfl⟩ : ∃ pre b, bs = pre ++ [b] :=
    ⟨bs.dropLast, bs.getLast hne, (List.dropLast_append_getLast hne).symm⟩
  have hlast : lastAddr (pre ++ [b]) = b.addr := by simp [lastAddr]
  rw [hlast]
  exact hr.next_eq

/-- The header writes of an expansion past the end stay below the heap. -/
theorem Capped.appendPage_above (hc : Capped h bs) {x : Nat} (hx : h.heapStart ≤ x) :
    (Heap.appendPage h).mem x = h.mem x := by
  obtain ⟨hnv, hlow⟩ := hc.newVirt
  have hall : ∀ y, h.heapStart ≤ y → h.pageHeader y = h.mem y := by
    intro y hy
    unfold pageHeader
    rw [put_outside _ (by omega), put_outside _ (by omega), put_outside _ (by omega),
      put_outside _ (by omega)]
  rw [appendPage_mem]
  split
  · rcases hc.last with ⟨hfull, hlast⟩ | hend
    · -- the page is at address 0, where the last block points already
      obtain ⟨b, hb, hbe⟩ := exists_of_lastAddr hc.inv.nonempty
      have hrange := hc.range hb
      have hstart := hc.start
      have hnext : h.pageHeader.ld32 (h.heapEnd + 8) = h.newVirt := by
        rw [show h.newVirt = 0 by omega, ← hc.inv.rep.next_last hc.inv.nonempty, ← hlast]
        exact Mem.ld32_congr fun y hy _ => hall y (by omega)
      rw [put, ← hnext, show Field.next.offset = 8 from rfl, Mem.st32_ld32]
      exact hall x hx
    · rw [put_outside _ (by omega)]
      exact hall x hx
  · exact hall x hx

/-- **Adding a page changes nothing but the size**: the list does not reach it. -/
theorem Capped.appendPage (hc : Capped h bs) (hsmall : h.heapSize + pageSize < 2 ^ 32) :
    Capped (Heap.appendPage h) bs := by
  have hrep := hc.inv.rep
  have hwraps := hc.wraps
  obtain ⟨-, hlow⟩ := hc.newVirt
  obtain ⟨hstart, hsize, hvirt⟩ := appendPage_place h
  rw [add32_of_lt hsmall] at hsize
  have hend : (Heap.appendPage h).heapEnd = h.newVirt := by
    unfold Heap.appendPage
    rfl
  have hused : (Heap.appendPage h).heapUsed = h.heapUsed := by
    unfold Heap.appendPage
    dsimp only
    split <;> rfl
  refine ⟨⟨?_, hc.inv.nonempty, hused.trans hc.inv.used⟩, hstart.trans hc.start, ?_, ?_, ?_,
    Or.inr ?_⟩
  · refine hrep.of_headers (fun f b hb => ?_) hstart ?_ rfl hvirt
    · have hrange := hc.range hb
      have hs := hc.start
      exact Mem.ld32_congr fun x hx _ => hc.appendPage_above (by omega)
    · exact congrArg (2 ^ 32 - ·) hstart
  · rw [hsize]
    exact (Nat.dvd_add_iff_left (by decide)).mp hc.pages
  · rw [hstart, hsize]
    omega
  · rw [hsize]
    exact hsmall
  · rw [hend, hstart]
    exact hlow

/-- **`kmalloc` past the end of the address space** serves what the list can serve and otherwise
returns `NULL`. -/
theorem Capped.kmalloc {σ : Type} (env : PageEnv σ) (s : σ) {n : Nat} (hc : Capped h bs)
    (h1 : 1 ≤ n) (h2 : n ≤ 0xFFFFFFE8)
    (hsmall : (env.pmmAllocPage s).1 ≠ 0 → h.heapSize + pageSize < 2 ^ 32) :
    ∃ p s' h', Heap.kmalloc env s h n = some (p, s', h') ∧
      ((∃ a bs', alloc (align8 n) bs = some (a, bs') ∧ p = a + 16 ∧ Capped h' bs' ∧
          h'.heapSize = h.heapSize ∧ ∀ x, Clear bs' x → h'.mem x = h.mem x) ∨
        (alloc (align8 n) bs = none ∧ p = 0 ∧ Capped h' bs ∧
          ∀ x, h.heapStart ≤ x → h'.mem x = h.mem x)) := by
  obtain ⟨h8, hpos, -, hle⟩ := align8_spec h1 (by omega)
  have hn0 : n ≠ 0 := by omega
  have hlt : align8 n + 16 < 2 ^ 32 := by omega
  rcases findTake hc.inv h8 hpos hlt with ⟨ha, hf⟩ | ⟨a, bs', ha, hf, ha0, hptr, hinv, hmem⟩
  · have hf' : findFreeBlock h (align8 n) = some 0 := hf
    by_cases hphys : (env.pmmAllocPage s).1 = 0
    · refine ⟨0, (env.pmmAllocPage s).2, h, ?_, Or.inr ⟨ha, rfl, hc, fun _ _ => rfl⟩⟩
      simp [Heap.kmalloc, hn0, hf', hphys]
    · -- the retry searches the same list
      have hc' := hc.appendPage (hsmall hphys)
      have hretry : findFreeBlock (Heap.appendPage h) (align8 n) = some 0 :=
        hc'.inv.findFreeBlock_none hlt ha
      refine ⟨0, env.pagingMapPage h.newVirt (env.pmmAllocPage s).1 (pagePresent ||| pageWrite)
        (env.pmmAllocPage s).2, Heap.appendPage h, ?_, Or.inr ⟨ha, rfl, hc',
        fun _ hx => hc.appendPage_above hx⟩⟩
      simp [Heap.kmalloc, hn0, hf', hphys, hretry, Heap.newVirt]
  · have hf' : findFreeBlock h (align8 n) = some a := hf
    obtain ⟨hptr', hmem', -⟩ := takeBlock_clip h (lastAddr bs) a (align8 n)
    rw [hptr'] at hptr
    rw [hmem'] at hmem
    obtain ⟨pre, b, post, rfl, -, rfl, -⟩ := find_fits_of_alloc ha
    have hstart := hc.start
    have hrange := hc.range (b := b) (by simp)
    refine ⟨b.addr + 16, s, _, ?_, Or.inl ⟨b.addr, bs', ha, rfl, hc.take (by omega) hinv,
      (takeBlock_statics h b.addr (align8 n)).2, hmem⟩⟩
    simp [Heap.kmalloc, hn0, hf', ha0, hptr]

/-! ## 4. Below the end and past it -/

/-- **The heap as the kernel's runs leave it.** -/
inductive Sound (h : Heap) (bs : List Block) : Prop
  | below (inv : Inv h bs) (start : h.heapStart = 0xC0000000) (pages : 4096 ∣ h.heapSize)
      (high : h.heapStart + h.heapSize < 2 ^ 32)
  | capped (past : Capped h bs)

/-- Either way the blocks are those of a heap in order, over the same memory. -/
theorem Sound.view (hs : Sound h bs) : ∃ g : Heap, Inv g bs ∧ g.mem = h.mem ∧
    g.heapStart = 0xC0000000 ∧ h.heapStart = 0xC0000000 ∧ g.heapUsed = h.heapUsed ∧
    g.heapSize = min h.heapSize 0x40000000 := by
  cases hs with
  | below inv start _ high => exact ⟨h, inv, rfl, start, start, rfl, by omega⟩
  | capped past =>
    have hwraps := past.wraps
    have hstart := past.start
    refine ⟨_, past.inv, rfl, hstart, hstart, rfl, ?_⟩
    show 2 ^ 32 - h.heapStart = _
    omega

theorem Sound.heapUsed_eq (hs : Sound h bs) : h.heapUsed = 16 + usedBytes bs := by
  obtain ⟨g, hg, -, -, -, hused, -⟩ := hs.view
  rw [← hused, hg.used]

/-- The headers leave no choice for the list. -/
theorem Sound.unique {cs : List Block} (hb : Sound h bs) (hc : Sound h cs) : bs = cs := by
  obtain ⟨g, hg, hgmem, hgs, -, -, hgsize⟩ := hb.view
  obtain ⟨f, hf, hfmem, hfs, -, -, hfsize⟩ := hc.view
  have hgt := hg.rep.tiles
  have hft := hf.rep.tiles
  rw [hgs, hgsize] at hgt
  rw [hfs, hfsize] at hft
  refine blocks_unique hgt hft
    (fun x hx => ⟨(hg.rep.sizes x hx).1, hgmem ▸ hg.rep.fields x hx⟩)
    fun x hx => ⟨(hf.rep.sizes x hx).1, hfmem ▸ hf.rep.fields x hx⟩

/-- The list the second search of a `kmalloc` runs through. -/
def Extends (bs bs₁ : List Block) : Prop := bs₁ = bs ∨ ∃ c : Block, c.free = true ∧ bs₁ = bs ++ [c]

/-- **What a `kmalloc` does to the list**: it is served from the list, or from a page added to the
list when that cannot serve it; or it fails, and may have grown the heap all the same. -/
inductive Outcome (n : Nat) (h h' : Heap) (bs bs' : List Block) (p : Nat) : Prop
  | served (a : Nat) (ha : alloc (align8 n) bs = some (a, bs')) (hp : p = a + 16)
      (hsize : h'.heapSize = h.heapSize)
  | grown (c : Block) (a : Nat) (hnone : alloc (align8 n) bs = none) (hc : c.free = true)
      (ha : alloc (align8 n) (bs ++ [c]) = some (a, bs')) (hp : p = a + 16)
      (hbelow : h.heapStart + h.heapSize < 2 ^ 32) (hsize : h'.heapSize ≠ h.heapSize)
  | failed (hp : p = 0) (hbs : bs' = bs) (hsize : h'.heapSize = h.heapSize)
  | wasted (hp : p = 0) (hext : Extends bs bs') (hsize : h'.heapSize ≠ h.heapSize)

/-- A `kmalloc` that succeeds puts one block more into use, and it holds the request. -/
theorem Outcome.used {n p : Nat} {h' : Heap} {bs' : List Block} (hout : Outcome n h h' bs bs' p)
    (h1 : 1 ≤ n) (h2 : n ≤ 0xFFFFFFE8) (hp : p ≠ 0) : ∃ c : Block, p = c.addr + 16 ∧
      n + 16 ≤ c.size ∧ (usedBlocks bs').Perm (c :: usedBlocks bs) := by
  have hle := (align8_spec h1 (by omega)).2.2.1
  cases hout with
  | served a ha hpa =>
    obtain ⟨c, rfl, hsize, hused⟩ := alloc_used ha
    exact ⟨c, hpa, by omega, hused⟩
  | grown d a _ hd ha hpa =>
    obtain ⟨c, rfl, hsize, hused⟩ := alloc_used ha
    rw [usedBlocks_append, usedBlocks_cons_free [] hd, usedBlocks_nil, List.append_nil] at hused
    exact ⟨c, hpa, by omega, hused⟩
  | failed hp' => exact absurd hp' hp
  | wasted hp' => exact absurd hp' hp

/-- One that fails leaves the blocks in use as they are. -/
theorem Outcome.used_failed {n : Nat} {h' : Heap} {bs' : List Block}
    (hout : Outcome n h h' bs bs' 0) : usedBlocks bs' = usedBlocks bs := by
  cases hout with
  | served a _ hp => omega
  | grown _ a _ _ _ hp => omega
  | failed _ hbs => rw [hbs]
  | wasted _ hext =>
    rcases hext with rfl | ⟨c, hc, rfl⟩
    · rfl
    · rw [usedBlocks_append, usedBlocks_cons_free [] hc, usedBlocks_nil, List.append_nil]

/-- A release takes one block out of use. -/
theorem Sound.release_used (hs : Sound h (pre ++ b :: post)) (hb : b.free = false) :
    (usedBlocks (pre ++ b :: post)).Perm (b :: usedBlocks (release b.addr (pre ++ b :: post))) := by
  obtain ⟨g, hg, -⟩ := hs.view
  rw [usedBlocks_release (fun _ => hg.rep.before_ne) rfl, usedBlocks_append,
    usedBlocks_cons_used post hb]
  exact List.perm_middle

/-- **`kmalloc` on a heap in such a state** returns, with one of these outcomes, and writes headers
of the list it leaves only. -/
theorem Sound.kmalloc {σ : Type} (env : PageEnv σ) (s : σ) {n : Nat} (hs : Sound h bs)
    (h1 : 1 ≤ n) (h2 : n ≤ 0xFFFFFFE8)
    (hsmall : (env.pmmAllocPage s).1 ≠ 0 → h.heapSize + pageSize < 2 ^ 32) :
    ∃ p s' h' bs', Heap.kmalloc env s h n = some (p, s', h') ∧ Sound h' bs' ∧
      (∀ x, h.heapStart ≤ x → Clear bs' x → h'.mem x = h.mem x) ∧ Outcome n h h' bs bs' p := by
  cases hs with
  | below inv start pages high =>
    have hroom : h.heapStart + h.heapSize + pageSize ≤ 2 ^ 32 := by
      simp only [pageSize]
      omega
    obtain ⟨p, s', h', bs', hk, hinv, hst, hout, hmem⟩ :=
      kmalloc_refines env s inv h1 h2 fun _ _ => hroom
    have hsound : 4096 ∣ h'.heapSize → h'.heapSize ≤ h.heapSize + pageSize → Sound h' bs' := by
      intro hp hle
      by_cases hfull : h'.heapStart + h'.heapSize = 2 ^ 32
      · exact .capped (hinv.capped (hst.trans start) hfull)
      · exact .below hinv (hst.trans start) hp (by omega)
    refine ⟨p, s', h', bs', hk, ?_, fun x _ => hmem x, ?_⟩
    · cases hout with
      | served _ _ _ _ hsize => exact hsound (hsize ▸ pages) (by omega)
      | noPage _ _ _ _ hh => exact hsound (hh ▸ pages) (by rw [hh]; omega)
      | grown _ _ _ hsize =>
        refine hsound ?_ (by omega)
        rw [hsize]
        exact (Nat.dvd_add_iff_left (by decide)).mp pages
    · cases hout with
      | served a ha hp _ hsize => exact .served a ha hp hsize
      | noPage _ _ hp _ hh hbs => exact .failed hp hbs (by rw [hh])
      | grown ha _ _ hsize hretry =>
        have hne : h'.heapSize ≠ h.heapSize := by
          rw [hsize]
          simp only [pageSize]
          omega
        rcases hretry with ⟨a, ha', hp⟩ | ⟨-, hp, hbs⟩
        · exact .grown (pageBlock h) a ha rfl ha' hp high hne
        · exact .wasted hp (Or.inr ⟨pageBlock h, rfl, hbs⟩) hne
  | capped past =>
    obtain ⟨p, s', h', hk, ⟨a, bs', ha, hp, hc, hsize, hmem⟩ | ⟨-, hp, hc, hmem⟩⟩ :=
      past.kmalloc env s h1 h2 hsmall
    · exact ⟨p, s', h', bs', hk, .capped hc, fun x _ => hmem x, .served a ha hp hsize⟩
    · refine ⟨p, s', h', bs, hk, .capped hc, fun x hx _ => hmem x hx, ?_⟩
      by_cases hsize : h'.heapSize = h.heapSize
      · exact .failed hp rfl hsize
      · exact .wasted hp (Or.inl rfl) hsize

theorem Sound.range (hs : Sound h bs) (hb : b ∈ bs) :
    0xC0000000 ≤ b.addr ∧ b.addr + b.size ≤ 2 ^ 32 := by
  obtain ⟨g, hinv, -, hgs, -⟩ := hs.view
  have hrange := hinv.rep.mem_range hb
  have hhigh := hinv.rep.high
  omega

/-- **`kfree` of a block in use** releases it, or does nothing when the heap has outgrown the
address space. -/
theorem Sound.kfree (hs : Sound h (pre ++ b :: post)) (hb : b.free = false) :
    (h.heapStart + h.heapSize < 2 ^ 32 ∧
      Sound (Heap.kfree h (b.addr + 16)) (release b.addr (pre ++ b :: post)) ∧
      ∀ x, Clear (pre ++ b :: post) x → (Heap.kfree h (b.addr + 16)).mem x = h.mem x) ∨
    (2 ^ 32 ≤ h.heapStart + h.heapSize ∧ Heap.kfree h (b.addr + 16) = h) := by
  have hrange := hs.range (b := b) (by simp)
  obtain ⟨g, hinv, -⟩ := hs.view
  have hsize := (hinv.rep.sizes b (by simp)).1
  cases hs with
  | below inv start pages high =>
    obtain ⟨hinv, hst, hsz, hmem⟩ := kfree_refines inv hb high
    exact Or.inl ⟨high, .below hinv (hst.trans start) (hsz ▸ pages) (by rw [hst, hsz]; exact high),
      hmem⟩
  | capped past =>
    have hstart := past.start
    exact Or.inr ⟨past.wraps, past.kfree (by omega) (by omega)⟩

end FlowOS.Heap
