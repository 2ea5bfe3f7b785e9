/-
# Free neighbours are merged

`kfree` merges the block it frees with the block after it and the block before it, once each.
That this is enough is an invariant: no two neighbours of the list are both free.  An allocation
keeps it because the block it carves had neighbours in use, an added page keeps it when the
request that caused it is served from that page, and a release keeps it because each neighbour it
merges has a neighbour in use on the other side.  A list with the invariant and nothing in use is
one block.
-/
import FlowOS.Heap.Outgrown
import FlowOS.Heap.Run
import Mathlib.Data.List.Chain
import Mathlib.Tactic.Tauto

namespace FlowOS.Heap

open Word Tiling Linked

/-! ## 1. Lists without free neighbours -/

/-- No two neighbours are both free. -/
def Coalesced (bs : List Block) : Prop :=
  bs.IsChain fun x y => x.free = false ∨ y.free = false

/-- The first block, if there is one, is in use. -/
def HeadUsed (bs : List Block) : Prop := ∀ x ∈ bs.head?, x.free = false

/-- The last block, if there is one, is in use. -/
def LastUsed (bs : List Block) : Prop := ∀ x ∈ bs.getLast?, x.free = false

variable {h : Heap} {bs bs' pre post : List Block} {b c : Block} {size a : Nat}

theorem coalesced_cons : Coalesced (b :: post) ↔
    Coalesced post ∧ (b.free = true → HeadUsed post) := by
  unfold Coalesced HeadUsed
  rw [List.isChain_cons, and_comm]
  refine and_congr_right fun _ => ?_
  cases hb : b.free <;> simp

/-- The condition around one block of the list. -/
theorem coalesced_middle : Coalesced (pre ++ b :: post) ↔ Coalesced pre ∧ Coalesced post ∧
    (b.free = true → LastUsed pre ∧ HeadUsed post) := by
  have hcons := @coalesced_cons post b
  unfold Coalesced HeadUsed at hcons
  unfold Coalesced HeadUsed LastUsed
  rw [List.isChain_append, hcons]
  cases hb : b.free <;> simp [hb]
  tauto

/-- **Carving a block** leaves the free part next to the part in use. -/
theorem Coalesced.carve (hc : Coalesced (pre ++ b :: post)) (hb : b.free = true) :
    Coalesced (pre ++ (Heap.carve size b ++ post)) := by
  obtain ⟨hpre, hpost, hends⟩ := coalesced_middle.mp hc
  obtain ⟨-, hhead⟩ := hends hb
  unfold Heap.carve
  split
  · refine coalesced_middle.mpr ⟨hpre, coalesced_cons.mpr ⟨hpost, fun _ => hhead⟩, ?_⟩
    simp
  · refine coalesced_middle.mpr ⟨hpre, hpost, ?_⟩
    simp

theorem Coalesced.alloc (hc : Coalesced bs) (ha : Heap.alloc size bs = some (a, bs')) :
    Coalesced bs' := by
  obtain ⟨pre, b, post, rfl, hfit, -, -, rfl⟩ := alloc_cases ha
  simp only [Heap.fits, Bool.and_eq_true] at hfit
  exact hc.carve hfit.1

/-- **A page that serves the request it was added for.** -/
theorem Coalesced.grow (hc : Coalesced bs) (hnone : Heap.alloc size bs = none)
    (ha : Heap.alloc size (bs ++ [c]) = some (a, bs')) : Coalesced bs' := by
  obtain ⟨pre, b, post, hbs, hfit, -, -, rfl⟩ := alloc_cases ha
  have hmem : b ∉ bs := fun hb => by
    rw [alloc_eq_none.mp hnone b hb] at hfit
    cases hfit
  -- the block that fits is the page
  obtain ⟨rfl, rfl, rfl⟩ : pre = bs ∧ b = c ∧ post = [] := by
    rcases List.append_eq_append_iff.mp hbs with ⟨as, rfl, has⟩ | ⟨as, rfl, has⟩
    · cases as with
      | nil =>
        obtain ⟨rfl, rfl⟩ : c = b ∧ [] = post := by simpa using has
        simp
      | cons x as =>
        simp at has
    · cases as with
      | nil =>
        obtain ⟨rfl, rfl⟩ : b = c ∧ post = [] := by simpa using has
        simp
      | cons x as =>
        obtain ⟨rfl, -⟩ : b = x ∧ post = as ++ [c] := by simpa using has
        exact absurd (by simp) hmem
  rw [List.append_nil]
  unfold Heap.carve
  split
  · exact coalesced_middle.mpr ⟨hc, by simp [Coalesced], by simp⟩
  · exact coalesced_middle.mpr ⟨hc, by simp [Coalesced], by simp⟩

/-- A freed block joined with its successor has a successor in use. -/
theorem Coalesced.joinNext (hc : Coalesced post) (hb : b.free = true) :
    ∃ d ds, Heap.joinNext b post = d :: ds ∧ d.free = true ∧ Coalesced ds ∧ HeadUsed ds := by
  cases post with
  | nil => exact ⟨b, [], rfl, hb, hc, by simp [HeadUsed]⟩
  | cons c cs =>
    obtain ⟨hcs, hhead⟩ := coalesced_cons.mp hc
    rw [Heap.joinNext]
    split
    · rename_i hfree
      exact ⟨_, cs, rfl, hb, hcs, hhead hfree⟩
    · rename_i hused
      refine ⟨b, c :: cs, rfl, hb, hc, ?_⟩
      simpa [HeadUsed] using hused

/-- **A release** merges with both neighbours. -/
theorem Coalesced.release (hc : Coalesced (pre ++ b :: post))
    (hpre : ∀ x ∈ pre, x.addr ≠ b.addr) : Coalesced (Heap.release b.addr (pre ++ b :: post)) := by
  obtain ⟨hcpre, hcpost, -⟩ := coalesced_middle.mp hc
  obtain ⟨d, ds, hj, -, hds, hhead⟩ := hcpost.joinNext (b := ⟨b.addr, b.size, true⟩) rfl
  by_cases hlast : LastUsed pre
  · rw [release_append hpre rfl hlast, release_head rfl, hj]
    exact coalesced_middle.mpr ⟨hcpre, hds, fun _ => ⟨hlast, hhead⟩⟩
  · unfold LastUsed at hlast
    push Not at hlast
    obtain ⟨p, hp, hfree⟩ := hlast
    have hpf : p.free = true := by simpa using hfree
    obtain ⟨ps, rfl⟩ := List.getLast?_eq_some_iff.mp hp
    -- the free block before it has a block in use before it
    obtain ⟨hps, -, hends⟩ := coalesced_middle.mp hcpre
    rw [List.append_assoc, List.singleton_append,
      release_append_free (fun x hx => hpre x (by simp [hx])) (hpre p (by simp)) hpf rfl hj]
    exact coalesced_middle.mpr ⟨hps, hds, fun _ => ⟨(hends hpf).1, hhead⟩⟩

/-- **With nothing in use one block is left.** -/
theorem Coalesced.single (hc : Coalesced bs) (hi : Inv h bs) (hused : usedBlocks bs = []) :
    bs = [⟨h.heapStart, h.heapSize, true⟩] := by
  have hfree : ∀ x ∈ bs, x.free = true := by
    intro x hx
    by_contra hcon
    have hmem : x ∈ usedBlocks bs := mem_usedBlocks.mpr ⟨hx, by simpa using hcon⟩
    rw [hused] at hmem
    cases hmem
  obtain ⟨c, cs, rfl⟩ := List.exists_cons_of_ne_nil hi.nonempty
  cases cs with
  | nil =>
    obtain ⟨haddr, hend⟩ := hi.rep.tiles
    have hend' : h.heapStart + c.size = h.heapStart + h.heapSize := hend
    have hcf := hfree c (by simp)
    cases c
    simp_all
  | cons d ds =>
    obtain ⟨-, hhead⟩ := coalesced_cons.mp hc
    have hd := hhead (hfree c (by simp)) d (by simp)
    rw [hfree d (by simp)] at hd
    cases hd

/-! ## 2. Freeing everything -/

/-- One free block is left, of the size of the heap `h₀`, and nothing is counted as in use. -/
def Merged (h₀ h : Heap) : Prop :=
  Inv h [⟨h₀.heapStart, h₀.heapSize, true⟩] ∧ h.heapUsed = 16

/-- `kfree` of each of these allocations. -/
def freeAll (h : Heap) (es : List (Nat × Nat)) : Heap := es.foldl (fun h e => kfree h e.1) h

/-- **Freeing all allocations**, in the order given, below the end of the address space. -/
theorem freeAll_inv : ∀ {es live : List (Nat × Nat)} {h : Heap} {bs : List Block}, es.Perm live →
    Inv h bs → Owned bs live → Coalesced bs → h.heapStart + h.heapSize < 2 ^ 32 →
    ∃ bs', Inv (freeAll h es) bs' ∧ usedBlocks bs' = [] ∧ Coalesced bs' ∧
      (freeAll h es).heapStart = h.heapStart ∧ (freeAll h es).heapSize = h.heapSize
  | [], live, h, bs, hp, hi, ho, hc, _ => by
    obtain rfl : live = [] := hp.symm.eq_nil
    refine ⟨bs, hi, ?_, hc, rfl, rfl⟩
    simpa using ho.perm
  | e :: es, live, h, bs, hp, hi, ho, hc, hhigh => by
    have he : e ∈ live := hp.subset List.mem_cons_self
    obtain ⟨b, hb, hptr, -⟩ := ho.fits e he
    obtain ⟨hmem, hfree⟩ := mem_usedBlocks.mp hb
    obtain ⟨pre, post, rfl⟩ := List.append_of_mem hmem
    obtain ⟨hinv, hst, hsz, -⟩ := kfree_refines hi hfree hhigh
    have hrest : es.Perm (live.erase e) := List.cons_perm_iff_perm_erase.mp hp |>.2
    obtain ⟨bs', hinv', hused, hc', hst', hsz'⟩ :=
      freeAll_inv hrest hinv (ho.take hi.rep hfree he hptr) (hc.release fun _ => hi.rep.before_ne)
        (by rw [hst, hsz]; exact hhigh)
    rw [freeAll, List.foldl_cons, hptr]
    exact ⟨bs', hinv', hused, hc', hst'.trans hst, hsz'.trans hsz⟩

/-- **Every order gives the same result**: one free block. -/
theorem freeAll_merged {es live : List (Nat × Nat)} (hp : es.Perm live) (hi : Inv h bs)
    (ho : Owned bs live) (hc : Coalesced bs) (hhigh : h.heapStart + h.heapSize < 2 ^ 32) :
    Merged h (freeAll h es) := by
  obtain ⟨bs', hinv, hused, hc', hst, hsz⟩ := freeAll_inv hp hi ho hc hhigh
  have hbs := hc'.single hinv hused
  rw [hst, hsz] at hbs
  subst hbs
  exact ⟨hinv, hinv.used⟩

end FlowOS.Heap
