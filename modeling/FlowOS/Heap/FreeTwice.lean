/-
# Freeing a pointer again

`kfree` looks at the `is_free` word below the pointer it is given.  For a pointer that has been
freed before, that word need not belong to a block of the list any more: the block may have been
absorbed by a neighbour, and its header is then some bytes in the middle of a free block.  As long
as nothing is allocated, those bytes stay what they were: every write of a `kfree` goes to a header
of the list, and none but the block being freed gets its `is_free` word written.
-/
import FlowOS.Heap.Outgrown

namespace FlowOS.Heap

open Word Tiling Linked

variable {h : Heap} {bs pre post : List Block} {b c : Block}

/-! ## 1. `is_free` words during a `kfree` -/

/-- A header at `y` would be one of the list's or lie apart from all of them. -/
def Misses (bs : List Block) (y : Nat) : Prop :=
  ∀ b ∈ bs, y = b.addr ∨ y + 16 ≤ b.addr ∨ b.addr + 16 ≤ y

theorem Rep.misses (hr : Rep h bs) (hb : b ∈ bs) : Misses bs b.addr := by
  intro c hc
  by_cases he : b.addr = c.addr
  · exact Or.inl he
  · exact Or.inr (hr.apart hb hc he)

/-- A merge writes no `is_free` word. -/
theorem mergeInto_isFree {y size : Nat} (hb : y = b.addr ∨ y + 16 ≤ b.addr ∨ b.addr + 16 ≤ y)
    (hpost : Misses post y) :
    get (mergeInto h b.addr size (firstAddr post)).mem .isFree y = get h.mem .isFree y := by
  have hput : ∀ (m : Mem) (g : Field) (v : Nat), g ≠ .isFree →
      get (put m g b.addr v) .isFree y = get m .isFree y := by
    intro m g v hg
    rcases hb with rfl | hb
    · exact get_put_field v hg.symm
    · exact get_put_apart v hb
  show get (mergeMem _ _ _ _) .isFree y = _
  unfold mergeMem
  rw [get_putPrev_far, hput _ _ _ (by decide), hput _ _ _ (by decide)]
  intro hne
  obtain ⟨d, ds, rfl⟩ := exists_of_firstAddr hne
  rcases hpost d List.mem_cons_self with he | hlo | hhi
  · exact Or.inr (Or.inr ⟨he, by decide⟩)
  · exact Or.inl hlo
  · exact Or.inr (Or.inl hhi)

theorem mergeFreeBlocks_isFree (hr : Rep h (pre ++ b :: post)) {y : Nat}
    (hy : Misses (pre ++ b :: post) y) :
    get (mergeFreeBlocks h b.addr).mem .isFree y = get h.mem .isFree y :=
  mergeFreeBlocks_keeps (f := fun h => get h.mem .isFree y)
    (Q := fun a => y = a ∨ y + 16 ≤ a ∨ a + 16 ≤ y) (fun _ _ _ _ => mergeInto_isFree) hr hy

theorem kfree_isFree (hi : Inv h (pre ++ b :: post)) (hb : b.free = false)
    (hhigh : h.heapStart + h.heapSize < 2 ^ 32) {y : Nat} (hy : Misses (pre ++ b :: post) y) :
    get (kfree h (b.addr + 16)).mem .isFree y
      = if y = b.addr then 1 else get h.mem .isFree y := by
  have hmiss : Misses (pre ++ ⟨b.addr, b.size, true⟩ :: post) y := by
    intro d hd
    rcases List.mem_append.mp hd with hd | hd
    · exact hy d (by simp [hd])
    · rcases List.mem_cons.mp hd with rfl | hd
      · exact hy b (by simp)
      · exact hy d (by simp [hd])
  rw [kfree_eq hi hb hhigh]
  refine (mergeFreeBlocks_isFree (b := ⟨b.addr, b.size, true⟩) (markFree_rep hi.rep) hmiss).trans ?_
  split
  · rename_i he
    rw [he]
    exact get_put_same (by decide)
  · rename_i hne
    exact get_put_apart _ ((hy b (by simp)).resolve_left hne)

/-! ## 2. Where a freed block is -/

/-- `c` is free and takes in `b`, whose header is its own or lies apart from it. -/
structure Covers (c b : Block) : Prop where
  free : c.free = true
  low : c.addr ≤ b.addr
  high : b.addr + b.size ≤ c.addr + c.size
  apart : b.addr = c.addr ∨ c.addr + 16 ≤ b.addr

theorem Covers.self (hb : b.free = true) : Covers b b := ⟨hb, by omega, by omega, Or.inl rfl⟩

/-- The forward merge. -/
theorem joinNext_covers (hr : Rep h (pre ++ b :: post)) :
    ∃ c cs, joinNext ⟨b.addr, b.size, true⟩ post = c :: cs ∧ c.addr = b.addr ∧ Covers c b ∧
      ∀ x ∈ post, x.free = true → x ∈ cs ∨ Covers c x := by
  cases post with
  | nil => exact ⟨_, [], rfl, rfl, ⟨rfl, by simp, by simp, Or.inl rfl⟩, by simp⟩
  | cons d ds =>
    have hd : d.addr = b.addr + b.size := (tiles_middle.mp hr.tiles).2.1
    have hb24 := (hr.sizes b (by simp)).1
    rw [joinNext]
    split
    · refine ⟨_, ds, rfl, rfl, ⟨rfl, by simp, by dsimp only; omega, Or.inl rfl⟩, ?_⟩
      intro x hx hfree
      rcases List.mem_cons.mp hx with rfl | hx
      · exact Or.inr ⟨rfl, by dsimp only; omega, by dsimp only; omega,
          Or.inr (by dsimp only; omega)⟩
      · exact Or.inl hx
    · exact ⟨_, d :: ds, rfl, rfl, ⟨rfl, by simp, by simp, Or.inl rfl⟩, fun x hx _ => Or.inl hx⟩

/-- **After a release every free block, and the one released, lies in a free block.** -/
theorem release_covers (hr : Rep h (pre ++ b :: post)) {x : Block} (hx : x ∈ pre ++ b :: post)
    (hfree : x.free = true ∨ x = b) : ∃ c ∈ release b.addr (pre ++ b :: post), Covers c x := by
  have hne : ∀ x ∈ pre, x.addr ≠ b.addr := fun _ => hr.before_ne
  obtain ⟨c, cs, hj, hca, hcb, hcpost⟩ := joinNext_covers hr
  -- the block released and those after it
  have hrest : x ∈ b :: post → x ∈ cs ∧ x.free = true ∨ Covers c x := by
    intro hx
    rcases List.mem_cons.mp hx with rfl | hx
    · exact Or.inr hcb
    · rcases hfree with hfree | rfl
      · exact (hcpost x hx hfree).imp_left fun hmem => ⟨hmem, hfree⟩
      · exact Or.inr hcb
  by_cases hlast : ∀ p, pre.getLast? = some p → p.free = false
  · have hfirst : firstAddr (b :: post) = b.addr := rfl
    rw [release_append hne hfirst hlast, release_head rfl, hj]
    rcases List.mem_append.mp hx with hx | hx
    · have hxf : x.free = true := hfree.resolve_right fun he => hne x hx (by rw [he])
      exact ⟨x, by simp [hx], .self hxf⟩
    · rcases hrest hx with ⟨hmem, hxf⟩ | hcov
      · exact ⟨x, by simp [hmem], .self hxf⟩
      · exact ⟨c, by simp, hcov⟩
  · push Not at hlast
    obtain ⟨p, hp, hpf⟩ := hlast
    have hpf : p.free = true := by simpa using hpf
    obtain ⟨ps, rfl⟩ := List.getLast?_eq_some_iff.mp hp
    rw [List.append_assoc, List.singleton_append] at hr hx ⊢
    have hbp : b.addr = p.addr + p.size := (tiles_middle.mp hr.tiles).2.1
    have hp24 := (hr.sizes p (by simp)).1
    rw [release_append_free (fun x hx => hne x (by simp [hx])) (hne p (by simp)) hpf rfl hj]
    rcases List.mem_append.mp hx with hx | hx
    · have hxf : x.free = true := hfree.resolve_right fun he => hne x (by simp [hx]) (by rw [he])
      exact ⟨x, by simp [hx], .self hxf⟩
    · rcases List.mem_cons.mp hx with rfl | hx
      · exact ⟨⟨x.addr, x.size + c.size, x.free⟩, by simp, hpf, by simp, by dsimp only; omega,
          Or.inl rfl⟩
      · rcases hrest hx with ⟨hmem, hxf⟩ | hcov
        · exact ⟨x, by simp [hmem], .self hxf⟩
        · have hlow := hcov.low
          have hhigh := hcov.high
          exact ⟨⟨p.addr, p.size + c.size, p.free⟩, by simp, hpf, by dsimp only; omega,
            by dsimp only; omega, Or.inr (by dsimp only; omega)⟩

/-! ## 3. Freed pointers -/

/-- The header at `a` says free, and lies in a free block of the list, as its header or apart from
it. -/
def Dead (h : Heap) (bs : List Block) (a : Nat) : Prop :=
  get h.mem .isFree a ≠ 0 ∧ ∃ b size, b ∈ bs ∧ Covers b ⟨a, size, true⟩ ∧ 16 ≤ size

theorem Dead.misses (hr : Rep h bs) {a : Nat} (hd : Dead h bs a) : Misses bs a := by
  obtain ⟨-, b, size, hb, ⟨-, hlow, hhigh, hapart⟩, hsize⟩ := hd
  dsimp only at hlow hhigh hapart
  obtain ⟨pre, post, rfl⟩ := List.append_of_mem hb
  intro c hc
  have hc24 := (hr.sizes c hc).1
  rcases List.mem_append.mp hc with hc' | hc'
  · have := hr.before hc'
    omega
  · rcases List.mem_cons.mp hc' with rfl | hc'
    · omega
    · have := hr.after hc'
      omega

/-- **Freeing it again does nothing.** -/
theorem Dead.kfree (hi : Inv h bs) (hhigh : h.heapStart + h.heapSize < 2 ^ 32) {a : Nat}
    (hd : Dead h bs a) : Heap.kfree h (a + 16) = h := by
  obtain ⟨hflag, b, size, hb, ⟨-, hlow, hhi, -⟩, hsize⟩ := hd
  dsimp only at hlow hhi
  have hrange := hi.rep.mem_range hb
  have hsub : sub32 (a + 16) blockHeaderSize = a := by
    rw [sub32_of_le (by simp only [blockHeaderSize]; omega) (by omega)]
    simp only [blockHeaderSize]
    omega
  unfold Heap.kfree
  rw [if_neg (by omega)]
  dsimp only
  rw [hsub, if_neg ?_, if_pos hflag]
  rw [add32_of_lt hhigh]
  omega

/-- A pointer to a block in use, or a freed one. -/
def Given (h : Heap) (bs : List Block) (ptr : Nat) : Prop :=
  (∃ b ∈ bs, b.free = false ∧ ptr = b.addr + 16) ∨ ∃ a, ptr = a + 16 ∧ Dead h bs a

/-- **Freeing such a pointer** leaves it dead, and the dead ones dead. -/
theorem Given.kfree (hi : Inv h bs) (hhigh : h.heapStart + h.heapSize < 2 ^ 32) {ptr : Nat}
    (hg : Given h bs ptr) : ∃ bs', Inv (Heap.kfree h ptr) bs' ∧
      SamePlace h (Heap.kfree h ptr) ∧
      (∃ a, ptr = a + 16 ∧ Dead (Heap.kfree h ptr) bs' a) ∧
      (∀ a, Dead h bs a → Dead (Heap.kfree h ptr) bs' a) ∧
      ∀ q, Given h bs q → Given (Heap.kfree h ptr) bs' q := by
  have hplace := kfree_place h ptr
  rcases hg with ⟨b, hb, hfree, rfl⟩ | ⟨a, rfl, hd⟩
  · obtain ⟨pre, post, rfl⟩ := List.append_of_mem hb
    have hr := hi.rep
    obtain ⟨hinv, -, -, -⟩ := kfree_refines hi hfree hhigh
    have hb24 := (hr.sizes b hb).1
    have hdead : ∀ a, Dead h (pre ++ b :: post) a →
        Dead (Heap.kfree h (b.addr + 16)) (release b.addr (pre ++ b :: post)) a := by
      intro a hd
      obtain ⟨hflag, c, size, hc, hcov, hsize⟩ := hd
      refine ⟨?_, ?_⟩
      · rw [kfree_isFree hi hfree hhigh (Dead.misses hr ⟨hflag, c, size, hc, hcov, hsize⟩)]
        split
        · decide
        · exact hflag
      · obtain ⟨d, hd, hdcov⟩ := release_covers hr hc (Or.inl hcov.free)
        have h1 := hcov.low
        have h2 := hcov.high
        have h3 := hdcov.low
        have h4 := hdcov.high
        have h5 := hdcov.apart
        have h6 := hcov.apart
        dsimp only at h1 h2 h6
        exact ⟨d, size, hd, ⟨hdcov.free, by dsimp only; omega, by dsimp only; omega,
          by dsimp only; omega⟩, hsize⟩
    have hself : Dead (Heap.kfree h (b.addr + 16)) (release b.addr (pre ++ b :: post)) b.addr := by
      refine ⟨?_, ?_⟩
      · rw [kfree_isFree hi hfree hhigh (hr.misses hb), if_pos rfl]
        decide
      · obtain ⟨d, hd, hdcov⟩ := release_covers hr hb (Or.inr rfl)
        exact ⟨d, b.size, hd, ⟨hdcov.free, hdcov.low, hdcov.high, hdcov.apart⟩, by omega⟩
    refine ⟨_, hinv, hplace, ⟨b.addr, rfl, hself⟩, hdead, ?_⟩
    rintro q (⟨c, hc, hcf, rfl⟩ | ⟨a, rfl, hd⟩)
    · by_cases he : c = b
      · rw [he]
        exact Or.inr ⟨b.addr, rfl, hself⟩
      · refine Or.inl ⟨c, ?_, hcf, rfl⟩
        have hused : c ∈ usedBlocks (release b.addr (pre ++ b :: post)) := by
          rw [usedBlocks_release (fun _ => hr.before_ne) rfl, ← usedBlocks_append]
          refine List.mem_filter.mpr ⟨?_, by simp [hcf]⟩
          simpa [he] using hc
        exact List.mem_of_mem_filter hused
    · exact Or.inr ⟨a, rfl, hdead a hd⟩
  · rw [hd.kfree hi hhigh]
    exact ⟨bs, hi, ⟨rfl, rfl, rfl⟩, ⟨a, rfl, hd⟩, fun _ h => h, fun _ h => h⟩

/-- **A second free is a no-op** after any sequence of frees of given pointers. -/
theorem kfree_again (hi : Inv h bs) (hhigh : h.heapStart + h.heapSize < 2 ^ 32) {ptr : Nat}
    (hg : Given h bs ptr) (qs : List Nat) (hqs : ∀ q ∈ qs, Given h bs q) :
    kfree (qs.foldl kfree (kfree h ptr)) ptr = qs.foldl kfree (kfree h ptr) := by
  obtain ⟨bs₁, hi₁, hplace, ⟨a, rfl, hd⟩, -, hkeep⟩ := hg.kfree hi hhigh
  have hhigh₁ : (kfree h (a + 16)).heapStart + (kfree h (a + 16)).heapSize < 2 ^ 32 := by
    rw [hplace.start, hplace.size]
    exact hhigh
  have hqs₁ : ∀ q ∈ qs, Given (kfree h (a + 16)) bs₁ q := fun q hq => hkeep q (hqs q hq)
  generalize kfree h (a + 16) = h₁ at hi₁ hd hhigh₁ hqs₁
  clear hplace hkeep hqs hg hi
  -- the header stays dead through the rest of the frees
  induction qs generalizing h₁ bs₁ with
  | nil => exact hd.kfree hi₁ hhigh₁
  | cons q qs ih =>
    obtain ⟨bs₂, hi₂, hplace, -, hdead, hkeep⟩ := (hqs₁ q List.mem_cons_self).kfree hi₁ hhigh₁
    refine ih _ _ hi₂ (hdead a hd) ?_ fun r hr => hkeep r (hqs₁ r (List.mem_cons_of_mem _ hr))
    rw [hplace.start, hplace.size]
    exact hhigh₁

end FlowOS.Heap
