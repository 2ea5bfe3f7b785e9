/-
# What a heap state represents: a list of blocks

`Rep h bs` says that the headers in the heap's memory spell out the list of blocks `bs`: the
`next` and `prev` fields link exactly these blocks in order, the `size` and `is_free` fields
hold their data, and the blocks tile the heap.  This is the invariant the allocator maintains
piecemeal; the lemmas of this module say what each of the four places that edit the list
(`split_block`, the two halves of `merge_free_blocks`, the expansion of `kmalloc`) does to the
list it represents.
-/
import FlowOS.Heap.Basic
import FlowOS.Lib.Tiling
import FlowOS.Lib.Linked

namespace FlowOS.Heap

open Word Tiling Linked

/-! ## 1. Reading a header back after a write -/

theorem get_lt (m : Mem) (f : Field) (a : Nat) : get m f a < 2 ^ 32 := Mem.ld32_lt _ _

/-- The field written holds the value written. -/
theorem get_put_same {m : Mem} {f : Field} {b v : Nat} (hv : v < 2 ^ 32) :
    get (put m f b v) f b = v := Mem.ld32_st32_same hv

/-- The other fields of the same header are unchanged. -/
theorem get_put_field {m : Mem} {f g : Field} {b : Nat} (v : Nat) (hfg : f ≠ g) :
    get (put m g b v) f b = get m f b := by
  refine Mem.ld32_st32_disjoint v ?_
  cases f <;> cases g <;> simp only [Field.offset] <;> first | omega | exact absurd rfl hfg

/-- The bytes outside the header written are unchanged. -/
theorem put_outside {m : Mem} {f : Field} {b x : Nat} (v : Nat) (h : x < b ∨ b + 16 ≤ x) :
    put m f b v x = m x := by
  refine Mem.st32_outside v ?_
  cases f <;> simp only [Field.offset] <;> omega

/-- Headers that do not overlap the one written are unchanged. -/
theorem get_put_apart {m : Mem} {f g : Field} {a b : Nat} (v : Nat)
    (h : a + 16 ≤ b ∨ b + 16 ≤ a) : get (put m g b v) f a = get m f a := by
  refine Mem.ld32_congr fun x h1 h2 => put_outside v ?_
  cases f <;> simp only [Field.offset] at h1 h2 <;> omega

section Statics

variable (h : Heap) (f : Field) (b v : Nat)

@[simp] theorem set_mem : (h.set f b v).mem = put h.mem f b v := rfl

@[simp] theorem set_heapStart : (h.set f b v).heapStart = h.heapStart := rfl

@[simp] theorem set_heapEnd : (h.set f b v).heapEnd = h.heapEnd := rfl

@[simp] theorem set_heapSize : (h.set f b v).heapSize = h.heapSize := rfl

@[simp] theorem set_heapUsed : (h.set f b v).heapUsed = h.heapUsed := rfl

@[simp] theorem set_heapVirtStart : (h.set f b v).heapVirtStart = h.heapVirtStart := rfl

end Statics

/-! ## 2. Representation -/

/-- A block of the list: where its header stands, its size with the header, whether it is
free. -/
structure Block where
  addr : Nat
  size : Nat
  free : Bool
  deriving DecidableEq, Repr

/-- What `is_free` holds. -/
def Block.flag (b : Block) : Nat := if b.free then 1 else 0

/-- **The representation invariant**: the memory of `h` spells out the block list `bs`. -/
structure Rep (h : Heap) (bs : List Block) : Prop where
  links : DSeg (get h.mem .next) (get h.mem .prev) 0 (bs.map Block.addr) 0
  fields : ∀ b ∈ bs, get h.mem .size b.addr = b.size ∧ get h.mem .isFree b.addr = b.flag
  tiles : Tiles Block.addr Block.size h.heapStart bs (h.heapStart + h.heapSize)
  sizes : ∀ b ∈ bs, 24 ≤ b.size ∧ 8 ∣ b.size
  last : h.heapEnd = (bs.map Block.addr).getLastD 0
  aligned : 8 ∣ h.heapStart
  low : 48 ≤ h.heapStart
  high : h.heapStart + h.heapSize ≤ 2 ^ 32
  virt : h.heapVirtStart = h.heapStart

variable {h : Heap} {bs pre post : List Block} {b c : Block}

/-- The list depends on nothing but the headers of its blocks and where the heap is. -/
theorem Rep.of_headers {h' : Heap} (hr : Rep h bs)
    (hget : ∀ f, ∀ x ∈ bs, get h'.mem f x.addr = get h.mem f x.addr)
    (hstart : h'.heapStart = h.heapStart) (hsize : h'.heapSize = h.heapSize)
    (hend : h'.heapEnd = h.heapEnd) (hvirt : h'.heapVirtStart = h.heapVirtStart) : Rep h' bs := by
  refine ⟨hr.links.congr fun y hy => ?_, fun x hx => ?_, ?_, hr.sizes, ?_, ?_, ?_, ?_, ?_⟩
  · obtain ⟨x, hx, rfl⟩ := List.mem_map.mp hy
    exact ⟨hget _ x hx, hget _ x hx⟩
  · rw [hget _ x hx, hget _ x hx]
    exact hr.fields x hx
  · rw [hstart, hsize]
    exact hr.tiles
  · rw [hend]
    exact hr.last
  · rw [hstart]
    exact hr.aligned
  · rw [hstart]
    exact hr.low
  · rw [hstart, hsize]
    exact hr.high
  · rw [hvirt, hstart]
    exact hr.virt

/-- Every block lies in the heap. -/
theorem Rep.mem_range (hr : Rep h bs) (hb : b ∈ bs) :
    h.heapStart ≤ b.addr ∧ b.addr + b.size ≤ h.heapStart + h.heapSize :=
  hr.tiles.mem_range hb

theorem Rep.addr_ne_zero (hr : Rep h bs) (hb : b ∈ bs) : b.addr ≠ 0 := by
  have := (hr.mem_range hb).1
  have := hr.low
  omega

/-- A block before `b` ends, header and all, before `b` begins. -/
theorem Rep.before (hr : Rep h (pre ++ b :: post)) {x : Block} (hx : x ∈ pre) :
    x.addr + x.size ≤ b.addr := ((tiles_middle.mp hr.tiles).1.mem_range hx).2

theorem Rep.before_ne (hr : Rep h (pre ++ b :: post)) {x : Block} (hx : x ∈ pre) :
    x.addr ≠ b.addr := by
  have := hr.before hx
  have := (hr.sizes x (by simp [hx])).1
  omega

/-- A block after `b` begins where `b` has ended. -/
theorem Rep.after (hr : Rep h (pre ++ b :: post)) {x : Block} (hx : x ∈ post) :
    b.addr + b.size ≤ x.addr := ((tiles_middle.mp hr.tiles).2.mem_range hx).1

theorem Rep.prev_eq (hr : Rep h (pre ++ b :: post)) :
    get h.mem .prev b.addr = (pre.map Block.addr).getLastD 0 := by
  have hl := hr.links
  rw [List.map_append, dseg_append] at hl
  exact hl.2.1

theorem Rep.next_eq (hr : Rep h (pre ++ b :: post)) :
    get h.mem .next b.addr = (post.map Block.addr).headD 0 := by
  have hl := hr.links
  rw [List.map_append, dseg_append] at hl
  exact hl.2.2.1

/-- Two distinct blocks do not overlap. -/
theorem Rep.disjoint (hr : Rep h bs) {x y : Block} (hx : x ∈ bs) (hy : y ∈ bs) (hxy : x ≠ y) :
    x.addr + x.size ≤ y.addr ∨ y.addr + y.size ≤ x.addr := by
  obtain ⟨pre, post, rfl⟩ := List.append_of_mem hx
  rcases List.mem_append.mp hy with h1 | h1
  · exact Or.inr (hr.before h1)
  · rcases List.mem_cons.mp h1 with rfl | h1
    · exact absurd rfl hxy
    · exact Or.inl (hr.after h1)

/-- Nor do their headers. -/
theorem Rep.apart (hr : Rep h bs) {x y : Block} (hx : x ∈ bs) (hy : y ∈ bs)
    (hxy : x.addr ≠ y.addr) : x.addr + 16 ≤ y.addr ∨ y.addr + 16 ≤ x.addr := by
  have hsx := (hr.sizes x hx).1
  have hsy := (hr.sizes y hy).1
  have hdisjoint := hr.disjoint hx hy fun he => hxy (congrArg Block.addr he)
  omega

/-- `heap_end` is the block with nothing after it. -/
theorem Rep.heapEnd_iff (hr : Rep h (pre ++ b :: post)) : b.addr = h.heapEnd ↔ post = [] := by
  have hlast := hr.last
  simp only [List.map_append, getLastD_append, List.map_cons, List.getLastD_cons] at hlast
  cases post with
  | nil => simpa using hlast.symm
  | cons d post =>
    refine iff_of_false (fun he => ?_) (by simp)
    have hmem : h.heapEnd ∈ (d :: post).map Block.addr := by
      rw [hlast, List.map_cons, List.getLastD_cons]
      exact List.getLastD_mem_cons
    obtain ⟨x, hx, hxe⟩ := List.mem_map.mp hmem
    have := hr.after hx
    have := (hr.sizes b (by simp)).1
    omega

/-- The headers in memory leave no choice for the list of blocks. -/
theorem blocks_unique {m : Mem} {e : Nat} : ∀ {bs cs : List Block} {a : Nat},
    Tiles Block.addr Block.size a bs e → Tiles Block.addr Block.size a cs e →
    (∀ b ∈ bs, 24 ≤ b.size ∧ get m .size b.addr = b.size ∧ get m .isFree b.addr = b.flag) →
    (∀ c ∈ cs, 24 ≤ c.size ∧ get m .size c.addr = c.size ∧ get m .isFree c.addr = c.flag) → bs = cs
  | [], [], _, _, _, _, _ => rfl
  | [], c :: cs, a, hb, hc, _, hcf => by
    have hae : a = e := hb
    have hend := hc.2.le
    have hsize := (hcf c List.mem_cons_self).1
    omega
  | b :: bs, [], a, hb, hc, hbf, _ => by
    have hae : a = e := hc
    have hend := hb.2.le
    have hsize := (hbf b List.mem_cons_self).1
    omega
  | b :: bs, c :: cs, a, hb, hc, hbf, hcf => by
    obtain ⟨-, hbs, hbfree⟩ := hbf b List.mem_cons_self
    obtain ⟨-, hcs, hcfree⟩ := hcf c List.mem_cons_self
    have haddr : b.addr = c.addr := hb.1.trans hc.1.symm
    have hsize : b.size = c.size := by rw [← hbs, ← hcs, haddr]
    have hfree : b.free = c.free := by
      have hflag : b.flag = c.flag := by rw [← hbfree, ← hcfree, haddr]
      simp only [Block.flag] at hflag
      cases hbb : b.free <;> cases hcc : c.free <;> simp_all
    have hbc : b = c := by
      cases b
      cases c
      simp_all
    subst hbc
    rw [blocks_unique hb.2 hc.2 (fun x hx => hbf x (List.mem_cons_of_mem _ hx))
      fun x hx => hcf x (List.mem_cons_of_mem _ hx)]

theorem Rep.unique {cs : List Block} (hb : Rep h bs) (hc : Rep h cs) : bs = cs :=
  blocks_unique hb.tiles hc.tiles (fun x hx => ⟨(hb.sizes x hx).1, hb.fields x hx⟩)
    fun x hx => ⟨(hc.sizes x hx).1, hc.fields x hx⟩

/-- An address outside the headers of the blocks. -/
def Clear (bs : List Block) (x : Nat) : Prop := ∀ b ∈ bs, x < b.addr ∨ b.addr + 16 ≤ x

theorem Clear.mono {bs' : List Block} {x : Nat} (hx : Clear bs' x)
    (h : ∀ b ∈ bs, ∃ c ∈ bs', c.addr = b.addr) : Clear bs x := by
  intro b hb
  obtain ⟨c, hc, he⟩ := h b hb
  rw [← he]
  exact hx c hc

/-- Payloads are clear of all headers. -/
theorem Rep.clear_payload (hr : Rep h bs) (hb : b ∈ bs) {x : Nat} (h1 : b.addr + 16 ≤ x)
    (h2 : x < b.addr + b.size) : Clear bs x := by
  obtain ⟨pre, post, rfl⟩ := List.append_of_mem hb
  intro c hc
  have hsc := (hr.sizes c hc).1
  rcases List.mem_append.mp hc with hc' | hc'
  · have := hr.before hc'
    omega
  · rcases List.mem_cons.mp hc' with rfl | hc'
    · omega
    · have := hr.after hc'
      omega

/-! ## 3. Editing a stretch of the list

All edits replace a stretch of the list by another one that starts at the same address.  They
write headers inside the stretch, and outside it only the `prev` field of the block that
follows.  `Rep.edit` does the list surgery once for all of them. -/

/-- The address a list of blocks starts at, `NULL` when there is none: what the `next` field
of the block before it holds. -/
def firstAddr (bs : List Block) : Nat := (bs.map Block.addr).headD 0

/-- The address of the last block of a list, `NULL` when there is none: what the `prev` field
of the block after it holds. -/
def lastAddr (bs : List Block) : Nat := (bs.map Block.addr).getLastD 0

theorem firstAddr_cons (b : Block) (bs : List Block) : firstAddr (b :: bs) = b.addr := rfl

theorem Clear.first {x : Nat} (hx : Clear bs x) (h0 : firstAddr bs ≠ 0) :
    x < firstAddr bs ∨ firstAddr bs + 16 ≤ x := by
  cases bs with
  | nil => exact absurd rfl h0
  | cons d ds => exact hx d List.mem_cons_self

theorem exists_of_firstAddr (h0 : firstAddr bs ≠ 0) : ∃ d ds, bs = d :: ds := by
  cases bs with
  | nil => exact absurd rfl h0
  | cons d ds => exact ⟨d, ds, rfl⟩

/-- What an edit of the stretch `[lo, hi)` says about the memory around it, when `q` is the
block that follows. -/
structure Around (m m' : Mem) (lo hi q newLast : Nat) : Prop where
  far : ∀ f a, a + 16 ≤ lo ∨ hi ≤ a → (q ≠ 0 → a + 16 ≤ q ∨ q + 16 ≤ a ∨ (a = q ∧ f ≠ .prev)) →
    get m' f a = get m f a
  back : q ≠ 0 → get m' .prev q = newLast

/-- What an edit says about the stretch it put in, between the blocks `p` and `q`. -/
structure Inside (m' : Mem) (p : Nat) (mid' : List Block) (q : Nat) : Prop where
  links : DSeg (get m' .next) (get m' .prev) p (mid'.map Block.addr) q
  fields : ∀ b ∈ mid', get m' .size b.addr = b.size ∧ get m' .isFree b.addr = b.flag
  sizes : ∀ b ∈ mid', 24 ≤ b.size ∧ 8 ∣ b.size

theorem getLastD_ne_nil {l : List Nat} (hl : l ≠ []) (p q : Nat) :
    l.getLastD p = l.getLastD q := by
  cases l with
  | nil => exact absurd rfl hl
  | cons a l => simp only [List.getLastD_cons]

section Edit

variable {h' : Heap} {mid mid' : List Block} {hi : Nat}

/-- Headers before the stretch are unchanged. -/
theorem Around.before (hout : Around h.mem h'.mem b.addr hi (firstAddr post) (lastAddr mid'))
    (hr : Rep h (pre ++ b :: (mid ++ post))) {x : Block} (hx : x ∈ pre) (f : Field) :
    get h'.mem f x.addr = get h.mem f x.addr := by
  have hlt := hr.before hx
  have hsx := (hr.sizes x (List.mem_append_left _ hx)).1
  have hsb := (hr.sizes b (by simp)).1
  refine hout.far f _ (by omega) fun hne => ?_
  obtain ⟨d, ds, rfl⟩ := exists_of_firstAddr hne
  have hd := hr.after (x := d) (by simp)
  rw [firstAddr_cons]
  omega

/-- Headers after the stretch are unchanged, except for the first one's `prev`. -/
theorem Around.after (hout : Around h.mem h'.mem b.addr hi (firstAddr post) (lastAddr mid'))
    (hr : Rep h (pre ++ b :: (mid ++ post))) (hhi : ∀ x ∈ post, hi ≤ x.addr) {x : Block}
    (hx : x ∈ post) {f : Field} (hf : f ≠ .prev ∨ x ∈ post.tail) :
    get h'.mem f x.addr = get h.mem f x.addr := by
  refine hout.far f _ (Or.inr (hhi x hx)) fun hne => ?_
  obtain ⟨d, ds, rfl⟩ := exists_of_firstAddr hne
  rw [firstAddr_cons]
  by_cases hxd : x.addr = d.addr
  · refine Or.inr (Or.inr ⟨hxd, hf.resolve_right fun ht => ?_⟩)
    -- a block of the tail cannot stand where the first one does
    have hr' : Rep h ((pre ++ b :: mid) ++ d :: ds) := by simpa using hr
    have := hr'.after ht
    have := (hr'.sizes d (by simp)).1
    omega
  · rcases hr.apart (x := x) (y := d) (by simp [hx]) (by simp) hxd with h1 | h1
    · exact Or.inl h1
    · exact Or.inr (Or.inl h1)

/-- The pointers before the stretch still lead to its first block; after it only the first back
pointer has moved. -/
theorem Inside.dseg (hin : Inside h'.mem (lastAddr pre) mid' (firstAddr post))
    (hr : Rep h (pre ++ b :: (mid ++ post))) (hhead : ∃ as, mid'.map Block.addr = b.addr :: as)
    (hout : Around h.mem h'.mem b.addr hi (firstAddr post) (lastAddr mid'))
    (hhi : ∀ x ∈ post, hi ≤ x.addr) :
    DSeg (get h'.mem .next) (get h'.mem .prev) 0 ((pre ++ (mid' ++ post)).map Block.addr) 0 := by
  obtain ⟨as, has⟩ := hhead
  have hl := hr.links
  rw [← List.cons_append, List.map_append, dseg_append, @List.map_append _ _ _ (b :: mid),
    dseg_append] at hl
  obtain ⟨hlpre, -, hlpost⟩ := hl
  rw [List.map_append, dseg_append, List.map_append, dseg_append]
  refine ⟨?_, hin.links, ?_⟩
  · rw [has]
    refine hlpre.congr fun a ha => ?_
    obtain ⟨x, hx, rfl⟩ := List.mem_map.mp ha
    exact ⟨hout.before hr hx _, hout.before hr hx _⟩
  · rw [getLastD_ne_nil (by simp [has]) _ 0]
    have hnext : DSeg (get h'.mem .next) (get h.mem .prev) _ (post.map Block.addr) 0 :=
      hlpost.congr fun a ha => by
        obtain ⟨x, hx, rfl⟩ := List.mem_map.mp ha
        exact ⟨hout.after hr hhi hx (Or.inl (by decide)), rfl⟩
    refine hnext.reanchor (fun a ha => ?_) (fun a ha => ?_)
    · cases post with
      | nil => simp at ha
      | cons d ds =>
        obtain rfl : d.addr = a := by simpa using ha
        exact hout.back (hr.addr_ne_zero (by simp))
    · rw [← List.map_tail] at ha
      obtain ⟨x, hx, rfl⟩ := List.mem_map.mp ha
      exact hout.after hr hhi (List.mem_of_mem_tail hx) (Or.inr hx)

/-- The last block is that of the stretch when nothing follows it. -/
theorem Rep.lastAddr_edit (hr : Rep h (pre ++ b :: (mid ++ post)))
    (hhead : ∃ as, mid'.map Block.addr = b.addr :: as) :
    lastAddr (pre ++ (mid' ++ post)) = if post = [] then lastAddr mid' else h.heapEnd := by
  obtain ⟨as, has⟩ := hhead
  rw [lastAddr]
  simp only [List.map_append, getLastD_append]
  cases post with
  | nil =>
    rw [if_pos rfl, List.map_nil, List.getLastD_nil, lastAddr]
    exact getLastD_ne_nil (by simp [has]) _ _
  | cons d ds =>
    have hlast := hr.last
    simp only [List.map_append, getLastD_append, List.map_cons, List.getLastD_cons] at hlast
    rw [if_neg (List.cons_ne_nil d ds), List.map_cons, List.getLastD_cons]
    exact hlast.symm

/-- **Editing a stretch of the list.** -/
theorem Rep.edit (mid mid' : List Block) (hi : Nat) (hr : Rep h (pre ++ b :: (mid ++ post)))
    (hhead : (mid'.map Block.addr).head? = some b.addr)
    (hout : Around h.mem h'.mem b.addr hi (firstAddr post) (lastAddr mid'))
    (hhi : ∀ x ∈ post, hi ≤ x.addr)
    (hin : Inside h'.mem (lastAddr pre) mid' (firstAddr post))
    (htiles : Tiles Block.addr Block.size h'.heapStart (pre ++ (mid' ++ post))
      (h'.heapStart + h'.heapSize))
    (hhigh : h'.heapStart + h'.heapSize ≤ 2 ^ 32)
    (hend : h'.heapEnd = if post = [] then lastAddr mid' else h.heapEnd)
    (hstart : h'.heapStart = h.heapStart) (hvirt : h'.heapVirtStart = h.heapVirtStart) :
    Rep h' (pre ++ (mid' ++ post)) := by
  have hcons : ∃ as, mid'.map Block.addr = b.addr :: as := by
    cases hm : mid'.map Block.addr with
    | nil => rw [hm] at hhead; simp at hhead
    | cons a as => rw [hm] at hhead; exact ⟨as, by simpa using hhead⟩
  refine ⟨hin.dseg hr hcons hout hhi, ?_, htiles, ?_, hend.trans (hr.lastAddr_edit hcons).symm,
    ?_, ?_, hhigh, ?_⟩
  · intro x hx
    rcases List.mem_append.mp hx with hx' | hx'
    · rw [hout.before hr hx', hout.before hr hx']
      exact hr.fields x (List.mem_append_left _ hx')
    · rcases List.mem_append.mp hx' with hx'' | hx''
      · exact hin.fields x hx''
      · rw [hout.after hr hhi hx'' (Or.inl (by decide)),
          hout.after hr hhi hx'' (Or.inl (by decide))]
        exact hr.fields x (by simp [hx''])
  · intro x hx
    rcases List.mem_append.mp hx with hx' | hx'
    · exact hr.sizes x (List.mem_append_left _ hx')
    · rcases List.mem_append.mp hx' with hx'' | hx''
      · exact hin.sizes x hx''
      · exact hr.sizes x (by simp [hx''])
  · rw [hstart]
    exact hr.aligned
  · rw [hstart]
    exact hr.low
  · rw [hvirt, hstart]
    exact hr.virt

end Edit

end FlowOS.Heap
