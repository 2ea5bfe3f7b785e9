/-
# What the list edits of the allocator do

One lemma for each place of `heap.c` that edits the block list, each in terms of the list the
state represents: `split_block` cuts a block in two or leaves it, `merge_free_blocks` joins a
freed block with its free neighbours, the expansion of `kmalloc` appends a page.  Each proof
names the header writes once (`splitMem`, `mergeMem`, `pageMem`), reads the headers back from
them and hands the result to `Rep.edit`.
-/
import FlowOS.Heap.Layout

namespace FlowOS.Heap

open Word Tiling Linked

variable {h : Heap} {bs pre post : List Block} {b c : Block}

/-! ## 1. `is_free` of one block -/

/-- `block->is_free = v` changes that one entry of the list. -/
theorem set_isFree_rep (hr : Rep h (pre ++ b :: post)) (free : Bool) :
    Rep (h.set .isFree b.addr (if free then 1 else 0))
      (pre ++ ⟨b.addr, b.size, free⟩ :: post) := by
  have hb : b ∈ pre ++ b :: post := by simp
  have hv : (if free then 1 else 0) < 2 ^ 32 := by split <;> decide
  have hsame : ∀ f, f ≠ .isFree →
      get (h.set .isFree b.addr (if free then 1 else 0)).mem f b.addr = get h.mem f b.addr :=
    fun f hf => get_put_field _ hf
  have hbs := (hr.sizes b hb).1
  refine Rep.edit [] [⟨b.addr, b.size, free⟩] (b.addr + b.size) hr rfl
    ⟨fun f a ha _ => get_put_apart _ (by omega), ?_⟩ (fun x hx => hr.after hx) ⟨?_, ?_, ?_⟩ ?_
    hr.high ?_ rfl rfl
  · intro hne
    obtain ⟨d, ds, rfl⟩ := exists_of_firstAddr hne
    have hd := hr.after (List.mem_cons_self (a := d) (l := ds))
    have hl := hr.links
    simp only [List.map_append, List.map_cons, dseg_append] at hl
    rw [firstAddr_cons, set_mem, get_put_apart _ (by omega)]
    exact hl.2.2.2.1
  · exact ⟨(hsame _ (by decide)).trans hr.prev_eq, (hsame _ (by decide)).trans hr.next_eq, trivial⟩
  · intro x hx
    obtain rfl := List.mem_singleton.mp hx
    exact ⟨(hsame _ (by decide)).trans (hr.fields b hb).1, get_put_same hv⟩
  · intro x hx
    obtain rfl := List.mem_singleton.mp hx
    exact hr.sizes b hb
  · have ht := tiles_middle.mp hr.tiles
    exact tiles_middle.mpr ht
  · by_cases hp : post = []
    · rw [if_pos hp]
      exact (hr.heapEnd_iff.mpr hp).symm
    · rw [if_neg hp]
      rfl

/-! ## 2. The block that follows -/

theorem Rep.firstAddr_ge (hr : Rep h (pre ++ b :: post)) (hne : firstAddr post ≠ 0) :
    b.addr + b.size ≤ firstAddr post := by
  obtain ⟨d, ds, rfl⟩ := exists_of_firstAddr hne
  exact hr.after List.mem_cons_self

theorem Rep.firstAddr_lt (hr : Rep h (pre ++ post)) : firstAddr post < 2 ^ 32 := by
  cases post with
  | nil => exact Nat.two_pow_pos 32
  | cons d ds =>
    have := hr.mem_range (b := d) (by simp)
    have := hr.high
    have := (hr.sizes d (by simp)).1
    rw [firstAddr_cons]
    omega

/-! ## 3. `split_block` -/

/-- The header writes of `split_block`, with the values they store: `q` is the block after the
one that is split. -/
def splitMem (m : Mem) (block total rest q : Nat) : Mem :=
  let m := put (put (put (put m .size (block + total) rest) .isFree (block + total) 1)
    .next (block + total) q) .prev (block + total) block
  let m := if q ≠ 0 then put m .prev q (block + total) else m
  put (put m .size block total) .next block (block + total)

theorem splitBlock_eq {size : Nat} (hr : Rep h (pre ++ b :: post)) (hfit : size + 48 ≤ b.size) :
    splitBlock h b.addr size =
      { h with
        mem := splitMem h.mem b.addr (size + 16) (b.size - (size + 16)) (firstAddr post)
        heapEnd := if b.addr = h.heapEnd then b.addr + (size + 16) else h.heapEnd } := by
  have hb : b ∈ pre ++ b :: post := by simp
  have hrange := hr.mem_range hb
  have hhigh := hr.high
  have hlow := hr.low
  have hsize : get h.mem .size b.addr = b.size := (hr.fields b hb).1
  have hnext : get h.mem .next b.addr = firstAddr post := hr.next_eq
  have h1 : add32 size blockHeaderSize = size + 16 :=
    add32_of_lt (by simp only [blockHeaderSize]; omega)
  have h2 : add32 (size + 16) minBlockSize = size + 48 :=
    add32_of_lt (by simp only [minBlockSize, blockHeaderSize]; omega)
  have h3 : add32 b.addr (size + 16) = b.addr + (size + 16) := add32_of_lt (by omega)
  have h4 : sub32 b.size (size + 16) = b.size - (size + 16) := sub32_of_le (by omega) (by omega)
  have hapart : ∀ (m : Mem) (f g : Field) (v : Nat),
      get (put m g (b.addr + (size + 16)) v) f b.addr = get m f b.addr :=
    fun m f g v => get_put_apart v (by omega)
  unfold splitBlock
  simp only [h1, h2, h3, hsize, hfit, if_true, h4, set_mem, hapart, hnext, splitMem]
  by_cases hq : firstAddr post ≠ 0
  · simp only [hq, ne_eq, not_false_eq_true, if_true, set_heapEnd]
    split <;> rfl
  · simp only [hq, if_false, set_heapEnd]
    split <;> rfl

/-- The optional write to the block that follows does not touch a header away from it. -/
theorem get_putPrev_far {m : Mem} {f : Field} {a q v : Nat}
    (h : q ≠ 0 → a + 16 ≤ q ∨ q + 16 ≤ a ∨ (a = q ∧ f ≠ .prev)) :
    get (if q ≠ 0 then put m .prev q v else m) f a = get m f a := by
  split
  · rename_i hne
    rcases h hne with hlo | hhi | ⟨rfl, hf⟩
    · exact get_put_apart _ (Or.inl hlo)
    · exact get_put_apart _ (Or.inr hhi)
    · exact get_put_field _ hf
  · rfl

section Split

variable {m : Mem} {block total rest q : Nat}

theorem splitMem_far {a : Nat} {f : Field} (h1 : a + 16 ≤ block ∨ block + 16 ≤ a)
    (h2 : a + 16 ≤ block + total ∨ block + total + 16 ≤ a)
    (h3 : q ≠ 0 → a + 16 ≤ q ∨ q + 16 ≤ a ∨ (a = q ∧ f ≠ .prev)) :
    get (splitMem m block total rest q) f a = get m f a := by
  unfold splitMem
  rw [get_put_apart _ h1, get_put_apart _ h1, get_putPrev_far h3, get_put_apart _ h2,
    get_put_apart _ h2, get_put_apart _ h2, get_put_apart _ h2]

/-- The header of the shortened block. -/
theorem splitMem_block (f : Field) (ht : 16 ≤ total) (hlt : block + total < 2 ^ 32)
    (hq : q ≠ 0 → block + 16 ≤ q) :
    get (splitMem m block total rest q) f block =
      match f with
      | .size => total
      | .next => block + total
      | f => get m f block := by
  unfold splitMem
  cases f with
  | size => rw [get_put_field _ (by decide), get_put_same (by omega)]
  | next => rw [get_put_same hlt]
  | isFree | prev =>
    rw [get_put_field _ (by decide), get_put_field _ (by decide),
      get_putPrev_far (fun hne => Or.inl (hq hne)), get_put_apart _ (by omega),
      get_put_apart _ (by omega), get_put_apart _ (by omega), get_put_apart _ (by omega)]

/-- The header of the block split off. -/
theorem splitMem_new (f : Field) (ht : 16 ≤ total) (hrest : rest < 2 ^ 32)
    (hlt : block < 2 ^ 32) (hqlt : q < 2 ^ 32) (hq : q ≠ 0 → block + total + 16 ≤ q) :
    get (splitMem m block total rest q) f (block + total) =
      match f with
      | .size => rest
      | .isFree => 1
      | .next => q
      | .prev => block := by
  unfold splitMem
  rw [get_put_apart _ (by omega), get_put_apart _ (by omega),
    get_putPrev_far (fun hne => Or.inl (hq hne))]
  cases f with
  | size =>
    rw [get_put_field _ (by decide), get_put_field _ (by decide), get_put_field _ (by decide),
      get_put_same hrest]
  | isFree =>
    rw [get_put_field _ (by decide), get_put_field _ (by decide), get_put_same (by decide)]
  | next => rw [get_put_field _ (by decide), get_put_same hqlt]
  | prev => rw [get_put_same hlt]

/-- The back pointer of the block that follows. -/
theorem splitMem_back (hq : q ≠ 0) (hge : block + total + 16 ≤ q) (hlt : block + total < 2 ^ 32) :
    get (splitMem m block total rest q) .prev q = block + total := by
  unfold splitMem
  rw [get_put_apart _ (by omega), get_put_apart _ (by omega), if_pos hq, get_put_same hlt]

end Split

/-- **`split_block` splits.**  When the rest is large enough, the block is cut in two and the
second part is a free block of its own. -/
theorem splitBlock_rep {size : Nat} (hr : Rep h (pre ++ b :: post)) (hfit : size + 48 ≤ b.size)
    (h8 : 8 ∣ size) (hpos : 8 ≤ size) :
    Rep (splitBlock h b.addr size)
      (pre ++ ⟨b.addr, size + 16, b.free⟩ ::
        ⟨b.addr + (size + 16), b.size - (size + 16), true⟩ :: post) := by
  have hb : b ∈ pre ++ b :: post := by simp
  have hrange := hr.mem_range hb
  have hhigh := hr.high
  have hlow := hr.low
  have hbs := hr.sizes b hb
  have hge := hr.firstAddr_ge
  have hqlt : firstAddr post < 2 ^ 32 :=
    (show Rep h ((pre ++ [b]) ++ post) by simpa using hr).firstAddr_lt
  have hblock := fun f => @splitMem_block h.mem b.addr (size + 16) (b.size - (size + 16))
    (firstAddr post) f (by omega) (by omega)
    (fun hne => by have := hge hne; omega)
  have hnew := fun f => @splitMem_new h.mem b.addr (size + 16) (b.size - (size + 16))
    (firstAddr post) f (by omega) (by omega) (by omega) hqlt
    (fun hne => by have := hge hne; omega)
  rw [splitBlock_eq hr hfit]
  refine Rep.edit [] [⟨b.addr, size + 16, b.free⟩,
      ⟨b.addr + (size + 16), b.size - (size + 16), true⟩] (b.addr + b.size) hr rfl
    ⟨?_, ?_⟩ (fun x hx => hr.after hx) ⟨?_, ?_, ?_⟩ ?_ hr.high ?_ rfl rfl
  · intro f a ha hq
    exact splitMem_far (by omega) (by omega) hq
  · intro hne
    have := hge hne
    exact splitMem_back hne (by omega) (by omega)
  · exact ⟨(hblock .prev).trans hr.prev_eq, hblock .next, hnew .prev, hnew .next, trivial⟩
  · intro x hx
    simp only [List.mem_cons, List.not_mem_nil, or_false] at hx
    rcases hx with rfl | rfl
    · exact ⟨hblock .size, (hblock .isFree).trans (hr.fields b hb).2⟩
    · exact ⟨hnew .size, hnew .isFree⟩
  · intro x hx
    simp only [List.mem_cons, List.not_mem_nil, or_false] at hx
    rcases hx with rfl | rfl <;> constructor <;> dsimp only <;> omega
  · have ht := tiles_middle.mp hr.tiles
    refine tiles_middle.mpr ⟨ht.1, rfl, ?_⟩
    have he : b.addr + (size + 16) + (b.size - (size + 16)) = b.addr + b.size := by omega
    simp only [he]
    exact ht.2
  · simp only [hr.heapEnd_iff]
    rfl

/-- Splitting writes the headers of the two parts and of the block that follows. -/
theorem splitBlock_frame {size x : Nat} (hr : Rep h (pre ++ b :: post)) (hfit : size + 48 ≤ b.size)
    (hb : x < b.addr ∨ b.addr + 16 ≤ x)
    (hnew : x < b.addr + (size + 16) ∨ b.addr + (size + 16) + 16 ≤ x) (hpost : Clear post x) :
    (splitBlock h b.addr size).mem x = h.mem x := by
  rw [splitBlock_eq hr hfit]
  show splitMem _ _ _ _ _ x = _
  unfold splitMem
  rw [put_outside _ hb, put_outside _ hb]
  split
  · rename_i hne
    rw [put_outside _ (hpost.first hne), put_outside _ hnew, put_outside _ hnew,
      put_outside _ hnew, put_outside _ hnew]
  · rw [put_outside _ hnew, put_outside _ hnew, put_outside _ hnew, put_outside _ hnew]

/-- **`split_block` leaves a block alone when the rest would be too small.** -/
theorem splitBlock_small {size : Nat} (hr : Rep h (pre ++ b :: post)) (hfit : b.size < size + 48)
    (hlt : size + 48 < 2 ^ 32) : splitBlock h b.addr size = h := by
  have hb : b ∈ pre ++ b :: post := by simp
  have h1 : add32 size blockHeaderSize = size + 16 :=
    add32_of_lt (by simp only [blockHeaderSize]; omega)
  have h2 : add32 (size + 16) minBlockSize = size + 48 :=
    add32_of_lt (by simp only [minBlockSize, blockHeaderSize]; omega)
  unfold splitBlock
  simp only [h1, h2, (hr.fields b hb).1]
  exact if_neg (by omega)

/-! ## 4. `merge_free_blocks` -/

/-- The header writes of either half of `merge_free_blocks`: `block` grows to `size` and its
successor becomes `q`. -/
def mergeMem (m : Mem) (block size q : Nat) : Mem :=
  let m := put (put m .size block size) .next block q
  if q ≠ 0 then put m .prev q block else m

/-- The state after either half of `merge_free_blocks`. -/
def mergeInto (h : Heap) (block size q : Nat) : Heap :=
  { h with
    mem := mergeMem h.mem block size q
    heapEnd := if q ≠ 0 then h.heapEnd else block }

/-- **Joining two neighbours.**  The first one grows over the second one. -/
theorem mergeInto_rep (hr : Rep h (pre ++ b :: c :: post)) :
    Rep (mergeInto h b.addr (b.size + c.size) (firstAddr post))
      (pre ++ ⟨b.addr, b.size + c.size, b.free⟩ :: post) := by
  have hb : b ∈ pre ++ b :: c :: post := by simp
  have hc : c ∈ pre ++ b :: c :: post := by simp
  have hrange := hr.mem_range hb
  have hrangec := hr.mem_range hc
  have hhigh := hr.high
  have hlow := hr.low
  have hbs := hr.sizes b hb
  have hcs := hr.sizes c hc
  have ht := tiles_middle.mp hr.tiles
  have hcb : c.addr = b.addr + b.size := ht.2.1
  have hr' : Rep h ((pre ++ [b]) ++ c :: post) := by simpa using hr
  have hge := hr'.firstAddr_ge
  have hqlt : firstAddr post < 2 ^ 32 :=
    (show Rep h ((pre ++ [b, c]) ++ post) by simpa using hr).firstAddr_lt
  have hbelow : firstAddr post ≠ 0 → b.addr + 16 ≤ firstAddr post := fun hne => by
    have := hge hne
    omega
  have hother : ∀ f, f ≠ .size → f ≠ .next →
      get (mergeMem h.mem b.addr (b.size + c.size) (firstAddr post)) f b.addr
        = get h.mem f b.addr := by
    intro f h1 h2
    unfold mergeMem
    rw [get_putPrev_far (fun hne => Or.inl (hbelow hne)), get_put_field _ h2,
      get_put_field _ h1]
  refine Rep.edit [c] [⟨b.addr, b.size + c.size, b.free⟩]
    (c.addr + c.size) hr rfl ⟨?_, ?_⟩ (fun x hx => hr'.after hx) ⟨?_, ?_, ?_⟩ ?_ hr.high ?_
    rfl rfl
  · intro f a ha hq
    exact (get_putPrev_far hq).trans
      ((get_put_apart _ (by omega)).trans (get_put_apart _ (by omega)))
  · intro hne
    unfold mergeInto mergeMem
    rw [if_pos hne]
    exact get_put_same (by omega)
  · refine ⟨(hother _ (by decide) (by decide)).trans hr.prev_eq, ?_, trivial⟩
    exact (get_putPrev_far (fun hne => Or.inl (hbelow hne))).trans (get_put_same hqlt)
  · intro x hx
    obtain rfl := List.mem_singleton.mp hx
    refine ⟨?_, (hother _ (by decide) (by decide)).trans (hr.fields b hb).2⟩
    exact (get_putPrev_far (fun hne => Or.inl (hbelow hne))).trans
      ((get_put_field _ (by decide)).trans (get_put_same (by omega)))
  · intro x hx
    obtain rfl := List.mem_singleton.mp hx
    constructor <;> dsimp only <;> omega
  · refine tiles_middle.mpr ⟨ht.1, ?_⟩
    have he : b.addr + (b.size + c.size) = b.addr + b.size + c.size := by omega
    simp only [he]
    exact ht.2.2
  · cases post with
    | nil => rfl
    | cons d ds =>
      have hne : firstAddr (d :: ds) ≠ 0 := hr.addr_ne_zero (b := d) (by simp)
      rw [if_neg (List.cons_ne_nil d ds)]
      exact if_pos hne

/-- A merge writes the headers of the block that grows and of the one that follows. -/
theorem mergeInto_frame {size x : Nat} (hb : x < b.addr ∨ b.addr + 16 ≤ x) (hpost : Clear post x) :
    (mergeInto h b.addr size (firstAddr post)).mem x = h.mem x := by
  show mergeMem _ _ _ _ x = _
  unfold mergeMem
  split
  · rename_i hne
    rw [put_outside _ (hpost.first hne), put_outside _ hb, put_outside _ hb]
  · rw [put_outside _ hb, put_outside _ hb]

/-- A block and its successor: the headers lie apart, the sizes add up to a 32-bit number, and
the successor's `next` is the block after it. -/
theorem Rep.pair (hr : Rep h (pre ++ b :: c :: post)) : b.addr + 16 ≤ c.addr ∧
    add32 b.size c.size = b.size + c.size ∧ get h.mem .next c.addr = firstAddr post := by
  have hr' : Rep h ((pre ++ [b]) ++ c :: post) := by simpa using hr
  have hbc := hr.after (List.mem_cons_self (a := c) (l := post))
  have hbs := (hr.sizes b (by simp)).1
  have hrangeb := hr.mem_range (b := b) (by simp)
  have hrange := hr.mem_range (b := c) (by simp)
  have hhigh := hr.high
  have hlow := hr.low
  exact ⟨by omega, add32_of_lt (by omega), hr'.next_eq⟩

/-- **The forward merge** absorbs a free successor. -/
theorem mergeNext_eq (hr : Rep h (pre ++ b :: c :: post)) (hc : c.free = true) :
    mergeNext h b.addr = mergeInto h b.addr (b.size + c.size) (firstAddr post) := by
  have hcne : c.addr ≠ 0 := hr.addr_ne_zero (by simp)
  obtain ⟨hapart, hsum, hnextc⟩ := hr.pair
  have hqlt : firstAddr post < 2 ^ 32 :=
    (show Rep h ((pre ++ [b, c]) ++ post) by simpa using hr).firstAddr_lt
  have hnext : get h.mem .next b.addr = c.addr := hr.next_eq
  have hfree : get h.mem .isFree c.addr = 1 := by
    rw [(hr.fields c (by simp)).2, Block.flag, hc]
    rfl
  have hsb : get h.mem .size b.addr = b.size := (hr.fields b (by simp)).1
  have hsc : get h.mem .size c.addr = c.size := (hr.fields c (by simp)).1
  have h1 : get (put h.mem .size b.addr (b.size + c.size)) .next b.addr = c.addr :=
    (get_put_field _ (by decide)).trans hnext
  have h2 : get (put h.mem .size b.addr (b.size + c.size)) .next c.addr = firstAddr post :=
    (get_put_apart _ (by omega)).trans hnextc
  have h3 : get (put (put h.mem .size b.addr (b.size + c.size)) .next b.addr (firstAddr post))
      .next b.addr = firstAddr post := get_put_same hqlt
  unfold mergeNext mergeInto mergeMem
  simp only [hnext, hfree, hcne, ne_eq, not_false_eq_true, one_ne_zero, and_self, if_true, hsb,
    hsc, hsum, set_mem, h1, h2, h3]
  split <;> rfl

/-- ...and does nothing when there is no free successor. -/
theorem mergeNext_noop (hr : Rep h (pre ++ b :: post))
    (hpost : ∀ c, post.head? = some c → c.free = false) : mergeNext h b.addr = h := by
  have hnext : get h.mem .next b.addr = firstAddr post := hr.next_eq
  unfold mergeNext
  refine if_neg ?_
  rintro ⟨hne, hfree⟩
  rw [hnext] at hne hfree
  obtain ⟨c, cs, rfl⟩ := exists_of_firstAddr hne
  rw [firstAddr_cons, (hr.fields c (by simp)).2, Block.flag, hpost c rfl] at hfree
  exact hfree rfl

/-- **The backward merge** lets a free predecessor absorb the block. -/
theorem mergePrev_eq (hr : Rep h (pre ++ b :: c :: post)) (hb : b.free = true) :
    mergePrev h c.addr = mergeInto h b.addr (b.size + c.size) (firstAddr post) := by
  have hbne : b.addr ≠ 0 := hr.addr_ne_zero (by simp)
  have hr' : Rep h ((pre ++ [b]) ++ c :: post) := by simpa using hr
  obtain ⟨hapart, hsum, hnextc⟩ := hr.pair
  have hprev : get h.mem .prev c.addr = b.addr := by
    rw [hr'.prev_eq]
    simp
  have hfree : get h.mem .isFree b.addr = 1 := by
    rw [(hr.fields b (by simp)).2, Block.flag, hb]
    rfl
  have hsb : get h.mem .size b.addr = b.size := (hr.fields b (by simp)).1
  have hsc : get h.mem .size c.addr = c.size := (hr.fields c (by simp)).1
  -- the block being absorbed keeps its own header throughout
  have hkeep : ∀ (m : Mem) (f g : Field) (v : Nat),
      get (put m g b.addr v) f c.addr = get m f c.addr :=
    fun m f g v => get_put_apart v (by omega)
  unfold mergePrev mergeInto mergeMem
  simp only [hprev, hfree, hbne, ne_eq, not_false_eq_true, one_ne_zero, and_self, if_true, hsb,
    hsc, hsum, set_mem, hkeep, hnextc]
  split <;> rfl

/-- ...and does nothing when there is no free predecessor. -/
theorem mergePrev_noop (hr : Rep h (pre ++ b :: post))
    (hpre : ∀ c, pre.getLast? = some c → c.free = false) : mergePrev h b.addr = h := by
  have hprev : get h.mem .prev b.addr = lastAddr pre := hr.prev_eq
  unfold mergePrev
  refine if_neg ?_
  rintro ⟨hne, hfree⟩
  rw [hprev] at hne hfree
  rcases List.eq_nil_or_concat pre with rfl | ⟨ps, p, rfl⟩
  · exact hne rfl
  · have hp : lastAddr (ps.concat p) = p.addr := by simp [lastAddr]
    rw [hp, (hr.fields p (by simp)).2, Block.flag, hpre p (by simp)] at hfree
    exact hfree rfl

/-! ## 5. The expansion of `kmalloc` -/

/-- The header writes of a heap expansion. -/
def pageMem (m : Mem) (newVirt last : Nat) : Mem :=
  put (put (put (put (put m .size newVirt pageSize) .isFree newVirt 1) .next newVirt 0)
    .prev newVirt last) .next last newVirt

theorem appendPage_eq (hr : Rep h (pre ++ [b]))
    (hroom : h.heapStart + h.heapSize + pageSize ≤ 2 ^ 32) :
    appendPage h =
      { h with
        mem := pageMem h.mem (h.heapStart + h.heapSize) b.addr
        heapSize := h.heapSize + pageSize
        heapEnd := h.heapStart + h.heapSize } := by
  have hlow := hr.low
  have hsize : pageSize = 4096 := rfl
  have hend : h.heapEnd = b.addr := (hr.heapEnd_iff.mpr rfl).symm
  have hend0 : b.addr ≠ 0 := hr.addr_ne_zero (by simp)
  have hnv : add32 h.heapVirtStart h.heapSize = h.heapStart + h.heapSize := by
    rw [hr.virt]
    exact add32_of_lt (by omega)
  have hsz : add32 h.heapSize pageSize = h.heapSize + pageSize := add32_of_lt (by omega)
  unfold appendPage pageMem
  simp only [hnv, hsz, set_heapEnd, hend, hend0, ne_eq, not_false_eq_true, if_true]
  rfl

section Page

variable {m : Mem} {newVirt last : Nat}

theorem pageMem_far {a : Nat} {f : Field} (h1 : a + 16 ≤ newVirt ∨ newVirt + 16 ≤ a)
    (h2 : a + 16 ≤ last ∨ last + 16 ≤ a) : get (pageMem m newVirt last) f a = get m f a := by
  unfold pageMem
  rw [get_put_apart _ h2, get_put_apart _ h1, get_put_apart _ h1, get_put_apart _ h1,
    get_put_apart _ h1]

/-- The header of the block that was the last one. -/
theorem pageMem_last (f : Field) (hlt : newVirt < 2 ^ 32) (hle : last + 16 ≤ newVirt) :
    get (pageMem m newVirt last) f last =
      match f with
      | .next => newVirt
      | f => get m f last := by
  unfold pageMem
  cases f with
  | next => rw [get_put_same hlt]
  | size | isFree | prev =>
    rw [get_put_field _ (by decide), get_put_apart _ (by omega), get_put_apart _ (by omega),
      get_put_apart _ (by omega), get_put_apart _ (by omega)]

/-- The header of the new page. -/
theorem pageMem_new (f : Field) (hlt : last < 2 ^ 32) (hle : last + 16 ≤ newVirt) :
    get (pageMem m newVirt last) f newVirt =
      match f with
      | .size => pageSize
      | .isFree => 1
      | .next => 0
      | .prev => last := by
  unfold pageMem
  rw [get_put_apart _ (by omega)]
  cases f with
  | size =>
    rw [get_put_field _ (by decide), get_put_field _ (by decide), get_put_field _ (by decide),
      get_put_same (by decide)]
  | isFree =>
    rw [get_put_field _ (by decide), get_put_field _ (by decide), get_put_same (by decide)]
  | next => rw [get_put_field _ (by decide), get_put_same (by decide)]
  | prev => rw [get_put_same hlt]

end Page

/-- **The expansion appends one free block**, the new page. -/
theorem appendPage_rep (hr : Rep h (pre ++ [b]))
    (hroom : h.heapStart + h.heapSize + pageSize ≤ 2 ^ 32) :
    Rep (appendPage h) (pre ++ [b, ⟨h.heapStart + h.heapSize, pageSize, true⟩]) := by
  have hb : b ∈ pre ++ [b] := by simp
  have hbs := hr.sizes b hb
  have hsize : pageSize = 4096 := rfl
  have ht := tiles_middle.mp hr.tiles
  have hbe : b.addr + b.size = h.heapStart + h.heapSize := ht.2
  have hlast := fun f => @pageMem_last h.mem (h.heapStart + h.heapSize) b.addr f (by omega)
    (by omega)
  have hnew := fun f => @pageMem_new h.mem (h.heapStart + h.heapSize) b.addr f (by omega)
    (by omega)
  rw [appendPage_eq hr hroom]
  refine @Rep.edit _ _ [] _ _ [] [b, ⟨h.heapStart + h.heapSize, pageSize, true⟩]
    (h.heapStart + h.heapSize + pageSize) hr rfl ⟨?_, fun hne => absurd rfl hne⟩ (by simp)
    ⟨?_, ?_, ?_⟩ ?_ ?_ rfl rfl rfl
  · intro f a ha _
    exact pageMem_far (by omega) (by omega)
  · exact ⟨(hlast .prev).trans hr.prev_eq, hlast .next, hnew .prev, hnew .next, trivial⟩
  · intro x hx
    simp only [List.mem_cons, List.not_mem_nil, or_false] at hx
    rcases hx with rfl | rfl
    · exact ⟨(hlast .size).trans (hr.fields x hb).1, (hlast .isFree).trans (hr.fields x hb).2⟩
    · exact ⟨hnew .size, hnew .isFree⟩
  · intro x hx
    simp only [List.mem_cons, List.not_mem_nil, or_false] at hx
    rcases hx with rfl | rfl
    · exact hbs
    · simp [pageSize]
  · refine tiles_middle.mpr ⟨ht.1, hbe.symm, ?_⟩
    show b.addr + b.size + pageSize = h.heapStart + (h.heapSize + pageSize)
    omega
  · dsimp only
    omega

end FlowOS.Heap
