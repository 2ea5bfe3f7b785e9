/-
# The abstract allocator: a list of blocks

What `kmalloc` and `kfree` are for, without headers, pointers or memory: a first-fit search
that carves a block out of the list, and a release that joins the block with its free
neighbours.  `Heap/Alloc.lean` proves that the C code computes exactly these functions on the
list its memory represents.
-/
import FlowOS.Heap.Edit

namespace FlowOS.Heap

open Word Tiling Linked

/-! ## 1. Allocation -/

/-- A block that `find_free_block(size)` accepts. -/
def fits (size : Nat) (b : Block) : Bool := b.free && decide (size + 16 ≤ b.size)

/-- What becomes of the block chosen for an allocation of `size` payload bytes. -/
def carve (size : Nat) (b : Block) : List Block :=
  if size + 48 ≤ b.size then
    [⟨b.addr, size + 16, false⟩, ⟨b.addr + (size + 16), b.size - (size + 16), true⟩]
  else [⟨b.addr, b.size, false⟩]

/-- First-fit allocation: the address of the block taken, and the list afterwards. -/
def alloc (size : Nat) : List Block → Option (Nat × List Block)
  | [] => none
  | b :: bs =>
    if fits size b then some (b.addr, carve size b ++ bs)
    else (alloc size bs).map fun r => (r.1, b :: r.2)

/-- Everything a successful allocation can do. -/
theorem alloc_cases {size a : Nat} : ∀ {bs bs' : List Block}, alloc size bs = some (a, bs') →
    ∃ pre b post, bs = pre ++ b :: post ∧ fits size b = true ∧ (∀ x ∈ pre, fits size x = false) ∧
      a = b.addr ∧ bs' = pre ++ (carve size b ++ post)
  | b :: bs, bs', h => by
    rw [alloc] at h
    split at h
    · rename_i hfit
      obtain ⟨rfl, rfl⟩ := Prod.mk.inj (Option.some.inj h)
      exact ⟨[], b, bs, rfl, hfit, by simp, rfl, rfl⟩
    · rename_i hfit
      obtain ⟨⟨a', bs1⟩, hr, he⟩ := Option.map_eq_some_iff.mp h
      obtain ⟨rfl, rfl⟩ := Prod.mk.inj he
      obtain ⟨pre, c, post, rfl, hc, hpre, rfl, rfl⟩ := alloc_cases hr
      refine ⟨b :: pre, c, post, rfl, hc, ?_, rfl, rfl⟩
      intro x hx
      rcases List.mem_cons.mp hx with rfl | hx
      · simpa using hfit
      · exact hpre x hx

/-- An allocation fails exactly when no block fits. -/
theorem alloc_eq_none {size : Nat} {bs : List Block} :
    alloc size bs = none ↔ ∀ b ∈ bs, fits size b = false := by
  induction bs with
  | nil => simp [alloc]
  | cons b bs ih =>
    rw [alloc]
    split
    · rename_i hfit
      simp [hfit]
    · rename_i hfit
      simp only [Option.map_eq_none_iff, ih, List.mem_cons, forall_eq_or_imp]
      simp only [Bool.not_eq_true] at hfit
      simp [hfit]

theorem alloc_append {size : Nat} {b : Block} {post : List Block} (hb : fits size b = true) :
    ∀ {pre : List Block}, (∀ x ∈ pre, fits size x = false) →
      alloc size (pre ++ b :: post) = some (b.addr, pre ++ (carve size b ++ post))
  | [], _ => by simp [alloc, hb]
  | x :: pre, h => by
    rw [List.cons_append, alloc, if_neg (by simp [h x List.mem_cons_self]),
      alloc_append hb fun y hy => h y (List.mem_cons_of_mem _ hy)]
    rfl

/-! ## 2. Release -/

/-- A freed block, joined with its successor if that is free. -/
def joinNext (b : Block) : List Block → List Block
  | c :: cs => if c.free then ⟨b.addr, b.size + c.size, b.free⟩ :: cs else b :: c :: cs
  | [] => [b]

/-- Joining keeps the address and the flag of the block at the front. -/
theorem joinNext_cons (b : Block) (bs : List Block) :
    ∃ c cs, joinNext b bs = c :: cs ∧ c.addr = b.addr ∧ c.free = b.free := by
  cases bs with
  | nil => exact ⟨b, [], rfl, rfl, rfl⟩
  | cons d ds =>
    rw [joinNext]
    split
    · exact ⟨_, ds, rfl, rfl, rfl⟩
    · exact ⟨b, d :: ds, rfl, rfl, rfl⟩

/-- The list after a forward merge has no new addresses. -/
theorem joinNext_sub (b : Block) (post : List Block) : ∃ c cs, joinNext b post = c :: cs ∧
    c.addr = b.addr ∧ ∀ d ∈ cs, d ∈ post := by
  cases post with
  | nil => exact ⟨b, [], rfl, rfl, by simp⟩
  | cons d ds =>
    rw [joinNext]
    split
    · exact ⟨_, ds, rfl, rfl, fun e he => List.mem_cons_of_mem _ he⟩
    · exact ⟨b, d :: ds, rfl, rfl, fun e he => he⟩

/-- Release the block at `a`: mark it free and join it with its free neighbours. -/
def release (a : Nat) : List Block → List Block
  | [] => []
  | b :: bs =>
    if b.addr = a then joinNext ⟨b.addr, b.size, true⟩ bs
    else if firstAddr bs = a ∧ b.free then
      match release a bs with
      | c :: cs => ⟨b.addr, b.size + c.size, b.free⟩ :: cs
      | [] => [b]
    else b :: release a bs

theorem release_head {a : Nat} {b : Block} {bs : List Block} (hb : b.addr = a) :
    release a (b :: bs) = joinNext ⟨b.addr, b.size, true⟩ bs := by
  rw [release, if_pos hb]

/-- Blocks that are not next to the one released are passed over. -/
theorem release_append {a : Nat} {bs : List Block} : ∀ {pre : List Block},
    (∀ x ∈ pre, x.addr ≠ a) → firstAddr bs = a →
    (∀ x, pre.getLast? = some x → x.free = false) → release a (pre ++ bs) = pre ++ release a bs
  | [], _, _, _ => rfl
  | [x], hne, _, hlast => by
    have hx : x.free = false := hlast x rfl
    rw [List.singleton_append, release, if_neg (hne x List.mem_cons_self), if_neg (by simp [hx])]
    rfl
  | x :: y :: pre, hne, hbs, hlast => by
    have ih : release a (y :: pre ++ bs) = y :: pre ++ release a bs :=
      release_append (fun z hz => hne z (List.mem_cons_of_mem _ hz)) hbs (by simpa using hlast)
    have hy : firstAddr (y :: pre ++ bs) ≠ a := hne y (by simp)
    rw [List.cons_append, release, if_neg (hne x List.mem_cons_self),
      if_neg (fun h => hy h.1), ih]
    rfl

/-- A free block right before the one released takes it in. -/
theorem release_append_free {a : Nat} {p b c : Block} {pre post cs : List Block}
    (hpre : ∀ x ∈ pre, x.addr ≠ a) (hpa : p.addr ≠ a) (hp : p.free = true) (hb : b.addr = a)
    (hj : joinNext ⟨b.addr, b.size, true⟩ post = c :: cs) :
    release a (pre ++ p :: b :: post) = pre ++ ⟨p.addr, p.size + c.size, p.free⟩ :: cs := by
  induction pre with
  | nil =>
    rw [List.nil_append, release, if_neg hpa, if_pos ⟨hb, hp⟩, release_head hb, hj]
    rfl
  | cons x pre ih =>
    have hfirst : firstAddr (pre ++ p :: b :: post) ≠ a := by
      cases pre with
      | nil => exact hpa
      | cons y pre => exact hpre y (by simp)
    rw [List.cons_append, release, if_neg (hpre x List.mem_cons_self),
      if_neg (fun h => hfirst h.1), ih fun y hy => hpre y (List.mem_cons_of_mem _ hy)]
    rfl

/-! ## 3. The blocks in use -/

/-- The blocks handed out. -/
def usedBlocks (bs : List Block) : List Block := bs.filter fun b => !b.free

/-- The bytes they take, headers included. -/
def usedBytes (bs : List Block) : Nat := ((usedBlocks bs).map Block.size).sum

theorem usedBlocks_append (xs ys : List Block) :
    usedBlocks (xs ++ ys) = usedBlocks xs ++ usedBlocks ys := List.filter_append _ _

@[simp] theorem usedBlocks_nil : usedBlocks [] = [] := rfl

@[simp] theorem usedBlocks_cons_free {b : Block} (bs : List Block) (hb : b.free = true) :
    usedBlocks (b :: bs) = usedBlocks bs := by simp [usedBlocks, hb]

@[simp] theorem usedBlocks_cons_used {b : Block} (bs : List Block) (hb : b.free = false) :
    usedBlocks (b :: bs) = b :: usedBlocks bs := by simp [usedBlocks, hb]

theorem usedBytes_append (xs ys : List Block) :
    usedBytes (xs ++ ys) = usedBytes xs + usedBytes ys := by
  simp [usedBytes, usedBlocks_append]

/-- The block an allocation hands out. -/
def granted (size : Nat) (b : Block) : Block :=
  ⟨b.addr, if size + 48 ≤ b.size then size + 16 else b.size, false⟩

theorem usedBlocks_carve (size : Nat) (b : Block) :
    usedBlocks (carve size b) = [granted size b] := by
  unfold carve granted
  split <;> rfl

theorem le_granted {size : Nat} {b : Block} (hb : fits size b = true) :
    size + 16 ≤ (granted size b).size := by
  simp only [fits, Bool.and_eq_true, decide_eq_true_eq] at hb
  unfold granted
  dsimp only
  split <;> omega

/-- **An allocation puts one block more into use.** -/
theorem alloc_used {size a : Nat} {bs bs' : List Block} (ha : alloc size bs = some (a, bs')) :
    ∃ c : Block, a = c.addr ∧ size + 16 ≤ c.size ∧ (usedBlocks bs').Perm (c :: usedBlocks bs) := by
  obtain ⟨pre, b, post, rfl, hfit, -, rfl, rfl⟩ := alloc_cases ha
  have hfree : b.free = true := by
    simp only [fits, Bool.and_eq_true] at hfit
    exact hfit.1
  refine ⟨granted size b, rfl, le_granted hfit, ?_⟩
  rw [usedBlocks_append, usedBlocks_append, usedBlocks_carve, usedBlocks_append,
    usedBlocks_cons_free post hfree]
  exact List.perm_middle

theorem usedBlocks_joinNext {b : Block} (hb : b.free = true) (post : List Block) :
    usedBlocks (joinNext b post) = usedBlocks post := by
  cases post with
  | nil => simp [joinNext, usedBlocks, hb]
  | cons c cs =>
    rw [joinNext]
    split
    · rename_i hc
      rw [usedBlocks_cons_free (b := ⟨b.addr, b.size + c.size, b.free⟩) cs hb,
        usedBlocks_cons_free cs hc]
    · exact usedBlocks_cons_free _ hb

/-- **A release takes exactly the released block out of use.** -/
theorem usedBlocks_release {a : Nat} {b : Block} {pre post : List Block}
    (hpre : ∀ x ∈ pre, x.addr ≠ a) (hb : b.addr = a) :
    usedBlocks (release a (pre ++ b :: post)) = usedBlocks pre ++ usedBlocks post := by
  have hjoin := usedBlocks_joinNext (b := ⟨b.addr, b.size, true⟩) rfl post
  by_cases hlast : ∀ x, pre.getLast? = some x → x.free = false
  · have hpost : firstAddr (b :: post) = a := hb
    rw [release_append hpre hpost hlast, release_head hb, usedBlocks_append, hjoin]
  · push Not at hlast
    obtain ⟨p, hp, hfree⟩ := hlast
    have hpf : p.free = true := by simpa using hfree
    obtain ⟨ps, rfl⟩ := List.getLast?_eq_some_iff.mp hp
    obtain ⟨c, cs, hj, -, hc⟩ := joinNext_cons ⟨b.addr, b.size, true⟩ post
    rw [hj, usedBlocks_cons_free cs hc] at hjoin
    rw [List.append_assoc, List.singleton_append,
      release_append_free (fun x hx => hpre x (by simp [hx])) (hpre p (by simp)) hpf hb hj,
      usedBlocks_append, usedBlocks_append, usedBlocks_cons_free _ hpf,
      usedBlocks_cons_free (b := ⟨p.addr, p.size + c.size, p.free⟩) cs hpf, hjoin, usedBlocks_nil,
      List.append_nil]

end FlowOS.Heap
