/-
# What the heap's functions can do to a state

Facts about `heap.c` that hold in any state, with no invariant: which ways there are through
`kmalloc`, and which of the static variables each part changes.
-/
import FlowOS.Heap.Layout

namespace FlowOS.Heap

open Word

/-! ## 1. Sizes -/

/-- `kmalloc(n)` finds no block and tries to grow the heap. -/
def Expands (h : Heap) (n : Nat) : Prop := n ≠ 0 ∧ findFreeBlock h (align8 n) = some 0

instance (h : Heap) (n : Nat) : Decidable (h.Expands n) := instDecidableAnd

/-- The address of the page by which the heap grows. -/
def newVirt (h : Heap) : Nat := add32 h.heapVirtStart h.heapSize

/-- The static variables that say where the heap is. -/
structure SamePlace (h h' : Heap) : Prop where
  start : h'.heapStart = h.heapStart
  size : h'.heapSize = h.heapSize
  virt : h'.heapVirtStart = h.heapVirtStart

theorem SamePlace.trans {h h' h'' : Heap} (h₁ : SamePlace h h') (h₂ : SamePlace h' h'') :
    SamePlace h h'' :=
  ⟨h₂.start.trans h₁.start, h₂.size.trans h₁.size, h₂.virt.trans h₁.virt⟩

theorem takeBlock_place (h : Heap) (block size : Nat) : SamePlace h (takeBlock h block size).2 := by
  unfold takeBlock splitBlock
  dsimp only
  split
  · split <;> split <;> exact ⟨rfl, rfl, rfl⟩
  · exact ⟨rfl, rfl, rfl⟩

theorem appendPage_place (h : Heap) : (appendPage h).heapStart = h.heapStart ∧
    (appendPage h).heapSize = add32 h.heapSize pageSize ∧
    (appendPage h).heapVirtStart = h.heapVirtStart := by
  unfold appendPage
  dsimp only
  split <;> exact ⟨rfl, rfl, rfl⟩

/-- The writes of `split_block` to the header of the new block. -/
def newHeader (m : Mem) (block newBlock total : Nat) : Mem :=
  let m := put m .size newBlock (sub32 (get m .size block) total)
  let m := put m .isFree newBlock 1
  let m := put m .next newBlock (get m .next block)
  put m .prev newBlock block

/-- What `split_block` writes, in terms of the sum it has computed. -/
def splitHeaders (m : Mem) (block total : Nat) : Mem :=
  let newBlock := add32 block total
  let m := newHeader m block newBlock total
  let m := if get m .next block ≠ 0 then put m .prev (get m .next block) newBlock else m
  put (put m .size block total) .next block newBlock

theorem splitBlock_mem (h : Heap) (block size : Nat) : (splitBlock h block size).mem =
    if add32 (add32 size blockHeaderSize) minBlockSize ≤ get h.mem .size block then
      splitHeaders h.mem block (add32 size blockHeaderSize)
    else h.mem := by
  unfold splitBlock splitHeaders newHeader
  dsimp only [Heap.set]
  split
  · split <;> split <;> rfl
  · rfl

/-- The header of the page an expansion adds. -/
def pageHeader (h : Heap) : Mem :=
  put (put (put (put h.mem .size h.newVirt pageSize) .isFree h.newVirt 1) .next h.newVirt 0)
    .prev h.newVirt h.heapEnd

theorem appendPage_mem (h : Heap) : (appendPage h).mem =
    if h.heapEnd ≠ 0 then put h.pageHeader .next h.heapEnd h.newVirt else h.pageHeader := by
  exact apply_ite Heap.mem _ _ _

theorem mergeFreeBlocks_place (h : Heap) (block : Nat) :
    SamePlace h (mergeFreeBlocks h block) := by
  have hnext : SamePlace h (mergeNext h block) := by
    unfold mergeNext
    dsimp only
    split
    · split <;> exact ⟨rfl, rfl, rfl⟩
    · exact ⟨rfl, rfl, rfl⟩
  have hprev : SamePlace (mergeNext h block) (mergeFreeBlocks h block) := by
    unfold mergeFreeBlocks mergePrev
    dsimp only
    split
    · split <;> exact ⟨rfl, rfl, rfl⟩
    · exact ⟨rfl, rfl, rfl⟩
  exact hnext.trans hprev

theorem kfree_place (h : Heap) (ptr : Nat) : SamePlace h (kfree h ptr) := by
  unfold kfree
  dsimp only
  split
  · exact ⟨rfl, rfl, rfl⟩
  · split
    · exact ⟨rfl, rfl, rfl⟩
    · split
      · exact ⟨rfl, rfl, rfl⟩
      · refine SamePlace.trans ?_ (mergeFreeBlocks_place _ _)
        exact ⟨rfl, rfl, rfl⟩

/-! ## 2. The ways through `kmalloc` -/

/-- The walk stops at a block that is marked free. -/
theorem findFrom_isFree {m : Mem} {size block : Nat} (hb : block ≠ 0) :
    ∀ {fuel current : Nat}, findFrom m size fuel current = some block → get m .isFree block ≠ 0
  | fuel + 1, current, hf => by
    rw [findFrom] at hf
    split at hf
    · exact absurd (Option.some.inj hf).symm hb
    · split at hf
      · rename_i hacc
        obtain rfl := Option.some.inj hf
        exact hacc.1
      · exact findFrom_isFree hb hf

/-- Taking a block that is marked free changes the heap. -/
theorem takeBlock_ne {h : Heap} {block size : Nat} (hfree : get h.mem .isFree block ≠ 0) :
    (takeBlock h block size).2 ≠ h := by
  intro he
  have hused : get (takeBlock h block size).2.mem .isFree block = 0 := get_put_same (by decide)
  rw [he] at hused
  exact hfree hused

/-- A heap from which a block has been taken, or not. -/
def Took (h h' : Heap) (p size : Nat) : Prop :=
  (p = 0 ∧ h' = h) ∨ ∃ block, block ≠ 0 ∧ findFreeBlock h size = some block ∧
    p = (takeBlock h block size).1 ∧ h' = (takeBlock h block size).2

theorem Took.place {h h' : Heap} {p size : Nat} (ht : Took h h' p size) : SamePlace h h' := by
  rcases ht with ⟨-, rfl⟩ | ⟨block, -, -, -, rfl⟩
  · exact ⟨rfl, rfl, rfl⟩
  · exact takeBlock_place h block size

variable {σ : Type} {env : PageEnv σ} {s s' : σ} {h h' : Heap} {n p : Nat}

/-- A block that is found is taken. -/
theorem kmalloc_found {block : Nat} (h0 : n ≠ 0) (hf : findFreeBlock h (align8 n) = some block)
    (hb : block ≠ 0) : kmalloc env s h n
      = some ((takeBlock h block (align8 n)).1, s, (takeBlock h block (align8 n)).2) := by
  simp [kmalloc, h0, hf, hb]

/-- **The ways through `kmalloc`**: it serves the request from the list, it has no page to grow
by, or it grows by a page and tries again. -/
theorem kmalloc_cases (hk : kmalloc env s h n = some (p, s', h')) :
    (¬ h.Expands n ∧ s' = s ∧ Took h h' p (align8 n)) ∨
    (h.Expands n ∧ (env.pmmAllocPage s).1 = 0 ∧ s' = (env.pmmAllocPage s).2 ∧ p = 0 ∧ h' = h) ∨
    (h.Expands n ∧ (env.pmmAllocPage s).1 ≠ 0 ∧
      s' = env.pagingMapPage h.newVirt (env.pmmAllocPage s).1 (pagePresent ||| pageWrite)
        (env.pmmAllocPage s).2 ∧ Took (appendPage h) h' p (align8 n)) := by
  unfold kmalloc at hk
  by_cases h0 : n = 0
  · simp only [if_pos h0, Option.some.injEq, Prod.mk.injEq] at hk
    obtain ⟨rfl, rfl, rfl⟩ := hk
    exact Or.inl ⟨fun hc => hc.1 h0, rfl, Or.inl ⟨rfl, rfl⟩⟩
  · simp only [if_neg h0] at hk
    cases hfind : findFreeBlock h (align8 n) with
    | none => simp only [hfind, reduceCtorEq] at hk
    | some block =>
      simp only [hfind] at hk
      by_cases hb : block = 0
      · subst hb
        simp only [ne_eq, not_true_eq_false, if_false] at hk
        right
        by_cases hz : (env.pmmAllocPage s).1 = 0
        · simp only [if_pos hz, Option.some.injEq, Prod.mk.injEq] at hk
          obtain ⟨rfl, rfl, rfl⟩ := hk
          exact Or.inl ⟨⟨h0, hfind⟩, hz, rfl, rfl, rfl⟩
        · simp only [if_neg hz] at hk
          refine Or.inr ⟨⟨h0, hfind⟩, hz, ?_⟩
          generalize appendPage h = h₁ at hk ⊢
          cases hretry : findFreeBlock h₁ (align8 n) with
          | none => simp only [hretry, reduceCtorEq] at hk
          | some block =>
            simp only [hretry] at hk
            by_cases hb : block = 0
            · simp only [if_pos hb, Option.some.injEq, Prod.mk.injEq] at hk
              obtain ⟨rfl, rfl, rfl⟩ := hk
              exact ⟨rfl, Or.inl ⟨rfl, rfl⟩⟩
            · simp only [if_neg hb, Option.some.injEq, Prod.mk.injEq] at hk
              obtain ⟨rfl, rfl, rfl⟩ := hk
              exact ⟨rfl, Or.inr ⟨block, hb, hretry, rfl, rfl⟩⟩
      · simp only [if_pos hb, Option.some.injEq, Prod.mk.injEq] at hk
        obtain ⟨rfl, rfl, rfl⟩ := hk
        refine Or.inl ⟨fun hc => hb (Option.some.inj (hfind.symm.trans hc.2)), rfl, ?_⟩
        exact Or.inr ⟨block, hb, hfind, rfl, rfl⟩

end FlowOS.Heap
