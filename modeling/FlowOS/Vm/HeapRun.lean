/-
# Runs of the heap in the booted kernel

The heap of a kernel that has booted, with the allocations its clients hold, and everything that
can happen to it: `kmalloc`, `kfree` of an allocation that is held, a client writing to memory it
holds, and the rest of the kernel taking page frames.  Frames are never given back
(`pmm_free_page` has no caller), which bounds the pages the heap can get.  Nothing bounds the
address at which it puts them, so the runs reach heaps that have outgrown the address space; the
invariant covers them.
-/
import FlowOS.Vm.KernelSpace
import FlowOS.Heap.FreeTwice
import FlowOS.Heap.Sizes
import Mathlib.Data.List.Perm.Subperm

namespace FlowOS

/-- A page added to the list changes nothing for the clients. -/
theorem Heap.Owned.extend {bs bs₁ : List Heap.Block} {live : List (Nat × Nat)}
    (ho : Heap.Owned bs live) (he : Heap.Extends bs bs₁) : Heap.Owned bs₁ live := by
  rcases he with rfl | ⟨c, hc, rfl⟩
  · exact ho
  · exact ho.addFree hc

namespace HeapRun

open Word Heap

/-! ## 1. Steps -/

/-- The kernel and the allocations held, as pairs of the pointer returned and the size asked
for. -/
structure State where
  kernel : Kernel
  live : List (Nat × Nat)

inductive Act
  | kmalloc (n : Nat)
  | kfree (e : Nat × Nat)
  | write (e : Nat × Nat) (a : Nat) (v : UInt8)
  /-- The rest of the kernel, which changes its part of the state. -/
  | other (vm : Vm)

/-- The kernel with a byte of the heap's memory written. -/
def poke (k : Kernel) (a : Nat) (v : UInt8) : Kernel :=
  { k with heap := { k.heap with mem := k.heap.mem.st8 a v } }

def next (s : State) : Act → State
  | .kmalloc n =>
    match s.kernel.kmalloc n with
    | none => s  -- does not return; no run gets there
    | some (p, k) => ⟨k, if p = 0 then s.live else (p, n) :: s.live⟩
  | .kfree e => ⟨s.kernel.kfree e.1, s.live.erase e⟩
  | .write _ a v => { s with kernel := poke s.kernel a v }
  | .other vm => { s with kernel := { s.kernel with vm := vm } }

/-- What clients do: sizes up to `2 ^ 31 - 1`, pointers that are held, writes to what is held.
The rest of the kernel takes frames and gives none back. -/
def Enabled (s : State) : Act → Prop
  | .kmalloc n => 1 ≤ n ∧ n ≤ 2 ^ 31 - 1
  | .kfree e => e ∈ s.live
  | .write e a _ => e ∈ s.live ∧ e.1 ≤ a ∧ a < e.1 + e.2
  | .other vm => ∀ g, Pmm.Free vm.pmm g → Pmm.Free s.kernel.vm.pmm g

/-- The states that runs from boot reach, of any kernel image on any machine. -/
def Reachable (s : State) : Prop :=
  ∃ img mboot mem heapMem k₀ acts, bootKernel img mboot mem heapMem = some k₀ ∧
    Trace.Along next Enabled ⟨k₀, []⟩ acts ∧ s = acts.foldl next ⟨k₀, []⟩

/-! ## 2. The invariant -/

/-- `bs` are the blocks and `all` the allocations that have not been released; those still held
are among them. -/
structure RunInv (s : State) (bs : List Block) (all : List (Nat × Nat)) : Prop where
  sound : Sound s.kernel.heap bs
  owned : Owned bs all
  live : s.live.Subperm all
  fits : s.kernel.HeapFits
  zero : ¬ Pmm.Free s.kernel.vm.pmm 0

variable {s : State} {bs : List Block} {all : List (Nat × Nat)} {e : Nat × Nat} {n : Nat}

/-- The block of an allocation that is held. -/
theorem RunInv.block (hi : RunInv s bs all) (he : e ∈ s.live) :
    ∃ b ∈ bs, b.free = false ∧ e.1 = b.addr + 16 ∧ e.2 + 16 ≤ b.size := by
  obtain ⟨b, hb, hptr, hsize⟩ := hi.owned.fits e (hi.live.subset he)
  obtain ⟨hmem, hfree⟩ := mem_usedBlocks.mp hb
  exact ⟨b, hmem, hfree, hptr, hsize⟩

theorem boot_inv {img : KernelImage} {heapMem : Mem} {k : Kernel} (hb : Booted img heapMem k) :
    RunInv ⟨k, []⟩ [⟨0xC0000000, 0x100000, true⟩] [] := by
  have hstart : k.heap.heapStart = 0xC0000000 := by rw [hb.heap]; rfl
  have hsize : k.heap.heapSize = 0x100000 := by rw [hb.heap]; rfl
  refine ⟨.below (Kernel.booted_heapInv hb) hstart ?_ ?_, ⟨by simp [usedBlocks], by simp⟩,
    List.Subperm.refl _, Kernel.fits_boot hb, hb.roles.zero⟩
  · rw [hsize]
    decide
  · rw [hstart, hsize]
    decide

/-- An expansion does not take the size of the heap past `2 ^ 32`. -/
theorem RunInv.small (hi : RunInv s bs all) (hphys : s.kernel.vm.allocPage.1 ≠ 0) :
    s.kernel.heap.heapSize + pageSize < 2 ^ 32 := by
  have hfits := hi.fits
  have halloc := Vm.clearBits_alloc hi.zero
  rw [if_neg hphys] at halloc
  unfold Kernel.HeapFits at hfits
  simp only [pageSize]
  omega

/-- **`kmalloc` in a run**: it returns, keeps the invariant, and writes headers only. -/
theorem RunInv.kmalloc (hi : RunInv s bs all) (h1 : 1 ≤ n) (h2 : n ≤ 0xFFFFFFE8) :
    ∃ p k' bs', s.kernel.kmalloc n = some (p, k') ∧
      RunInv ⟨k', if p = 0 then s.live else (p, n) :: s.live⟩ bs'
        (if p = 0 then all else (p, n) :: all) ∧
      (∀ x, 0xC0000000 ≤ x → Clear bs' x → k'.heap.mem x = s.kernel.heap.mem x) ∧
      Outcome n s.kernel.heap k'.heap bs bs' p := by
  obtain ⟨p, vm', h', bs', hk, hsound, hmem, hout⟩ :=
    hi.sound.kmalloc Vm.pageEnv s.kernel.vm h1 h2 hi.small
  obtain ⟨k', hk', rfl⟩ : ∃ k', s.kernel.kmalloc n = some (p, k') ∧ k'.heap = h' := by
    unfold Kernel.kmalloc
    rw [hk]
    exact ⟨_, rfl, rfl⟩
  obtain ⟨-, -, -, -, hstart, -⟩ := hi.sound.view
  have hzero : ¬ Pmm.Free k'.vm.pmm 0 := fun hz => hi.zero (Kernel.free_of_kmalloc hk' hz)
  have hfits : k'.HeapFits := by
    have hfits := hi.fits
    cases Kernel.kmalloc_grows hi.zero hi.fits hk' with
    | stays _ hfree hsize => exact hfits.mono hsize hfree
    | grows _ hsize hframes =>
      unfold Kernel.HeapFits at hfits ⊢
      omega
  have hle := (align8_spec h1 (by omega)).2.2.1
  have howned : Owned bs' (if p = 0 then all else (p, n) :: all) := by
    cases hout with
    | served a ha hp =>
      rw [if_neg (by omega), hp]
      exact hi.owned.alloc ha hle
    | grown c a _ hc ha hp =>
      rw [if_neg (by omega), hp]
      exact (hi.owned.addFree hc).alloc ha hle
    | failed hp hbs =>
      rw [if_pos hp, hbs]
      exact hi.owned
    | wasted hp hext =>
      rw [if_pos hp]
      exact hi.owned.extend hext
  rw [hstart] at hmem
  refine ⟨p, k', bs', hk', ⟨hsound, howned, ?_, hfits, hzero⟩, hmem, hout⟩
  dsimp only
  split
  · exact hi.live
  · exact (List.subperm_cons _).mpr hi.live

/-- The memory a client holds is clear of the headers. -/
theorem RunInv.clear (hi : RunInv s bs all) (he : e ∈ s.live) {x : Nat} (h1 : e.1 ≤ x)
    (h2 : x < e.1 + e.2) : 0xC0000000 ≤ x ∧ Clear bs x := by
  obtain ⟨b, hb, -, hptr, hsize⟩ := hi.block he
  have hrange := hi.sound.range hb
  obtain ⟨g, hinv, -⟩ := hi.sound.view
  exact ⟨by omega, hinv.rep.clear_payload hb (by omega) (by omega)⟩

/-- **`kfree` in a run** releases the block, or does nothing when the heap has outgrown the address
space; it writes headers only. -/
theorem RunInv.kfree (hi : RunInv s bs all) (he : e ∈ s.live) :
    (∀ x, Clear bs x → (s.kernel.kfree e.1).heap.mem x = s.kernel.heap.mem x) ∧
      ∃ pre b post, bs = pre ++ b :: post ∧ b.free = false ∧ e.1 = b.addr + 16 ∧
        ((s.kernel.heap.heapStart + s.kernel.heap.heapSize < 2 ^ 32 ∧
          RunInv ⟨s.kernel.kfree e.1, s.live.erase e⟩ (release b.addr bs) (all.erase e)) ∨
        (2 ^ 32 ≤ s.kernel.heap.heapStart + s.kernel.heap.heapSize ∧
          RunInv ⟨s.kernel.kfree e.1, s.live.erase e⟩ bs all)) := by
  obtain ⟨b, hb, hfree, hptr, -⟩ := hi.block he
  obtain ⟨pre, post, rfl⟩ := List.append_of_mem hb
  have hfits : (s.kernel.kfree e.1).HeapFits :=
    hi.fits.mono (Heap.kfree_place s.kernel.heap e.1).size fun _ hg => hg
  have heap : (s.kernel.kfree e.1).heap = Heap.kfree s.kernel.heap (b.addr + 16) := by
    rw [← hptr]
    rfl
  rcases hi.sound.kfree hfree with ⟨hbelow, hsound, hmem⟩ | ⟨hwraps, hnoop⟩
  · obtain ⟨g, hinv, -⟩ := hi.sound.view
    refine ⟨by rw [heap]; exact hmem, pre, b, post, rfl, hfree, hptr,
      Or.inl ⟨hbelow, ?_, ?_, ?_, hfits, hi.zero⟩⟩
    · exact heap ▸ hsound
    · exact hi.owned.take hinv.rep hfree (hi.live.subset he) hptr
    · exact hi.live.erase e
  · refine ⟨fun x _ => by rw [heap, hnoop], pre, b, post, rfl, hfree, hptr,
      Or.inr ⟨hwraps, ?_, hi.owned, ?_, hfits, hi.zero⟩⟩
    · exact (heap.trans hnoop).symm ▸ hi.sound
    · exact List.erase_sublist.subperm.trans hi.live

/-- Whatever is written to the memory of an allocation that is held. -/
theorem RunInv.fill (hi : RunInv s bs all) (he : e ∈ s.live) {m : Mem}
    (hm : ∀ x, x < e.1 ∨ e.1 + e.2 ≤ x → m x = s.kernel.heap.mem x) :
    RunInv { s with kernel := { s.kernel with heap := { s.kernel.heap with mem := m } } }
      bs all := by
  obtain ⟨b, hb, -, hptr, hsize⟩ := hi.block he
  have hsame : ∀ x, x < b.addr + 16 ∨ b.addr + b.size ≤ x → m x = s.kernel.heap.mem x :=
    fun x hx => hm x (by omega)
  refine ⟨?_, hi.owned, hi.live, hi.fits, hi.zero⟩
  cases hi.sound with
  | below inv start pages high => exact .below (inv.writePayload hb hsame) start pages high
  | capped past =>
    exact .capped ⟨past.inv.writePayload hb hsame, past.start, past.pages, past.wraps, past.small,
      past.last⟩

theorem RunInv.write (hi : RunInv s bs all) (he : e ∈ s.live) {a : Nat} (v : UInt8) (h1 : e.1 ≤ a)
    (h2 : a < e.1 + e.2) : RunInv { s with kernel := poke s.kernel a v } bs all :=
  hi.fill he fun _ hx => Mem.st8_other v (by omega)

/-- The rest of the kernel takes frames. -/
theorem RunInv.other (hi : RunInv s bs all) (vm : Vm)
    (hfree : ∀ g, Pmm.Free vm.pmm g → Pmm.Free s.kernel.vm.pmm g) :
    RunInv { s with kernel := { s.kernel with vm := vm } } bs all :=
  ⟨hi.sound, hi.owned, hi.live, hi.fits.mono rfl hfree, fun hz => hi.zero (hfree 0 hz)⟩

/-- **Step lemma.** -/
theorem step_inv {a : Act} (hi : ∃ bs all, RunInv s bs all) (ha : Enabled s a) :
    ∃ bs all, RunInv (next s a) bs all := by
  obtain ⟨bs, all, hi⟩ := hi
  cases a with
  | kmalloc n =>
    obtain ⟨h1, h2⟩ := ha
    obtain ⟨p, k', bs', hk, hi', -⟩ := hi.kmalloc h1 (by omega)
    rw [next, hk]
    exact ⟨bs', _, hi'⟩
  | kfree e =>
    obtain ⟨-, pre, b, post, -, -, -, ⟨-, hi'⟩ | ⟨-, hi'⟩⟩ := hi.kfree ha
    · exact ⟨_, _, hi'⟩
    · exact ⟨_, _, hi'⟩
  | write e a v => exact ⟨bs, all, hi.write ha.1 v ha.2.1 ha.2.2⟩
  | other vm => exact ⟨bs, all, hi.other vm ha⟩

/-- **Run lemma.** -/
theorem Reachable.inv (hs : Reachable s) : ∃ bs all, RunInv s bs all := by
  obtain ⟨img, mboot, mem, heapMem, k₀, acts, hboot, hrun, rfl⟩ := hs
  exact hrun.inv (I := fun s => ∃ bs all, RunInv s bs all) (fun _ _ hi ha => step_inv hi ha)
    ⟨_, _, boot_inv (bootKernel_booted hboot)⟩

/-! ## 3. What the clients hold is left alone -/

/-- The bytes of an allocation. -/
def SamePayload (k k' : Kernel) (e : Nat × Nat) : Prop :=
  ∀ x, e.1 ≤ x → x < e.1 + e.2 → k'.heap.mem x = k.heap.mem x

/-- **`kmalloc` leaves what is held alone**, whatever the size. -/
theorem RunInv.kmalloc_same (hi : RunInv s bs all) {p : Nat} {k' : Kernel} (hn : n < 2 ^ 32)
    (hk : s.kernel.kmalloc n = some (p, k')) (he : e ∈ s.live) : SamePayload s.kernel k' e := by
  intro x h1 h2
  by_cases hwrap : 0xFFFFFFE8 < n
  · obtain ⟨⟨p', vm', h'⟩, hk', heq⟩ := Option.map_eq_some_iff.mp hk
    obtain ⟨-, rfl⟩ := Prod.mk.inj heq
    obtain ⟨b, hb, hfree, hptr, hsize⟩ := hi.block he
    exact hi.sound.kmalloc_wrapped hi.small hwrap hn hk' hb hfree (by omega) (by omega)
  · by_cases h0 : n = 0
    · rw [Kernel.kmalloc, Heap.kmalloc, if_pos h0] at hk
      obtain ⟨-, rfl⟩ := Prod.mk.inj (Option.some.inj hk)
      rfl
    · obtain ⟨p', k₁, bs', hk', hi', hmem, -⟩ := hi.kmalloc (n := n) (by omega) (by omega)
      obtain ⟨-, rfl⟩ : p = p' ∧ k' = k₁ := by simpa using hk.symm.trans hk'
      have he' : e ∈ (⟨k', if p' = 0 then s.live else (p', n) :: s.live⟩ : State).live := by
        dsimp only
        split
        · exact he
        · exact List.mem_cons_of_mem _ he
      obtain ⟨hlow, hclear⟩ := hi'.clear he' h1 h2
      exact hmem x hlow hclear

/-- The state a kernel starts in when the memory of the heap is clear. -/
theorem exists_fresh : ∃ s, Reachable s ∧ s.kernel.heap = freshHeap := by
  obtain ⟨k, hboot, -⟩ := @smallKernel_boots 0x1000 (by decide) (by decide) (fun _ => 0) fun _ => 0
  exact ⟨⟨k, []⟩, ⟨_, _, _, _, _, [], hboot, trivial, rfl⟩, (bootKernel_booted hboot).heap⟩

/-- A state with two allocations, `kmalloc(5)` and `kmalloc(8)` after boot. -/
theorem exists_two : ∃ s, Reachable s ∧ s.live = [(0xC0000028, 8), (0xC0000010, 5)] := by
  obtain ⟨k, hboot, -⟩ := @smallKernel_boots 0x1000 (by decide) (by decide) (fun _ => 0) fun _ => 0
  have hinv := Kernel.booted_heapInv (bootKernel_booted hboot)
  obtain ⟨h₁, hk₁, hinv₁, -⟩ := Kernel.kmalloc_served hinv (n := 5) (a := 0xC0000000) (by decide)
    (by decide) (by decide : _ = some (_, [⟨0xC0000000, 24, false⟩, ⟨0xC0000018, 0xFFFE8, true⟩]))
  obtain ⟨h₂, hk₂, -⟩ := @Kernel.kmalloc_served { k with heap := h₁ } _ _ 8 0xC0000018 hinv₁
    (by decide) (by decide) (by decide : _ = some (_, [⟨0xC0000000, 24, false⟩,
      ⟨0xC0000018, 24, false⟩, ⟨0xC0000030, 0xFFFD0, true⟩]))
  have hn₁ : next ⟨k, []⟩ (.kmalloc 5) = ⟨{ k with heap := h₁ }, [(0xC0000010, 5)]⟩ := by
    rw [next, hk₁]
    rfl
  have hn₂ : next ⟨{ k with heap := h₁ }, [(0xC0000010, 5)]⟩ (.kmalloc 8)
      = ⟨{ k with heap := h₂ }, [(0xC0000028, 8), (0xC0000010, 5)]⟩ := by
    rw [next, hk₂]
    rfl
  refine ⟨[Act.kmalloc 5, .kmalloc 8].foldl next ⟨k, []⟩, ⟨_, _, _, _, _, _, hboot, ?_, rfl⟩, ?_⟩
  · exact ⟨⟨by decide, by decide⟩, ⟨by decide, by decide⟩, trivial⟩
  · rw [List.foldl_cons, List.foldl_cons, hn₁, hn₂]
    rfl

/-- In a heap that has outgrown the address space no `kfree` of what is held does anything. -/
theorem foldl_kfree_capped {h : Heap} (hc : Capped h bs) (ptrs : List Nat)
    (hptrs : ∀ q ∈ ptrs, h.heapStart + 16 ≤ q ∧ q < 2 ^ 32) : ptrs.foldl Heap.kfree h = h := by
  induction ptrs with
  | nil => rfl
  | cons q ptrs ih =>
    obtain ⟨hlow, hhigh⟩ := hptrs q List.mem_cons_self
    rw [List.foldl_cons, hc.kfree hlow hhigh]
    exact ih fun r hr => hptrs r (List.mem_cons_of_mem _ hr)

/-- After any number of frees of what is held, a pointer that has been freed is dead. -/
theorem RunInv.kfree_again (hi : RunInv s bs all) (he : e ∈ s.live) (qs : List (Nat × Nat))
    (hqs : ∀ q ∈ qs, q ∈ s.live) :
    Heap.kfree ((qs.map Prod.fst).foldl Heap.kfree (Heap.kfree s.kernel.heap e.1)) e.1
      = (qs.map Prod.fst).foldl Heap.kfree (Heap.kfree s.kernel.heap e.1) := by
  have hgiven : ∀ q ∈ s.live, Given s.kernel.heap bs q.1 := by
    intro q hq
    obtain ⟨b, hb, hfree, hptr, -⟩ := hi.block hq
    exact Or.inl ⟨b, hb, hfree, hptr⟩
  have hptrs : ∀ q ∈ s.live, 0xC0000000 + 16 ≤ q.1 ∧ q.1 < 2 ^ 32 := by
    intro q hq
    obtain ⟨b, hb, -, hptr, -⟩ := hi.block hq
    obtain ⟨g, hinv, -⟩ := hi.sound.view
    have hrange := hi.sound.range hb
    have hsize := (hinv.rep.sizes b hb).1
    omega
  cases hi.sound with
  | below inv _ _ high =>
    refine Heap.kfree_again inv high (hgiven e he) _ fun q hq => ?_
    obtain ⟨f, hf, rfl⟩ := List.mem_map.mp hq
    exact hgiven f (hqs f hf)
  | capped past =>
    rw [← past.start] at hptrs
    have hnoop := past.kfree (hptrs e he).1 (hptrs e he).2
    rw [hnoop, foldl_kfree_capped past _ fun q hq => ?_, hnoop]
    obtain ⟨f, hf, rfl⟩ := List.mem_map.mp hq
    exact hptrs f (hqs f hf)

/-- **Freeing a pointer again is a no-op**, in every state a run reaches and however many of the
allocations held (in any order, and as often as one likes) have been freed in between. -/
theorem kfree_twice (s : State) (hs : Reachable s) (e : Nat × Nat) (he : e ∈ s.live)
    (qs : List (Nat × Nat)) (hqs : ∀ q ∈ qs, q ∈ s.live) :
    Heap.kfree ((qs.map Prod.fst).foldl Heap.kfree (Heap.kfree s.kernel.heap e.1)) e.1
      = (qs.map Prod.fst).foldl Heap.kfree (Heap.kfree s.kernel.heap e.1) := by
  obtain ⟨bs, all, hi⟩ := hs.inv
  exact hi.kfree_again he qs hqs

/-- With two allocations: the first one freed, the second one freed, the first one freed again. -/
theorem kfree_twice_two : ∃ s, Reachable s ∧ s.live = [(0xC0000028, 8), (0xC0000010, 5)] ∧
    Heap.kfree (Heap.kfree (Heap.kfree s.kernel.heap 0xC0000010) 0xC0000028) 0xC0000010
      = Heap.kfree (Heap.kfree s.kernel.heap 0xC0000010) 0xC0000028 := by
  obtain ⟨s, hs, hlive⟩ := exists_two
  refine ⟨s, hs, hlive, kfree_twice s hs (0xC0000010, 5) ?_ [(0xC0000028, 8)] ?_⟩ <;>
    rw [hlive] <;> decide

end HeapRun

end FlowOS
