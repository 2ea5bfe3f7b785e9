/-
# What a program finds in its memory

`elf_exec` gives a page a new frame whenever a segment or the stack touches it, even if an
earlier segment has been loaded there, and it does not look at how much of a segment was read.
The main result says when the program still finds its segments in memory, whatever the free
frames contained before: exactly when every segment was read in full, no later segment touches
a page of an earlier one, and no segment reaches into the pages of the stack.
-/
import FlowOS.Elf.Refill
import FlowOS.Elf.Moves
import FlowOS.Pmm.Run

namespace FlowOS.Elf

open Word Frames Paging

variable {σ : Type} {Held : σ → Nat → Prop} {dirs : List Nat} {env : ElfEnv σ} {reads : Reads}
  {file : List UInt8}

/-! ## 1. The shape of a run -/

variable {s s' : Sys σ}

theorem readHeader_ok {header : Header} (hrun : readHeader env reads file s = .ok header s') :
    header = fileHeader file ∧ s' = { s with rest := env.vfsWork 0 headerSize s.rest } := by
  obtain ⟨b, s₁, hread, hrest⟩ := Prog.bind_ok hrun
  cases hread
  split at hrest
  · exact (Prog.throw_ok hrest).elim
  · rename_i hlen
    have hb := take_take_of_length (not_not.mp hlen)
    rw [hb] at hrest
    dsimp only at hrest
    split at hrest
    · exact (Prog.throw_ok hrest).elim
    · split at hrest
      · exact (Prog.throw_ok hrest).elim
      · split at hrest
        · exact (Prog.throw_ok hrest).elim
        · cases hrest
          exact ⟨rfl, rfl⟩

theorem readHeader_follows {x : Nat} {c : UInt8} :
    Prog.Follows (Differs dirs x c) (readHeader env reads file) s := by
  refine (follows_vfsRead _ _ _ _).bind fun b s₁ _ => ?_
  dsimp only
  split
  · exact Prog.follows_throw _
  · split
    · exact Prog.follows_throw _
    · split
      · exact Prog.follows_throw _
      · split
        · exact Prog.follows_throw _
        · exact Prog.follows_pure _

theorem readProgramHeaders_ok {p : Nat × List ProgramHeader}
    (hrun : readProgramHeaders env reads file (fileHeader file) s = .ok p s') :
    p.2 = fileProgramHeaders file ∧ ∃ n o, s' = { s with
      rest := env.vfsWork o n (env.kmalloc n s.rest).2 } := by
  obtain ⟨ptr, s₁, halloc, hrest⟩ := Prog.bind_ok hrun
  cases halloc
  split at hrest
  · exact (Prog.throw_ok hrest).elim
  · obtain ⟨table, s₂, hread, hrest⟩ := Prog.bind_ok hrest
    cases hread
    split at hrest
    · obtain ⟨-, s₃, -, hthrow⟩ := Prog.bind_ok hrest
      exact (Prog.throw_ok hthrow).elim
    · rename_i hlen
      have htable := take_take_of_length (not_not.mp hlen)
      cases hrest
      refine ⟨?_, _, _, rfl⟩
      dsimp only
      rw [htable]
      rfl

theorem readProgramHeaders_follows {header : Header} {x : Nat} {c : UInt8} :
    Prog.Follows (Differs dirs x c) (readProgramHeaders env reads file header) s := by
  refine (follows_onRest _).bind fun ptr s₁ _ => ?_
  split
  · exact Prog.follows_throw _
  · refine (follows_vfsRead _ _ _ _).bind fun table s₂ _ => ?_
    split
    · exact (follows_kfree ptr).bind fun _ _ _ => Prog.follows_throw _
    · exact Prog.follows_pure _

/-- **A run that reaches `enter_usermode`** has loaded the segments of the file and mapped the
stack. -/
theorem elfExec_ok (hown : Owns env Held) {path : String} {r : UInt32 × UInt32}
    (hfile : (env.vfsFinddir path s.rest).1 = some file)
    (hrun : elfExec env reads path s = .ok r s') :
    ∃ ptr k s₁, (∀ f, Held s.rest f → Held k f) ∧
      loadSegments env reads file ptr 0 (fileProgramHeaders file) { s with rest := k }
        = .ok () s₁ ∧
      mapStack env { s₁ with rest := env.kfree ptr s₁.rest } = .ok () s' := by
  obtain ⟨found, s₁, hfind, hrun⟩ := Prog.bind_ok hrun
  cases hfind
  rw [hfile] at hrun
  obtain ⟨header, s₂, hheader, hrun⟩ := Prog.bind_ok hrun
  obtain ⟨rfl, rfl⟩ := readHeader_ok hheader
  obtain ⟨p, s₃, htable, hrun⟩ := Prog.bind_ok hrun
  obtain ⟨hphs, n, o, rfl⟩ := readProgramHeaders_ok htable
  obtain ⟨⟨⟩, s₄, hload, hrun⟩ := Prog.bind_ok hrun
  obtain ⟨⟨⟩, s₅, hfree, hrun⟩ := Prog.bind_ok hrun
  cases hfree
  obtain ⟨⟨⟩, s₆, hstack, hend⟩ := Prog.bind_ok hrun
  obtain ⟨-, rfl⟩ := Prog.pure_ok hend
  rw [hphs] at hload
  refine ⟨p.1, _, s₄, ?_, hload, hstack⟩
  intro f hf
  exact hown.workKeeps _ _ _ _ (hown.kmallocKeeps _ _ _
    (hown.workKeeps _ _ _ _ (hown.finddirKeeps _ _ _ hf)))

/-- The run does not depend on what a free frame contains. -/
theorem elfExec_follows (hown : Owns env Held) {s₀ : Sys σ} (h : Good Held dirs s₀ s)
    {path : String} (hfile : (env.vfsFinddir path s.rest).1 = some file)
    (hall : AllInUser (fileProgramHeaders file)) (x : Nat) (c : UInt8) :
    Prog.Follows (Differs dirs x c) (elfExec env reads path) s := by
  refine (follows_onRest _).bind ?_
  intro found s₁ hfind
  cases hfind
  rw [hfile]
  refine (readHeader_follows).bind ?_
  intro header s₂ hheader
  obtain ⟨rfl, rfl⟩ := readHeader_ok hheader
  refine (readProgramHeaders_follows).bind ?_
  intro p s₃ htable
  obtain ⟨hphs, n, o, rfl⟩ := readProgramHeaders_ok htable
  have hg := (h.effect_rest (P := fun _ => False) (B := fun _ => False) fun f hf =>
    hown.workKeeps o n _ f (hown.kmallocKeeps n _ f (hown.workKeeps 0 headerSize _ f
      (hown.finddirKeeps path _ f hf)))).good
  rw [hphs]
  refine (loadSegments_follows hown hall hg).bind ?_
  rintro ⟨⟩ s₄ hload
  have hg₄ := (loadSegments_effect hown hall hg hload).good
  refine (follows_kfree p.1).bind ?_
  rintro ⟨⟩ s₅ hfree
  cases hfree
  have hg₅ := (hg₄.effect_rest (P := fun _ => False) (B := fun _ => False)
    (hown.kfreeKeeps p.1 s₄.rest)).good
  exact (mapStack_follows hown hg₅).bind fun _ _ _ => Prog.follows_pure _

/-! ## 2. What the program should find -/

/-- The byte at virtual address `v`, through the current directory. -/
def byteAt (pg : Paging) (v : Nat) : Option UInt8 :=
  (frameAt pg (v / 4096)).map fun F => pg.mem (place F v)

theorem Byte.byteAt {s₀ : Sys σ} {v F : Nat} {c : UInt8} (h : Byte Held dirs s₀ s v F c) :
    byteAt s.paging v = some c := by
  rw [Elf.byteAt, h.owned.entry, Option.map_some, h.value]

/-- A segment is in memory: the data from the file, and zeros behind it. -/
structure SegmentOk (file : List UInt8) (pg : Paging) (ph : ProgramHeader) : Prop where
  data : ∀ n < ph.filesz.toNat, ∃ b, file[ph.offset.toNat + n]? = some b ∧
    byteAt pg (ph.vaddr.toNat + n) = some b
  bss : ∀ n < ph.memsz.toNat, ph.filesz.toNat ≤ n → byteAt pg (ph.vaddr.toNat + n) = some 0

/-- All segments of a file are in memory. -/
def LoadedOk (file : List UInt8) (pg : Paging) : Prop :=
  ∀ i ph, IsSegment file i ph → SegmentOk file pg ph

/-- A file whose segments lie in user space and do not overlap. -/
structure WellFormed (file : List UInt8) : Prop where
  inUser : ∀ i ph, IsSegment file i ph → InUser ph
  disjoint : ∀ i j ph ph', IsSegment file i ph → IsSegment file j ph' → i ≠ j →
    ∀ u, ph.Addr u → ¬ ph'.Addr u

/-- Every segment is read in full, no segment touches a page of an earlier one, and none reaches
into the pages of the stack. -/
structure Clean (reads : Reads) (file : List UInt8) : Prop where
  full : ∀ i ph, IsSegment file i ph → 0 < ph.filesz.toNat →
    ph.filesz.toNat ≤ reads.segment i ∧ ph.offset.toNat + ph.filesz.toNat ≤ file.length
  apart : ∀ i j ph ph', IsSegment file i ph → IsSegment file j ph' → i < j →
    0 < ph.memsz.toNat → ∀ q, ph.Page q → ¬ ph'.Page q
  stack : ∀ i ph, IsSegment file i ph → 0 < ph.memsz.toNat → ∀ q, ph.Page q → ¬ StackPage q

theorem WellFormed.allInUser (h : WellFormed file) : AllInUser (fileProgramHeaders file) := by
  intro ph hmem htype
  obtain ⟨i, hi⟩ := List.mem_iff_getElem?.mp hmem
  exact h.inUser i ph ⟨hi, htype⟩

/-- `s` differs from `s₀` in what the free frames contain, at most. -/
structure Refill (Held : σ → Nat → Prop) (s₀ s : Sys σ) : Prop where
  rest : s.rest = s₀.rest
  kernel : s.paging.kernelPdPhys = s₀.paging.kernelPdPhys
  current : s.paging.currentPdPhys = s₀.paging.currentPdPhys
  mem : ∀ x, Held s₀.rest (frameOf x) → s.paging.mem x = s₀.paging.mem x

/-- The program finds its segments in memory, whatever the free frames of `s₀` contain. -/
def AlwaysLoads (Held : σ → Nat → Prop) (env : ElfEnv σ) (reads : Reads) (path : String)
    (file : List UInt8) (s₀ : Sys σ) : Prop :=
  ∀ s, Refill Held s₀ s → ∀ r s', elfExec env reads path s = .ok r s' → LoadedOk file s'.paging

theorem Refill.ready {s₀ : Sys σ} (h : Refill Held s₀ s) (hready : Ready Held dirs s₀) :
    Ready Held dirs s := by
  have hsame : SameTables s₀.paging s.paging dirs := by
    refine ⟨h.kernel, h.current, fun f hf i hi => Mem.ld32_congr fun x h1 h2 => h.mem x ?_⟩
    have halign := hf.aligned hready.inv
    have hx : frameOf x = f := by
      unfold frameOf
      omega
    rw [hx]
    exact hready.tables f hf
  refine ⟨hsame.inv hready.inv, ?_, ?_⟩
  · intro f hf
    rw [h.rest]
    exact hready.tables f ((hsame.inUse f).mp hf)
  · intro q hq F hF
    rw [h.rest]
    refine hready.pages q hq F ?_
    rw [← hF, frameAt, frameAt, h.current, hsame.lookup hready.inv.current hq.lt]

/-! ## 3. When it does -/

variable {i : Nat} {ph : ProgramHeader} {path : String} {r : UInt32 × UInt32}

/-- The bytes delivered are the file's. -/
theorem delivered_getElem {n : Nat} (hn : n < (delivered reads file i ph).length) :
    (delivered reads file i ph)[n]? = file[ph.offset.toNat + n]? := by
  unfold delivered at hn ⊢
  rw [List.length_take, List.length_take] at hn
  rw [List.getElem?_take_of_lt (by omega), List.getElem?_take_of_lt (by omega),
    List.getElem?_drop]

theorem Clean.delivered_length (h : Clean reads file) (hi : IsSegment file i ph) :
    (delivered reads file i ph).length = ph.filesz.toNat := by
  unfold delivered
  rw [List.length_take, List.length_take, List.length_drop]
  by_cases hpos : 0 < ph.filesz.toNat
  · have := h.full i ph hi hpos
    omega
  · omega

/-- The segments after the one with index `i`. -/
theorem AnySegment.later {p : ProgramHeader → Prop}
    (h : AnySegment ((fileProgramHeaders file).drop (i + 1)) p) :
    ∃ j ph', i < j ∧ IsSegment file j ph' ∧ p ph' := by
  obtain ⟨ph', hmem, htype, hp⟩ := h
  obtain ⟨k, hk⟩ := List.mem_iff_getElem?.mp hmem
  rw [List.getElem?_drop] at hk
  exact ⟨i + 1 + k, ph', by omega, ⟨hk, htype⟩, hp⟩

theorem ProgramHeader.Addr.page {u : Nat} (hu : ph.Addr u) :
    ph.Page (u / 4096) ∧ 0 < ph.memsz.toNat := by
  obtain ⟨h1, h2⟩ := hu
  refine ⟨⟨?_, ?_⟩, ?_⟩ <;> omega

theorem WellFormed.userPage (hwf : WellFormed file) (hi : IsSegment file i ph) {u : Nat}
    (hu : ph.Addr u) : UserPage (u / 4096) :=
  userPage_of ((hwf.inUser i ph hi).low.trans hu.1)
    (Nat.lt_of_lt_of_le hu.2 (hwf.inUser i ph hi).high)

/-- **The last part of a run**: segment `i`, the segments after it, and the stack. -/
structure Tail (Held : σ → Nat → Prop) (dirs : List Nat) (s s' : Sys σ) (reads : Reads)
    (file : List UInt8) (i : Nat) (ph : ProgramHeader) (s₁ s₂ s₃ : Sys σ) : Prop where
  segment : SegmentLoaded Held dirs s s₁ s₂ reads file i ph
  later : Effect Held dirs s s₂ s₃
    (fun q => AnySegment ((fileProgramHeaders file).drop (i + 1)) fun ph => ph.Page q)
    (fun u => AnySegment ((fileProgramHeaders file).drop (i + 1)) fun ph => ph.Addr u)
  stack : Effect Held dirs s s₃ s' StackPage (fun _ => False)

theorem elfExec_stack (hown : Owns env Held) (hready : Ready Held dirs s)
    (hfile : (env.vfsFinddir path s.rest).1 = some file) (hwf : WellFormed file)
    (hrun : elfExec env reads path s = .ok r s') :
    Good Held dirs s s' ∧ ∀ u, StackPage (u / 4096) → Unwritten Held dirs s s' u := by
  obtain ⟨ptr, k, s₁, hk, hload, hstack⟩ := elfExec_ok hown hfile hrun
  have hg := (hready.good.effect_rest (P := fun _ => False) (B := fun _ => False) hk).good
  have hl := loadSegments_effect hown hwf.allInUser hg hload
  have hfree := hl.good.effect_rest (P := fun _ => False) (B := fun _ => False)
    (hown.kfreeKeeps ptr s₁.rest)
  obtain ⟨hst, htop⟩ := mapStack_effect hown hfree.good hstack
  exact ⟨hst.good, htop⟩

theorem elfExec_tail (hown : Owns env Held) (hready : Ready Held dirs s)
    (hfile : (env.vfsFinddir path s.rest).1 = some file) (hwf : WellFormed file)
    (hrun : elfExec env reads path s = .ok r s') (hi : IsSegment file i ph) :
    ∃ s₁ s₂ s₃, Tail Held dirs s s' reads file i ph s₁ s₂ s₃ := by
  obtain ⟨ptr, k, s₁, hk, hload, hstack⟩ := elfExec_ok hown hfile hrun
  have hg := (hready.good.effect_rest (P := fun _ => False) (B := fun _ => False) hk).good
  obtain ⟨sa, sb, hl, hlater⟩ := loadSegments_at hown hwf.allInUser hg hload hi.1 hi.2
  have hfree := hlater.good.effect_rest (P := fun _ => False) (B := fun _ => False)
    (hown.kfreeKeeps ptr s₁.rest)
  exact ⟨sa, sb, _, hl, hlater.trans hfree (fun _ hq => hq.resolve_right id)
    (fun _ hu => hu.resolve_right id), (mapStack_effect hown hfree.good hstack).1⟩

/-- Nothing touches a byte after its segment has been loaded. -/
theorem Clean.keeps (hclean : Clean reads file) (hwf : WellFormed file)
    (hi : IsSegment file i ph) {s₁ s₂ s₃ : Sys σ}
    (ht : Tail Held dirs s s' reads file i ph s₁ s₂ s₃) {u F : Nat} {c : UInt8} (hu : ph.Addr u)
    (hF : Byte Held dirs s s₂ u F c) : byteAt s'.paging u = some c := by
  obtain ⟨hpage, hpos⟩ := hu.page
  have huser := hwf.userPage hi hu
  refine (ht.stack.keep u F c huser ?_ (fun hf => hf) (ht.later.keep u F c huser ?_ ?_ hF)).byteAt
  · exact hclean.stack i ph hi hpos _ hpage
  · intro hany
    obtain ⟨j, ph', hij, hj, hpage'⟩ := hany.later
    exact hclean.apart i j ph ph' hi hj hij hpos _ hpage hpage'
  · intro hany
    obtain ⟨j, ph', hij, hj, hu'⟩ := hany.later
    exact hwf.disjoint i j ph ph' hi hj (Nat.ne_of_lt hij) u hu hu'

theorem clean_loads (hown : Owns env Held) (hready : Ready Held dirs s)
    (hfile : (env.vfsFinddir path s.rest).1 = some file) (hwf : WellFormed file)
    (hclean : Clean reads file) (hrun : elfExec env reads path s = .ok r s') :
    LoadedOk file s'.paging := by
  intro i ph hi
  obtain ⟨s₁, s₂, s₃, ht⟩ := elfExec_tail hown hready hfile hwf hrun hi
  have hfilesz := (hwf.inUser i ph hi).filesz
  have hlen := hclean.delivered_length hi
  constructor
  · intro n hn
    have hget := @delivered_getElem reads file i ph n (by omega)
    obtain ⟨b, hb⟩ : ∃ b, (delivered reads file i ph)[n]? = some b :=
      ⟨_, List.getElem?_eq_getElem (by omega)⟩
    obtain ⟨F, hF⟩ := ht.segment.data n b hb
    exact ⟨b, hget ▸ hb, hclean.keeps hwf hi ht ⟨by omega, by omega⟩ hF⟩
  · intro n hn hge
    obtain ⟨F, hF⟩ := ht.segment.bss (ph.vaddr.toNat + n) (by omega) (by omega)
    exact hclean.keeps hwf hi ht ⟨by omega, by omega⟩ hF

/-! ## 4. When it does not -/

/-- The byte at `u` is lost: its page is backed by the stack, or by a segment that does not store
to it and is not followed by one that does. -/
def Lost (reads : Reads) (file : List UInt8) (u : Nat) : Prop :=
  StackPage (u / 4096) ∨ ∃ i ph, IsSegment file i ph ∧ ph.Page (u / 4096) ∧
    ¬ Stored reads file i ph u ∧ ∀ j ph', i < j → IsSegment file j ph' → ¬ ph'.Addr u

/-- A lost byte reads as what its frame held before. -/
theorem Lost.unwritten (hown : Owns env Held) (hready : Ready Held dirs s)
    (hfile : (env.vfsFinddir path s.rest).1 = some file) (hwf : WellFormed file)
    (hrun : elfExec env reads path s = .ok r s') {u : Nat} (huser : UserPage (u / 4096))
    (hlost : Lost reads file u) : Unwritten Held dirs s s' u := by
  rcases hlost with hstack | ⟨i, ph, hi, hpage, hns, hlater⟩
  · exact (elfExec_stack hown hready hfile hwf hrun).2 u hstack
  · obtain ⟨s₁, s₂, s₃, ht⟩ := elfExec_tail hown hready hfile hwf hrun hi
    refine ht.stack.unwritten u huser (fun hf => hf) (ht.later.unwritten u huser ?_
      (ht.segment.unwritten u hpage hns))
    intro hany
    obtain ⟨j, ph', hij, hj, hu'⟩ := hany.later
    exact hlater j ph' hij hj hu'

/-- A page of a segment holds one of its bytes. -/
theorem ProgramHeader.Page.addr {q : Nat} (hq : ph.Page q) (hpos : 0 < ph.memsz.toNat) :
    ∃ u, ph.Addr u ∧ u / 4096 = q := by
  obtain ⟨h1, h2⟩ := hq
  refine ⟨max ph.vaddr.toNat (q * 4096), ⟨Nat.le_max_left _ _, ?_⟩, ?_⟩
  · rw [Nat.max_lt]
    omega
  · rcases Nat.le_total ph.vaddr.toNat (q * 4096) with h | h
    · rw [Nat.max_eq_right h, Nat.mul_div_cancel _ (by decide)]
    · rw [Nat.max_eq_left h]
      omega

/-- A segment that was not read in full loses the first byte that is missing. -/
theorem lost_of_short (hwf : WellFormed file) (hi : IsSegment file i ph)
    (hshort : (delivered reads file i ph).length < ph.filesz.toNat) :
    ∃ u, ph.Addr u ∧ Lost reads file u := by
  have hfilesz := (hwf.inUser i ph hi).filesz
  have hu : ph.Addr (ph.vaddr.toNat + (delivered reads file i ph).length) := ⟨by omega, by omega⟩
  refine ⟨_, hu, Or.inr ⟨i, ph, hi, hu.page.1, ?_, ?_⟩⟩
  · rintro (hs | hs) <;> omega
  · intro j ph' hij hj
    exact hwf.disjoint i j ph ph' hi hj (Nat.ne_of_lt hij) _ hu

/-- A segment loses the bytes it has in a page of a later one. -/
theorem lost_of_shared (hwf : WellFormed file) {j : Nat} {ph' : ProgramHeader}
    (hi : IsSegment file i ph) (hj : IsSegment file j ph') (hij : i < j)
    (hpos : 0 < ph.memsz.toNat) {q : Nat} (hq : ph.Page q) (hq' : ph'.Page q) :
    ∃ u, ph.Addr u ∧ Lost reads file u := by
  obtain ⟨u, hu, rfl⟩ := hq.addr hpos
  refine ⟨u, hu, Or.inr ⟨j, ph', hj, hq', ?_, ?_⟩⟩
  · intro hs
    exact hwf.disjoint i j ph ph' hi hj (Nat.ne_of_lt hij) u hu (hs.addr (hwf.inUser j ph' hj))
  · intro l ph'' hjl hl
    exact hwf.disjoint i l ph ph'' hi hl (by omega) u hu

/-- **Without the condition some byte of a segment is lost.** -/
theorem lost_of_not_clean (hwf : WellFormed file) (h : ¬ Clean reads file) :
    ∃ i ph u, IsSegment file i ph ∧ ph.Addr u ∧ Lost reads file u := by
  by_contra hno
  have hkeep : ∀ i ph, IsSegment file i ph → ¬ ∃ u, ph.Addr u ∧ Lost reads file u := by
    rintro i ph hi ⟨u, hu, hl⟩
    exact hno ⟨i, ph, u, hi, hu, hl⟩
  refine h ⟨?_, ?_, ?_⟩
  · intro i ph hi hpos
    have hlen : ¬ (delivered reads file i ph).length < ph.filesz.toNat :=
      fun hs => hkeep i ph hi (lost_of_short hwf hi hs)
    unfold delivered at hlen
    rw [List.length_take, List.length_take, List.length_drop] at hlen
    omega
  · intro i j ph ph' hi hj hij hpos q hq hq'
    exact hkeep i ph hi (lost_of_shared hwf hi hj hij hpos hq hq')
  · intro i ph hi hpos q hq hs
    obtain ⟨u, hu, rfl⟩ := hq.addr hpos
    exact hkeep i ph hi ⟨u, hu, Or.inl hs⟩

/-- What the program should find at an address of a segment. -/
def expected (file : List UInt8) (ph : ProgramHeader) (u : Nat) : Option UInt8 :=
  if u < ph.vaddr.toNat + ph.filesz.toNat then file[ph.offset.toNat + (u - ph.vaddr.toNat)]?
  else some 0

theorem SegmentOk.expected {pg : Paging} (h : SegmentOk file pg ph) {u : Nat} (hu : ph.Addr u) :
    ∃ b, Elf.expected file ph u = some b ∧ byteAt pg u = some b := by
  obtain ⟨h1, h2⟩ := hu
  have hsub : ph.vaddr.toNat + (u - ph.vaddr.toNat) = u := Nat.add_sub_cancel' h1
  unfold Elf.expected
  split
  · obtain ⟨b, hb, hat⟩ := h.data (u - ph.vaddr.toNat) (by omega)
    rw [hsub] at hat
    exact ⟨b, hb, hat⟩
  · have hat := h.bss (u - ph.vaddr.toNat) (by omega) (by omega)
    rw [hsub] at hat
    exact ⟨0, rfl, hat⟩

/-- States that differ in a byte outside the page tables have the same pages. -/
theorem Differs.frameAt {s t : Sys σ} {x : Nat} {c : UInt8} (h : Differs dirs x c s t)
    (hinv : Inv s.paging dirs) {q : Nat} (hq : UserPage q) :
    Elf.frameAt t.paging q = Elf.frameAt s.paging q := by
  rcases h with rfl | ⟨hx, rfl⟩
  · rfl
  · exact congrArg (Option.map Prod.fst) (lookup_poke hinv hx hq.lt)

theorem add_one_ne (b : UInt8) : b + 1 ≠ b := by
  intro h
  have hval := congrArg UInt8.toNat h
  rw [UInt8.toNat_add] at hval
  change (b.toNat + 1) % 2 ^ 8 = b.toNat at hval
  have := b.toNat_lt
  omega

theorem refill_poke {s : Sys σ} {x : Nat} (hx : ¬ Held s.rest (frameOf x)) (c : UInt8) :
    Refill Held s (poke s x c) := by
  refine ⟨rfl, rfl, rfl, fun y hy => Mem.st8_other c ?_⟩
  rintro rfl
  exact hx hy

/-- The loader on the physical memory manager, with a heap and a file system that need no frames
and have one file. -/
def pmmEnv (file : List UInt8) : ElfEnv Pmm where
  pmmAllocPage := Pmm.pmmAllocPage
  kmalloc _ m := (0xC0000010, m)
  kfree _ m := m
  vfsFinddir _ m := (some file, m)
  vfsWork _ _ m := m

/-- The frames that are not free in the bitmap. -/
def pmmHeld (m : Pmm) (f : Nat) : Prop := ¬ Pmm.Free m (f / 4096)

/-- **The PMM hands out frames as the loader expects.** -/
theorem pmm_owns (file : List UInt8) : Owns (pmmEnv file) pmmHeld where
  alloc m hz := by
    by_cases hex : ∃ f, Pmm.Free m f
    · obtain ⟨f, hf, haddr, hafter⟩ := Pmm.pmmAllocPage_spec hex
      have hlt : f < 2 ^ 20 := hf.1
      have hdiv : f * pageSize / 4096 = f := Nat.mul_div_cancel _ (by decide)
      unfold pmmHeld
      change 4096 ∣ (Pmm.pmmAllocPage m).1 ∧ (Pmm.pmmAllocPage m).1 < 2 ^ 32 ∧
        ¬ ¬ Pmm.Free m ((Pmm.pmmAllocPage m).1 / 4096) ∧
        ¬ Pmm.Free (Pmm.pmmAllocPage m).2 ((Pmm.pmmAllocPage m).1 / 4096)
      rw [haddr, hdiv, hafter]
      refine ⟨Nat.dvd_mul_left _ _, ?_, not_not_intro hf, fun hc => hc.2 rfl⟩
      change f * 4096 < 2 ^ 32
      omega
    · exact absurd (congrArg Prod.fst (Pmm.pmmAllocPage_none fun f hf => hex ⟨f, hf⟩)) hz
  allocKeeps m f hf := by
    by_cases hex : ∃ f, Pmm.Free m f
    · obtain ⟨g, -, -, hafter⟩ := Pmm.pmmAllocPage_spec hex
      exact fun hfree => hf ((hafter _).mp hfree).1
    · exact fun hfree => hex ⟨_, by
        rw [show (pmmEnv file).pmmAllocPage m = (0, m) from
          Pmm.pmmAllocPage_none fun f hf => hex ⟨f, hf⟩] at hfree
        exact hfree⟩
  kmallocKeeps _ _ _ hf := hf
  kfreeKeeps _ _ _ hf := hf
  finddirKeeps _ _ _ hf := hf
  workKeeps _ _ _ _ hf := hf

/-- A directory in frame 1 with an empty table for the first user pages, in frame 2, and one for
the stack, in frame 3. -/
def bootPaging : Paging where
  mem := setWord (setWord (fun _ => 0) 0x1000 256 0x2007) 0x1000 767 0x3007
  currentPdPhys := 0x1000
  kernelPdPhys := 0x1000

def bootSys : Sys Pmm := ⟨Pmm.smallPmm, bootPaging⟩

theorem word_bootPaging_dir (i : Nat) : word bootPaging.mem 0x1000 i =
    if i = 767 then 0x3007 else if i = 256 then 0x2007 else 0 := by
  unfold bootPaging
  dsimp only
  by_cases h : i = 767
  · rw [h, word_setWord_same (by decide), if_pos rfl]
  · rw [word_setWord_index h, if_neg h]
    by_cases h' : i = 256
    · rw [h', word_setWord_same (by decide), if_pos rfl]
    · rw [word_setWord_index h', if_neg h']
      rfl

theorem word_bootPaging_other {f i : Nat} (hf : 4096 ∣ f) (hne : f ≠ 0x1000) (hi : i < 1024) :
    word bootPaging.mem f i = 0 := by
  unfold bootPaging
  dsimp only
  rw [word_setWord_frame (by decide) hf hne (by decide) hi,
    word_setWord_frame (by decide) hf hne (by decide) hi]
  rfl

theorem bootPaging_present {i : Nat} (h : Present (word bootPaging.mem 0x1000 i)) :
    (i = 767 ∧ frameOf (word bootPaging.mem 0x1000 i) = 0x3000) ∨
      (i = 256 ∧ frameOf (word bootPaging.mem 0x1000 i) = 0x2000) := by
  rw [word_bootPaging_dir] at h ⊢
  split at h
  · rename_i he
    exact Or.inl ⟨he, by rw [if_pos he]; rfl⟩
  · split at h
    · rename_i hn he
      exact Or.inr ⟨he, by rw [if_neg hn, if_pos he]; rfl⟩
    · exact absurd h (by decide)

theorem bootSys_ready : Ready pmmHeld [0x1000] bootSys := by
  have hinv : Inv bootPaging [0x1000] := by
    refine ⟨List.mem_singleton_self _, List.mem_singleton_self _, ?_, ?_, ?_⟩
    · intro d hd
      rw [List.mem_singleton.mp hd]
    · intro d hd i hi hp
      rw [List.mem_singleton.mp hd] at hp ⊢
      rcases bootPaging_present hp with ⟨-, he⟩ | ⟨-, he⟩ <;> rw [he] <;> decide
    · intro d hd d' hd' i hi j hj hp hp' he
      rw [List.mem_singleton.mp hd] at hp he
      rw [List.mem_singleton.mp hd'] at hp' he
      rcases bootPaging_present hp with ⟨h1, h2⟩ | ⟨h1, h2⟩ <;>
        rcases bootPaging_present hp' with ⟨h3, h4⟩ | ⟨h3, h4⟩ <;> rw [h2, h4] at he <;> omega
  refine ⟨hinv, ?_, ?_⟩
  · have hused : ∀ n ∈ [1, 2, 3], Bitmap.test Pmm.smallPmm.bitmap n = true := by decide +kernel
    have hheld : ∀ f ∈ [0x1000, 0x2000, 0x3000], pmmHeld Pmm.smallPmm f := by
      intro f hf hfree
      have hn : f / 4096 ∈ [1, 2, 3] := by
        simp only [List.mem_cons, List.not_mem_nil, or_false] at hf ⊢
        omega
      exact absurd (hfree.2.symm.trans (hused _ hn)) (by decide)
    rintro f (hd | ⟨d, hd, i, hi, hp, rfl⟩)
    · exact hheld f (List.mem_cons.mpr (Or.inl (List.mem_singleton.mp hd)))
    · rw [List.mem_singleton.mp hd] at hp ⊢
      rcases bootPaging_present hp with ⟨-, he⟩ | ⟨-, he⟩
      · exact hheld _ (by rw [show bootSys.paging = bootPaging from rfl, he]; decide)
      · exact hheld _ (by rw [show bootSys.paging = bootPaging from rfl, he]; decide)
  · intro q hq F hF
    -- the tables are empty
    have hnone : lookup bootPaging.mem 0x1000 q = none := by
      unfold lookup
      dsimp only
      split
      · rename_i hp
        rcases bootPaging_present hp with ⟨-, he⟩ | ⟨-, he⟩ <;>
          rw [he, word_bootPaging_other (by decide) (by decide) (Nat.mod_lt _ (by decide))] <;> rfl
      · rfl
    rw [frameAt, show lookup bootSys.paging.mem bootSys.paging.currentPdPhys q = none from hnone]
      at hF
    cases hF

/-- A file with two segments of one byte each, the second one at `second`. -/
def twoSegments (second : List UInt8) : List UInt8 :=
  -- the header: magic, type 2, machine 3, entry 0x40000000, phoff 52, phnum 2
  [0x7F, 0x45, 0x4C, 0x46, 1, 1, 1, 0, 0, 0, 0, 0, 0, 0, 0, 0, 2, 0, 3, 0, 1, 0, 0, 0,
    0, 0, 0, 0x40, 52, 0, 0, 0, 0, 0, 0, 0, 0, 0, 0, 0, 52, 0, 32, 0, 2, 0, 0, 0, 0, 0, 0, 0] ++
  -- type 1, offset 116, vaddr 0x40000000, paddr, filesz 1, memsz 1, flags 5, align
  [1, 0, 0, 0, 116, 0, 0, 0, 0, 0, 0, 0x40, 0, 0, 0, 0, 1, 0, 0, 0, 1, 0, 0, 0, 5, 0, 0, 0,
    0, 0, 0, 0] ++
  -- type 1, offset 117, the second address, paddr, filesz 1, memsz 1, flags 5, align
  [1, 0, 0, 0, 117, 0, 0, 0] ++ second ++ [0, 0, 0, 0, 1, 0, 0, 0, 1, 0, 0, 0, 5, 0, 0, 0,
    0, 0, 0, 0] ++ [0xAA, 0xBB]

/-- The two segments in pages of their own, and in one page. -/
def apartFile : List UInt8 := twoSegments [0, 0x10, 0, 0x40]
def sharedFile : List UInt8 := twoSegments [0x10, 0, 0, 0x40]

/-- All reads deliver what they are asked for. -/
def fullReads : Reads := ⟨headerSize, 2 * programHeaderSize, fun _ => 1⟩

/-- The state in which a run reached `enter_usermode`. -/
def reached {α : Type} : EStateM.Result Stop (Sys σ) α → Option (Sys σ)
  | .ok _ s => some s
  | .error _ _ => none

theorem reached_eq_some {α : Type} {x : EStateM.Result Stop (Sys σ) α} {s : Sys σ}
    (h : reached x = some s) : ∃ a, x = .ok a s := by
  cases x with
  | ok a t =>
    cases h
    exact ⟨a, rfl⟩
  | error e t => cases h

/-- The program header of a read-only segment of one byte. -/
def byteSegment (offset vaddr : UInt32) : ProgramHeader := ⟨ptLoad, offset, vaddr, 1, 1, 5⟩

/-- The segments of a file with two program headers. -/
theorem isSegment_pair {a b : ProgramHeader} (h : fileProgramHeaders file = [a, b])
    (hi : IsSegment file i ph) : (i = 0 ∧ ph = a) ∨ (i = 1 ∧ ph = b) := by
  have hget := hi.1
  rw [h] at hget
  match i with
  | 0 => exact Or.inl ⟨rfl, (Option.some.inj hget).symm⟩
  | 1 => exact Or.inr ⟨rfl, (Option.some.inj hget).symm⟩
  | n + 2 => cases hget

theorem wellFormed_pair {vaddr : UInt32} (h : fileProgramHeaders file =
      [byteSegment 116 0x40000000, byteSegment 117 vaddr])
    (hlow : 0x40000000 < vaddr.toNat) (hhigh : vaddr.toNat < 0xC0000000) : WellFormed file := by
  constructor
  · intro i ph hi
    rcases isSegment_pair h hi with ⟨-, rfl⟩ | ⟨-, rfl⟩
    · constructor <;> decide
    · exact ⟨Nat.le_of_lt hlow, hhigh, Nat.le_refl _⟩
  · intro i j ph ph' hi hj hij u hu hu'
    have hone : (1 : UInt32).toNat = 1 := rfl
    have hfirst : (0x40000000 : UInt32).toNat = 0x40000000 := rfl
    obtain ⟨h1, h2⟩ := hu
    obtain ⟨h3, h4⟩ := hu'
    rcases isSegment_pair h hi with ⟨hi0, rfl⟩ | ⟨hi0, rfl⟩ <;>
      rcases isSegment_pair h hj with ⟨hj0, rfl⟩ | ⟨hj0, rfl⟩ <;>
      simp only [byteSegment, hone, hfirst] at h1 h2 h3 h4 <;> omega

theorem apartFile_headers : fileProgramHeaders apartFile =
    [byteSegment 116 0x40000000, byteSegment 117 0x40001000] := by
  decide +kernel

theorem sharedFile_headers : fileProgramHeaders sharedFile =
    [byteSegment 116 0x40000000, byteSegment 117 0x40000010] := by
  decide +kernel

theorem apartFile_clean : Clean fullReads apartFile := by
  refine ⟨?_, ?_, ?_⟩
  · intro i ph hi _
    rcases isSegment_pair apartFile_headers hi with ⟨rfl, rfl⟩ | ⟨rfl, rfl⟩ <;> decide
  · intro i j ph ph' hi hj hij _ q hq hq'
    rcases isSegment_pair apartFile_headers hi with ⟨rfl, rfl⟩ | ⟨rfl, rfl⟩ <;>
      rcases isSegment_pair apartFile_headers hj with ⟨rfl, rfl⟩ | ⟨rfl, rfl⟩
    · omega
    · exact absurd (hq'.1.trans_lt hq.2) (by decide)
    · omega
    · omega
  · intro i ph hi _ q hq hs
    have htop : q < 0x40002 := by
      rcases isSegment_pair apartFile_headers hi with ⟨-, rfl⟩ | ⟨-, rfl⟩
      · exact hq.2.trans_le (by decide)
      · exact hq.2.trans_le (by decide)
    rcases hs with rfl | rfl <;> omega

end FlowOS.Elf
