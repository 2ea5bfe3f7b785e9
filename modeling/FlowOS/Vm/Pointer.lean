/-
# Frames used as pointers

`paging.c` reaches tables and directories by using the physical address of their frame as a
pointer.  That is right as long as the current directory maps the page of that number to the frame
of that number, which `paging_init` arranges for the first GiB.  `pmm.c` knows nothing of it: it
hands out the lowest free frame, wherever that is.

`Lands` says that the pointers of a call are right, `Direct` is what the callers and the supply of
frames have to see to, and the counterexample is a machine with 2 GiB whose first GiB is taken.
-/
import FlowOS.Vm.Boot
import FlowOS.Lib.Trace

namespace FlowOS.Pointer

open Word Frames Paging

/-! ## 1. The machine -/

/-- The PMM, the paging state, and the directories made so far. -/
structure State where
  vm : Vm
  dirs : List Nat

/-- The calls of `paging.c` and `pmm.c`. -/
inductive Act
  | mapPage (v p flags : Nat)
  | unmapPage (v : Nat)
  | clonePd
  | switch (pd : Nat)
  | allocPage
  | allocPages (n : Nat)
  | freePage (addr : Nat)
  | freePages (addr n : Nat)

/-- Another state of the PMM. -/
def State.withPmm (s : State) (pmm : Pmm) : State := { s with vm := { s.vm with pmm := pmm } }

/-- The state after a call. -/
def next (s : State) : Act → State
  | .mapPage v p flags => { s with vm := s.vm.mapPage v p flags }
  | .unmapPage v => { s with vm := s.vm.unmapPage v }
  | .clonePd =>
    let r := s.vm.clonePd
    ⟨r.2, if r.1 = 0 then s.dirs else r.1 :: s.dirs⟩
  | .switch pd => { s with vm := s.vm.switch pd }
  | .allocPage => { s with vm := s.vm.allocPage.2 }
  | .allocPages n =>
    match Pmm.pmmAllocPages s.vm.pmm n with
    | some r => s.withPmm r.2
    | none => s
  | .freePage addr => s.withPmm (Pmm.pmmFreePage s.vm.pmm addr)
  | .freePages addr n => s.withPmm (Pmm.pmmFreePages s.vm.pmm addr n)

/-- A frame a client may give back: it is neither a directory nor a table, and not frame 0. -/
def State.MayFree (s : State) (f : Nat) : Prop := f ≠ 0 ∧ ¬ InUse s.vm.paging s.dirs (f * 4096)

/-- What may happen: arguments are 32-bit numbers, only directories that were made are switched
to, and frames that hold the tables are not given back. -/
def Enabled (s : State) : Act → Prop
  | .mapPage v p flags => v < 2 ^ 32 ∧ p < 2 ^ 32 ∧ flags < 0x1000
  | .unmapPage v => v < 2 ^ 32
  | .clonePd => True
  | .switch pd => pd ∈ s.dirs
  | .allocPage => True
  | .allocPages n => n ≤ 2 ^ 20
  | .freePage addr => addr < 2 ^ 32 ∧ s.MayFree (addr / pageSize)
  | .freePages addr n => ∀ i < n, s.MayFree (add32 (addr / pageSize) i)

/-! ## 2. Where the writes go -/

/-- The address `a`, used as a pointer, is translated to `a`. -/
def ToItself (pg : Paging) (a : Nat) : Prop :=
  ∃ flags, lookup pg.mem pg.currentPdPhys (a / 4096) = some (a / 4096, flags)

/-- **The writes of a call land where they should**: `paging_map_page` clears a new table and
writes the entry through the address of the table's frame, `paging_clone_pd` fills the new
directory through that of its frame. -/
def Lands (s : State) : Act → Prop
  | .mapPage v _ flags =>
    let pg := s.vm.paging
    let pdEntry := word pg.mem pg.currentPdPhys (pdIndex v)
    if Present pdEntry then ToItself pg (frameOf pdEntry)
    else
      let ptPhys := s.vm.allocPage.1
      -- cleared before the directory has it, written to afterwards
      ptPhys ≠ 0 → ToItself pg ptPhys ∧ ToItself (addTable pg ptPhys v flags) ptPhys
  | .clonePd => s.vm.allocPage.1 ≠ 0 → ToItself s.vm.paging s.vm.allocPage.1
  | _ => True

/-- A frame below 1 GiB is free, if any is. -/
def LowFrame (m : Pmm) : Prop := ∀ f, Pmm.Free m f → ∃ g < 2 ^ 18, Pmm.Free m g

/-- What keeps the pointers right: while a table or directory is made there is a free frame in the
first GiB, and no call takes the identity map of that GiB apart. -/
def Direct (s : State) : Act → Prop
  | .mapPage v p _ => (v / 4096 < 2 ^ 18 → p / 4096 = v / 4096) ∧
    (¬ Present (word s.vm.paging.mem s.vm.paging.currentPdPhys (pdIndex v)) → LowFrame s.vm.pmm)
  | .unmapPage v => 2 ^ 18 ≤ v / 4096
  | .clonePd => LowFrame s.vm.pmm
  | _ => True

/-! ## 3. The invariant -/

/-- The tables are in the first GiB, and every directory maps that to itself. -/
structure Low (s : State) : Prop where
  tabled : Tabled s.vm s.dirs
  frames : ∀ f, InUse s.vm.paging s.dirs f → f < 2 ^ 30
  identity : ∀ d ∈ s.dirs, ∀ q < 2 ^ 18, ∃ flags, lookup s.vm.paging.mem d q = some (q, flags)

variable {s : State}

theorem Low.toItself (h : Low s) {a : Nat} (ha : a < 2 ^ 30) : ToItself s.vm.paging a :=
  h.identity _ h.tabled.inv.current (a / 4096) (by omega)

/-- The frame that is allocated is in the first GiB. -/
theorem LowFrame.alloc_lt {vm : Vm} (h : LowFrame vm.pmm) (hz : vm.allocPage.1 ≠ 0) :
    vm.allocPage.1 < 2 ^ 30 := by
  obtain ⟨g, hg, hfree⟩ := h _ (Pmm.alloc_addr hz).2.2.1
  have hle := Pmm.pmmAllocPage_le hfree
  simp only [pageSize] at hle
  exact Nat.lt_of_le_of_lt hle (by omega)

theorem low_map (h : Low s) {v p flags : Nat} (ha : Enabled s (.mapPage v p flags))
    (hc : Direct s (.mapPage v p flags)) : Low (next s (.mapPage v p flags)) := by
  obtain ⟨hv, hp, hflags⟩ := ha
  obtain ⟨hsame, hlow⟩ := hc
  refine ⟨h.tabled.map hv hp hflags, ?_, ?_⟩
  · intro f hf
    by_cases hpres : Present (word s.vm.paging.mem s.vm.paging.currentPdPhys (pdIndex v))
    · -- the directory has the table, so no frame is added
      have he : (s.vm.mapPage v p flags).paging = mapInTable s.vm.paging v p flags :=
        congrArg Prod.snd (pagingMapPage_present hpres)
      rw [next, he] at hf
      exact h.frames f ((mapInTable_footprint h.tabled.inv hv hpres p flags).1 f hf)
    · obtain ⟨huse, -, -⟩ :=
        pagingMapPage_footprint h.tabled.inv h.tabled.supplies hv p flags
      rcases huse f hf with hu | ⟨rfl, hz, -⟩
      · exact h.frames f hu
      · exact (hlow hpres).alloc_lt hz
  · intro d hd q hq
    rcases h.tabled.map_cases hv hp hflags with ⟨-, -, he⟩ | ⟨-, hm⟩
    · rw [next, he]
      exact h.identity d hd q hq
    · rw [next, hm.lookup d hd q (by omega)]
      split
      · rename_i hat
        obtain ⟨rfl, -⟩ := hat
        rw [hsame hq]
        exact ⟨_, rfl⟩
      · exact h.identity d hd q hq

theorem low_unmap (h : Low s) {v : Nat} (hv : v < 2 ^ 32) (hhigh : 2 ^ 18 ≤ v / 4096) :
    Low (next s (.unmapPage v)) := by
  obtain ⟨hinv, hlookup⟩ := pagingUnmapPage_spec h.tabled.inv hv
  obtain ⟨-, -, hdir⟩ := pagingUnmapPage_dir h.tabled.inv hv
  have huse : ∀ f, InUse (pagingUnmapPage s.vm.paging v) s.dirs f → InUse s.vm.paging s.dirs f := by
    rintro f (hf | ⟨d, hd, i, hi, hp, rfl⟩)
    · exact Or.inl hf
    · rw [hdir d hd i hi] at hp ⊢
      exact Or.inr ⟨d, hd, i, hi, hp, rfl⟩
  refine ⟨⟨hinv, fun f hf => h.tabled.held f (huse f hf), h.tabled.zero⟩,
    fun f hf => h.frames f (huse f hf), ?_⟩
  intro d hd q hq
  have hne : ¬ q = v / 4096 := by omega
  refine (h.identity d hd q hq).imp fun flags hf => ?_
  exact (hlookup d hd q (by omega)).trans ((if_neg fun hc => hne hc.1).trans hf)

theorem low_clone (h : Low s) (hlow : LowFrame s.vm.pmm) : Low (next s .clonePd) := by
  rcases h.tabled.clone_cases with ⟨hz, hpaging, ht⟩ | ⟨hz, -, hc, ht⟩
  · rw [next, if_pos hz]
    exact ⟨ht, fun f hf => h.frames f (hpaging ▸ hf), fun d hd => hpaging ▸ h.identity d hd⟩
  · have hlt : s.vm.clonePd.1 < 2 ^ 30 := by
      rw [Vm.clonePd_addr] at hz ⊢
      exact hlow.alloc_lt hz
    rw [next, if_neg hz]
    refine ⟨ht, fun f hf => ?_, fun d hd q hq => ?_⟩
    · rcases hc.inUse h.tabled.inv hf with hu | rfl
      · exact h.frames f hu
      · exact hlt
    · dsimp only
      rcases List.mem_cons.mp hd with rfl | hd
      · rw [hc.newLookup q (by omega)]
        exact h.identity _ h.tabled.inv.kernel q hq
      · rw [hc.lookup d hd q (by omega)]
        exact h.identity d hd q hq

/-- Calls of the PMM do not touch the tables. -/
theorem low_pmm (h : Low s) {pmm : Pmm}
    (hfree : ∀ g, Pmm.Free pmm g → Pmm.Free s.vm.pmm g ∨ s.MayFree g) : Low (s.withPmm pmm) := by
  refine ⟨⟨h.tabled.inv, fun f hf hg => ?_, fun h0 => ?_⟩, h.frames, h.identity⟩
  · rcases hfree _ hg with hold | ⟨-, hunused⟩
    · exact h.tabled.held f hf hold
    · have halign := hf.aligned h.tabled.inv
      rw [Nat.div_mul_cancel halign] at hunused
      exact hunused hf
  · rcases hfree 0 h0 with hold | ⟨hne, -⟩
    · exact h.tabled.zero hold
    · exact hne rfl

/-- **Step lemma.** -/
theorem low_next (h : Low s) {a : Act} (ha : Enabled s a) (hc : Direct s a) : Low (next s a) := by
  cases a with
  | mapPage v p flags => exact low_map h ha hc
  | unmapPage v => exact low_unmap h ha hc
  | clonePd => exact low_clone h hc
  | switch pd => exact ⟨h.tabled.switch ha, h.frames, h.identity⟩
  | allocPage => exact low_pmm h fun g hg => Or.inl (Pmm.free_of_alloc hg)
  | allocPages n =>
    rw [next]
    rcases @Pmm.pmmAllocPages_spec s.vm.pmm n ha with he | ⟨start, he, hle, -⟩
    · rw [he]
      exact low_pmm h fun g hg => Or.inl hg
    · rw [he]
      exact low_pmm h fun g hg => Or.inl ((Pmm.takeRun_spec hle).mp hg).1
  | freePage addr =>
    refine low_pmm h fun g hg => ?_
    rcases (Pmm.pmmFreePage_spec ha.1).mp hg with hold | rfl
    · exact Or.inl hold
    · exact Or.inr ha.2
  | freePages addr n =>
    refine low_pmm h fun g hg => ?_
    rcases Pmm.pmmFreePages_spec.mp hg with hold | ⟨i, hi, rfl, -⟩
    · exact Or.inl hold
    · exact Or.inr (ha i hi)

/-- In such a state the writes of the next call land where they should. -/
theorem Low.lands (h : Low s) {a : Act} (ha : Enabled s a) (hc : Direct s a) : Lands s a := by
  cases a with
  | mapPage v p flags =>
    rw [Lands]
    dsimp only
    split
    · rename_i hp
      exact h.toItself (h.frames _ (Or.inr ⟨_, h.tabled.inv.current, _, pdIndex_lt ha.1, hp, rfl⟩))
    · rename_i hp
      intro hz
      have hlt := (hc.2 hp).alloc_lt hz
      obtain ⟨fl, hfl⟩ := h.toItself hlt
      -- a cleared table adds nothing to the map
      have hnew : lookup (addTable s.vm.paging s.vm.allocPage.1 v flags).mem
          s.vm.paging.currentPdPhys (s.vm.allocPage.1 / 4096)
          = lookup s.vm.paging.mem s.vm.paging.currentPdPhys (s.vm.allocPage.1 / 4096) :=
        addTable_lookup h.tabled.inv (h.tabled.supplies.resolve_left hz) ha.1 flags hp
          h.tabled.inv.current (by omega)
      exact ⟨⟨fl, hfl⟩, ⟨fl, hnew.trans hfl⟩⟩
  | clonePd => exact fun hz => h.toItself (LowFrame.alloc_lt hc hz)
  | _ => trivial

/-! ## 4. Runs -/

/-- The state `kmain` has made with `pmm_init` and `paging_init`. -/
def start (img : KernelImage) (mem : Mem) (pmm : Pmm) : State :=
  ⟨⟨pmm, pagingInit img.toImage mem⟩, [img.kernelPd]⟩

/-- The kernel lies in the first GiB, and so do its tables. -/
theorem low_start {img : KernelImage} {mem : Mem} {mboot : Pmm.MultibootInfo} {pmm : Pmm}
    (hend : img.linkEnd ≤ 2 ^ 30) (hinit : Pmm.pmmInit mem img.linkEnd mboot = some pmm) :
    Low (start img mem pmm) := by
  refine ⟨(pagingInit_roles hinit).toTabled, ?_, ?_⟩
  · intro f hf
    have hpd := img.pdBelow
    have htables := img.tablesBelow
    rcases pagingInit_inUse img.toImage mem hf with rfl | ⟨i, hi, rfl⟩
    · omega
    · unfold Image.table
      omega
  · intro d hd q hq
    rw [List.mem_singleton.mp hd]
    exact ⟨_, (pagingInit_lookup img.toImage mem (by omega)).trans (if_pos hq)⟩

/-- **The writes to tables and directories land in them**, along every run from boot, on any
machine, in which tables and directories are made while a frame below 1 GiB is free and the
identity map is left in place. -/
theorem lands_of_direct (img : KernelImage) (hend : img.linkEnd ≤ 2 ^ 30) (mem : Mem)
    (mboot : Pmm.MultibootInfo) (pmm : Pmm) (hinit : Pmm.pmmInit mem img.linkEnd mboot = some pmm)
    (acts : List Act) (hrun : Trace.Along next Enabled (start img mem pmm) acts)
    (hdirect : Trace.Along next Direct (start img mem pmm) acts) :
    Trace.Along next Lands (start img mem pmm) acts :=
  (hrun.and hdirect).imp (I := Low)
    (fun _ _ h ha => ⟨low_next h ha.1 ha.2, h.lands ha.1 ha.2⟩) (low_start hend hinit)

/-- On a machine with 5 MiB, a page is mapped at the start of user space, and a directory made. -/
theorem lands_of_direct_first : ∃ pmm,
    Pmm.pmmInit (fun _ => 0) smallKernel.linkEnd ⟨0, 0x1000, 0, 0⟩ = some pmm ∧
    Trace.Along next Lands (start smallKernel (fun _ => 0) pmm)
      [.mapPage 0x40000000 0x4FF000 7, .clonePd] := by
  obtain ⟨pmm, hinit, hfree⟩ := @smallKernel_free 0x1000 (by decide) fun _ => 0
  have hlow : LowFrame pmm := fun f hf => ⟨f, by have := (hfree f).mp hf; omega, hf⟩
  have hlow' : LowFrame
      ((start smallKernel (fun _ => 0) pmm).vm.mapPage 0x40000000 0x4FF000 7).pmm :=
    fun f hf => ⟨f, by have := (hfree f).mp (Vm.free_of_map hf); omega, hf⟩
  refine ⟨pmm, hinit, lands_of_direct smallKernel (by decide) (fun _ => 0) _ pmm hinit _ ?_ ?_⟩
  · exact ⟨⟨by decide, by decide, by decide⟩, trivial, trivial⟩
  · exact ⟨⟨fun hq => absurd hq (by decide), fun _ => hlow⟩, hlow', trivial⟩

/-- The frame of a new directory is not mapped when it lies behind the identity map. -/
theorem not_lands_clone (img : KernelImage) (mem : Mem) {pmm : Pmm} {f : Nat} (hhigh : 2 ^ 18 ≤ f)
    (honly : ∀ g, Pmm.Free pmm g ↔ g = f) : ¬ Lands (start img mem pmm) .clonePd := by
  intro hlands
  obtain ⟨g, hg, haddr, -⟩ := Pmm.pmmAllocPage_spec ⟨f, (honly f).mpr rfl⟩
  have hlt : f < 2 ^ 20 := Pmm.frameCount_eq ▸ ((honly f).mpr rfl).1
  obtain rfl := (honly g).mp hg
  have haddr' : (start img mem pmm).vm.allocPage.1 = g * 4096 := haddr
  rw [Lands, haddr'] at hlands
  obtain ⟨flags, hmap⟩ := hlands (by omega)
  have hnone := (pagingInit_lookup img.toImage mem hlt).trans (if_neg (by omega))
  rw [Nat.mul_div_cancel g (by decide)] at hmap
  have habsurd := hnone.symm.trans hmap
  cases habsurd

/-- A machine whose free frames are those from `a` to `b` gives them all at once. -/
theorem allocPages_all {pmm : Pmm} {a b : Nat} (ha : 0 < a) (hab : a < b) (hb : b ≤ 2 ^ 20)
    (hfree : ∀ f, Pmm.Free pmm f ↔ a ≤ f ∧ f < b) :
    ∃ addr pmm', Pmm.pmmAllocPages pmm (b - a) = some (addr, pmm') ∧ ∀ g, ¬ Pmm.Free pmm' g := by
  have hcount := Pmm.frameCount_eq
  have h0 : ¬ Pmm.Free pmm 0 := fun hf => absurd ((hfree 0).mp hf).1 (by omega)
  have hrange : ∀ g, a ≤ g → g < a + (b - a) → Pmm.Free pmm g :=
    fun g hlo hhi => (hfree g).mpr ⟨hlo, by omega⟩
  rcases @Pmm.pmmAllocPages_spec pmm (b - a) (by omega) with hfail | ⟨first, he, hle, hrun⟩
  · exact absurd hfail (Pmm.pmmAllocPages_ne_fail (by omega) (by omega) hrange h0)
  · -- the only run of that many frames is all of them
    have hlo := ((hfree first).mp (hrun first (Nat.le_refl _) (by omega))).1
    refine ⟨_, _, he, fun g hg => ?_⟩
    obtain ⟨hwas, hnot⟩ := (Pmm.takeRun_spec hle).mp hg
    have hin := (hfree g).mp hwas
    have hlast := ((hfree (first + (b - a) - 1)).mp (hrun _ (by omega) (by omega))).2
    omega

/-- **A directory at 1 GiB.**  On a machine with 2 GiB, all frames are taken, the one at 1 GiB is
given back, and a directory is made of it: its address is not mapped. -/
theorem clone_beyond_identity : ∃ pmm,
    Pmm.pmmInit (fun _ => 0) smallKernel.linkEnd ⟨0, 2 ^ 21 - 1024, 0, 0⟩ = some pmm ∧
    Trace.Along next Enabled (start smallKernel (fun _ => 0) pmm)
      [.allocPages 0x7FCFF, .freePage 0x40000000, .clonePd] ∧
    ¬ Trace.Along next Lands (start smallKernel (fun _ => 0) pmm)
      [.allocPages 0x7FCFF, .freePage 0x40000000, .clonePd] := by
  obtain ⟨pmm, hinit, hfree⟩ := @smallKernel_free (2 ^ 21 - 1024) (by decide) fun _ => 0
  obtain ⟨addr, pmm', hall, hnone⟩ :=
    @allocPages_all pmm 0x301 0x80000 (by decide) (by decide) (by decide) hfree
  have hnext : next (start smallKernel (fun _ => 0) pmm) (.allocPages 0x7FCFF)
      = start smallKernel (fun _ => 0) pmm' := by
    rw [next, show Pmm.pmmAllocPages (start smallKernel (fun _ => 0) pmm).vm.pmm 0x7FCFF
      = some (addr, pmm') from hall]
    rfl
  have hmay : (start smallKernel (fun _ => 0) pmm').MayFree 0x40000 := by
    refine ⟨by decide, fun hused => ?_⟩
    rcases pagingInit_inUse smallKernel.toImage (fun _ => 0) hused with he | ⟨i, hi, he⟩
    · exact absurd he (by decide)
    · simp only [Image.table, smallKernel, Paging.smallImage] at he
      omega
  -- the frame at 1 GiB is the one that is free
  have honly : ∀ g, Pmm.Free (Pmm.pmmFreePage pmm' 0x40000000) g ↔ g = 0x40000 := by
    intro g
    rw [Pmm.pmmFreePage_spec (by decide), show 0x40000000 / pageSize = 0x40000 by decide]
    exact or_iff_right (hnone g)
  refine ⟨pmm, hinit, ⟨show 0x7FCFF ≤ 2 ^ 20 by decide, ?_, trivial, trivial⟩, fun hlands => ?_⟩
  · rw [hnext]
    exact ⟨by decide, hmay⟩
  · obtain ⟨-, -, hclone, -⟩ := hlands
    rw [hnext] at hclone
    exact not_lands_clone smallKernel (fun _ => 0) (by decide) honly hclone

end FlowOS.Pointer
