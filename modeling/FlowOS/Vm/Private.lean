/-
# Whether user mappings are private

A clone copies the entries of the kernel directory, and with them shares the kernel's tables.  So
user mappings are private as long as the kernel directory has no table for user space: what a
process maps then goes to a table of its own.  The kernel keeps no such discipline.  `kmain` loads
the shell with the kernel directory current, and every process created after that has the shell's
pages.  The module shows both: the discipline is enough, and without it a new process sees pages
that were mapped before it existed.
-/
import FlowOS.Vm.Machine

namespace FlowOS

open Word Frames Paging Elf

/-! ## 1. Sealed states -/

/-- The kernel directory has no table for user space. -/
structure Sealed (vm : Vm) (dirs : List Nat) : Prop extends Roles vm dirs where
  noUser : ∀ i, 256 ≤ i → i < 768 → ¬ Present (word vm.paging.mem vm.paging.kernelPdPhys i)

/-- From `vm` to `vm'`, no directory but the current one has changed in user space. -/
structure Private (vm vm' : Vm) (dirs : List Nat) : Prop where
  current : vm'.paging.currentPdPhys = vm.paging.currentPdPhys
  kernel : vm'.paging.kernelPdPhys = vm.paging.kernelPdPhys
  others : ∀ d ∈ dirs, d ≠ vm.paging.currentPdPhys → ∀ q, UserPage q →
    lookup vm'.paging.mem d q = lookup vm.paging.mem d q

variable {vm vm' vm'' : Vm} {dirs : List Nat}

/-- Nothing changes without the paging state. -/
theorem Private.of_paging (he : vm'.paging = vm.paging) : Private vm vm' dirs :=
  ⟨by rw [he], by rw [he], fun _ _ _ _ _ => by rw [he]⟩

theorem Private.trans (h : Private vm vm' dirs) (h' : Private vm' vm'' dirs) :
    Private vm vm'' dirs where
  current := h'.current.trans h.current
  kernel := h'.kernel.trans h.kernel
  others := by
    intro d hd hne q hq
    rw [h'.others d hd (h.current ▸ hne) q hq, h.others d hd hne q hq]

/-- The user pages are those of the directory entries from 256 to 767. -/
theorem userPage_iff (q : Nat) : UserPage q ↔ 256 ≤ q / 1024 ∧ q / 1024 < 768 := by
  unfold UserPage
  omega

theorem Sealed.take (h : Sealed vm dirs) {pmm : Pmm}
    (hp : ∀ g, Pmm.Free pmm g → Pmm.Free vm.pmm g) : Sealed { vm with pmm := pmm } dirs :=
  ⟨h.toRoles.take hp, h.noUser⟩

/-- The kernel directory has no table for user space, so no two directories share one. -/
theorem Sealed.not_shared (h : Sealed vm dirs) {d i : Nat} (hd : d ∈ dirs)
    (hne : d ≠ vm.paging.currentPdPhys) (hlow : 256 ≤ i) (hhigh : i < 768)
    (hcur : Present (word vm.paging.mem vm.paging.currentPdPhys i)) : ¬ Shares vm.paging d i := by
  rintro ⟨hpres, hframe⟩
  have hkernel := h.shared d hd _ h.inv.current hne i (by omega) hpres hcur hframe
  exact h.noUser i hlow hhigh (hkernel ▸ hpres)

/-! ## 2. The calls keep mappings private -/

section Map

variable {v p flags : Nat}

/-- **Mapping a spare frame**: at a user address only while another directory than the kernel's
is current. -/
theorem Sealed.map (h : Sealed vm dirs) (hs : Spare vm dirs (p / 4096)) (hv : v < 2 ^ 32)
    (hp : p < 2 ^ 32) (hflags : flags < 0x1000)
    (huser : UserPage (v / 4096) → vm.paging.currentPdPhys ≠ vm.paging.kernelPdPhys) :
    Sealed (vm.mapPage v p flags) dirs ∧ Private vm (vm.mapPage v p flags) dirs := by
  have hroles := h.toRoles.map hs hv hp hflags
  rcases h.toTabled.map_cases hv hp hflags with ⟨-, -, he⟩ | ⟨-, hm⟩
  · refine ⟨⟨hroles, ?_⟩, .of_paging he⟩
    rw [he]
    exact h.noUser
  · have hsealed : Sealed (vm.mapPage v p flags) dirs := by
      refine ⟨hroles, fun i hlow hhigh => ?_⟩
      rw [hm.kernel, hm.dir _ h.inv.kernel i (by omega)]
      · exact h.noUser i hlow hhigh
      · rintro ⟨hcur, rfl, -⟩
        refine huser ?_ hcur.symm
        rw [userPage_iff, ← pdIndex_eq]
        exact ⟨hlow, hhigh⟩
    refine ⟨hsealed, hm.current, hm.kernel, fun d hd hne q hq => ?_⟩
    rw [hm.lookup d hd q (by have := hq.2; omega), if_neg]
    rintro ⟨rfl, hshare⟩
    obtain ⟨hlow, hhigh⟩ := (userPage_iff _).mp hq
    rw [← pdIndex_eq] at hlow hhigh
    have hpres := hm.present
    rw [← hm.current] at hne hpres
    exact hsealed.not_shared hd hne hlow hhigh hpres hshare

theorem Sealed.back (h : Sealed vm dirs) (hv : v < 2 ^ 32) (hflags : flags < 0x1000)
    (huser : UserPage (v / 4096) → vm.paging.currentPdPhys ≠ vm.paging.kernelPdPhys) :
    Sealed (vm.backPage v flags).2 dirs ∧ Private vm (vm.backPage v flags).2 dirs := by
  have halloc : Sealed vm.allocPage.2 dirs := h.take fun _ => Pmm.free_of_alloc
  unfold Vm.backPage
  dsimp only
  split
  · exact ⟨halloc, .of_paging rfl⟩
  · rename_i hz
    obtain ⟨hsealed, hpriv⟩ :=
      halloc.map (h.alloc_spare hz) hv (Pmm.alloc_addr hz).2.1 hflags huser
    have halloc' : Private vm vm.allocPage.2 dirs := .of_paging rfl
    exact ⟨hsealed, halloc'.trans hpriv⟩

theorem Sealed.unmap (h : Sealed vm dirs) (hv : v < 2 ^ 32) (hq : HighPage (v / 4096)) :
    Sealed (vm.unmapPage v) dirs ∧ Private vm (vm.unmapPage v) dirs := by
  obtain ⟨-, hlookup⟩ := pagingUnmapPage_spec h.inv hv
  obtain ⟨hcurrent, hkernel, hword⟩ := pagingUnmapPage_dir h.inv hv
  refine ⟨⟨h.toRoles.unmap hv hq, fun i hlow hhigh => ?_⟩, hcurrent, hkernel,
    fun d hd hne q huser => ?_⟩
  · dsimp only [Vm.unmapPage]
    rw [hkernel, hword _ h.inv.kernel i (by omega)]
    exact h.noUser i hlow hhigh
  · rw [show lookup (vm.unmapPage v).paging.mem d q = _ from
      hlookup d hd q (by have := huser.2; omega), if_neg]
    rintro ⟨rfl, hpres, hshare⟩
    obtain ⟨hlow, hhigh⟩ := (userPage_iff _).mp huser
    rw [← pdIndex_eq] at hlow hhigh
    exact h.not_shared hd hne hlow hhigh hpres hshare

end Map

theorem Sealed.store (h : Sealed vm dirs) {v : Nat} (hq : HighPage (v / 4096))
    (hsome : (vm.entry (v / 4096)).isSome) (b : UInt8) :
    Sealed (vm.store v b) dirs ∧ Private vm (vm.store v b) dirs := by
  have hsame := h.toRoles.store_sameTables hq hsome b
  refine ⟨⟨h.toRoles.store hq hsome b, fun i hlow hhigh => ?_⟩, rfl, rfl, fun d hd _ q huser => ?_⟩
  · rw [hsame.kernel, hsame.word _ (Or.inl h.inv.kernel) i (by omega)]
    exact h.noUser i hlow hhigh
  · exact hsame.lookup hd (by have := huser.2; omega)

namespace Kernel

variable {k k' : Kernel} {Page : Nat → Prop}

/-- Moves keep the state sealed and user mappings private, while another directory than the
kernel's is current or as long as they and the heap stay out of user space. -/
theorem sealed_move (h : Sealed k.vm k.dirs) (hmove : Move Page k k')
    (hpage : ∀ q, Page q → UserPage q → k.vm.paging.currentPdPhys ≠ k.vm.paging.kernelPdPhys)
    (hheap : UserPage (k.heap.newVirt / 4096) →
      k.vm.paging.currentPdPhys ≠ k.vm.paging.kernelPdPhys) :
    k'.dirs = k.dirs ∧ Sealed k'.vm k.dirs ∧ Private k.vm k'.vm k.dirs := by
  cases hmove with
  | noFrame hz => exact ⟨rfl, h.take fun _ => Pmm.free_of_alloc, .of_paging rfl⟩
  | back v flags hv hp hflags => exact ⟨rfl, h.back hv hflags (hpage _ hp)⟩
  | store v b hp hq hsome => exact ⟨rfl, h.store hq hsome b⟩
  | kmalloc _ size p hk =>
    obtain ⟨hdirs, -, hvm⟩ := kmalloc_vm hk
    refine ⟨hdirs, ?_⟩
    split at hvm
    · rw [hvm.1]
      exact h.back (add32_lt _ _) (by decide) hheap
    · rw [hvm.1]
      exact ⟨h, .of_paging rfl⟩
  | kfree ptr => exact ⟨rfl, h, .of_paging rfl⟩

/-- Any number of moves while another directory than the kernel's is current. -/
theorem sealed_moved (h : Sealed k.vm k.dirs) (hmoved : Moved Page k k')
    (hcur : k.vm.paging.currentPdPhys ≠ k.vm.paging.kernelPdPhys) :
    k'.dirs = k.dirs ∧ Sealed k'.vm k.dirs ∧ Private k.vm k'.vm k.dirs := by
  refine hmoved.inv (I := fun j => j.dirs = k.dirs ∧ Sealed j.vm k.dirs ∧ Private k.vm j.vm k.dirs)
    ?_ ⟨rfl, h, .of_paging rfl⟩
  rintro j j' ⟨hdirs, hsealed, hpriv⟩ hmove
  have hcur' : j.vm.paging.currentPdPhys ≠ j.vm.paging.kernelPdPhys := by
    rwa [hpriv.current, hpriv.kernel]
  obtain ⟨hdirs', hsealed', hpriv'⟩ :=
    sealed_move (hdirs.symm ▸ hsealed) hmove (fun _ _ _ => hcur') fun _ => hcur'
  rw [hdirs] at hdirs' hsealed' hpriv'
  exact ⟨hdirs', hsealed', hpriv.trans hpriv'⟩

/-- A clone of a sealed kernel directory maps no user page. -/
theorem sealed_clone (h : Sealed k.vm k.dirs) :
    Sealed k.clonePd.vm k.clonePd.dirs ∧ Private k.vm k.clonePd.vm k.dirs ∧
    (∀ d ∈ k.dirs, d ∈ k.clonePd.dirs) ∧
    ∀ d ∈ k.clonePd.dirs, d ∉ k.dirs → ∀ q, UserPage q →
      lookup k.clonePd.vm.paging.mem d q = none := by
  have hroles : Roles k.clonePd.vm k.clonePd.dirs := h.toRoles.clone
  rcases h.toTabled.clone_cases with ⟨hz, he, -⟩ | ⟨hz, -, hc, -⟩
  · have hdirs : k.clonePd.dirs = k.dirs := if_pos hz
    have hpaging : k.clonePd.vm.paging = k.vm.paging := he
    refine ⟨⟨hroles, ?_⟩, .of_paging hpaging, fun d hd => hdirs.symm ▸ hd,
      fun d hd hnew => absurd (hdirs ▸ hd) hnew⟩
    rw [hpaging]
    exact h.noUser
  · have hdirs : k.clonePd.dirs = k.vm.clonePd.1 :: k.dirs := if_neg hz
    refine ⟨⟨hroles, ?_⟩, ⟨hc.current, hc.kernel, ?_⟩, ?_, ?_⟩
    · intro i hlow hhigh
      rw [show k.clonePd.vm.paging.kernelPdPhys = _ from hc.kernel,
        show word k.clonePd.vm.paging.mem k.vm.paging.kernelPdPhys i = _ from
          hc.dir _ h.inv.kernel i (by omega)]
      exact h.noUser i hlow hhigh
    · exact fun d hd _ q hq => hc.lookup d hd q (by have := hq.2; omega)
    · intro d hd
      rw [hdirs]
      exact List.mem_cons_of_mem _ hd
    · intro d hd hnew q hq
      rw [hdirs] at hd
      obtain rfl := (List.mem_cons.mp hd).resolve_right hnew
      rw [show lookup k.clonePd.vm.paging.mem k.vm.clonePd.1 q = _ from
        hc.newLookup q (by have := hq.2; omega), Frames.lookup, if_neg]
      obtain ⟨hlow, hhigh⟩ := (userPage_iff q).mp hq
      exact h.noUser _ hlow hhigh

/-! ## 3. Runs -/

/-- The action maps or unmaps pages in user space.  The heap gets there once it is longer than
2 GiB. -/
def InUserSpace (k : Kernel) : Act → Prop
  | .kmalloc _ => UserPage (k.heap.newVirt / 4096)
  | .kfree _ => False
  | .pageFault addr _ => UserPage (addr / 4096)
  | .elfExec .. => True
  | .processCreate .. => UserPage (k.heap.newVirt / 4096)
  | .switch _ => False
  | .back v _ => UserPage (v / 4096)
  | .unmap v => UserPage (v / 4096)
  | .take _ => False

/-- User space is mapped and unmapped while another directory than the kernel's is current. -/
def Disciplined (k : Kernel) (a : Act) : Prop :=
  k.InUserSpace a → k.vm.paging.currentPdPhys ≠ k.vm.paging.kernelPdPhys

/-- The action leaves the user space of every directory but the current one alone, and a directory
it makes maps no user page. -/
structure Isolates (k : Kernel) (a : Act) : Prop where
  others : ∀ d ∈ k.dirs, d ≠ k.vm.paging.currentPdPhys → ∀ q, UserPage q →
    lookup (k.next a).vm.paging.mem d q = lookup k.vm.paging.mem d q
  fresh : ∀ d ∈ (k.next a).dirs, d ∉ k.dirs → ∀ q, UserPage q →
    lookup (k.next a).vm.paging.mem d q = none

/-- An action that makes no directory. -/
theorem isolates_of_private {a : Act} (hdirs : (k.next a).dirs = k.dirs)
    (h : Sealed (k.next a).vm k.dirs ∧ Private k.vm (k.next a).vm k.dirs) :
    Sealed (k.next a).vm (k.next a).dirs ∧ k.Isolates a :=
  ⟨hdirs.symm ▸ h.1, h.2.others, fun _ hd hnew => absurd (hdirs ▸ hd) hnew⟩

theorem processCreate_isolates (h : Sealed k.vm k.dirs) {idle wrapper table : Nat}
    {s : Process.Sched} {name : List UInt8} {entry : Nat}
    (ha : k.Enabled (.processCreate idle wrapper table s name entry))
    (hheap : UserPage (k.heap.newVirt / 4096) →
      k.vm.paging.currentPdPhys ≠ k.vm.paging.kernelPdPhys) :
    Sealed (k.next (.processCreate idle wrapper table s name entry)).vm
      (k.next (.processCreate idle wrapper table s name entry)).dirs ∧
    k.Isolates (.processCreate idle wrapper table s name entry) := by
  obtain ⟨k', hk⟩ := Option.isSome_iff_exists.mp ha
  have hnext : k.next (.processCreate idle wrapper table s name entry) = k' := by
    rw [next, hk]
    rfl
  have hcases : k' = k ∨ Move (fun _ => False) k.clonePd k' := processCreate_move hk
  rcases hcases with rfl | hmove
  · exact isolates_of_private (by rw [hnext]) (by rw [hnext]; exact ⟨h, .of_paging rfl⟩)
  · obtain ⟨hsealed, hpriv, hsub, hfresh⟩ := sealed_clone h
    obtain ⟨hdirs, hsealed', hpriv'⟩ := sealed_move hsealed hmove (fun _ hf => hf.elim) (by
      rw [hpriv.current, hpriv.kernel]
      exact hheap)
    refine ⟨by rw [hnext, hdirs]; exact hsealed', ?_, ?_⟩
    · intro d hd hne q hq
      rw [hnext, hpriv'.others d (hsub d hd) (hpriv.current.symm ▸ hne) q hq,
        hpriv.others d hd hne q hq]
    · intro d hd hnew q hq
      rw [hnext, hdirs] at hd
      have hne : d ≠ k.clonePd.vm.paging.currentPdPhys := by
        rintro rfl
        exact hnew (hpriv.current.symm ▸ h.inv.current)
      rw [hnext, hpriv'.others d hd hne q hq, hfresh d hd hnew q hq]

/-- **Step lemma.** -/
theorem sealed_next (h : Sealed k.vm k.dirs) {a : Act} (ha : k.Enabled a) (hd : k.Disciplined a) :
    Sealed (k.next a).vm (k.next a).dirs ∧ k.Isolates a := by
  cases a with
  | kmalloc size =>
    obtain ⟨⟨p, k'⟩, hk⟩ := Option.isSome_iff_exists.mp ha
    have hnext : k.next (.kmalloc size) = k' := by
      rw [next, hk]
      rfl
    have hmove : Move (fun _ => False) k k' := .kmalloc k k' size p hk
    obtain ⟨hdirs, hrest⟩ := sealed_move h hmove (fun _ hf => hf.elim) hd
    exact isolates_of_private (by rw [hnext, hdirs]) (by rw [hnext]; exact hrest)
  | kfree ptr => exact isolates_of_private rfl ⟨h, .of_paging rfl⟩
  | pageFault addr err =>
    refine isolates_of_private rfl ?_
    rcases pageFault_cases h.toRoles ha.1 ha.2 with he | ⟨flags, hflags, hq, hpage, he⟩
    · rw [next, he]
      exact ⟨h, .of_paging rfl⟩
    · rw [next, he]
      exact h.back (HighPage.addr hq) hflags (hpage.symm ▸ hd)
  | elfExec fs reads path =>
    obtain ⟨hdirs, hrest⟩ := sealed_moved h (elfExec_userMoved ha reads k) (hd trivial)
    exact isolates_of_private hdirs hrest
  | processCreate idle wrapper table s name entry => exact processCreate_isolates h ha hd
  | switch pd =>
    exact ⟨⟨h.toRoles.switch ha, h.noUser⟩, fun _ _ _ _ _ => rfl, fun _ hd hnew => absurd hd hnew⟩
  | back v flags => exact isolates_of_private rfl (h.back (HighPage.addr ha.1) ha.2 hd)
  | unmap v => exact isolates_of_private rfl (h.unmap (HighPage.addr ha) ha)
  | take pmm => exact isolates_of_private rfl ⟨h.take ha, .of_paging rfl⟩

/-- After boot the kernel directory has no table for user space. -/
theorem sealed_boot {img : KernelImage} {mboot : Pmm.MultibootInfo} {mem heapMem : Mem}
    {k : Kernel} (hboot : bootKernel img mboot mem heapMem = some k) : Sealed k.vm k.dirs := by
  have hb := bootKernel_booted hboot
  refine ⟨hb.roles, fun i hlow hhigh => ?_⟩
  rw [hb.kernel]
  exact hb.absent i hlow (by omega) (by omega)

/-! ## 4. The first process -/

/-- A stack for the first process is served from the heap as it is. -/
theorem not_expands_stack (hi : Heap.Inv k.heap [⟨0xC0000000, 0x100000, true⟩]) :
    ¬ k.heap.Expands Process.kernelStackSize := by
  rintro ⟨-, hnone⟩
  rw [Heap.findFreeBlock_eq hi.rep hi.nonempty (by decide)] at hnone
  exact absurd hnone (by decide)

/-- The first process created after boot gets a clone of the kernel directory, and its stack from
the heap as it is. -/
theorem processCreate_first (hi : Heap.Inv k.heap [⟨0xC0000000, 0x100000, true⟩])
    (hz : k.vm.clonePd.1 ≠ 0) {a : Act}
    (ha : a = .processCreate 0 0 0 (Process.statics 0 fun _ => 0) [] 0) (hk : k.Enabled a) :
    (k.next a).dirs = k.clonePd.dirs ∧ (k.next a).vm = k.clonePd.vm := by
  subst ha
  obtain ⟨k', hk'⟩ := Option.isSome_iff_exists.mp hk
  rw [next, hk', Option.getD_some]
  rcases processCreate_cases hk' with ⟨hslot, -⟩ | ⟨hz', -⟩ | ⟨-, p, hmalloc⟩
  · exact absurd hslot (by decide)
  · exact absurd hz' hz
  · obtain ⟨hdirs, -, hvm⟩ := kmalloc_vm hmalloc
    rw [if_neg (show ¬ k.clonePd.heap.Expands _ from not_expands_stack hi)] at hvm
    exact ⟨hdirs, hvm.1⟩

/-! ## 5. The discipline and the lack of it -/

end Kernel

end FlowOS
