/-
# Runs of the kernel

The kernel from boot on: processes are created and switched, programs are loaded, pages are
demanded, and the heap is used, in any order.  An action is one such call, run to its end.  The
invariant of `Vm/Roles.lean` holds in every state of every run, so no frame ever has two roles.
-/
import FlowOS.Vm.Calls
import FlowOS.Vm.Boot
import FlowOS.Lib.Trace
import FlowOS.Heap.Run

namespace FlowOS

open Word Frames Paging Elf

namespace Kernel

/-! ## 1. Actions -/

/-- The calls a run is made of. -/
inductive Act
  | kmalloc (size : Nat)
  | kfree (ptr : Nat)
  | pageFault (addr err : Nat)
  | elfExec (fs : FileSystem) (reads : Reads) (path : String)
  | processCreate (idle wrapper table : Nat) (s : Process.Sched) (name : List UInt8) (entry : Nat)
  | switch (pd : Nat)
  | back (v flags : Nat)
  | unmap (v : Nat)
  | take (pmm : Pmm)

/-- `process_create`, for any state of the scheduler; `none` when it comes to a stop in
`kmalloc`. -/
def processCreate (idle wrapper table : Nat) (s : Process.Sched) (name : List UInt8) (entry : Nat)
    (k : Kernel) : Option Kernel :=
  (Process.processCreate (procEnv idle wrapper table) (some k) s name entry).2.1

/-- The state after an action. -/
def next (k : Kernel) : Act → Kernel
  | .kmalloc size => ((k.kmalloc size).map Prod.snd).getD k
  | .kfree ptr => k.kfree ptr
  | .pageFault addr err => { k with vm := (k.vm.pageFault addr err).2 }
  | .elfExec fs reads path => k.elfExec fs reads path
  | .processCreate idle wrapper table s name entry =>
    (k.processCreate idle wrapper table s name entry).getD k
  | .switch pd => { k with vm := k.vm.switch pd }
  | .back v flags => { k with vm := (k.vm.backPage v flags).2 }
  | .unmap v => { k with vm := k.vm.unmapPage v }
  | .take pmm => { k with vm := { k.vm with pmm := pmm } }

/-- Every segment of the file lies in user space. -/
def UserFile (file : List UInt8) : Prop :=
  ∀ ph ∈ fileProgramHeaders file, ph.type = ptLoad → ph.InUserSpace

/-- What may happen.  The processor reports a page that is not present only when it is not; the
scheduler switches to directories that were made for a process; other clients of the PMM take
frames, and pages are mapped and unmapped above the identity map. -/
def Enabled (k : Kernel) : Act → Prop
  | .kmalloc size => (k.kmalloc size).isSome
  | .kfree _ => True
  | .pageFault addr err => addr < 2 ^ 32 ∧ (err &&& 1 = 0 → k.vm.entry (addr / 4096) = none)
  | .elfExec fs _ path => ∀ file, fs.file path = some file → UserFile file
  | .processCreate idle wrapper table s name entry =>
    (k.processCreate idle wrapper table s name entry).isSome
  | .switch pd => pd ∈ k.dirs
  | .back v flags => HighPage (v / 4096) ∧ flags < 0x1000
  | .unmap v => HighPage (v / 4096)
  | .take pmm => ∀ g, Pmm.Free pmm g → Pmm.Free k.vm.pmm g

theorem UserPage.high {q : Nat} (h : UserPage q) : HighPage q := by
  obtain ⟨hlow, hhigh⟩ := h
  exact ⟨hlow, by omega⟩

theorem HighPage.addr {v : Nat} (h : HighPage (v / 4096)) : v < 2 ^ 32 := by
  have := h.2
  omega

theorem UserFile.segmentsIn {file : List UInt8} (h : UserFile file) : SegmentsIn UserPage file := by
  intro ph hph htype
  obtain ⟨hpages, haddrs⟩ := (h ph hph htype).within
  exact ⟨hpages, fun u hu => ⟨haddrs u hu, UserPage.high (haddrs u hu)⟩⟩

/-- **`elf_exec` of such a file is made of moves in user space.** -/
theorem elfExec_userMoved {fs : FileSystem} {path : String}
    (hfile : ∀ file, fs.file path = some file → UserFile file) (reads : Reads) (k : Kernel) :
    Moved UserPage k (k.elfExec fs reads path) :=
  elfExec_moved ⟨by decide, by decide⟩ (fun file hf => (hfile file hf).segmentsIn) reads k

/-! ## 2. The invariant -/

variable {k k' : Kernel}

theorem roles_move {Page : Nat → Prop} (h : Roles k.vm k.dirs) (hmove : Move Page k k') :
    Roles k'.vm k'.dirs := by
  cases hmove with
  | noFrame hz => exact h.alloc
  | back v flags hv hpage hflags => exact h.back hv hflags
  | store v b hpage hq hsome => exact h.store hq hsome b
  | kmalloc _ size p hk =>
    obtain ⟨hdirs, -, hvm⟩ := kmalloc_vm hk
    rw [hdirs]
    split at hvm
    · rw [hvm.1]
      exact h.back (add32_lt _ _) (by decide)
    · rw [hvm.1]
      exact h
  | kfree ptr => exact h

theorem roles_moved {Page : Nat → Prop} (h : Roles k.vm k.dirs) (hmoved : Moved Page k k') :
    Roles k'.vm k'.dirs :=
  hmoved.inv (fun _ _ => roles_move) h

/-- A demand for a page that is there does nothing. -/
theorem pageFault_cases (h : Roles k.vm k.dirs) {addr err : Nat} (haddr : addr < 2 ^ 32)
    (hcpu : err &&& 1 = 0 → k.vm.entry (addr / 4096) = none) :
    (k.vm.pageFault addr err).2 = k.vm ∨ ∃ flags < 0x1000, HighPage (frameOf addr / 4096) ∧
      frameOf addr / 4096 = addr / 4096 ∧
      (k.vm.pageFault addr err).2 = (k.vm.backPage (frameOf addr) flags).2 := by
  rw [Vm.pageFault_eq k.vm haddr]
  split
  · rename_i hbits
    have hpage : frameOf addr / 4096 = addr / 4096 := Nat.mul_div_cancel _ (by decide)
    refine Or.inr ⟨_, faultFlags_lt err, ⟨?_, by omega⟩, hpage, rfl⟩
    by_contra hlow
    have hsome := h.low _ h.inv.current (addr / 4096) (by omega)
    rw [show lookup k.vm.paging.mem k.vm.paging.currentPdPhys (addr / 4096) = none from
      hcpu hbits.1] at hsome
    cases hsome
  · exact Or.inl rfl

/-- **Step lemma.** -/
theorem roles_next (h : Roles k.vm k.dirs) {a : Act} (ha : k.Enabled a) :
    Roles (k.next a).vm (k.next a).dirs := by
  cases a with
  | kmalloc size =>
    obtain ⟨⟨p, k'⟩, hk⟩ := Option.isSome_iff_exists.mp ha
    rw [next, hk]
    exact roles_move h (.kmalloc k k' size p hk : Move (fun _ => True) k k')
  | kfree ptr => exact h
  | pageFault addr err =>
    rcases pageFault_cases h ha.1 ha.2 with he | ⟨flags, hflags, hq, -, he⟩
    · rw [next, he]
      exact h
    · rw [next, he]
      exact h.back (HighPage.addr hq) hflags
  | elfExec fs reads path => exact roles_moved h (elfExec_userMoved ha reads k)
  | processCreate idle wrapper table s name entry =>
    obtain ⟨k', hk⟩ := Option.isSome_iff_exists.mp ha
    rw [next, hk]
    rcases processCreate_move hk with rfl | hmove
    · exact h
    · exact roles_move h.clone (hmove : Move (fun _ => True) _ _)
  | switch pd => exact h.switch ha
  | back v flags => exact h.back (HighPage.addr ha.1) ha.2
  | unmap v => exact h.unmap (HighPage.addr ha) ha
  | take pmm => exact h.take ha

/-! ## 3. `process_create` returns -/

theorem booted_heapInv {img : KernelImage} {heapMem : Mem} (hb : Booted img heapMem k) :
    Heap.Inv k.heap [⟨0xC0000000, 0x100000, true⟩] := by
  rw [hb.heap]
  exact Heap.heapInit_inv (by decide) (by decide) (by decide) (by decide) (by decide)

/-- A request the list can serve touches nothing but the heap. -/
theorem kmalloc_served {bs bs' : List Heap.Block} {n a : Nat} (hi : Heap.Inv k.heap bs)
    (h1 : 1 ≤ n) (h2 : n ≤ 0xFFFFFFE8) (ha : Heap.alloc (Heap.align8 n) bs = some (a, bs')) :
    ∃ h', k.kmalloc n = some (a + 16, { k with heap := h' }) ∧ Heap.Inv h' bs' ∧
      h'.heapStart = k.heap.heapStart ∧ h'.heapSize = k.heap.heapSize := by
  obtain ⟨h8, hpos, -, hlt⟩ := Heap.align8_spec h1 (by omega)
  obtain ⟨p, vm', h', bs₁, hk, hinv, hst, hout, -⟩ :=
    @Heap.kmalloc_refines k.heap bs Vm Vm.pageEnv k.vm n hi h1 h2 fun hf => by
      rcases Heap.findTake hi h8 hpos (by omega) with ⟨hnone, -⟩ | ⟨b, -, -, hf', hb, -⟩
      · rw [ha] at hnone
        cases hnone
      · exact absurd (Option.some.inj (hf'.symm.trans hf)) hb
  cases hout with
  | served b hb hp hs hsize =>
    obtain ⟨rfl, rfl⟩ := Prod.mk.inj (Option.some.inj (ha.symm.trans hb))
    refine ⟨h', ?_, hinv, hst, hsize⟩
    unfold kmalloc
    rw [hk, hs, hp]
    rfl
  | noPage hnone =>
    rw [ha] at hnone
    cases hnone
  | grown hnone =>
    rw [ha] at hnone
    cases hnone

/-- `process_create` returns when the heap is in order and has room. -/
theorem processCreate_isSome {bs : List Heap.Block} (hi : Heap.Inv k.heap bs)
    (hroom : k.heap.heapStart + k.heap.heapSize + pageSize < 2 ^ 32) (idle wrapper table : Nat)
    (s : Process.Sched) (name : List UInt8) (entry : Nat) :
    (k.processCreate idle wrapper table s name entry).isSome := by
  obtain ⟨p, vm', h', -, hk, -⟩ := @Heap.kmalloc_refines k.heap bs Vm Vm.pageEnv k.clonePd.vm
    Process.kernelStackSize hi (by decide) (by decide) fun _ _ => hroom.le
  have hk' : k.clonePd.kmalloc Process.kernelStackSize
      = some (p, { k.clonePd with vm := vm', heap := h' }) := by
    unfold kmalloc
    rw [show k.clonePd.heap = k.heap from rfl, hk]
    rfl
  unfold processCreate Process.processCreate
  split
  · rfl
  · dsimp only [procEnv]
    split
    · rfl
    · simp only [Option.bind_some, hk']
      split <;> rfl

/-! ## 4. One role -/

/-- What it means that a frame has one role, over all directories in use: a directory, one table
(which clones share with the kernel directory), or one page above the identity map; and such a
frame is not handed out again. -/
structure OneRole (vm : Vm) (dirs : List Nat) : Prop where
  directory : dirs.Nodup
  table : ∀ d ∈ dirs, ∀ i < 1024, Present (word vm.paging.mem d i) →
    frameOf (word vm.paging.mem d i) ∉ dirs
  oneTable : ∀ d ∈ dirs, ∀ d' ∈ dirs, ∀ i < 1024, ∀ j < 1024, Present (word vm.paging.mem d i) →
    Present (word vm.paging.mem d' j) →
    frameOf (word vm.paging.mem d i) = frameOf (word vm.paging.mem d' j) →
    i = j ∧ (d = d' ∨ word vm.paging.mem d i = word vm.paging.mem vm.paging.kernelPdPhys i ∧
      word vm.paging.mem d' j = word vm.paging.mem vm.paging.kernelPdPhys j)
  page : ∀ d ∈ dirs, ∀ q, HighPage q → ∀ F, vm.Maps d q F → ¬ InUse vm.paging dirs (F * 4096)
  onePage : ∀ d ∈ dirs, ∀ d' ∈ dirs, ∀ q q', HighPage q → HighPage q' → ∀ F, vm.Maps d q F →
    vm.Maps d' q' F → q = q'
  taken : (∀ f, InUse vm.paging dirs f → ¬ Pmm.Free vm.pmm (f / 4096)) ∧
    ∀ d ∈ dirs, ∀ q, HighPage q → ∀ F, vm.Maps d q F → ¬ Pmm.Free vm.pmm F

end Kernel

theorem Roles.oneRole {vm : Vm} {dirs : List Nat} (h : Roles vm dirs) : Kernel.OneRole vm dirs where
  directory := h.nodup
  table := h.inv.tables
  oneTable := by
    intro d hd d' hd' i hi j hj hp hp' heq
    obtain rfl := h.inv.index d hd d' hd' i hi j hj hp hp' heq
    refine ⟨rfl, ?_⟩
    by_cases hne : d = d'
    · exact Or.inl hne
    · exact Or.inr ⟨(h.shared d hd d' hd' hne i hi hp hp' heq).symm,
        (h.shared d' hd' d hd (Ne.symm hne) i hi hp' hp heq.symm).symm⟩
  page d hd q hq F hF := (h.pages d hd q hq F hF).2
  onePage := h.unique
  taken := ⟨h.held, fun d hd q hq F hF => (h.pages d hd q hq F hF).1⟩

namespace Kernel

/-- **Run lemma.** -/
theorem roles_run {k : Kernel} (h : Roles k.vm k.dirs) {acts : List Act}
    (hrun : Trace.Along next Enabled k acts) :
    Roles (acts.foldl next k).vm (acts.foldl next k).dirs :=
  hrun.inv (I := fun k => Roles k.vm k.dirs) (fun _ _ h ha => roles_next h ha) h

/-- **Every frame has one role** in every state a run reaches from boot, on any machine. -/
theorem one_role (img : KernelImage) (mboot : Pmm.MultibootInfo) (mem heapMem : Mem) (k₀ : Kernel)
    (hboot : bootKernel img mboot mem heapMem = some k₀) (acts : List Act)
    (hrun : Trace.Along next Enabled k₀ acts) :
    OneRole (acts.foldl next k₀).vm (acts.foldl next k₀).dirs :=
  (roles_run (bootKernel_booted hboot).roles hrun).oneRole

/-- On a machine with 5 MiB, a program demands its first page. -/
theorem one_role_demand : ∃ k₀, bootKernel smallKernel ⟨0, 0x1000, 0, 0⟩ (fun _ => 0)
    (fun _ => 0) = some k₀ ∧ OneRole (k₀.vm.pageFault 0x40000000 6).2 k₀.dirs := by
  obtain ⟨k₀, hboot, -⟩ := smallKernel_boots (Nat.le_refl _) (by decide) (fun _ => 0) fun _ => 0
  have hentry : k₀.vm.entry 0x40000 = none := by
    have hb := bootKernel_booted hboot
    rw [Vm.entry, hb.current]
    exact hb.unmapped _ (by decide) (by decide)
  exact ⟨k₀, hboot, one_role smallKernel ⟨0, 0x1000, 0, 0⟩ (fun _ => 0) (fun _ => 0) k₀ hboot
    [.pageFault 0x40000000 6] ⟨⟨by decide, fun _ => hentry⟩, trivial⟩⟩

end Kernel

end FlowOS
