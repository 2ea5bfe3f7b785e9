/-
# What `elf_exec` does to kernel addresses

The loader backs the pages its program headers name and does not look where they lie.  When every
segment lies in user space, kernel addresses keep their translation and their access rights: the
pages `elf_exec` maps are then user pages, and the heap, which `kmalloc` may grow on the way, only
adds pages behind its end.  A segment anywhere else is mapped over whatever is there.
-/
import FlowOS.Vm.Machine

namespace FlowOS

open Word Frames Paging Elf Prog

/-! ## 1. Pages that keep their entry -/

/-- From `vm` to `vm'`, page `q` has kept its entry in the current directory, and if it has one,
the directory's entry for it too. -/
def KeepsPage (vm vm' : Vm) (q : Nat) : Prop :=
  vm'.entry q = vm.entry q ∧
  ((vm.entry q).isSome → word vm'.paging.mem vm'.paging.currentPdPhys (q / 1024)
    = word vm.paging.mem vm.paging.currentPdPhys (q / 1024))

variable {vm vm' vm'' : Vm} {dirs : List Nat} {q : Nat}

theorem KeepsPage.of_paging (he : vm'.paging = vm.paging) : KeepsPage vm vm' q := by
  unfold KeepsPage Vm.entry
  rw [he]
  exact ⟨rfl, fun _ => rfl⟩

theorem KeepsPage.trans (h : KeepsPage vm vm' q) (h' : KeepsPage vm' vm'' q) :
    KeepsPage vm vm'' q :=
  ⟨h'.1.trans h.1, fun hs => (h'.2 (by rwa [h.1])).trans (h.2 hs)⟩

/-- A page with an entry has a table. -/
theorem present_of_entry (hs : (vm.entry q).isSome) :
    Present (word vm.paging.mem vm.paging.currentPdPhys (q / 1024)) := by
  by_contra hno
  rw [Vm.entry, Frames.lookup, if_neg hno] at hs
  cases hs

/-- Mapping a page leaves the others alone. -/
theorem Tabled.map_keeps (h : Tabled vm dirs) {v p flags : Nat} (hv : v < 2 ^ 32) (hp : p < 2 ^ 32)
    (hflags : flags < 0x1000) (hq : q < 2 ^ 20) (hne : q ≠ v / 4096) :
    KeepsPage vm (vm.mapPage v p flags) q := by
  rcases h.map_cases hv hp hflags with ⟨-, -, he⟩ | ⟨-, hm⟩
  · exact .of_paging he
  · unfold KeepsPage Vm.entry
    rw [hm.current]
    refine ⟨(hm.lookup _ h.inv.current q hq).trans (if_neg fun hc => hne hc.1), fun hs => ?_⟩
    refine hm.dir _ h.inv.current _ (by omega) ?_
    rintro ⟨-, -, habsent⟩
    exact habsent (present_of_entry hs)

/-- Backing a page leaves the others alone. -/
theorem Tabled.back_keeps (h : Tabled vm dirs) {v flags : Nat} (hv : v < 2 ^ 32)
    (hflags : flags < 0x1000) (hq : q < 2 ^ 20) (hne : q ≠ v / 4096) :
    KeepsPage vm (vm.backPage v flags).2 q := by
  have halloc : KeepsPage vm vm.allocPage.2 q := .of_paging rfl
  unfold Vm.backPage
  dsimp only
  split
  · exact halloc
  · rename_i hz
    exact halloc.trans (h.alloc.map_keeps hv (Pmm.alloc_addr hz).2.1 hflags hq hne)

theorem Roles.store_keeps (h : Roles vm dirs) {v : Nat} (hv : HighPage (v / 4096))
    (hsome : (vm.entry (v / 4096)).isSome) (b : UInt8) (hq : q < 2 ^ 20) :
    KeepsPage vm (vm.store v b) q := by
  have hsame := h.store_sameTables hv hsome b
  have hcur := h.inv.current
  exact ⟨hsame.lookup hcur hq, fun _ => hsame.word _ (Or.inl hcur) _ (by omega)⟩

namespace Kernel

/-! ## 2. Moves in user space -/

/-- The pages outside user space. -/
def KernelPage (q : Nat) : Prop := q < 2 ^ 20 ∧ ¬ UserPage q

/-- The heap has grown by page `q`. -/
def GrownBy (h h' : Heap) (q : Nat) : Prop :=
  ∃ j, h.heapSize + 4096 * j < h'.heapSize ∧
    q = add32 h.heapVirtStart (h.heapSize + 4096 * j) / 4096

/-- **Kernel addresses are translated as before**, with the same access rights, except where the
heap has grown. -/
def KernelKept (k k' : Kernel) : Prop :=
  ∀ q, KernelPage q → ¬ GrownBy k.heap k'.heap q → KeepsPage k.vm k'.vm q

/-- The frames that are free do not take the size of the heap past `2 ^ 32`. -/
def HeapFits (k : Kernel) : Prop := k.heap.heapSize + 4096 * Pmm.clearBits k.vm.pmm < 2 ^ 32

variable {k₀ k k' : Kernel} {Page : Nat → Prop}

theorem HeapFits.mono (h : k.HeapFits) (hsize : k'.heap.heapSize = k.heap.heapSize)
    (hfree : ∀ g, Pmm.Free k'.vm.pmm g → Pmm.Free k.vm.pmm g) : k'.HeapFits := by
  have hmono := Pmm.clearBits_mono hfree
  unfold HeapFits at h ⊢
  omega

/-- What a `kmalloc` that returns does to the page tables and to the size of the heap. -/
inductive Grows (k k' : Kernel) : Prop
  | stays (hpaging : k'.vm.paging = k.vm.paging)
      (hfree : ∀ g, Pmm.Free k'.vm.pmm g → Pmm.Free k.vm.pmm g)
      (hsize : k'.heap.heapSize = k.heap.heapSize)
  | grows (hvm : k'.vm = (k.vm.backPage k.heap.newVirt (pagePresent ||| pageWrite)).2)
      (hsize : k'.heap.heapSize = k.heap.heapSize + 4096)
      (hframes : Pmm.clearBits k'.vm.pmm + 1 ≤ Pmm.clearBits k.vm.pmm)

theorem kmalloc_grows (h0 : ¬ Pmm.Free k.vm.pmm 0) (hfits : k.HeapFits) {size p : Nat}
    (hk : k.kmalloc size = some (p, k')) : Grows k k' := by
  obtain ⟨-, -, hvm⟩ := kmalloc_vm hk
  split at hvm
  · by_cases hz : k.vm.allocPage.1 = 0
    · rw [if_pos hz, Vm.backPage, if_pos hz] at hvm
      refine .stays (by rw [hvm.1]; rfl) (fun g hg => ?_) hvm.2
      rw [hvm.1] at hg
      exact Vm.free_of_alloc hg
    · rw [if_neg hz] at hvm
      -- the page is backed by a frame that was free
      have halloc := Vm.clearBits_alloc h0
      rw [if_neg hz] at halloc
      have hless : Pmm.clearBits k'.vm.pmm ≤ Pmm.clearBits k.vm.allocPage.2.pmm := by
        refine Pmm.clearBits_mono fun g hg => ?_
        rw [hvm.1, Vm.backPage, if_neg hz] at hg
        exact Vm.free_of_map hg
      unfold HeapFits at hfits
      refine .grows hvm.1 ?_ (by omega)
      rw [hvm.2, add32_of_lt (by simp only [pageSize]; omega)]
      rfl
  · exact .stays (by rw [hvm.1]) (fun g hg => by rwa [hvm.1] at hg) hvm.2

theorem fits_move (hroles : Roles k.vm k.dirs) (h : k.HeapFits) (hmove : Move Page k k') :
    k'.HeapFits := by
  cases hmove with
  | noFrame hz => exact h.mono rfl fun _ => Vm.free_of_alloc
  | back v flags hv hpage hflags => exact h.mono rfl fun _ => Vm.free_of_back
  | store v b hpage hq hsome => exact h.mono rfl fun _ hg => hg
  | kmalloc _ size p hk =>
    cases kmalloc_grows hroles.zero h hk with
    | stays _ hfree hsize => exact h.mono hsize hfree
    | grows _ hsize hframes =>
      unfold HeapFits at h ⊢
      omega
  | kfree ptr => exact h.mono (Heap.kfree_place k.heap ptr).size fun _ hg => hg

/-- **Step lemma.** -/
theorem fits_next (hroles : Roles k.vm k.dirs) (h : k.HeapFits) {a : Act} (ha : k.Enabled a) :
    (k.next a).HeapFits := by
  cases a with
  | kmalloc size =>
    obtain ⟨⟨p, k'⟩, hk⟩ := Option.isSome_iff_exists.mp ha
    rw [next, hk]
    exact fits_move hroles h (.kmalloc k k' size p hk : Move (fun _ => True) k k')
  | kfree ptr => exact h.mono (Heap.kfree_place k.heap ptr).size fun _ hg => hg
  | pageFault addr err =>
    refine h.mono rfl fun g hg => ?_
    rw [next, Vm.pageFault_eq _ ha.1] at hg
    split at hg
    · exact Vm.free_of_back hg
    · exact hg
  | elfExec fs reads path =>
    exact ((elfExec_userMoved ha reads k).inv (I := fun j => Roles j.vm j.dirs ∧ j.HeapFits)
      (fun _ _ hj hmove => ⟨roles_move hj.1 hmove, fits_move hj.1 hj.2 hmove⟩) ⟨hroles, h⟩).2
  | processCreate idle wrapper table s name entry =>
    obtain ⟨k', hk⟩ := Option.isSome_iff_exists.mp ha
    rw [next, hk]
    rcases processCreate_move hk with rfl | hmove
    · exact h
    · have hclone : k.clonePd.HeapFits := h.mono rfl fun _ => Vm.free_of_clone
      exact fits_move hroles.clone hclone (hmove : Move (fun _ => True) _ _)
  | switch pd => exact h.mono rfl fun _ hg => hg
  | back v flags => exact h.mono rfl fun _ => Vm.free_of_back
  | unmap v => exact h.mono rfl fun _ hg => hg
  | take pmm => exact h.mono rfl ha

/-- What moves in user space keep, from the state `k₀` on. -/
structure KernelSafe (k₀ k : Kernel) : Prop where
  roles : Roles k.vm k.dirs
  fits : k.HeapFits
  virt : k.heap.heapVirtStart = k₀.heap.heapVirtStart
  size : ∃ n, k.heap.heapSize = k₀.heap.heapSize + 4096 * n
  kept : KernelKept k₀ k

/-- Nothing but the pages of a move and a page of the heap changes. -/
theorem KernelKept.trans (h : KernelKept k₀ k) (hsize : k.heap.heapSize ≤ k'.heap.heapSize)
    (hkeep : ∀ q, KernelPage q → ¬ GrownBy k₀.heap k'.heap q → KeepsPage k.vm k'.vm q) :
    KernelKept k₀ k' := by
  intro q hq hgrown
  refine (h q hq ?_).trans (hkeep q hq hgrown)
  rintro ⟨j, hj, rfl⟩
  exact hgrown ⟨j, by omega, rfl⟩

theorem KernelSafe.kmalloc (h : KernelSafe k₀ k) {size p : Nat}
    (hk : k.kmalloc size = some (p, k')) :
    (∃ n, k'.heap.heapSize = k₀.heap.heapSize + 4096 * n) ∧ KernelKept k₀ k' := by
  obtain ⟨n, hn⟩ := h.size
  cases kmalloc_grows h.roles.zero h.fits hk with
  | stays hpaging _ hsize =>
    exact ⟨⟨n, hsize.trans hn⟩, h.kept.trans (by omega) fun _ _ _ => .of_paging hpaging⟩
  | grows hvm hsize =>
    refine ⟨⟨n + 1, by rw [hsize, hn, Nat.mul_succ, Nat.add_assoc]⟩,
      h.kept.trans (by omega) fun q hq hgrown => ?_⟩
    rw [hvm]
    refine h.roles.toTabled.back_keeps (add32_lt _ _) (by decide) hq.1 ?_
    rintro rfl
    refine hgrown ⟨n, by omega, ?_⟩
    rw [Heap.newVirt, h.virt, hn]

theorem KernelSafe.move (h : KernelSafe k₀ k) (hmove : Move UserPage k k') : KernelSafe k₀ k' := by
  have hroles := roles_move h.roles hmove
  have hfits := fits_move h.roles h.fits hmove
  cases hmove with
  | noFrame hz =>
    exact ⟨hroles, hfits, h.virt, h.size, h.kept.trans (Nat.le_refl _) fun _ _ _ => .of_paging rfl⟩
  | back v flags hv huser hflags =>
    refine ⟨hroles, hfits, h.virt, h.size, h.kept.trans (Nat.le_refl _) fun q hq _ => ?_⟩
    refine h.roles.toTabled.back_keeps hv hflags hq.1 ?_
    rintro rfl
    exact hq.2 huser
  | store v b huser hv hsome =>
    exact ⟨hroles, hfits, h.virt, h.size, h.kept.trans (Nat.le_refl _) fun q hq _ =>
      h.roles.store_keeps hv hsome b hq.1⟩
  | kmalloc _ size p hk =>
    obtain ⟨-, hvirt, -⟩ := kmalloc_vm hk
    obtain ⟨hsize, hkept⟩ := h.kmalloc hk
    exact ⟨hroles, hfits, hvirt.trans h.virt, hsize, hkept⟩
  | kfree ptr =>
    obtain ⟨-, hsize, hvirt⟩ := Heap.kfree_place k.heap ptr
    exact ⟨hroles, hfits, hvirt.trans h.virt, hsize ▸ h.size,
      h.kept.trans (Nat.le_of_eq hsize.symm) fun _ _ _ => .of_paging rfl⟩

/-! ## 3. `elf_exec` -/

theorem fits_boot {img : KernelImage} {heapMem : Mem} (hb : Booted img heapMem k) : k.HeapFits := by
  have hframes := hb.frames
  unfold HeapFits
  rw [hb.heap, show (Heap.heapInit heapMem 0xC0000000 0x100000).heapSize = 0x100000 from rfl]
  omega

/-- A file with one segment of one byte, all zeroes in memory, at the address `vaddr`. -/
def oneSegment (vaddr : List UInt8) : List UInt8 :=
  -- the header: magic, type 2, machine 3, entry 0x40000000, phoff 52, phnum 1
  [0x7F, 0x45, 0x4C, 0x46, 1, 1, 1, 0, 0, 0, 0, 0, 0, 0, 0, 0, 2, 0, 3, 0, 1, 0, 0, 0,
    0, 0, 0, 0x40, 52, 0, 0, 0, 0, 0, 0, 0, 0, 0, 0, 0, 52, 0, 32, 0, 1, 0, 0, 0, 0, 0, 0, 0] ++
  -- type 1, offset 84, the address, paddr, filesz 0, memsz 1, flags 6, align
  [1, 0, 0, 0, 84, 0, 0, 0] ++ vaddr ++ [0, 0, 0, 0, 0, 0, 0, 0, 1, 0, 0, 0, 6, 0, 0, 0,
    0, 0, 0, 0]

/-- A file system with one file, that takes nothing from the heap. -/
def oneFile (file : List UInt8) : FileSystem := ⟨fun _ => some file, fun _ _ => [], fun _ _ _ => []⟩

/-- All reads deliver what they are asked for. -/
def allReads : Reads := ⟨headerSize, programHeaderSize, fun _ => 0⟩

section Run

variable {fs : FileSystem}

theorem backPage_ok {v : UInt32} {flags : Nat} {fail : Load Rest Unit} (hz : k.vm.allocPage.1 ≠ 0) :
    Elf.backPage (calls fs) v flags fail k.toSys
      = .ok () { k with vm := (k.vm.backPage v.toNat flags).2 }.toSys := by
  unfold Elf.backPage
  rw [bind_eq (show Elf.allocPage (calls fs) k.toSys
    = .ok k.vm.allocPage.1 { k with vm := k.vm.allocPage.2 }.toSys from rfl), if_neg hz]
  unfold Elf.mapPage
  rw [show (calls fs).pmmAllocPage = Rest.allocPage from rfl, pagingMapPage_rest, Vm.backPage,
    if_neg hz]
  rfl

theorem store8_ok {v : Nat} (b : UInt8) (hsome : (k.vm.entry (v / 4096)).isSome) :
    store8 (calls fs) v b k.toSys = .ok () { k with vm := k.vm.store v b }.toSys := by
  have htouch : touch (calls fs) v faultLimit k.toSys = .ok () k.toSys := by
    rw [show faultLimit = (2 ^ 20 - 1) + 1 from rfl, touch]
    exact if_pos hsome
  exact (bind_eq htouch).trans rfl

end Run

/-- A segment in the last page of the kernel heap. -/
def heapFile : List UInt8 := oneSegment [0, 0xF0, 0x0F, 0xC0]

/-- A segment at the start of user space. -/
def userFile : List UInt8 := oneSegment [0, 0, 0, 0x40]

theorem userFile_headers : fileProgramHeaders userFile = [⟨ptLoad, 84, 0x40000000, 0, 1, 6⟩] := by
  decide +kernel

theorem heapFile_header (s : Sys Rest) :
    readHeader (calls (oneFile heapFile)) allReads heapFile s = .ok (fileHeader heapFile) s := by
  have hread : vfsRead (calls (oneFile heapFile)) heapFile allReads.header 0 headerSize s
      = .ok ((heapFile.take headerSize).take headerSize) s := rfl
  refine (bind_eq hread).trans ?_
  have hlen : ¬ ((heapFile.take headerSize).take headerSize).length ≠ headerSize := by decide
  have hmagic : ¬ (Header.parse ((heapFile.take headerSize).take headerSize)).magic ≠ elfMagic := by
    decide +kernel
  have hmachine :
      ¬ (Header.parse ((heapFile.take headerSize).take headerSize)).machine ≠ em386 := by
    decide +kernel
  have htype : ¬ (Header.parse ((heapFile.take headerSize).take headerSize)).type ≠ etExec := by
    decide +kernel
  rw [if_neg hlen, if_neg hmagic, if_neg hmachine, if_neg htype]
  rfl

theorem heapFile_table {p : Nat} (hk : k.kmalloc 32 = some (p, k')) (hp : p ≠ 0) :
    readProgramHeaders (calls (oneFile heapFile)) allReads heapFile (fileHeader heapFile) k.toSys
      = .ok (p, [⟨ptLoad, 84, 0xC00FF000, 0, 1, 6⟩]) k'.toSys := by
  have hsize : (fileHeader heapFile).phnum.toNat * programHeaderSize = 32 := by decide +kernel
  have hmalloc : (calls (oneFile heapFile)).kmalloc
      ((fileHeader heapFile).phnum.toNat * programHeaderSize) k.toSys = .ok p k'.toSys := by
    rw [hsize]
    change kmallocLoad 32 k.toSys = _
    unfold kmallocLoad
    rw [show (ofSys k.toSys).kmalloc 32 = k.kmalloc 32 from rfl, hk]
  refine (bind_eq hmalloc).trans ?_
  rw [if_neg hp]
  have hread : vfsRead (calls (oneFile heapFile)) heapFile allReads.table
      (fileHeader heapFile).phoff.toNat ((fileHeader heapFile).phnum.toNat * programHeaderSize)
      k'.toSys = .ok (((heapFile.drop (fileHeader heapFile).phoff.toNat).take
        ((fileHeader heapFile).phnum.toNat * programHeaderSize)).take programHeaderSize) k'.toSys :=
    rfl
  refine (bind_eq hread).trans ?_
  rw [if_neg (by decide +kernel)]
  have htable : programHeaders (((heapFile.drop (fileHeader heapFile).phoff.toNat).take
      ((fileHeader heapFile).phnum.toNat * programHeaderSize)).take programHeaderSize)
        (fileHeader heapFile).phnum.toNat = [⟨ptLoad, 84, 0xC00FF000, 0, 1, 6⟩] := by
    decide +kernel
  rw [htable]
  rfl

/-- Loading the segment backs its page and clears its byte. -/
theorem heapFile_segment {p : Nat} (hz : k.vm.allocPage.1 ≠ 0)
    (hsome : ((k.vm.backPage 0xC00FF000 7).2.entry 0xC00FF).isSome) :
    loadSegments (calls (oneFile heapFile)) allReads heapFile p 0
      [⟨ptLoad, 84, 0xC00FF000, 0, 1, 6⟩] k.toSys
      = .ok () { k with vm := (k.vm.backPage 0xC00FF000 7).2.store 0xC00FF000 0 }.toSys := by
  generalize hk₂ : (k.vm.backPage 0xC00FF000 7).2 = vm₂ at hsome
  have hback : mapSegmentPages (calls (oneFile heapFile)) p 7 1 0xC00FF000 k.toSys
      = .ok () { k with vm := vm₂ }.toSys := by
    rw [← hk₂]
    exact (bind_eq (backPage_ok hz)).trans rfl
  have hstore : store8 (calls (oneFile heapFile)) 0xC00FF000 0 { k with vm := vm₂ }.toSys
      = .ok () { k with vm := vm₂.store 0xC00FF000 0 }.toSys := store8_ok 0 hsome
  have hclear : clearBss (calls (oneFile heapFile)) ⟨ptLoad, 84, 0xC00FF000, 0, 1, 6⟩
      { k with vm := vm₂ }.toSys = .ok () { k with vm := vm₂.store 0xC00FF000 0 }.toSys := by
    unfold clearBss
    rw [if_pos (by decide)]
    exact (bind_eq hstore).trans rfl
  have hload : loadSegment (calls (oneFile heapFile)) allReads heapFile p 0
      ⟨ptLoad, 84, 0xC00FF000, 0, 1, 6⟩ k.toSys
      = .ok () { k with vm := vm₂.store 0xC00FF000 0 }.toSys := by
    unfold loadSegment
    rw [if_neg (by decide)]
    refine (bind_eq hback).trans ?_
    exact hclear
  exact (bind_eq hload).trans rfl

/-- After boot the table of program headers is served from the heap as it is. -/
theorem booted_kmalloc {img : KernelImage} {heapMem : Mem} (hb : Booted img heapMem k) :
    ∃ p h', k.kmalloc 32 = some (p, { k with heap := h' }) ∧ p ≠ 0 ∧
      h'.heapSize = k.heap.heapSize := by
  obtain ⟨h', hk, -, -, hsize⟩ := kmalloc_served (booted_heapInv hb) (n := 32) (a := 0xC0000000)
    (by decide) (by decide) (by decide : _ = some (_, [⟨0xC0000000, 48, false⟩,
      ⟨0xC0000030, 0xFFFD0, true⟩]))
  exact ⟨_, h', hk, by decide, hsize⟩

/-- The stack, when there are frames for it. -/
theorem mapStack_ok {fs : FileSystem} (h : Roles k.vm k.dirs)
    (hframes : 4 ≤ Pmm.clearBits k.vm.pmm) : ∃ vm', mapStack (calls fs) k.toSys
      = .ok () { k with vm := vm' }.toSys ∧
        ∀ q < 2 ^ 20, ¬ UserPage q → KeepsPage k.vm vm' q := by
  have hz : k.vm.allocPage.1 ≠ 0 := Pmm.alloc_ne_zero h.zero (by omega)
  have hflags : pagePresent ||| pageWrite ||| pageUser < 0x1000 := by decide
  have hleft := Vm.clearBits_back h.zero 0xBFFFF000 (pagePresent ||| pageWrite ||| pageUser)
  have hroles := h.back (show 0xBFFFF000 < 2 ^ 32 by decide) hflags
  have hkeep : ∀ q < 2 ^ 20, ¬ UserPage q →
      KeepsPage k.vm (k.vm.backPage 0xBFFFF000 (pagePresent ||| pageWrite ||| pageUser)).2 q := by
    intro q hq huser
    refine h.toTabled.back_keeps (by decide) hflags hq ?_
    rintro rfl
    exact huser (by decide)
  have hfirst : Elf.backPage (calls fs) (stackBase - 4096) (pagePresent ||| pageWrite ||| pageUser)
      (mapStack.fail) k.toSys = .ok () { k with vm := _ }.toSys := backPage_ok hz
  rw [show (stackBase - 4096).toNat = 0xBFFFF000 by decide] at hfirst
  generalize (k.vm.backPage 0xBFFFF000 (pagePresent ||| pageWrite ||| pageUser)).2 = vm₁
    at hleft hroles hkeep hfirst
  have hz₁ : vm₁.allocPage.1 ≠ 0 := Pmm.alloc_ne_zero hroles.zero (by omega)
  have hsecond : Elf.backPage (calls fs) (stackBase - 2 * 4096)
      (pagePresent ||| pageWrite ||| pageUser) (mapStack.fail) { k with vm := vm₁ }.toSys
      = .ok () { k with vm := _ }.toSys := backPage_ok hz₁
  rw [show (stackBase - 2 * 4096).toNat = 0xBFFFE000 by decide] at hsecond
  refine ⟨_, (bind_eq hfirst).trans hsecond, fun q hq huser => ?_⟩
  refine (hkeep q hq huser).trans (hroles.toTabled.back_keeps (by decide) hflags hq ?_)
  rintro rfl
  exact huser (by decide)

end Kernel

end FlowOS
