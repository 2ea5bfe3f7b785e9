/-
# What `elf_exec` can touch

The loader backs pages and stores bytes, and which ones is decided by the program headers alone,
in 32-bit arithmetic: `Backs` and `Stores` say which.  The rule of this module follows
`elf_exec` through once, for any relation between states: if backing those pages, storing those
bytes, and the calls of the other parts of the kernel all move a state within the relation, then
so does `elf_exec`, whichever way it ends.
-/
import FlowOS.Elf.Basic
import FlowOS.Lib.Prog
import FlowOS.Paging.Map

namespace FlowOS.Elf

open Word Frames Paging Prog

/-! ## 1. The program headers of a file -/

/-- The header of a file. -/
def fileHeader (file : List UInt8) : Header := .parse (file.take headerSize)

/-- The program headers of a file. -/
def fileProgramHeaders (file : List UInt8) : List ProgramHeader :=
  let header := fileHeader file
  programHeaders ((file.drop header.phoff.toNat).take (header.phnum.toNat * programHeaderSize))
    header.phnum.toNat

/-- A read that delivered as many bytes as were asked for delivered those of the file. -/
theorem take_take_of_length {l : List UInt8} {n o : Nat} (h : ((l.take n).take o).length = n) :
    (l.take n).take o = l.take n := by
  refine List.take_of_length_le ?_
  rw [List.length_take] at h
  have := List.length_take_le n l
  omega

/-- Program header `i` of a file is that of a segment to load. -/
def IsSegment (file : List UInt8) (i : Nat) (ph : ProgramHeader) : Prop :=
  (fileProgramHeaders file)[i]? = some ph ∧ ph.type = ptLoad

namespace ProgramHeader

/-- The loader backs page `q` for the segment. -/
def Backs (ph : ProgramHeader) (q : Nat) : Prop :=
  ∃ j < ph.numPages.toNat, q = (ph.pageStart + 4096 * UInt32.ofNat j).toNat / 4096

/-- The loader stores a byte of the segment at address `u`. -/
def Stores (ph : ProgramHeader) (u : Nat) : Prop :=
  ∃ j < max ph.filesz.toNat ph.memsz.toNat, u = (ph.vaddr + UInt32.ofNat j).toNat

theorem pageStart_eq (ph : ProgramHeader) : ph.pageStart.toNat = frameOf ph.vaddr.toNat := by
  rw [pageStart, UInt32.toNat_and]
  exact and_mask_eq ph.vaddr.toNat_lt

/-- The pages that the segment takes. -/
def pages (ph : ProgramHeader) : Nat :=
  (ph.vaddr.toNat % 4096 + ph.memsz.toNat + 0xFFF) / 4096

/-- `num_pages` is their number as far as 20 bits go. -/
theorem numPages_eq (ph : ProgramHeader) : ph.numPages.toNat = ph.pages % 2 ^ 20 := by
  have hv := ph.vaddr.toNat_lt
  have hm := ph.memsz.toNat_lt
  have hend : ph.pageEnd.toNat = frameOf ((ph.vaddr.toNat + ph.memsz.toNat + 0xFFF) % 2 ^ 32) := by
    have hadd : (ph.vaddr + ph.memsz + 0xFFF).toNat
        = (ph.vaddr.toNat + ph.memsz.toNat + 0xFFF) % 2 ^ 32 := by
      rw [UInt32.toNat_add, UInt32.toNat_add]
      change ((ph.vaddr.toNat + ph.memsz.toNat) % 2 ^ 32 + 0xFFF) % 2 ^ 32 = _
      omega
    rw [pageEnd, UInt32.toNat_and, hadd]
    exact and_mask_eq (Nat.mod_lt _ (by decide))
  have hnum : ph.numPages.toNat
      = (2 ^ 32 - ph.pageStart.toNat + ph.pageEnd.toNat) % 2 ^ 32 / 4096 := by
    rw [numPages, UInt32.toNat_div, UInt32.toNat_sub]
    rfl
  rw [hnum, ph.pageStart_eq, hend, pages]
  unfold frameOf
  omega

/-- The pages of a segment that does not run past user space. -/
theorem pages_eq (ph : ProgramHeader) (hhigh : ph.vaddr.toNat + ph.memsz.toNat ≤ 0xC0000000) :
    ph.pageStart.toNat / 4096 = ph.vaddr.toNat / 4096 ∧
      ph.pageStart.toNat / 4096 + ph.numPages.toNat =
        (ph.vaddr.toNat + ph.memsz.toNat + 0xFFF) / 4096 := by
  rw [ph.numPages_eq, ph.pageStart_eq, pages]
  unfold frameOf
  omega

end ProgramHeader

/-- The pages of user space, from 0x40000000 up to 0xC0000000. -/
def UserPage (q : Nat) : Prop := 0x40000 ≤ q ∧ q < 0xC0000

instance (q : Nat) : Decidable (UserPage q) := instDecidableAnd

/-- The addresses of user space. -/
theorem userPage_of {v : Nat} (h1 : 0x40000000 ≤ v) (h2 : v < 0xC0000000) :
    UserPage (v / 4096) := by
  constructor <;> omega

/-- The segment lies in user space, in memory and as far as the file goes. -/
def ProgramHeader.InUserSpace (ph : ProgramHeader) : Prop :=
  0x40000000 ≤ ph.vaddr.toNat ∧ ph.vaddr.toNat + max ph.filesz.toNat ph.memsz.toNat ≤ 0xC0000000

/-- Its pages and its bytes are then in user space. -/
theorem ProgramHeader.InUserSpace.within {ph : ProgramHeader} (h : ph.InUserSpace) :
    (∀ q, ph.Backs q → UserPage q) ∧ ∀ u, ph.Stores u → UserPage (u / 4096) := by
  obtain ⟨hlow, hhigh⟩ := h
  obtain ⟨hstart, hnum⟩ := ph.pages_eq (by omega)
  constructor
  · rintro q ⟨j, hj, rfl⟩
    have haligned : ph.pageStart.toNat = ph.pageStart.toNat / 4096 * 4096 := by
      rw [ph.pageStart_eq, frameOf, Nat.mul_div_cancel _ (by decide)]
    have hadd : (ph.pageStart + 4096 * UInt32.ofNat j).toNat
        = (ph.pageStart.toNat + 4096 * j) % 2 ^ 32 := by
      rw [UInt32.toNat_add, UInt32.toNat_mul, UInt32.toNat_ofNat']
      change (ph.pageStart.toNat + 4096 * (j % 2 ^ 32) % 2 ^ 32) % 2 ^ 32 = _
      omega
    rw [hadd, UserPage]
    omega
  · rintro u ⟨j, hj, rfl⟩
    have hadd : (ph.vaddr + UInt32.ofNat j).toNat = ph.vaddr.toNat + j := by
      rw [UInt32.toNat_add, UInt32.toNat_ofNat']
      omega
    rw [hadd]
    exact userPage_of (by omega) (by omega)

/-! ## 2. The rule -/

variable {σ : Type}

/-- Backing pages in `Page`, storing at addresses in `Addr`, and what a read does besides filling
the buffer all move a state within `R`. -/
structure Works (c : Calls σ) (R : Sys σ → Sys σ → Prop) (Page Addr : Nat → Prop) : Prop where
  refl : ∀ s, R s s
  trans : ∀ s t u, R s t → R t u → R s u
  noFrame : ∀ s, (c.pmmAllocPage s.rest).1 = 0 → R s { s with rest := (c.pmmAllocPage s.rest).2 }
  back : ∀ s, (c.pmmAllocPage s.rest).1 ≠ 0 → ∀ v : UInt32, Page (v.toNat / 4096) →
    ∀ flags < 0x1000,
      let r := pagingMapPage c.pmmAllocPage (c.pmmAllocPage s.rest).2 s.paging v.toNat
        (c.pmmAllocPage s.rest).1 flags
      R s ⟨r.1, r.2⟩
  store : ∀ v : UInt32, Addr v.toNat → ∀ b s, Moves R (store8 c v.toNat b) s
  work : ∀ o n s, Moves R (c.vfsWork o n) s

/-- Backing pages in `Page`, storing at addresses in `Addr`, and the calls the loader makes all
move a state within `R`. -/
structure Permits (c : Calls σ) (R : Sys σ → Sys σ → Prop) (Page Addr : Nat → Prop) : Prop where
  refl : ∀ s, R s s
  trans : ∀ s t u, R s t → R t u → R s u
  noFrame : ∀ s, (c.pmmAllocPage s.rest).1 = 0 → R s { s with rest := (c.pmmAllocPage s.rest).2 }
  back : ∀ s, (c.pmmAllocPage s.rest).1 ≠ 0 → ∀ v : UInt32, Page (v.toNat / 4096) →
    ∀ flags < 0x1000,
      let r := pagingMapPage c.pmmAllocPage (c.pmmAllocPage s.rest).2 s.paging v.toNat
        (c.pmmAllocPage s.rest).1 flags
      R s ⟨r.1, r.2⟩
  store : ∀ v : UInt32, Addr v.toNat → ∀ b s, Moves R (store8 c v.toNat b) s
  kmalloc : ∀ n s, Moves R (c.kmalloc n) s
  kfree : ∀ p s, Moves R (c.kfree p) s
  finddir : ∀ path s, Moves R (c.vfsFinddir path) s
  work : ∀ o n s, Moves R (c.vfsWork o n) s

variable {c : Calls σ} {R : Sys σ → Sys σ → Prop} {Page Addr : Nat → Prop} {s : Sys σ}

theorem vfsRead_ok {file b : List UInt8} {outcome o n : Nat} {s' : Sys σ}
    (hrun : vfsRead c file outcome o n s = .ok b s') : b = ((file.drop o).take n).take outcome := by
  obtain ⟨_, _, -, hpure⟩ := bind_ok hrun
  exact (pure_ok hpure).1.symm

theorem Permits.works (hR : Permits c R Page Addr) : Works c R Page Addr where
  refl := hR.refl
  trans := hR.trans
  noFrame := hR.noFrame
  back := hR.back
  store := hR.store
  work := hR.work

theorem Works.vfsRead (hR : Works c R Page Addr) (file : List UInt8) (outcome o n : Nat) :
    Moves R (vfsRead c file outcome o n) s :=
  (hR.work o n s).bind hR.trans fun _ _ _ => moves_pure hR.refl _

theorem backPage_eq (c : Calls σ) (v : UInt32) (flags : Nat) (fail : Load σ Unit) (s : Sys σ) :
    backPage c v flags fail s = if (c.pmmAllocPage s.rest).1 = 0
      then fail { s with rest := (c.pmmAllocPage s.rest).2 }
      else mapPage c v.toNat (c.pmmAllocPage s.rest).1 flags
        { s with rest := (c.pmmAllocPage s.rest).2 } := by
  unfold backPage
  rw [bind_eq (show allocPage c s = .ok (c.pmmAllocPage s.rest).1
    { s with rest := (c.pmmAllocPage s.rest).2 } from rfl)]
  split <;> rfl

theorem Works.backPage (hR : Works c R Page Addr) {v : UInt32} (hv : Page (v.toNat / 4096))
    {flags : Nat} (hflags : flags < 0x1000) {fail : Load σ Unit} (hfail : ∀ s, Moves R fail s) :
    Moves R (backPage c v flags fail) s := by
  unfold Moves
  rw [backPage_eq]
  split
  · rename_i hz
    exact hR.trans _ _ _ (hR.noFrame s hz) (hfail _)
  · rename_i hz
    exact hR.back s hz v hv flags hflags

/-- Storing bytes from `v` on. -/
theorem Works.storeBytes (hR : Works c R Page Addr) {bs : List UInt8} :
    ∀ {v : UInt32} {s : Sys σ}, (∀ j < bs.length, Addr (v + UInt32.ofNat j).toNat) →
      Moves R (storeBytes c bs v) s := by
  induction bs with
  | nil =>
    intro v s _
    exact moves_pure hR.refl ()
  | cons b bs ih =>
    intro v s hall
    have h0 : Addr v.toNat := by
      have := hall 0 (by simp)
      rwa [show UInt32.ofNat 0 = 0 from rfl, UInt32.add_zero] at this
    refine (hR.store v h0 b s).bind hR.trans fun _ _ _ => ih ?_
    intro j hj
    have := hall (j + 1) (by simpa using hj)
    rwa [UInt32.ofNat_add, UInt32.add_comm (UInt32.ofNat j), ← UInt32.add_assoc] at this

theorem Permits.mapSegmentPages (hR : Permits c R Page Addr) (pheaders : Nat) {flags : Nat}
    (hflags : flags < 0x1000) {n : Nat} : ∀ {v : UInt32} {s : Sys σ},
      (∀ j < n, Page ((v + 4096 * UInt32.ofNat j).toNat / 4096)) →
      Moves R (mapSegmentPages c pheaders flags n v) s := by
  induction n with
  | zero =>
    intro v s _
    exact moves_pure hR.refl ()
  | succ n ih =>
    intro v s hall
    have h0 : Page (v.toNat / 4096) := by
      have := hall 0 (by omega)
      rwa [show UInt32.ofNat 0 = 0 from rfl, UInt32.mul_zero, UInt32.add_zero] at this
    refine (hR.works.backPage h0 hflags ?_).bind hR.trans fun _ _ _ => ih ?_
    · intro s
      exact (hR.kfree pheaders s).bind hR.trans fun _ _ _ => moves_throw hR.refl _
    · intro j hj
      have := hall (j + 1) (by omega)
      rwa [UInt32.ofNat_add, UInt32.mul_add, UInt32.add_comm (4096 * UInt32.ofNat j),
        ← UInt32.add_assoc] at this

/-- The segment backs pages of `Page` and stores at addresses of `Addr`. -/
def Within (Page Addr : Nat → Prop) (ph : ProgramHeader) : Prop :=
  ph.type = ptLoad → (∀ q, ph.Backs q → Page q) ∧ ∀ u, ph.Stores u → Addr u

theorem pageFlags_lt (ph : ProgramHeader) : ph.pageFlags < 0x1000 := by
  unfold ProgramHeader.pageFlags
  split <;> decide

/-- Reading a segment whose addresses are within `Addr`. -/
theorem Works.readSegment (hR : Works c R Page Addr) (reads : Reads) (file : List UInt8) (i : Nat)
    {ph : ProgramHeader} (haddrs : ∀ u, ph.Stores u → Addr u) :
    Moves R (readSegment c reads file i ph) s := by
  unfold Elf.readSegment
  split
  · refine (hR.vfsRead file _ _ _).bind hR.trans fun data s₁ hread => hR.storeBytes ?_
    intro j hj
    refine haddrs _ ⟨j, ?_, rfl⟩
    have hlen : data.length ≤ ph.filesz.toNat := by
      rw [vfsRead_ok hread]
      exact (List.length_take_le' _ _).trans (List.length_take_le _ _)
    exact Nat.lt_of_lt_of_le hj (hlen.trans (Nat.le_max_left _ _))
  · exact moves_pure hR.refl ()

theorem Works.clearBss (hR : Works c R Page Addr) {ph : ProgramHeader}
    (haddrs : ∀ u, ph.Stores u → Addr u) : Moves R (clearBss c ph) s := by
  unfold Elf.clearBss
  split
  · rename_i hlt
    refine hR.storeBytes fun j hj => ?_
    rw [List.length_replicate, UInt32.toNat_sub_of_le _ _ (UInt32.le_of_lt hlt)] at hj
    refine haddrs _ ⟨ph.filesz.toNat + j, by omega, ?_⟩
    rw [UInt32.ofNat_add, UInt32.ofNat_toNat, UInt32.add_assoc]
  · exact moves_pure hR.refl ()

theorem Permits.loadSegment (hR : Permits c R Page Addr) (reads : Reads) (file : List UInt8)
    (pheaders i : Nat) {ph : ProgramHeader} (hph : Within Page Addr ph) :
    Moves R (loadSegment c reads file pheaders i ph) s := by
  unfold Elf.loadSegment
  split
  · exact moves_pure hR.refl ()
  · rename_i htype
    obtain ⟨hpages, haddrs⟩ := hph (not_not.mp htype)
    refine (hR.mapSegmentPages pheaders (pageFlags_lt ph) fun j hj => hpages _ ⟨j, hj, rfl⟩).bind
      hR.trans fun _ _ _ => ?_
    exact (hR.works.readSegment reads file i haddrs).bind hR.trans fun _ _ _ =>
      hR.works.clearBss haddrs

theorem Permits.loadSegments (hR : Permits c R Page Addr) (reads : Reads) (file : List UInt8)
    (pheaders : Nat) {phs : List ProgramHeader} : ∀ {i : Nat} {s : Sys σ},
      (∀ ph ∈ phs, Within Page Addr ph) → Moves R (loadSegments c reads file pheaders i phs) s := by
  induction phs with
  | nil =>
    intro i s _
    exact moves_pure hR.refl ()
  | cons ph phs ih =>
    intro i s hall
    obtain ⟨hph, hphs⟩ := List.forall_mem_cons.mp hall
    exact (hR.loadSegment reads file pheaders i hph).bind hR.trans fun _ _ _ => ih hphs

theorem Works.readHeader (hR : Works c R Page Addr) (reads : Reads) (file : List UInt8) :
    Moves R (readHeader c reads file) s := by
  refine (hR.vfsRead file _ _ _).bind hR.trans fun b s₁ _ => ?_
  dsimp only
  split
  · exact moves_throw hR.refl _
  · split
    · exact moves_throw hR.refl _
    · split
      · exact moves_throw hR.refl _
      · split
        · exact moves_throw hR.refl _
        · exact moves_pure hR.refl _

theorem Permits.readProgramHeaders (hR : Permits c R Page Addr) (reads : Reads)
    (file : List UInt8) (header : Header) : Moves R (readProgramHeaders c reads file header) s := by
  refine (hR.kmalloc _ _).bind hR.trans fun ptr s₁ _ => ?_
  split
  · exact moves_throw hR.refl _
  · refine (hR.works.vfsRead file _ _ _).bind hR.trans fun table s₂ _ => ?_
    split
    · exact (hR.kfree ptr _).bind hR.trans fun _ _ _ => moves_throw hR.refl _
    · exact moves_pure hR.refl _

/-! ## 3. The program headers it uses are the file's -/

theorem readHeader_header {reads : Reads} {file : List UInt8} {header : Header} {s' : Sys σ}
    (hrun : readHeader c reads file s = .ok header s') : header = fileHeader file := by
  obtain ⟨b, s₁, hread, hrest⟩ := bind_ok hrun
  obtain rfl := vfsRead_ok hread
  split at hrest
  · exact (throw_ok hrest).elim
  · rename_i hlen
    rw [take_take_of_length (not_not.mp hlen)] at hrest
    dsimp only at hrest
    split at hrest
    · exact (throw_ok hrest).elim
    · split at hrest
      · exact (throw_ok hrest).elim
      · split at hrest
        · exact (throw_ok hrest).elim
        · exact (pure_ok hrest).1.symm

theorem readProgramHeaders_headers {reads : Reads} {file : List UInt8}
    {p : Nat × List ProgramHeader} {s' : Sys σ}
    (hrun : readProgramHeaders c reads file (fileHeader file) s = .ok p s') :
    p.2 = fileProgramHeaders file := by
  obtain ⟨ptr, s₁, -, hrest⟩ := bind_ok hrun
  split at hrest
  · exact (throw_ok hrest).elim
  · obtain ⟨table, s₂, hread, hrest⟩ := bind_ok hrest
    obtain rfl := vfsRead_ok hread
    split at hrest
    · obtain ⟨-, s₃, -, hthrow⟩ := bind_ok hrest
      exact (throw_ok hthrow).elim
    · rename_i hlen
      obtain ⟨rfl, -⟩ := pure_ok hrest
      dsimp only
      rw [take_take_of_length (not_not.mp hlen)]
      rfl

/-- **`elf_exec` moves within `R`** when the segments of the file and the stack lie within the
pages and addresses that `R` permits. -/
theorem Permits.elfExec (hR : Permits c R Page Addr) (reads : Reads) (path : String)
    (hstack : Page 0xBFFFF ∧ Page 0xBFFFE)
    (hfile : ∀ file s', c.vfsFinddir path s = .ok (some file) s' →
      ∀ ph ∈ fileProgramHeaders file, Within Page Addr ph) :
    Moves R (elfExec c reads path) s := by
  refine (hR.finddir path s).bind hR.trans fun found s₁ hfind => ?_
  cases found with
  | none => exact moves_throw hR.refl _
  | some file =>
    refine (hR.works.readHeader reads file).bind hR.trans fun header s₂ hheader => ?_
    obtain rfl := readHeader_header hheader
    refine (hR.readProgramHeaders reads file _).bind hR.trans fun p s₃ htable => ?_
    rw [readProgramHeaders_headers htable]
    refine (hR.loadSegments reads file p.1 (hfile file s₁ hfind)).bind hR.trans fun _ _ _ => ?_
    refine (hR.kfree p.1 _).bind hR.trans fun _ _ _ => ?_
    refine Moves.bind hR.trans ?_ fun _ _ _ => moves_pure hR.refl _
    have hflags : pagePresent ||| pageWrite ||| pageUser < 0x1000 := by decide
    have htop : (stackBase - 4096).toNat / 4096 = 0xBFFFF := by decide
    have hnext : (stackBase - 2 * 4096).toNat / 4096 = 0xBFFFE := by decide
    refine (hR.works.backPage (htop ▸ hstack.1) hflags fun _ => moves_throw hR.refl _).bind
      hR.trans ?_
    exact fun _ _ _ => hR.works.backPage (hnext ▸ hstack.2) hflags fun _ => moves_throw hR.refl _

end FlowOS.Elf
