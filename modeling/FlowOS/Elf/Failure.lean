/-
# `elf_exec` when it gives up

Once the file is found, `elf_exec` can return -1 in eight places.  On its way it holds one
allocation of its own, the program headers: it frees them before it returns, on every path on which
it has them.  It frees nothing else, and takes no page back.

The rule of this module says so for any calls: if `P` is kept by everything the loader does, with
or without the program headers, then `P` holds whenever it has given up (`Lends.elfExec`).
-/
import FlowOS.Elf.Moves

namespace FlowOS.Elf

open Word Frames Paging Prog

variable {σ : Type} {α β : Type}

/-! ## 1. Panics -/

/-- If the run does not return a value, the machine has panicked. -/
def OnlyPanics (x : Load σ α) : Prop := ∀ s e t, x s = .error e t → e = .panics

theorem onlyPanics_pure (a : α) : OnlyPanics (pure a : Load σ α) := by
  intro s e t h
  cases h

theorem OnlyPanics.bind {x : Load σ α} {f : α → Load σ β} (hx : OnlyPanics x)
    (hf : ∀ a, OnlyPanics (f a)) : OnlyPanics (x >>= f) := by
  intro s e t h
  change EStateM.bind x f s = .error e t at h
  unfold EStateM.bind at h
  split at h
  · exact hf _ _ _ _ h
  · rename_i hxs
    cases h
    exact hx _ _ _ hxs

theorem onlyPanics_touch (c : Calls σ) (v n : Nat) : OnlyPanics (touch c v n) := by
  induction n with
  | zero =>
    intro s e t h
    cases h
    rfl
  | succ n ih =>
    intro s e t h
    unfold touch at h
    split at h
    · cases h
    · dsimp only at h
      split at h
      · exact ih _ _ _ h
      · cases h
        rfl

theorem onlyPanics_store8 (c : Calls σ) (v : Nat) (b : UInt8) : OnlyPanics (store8 c v b) := by
  refine (onlyPanics_touch c v faultLimit).bind fun _ => ?_
  intro s e t h
  cases h

theorem onlyPanics_storeBytes (c : Calls σ) (bs : List UInt8) :
    ∀ v, OnlyPanics (storeBytes c bs v) := by
  induction bs with
  | nil => exact fun _ => onlyPanics_pure ()
  | cons b bs ih => exact fun v => (onlyPanics_store8 c v.toNat b).bind fun _ => ih (v + 1)

/-- The error is returned with `P`; of a panic nothing is said. -/
def GivesUp (P : Sys σ → Prop) (e : Stop) (t : Sys σ) : Prop := ∀ r, e = .returns r → P t

variable {c : Calls σ} {P P' : Sys σ → Prop} {R : Sys σ → Sys σ → Prop}

theorem givesUp_of {e : Stop} {s : Sys σ} (h : P s) : GivesUp P e s := fun _ _ => h

/-- What every run keeps holds if the run returns. -/
theorem OnlyPanics.ends {x : Load σ α} (hpanics : OnlyPanics x)
    (hx : ∀ s, Moves (fun s t => P s → P t) x s) : Ends P x (fun _ => P) (GivesUp P') := by
  intro s hs
  have hend := hx s hs
  cases hrun : x s with
  | ok a t =>
    rw [hrun] at hend
    exact hend
  | error e t =>
    intro r hr
    rw [hpanics s e t hrun] at hr
    cases hr

/-! ## 2. The rule -/

/-- `P` is kept by what the loader does, and `Q e` while it holds the program headers, where `e` is
their address and size. -/
structure Lends (c : Calls σ) (P : Sys σ → Prop) (Q : Nat × Nat → Sys σ → Prop) : Prop where
  free : Works c (fun s t => P s → P t) (fun _ => True) fun _ => True
  held : ∀ e, Works c (fun s t => Q e s → Q e t) (fun _ => True) fun _ => True
  panics : ∀ o n, OnlyPanics (c.vfsWork o n)
  kmalloc : ∀ n < 2 ^ 24,
    Ends P (c.kmalloc n) (fun p s => if p = 0 then P s else Q (p, n) s) (GivesUp P)
  kfree : ∀ e, Ends (Q e) (c.kfree e.1) (fun _ => P) (GivesUp P)

variable {Q : Nat × Nat → Sys σ → Prop}

theorem onlyPanics_vfsRead (h : ∀ o n, OnlyPanics (c.vfsWork o n)) (file : List UInt8)
    (outcome o n : Nat) : OnlyPanics (vfsRead c file outcome o n) :=
  (h o n).bind fun _ => onlyPanics_pure _

/-- Backing a page, or giving up as `fail` does. -/
theorem ends_backPage (hR : Works c (fun s t => P s → P t) (fun _ => True) fun _ => True)
    {v : UInt32} {flags : Nat} (hflags : flags < 0x1000) {fail : Load σ Unit}
    {E : Stop → Sys σ → Prop}
    (hfail : Ends P fail (fun _ => P) E) : Ends P (backPage c v flags fail) (fun _ => P) E := by
  intro s hs
  rw [backPage_eq]
  by_cases hz : (c.pmmAllocPage s.rest).1 = 0
  · rw [if_pos hz]
    exact hfail _ (hR.noFrame s hz hs)
  · rw [if_neg hz]
    exact hR.back s hz v trivial flags hflags hs

/-- Without a frame the program headers are freed. -/
theorem Lends.mapSegmentPages (h : Lends c P Q) (e : Nat × Nat) {flags : Nat}
    (hflags : flags < 0x1000) (n : Nat) :
    ∀ v, Ends (Q e) (mapSegmentPages c e.1 flags n v) (fun _ => Q e) (GivesUp P) := by
  induction n with
  | zero => exact fun _ => ends_pure fun _ hs => hs
  | succ n ih =>
    intro v
    refine (ends_backPage (h.held e) hflags ?_).bind fun _ => ih (v + 4096)
    exact (h.kfree e).bind fun _ => ends_throw fun _ => givesUp_of

theorem Lends.loadSegment (h : Lends c P Q) (reads : Reads) (file : List UInt8) (e : Nat × Nat)
    (i : Nat) (ph : ProgramHeader) :
    Ends (Q e) (loadSegment c reads file e.1 i ph) (fun _ => Q e) (GivesUp P) := by
  unfold Elf.loadSegment
  split
  · exact ends_pure fun _ hs => hs
  · refine (h.mapSegmentPages e (pageFlags_lt ph) _ _).bind fun _ => ?_
    have hread : OnlyPanics (readSegment c reads file i ph) := by
      unfold Elf.readSegment
      split
      · exact (onlyPanics_vfsRead h.panics file _ _ _).bind fun _ => onlyPanics_storeBytes c _ _
      · exact onlyPanics_pure ()
    have hclear : OnlyPanics (clearBss c ph) := by
      unfold Elf.clearBss
      split
      · exact onlyPanics_storeBytes c _ _
      · exact onlyPanics_pure ()
    refine (hread.ends fun s => (h.held e).readSegment reads file i fun _ _ => trivial).bind
      fun _ => ?_
    exact hclear.ends fun s => (h.held e).clearBss fun _ _ => trivial

theorem Lends.loadSegments (h : Lends c P Q) (reads : Reads) (file : List UInt8) (e : Nat × Nat)
    (phs : List ProgramHeader) :
    ∀ i, Ends (Q e) (loadSegments c reads file e.1 i phs) (fun _ => Q e) (GivesUp P) := by
  induction phs with
  | nil => exact fun _ => ends_pure fun _ hs => hs
  | cons ph phs ih =>
    exact fun i => (h.loadSegment reads file e i ph).bind fun _ => ih (i + 1)

/-- The program headers are held when they have been read, and freed when they have not. -/
theorem Lends.readProgramHeaders (h : Lends c P Q) (reads : Reads) (file : List UInt8)
    (header : Header) :
    Ends P (readProgramHeaders c reads file header)
      (fun r => Q (r.1, header.phnum.toNat * programHeaderSize)) (GivesUp P) := by
  have hsize : header.phnum.toNat * programHeaderSize < 2 ^ 24 := by
    have := header.phnum.toNat_lt
    unfold programHeaderSize
    omega
  refine (h.kmalloc _ hsize).bind fun p => ?_
  by_cases hp : p = 0
  · rw [if_pos hp]
    refine ends_throw fun s hs => ?_
    rw [if_pos hp] at hs
    exact givesUp_of hs
  · rw [if_neg hp]
    simp only [if_neg hp]
    have hread : Ends (Q (p, header.phnum.toNat * programHeaderSize))
        (vfsRead c file reads.table header.phoff.toNat (header.phnum.toNat * programHeaderSize))
        (fun _ => Q (p, header.phnum.toNat * programHeaderSize)) (GivesUp P) :=
      (onlyPanics_vfsRead h.panics file _ _ _).ends fun _ => (h.held (p, _)).vfsRead file _ _ _
    refine hread.bind fun table => ?_
    split
    · exact (h.kfree (p, _)).bind fun _ => ends_throw fun _ => givesUp_of
    · exact ends_pure fun _ hs => hs

theorem Lends.mapStack (h : Lends c P Q) : Ends P (mapStack c) (fun _ => P) (GivesUp P) := by
  have hflags : pagePresent ||| pageWrite ||| pageUser < 0x1000 := by decide
  have hfail : Ends P (mapStack.fail : Load σ Unit) (fun _ => P) (GivesUp P) :=
    ends_throw fun _ => givesUp_of
  exact (ends_backPage h.free hflags hfail).bind fun _ => ends_backPage h.free hflags hfail

/-- **What the loader keeps when it gives up**, on every path behind the search for the file. -/
theorem Lends.elfExec (h : Lends c P Q) {reads : Reads} {path : String} {file : List UInt8}
    {s s₁ t : Sys σ} {e : ElfError} (hfind : c.vfsFinddir path s = .ok (some file) s₁) (hP : P s₁)
    (hrun : Elf.elfExec c reads path s = .error (.returns e) t) : P t := by
  have hheader : Ends P (readHeader c reads file) (fun _ => P) (GivesUp P) :=
    ends_of_moves (fun _ => h.free.readHeader reads file) fun _ _ => givesUp_of
  have hrest := hheader.bind fun header => (h.readProgramHeaders reads file header).bind fun p =>
    (h.loadSegments reads file (p.1, _) p.2 0).bind fun _ => (h.kfree (p.1, _)).bind fun _ =>
      h.mapStack.bind fun _ => ends_pure (a := (header.entry, stackBase)) (Q := fun _ => P)
        fun _ hs => hs
  have hend := hrest s₁ hP
  unfold Elf.elfExec at hrun
  rw [bind_eq hfind] at hrun
  dsimp only at hrun
  rw [hrun] at hend
  exact hend e rfl

end FlowOS.Elf
