/-
# The loader and `process_create` in the system

`Elf/Basic.lean` and `Process/Basic.lean` leave the heap and paging open.  Here both run on the
joined system: `kmalloc` is the one of `heap.c`, grows the heap, and takes its frames from the
PMM as the loader does.  The file system is a table of files that makes heap calls of its own.

Whatever these functions do to the system is made of a few moves: back a page, store through a
page, allocate and free (`Move`).  The loader's rule of `Elf/Moves.lean` gives this for
`elf_exec` once and for all; the modules that follow only look at the moves.
-/
import FlowOS.Vm.Roles
import FlowOS.Elf.Moves
import FlowOS.Process.Basic
import Mathlib.Logic.Relation

namespace FlowOS

open Word Frames Paging Elf Prog

/-! ## 1. The services -/

/-- A call of the heap. -/
inductive HeapCall
  | kmalloc (size : Nat)
  | kfree (ptr : Nat)

/-- The file system: its files, and the heap calls a lookup and a read make, which may depend on
the state they are made in. -/
structure FileSystem where
  file : String → Option (List UInt8)
  findCalls : String → Kernel → List HeapCall
  readCalls : Nat → Nat → Kernel → List HeapCall

namespace Kernel

/-- The kernel beside its paging state. -/
structure Rest where
  pmm : Pmm
  heap : Heap
  dirs : List Nat

/-- The kernel as the loader's machine. -/
def toSys (k : Kernel) : Sys Rest := ⟨⟨k.vm.pmm, k.heap, k.dirs⟩, k.vm.paging⟩

def ofSys (s : Sys Rest) : Kernel := ⟨⟨s.rest.pmm, s.paging⟩, s.rest.heap, s.rest.dirs⟩

def Rest.allocPage (r : Rest) : Nat × Rest :=
  ((Pmm.pmmAllocPage r.pmm).1, { r with pmm := (Pmm.pmmAllocPage r.pmm).2 })

/-- `kmalloc` for the loader; a walk of the block list that does not end stops the machine. -/
def kmallocLoad (size : Nat) : Load Rest Nat := fun s =>
  match (ofSys s).kmalloc size with
  | none => .error .panics s
  | some (p, k) => .ok p k.toSys

def kfreeLoad (ptr : Nat) : Load Rest Unit := fun s => .ok () ((ofSys s).kfree ptr).toSys

/-- Heap calls one after the other. -/
def heapCalls : List HeapCall → Load Rest Unit
  | [] => pure ()
  | .kmalloc size :: cs => do
    let _ ← kmallocLoad size
    heapCalls cs
  | .kfree ptr :: cs => do
    kfreeLoad ptr
    heapCalls cs

/-- What the loader calls. -/
def calls (fs : FileSystem) : Calls Rest where
  pmmAllocPage := Rest.allocPage
  kmalloc := kmallocLoad
  kfree := kfreeLoad
  vfsFinddir path := do
    let s ← get
    heapCalls (fs.findCalls path (ofSys s))
    pure (fs.file path)
  vfsWork offset size := do
    let s ← get
    heapCalls (fs.readCalls offset size (ofSys s))

/-- The kernel after `elf_exec`, whichever way it ends. -/
def elfExec (fs : FileSystem) (reads : Reads) (path : String) (k : Kernel) : Kernel :=
  ofSys (endState (Elf.elfExec (calls fs) reads path k.toSys))

/-- What `process.c` calls; `none` is a machine that has come to a stop in `kmalloc`. -/
def procEnv (idleProcess processWrapper processTable : Nat) : ProcEnv (Option Kernel) where
  kmalloc size k :=
    match k.bind (·.kmalloc size) with
    | none => (0, none)
    | some (p, k) => (p, some k)
  kfree ptr := Option.map (·.kfree ptr)
  pagingClonePd
    | none => (0, none)
    | some k => (k.vm.clonePd.1, some k.clonePd)
  idleProcess := idleProcess
  processWrapper := processWrapper
  processTable := processTable

/-! ## 2. Moves -/

/-- What the calls are made of: pages satisfying `Page` are backed with new frames and, above the
identity map, written through; the heap is used, and may grow. -/
inductive Move (Page : Nat → Prop) : Kernel → Kernel → Prop
  | noFrame (k : Kernel) (hz : k.vm.allocPage.1 = 0) : Move Page k { k with vm := k.vm.allocPage.2 }
  | back (k : Kernel) (v flags : Nat) (hv : v < 2 ^ 32) (hpage : Page (v / 4096))
      (hflags : flags < 0x1000) : Move Page k { k with vm := (k.vm.backPage v flags).2 }
  | store (k : Kernel) (v : Nat) (b : UInt8) (hpage : Page (v / 4096)) (hq : HighPage (v / 4096))
      (hsome : (k.vm.entry (v / 4096)).isSome) : Move Page k { k with vm := k.vm.store v b }
  | kmalloc (k k' : Kernel) (size p : Nat) (h : k.kmalloc size = some (p, k')) : Move Page k k'
  | kfree (k : Kernel) (ptr : Nat) : Move Page k (k.kfree ptr)

/-- Any number of moves. -/
def Moved (Page : Nat → Prop) : Kernel → Kernel → Prop := Relation.ReflTransGen (Move Page)

variable {Page : Nat → Prop} {fs : FileSystem}

/-- **Invariant rule.**  What every move keeps, any number of them keeps. -/
theorem Moved.inv {I : Kernel → Prop} {k k' : Kernel} (h : Moved Page k k')
    (hstep : ∀ k k', I k → Move Page k k' → I k') (hI : I k) : I k' := by
  induction h with
  | refl => exact hI
  | tail _ hmove ih => exact hstep _ _ ih hmove

/-! ## 3. `elf_exec` is made of moves -/

theorem pagingMapPage_rest (r : Rest) (pg : Paging) (v p flags : Nat) :
    pagingMapPage Rest.allocPage r pg v p flags
      = ({ r with pmm := (pagingMapPage Pmm.pmmAllocPage r.pmm pg v p flags).1 },
        (pagingMapPage Pmm.pmmAllocPage r.pmm pg v p flags).2) := by
  unfold pagingMapPage
  split
  · dsimp only [Rest.allocPage]
    split <;> rfl
  · rfl

theorem pageFaultHandler_rest (r : Rest) (pg : Paging) (v err : Nat) :
    pageFaultHandler Rest.allocPage r pg v err
      = ((pageFaultHandler Pmm.pmmAllocPage r.pmm pg v err).1,
        { r with pmm := (pageFaultHandler Pmm.pmmAllocPage r.pmm pg v err).2.1 },
        (pageFaultHandler Pmm.pmmAllocPage r.pmm pg v err).2.2) := by
  unfold pageFaultHandler
  split
  · rfl
  · split
    · rfl
    · dsimp only [Rest.allocPage]
      split
      · rfl
      · rw [pagingMapPage_rest]

/-- The relation of the loader's rule. -/
def SysMoved (Page : Nat → Prop) (s t : Sys Rest) : Prop := Moved Page (ofSys s) (ofSys t)

theorem kmallocLoad_moves (size : Nat) (s : Sys Rest) :
    Moves (SysMoved Page) (kmallocLoad size) s := by
  unfold Moves kmallocLoad
  split
  · exact .refl
  · rename_i p k hk
    exact .single (.kmalloc _ _ size p hk)

theorem kfreeLoad_moves (ptr : Nat) (s : Sys Rest) : Moves (SysMoved Page) (kfreeLoad ptr) s :=
  .single (.kfree _ ptr)

theorem heapCalls_moves (cs : List HeapCall) : ∀ s, Moves (SysMoved Page) (heapCalls cs) s := by
  induction cs with
  | nil =>
    intro s
    exact moves_pure (fun _ => .refl) ()
  | cons c cs ih =>
    intro s
    cases c with
    | kmalloc size =>
      exact (kmallocLoad_moves size s).bind (fun _ _ _ => .trans) fun _ _ _ => ih _
    | kfree ptr => exact (kfreeLoad_moves ptr s).bind (fun _ _ _ => .trans) fun _ _ _ => ih _

/-- The faults of an access back its page. -/
theorem touch_moves {v : Nat} (hv : v < 2 ^ 32) (hpage : Page (v / 4096)) (n : Nat) :
    ∀ s, Moves (SysMoved Page) (touch (calls fs) v n) s := by
  induction n with
  | zero =>
    intro s
    exact .refl
  | succ n ih =>
    intro s
    unfold Moves touch
    dsimp only
    split
    · exact .refl
    · have hback : Moved Page (ofSys s) { ofSys s with vm := ((ofSys s).vm.pageFault v 2).2 } := by
        have hframe : frameOf v / 4096 = v / 4096 := Nat.mul_div_cancel _ (by decide)
        rw [Vm.pageFault_eq _ hv, if_pos ⟨rfl, rfl⟩]
        exact .single (.back _ (frameOf v) _ (frameOf_lt hv) (hframe ▸ hpage) (faultFlags_lt 2))
      have hrest : pageFaultHandler (calls fs).pmmAllocPage s.rest s.paging v 2 = _ :=
        pageFaultHandler_rest s.rest s.paging v 2
      rw [hrest]
      dsimp only
      split
      · have hrest := ih ⟨⟨((ofSys s).vm.pageFault v 2).2.pmm, s.rest.heap, s.rest.dirs⟩,
          ((ofSys s).vm.pageFault v 2).2.paging⟩
        exact Relation.ReflTransGen.trans hback hrest
      · exact hback

/-- After the faults of an access its page is there. -/
theorem touch_present {v n : Nat} {s s' : Sys Rest} (h : touch (calls fs) v n s = .ok () s') :
    (lookup s'.paging.mem s'.paging.currentPdPhys (v / 4096)).isSome := by
  induction n generalizing s with
  | zero => cases h
  | succ n ih =>
    unfold touch at h
    split at h
    · rename_i hsome
      cases h
      exact hsome
    · dsimp only at h
      split at h
      · exact ih h
      · cases h

/-- **The calls of the loader are moves.** -/
theorem calls_permits (fs : FileSystem) (Page : Nat → Prop) :
    Permits (calls fs) (SysMoved Page) Page fun v => Page (v / 4096) ∧ HighPage (v / 4096) where
  refl _ := .refl
  trans _ _ _ := .trans
  noFrame s hz := .single (.noFrame (ofSys s) hz)
  back := by
    intro s hz v hpage flags hflags
    refine .single ?_
    rw [show pagingMapPage (calls fs).pmmAllocPage ((calls fs).pmmAllocPage s.rest).2 s.paging
      v.toNat
      ((calls fs).pmmAllocPage s.rest).1 flags = _ from pagingMapPage_rest _ _ _ _ _]
    have hback := Move.back (ofSys s) v.toNat flags v.toNat_lt hpage hflags
    rw [show (ofSys s).vm.backPage v.toNat flags = (true, ((ofSys s).vm.allocPage.2.mapPage v.toNat
      (ofSys s).vm.allocPage.1 flags)) from if_neg hz] at hback
    exact hback
  store := by
    rintro v ⟨hpage, hhigh⟩ b s
    refine (touch_moves v.toNat_lt hpage faultLimit s).bind (fun _ _ _ => .trans) ?_
    intro _ s₁ htouch
    exact .single (.store (ofSys s₁) v.toNat b hpage hhigh (touch_present htouch))
  kmalloc := kmallocLoad_moves
  kfree := kfreeLoad_moves
  finddir path s := by
    refine Moves.bind (fun _ _ _ => .trans) .refl fun s₁ s₂ hget => ?_
    exact (heapCalls_moves _ _).bind (fun _ _ _ => .trans) fun _ _ _ =>
      moves_pure (fun _ => .refl) _
  work o n s := Moves.bind (fun _ _ _ => .trans) .refl fun _ _ _ => heapCalls_moves _ _

/-- Every segment of the file lies above the identity map, in pages satisfying `Page`. -/
def SegmentsIn (Page : Nat → Prop) (file : List UInt8) : Prop :=
  ∀ ph ∈ fileProgramHeaders file,
    Within Page (fun v => Page (v / 4096) ∧ HighPage (v / 4096)) ph

theorem vfsFinddir_file {path : String} {found : Option (List UInt8)} {s s' : Sys Rest}
    (h : (calls fs).vfsFinddir path s = .ok found s') : found = fs.file path := by
  obtain ⟨_, _, -, h⟩ := bind_ok h
  obtain ⟨_, _, -, h⟩ := bind_ok h
  exact (pure_ok h).1.symm

/-- **`elf_exec` is made of moves** within the pages of its segments and of the stack. -/
theorem elfExec_moved {path : String} (hstack : Page 0xBFFFF ∧ Page 0xBFFFE)
    (hfile : ∀ file, fs.file path = some file → SegmentsIn Page file) (reads : Reads)
    (k : Kernel) : Moved Page k (k.elfExec fs reads path) := by
  have hmoves : Moves (SysMoved Page) (Elf.elfExec (calls fs) reads path) k.toSys :=
    (calls_permits fs Page).elfExec reads path hstack fun file s' hfind =>
      hfile file (vfsFinddir_file hfind).symm
  exact hmoves

/-! ## 4. `process_create` -/

/-- **`process_create`** finds no slot, has no frame for the clone and frees a stack, or clones the
kernel directory and allocates a stack. -/
theorem processCreate_cases {idle wrapper table : Nat} {k k' : Kernel} {s : Process.Sched}
    {name : List UInt8} {entry : Nat}
    (h : (Process.processCreate (procEnv idle wrapper table) (some k) s name entry).2.1 = some k') :
    (Process.findFreeSlot s = none ∧ k' = k) ∨
    (k.vm.clonePd.1 = 0 ∧ ∃ ptr, k' = k.clonePd.kfree ptr) ∨
    (k.vm.clonePd.1 ≠ 0 ∧ ∃ p, k.clonePd.kmalloc Process.kernelStackSize = some (p, k')) := by
  unfold Process.processCreate at h
  split at h
  · rename_i hslot
    exact Or.inl ⟨hslot, (Option.some.inj h).symm⟩
  · right
    dsimp only [procEnv] at h
    split at h
    · rename_i hz
      exact Or.inl ⟨hz, _, (Option.some.inj h).symm⟩
    · rename_i hz
      refine Or.inr ⟨hz, ?_⟩
      cases hk : k.clonePd.kmalloc Process.kernelStackSize with
      | none => simp only [Option.bind_some, hk, if_true, reduceCtorEq] at h
      | some r =>
        obtain ⟨p, k₁⟩ := r
        simp only [Option.bind_some, hk] at h
        refine ⟨p, ?_⟩
        split at h <;> rw [Option.some.inj h]

theorem processCreate_move {idle wrapper table : Nat} {k k' : Kernel} {s : Process.Sched}
    {name : List UInt8} {entry : Nat}
    (h : (Process.processCreate (procEnv idle wrapper table) (some k) s name entry).2.1 = some k') :
    k' = k ∨ Move Page k.clonePd k' := by
  rcases processCreate_cases h with ⟨-, rfl⟩ | ⟨-, ptr, rfl⟩ | ⟨-, p, hk⟩
  · exact Or.inl rfl
  · exact Or.inr (.kfree _ ptr)
  · exact Or.inr (.kmalloc _ _ _ p hk)

end Kernel

end FlowOS
