/-
# What creating and ending a process costs

`process_create` takes a slot of the table, a frame for a clone of the kernel directory, and a
stack from the heap; `process_exit` gives the stack back.

WHEN IT FAILS.  With the table full nothing has been touched.  Without a frame the control block
has been written and the stack of the slot is freed, which it does not have yet: the field still
holds 0, the pointer is 0xFFFFF000, and `kfree` rejects it as long as the heap ends below.  Without
a stack the clone of the directory has been made, and nobody holds it.

WHEN IT SUCCEEDS and the process ends, neither the slot nor the frame comes back.
-/
import FlowOS.Process.Slots
import FlowOS.Process.Timing
import FlowOS.Vm.HeapGrowth

namespace FlowOS

open Word

namespace Kernel

variable {k k' : Kernel}

/-! ## 1. The calls -/

/-- `kmalloc` gives no frame back. -/
theorem kmalloc_frames {n a : Nat} (hk : k.kmalloc n = some (a, k')) :
    Pmm.clearBits k'.vm.pmm ≤ Pmm.clearBits k.vm.pmm :=
  Pmm.clearBits_mono fun _ => free_of_kmalloc hk

/-- Both calls of `process_create`. -/
theorem stack_frames {n a : Nat} (hclone : k.vm.clonePd.1 ≠ 0)
    (hk : k.clonePd.kmalloc n = some (a, k')) :
    Pmm.clearBits k'.vm.pmm + 1 ≤ Pmm.clearBits k.vm.pmm := by
  have hframe : Pmm.clearBits k.clonePd.vm.pmm + 1 = Pmm.clearBits k.vm.pmm :=
    Vm.clonePd_frames hclone
  have hless := kmalloc_frames hk
  omega

theorem kfree_vm (k : Kernel) (ptr : Nat) : (k.kfree ptr).vm = k.vm := rfl

/-- A slot that has had no stack leads to a pointer `kfree` rejects. -/
theorem kfree_noStack (h : k.heap.heapStart + k.heap.heapSize ≤ 0xFFFFEFF0) :
    k.kfree (sub32 0 Process.kernelStackSize) = k := by
  have hptr : sub32 0 Process.kernelStackSize = 0xFFFFF000 := by decide
  have hblock : sub32 0xFFFFF000 Heap.blockHeaderSize = 0xFFFFEFF0 := by decide
  have hend : add32 k.heap.heapStart k.heap.heapSize ≤ 0xFFFFEFF0 := by
    rw [add32_of_lt (by omega)]
    exact h
  have hkfree : Heap.kfree k.heap 0xFFFFF000 = k.heap := by
    unfold Heap.kfree
    rw [if_neg (by decide)]
    dsimp only
    rw [hblock, if_pos (Or.inr hend)]
  unfold kfree
  rw [hptr, hkfree]

end Kernel

namespace Process

open Kernel (procEnv)

variable {idle wrapper table : Nat} {k k' : Kernel} {s s' : Sched} {p : Slot} {c : Slot}
  {q : List Slot} {name : List UInt8} {entry : Nat}

/-- `process_create` without a frame for the clone. -/
theorem processCreate_noClone (hslot : findFreeSlot s = some p) (hclone : k.vm.clonePd.1 = 0) :
    (processCreate (procEnv idle wrapper table) (some k) s name entry).1 = none ∧
      (processCreate (procEnv idle wrapper table) (some k) s name entry).2.1
        = some (k.clonePd.kfree (sub32 (s.processTable p).kernelStack kernelStackSize)) := by
  unfold processCreate
  rw [hslot]
  dsimp only [procEnv]
  rw [if_pos hclone]
  exact ⟨rfl, rfl⟩

/-- `process_create` with what `kmalloc` returned for the stack. -/
theorem processCreate_stack {a : Nat} (hslot : findFreeSlot s = some p)
    (hclone : k.vm.clonePd.1 ≠ 0) (hk : k.clonePd.kmalloc kernelStackSize = some (a, k')) :
    ∃ s', processCreate (procEnv idle wrapper table) (some k) s name entry
      = (if a = 0 then none else some p, some k', s') := by
  unfold processCreate
  rw [hslot]
  dsimp only [procEnv]
  rw [if_neg hclone]
  simp only [Option.bind_some, hk]
  split
  · exact ⟨_, rfl⟩
  · exact ⟨_, rfl⟩

/-! ## 2. After boot -/

/-- The idle process has its stack at the bottom of the heap. -/
theorem boot_idle {img : KernelImage} {heapMem : Mem} (hb : Booted img heapMem k) :
    ∃ h', k.kmalloc kernelStackSize = some (0xC0000010, { k with heap := h' }) ∧
      Heap.Inv h' [⟨0xC0000000, 0x1010, false⟩, ⟨0xC0001010, 0xFEFF0, true⟩] ∧
      h'.heapStart = 0xC0000000 ∧ h'.heapSize = 0x100000 := by
  have hstart : k.heap.heapStart = 0xC0000000 := by rw [hb.heap]; rfl
  have hsize : k.heap.heapSize = 0x100000 := by rw [hb.heap]; rfl
  obtain ⟨h', hk, hinv, hst, hsz⟩ := Kernel.kmalloc_served (Kernel.booted_heapInv hb)
    (n := kernelStackSize) (a := 0xC0000000) (by decide) (by decide)
    (by decide : _ = some (_, [⟨0xC0000000, 0x1010, false⟩, ⟨0xC0001010, 0xFEFF0, true⟩]))
  exact ⟨h', hk, hinv, hst.trans hstart, hsz.trans hsize⟩

/-- The first slot is free. -/
theorem boot_slot {σ : Type} (env : ProcEnv σ) (κ : σ) (kernelPd : Nat) (mem : Mem) :
    findFreeSlot (bootProcesses env κ kernelPd mem).2 = some 1 := by
  have hfixed : findFreeSlot (bootProcesses fixedEnv () 0 fun _ => 0).2 = some 1 := by
    decide +kernel
  rw [← hfixed]
  refine findFreeSlot_congr fun p => ?_
  rw [stateOf_bootProcesses, stateOf_bootProcesses]

/-- A kernel that has booted, with its process table set up. -/
theorem exists_boot : ∃ img mboot mem heapMem k₀ k s, bootKernel img mboot mem heapMem = some k₀ ∧
    bootProcesses (procEnv 0 0 0) (some k₀) k₀.vm.paging.kernelPdPhys (fun _ => 0) = (some k, s) ∧
    Heap.Inv k.heap [⟨0xC0000000, 0x1010, false⟩, ⟨0xC0001010, 0xFEFF0, true⟩] ∧
    k.heap.heapStart = 0xC0000000 ∧ k.heap.heapSize = 0x100000 ∧ findFreeSlot s = some 1 ∧
    Inv s 0 [] ∧ ¬ Pmm.Free k.vm.pmm 0 ∧ 3 ≤ Pmm.clearBits k.vm.pmm := by
  obtain ⟨k₀, hboot, hframes⟩ :=
    @smallKernel_boots 0x2000 (by decide) (by decide) (fun _ => 0) fun _ => 0
  have hb := bootKernel_booted hboot
  obtain ⟨h', hk, hinv, hst, hsz⟩ := boot_idle hb
  have hkernel : (bootProcesses (procEnv 0 0 0) (some k₀) k₀.vm.paging.kernelPdPhys
      (fun _ => 0)).1 = some { k₀ with heap := h' } := by
    have hfst : ∀ κ pd mem, (bootProcesses (procEnv 0 0 0) κ pd mem).1
        = ((procEnv 0 0 0).kmalloc kernelStackSize κ).2 := fun _ _ _ => rfl
    rw [hfst]
    simp only [procEnv, Option.bind_some, hk]
  exact ⟨_, _, _, _, k₀, { k₀ with heap := h' }, _, hboot, Prod.ext hkernel rfl, hinv, hst, hsz,
    boot_slot _ _ _ _, bootProcesses_inv _ _ _ _, hb.roles.zero, by dsimp only; omega⟩

/-! ## 3. The stack that is freed too early -/

/-- **The `kfree` of a `process_create` that has no frame for the directory changes nothing**, in
every run, as long as the heap ends at or below 0xFFFFEFF0. -/
theorem early_kfree_noop (idle wrapper table : Nat) (k₀ : Option Kernel) (kernelPd : Nat)
    (mem : Mem) (k : Kernel) (s : Sched)
    (hrun : Relation.ReflTransGen (Step (procEnv idle wrapper table))
      (bootProcesses (procEnv idle wrapper table) k₀ kernelPd mem) (some k, s))
    (hheap : k.heap.heapStart + k.heap.heapSize ≤ 0xFFFFEFF0) (p : Slot)
    (hslot : findFreeSlot s = some p) (hclone : k.vm.clonePd.1 = 0) (name : List UInt8)
    (entry : Nat) :
    (processCreate (procEnv idle wrapper table) (some k) s name entry).1 = none ∧
      (processCreate (procEnv idle wrapper table) (some k) s name entry).2.1
        = some (k.clonePd.kfree (sub32 (s.processTable p).kernelStack kernelStackSize)) ∧
      k.clonePd.kfree (sub32 (s.processTable p).kernelStack kernelStackSize) = k.clonePd := by
  have hinv := bootProcesses_inv (procEnv idle wrapper table) k₀ kernelPd mem
  have hv := run_vacant hrun ⟨0, [], hinv⟩ (bootProcesses_vacant _ k₀ kernelPd mem)
  obtain ⟨hp0, hp⟩ := findFreeSlot_some hslot
  obtain ⟨hnone, hkernel⟩ := @processCreate_noClone idle wrapper table k s p name entry hslot hclone
  refine ⟨hnone, hkernel, ?_⟩
  rw [hv.stack p hp0 hp]
  exact Kernel.kfree_noStack hheap

/-- With the last frame taken by someone else, right after boot. -/
theorem early_kfree_noop_boot : ∃ (k : Kernel) (s : Sched),
    findFreeSlot s = some 1 ∧ k.vm.clonePd.1 = 0 ∧
    k.clonePd.kfree (sub32 (s.processTable 1).kernelStack kernelStackSize) = k.clonePd := by
  obtain ⟨-, -, -, -, k₀, k, s, -, hproc, -, hst, hsz, hslot, -⟩ := exists_boot
  have hnone : (Pmm.pmmAllocPage Pmm.allUsed).1 = 0 := by
    rw [Pmm.pmmAllocPage_none fun f => Pmm.not_free_allUsed]
  have hclone : ({ k with vm.pmm := Pmm.allUsed } : Kernel).vm.clonePd.1 = 0 :=
    (Vm.clonePd_addr _).trans hnone
  refine ⟨{ k with vm.pmm := Pmm.allUsed }, s, hslot, hclone, ?_⟩
  exact (early_kfree_noop 0 0 0 (some k₀) k₀.vm.paging.kernelPdPhys (fun _ => 0)
    { k with vm.pmm := Pmm.allUsed } s (.single (hproc ▸ .work (some k) _ s s.mem))
    (by dsimp only; omega) 1 hslot hclone [] 0).2.2

/-! ## 4. A creation that fails -/

/-- The process table, the ready queue, the bitmap and the heap are as they were. -/
structure Unchanged (k k' : Kernel) (s s' : Sched) : Prop where
  table : s'.processTable = s.processTable
  head : s'.readyQueueHead = s.readyQueueHead
  tail : s'.readyQueueTail = s.readyQueueTail
  bitmap : k'.vm.pmm.bitmap = k.vm.pmm.bitmap
  heap : k'.heap = k.heap

/-- A creation that fails in a slot has written to it. -/
theorem failed_writes {σ : Type} {env : ProcEnv σ} {κ κ' : σ} (hi : Inv s c q) (hv : Vacant s)
    (hslot : findFreeSlot s = some p)
    (hres : processCreate env κ s name entry = (none, κ', s')) :
    s'.processTable p ≠ s.processTable p := by
  have hcases := processCreate_cases env κ s name entry
  rw [hres] at hcases
  cases hcases with
  | full =>
    -- the call has found the slot, so the state is not the one before it
    exfalso
    have hpid : (processCreate env κ s name entry).2.2.nextPid = add32 s.nextPid 1 := by
      unfold processCreate
      rw [hslot]
      dsimp only
      split
      · rfl
      · split
        · rfl
        · exact (schedulerAdd_keeps _ p).nextPid
    rw [hres] at hpid
    dsimp only at hpid
    unfold add32 at hpid
    omega
  | failed x κ' proc hx0 hx hproc hfree hstack hpid hparent =>
    obtain rfl : p = x := Option.some.inj (hslot.symm.trans hfree)
    rw [put_processTable, if_pos rfl]
    intro hsame
    rcases hv.parent p hx0 hx with hnone | ⟨-, hlast⟩
    · -- no creation has been tried here before: the parent is set now
      rw [← hsame, hparent, hi.current] at hnone
      cases hnone
    · -- the last creation was tried here: the identifiers are numbered on
      rw [← hsame, hpid] at hlast
      unfold add32 at hlast
      omega

/-- With no slot there is nothing to do. -/
theorem processCreate_full {σ : Type} {env : ProcEnv σ} {κ : σ} (hslot : findFreeSlot s = none) :
    processCreate env κ s name entry = (none, κ, s) := by
  unfold processCreate
  rw [hslot]

/-- **A `process_create` that returns `NULL` leaves everything as it was** exactly when there was
no slot.  When there was a slot and a frame, the frame is lost. -/
theorem failed_create_iff (idle wrapper table : Nat) (k₀ : Option Kernel) (kernelPd : Nat)
    (mem : Mem) (k k' : Kernel) (s s' : Sched)
    (hrun : Relation.ReflTransGen (Step (procEnv idle wrapper table))
      (bootProcesses (procEnv idle wrapper table) k₀ kernelPd mem) (some k, s))
    (name : List UInt8) (entry : Nat)
    (hres : processCreate (procEnv idle wrapper table) (some k) s name entry
      = (none, some k', s')) :
    (Unchanged k k' s s' ↔ findFreeSlot s = none) ∧
      (findFreeSlot s ≠ none → k.vm.clonePd.1 ≠ 0 →
        Pmm.clearBits k'.vm.pmm < Pmm.clearBits k.vm.pmm) := by
  have hboot := bootProcesses_inv (procEnv idle wrapper table) k₀ kernelPd mem
  have hv := run_vacant hrun ⟨0, [], hboot⟩ (bootProcesses_vacant _ k₀ kernelPd mem)
  obtain ⟨c, q, hi⟩ := (run_inv hrun ⟨0, [], hboot⟩).1
  refine ⟨⟨fun h => ?_, fun hslot => ?_⟩, fun hslot hclone => ?_⟩
  · by_contra hslot
    obtain ⟨p, hp⟩ := Option.ne_none_iff_exists'.mp hslot
    exact failed_writes hi hv hp hres (congrFun h.table p)
  · rw [processCreate_full hslot] at hres
    obtain ⟨rfl, rfl⟩ : k = k' ∧ s = s' := by simpa using hres
    exact ⟨rfl, rfl, rfl, rfl, rfl⟩
  · have hkernel := congrArg (fun r => r.2.1) hres
    rcases Kernel.processCreate_cases hkernel with ⟨hnone, -⟩ | ⟨hz, -⟩ | ⟨-, a, hk⟩
    · exact absurd hnone hslot
    · exact absurd hz hclone
    · exact Kernel.stack_frames hclone hk

/-- What is left of the first megabyte is taken; then the stack of the next process does not fit
into the page the heap grows by. -/
theorem exists_noStack : ∃ img mboot mem heapMem k₀ k₁ k k' s s' a,
    bootKernel img mboot mem heapMem = some k₀ ∧
    bootProcesses (procEnv 0 0 0) (some k₀) k₀.vm.paging.kernelPdPhys (fun _ => 0)
      = (some k₁, s) ∧
    k₁.kmalloc 0xFEFE0 = some (a, k) ∧ findFreeSlot s = some 1 ∧ k.vm.clonePd.1 ≠ 0 ∧
    processCreate (procEnv 0 0 0) (some k) s [] 0 = (none, some k', s') ∧
    k.heap.heapSize = 0x100000 ∧ k'.heap.heapSize = 0x101000 := by
  obtain ⟨img, mboot, mem, heapMem, k₀, k₁, s, hboot, hproc, hinv, hst, hsz, hslot, -, hzero,
    hframes⟩ := exists_boot
  obtain ⟨h', hk, hinv', hst', hsz'⟩ := Kernel.kmalloc_served hinv (n := 0xFEFE0)
    (a := 0xC0001010) (by decide) (by decide)
    (by decide : _ = some (_, [⟨0xC0000000, 0x1010, false⟩, ⟨0xC0001010, 0xFEFF0, false⟩]))
  have hclone : ({ k₁ with heap := h' } : Kernel).vm.clonePd.1 ≠ 0 := by
    rw [Vm.clonePd_addr _]
    exact Pmm.alloc_ne_zero hzero (show 0 < Pmm.clearBits k₁.vm.pmm by omega)
  have hleft : Pmm.clearBits k₁.vm.clonePd.2.pmm + 1 = Pmm.clearBits k₁.vm.pmm :=
    Vm.clonePd_frames hclone
  -- the clone has left a frame for the heap to grow by
  have hframe : k₁.vm.clonePd.2.allocPage.1 ≠ 0 :=
    Pmm.alloc_ne_zero (fun hf => hzero (Vm.free_of_clone hf)) (by omega)
  have hroom : ({ k₁ with heap := h' } : Kernel).clonePd.heap.heapStart
      + ({ k₁ with heap := h' } : Kernel).clonePd.heap.heapSize + pageSize ≤ 2 ^ 32 := by
    rw [show ({ k₁ with heap := h' } : Kernel).clonePd.heap = h' from rfl, hst', hst, hsz', hsz]
    decide
  obtain ⟨a, k', hk', hiff, hgrown⟩ := HeapRun.kmalloc_iff (n := kernelStackSize) hinv' hroom hframe
    (by decide) (by decide)
  have ha : a = 0 := by
    by_contra hne
    rcases hiff.mp hne with ⟨b, hb, hfree, -⟩ | hle
    · simp only [List.mem_cons, List.not_mem_nil, or_false] at hb
      rcases hb with rfl | rfl <;> cases hfree
    · exact absurd hle (by decide)
  subst ha
  obtain ⟨s', hres⟩ := @processCreate_stack 0 0 0 { k₁ with heap := h' } k' s 1 [] 0 0 hslot hclone
    hk'
  refine ⟨img, mboot, mem, heapMem, k₀, k₁, _, k', s, s', _, hboot, hproc, hk, hslot, hclone, hres,
    hsz'.trans hsz, ?_⟩
  rw [hgrown rfl, show ({ k₁ with heap := h' } : Kernel).clonePd.heap = h' from rfl, hsz', hsz]

/-- The equivalence there: the table has a slot, so the creation leaves its traces. -/
theorem failed_create_iff_noStack : ∃ k k' s s',
    processCreate (procEnv 0 0 0) (some k) s [] 0 = (none, some k', s') ∧
    (Unchanged k k' s s' ↔ findFreeSlot s = none) := by
  obtain ⟨-, -, -, -, k₀, k₁, k, k', s, s', -, -, hproc, -, -, -, hres, -⟩ := exists_noStack
  exact ⟨k, k', s, s', hres, (failed_create_iff 0 0 0 (some k₀) k₀.vm.paging.kernelPdPhys
    (fun _ => 0) k k' s s' (.single (hproc ▸ .work (some k₁) _ s s.mem)) [] 0 hres).1⟩

/-- **A creation that fails for want of a stack** leaves the heap a page larger, and at least one
frame, the directory's, with nobody. -/
theorem failed_create_leaks : ∃ img mboot mem heapMem k₀ k₁ k k' s s' a,
    bootKernel img mboot mem heapMem = some k₀ ∧
    bootProcesses (procEnv 0 0 0) (some k₀) k₀.vm.paging.kernelPdPhys (fun _ => 0)
      = (some k₁, s) ∧
    k₁.kmalloc 0xFEFE0 = some (a, k) ∧
    processCreate (procEnv 0 0 0) (some k) s [] 0 = (none, some k', s') ∧
    Pmm.clearBits k'.vm.pmm < Pmm.clearBits k.vm.pmm ∧ k'.heap.heapSize ≠ k.heap.heapSize := by
  obtain ⟨img, mboot, mem, heapMem, k₀, k₁, k, k', s, s', a, hboot, hproc, hk, hslot, hclone, hres,
    hsz, hsz'⟩ := exists_noStack
  refine ⟨img, mboot, mem, heapMem, k₀, k₁, k, k', s, s', a, hboot, hproc, hk, hres, ?_, by omega⟩
  have hkernel := congrArg (fun r => r.2.1) hres
  rcases Kernel.processCreate_cases hkernel with ⟨hnone, -⟩ | ⟨hz, -⟩ | ⟨-, b, hk'⟩
  · rw [hslot] at hnone
    cases hnone
  · exact absurd hz hclone
  · exact Kernel.stack_frames hclone hk'

/-! ## 5. A process that comes and goes -/

/-- What may happen between a creation and the end of the process, with the kernel's memory left
alone: the processor changes hands, and the processes write to memory. -/
inductive Waits (env : ProcEnv (Option Kernel)) (k : Kernel) : Sched → Sched → Prop
  | op (s : Sched) (o : Op) (hcreate : ∀ name entry, o ≠ .create name entry)
      (hexit : o.exits = false) : Waits env k s (perform env (some k) s o).2.1
  | write (s : Sched) (mem : Mem) : Waits env k s { s with mem := mem }

/-- **One cycle**: a process is created, gets the processor, and ends. -/
inductive Cycle (env : ProcEnv (Option Kernel)) : Kernel × Sched → Kernel × Sched → Prop
  | mk (k k₁ k' : Kernel) (s s₁ s₂ s' : Sched) (sw : Switch) (name : List UInt8) (entry : Nat)
      (p : Slot) (code : Int)
      (hcreate : processCreate env (some k) s name entry = (some p, some k₁, s₁))
      (hwait : Relation.ReflTransGen (Waits env k₁) s₁ s₂) (hcur : s₂.currentProcess = some p)
      (hexit : processExit env (some k₁) s₂ code = (some k', s', sw)) : Cycle env (k, s) (k', s')

/-- A number of cycles, one after the other. -/
inductive Cycles (env : ProcEnv (Option Kernel)) (t : Kernel × Sched) :
    Nat → Kernel × Sched → Prop
  | zero : Cycles env t 0 t
  | succ {n : Nat} {t₁ t₂ : Kernel × Sched} (h : Cycles env t n t₁) (hc : Cycle env t₁ t₂) :
      Cycles env t (n + 1) t₂

/-- The three counters are as they were. -/
structure Neutral (k : Kernel) (s : Sched) (k' : Kernel) (s' : Sched) : Prop where
  slots : unusedSlots s' = unusedSlots s
  frames : Pmm.clearBits k'.vm.pmm = Pmm.clearBits k.vm.pmm
  heapUsed : k'.heap.heapUsed = k.heap.heapUsed

theorem Waits.run {env : ProcEnv (Option Kernel)} (h : Relation.ReflTransGen (Waits env k) s s')
    (hi : ∃ c q, Inv s c q) : (∃ c q, Inv s' c q) ∧ unusedSlots s' = unusedSlots s := by
  induction h with
  | refl => exact ⟨hi, rfl⟩
  | tail _ hstep ih =>
    obtain ⟨⟨c, q, hi'⟩, hslots⟩ := ih
    cases hstep with
    | op o hcreate _ =>
      have hperf := perform_performed env (some k) hi' o
      rw [newProcess_none hcreate] at hperf
      obtain ⟨next, q', hinv, -⟩ := hperf.inv
      exact ⟨⟨next, q', hinv⟩, hperf.unusedSlots_eq.trans hslots⟩
    | write mem => exact ⟨⟨c, q, hi'.congr rfl rfl rfl rfl⟩, hslots⟩

/-- A successful creation: the frames. -/
theorem create_frames
    (hres : processCreate (procEnv idle wrapper table) (some k) s name entry
      = (some p, some k', s')) : Pmm.clearBits k'.vm.pmm + 1 ≤ Pmm.clearBits k.vm.pmm := by
  have hkernel := congrArg (fun r => r.2.1) hres
  have hsome := congrArg (fun r => r.1) hres
  rcases Kernel.processCreate_cases hkernel with ⟨hnone, -⟩ | ⟨hz, -⟩ | ⟨hclone, a, hk⟩
  · rw [processCreate_full hnone] at hsome
    cases hsome
  · cases hslot : findFreeSlot s with
    | none =>
      rw [processCreate_full hslot] at hsome
      cases hsome
    | some x =>
      have := (@processCreate_noClone idle wrapper table k s x name entry hslot hz).1
      rw [show (processCreate _ _ s name entry).1 = some p from hsome] at this
      cases this
  · exact Kernel.stack_frames hclone hk

/-- `process_exit` has no effect on the frames. -/
theorem exit_vm {code : Int} {sw : Switch}
    (hres : processExit (procEnv idle wrapper table) (some k) s code = (some k', s', sw)) :
    k'.vm = k.vm := by
  have hkernel := congrArg (fun r => r.1) hres
  unfold processExit at hkernel
  split at hkernel
  · obtain rfl := Option.some.inj hkernel
    rfl
  · split at hkernel
    · obtain rfl := Option.some.inj hkernel
      rfl
    · rw [← Option.some.inj hkernel]
      exact Kernel.kfree_vm k _

/-- **Step lemma**: a cycle keeps a slot and a frame. -/
theorem Cycle.costs {t t' : Kernel × Sched} (h : Cycle (procEnv idle wrapper table) t t')
    (hi : ∃ c q, Inv t.2 c q) : (∃ c q, Inv t'.2 c q) ∧ unusedSlots t'.2 + 1 = unusedSlots t.2 ∧
      Pmm.clearBits t'.1.vm.pmm + 1 ≤ Pmm.clearBits t.1.vm.pmm := by
  obtain ⟨c, q, hi⟩ := hi
  cases h with
  | mk k k₁ k' s s₁ s₂ s' sw name entry p code hcreate hwait hcur hexit =>
    have hnew := processCreate_performed (procEnv idle wrapper table) (some k) hi name entry
    rw [hcreate] at hnew
    obtain ⟨c₁, q₁, hi₁, -⟩ := hnew.inv
    obtain ⟨⟨c₂, q₂, hi₂⟩, hslots⟩ := Waits.run hwait ⟨c₁, q₁, hi₁⟩
    have hend := processExit_performed (procEnv idle wrapper table) (some k₁) hi₂ code
    rw [hexit] at hend
    obtain ⟨c', q', hi', -⟩ := hend.inv
    refine ⟨⟨c', q', hi'⟩, ?_, ?_⟩
    · have hlost := hnew.unusedSlots_new
      have hkept := hend.unusedSlots_eq
      dsimp only at hlost hkept ⊢
      omega
    · dsimp only
      rw [exit_vm hexit]
      exact create_frames hcreate

/-- **Run lemma.** -/
theorem Cycles.costs {t t' : Kernel × Sched} {n : Nat}
    (h : Cycles (procEnv idle wrapper table) t n t') (hi : ∃ c q, Inv t.2 c q) :
    (∃ c q, Inv t'.2 c q) ∧ unusedSlots t'.2 + n = unusedSlots t.2 ∧
      Pmm.clearBits t'.1.vm.pmm + n ≤ Pmm.clearBits t.1.vm.pmm := by
  induction h with
  | zero => exact ⟨hi, Nat.add_zero _, (Nat.add_zero _).le⟩
  | succ _ hc ih =>
    obtain ⟨hi₁, hslots, hframes⟩ := ih
    obtain ⟨hi₂, hslots', hframes'⟩ := hc.costs hi₁
    exact ⟨hi₂, by omega, by omega⟩

/-- A process that is created is at the end of the ready queue. -/
theorem Inv.created {σ : Type} {env : ProcEnv σ} {κ κ' : σ} (h : Inv s c q)
    (hres : processCreate env κ s name entry = (some p, κ', s')) : Inv s' c (q ++ [p]) := by
  have hcases := processCreate_cases env κ s name entry
  rw [hres] at hcases
  cases hcases with
  | ok p κ' proc a hp0 hp ha ha0 hproc => exact h.create hp0 hp hproc _ _

/-- Right after boot: a process is created, the boot context yields to it, and it ends. -/
theorem exists_cycle : ∃ img mboot mem heapMem k₀ k s k' s',
    bootKernel img mboot mem heapMem = some k₀ ∧
    bootProcesses (procEnv 0 0 0) (some k₀) k₀.vm.paging.kernelPdPhys (fun _ => 0)
      = (some k, s) ∧ Cycle (procEnv 0 0 0) (k, s) (k', s') := by
  obtain ⟨img, mboot, mem, heapMem, k₀, k, s, hboot, hproc, hinv, -, -, hslot, hi, hzero,
    hframes⟩ := exists_boot
  have hclone : k.vm.clonePd.1 ≠ 0 := by
    rw [Vm.clonePd_addr _]
    exact Pmm.alloc_ne_zero hzero (by omega)
  have hinv' : Heap.Inv k.clonePd.heap [⟨0xC0000000, 0x1010, false⟩, ⟨0xC0001010, 0xFEFF0, true⟩] :=
    hinv
  obtain ⟨h', hk, -, -, -⟩ := Kernel.kmalloc_served hinv' (n := kernelStackSize) (a := 0xC0001010)
    (by decide) (by decide)
    (by decide : _ = some (_, [⟨0xC0000000, 0x1010, false⟩, ⟨0xC0001010, 0x1010, false⟩,
      ⟨0xC0002020, 0xFDFE0, true⟩]))
  obtain ⟨s₁, hcreate⟩ := @processCreate_stack 0 0 0 k _ s 1 [] 0 _ hslot hclone hk
  have hi₁ : Inv s₁ 0 [1] := hi.created hcreate
  obtain ⟨-, hcur⟩ := processYield_head hi₁
  have hwait : Relation.ReflTransGen (Waits (procEnv 0 0 0) { k.clonePd with heap := h' }) s₁
      (processYield s₁).1 := .single (.op s₁ .yield (by simp) rfl)
  obtain ⟨k', s', sw, hexit⟩ : ∃ k' s' sw, processExit (procEnv 0 0 0)
      (some { k.clonePd with heap := h' }) (processYield s₁).1 0 = (some k', s', sw) := by
    unfold processExit
    split
    · exact ⟨_, _, _, rfl⟩
    · split
      · exact ⟨_, _, _, rfl⟩
      · exact ⟨_, _, _, rfl⟩
  exact ⟨img, mboot, mem, heapMem, k₀, k, s, k', s', hboot, hproc,
    .mk k _ k' s s₁ _ s' sw [] 0 1 0 hcreate hwait hcur hexit⟩

/-- **Every cycle costs a slot and a frame**, from every state a run reaches: a number of cycles is
neutral only when it is none, and there are at most 255 of them. -/
theorem cycles_neutral_iff (idle wrapper table : Nat) (k₀ : Option Kernel) (kernelPd : Nat)
    (mem : Mem) (k k' : Kernel) (s s' : Sched)
    (hrun : Relation.ReflTransGen (Step (procEnv idle wrapper table))
      (bootProcesses (procEnv idle wrapper table) k₀ kernelPd mem) (some k, s))
    (n : Nat) (hcycles : Cycles (procEnv idle wrapper table) (k, s) n (k', s')) :
    unusedSlots s' + n = unusedSlots s ∧
      Pmm.clearBits k'.vm.pmm + n ≤ Pmm.clearBits k.vm.pmm ∧ n ≤ 255 ∧
      (Neutral k s k' s' ↔ n = 0) := by
  have hboot := bootProcesses_inv (procEnv idle wrapper table) k₀ kernelPd mem
  obtain ⟨c, q, hi⟩ := (run_inv hrun ⟨0, [], hboot⟩).1
  obtain ⟨-, hslots, hframes⟩ := hcycles.costs ⟨c, q, hi⟩
  dsimp only at hslots hframes
  have hle : unusedSlots s ≤ 255 := hi.unusedSlots_le
  refine ⟨hslots, hframes, by omega, ?_, ?_⟩
  · intro h
    have := h.slots
    omega
  · rintro rfl
    cases hcycles
    exact ⟨rfl, rfl, rfl⟩

/-- One cycle right after boot: all but one of the 255 slots are left. -/
theorem cycles_neutral_iff_boot : ∃ (k k' : Kernel) (s s' : Sched),
    Cycles (procEnv 0 0 0) (k, s) 1 (k', s') ∧ unusedSlots s' + 1 = unusedSlots s ∧
      (Neutral k s k' s' ↔ 1 = 0) := by
  obtain ⟨-, -, -, -, k₀, k, s, k', s', -, hproc, hcycle⟩ := exists_cycle
  have hcycles : Cycles (procEnv 0 0 0) (k, s) 1 (k', s') := .succ .zero hcycle
  obtain ⟨hslots, -, -, hiff⟩ := cycles_neutral_iff 0 0 0 (some k₀) k₀.vm.paging.kernelPdPhys
    (fun _ => 0) k k' s s' (hproc ▸ .refl) 1 hcycles
  exact ⟨k, k', s, s', hcycles, hslots, hiff⟩

/-- **The first process after boot, created and ended**, has used up a slot and a frame. -/
theorem cycle_not_neutral : ∃ img mboot mem heapMem k₀ k s k' s',
    bootKernel img mboot mem heapMem = some k₀ ∧
    bootProcesses (procEnv 0 0 0) (some k₀) k₀.vm.paging.kernelPdPhys (fun _ => 0)
      = (some k, s) ∧ Cycle (procEnv 0 0 0) (k, s) (k', s') ∧ unusedSlots s' < unusedSlots s ∧
      Pmm.clearBits k'.vm.pmm < Pmm.clearBits k.vm.pmm := by
  obtain ⟨img, mboot, mem, heapMem, k₀, k, s, k', s', hboot, hproc, hcycle⟩ := exists_cycle
  have hi : Inv s 0 [] := by
    have := bootProcesses_inv (procEnv 0 0 0) (some k₀) k₀.vm.paging.kernelPdPhys fun _ => 0
    rwa [hproc] at this
  obtain ⟨-, hslots, hframes⟩ := hcycle.costs ⟨0, [], hi⟩
  exact ⟨img, mboot, mem, heapMem, k₀, k, s, k', s', hboot, hproc, hcycle,
    Nat.lt_of_succ_le hslots.le, hframes⟩

end Process

end FlowOS
