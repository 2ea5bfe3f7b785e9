/-
# Virtual memory as one system

The physical memory manager, the page tables and the kernel heap, put together: `pmm_alloc_page`
is the one of `pmm.c`, tables and directories are made of the frames it hands out, and the heap
grows through both.  The functions are those of the three files; this module joins their states
and adds what `kmain` does to set the heap up.

Three places of the kernel take a frame and map it: the expansion in `kmalloc`, the page fault
handler, and the loader.  `backPage` is what they have in common.
-/
import FlowOS.Pmm.Basic
import FlowOS.Paging.Basic

namespace FlowOS

open Word Frames Paging

/-- The static variables of `pmm.c` and `paging.c`. -/
structure Vm where
  pmm : Pmm
  paging : Paging

namespace Vm

/-! ## 1. The calls of `pmm.c` and `paging.c` -/

/-- `pmm_alloc_page`. -/
def allocPage (vm : Vm) : Nat × Vm :=
  ((Pmm.pmmAllocPage vm.pmm).1, { vm with pmm := (Pmm.pmmAllocPage vm.pmm).2 })

/-- `paging_map_page`. -/
def mapPage (v p flags : Nat) (vm : Vm) : Vm :=
  let r := pagingMapPage Pmm.pmmAllocPage vm.pmm vm.paging v p flags
  ⟨r.1, r.2⟩

/-- `paging_unmap_page`. -/
def unmapPage (v : Nat) (vm : Vm) : Vm := { vm with paging := pagingUnmapPage vm.paging v }

/-- `paging_clone_pd`. -/
def clonePd (vm : Vm) : Nat × Vm :=
  let r := pagingClonePd Pmm.pmmAllocPage vm.pmm vm.paging
  (r.1, ⟨r.2.1, r.2.2⟩)

/-- `paging_switch`. -/
def switch (pd : Nat) (vm : Vm) : Vm := { vm with paging := pagingSwitch vm.paging pd }

/-- `page_fault_handler`: whether it returns. -/
def pageFault (faultAddr err : Nat) (vm : Vm) : Bool × Vm :=
  let r := pageFaultHandler Pmm.pmmAllocPage vm.pmm vm.paging faultAddr err
  (r.1, ⟨r.2.1, r.2.2⟩)

/-- The services behind `kmalloc`. -/
def pageEnv : PageEnv Vm := ⟨allocPage, mapPage⟩

/-- `p = pmm_alloc_page(); if (!p) ...; paging_map_page(v, p, flags);`: whether there was a
frame. -/
def backPage (v flags : Nat) (vm : Vm) : Bool × Vm :=
  let r := vm.allocPage
  if r.1 = 0 then (false, r.2) else (true, r.2.mapPage v r.1 flags)

/-- A store of the running code to a mapped address. -/
def store (v : Nat) (b : UInt8) (vm : Vm) : Vm :=
  { vm with
    paging := { vm.paging with mem := vm.paging.mem.st8 (pagingGetPhysical vm.paging v) b } }

/-- The entry of a page in the current directory. -/
def entry (vm : Vm) (vpn : Nat) : Option (Nat × Nat) :=
  lookup vm.paging.mem vm.paging.currentPdPhys vpn

end Vm

/-! ## 2. The heap in the system -/

/-- The virtual memory, the heap in it, and the directories made so far. -/
structure Kernel where
  vm : Vm
  heap : Heap
  dirs : List Nat

namespace Kernel

/-- `KERNEL_HEAP_VIRT` (`kernel.c`). -/
def heapVirt : Nat := 0xC0000000

/-- `HEAP_PAGES` (`kernel.c`). -/
def heapPages : Nat := 256

/-- `for (i = 0; i < n; i++) paging_map_page(KERNEL_HEAP_VIRT + i * PAGE_SIZE, ...);` -/
def mapHeap (heapPhys : Nat) (vm : Vm) (n : Nat) : Vm :=
  (List.range n).foldl (fun vm i => vm.mapPage (heapVirt + i * pageSize) (heapPhys + i * pageSize)
    (pagePresent ||| pageWrite)) vm

/-- What `kmain` does between `paging_init` and the end of `heap_init`; `none` when the machine
halts. -/
def bootHeap (vm : Vm) (heapMem : Mem) : Option Kernel :=
  match Pmm.pmmAllocPages vm.pmm heapPages with
  | none => none
  | some (heapPhys, pmm) =>
    if heapPhys = 0 then none  -- "Heap OOM"
    else
      let vm := mapHeap heapPhys { vm with pmm := pmm } heapPages
      -- the pages are not mapped when there was no frame for their table; then there is none
      -- for the page fault of `heap_init` either, and its handler halts the machine
      if (vm.entry (heapVirt / pageSize)).isNone then none
      else some ⟨vm, Heap.heapInit heapMem heapVirt (heapPages * pageSize),
        [vm.paging.kernelPdPhys]⟩

end Kernel

/-- The kernel image: where the linker puts the arrays of `paging.c`, and `_end`. -/
structure KernelImage extends Paging.Image where
  linkEnd : Nat
  base : 0x100000 ≤ linkEnd
  fits : linkEnd + 4095 < 2 ^ 32
  pdBelow : kernelPd + 4096 ≤ linkEnd
  tablesBelow : kernelPageTables + 256 * 4096 ≤ linkEnd

/-- `kmain` up to the end of `heap_init`: `pmm_init`, `paging_init`, and the heap. -/
def bootKernel (img : KernelImage) (mboot : Pmm.MultibootInfo) (mem heapMem : Mem) :
    Option Kernel :=
  match Pmm.pmmInit mem img.linkEnd mboot with
  | none => none
  | some pmm => Kernel.bootHeap ⟨pmm, pagingInit img.toImage mem⟩ heapMem

namespace Kernel

/-- `paging_clone_pd`, with the directory it has made. -/
def clonePd (k : Kernel) : Kernel :=
  let r := k.vm.clonePd
  { k with vm := r.2, dirs := if r.1 = 0 then k.dirs else r.1 :: k.dirs }

/-- `kmalloc`; `none` when a walk of the block list does not end. -/
def kmalloc (k : Kernel) (size : Nat) : Option (Nat × Kernel) :=
  (Heap.kmalloc Vm.pageEnv k.vm k.heap size).map fun r =>
    (r.1, { k with vm := r.2.1, heap := r.2.2 })

/-- `kfree`. -/
def kfree (k : Kernel) (ptr : Nat) : Kernel := { k with heap := Heap.kfree k.heap ptr }

end Kernel

end FlowOS
