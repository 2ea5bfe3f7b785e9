/-
# Paging (`paging.c`)

Page directories and page tables are frames of physical memory, and the model reads and writes
them there.  `current_pd_phys` and `kernel_pd_phys` are the two static variables; `kernel_pd`
and `kernel_page_tables` are arrays of the kernel image, whose addresses the linker chooses
(`Image`).  The frame for a new table or directory comes from `pmm_alloc_page`, a function of
some state `σ`.
-/
import FlowOS.Heap.Basic
import FlowOS.Lib.Frames

namespace FlowOS

open Word Frames

/-- The static variables of `paging.c`, and physical memory. -/
structure Paging where
  mem : Mem
  currentPdPhys : Nat
  kernelPdPhys : Nat

namespace Paging

/-- Where the linker puts `kernel_pd` and `kernel_page_tables`: two arrays aligned to 4096
bytes, as they are declared, that do not overlap. -/
structure Image where
  kernelPd : Nat
  kernelPageTables : Nat
  pdAligned : 4096 ∣ kernelPd
  tablesAligned : 4096 ∣ kernelPageTables
  pdFits : kernelPd + 4096 ≤ 2 ^ 32
  tablesFit : kernelPageTables + 256 * 4096 ≤ 2 ^ 32
  apart : kernelPd + 4096 ≤ kernelPageTables ∨ kernelPageTables + 256 * 4096 ≤ kernelPd

variable {σ : Type}

/-! ## 1. `paging_init` -/

/-- `&kernel_page_tables[i]`. -/
def Image.table (img : Image) (i : Nat) : Nat := img.kernelPageTables + 4096 * i

/-- One round of the outer loop of `paging_init`: fill table `i` with the identity and enter it
into the directory. -/
def identityTable (img : Image) (mem : Mem) (i : Nat) : Mem :=
  let mem := fill mem (img.table i)
    (fun j => (i * 1024 + j) * pageSize % 2 ^ 32 ||| pagePresent ||| pageWrite) 1024
  setWord mem img.kernelPd i (img.table i ||| pagePresent ||| pageWrite)

/-- `paging_init`. -/
def pagingInit (img : Image) (mem : Mem) : Paging :=
  let mem := fill mem img.kernelPd (fun _ => 0) 1024
  let mem := (List.range 256).foldl (identityTable img) mem
  { mem := mem, currentPdPhys := img.kernelPd, kernelPdPhys := img.kernelPd }

/-! ## 2. Mapping and unmapping -/

/-- `virtual_addr >> 22`. -/
def pdIndex (virtualAddr : Nat) : Nat := virtualAddr >>> 22

/-- `(virtual_addr >> 12) & 0x3FF`. -/
def ptIndex (virtualAddr : Nat) : Nat := (virtualAddr >>> 12) &&& 0x3FF

/-- The end of `paging_map_page`, when the directory has the table. -/
def mapInTable (pg : Paging) (virtualAddr physicalAddr flags : Nat) : Paging :=
  let pageTable := word pg.mem pg.currentPdPhys (pdIndex virtualAddr) &&& 0xFFFFF000
  { pg with
    mem := setWord pg.mem pageTable (ptIndex virtualAddr)
      (physicalAddr &&& 0xFFFFF000 ||| flags ||| pagePresent) }

/-- The first half of `paging_map_page`, when the directory has no table for the address: enter
the cleared frame `ptPhys` as one. -/
def addTable (pg : Paging) (ptPhys virtualAddr flags : Nat) : Paging :=
  let mem := fill pg.mem ptPhys (fun _ => 0) 1024
  { pg with
    mem := setWord mem pg.currentPdPhys (pdIndex virtualAddr)
      (ptPhys ||| pagePresent ||| pageWrite ||| (flags &&& pageUser)) }

/-- `paging_map_page`. -/
def pagingMapPage (pmmAllocPage : σ → Nat × σ) (k : σ) (pg : Paging)
    (virtualAddr physicalAddr flags : Nat) : σ × Paging :=
  if word pg.mem pg.currentPdPhys (pdIndex virtualAddr) &&& pagePresent = 0 then
    let r := pmmAllocPage k
    let ptPhys := r.1
    if ptPhys = 0 then (r.2, pg)
    else (r.2, mapInTable (addTable pg ptPhys virtualAddr flags) virtualAddr physicalAddr flags)
  else (k, mapInTable pg virtualAddr physicalAddr flags)

/-- `paging_unmap_page`. -/
def pagingUnmapPage (pg : Paging) (virtualAddr : Nat) : Paging :=
  let pdEntry := word pg.mem pg.currentPdPhys (pdIndex virtualAddr)
  if pdEntry &&& pagePresent = 0 then pg
  else { pg with mem := setWord pg.mem (pdEntry &&& 0xFFFFF000) (ptIndex virtualAddr) 0 }

/-- `paging_get_physical`. -/
def pagingGetPhysical (pg : Paging) (virtualAddr : Nat) : Nat :=
  let pdEntry := word pg.mem pg.currentPdPhys (pdIndex virtualAddr)
  if pdEntry &&& pagePresent = 0 then 0
  else
    let ptEntry := word pg.mem (pdEntry &&& 0xFFFFF000) (ptIndex virtualAddr)
    if ptEntry &&& pagePresent = 0 then 0
    else add32 (ptEntry &&& 0xFFFFF000) (virtualAddr &&& 0xFFF)

/-! ## 3. `page_fault_handler` -/

/-- `page_fault_handler` for a fault at `faultAddr` with error code `err`: whether it returns to
the faulting instruction (otherwise it panics and the machine halts). -/
def pageFaultHandler (pmmAllocPage : σ → Nat × σ) (k : σ) (pg : Paging) (faultAddr err : Nat) :
    Bool × σ × Paging :=
  if err &&& 0x1 ≠ 0 then (false, k, pg)
  else if err &&& 0x8 ≠ 0 then (false, k, pg)
  else
    let pageAddr := faultAddr &&& 0xFFFFF000
    let flags := if err &&& 0x4 ≠ 0 then pagePresent ||| pageWrite ||| pageUser
      else pagePresent ||| pageWrite
    let r := pmmAllocPage k
    let phys := r.1
    if phys = 0 then (false, r.2, pg)
    else (true, pagingMapPage pmmAllocPage r.2 pg pageAddr phys flags)

/-! ## 4. Directories -/

/-- `paging_clone_pd`: the address of the new directory, or 0. -/
def pagingClonePd (pmmAllocPage : σ → Nat × σ) (k : σ) (pg : Paging) : Nat × σ × Paging :=
  let r := pmmAllocPage k
  let newPd := r.1
  if newPd = 0 then (0, r.2, pg)
  else (newPd, r.2, { pg with mem := copy pg.mem newPd pg.kernelPdPhys 1024 })

/-- `paging_switch`. -/
def pagingSwitch (pg : Paging) (pdPhys : Nat) : Paging := { pg with currentPdPhys := pdPhys }

end Paging

end FlowOS
