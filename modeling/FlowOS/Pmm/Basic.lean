/-
# The physical memory manager (`pmm.c`)

One bit for each 4 KiB frame of the 4 GiB address space, set when the frame is used.
`pmm_init` marks everything used and then clears the bits of the frames that the boot loader's
memory map reports as available; the allocators search for clear bits, a single one or a run.

The memory map is read where the boot loader left it: a walk over records in memory, each
saying how far away the next one is.  Nothing the loop does changes that memory, so the model
separates the walk (`mmapEntries`) from what is done with each record.
-/
import FlowOS.Heap.Basic
import FlowOS.Lib.Bitmap

namespace FlowOS

open Word

namespace Pmm

/-- `BITMAP_SIZE`. -/
def bitmapSize : Nat := 32768

end Pmm

/-- The static variables of `pmm.c`. -/
structure Pmm where
  bitmap : Bitmap.Words 32
  totalPages : Nat
  usedPages : Nat

namespace Pmm

/-! ## 1. The memory map -/

/-- `struct multiboot_info`, the fields `pmm_init` reads. -/
structure MultibootInfo where
  flags : BitVec 32
  memUpper : Nat
  mmapLength : Nat
  mmapAddr : Nat

/-- `struct multiboot_mmap_entry`. -/
structure MmapEntry where
  size : Nat
  addr : Nat
  len : Nat
  type : Nat

/-- `*mmap`. -/
def readEntry (mem : Mem) (p : Nat) : MmapEntry :=
  ⟨mem.ld32 p, mem.ld64 (p + 4), mem.ld64 (p + 12), mem.ld32 (p + 20)⟩

/-- The records the `while` loop of `pmm_init` visits.  The next record depends on the address
of this one only, so a walk of more than `2 ^ 32` records never ends: that is `none`. -/
def mmapEntries (mem : Mem) (mmapEnd : Nat) : Nat → Nat → Option (List MmapEntry)
  | 0, _ => none
  | fuel + 1, p =>
    if p < mmapEnd then
      let e := readEntry mem p
      (mmapEntries mem mmapEnd fuel (add32 (add32 p e.size) 4)).map (e :: ·)
    else some []

/-! ## 2. `pmm_init` -/

/-- `kernel_end`, for the linker's `_end`. -/
def kernelEnd (linkEnd : Nat) : Nat := add32 linkEnd (pageSize - 1) &&& 0xFFFFF000

/-- `bitmap_clear(page); total_pages++;` -/
def release (m : Pmm) (page : Nat) : Pmm :=
  { m with bitmap := Bitmap.clear m.bitmap page, totalPages := add32 m.totalPages 1 }

/-- The body of the loop over the pages of a record. -/
def releaseUsable (kernelEnd : Nat) (m : Pmm) (page : Nat) : Pmm :=
  -- don't free memory below 1 MiB or kernel memory
  let pageAddr := page * pageSize % 2 ^ 32
  if 0x100000 ≤ pageAddr ∧ kernelEnd ≤ pageAddr then m.release page else m

/-- `for (page = start; page < end; page++)`, as the list of pages. -/
def pageRange (startPage endPage : Nat) : List Nat := List.range' startPage (endPage - startPage)

/-- What `pmm_init` does with one record. -/
def addEntry (kernelEnd : Nat) (m : Pmm) (e : MmapEntry) : Pmm :=
  if e.type = 1 then
    if e.addr < 2 ^ 32 then
      let len := if 2 ^ 32 < (e.addr + e.len) % 2 ^ 64 then 2 ^ 32 - e.addr else e.len
      let startPage := (e.addr + pageSize - 1) / pageSize % 2 ^ 32
      let endPage := (e.addr + len) % 2 ^ 64 / pageSize % 2 ^ 32
      (pageRange startPage endPage).foldl (releaseUsable kernelEnd) m
    else m
  else m

/-- All memory used, as `pmm_init` starts; `total_pages` is what the image has, 0. -/
def allUsed : Pmm := ⟨fun _ => BitVec.allOnes 32, 0, 0⟩

/-- The fallback without a memory map: the memory `mem_upper` reports, above the kernel. -/
def addUpper (kernelEnd memUpper : Nat) (m : Pmm) : Pmm :=
  let memSize := (memUpper + 1024) % 2 ^ 32 * 1024 % 2 ^ 32
  let startPage := kernelEnd / pageSize
  let endPage := memSize / pageSize
  (pageRange startPage (min endPage (bitmapSize * 32))).foldl release m

/-- `pmm_init`; `none` when the walk over the memory map does not end. -/
def pmmInit (mem : Mem) (linkEnd : Nat) (mboot : MultibootInfo) : Option Pmm :=
  let kernelEnd := kernelEnd linkEnd
  if mboot.flags &&& 1#32 <<< 6 != 0#32 then
    let mmapEnd := add32 mboot.mmapAddr mboot.mmapLength
    (mmapEntries mem mmapEnd (2 ^ 32) mboot.mmapAddr).map fun es =>
      { es.foldl (addEntry kernelEnd) allUsed with usedPages := 0 }
  else some { addUpper kernelEnd mboot.memUpper allUsed with usedPages := 0 }

/-! ## 3. Allocation -/

/-- `pmm_alloc_page`: the address of the frame, or 0. -/
def pmmAllocPage (m : Pmm) : Nat × Pmm :=
  match Bitmap.firstClear m.bitmap bitmapSize with
  | some page =>
    (page * pageSize % 2 ^ 32,
      { m with bitmap := Bitmap.set m.bitmap page, usedPages := add32 m.usedPages 1 })
  | none => (0, m)  -- out of memory

/-- `pmm_free_page`. -/
def pmmFreePage (m : Pmm) (addr : Nat) : Pmm :=
  let page := addr / pageSize
  if Bitmap.test m.bitmap page then
    { m with bitmap := Bitmap.clear m.bitmap page, usedPages := sub32 m.usedPages 1 }
  else m

/-- `pmm_get_free_pages`. -/
def pmmGetFreePages (m : Pmm) : Nat := sub32 m.totalPages m.usedPages

/-- The inner test of `pmm_alloc_pages`: the run of `n` frames from `start` is free. -/
def canAlloc (m : Pmm) (start n : Nat) : Bool :=
  (List.range n).all fun k => !Bitmap.test m.bitmap (add32 start k)

/-- Mark the run of `n` frames from `start` used. -/
def takeRun (m : Pmm) (start n : Nat) : Pmm :=
  { m with
    bitmap := (List.range n).foldl (fun b k => Bitmap.set b (add32 start k)) m.bitmap
    usedPages := add32 m.usedPages n }

/-- `pmm_alloc_pages`.  The loop tests every `start` up to `total_avail - n`; when that is the
largest 32-bit number the counter wraps round and the search only ends with a hit: `none`. -/
def pmmAllocPages (m : Pmm) (n : Nat) : Option (Nat × Pmm) :=
  if n = 0 then some (0, m)
  else
    let last := sub32 (bitmapSize * 32) n
    match Loop.firstSome (fun start => if canAlloc m start n then some start else none)
        (last + 1) 0 with
    | some start => some (start * pageSize % 2 ^ 32, m.takeRun start n)
    | none => if last = 2 ^ 32 - 1 then none else some (0, m)

/-- One round of the loop of `pmm_free_pages`. -/
def freeOne (m : Pmm) (p : Nat) : Pmm :=
  if p < bitmapSize * 32 ∧ Bitmap.test m.bitmap p then
    { m with bitmap := Bitmap.clear m.bitmap p, usedPages := sub32 m.usedPages 1 }
  else m

/-- `pmm_free_pages`. -/
def pmmFreePages (m : Pmm) (addr n : Nat) : Pmm :=
  let page := addr / pageSize
  (List.range n).foldl (fun m i => m.freeOne (add32 page i)) m

end Pmm

end FlowOS
