/-
# The kernel heap (`heap.c`)

The allocator keeps its blocks in one doubly linked list of `struct heap_block` headers that
live in the heap memory itself.  The model keeps them there too: a block is the address of its
header, its four fields are 32-bit loads and stores, and the five static variables are the
other fields of `Heap`.  Stale headers of absorbed blocks and the bytes of payloads are
therefore part of the state, as they are on the machine.

`kmalloc` calls two other subsystems when it grows the heap, `pmm_alloc_page` and
`paging_map_page`.  They are the parameter `PageEnv`: everything proved here holds for every
way they can answer.
-/
import FlowOS.Lib.Word
import FlowOS.Lib.Mem

namespace FlowOS

open Word

/-- `PAGE_SIZE` (`pmm.h`). -/
def pageSize : Nat := 4096

/-- `PAGE_PRESENT` (`paging.h`). -/
def pagePresent : Nat := 0x001

/-- `PAGE_WRITE` (`paging.h`). -/
def pageWrite : Nat := 0x002

/-- `PAGE_USER` (`paging.h`). -/
def pageUser : Nat := 0x004

namespace Heap

/-! ## 1. Block headers -/

/-- The fields of `struct heap_block`. -/
inductive Field
  | size | isFree | next | prev
  deriving DecidableEq, Repr

/-- Where a field stands in the header. -/
def Field.offset : Field → Nat
  | .size => 0
  | .isFree => 4
  | .next => 8
  | .prev => 12

/-- `block->f`. -/
def get (m : Mem) (f : Field) (block : Nat) : Nat := m.ld32 (block + f.offset)

/-- `block->f = v`. -/
def put (m : Mem) (f : Field) (block v : Nat) : Mem := m.st32 (block + f.offset) v

/-- `BLOCK_HEADER_SIZE`. -/
def blockHeaderSize : Nat := 16

/-- `MIN_BLOCK_SIZE`. -/
def minBlockSize : Nat := blockHeaderSize + 16

end Heap

/-- The static variables of `heap.c`, and the memory they point into. -/
structure Heap where
  mem : Mem
  heapStart : Nat
  heapEnd : Nat
  heapSize : Nat
  heapUsed : Nat
  heapVirtStart : Nat

namespace Heap

/-- `block->f = v`, in a state. -/
def set (h : Heap) (f : Field) (block v : Nat) : Heap := { h with mem := put h.mem f block v }

/-! ## 2. The operations -/

/-- `heap_init`. -/
def heapInit (mem : Mem) (start size : Nat) : Heap :=
  let h : Heap :=
    { mem := mem, heapStart := start, heapEnd := 0, heapSize := size,
      heapUsed := blockHeaderSize, heapVirtStart := start }
  let h := h.set .size start size
  let h := h.set .isFree start 1
  let h := h.set .next start 0
  let h := h.set .prev start 0
  { h with heapEnd := start }

/-- The `while (current)` loop of `find_free_block`; `none` when it is still running after
`fuel` rounds. -/
def findFrom (m : Mem) (size : Nat) : Nat → Nat → Option Nat
  | 0, _ => none
  | fuel + 1, current =>
    if current = 0 then some 0
    else if get m .isFree current ≠ 0 ∧ add32 size blockHeaderSize ≤ get m .size current then
      some current
    else findFrom m size fuel (get m .next current)

/-- `find_free_block`.  A walk of more than `2 ^ 32` rounds has visited some 32-bit address
twice and never ends, so `none` is exactly divergence. -/
def findFreeBlock (h : Heap) (size : Nat) : Option Nat :=
  findFrom h.mem size (2 ^ 32) h.heapStart

/-- `split_block`. -/
def splitBlock (h : Heap) (block size : Nat) : Heap :=
  let totalNeeded := add32 size blockHeaderSize
  -- only split if the remaining space is large enough
  if add32 totalNeeded minBlockSize ≤ get h.mem .size block then
    let newBlock := add32 block totalNeeded
    let h := h.set .size newBlock (sub32 (get h.mem .size block) totalNeeded)
    let h := h.set .isFree newBlock 1
    let h := h.set .next newBlock (get h.mem .next block)
    let h := h.set .prev newBlock block
    let h := if get h.mem .next block ≠ 0 then h.set .prev (get h.mem .next block) newBlock else h
    let h := h.set .size block totalNeeded
    let h := h.set .next block newBlock
    if block = h.heapEnd then { h with heapEnd := newBlock } else h
  else h

/-- The first half of `merge_free_blocks`: absorb the next block if it is free. -/
def mergeNext (h : Heap) (block : Nat) : Heap :=
  if get h.mem .next block ≠ 0 ∧ get h.mem .isFree (get h.mem .next block) ≠ 0 then
    let h := h.set .size block
      (add32 (get h.mem .size block) (get h.mem .size (get h.mem .next block)))
    let h := h.set .next block (get h.mem .next (get h.mem .next block))
    if get h.mem .next block ≠ 0 then h.set .prev (get h.mem .next block) block
    else { h with heapEnd := block }
  else h

/-- The second half of `merge_free_blocks`: be absorbed by the previous block if it is free. -/
def mergePrev (h : Heap) (block : Nat) : Heap :=
  if get h.mem .prev block ≠ 0 ∧ get h.mem .isFree (get h.mem .prev block) ≠ 0 then
    let h := h.set .size (get h.mem .prev block)
      (add32 (get h.mem .size (get h.mem .prev block)) (get h.mem .size block))
    let h := h.set .next (get h.mem .prev block) (get h.mem .next block)
    if get h.mem .next block ≠ 0 then
      h.set .prev (get h.mem .next block) (get h.mem .prev block)
    else { h with heapEnd := get h.mem .prev block }
  else h

/-- `merge_free_blocks`. -/
def mergeFreeBlocks (h : Heap) (block : Nat) : Heap := mergePrev (mergeNext h block) block

/-- The bookkeeping of a heap expansion: the page at the end of the heap becomes a free block
appended to the list. -/
def appendPage (h : Heap) : Heap :=
  let newVirt := add32 h.heapVirtStart h.heapSize
  let h := { h with heapSize := add32 h.heapSize pageSize }
  let h := h.set .size newVirt pageSize
  let h := h.set .isFree newVirt 1
  let h := h.set .next newVirt 0
  let h := h.set .prev newVirt h.heapEnd
  let h := if h.heapEnd ≠ 0 then h.set .next h.heapEnd newVirt else h
  { h with heapEnd := newVirt }

/-- The end of `kmalloc`: split the block found, mark it used, count it, return its payload. -/
def takeBlock (h : Heap) (block size : Nat) : Nat × Heap :=
  let h := splitBlock h block size
  let h := h.set .isFree block 0
  let h := { h with heapUsed := add32 h.heapUsed (get h.mem .size block) }
  (add32 block blockHeaderSize, h)

end Heap

/-- The services of the other subsystems that `kmalloc` calls, over their own state `σ`:
`pmm_alloc_page()` and `paging_map_page(virtual_addr, physical_addr, flags)`. -/
structure PageEnv (σ : Type) where
  pmmAllocPage : σ → Nat × σ
  pagingMapPage : Nat → Nat → Nat → σ → σ

namespace Heap

variable {σ : Type}

/-- `size = (size + 7) & ~7`. -/
def align8 (size : Nat) : Nat := add32 size 7 &&& 0xFFFFFFF8

/-- `kmalloc`.  The result is the pointer with the new states, or `none` when a walk of the
block list does not end. -/
def kmalloc (env : PageEnv σ) (s : σ) (h : Heap) (size : Nat) : Option (Nat × σ × Heap) :=
  if size = 0 then some (0, s, h)
  else
    let size := align8 size
    match findFreeBlock h size with
    | none => none
    | some block =>
      if block ≠ 0 then
        let r := takeBlock h block size
        some (r.1, s, r.2)
      else
        -- expand the heap
        let a := env.pmmAllocPage s
        let phys := a.1
        let s := a.2
        if phys = 0 then some (0, s, h)
        else
          let newVirt := add32 h.heapVirtStart h.heapSize
          let s := env.pagingMapPage newVirt phys (pagePresent ||| pageWrite) s
          let h := appendPage h
          -- retry allocation
          match findFreeBlock h size with
          | none => none
          | some block =>
            if block = 0 then some (0, s, h)
            else
              let r := takeBlock h block size
              some (r.1, s, r.2)

/-- `kfree`. -/
def kfree (h : Heap) (ptr : Nat) : Heap :=
  if ptr = 0 then h
  else
    let block := sub32 ptr blockHeaderSize
    if block < h.heapStart ∨ add32 h.heapStart h.heapSize ≤ block then h  -- invalid pointer
    else if get h.mem .isFree block ≠ 0 then h  -- already freed
    else
      let h := { h with heapUsed := sub32 h.heapUsed (get h.mem .size block) }
      let h := h.set .isFree block 1
      mergeFreeBlocks h block

/-- The rest of `kmalloc_aligned`, given what `kmalloc` returned: the pointer is stored below the
one handed out. -/
def alignPtr (alignment ptr : Nat) (s : σ) (h : Heap) : Nat × σ × Heap :=
  if ptr = 0 then (0, s, h)
  else
    let addr := add32 ptr 4
    let aligned := sub32 (add32 addr alignment) 1 &&& not32 (sub32 alignment 1)
    (aligned, s, { h with mem := h.mem.st32 (sub32 aligned 4) ptr })

/-- `kmalloc_aligned`. -/
def kmallocAligned (env : PageEnv σ) (s : σ) (h : Heap) (size alignment : Nat) :
    Option (Nat × σ × Heap) :=
  -- size + alignment - 1 + sizeof(void *)
  let total := add32 (sub32 (add32 size alignment) 1) 4
  (kmalloc env s h total).map fun r => alignPtr alignment r.1 r.2.1 r.2.2

/-- `heap_get_used`. -/
def heapGetUsed (h : Heap) : Nat := h.heapUsed

/-- `heap_get_free`. -/
def heapGetFree (h : Heap) : Nat := sub32 h.heapSize h.heapUsed

end Heap

end FlowOS
