/-
# The ELF loader (`elf.c`)

`elf_exec` reads the header and the program headers of a file, backs the pages of every
`PT_LOAD` segment with new frames, reads the segment into them, clears the rest of it, and
maps a stack.  It is a program over the paging state and the rest of the system: it returns
early with an error, or the machine panics in the page fault handler, or it reaches
`enter_usermode`.

Stores go through the page tables of the current directory.  The program headers are kept as
a value: they stand in the kernel heap, above the user space the segments are loaded to.
-/
import FlowOS.Paging.Basic

namespace FlowOS.Elf

open Word Frames Paging

/-! ## 1. File format -/

/-- `elf_header_t`, the fields `elf_exec` reads. -/
structure Header where
  magic : UInt32
  type : UInt16
  machine : UInt16
  entry : UInt32
  phoff : UInt32
  phnum : UInt16

/-- `sizeof(elf_header_t)`. -/
def headerSize : Nat := 52

def Header.parse (b : List UInt8) : Header where
  magic := .ofNat ((Mem.ofBytes b).ld32 0)
  type := .ofNat ((Mem.ofBytes b).ld16 16)
  machine := .ofNat ((Mem.ofBytes b).ld16 18)
  entry := .ofNat ((Mem.ofBytes b).ld32 24)
  phoff := .ofNat ((Mem.ofBytes b).ld32 28)
  phnum := .ofNat ((Mem.ofBytes b).ld16 44)

/-- `elf_program_header_t`, the fields `elf_exec` reads. -/
structure ProgramHeader where
  type : UInt32
  offset : UInt32
  vaddr : UInt32
  filesz : UInt32
  memsz : UInt32
  flags : UInt32
deriving DecidableEq

/-- `sizeof(elf_program_header_t)`. -/
def programHeaderSize : Nat := 32

def ProgramHeader.parse (b : List UInt8) : ProgramHeader where
  type := .ofNat ((Mem.ofBytes b).ld32 0)
  offset := .ofNat ((Mem.ofBytes b).ld32 4)
  vaddr := .ofNat ((Mem.ofBytes b).ld32 8)
  filesz := .ofNat ((Mem.ofBytes b).ld32 16)
  memsz := .ofNat ((Mem.ofBytes b).ld32 20)
  flags := .ofNat ((Mem.ofBytes b).ld32 24)

/-- The array `pheaders`, read from the bytes of the table. -/
def programHeaders (table : List UInt8) (phnum : Nat) : List ProgramHeader :=
  (List.range phnum).map fun i => .parse (table.drop (i * programHeaderSize))

def elfMagic : UInt32 := 0x464C457F
def etExec : UInt16 := 2
def em386 : UInt16 := 3
def ptLoad : UInt32 := 1
def pfW : UInt32 := 0x2

/-! ## 2. The machine -/

/-- Why `elf_exec` returned -1. -/
inductive ElfError
  | fileNotFound | readHeader | invalidMagic | notI386 | notExecutable | outOfMemory
  | readProgramHeaders | outOfPhysicalMemory | outOfMemoryForStack
deriving DecidableEq

/-- What it logs before it returns. -/
def ElfError.message : ElfError → String
  | fileNotFound => "ELF: File not found"
  | readHeader => "ELF: Failed to read header"
  | invalidMagic => "ELF: Invalid magic number"
  | notI386 => "ELF: Not i386 executable"
  | notExecutable => "ELF: Not executable file"
  | outOfMemory => "ELF: Out of memory"
  | readProgramHeaders => "ELF: Failed to read program headers"
  | outOfPhysicalMemory => "ELF: Out of physical memory"
  | outOfMemoryForStack => "ELF: Out of memory for stack"

/-- How a run of the loader ends before `enter_usermode`. -/
inductive Stop
  | returns (e : ElfError)
  | panics
deriving DecidableEq

/-- The paging state, and the rest of the system. -/
structure Sys (σ : Type) where
  rest : σ
  paging : Paging

/-- The outcomes of the reads: how many bytes they deliver, those of the header, of the program
headers, and of the segment with index `i`.  A read that stops early delivers a first part of
what was asked for. -/
structure Reads where
  header : Nat
  table : Nat
  segment : Nat → Nat

abbrev Load (σ : Type) := EStateM Stop (Sys σ)

/-- What the loader calls, over the whole system: the heap may grow under `kmalloc` and under the
file system, and that changes the page tables.  A file is its contents; `vfsWork` is what
`vfs_read` does besides filling the buffer. -/
structure Calls (σ : Type) where
  pmmAllocPage : σ → Nat × σ
  kmalloc : Nat → Load σ Nat
  kfree : Nat → Load σ Unit
  vfsFinddir : String → Load σ (Option (List UInt8))
  vfsWork : Nat → Nat → Load σ Unit

variable {σ : Type}

/-- A call that leaves the paging state alone. -/
def onRest {α : Type} (f : σ → α × σ) : Load σ α := fun s =>
  .ok (f s.rest).1 { s with rest := (f s.rest).2 }

/-- The calls of a kernel in which the heap does not grow while the loader runs. -/
structure ElfEnv (σ : Type) where
  pmmAllocPage : σ → Nat × σ
  kmalloc : Nat → σ → Nat × σ
  kfree : Nat → σ → σ
  vfsFinddir : String → σ → Option (List UInt8) × σ
  vfsWork : Nat → Nat → σ → σ

@[reducible] def ElfEnv.calls (env : ElfEnv σ) : Calls σ where
  pmmAllocPage := env.pmmAllocPage
  kmalloc size := onRest (env.kmalloc size)
  kfree ptr := onRest fun k => ((), env.kfree ptr k)
  vfsFinddir path := onRest (env.vfsFinddir path)
  vfsWork offset size := onRest fun k => ((), env.vfsWork offset size k)

instance : Coe (ElfEnv σ) (Calls σ) := ⟨ElfEnv.calls⟩

variable (env : Calls σ)

def allocPage : Load σ Nat := onRest env.pmmAllocPage

/-- The bytes `vfs_read` puts into the buffer; it returns their number. -/
def vfsRead (file : List UInt8) (outcome offset size : Nat) : Load σ (List UInt8) := do
  env.vfsWork offset size
  pure (((file.drop offset).take size).take outcome)

def mapPage (v p flags : Nat) : Load σ Unit := fun s =>
  let r := pagingMapPage env.pmmAllocPage s.rest s.paging v p flags
  .ok () ⟨r.1, r.2⟩

/-- A bound on the faults of one access: every fault takes one of the frames. -/
def faultLimit : Nat := 2 ^ 20

/-- An access of the kernel to `v` faults until the page is present (error code 2: a write, by
the kernel, to a page that is not present). -/
def touch (v : Nat) : Nat → Load σ Unit
  | 0 => fun s => .error .panics s
  | n + 1 => fun s =>
    if (lookup s.paging.mem s.paging.currentPdPhys (v / 4096)).isSome then .ok () s
    else
      let r := pageFaultHandler env.pmmAllocPage s.rest s.paging v 2
      if r.1 then touch v n ⟨r.2.1, r.2.2⟩ else .error .panics ⟨r.2.1, r.2.2⟩

/-- Store a byte at virtual address `v`. -/
def store8 (v : Nat) (b : UInt8) : Load σ Unit := do
  touch env v faultLimit
  fun s => .ok () { s with
    paging := { s.paging with mem := s.paging.mem.st8 (pagingGetPhysical s.paging v) b } }

/-- Store bytes one after the other, from `v` on. -/
def storeBytes : List UInt8 → UInt32 → Load σ Unit
  | [], _ => pure ()
  | b :: bs, v => do
    store8 env v.toNat b
    storeBytes bs (v + 1)

/-! ## 3. `elf_exec` -/

/-- Allocate a frame for the page at `v` and map it, or give up as `fail` does. -/
def backPage (v : UInt32) (flags : Nat) (fail : Load σ Unit) : Load σ Unit := do
  let p ← allocPage env
  if p = 0 then fail else mapPage env v.toNat p flags

def ProgramHeader.pageStart (ph : ProgramHeader) : UInt32 := ph.vaddr &&& 0xFFFFF000

def ProgramHeader.pageEnd (ph : ProgramHeader) : UInt32 :=
  (ph.vaddr + ph.memsz + 0xFFF) &&& 0xFFFFF000

def ProgramHeader.numPages (ph : ProgramHeader) : UInt32 := (ph.pageEnd - ph.pageStart) / 4096

def ProgramHeader.pageFlags (ph : ProgramHeader) : Nat :=
  if ph.flags &&& pfW ≠ 0 then pagePresent ||| pageUser ||| pageWrite else pagePresent ||| pageUser

/-- `for (j = 0; j < num_pages; j++)`: back the pages of a segment. -/
def mapSegmentPages (pheaders flags : Nat) : Nat → UInt32 → Load σ Unit
  | 0, _ => pure ()
  | n + 1, pageVaddr => do
    backPage env pageVaddr flags do
      env.kfree pheaders
      throw (.returns .outOfPhysicalMemory)
    mapSegmentPages pheaders flags n (pageVaddr + 4096)

/-- Read segment data.  The number of bytes the read delivers is not looked at. -/
def readSegment (reads : Reads) (file : List UInt8) (i : Nat) (ph : ProgramHeader) : Load σ Unit :=
  if 0 < ph.filesz then do
    let data ← vfsRead env file (reads.segment i) ph.offset.toNat ph.filesz.toNat
    storeBytes env data ph.vaddr
  else pure ()

/-- Zero out BSS. -/
def clearBss (ph : ProgramHeader) : Load σ Unit :=
  if ph.filesz < ph.memsz then
    storeBytes env (List.replicate (ph.memsz - ph.filesz).toNat 0) (ph.vaddr + ph.filesz)
  else pure ()

/-- The body of the loop over the program headers. -/
def loadSegment (reads : Reads) (file : List UInt8) (pheaders i : Nat) (ph : ProgramHeader) :
    Load σ Unit :=
  if ph.type ≠ ptLoad then pure ()
  else do
    mapSegmentPages env pheaders ph.pageFlags ph.numPages.toNat ph.pageStart
    readSegment env reads file i ph
    clearBss env ph

/-- `for (i = 0; i < header.phnum; i++)`, from index `i` on. -/
def loadSegments (reads : Reads) (file : List UInt8) (pheaders : Nat) :
    Nat → List ProgramHeader → Load σ Unit
  | _, [] => pure ()
  | i, ph :: phs => do
    loadSegment env reads file pheaders i ph
    loadSegments reads file pheaders (i + 1) phs

/-- `stack_base`. -/
def stackBase : UInt32 := 0xC0000000

/-- `for (i = 0; i < stack_pages; i++)`. -/
def mapStack : Load σ Unit := do
  backPage env (stackBase - 4096) (pagePresent ||| pageWrite ||| pageUser) fail
  backPage env (stackBase - 2 * 4096) (pagePresent ||| pageWrite ||| pageUser) fail
where
  fail : Load σ Unit := throw (.returns .outOfMemoryForStack)

/-- Read and check the header. -/
def readHeader (reads : Reads) (file : List UInt8) : Load σ Header := do
  let b ← vfsRead env file reads.header 0 headerSize
  if b.length ≠ headerSize then throw (.returns .readHeader)
  else
    let header := Header.parse b
    if header.magic ≠ elfMagic then throw (.returns .invalidMagic)
    else if header.machine ≠ em386 then throw (.returns .notI386)
    else if header.type ≠ etExec then throw (.returns .notExecutable)
    else pure header

/-- Read the program headers: the address of the array, and the array. -/
def readProgramHeaders (reads : Reads) (file : List UInt8) (header : Header) :
    Load σ (Nat × List ProgramHeader) := do
  let size := header.phnum.toNat * programHeaderSize
  let pheaders ← env.kmalloc size
  if pheaders = 0 then throw (.returns .outOfMemory)
  else
    let table ← vfsRead env file reads.table header.phoff.toNat size
    if table.length ≠ size then
      env.kfree pheaders
      throw (.returns .readProgramHeaders)
    else pure (pheaders, programHeaders table header.phnum.toNat)

/-- `elf_exec`: the arguments of `enter_usermode`, if it gets there. -/
def elfExec (reads : Reads) (path : String) : Load σ (UInt32 × UInt32) := do
  match ← env.vfsFinddir path with
  | none => throw (.returns .fileNotFound)
  | some file =>
    let header ← readHeader env reads file
    let pheaders ← readProgramHeaders env reads file header
    loadSegments env reads file pheaders.1 0 pheaders.2
    env.kfree pheaders.1
    mapStack env
    pure (header.entry, stackBase)

end FlowOS.Elf
