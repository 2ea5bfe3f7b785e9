/-
# Directories of the FAT32 driver (`fat32.c`)

`fat32_readdir` and `fat32_finddir` go through the clusters of a directory, 32 bytes at a time.
They are written separately and so they are modelled separately; only the fragment that renders
an 8.3 name, which the source has twice word for word, is one definition.

Nothing in the two `while` loops counts down: they run for as long as the FAT names another
cluster.  `fuel` bounds the number of clusters read and `none` means that it was not enough.
The messages `fat32_readdir` logs are left out.
-/
import FlowOS.Fat32.Basic

namespace FlowOS.Fat32

open Word

/-! ## 1. Directory entries -/

def attrReadOnly : UInt8 := 0x01
def attrHidden : UInt8 := 0x02
def attrSystem : UInt8 := 0x04
def attrVolumeId : UInt8 := 0x08
def attrDirectory : UInt8 := 0x10
def attrLongName : UInt8 := 0x0F

/-- `fat_dir_entry_t`, as far as the driver reads it. -/
structure DirEntry where
  name : Vector UInt8 11
  attr : UInt8
  fstClusHi : Nat
  fstClusLo : Nat
  fileSize : Nat
  deriving DecidableEq

/-- `entries[i]`: the structure is packed and 32 bytes long. -/
def entryAt (buffer : Mem) (i : Nat) : DirEntry where
  name := Vector.ofFn fun k : Fin 11 => buffer (32 * i + k)
  attr := buffer (32 * i + 11)
  fstClusHi := buffer.ld16 (32 * i + 20)
  fstClusLo := buffer.ld16 (32 * i + 26)
  fileSize := buffer.ld32 (32 * i + 28)

/-- `(fst_clus_hi << 16) | fst_clus_lo`, as a `uint32_t`. -/
def DirEntry.firstCluster (e : DirEntry) : Nat := (e.fstClusHi <<< 16 ||| e.fstClusLo) % 2 ^ 32

/-- `if (c != ' ') dst[j++] = c;` for the characters `c` of a stretch of the name. -/
def copyChars (dst : Mem) (j : Nat) : List UInt8 → Mem × Nat
  | [] => (dst, j)
  | c :: cs => if c ≠ 0x20 then copyChars (dst.st8 j c) (j + 1) cs else copyChars dst j cs

/-- The name as `fat32_readdir` copies it to `dirent->name` and `fat32_finddir` to `entry_name`:
the base, and behind a dot the extension if it has a first character. -/
def copyName (e : DirEntry) (dst : Mem) : Mem :=
  let r := copyChars dst 0 (e.name.toList.take 8)
  let r :=
    if e.name[8] ≠ 0x20 then copyChars (r.1.st8 r.2 0x2E) (r.2 + 1) (e.name.toList.drop 8) else r
  r.1.st8 r.2 0

/-- The 8.3 rendering of a name: the base without its blanks, and behind a dot the extension
without its blanks if it does not start with one. -/
def DirEntry.shortName (e : DirEntry) : List UInt8 :=
  (e.name.toList.take 8).filter (· ≠ 0x20) ++
    if e.name[8] ≠ 0x20 then 0x2E :: (e.name.toList.drop 8).filter (· ≠ 0x20) else []

/-- The extension, by its first character. -/
theorem DirEntry.ext_eq (e : DirEntry) :
    e.name.toList.drop 8 = e.name[8] :: e.name.toList.drop 9 := by
  rw [List.drop_eq_getElem_cons (by rw [Vector.length_toList]; decide), Vector.getElem_toList]

/-- The entry marks the end of the directory. -/
def DirEntry.isEnd (e : DirEntry) : Bool := e.name[0] == 0x00

/-- The entry is not deleted and has none of the attributes of `ATTR_LONG_NAME`. -/
def DirEntry.isListed (e : DirEntry) : Bool :=
  e.name[0] != 0xE5 && e.attr &&& attrLongName == 0

/-- The entry of a file or a directory: not deleted, no long name, no volume label. -/
def DirEntry.isLive (e : DirEntry) : Bool :=
  e.name[0] != 0xE5 && e.attr &&& attrLongName != attrLongName && e.attr &&& attrVolumeId == 0

/-- The three tests both loops make of an entry, in terms of what is listed. -/
theorem DirEntry.cases (e : DirEntry) :
    (e.name[0] = 0x00 ∧ e.isEnd = true) ∨
    (e.name[0] ≠ 0x00 ∧ e.isEnd = false ∧ e.isListed = false ∧
      (e.name[0] = 0xE5 ∨ e.attr &&& attrLongName ≠ 0)) ∨
    (e.name[0] ≠ 0x00 ∧ e.isEnd = false ∧ e.isListed = true ∧
      e.name[0] ≠ 0xE5 ∧ ¬e.attr &&& attrLongName ≠ 0) := by
  unfold DirEntry.isEnd DirEntry.isListed
  by_cases h0 : e.name[0] = 0x00
  · exact Or.inl ⟨h0, by simp [h0]⟩
  · by_cases hE5 : e.name[0] = 0xE5
    · exact Or.inr (Or.inl ⟨h0, by simpa using h0, by simp [hE5], Or.inl hE5⟩)
    · by_cases hattr : e.attr &&& attrLongName = 0
      · exact Or.inr (Or.inr ⟨h0, by simpa using h0, by simp [hE5, hattr], hE5,
          by simpa using hattr⟩)
      · exact Or.inr (Or.inl ⟨h0, by simpa using h0, by simp [hattr], Or.inr hattr⟩)

/-- How the `for` loop over the entries of one cluster ends: at the end mark, at the entry looked
for, or behind the last entry, with what it has counted. -/
inductive Entries (α : Type) where
  | endOfDir
  | hit (e : DirEntry)
  | more (count : α)

variable {σ : Type}

/-! ## 2. `fat32_readdir` -/

/-- `struct dirent`, from `kmalloc(132)`. -/
structure Dirent where
  addr : Nat
  name : Mem
  inode : Nat

/-- The `for` loop of `fat32_readdir`, with `n` entries to go. -/
def readdirEntries (index : Nat) (buffer : Mem) : (n i currentIndex : Nat) → Entries Nat
  | 0, _, currentIndex => .more currentIndex
  | n + 1, i, currentIndex =>
    let e := entryAt buffer i
    if e.name[0] = 0x00 then .endOfDir
    else if e.name[0] = 0xE5 then readdirEntries index buffer n (i + 1) currentIndex  -- deleted
    else if e.attr &&& attrLongName ≠ 0 then readdirEntries index buffer n (i + 1) currentIndex
    else if currentIndex = index then .hit e
    else readdirEntries index buffer n (i + 1) (add32 currentIndex 1)

/-- The `while` loop of `fat32_readdir`. -/
def readdirClusters (env : FatEnv σ) (fat : Fat) (index : Nat) :
    (fuel cluster currentIndex : Nat) → (buffer : Buf) → σ → Option (Option Dirent × σ)
  | 0, _, _, _, _ => none
  | fuel + 1, cluster, currentIndex, buffer, s =>
    if cluster < endOfChain then
      let r := readCluster env fat cluster buffer s
      let buffer := r.2.1
      let s := r.2.2
      if r.1 = false then
        -- freed before the `break`, and once more behind the loop
        some (none, env.kfree buffer.addr (env.kfree buffer.addr s))
      else
        match readdirEntries index buffer.bytes (fat.clusterSize / 32) 0 currentIndex with
        | .endOfDir => some (none, env.kfree buffer.addr s)
        | .hit e =>
          let (dirent, s) := env.kmalloc 132 s
          some (some ⟨dirent.addr, copyName e dirent.bytes, e.firstCluster⟩,
            env.kfree buffer.addr s)
        | .more currentIndex =>
          let n := getNextCluster env fat cluster s
          readdirClusters env fat index fuel n.1 currentIndex buffer n.2
    else some (none, env.kfree buffer.addr s)

/-- `fat32_readdir` of a node with the given inode. -/
def fat32Readdir (env : FatEnv σ) (fat : Fat) (fuel inode index : Nat) (s : σ) :
    Option (Option Dirent × σ) :=
  let (buffer, s) := env.kmalloc fat.clusterSize s
  if buffer.addr = 0 then some (none, s)
  else readdirClusters env fat index fuel inode 0 buffer s

/-! ## 3. `fat32_finddir` -/

def fsFile : Nat := 0x01
def fsDirectory : Nat := 0x02

/-- A callback field: a function of the driver, or the word the memory held before. -/
inductive Callback where
  | fat32Read
  | fat32Readdir
  | fat32Finddir
  | word (w : Nat)

/-- `fs_node_t`, from `kmalloc(184)`: the fields the driver sets and those the calls of `vfs.c`
go through. -/
structure FsNode where
  addr : Nat
  flags : Nat
  inode : Nat
  length : Nat
  read : Callback
  write : Callback
  open_ : Callback
  close : Callback
  readdir : Callback
  finddir : Callback

/-- A node as `kmalloc` returns it: no field is cleared. -/
def FsNode.fresh (b : Buf) : FsNode where
  addr := b.addr
  flags := b.bytes.ld32 140
  inode := b.bytes.ld32 144
  length := b.bytes.ld32 148
  read := .word (b.bytes.ld32 156)
  write := .word (b.bytes.ld32 160)
  open_ := .word (b.bytes.ld32 164)
  close := .word (b.bytes.ld32 168)
  readdir := .word (b.bytes.ld32 172)
  finddir := .word (b.bytes.ld32 176)

/-- The node `fat32_finddir` makes for an entry. -/
def fileNode (e : DirEntry) (b : Buf) : FsNode :=
  let node := { FsNode.fresh b with inode := e.firstCluster, length := e.fileSize }
  if e.attr &&& attrDirectory ≠ 0 then
    { node with flags := fsDirectory, readdir := .fat32Readdir, finddir := .fat32Finddir }
  else { node with flags := fsFile, read := .fat32Read }

/-- The string compare of `fat32_finddir`, with `n` bytes of `entry_name` to go: whether the
strings match, or nothing if it leaves `entry_name`. -/
def matchName (name entryName : Mem) : (n k : Nat) → Option Bool
  | 0, _ => none
  | n + 1, k =>
    if name k ≠ 0 ∨ entryName k ≠ 0 then
      if name k ≠ entryName k then some false else matchName name entryName n (k + 1)
    else some true

/-- The `for` loop of `fat32_finddir`, with `n` entries to go.  `entryName` is what the array
`entry_name` holds, which is not initialised. -/
def finddirEntries (name buffer : Mem) : (n i : Nat) → (entryName : Mem) →
    Option (Entries Mem)
  | 0, _, entryName => some (.more entryName)
  | n + 1, i, entryName =>
    let e := entryAt buffer i
    if e.name[0] = 0x00 then some .endOfDir
    else if e.name[0] = 0xE5 then finddirEntries name buffer n (i + 1) entryName
    else if e.attr &&& attrLongName ≠ 0 then finddirEntries name buffer n (i + 1) entryName
    else
      let entryName := copyName e entryName
      match matchName name entryName 13 0 with
      | none => none
      | some true => some (.hit e)
      | some false => finddirEntries name buffer n (i + 1) entryName

/-- The `while` loop of `fat32_finddir`. -/
def finddirClusters (env : FatEnv σ) (fat : Fat) (name : Mem) :
    (fuel cluster : Nat) → (entryName : Mem) → (buffer : Buf) → σ → Option (Option FsNode × σ)
  | 0, _, _, _, _ => none
  | fuel + 1, cluster, entryName, buffer, s =>
    if cluster < endOfChain then
      let r := readCluster env fat cluster buffer s
      let buffer := r.2.1
      let s := r.2.2
      if r.1 = false then some (none, env.kfree buffer.addr s)
      else
        match finddirEntries name buffer.bytes (fat.clusterSize / 32) 0 entryName with
        | none => none
        | some .endOfDir => some (none, env.kfree buffer.addr s)
        | some (.hit e) =>
          let (b, s) := env.kmalloc 184 s
          some (some (fileNode e b), env.kfree buffer.addr s)
        | some (.more entryName) =>
          let n := getNextCluster env fat cluster s
          finddirClusters env fat name fuel n.1 entryName buffer n.2
    else some (none, env.kfree buffer.addr s)

/-- `fat32_finddir` of a node with the given inode, looking for the string at `name`. -/
def fat32Finddir (env : FatEnv σ) (fat : Fat) (fuel inode : Nat) (name entryName : Mem) (s : σ) :
    Option (Option FsNode × σ) :=
  let (buffer, s) := env.kmalloc fat.clusterSize s
  finddirClusters env fat name fuel inode entryName buffer s

end FlowOS.Fat32
