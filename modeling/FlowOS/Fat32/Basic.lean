/-
# The FAT32 driver (`fat32.c`)

The driver keeps the geometry of the volume in static variables and reads sectors into heap
buffers.  A heap buffer is private to the function that allocated it, so the model passes its
bytes around as a value, `Buf`, with the address `kmalloc` returned; the caller's buffer is a
memory indexed from its first byte.  Disk, heap and their failures are the parameter `FatEnv`:
every call may answer anything, so a bad sector is an answer of `ata_read_sectors` like any
other.

The two `while` loops of `fat32_read` are bounded by their own counters, `offset` and `size`;
`none` means that a loop is still running when its counter should have run out, which can only
happen when `cluster_size` is 0.
-/
import FlowOS.Lib.Word
import FlowOS.Lib.Mem

namespace FlowOS.Fat32

open Word

/-! ## 1. Geometry and services -/

/-- The static variables of `fat32.c` that the file operations read: the two fields of `bpb` and
the sector numbers `fat32_init` computes. -/
structure Fat where
  bytesPerSector : UInt16
  sectorsPerCluster : UInt8
  fatStartSector : Nat
  dataStartSector : Nat

/-- A buffer from `kmalloc`: its address, `0` when the allocation failed, and its bytes. -/
structure Buf where
  addr : Nat
  bytes : Mem

/-- The services the driver calls, over their state `σ`.  A new buffer holds whatever its memory
held; `ata_read_sectors(drive, lba, count, buffer)` returns whether it succeeded and what the
buffer then holds. -/
structure FatEnv (σ : Type) where
  kmalloc : Nat → σ → Buf × σ
  kfree : Nat → σ → σ
  ataReadSectors : (drive lba count : Nat) → Buf → σ → Bool × Mem × σ

/-- `cluster_size`. -/
def Fat.clusterSize (fat : Fat) : Nat := fat.sectorsPerCluster.toNat * fat.bytesPerSector.toNat

/-- The cluster values from here on end a chain. -/
def endOfChain : Nat := 0x0FFFFFF8

variable {σ : Type}

/-! ## 2. Reading one cluster, and one entry of the FAT -/

/-- `read_cluster`. -/
def readCluster (env : FatEnv σ) (fat : Fat) (cluster : Nat) (buffer : Buf) (s : σ) :
    Bool × Buf × σ :=
  let lba := add32 fat.dataStartSector
    (sub32 cluster 2 * fat.sectorsPerCluster.toNat % 2 ^ 32)
  let r := env.ataReadSectors 0 lba fat.sectorsPerCluster.toNat buffer s
  (r.1, { buffer with bytes := r.2.1 }, r.2.2)

/-- `get_next_cluster`. -/
def getNextCluster (env : FatEnv σ) (fat : Fat) (cluster : Nat) (s : σ) : Nat × σ :=
  let fatOffset := cluster * 4 % 2 ^ 32
  let fatSector := add32 fat.fatStartSector (fatOffset / fat.bytesPerSector.toNat)
  let entOffset := fatOffset % fat.bytesPerSector.toNat
  let (buffer, s) := env.kmalloc 512 s
  let r := env.ataReadSectors 0 fatSector 1 buffer s
  if r.1 = false then (0x0FFFFFFF, env.kfree buffer.addr r.2.2)
  else
    let nextCluster := r.2.1.ld32 entOffset &&& 0x0FFFFFFF
    (nextCluster, env.kfree buffer.addr r.2.2)

/-! ## 3. `fat32_read` -/

/-- The first loop of `fat32_read`: follow the chain until `offset` lies in the cluster.  The
result is the cluster and the offset in it, or nothing when the chain ends before. -/
def skipClusters (env : FatEnv σ) (fat : Fat) :
    Nat → (cluster offset : Nat) → σ → Option (Option (Nat × Nat) × σ)
  | 0, _, _, _ => none
  | fuel + 1, cluster, offset, s =>
    if fat.clusterSize ≤ offset then
      let r := getNextCluster env fat cluster s
      if endOfChain ≤ r.1 then some (none, r.2)  -- end of chain
      else skipClusters env fat fuel r.1 (offset - fat.clusterSize) r.2
    else some (some (cluster, offset), s)

/-- The second loop of `fat32_read`: copy cluster after cluster until `size` bytes are read, the
chain ends or a read fails.  The result is `read_size` and the caller's buffer. -/
def copyClusters (env : FatEnv σ) (fat : Fat) :
    Nat → (cluster offset size readSize : Nat) → (clusterBuffer : Buf) → (buffer : Mem) → σ →
      Option (Nat × Mem × σ)
  | 0, _, _, _, _, _, _, _ => none
  | fuel + 1, cluster, offset, size, readSize, clusterBuffer, buffer, s =>
    if 0 < size then
      let r := readCluster env fat cluster clusterBuffer s
      let clusterBuffer := r.2.1
      let s := r.2.2
      if r.1 = false then some (readSize, buffer, s)
      else
        let chunkSize := sub32 fat.clusterSize offset
        let chunkSize := if size < chunkSize then size else chunkSize
        let buffer := buffer.copy readSize clusterBuffer.bytes offset chunkSize
        let readSize := add32 readSize chunkSize
        let size := size - chunkSize
        if 0 < size then
          let n := getNextCluster env fat cluster s
          if endOfChain ≤ n.1 then some (readSize, buffer, n.2)
          else copyClusters env fat fuel n.1 0 size readSize clusterBuffer buffer n.2
        else copyClusters env fat fuel cluster 0 size readSize clusterBuffer buffer s
    else some (readSize, buffer, s)

/-- `fat32_read` of a node with the given inode: the count returned, and the caller's buffer. -/
def fat32Read (env : FatEnv σ) (fat : Fat) (inode offset size : Nat) (buffer : Mem) (s : σ) :
    Option (Nat × Mem × σ) :=
  match skipClusters env fat (offset + 1) inode offset s with
  | none => none
  | some (none, s) => some (0, buffer, s)
  | some (some (cluster, offset), s) =>
    let (clusterBuffer, s) := env.kmalloc fat.clusterSize s
    -- the buffer's address is what is freed in the end; reads change its bytes only
    match copyClusters env fat (size + 1) cluster offset size 0 clusterBuffer buffer s with
    | none => none
    | some (readSize, buffer, s) => some (readSize, buffer, env.kfree clusterBuffer.addr s)

end FlowOS.Fat32
