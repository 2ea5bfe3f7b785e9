/-
# `fat32_read` reads the file

What a file is, in terms of the disk: the FAT gives every cluster its successor, a chain of
clusters starts at the file's inode, and the file's bytes are the contents of these clusters one
after the other.  Against this the module proves `fat32_read` correct: with every sector read
succeeding, it delivers exactly the bytes `offset .. offset + size` of the file that exist.

Sector numbers are 32-bit numbers here, as they are on the disk; `clusterLba_eq` and
`fatEntry_eq` say that for the clusters of a volume this is the plain layout.
-/
import FlowOS.Fat32.Basic
import Mathlib.Data.Int.ModEq
import Mathlib.Tactic.Ring

namespace FlowOS.Fat32

open Word

/-! ## 1. The disk and its files -/

/-- A disk: the bytes of every sector. -/
abbrev Disk := Nat → Mem

/-- The sector a cluster starts at: `sectors_per_cluster` sectors for each cluster from 2 on,
counted from the start of the data area. -/
def clusterLba (fat : Fat) (c : Nat) : Nat :=
  (((fat.dataStartSector : Int) + ((c : Int) - 2) * fat.sectorsPerCluster.toNat) % 2 ^ 32).toNat

/-- The bytes of a cluster. -/
def contents (d : Disk) (fat : Fat) (c : Nat) : List UInt8 :=
  (List.range (512 * fat.sectorsPerCluster.toNat)).map
    fun i => d (clusterLba fat c + i / 512) (i % 512)

/-- The entry of the FAT for cluster `c`: 128 entries of four bytes to a sector, the low 28 bits
of which name the next cluster. -/
def fatEntry (d : Disk) (fat : Fat) (c : Nat) : Nat :=
  (d (add32 fat.fatStartSector (c % 2 ^ 30 / 128))).ld32 (4 * (c % 128)) % 2 ^ 28

/-- A cluster chain: each entry names the next cluster, the last one ends the chain. -/
def Chain (d : Disk) (fat : Fat) : List Nat → Prop
  | [] => False
  | [c] => endOfChain ≤ fatEntry d fat c
  | c :: c' :: cs => fatEntry d fat c = c' ∧ c' < endOfChain ∧ Chain d fat (c' :: cs)

/-- The bytes of a chain of clusters. -/
def chainBytes (d : Disk) (fat : Fat) (cs : List Nat) : List UInt8 := cs.flatMap (contents d fat)

/-- For a cluster of a volume that ends below sector `2 ^ 32`, the 32-bit arithmetic is exact. -/
theorem clusterLba_eq {fat : Fat} {c : Nat} (hc : 2 ≤ c)
    (h : fat.dataStartSector + (c - 2) * fat.sectorsPerCluster.toNat < 2 ^ 32) :
    clusterLba fat c = fat.dataStartSector + (c - 2) * fat.sectorsPerCluster.toNat := by
  have hcast : ((fat.dataStartSector : Int) + ((c : Int) - 2) * fat.sectorsPerCluster.toNat)
      = ((fat.dataStartSector + (c - 2) * fat.sectorsPerCluster.toNat : Nat) : Int) := by
    rw [Nat.cast_add, Nat.cast_mul, Nat.cast_sub hc]
    rfl
  rw [clusterLba, hcast]
  omega

theorem fatEntry_eq {d : Disk} {fat : Fat} {c : Nat} (hc : c < 2 ^ 28)
    (h : fat.fatStartSector + c / 128 < 2 ^ 32) :
    fatEntry d fat c = (d (fat.fatStartSector + 4 * c / 512)).ld32 (4 * c % 512) % 2 ^ 28 := by
  have h1 : c % 2 ^ 30 = c := Nat.mod_eq_of_lt (by omega)
  have h2 : 4 * c / 512 = c / 128 := by omega
  have h3 : 4 * c % 512 = 4 * (c % 128) := by omega
  rw [fatEntry, h1, add32_of_lt h, h2, h3]

/-! ## 2. Sector reads that succeed -/

/-- What a buffer holds after `count` sectors from `lba` on were read into it. -/
def Disk.fill (d : Disk) (lba count : Nat) (old : Mem) : Mem := fun i =>
  if i < 512 * count then d (lba + i / 512) (i % 512) else old i

variable {σ : Type}

/-- Every sector read succeeds and delivers what is on the disk. -/
def Serves (env : FatEnv σ) (d : Disk) : Prop :=
  ∀ lba count buffer s, (env.ataReadSectors 0 lba count buffer s).1 = true ∧
    (env.ataReadSectors 0 lba count buffer s).2.1 = d.fill lba count buffer.bytes

/-- Every sector read that succeeds delivers what is on the disk; any of them may fail. -/
def Reliable (env : FatEnv σ) (d : Disk) : Prop :=
  ∀ lba count buffer s, (env.ataReadSectors 0 lba count buffer s).1 = true →
    (env.ataReadSectors 0 lba count buffer s).2.1 = d.fill lba count buffer.bytes

variable {env : FatEnv σ} {d : Disk} {fat : Fat}

/-- The address `read_cluster` computes. -/
theorem lba_eq (fat : Fat) (c : Nat) :
    add32 fat.dataStartSector (sub32 c 2 * fat.sectorsPerCluster.toNat % 2 ^ 32)
      = clusterLba fat c := by
  have hmod : ((fat.dataStartSector : Int) +
      ((c : Int) + 2 ^ 32 - 2) % 2 ^ 32 * fat.sectorsPerCluster.toNat % 2 ^ 32) % 2 ^ 32
      = ((fat.dataStartSector : Int) + ((c : Int) - 2) * fat.sectorsPerCluster.toNat) % 2 ^ 32 := by
    refine Int.ModEq.add_left _ ((Int.mod_modEq _ _).trans (Int.ModEq.mul_right _ ?_))
    refine (Int.mod_modEq _ _).trans ?_
    exact Int.modEq_iff_dvd.mpr ⟨-1, by ring⟩
  have hsub : ((sub32 c 2 : Nat) : Int) = ((c : Int) + 2 ^ 32 - 2) % 2 ^ 32 := by
    unfold sub32
    omega
  have hcast : ((add32 fat.dataStartSector (sub32 c 2 * fat.sectorsPerCluster.toNat % 2 ^ 32) :
      Nat) : Int) = ((fat.dataStartSector : Int) + ((c : Int) - 2) *
        fat.sectorsPerCluster.toNat) % 2 ^ 32 := by
    rw [← hmod, ← hsub]
    unfold add32
    push_cast
    rfl
  have := Int.emod_nonneg ((fat.dataStartSector : Int) + ((c : Int) - 2) *
    fat.sectorsPerCluster.toNat) (by decide : (2 : Int) ^ 32 ≠ 0)
  unfold clusterLba
  omega

theorem bytes_fill (d : Disk) (lba count : Nat) (old : Mem) :
    (d.fill lba count old).bytes 0 (512 * count)
      = (List.range (512 * count)).map fun i => d (lba + i / 512) (i % 512) := by
  refine List.map_congr_left fun i hi => ?_
  have := List.mem_range.mp hi
  rw [Disk.fill, Nat.zero_add, if_pos this]

theorem Serves.reliable (hd : Serves env d) : Reliable env d :=
  fun lba count buffer s _ => (hd lba count buffer s).2

/-- `read_cluster` fills the buffer with the cluster. -/
theorem readCluster_reliable (hd : Reliable env d) {c : Nat} {buffer : Buf} {s : σ}
    (hok : (readCluster env fat c buffer s).1 = true) :
    (readCluster env fat c buffer s).2.1.bytes.bytes 0 (512 * fat.sectorsPerCluster.toNat)
      = contents d fat c := by
  unfold readCluster at hok ⊢
  dsimp only at hok ⊢
  rw [lba_eq] at hok ⊢
  rw [hd _ _ _ _ hok, bytes_fill]
  rfl

theorem readCluster_serves (hd : Serves env d) (c : Nat) (buffer : Buf) (s : σ) :
    (readCluster env fat c buffer s).1 = true ∧
      (readCluster env fat c buffer s).2.1.bytes.bytes 0 (512 * fat.sectorsPerCluster.toNat)
        = contents d fat c := by
  have hok : (readCluster env fat c buffer s).1 = true := (hd _ _ _ _).1
  exact ⟨hok, readCluster_reliable hd.reliable hok⟩

/-- Where `get_next_cluster` looks in its buffer: `ent_offset`. -/
def entOffset (fat : Fat) (cluster : Nat) : Nat :=
  cluster * 4 % 2 ^ 32 % fat.bytesPerSector.toNat

/-- The sector it reads: `fat_sector`. -/
def fatSector (fat : Fat) (cluster : Nat) : Nat :=
  add32 fat.fatStartSector (cluster * 4 % 2 ^ 32 / fat.bytesPerSector.toNat)

/-- Its read, into a buffer of its own. -/
def fatRead (env : FatEnv σ) (fat : Fat) (cluster : Nat) (s : σ) : Bool × Mem × σ :=
  env.ataReadSectors 0 (fatSector fat cluster) 1 (env.kmalloc 512 s).1 (env.kmalloc 512 s).2

theorem getNextCluster_eq (env : FatEnv σ) (fat : Fat) (c : Nat) (s : σ) :
    getNextCluster env fat c s =
      (if (fatRead env fat c s).1 = false then 0x0FFFFFFF
        else (fatRead env fat c s).2.1.ld32 (entOffset fat c) &&& 0x0FFFFFFF,
      env.kfree (env.kmalloc 512 s).1.addr (fatRead env fat c s).2.2) := by
  unfold getNextCluster
  dsimp only
  split
  · rename_i h
    rw [if_pos (show (fatRead env fat c s).1 = false from h)]
    rfl
  · rename_i h
    rw [if_neg (show ¬(fatRead env fat c s).1 = false from h)]
    rfl

theorem entOffset_eq (h512 : fat.bytesPerSector = 512) (c : Nat) :
    entOffset fat c = 4 * (c % 128) := by
  have hbps : fat.bytesPerSector.toNat = 512 := by rw [h512]; rfl
  rw [entOffset, hbps]
  omega

/-- The entry lies in the 512 bytes of a sector. -/
theorem entOffset_le (h512 : fat.bytesPerSector = 512) (c : Nat) : entOffset fat c + 4 ≤ 512 := by
  rw [entOffset_eq h512]
  omega

theorem fatSector_eq (h512 : fat.bytesPerSector = 512) (c : Nat) :
    fatSector fat c = add32 fat.fatStartSector (c % 2 ^ 30 / 128) := by
  have hbps : fat.bytesPerSector.toNat = 512 := by rw [h512]; rfl
  rw [fatSector, hbps]
  congr 1
  omega

/-- `get_next_cluster` returns the entry of the FAT if it can be read. -/
theorem getNextCluster_reliable (hd : Reliable env d) (h512 : fat.bytesPerSector = 512) {c : Nat}
    {s : σ} (hok : (fatRead env fat c s).1 = true) :
    (getNextCluster env fat c s).1 = fatEntry d fat c := by
  have hfill : (fatRead env fat c s).2.1
      = d.fill (fatSector fat c) 1 (env.kmalloc 512 s).1.bytes := hd _ _ _ _ hok
  have hload : (d.fill (fatSector fat c) 1 (env.kmalloc 512 s).1.bytes).ld32 (entOffset fat c)
      = (d (fatSector fat c)).ld32 (entOffset fat c) := by
    refine Mem.ld32_congr fun x hx1 hx2 => ?_
    have hx : x < 512 := hx2.trans_le (entOffset_le h512 c)
    rw [Disk.fill, if_pos (by omega), Nat.div_eq_of_lt hx, Nat.mod_eq_of_lt hx, Nat.add_zero]
  rw [getNextCluster_eq, hok, if_neg (by decide), hfill]
  dsimp only
  rw [hload, entOffset_eq h512, fatSector_eq h512, fatEntry]
  exact Nat.and_two_pow_sub_one_eq_mod _ 28

theorem getNextCluster_serves (hd : Serves env d) (h512 : fat.bytesPerSector = 512) (c : Nat)
    (s : σ) : (getNextCluster env fat c s).1 = fatEntry d fat c :=
  getNextCluster_reliable hd.reliable h512 (hd _ _ _ _).1

/-! ## 3. The two loops -/

theorem length_contents (d : Disk) (fat : Fat) (c : Nat) :
    (contents d fat c).length = 512 * fat.sectorsPerCluster.toNat := by simp [contents]

theorem clusterSize_eq (h512 : fat.bytesPerSector = 512) :
    fat.clusterSize = 512 * fat.sectorsPerCluster.toNat := by
  rw [Fat.clusterSize, h512, Nat.mul_comm]
  rfl

/-- **The skipping loop** finds the cluster that holds byte `offset` of the chain, or runs off
its end. -/
theorem skipClusters_chain (hd : Serves env d) (h512 : fat.bytesPerSector = 512)
    (hspc : fat.sectorsPerCluster ≠ 0) {c : Nat} {cs : List Nat} {offset fuel : Nat}
    (hchain : Chain d fat (c :: cs)) (hfuel : offset < fuel) (s : σ) : ∃ s',
    (∃ pre c' cs' o, c :: cs = pre ++ c' :: cs' ∧ Chain d fat (c' :: cs') ∧
      offset = fat.clusterSize * pre.length + o ∧ o < fat.clusterSize ∧
      skipClusters env fat fuel c offset s = some (some (c', o), s')) ∨
    (fat.clusterSize * (c :: cs).length ≤ offset ∧
      skipClusters env fat fuel c offset s = some (none, s')) := by
  have hpos : 0 < fat.clusterSize := by
    have : fat.sectorsPerCluster.toNat ≠ 0 := fun h0 => hspc (UInt8.toNat_inj.mp h0)
    rw [clusterSize_eq h512]
    omega
  induction cs generalizing c offset fuel s with
  | nil =>
    obtain ⟨fuel, rfl⟩ : ∃ f, fuel = f + 1 := ⟨fuel - 1, by omega⟩
    rw [skipClusters]
    by_cases ho : fat.clusterSize ≤ offset
    · rw [if_pos ho]
      dsimp only
      have hend : endOfChain ≤ fatEntry d fat c := hchain
      rw [getNextCluster_serves hd h512, if_pos hend]
      exact ⟨_, Or.inr ⟨by simpa using ho, rfl⟩⟩
    · rw [if_neg ho]
      exact ⟨s, Or.inl ⟨[], c, [], offset, rfl, hchain, by simp, by omega, rfl⟩⟩
  | cons c₁ cs ih =>
    obtain ⟨fuel, rfl⟩ : ∃ f, fuel = f + 1 := ⟨fuel - 1, by omega⟩
    obtain ⟨hnext, hlt, hrest⟩ := hchain
    rw [skipClusters]
    by_cases ho : fat.clusterSize ≤ offset
    · rw [if_pos ho]
      dsimp only
      rw [getNextCluster_serves hd h512, hnext, if_neg (by omega)]
      obtain ⟨s', ⟨pre, c', cs', o, hsplit, hc', hoff, hlt', heq⟩ | ⟨hend, heq⟩⟩ :=
        @ih c₁ (offset - fat.clusterSize) fuel hrest (by omega) (getNextCluster env fat c s).2
      · refine ⟨s', Or.inl ⟨c :: pre, c', cs', o, by rw [hsplit]; rfl, hc', ?_, hlt', heq⟩⟩
        rw [List.length_cons, Nat.mul_succ]
        omega
      · refine ⟨s', Or.inr ⟨?_, heq⟩⟩
        rw [List.length_cons, Nat.mul_succ]
        omega
    · rw [if_neg ho]
      exact ⟨s, Or.inl ⟨[], c, c₁ :: cs, offset, rfl, ⟨hnext, hlt, hrest⟩, by simp, by omega,
        rfl⟩⟩

/-- What the copying loop leaves: `data` stands in the buffer from `readSize` on and is counted,
and the rest of the buffer is as it was. -/
structure Delivered (readSize : Nat) (data : List UInt8) (buffer buffer' : Mem) (r : Nat) :
    Prop where
  count : r = readSize + data.length
  holds : buffer'.bytes readSize data.length = data
  rest : ∀ x, x < readSize ∨ readSize + data.length ≤ x → buffer' x = buffer x

/-- A chunk followed by what the rest of the loop delivers. -/
theorem Delivered.cons {readSize r : Nat} {chunk data : List UInt8} {buffer buffer₁ buffer' : Mem}
    (h₁ : Delivered readSize chunk buffer buffer₁ (readSize + chunk.length))
    (h : Delivered (readSize + chunk.length) data buffer₁ buffer' r) :
    Delivered readSize (chunk ++ data) buffer buffer' r := by
  refine ⟨?_, ?_, ?_⟩
  · rw [h.count, List.length_append, Nat.add_assoc]
  · rw [List.length_append, Mem.bytes_add, h.holds]
    congr 1
    exact (Mem.bytes_congr fun x _ hx => h.rest x (Or.inl hx)).trans h₁.holds
  · intro x hx
    rw [List.length_append] at hx
    rw [h.rest x (by omega), h₁.rest x (by omega)]

/-- One round of the copying loop: a chunk of the cluster is delivered, and then the loop is
done, or goes on with the next cluster of the chain if there is one. -/
theorem copyClusters_round (hd : Serves env d) (h512 : fat.bytesPerSector = 512)
    {c offset size readSize fuel : Nat} {chunk : List UInt8}
    (hchunk : chunk = ((contents d fat c).drop offset).take size)
    (hoffset : offset < fat.clusterSize) (hfuel : size < fuel + 1) (hpos : 0 < size)
    (hsize : readSize + size < 2 ^ 32) (clusterBuffer : Buf) (buffer : Mem) (s : σ) :
    ∃ clusterBuffer₁ buffer₁ s₁,
      Delivered readSize chunk buffer buffer₁ (readSize + chunk.length) ∧
      ((chunk.length = size ∧
          copyClusters env fat (fuel + 1) c offset size readSize clusterBuffer buffer s
            = some (readSize + chunk.length, buffer₁, s₁)) ∨
        (chunk.length = fat.clusterSize - offset ∧ chunk.length < size ∧
          copyClusters env fat (fuel + 1) c offset size readSize clusterBuffer buffer s
            = if endOfChain ≤ fatEntry d fat c then some (readSize + chunk.length, buffer₁, s₁)
              else copyClusters env fat fuel (fatEntry d fat c) 0 (size - chunk.length)
                (readSize + chunk.length) clusterBuffer₁ buffer₁ s₁)) := by
  have hB := @clusterSize_eq fat h512
  have hBlt : fat.clusterSize < 2 ^ 32 := by
    have := fat.sectorsPerCluster.toNat_lt
    omega
  obtain ⟨hok, hbytes⟩ := @readCluster_serves σ env d fat hd c clusterBuffer s
  have hlen : chunk.length = min size (fat.clusterSize - offset) := by
    rw [hchunk, List.length_take, List.length_drop, length_contents, hB]
  -- the chunk size the code computes
  have hcode : (if size < sub32 fat.clusterSize offset then size
      else sub32 fat.clusterSize offset) = chunk.length := by
    rw [sub32_of_le (by omega) hBlt, hlen]
    split <;> omega
  have hadd : add32 readSize chunk.length = readSize + chunk.length := add32_of_lt (by omega)
  generalize hrc : readCluster env fat c clusterBuffer s = rc at hok hbytes
  have hdel : Delivered readSize chunk buffer
      (buffer.copy readSize rc.2.1.bytes offset chunk.length) (readSize + chunk.length) := by
    refine ⟨rfl, ?_, fun x hx => Mem.copy_outside hx⟩
    rw [Mem.bytes_copy, hlen, hchunk, ← hbytes, Mem.drop_bytes, Mem.take_bytes, Nat.zero_add, hB]
  rw [copyClusters, if_pos hpos]
  dsimp only
  rw [hrc, hok, if_neg (by decide), hcode, hadd]
  by_cases hdone : chunk.length = size
  · obtain ⟨fuel, rfl⟩ : ∃ f, fuel = f + 1 := ⟨fuel - 1, by omega⟩
    refine ⟨rc.2.1, _, rc.2.2, hdel, Or.inl ⟨hdone, ?_⟩⟩
    rw [if_neg (by omega), copyClusters, if_neg (by omega)]
  · refine ⟨rc.2.1, _, (getNextCluster env fat c rc.2.2).2, hdel, Or.inr ⟨by omega, by omega, ?_⟩⟩
    rw [if_pos (by omega), getNextCluster_serves hd h512]

theorem Delivered.nil (readSize : Nat) (buffer : Mem) :
    Delivered readSize [] buffer buffer readSize := ⟨rfl, rfl, fun _ _ => rfl⟩

/-- The bytes asked for are a chunk of the first cluster and then bytes of the others. -/
theorem chainBytes_split (d : Disk) (fat : Fat) (c : Nat) (cs : List Nat) {offset : Nat}
    (size : Nat) (hoffset : offset ≤ 512 * fat.sectorsPerCluster.toNat) :
    ((chainBytes d fat (c :: cs)).drop offset).take size
      = ((contents d fat c).drop offset).take size ++ (chainBytes d fat cs).take
          (size - (((contents d fat c).drop offset).take size).length) := by
  have hcons : chainBytes d fat (c :: cs) = contents d fat c ++ chainBytes d fat cs := rfl
  rw [hcons, List.drop_append_of_le_length (by rw [length_contents]; exact hoffset),
    List.take_append]
  congr 2
  rw [List.length_take]
  omega

/-- **The copying loop** delivers the bytes of the chain from `offset` on, `size` of them or as
many as there are. -/
theorem copyClusters_chain (hd : Serves env d) (h512 : fat.bytesPerSector = 512) {c : Nat}
    {cs : List Nat} {offset size readSize fuel : Nat} (hchain : Chain d fat (c :: cs))
    (hoffset : offset < fat.clusterSize) (hfuel : size < fuel) (hsize : readSize + size < 2 ^ 32)
    (clusterBuffer : Buf) (buffer : Mem) (s : σ) : ∃ r buffer' s',
    copyClusters env fat fuel c offset size readSize clusterBuffer buffer s
      = some (r, buffer', s') ∧
    Delivered readSize (((chainBytes d fat (c :: cs)).drop offset).take size) buffer buffer' r := by
  induction cs generalizing c offset size readSize fuel clusterBuffer buffer s with
  | nil =>
    obtain ⟨fuel, rfl⟩ : ∃ f, fuel = f + 1 := ⟨fuel - 1, by omega⟩
    rcases Nat.eq_zero_or_pos size with rfl | hpos
    · rw [copyClusters, if_neg (by omega), List.take_zero]
      exact ⟨readSize, buffer, s, rfl, .nil readSize buffer⟩
    · have hend : endOfChain ≤ fatEntry d fat c := hchain
      obtain ⟨cb, b₁, s₁, hdel, ⟨-, heq⟩ | ⟨-, -, heq⟩⟩ := copyClusters_round hd h512 rfl
        hoffset hfuel hpos hsize clusterBuffer buffer s
      all_goals
        rw [chainBytes_split d fat c [] size (clusterSize_eq h512 ▸ hoffset.le)]
        simp only [chainBytes, List.flatMap_nil, List.take_nil, List.append_nil]
      · exact ⟨_, _, _, heq, hdel⟩
      · rw [if_pos hend] at heq
        exact ⟨_, _, _, heq, hdel⟩
  | cons c₁ cs ih =>
    obtain ⟨fuel, rfl⟩ : ∃ f, fuel = f + 1 := ⟨fuel - 1, by omega⟩
    obtain ⟨hnext, hlt, hrest⟩ := hchain
    rcases Nat.eq_zero_or_pos size with rfl | hpos
    · rw [copyClusters, if_neg (by omega), List.take_zero]
      exact ⟨readSize, buffer, s, rfl, .nil readSize buffer⟩
    · rw [chainBytes_split d fat c (c₁ :: cs) size (clusterSize_eq h512 ▸ hoffset.le)]
      generalize hchunk : ((contents d fat c).drop offset).take size = chunk
      obtain ⟨cb, b₁, s₁, hdel, ⟨hlen, heq⟩ | ⟨hlen, hmore, heq⟩⟩ := copyClusters_round hd h512
        hchunk.symm hoffset hfuel hpos hsize clusterBuffer buffer s
      · rw [hlen, Nat.sub_self, List.take_zero, List.append_nil]
        exact ⟨_, _, _, heq, hdel⟩
      · rw [hnext, if_neg (by omega)] at heq
        obtain ⟨r, b', s', heq', hdel'⟩ := @ih c₁ 0 (size - chunk.length)
          (readSize + chunk.length) fuel hrest (by omega) (by omega) (by omega) cb b₁ s₁
        rw [List.drop_zero] at hdel'
        exact ⟨r, b', s', heq.trans heq', hdel.cons hdel'⟩

/-! ## 4. The result -/

theorem length_chainBytes (h512 : fat.bytesPerSector = 512) (cs : List Nat) :
    (chainBytes d fat cs).length = fat.clusterSize * cs.length := by
  rw [clusterSize_eq h512]
  induction cs with
  | nil => rfl
  | cons c cs ih =>
    have hcons : chainBytes d fat (c :: cs) = contents d fat c ++ chainBytes d fat cs := rfl
    rw [hcons, List.length_append, length_contents, ih, List.length_cons, Nat.mul_succ]
    omega

/-- `fat32_read` delivers the part of the chain's bytes that was asked for, as far as it
exists. -/
theorem fat32Read_delivered (hd : Serves env d) (h512 : fat.bytesPerSector = 512)
    (hspc : fat.sectorsPerCluster ≠ 0) {inode : Nat} {cs : List Nat}
    (hchain : Chain d fat (inode :: cs)) (offset : Nat) {size : Nat} (hsize : size < 2 ^ 32)
    (buffer : Mem) (s : σ) :
    ∃ r buffer' s', fat32Read env fat inode offset size buffer s = some (r, buffer', s') ∧
      Delivered 0 (((chainBytes d fat (inode :: cs)).drop offset).take size) buffer buffer' r := by
  unfold fat32Read
  obtain ⟨s', ⟨pre, c', cs', o, hsplit, hc', hoff, ho, heq⟩ | ⟨hend, heq⟩⟩ :=
    skipClusters_chain hd h512 hspc hchain (Nat.lt_succ_self offset) s
  · -- the clusters skipped are exactly what `drop offset` takes off the front
    have hdrop : (chainBytes d fat (inode :: cs)).drop offset
        = (chainBytes d fat (c' :: cs')).drop o := by
      rw [hsplit, chainBytes, List.flatMap_append, hoff, ← List.drop_drop, ← chainBytes,
        ← length_chainBytes h512, List.drop_left]
      rfl
    rw [heq, hdrop]
    obtain ⟨r, b', s'', hcopy, hdel⟩ := copyClusters_chain hd h512 hc' ho
      (Nat.lt_succ_self size) (show 0 + size < 2 ^ 32 by omega)
      (env.kmalloc fat.clusterSize s').1 buffer (env.kmalloc fat.clusterSize s').2
    dsimp only
    rw [hcopy]
    exact ⟨r, b', _, rfl, hdel⟩
  · have hnil : (chainBytes d fat (inode :: cs)).drop offset = [] :=
      List.drop_eq_nil_of_le (by rw [length_chainBytes h512]; exact hend)
    rw [heq, hnil, List.take_nil]
    exact ⟨0, buffer, s', rfl, .nil 0 buffer⟩

/-- **`fat32_read` reads the file.**  On a volume with 512-byte sectors, for a node whose inode
starts a cluster chain, it returns, and what it has put into the buffer and counted is the part
of the chain's bytes that starts at `offset` and is `size` long, or as much of it as exists. -/
theorem fat32Read_chain (env : FatEnv σ) (d : Disk) (hd : Serves env d) (fat : Fat)
    (h512 : fat.bytesPerSector = 512) (hspc : fat.sectorsPerCluster ≠ 0) (inode : Nat)
    (cs : List Nat) (hchain : Chain d fat (inode :: cs)) (offset size : Nat)
    (hsize : size < 2 ^ 32) (buffer : Mem) (s : σ) :
    ∃ r buffer' s', fat32Read env fat inode offset size buffer s = some (r, buffer', s') ∧
      r = (((chainBytes d fat (inode :: cs)).drop offset).take size).length ∧
      buffer'.bytes 0 r = ((chainBytes d fat (inode :: cs)).drop offset).take size ∧
      ∀ x, r ≤ x → buffer' x = buffer x := by
  obtain ⟨r, b', s', heq, hdel⟩ := fat32Read_delivered hd h512 hspc hchain offset hsize buffer s
  have hr := hdel.count
  rw [Nat.zero_add] at hr
  refine ⟨r, b', s', heq, hr, ?_, fun x hx => hdel.rest x (Or.inr (by omega))⟩
  rw [hr]
  exact hdel.holds

/-- A volume with one sector to a cluster. -/
def smallFat : Fat := ⟨512, 1, 32, 100⟩

/-- A disk whose FAT, in sector 32, has one chain: cluster 2, then cluster 3, then the end. -/
def smallDisk : Disk := fun lba i =>
  if lba = 32 then
    if i = 8 then 3 else if i = 12 ∨ i = 13 ∨ i = 14 then 0xFF else if i = 15 then 0x0F else 0
  else UInt8.ofNat (lba + i)

/-- A machine on which every read of a disk succeeds. -/
def readyEnv (d : Disk) : FatEnv Unit where
  kmalloc := fun _ s => (⟨0xC0001010, fun _ => 0⟩, s)
  kfree := fun _ s => s
  ataReadSectors := fun _ lba count buffer s => (true, d.fill lba count buffer.bytes, s)

/-- A read of 600 bytes from byte 500 of that file crosses into its second cluster and ends with
the chain, after 524 bytes. -/
theorem fat32Read_chain_small : Chain smallDisk smallFat [2, 3] ∧ ∃ buffer' s',
    fat32Read (readyEnv smallDisk) smallFat 2 500 600 (fun _ => 0) () = some (524, buffer', s') ∧
      buffer'.bytes 0 524 = ((chainBytes smallDisk smallFat [2, 3]).drop 500).take 600 ∧
      ∀ x, 524 ≤ x → buffer' x = 0 := by
  have hchain : Chain smallDisk smallFat [2, 3] := by
    refine ⟨?_, ?_, ?_⟩
    · decide +kernel
    · decide
    · show endOfChain ≤ fatEntry smallDisk smallFat 3
      decide +kernel
  refine ⟨hchain, ?_⟩
  obtain ⟨r, buffer', s', heq, hr, hdata, hrest⟩ := fat32Read_chain (readyEnv smallDisk) smallDisk
    (fun _ _ _ _ => ⟨rfl, rfl⟩) smallFat rfl (by decide) 2 [3] hchain 500 600 (by decide)
    (fun _ => 0) ()
  have h524 : r = 524 := by
    rw [hr, List.length_take, List.length_drop, length_chainBytes rfl]
    decide
  subst h524
  exact ⟨buffer', s', heq, hdata, hrest⟩

end FlowOS.Fat32
