/-
# `fat32_read` and the length of a file

`fat32_finddir` puts the size of the file into `length` of the node it returns, and `fat32_read`
does not look at it: a read is bounded by the clusters of the chain, not by the file.  The
module says exactly when a read stays inside the file all the same.

## The condition

Let `B` be the size of a cluster.  A read of `size` bytes from `offset` on delivers bytes of the
file only, exactly when one of these holds (`Within`):

* nothing is asked for, or `offset + size ≤ length`;
* `offset` lies behind the last cluster of the chain, where the read returns 0;
* the file fills its clusters to the last byte, so that the chain ends where the file does.

In all other cases it returns bytes of the slack behind the file.  A file of length zero has no
cluster at all and 0 in place of its number.  The code reads cluster 0 like any other, from the
sectors `2 * sectors_per_cluster` before the data area, and goes on where entry 0 of the FAT, the
media type, leads: so for these files only the first two cases are left.
-/
import FlowOS.Fat32.Listing
import FlowOS.Fat32.Bounded

namespace FlowOS.Fat32

open Word

variable {σ : Type} {env : FatEnv σ} {d : Disk} {fat : Fat}

/-! ## 1. Following the FAT -/

/-- The FAT leads `k` clusters on from `c`: no entry on the way ends the chain. -/
def Reaches (d : Disk) (fat : Fat) (c : Nat) : Nat → Prop
  | 0 => True
  | k + 1 => fatEntry d fat c < endOfChain ∧ Reaches d fat (fatEntry d fat c) k

theorem Chain.reaches_iff {c k : Nat} {cs : List Nat} (h : Chain d fat (c :: cs)) :
    Reaches d fat c k ↔ k < (c :: cs).length := by
  induction cs generalizing c k with
  | nil =>
    have hend : endOfChain ≤ fatEntry d fat c := h
    cases k with
    | zero => simp [Reaches]
    | succ k => simp [Reaches, hend]
  | cons c' cs ih =>
    obtain ⟨hnext, hlt, hrest⟩ := h
    cases k with
    | zero => simp [Reaches]
    | succ k =>
      rw [Reaches, hnext, ih hrest, List.length_cons, List.length_cons, List.length_cons]
      omega

/-- The skipping loop goes as far as the FAT leads. -/
theorem skipClusters_reaches (hd : Serves env d) (h512 : fat.bytesPerSector = 512)
    (hpos : 0 < fat.clusterSize) {c offset fuel : Nat} (hfuel : offset < fuel) (s : σ) : ∃ s',
    (Reaches d fat c (offset / fat.clusterSize) ∧ ∃ c',
      skipClusters env fat fuel c offset s = some (some (c', offset % fat.clusterSize), s')) ∨
    (¬Reaches d fat c (offset / fat.clusterSize) ∧
      skipClusters env fat fuel c offset s = some (none, s')) := by
  induction fuel generalizing c offset s with
  | zero => omega
  | succ fuel ih =>
    rw [skipClusters]
    by_cases ho : fat.clusterSize ≤ offset
    · rw [if_pos ho, Nat.div_eq_sub_div hpos ho, Nat.mod_eq_sub_mod ho, Reaches]
      dsimp only
      rw [getNextCluster_serves hd h512]
      by_cases hend : endOfChain ≤ fatEntry d fat c
      · rw [if_pos hend]
        exact ⟨_, Or.inr ⟨fun h => absurd h.1 (by omega), rfl⟩⟩
      · rw [if_neg hend]
        obtain ⟨s', ⟨hr, heq⟩ | ⟨hr, heq⟩⟩ :=
          @ih (fatEntry d fat c) (offset - fat.clusterSize) (by omega)
            (getNextCluster env fat c s).2
        · exact ⟨s', Or.inl ⟨⟨by omega, hr⟩, heq⟩⟩
        · exact ⟨s', Or.inr ⟨fun h => hr h.2, heq⟩⟩
    · rw [if_neg ho, Nat.div_eq_of_lt (by omega), Nat.mod_eq_of_lt (by omega)]
      exact ⟨s, Or.inl ⟨trivial, c, rfl⟩⟩

/-! ## 2. When anything is copied -/

/-- With sectors to be had, the first round of the copying loop already counts something. -/
theorem copyClusters_pos (hd : Serves env d) (h512 : fat.bytesPerSector = 512)
    (hspc : fat.sectorsPerCluster ≠ 0) {c offset size fuel : Nat}
    (hoffset : offset < fat.clusterSize) (hfuel : size < fuel) (hsize : size < 2 ^ 32)
    (clusterBuffer : Buf) (buffer : Mem) (s : σ) : ∃ r buffer' s',
    copyClusters env fat fuel c offset size 0 clusterBuffer buffer s = some (r, buffer', s') ∧
      (0 < r ↔ 0 < size) := by
  obtain ⟨hpos, hB⟩ := clusterSize_bounds h512 hspc
  have hsize' : 0 + size < 2 ^ 32 := by omega
  rcases Nat.eq_zero_or_pos size with rfl | hp
  · obtain ⟨data, s', hdata, hrun⟩ := copyClusters_delivers env hB (c := c) hoffset hfuel hsize'
      clusterBuffer s
    obtain ⟨r, b', heq, hdel⟩ := hrun buffer
    have hr := hdel.count
    exact ⟨r, b', s', heq, by omega⟩
  · obtain ⟨fuel, rfl⟩ : ∃ f, fuel = f + 1 := ⟨fuel - 1, by omega⟩
    obtain ⟨cb, b₁, s₁, -, ⟨hlen, heq⟩ | ⟨hlen, hmore, heq⟩⟩ := copyClusters_round hd h512
      (c := c) rfl hoffset hfuel hp hsize' clusterBuffer buffer s
    · exact ⟨_, _, _, heq, by omega⟩
    · generalize (((contents d fat c).drop offset).take size).length = n at hlen hmore heq
      by_cases hend : endOfChain ≤ fatEntry d fat c
      · rw [if_pos hend] at heq
        exact ⟨_, _, _, heq, by omega⟩
      · rw [if_neg hend] at heq
        obtain ⟨data, s', -, hrun⟩ := copyClusters_delivers env hB
          (c := fatEntry d fat c) hpos (show size - n < fuel by omega)
          (show 0 + n + (size - n) < 2 ^ 32 by omega) cb s₁
        obtain ⟨r, b', heq', hdel⟩ := hrun b₁
        have hr := hdel.count
        exact ⟨r, b', s', heq.trans heq', by omega⟩

/-- **When a read returns anything at all**: when it is asked for something and the FAT leads to
the cluster of `offset`, whether or not that is a cluster of a file. -/
theorem fat32Read_pos (hd : Serves env d) (h512 : fat.bytesPerSector = 512)
    (hspc : fat.sectorsPerCluster ≠ 0) (inode offset : Nat) {size : Nat} (hsize : size < 2 ^ 32)
    (buffer : Mem) (s : σ) : ∃ r buffer' s',
    fat32Read env fat inode offset size buffer s = some (r, buffer', s') ∧
      (0 < r ↔ 0 < size ∧ Reaches d fat inode (offset / fat.clusterSize)) := by
  obtain ⟨hpos, hB⟩ := clusterSize_bounds h512 hspc
  unfold fat32Read
  obtain ⟨s', ⟨hr, c', heq⟩ | ⟨hr, heq⟩⟩ :=
    skipClusters_reaches hd h512 hpos (c := inode) (Nat.lt_succ_self offset) s
  · rw [heq]
    obtain ⟨r, b', s₁, hcopy, hiff⟩ := copyClusters_pos hd h512 hspc (c := c')
      (Nat.mod_lt offset hpos) (Nat.lt_succ_self size) hsize (env.kmalloc fat.clusterSize s').1
      buffer (env.kmalloc fat.clusterSize s').2
    dsimp only
    rw [hcopy]
    exact ⟨r, b', _, rfl, hiff.trans (and_iff_left hr).symm⟩
  · rw [heq]
    exact ⟨0, buffer, s', rfl, iff_of_false (by omega) fun h => hr h.2⟩

/-! ## 3. Files -/

/-- A file of a well-formed volume: without bytes and without a cluster, or with a chain of
clusters that has room for its bytes, which are the first ones of the chain. -/
inductive IsFile (d : Disk) (fat : Fat) : (inode length : Nat) → List UInt8 → Prop
  | empty : IsFile d fat 0 0 []
  | chain {inode length : Nat} {cs : List Nat} (h : Chain d fat (inode :: cs))
      (hlen : length ≤ fat.clusterSize * (inode :: cs).length) :
      IsFile d fat inode length ((chainBytes d fat (inode :: cs)).take length)

/-- The directory with the clusters `cs` names files of a well-formed volume only: whatever it
lists that is no directory is one. -/
def WellFormed (d : Disk) (fat : Fat) (cs : List Nat) : Prop :=
  ∀ e ∈ listing d fat cs, e.attr &&& attrDirectory = 0 →
    ∃ content, IsFile d fat e.firstCluster e.fileSize content

/-- A read of the node delivers no byte past `length`: the count is at most what is left of the
file at `offset`, and the data is this part of the file. -/
def ReadsWithin (env : FatEnv σ) (fat : Fat) (node : FsNode) (content : List UInt8)
    (offset size : Nat) (buffer : Mem) (s : σ) : Prop :=
  ∃ r buffer' s', fat32Read env fat node.inode offset size buffer s = some (r, buffer', s') ∧
    r ≤ node.length - offset ∧ buffer'.bytes 0 r = (content.drop offset).take r

/-- The condition on the request and the FAT under which a read stays inside the file. -/
def Within (d : Disk) (fat : Fat) (inode length offset size : Nat) : Prop :=
  size = 0 ∨ offset + size ≤ length ∨ ¬Reaches d fat inode (offset / fat.clusterSize) ∨
    (fat.clusterSize ∣ length ∧ ¬Reaches d fat inode (length / fat.clusterSize))

/-- A read with a known result. -/
theorem readsWithin_iff {node : FsNode} {content : List UInt8} {offset size r : Nat}
    {buffer buffer' : Mem} {s s' : σ}
    (h : fat32Read env fat node.inode offset size buffer s = some (r, buffer', s')) :
    ReadsWithin env fat node content offset size buffer s ↔
      r ≤ node.length - offset ∧ buffer'.bytes 0 r = (content.drop offset).take r := by
  constructor
  · rintro ⟨r₁, b₁, s₁, h₁, hle, hdata⟩
    rw [h] at h₁
    obtain ⟨rfl, hrest⟩ := Prod.mk.inj (Option.some.inj h₁)
    obtain ⟨rfl, -⟩ := Prod.mk.inj hrest
    exact ⟨hle, hdata⟩
  · rintro ⟨hle, hdata⟩
    exact ⟨r, buffer', s', h, hle, hdata⟩

/-- The arithmetic of a file in `n` clusters of `B` bytes. -/
theorem slack_iff {B n length offset size : Nat} (hB : 0 < B) (hlen : length ≤ B * n) :
    min size (B * n - offset) ≤ length - offset ↔
      size = 0 ∨ offset + size ≤ length ∨ n ≤ offset / B ∨ (B ∣ length ∧ n ≤ length / B) := by
  have hoff : n ≤ offset / B ↔ B * n ≤ offset := by
    rw [Nat.le_div_iff_mul_le hB, Nat.mul_comm]
  have hfull : (B ∣ length ∧ n ≤ length / B) ↔ length = B * n := by
    rw [Nat.le_div_iff_mul_le hB, Nat.mul_comm n B]
    constructor
    · exact fun h => le_antisymm hlen h.2
    · rintro rfl
      exact ⟨Nat.dvd_mul_right B n, le_rfl⟩
  rw [hoff, hfull]
  omega

/-- A file without clusters: anything a read returns is too much. -/
theorem readsWithin_empty (hd : Serves env d) (h512 : fat.bytesPerSector = 512)
    (hspc : fat.sectorsPerCluster ≠ 0) {node : FsNode} (hlen : node.length = 0)
    {offset size : Nat} (hsize : size < 2 ^ 32) (buffer : Mem) (s : σ) :
    ReadsWithin env fat node [] offset size buffer s ↔
      Within d fat node.inode node.length offset size := by
  obtain ⟨r, b', s', heq, hr⟩ := fat32Read_pos hd h512 hspc node.inode offset hsize buffer s
  have hcond : Within d fat node.inode node.length offset size ↔ ¬0 < r := by
    rw [hr, Within, hlen, Nat.zero_div]
    simp only [Reaches]
    by_cases hreach : Reaches d fat node.inode (offset / fat.clusterSize)
    · simp [hreach]
    · simp [hreach]
  rw [hcond, readsWithin_iff heq, hlen, Nat.zero_sub]
  constructor
  · rintro ⟨hle, -⟩
    omega
  · intro h0
    have hr0 : r = 0 := by omega
    subst hr0
    exact ⟨le_rfl, by simp [Mem.bytes_zero]⟩

/-- A file with clusters: the slack behind it is what makes the difference. -/
theorem readsWithin_chain (hd : Serves env d) (h512 : fat.bytesPerSector = 512)
    (hspc : fat.sectorsPerCluster ≠ 0) {node : FsNode} {cs : List Nat}
    (hchain : Chain d fat (node.inode :: cs))
    (hlen : node.length ≤ fat.clusterSize * (node.inode :: cs).length) {offset size : Nat}
    (hsize : size < 2 ^ 32) (buffer : Mem) (s : σ) :
    ReadsWithin env fat node ((chainBytes d fat (node.inode :: cs)).take node.length) offset size
        buffer s ↔
      Within d fat node.inode node.length offset size := by
  obtain ⟨hpos, -⟩ := clusterSize_bounds h512 hspc
  obtain ⟨r, b', s', heq, hdel⟩ := fat32Read_delivered hd h512 hspc hchain offset hsize buffer s
  have hr : r = min size (fat.clusterSize * (node.inode :: cs).length - offset) := by
    rw [hdel.count, Nat.zero_add, List.length_take, List.length_drop, length_chainBytes h512]
  have hcond : Within d fat node.inode node.length offset size ↔ r ≤ node.length - offset := by
    rw [hr, slack_iff hpos hlen, Within, hchain.reaches_iff, hchain.reaches_iff, Nat.not_lt,
      Nat.not_lt]
  rw [hcond, readsWithin_iff heq]
  constructor
  · rintro ⟨hle, -⟩
    exact hle
  · intro hle
    refine ⟨hle, ?_⟩
    have hdata := hdel.holds
    have hcount : r = (((chainBytes d fat (node.inode :: cs)).drop offset).take size).length := by
      rw [hdel.count, Nat.zero_add]
    rw [← hcount] at hdata
    rw [hdata, List.drop_take, List.take_take, Nat.min_eq_left hle, hcount, List.length_take]
    exact List.take_eq_take_min

/-- What the fields of a node say about the entry it was made for. -/
theorem FsNode.Stands.file {node : FsNode} {e : DirEntry} (h : node.Stands e)
    (hfile : node.flags = fsFile) :
    e.attr &&& attrDirectory = 0 ∧ node.inode = e.firstCluster ∧ node.length = e.fileSize := by
  obtain ⟨b, -, rfl⟩ := h
  unfold fileNode at hfile ⊢
  by_cases hdir : e.attr &&& attrDirectory = 0
  · rw [if_neg (by simpa using hdir)]
    exact ⟨hdir, rfl, rfl⟩
  · rw [if_pos hdir] at hfile
    have hflags : fsDirectory = fsFile := hfile
    exact absurd hflags (by decide)

/-- **When `fat32_read` stays inside the file.**  For every file node `fat32_finddir` returns, in
a directory of a well-formed volume, and every request: the read delivers at most
`length - offset` bytes, and these are the bytes of the file from `offset` on, if and only if the
request meets the condition `Within`. -/
theorem read_within_iff (env : FatEnv σ) (d : Disk) (hd : Serves env d) (ha : Allocates env)
    (fat : Fat) (h512 : fat.bytesPerSector = 512) (hspc : fat.sectorsPerCluster ≠ 0) (dir : Nat)
    (cs : List Nat) (hdir : DirChain d fat dir cs) (hwf : WellFormed d fat cs) (fuel : Nat)
    (hfuel : cs.length < fuel) (name entryName : Mem) (s₀ s₁ : σ) (node : FsNode)
    (hnode : fat32Finddir env fat fuel dir name entryName s₀ = some (some node, s₁))
    (hfile : node.flags = fsFile) :
    ∃ content, IsFile d fat node.inode node.length content ∧
      ∀ offset < 2 ^ 32, ∀ size < 2 ^ 32, ∀ (buffer : Mem) (s : σ),
        ReadsWithin env fat node content offset size buffer s ↔
          Within d fat node.inode node.length offset size := by
  obtain ⟨r, s', heq, hrel⟩ := fat32Finddir_listing hd ha h512 hdir hfuel name entryName s₀
  rw [hnode] at heq
  obtain ⟨rfl, -⟩ := Prod.mk.inj (Option.some.inj heq)
  cases hfind : (listing d fat cs).find? fun e => name.CStr 0 e.cname with
  | none =>
    rw [hfind] at hrel
    cases hrel
  | some e =>
    rw [hfind] at hrel
    cases hrel with
    | some hstands =>
      obtain ⟨hattr, hinode, hlength⟩ := hstands.file hfile
      obtain ⟨content, hcontent⟩ := hwf e (List.mem_of_find?_eq_some hfind) hattr
      rw [← hinode, ← hlength] at hcontent
      refine ⟨content, hcontent, ?_⟩
      intro offset _ size hsize buffer s
      generalize hi : node.inode = inode at hcontent
      generalize hl : node.length = length at hcontent
      cases hcontent with
      | empty =>
        have := @readsWithin_empty σ env d fat hd h512 hspc node hl offset size hsize buffer s
        rwa [hi, hl] at this
      | chain h hlen =>
        subst hi
        subst hl
        exact readsWithin_chain hd h512 hspc h hlen hsize buffer s

/-! ### A file of five bytes and an empty one -/

/-- A disk with a directory in cluster 2: the file `A`, five bytes in cluster 3, and the empty
file `E`.  Entry 0 of the FAT is that of a fixed disk. -/
def fileDisk : Disk := fun lba i =>
  if lba = 32 then
    if 16 ≤ i then 0 else if i = 0 then 0xF8 else if i % 4 = 3 then 0x0F else 0xFF
  else if lba = 100 then
    if i = 26 then 3 else if i = 28 then 5
    else if i < 32 then letterEntry 0x41 i
    else if i < 64 then letterEntry 0x45 (i - 32) else 0
  else UInt8.ofNat (lba + i)

theorem fileDisk_dir : DirChain fileDisk smallFat 2 [2] :=
  .step (by decide) (.stop (by decide +kernel))

theorem fileDisk_wellFormed : WellFormed fileDisk smallFat [2] := by
  have hlist : (listing fileDisk smallFat [2]).map (fun e => (e.firstCluster, e.fileSize))
      = [(3, 5), (0, 0)] := by decide +kernel
  have hchain : Chain fileDisk smallFat [3] := by
    show endOfChain ≤ fatEntry fileDisk smallFat 3
    decide +kernel
  intro e he _
  have hmem := List.mem_map_of_mem (f := fun e : DirEntry => (e.firstCluster, e.fileSize)) he
  rw [hlist] at hmem
  rcases List.mem_cons.mp hmem with h | hmem
  · obtain ⟨h1, h2⟩ := Prod.mk.inj h
    rw [h1, h2]
    exact ⟨_, .chain hchain (by decide)⟩
  · obtain ⟨h1, h2⟩ := Prod.mk.inj (List.mem_singleton.mp hmem)
    rw [h1, h2]
    exact ⟨_, .empty⟩

/-- The node `fat32_finddir` returns for a name, from its fields. -/
theorem fileDisk_found {letter : UInt8} {length inode : Nat}
    (h : (fat32Finddir (readyEnv fileDisk) smallFat 2 2 (letterName letter) (fun _ => 0) ()).map
        (fun r => r.1.map fun node => (node.flags, node.length, node.inode))
      = some (some (fsFile, length, inode))) :
    ∃ node s₁, fat32Finddir (readyEnv fileDisk) smallFat 2 2 (letterName letter) (fun _ => 0) ()
        = some (some node, s₁) ∧
      node.flags = fsFile ∧ node.length = length ∧ node.inode = inode := by
  obtain ⟨⟨r, s₁⟩, heq, hr⟩ := Option.map_eq_some_iff.mp h
  obtain ⟨node, rfl, hnode⟩ := Option.map_eq_some_iff.mp hr
  obtain ⟨hflags, hrest⟩ := Prod.mk.inj hnode
  exact ⟨node, s₁, heq, hflags, Prod.mk.inj hrest⟩

/-- The first five bytes of `A` may be read, but not one more. -/
theorem read_within_iff_small : ∃ node s₁,
    fat32Finddir (readyEnv fileDisk) smallFat 2 2 (letterName 0x41) (fun _ => 0) ()
        = some (some node, s₁) ∧
      ∃ content, IsFile fileDisk smallFat node.inode node.length content ∧
        ReadsWithin (readyEnv fileDisk) smallFat node content 0 5 (fun _ => 0) () ∧
        ¬ReadsWithin (readyEnv fileDisk) smallFat node content 0 6 (fun _ => 0) () := by
  obtain ⟨node, s₁, heq, hflags, hlength, hinode⟩ :=
    @fileDisk_found 0x41 5 3 (by decide +kernel)
  obtain ⟨content, hfile, hiff⟩ := read_within_iff (readyEnv fileDisk) fileDisk
    (fun _ _ _ _ => ⟨rfl, rfl⟩) (fun _ _ => by simp [readyEnv]) smallFat rfl (by decide) 2 [2]
    fileDisk_dir fileDisk_wellFormed 2 (by decide) (letterName 0x41) (fun _ => 0) () s₁ node heq
    hflags
  refine ⟨node, s₁, heq, content, hfile, ?_, ?_⟩
  · rw [hiff 0 (by decide) 5 (by decide), hlength]
    exact Or.inr (Or.inl le_rfl)
  · rw [hiff 0 (by decide) 6 (by decide), hlength]
    rintro (h | h | h | ⟨h, -⟩)
    · exact absurd h (by decide)
    · exact absurd h (by decide)
    · exact h trivial
    · exact absurd h (by decide)

/-- The two files: what `fat32_finddir` returns for them, and that a read of 52 bytes from the
start, the size of an ELF header, counts 52 bytes for both. -/
theorem read_past_length : WellFormed fileDisk smallFat [2] ∧
    (∃ node s₁, fat32Finddir (readyEnv fileDisk) smallFat 2 2 (letterName 0x41) (fun _ => 0) ()
        = some (some node, s₁) ∧ node.flags = fsFile ∧ node.length = 5 ∧
      ∃ buffer' s', fat32Read (readyEnv fileDisk) smallFat node.inode 0 52 (fun _ => 0) ()
        = some (52, buffer', s')) ∧
    ∃ node s₁, fat32Finddir (readyEnv fileDisk) smallFat 2 2 (letterName 0x45) (fun _ => 0) ()
        = some (some node, s₁) ∧ node.flags = fsFile ∧ node.length = 0 ∧
      ∃ buffer' s', fat32Read (readyEnv fileDisk) smallFat node.inode 0 52 (fun _ => 0) ()
        = some (52, buffer', s') := by
  have hread : ∀ inode, (fat32Read (readyEnv fileDisk) smallFat inode 0 52 (fun _ => 0) ()).map
      (·.1) = some 52 → ∃ buffer' s',
        fat32Read (readyEnv fileDisk) smallFat inode 0 52 (fun _ => 0) ()
          = some (52, buffer', s') := by
    intro inode h
    obtain ⟨⟨n, buffer', s'⟩, heq, rfl⟩ := Option.map_eq_some_iff.mp h
    exact ⟨buffer', s', heq⟩
  obtain ⟨a, sa, ha, hflags, hlength, hinode⟩ := @fileDisk_found 0x41 5 3 (by decide +kernel)
  obtain ⟨e, se, he, hflags', hlength', hinode'⟩ := @fileDisk_found 0x45 0 0 (by decide +kernel)
  refine ⟨fileDisk_wellFormed, ⟨a, sa, ha, hflags, hlength, ?_⟩,
    e, se, he, hflags', hlength', ?_⟩
  · rw [hinode]
    exact hread 3 (by decide +kernel)
  · rw [hinode']
    exact hread 0 (by decide +kernel)

end FlowOS.Fat32
