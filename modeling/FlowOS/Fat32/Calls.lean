/-
# What the file operations do to the heap

`fat32_read`, `fat32_readdir` and `fat32_finddir` allocate a buffer for a cluster, and a smaller
one for a sector of the FAT each time they look up a successor; the last two also allocate what
they return.  They have several early exits each, and one of them frees the buffer twice.

The module proves what they do with their buffers once for all purposes, as a rule about any
services.  A `Contract` is what a service demands and what it keeps: a buffer is freed, or read
into, by the call that holds it, and a read of `count` sectors needs a buffer of `512 * count`
bytes.  Whatever such services keep, the operations keep (`Call.run_keeps`), and in the end they
hold what they return and nothing else.
-/
import FlowOS.Fat32.Dir

namespace FlowOS.Fat32

/-! ## 1. Calls -/

/-- A call of one of the callbacks of the driver. -/
inductive Call
  | read (inode offset size : Nat) (buffer : Mem)
  | readdir (inode index : Nat)
  | finddir (inode : Nat) (name entryName : Mem)

/-- What it returns: for a read, the count and the caller's buffer. -/
inductive Outcome
  | count (r : Nat) (buffer : Mem)
  | entry (dirent : Option Dirent)
  | node (node : Option FsNode)

variable {σ : Type}

def Call.run (env : FatEnv σ) (fat : Fat) (fuel : Nat) : Call → σ → Option (Outcome × σ)
  | .read inode offset size buffer, s =>
    (fat32Read env fat inode offset size buffer s).map fun r => (.count r.1 r.2.1, r.2.2)
  | .readdir inode index, s =>
    (fat32Readdir env fat fuel inode index s).map fun r => (.entry r.1, r.2)
  | .finddir inode name entryName, s =>
    (fat32Finddir env fat fuel inode name entryName s).map fun r => (.node r.1, r.2)

/-- The allocation that is returned, its address and size. -/
def Outcome.returned : Outcome → List (Nat × Nat)
  | .entry (some e) => [(e.addr, 132)]
  | .node (some n) => [(n.addr, 184)]
  | _ => []

/-! ## 2. Contracts -/

/-- The services keep `I held`, where `held` are the allocations of the call, as long as the call
keeps to it: it frees and reads into what it holds, and reads no more than fits.  The second of
two frees in a row may be made too.  A call that goes on with a null pointer is left to itself. -/
structure Contract (env : FatEnv σ) (I : List (Nat × Nat) → σ → Prop) : Prop where
  kmalloc : ∀ {held s n}, I held s → n < 2 ^ 24 → (env.kmalloc n s).1.addr ≠ 0 →
    I (((env.kmalloc n s).1.addr, n) :: held) (env.kmalloc n s).2
  failed : ∀ {held s n}, I held s → n < 2 ^ 24 → (env.kmalloc n s).1.addr = 0 →
    ∀ held', I held' (env.kmalloc n s).2
  kfree : ∀ {held s a n}, I held s → (a, n) ∈ held → I (held.erase (a, n)) (env.kfree a s)
  kfreeTwice : ∀ {held s a n}, I held s → (a, n) ∈ held →
    I (held.erase (a, n)) (env.kfree a (env.kfree a s))
  read : ∀ {held s lba count n} {buffer : Buf}, I held s → (buffer.addr, n) ∈ held →
    512 * count ≤ n → I held (env.ataReadSectors 0 lba count buffer s).2.2

variable {env : FatEnv σ} {I : List (Nat × Nat) → σ → Prop} {fat : Fat}
  {held : List (Nat × Nat)} {s s' : σ}

theorem Contract.alloc (hc : Contract env I) {n : Nat} (h : I held s) (hn : n < 2 ^ 24) :
    I (((env.kmalloc n s).1.addr, n) :: held) (env.kmalloc n s).2 := by
  by_cases h0 : (env.kmalloc n s).1.addr = 0
  · exact hc.failed h hn h0 _
  · exact hc.kmalloc h hn h0

/-- The latest allocation is freed. -/
theorem Contract.release (hc : Contract env I) {a n : Nat} (h : I ((a, n) :: held) s) :
    I held (env.kfree a s) := by
  have := hc.kfree h List.mem_cons_self
  rwa [List.erase_cons_head] at this

theorem Contract.releaseTwice (hc : Contract env I) {a n : Nat} (h : I ((a, n) :: held) s) :
    I held (env.kfree a (env.kfree a s)) := by
  have := hc.kfreeTwice h List.mem_cons_self
  rwa [List.erase_cons_head] at this

/-- The buffer is freed, and the allocation made after it is kept. -/
theorem Contract.releaseUnder (hc : Contract env I) {a n : Nat} {e : Nat × Nat}
    (h : I (e :: (a, n) :: held) s) : I (e :: held) (env.kfree a s) := by
  have := hc.kfree h (List.mem_cons_of_mem e List.mem_cons_self)
  by_cases he : e = (a, n)
  · rwa [he, List.erase_cons_head, ← he] at this
  · rwa [List.erase_cons_tail (by simpa using he), List.erase_cons_head] at this

/-! ## 3. The operations -/

theorem getNextCluster_keeps (hc : Contract env I) (fat : Fat) (c : Nat) (h : I held s) :
    I held (getNextCluster env fat c s).2 := by
  have halloc := hc.alloc (n := 512) h (by decide)
  unfold getNextCluster
  dsimp only
  split <;> exact hc.release (hc.read halloc List.mem_cons_self (by decide))

/-- The driver's sectors fit into a cluster buffer. -/
def Fat.Roomy (fat : Fat) : Prop := 512 * fat.sectorsPerCluster.toNat ≤ fat.clusterSize

instance (fat : Fat) : Decidable fat.Roomy := Nat.decLe _ _

theorem clusterSize_lt (fat : Fat) : fat.clusterSize < 2 ^ 24 := by
  have h1 := fat.sectorsPerCluster.toNat_lt
  have h2 := fat.bytesPerSector.toNat_lt
  calc fat.sectorsPerCluster.toNat * fat.bytesPerSector.toNat
      ≤ 255 * 65535 := Nat.mul_le_mul (by omega) (by omega)
    _ < 2 ^ 24 := by decide

section Loops

variable (hc : Contract env I) (hroom : fat.Roomy)

include hc hroom

theorem readCluster_keeps {buffer : Buf} (c : Nat) (h : I held s)
    (hheld : (buffer.addr, fat.clusterSize) ∈ held) :
    I held (readCluster env fat c buffer s).2.2 := hc.read h hheld hroom

omit hroom in
theorem skipClusters_keeps {fuel c offset : Nat} {r : Option (Nat × Nat)}
    (h : I held s) (hrun : skipClusters env fat fuel c offset s = some (r, s')) : I held s' := by
  induction fuel generalizing c offset s with
  | zero => cases hrun
  | succ fuel ih =>
    rw [skipClusters] at hrun
    dsimp only at hrun
    have hnext := getNextCluster_keeps hc fat c h
    split at hrun
    · split at hrun
      · cases hrun
        exact hnext
      · exact ih hnext hrun
    · cases hrun
      exact h

theorem copyClusters_keeps {fuel c offset size readSize r : Nat} {clusterBuffer : Buf}
    {buffer buffer' : Mem} (h : I held s) (hheld : (clusterBuffer.addr, fat.clusterSize) ∈ held)
    (hrun : copyClusters env fat fuel c offset size readSize clusterBuffer buffer s
      = some (r, buffer', s')) : I held s' := by
  induction fuel generalizing c offset size readSize clusterBuffer buffer s with
  | zero => cases hrun
  | succ fuel ih =>
    rw [copyClusters] at hrun
    dsimp only at hrun
    generalize (if size < Word.sub32 fat.clusterSize offset then size
      else Word.sub32 fat.clusterSize offset) = chunk at hrun
    have hread := readCluster_keeps hc hroom c h hheld
    have hheld : ((readCluster env fat c clusterBuffer s).2.1.addr, fat.clusterSize) ∈ held := hheld
    have hnext := getNextCluster_keeps hc fat c hread
    split at hrun
    · split at hrun
      · cases hrun
        exact hread
      · split at hrun
        · split at hrun
          · cases hrun
            exact hnext
          · exact ih hnext hheld hrun
        · exact ih hread hheld hrun
    · cases hrun
      exact h

/-- The loop of `fat32_readdir` ends with the buffer freed. -/
theorem readdirClusters_keeps {index fuel c currentIndex : Nat} {buffer : Buf}
    {r : Option Dirent} (h : I ((buffer.addr, fat.clusterSize) :: held) s)
    (hrun : readdirClusters env fat index fuel c currentIndex buffer s = some (r, s')) :
    I ((Outcome.entry r).returned ++ held) s' := by
  induction fuel generalizing c currentIndex buffer s with
  | zero => cases hrun
  | succ fuel ih =>
    rw [readdirClusters] at hrun
    dsimp only at hrun
    have hread : I (((readCluster env fat c buffer s).2.1.addr, fat.clusterSize) :: held)
        (readCluster env fat c buffer s).2.2 := readCluster_keeps hc hroom c h List.mem_cons_self
    split at hrun
    · split at hrun
      · cases hrun
        exact hc.releaseTwice hread
      · split at hrun
        · cases hrun
          exact hc.release hread
        · cases hrun
          exact hc.releaseUnder (hc.alloc hread (show 132 < 2 ^ 24 by decide))
        · exact ih (getNextCluster_keeps hc fat c hread) hrun
    · cases hrun
      exact hc.release h

/-- So does that of `fat32_finddir`. -/
theorem finddirClusters_keeps {name : Mem} {fuel c : Nat} {entryName : Mem} {buffer : Buf}
    {r : Option FsNode} (h : I ((buffer.addr, fat.clusterSize) :: held) s)
    (hrun : finddirClusters env fat name fuel c entryName buffer s = some (r, s')) :
    I ((Outcome.node r).returned ++ held) s' := by
  induction fuel generalizing c entryName buffer s with
  | zero => cases hrun
  | succ fuel ih =>
    rw [finddirClusters] at hrun
    dsimp only at hrun
    have hread : I (((readCluster env fat c buffer s).2.1.addr, fat.clusterSize) :: held)
        (readCluster env fat c buffer s).2.2 := readCluster_keeps hc hroom c h List.mem_cons_self
    split at hrun
    · split at hrun
      · cases hrun
        exact hc.release hread
      · split at hrun
        · cases hrun
        · cases hrun
          exact hc.release hread
        · rename_i e _
          cases hrun
          have haddr : (fileNode e (env.kmalloc 184 (readCluster env fat c buffer s).2.2).1).addr
              = (env.kmalloc 184 (readCluster env fat c buffer s).2.2).1.addr := by
            unfold fileNode
            dsimp only
            split <;> rfl
          rw [Outcome.returned, haddr]
          exact hc.releaseUnder (hc.alloc hread (show 184 < 2 ^ 24 by decide))
        · exact ih (getNextCluster_keeps hc fat c hread) hrun
    · cases hrun
      exact hc.release h

omit hc hroom in
/-- What `fat32_read` has done when it returns: the chain ended before `offset`, or both loops have
run and the buffer is freed. -/
theorem fat32Read_cases {inode offset size r : Nat} {buffer buffer' : Mem}
    (h : fat32Read env fat inode offset size buffer s = some (r, buffer', s')) :
    skipClusters env fat (offset + 1) inode offset s = some (none, s') ∨
    ∃ c o s₁ s₂, skipClusters env fat (offset + 1) inode offset s = some (some (c, o), s₁) ∧
      copyClusters env fat (size + 1) c o size 0 (env.kmalloc fat.clusterSize s₁).1 buffer
        (env.kmalloc fat.clusterSize s₁).2 = some (r, buffer', s₂) ∧
      s' = env.kfree (env.kmalloc fat.clusterSize s₁).1.addr s₂ := by
  unfold fat32Read at h
  split at h
  · cases h
  · rename_i hskip
    cases h
    exact Or.inl hskip
  · rename_i c o s₁ hskip
    dsimp only at h
    split at h
    · cases h
    · rename_i hcopy
      cases h
      exact Or.inr ⟨c, o, s₁, _, hskip, hcopy, rfl⟩

/-- **Rule for the calls.**  What the services keep, a call keeps, for whatever the disk answers;
when it returns it has released its buffers and holds only what it returns. -/
theorem Call.run_keeps (call : Call) {fuel : Nat} {o : Outcome} (h : I held s)
    (hrun : call.run env fat fuel s = some (o, s')) : I (o.returned ++ held) s' := by
  have hbuffer := hc.alloc h (clusterSize_lt fat)
  cases call with
  | read inode offset size buffer =>
    obtain ⟨⟨r, buffer', t⟩, heq, hret⟩ := Option.map_eq_some_iff.mp hrun
    cases hret
    rcases fat32Read_cases heq with hskip | ⟨c, o, s₁, s₂, hskip, hcopy, rfl⟩
    · exact skipClusters_keeps hc h hskip
    · have hbuffer := hc.alloc (skipClusters_keeps hc h hskip) (clusterSize_lt fat)
      exact hc.release (copyClusters_keeps hc hroom hbuffer List.mem_cons_self hcopy)
  | readdir inode index =>
    obtain ⟨⟨r, t⟩, heq, hret⟩ := Option.map_eq_some_iff.mp hrun
    cases hret
    unfold fat32Readdir at heq
    dsimp only at heq
    split at heq
    · rename_i h0
      cases heq
      exact hc.failed h (clusterSize_lt fat) h0 _
    · exact readdirClusters_keeps hc hroom hbuffer heq
  | finddir inode name entryName =>
    obtain ⟨⟨r, t⟩, heq, hret⟩ := Option.map_eq_some_iff.mp hrun
    cases hret
    exact finddirClusters_keeps hc hroom hbuffer heq

end Loops

end FlowOS.Fat32
