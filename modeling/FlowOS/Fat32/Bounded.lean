/-
# `fat32_read` whatever the disk answers

Nothing is assumed here about the FAT, the contents of the clusters or the outcomes of the sector
reads.  The chain may be cyclic and never end, so the two loops of `fat32_read` are bounded by
what they count down: `offset` in the first, `size` in the second.  The second count goes down
because a chunk is never empty, and for that the offset in the cluster has to stay below the
cluster size, on whichever way the first loop was left.
-/
import FlowOS.Fat32.Read

namespace FlowOS.Fat32

open Word

variable {σ : Type} {fat : Fat}

theorem clusterSize_bounds (h512 : fat.bytesPerSector = 512) (hspc : fat.sectorsPerCluster ≠ 0) :
    0 < fat.clusterSize ∧ fat.clusterSize < 2 ^ 32 := by
  have hne : fat.sectorsPerCluster.toNat ≠ 0 := fun h0 => hspc (UInt8.toNat_inj.mp h0)
  have hlt := fat.sectorsPerCluster.toNat_lt
  rw [clusterSize_eq h512]
  omega

/-! ## 1. The skipping loop -/

/-- The skipping loop returns, and where it finds a cluster the offset lies in it. -/
theorem skipClusters_returns (env : FatEnv σ) (hpos : 0 < fat.clusterSize) {c offset fuel : Nat}
    (hfuel : offset < fuel) (s : σ) : ∃ r s',
    skipClusters env fat fuel c offset s = some (r, s') ∧
      ∀ c' o, r = some (c', o) → o < fat.clusterSize := by
  induction fuel generalizing c offset s with
  | zero => omega
  | succ fuel ih =>
    rw [skipClusters]
    by_cases ho : fat.clusterSize ≤ offset
    · rw [if_pos ho]
      dsimp only
      by_cases hend : endOfChain ≤ (getNextCluster env fat c s).1
      · rw [if_pos hend]
        exact ⟨none, _, rfl, fun _ _ h => by cases h⟩
      · rw [if_neg hend]
        exact ih (by omega) _
    · rw [if_neg ho]
      refine ⟨_, s, rfl, ?_⟩
      intro c' o h
      obtain ⟨rfl, rfl⟩ := Prod.mk.inj (Option.some.inj h)
      omega

/-! ## 2. The copying loop -/

/-- **The copying loop delivers something.**  It returns, and leaves in the caller's buffer some
data of at most `size` bytes, which it counts and which does not depend on what the buffer
held. -/
theorem copyClusters_delivers (env : FatEnv σ) (hB : fat.clusterSize < 2 ^ 32)
    {c offset size readSize fuel : Nat} (hoffset : offset < fat.clusterSize)
    (hfuel : size < fuel) (hsize : readSize + size < 2 ^ 32) (clusterBuffer : Buf) (s : σ) :
    ∃ data s', data.length ≤ size ∧ ∀ buffer, ∃ r buffer',
      copyClusters env fat fuel c offset size readSize clusterBuffer buffer s
        = some (r, buffer', s') ∧ Delivered readSize data buffer buffer' r := by
  induction fuel generalizing c offset size readSize clusterBuffer s with
  | zero => omega
  | succ fuel ih =>
    simp only [copyClusters]
    by_cases hpos : 0 < size
    · simp only [if_pos hpos]
      by_cases hread : (readCluster env fat c clusterBuffer s).1 = false
      · simp only [if_pos hread]
        exact ⟨[], _, Nat.zero_le _, fun buffer => ⟨_, _, rfl, .nil readSize buffer⟩⟩
      · simp only [if_neg hread, sub32_of_le hoffset.le hB]
        generalize readCluster env fat c clusterBuffer s = rc
        obtain ⟨n, hn⟩ : ∃ n, n = if size < fat.clusterSize - offset then size
            else fat.clusterSize - offset := ⟨_, rfl⟩
        have hle : n ≤ size ∧ 0 < n := by
          rw [hn]
          split <;> omega
        rw [← hn, add32_of_lt (by omega)]
        -- the chunk of this round
        obtain ⟨chunk, hchunk⟩ : ∃ chunk, chunk = rc.2.1.bytes.bytes offset n := ⟨_, rfl⟩
        have hlen : n = chunk.length := by rw [hchunk, Mem.length_bytes]
        have hdel : ∀ buffer, Delivered readSize chunk buffer
            (buffer.copy readSize rc.2.1.bytes offset n) (readSize + n) := by
          intro buffer
          refine ⟨by rw [hlen], ?_, fun x hx => Mem.copy_outside (hlen ▸ hx)⟩
          rw [← hlen, Mem.bytes_copy, hchunk]
        have hrest : ∀ c' s₁, ∃ data s', data.length ≤ size ∧ ∀ buffer, ∃ r buffer',
            copyClusters env fat fuel c' 0 (size - n) (readSize + n) rc.2.1
              (buffer.copy readSize rc.2.1.bytes offset n) s₁ = some (r, buffer', s') ∧
            Delivered readSize data buffer buffer' r := by
          intro c' s₁
          obtain ⟨data, s', hdata, hrun⟩ := @ih c' 0 (size - n) (readSize + n) (by omega)
            (by omega) (by omega) rc.2.1 s₁
          refine ⟨chunk ++ data, s', by rw [List.length_append]; omega, ?_⟩
          intro buffer
          obtain ⟨r, b', heq, hd⟩ := hrun (buffer.copy readSize rc.2.1.bytes offset n)
          have hfirst := hdel buffer
          rw [show readSize + n = readSize + chunk.length by rw [hlen]] at hfirst hd
          exact ⟨r, b', heq, hfirst.cons hd⟩
        by_cases hmore : 0 < size - n
        · simp only [if_pos hmore]
          by_cases hend : endOfChain ≤ (getNextCluster env fat c rc.2.2).1
          · simp only [if_pos hend]
            exact ⟨chunk, _, by omega, fun buffer => ⟨_, _, rfl, hdel buffer⟩⟩
          · simp only [if_neg hend]
            exact hrest _ _
        · simp only [if_neg hmore]
          exact hrest _ _
    · simp only [if_neg hpos]
      exact ⟨[], s, Nat.zero_le _, fun buffer => ⟨_, _, rfl, .nil readSize buffer⟩⟩

/-! ## 3. `fat32_read` -/

/-- **`fat32_read` returns and stays in the caller's buffer.**  Whatever the services answer
(corrupt and cyclic chains, failing reads), on a volume with sectors of 512 bytes and for every
request, it returns some count `r ≤ size`.  The first `r` bytes of the buffer then hold data that
does not depend on what was there, so all of them were written; every other byte is as it was. -/
theorem fat32Read_bounded (env : FatEnv σ) (fat : Fat) (h512 : fat.bytesPerSector = 512)
    (hspc : fat.sectorsPerCluster ≠ 0) (inode offset size : Nat)
    (hsize : size < 2 ^ 32) (s : σ) :
    ∃ r ≤ size, ∃ data s', data.length = r ∧ ∀ buffer, ∃ buffer',
      fat32Read env fat inode offset size buffer s = some (r, buffer', s') ∧
      buffer'.bytes 0 r = data ∧ ∀ x, r ≤ x → buffer' x = buffer x := by
  obtain ⟨hpos, hB⟩ := clusterSize_bounds h512 hspc
  obtain ⟨found, s₁, hskip, hin⟩ :=
    @skipClusters_returns σ fat env hpos inode offset (offset + 1) (Nat.lt_succ_self _) s
  unfold fat32Read
  rw [hskip]
  cases found with
  | none => exact ⟨0, Nat.zero_le _, [], s₁, rfl, fun buffer => ⟨buffer, rfl, rfl, fun _ _ => rfl⟩⟩
  | some p =>
    obtain ⟨c, o⟩ := p
    obtain ⟨data, s₂, hdata, hrun⟩ := copyClusters_delivers env hB (c := c) (hin c o rfl)
      (Nat.lt_succ_self size) (show 0 + size < 2 ^ 32 by omega)
      (env.kmalloc fat.clusterSize s₁).1 (env.kmalloc fat.clusterSize s₁).2
    refine ⟨data.length, hdata, data, env.kfree (env.kmalloc fat.clusterSize s₁).1.addr s₂, rfl, ?_⟩
    intro buffer
    obtain ⟨r, buffer', heq, hdel⟩ := hrun buffer
    have hr : r = data.length := by rw [hdel.count, Nat.zero_add]
    refine ⟨buffer', ?_, hdel.holds, fun x hx => hdel.rest x (Or.inr (by omega))⟩
    dsimp only
    rw [heq, hr]

/-- A disk whose FAT leads from every cluster to cluster 2, and from there to cluster 2 again.
Every other sector is an entry of a directory that is marked with `mark`, and 15 deleted ones. -/
def loopDisk (mark : UInt8) : Disk := fun lba i =>
  if lba = 32 then if i % 4 = 0 then 2 else 0
  else if i = 0 then mark
  else if i < 11 then 0x20
  else if i < 32 then 0
  else 0xE5

/-- A read on that disk, which goes round for as long as the request lets it. -/
theorem fat32Read_bounded_loop : fatEntry (loopDisk 0xE5) smallFat 2 = 2 ∧
    ∃ r ≤ 2000, ∃ data s', data.length = r ∧ ∀ buffer, ∃ buffer',
      fat32Read (readyEnv (loopDisk 0xE5)) smallFat 2 1000000 2000 buffer ()
        = some (r, buffer', s') ∧
      buffer'.bytes 0 r = data ∧ ∀ x, r ≤ x → buffer' x = buffer x :=
  ⟨by decide +kernel, fat32Read_bounded (readyEnv (loopDisk 0xE5)) smallFat rfl (by decide) 2
    1000000 2000 (by decide) ()⟩

end FlowOS.Fat32
