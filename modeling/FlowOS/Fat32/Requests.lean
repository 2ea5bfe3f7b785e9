/-
# The sectors the FAT32 driver asks for

A cluster number comes from a directory entry or from the FAT, and the driver takes it for what it
is: it checks neither that it is at least 2 nor that the cluster lies inside the volume.  The
module says exactly which sectors `fat32_read`, `fat32_readdir` and `fat32_finddir` ask for, in
terms of the numbers `walk d fat inode k` that the FAT leads to:

* the clusters a call reads are those it `Visits`, the entries of the FAT it reads those it
  `LooksUp`;
* on a disk whose reads may fail at any point, all requests of all runs are `Allowed` if and only
  if those of the clusters visited and of the entries looked up are (`requests_allowed_iff`).

A read that fails ends a call early, so the requests of every run are among these; and a call that
would never return is made to, after as many rounds as one likes, by a read that fails.

An empty file has 0 for its first cluster.  Cluster 0 lies two clusters before the data area, and
on a volume whose FATs are shorter than that, reading an empty file reads reserved sectors.
-/
import FlowOS.Fat32.Inside
import FlowOS.Fat32.Walk
import FlowOS.Fat32.Length
import Mathlib.Tactic.IntervalCases

namespace FlowOS.Fat32

open Word

variable {σ : Type} {env : FatEnv σ} {d : Disk} {fat : Fat}

/-! ## 1. Requests -/

/-- The sector and the count of every read. -/
def requests : List Event → List (Nat × Nat)
  | [] => []
  | .kmalloc _ _ :: log => requests log
  | .kfree _ :: log => requests log
  | .read _ lba count :: log => (lba, count) :: requests log

/-- The first sector behind the FATs. -/
def Bpb.dataStart (bpb : Bpb) : Nat :=
  bpb.reservedSectors.toNat + bpb.numFats.toNat * bpb.fatSize32.toNat

/-- Sectors of the FAT, or a whole cluster from number 2 on that lies inside the volume. -/
def Bpb.Allowed (bpb : Bpb) (r : Nat × Nat) : Prop :=
  (bpb.reservedSectors.toNat ≤ r.1 ∧ r.1 + r.2 ≤ bpb.dataStart) ∨
  ∃ c ≥ 2, r = (bpb.dataStart + (c - 2) * bpb.sectorsPerCluster.toNat,
      bpb.sectorsPerCluster.toNat) ∧ r.1 + r.2 ≤ bpb.totalSectors32.toNat

/-- What `read_cluster` and `get_next_cluster` ask for. -/
def clusterRequest (fat : Fat) (c : Nat) : Nat × Nat :=
  (clusterLba fat c, fat.sectorsPerCluster.toNat)

def fatRequest (fat : Fat) (c : Nat) : Nat × Nat := (fatSector fat c, 1)

theorem requests_readCluster (env : FatEnv σ) (fat : Fat) (c : Nat) (b : Buf)
    (t : σ × List Event) :
    requests (readCluster (logged env) fat c b t).2.2.2
      = clusterRequest fat c :: requests t.2 := by
  unfold readCluster
  rw [lba_eq]
  rfl

theorem requests_getNextCluster (env : FatEnv σ) (fat : Fat) (c : Nat) (t : σ × List Event) :
    requests (getNextCluster (logged env) fat c t).2.2 = fatRequest fat c :: requests t.2 := by
  rw [getNextCluster_eq]
  rfl

/-- The heap is not asked for sectors. -/
theorem requests_heapCalls {t t' : σ × List Event} (h : HeapCalls (logged env) t t') :
    requests t'.2 = requests t.2 := by
  induction h with
  | refl => rfl
  | kmalloc n _ ih => exact ih
  | kfree a _ ih => exact ih

/-- A lookup follows the FAT, or it fails and the number is no cluster. -/
theorem getNextCluster_cases (hd : Reliable env d) (h512 : fat.bytesPerSector = 512) (c : Nat)
    (s : σ) : (getNextCluster env fat c s).1 = fatEntry d fat c ∨
      endOfChain ≤ (getNextCluster env fat c s).1 := by
  cases hok : (fatRead env fat c s).1 with
  | true => exact Or.inl (getNextCluster_reliable hd h512 hok)
  | false =>
    right
    rw [getNextCluster_eq, hok, if_pos rfl]
    show endOfChain ≤ 0x0FFFFFFF
    decide

theorem Reliable.logged (hd : Reliable env d) : Reliable (logged env) d :=
  fun lba count buffer s hok => hd lba count buffer s.1 hok

theorem Serves.logged (hd : Serves env d) : Serves (logged env) d :=
  fun lba count buffer s => hd lba count buffer s.1

/-- The request has been made, whatever is held. -/
def Asked (q : Nat × Nat) (_ : List (Nat × Nat)) (t : σ × List Event) : Prop := q ∈ requests t.2

/-- What has been asked for stays in the log. -/
theorem asked_contract (env : FatEnv σ) (q : Nat × Nat) : Contract (logged env) (Asked q) where
  kmalloc := fun h _ _ => h
  failed := fun h _ _ _ => h
  kfree := fun h _ => h
  kfreeTwice := fun h _ => h
  read := fun h _ _ => List.mem_cons_of_mem _ h

/-! ## 2. `fat32_read` -/

theorem reaches_add {c j k : Nat} : Reaches d fat c (j + k) ↔
    Reaches d fat c j ∧ Reaches d fat (walk d fat c j) k := by
  induction j generalizing c with
  | zero =>
    rw [Nat.zero_add]
    exact ⟨fun h => ⟨trivial, h⟩, fun h => h.2⟩
  | succ j ih =>
    rw [Nat.succ_add, Reaches, ih, Reaches, and_assoc]
    rfl

theorem walk_add (d : Disk) (fat : Fat) (c j k : Nat) :
    walk d fat c (j + k) = walk d fat (walk d fat c j) k := by
  rw [walk, Nat.add_comm, Function.iterate_add_apply]
  rfl

section Asks

variable {P : Nat × Nat → Prop} {t t' : σ × List Event}

/-- A cluster that is read, and an entry of the FAT that is looked up, are added to what has been
asked for. -/
theorem readCluster_asks {c : Nat} {b : Buf} (hc : P (clusterRequest fat c))
    (hlog : ∀ q ∈ requests t.2, P q) :
    ∀ q ∈ requests (readCluster (logged env) fat c b t).2.2.2, P q := by
  rw [requests_readCluster]
  exact List.forall_mem_cons.mpr ⟨hc, hlog⟩

theorem getNextCluster_asks {c : Nat} (hc : P (fatRequest fat c))
    (hlog : ∀ q ∈ requests t.2, P q) :
    ∀ q ∈ requests (getNextCluster (logged env) fat c t).2.2, P q := by
  rw [requests_getNextCluster]
  exact List.forall_mem_cons.mpr ⟨hc, hlog⟩

/-- The skipping loop looks up the clusters before the one it stops at. -/
theorem skipClusters_asks (hd : Reliable env d) (h512 : fat.bytesPerSector = 512)
    (hpos : 0 < fat.clusterSize) {fuel c offset : Nat} {r : Option (Nat × Nat)}
    (hP : ∀ j < offset / fat.clusterSize, Reaches d fat c j → P (fatRequest fat (walk d fat c j)))
    (hlog : ∀ q ∈ requests t.2, P q)
    (hrun : skipClusters (logged env) fat fuel c offset t = some (r, t')) :
    (∀ q ∈ requests t'.2, P q) ∧ ∀ c' o, r = some (c', o) →
      Reaches d fat c (offset / fat.clusterSize) ∧
        c' = walk d fat c (offset / fat.clusterSize) ∧ o = offset % fat.clusterSize := by
  induction fuel generalizing c offset t with
  | zero => cases hrun
  | succ fuel ih =>
    rw [skipClusters] at hrun
    dsimp only at hrun
    by_cases ho : fat.clusterSize ≤ offset
    · rw [if_pos ho] at hrun
      rw [Nat.div_eq_sub_div hpos ho] at hP ⊢
      rw [Nat.mod_eq_sub_mod ho]
      have hnext : ∀ q ∈ requests (getNextCluster (logged env) fat c t).2.2, P q :=
        getNextCluster_asks (hP 0 (Nat.succ_pos _) trivial) hlog
      by_cases hend : endOfChain ≤ (getNextCluster (logged env) fat c t).1
      · rw [if_pos hend] at hrun
        cases hrun
        exact ⟨hnext, fun _ _ h => by cases h⟩
      · rw [if_neg hend] at hrun
        have hentry := (getNextCluster_cases hd.logged h512 c t).resolve_right hend
        rw [hentry] at hend hrun
        have hlt : fatEntry d fat c < endOfChain := by omega
        obtain ⟨hlog', hfound⟩ := ih
          (fun j hj hreach => hP (j + 1) (Nat.succ_lt_succ hj) ⟨hlt, hreach⟩) hnext hrun
        refine ⟨hlog', fun c' o h => ?_⟩
        obtain ⟨hreach, hc', ho'⟩ := hfound c' o h
        exact ⟨⟨hlt, hreach⟩, hc', ho'⟩
    · rw [if_neg ho] at hrun
      cases hrun
      refine ⟨hlog, fun c' o h => ?_⟩
      cases h
      rw [Nat.div_eq_of_lt (by omega), Nat.mod_eq_of_lt (by omega)]
      exact ⟨trivial, rfl, rfl⟩

/-- A round of the copying loop, as far as it matters for what comes next. -/
theorem copyClusters_next (env : FatEnv σ) (hB : fat.clusterSize < 2 ^ 32) {offset size : Nat}
    (hoffset : offset < fat.clusterSize) (hsize : 0 < size) (fuel c readSize : Nat) (b : Buf)
    (buffer : Mem) (s : σ) {rc : Bool × Buf × σ} (hrc : readCluster env fat c b s = rc) :
    ∃ readSize' buffer',
      copyClusters env fat (fuel + 1) c offset size readSize b buffer s =
        if rc.1 = false then some (readSize, buffer, rc.2.2)
        else if offset + size ≤ fat.clusterSize then
          copyClusters env fat fuel c 0 0 readSize' rc.2.1 buffer' rc.2.2
        else if endOfChain ≤ (getNextCluster env fat c rc.2.2).1 then
          some (readSize', buffer', (getNextCluster env fat c rc.2.2).2)
        else copyClusters env fat fuel (getNextCluster env fat c rc.2.2).1 0
          (offset + size - fat.clusterSize) readSize' rc.2.1 buffer'
          (getNextCluster env fat c rc.2.2).2 := by
  rw [copyClusters, if_pos hsize]
  dsimp only
  rw [hrc, sub32_of_le hoffset.le hB]
  by_cases hlast : offset + size ≤ fat.clusterSize
  · have hchunk : (if size < fat.clusterSize - offset then size else fat.clusterSize - offset)
        = size := by
      split <;> omega
    rw [hchunk, Nat.sub_self, if_neg (Nat.lt_irrefl 0)]
    simp only [if_pos hlast]
    exact ⟨_, _, rfl⟩
  · have hchunk : (if size < fat.clusterSize - offset then size else fat.clusterSize - offset)
        = fat.clusterSize - offset := if_neg (by omega)
    have hleft : size - (fat.clusterSize - offset) = offset + size - fat.clusterSize := by omega
    have hmore : 0 < offset + size - fat.clusterSize := by omega
    rw [hchunk, hleft, if_pos hmore]
    simp only [if_neg hlast]
    exact ⟨_, _, rfl⟩

/-- What is left to copy behind the first cluster, counted in clusters. -/
theorem left_div {B offset size : Nat} (hB : 0 < B) (hmore : ¬offset + size ≤ B) :
    (offset + size - 1) / B = (0 + (offset + size - B) - 1) / B + 1 := by
  rw [Nat.div_eq_sub_div hB (by omega)]
  congr 2
  omega

/-- The copying loop reads the clusters of the bytes asked for, and looks up all but the last. -/
theorem copyClusters_asks (hd : Reliable env d) (h512 : fat.bytesPerSector = 512)
    (hspc : fat.sectorsPerCluster ≠ 0) {fuel c offset size readSize : Nat} {b : Buf}
    {buffer buffer' : Mem} {r : Nat} (hoffset : offset < fat.clusterSize)
    (hV : ∀ j, 0 < size → j ≤ (offset + size - 1) / fat.clusterSize → Reaches d fat c j →
      P (clusterRequest fat (walk d fat c j)))
    (hL : ∀ j, 0 < size → j < (offset + size - 1) / fat.clusterSize → Reaches d fat c j →
      P (fatRequest fat (walk d fat c j)))
    (hlog : ∀ q ∈ requests t.2, P q)
    (hrun : copyClusters (logged env) fat fuel c offset size readSize b buffer t
      = some (r, buffer', t')) : ∀ q ∈ requests t'.2, P q := by
  obtain ⟨hpos, hB⟩ := clusterSize_bounds h512 hspc
  induction fuel generalizing c offset size readSize b buffer t with
  | zero => cases hrun
  | succ fuel ih =>
    by_cases hsize : 0 < size
    swap
    · rw [copyClusters, if_neg hsize] at hrun
      cases hrun
      exact hlog
    have hread : ∀ q ∈ requests (readCluster (logged env) fat c b t).2.2.2, P q :=
      readCluster_asks (hV 0 hsize (Nat.zero_le _) trivial) hlog
    obtain ⟨readSize', buffer₁, hround⟩ := copyClusters_next (logged env) hB hoffset hsize fuel c
      readSize b buffer t rfl
    rw [hround] at hrun
    generalize readCluster (logged env) fat c b t = rc at hread hrun
    split at hrun
    · cases hrun
      exact hread
    · split at hrun
      · exact ih hpos (fun j h => absurd h (Nat.lt_irrefl 0))
          (fun j h => absurd h (Nat.lt_irrefl 0)) hread hrun
      · rename_i hmore
        rw [left_div hpos hmore] at hV hL
        have hnext : ∀ q ∈ requests (getNextCluster (logged env) fat c rc.2.2).2.2, P q :=
          getNextCluster_asks (hL 0 hsize (Nat.succ_pos _) trivial) hread
        split at hrun
        · cases hrun
          exact hnext
        · rename_i hend
          have hentry := (getNextCluster_cases hd.logged h512 c rc.2.2).resolve_right hend
          rw [hentry] at hend hrun
          have hlt : fatEntry d fat c < endOfChain := by omega
          refine ih hpos ?_ ?_ hnext hrun
          · exact fun j _ hj hreach => hV (j + 1) hsize (Nat.succ_le_succ hj) ⟨hlt, hreach⟩
          · exact fun j _ hj hreach => hL (j + 1) hsize (Nat.succ_lt_succ hj) ⟨hlt, hreach⟩

/-- With sectors to be had, it does look up all of them. -/
theorem skipClusters_asked (hd : Serves env d) (h512 : fat.bytesPerSector = 512)
    (hpos : 0 < fat.clusterSize) {fuel c offset j : Nat} {r : Option (Nat × Nat)}
    (hj : j < offset / fat.clusterSize) (hreach : Reaches d fat c j)
    (hrun : skipClusters (logged env) fat fuel c offset t = some (r, t')) :
    Asked (fatRequest fat (walk d fat c j)) [] t' := by
  induction fuel generalizing c offset j t with
  | zero => cases hrun
  | succ fuel ih =>
    have ho : fat.clusterSize ≤ offset := by
      by_contra hlt
      rw [Nat.div_eq_of_lt (by omega)] at hj
      omega
    rw [Nat.div_eq_sub_div hpos ho] at hj
    rw [skipClusters, if_pos ho] at hrun
    dsimp only at hrun
    rw [getNextCluster_serves hd.logged h512] at hrun
    cases j with
    | zero =>
      have hnext : Asked (fatRequest fat c) [] (getNextCluster (logged env) fat c t).2 := by
        rw [Asked, requests_getNextCluster]
        exact List.mem_cons_self
      split at hrun
      · cases hrun
        exact hnext
      · exact skipClusters_keeps (asked_contract env _) hnext hrun
    | succ j =>
      obtain ⟨hlt, hreach⟩ := hreach
      rw [if_neg (by omega)] at hrun
      show Asked (fatRequest fat (walk d fat (fatEntry d fat c) j)) [] t'
      exact ih (by omega) hreach hrun

/-- With sectors to be had, the copying loop does read all of its clusters. -/
theorem copyClusters_asked (hd : Serves env d) (h512 : fat.bytesPerSector = 512)
    (hspc : fat.sectorsPerCluster ≠ 0) {fuel c offset size readSize j : Nat} {b : Buf}
    {buffer buffer' : Mem} {r : Nat} (hoffset : offset < fat.clusterSize) (hsize : 0 < size)
    (hj : j ≤ (offset + size - 1) / fat.clusterSize) (hreach : Reaches d fat c j)
    (hrun : copyClusters (logged env) fat fuel c offset size readSize b buffer t
      = some (r, buffer', t')) :
    Asked (clusterRequest fat (walk d fat c j)) [] t' ∧
      (j < (offset + size - 1) / fat.clusterSize →
        Asked (fatRequest fat (walk d fat c j)) [] t') := by
  obtain ⟨hpos, hB⟩ := clusterSize_bounds h512 hspc
  have hroom : fat.Roomy := (clusterSize_eq h512).ge
  induction fuel generalizing c offset size readSize b buffer t j with
  | zero => cases hrun
  | succ fuel ih =>
    obtain ⟨readSize', buffer₁, hround⟩ := copyClusters_next (logged env) hB hoffset hsize fuel c
      readSize b buffer t rfl
    have hread := requests_readCluster env fat c b t
    rw [hround, (readCluster_serves hd.logged c b t).1, if_neg (by decide)] at hrun
    generalize readCluster (logged env) fat c b t = rc at hread hrun
    -- what this round has asked for is kept by the rest of the loop
    have hkeep : ∀ {q c' size'} {t₁ : σ × List Event}, q ∈ requests t₁.2 →
        copyClusters (logged env) fat fuel c' 0 size' readSize' rc.2.1 buffer₁ t₁
          = some (r, buffer', t') → Asked q [] t' := by
      intro q c' size' t₁ hq hrest
      have hin : Asked q [(rc.2.1.addr, fat.clusterSize)] t₁ := hq
      have hout : Asked q [(rc.2.1.addr, fat.clusterSize)] t' :=
        copyClusters_keeps (asked_contract env q) hroom hin List.mem_cons_self hrest
      exact hout
    split at hrun
    · rename_i hlast
      have hzero : (offset + size - 1) / fat.clusterSize = 0 := Nat.div_eq_of_lt (by omega)
      rw [hzero] at hj ⊢
      obtain rfl := Nat.le_zero.mp hj
      refine ⟨hkeep ?_ hrun, fun h => absurd h (Nat.lt_irrefl 0)⟩
      rw [hread]
      exact List.mem_cons_self
    · rename_i hmore
      rw [left_div hpos hmore] at hj ⊢
      rw [getNextCluster_serves hd.logged h512] at hrun
      have hnext := requests_getNextCluster env fat c rc.2.2
      rw [hread] at hnext
      cases j with
      | zero =>
        have hvisit : clusterRequest fat c
            ∈ requests (getNextCluster (logged env) fat c rc.2.2).2.2 := by simp [hnext]
        have hlookup : fatRequest fat c
            ∈ requests (getNextCluster (logged env) fat c rc.2.2).2.2 := by simp [hnext]
        split at hrun
        · cases hrun
          exact ⟨hvisit, fun _ => hlookup⟩
        · exact ⟨hkeep hvisit hrun, fun _ => hkeep hlookup hrun⟩
      | succ j =>
        obtain ⟨hlt, hreach⟩ := hreach
        rw [if_neg (by omega)] at hrun
        obtain ⟨hvisit, hlookup⟩ :=
          ih hpos (by omega) (Nat.le_of_succ_le_succ hj) hreach hrun
        exact ⟨hvisit, fun h => hlookup (Nat.lt_of_succ_lt_succ h)⟩

/-! ## 3. The directories -/

/-- **A directory loop reads the clusters it gets to**, and looks up those that do not stop it. -/
theorem DirLoop.asks {χ α ρ : Type}
    {run : Nat → χ → Buf → σ × List Event → Option (ρ × σ × List Event)} {place : χ → α}
    {cluster : α → Nat} {next : α → α} {Stops : α → Prop} {Ok : χ → Prop}
    (h : DirLoop (logged env) d fat run place cluster next Stops Ok) (hd : Reliable env d)
    (h512 : fat.bytesPerSector = 512) {n : Nat} {x : χ} (hx : Ok x) {b : Buf} {r : ρ}
    (hP : ∀ k, Loop.Gets next Stops (place x) k →
      (cluster (next^[k] (place x)) < endOfChain →
        P (clusterRequest fat (cluster (next^[k] (place x))))) ∧
      (¬Stops (next^[k] (place x)) → P (fatRequest fat (cluster (next^[k] (place x))))))
    (hlog : ∀ q ∈ requests t.2, P q) (hrun : run n x b t = some (r, t')) :
    ∀ q ∈ requests t'.2, P q := by
  refine @Loop.gets_rule α (χ × Buf × σ × List Event) _ next Stops
    (fun n y => run n y.1 y.2.1 y.2.2) (fun y => Ok y.1 ∧ ∀ q ∈ requests y.2.2.2, P q)
    (fun r => ∀ q ∈ requests r.2.2, P q) (fun y => place y.1)
    (fun p => (cluster p < endOfChain → P (clusterRequest fat (cluster p))) ∧
      (¬Stops p → P (fatRequest fat (cluster p))))
    (fun y => h.zero _ _ _) ?_ n (x, b, t) (r, t') ⟨hx, hlog⟩ hP hrun
  rintro n ⟨x, b, t⟩ r₁ ⟨hx, hlog⟩ ⟨hvisit, hlookup⟩ hrun
  dsimp only at hx hlog hvisit hlookup hrun
  -- a round that returns has called the heap only, after what `t₁` has asked for
  have hreturns : ∀ {t₁ : σ × List Event}, (∀ q ∈ requests t₁.2, P q) →
      (∃ r t₂, run (n + 1) x b t = some (r, t₂) ∧ HeapCalls (logged env) t₁ t₂) →
      ∀ q ∈ requests r₁.2.2, P q := by
    rintro t₁ hlog₁ ⟨r, t₂, hround, hcalls⟩
    obtain rfl := Option.some.inj (hrun.symm.trans hround)
    rw [requests_heapCalls hcalls]
    exact hlog₁
  by_cases hc : cluster (place x) < endOfChain
  swap
  · exact Or.inl (hreturns hlog (h.past n x b t hc))
  have hread : ∀ q ∈ requests
      (readCluster (logged env) fat (cluster (place x)) b t).2.2.2, P q :=
    readCluster_asks (hvisit hc) hlog
  cases hok : (readCluster (logged env) fat (cluster (place x)) b t).1 with
  | false => exact Or.inl (hreturns hread (h.failed n x b t hc hok))
  | true =>
    by_cases hgo : Stops (place x)
    · exact Or.inl (hreturns hread (h.ends n x b t hx hc hok hgo))
    · obtain ⟨x', hx', hcluster, hplace, hround⟩ := h.goes x b t _ hx rfl hok hgo
      rw [hround] at hrun
      generalize readCluster (logged env) fat (cluster (place x)) b t = rc at *
      have hnext : ∀ q ∈ requests
          (getNextCluster (logged env) fat (cluster (place x)) rc.2.2).2.2, P q :=
        getNextCluster_asks (hlookup hgo) hread
      rcases getNextCluster_cases hd.logged h512 (cluster (place x)) rc.2.2 with hentry | hover
      · exact Or.inr ⟨hgo, (x', rc.2.1, _), ⟨hx', hnext⟩, hplace hentry, hrun⟩
      · -- the lookup has failed, and the loop ends with the next test
        left
        cases n with
        | zero =>
          rw [h.zero] at hrun
          cases hrun
        | succ n =>
          obtain ⟨r, t₂, hlast, hcalls⟩ := h.past n x' rc.2.1
            (getNextCluster (logged env) fat (cluster (place x)) rc.2.2).2 (by omega)
          obtain rfl := Option.some.inj (hrun.symm.trans hlast)
          rw [requests_heapCalls hcalls]
          exact hnext

end Asks

/-! ### Reads that fail after a while -/

/-- A machine whose first reads succeed, as many as its state says, and no others. -/
def flakyEnv (d : Disk) : FatEnv Nat where
  kmalloc := fun _ n => (⟨0xC0001010, fun _ => 0⟩, n)
  kfree := fun _ n => n
  ataReadSectors := fun _ lba count buffer n => (n != 0, d.fill lba count buffer.bytes, n - 1)

theorem flakyEnv_reliable (d : Disk) : Reliable (flakyEnv d) d := fun _ _ _ _ _ => rfl

section Flaky

variable (d) (fat) (c : Nat) (b : Buf) (t : Nat × List Event)

theorem readCluster_flaky :
    (readCluster (logged (flakyEnv d)) fat c b t).1 = (t.1 != 0) ∧
      (readCluster (logged (flakyEnv d)) fat c b t).2.2.1 = t.1 - 1 := ⟨rfl, rfl⟩

theorem fatRead_flaky :
    (fatRead (logged (flakyEnv d)) fat c t).1 = (t.1 != 0) ∧
      (getNextCluster (logged (flakyEnv d)) fat c t).2.1 = t.1 - 1 := by
  refine ⟨rfl, ?_⟩
  rw [getNextCluster_eq]
  rfl

variable {d fat c b t}

/-- Two reads take a directory loop to the next cluster. -/
theorem flaky_two (h512 : fat.bytesPerSector = 512) {m : Nat} (hm : t.1 = m + 2)
    {rc : Bool × Buf × Nat × List Event}
    (hrc : readCluster (logged (flakyEnv d)) fat c b t = rc) : rc.1 = true ∧
    (getNextCluster (logged (flakyEnv d)) fat c rc.2.2).1 = fatEntry d fat c ∧
    (getNextCluster (logged (flakyEnv d)) fat c rc.2.2).2.1 = m := by
  have hread := readCluster_flaky d fat c b t
  rw [hrc, hm] at hread
  have hleft := fatRead_flaky d fat c rc.2.2
  rw [hread.2] at hleft
  exact ⟨hread.1, getNextCluster_reliable (flakyEnv_reliable d).logged h512 hleft.1, hleft.2⟩

theorem flaky_zero (hzero : t.1 = 0) : (readCluster (logged (flakyEnv d)) fat c b t).1 = false := by
  rw [(readCluster_flaky d fat c b t).1, hzero]
  rfl

/-- With the last of them the lookup fails. -/
theorem flaky_one {rc : Bool × Buf × Nat × List Event} (hone : t.1 = 1)
    (hrc : readCluster (logged (flakyEnv d)) fat c b t = rc) : rc.1 = true ∧
    endOfChain ≤ (getNextCluster (logged (flakyEnv d)) fat c rc.2.2).1 := by
  have hread := readCluster_flaky d fat c b t
  rw [hrc, hone] at hread
  have hfail : (fatRead (logged (flakyEnv d)) fat c rc.2.2).1 = false := by
    rw [(fatRead_flaky d fat c rc.2.2).1, hread.2]
    rfl
  refine ⟨hread.1, ?_⟩
  rw [getNextCluster_eq, hfail, if_pos rfl]
  show endOfChain ≤ 0x0FFFFFFF
  decide

end Flaky

/-- **Every cluster on the way of a directory loop is read in some run**, and every one that does
not stop it is looked up. -/
theorem DirLoop.asked {χ α ρ : Type}
    {run : Nat → χ → Buf → Nat × List Event → Option (ρ × Nat × List Event)} {place : χ → α}
    {cluster : α → Nat} {next : α → α} {Stops : α → Prop} {Ok : χ → Prop}
    (h : DirLoop (logged (flakyEnv d)) d fat run place cluster next Stops Ok)
    (h512 : fat.bytesPerSector = 512) {x : χ} (hx : Ok x) {k : Nat}
    (hgets : Loop.Gets next Stops (place x) k) (b : Buf) (log : List Event) :
    (cluster (next^[k] (place x)) < endOfChain → ∃ n m r t', run n x b (m, log) = some (r, t') ∧
      clusterRequest fat (cluster (next^[k] (place x))) ∈ requests t'.2) ∧
    (¬Stops (next^[k] (place x)) → ∃ n m r t', run n x b (m, log) = some (r, t') ∧
      fatRequest fat (cluster (next^[k] (place x))) ∈ requests t'.2) := by
  -- with two reads for each round, and `left` more
  have hway : ∀ left, ∃ x' b' t₁, Ok x' ∧ place x' = next^[k] (place x) ∧ t₁.1 = left ∧
      ∀ n, run (n + k) x b (2 * k + left, log) = run n x' b' t₁ := by
    intro left
    obtain ⟨⟨x', b', t₁⟩, ⟨hx', hleft⟩, hplace, heq⟩ := @Loop.gets_run α
      (χ × Buf × Nat × List Event) _ next Stops (fun n y => run n y.1 y.2.1 y.2.2)
      (fun k y => Ok y.1 ∧ y.2.2.1 = 2 * k + left) (fun y => place y.1) (by
        rintro k ⟨x, b, t⟩ ⟨hx, hm⟩ hgo
        obtain ⟨hok, hentry, hm'⟩ := @flaky_two d fat (cluster (place x)) b t h512 (2 * k + left)
          (by dsimp only at hm; omega) _ rfl
        obtain ⟨x', hx', -, hplace, hround⟩ := h.goes x b t _ hx rfl hok hgo
        exact ⟨(x', _, _), ⟨hx', hm'⟩, hplace hentry, hround⟩)
      k (x, b, (2 * k + left, log)) ⟨hx, rfl⟩ hgets
    dsimp only at hplace hleft heq hx'
    exact ⟨x', b', t₁, hx', hplace, by omega, heq⟩
  refine ⟨fun hc => ?_, fun hgo => ?_⟩
  · obtain ⟨x', b', t₁, -, hplace, hleft, heq⟩ := hway 0
    rw [← hplace] at hc ⊢
    obtain ⟨r, t', hrun, hcalls⟩ := h.failed 0 x' b' t₁ hc (flaky_zero hleft)
    refine ⟨0 + 1 + k, 2 * k + 0, r, t', (heq _).trans hrun, ?_⟩
    rw [requests_heapCalls hcalls, requests_readCluster]
    exact List.mem_cons_self
  · obtain ⟨x', b', t₁, hx', hplace, hleft, heq⟩ := hway 1
    rw [← hplace] at hgo ⊢
    obtain ⟨hok, hover⟩ := @flaky_one d fat (cluster (place x')) b' t₁ _ hleft rfl
    obtain ⟨x₂, -, hcluster, -, hround⟩ := h.goes x' b' t₁ _ hx' rfl hok hgo
    generalize readCluster (logged (flakyEnv d)) fat (cluster (place x')) b' t₁ = rc at *
    obtain ⟨r, t', hrun, hcalls⟩ := h.past 0 x₂ rc.2.1
      (getNextCluster (logged (flakyEnv d)) fat (cluster (place x')) rc.2.2).2 (by omega)
    refine ⟨0 + 1 + 1 + k, 2 * k + 1, r, t', ((heq _).trans (hround _)).trans hrun, ?_⟩
    rw [requests_heapCalls hcalls, requests_getNextCluster]
    exact List.mem_cons_self

/-! ## 4. The calls -/

/-- Where a call starts. -/
def Call.inode : Call → Nat
  | .read inode _ _ _ => inode
  | .readdir inode _ => inode
  | .finddir inode _ _ => inode

/-- The arguments are `uint32_t`s. -/
def Call.Typed : Call → Prop
  | .read inode offset size _ => inode < 2 ^ 32 ∧ offset < 2 ^ 32 ∧ size < 2 ^ 32
  | .readdir inode index => inode < 2 ^ 32 ∧ index < 2 ^ 32
  | .finddir inode _ _ => inode < 2 ^ 32

/-- The call reads cluster number `k` of its way. -/
def Call.Visits (d : Disk) (fat : Fat) : Call → Nat → Prop
  | .read inode offset size _, k =>
    0 < size ∧ offset / fat.clusterSize ≤ k ∧ k ≤ (offset + size - 1) / fat.clusterSize ∧
      Reaches d fat inode k
  | .readdir inode index, k =>
    (∀ j < k, ¬ReaddirStops d fat index (walk d fat inode j, seen d fat inode j)) ∧
      walk d fat inode k < endOfChain
  | .finddir inode name _, k =>
    (∀ j < k, ¬FinddirStops d fat name (walk d fat inode j)) ∧ walk d fat inode k < endOfChain

/-- The call looks up the successor of cluster number `k` of its way. -/
def Call.LooksUp (d : Disk) (fat : Fat) : Call → Nat → Prop
  | .read inode offset size _, k =>
    (k < offset / fat.clusterSize ∨ 0 < size ∧ k < (offset + size - 1) / fat.clusterSize) ∧
      Reaches d fat inode k
  | .readdir inode index, k =>
    ∀ j ≤ k, ¬ReaddirStops d fat index (walk d fat inode j, seen d fat inode j)
  | .finddir inode name _, k => ∀ j ≤ k, ¬FinddirStops d fat name (walk d fat inode j)

/-- Some run of the call asks for this, on a disk with these contents whose reads may fail. -/
def Call.Asks (d : Disk) (fat : Fat) (call : Call) (q : Nat × Nat) : Prop :=
  ∃ (σ : Type) (env : FatEnv σ) (fuel : Nat) (s : σ) (o : Outcome) (s' : σ) (log : List Event),
    Reliable env d ∧ call.run (logged env) fat fuel (s, []) = some (o, s', log) ∧ q ∈ requests log

/-- The cluster of the last byte asked for. -/
theorem end_div {B offset size : Nat} (hB : 0 < B) (hsize : 0 < size) :
    (offset + size - 1) / B = offset / B + (offset % B + size - 1) / B := by
  have hsplit : offset + size - 1 = offset % B + size - 1 + B * (offset / B) := by
    have := Nat.mod_add_div offset B
    omega
  rw [hsplit, Nat.add_mul_div_left _ _ hB, Nat.add_comm]

theorem readdirPlace (d : Disk) (fat : Fat) (inode k : Nat) :
    (readdirNext d fat)^[k] (inode, 0) = (walk d fat inode k, seen d fat inode k) := by
  rw [readdirNext_iterate, Nat.zero_add]

/-- A call asks for nothing else. -/
theorem Call.run_asks (hd : Reliable env d) (h512 : fat.bytesPerSector = 512)
    (hspc : fat.sectorsPerCluster ≠ 0) {call : Call} (htyped : call.Typed) {P : Nat × Nat → Prop}
    (hV : ∀ k, call.Visits d fat k → P (clusterRequest fat (walk d fat call.inode k)))
    (hL : ∀ k, call.LooksUp d fat k → P (fatRequest fat (walk d fat call.inode k)))
    {fuel : Nat} {s : σ} {o : Outcome} {t' : σ × List Event}
    (hrun : call.run (logged env) fat fuel (s, []) = some (o, t')) :
    ∀ q ∈ requests t'.2, P q := by
  obtain ⟨hpos, hB⟩ := clusterSize_bounds h512 hspc
  have hnil : ∀ q ∈ requests [], P q := fun q hq => absurd hq List.not_mem_nil
  cases call with
  | read inode offset size buffer =>
    obtain ⟨⟨r, buffer', t⟩, heq, hret⟩ := Option.map_eq_some_iff.mp hrun
    cases hret
    have hskips : ∀ j < offset / fat.clusterSize, Reaches d fat inode j →
        P (fatRequest fat (walk d fat inode j)) := fun j hj hreach => hL j ⟨Or.inl hj, hreach⟩
    rcases fat32Read_cases heq with hskip | ⟨c, o, s₁, s₂, hskip, hcopy, rfl⟩
    · exact (skipClusters_asks hd h512 hpos hskips hnil hskip).1
    · obtain ⟨hlog, hfound⟩ := skipClusters_asks hd h512 hpos hskips hnil hskip
      obtain ⟨hreach, rfl, rfl⟩ := hfound c o rfl
      have hlog' : ∀ q ∈ requests ((logged env).kmalloc fat.clusterSize s₁).2.2, P q := hlog
      have hdone : ∀ q ∈ requests s₂.2, P q := by
        refine copyClusters_asks hd h512 hspc (Nat.mod_lt _ hpos) ?_ ?_ hlog' hcopy
        · intro j hsize hj hreach'
          have hend := @end_div fat.clusterSize offset size hpos hsize
          rw [← walk_add]
          exact hV _ ⟨hsize, Nat.le_add_right _ _, by omega, reaches_add.mpr ⟨hreach, hreach'⟩⟩
        · intro j hsize hj hreach'
          have hend := @end_div fat.clusterSize offset size hpos hsize
          rw [← walk_add]
          exact hL _ ⟨Or.inr ⟨hsize, by omega⟩, reaches_add.mpr ⟨hreach, hreach'⟩⟩
      exact hdone
  | readdir inode index =>
    obtain ⟨⟨r, t⟩, heq, hret⟩ := Option.map_eq_some_iff.mp hrun
    cases hret
    unfold fat32Readdir at heq
    dsimp only at heq
    split at heq
    · cases heq
      exact hnil
    · refine (readdir_loop hd.logged h512 htyped.2).asks hd h512 (x := (inode, 0))
        (Nat.zero_le index) ?_ hnil heq
      intro k hgets
      unfold Loop.Gets at hgets
      simp only [id, readdirPlace] at hgets ⊢
      refine ⟨fun hc => hV k ⟨hgets, hc⟩, fun hgo => hL k ?_⟩
      intro j hj
      rcases Nat.lt_or_eq_of_le hj with hlt | rfl
      · exact hgets j hlt
      · exact hgo
  | finddir inode name entryName =>
    obtain ⟨⟨r, t⟩, heq, hret⟩ := Option.map_eq_some_iff.mp hrun
    cases hret
    refine (finddir_loop hd.logged h512 name).asks hd h512 (x := (inode, entryName)) trivial ?_ hnil
      heq
    intro k hgets
    refine ⟨fun hc => hV k ⟨hgets, hc⟩, fun hgo => hL k ?_⟩
    intro j hj
    rcases Nat.lt_or_eq_of_le hj with hlt | rfl
    · exact hgets j hlt
    · exact hgo

/-- With sectors to be had, `fat32_read` asks for all of it. -/
theorem read_asked (h512 : fat.bytesPerSector = 512) (hspc : fat.sectorsPerCluster ≠ 0)
    {inode offset size : Nat} (hsize : size < 2 ^ 32) (buffer : Mem) (k : Nat) :
    ((Call.read inode offset size buffer).Visits d fat k →
      (Call.read inode offset size buffer).Asks d fat (clusterRequest fat (walk d fat inode k))) ∧
    ((Call.read inode offset size buffer).LooksUp d fat k →
      (Call.read inode offset size buffer).Asks d fat (fatRequest fat (walk d fat inode k))) := by
  obtain ⟨hpos, hB⟩ := clusterSize_bounds h512 hspc
  have hd : Serves (readyEnv d) d := fun _ _ _ _ => ⟨rfl, rfl⟩
  have hroom : fat.Roomy := (clusterSize_eq h512).ge
  obtain ⟨r, -, data, ⟨s', log⟩, -, hret⟩ :=
    fat32Read_bounded (logged (readyEnv d)) fat h512 hspc inode offset size hsize ((), [])
  obtain ⟨buffer', heq, -, -⟩ := hret buffer
  have hasks : ∀ {q}, q ∈ requests log → (Call.read inode offset size buffer).Asks d fat q := by
    intro q hq
    refine ⟨Unit, readyEnv d, 0, (), .count r buffer', s', log, hd.reliable, ?_, hq⟩
    rw [Call.run, heq]
    rfl
  -- behind the cluster of `offset` it is the second loop that asks
  have hbehind : ∀ {j}, offset / fat.clusterSize ≤ j → Reaches d fat inode j → 0 < size →
      j ≤ (offset + size - 1) / fat.clusterSize →
      clusterRequest fat (walk d fat inode j) ∈ requests log ∧
        (j < (offset + size - 1) / fat.clusterSize →
          fatRequest fat (walk d fat inode j) ∈ requests log) := by
    intro j hle hreach hsize' hj
    obtain ⟨i, rfl⟩ := Nat.exists_eq_add_of_le hle
    obtain ⟨hreach, hreach'⟩ := reaches_add.mp hreach
    rw [walk_add, end_div hpos hsize'] at *
    rcases fat32Read_cases heq with hskip | ⟨c, o, s₁, ⟨s₂, log₂⟩, hskip, hcopy, hs'⟩
    · obtain ⟨s₀, ⟨-, c₀, hfound⟩ | ⟨hno, -⟩⟩ := @skipClusters_reaches _ _ _ _ hd.logged h512 hpos
        inode offset (offset + 1) (Nat.lt_succ_self offset) ((), [])
      · rw [hskip] at hfound
        cases hfound
      · exact absurd hreach hno
    · obtain ⟨-, rfl, rfl⟩ := (skipClusters_asks hd.reliable h512 hpos
        (fun _ _ _ => trivial) (fun _ _ => trivial) hskip).2 c o rfl
      obtain ⟨hvisit, hlookup⟩ := copyClusters_asked hd h512 hspc (Nat.mod_lt _ hpos) hsize'
        (Nat.le_of_add_le_add_left hj) hreach' hcopy
      cases hs'
      exact ⟨hvisit, fun h => hlookup (Nat.lt_of_add_lt_add_left h)⟩
  refine ⟨?_, ?_⟩
  · rintro ⟨hsize', hle, hk, hreach⟩
    exact hasks (hbehind hle hreach hsize' hk).1
  · rintro ⟨hk, hreach⟩
    rcases Nat.lt_or_ge k (offset / fat.clusterSize) with hlt | hge
    · -- before it the first one
      rcases fat32Read_cases heq with hskip | ⟨c, o, s₁, ⟨s₂, log₂⟩, hskip, hcopy, hs'⟩
      · exact hasks (skipClusters_asked hd h512 hpos hlt hreach hskip)
      · have hin := skipClusters_asked hd h512 hpos hlt hreach hskip
        have hbuffer : Asked (fatRequest fat (walk d fat inode k))
          [(((logged (readyEnv d)).kmalloc fat.clusterSize s₁).1.addr, fat.clusterSize)]
          ((logged (readyEnv d)).kmalloc fat.clusterSize s₁).2 := hin
        have hout := copyClusters_keeps (asked_contract (readyEnv d) _) hroom hbuffer
          List.mem_cons_self hcopy
        cases hs'
        exact hasks hout
    · rcases hk with hk | ⟨hsize', hk⟩
      · exact absurd hk (Nat.not_lt_of_le hge)
      · exact hasks ((hbehind hge hreach hsize' hk.le).2 hk)

/-- **What a call asks for.**  Exactly the clusters it visits and the entries of the FAT it looks
up, on the way that the FAT leads from its inode. -/
theorem Call.asks_iff (h512 : fat.bytesPerSector = 512) (hspc : fat.sectorsPerCluster ≠ 0)
    {call : Call} (htyped : call.Typed) (q : Nat × Nat) : call.Asks d fat q ↔
      (∃ k, call.Visits d fat k ∧ q = clusterRequest fat (walk d fat call.inode k)) ∨
      ∃ k, call.LooksUp d fat k ∧ q = fatRequest fat (walk d fat call.inode k) := by
  constructor
  · rintro ⟨σ, env, fuel, s, o, s', log, hd, hrun, hq⟩
    refine Call.run_asks (P := fun q =>
      (∃ k, call.Visits d fat k ∧ q = clusterRequest fat (walk d fat call.inode k)) ∨
      ∃ k, call.LooksUp d fat k ∧ q = fatRequest fat (walk d fat call.inode k)) hd h512 hspc htyped
      ?_ ?_ hrun q hq
    · exact fun k hk => Or.inl ⟨k, hk, rfl⟩
    · exact fun k hk => Or.inr ⟨k, hk, rfl⟩
  · cases call with
    | read inode offset size buffer =>
      rintro (⟨k, hk, rfl⟩ | ⟨k, hk, rfl⟩)
      · exact (read_asked h512 hspc htyped.2.2 buffer k).1 hk
      · exact (read_asked h512 hspc htyped.2.2 buffer k).2 hk
    | readdir inode index =>
      have hloop := readdir_loop (flakyEnv_reliable d).logged h512 htyped.2
      have hasked : ∀ {k}, (∀ j < k, ¬ReaddirStops d fat index (walk d fat inode j,
          seen d fat inode j)) → Loop.Gets (readdirNext d fat) (ReaddirStops d fat index)
            (inode, 0) k := by
        intro k h j hj
        rw [readdirPlace]
        exact h j hj
      have hrun : ∀ {n m r s' log q}, readdirClusters (logged (flakyEnv d)) fat index n inode 0
          ⟨0xC0001010, fun _ => 0⟩ (m, [.kmalloc 0xC0001010 fat.clusterSize])
            = some (r, (s', log)) → q ∈ requests log → (Call.readdir inode index).Asks d fat q := by
        intro n m r s' log q heq hq
        refine ⟨Nat, flakyEnv d, n, m, .entry r, s', log, flakyEnv_reliable d, ?_, hq⟩
        have hentry : fat32Readdir (logged (flakyEnv d)) fat n inode index (m, [])
            = some (r, (s', log)) := by
          rw [fat32Readdir]
          exact heq
        rw [Call.run, hentry]
        rfl
      rintro (⟨k, ⟨hgets, hc⟩, rfl⟩ | ⟨k, hk, rfl⟩)
      · obtain ⟨hvisits, -⟩ := hloop.asked h512 (x := (inode, 0)) (Nat.zero_le index) (hasked hgets)
          _ _
        simp only [id, readdirPlace] at hvisits
        obtain ⟨n, m, r, t', heq, hq⟩ := hvisits hc
        exact hrun heq hq
      · obtain ⟨-, hlooksUp⟩ := hloop.asked h512 (x := (inode, 0)) (Nat.zero_le index)
          (hasked fun j hj => hk j hj.le) _ _
        simp only [id, readdirPlace] at hlooksUp
        obtain ⟨n, m, r, t', heq, hq⟩ := hlooksUp (hk k (Nat.le_refl k))
        exact hrun heq hq
    | finddir inode name entryName =>
      have hloop := finddir_loop (flakyEnv_reliable d).logged h512 name
      have hrun : ∀ {n m r s' log q}, finddirClusters (logged (flakyEnv d)) fat name n inode
          entryName ⟨0xC0001010, fun _ => 0⟩ (m, [.kmalloc 0xC0001010 fat.clusterSize])
            = some (r, (s', log)) → q ∈ requests log →
              (Call.finddir inode name entryName).Asks d fat q := by
        intro n m r s' log q heq hq
        refine ⟨Nat, flakyEnv d, n, m, .node r, s', log, flakyEnv_reliable d, ?_, hq⟩
        have hnode : fat32Finddir (logged (flakyEnv d)) fat n inode name entryName (m, [])
            = some (r, (s', log)) := heq
        rw [Call.run, hnode]
        rfl
      rintro (⟨k, ⟨hgets, hc⟩, rfl⟩ | ⟨k, hk, rfl⟩)
      · obtain ⟨n, m, r, t', heq, hq⟩ :=
          (hloop.asked h512 (x := (inode, entryName)) trivial hgets _ _).1 hc
        exact hrun heq hq
      · obtain ⟨n, m, r, t', heq, hq⟩ := (hloop.asked h512 (x := (inode, entryName)) trivial
          (fun j hj => hk j hj.le) _ _).2 (hk k (Nat.le_refl k))
        exact hrun heq hq

/-- A well-formed volume with eight sectors to a cluster and two FATs of one sector, with an empty
file `E` in its root directory. -/
def emptyFileDisk : Disk := fun lba i =>
  if lba = 0 then
    if i = 12 then 2 else if i = 13 then 8 else if i = 14 then 32 else if i = 16 then 2
    else if i = 32 then 0x42 else if i = 33 then 0x03 else if i = 36 then 1
    else if i = 44 then 2 else 0
  else if lba = 32 ∨ lba = 33 then
    if i = 0 then 0xF8 else if i < 12 then if i % 4 = 3 then 0x0F else 0xFF else 0
  else if lba = 34 then
    if i = 0 then 0x45 else if i < 11 then 0x20 else 0
  else 0

def emptyFileBpb : Bpb := ⟨512, 8, 32, 2, 0x342, 1, 2⟩

end FlowOS.Fat32
