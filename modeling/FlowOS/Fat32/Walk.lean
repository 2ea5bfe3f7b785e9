/-
# Directories on a cyclic FAT

The loops of `fat32_readdir` and `fat32_finddir` follow the FAT for as long as it names another
cluster, and nothing on the volume has to make it end.  The FAT still decides alone which clusters
they get to: cluster number `k` of the way is `walk d fat inode k`, cyclic or not.

Three things end the loop in a cluster: the number is no cluster, one of the entries is the end
mark, or the function has found what it looks for.  Each of the two functions returns exactly when
one of these happens somewhere on the way.  For `fat32_readdir` a cycle with a single listed entry
is enough: it counts the entry again each time it comes round, until the count is the index.
-/
import FlowOS.Fat32.Init
import FlowOS.Fat32.Listing
import FlowOS.Fat32.Bounded
import FlowOS.Lib.Loop

namespace FlowOS.Fat32

variable {σ : Type} {env : FatEnv σ} {d : Disk} {fat : Fat}

/-! ## 1. The way through the FAT -/

/-- The cluster the FAT leads to in `k` steps from `c`. -/
def walk (d : Disk) (fat : Fat) (c k : Nat) : Nat := (fatEntry d fat)^[k] c

/-- What a cluster lists on its own. -/
def clusterListing (d : Disk) (fat : Fat) (c : Nat) : List DirEntry :=
  Scan.listing DirEntry.isEnd DirEntry.isListed (clusterEntries d fat c)

/-- The entries listed in the first `k` clusters of the way, if none of them has an end mark. -/
def seen (d : Disk) (fat : Fat) (c : Nat) : Nat → Nat
  | 0 => 0
  | k + 1 => (clusterListing d fat c).length + seen d fat (fatEntry d fat c) k

/-- The place `fat32_readdir` has got to: the cluster, and the entries counted before it. -/
def readdirNext (d : Disk) (fat : Fat) (p : Nat × Nat) : Nat × Nat :=
  (fatEntry d fat p.1, p.2 + (clusterListing d fat p.1).length)

theorem readdirNext_iterate (d : Disk) (fat : Fat) (k c i : Nat) :
    (readdirNext d fat)^[k] (c, i) = (walk d fat c k, i + seen d fat c k) := by
  induction k generalizing c i with
  | zero => rfl
  | succ k ih =>
    rw [Function.iterate_succ_apply, readdirNext, ih, seen, Nat.add_assoc]
    rfl

/-! ## 2. Where the loops end -/

/-- The cluster is the last one for `fat32_finddir`. -/
def FinddirStops (d : Disk) (fat : Fat) (name : Mem) (c : Nat) : Prop :=
  endOfChain ≤ c ∨ ∃ e ∈ clusterEntries d fat c,
    e.isEnd = true ∨ e.isListed = true ∧ name.CStr 0 e.cname

/-- The cluster is the last one for `fat32_readdir`. -/
def ReaddirStops (d : Disk) (fat : Fat) (index : Nat) (p : Nat × Nat) : Prop :=
  endOfChain ≤ p.1 ∨ (∃ e ∈ clusterEntries d fat p.1, e.isEnd = true) ∨
    index < p.2 + (clusterListing d fat p.1).length

/-- Nothing in the cluster stops `fat32_finddir`. -/
theorem not_finddirStops {name : Mem} {c : Nat} : ¬FinddirStops d fat name c ↔
    c < endOfChain ∧ (clusterEntries d fat c).any DirEntry.isEnd = false ∧
      (clusterListing d fat c).find? (fun e => name.CStr 0 e.cname) = none := by
  unfold FinddirStops clusterListing
  constructor
  · intro h
    push Not at h
    obtain ⟨hc, hall⟩ := h
    have hend : (clusterEntries d fat c).any DirEntry.isEnd = false :=
      List.any_eq_false.mpr fun e he => (hall e he).1
    refine ⟨hc, hend, List.find?_eq_none.mpr ?_⟩
    intro e he hname
    rw [Scan.listing_eq_filter hend] at he
    obtain ⟨hmem, hlisted⟩ := List.mem_filter.mp he
    exact (hall e hmem).2 hlisted (by simpa using hname)
  · rintro ⟨hc, hend, hnone⟩ (h | ⟨e, he, h | ⟨hlisted, hname⟩⟩)
    · omega
    · exact List.any_eq_false.mp hend e he h
    · have hmem : e ∈ Scan.listing DirEntry.isEnd DirEntry.isListed (clusterEntries d fat c) := by
        rw [Scan.listing_eq_filter hend]
        exact List.mem_filter.mpr ⟨he, hlisted⟩
      exact List.find?_eq_none.mp hnone e hmem (by simpa using hname)

/-- Nothing in the cluster stops `fat32_readdir`. -/
theorem not_readdirStops {index c cur : Nat} : ¬ReaddirStops d fat index (c, cur) ↔
    c < endOfChain ∧ (clusterEntries d fat c).any DirEntry.isEnd = false ∧
      cur + (clusterListing d fat c).length ≤ index := by
  unfold ReaddirStops
  rw [List.any_eq_false]
  push Not
  rfl

/-! ## 3. One round -/

section Rounds

variable (hd : Reliable env d) (h512 : fat.bytesPerSector = 512) {c : Nat} {buffer : Buf} {s : σ}
  {rc : Bool × Buf × σ} (hrc : readCluster env fat c buffer s = rc) (hok : rc.1 = true)

include hd h512 hrc hok

/-- In a cluster with no stop, `fat32_finddir` goes on to the next cluster. -/
theorem finddirClusters_goes {name : Mem} (hgo : ¬FinddirStops d fat name c) (entryName : Mem) :
    ∃ entryName', ∀ fuel, finddirClusters env fat name (fuel + 1) c entryName buffer s =
      finddirClusters env fat name fuel (getNextCluster env fat c rc.2.2).1 entryName' rc.2.1
        (getNextCluster env fat c rc.2.2).2 := by
  subst hrc
  obtain ⟨hc, hend, hfind⟩ := not_finddirStops.mp hgo
  obtain ⟨entryName', hround⟩ := finddirClusters_round name hc entryName rfl hok
    (entries_reliable hd h512 hok)
  refine ⟨entryName', fun fuel => ?_⟩
  rw [clusterListing] at hfind
  rw [hround, hfind, hend]
  rfl

/-- In a cluster with a stop it returns, with its buffer freed. -/
theorem finddirClusters_ends {name : Mem} (hc : c < endOfChain) (hstop : FinddirStops d fat name c)
    (entryName : Mem) (fuel : Nat) : ∃ r,
    finddirClusters env fat name (fuel + 1) c entryName buffer s
        = some (r, env.kfree rc.2.1.addr rc.2.2) ∨
      finddirClusters env fat name (fuel + 1) c entryName buffer s
        = some (r, env.kfree rc.2.1.addr (env.kmalloc 184 rc.2.2).2) := by
  subst hrc
  obtain ⟨entryName', hround⟩ := finddirClusters_round name hc entryName rfl hok
    (entries_reliable hd h512 hok)
  rw [hround]
  cases hfind : (clusterListing d fat c).find? fun e => name.CStr 0 e.cname with
  | some e =>
    rw [clusterListing] at hfind
    rw [hfind]
    exact ⟨_, Or.inr rfl⟩
  | none =>
    have hend : (clusterEntries d fat c).any DirEntry.isEnd = true := by
      by_contra hno
      exact not_finddirStops.mpr ⟨hc, by simpa using hno, hfind⟩ hstop
    rw [clusterListing] at hfind
    rw [hfind, hend]
    exact ⟨_, Or.inl rfl⟩

variable {index cur : Nat} (hindex : index < 2 ^ 32) (hcur : cur ≤ index)

include hindex hcur

/-- In a cluster with no stop, `fat32_readdir` goes on to the next cluster. -/
theorem readdirClusters_goes (hgo : ¬ReaddirStops d fat index (c, cur)) (fuel : Nat) :
    readdirClusters env fat index (fuel + 1) c cur buffer s =
      readdirClusters env fat index fuel (getNextCluster env fat c rc.2.2).1
        (cur + (clusterListing d fat c).length) rc.2.1 (getNextCluster env fat c rc.2.2).2 := by
  subst hrc
  obtain ⟨hc, hend, hlen⟩ := not_readdirStops.mp hgo
  have hget : (clusterListing d fat c)[index - cur]? = none :=
    List.getElem?_eq_none_iff.mpr (by omega)
  rw [clusterListing] at hget
  rw [readdirClusters_round hindex hc hcur rfl hok (entries_reliable hd h512 hok), hget, hend]
  rfl

/-- In a cluster with a stop it returns, with its buffer freed. -/
theorem readdirClusters_ends (hc : c < endOfChain) (hstop : ReaddirStops d fat index (c, cur))
    (fuel : Nat) : ∃ r,
    readdirClusters env fat index (fuel + 1) c cur buffer s
        = some (r, env.kfree rc.2.1.addr rc.2.2) ∨
      readdirClusters env fat index (fuel + 1) c cur buffer s
        = some (r, env.kfree rc.2.1.addr (env.kmalloc 132 rc.2.2).2) := by
  subst hrc
  rw [readdirClusters_round hindex hc hcur rfl hok (entries_reliable hd h512 hok)]
  cases hget : (clusterListing d fat c)[index - cur]? with
  | some e =>
    rw [clusterListing] at hget
    rw [hget]
    exact ⟨_, Or.inr rfl⟩
  | none =>
    have hlen := List.getElem?_eq_none_iff.mp hget
    have hend : (clusterEntries d fat c).any DirEntry.isEnd = true := by
      by_contra hno
      exact not_readdirStops.mpr ⟨hc, by simpa using hno, by omega⟩ hstop
    rw [clusterListing] at hget
    rw [hget, hend]
    exact ⟨_, Or.inl rfl⟩

end Rounds

/-- The state after calls of the heap alone. -/
inductive HeapCalls (env : FatEnv σ) (s : σ) : σ → Prop
  | refl : HeapCalls env s s
  | kmalloc {t : σ} (n : Nat) : HeapCalls env s t → HeapCalls env s (env.kmalloc n t).2
  | kfree {t : σ} (a : Nat) : HeapCalls env s t → HeapCalls env s (env.kfree a t)

/-- **A directory loop.**  `run` is a loop with fuel over clusters; what it carries along, `χ`, has
a place, which decides about the next round, and the place has a cluster.  A round returns if the
cluster is none, cannot be read or has a stop; otherwise it goes on with the cluster that is looked
up, at the next place if that is what the FAT says. -/
structure DirLoop (env : FatEnv σ) (d : Disk) (fat : Fat) {χ α ρ : Type}
    (run : Nat → χ → Buf → σ → Option (ρ × σ)) (place : χ → α) (cluster : α → Nat) (next : α → α)
    (Stops : α → Prop) (Ok : χ → Prop) : Prop where
  zero : ∀ x b s, run 0 x b s = none
  past : ∀ n x b s, ¬cluster (place x) < endOfChain →
    ∃ r t, run (n + 1) x b s = some (r, t) ∧ HeapCalls env s t
  failed : ∀ n x b s, cluster (place x) < endOfChain →
    (readCluster env fat (cluster (place x)) b s).1 = false →
    ∃ r t, run (n + 1) x b s = some (r, t) ∧
      HeapCalls env (readCluster env fat (cluster (place x)) b s).2.2 t
  ends : ∀ n x b s, Ok x → cluster (place x) < endOfChain →
    (readCluster env fat (cluster (place x)) b s).1 = true → Stops (place x) →
    ∃ r t, run (n + 1) x b s = some (r, t) ∧
      HeapCalls env (readCluster env fat (cluster (place x)) b s).2.2 t
  goes : ∀ x b s rc, Ok x → readCluster env fat (cluster (place x)) b s = rc → rc.1 = true →
    ¬Stops (place x) → ∃ x', Ok x' ∧
      cluster (place x') = (getNextCluster env fat (cluster (place x)) rc.2.2).1 ∧
      ((getNextCluster env fat (cluster (place x)) rc.2.2).1 = fatEntry d fat (cluster (place x)) →
        place x' = next (place x)) ∧
      ∀ n, run (n + 1) x b s =
        run n x' rc.2.1 (getNextCluster env fat (cluster (place x)) rc.2.2).2
  lt : ∀ p, ¬Stops p → cluster p < endOfChain

theorem finddir_loop (hd : Reliable env d) (h512 : fat.bytesPerSector = 512) (name : Mem) :
    DirLoop env d fat (fun n (x : Nat × Mem) => finddirClusters env fat name n x.1 x.2) Prod.fst id
      (fatEntry d fat) (FinddirStops d fat name) fun _ => True where
  zero := fun _ _ _ => rfl
  past := by
    intro n x b s hc
    have hc : ¬x.1 < endOfChain := hc
    rw [finddirClusters, if_neg hc]
    exact ⟨_, _, rfl, .kfree _ .refl⟩
  failed := by
    intro n x b s hc hread
    have hc : x.1 < endOfChain := hc
    have hread : (readCluster env fat x.1 b s).1 = false := hread
    rw [finddirClusters, if_pos hc]
    dsimp only
    rw [if_pos hread]
    exact ⟨_, _, rfl, .kfree _ .refl⟩
  ends := by
    intro n x b s _ hc hread hstop
    obtain ⟨r, h | h⟩ := finddirClusters_ends hd h512 rfl hread hc hstop x.2 n
    · exact ⟨_, _, h, .kfree _ .refl⟩
    · exact ⟨_, _, h, .kfree _ (.kmalloc _ .refl)⟩
  goes := by
    intro x b s rc _ hrc hread hgo
    obtain ⟨en', hround⟩ := finddirClusters_goes hd h512 hrc hread hgo x.2
    exact ⟨(_, en'), trivial, rfl, id, hround⟩
  lt := fun _ hgo => (not_finddirStops.mp hgo).1

theorem readdir_loop (hd : Reliable env d) (h512 : fat.bytesPerSector = 512) {index : Nat}
    (hindex : index < 2 ^ 32) :
    DirLoop env d fat (fun n (x : Nat × Nat) => readdirClusters env fat index n x.1 x.2) id Prod.fst
      (readdirNext d fat) (ReaddirStops d fat index) fun x => x.2 ≤ index where
  zero := fun _ _ _ => rfl
  past := by
    intro n x b s hc
    have hc : ¬x.1 < endOfChain := hc
    rw [readdirClusters, if_neg hc]
    exact ⟨_, _, rfl, .kfree _ .refl⟩
  failed := by
    intro n x b s hc hread
    have hc : x.1 < endOfChain := hc
    have hread : (readCluster env fat x.1 b s).1 = false := hread
    rw [readdirClusters, if_pos hc]
    dsimp only
    rw [if_pos hread]
    exact ⟨_, _, rfl, .kfree _ (.kfree _ .refl)⟩
  ends := by
    intro n x b s hcur hc hread hstop
    obtain ⟨r, h | h⟩ := readdirClusters_ends hd h512 rfl hread hindex hcur hc hstop n
    · exact ⟨_, _, h, .kfree _ .refl⟩
    · exact ⟨_, _, h, .kfree _ (.kmalloc _ .refl)⟩
  goes := by
    intro x b s rc hcur hrc hread hgo
    have hround := readdirClusters_goes hd h512 hrc hread hindex hcur hgo
    exact ⟨(_, x.2 + (clusterListing d fat x.1).length), (not_readdirStops.mp hgo).2.2, rfl,
      fun hentry => Prod.ext hentry rfl, hround⟩
  lt := fun _ hgo => (not_readdirStops.mp hgo).1

/-! ## 4. When the functions return -/

/-- **When a directory loop returns**, on a disk whose reads succeed. -/
theorem DirLoop.returns_iff {χ α ρ : Type} {run : Nat → χ → Buf → σ → Option (ρ × σ)}
    {place : χ → α} {cluster : α → Nat} {next : α → α} {Stops : α → Prop} {Ok : χ → Prop}
    (h : DirLoop env d fat run place cluster next Stops Ok) (hd : Serves env d)
    (h512 : fat.bytesPerSector = 512) {x : χ} (hx : Ok x) (b : Buf) (s : σ) :
    (∃ n r, run n x b s = some r) ↔ ∃ k, Stops (next^[k] (place x)) := by
  refine @Loop.returns_iff α (χ × Buf × σ) _ next Stops (fun n t => run n t.1 t.2.1 t.2.2)
    (fun t => Ok t.1) (fun t => place t.1) (fun t => h.zero _ _ _) ?_ ?_ (x, b, s) hx
  · -- the last round
    rintro ⟨x, b, s⟩ hx hstop n
    by_cases hc : cluster (place x) < endOfChain
    · obtain ⟨r, t, hrun, -⟩ := h.ends n x b s hx hc (readCluster_serves hd _ b s).1 hstop
      exact ⟨_, hrun⟩
    · obtain ⟨r, t, hrun, -⟩ := h.past n x b s hc
      exact ⟨_, hrun⟩
  · -- a round before it
    rintro ⟨x, b, s⟩ hx hgo
    obtain ⟨x', hx', -, hplace, hround⟩ :=
      h.goes x b s _ hx rfl (readCluster_serves hd _ b s).1 hgo
    exact ⟨(x', (readCluster env fat (cluster (place x)) b s).2.1,
      (getNextCluster env fat (cluster (place x))
          (readCluster env fat (cluster (place x)) b s).2.2).2),
      hx', hplace (getNextCluster_serves hd h512 _ _), hround⟩

/-- **When `fat32_finddir` returns.** -/
theorem finddir_returns_iff (hd : Serves env d) (h512 : fat.bytesPerSector = 512) (inode : Nat)
    (name entryName : Mem) (s : σ) :
    (∃ fuel r, fat32Finddir env fat fuel inode name entryName s = some r) ↔
      ∃ k, FinddirStops d fat name (walk d fat inode k) :=
  (finddir_loop hd.reliable h512 name).returns_iff (x := (inode, entryName)) hd h512 trivial _ _

/-- **When `fat32_readdir` returns.** -/
theorem readdir_returns_iff (hd : Serves env d) (ha : Allocates env)
    (h512 : fat.bytesPerSector = 512) (inode : Nat) {index : Nat} (hindex : index < 2 ^ 32)
    (s : σ) :
    (∃ fuel r, fat32Readdir env fat fuel inode index s = some r) ↔
      ∃ k, ReaddirStops d fat index (walk d fat inode k, seen d fat inode k) := by
  have hplace : ∀ k, (walk d fat inode k, seen d fat inode k)
      = (readdirNext d fat)^[k] (inode, 0) := fun k => by
    rw [readdirNext_iterate, Nat.zero_add]
  simp only [hplace]
  unfold fat32Readdir
  dsimp only
  simp only [if_neg (ha _ _)]
  exact (readdir_loop hd.reliable h512 hindex).returns_iff (x := (inode, 0)) hd h512
    (Nat.zero_le index) _ _

/-- A cluster whose entry of the FAT is itself. -/
theorem walk_fixed {c : Nat} (h : fatEntry d fat c = c) (k : Nat) : walk d fat c k = c :=
  Function.iterate_fixed h k

theorem seen_fixed {c : Nat} (h : fatEntry d fat c = c) (k : Nat) :
    seen d fat c k = k * (clusterListing d fat c).length := by
  induction k with
  | zero => rw [seen, Nat.zero_mul]
  | succ k ih => rw [seen, h, ih, Nat.succ_mul, Nat.add_comm]

end FlowOS.Fat32
