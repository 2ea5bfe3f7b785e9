/-
# What a directory lists

The entries of a directory are the 32-byte pieces of its clusters.  Both `fat32_readdir` and
`fat32_finddir` see those before the end mark that are neither deleted nor caught by
`attr & ATTR_LONG_NAME`: the `listing` of the directory.  Against it the module proves the two
functions, which the source writes separately:

* `fat32_readdir` with index `i` returns the entry number `i` of the listing
  (`fat32Readdir_listing`);
* `fat32_finddir` returns a node for the first entry of the listing whose rendered name is the
  string looked for (`fat32Finddir_listing`).

So the one finds what the other lists (`readdir_finddir`), with one exception.  The index is a
`uint32_t`, and a chain of clusters can have more entries than that: what lies beyond can be found
by name, but no index lists it (`finddir_beyond_index`).

Each function is followed through its two loops, the one over the entries of a cluster and the
one over the clusters; what carries over from one cluster to the next is the number of entries
seen so far.
-/
import FlowOS.Fat32.Names
import FlowOS.Lib.Scan

namespace FlowOS.Fat32

open Word

/-! ## 1. Entries -/

/-- The entries of a cluster. -/
def clusterEntries (d : Disk) (fat : Fat) (c : Nat) : List DirEntry :=
  (List.range ((contents d fat c).length / 32)).map (entryAt (Mem.ofBytes (contents d fat c)))

/-- What the directory with the clusters `cs` lists, in order. -/
def listing (d : Disk) (fat : Fat) (cs : List Nat) : List DirEntry :=
  ((cs.flatMap (clusterEntries d fat)).takeWhile fun e => !e.isEnd).filter DirEntry.isListed

/-- An entry is read off its 32 bytes. -/
theorem entryAt_congr {m m' : Mem} {i i' : Nat}
    (h : ∀ k < 32, m' (32 * i' + k) = m (32 * i + k)) : entryAt m' i' = entryAt m i := by
  have hname : ∀ k : Fin 11, m' (32 * i' + k) = m (32 * i + k) := fun k => h k (by omega)
  unfold entryAt Mem.ld16 Mem.ld32
  simp only [hname, Nat.add_assoc, Nat.reduceAdd]
  rw [h 11 (by decide), h 20 (by decide), h 21 (by decide), h 26 (by decide), h 27 (by decide),
    h 28 (by decide), h 29 (by decide), h 30 (by decide), h 31 (by decide)]

variable {σ : Type} {env : FatEnv σ} {d : Disk} {fat : Fat}

/-- The entries in the buffer are those of the cluster. -/
theorem entries_reliable (hd : Reliable env d) (h512 : fat.bytesPerSector = 512) {c : Nat}
    {buffer : Buf} {s : σ} (hok : (readCluster env fat c buffer s).1 = true) :
    (List.range (fat.clusterSize / 32)).map
        (entryAt (readCluster env fat c buffer s).2.1.bytes)
      = clusterEntries d fat c := by
  have hbytes := readCluster_reliable hd hok
  unfold clusterEntries
  rw [← hbytes, Mem.length_bytes, clusterSize_eq h512]
  refine List.map_congr_left fun i hi => (entryAt_congr fun k hk => ?_).symm
  have := List.mem_range.mp hi
  exact Mem.ofBytes_bytes _ (by omega)

theorem entries_served (hd : Serves env d) (h512 : fat.bytesPerSector = 512) (c : Nat)
    (buffer : Buf) (s : σ) :
    (List.range (fat.clusterSize / 32)).map
        (entryAt (readCluster env fat c buffer s).2.1.bytes)
      = clusterEntries d fat c :=
  entries_reliable hd.reliable h512 (readCluster_serves hd c buffer s).1

/-! ## 2. The two loops over the entries of a cluster -/

/-- **`fat32_readdir` in one cluster**: it stops at the listed entry with its number, at the end
mark, or behind the last entry with the listed ones counted. -/
theorem readdirEntries_eq {index : Nat} (hindex : index < 2 ^ 32) (buffer : Mem) (n i cur : Nat)
    (hcur : cur ≤ index) {l : List DirEntry} (hl : l = (List.range' i n).map (entryAt buffer)) :
    readdirEntries index buffer n i cur =
      match (Scan.listing DirEntry.isEnd DirEntry.isListed l)[index - cur]? with
      | some e => .hit e
      | none =>
        if l.any DirEntry.isEnd then .endOfDir
        else .more (cur + (Scan.listing DirEntry.isEnd DirEntry.isListed l).length) := by
  induction n generalizing i cur l with
  | zero =>
    subst hl
    rfl
  | succ n ih =>
    rw [List.range'_succ, List.map_cons] at hl
    subst hl
    rw [readdirEntries]
    generalize entryAt buffer i = e
    rcases e.cases with ⟨h0, hend⟩ | ⟨h0, hend, hlisted, hskip⟩ | ⟨h0, hend, hlisted, hE5, hattr⟩
    · rw [if_pos h0, Scan.listing_cons_end hend, List.any_cons, hend]
      rfl
    · rw [if_neg h0, Scan.listing_cons_skipped hend hlisted, List.any_cons, hend, Bool.false_or,
        ← ih (i + 1) cur hcur rfl]
      rcases hskip with hE5 | hattr
      · rw [if_pos hE5]
      · rw [if_pos hattr, ite_self]
    · rw [if_neg h0, if_neg hE5, if_neg hattr, Scan.listing_cons_listed hend hlisted,
        List.any_cons, hend, Bool.false_or]
      by_cases heq : cur = index
      · rw [if_pos heq, heq, Nat.sub_self, List.getElem?_cons_zero]
      · have hadd : add32 cur 1 = cur + 1 := add32_of_lt (by omega)
        have hsub : index - cur = index - (cur + 1) + 1 := by omega
        rw [if_neg heq, hadd, ih (i + 1) (cur + 1) (by omega) rfl, hsub, List.getElem?_cons_succ,
          List.length_cons, Nat.add_assoc, Nat.add_comm 1]

/-- **`fat32_finddir` in one cluster**: it stops at the first listed entry with that name, at the
end mark, or behind the last entry. -/
theorem finddirEntries_eq (name buffer : Mem) (n i : Nat) (entryName : Mem) {l : List DirEntry}
    (hl : l = (List.range' i n).map (entryAt buffer)) : ∃ entryName',
    finddirEntries name buffer n i entryName = some (
      match (Scan.listing DirEntry.isEnd DirEntry.isListed l).find?
          fun e => name.CStr 0 e.cname with
      | some e => .hit e
      | none => if l.any DirEntry.isEnd then .endOfDir else .more entryName') := by
  induction n generalizing i entryName l with
  | zero =>
    subst hl
    exact ⟨entryName, rfl⟩
  | succ n ih =>
    rw [List.range'_succ, List.map_cons] at hl
    subst hl
    rw [finddirEntries]
    generalize entryAt buffer i = e
    rcases e.cases with ⟨h0, hend⟩ | ⟨h0, hend, hlisted, hskip⟩ | ⟨h0, hend, hlisted, hE5, hattr⟩
    · rw [if_pos h0, Scan.listing_cons_end hend, List.any_cons, hend]
      exact ⟨entryName, rfl⟩
    · rw [if_neg h0, Scan.listing_cons_skipped hend hlisted, List.any_cons, hend, Bool.false_or]
      rcases hskip with hE5 | hattr
      · rw [if_pos hE5]
        exact ih (i + 1) entryName rfl
      · rw [if_pos hattr, ite_self]
        exact ih (i + 1) entryName rfl
    · rw [if_neg h0, if_neg hE5, if_neg hattr, Scan.listing_cons_listed hend hlisted,
        List.any_cons, hend, Bool.false_or]
      dsimp only
      rw [matchName_cstr (copyName_cstr e entryName) (length_cname e)]
      by_cases hname : name.CStr 0 e.cname
      · rw [List.find?_cons_of_pos (by simpa using hname), decide_eq_true hname]
        exact ⟨entryName, rfl⟩
      · rw [List.find?_cons_of_neg (by simpa using hname), decide_eq_false hname]
        exact ih (i + 1) _ rfl

/-! ## 3. The two loops over the clusters -/

/-- The clusters a directory loop goes through from `c` on: it ends where the cluster number is
no cluster, which for a node's inode may be at once. -/
inductive DirChain (d : Disk) (fat : Fat) : Nat → List Nat → Prop
  | stop {c : Nat} (h : endOfChain ≤ c) : DirChain d fat c []
  | step {c : Nat} {cs : List Nat} (h : c < endOfChain)
      (hrest : DirChain d fat (fatEntry d fat c) cs) : DirChain d fat c (c :: cs)

/-- Every allocation succeeds. -/
def Allocates (env : FatEnv σ) : Prop := ∀ size s, (env.kmalloc size s).1.addr ≠ 0

/-- A `struct dirent` for an entry: its name is the rendering, its inode the first cluster. -/
structure Dirent.Shows (dirent : Dirent) (e : DirEntry) : Prop where
  notNull : dirent.addr ≠ 0
  name : dirent.name.bytes 0 (e.shortName.length + 1) = e.shortName ++ [0]
  inode : dirent.inode = e.firstCluster

/-- A node `fat32_finddir` has made for an entry. -/
def FsNode.Stands (node : FsNode) (e : DirEntry) : Prop :=
  ∃ b : Buf, b.addr ≠ 0 ∧ node = fileNode e b

/-- What the first cluster lists, and unless the end mark is in it, what the others list. -/
theorem listing_cons (d : Disk) (fat : Fat) (c : Nat) (cs : List Nat) :
    listing d fat (c :: cs)
      = Scan.listing DirEntry.isEnd DirEntry.isListed (clusterEntries d fat c) ++
        if (clusterEntries d fat c).any DirEntry.isEnd then [] else listing d fat cs := by
  have happend : listing d fat (c :: cs) = Scan.listing DirEntry.isEnd DirEntry.isListed
      (clusterEntries d fat c ++ cs.flatMap (clusterEntries d fat)) := rfl
  rw [happend]
  cases hany : (clusterEntries d fat c).any DirEntry.isEnd with
  | true => rw [Scan.listing_append_ended _ hany, if_pos rfl, List.append_nil]
  | false =>
    rw [Scan.listing_append _ hany, if_neg (by decide)]
    rfl

/-- One round of the loop of `fat32_readdir`, with the cluster read and its entries `l`. -/
theorem readdirClusters_round {index : Nat} (hindex : index < 2 ^ 32) {c cur : Nat}
    (hc : c < endOfChain) (hcur : cur ≤ index) {buffer : Buf} {s : σ} {rc : Bool × Buf × σ}
    (hrc : readCluster env fat c buffer s = rc) (hok : rc.1 = true) {l : List DirEntry}
    (hl : (List.range (fat.clusterSize / 32)).map (entryAt rc.2.1.bytes) = l) (fuel : Nat) :
    readdirClusters env fat index (fuel + 1) c cur buffer s =
      match (Scan.listing DirEntry.isEnd DirEntry.isListed l)[index - cur]? with
      | some e =>
        some (some ⟨(env.kmalloc 132 rc.2.2).1.addr, copyName e (env.kmalloc 132 rc.2.2).1.bytes,
          e.firstCluster⟩, env.kfree rc.2.1.addr (env.kmalloc 132 rc.2.2).2)
      | none =>
        if l.any DirEntry.isEnd then some (none, env.kfree rc.2.1.addr rc.2.2)
        else readdirClusters env fat index fuel (getNextCluster env fat c rc.2.2).1
          (cur + (Scan.listing DirEntry.isEnd DirEntry.isListed l).length) rc.2.1
          (getNextCluster env fat c rc.2.2).2 := by
  rw [List.range_eq_range'] at hl
  rw [readdirClusters, if_pos hc]
  dsimp only
  rw [hrc, hok, if_neg (by decide), readdirEntries_eq hindex _ _ _ _ hcur hl.symm]
  cases (Scan.listing DirEntry.isEnd DirEntry.isListed l)[index - cur]? with
  | some e => rfl
  | none =>
    cases l.any DirEntry.isEnd with
    | true => rfl
    | false => rfl

/-- **The loop of `fat32_readdir`** returns the listed entry with the number asked for. -/
theorem readdirClusters_chain (hd : Serves env d) (ha : Allocates env)
    (h512 : fat.bytesPerSector = 512) {index : Nat} (hindex : index < 2 ^ 32) {c : Nat}
    {cs : List Nat} (hchain : DirChain d fat c cs) {fuel cur : Nat} (hfuel : cs.length < fuel)
    (hcur : cur ≤ index) (buffer : Buf) (s : σ) : ∃ r s',
    readdirClusters env fat index fuel c cur buffer s = some (r, s') ∧
      Option.Rel Dirent.Shows r (listing d fat cs)[index - cur]? := by
  induction hchain generalizing fuel cur buffer s with
  | stop h =>
    obtain ⟨fuel, rfl⟩ : ∃ f, fuel = f + 1 := ⟨fuel - 1, by omega⟩
    rw [readdirClusters, if_neg (by omega)]
    exact ⟨none, _, rfl, Option.Rel.none⟩
  | @step c cs h hrest ih =>
    obtain ⟨fuel, rfl⟩ : ∃ f, fuel = f + 1 := ⟨fuel - 1, by omega⟩
    rw [readdirClusters_round hindex h hcur rfl (readCluster_serves hd c buffer s).1
      (entries_served hd h512 c buffer s), listing_cons]
    generalize readCluster env fat c buffer s = rc
    generalize Scan.listing DirEntry.isEnd DirEntry.isListed (clusterEntries d fat c) = l
    cases hk : l[index - cur]? with
    | some e =>
      refine ⟨_, _, rfl, ?_⟩
      rw [List.getElem?_append_left (List.getElem?_eq_some_iff.mp hk).1, hk]
      refine Option.Rel.some ⟨ha _ _, ?_, rfl⟩
      have := (copyName_delivered e (env.kmalloc 132 rc.2.2).1.bytes).holds
      rwa [List.length_append, List.length_singleton] at this
    | none =>
      have hlen : l.length ≤ index - cur := List.getElem?_eq_none_iff.mp hk
      rw [List.getElem?_append_right hlen]
      cases (clusterEntries d fat c).any DirEntry.isEnd with
      | true => exact ⟨none, _, rfl, Option.Rel.none⟩
      | false =>
        dsimp only
        rw [if_neg (by decide), if_neg (by decide), getNextCluster_serves hd h512, Nat.sub_sub]
        exact ih (by simpa using hfuel) (by omega) _ _

theorem FsNode.Stands.inode {node : FsNode} {e : DirEntry} (h : node.Stands e) :
    node.inode = e.firstCluster := by
  obtain ⟨b, -, rfl⟩ := h
  unfold fileNode
  dsimp only
  split <;> rfl

/-- One round of the loop of `fat32_finddir`, with the cluster read and its entries `l`. -/
theorem finddirClusters_round (name : Mem) {c : Nat} (hc : c < endOfChain) (entryName : Mem)
    {buffer : Buf} {s : σ} {rc : Bool × Buf × σ} (hrc : readCluster env fat c buffer s = rc)
    (hok : rc.1 = true) {l : List DirEntry}
    (hl : (List.range (fat.clusterSize / 32)).map (entryAt rc.2.1.bytes) = l) :
    ∃ entryName', ∀ fuel, finddirClusters env fat name (fuel + 1) c entryName buffer s =
      match (Scan.listing DirEntry.isEnd DirEntry.isListed l).find?
          fun e => name.CStr 0 e.cname with
      | some e =>
        some (some (fileNode e (env.kmalloc 184 rc.2.2).1),
          env.kfree rc.2.1.addr (env.kmalloc 184 rc.2.2).2)
      | none =>
        if l.any DirEntry.isEnd then some (none, env.kfree rc.2.1.addr rc.2.2)
        else finddirClusters env fat name fuel (getNextCluster env fat c rc.2.2).1 entryName'
          rc.2.1 (getNextCluster env fat c rc.2.2).2 := by
  rw [List.range_eq_range'] at hl
  obtain ⟨entryName', hloop⟩ := finddirEntries_eq name rc.2.1.bytes _ _ entryName hl.symm
  refine ⟨entryName', fun fuel => ?_⟩
  rw [finddirClusters, if_pos hc]
  dsimp only
  rw [hrc, hok, if_neg (by decide), hloop]
  cases (Scan.listing DirEntry.isEnd DirEntry.isListed l).find? fun e => name.CStr 0 e.cname with
  | some e => rfl
  | none =>
    cases l.any DirEntry.isEnd with
    | true => rfl
    | false => rfl

/-- **The loop of `fat32_finddir`** returns a node for the first listed entry with that name. -/
theorem finddirClusters_chain (hd : Serves env d) (ha : Allocates env)
    (h512 : fat.bytesPerSector = 512) (name : Mem) {c : Nat} {cs : List Nat}
    (hchain : DirChain d fat c cs) {fuel : Nat} (hfuel : cs.length < fuel) (entryName : Mem)
    (buffer : Buf) (s : σ) : ∃ r s',
    finddirClusters env fat name fuel c entryName buffer s = some (r, s') ∧
      Option.Rel FsNode.Stands r ((listing d fat cs).find? fun e => name.CStr 0 e.cname) := by
  induction hchain generalizing fuel entryName buffer s with
  | stop h =>
    obtain ⟨fuel, rfl⟩ : ∃ f, fuel = f + 1 := ⟨fuel - 1, by omega⟩
    rw [finddirClusters, if_neg (by omega)]
    exact ⟨none, _, rfl, Option.Rel.none⟩
  | @step c cs h hrest ih =>
    obtain ⟨fuel, rfl⟩ : ∃ f, fuel = f + 1 := ⟨fuel - 1, by omega⟩
    obtain ⟨entryName', hround⟩ := finddirClusters_round name h entryName rfl
      (readCluster_serves hd c buffer s).1 (entries_served hd h512 c buffer s)
    rw [hround, listing_cons, List.find?_append]
    generalize Scan.listing DirEntry.isEnd DirEntry.isListed (clusterEntries d fat c) = l
    cases l.find? fun e => name.CStr 0 e.cname with
    | some e => exact ⟨_, _, rfl, Option.Rel.some ⟨_, ha _ _, rfl⟩⟩
    | none =>
      cases (clusterEntries d fat c).any DirEntry.isEnd with
      | true => exact ⟨none, _, rfl, Option.Rel.none⟩
      | false =>
        dsimp only
        rw [if_neg (by decide), if_neg (by decide), getNextCluster_serves hd h512,
          Option.none_or]
        exact ih (by simpa using hfuel) _ _ _

/-! ## 4. The two functions -/

/-- **`fat32_readdir` lists the directory.**  It returns, and the result is a `struct dirent` for
the entry of the listing with that index, or null if there is none. -/
theorem fat32Readdir_listing (hd : Serves env d) (ha : Allocates env)
    (h512 : fat.bytesPerSector = 512) {inode : Nat} {cs : List Nat}
    (hchain : DirChain d fat inode cs) {fuel : Nat} (hfuel : cs.length < fuel) {index : Nat}
    (hindex : index < 2 ^ 32) (s : σ) : ∃ r s',
    fat32Readdir env fat fuel inode index s = some (r, s') ∧
      Option.Rel Dirent.Shows r (listing d fat cs)[index]? := by
  unfold fat32Readdir
  dsimp only
  rw [if_neg (ha _ _)]
  exact readdirClusters_chain hd ha h512 hindex hchain hfuel (Nat.zero_le index) _ _

/-- **`fat32_finddir` searches the listing.** -/
theorem fat32Finddir_listing (hd : Serves env d) (ha : Allocates env)
    (h512 : fat.bytesPerSector = 512) {inode : Nat} {cs : List Nat}
    (hchain : DirChain d fat inode cs) {fuel : Nat} (hfuel : cs.length < fuel)
    (name entryName : Mem) (s : σ) : ∃ r s',
    fat32Finddir env fat fuel inode name entryName s = some (r, s') ∧
      Option.Rel FsNode.Stands r ((listing d fat cs).find? fun e => name.CStr 0 e.cname) :=
  finddirClusters_chain hd ha h512 name hchain hfuel entryName _ _

/-- `fat32_readdir` returns, for index `i`, a name equal to the string at `name` and this
inode. -/
def Yields (env : FatEnv σ) (fat : Fat) (fuel dir : Nat) (s : σ) (name : Mem) (i inode : Nat) :
    Prop :=
  ∃ dirent s', fat32Readdir env fat fuel dir i s = some (some dirent, s') ∧
    dirent.name.StrEq name ∧ dirent.inode = inode

theorem Dirent.Shows.strEq_iff {dirent : Dirent} {e : DirEntry} (h : dirent.Shows e)
    {name : Mem} : dirent.name.StrEq name ↔ name.CStr 0 e.cname :=
  (Mem.cstr_takeWhile h.name).strEq_iff

theorem yields_iff (hd : Serves env d) (ha : Allocates env) (h512 : fat.bytesPerSector = 512)
    {dir : Nat} {cs : List Nat} (hchain : DirChain d fat dir cs) {fuel : Nat}
    (hfuel : cs.length < fuel) (s : σ) (name : Mem) {i inode : Nat} (hi : i < 2 ^ 32) :
    Yields env fat fuel dir s name i inode ↔
      ∃ e, (listing d fat cs)[i]? = some e ∧ name.CStr 0 e.cname ∧ e.firstCluster = inode := by
  obtain ⟨r, s', heq, hrel⟩ := fat32Readdir_listing hd ha h512 hchain hfuel hi s
  unfold Yields
  rw [heq]
  constructor
  · rintro ⟨dirent, s₁, h, hname, hinode⟩
    obtain ⟨rfl, -⟩ := Prod.mk.inj (Option.some.inj h)
    cases hl : (listing d fat cs)[i]? with
    | none =>
      rw [hl] at hrel
      cases hrel
    | some e =>
      rw [hl] at hrel
      cases hrel with
      | some hshows => exact ⟨e, rfl, hshows.strEq_iff.mp hname, hshows.inode.symm.trans hinode⟩
  · rintro ⟨e, hl, hname, hinode⟩
    rw [hl] at hrel
    cases hrel with
    | @some dirent _ hshows =>
      exact ⟨dirent, s', rfl, hshows.strEq_iff.mpr hname, hshows.inode.trans hinode⟩

/-- **The two scanners agree.**  Every index gives the entry of the listing with that number, and
null from the end of the listing on.  If all of the listing has an index, `fat32_finddir` returns
null exactly when `fat32_readdir` gives the string looked for at no index, and otherwise a node
with the inode of the first index at which it does. -/
theorem readdir_finddir (env : FatEnv σ) (d : Disk) (hd : Serves env d) (ha : Allocates env)
    (fat : Fat) (h512 : fat.bytesPerSector = 512) (dir : Nat) (cs : List Nat)
    (hchain : DirChain d fat dir cs) (fuel : Nat) (hfuel : cs.length < fuel) :
    (∀ index < 2 ^ 32, ∀ s, ∃ r s', fat32Readdir env fat fuel dir index s = some (r, s') ∧
      Option.Rel Dirent.Shows r (listing d fat cs)[index]?) ∧
    ((listing d fat cs).length ≤ 2 ^ 32 → ∀ (name entryName : Mem) (s t : σ), ∃ r s',
      fat32Finddir env fat fuel dir name entryName s = some (r, s') ∧
      (r = none ↔ ∀ i < 2 ^ 32, ∀ inode, ¬Yields env fat fuel dir t name i inode) ∧
      ∀ node, r = some node → ∃ i < 2 ^ 32, Yields env fat fuel dir t name i node.inode ∧
        ∀ j < i, ∀ inode, ¬Yields env fat fuel dir t name j inode) := by
  refine ⟨fun index hi s => fat32Readdir_listing hd ha h512 hchain hfuel hi s, ?_⟩
  intro hlen name entryName s t
  obtain ⟨r, s', heq, hrel⟩ := fat32Finddir_listing hd ha h512 hchain hfuel name entryName s
  refine ⟨r, s', heq, ?_⟩
  have hyields := fun {i inode} (hi : i < 2 ^ 32) =>
    @yields_iff σ env d fat hd ha h512 dir cs hchain fuel hfuel t name i inode hi
  cases hfind : (listing d fat cs).find? fun e => name.CStr 0 e.cname with
  | none =>
    rw [hfind] at hrel
    cases hrel
    refine ⟨iff_of_true rfl ?_, fun node h => by cases h⟩
    intro i hi inode hy
    obtain ⟨e, hl, hname, -⟩ := (hyields hi).mp hy
    have := List.find?_eq_none.mp hfind e (List.mem_of_getElem? hl)
    exact this (by simpa using hname)
  | some e =>
    rw [hfind] at hrel
    obtain ⟨hname, i, hi, he, hmin⟩ := List.find?_eq_some_iff_getElem.mp hfind
    cases hrel with
    | @some node _ hnode =>
      have hi32 : i < 2 ^ 32 := by omega
      have hfirst : Yields env fat fuel dir t name i node.inode :=
        (hyields hi32).mpr ⟨e, by rw [← he]; exact List.getElem?_eq_getElem hi,
          by simpa using hname, hnode.inode.symm⟩
      refine ⟨iff_of_false (by simp) fun hno => hno i hi32 _ hfirst, ?_⟩
      intro node' h
      obtain rfl := Option.some.inj h
      refine ⟨i, hi32, hfirst, ?_⟩
      intro j hj inode hy
      obtain ⟨e', hl, hname', -⟩ := (hyields (by omega)).mp hy
      have hj' := hmin j hj
      rw [List.getElem?_eq_getElem (by omega)] at hl
      rw [Option.some.inj hl] at hj'
      simp [hname'] at hj'

/-- The 32 bytes of an entry with a name of one letter and everything else zero. -/
def letterEntry (letter : UInt8) : Mem := fun i =>
  if i = 0 then letter else if i < 11 then 0x20 else 0

/-- A string of one letter. -/
def letterName (letter : UInt8) : Mem := fun i => if i = 0 then letter else 0

/-- A disk with a directory of the clusters 2 and 3: the first is the entry `A` and deleted ones,
the second the entry `B` and the end mark. -/
def dirDisk : Disk := fun lba i =>
  if lba = 100 then letterEntry (if i < 32 then 0x41 else 0xE5) (i % 32)
  else if lba = 101 then if i < 32 then letterEntry 0x42 i else 0
  else smallDisk lba i

/-- `B` is the second entry listed, and `fat32_finddir` finds it. -/
theorem readdir_finddir_small :
    listing dirDisk smallFat [2, 3]
      = [entryAt (letterEntry 0x41) 0, entryAt (letterEntry 0x42) 0] ∧
    (∃ dirent s', fat32Readdir (readyEnv dirDisk) smallFat 3 2 1 () = some (some dirent, s') ∧
      dirent.Shows (entryAt (letterEntry 0x42) 0)) ∧
    ∃ node s', fat32Finddir (readyEnv dirDisk) smallFat 3 2 (letterName 0x42) (fun _ => 0) ()
        = some (some node, s') ∧
      ∃ i < 2 ^ 32, Yields (readyEnv dirDisk) smallFat 3 2 () (letterName 0x42) i node.inode ∧
        ∀ j < i, ∀ inode, ¬Yields (readyEnv dirDisk) smallFat 3 2 () (letterName 0x42) j inode := by
  have hlist : listing dirDisk smallFat [2, 3]
      = [entryAt (letterEntry 0x41) 0, entryAt (letterEntry 0x42) 0] := by decide +kernel
  have hchain : DirChain dirDisk smallFat 2 [2, 3] := by
    refine .step (by decide) ?_
    have h3 : fatEntry dirDisk smallFat 2 = 3 := by decide +kernel
    rw [h3]
    exact .step (by decide) (.stop (by decide +kernel))
  obtain ⟨hread, hfind⟩ := readdir_finddir (readyEnv dirDisk) dirDisk (fun _ _ _ _ => ⟨rfl, rfl⟩)
    (fun _ _ => by simp [readyEnv]) smallFat rfl 2 [2, 3] hchain 3 (by decide)
  obtain ⟨r, s', heq, hrel⟩ := hread 1 (by decide) ()
  rw [hlist] at hrel hfind
  cases hrel with
  | @some dirent _ hB =>
    refine ⟨hlist, ⟨dirent, s', heq, hB⟩, ?_⟩
    obtain ⟨r, s₁, hres, hnone, hsome⟩ := hfind (by decide) (letterName 0x42) (fun _ => 0) () ()
    cases r with
    | none =>
      exact absurd ⟨dirent, s', heq, hB.strEq_iff.mpr (by decide), rfl⟩
        (hnone.mp rfl 1 (by decide) dirent.inode)
    | some node => exact ⟨node, s₁, hres, hsome node rfl⟩

/-! ### A directory with more entries than indices

128 sectors to a cluster make 2048 entries, so that `2 ^ 21` clusters have an entry for every
index.  The FAT here has a chain of one more cluster.  All its sectors lie below `2 ^ 28`, where
the drive can be asked for them, because some of its clusters are others under a second number:
`(cluster - 2) * sectors_per_cluster` is a 32-bit number, and so cluster `c + 2 ^ 25` is
cluster `c`. -/

def hugeFat : Fat := ⟨512, 128, 32, 2 ^ 19⟩

/-- The FAT of that volume: a stretch of clusters from 2 on, some of them again under the
numbers from `2 + 2 ^ 25` on, and the cluster behind the first stretch. -/
def hugeNext (c : Nat) : Nat :=
  if c = 2 + (2 ^ 21 - 2 ^ 13) - 1 then 2 + 2 ^ 25
  else if c = 2 + 2 ^ 25 + 2 ^ 13 - 1 then 2 + (2 ^ 21 - 2 ^ 13)
  else if c = 2 + (2 ^ 21 - 2 ^ 13) then 0x0FFFFFFF
  else c + 1

def hugeChain : List Nat :=
  List.range' 2 (2 ^ 21 - 2 ^ 13) ++ (List.range' (2 + 2 ^ 25) (2 ^ 13) ++ [2 + (2 ^ 21 - 2 ^ 13)])

/-- The disk: the FAT, clusters full of entries `A`, and one cluster with the entry `B`. -/
def hugeDisk : Disk := fun lba i =>
  if lba < 2 ^ 19 then Mem.st32 (fun _ => 0) (4 * (i / 4)) (hugeNext (128 * (lba - 32) + i / 4)) i
  else if lba < 2 ^ 19 + 128 * (2 ^ 21 - 2 ^ 13) then letterEntry 0x41 (i % 32)
  else if lba = 2 ^ 19 + 128 * (2 ^ 21 - 2 ^ 13) ∧ i < 32 then letterEntry 0x42 i
  else 0

theorem clusterEntries_eq (d : Disk) (fat : Fat) (c : Nat) :
    clusterEntries d fat c = (List.range (16 * fat.sectorsPerCluster.toNat)).map
      (entryAt fun x => d (clusterLba fat c + x / 512) (x % 512)) := by
  have hcount : (contents d fat c).length / 32 = 16 * fat.sectorsPerCluster.toNat := by
    rw [length_contents]
    omega
  unfold clusterEntries
  rw [hcount]
  refine List.map_congr_left fun i hi => entryAt_congr fun k hk => ?_
  have := List.mem_range.mp hi
  have hbytes : contents d fat c
      = Mem.bytes (fun x => d (clusterLba fat c + x / 512) (x % 512)) 0
        (512 * fat.sectorsPerCluster.toNat) := by
    unfold contents Mem.bytes
    simp only [Nat.zero_add]
  rw [hbytes, Mem.ofBytes_bytes _ (by omega)]

theorem fatEntry_huge {c : Nat} (hc : c < 2 ^ 25 + 2 ^ 14) :
    fatEntry hugeDisk hugeFat c = hugeNext c := by
  have hmod : c % 2 ^ 30 = c := Nat.mod_eq_of_lt (by omega)
  have hlba : add32 hugeFat.fatStartSector (c / 128) = 32 + c / 128 := add32_of_lt (by
    show 32 + c / 128 < 2 ^ 32
    omega)
  have hnext : hugeNext c < 2 ^ 28 := by
    unfold hugeNext
    split
    · omega
    · split
      · omega
      · split
        · omega
        · omega
  rw [fatEntry, hmod, hlba]
  have hload : (hugeDisk (32 + c / 128)).ld32 (4 * (c % 128))
      = (Mem.st32 (fun _ => 0) (4 * (c % 128)) (hugeNext c)).ld32 (4 * (c % 128)) := by
    refine Mem.ld32_congr fun x h1 h2 => ?_
    have hx : x / 4 = c % 128 := by omega
    have hcx : 128 * (32 + c / 128 - 32) + c % 128 = c := by omega
    unfold hugeDisk
    rw [if_pos (by omega), hx, hcx]
  rw [hload, Mem.ld32_st32_same (by omega), Nat.mod_eq_of_lt hnext]

/-- Consecutive clusters in front of a chain. -/
theorem DirChain.stretch {a n b : Nat} {cs : List Nat} (hlt : a + n < endOfChain)
    (hnext : ∀ i < n, fatEntry d fat (a + i) = a + i + 1) (hlast : fatEntry d fat (a + n) = b)
    (h : DirChain d fat b cs) : DirChain d fat a (List.range' a (n + 1) ++ cs) := by
  induction n generalizing a with
  | zero =>
    subst hlast
    exact .step hlt h
  | succ n ih =>
    have hfirst : fatEntry d fat a = a + 1 := hnext 0 (Nat.succ_pos n)
    rw [List.range'_succ, List.cons_append]
    refine .step (by omega) ?_
    rw [hfirst]
    refine ih (by omega) (fun i hi => ?_) ?_
    · have := hnext (i + 1) (by omega)
      rwa [← Nat.add_assoc, Nat.add_right_comm a i 1] at this
    · rwa [Nat.add_right_comm, Nat.add_assoc]

theorem hugeChain_chain : DirChain hugeDisk hugeFat 2 hugeChain := by
  have hend : endOfChain = 0x0FFFFFF8 := rfl
  have hB : DirChain hugeDisk hugeFat (2 + (2 ^ 21 - 2 ^ 13)) [2 + (2 ^ 21 - 2 ^ 13)] := by
    refine .step (by omega) (.stop ?_)
    rw [fatEntry_huge (by omega)]
    decide
  refine DirChain.stretch (by omega) (fun i hi => ?_) ?_ (DirChain.stretch (by omega)
    (fun i hi => ?_) ?_ hB)
  · rw [fatEntry_huge (by omega), hugeNext, if_neg (by omega), if_neg (by omega),
      if_neg (by omega)]
  · rw [fatEntry_huge (by omega)]
    decide
  · rw [fatEntry_huge (by omega), hugeNext, if_neg (by omega), if_neg (by omega),
      if_neg (by omega)]
  · rw [fatEntry_huge (by omega)]
    decide

/-- Clusters that hold one listed entry over and over, in front of others. -/
theorem listing_uniform {e : DirEntry} {m : Nat} {cs : List Nat} (cs' : List Nat)
    (hend : e.isEnd = false) (hlisted : e.isListed = true)
    (hcs : ∀ c ∈ cs, clusterEntries d fat c = List.replicate m e) :
    listing d fat (cs ++ cs') = List.replicate (cs.length * m) e ++ listing d fat cs' := by
  induction cs with
  | nil => simp
  | cons c cs ih =>
    have hone : Scan.listing DirEntry.isEnd DirEntry.isListed (List.replicate m e)
        = List.replicate m e := by
      unfold Scan.listing
      rw [List.takeWhile_eq_self_iff.mpr (by simp [hend])]
      simp [hlisted]
    have hany : (List.replicate m e).any DirEntry.isEnd = false := by simp [hend]
    rw [List.cons_append, listing_cons, hcs c List.mem_cons_self, hone, hany,
      if_neg (by decide), ih fun c' h => hcs c' (List.mem_cons_of_mem c h), ← List.append_assoc,
      List.replicate_append_replicate, List.length_cons, Nat.succ_mul, Nat.add_comm m]

theorem clusterEntries_huge {c k : Nat} (hk : k < 2 ^ 21 - 2 ^ 13)
    (hc : c = 2 + k ∨ c = 2 + 2 ^ 25 + k) :
    clusterEntries hugeDisk hugeFat c = List.replicate 2048 (entryAt (letterEntry 0x41) 0) := by
  have hlba : clusterLba hugeFat c = 2 ^ 19 + 128 * k := by
    have hdata : hugeFat.dataStartSector = 2 ^ 19 := rfl
    have hspc : hugeFat.sectorsPerCluster.toNat = 128 := rfl
    unfold clusterLba
    rw [hdata, hspc]
    omega
  rw [clusterEntries_eq, hlba]
  refine List.eq_replicate_iff.mpr ⟨by simp [hugeFat], ?_⟩
  intro e he
  obtain ⟨i, hi, rfl⟩ := List.mem_map.mp he
  refine entryAt_congr fun x hx => ?_
  have hi' : i < 2048 := List.mem_range.mp hi
  have hmod : (32 * i + x) % 512 % 32 = 32 * 0 + x := by omega
  unfold hugeDisk
  rw [if_neg (by omega), if_pos (by omega), hmod]

theorem listing_huge_last :
    listing hugeDisk hugeFat [2 + (2 ^ 21 - 2 ^ 13)] = [entryAt (letterEntry 0x42) 0] := by
  have hlba : clusterLba hugeFat (2 + (2 ^ 21 - 2 ^ 13)) = 2 ^ 19 + 128 * (2 ^ 21 - 2 ^ 13) := by
    decide
  have hlast : clusterEntries hugeDisk hugeFat (2 + (2 ^ 21 - 2 ^ 13))
      = entryAt (letterEntry 0x42) 0 :: entryAt (fun _ => 0) 0 ::
        (List.range' 2 2046).map (entryAt fun x => hugeDisk (2 ^ 19 + 128 * (2 ^ 21 - 2 ^ 13) +
          x / 512) (x % 512)) := by
    rw [clusterEntries_eq, hlba, List.range_eq_range']
    refine congr (congrArg _ (entryAt_congr fun k hk => ?_)) (congr (congrArg _
      (entryAt_congr fun k hk => ?_)) rfl)
    · unfold hugeDisk
      rw [if_neg (by omega), if_neg (by omega), if_pos (by omega)]
      congr 1
      omega
    · unfold hugeDisk
      rw [if_neg (by omega), if_neg (by omega), if_neg (by omega)]
  rw [listing_cons, hlast, Scan.listing_cons_listed (by decide) (by decide),
    Scan.listing_cons_end (by decide), List.any_cons, List.any_cons]
  rfl

theorem listing_huge : listing hugeDisk hugeFat hugeChain
    = List.replicate (2 ^ 32) (entryAt (letterEntry 0x41) 0) ++ [entryAt (letterEntry 0x42) 0] := by
  have hA : ∀ c ∈ List.range' 2 (2 ^ 21 - 2 ^ 13) ++ List.range' (2 + 2 ^ 25) (2 ^ 13),
      clusterEntries hugeDisk hugeFat c = List.replicate 2048 (entryAt (letterEntry 0x41) 0) := by
    intro c hc
    rcases List.mem_append.mp hc with h | h
    · obtain ⟨k, hk, rfl⟩ := List.mem_range'.mp h
      exact clusterEntries_huge hk (by omega)
    · obtain ⟨k, hk, rfl⟩ := List.mem_range'.mp h
      exact @clusterEntries_huge _ k (by omega) (by omega)
  have hcount : (2 ^ 21 - 2 ^ 13 + 2 ^ 13) * 2048 = 2 ^ 32 := by decide
  unfold hugeChain
  rw [← List.append_assoc, listing_uniform _ (by decide) (by decide) hA, listing_huge_last,
    List.length_append, List.length_range', List.length_range', hcount]

/-- The directory has `B` as entry number `2 ^ 32`.  `fat32_finddir` finds it, but there is no
index under which `fat32_readdir` returns it. -/
theorem finddir_beyond_index : DirChain hugeDisk hugeFat 2 hugeChain ∧
    ∀ fuel, hugeChain.length < fuel →
      (∃ node s', fat32Finddir (readyEnv hugeDisk) hugeFat fuel 2 (letterName 0x42)
        (fun _ => 0) () = some (some node, s')) ∧
      ∀ i < 2 ^ 32, ∀ inode,
        ¬Yields (readyEnv hugeDisk) hugeFat fuel 2 () (letterName 0x42) i inode := by
  have hd : Serves (readyEnv hugeDisk) hugeDisk := fun _ _ _ _ => ⟨rfl, rfl⟩
  have ha : Allocates (readyEnv hugeDisk) := fun _ _ => by simp [readyEnv]
  have hA : ¬(letterName 0x42).CStr 0 (entryAt (letterEntry 0x41) 0).cname := by decide
  have hB : (letterName 0x42).CStr 0 (entryAt (letterEntry 0x42) 0).cname := by decide
  refine ⟨hugeChain_chain, fun fuel hfuel => ⟨?_, ?_⟩⟩
  · obtain ⟨r, s', heq, hrel⟩ := fat32Finddir_listing hd ha rfl hugeChain_chain hfuel
      (letterName 0x42) (fun _ => 0) ()
    rw [listing_huge, List.find?_append, List.find?_replicate_of_neg (by simpa using hA),
      List.find?_cons_of_pos (by simpa using hB)] at hrel
    cases hrel
    exact ⟨_, s', heq⟩
  · intro i hi inode hy
    obtain ⟨e, hl, hname, -⟩ := (yields_iff hd ha rfl hugeChain_chain hfuel ()
      (letterName 0x42) hi).mp hy
    rw [listing_huge, List.getElem?_append_left (by rwa [List.length_replicate]),
      List.getElem?_replicate, if_pos hi] at hl
    exact hA (Option.some.inj hl ▸ hname)

end FlowOS.Fat32
