/-
# The buffers of the FAT32 driver

`ata_read_sectors` stores 512 bytes for each sector, and the driver counts its clusters in units
of `bytes_per_sector`.  Whether the two agree decides about everything the driver does with its
buffers.  `StaysInside` says what that is, in three parts:

* the four bytes that `get_next_cluster` looks at lie in the 512 it has filled;
* every read of a call goes to a block the call has allocated, not freed, and made large enough;
* no result depends on what a new buffer held, so that the bytes inspected have all been filled.

The second part is about the log of what a call asks its services for, the third compares two
runs that differ in the memory `kmalloc` returns.

For sectors of 512 bytes all of it holds, whatever is on the disk and whichever reads fail.  With
smaller ones the cluster buffer is too short for the sectors read into it, with larger ones the
FAT entry of cluster 128 lies behind the buffer: the sector size is the whole condition.
-/
import FlowOS.Fat32.Calls
import FlowOS.Fat32.Init
import FlowOS.Fat32.Listing
import FlowOS.Fat32.Bounded
import Mathlib.Data.List.Nodup

namespace FlowOS.Fat32

open Word

variable {σ : Type}

/-! ## 1. What a call asks for -/

inductive Event
  | kmalloc (addr size : Nat)
  | kfree (addr : Nat)
  | read (addr lba count : Nat)

/-- The same services with a log of their calls, the latest first. -/
def logged (env : FatEnv σ) : FatEnv (σ × List Event) where
  kmalloc n s :=
    let r := env.kmalloc n s.1
    (r.1, r.2, .kmalloc r.1.addr n :: s.2)
  kfree a s := (env.kfree a s.1, .kfree a :: s.2)
  ataReadSectors drive lba count buffer s :=
    let r := env.ataReadSectors drive lba count buffer s.1
    (r.1, r.2.1, r.2.2, .read buffer.addr lba count :: s.2)

/-- The size of the block that is allocated at an address. -/
def blockAt : List Event → Nat → Option Nat
  | [], _ => none
  | .kmalloc b n :: log, a => if a = b then some n else blockAt log a
  | .kfree b :: log, a => if a = b then none else blockAt log a
  | .read _ _ _ :: log, a => blockAt log a

/-- Every allocation succeeded, at an address that was free. -/
def Fresh : List Event → Prop
  | [] => True
  | .kmalloc a _ :: log => a ≠ 0 ∧ blockAt log a = none ∧ Fresh log
  | .kfree _ :: log => Fresh log
  | .read _ _ _ :: log => Fresh log

/-- Every read went to an allocated block and stored no more than fits. -/
def Fits : List Event → Prop
  | [] => True
  | .kmalloc _ _ :: log => Fits log
  | .kfree _ :: log => Fits log
  | .read a _ count :: log => (∃ n, blockAt log a = some n ∧ 512 * count ≤ n) ∧ Fits log

/-- The log so far is in order, and these blocks are allocated, each at its own address. -/
structure Holds (log : List Event) (held : List (Nat × Nat)) : Prop where
  fits : Fits log
  allocated : ∀ p ∈ held, blockAt log p.1 = some p.2
  nodup : (held.map Prod.fst).Nodup

theorem Holds.kmalloc {log : List Event} {held : List (Nat × Nat)} {a n : Nat}
    (h : Holds log held) (hfree : blockAt log a = none) :
    Holds (.kmalloc a n :: log) ((a, n) :: held) where
  fits := h.fits
  allocated := by
    intro p hp
    rw [blockAt]
    rcases List.mem_cons.mp hp with rfl | hp
    · rw [if_pos rfl]
    · have hne : p.1 ≠ a := by
        intro heq
        rw [← heq, h.allocated p hp] at hfree
        cases hfree
      rw [if_neg hne, h.allocated p hp]
  nodup := by
    refine List.nodup_cons.mpr ⟨?_, h.nodup⟩
    intro hmem
    obtain ⟨p, hp, rfl⟩ := List.mem_map.mp hmem
    rw [h.allocated p hp] at hfree
    cases hfree

/-- A block is freed; freeing an address that is not allocated changes nothing. -/
theorem Holds.kfree {log : List Event} {held : List (Nat × Nat)} {a : Nat}
    (h : Holds log held) : Holds (.kfree a :: log) (held.filter fun p => p.1 ≠ a) where
  fits := h.fits
  allocated := by
    intro p hp
    obtain ⟨hp, hne⟩ := List.mem_filter.mp hp
    rw [blockAt, if_neg (by simpa using hne), h.allocated p hp]
  nodup := h.nodup.sublist (List.filter_sublist.map _)

/-- The blocks have different addresses, so one of them is taken away by its address. -/
theorem Holds.erase_eq {log : List Event} {held : List (Nat × Nat)} {a n : Nat}
    (h : Holds log held) (hmem : (a, n) ∈ held) :
    held.erase (a, n) = held.filter fun p => p.1 ≠ a := by
  rw [List.Nodup.erase_eq_filter (List.Nodup.of_map _ h.nodup)]
  refine List.filter_congr fun p hp => ?_
  have hiff : p = (a, n) ↔ p.1 = a :=
    ⟨fun heq => by rw [heq], fun heq => List.inj_on_of_nodup_map h.nodup hp hmem heq⟩
  rw [bne, beq_eq_decide, decide_not, decide_eq_decide.mpr hiff]

/-- **The log of any services** is a contract: what is held is what the log has allocated. -/
theorem logged_contract (env : FatEnv σ) :
    Contract (logged env) fun held s => Fresh s.2 → Holds s.2 held where
  kmalloc := by
    rintro held ⟨s, log⟩ n h - - ⟨-, hfree, hfresh⟩
    exact (h hfresh).kmalloc hfree
  failed := by
    rintro held ⟨s, log⟩ n - - h0 held' ⟨hne, -⟩
    exact absurd h0 hne
  kfree := by
    rintro held ⟨s, log⟩ a n h hmem hfresh
    rw [(h hfresh).erase_eq hmem]
    exact (h hfresh).kfree
  kfreeTwice := by
    rintro held ⟨s, log⟩ a n h hmem hfresh
    have hfreed := (h hfresh).kfree (a := a)
    have htwice := hfreed.kfree (a := a)
    simp only [List.filter_filter, Bool.and_self] at htwice
    rw [(h hfresh).erase_eq hmem]
    exact htwice
  read := by
    rintro held ⟨s, log⟩ lba count n buffer h hmem hroom hfresh
    have hin := h hfresh
    exact ⟨⟨⟨n, hin.allocated _ hmem, hroom⟩, hin.fits⟩, hin.allocated, hin.nodup⟩

/-! ## 2. What a result depends on -/

/-- The same services with other memory in the buffers `kmalloc` returns. -/
def refilled (env : FatEnv σ) (junk : Nat → σ → Mem) : FatEnv σ :=
  { env with kmalloc := fun n s => (⟨(env.kmalloc n s).1.addr, junk n s⟩, (env.kmalloc n s).2) }

/-- A read that succeeds stores 512 bytes for each sector; what the buffer held before makes no
difference to them, nor to the outcome. -/
def Fills (env : FatEnv σ) : Prop := ∀ lba count addr m m' s,
  (env.ataReadSectors 0 lba count ⟨addr, m'⟩ s).1 = (env.ataReadSectors 0 lba count ⟨addr, m⟩ s).1 ∧
  (env.ataReadSectors 0 lba count ⟨addr, m'⟩ s).2.2
    = (env.ataReadSectors 0 lba count ⟨addr, m⟩ s).2.2 ∧
  ((env.ataReadSectors 0 lba count ⟨addr, m⟩ s).1 = true → ∀ i < 512 * count,
    (env.ataReadSectors 0 lba count ⟨addr, m'⟩ s).2.1 i
      = (env.ataReadSectors 0 lba count ⟨addr, m⟩ s).2.1 i)

/-- The two results are the same, but for the memory that a `struct dirent` or a node is written
over. -/
inductive Outcome.Alike : Outcome → Outcome → Prop
  | count (r : Nat) (buffer : Mem) : Alike (.count r buffer) (.count r buffer)
  | noEntry : Alike (.entry none) (.entry none)
  | entry (e : DirEntry) (addr : Nat) (m m' : Mem) :
      Alike (.entry (some ⟨addr, copyName e m, e.firstCluster⟩))
        (.entry (some ⟨addr, copyName e m', e.firstCluster⟩))
  | noNode : Alike (.node none) (.node none)
  | node (e : DirEntry) (addr : Nat) (m m' : Mem) :
      Alike (.node (some (fileNode e ⟨addr, m⟩))) (.node (some (fileNode e ⟨addr, m'⟩)))

section Refilled

variable {env : FatEnv σ} {fat : Fat} (hf : Fills env) (h512 : fat.bytesPerSector = 512)
  (junk : Nat → σ → Mem)

include hf h512

theorem getNextCluster_refilled (c : Nat) (s : σ) :
    getNextCluster (refilled env junk) fat c s = getNextCluster env fat c s := by
  have hin := entOffset_le h512 c
  obtain ⟨hok, hstate, hbytes⟩ := hf (fatSector fat c) 1 (env.kmalloc 512 s).1.addr
    (env.kmalloc 512 s).1.bytes (junk 512 s) (env.kmalloc 512 s).2
  have hok' : (fatRead (refilled env junk) fat c s).1 = (fatRead env fat c s).1 := hok
  have hstate' : (fatRead (refilled env junk) fat c s).2.2 = (fatRead env fat c s).2.2 := hstate
  rw [getNextCluster_eq, getNextCluster_eq, hok', hstate']
  cases hread : (fatRead env fat c s).1 with
  | false => rfl
  | true =>
    have hload : (fatRead (refilled env junk) fat c s).2.1.ld32 (entOffset fat c)
        = (fatRead env fat c s).2.1.ld32 (entOffset fat c) :=
      Mem.ld32_congr fun x _ hx => hbytes hread x (by omega)
    rw [hload]
    rfl

theorem skipClusters_refilled (fuel c offset : Nat) (s : σ) :
    skipClusters (refilled env junk) fat fuel c offset s
      = skipClusters env fat fuel c offset s := by
  induction fuel generalizing c offset s with
  | zero => rfl
  | succ fuel ih =>
    rw [skipClusters, skipClusters, getNextCluster_refilled hf h512]
    dsimp only
    rw [ih]

omit h512 in
/-- The cluster is read alike into two buffers at one address. -/
theorem readCluster_refilled (c : Nat) {b b' : Buf} (haddr : b'.addr = b.addr) (s : σ) :
    (readCluster (refilled env junk) fat c b' s).1 = (readCluster env fat c b s).1 ∧
    (readCluster (refilled env junk) fat c b' s).2.2 = (readCluster env fat c b s).2.2 ∧
    ((readCluster env fat c b s).1 = true → ∀ i < 512 * fat.sectorsPerCluster.toNat,
      (readCluster (refilled env junk) fat c b' s).2.1.bytes i
        = (readCluster env fat c b s).2.1.bytes i) := by
  obtain ⟨a, m⟩ := b
  obtain ⟨a', m'⟩ := b'
  dsimp only at haddr
  subst haddr
  exact hf _ _ _ _ _ _

theorem copyClusters_refilled (hspc : fat.sectorsPerCluster ≠ 0) (fuel c : Nat) {offset : Nat}
    (hoffset : offset < fat.clusterSize) (size readSize : Nat) {b b' : Buf}
    (haddr : b'.addr = b.addr) (buffer : Mem) (s : σ) :
    copyClusters (refilled env junk) fat fuel c offset size readSize b' buffer s
      = copyClusters env fat fuel c offset size readSize b buffer s := by
  obtain ⟨hpos, hB⟩ := clusterSize_bounds h512 hspc
  induction fuel generalizing c offset size readSize b b' buffer s with
  | zero => rfl
  | succ fuel ih =>
    obtain ⟨hok, hstate, hbytes⟩ := readCluster_refilled hf junk c haddr s
    rw [copyClusters, copyClusters]
    dsimp only
    rw [hok, hstate, sub32_of_le hoffset.le hB]
    have haddr' : (readCluster (refilled env junk) fat c b' s).2.1.addr
        = (readCluster env fat c b s).2.1.addr := haddr
    by_cases hsize : 0 < size
    swap
    · rw [if_neg hsize, if_neg hsize]
    rw [if_pos hsize, if_pos hsize]
    cases hread : (readCluster env fat c b s).1 with
    | false => rw [if_pos rfl, if_pos rfl]
    | true =>
      obtain ⟨n, hn⟩ : ∃ n, n = if size < fat.clusterSize - offset then size
          else fat.clusterSize - offset := ⟨_, rfl⟩
      have hle : n ≤ fat.clusterSize - offset := by
        rw [hn]
        split <;> omega
      have hcopy : buffer.copy readSize (readCluster (refilled env junk) fat c b' s).2.1.bytes
          offset n = buffer.copy readSize (readCluster env fat c b s).2.1.bytes offset n := by
        refine Mem.copy_congr fun i hi => hbytes hread _ ?_
        rw [← clusterSize_eq h512]
        omega
      have htrue : ¬true = false := by decide
      rw [if_neg htrue, if_neg htrue, ← hn, hcopy, getNextCluster_refilled hf h512,
        ih _ hpos _ _ haddr', ih _ hpos _ _ haddr']

omit hf h512 in
/-- The entries looked at lie in the first `32 * n` bytes. -/
theorem readdirEntries_congr {m m' : Mem} (index : Nat) {n i bound : Nat}
    (h : ∀ x < bound, m' x = m x) (hin : 32 * (i + n) ≤ bound) (cur : Nat) :
    readdirEntries index m' n i cur = readdirEntries index m n i cur := by
  induction n generalizing i cur with
  | zero => rfl
  | succ n ih =>
    have he : entryAt m' i = entryAt m i := entryAt_congr fun k hk => h _ (by omega)
    rw [readdirEntries, readdirEntries, he, ih (by omega), ih (by omega)]

omit hf h512 in
theorem finddirEntries_congr {m m' : Mem} (name : Mem) {n i bound : Nat}
    (h : ∀ x < bound, m' x = m x) (hin : 32 * (i + n) ≤ bound) (entryName : Mem) :
    finddirEntries name m' n i entryName = finddirEntries name m n i entryName := by
  induction n generalizing i entryName with
  | zero => rfl
  | succ n ih =>
    have he : entryAt m' i = entryAt m i := entryAt_congr fun k hk => h _ (by omega)
    have hrest : ∀ en, finddirEntries name m' n (i + 1) en = finddirEntries name m n (i + 1) en :=
      ih (by omega)
    simp only [finddirEntries, he, hrest]

/-- The results of two runs: both out of fuel, or alike and in the same state. -/
def Same (r r' : Option (Outcome × σ)) : Prop :=
  Option.Rel (fun x x' => x.1.Alike x'.1 ∧ x'.2 = x.2) r r'

theorem readdirClusters_refilled (index fuel c cur : Nat) {b b' : Buf} (haddr : b'.addr = b.addr)
    (s : σ) : Same
      ((readdirClusters env fat index fuel c cur b s).map fun r => (.entry r.1, r.2))
      ((readdirClusters (refilled env junk) fat index fuel c cur b' s).map
        fun r => (.entry r.1, r.2)) := by
  induction fuel generalizing c cur b b' s with
  | zero => exact Option.Rel.none
  | succ fuel ih =>
    obtain ⟨hok, hstate, hbytes⟩ := readCluster_refilled hf junk c haddr s
    have haddr' : (readCluster (refilled env junk) fat c b' s).2.1.addr
        = (readCluster env fat c b s).2.1.addr := haddr
    rw [readdirClusters, readdirClusters]
    dsimp only
    by_cases hc : c < endOfChain
    swap
    · rw [if_neg hc, if_neg hc, haddr]
      exact Option.Rel.some ⟨.noEntry, rfl⟩
    rw [if_pos hc, if_pos hc, hok, hstate, haddr']
    cases hread : (readCluster env fat c b s).1 with
    | false =>
      rw [if_pos rfl, if_pos rfl]
      exact Option.Rel.some ⟨.noEntry, rfl⟩
    | true =>
      have htrue : ¬true = false := by decide
      have hentries := readdirEntries_congr index (n := fat.clusterSize / 32) (i := 0)
        (hbytes hread) (by rw [clusterSize_eq h512]; omega) cur
      rw [if_neg htrue, if_neg htrue, hentries]
      cases readdirEntries index (readCluster env fat c b s).2.1.bytes (fat.clusterSize / 32) 0
        cur with
      | endOfDir => exact Option.Rel.some ⟨.noEntry, rfl⟩
      | hit e => exact Option.Rel.some ⟨.entry e _ _ _, rfl⟩
      | more cur' =>
        dsimp only
        rw [getNextCluster_refilled hf h512]
        exact ih _ _ haddr' _

theorem finddirClusters_refilled (name : Mem) (fuel c : Nat) (entryName : Mem) {b b' : Buf}
    (haddr : b'.addr = b.addr) (s : σ) : Same
      ((finddirClusters env fat name fuel c entryName b s).map fun r => (.node r.1, r.2))
      ((finddirClusters (refilled env junk) fat name fuel c entryName b' s).map
        fun r => (.node r.1, r.2)) := by
  induction fuel generalizing c entryName b b' s with
  | zero => exact Option.Rel.none
  | succ fuel ih =>
    obtain ⟨hok, hstate, hbytes⟩ := readCluster_refilled hf junk c haddr s
    have haddr' : (readCluster (refilled env junk) fat c b' s).2.1.addr
        = (readCluster env fat c b s).2.1.addr := haddr
    rw [finddirClusters, finddirClusters]
    dsimp only
    by_cases hc : c < endOfChain
    swap
    · rw [if_neg hc, if_neg hc, haddr]
      exact Option.Rel.some ⟨.noNode, rfl⟩
    rw [if_pos hc, if_pos hc, hok, hstate, haddr']
    cases hread : (readCluster env fat c b s).1 with
    | false =>
      rw [if_pos rfl, if_pos rfl]
      exact Option.Rel.some ⟨.noNode, rfl⟩
    | true =>
      have htrue : ¬true = false := by decide
      have hentries := finddirEntries_congr name (n := fat.clusterSize / 32) (i := 0)
        (hbytes hread) (by rw [clusterSize_eq h512]; omega) entryName
      rw [if_neg htrue, if_neg htrue, hentries]
      cases finddirEntries name (readCluster env fat c b s).2.1.bytes (fat.clusterSize / 32) 0
        entryName with
      | none => exact Option.Rel.none
      | some found =>
        cases found with
        | endOfDir => exact Option.Rel.some ⟨.noNode, rfl⟩
        | hit e => exact Option.Rel.some ⟨.node e _ _ _, rfl⟩
        | more entryName' =>
          dsimp only
          rw [getNextCluster_refilled hf h512]
          exact ih _ _ haddr' _

omit hf h512 in
theorem Same.refl (r : Option (Nat × Mem × σ)) :
    Same (r.map fun x => (.count x.1 x.2.1, x.2.2)) (r.map fun x => (.count x.1 x.2.1, x.2.2)) := by
  cases r with
  | none => exact Option.Rel.none
  | some x => exact Option.Rel.some ⟨.count _ _, rfl⟩

/-- **No call depends on what its buffers held.** -/
theorem Call.run_refilled (hspc : fat.sectorsPerCluster ≠ 0) (call : Call) (fuel : Nat) (s : σ) :
    Same (call.run env fat fuel s) (call.run (refilled env junk) fat fuel s) := by
  have haddr : ∀ t, ((refilled env junk).kmalloc fat.clusterSize t).1.addr
      = (env.kmalloc fat.clusterSize t).1.addr := fun _ => rfl
  cases call with
  | read inode offset size buffer =>
    have heq : fat32Read (refilled env junk) fat inode offset size buffer s
        = fat32Read env fat inode offset size buffer s := by
      obtain ⟨found, s₁, hskip, hin⟩ := @skipClusters_returns σ fat env
        (clusterSize_bounds h512 hspc).1 inode offset (offset + 1) (Nat.lt_succ_self _) s
      unfold fat32Read
      rw [skipClusters_refilled hf h512, hskip]
      cases found with
      | none => rfl
      | some p =>
        have hcopy := copyClusters_refilled hf h512 junk hspc (size + 1) p.1 (hin p.1 p.2 rfl)
          size 0 (haddr s₁) buffer (env.kmalloc fat.clusterSize s₁).2
        dsimp only
        rw [haddr, show ((refilled env junk).kmalloc fat.clusterSize s₁).2
          = (env.kmalloc fat.clusterSize s₁).2 from rfl, hcopy]
        rfl
    rw [Call.run, Call.run, heq]
    exact .refl _
  | readdir inode index =>
    unfold Call.run fat32Readdir
    dsimp only
    rw [haddr]
    by_cases h0 : (env.kmalloc fat.clusterSize s).1.addr = 0
    · rw [if_pos h0, if_pos h0]
      exact Option.Rel.some ⟨.noEntry, rfl⟩
    · rw [if_neg h0, if_neg h0]
      exact readdirClusters_refilled hf h512 junk index fuel inode 0 (haddr s) _
  | finddir inode name entryName =>
    exact finddirClusters_refilled hf h512 junk name fuel inode entryName (haddr s) _

end Refilled

/-! ## 3. The sector size decides -/

/-- **The driver stays inside its buffers**, for every cluster number and everything the services
may answer. -/
structure StaysInside (fat : Fat) : Prop where
  entry : ∀ c < 2 ^ 32, entOffset fat c + 4 ≤ 512
  stores : ∀ {σ : Type} (env : FatEnv σ) (call : Call) (fuel : Nat) (s : σ) (o : Outcome) (s' : σ)
    (log : List Event), call.run (logged env) fat fuel (s, []) = some (o, s', log) → Fresh log →
      Fits log
  filled : ∀ {σ : Type} (env : FatEnv σ), Fills env → ∀ (junk : Nat → σ → Mem) (call : Call)
    (fuel : Nat) (s : σ), Same (call.run env fat fuel s) (call.run (refilled env junk) fat fuel s)

theorem staysInside_512 {fat : Fat} (h512 : fat.bytesPerSector = 512)
    (hspc : fat.sectorsPerCluster ≠ 0) : StaysInside fat where
  entry := fun c _ => entOffset_le h512 c
  stores := by
    intro σ env call fuel s o s' log hrun hfresh
    have hroom : fat.Roomy := (clusterSize_eq h512).ge
    have hstart : Fresh [] → Holds [] [] :=
      fun _ => ⟨trivial, fun _ hp => absurd hp List.not_mem_nil, List.nodup_nil⟩
    exact (call.run_keeps (logged_contract env) hroom hstart hrun hfresh).fits
  filled := fun env hf junk call fuel s => call.run_refilled hf h512 junk hspc fuel s

/-- The first byte of a file takes one cluster buffer and one read. -/
theorem fat32Read_byte (env : FatEnv σ) {fat : Fat} (hpos : 0 < fat.clusterSize) (c : Nat)
    (buffer : Mem) (s : σ) {r : Buf × σ} (hr : env.kmalloc fat.clusterSize s = r)
    (hok : (readCluster env fat c r.1 r.2).1 = true) : ∃ buffer',
    fat32Read env fat c 0 1 buffer s
      = some (1, buffer', env.kfree r.1.addr (readCluster env fat c r.1 r.2).2.2) := by
  subst hr
  have hsub : sub32 fat.clusterSize 0 = fat.clusterSize :=
    sub32_of_le (Nat.zero_le _) ((clusterSize_lt fat).trans (by decide))
  have hchunk : (if 1 < fat.clusterSize then 1 else fat.clusterSize) = 1 := by
    split <;> omega
  have hskip : skipClusters env fat (0 + 1) c 0 s = some (some (c, 0), s) := by
    rw [skipClusters, if_neg (by omega)]
  unfold fat32Read
  rw [hskip]
  dsimp only
  rw [copyClusters, if_pos (by decide)]
  dsimp only
  rw [hok, hsub, hchunk, if_neg (by decide), if_neg (by decide), copyClusters,
    if_neg (by decide)]
  exact ⟨_, rfl⟩

/-- What it asks for, on a machine whose reads succeed. -/
theorem read_byte_log {fat : Fat} (hpos : 0 < fat.clusterSize) (d : Disk) (c : Nat)
    (buffer : Mem) : ∃ o, (Call.read c 0 1 buffer).run (logged (readyEnv d)) fat 0 ((), [])
      = some (o, (), [.kfree 0xC0001010,
          .read 0xC0001010 (clusterLba fat c) fat.sectorsPerCluster.toNat,
          .kmalloc 0xC0001010 fat.clusterSize]) := by
  obtain ⟨buffer', hread⟩ :=
    fat32Read_byte (logged (readyEnv d)) hpos c buffer ((), []) rfl rfl
  rw [readCluster, lba_eq] at hread
  rw [Call.run, hread]
  exact ⟨_, rfl⟩

/-- **When the driver stays inside its buffers.**  For every boot sector that `fat32_init`
accepts, whatever the services answered: exactly when `bytes_per_sector` is 512. -/
theorem staysInside_iff (env : FatEnv σ) (s s' : σ) (vol : Volume)
    (hinit : fat32Init env s = (.ok vol, s')) :
    StaysInside vol.bpb.fat ↔ vol.bpb.bytesPerSector = 512 := by
  have haccepted := fat32Init_accepted hinit
  have hspc : vol.bpb.sectorsPerCluster.toNat ≠ 0 :=
    fun h0 => haccepted.sectorsPerCluster (UInt8.toNat_inj.mp h0)
  have hbps : vol.bpb.bytesPerSector.toNat ≠ 0 :=
    fun h0 => haccepted.bytesPerSector (UInt16.toNat_inj.mp h0)
  constructor
  · intro h
    rcases Nat.lt_trichotomy vol.bpb.bytesPerSector.toNat 512 with hlt | heq | hgt
    · -- a cluster buffer is smaller than the sectors of a cluster
      have hpos : 0 < vol.bpb.fat.clusterSize :=
        Nat.mul_pos (Nat.pos_of_ne_zero hspc) (Nat.pos_of_ne_zero hbps)
      have hsmall : vol.bpb.fat.clusterSize < 512 * vol.bpb.sectorsPerCluster.toNat := by
        rw [Nat.mul_comm 512]
        exact Nat.mul_lt_mul_of_pos_left hlt (Nat.pos_of_ne_zero hspc)
      obtain ⟨o, hrun⟩ := read_byte_log hpos (fun _ _ => 0) 0 (fun _ => 0)
      obtain ⟨⟨n, hn, hfit⟩, -⟩ := h.stores (readyEnv _) _ _ _ o () _ hrun
        ⟨by decide, rfl, trivial⟩
      rw [blockAt, if_pos rfl] at hn
      cases hn
      exact absurd hfit (Nat.not_le_of_lt hsmall)
    · exact UInt16.toNat_inj.mp heq
    · -- the entry of cluster 128 begins where the buffer ends
      have h128 := h.entry 128 (by decide)
      have hoff : entOffset vol.bpb.fat 128 = 512 := Nat.mod_eq_of_lt hgt
      omega
  · exact fun h512 => staysInside_512 h512 haccepted.sectorsPerCluster

/-- The volume of the examples. -/
theorem staysInside_iff_small : ∃ root s',
    fat32Init (readyEnv smallDisk.mounted) () = (.ok ⟨smallBpb, root⟩, s') ∧
      StaysInside smallBpb.fat := by
  have hserves : Serves (readyEnv smallDisk.mounted) smallDisk.mounted := fun _ _ _ _ => ⟨rfl, rfl⟩
  obtain ⟨root, s', h⟩ := (fat32Init_mounts hserves () smallBpb).mpr (mounts_mounted smallDisk)
  exact ⟨root, s', h, (staysInside_iff _ () s' _ h).mpr rfl⟩

/-- The same volume with other values in `bytes_per_sector`. -/
def sizedDisk (bps : UInt16) : Disk := fun lba i =>
  if lba = 0 ∧ i = 11 then .ofNat (bps.toNat % 256)
  else if lba = 0 ∧ i = 12 then .ofNat (bps.toNat / 256)
  else smallDisk.mounted lba i

def sizedBpb (bps : UInt16) : Bpb := { smallBpb with bytesPerSector := bps }

/-- `fat32_init` accepts sectors of 256 and of 1024 bytes.  With the former, reading one byte of a
file stores 512 bytes in a block of 256.  With the latter the FAT entry of cluster 128 is behind
the 512 bytes of the buffer, and byte 512 of a file is what the cluster buffer held before. -/
theorem outside_buffers :
    (Mounts (sizedDisk 256) (sizedBpb 256) ∧ ∃ o,
      (Call.read 2 0 1 fun _ => 0).run (logged (readyEnv (sizedDisk 256))) (sizedBpb 256).fat 0
        ((), []) = some (o, (), [.kfree 0xC0001010, .read 0xC0001010 100 1,
          .kmalloc 0xC0001010 256]) ∧
      ¬Fits [.kfree 0xC0001010, .read 0xC0001010 100 1, .kmalloc 0xC0001010 256]) ∧
    Mounts (sizedDisk 1024) (sizedBpb 1024) ∧ entOffset (sizedBpb 1024).fat 128 = 512 ∧
      ∀ junk : UInt8, ∃ buffer' s',
        fat32Read (refilled (readyEnv (sizedDisk 1024)) fun _ _ _ => junk) (sizedBpb 1024).fat 2
          512 1 (fun _ => 0) () = some (1, buffer', s') ∧ buffer' 0 = junk := by
  refine ⟨⟨⟨by decide, by constructor <;> decide⟩, ?_⟩, ⟨by decide, by constructor <;> decide⟩,
    by decide, fun junk => ⟨_, _, rfl, rfl⟩⟩
  obtain ⟨o, hrun⟩ := @read_byte_log (sizedBpb 256).fat (by decide) (sizedDisk 256) 2 fun _ => 0
  refine ⟨o, hrun, ?_⟩
  rintro ⟨⟨n, hn, hfit⟩, -⟩
  rw [blockAt, if_pos rfl] at hn
  cases hn
  exact absurd hfit (by decide)

end FlowOS.Fat32
