/-
# The file system on a disk that fails

`Read` and `Listing` say what the driver returns when every sector can be read.  Here a read may
fail at any point.  Nothing in the driver tries again or reports it: a file seems to end before the
cluster that could not be read, or behind the one whose successor could not be looked up, and a
directory likewise.

So with failing reads the answers are shorter, but no answer is wrong: a call delivers a first part
of what it was asked for, or finds nothing, and it does so only if a read has failed
(`runCalls_answered`).  The driver keeps nothing from one call to the next, so this holds of every
call of a run, whatever has failed before.

`Bad` is a property of the services' state that holds from the first read on that has failed.
-/
import FlowOS.Fat32.Listing
import FlowOS.Fat32.Calls

namespace FlowOS.Fat32

open Word

variable {σ : Type} {env : FatEnv σ} {d : Disk} {fat : Fat} {Bad : σ → Prop}

/-! ## 1. Reads that fail -/

/-- The state tells whether a read has failed. -/
structure Notes (env : FatEnv σ) (Bad : σ → Prop) : Prop where
  failed : ∀ {lba count buffer s}, (env.ataReadSectors 0 lba count buffer s).1 = false →
    Bad (env.ataReadSectors 0 lba count buffer s).2.2
  read : ∀ {lba count buffer s}, Bad s → Bad (env.ataReadSectors 0 lba count buffer s).2.2
  kmalloc : ∀ {n s}, Bad s → Bad (env.kmalloc n s).2
  kfree : ∀ {a s}, Bad s → Bad (env.kfree a s)

/-- A lookup follows the FAT, or it fails and the chain seems to end. -/
theorem getNextCluster_faulty (hd : Reliable env d) (hn : Notes env Bad)
    (h512 : fat.bytesPerSector = 512) (c : Nat) (s : σ) :
    (getNextCluster env fat c s).1 = fatEntry d fat c ∨
      endOfChain ≤ (getNextCluster env fat c s).1 ∧ Bad (getNextCluster env fat c s).2 := by
  cases hok : (fatRead env fat c s).1 with
  | true => exact .inl (getNextCluster_reliable hd h512 hok)
  | false =>
    refine .inr ?_
    rw [getNextCluster_eq, hok, if_pos rfl]
    exact ⟨by show endOfChain ≤ 0x0FFFFFFF; decide, hn.kfree (hn.failed hok)⟩

/-! ## 2. `fat32_read` -/

/-- The skipping loop finds the cluster that holds byte `offset` of the chain, or gives up: at the
end of the chain, or where a read has failed. -/
theorem skipClusters_faulty (hd : Reliable env d) (hn : Notes env Bad)
    (h512 : fat.bytesPerSector = 512) (hspc : fat.sectorsPerCluster ≠ 0) {c : Nat} {cs : List Nat}
    {offset fuel : Nat} (hchain : Chain d fat (c :: cs)) (hfuel : offset < fuel) (s : σ) :
    (∃ pre c' cs' o s', c :: cs = pre ++ c' :: cs' ∧ Chain d fat (c' :: cs') ∧
      offset = fat.clusterSize * pre.length + o ∧ o < fat.clusterSize ∧
      skipClusters env fat fuel c offset s = some (some (c', o), s')) ∨
    ∃ s', (fat.clusterSize * (c :: cs).length ≤ offset ∨ Bad s') ∧
      skipClusters env fat fuel c offset s = some (none, s') := by
  have hpos : 0 < fat.clusterSize := by
    have : fat.sectorsPerCluster.toNat ≠ 0 := fun h0 => hspc (UInt8.toNat_inj.mp h0)
    rw [clusterSize_eq h512]
    omega
  induction cs generalizing c offset fuel s with
  | nil =>
    obtain ⟨fuel, rfl⟩ : ∃ f, fuel = f + 1 := ⟨fuel - 1, by omega⟩
    rw [skipClusters]
    by_cases ho : fat.clusterSize ≤ offset
    · have hend : endOfChain ≤ (getNextCluster env fat c s).1 := by
        rcases getNextCluster_faulty hd hn h512 c s with hnext | ⟨hend, -⟩
        · rw [hnext]
          exact hchain
        · exact hend
      rw [if_pos ho]
      dsimp only
      rw [if_pos hend]
      exact .inr ⟨_, .inl (by simpa using ho), rfl⟩
    · rw [if_neg ho]
      exact .inl ⟨[], c, [], offset, s, rfl, hchain, by simp, by omega, rfl⟩
  | cons c₁ cs ih =>
    obtain ⟨fuel, rfl⟩ : ∃ f, fuel = f + 1 := ⟨fuel - 1, by omega⟩
    obtain ⟨hnext, hlt, hrest⟩ := hchain
    rw [skipClusters]
    by_cases ho : fat.clusterSize ≤ offset
    · rw [if_pos ho]
      dsimp only
      rcases getNextCluster_faulty hd hn h512 c s with hgo | ⟨hend, hbad⟩
      · rw [hgo, hnext, if_neg (by omega)]
        rcases @ih c₁ (offset - fat.clusterSize) fuel hrest (by omega)
            (getNextCluster env fat c s).2
          with ⟨pre, c', cs', o, s', hsplit, hc', hoff, hlt', heq⟩ | ⟨s', hshort, heq⟩
        · refine .inl ⟨c :: pre, c', cs', o, s', by rw [hsplit]; rfl, hc', ?_, hlt', heq⟩
          rw [List.length_cons, Nat.mul_succ]
          omega
        · refine .inr ⟨s', hshort.imp_left fun hlen => ?_, heq⟩
          rw [List.length_cons, Nat.mul_succ]
          omega
      · rw [if_pos hend]
        exact .inr ⟨_, .inr hbad, rfl⟩
    · rw [if_neg ho]
      exact .inl ⟨[], c, c₁ :: cs, offset, s, rfl, ⟨hnext, hlt, hrest⟩, by simp, by omega, rfl⟩

/-- A first part of the bytes that were wanted has been delivered, or all of them unless `bad`
holds. -/
def Partly (wanted : List UInt8) (readSize : Nat) (buffer buffer' : Mem) (r : Nat) (bad : Prop) :
    Prop :=
  ∃ data, data <+: wanted ∧ (data = wanted ∨ bad) ∧ Delivered readSize data buffer buffer' r

theorem Partly.none (wanted : List UInt8) (readSize : Nat) (buffer : Mem) {bad : Prop}
    (hbad : bad) :
    Partly wanted readSize buffer buffer readSize bad :=
  ⟨[], List.nil_prefix, .inr hbad, .nil readSize buffer⟩

theorem Partly.nil (readSize : Nat) (buffer : Mem) (bad : Prop) :
    Partly [] readSize buffer buffer readSize bad :=
  ⟨[], List.nil_prefix, .inl rfl, .nil readSize buffer⟩

/-- A chunk that has been delivered, and then a part of the rest. -/
theorem Partly.cons {chunk wanted : List UInt8} {readSize r : Nat} {buffer buffer₁ buffer' : Mem}
    {bad : Prop} (h₁ : Delivered readSize chunk buffer buffer₁ (readSize + chunk.length))
    (h : Partly wanted (readSize + chunk.length) buffer₁ buffer' r bad) :
    Partly (chunk ++ wanted) readSize buffer buffer' r bad := by
  obtain ⟨data, hpart, hall, hdel⟩ := h
  refine ⟨chunk ++ data, (List.prefix_append_right_inj chunk).mpr hpart, ?_, h₁.cons hdel⟩
  exact hall.imp_left fun he => by rw [he]

/-- **One round of the copying loop**: the cluster cannot be read, or a chunk of it is delivered,
and the loop goes on with what the lookup gives. -/
theorem copyClusters_step (hd : Reliable env d) (hn : Notes env Bad)
    (h512 : fat.bytesPerSector = 512)
    {c offset size readSize fuel : Nat} {chunk : List UInt8}
    (hchunk : chunk = ((contents d fat c).drop offset).take size)
    (hoffset : offset < fat.clusterSize) (hpos : 0 < size)
    (hsize : readSize + size < 2 ^ 32) (clusterBuffer : Buf) (buffer : Mem) (s : σ) :
    (∃ s₁, Bad s₁ ∧ copyClusters env fat (fuel + 1) c offset size readSize clusterBuffer buffer s =
      some (readSize, buffer, s₁)) ∨
    ∃ clusterBuffer₁ buffer₁ s₁,
      Delivered readSize chunk buffer buffer₁ (readSize + chunk.length) ∧
      copyClusters env fat (fuel + 1) c offset size readSize clusterBuffer buffer s =
        if chunk.length < size then
          if endOfChain ≤ (getNextCluster env fat c s₁).1 then
            some (readSize + chunk.length, buffer₁, (getNextCluster env fat c s₁).2)
          else copyClusters env fat fuel (getNextCluster env fat c s₁).1 0 (size - chunk.length)
            (readSize + chunk.length) clusterBuffer₁ buffer₁ (getNextCluster env fat c s₁).2
        else
          copyClusters env fat fuel c 0 0 (readSize + chunk.length) clusterBuffer₁ buffer₁ s₁ := by
  have hB := @clusterSize_eq fat h512
  have hBlt : fat.clusterSize < 2 ^ 32 := by
    have := fat.sectorsPerCluster.toNat_lt
    omega
  have hlen : chunk.length = min size (fat.clusterSize - offset) := by
    rw [hchunk, List.length_take, List.length_drop, length_contents, hB]
  -- the chunk size the code computes
  have hcode : (if size < sub32 fat.clusterSize offset then size
      else sub32 fat.clusterSize offset) = chunk.length := by
    rw [sub32_of_le (by omega) hBlt, hlen]
    split <;> omega
  have hadd : add32 readSize chunk.length = readSize + chunk.length := add32_of_lt (by omega)
  rw [copyClusters, if_pos hpos]
  dsimp only
  cases hok : (readCluster env fat c clusterBuffer s).1 with
  | false =>
    rw [if_pos rfl]
    exact .inl ⟨_, hn.failed hok, rfl⟩
  | true =>
    have hbytes := readCluster_reliable hd hok
    rw [if_neg (by decide), hcode, hadd]
    refine .inr ⟨(readCluster env fat c clusterBuffer s).2.1,
      buffer.copy readSize (readCluster env fat c clusterBuffer s).2.1.bytes offset chunk.length,
      (readCluster env fat c clusterBuffer s).2.2, ⟨rfl, ?_, fun x hx => Mem.copy_outside hx⟩, ?_⟩
    · rw [Mem.bytes_copy, hlen, hchunk, ← hbytes, Mem.drop_bytes, Mem.take_bytes, Nat.zero_add, hB]
    · by_cases hmore : chunk.length < size
      · rw [if_pos (show 0 < size - chunk.length by omega), if_pos hmore]
      · rw [if_neg (show ¬0 < size - chunk.length by omega), if_neg hmore,
          show size - chunk.length = 0 by omega]

/-- **The copying loop** delivers the bytes of the chain from `offset` on up to where a read fails.
-/
theorem copyClusters_faulty (hd : Reliable env d) (hn : Notes env Bad)
    (h512 : fat.bytesPerSector = 512) {c : Nat} {cs : List Nat} {offset size readSize fuel : Nat}
    (hchain : Chain d fat (c :: cs)) (hoffset : offset < fat.clusterSize) (hfuel : size < fuel)
    (hsize : readSize + size < 2 ^ 32) (clusterBuffer : Buf) (buffer : Mem) (s : σ) :
    ∃ r buffer' s',
      copyClusters env fat fuel c offset size readSize clusterBuffer buffer s =
        some (r, buffer', s') ∧
      Partly (((chainBytes d fat (c :: cs)).drop offset).take size) readSize buffer buffer' r
        (Bad s') := by
  induction fuel generalizing c cs offset size readSize clusterBuffer buffer s with
  | zero => omega
  | succ fuel ih =>
    rcases Nat.eq_zero_or_pos size with rfl | hpos
    · rw [copyClusters, if_neg (by omega), List.take_zero]
      exact ⟨_, _, _, rfl, .nil _ _ _⟩
    rw [chainBytes_split d fat c cs size (clusterSize_eq h512 ▸ hoffset.le)]
    generalize hchunk : ((contents d fat c).drop offset).take size = chunk
    have hlen : 0 < chunk.length := by
      rw [← hchunk, List.length_take, List.length_drop, length_contents, ← clusterSize_eq h512]
      omega
    rcases copyClusters_step hd hn h512 hchunk.symm hoffset hpos hsize clusterBuffer buffer s
      with ⟨s₁, hbad, heq⟩ | ⟨cb, b₁, s₁, hdel, heq⟩
    · exact ⟨_, _, _, heq, .none _ _ _ hbad⟩
    rw [heq]
    by_cases hmore : chunk.length < size
    · rw [if_pos hmore]
      cases cs with
      | nil =>
        have hend : endOfChain ≤ (getNextCluster env fat c s₁).1 := by
          rcases getNextCluster_faulty hd hn h512 c s₁ with hnext | ⟨hend, -⟩
          · rw [hnext]
            exact hchain
          · exact hend
        have hrest : (chainBytes d fat []).take (size - chunk.length) = [] := List.take_nil
        rw [if_pos hend, hrest]
        exact ⟨_, _, _, rfl, .cons hdel (.nil _ _ _)⟩
      | cons c₁ cs =>
        obtain ⟨hnext, hlt, hrest⟩ := hchain
        rcases getNextCluster_faulty hd hn h512 c s₁ with hgo | ⟨hend, hbad⟩
        · rw [hgo, hnext, if_neg (by omega)]
          obtain ⟨r, b', s', heq', hpart⟩ := ih hrest (show 0 < fat.clusterSize by omega)
            (show size - chunk.length < fuel by omega)
            (show readSize + chunk.length + (size - chunk.length) < 2 ^ 32 by omega) cb b₁
            (getNextCluster env fat c s₁).2
          rw [List.drop_zero] at hpart
          exact ⟨r, b', s', heq', .cons hdel hpart⟩
        · rw [if_pos hend]
          exact ⟨_, _, _, rfl, .cons hdel (.none _ _ _ hbad)⟩
    · obtain ⟨fuel, rfl⟩ : ∃ f, fuel = f + 1 := ⟨fuel - 1, by omega⟩
      rw [if_neg hmore, copyClusters, if_neg (Nat.lt_irrefl 0),
        show size - chunk.length = 0 by omega, List.take_zero]
      exact ⟨_, _, _, rfl, .cons hdel (.nil _ _ _)⟩

/-- **`fat32_read` delivers a first part** of what was asked for, and all of it unless a read fails.
-/
theorem fat32Read_faulty (hd : Reliable env d) (hn : Notes env Bad)
    (h512 : fat.bytesPerSector = 512)
    (hspc : fat.sectorsPerCluster ≠ 0) {inode : Nat} {cs : List Nat}
    (hchain : Chain d fat (inode :: cs)) (offset : Nat) {size : Nat} (hsize : size < 2 ^ 32)
    (buffer : Mem) (s : σ) :
    ∃ r buffer' s', fat32Read env fat inode offset size buffer s = some (r, buffer', s') ∧
      Partly (((chainBytes d fat (inode :: cs)).drop offset).take size) 0 buffer buffer' r
        (Bad s') := by
  unfold fat32Read
  rcases skipClusters_faulty hd hn h512 hspc hchain (Nat.lt_succ_self offset) s with
    ⟨pre, c', cs', o, s', hsplit, hc', hoff, ho, heq⟩ | ⟨s', hshort, heq⟩
  · -- the clusters skipped are exactly what `drop offset` takes off the front
    have hdrop : (chainBytes d fat (inode :: cs)).drop offset
        = (chainBytes d fat (c' :: cs')).drop o := by
      rw [hsplit, chainBytes, List.flatMap_append, hoff, ← List.drop_drop, ← chainBytes,
        ← length_chainBytes h512, List.drop_left]
      rfl
    rw [heq, hdrop]
    obtain ⟨r, b', s'', hcopy, data, hpart, hall, hdel⟩ := copyClusters_faulty hd hn h512 hc' ho
      (Nat.lt_succ_self size) (show 0 + size < 2 ^ 32 by omega)
      (env.kmalloc fat.clusterSize s').1 buffer (env.kmalloc fat.clusterSize s').2
    dsimp only
    rw [hcopy]
    exact ⟨_, _, _, rfl, data, hpart, hall.imp_right hn.kfree, hdel⟩
  · rw [heq]
    refine ⟨_, _, _, rfl, ?_⟩
    rcases hshort with hlen | hbad
    · rw [List.drop_eq_nil_of_le (by rw [length_chainBytes h512]; exact hlen), List.take_nil]
      exact .nil _ _ _
    · exact .none _ _ _ hbad

/-! ## 3. Directories -/

/-- Something was found as it should be, or, if `bad` holds, nothing. -/
def Fetched {α β : Type} (R : α → β → Prop) (r : Option α) (wanted : Option β)
    (bad : Prop) : Prop :=
  Option.Rel R r wanted ∨ r = none ∧ bad

theorem finddirClusters_faulty (hd : Reliable env d) (hn : Notes env Bad) (ha : Allocates env)
    (h512 : fat.bytesPerSector = 512) (name : Mem) {c : Nat} {cs : List Nat}
    (hchain : DirChain d fat c cs) {fuel : Nat} (hfuel : cs.length < fuel) (entryName : Mem)
    (buffer : Buf) (s : σ) :
    ∃ r s', finddirClusters env fat name fuel c entryName buffer s = some (r, s') ∧
      Fetched FsNode.Stands r ((listing d fat cs).find? fun e => name.CStr 0 e.cname) (Bad s') := by
  induction hchain generalizing fuel entryName buffer s with
  | stop h =>
    obtain ⟨fuel, rfl⟩ : ∃ f, fuel = f + 1 := ⟨fuel - 1, by omega⟩
    rw [finddirClusters, if_neg (by omega)]
    exact ⟨none, _, rfl, .inl Option.Rel.none⟩
  | @step c cs h hrest ih =>
    obtain ⟨fuel, rfl⟩ : ∃ f, fuel = f + 1 := ⟨fuel - 1, by omega⟩
    cases hok : (readCluster env fat c buffer s).1 with
    | false =>
      rw [finddirClusters, if_pos h]
      dsimp only
      rw [if_pos hok]
      exact ⟨none, _, rfl, .inr ⟨rfl, hn.kfree (hn.failed hok)⟩⟩
    | true =>
      obtain ⟨entryName', hround⟩ := finddirClusters_round name h entryName rfl hok
        (entries_reliable hd h512 hok)
      rw [hround, listing_cons, List.find?_append]
      generalize Scan.listing DirEntry.isEnd DirEntry.isListed (clusterEntries d fat c) = l
      cases l.find? fun e => name.CStr 0 e.cname with
      | some e => exact ⟨_, _, rfl, .inl (Option.Rel.some ⟨_, ha _ _, rfl⟩)⟩
      | none =>
        cases (clusterEntries d fat c).any DirEntry.isEnd with
        | true => exact ⟨none, _, rfl, .inl Option.Rel.none⟩
        | false =>
          dsimp only
          rw [if_neg (by decide), if_neg (by decide), Option.none_or]
          rcases getNextCluster_faulty hd hn h512 c (readCluster env fat c buffer s).2.2 with
            hgo | ⟨hend, hbad⟩
          · rw [hgo]
            exact ih (by simpa using hfuel) _ _ _
          · rw [List.length_cons] at hfuel
            obtain ⟨fuel, rfl⟩ : ∃ f, fuel = f + 1 := ⟨fuel - 1, by omega⟩
            rw [finddirClusters, if_neg (by omega)]
            exact ⟨none, _, rfl, .inr ⟨rfl, hn.kfree hbad⟩⟩

theorem readdirClusters_faulty (hd : Reliable env d) (hn : Notes env Bad) (ha : Allocates env)
    (h512 : fat.bytesPerSector = 512) {index : Nat} (hindex : index < 2 ^ 32) {c : Nat}
    {cs : List Nat} (hchain : DirChain d fat c cs) {fuel cur : Nat} (hfuel : cs.length < fuel)
    (hcur : cur ≤ index) (buffer : Buf) (s : σ) :
    ∃ r s', readdirClusters env fat index fuel c cur buffer s = some (r, s') ∧
      Fetched Dirent.Shows r (listing d fat cs)[index - cur]? (Bad s') := by
  induction hchain generalizing fuel cur buffer s with
  | stop h =>
    obtain ⟨fuel, rfl⟩ : ∃ f, fuel = f + 1 := ⟨fuel - 1, by omega⟩
    rw [readdirClusters, if_neg (by omega)]
    exact ⟨none, _, rfl, .inl Option.Rel.none⟩
  | @step c cs h hrest ih =>
    obtain ⟨fuel, rfl⟩ : ∃ f, fuel = f + 1 := ⟨fuel - 1, by omega⟩
    cases hok : (readCluster env fat c buffer s).1 with
    | false =>
      rw [readdirClusters, if_pos h]
      dsimp only
      rw [if_pos hok]
      exact ⟨none, _, rfl, .inr ⟨rfl, hn.kfree (hn.kfree (hn.failed hok))⟩⟩
    | true =>
      rw [readdirClusters_round hindex h hcur rfl hok (entries_reliable hd h512 hok), listing_cons]
      generalize Scan.listing DirEntry.isEnd DirEntry.isListed (clusterEntries d fat c) = l
      cases hk : l[index - cur]? with
      | some e =>
        refine ⟨_, _, rfl, .inl ?_⟩
        rw [List.getElem?_append_left (List.getElem?_eq_some_iff.mp hk).1, hk]
        refine Option.Rel.some ⟨ha _ _, ?_, rfl⟩
        have hname := (copyName_delivered e
          (env.kmalloc 132 (readCluster env fat c buffer s).2.2).1.bytes).holds
        rwa [List.length_append, List.length_singleton] at hname
      | none =>
        have hlen : l.length ≤ index - cur := List.getElem?_eq_none_iff.mp hk
        rw [List.getElem?_append_right hlen]
        cases (clusterEntries d fat c).any DirEntry.isEnd with
        | true => exact ⟨none, _, rfl, .inl Option.Rel.none⟩
        | false =>
          dsimp only
          rw [if_neg (by decide), if_neg (by decide), Nat.sub_sub]
          rcases getNextCluster_faulty hd hn h512 c (readCluster env fat c buffer s).2.2 with
            hgo | ⟨hend, hbad⟩
          · rw [hgo]
            exact ih (by simpa using hfuel) (by omega) _ _
          · rw [List.length_cons] at hfuel
            obtain ⟨fuel, rfl⟩ : ∃ f, fuel = f + 1 := ⟨fuel - 1, by omega⟩
            rw [readdirClusters, if_neg (by omega)]
            exact ⟨none, _, rfl, .inr ⟨rfl, hn.kfree hbad⟩⟩

/-! ## 4. Runs -/

/-- A call on a well-formed chain: its clusters end, within `fuel` of them for a directory. -/
def Call.Sound (d : Disk) (fat : Fat) (fuel : Nat) : Call → Prop
  | .read inode _ size _ => (∃ cs, Chain d fat (inode :: cs)) ∧ size < 2 ^ 32
  | .readdir inode index => (∃ cs, DirChain d fat inode cs ∧ cs.length < fuel) ∧ index < 2 ^ 32
  | .finddir inode _ _ => ∃ cs, DirChain d fat inode cs ∧ cs.length < fuel

/-- **The answer to a call**, by what is on the disk.  If `bad` holds it may be short: of a file a
first part, of a directory nothing. -/
def Answered (d : Disk) (fat : Fat) (bad : Prop) : Call → Outcome → Prop
  | .read inode offset size buffer, .count r buffer' => ∀ cs, Chain d fat (inode :: cs) →
    Partly (((chainBytes d fat (inode :: cs)).drop offset).take size) 0 buffer buffer' r bad
  | .readdir inode index, .entry r => ∀ cs, DirChain d fat inode cs →
    Fetched Dirent.Shows r (listing d fat cs)[index]? bad
  | .finddir inode name _, .node r => ∀ cs, DirChain d fat inode cs →
    Fetched FsNode.Stands r ((listing d fat cs).find? fun e => name.CStr 0 e.cname) bad
  | _, _ => False

/-- Calls, one after the other. -/
def runCalls (env : FatEnv σ) (fat : Fat) (fuel : Nat) : List Call → σ → Option (List Outcome × σ)
  | [], s => some ([], s)
  | call :: calls, s =>
    match call.run env fat fuel s with
    | none => none
    | some (o, s) =>
      match runCalls env fat fuel calls s with
      | none => none
      | some (os, s) => some (o :: os, s)

/-- A chain has no other continuation. -/
theorem Chain.unique {c : Nat} {cs cs' : List Nat} (h : Chain d fat (c :: cs))
    (h' : Chain d fat (c :: cs')) : cs = cs' := by
  induction cs generalizing c cs' with
  | nil =>
    cases cs' with
    | nil => rfl
    | cons c₁ cs' =>
      have hend : endOfChain ≤ fatEntry d fat c := h
      have hlt := h'.2.1
      rw [← h'.1] at hlt
      omega
  | cons c₁ cs ih =>
    cases cs' with
    | nil =>
      have hend : endOfChain ≤ fatEntry d fat c := h'
      have hlt := h.2.1
      rw [← h.1] at hlt
      omega
    | cons c₂ cs' =>
      obtain rfl : c₁ = c₂ := h.1.symm.trans h'.1
      rw [ih h.2.2 h'.2.2]

theorem DirChain.unique {c : Nat} {cs cs' : List Nat} (h : DirChain d fat c cs)
    (h' : DirChain d fat c cs') : cs = cs' := by
  induction h generalizing cs' with
  | stop hend =>
    cases h' with
    | stop => rfl
    | step hlt => omega
  | step hlt _ ih =>
    cases h' with
    | stop hend => omega
    | step _ hrest => rw [ih hrest]

theorem Answered.mono {bad bad' : Prop} (himp : bad → bad') {call : Call} {o : Outcome}
    (h : Answered d fat bad call o) : Answered d fat bad' call o := by
  cases call <;> cases o <;> try exact h
  · intro cs hcs
    obtain ⟨data, hpart, hall, hdel⟩ := h cs hcs
    exact ⟨data, hpart, hall.imp_right himp, hdel⟩
  · exact fun cs hcs => (h cs hcs).imp_right fun hnone => ⟨hnone.1, himp hnone.2⟩
  · exact fun cs hcs => (h cs hcs).imp_right fun hnone => ⟨hnone.1, himp hnone.2⟩

/-- **A call is answered.** -/
theorem Call.run_answered (hd : Reliable env d) (hn : Notes env Bad) (ha : Allocates env)
    (h512 : fat.bytesPerSector = 512) (hspc : fat.sectorsPerCluster ≠ 0) {fuel : Nat} {call : Call}
    (hsound : call.Sound d fat fuel) (s : σ) :
    ∃ o s', call.run env fat fuel s = some (o, s') ∧ Answered d fat (Bad s') call o := by
  cases call with
  | read inode offset size buffer =>
    obtain ⟨⟨cs, hchain⟩, hsize⟩ := hsound
    obtain ⟨r, b', s', heq, hpart⟩ :=
      fat32Read_faulty hd hn h512 hspc hchain offset hsize buffer s
    refine ⟨.count r b', s', by rw [Call.run, heq]; rfl, fun cs' hcs' => ?_⟩
    rwa [hcs'.unique hchain]
  | readdir inode index =>
    obtain ⟨⟨cs, hchain, hfuel⟩, hindex⟩ := hsound
    obtain ⟨r, s', heq, hfound⟩ := readdirClusters_faulty hd hn ha h512 hindex hchain hfuel
      (Nat.zero_le index) (env.kmalloc fat.clusterSize s).1 (env.kmalloc fat.clusterSize s).2
    refine ⟨.entry r, s', ?_, fun cs' hcs' => ?_⟩
    · rw [Call.run, fat32Readdir]
      dsimp only
      rw [if_neg (ha _ _), heq]
      rfl
    · rwa [hcs'.unique hchain]
  | finddir inode name entryName =>
    obtain ⟨cs, hchain, hfuel⟩ := hsound
    obtain ⟨r, s', heq, hfound⟩ := finddirClusters_faulty hd hn ha h512 name hchain hfuel entryName
      (env.kmalloc fat.clusterSize s).1 (env.kmalloc fat.clusterSize s).2
    refine ⟨.node r, s', ?_, fun cs' hcs' => ?_⟩
    · rw [Call.run, fat32Finddir]
      dsimp only
      rw [heq]
      rfl
    · rwa [hcs'.unique hchain]

/-- What has failed has failed: it is a contract that asks for nothing. -/
theorem Notes.contract (hn : Notes env Bad) : Contract env fun _ => Bad where
  kmalloc := fun h _ _ => hn.kmalloc h
  failed := fun h _ _ _ => hn.kmalloc h
  kfree := fun h _ => hn.kfree h
  kfreeTwice := fun h _ => hn.kfree (hn.kfree h)
  read := fun h _ _ => hn.read h

theorem runCalls_keeps (hn : Notes env Bad) (h512 : fat.bytesPerSector = 512) {fuel : Nat}
    {calls : List Call} {os : List Outcome} {s s' : σ} (h : Bad s)
    (hrun : runCalls env fat fuel calls s = some (os, s')) : Bad s' := by
  have hroom : fat.Roomy := (clusterSize_eq h512).ge
  induction calls generalizing s os with
  | nil =>
    cases hrun
    exact h
  | cons call calls ih =>
    rw [runCalls] at hrun
    split at hrun
    · cases hrun
    · rename_i o s₁ hcall
      split at hrun
      · cases hrun
      · rename_i os' s₂ hrest
        cases hrun
        have hbad : Bad s₁ :=
          @Call.run_keeps σ env _ fat [] s s₁ hn.contract hroom call fuel o h hcall
        exact ih hbad hrest

/-- **Every call of a run is answered**, in full if no read fails. -/
theorem runCalls_answered (hd : Reliable env d) (hn : Notes env Bad) (ha : Allocates env)
    (h512 : fat.bytesPerSector = 512) (hspc : fat.sectorsPerCluster ≠ 0) {fuel : Nat}
    {calls : List Call} (hsound : ∀ call ∈ calls, call.Sound d fat fuel) (s : σ) :
    ∃ os s', runCalls env fat fuel calls s = some (os, s') ∧
      List.Forall₂ (Answered d fat (Bad s')) calls os := by
  induction calls generalizing s with
  | nil => exact ⟨[], s, rfl, .nil⟩
  | cons call calls ih =>
    obtain ⟨hcall, hcalls⟩ := List.forall_mem_cons.mp hsound
    obtain ⟨o, s₁, hrun, hanswer⟩ := Call.run_answered hd hn ha h512 hspc hcall s
    obtain ⟨os, s', hrest, hanswers⟩ := ih hcalls s₁
    refine ⟨o :: os, s', by rw [runCalls, hrun]; dsimp only; rw [hrest], .cons ?_ hanswers⟩
    exact hanswer.mono fun hbad => runCalls_keeps hn h512 hbad hrest

end FlowOS.Fat32
