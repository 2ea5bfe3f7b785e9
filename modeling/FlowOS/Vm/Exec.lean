/-
# A failed `elf_exec`

`elf_exec` finds the file with `vfs_finddir`, and from then on holds two allocations: the node of
the file, which `fat32_finddir` has allocated, and the program headers.  It frees the second on all
of its paths, and the first on none.  Pages and frames that it has taken stay taken.

So a call that returns -1 leaves the kernel as it was only if there was no file to begin with: then
nothing has happened but the search, and what that does to the heap is known (`Vm/Driver.lean`).

The loader runs on the kernel with the driver for its file system.  Which bytes a file has and how
many of them a read delivers is left open; what matters here are the allocations.
-/
import FlowOS.Vm.Driver
import FlowOS.Elf.Failure
import FlowOS.Fat32.Inside
import FlowOS.Fat32.Vfs

namespace FlowOS.HeapRun

open Word Heap Paging Elf Prog

/-! ## 1. The loader on the driver -/

/-- A mounted volume: the disk, its geometry, `fs_root`, and the bytes of its files.  `entryName` is
what the array of `fat32_finddir` holds before, `fuel` bounds the clusters of a search. -/
structure Volume where
  disk : Disk
  fat : Fat32.Fat
  root : Fat32.FsNode
  contents : Fat32.FsNode → List UInt8
  entryName : Mem
  fuel : Nat

/-- The path as the string it is in memory. -/
def cstring (path : String) : Mem := .ofBytes path.toUTF8.toList

/-- `vfs_finddir(fs_root, path)`; `none` if it does not return, or jumps to a stray address. -/
def Volume.search (vol : Volume) (path : String) (m : Machine) :
    Option (Option Fat32.FsNode × Machine) :=
  match Fat32.vfsFinddir vol.root with
  | none => some (none, m)
  | some .fat32Finddir =>
    Fat32.fat32Finddir vol.disk.env vol.fat vol.fuel vol.root.inode (cstring path) vol.entryName m
  | some _ => none

/-- `vfs_read(file, offset, size, ...)`, as far as the kernel's state goes. -/
def Volume.read (vol : Volume) (file : Fat32.FsNode) (offset size : Nat) (m : Machine) :
    Option Machine :=
  match Fat32.vfsRead file with
  | none => some m
  | some .fat32Read =>
    (Fat32.fat32Read vol.disk.env vol.fat file.inode offset size (fun _ => 0) m).map fun r => r.2.2
  | some _ => none

/-- The state the loader runs on, beside the paging state: the rest of the machine, and the file. -/
structure Loading where
  rest : Kernel.Rest
  time : Nat
  grew : Bool
  refused : Bool
  ignored : Bool
  file : Option Fat32.FsNode

namespace Loading

/-- The machine in a state of the loader. -/
def machine (s : Sys Loading) : Machine :=
  ⟨Kernel.ofSys ⟨s.rest.rest, s.paging⟩, s.rest.time, s.rest.grew, s.rest.refused, s.rest.ignored⟩

def ofMachine (m : Machine) (file : Option Fat32.FsNode) : Sys Loading :=
  ⟨⟨m.kernel.toSys.rest, m.time, m.grew, m.refused, m.ignored, file⟩, m.kernel.vm.paging⟩

def allocPage (l : Loading) : Nat × Loading :=
  (l.rest.allocPage.1, { l with rest := l.rest.allocPage.2 })

/-- The loader's own use of the heap; a walk of the block list that does not end stops the
machine. -/
def kmalloc (size : Nat) : Load Loading Nat := fun s =>
  match (machine s).kernel.kmalloc size with
  | none => .error .panics s
  | some (p, k) => .ok p (ofMachine { machine s with kernel := k } s.rest.file)

def kfree (ptr : Nat) : Load Loading Unit := fun s =>
  .ok () (ofMachine { machine s with kernel := (machine s).kernel.kfree ptr } s.rest.file)

end Loading

/-- What the loader calls. -/
def Volume.calls (vol : Volume) : Calls Loading where
  pmmAllocPage := Loading.allocPage
  kmalloc := Loading.kmalloc
  kfree := Loading.kfree
  vfsFinddir path := fun s =>
    match vol.search path (Loading.machine s) with
    | none => .error .panics s
    | some (file, m) => .ok (file.map vol.contents) (Loading.ofMachine m file)
  vfsWork offset size := fun s =>
    match s.rest.file with
    | none => .ok () s
    | some file =>
      match vol.read file offset size (Loading.machine s) with
      | none => .error .panics s
      | some m => .ok () (Loading.ofMachine m (some file))

/-- `elf_exec(path)` in a kernel. -/
def Volume.elfExec (vol : Volume) (reads : Reads) (path : String) (k : Kernel) :
    EStateM.Result Stop (Sys Loading) (UInt32 × UInt32) :=
  Elf.elfExec vol.calls reads path (Loading.ofMachine (.start k) none)

/-! ## 2. What the loader holds stays in use -/

/-- Unless an allocation of the driver has failed: the loader holds `held`, and `n` blocks more are
in use. -/
def Keeping (live : List (Nat × Nat)) (n : Nat) (held : List (Nat × Nat))
    (s : Sys Loading) : Prop :=
  s.rest.refused = true ∨ ∃ bs all, RunInv ⟨(Loading.machine s).kernel, held ++ live⟩ bs all ∧
    held.length + n ≤ (usedBlocks bs).length

variable {live held : List (Nat × Nat)} {n : Nat} {s t : Sys Loading} {vol : Volume} {k : Kernel}

/-- Frames may have been taken. -/
def Takes (l l' : Loading) : Prop :=
  ∃ pmm, l' = { l with rest := { l.rest with pmm := pmm } } ∧
    ∀ g, Pmm.Free pmm g → Pmm.Free l.rest.pmm g

theorem Takes.refl (l : Loading) : Takes l l := ⟨l.rest.pmm, rfl, fun _ hg => hg⟩

theorem Takes.trans {l₁ l₂ l₃ : Loading} (h : Takes l₁ l₂) (h' : Takes l₂ l₃) : Takes l₁ l₃ := by
  obtain ⟨pmm, rfl, hfree⟩ := h
  obtain ⟨pmm', rfl, hfree'⟩ := h'
  exact ⟨pmm', rfl, fun g hg => hfree g (hfree' g hg)⟩

theorem takes_allocPage (l : Loading) : Takes l l.allocPage.2 :=
  ⟨(Pmm.pmmAllocPage l.rest.pmm).2, rfl, fun _ => Pmm.free_of_alloc⟩

theorem takes_mapPage (l : Loading) (pg : Paging) (v p flags : Nat) :
    Takes l (pagingMapPage Loading.allocPage l pg v p flags).1 := by
  unfold pagingMapPage
  split
  · dsimp only
    split <;> exact takes_allocPage l
  · exact .refl l

theorem takes_pageFault (l : Loading) (pg : Paging) (v err : Nat) :
    Takes l (pageFaultHandler Loading.allocPage l pg v err).2.1 := by
  unfold pageFaultHandler
  split
  · exact .refl l
  · split
    · exact .refl l
    · dsimp only
      split
      · exact takes_allocPage l
      · exact (takes_allocPage l).trans (takes_mapPage _ _ _ _ _)

/-- Taking frames and changing the page tables does nothing to the heap. -/
theorem Keeping.takes (h : Keeping live n held s) (ht : Takes s.rest t.rest) :
    Keeping live n held t := by
  obtain ⟨pmm, hrest, hfree⟩ := ht
  obtain ⟨rest, pg⟩ := t
  dsimp only at hrest
  subst hrest
  rcases h with hr | ⟨bs, all, hi, hlen⟩
  · exact Or.inl hr
  · exact Or.inr ⟨bs, all, hi.other ⟨pmm, pg⟩ hfree, hlen⟩

/-- Faults of an access. -/
theorem takes_touch (v n : Nat) : ∀ s, Moves (fun s t : Sys Loading => Takes s.rest t.rest)
    (touch vol.calls v n) s := by
  induction n with
  | zero => exact fun s => .refl s.rest
  | succ n ih =>
    intro s
    unfold Moves touch
    dsimp only
    split
    · exact .refl s.rest
    · split
      · exact (takes_pageFault s.rest s.paging v 2).trans (ih _)
      · exact takes_pageFault s.rest s.paging v 2

/-- The driver does not forget that an allocation has failed. -/
theorem refused_contract (disk : Disk) :
    Fat32.Contract disk.env fun _ m => m.refused = true where
  kmalloc h _ _ := Machine.refused_kmalloc h
  failed h _ _ _ := Machine.refused_kmalloc h
  kfree h _ := h
  kfreeTwice h _ := h
  read h _ _ := h

/-- A call of the driver. -/
theorem Keeping.run (hroom : vol.fat.Roomy) (h : Keeping live n held s) {call : Fat32.Call}
    {fuel : Nat} {o : Fat32.Outcome} {m : Machine}
    (hrun : call.run vol.disk.env vol.fat fuel (Loading.machine s) = some (o, m))
    (file : Option Fat32.FsNode) :
    Keeping live n (o.returned ++ held) (Loading.ofMachine m file) := by
  rcases h with hr | ⟨bs, all, hi, hlen⟩
  · exact Or.inl (@Fat32.Call.run_keeps _ _ _ _ [] _ _ (refused_contract vol.disk) hroom call _ _ hr
      hrun)
  · cases hok : m.refused with
    | true => exact Or.inl hok
    | false =>
      obtain ⟨bs', all', hledger⟩ := driver_ledger hroom hi hrun hok
      refine Or.inr ⟨bs', all', ?_, ?_⟩
      · rw [List.append_assoc]
        exact hledger.inv
      · have := hledger.books.least
        rw [List.length_append]
        omega

theorem Keeping.read (hroom : vol.fat.Roomy) (h : Keeping live n held s) {file : Fat32.FsNode}
    {offset size : Nat} {m : Machine}
    (hread : vol.read file offset size (Loading.machine s) = some m) :
    Keeping live n held (Loading.ofMachine m (some file)) := by
  unfold Volume.read at hread
  split at hread
  · cases hread
    exact h
  · obtain ⟨⟨r, buffer, m'⟩, hrun, rfl⟩ := Option.map_eq_some_iff.mp hread
    have hcall : (Fat32.Call.read file.inode offset size fun _ => 0).run vol.disk.env vol.fat 0
        (Loading.machine s) = some (.count r buffer, m') :=
      Option.map_eq_some_iff.mpr ⟨_, hrun, rfl⟩
    exact h.run hroom hcall _
  · cases hread

theorem keeping_works (hroom : vol.fat.Roomy) (live : List (Nat × Nat)) (n : Nat)
    (held : List (Nat × Nat)) :
    Works vol.calls (fun s t => Keeping live n held s → Keeping live n held t) (fun _ => True)
      fun _ => True where
  refl _ h := h
  trans _ _ _ h h' hs := h' (h hs)
  noFrame s _ h := h.takes (takes_allocPage s.rest)
  back s _ v _ flags _ h := h.takes ((takes_allocPage s.rest).trans (takes_mapPage _ _ _ _ _))
  store v _ b s := by
    have hstore : Moves (fun s t : Sys Loading => Takes s.rest t.rest)
        (store8 vol.calls v.toNat b) s :=
      (takes_touch v.toNat faultLimit s).bind (fun _ _ _ => .trans) fun _ s₁ _ => .refl s₁.rest
    exact fun h => h.takes hstore
  work o size s h := by
    show Keeping live n held (endState (vol.calls.vfsWork o size s))
    dsimp only [Volume.calls]
    split
    · exact h
    · split
      · exact h
      · rename_i file _ m hread
        exact h.read hroom hread

theorem Keeping.kmalloc {size : Nat} (hsize : size < 2 ^ 24) :
    Ends (Keeping live n held) (Loading.kmalloc size)
      (fun p s => if p = 0 then Keeping live n held s
      else Keeping live n ((p, size) :: held) s) (GivesUp (Keeping live n held)) := by
  intro s hs
  cases hk : (Loading.machine s).kernel.kmalloc size with
  | none =>
    simp only [Loading.kmalloc, hk]
    exact fun _ _ => hs
  | some r =>
    obtain ⟨p, k⟩ := r
    simp only [Loading.kmalloc, hk]
    rcases hs with hr | ⟨bs, all, hi, hlen⟩
    · split <;> exact Or.inl hr
    · by_cases h0 : size = 0
      · rw [Kernel.kmalloc, Heap.kmalloc, if_pos h0] at hk
        obtain ⟨rfl, rfl⟩ := Prod.mk.inj (Option.some.inj hk)
        exact Or.inr ⟨bs, all, hi, hlen⟩
      · have h1 : 1 ≤ size := by omega
        have h2 : size ≤ 0xFFFFFFE8 := by omega
        obtain ⟨p', k', bs', hk', hinv, -, hout⟩ := hi.kmalloc h1 h2
        obtain ⟨rfl, rfl⟩ : p = p' ∧ k = k' := by simpa using hk.symm.trans hk'
        by_cases hp : p = 0
        · subst hp
          exact Or.inr ⟨bs', all, hinv, by rwa [hout.used_failed]⟩
        · rw [if_neg hp]
          rw [if_neg hp, if_neg hp] at hinv
          obtain ⟨c, -, -, hused⟩ := hout.used h1 h2 hp
          refine Or.inr ⟨bs', _, hinv, ?_⟩
          rw [hused.length_eq, List.length_cons, List.length_cons]
          omega

theorem Keeping.kfree (e : Nat × Nat) :
    Ends (Keeping live n (e :: held)) (Loading.kfree e.1) (fun _ => Keeping live n held)
      (GivesUp (Keeping live n held)) := by
  rintro s (hr | ⟨bs, all, hi, hlen⟩)
  · exact Or.inl hr
  · rw [List.length_cons] at hlen
    obtain ⟨-, pre, b, post, rfl, hb, -, ⟨-, hinv⟩ | ⟨-, hinv⟩⟩ := hi.kfree (e := e) (by simp)
    · rw [List.cons_append, List.erase_cons_head] at hinv
      have hless := (hi.sound.release_used hb).length_eq
      rw [List.length_cons] at hless
      exact Or.inr ⟨_, _, hinv, by omega⟩
    · rw [List.cons_append, List.erase_cons_head] at hinv
      exact Or.inr ⟨_, _, hinv, by omega⟩

/-- **The loader's allocations.** -/
theorem keeping_lends (hroom : vol.fat.Roomy) (live : List (Nat × Nat)) (n : Nat)
    (held : List (Nat × Nat)) :
    Lends vol.calls (Keeping live n held) fun e => Keeping live n (e :: held) where
  free := keeping_works hroom live n held
  held e := keeping_works hroom live n (e :: held)
  panics o size s e t h := by
    dsimp only [Volume.calls] at h
    split at h
    · cases h
    · split at h
      · cases h
        rfl
      · cases h
  kmalloc size hsize := Keeping.kmalloc hsize
  kfree e := Keeping.kfree e

/-! ## 3. What is left -/

/-- The page mappings of the current address space, the bitmap of the PMM and the allocations of the
heap are the same. -/
structure Unchanged (k k' : Kernel) : Prop where
  mappings : ∀ q, k'.vm.entry q = k.vm.entry q
  frames : k'.vm.pmm.bitmap = k.vm.pmm.bitmap
  allocations : ∃ bs bs', Sound k.heap bs ∧ Sound k'.heap bs' ∧
    (usedBlocks bs').Perm (usedBlocks bs)

/-- The search finds no file, is served from the blocks that are free, and frees its buffers in a
heap that ends below the end of the address space. -/
def Volume.Misses (vol : Volume) (path : String) (k : Kernel) : Prop :=
  ∃ m, vol.search path (.start k) = some (none, m) ∧ m.grew = false ∧ m.ignored = false

/-- The search as a call of the driver. -/
theorem Volume.search_cases {path : String} {m m' : Machine} {file : Option Fat32.FsNode}
    (h : vol.search path m = some (file, m')) : (file = none ∧ m' = m) ∨
    (Fat32.Call.finddir vol.root.inode (cstring path) vol.entryName).run vol.disk.env vol.fat
      vol.fuel m
      = some (.node file, m') := by
  unfold search at h
  split at h
  · cases h
    exact Or.inl ⟨rfl, rfl⟩
  · exact Or.inr (Option.map_eq_some_iff.mpr ⟨_, h, rfl⟩)
  · cases h

theorem Volume.vfsFinddir_eq (vol : Volume) (path : String) (m : Machine) :
    vol.calls.vfsFinddir path (Loading.ofMachine m none) = match vol.search path m with
      | none => .error .panics (Loading.ofMachine m none)
      | some (file, m') => .ok (file.map vol.contents) (Loading.ofMachine m' file) := rfl

/-- Blocks that are more in number are not the same. -/
theorem Unchanged.length_le {k k' : Kernel} {bs bs' : List Block} (h : Unchanged k k')
    (hs : Sound k.heap bs) (hs' : Sound k'.heap bs') :
    (usedBlocks bs').length ≤ (usedBlocks bs).length := by
  obtain ⟨cs, cs', hc, hc', hperm⟩ := h.allocations
  rw [hs.unique hc, hs'.unique hc', hperm.length_eq]

/-- A search that finds nothing. -/
theorem unchanged_search_iff {k : Kernel} {m : Machine} {bs : List Block} {all : List (Nat × Nat)}
    (hroom : vol.fat.Roomy) (hi : RunInv ⟨k, live⟩ bs all) {path : String}
    (h : vol.search path (.start k) = some (none, m)) (hok : m.refused = false) :
    Unchanged k m.kernel ↔ m.grew = false ∧ m.ignored = false := by
  rcases vol.search_cases h with ⟨-, rfl⟩ | hrun
  · exact iff_of_true ⟨fun _ => rfl, rfl, bs, bs, hi.sound, hi.sound, .refl _⟩ ⟨rfl, rfl⟩
  · obtain ⟨bs', all', hl⟩ := driver_ledger (m := .start k) hroom hi hrun hok
    constructor
    · intro hsame
      constructor
      · by_contra hgrew
        have htaken := hl.taken rfl (by simpa using hgrew)
        have hsame := Pmm.clearBits_mono fun g => (Pmm.free_congr hsame.frames).mpr
        exact Nat.not_lt.mpr hsame htaken
      · by_contra hignored
        have hleak := hl.books.leaks rfl (by simpa using hignored)
        have hle := hsame.length_le hi.sound hl.inv.sound
        omega
    · rintro ⟨hgrew, hignored⟩
      have hvm : m.kernel.vm = k.vm := hl.still hgrew
      obtain ⟨own, hnone, -, hperm⟩ := hl.books.exact hignored
      have hown : own = [] := by simpa using hnone.nil_eq
      rw [hown] at hperm
      exact ⟨fun q => by rw [hvm], by rw [hvm], bs, bs', hi.sound, hl.inv.sound, hperm⟩

/-- A file that has been found stays behind as a node in use, however the loader gives up. -/
theorem changed_of_found {k : Kernel} {bs : List Block} {all : List (Nat × Nat)}
    (hroom : vol.fat.Roomy) (hi : RunInv ⟨k, live⟩ bs all) {reads : Reads} {path : String}
    {node : Fat32.FsNode} {m : Machine} (hsearch : vol.search path (.start k) = some (some node, m))
    {e : ElfError} {t : Sys Loading} (hrun : vol.elfExec reads path k = .error (.returns e) t)
    (hok : t.rest.refused = false) : ¬ Unchanged k (Loading.machine t).kernel := by
  rcases vol.search_cases hsearch with ⟨hnone, -⟩ | hcall
  · cases hnone
  have hfind : vol.calls.vfsFinddir path (Loading.ofMachine (.start k) none)
      = .ok (some (vol.contents node)) (Loading.ofMachine m (some node)) := by
    rw [vol.vfsFinddir_eq, hsearch]
    rfl
  have hstart : Keeping live (usedBlocks bs).length [] (Loading.ofMachine (.start k) none) :=
    Or.inr ⟨bs, all, hi, by simp⟩
  have hnode := hstart.run hroom hcall (some node)
  have hend := (keeping_lends hroom live (usedBlocks bs).length [(node.addr, 184)]).elfExec hfind
    hnode hrun
  obtain ⟨bs', all', hinv, hlen⟩ := hend.resolve_left (by simp [hok])
  intro hsame
  have hle := hsame.length_le hi.sound hinv.sound
  rw [List.length_singleton] at hlen
  omega

/-- `fs_root` of a volume whose root directory starts at cluster 2. -/
def rootFolder : Fat32.FsNode where
  addr := 0
  flags := Fat32.fsDirectory
  inode := 2
  length := 0
  read := .word 0
  write := .word 0
  open_ := .word 0
  close := .word 0
  readdir := .fat32Readdir
  finddir := .fat32Finddir

/-- A volume on the dead disk. -/
def deadVolume : Volume := ⟨deadDisk, smallFat, rootFolder, fun _ => [], fun _ => 0, 1⟩

/-- `fat32_finddir` when its first read fails. -/
theorem finddir_unread {σ : Type} {env : Fat32.FatEnv σ} {fat : Fat32.Fat} {s : σ} {inode : Nat}
    {name entryName : Mem} (hin : inode < Fat32.endOfChain) {t : Bool × Fat32.Buf × σ}
    (ht : Fat32.readCluster env fat inode (env.kmalloc fat.clusterSize s).1
      (env.kmalloc fat.clusterSize s).2 = t) (hfail : t.1 = false) :
    Fat32.fat32Finddir env fat 1 inode name entryName s
      = some (none, env.kfree t.2.1.addr t.2.2) := by
  simp only [Fat32.fat32Finddir, Fat32.finddirClusters, if_pos hin, ht, if_pos hfail]

/-- A lookup on the dead volume: one buffer is allocated and freed. -/
theorem search_dead {bs bs' : List Block} {a : Nat} (hi : Inv k.heap bs) (path : String)
    (ha : Heap.alloc (align8 512) bs = some (a, bs')) : ∃ m,
    deadVolume.search path (.start k) = some (none, m) ∧ m.refused = false ∧
      m.grew = decide (k.heap.Expands 512) ∧
      m.ignored = decide (2 ^ 32 ≤ k.heap.heapStart + k.heap.heapSize) := by
  obtain ⟨h', -, hst, hsz, hbuf, hm⟩ := Machine.kmalloc_served (m := .start k) hi (by decide)
    (by decide) ha
  have hm' : (deadDisk.env.kmalloc smallFat.clusterSize (.start k)).2 = _ := hm
  refine ⟨_, finddir_unread (by decide) rfl rfl, ?_, ?_, ?_⟩
  · show (deadDisk.env.kmalloc smallFat.clusterSize (.start k)).2.refused = false
    rw [hm']
    rfl
  · show (deadDisk.env.kmalloc smallFat.clusterSize (.start k)).2.grew = _
    rw [hm']
    rfl
  · show ((deadDisk.env.kmalloc smallFat.clusterSize (.start k)).2.ignored || decide (Machine.Full
      (.store _ _ _ (deadDisk.env.kmalloc smallFat.clusterSize (.start k)).2))) = _
    rw [hm']
    show decide (2 ^ 32 ≤ h'.heapStart + h'.heapSize) = _
    rw [hst, hsz]
    rfl

/-- A directory whose only entry is the file `A`: cluster 3, 52 bytes. -/
def noteSector : Mem := fun i =>
  if i = 0 then 0x41 else if i < 12 then 0x20 else if i = 26 then 3 else if i = 28 then 52 else 0

/-- The directory at sector 64, and zeros. -/
def noteBytes (lba : Nat) : Mem := if lba = 64 then noteSector else fun _ => 0

def noteDisk : Disk := fun _ lba _ => ⟨true, noteBytes lba, 0⟩

/-- The file is 52 zeros: no program. -/
def noteVolume : Volume :=
  ⟨noteDisk, smallFat, rootFolder, fun _ => List.replicate 52 0, fun _ => 0, 1⟩

/-- `fat32_finddir` when the entry is in the first cluster. -/
theorem finddir_found {σ : Type} {env : Fat32.FatEnv σ} {fat : Fat32.Fat} {s s₁ s₂ s₃ : σ}
    {inode : Nat} {name entryName : Mem} {b b' b₂ : Fat32.Buf} {e : Fat32.DirEntry}
    (hin : inode < Fat32.endOfChain) (hbuf : env.kmalloc fat.clusterSize s = (b, s₁))
    (hread : Fat32.readCluster env fat inode b s₁ = (true, b', s₂))
    (hhit : Fat32.finddirEntries name b'.bytes (fat.clusterSize / 32) 0 entryName = some (.hit e))
    (hnode : env.kmalloc 184 s₂ = (b₂, s₃)) :
    Fat32.fat32Finddir env fat 1 inode name entryName s
      = some (some (Fat32.fileNode e b₂), env.kfree b'.addr s₃) := by
  have htrue : ¬true = false := by decide
  simp only [Fat32.fat32Finddir, Fat32.finddirClusters, hbuf, if_pos hin, hread, if_neg htrue, hhit,
    hnode]

/-- `fat32_read` from the first cluster. -/
theorem read_first {σ : Type} {env : Fat32.FatEnv σ} {fat : Fat32.Fat} {s s₁ s₂ : σ}
    {inode size : Nat} {b b' : Fat32.Buf} (buffer : Mem) (hpos : 0 < size)
    (hle : size ≤ fat.clusterSize) (hbuf : env.kmalloc fat.clusterSize s = (b, s₁))
    (hread : Fat32.readCluster env fat inode b s₁ = (true, b', s₂)) : ∃ r buffer',
    Fat32.fat32Read env fat inode 0 size buffer s = some (r, buffer', env.kfree b.addr s₂) := by
  have hlt := Fat32.clusterSize_lt fat
  have hskip : ¬fat.clusterSize ≤ 0 := by omega
  have htrue : ¬true = false := by decide
  have hchunk : (if size < sub32 fat.clusterSize 0 then size else sub32 fat.clusterSize 0)
      = size := by
    rw [sub32_of_le (by omega) (by omega)]
    split <;> omega
  obtain ⟨j, rfl⟩ := Nat.exists_eq_add_one.mpr hpos
  simp only [Fat32.fat32Read, Fat32.skipClusters, if_neg hskip, hbuf, Fat32.copyClusters,
    if_pos hpos, hread, if_neg htrue, hchunk, Nat.sub_self, Nat.lt_irrefl, if_false]
  exact ⟨_, _, rfl⟩

theorem noteSector_hit : Fat32.finddirEntries (cstring "A") noteSector 16 0 (fun _ => 0)
    = some (.hit (Fat32.entryAt noteSector 0)) := by
  have hend : ¬(Fat32.entryAt noteSector 0).name[0] = 0x00 := by decide
  have hdeleted : ¬(Fat32.entryAt noteSector 0).name[0] = 0xE5 := by decide
  have hlong : ¬(Fat32.entryAt noteSector 0).attr &&& Fat32.attrLongName ≠ 0 := by decide
  have hname : Fat32.matchName (cstring "A")
      (Fat32.copyName (Fat32.entryAt noteSector 0) fun _ => 0) 13 0 = some true := by decide +kernel
  rw [Fat32.finddirEntries, if_neg hend, if_neg hdeleted, if_neg hlong]
  dsimp only
  rw [hname]

/-- The heap is as large as after boot, has the blocks `bs`, and no allocation has failed. -/
structure Calm (m : Machine) (bs : List Block) : Prop where
  inv : Inv m.kernel.heap bs
  start : m.kernel.heap.heapStart = 0xC0000000
  size : m.kernel.heap.heapSize = 0x100000
  ok : m.refused = false

section Calm

variable {m : Machine} {bs bs' : List Block} {b : Block} {a n : Nat}

theorem Calm.kmalloc (h : Calm m bs) (h1 : 1 ≤ n) (h2 : n ≤ 0xFFFFFFE8)
    (ha : Heap.alloc (align8 n) bs = some (a, bs')) :
    Calm (m.kmalloc n).2 bs' ∧ (m.kmalloc n).1.addr = a + 16 := by
  obtain ⟨h', hi, hst, hsz, hbuf, hm⟩ := Machine.kmalloc_served h.inv h1 h2 ha
  rw [hm, hbuf]
  exact ⟨⟨hi, hst.trans h.start, hsz.trans h.size, h.ok⟩, rfl⟩

theorem Calm.store (h : Calm m bs) (hb : b ∈ bs) (ha : a = b.addr + 16) (hn : n + 16 ≤ b.size)
    (data : Mem) : Calm (m.store a data n) bs :=
  ⟨h.inv.writePayload hb fun _ hx => Mem.copy_outside (by omega), h.start, h.size, h.ok⟩

theorem Calm.kfree (h : Calm m bs) (hb : b ∈ bs) (hfree : b.free = false) (ha : a = b.addr + 16) :
    Calm (m.kfree a) (release b.addr bs) := by
  obtain ⟨pre, post, rfl⟩ := List.append_of_mem hb
  have hhigh : m.kernel.heap.heapStart + m.kernel.heap.heapSize < 2 ^ 32 := by
    have hstart := h.start
    have hsize := h.size
    omega
  obtain ⟨hi, hst, hsz, -⟩ := kfree_refines h.inv hfree hhigh
  rw [← ha] at hi hst hsz
  exact ⟨hi, hst.trans h.start, hsz.trans h.size, h.ok⟩

end Calm

/-- A cluster of the volume is one sector. -/
theorem readCluster_note (c lba : Nat) (hlba : add32 smallFat.dataStartSector
    (sub32 c 2 * smallFat.sectorsPerCluster.toNat % 2 ^ 32) = lba) (b : Fat32.Buf) (m : Machine) :
    Fat32.readCluster noteDisk.env smallFat c b m
      = (true, ⟨b.addr, fun i => (m.store b.addr (noteBytes lba) 512).kernel.heap.mem (b.addr + i)⟩,
          m.store b.addr (noteBytes lba) 512) := by
  have hcount : smallFat.sectorsPerCluster.toNat = 1 := by decide
  have hread : ∀ n, noteDisk.env.ataReadSectors 0 lba n b m
      = (true, fun i => (m.store b.addr (noteBytes lba) (512 * n)).kernel.heap.mem (b.addr + i),
          m.store b.addr (noteBytes lba) (512 * n)) := fun n => rfl
  unfold Fat32.readCluster
  dsimp only
  rw [hlba, hcount, hread, Nat.mul_one]

/-- The node of `A`. -/
def noteNode (b : Fat32.Buf) : Fat32.FsNode := Fat32.fileNode (Fat32.entryAt noteSector 0) b

/-- The lookup of `A`: the buffer, the sector, the node, and the buffer freed. -/
theorem search_note {m m₁ m₂ : Machine} {b b₂ : Fat32.Buf} (hbuf : m.kmalloc 512 = (b, m₁))
    (hnode : (m₁.store b.addr noteSector 512).kmalloc 184 = (b₂, m₂)) :
    noteVolume.search "A" m = some (some (noteNode b₂), m₂.kfree b.addr) := by
  have hsize : smallFat.clusterSize = 512 := by decide
  have hcall : noteDisk.env.kmalloc smallFat.clusterSize m = (b, m₁) := by
    rw [hsize]
    exact hbuf
  have hdata : noteBytes 64 = noteSector := if_pos rfl
  have hread := readCluster_note 2 64 (by decide) b m₁
  rw [hdata] at hread
  have hhit : Fat32.finddirEntries (cstring "A")
      (fun i => (m₁.store b.addr noteSector 512).kernel.heap.mem (b.addr + i))
      (smallFat.clusterSize / 32) 0 (fun _ => 0) = some (.hit (Fat32.entryAt noteSector 0)) := by
    have hcopy : ∀ x < 512,
        (m₁.store b.addr noteSector 512).kernel.heap.mem (b.addr + x) = noteSector x :=
      fun x hx => (Mem.copy_inside hx).trans (by rw [Nat.zero_add])
    rw [hsize, Fat32.finddirEntries_congr _ hcopy (by decide)]
    exact noteSector_hit
  have hfound := finddir_found (by decide) hcall hread hhit hnode
  exact hfound

/-- The read of its header. -/
theorem read_note {m m₁ : Machine} {b b₂ : Fat32.Buf} (hbuf : m.kmalloc 512 = (b, m₁)) :
    noteVolume.read (noteNode b₂) 0 52 m
      = some ((m₁.store b.addr (noteBytes 65) 512).kfree b.addr) := by
  have hsize : smallFat.clusterSize = 512 := by decide
  have hcall : noteDisk.env.kmalloc smallFat.clusterSize m = (b, m₁) := by
    rw [hsize]
    exact hbuf
  have hread := readCluster_note 3 65 (by decide) b m₁
  have h52 : 52 ≤ smallFat.clusterSize := by decide
  obtain ⟨r, buffer, hr⟩ := read_first (fun _ => 0) (by decide) h52 hcall hread
  exact congrArg (Option.map fun x : Nat × Mem × Machine => x.2.2) hr

/-- The lookup and the read after boot: the heap has room for all of it. -/
theorem note_served (h₀ : Calm (.start k) [⟨0xC0000000, 0x100000, true⟩]) : ∃ node m m',
    noteVolume.search "A" (.start k) = some (some node, m) ∧
      noteVolume.read node 0 52 m = some m' ∧ m'.refused = false := by
  obtain ⟨h₁, ha₁⟩ := h₀.kmalloc (n := 512) (by decide) (by decide)
    (by decide : _ = some (0xC0000000,
    [⟨0xC0000000, 528, false⟩, ⟨0xC0000210, 0xFFDF0, true⟩]))
  have h₂ := h₁.store (b := ⟨0xC0000000, 528, false⟩) (n := 512) (by decide) ha₁ (by decide)
    noteSector
  obtain ⟨h₃, -⟩ := h₂.kmalloc (n := 184) (by decide) (by decide) (by decide : _ = some (0xC0000210,
    [⟨0xC0000000, 528, false⟩, ⟨0xC0000210, 200, false⟩, ⟨0xC00002D8, 0xFFD28, true⟩]))
  have h₄ := h₃.kfree (b := ⟨0xC0000000, 528, false⟩) (by decide) rfl ha₁
  have hlist : release 0xC0000000 [⟨0xC0000000, 528, false⟩, ⟨0xC0000210, 200, false⟩,
      ⟨0xC00002D8, 0xFFD28, true⟩]
      = [⟨0xC0000000, 528, true⟩, ⟨0xC0000210, 200, false⟩, ⟨0xC00002D8, 0xFFD28, true⟩] := by
    decide
  rw [hlist] at h₄
  obtain ⟨h₅, ha₅⟩ := h₄.kmalloc (n := 512) (by decide) (by decide)
    (by decide : _ = some (0xC0000000,
    [⟨0xC0000000, 528, false⟩, ⟨0xC0000210, 200, false⟩, ⟨0xC00002D8, 0xFFD28, true⟩]))
  have h₆ := h₅.store (b := ⟨0xC0000000, 528, false⟩) (n := 512) (by decide) ha₅ (by decide)
    (noteBytes 65)
  have h₇ := h₆.kfree (b := ⟨0xC0000000, 528, false⟩) (by decide) rfl ha₅
  exact ⟨_, _, _, search_note rfl rfl, read_note rfl, h₇.ok⟩

/-- 52 zeros are no header. -/
theorem readHeader_zeros {c : Calls Loading} {s t : Sys Loading}
    (hwork : c.vfsWork 0 headerSize s = .ok () t) :
    readHeader c Kernel.allReads (List.replicate 52 0) s = .error (.returns .invalidMagic) t := by
  have hbytes : Elf.vfsRead c (List.replicate 52 0) Kernel.allReads.header 0 headerSize s
      = .ok (List.replicate 52 0) t := by
    unfold Elf.vfsRead
    rw [bind_eq hwork]
    rfl
  have hlen : ¬(List.replicate 52 (0 : UInt8)).length ≠ headerSize := by decide
  have hmagic : (Header.parse (List.replicate 52 0)).magic ≠ elfMagic := by decide
  unfold readHeader
  rw [bind_eq hbytes, if_neg hlen, if_pos hmagic]
  rfl

end FlowOS.HeapRun
