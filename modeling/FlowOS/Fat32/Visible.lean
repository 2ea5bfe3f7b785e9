/-
# Which files of a directory can be seen

`ATTR_LONG_NAME` is `0x0F`: read-only, hidden, system and volume label together, a combination
that marks the entries of long names.  Both scanners test `attr & ATTR_LONG_NAME`, not
`(attr & ATTR_LONG_NAME) == ATTR_LONG_NAME`, and so pass over every entry that has one of the four
attributes.

A live entry is one of a file or directory: before the end mark, not deleted, no long name and no
volume label.  In a directory whose live entries have different names, one is found and listed if
and only if it is not read-only, hidden or system (`visible_iff`).  That the listing also needs an
index for it is no matter of attributes: the index is a `uint32_t`.
-/
import FlowOS.Fat32.Init
import FlowOS.Fat32.Listing
import Mathlib.Data.List.Nodup

namespace FlowOS.Fat32

variable {σ : Type} {env : FatEnv σ} {d : Disk} {fat : Fat}

/-! ## 1. Live entries -/

/-- The live entries of the directory with the clusters `cs`. -/
def liveEntries (d : Disk) (fat : Fat) (cs : List Nat) : List DirEntry :=
  Scan.listing DirEntry.isEnd DirEntry.isLive (cs.flatMap (clusterEntries d fat))

/-- Without the volume label, the test of the code is one for the other three. -/
theorem longName_iff {a : UInt8} (h : a &&& attrVolumeId = 0) :
    a &&& attrLongName = 0 ↔ a &&& (attrReadOnly ||| attrHidden ||| attrSystem) = 0 := by
  have hall : ∀ a : BitVec 8, a &&& 8 = 0 → (a &&& 15 = 0 ↔ a &&& 7 = 0) := by decide
  have hbits := hall a.toBitVec (by simpa [← UInt8.toBitVec_inj, attrVolumeId] using h)
  simpa [← UInt8.toBitVec_inj, attrLongName, attrReadOnly, attrHidden, attrSystem] using hbits

theorem DirEntry.isLive_of_isListed {e : DirEntry} (h : e.isListed = true) : e.isLive = true := by
  have hall : ∀ a : BitVec 8, a &&& 15 = 0 → a &&& 8 = 0 := by decide
  unfold isListed at h
  unfold isLive
  simp only [Bool.and_eq_true, bne_iff_ne, beq_iff_eq] at h ⊢
  have hbit : e.attr &&& attrVolumeId = 0 := by
    have := hall e.attr.toBitVec (by simpa [← UInt8.toBitVec_inj, attrLongName] using h.2)
    simpa [← UInt8.toBitVec_inj, attrVolumeId] using this
  exact ⟨⟨h.1, by rw [h.2]; decide⟩, hbit⟩

/-- A live entry is listed exactly when it is not read-only, hidden or system. -/
theorem DirEntry.isListed_iff {e : DirEntry} (h : e.isLive = true) :
    e.isListed = true ↔ e.attr &&& (attrReadOnly ||| attrHidden ||| attrSystem) = 0 := by
  unfold isLive at h
  unfold isListed
  simp only [Bool.and_eq_true, bne_iff_ne, beq_iff_eq] at h ⊢
  rw [← longName_iff h.2]
  exact and_iff_right h.1.1

/-- The listed ones among the live entries are the listing of the directory. -/
theorem mem_listing_iff {cs : List Nat} {e : DirEntry} :
    e ∈ listing d fat cs ↔ e ∈ liveEntries d fat cs ∧ e.isListed = true := by
  unfold listing liveEntries Scan.listing
  rw [List.mem_filter, List.mem_filter]
  constructor
  · rintro ⟨hmem, hlisted⟩
    exact ⟨⟨hmem, e.isLive_of_isListed hlisted⟩, hlisted⟩
  · rintro ⟨⟨hmem, -⟩, hlisted⟩
    exact ⟨hmem, hlisted⟩

/-- No two live entries are rendered alike. -/
def DistinctNames (d : Disk) (fat : Fat) (cs : List Nat) : Prop :=
  ((liveEntries d fat cs).map DirEntry.cname).Nodup

theorem DistinctNames.eq {cs : List Nat} (h : DistinctNames d fat cs) {e e' : DirEntry}
    (he : e ∈ liveEntries d fat cs) (he' : e' ∈ liveEntries d fat cs)
    (hname : e.cname = e'.cname) : e = e' :=
  List.inj_on_of_nodup_map h he he' hname

/-! ## 2. What is seen -/

/-- `fat32_finddir` of the entry's rendering returns a node. -/
def Found (env : FatEnv σ) (fat : Fat) (fuel dir : Nat) (s : σ) (e : DirEntry) : Prop :=
  ∀ name entryName : Mem, name.CStr 0 e.cname →
    ∃ node s', fat32Finddir env fat fuel dir name entryName s = some (some node, s')

/-- Some index of `fat32_readdir` yields the entry. -/
def Listed (env : FatEnv σ) (fat : Fat) (fuel dir : Nat) (s : σ) (e : DirEntry) : Prop :=
  ∃ index < 2 ^ 32, ∃ dirent s',
    fat32Readdir env fat fuel dir index s = some (some dirent, s') ∧ dirent.Shows e

theorem Dirent.Shows.cstr {dirent : Dirent} {e : DirEntry} (h : dirent.Shows e) :
    dirent.name.CStr 0 e.cname := Mem.cstr_takeWhile h.name

section Directory

variable (hd : Serves env d) (ha : Allocates env) (h512 : fat.bytesPerSector = 512) {dir : Nat}
  {cs : List Nat} (hchain : DirChain d fat dir cs) {fuel : Nat} (hfuel : cs.length < fuel)

include hd ha h512 hchain hfuel

/-- An entry that is listed is found by its name. -/
theorem finddir_listed {e : DirEntry} (he : e ∈ listing d fat cs) {name : Mem}
    (hname : name.CStr 0 e.cname) (entryName : Mem) (s : σ) :
    ∃ node s', fat32Finddir env fat fuel dir name entryName s = some (some node, s') := by
  obtain ⟨r, s', heq, hrel⟩ := fat32Finddir_listing hd ha h512 hchain hfuel name entryName s
  cases hfind : (listing d fat cs).find? fun e => name.CStr 0 e.cname with
  | none => exact absurd (List.find?_eq_none.mp hfind e he) (by simpa using hname)
  | some e' =>
    rw [hfind] at hrel
    cases hrel with
    | @some node _ _ => exact ⟨node, s', heq⟩

/-- A node that is returned is one for a listed entry with the name. -/
theorem listed_of_finddir {name entryName : Mem} {s s' : σ} {node : FsNode}
    (h : fat32Finddir env fat fuel dir name entryName s = some (some node, s')) :
    ∃ e ∈ listing d fat cs, name.CStr 0 e.cname := by
  obtain ⟨r, s₁, heq, hrel⟩ := fat32Finddir_listing hd ha h512 hchain hfuel name entryName s
  rw [h] at heq
  obtain ⟨rfl, -⟩ := Prod.mk.inj (Option.some.inj heq)
  cases hfind : (listing d fat cs).find? fun e => name.CStr 0 e.cname with
  | none =>
    rw [hfind] at hrel
    cases hrel
  | some e =>
    have hname := List.find?_some hfind
    exact ⟨e, List.mem_of_find?_eq_some hfind, by simpa using hname⟩

/-- A `struct dirent` that shows a live entry is returned for the place of that entry in the
listing. -/
theorem index_of_readdir (hnames : DistinctNames d fat cs) {e : DirEntry}
    (he : e ∈ liveEntries d fat cs) {index : Nat} (hindex : index < 2 ^ 32) {s s' : σ}
    {dirent : Dirent}
    (h : fat32Readdir env fat fuel dir index s = some (some dirent, s')) (hshows : dirent.Shows e) :
    (listing d fat cs)[index]? = some e := by
  obtain ⟨r, s₁, heq, hrel⟩ := fat32Readdir_listing hd ha h512 hchain hfuel hindex s
  rw [h] at heq
  obtain ⟨rfl, -⟩ := Prod.mk.inj (Option.some.inj heq)
  cases hget : (listing d fat cs)[index]? with
  | none =>
    rw [hget] at hrel
    cases hrel
  | some e' =>
    rw [hget] at hrel
    cases hrel with
    | some hshows' =>
      have hlive := (mem_listing_iff.mp (List.mem_of_getElem? hget)).1
      rw [hnames.eq he hlive (hshows.cstr.unique hshows'.cstr)]

end Directory

/-- **Which files can be seen.**  In a directory of a well-formed volume (a finite chain of
clusters, live entries with different names, sectors of 512 bytes, reads and allocations
succeeding) a live entry is found by its 8.3 rendering exactly when it has none of the attributes
read-only, hidden and system; and some index yields it exactly when, besides, its place in the
listing is a `uint32_t`. -/
theorem visible_iff (env : FatEnv σ) (d : Disk) (hd : Serves env d) (ha : Allocates env)
    (fat : Fat) (h512 : fat.bytesPerSector = 512) (dir : Nat) (cs : List Nat)
    (hchain : DirChain d fat dir cs) (hnames : DistinctNames d fat cs) (fuel : Nat)
    (hfuel : cs.length < fuel) (s : σ) (e : DirEntry) (he : e ∈ liveEntries d fat cs) :
    (Found env fat fuel dir s e ↔
      e.attr &&& (attrReadOnly ||| attrHidden ||| attrSystem) = 0) ∧
    (Listed env fat fuel dir s e ↔
      e.attr &&& (attrReadOnly ||| attrHidden ||| attrSystem) = 0 ∧
        (listing d fat cs).idxOf e < 2 ^ 32) := by
  have hlive : e.isLive = true := (List.mem_filter.mp he).2
  rw [← e.isListed_iff hlive]
  refine ⟨⟨?_, ?_⟩, ?_, ?_⟩
  · intro hfound
    have hname := copyName_cstr e fun _ => 0
    obtain ⟨node, s', heq⟩ := hfound _ (fun _ => 0) hname
    obtain ⟨e', he', hname'⟩ := listed_of_finddir hd ha h512 hchain hfuel heq
    obtain ⟨hlive', hlisted⟩ := mem_listing_iff.mp he'
    rwa [hnames.eq he hlive' (hname.unique hname')]
  · intro hlisted name entryName hname
    exact finddir_listed hd ha h512 hchain hfuel (mem_listing_iff.mpr ⟨he, hlisted⟩) hname
      entryName s
  · rintro ⟨index, hindex, dirent, s', heq, hshows⟩
    have hget := index_of_readdir hd ha h512 hchain hfuel hnames he hindex heq hshows
    have hmem := List.mem_of_getElem? hget
    refine ⟨(mem_listing_iff.mp hmem).2, ?_⟩
    have htake : e ∈ (listing d fat cs).take (2 ^ 32) :=
      List.mem_of_getElem? ((List.getElem?_take_of_lt hindex).trans hget)
    exact (List.mem_take_iff_idxOf_lt hmem).mp htake
  · rintro ⟨hlisted, hplace⟩
    have hmem : e ∈ listing d fat cs := mem_listing_iff.mpr ⟨he, hlisted⟩
    obtain ⟨r, s', heq, hrel⟩ := fat32Readdir_listing hd ha h512 hchain hfuel hplace s
    rw [List.getElem?_eq_getElem (List.idxOf_lt_length_of_mem hmem), List.getElem_idxOf] at hrel
    cases hrel with
    | @some dirent _ hshows => exact ⟨_, hplace, dirent, s', heq, hshows⟩

/-! ### Two files, one of them read-only -/

/-- A root directory with the file `A`, an archive file, and the file `B`, which is also
read-only. -/
def readOnlyDisk : Disk := fun lba i =>
  if lba = 32 then if 12 ≤ i then 0 else if i % 4 = 3 then 0x0F else 0xFF
  else if lba = 100 then
    if i = 11 then 0x20 else if i = 32 + 11 then 0x21
    else if i < 32 then letterEntry 0x41 i
    else if i < 64 then letterEntry 0x42 (i - 32) else 0
  else 0

/-- The entries of `A` and `B`, as `fat32_finddir` reads them. -/
def readOnlyEntry (i : Nat) : DirEntry := entryAt (readOnlyDisk 100) i

theorem readOnlyDisk_dir : DirChain readOnlyDisk.mounted smallBpb.fat 2 [2] :=
  .step (by decide) (.stop (by decide +kernel))

theorem readOnlyDisk_live : liveEntries readOnlyDisk.mounted smallBpb.fat [2]
    = [readOnlyEntry 0, readOnlyEntry 1] := by decide +kernel

theorem readOnlyDisk_names : DistinctNames readOnlyDisk.mounted smallBpb.fat [2] := by
  unfold DistinctNames
  rw [readOnlyDisk_live]
  decide

/-- `A` can be seen. -/
theorem visible_iff_archive :
    Found (readyEnv readOnlyDisk.mounted) smallBpb.fat 2 2 () (readOnlyEntry 0) ∧
      Listed (readyEnv readOnlyDisk.mounted) smallBpb.fat 2 2 () (readOnlyEntry 0) := by
  obtain ⟨hfound, hlisted⟩ := visible_iff (readyEnv readOnlyDisk.mounted) readOnlyDisk.mounted
    (fun _ _ _ _ => ⟨rfl, rfl⟩) (fun _ _ => by simp [readyEnv]) smallBpb.fat rfl 2 [2]
    readOnlyDisk_dir readOnlyDisk_names 2 (by decide) () (readOnlyEntry 0)
    (by rw [readOnlyDisk_live]; exact List.mem_cons_self)
  exact ⟨hfound.mpr (by decide), hlisted.mpr ⟨by decide, by decide +kernel⟩⟩

/-- `B` is a live entry of that volume.  `fat32_finddir` of `B` returns null, and so does
`fat32_readdir` for every index but that of `A`. -/
theorem read_only_hidden : Mounts readOnlyDisk.mounted smallBpb ∧
    DistinctNames readOnlyDisk.mounted smallBpb.fat [2] ∧
    readOnlyEntry 1 ∈ liveEntries readOnlyDisk.mounted smallBpb.fat [2] ∧
    (letterName 0x42).CStr 0 (readOnlyEntry 1).cname ∧
    (∃ s', fat32Finddir (readyEnv readOnlyDisk.mounted) smallBpb.fat 2 2 (letterName 0x42)
      (fun _ => 0) () = some (none, s')) ∧
    ∀ index < 2 ^ 32, index ≠ 0 →
      ∃ s', fat32Readdir (readyEnv readOnlyDisk.mounted) smallBpb.fat 2 2 index ()
        = some (none, s') := by
  have hserves : Serves (readyEnv readOnlyDisk.mounted) readOnlyDisk.mounted :=
    fun _ _ _ _ => ⟨rfl, rfl⟩
  have halloc : Allocates (readyEnv readOnlyDisk.mounted) := fun _ _ => by simp [readyEnv]
  have hlist : listing readOnlyDisk.mounted smallBpb.fat [2] = [readOnlyEntry 0] := by
    decide +kernel
  refine ⟨mounts_mounted _, readOnlyDisk_names, ?_, by decide, ?_, ?_⟩
  · rw [readOnlyDisk_live]
    exact List.mem_cons_of_mem _ List.mem_cons_self
  · obtain ⟨r, s', heq, hrel⟩ := fat32Finddir_listing hserves halloc rfl readOnlyDisk_dir
      (show [2].length < 2 by decide) (letterName 0x42) (fun _ => 0) ()
    rw [hlist, List.find?_cons_of_neg (by decide), List.find?_nil] at hrel
    cases hrel
    exact ⟨s', heq⟩
  · intro index hindex h0
    obtain ⟨r, s', heq, hrel⟩ := fat32Readdir_listing hserves halloc rfl readOnlyDisk_dir
      (show [2].length < 2 by decide) hindex ()
    rw [hlist, List.getElem?_eq_none_iff.mpr (by rw [List.length_singleton]; omega)] at hrel
    cases hrel
    exact ⟨s', heq⟩

end FlowOS.Fat32
