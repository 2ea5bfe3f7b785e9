/-
# The calls of `vfs.c` on nodes of the driver

A call of `vfs.c` looks at one callback field of the node, and calls it unless it is null;
`vfs_readdir` and `vfs_finddir` look at the type of the node first.  The driver makes nodes with
`kmalloc` and sets the callbacks it has.  It clears no field, and neither does `kmalloc`: the
fields it leaves out hold whatever the memory held before.

No node has `write`, `open` and `close` set, and a directory has no `read` either.  Its other
fields matter for no call: `vfs_readdir` and `vfs_finddir` return before they look at the
callbacks of a file.  So what a node needs is zeros in these three or four words of recycled
memory (`vfs_safe_iff`).  `elf_exec` calls `vfs_read` on whatever node the path names, be it a
directory.
-/
import FlowOS.Fat32.Init
import FlowOS.Fat32.Listing

namespace FlowOS.Fat32

/-! ## 1. `vfs.c` -/

def Callback.isNull : Callback → Bool
  | .word w => w == 0
  | _ => false

/-- `if (node->f != 0) return node->f(...); else return 0;`: the function that is called. -/
def callback (f : Callback) : Option Callback := if f.isNull then none else some f

/-- The node is a directory, for `vfs_readdir` and `vfs_finddir`. -/
def FsNode.isDirectory (node : FsNode) : Prop := node.flags &&& 0x7 = fsDirectory

instance (node : FsNode) : Decidable node.isDirectory := inferInstanceAs (Decidable (_ = _))

def vfsRead (node : FsNode) : Option Callback := callback node.read

def vfsWrite (node : FsNode) : Option Callback := callback node.write

def vfsOpen (node : FsNode) : Option Callback := callback node.open_

def vfsClose (node : FsNode) : Option Callback := callback node.close

def vfsReaddir (node : FsNode) : Option Callback :=
  if node.isDirectory then callback node.readdir else none

def vfsFinddir (node : FsNode) : Option Callback :=
  if node.isDirectory then callback node.finddir else none

/-! ## 2. Nodes -/

/-- Every call on the node goes to the driver's function for it, or does nothing. -/
structure Guarded (node : FsNode) : Prop where
  read : vfsRead node = none ∨ vfsRead node = some .fat32Read
  write : vfsWrite node = none
  open_ : vfsOpen node = none
  close : vfsClose node = none
  readdir : vfsReaddir node = none ∨ vfsReaddir node = some .fat32Readdir
  finddir : vfsFinddir node = none ∨ vfsFinddir node = some .fat32Finddir

/-- The offsets of the callbacks that are left out of a file and of a directory: `write`, `open`
and `close`, and in a directory `read`. -/
def unsetCallbacks (directory : Bool) : List Nat :=
  if directory then [156, 160, 164, 168] else [160, 164, 168]

theorem callback_word (w : Nat) : callback (.word w) = none ↔ w = 0 := by
  simp [callback, Callback.isNull]

/-- A word of memory in the place of a callback is harmless only as a null pointer. -/
theorem callback_word_or {w : Nat} {f : Callback} (hf : ∀ w, f ≠ .word w) :
    callback (.word w) = none ∨ callback (.word w) = some f ↔ w = 0 := by
  rw [callback_word]
  constructor
  · rintro (h | h)
    · exact h
    · unfold callback at h
      split at h
      · cases h
      · exact absurd (Option.some.inj h).symm (hf w)
  · exact Or.inl

theorem not_isDirectory_file {node : FsNode} (h : node.flags = fsFile) : ¬node.isDirectory := by
  unfold FsNode.isDirectory
  rw [h]
  decide

/-- A file node, with the driver's `read` and words of memory in the other fields used. -/
theorem guarded_file_iff {node : FsNode} {w o c : Nat} (hflags : node.flags = fsFile)
    (hread : node.read = .fat32Read) (hwrite : node.write = .word w) (hopen : node.open_ = .word o)
    (hclose : node.close = .word c) : Guarded node ↔ w = 0 ∧ o = 0 ∧ c = 0 := by
  have hnot := not_isDirectory_file hflags
  constructor
  · rintro ⟨-, h1, h2, h3, -, -⟩
    rw [vfsWrite, hwrite, callback_word] at h1
    rw [vfsOpen, hopen, callback_word] at h2
    rw [vfsClose, hclose, callback_word] at h3
    exact ⟨h1, h2, h3⟩
  · rintro ⟨rfl, rfl, rfl⟩
    refine ⟨Or.inr ?_, ?_, ?_, ?_, Or.inl (if_neg hnot), Or.inl (if_neg hnot)⟩
    · rw [vfsRead, hread]
      rfl
    · rw [vfsWrite, hwrite, callback_word]
    · rw [vfsOpen, hopen, callback_word]
    · rw [vfsClose, hclose, callback_word]

/-- A directory node, with the driver's `readdir` and `finddir` and words of memory in the other
fields. -/
theorem guarded_directory_iff {node : FsNode} {r w o c : Nat}
    (hreaddir : node.readdir = .fat32Readdir)
    (hfinddir : node.finddir = .fat32Finddir) (hread : node.read = .word r)
    (hwrite : node.write = .word w) (hopen : node.open_ = .word o) (hclose : node.close = .word c) :
    Guarded node ↔ r = 0 ∧ w = 0 ∧ o = 0 ∧ c = 0 := by
  constructor
  · rintro ⟨h0, h1, h2, h3, -, -⟩
    rw [vfsRead, hread, callback_word_or (by simp)] at h0
    rw [vfsWrite, hwrite, callback_word] at h1
    rw [vfsOpen, hopen, callback_word] at h2
    rw [vfsClose, hclose, callback_word] at h3
    exact ⟨h0, h1, h2, h3⟩
  · rintro ⟨rfl, rfl, rfl, rfl⟩
    refine ⟨Or.inl ?_, ?_, ?_, ?_, ?_, ?_⟩
    · rw [vfsRead, hread, callback_word]
    · rw [vfsWrite, hwrite, callback_word]
    · rw [vfsOpen, hopen, callback_word]
    · rw [vfsClose, hclose, callback_word]
    · rw [vfsReaddir, hreaddir]
      split
      · exact Or.inr rfl
      · exact Or.inl rfl
    · rw [vfsFinddir, hfinddir]
      split
      · exact Or.inr rfl
      · exact Or.inl rfl

/-- The words of recycled memory under the callbacks left out are null pointers. -/
def Cleared (directory : Bool) (b : Buf) : Prop :=
  ∀ a ∈ unsetCallbacks directory, b.bytes.ld32 a = 0

/-- **The root node.** -/
theorem guarded_rootNode (bpb : Bpb) (b : Buf) : Guarded (rootNode bpb b) ↔ Cleared true b := by
  rw [guarded_directory_iff rfl rfl rfl rfl rfl rfl]
  simp [Cleared, unsetCallbacks]

/-- **A node of `fat32_finddir`.** -/
theorem guarded_fileNode (e : DirEntry) (b : Buf) :
    Guarded (fileNode e b) ↔ Cleared (e.attr &&& attrDirectory != 0) b := by
  unfold fileNode
  dsimp only
  by_cases hdir : e.attr &&& attrDirectory = 0
  · rw [if_neg (by simpa using hdir), guarded_file_iff rfl rfl rfl rfl rfl, hdir]
    simp [Cleared, unsetCallbacks]
  · have hbne : (e.attr &&& attrDirectory != 0) = true := by simpa using hdir
    rw [if_pos hdir, guarded_directory_iff rfl rfl rfl rfl rfl rfl, hbne]
    simp [Cleared, unsetCallbacks]

/-! ## 3. Where nodes come from -/

variable {σ : Type} {env : FatEnv σ}

/-- `fat32_init` makes its node in the memory of an allocation. -/
theorem fat32Init_root {s s' : σ} {vol : Volume} (h : fat32Init env s = (.ok vol, s')) :
    ∃ t, vol.root = rootNode vol.bpb (env.kmalloc 184 t).1 := by
  unfold fat32Init at h
  dsimp only at h
  split at h
  · cases h
  · split at h
    · cases h
    · split at h
      · cases h
      · cases h
        exact ⟨_, rfl⟩

/-- So does `fat32_finddir`. -/
theorem finddirClusters_node {fat : Fat} {name : Mem} {fuel c : Nat} {entryName : Mem}
    {buffer : Buf} {s s' : σ} {node : FsNode}
    (h : finddirClusters env fat name fuel c entryName buffer s = some (some node, s')) :
    ∃ e t, node = fileNode e (env.kmalloc 184 t).1 := by
  induction fuel generalizing c entryName buffer s with
  | zero => cases h
  | succ fuel ih =>
    rw [finddirClusters] at h
    dsimp only at h
    split at h
    · split at h
      · cases h
      · split at h
        · cases h
        · cases h
        · cases h
          exact ⟨_, _, rfl⟩
        · exact ih h
    · cases h

/-- **When the calls on a node are safe.**  For whatever the services answer, and so for every
contents of recycled memory: the calls of `vfs.c` on `fs_root`, and on every node of
`fat32_finddir`, go to the functions the driver has installed or do nothing, if and only if the
memory `kmalloc` returned for the node had null pointers in the place of the callbacks that the
driver leaves out. -/
theorem vfs_safe_iff (env : FatEnv σ) :
    (∀ s vol s', fat32Init env s = (.ok vol, s') → ∃ t,
      vol.root = rootNode vol.bpb (env.kmalloc 184 t).1 ∧
      (Guarded vol.root ↔ Cleared true (env.kmalloc 184 t).1)) ∧
    ∀ fat fuel inode name entryName s node s',
      fat32Finddir env fat fuel inode name entryName s = some (some node, s') → ∃ e t,
        node = fileNode e (env.kmalloc 184 t).1 ∧
        (Guarded node ↔ Cleared (e.attr &&& attrDirectory != 0) (env.kmalloc 184 t).1) := by
  refine ⟨?_, ?_⟩
  · intro s vol s' h
    obtain ⟨t, ht⟩ := fat32Init_root h
    exact ⟨t, ht, ht ▸ guarded_rootNode vol.bpb _⟩
  · intro fat fuel inode name entryName s node s' h
    obtain ⟨e, t, rfl⟩ := finddirClusters_node h
    exact ⟨e, t, rfl, guarded_fileNode e _⟩

/-- A machine like `readyEnv`, with this byte all over the memory `kmalloc` returns. -/
def recycledEnv (old : UInt8) (d : Disk) : FatEnv Unit :=
  { readyEnv d with kmalloc := fun _ s => (⟨0xC0001010, fun _ => old⟩, s) }

theorem recycledEnv_mounts (old : UInt8) (d : Disk) :
    ∃ root s', fat32Init (recycledEnv old d.mounted) () = (.ok ⟨smallBpb, root⟩, s') :=
  (fat32Init_mounts (fun _ _ _ _ => ⟨rfl, rfl⟩) () smallBpb).mpr (mounts_mounted d)

/-- With zeros all over the heap the root node is safe. -/
theorem vfs_safe_iff_zero : ∃ root s',
    fat32Init (recycledEnv 0 dirDisk.mounted) () = (.ok ⟨smallBpb, root⟩, s') ∧ Guarded root := by
  obtain ⟨root, s', h⟩ := recycledEnv_mounts 0 dirDisk
  obtain ⟨t, -, hsafe⟩ := (vfs_safe_iff (recycledEnv 0 dirDisk.mounted)).1 () _ s' h
  refine ⟨root, s', h, hsafe.mpr ?_⟩
  unfold Cleared
  show ∀ a ∈ [156, 160, 164, 168], Mem.ld32 (fun _ => 0) a = 0
  decide

/-- A callback field in memory full of the letter `A`. -/
theorem callback_recycled (a : Nat) :
    callback (.word (Mem.ld32 (fun _ => 0x41) a)) = some (.word 0x41414141) := by
  have hword : Mem.ld32 (fun _ => 0x41) a = 0x41414141 := by
    unfold Mem.ld32
    dsimp only
    decide
  rw [hword]
  simp [callback, Callback.isNull]

/-- With the letter `A` all over the heap, `vfs_read` of the root directory and `vfs_write` of the
file `B` jump to `0x41414141`. -/
theorem vfs_jumps :
    (∃ root s', fat32Init (recycledEnv 0x41 dirDisk.mounted) () = (.ok ⟨smallBpb, root⟩, s') ∧
      vfsRead root = some (.word 0x41414141) ∧ ¬Guarded root) ∧
    ∃ node s', fat32Finddir (recycledEnv 0x41 dirDisk.mounted) smallBpb.fat 3
        smallBpb.rootCluster.toNat (letterName 0x42) (fun _ => 0) () = some (some node, s') ∧
      vfsWrite node = some (.word 0x41414141) ∧ ¬Guarded node := by
  refine ⟨?_, ?_⟩
  · obtain ⟨root, s', h⟩ := recycledEnv_mounts 0x41 dirDisk
    obtain ⟨t, ht⟩ := fat32Init_root h
    have hjump : vfsRead root = some (.word 0x41414141) := by
      rw [show root = _ from ht]
      exact callback_recycled 156
    refine ⟨root, s', h, hjump, ?_⟩
    rintro ⟨hread | hread, -, -, -, -, -⟩
    all_goals
      rw [hjump] at hread
      cases hread
  · have hfound : ((fat32Finddir (recycledEnv 0x41 dirDisk.mounted) smallBpb.fat 3
        smallBpb.rootCluster.toNat (letterName 0x42) (fun _ => 0) ()).map
          fun r => r.1.map fun node => node.flags) = some (some fsFile) := by decide +kernel
    obtain ⟨⟨r, s'⟩, heq, hr⟩ := Option.map_eq_some_iff.mp hfound
    obtain ⟨node, rfl, hflags⟩ := Option.map_eq_some_iff.mp hr
    obtain ⟨e, t, rfl⟩ := finddirClusters_node heq
    have hjump : vfsWrite (fileNode e ((recycledEnv 0x41 dirDisk.mounted).kmalloc 184 t).1)
        = some (.word 0x41414141) := by
      unfold fileNode
      dsimp only
      split <;> exact callback_recycled 160
    exact ⟨_, s', heq, hjump, fun h => by rw [h.write] at hjump; cases hjump⟩

end FlowOS.Fat32
