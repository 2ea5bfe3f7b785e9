/-
# Mounting a volume (`fat32_init`)

`fat32_init` copies the first fields of sector 0 into the static `bpb`, refuses a few zeros and
derives the sector numbers that the file operations start from.  It does not compare
`bytes_per_sector` with the 512 bytes of the driver's sectors, and it does not look at
`total_sectors_32` at all.

The messages it logs on the way are those of `InitError.message`; the ones that announce progress
are left out.
-/
import FlowOS.Fat32.Dir
import FlowOS.Fat32.Read

namespace FlowOS.Fat32

open Word

/-! ## 1. The boot sector -/

/-- `fat_bpb_t`: the fields the driver reads, and `total_sectors_32`, the size of the volume. -/
structure Bpb where
  bytesPerSector : UInt16
  sectorsPerCluster : UInt8
  reservedSectors : UInt16
  numFats : UInt8
  totalSectors32 : UInt32
  fatSize32 : UInt32
  rootCluster : UInt32
  deriving DecidableEq

/-- `*(fat_bpb_t*)sector0`; the structure is packed. -/
def Bpb.parse (sector0 : Mem) : Bpb where
  bytesPerSector := .ofNat (sector0.ld16 11)
  sectorsPerCluster := sector0 13
  reservedSectors := .ofNat (sector0.ld16 14)
  numFats := sector0 16
  totalSectors32 := .ofNat (sector0.ld32 32)
  fatSize32 := .ofNat (sector0.ld32 36)
  rootCluster := .ofNat (sector0.ld32 44)

/-- `fat_start_sector` and `data_start_sector`, with the two fields of `bpb` that the file
operations go on to use. -/
def Bpb.fat (bpb : Bpb) : Fat where
  bytesPerSector := bpb.bytesPerSector
  sectorsPerCluster := bpb.sectorsPerCluster
  fatStartSector := bpb.reservedSectors.toNat
  dataStartSector := add32 bpb.reservedSectors.toNat
    (bpb.numFats.toNat * bpb.fatSize32.toNat % 2 ^ 32)

/-- What passes the two tests of `fat32_init`. -/
structure Bpb.Accepted (bpb : Bpb) : Prop where
  bytesPerSector : bpb.bytesPerSector ≠ 0
  sectorsPerCluster : bpb.sectorsPerCluster ≠ 0
  fatSize32 : bpb.fatSize32 ≠ 0
  numFats : bpb.numFats ≠ 0

/-! ## 2. `fat32_init` -/

/-- Why `fat32_init` returned without a volume. -/
inductive InitError
  | readBootSector | invalidBpb | invalidParameters
deriving DecidableEq

def InitError.message : InitError → String
  | readBootSector => "FAT32: Failed to read boot sector"
  | invalidBpb => "FAT32: Invalid BPB (not a FAT32 volume)"
  | invalidParameters => "FAT32: Invalid FAT32 parameters"

/-- What `fat32_init` leaves behind: the boot parameters and `fs_root`. -/
structure Volume where
  bpb : Bpb
  root : FsNode

/-- `fs_root`: like a directory node of `fat32_finddir`, but with no `length` set. -/
def rootNode (bpb : Bpb) (b : Buf) : FsNode :=
  { FsNode.fresh b with
    inode := bpb.rootCluster.toNat
    flags := fsDirectory
    readdir := .fat32Readdir
    finddir := .fat32Finddir }

variable {σ : Type}

/-- `fat32_init`. -/
def fat32Init (env : FatEnv σ) (s : σ) : Except InitError Volume × σ :=
  let (sector0, s) := env.kmalloc 512 s
  let r := env.ataReadSectors 0 0 1 sector0 s
  let s := env.kfree sector0.addr r.2.2
  if r.1 = false then (.error .readBootSector, s)
  else
    let bpb := Bpb.parse r.2.1
    if bpb.bytesPerSector = 0 ∨ bpb.sectorsPerCluster = 0 then (.error .invalidBpb, s)
    else if bpb.fatSize32 = 0 ∨ bpb.numFats = 0 then (.error .invalidParameters, s)
    else
      let (b, s) := env.kmalloc 184 s
      (.ok ⟨bpb, rootNode bpb b⟩, s)

/-- The disk holds a volume that `fat32_init` accepts, with these parameters. -/
structure Mounts (d : Disk) (bpb : Bpb) : Prop where
  parse : Bpb.parse (d 0) = bpb
  accepted : bpb.Accepted

/-- The fields are all among the bytes of the sector. -/
theorem Bpb.parse_congr {m m' : Mem} (h : ∀ x < 512, m' x = m x) : parse m' = parse m := by
  have h32 : ∀ a, a + 4 ≤ 512 → m'.ld32 a = m.ld32 a := fun a ha =>
    Mem.ld32_congr fun x _ hx => h x (by omega)
  unfold parse Mem.ld16
  rw [h 11 (by decide), h 12 (by decide), h 13 (by decide), h 14 (by decide), h 15 (by decide),
    h 16 (by decide), h32 32 (by decide), h32 36 (by decide), h32 44 (by decide)]

/-- The tests of `fat32_init`, as the source has them. -/
theorem Bpb.accepted_iff {bpb : Bpb} : bpb.Accepted ↔
    ¬(bpb.bytesPerSector = 0 ∨ bpb.sectorsPerCluster = 0) ∧
      ¬(bpb.fatSize32 = 0 ∨ bpb.numFats = 0) := by
  constructor
  · rintro ⟨h1, h2, h3, h4⟩
    exact ⟨not_or.mpr ⟨h1, h2⟩, not_or.mpr ⟨h3, h4⟩⟩
  · rintro ⟨h12, h34⟩
    exact ⟨(not_or.mp h12).1, (not_or.mp h12).2, (not_or.mp h34).1, (not_or.mp h34).2⟩

/-- **What `fat32_init` accepts.**  With sectors to be had, a volume comes out of it exactly when
sector 0 passes its tests, and then with the parameters that stand there. -/
theorem fat32Init_mounts {env : FatEnv σ} {d : Disk} (hd : Serves env d) (s : σ) (bpb : Bpb) :
    (∃ root s', fat32Init env s = (.ok ⟨bpb, root⟩, s')) ↔ Mounts d bpb := by
  obtain ⟨hok, hbytes⟩ := hd 0 1 (env.kmalloc 512 s).1 (env.kmalloc 512 s).2
  have hparse : Bpb.parse (env.ataReadSectors 0 0 1 (env.kmalloc 512 s).1
      (env.kmalloc 512 s).2).2.1 = Bpb.parse (d 0) := by
    rw [hbytes]
    refine Bpb.parse_congr fun x hx => ?_
    rw [Disk.fill, if_pos (by omega), Nat.div_eq_of_lt hx, Nat.mod_eq_of_lt hx]
  unfold fat32Init
  dsimp only
  rw [hok, if_neg (by decide), hparse]
  constructor
  · rintro ⟨root, s', h⟩
    split at h
    · cases h
    · split at h
      · cases h
      · rename_i h12 h34
        cases h
        exact ⟨rfl, Bpb.accepted_iff.mpr ⟨h12, h34⟩⟩
  · rintro ⟨rfl, haccepted⟩
    obtain ⟨h12, h34⟩ := Bpb.accepted_iff.mp haccepted
    rw [if_neg h12, if_neg h34]
    exact ⟨_, _, rfl⟩

/-- Whatever the services answer, a volume that comes out of `fat32_init` has passed its tests. -/
theorem fat32Init_accepted {env : FatEnv σ} {s s' : σ} {vol : Volume}
    (h : fat32Init env s = (.ok vol, s')) : vol.bpb.Accepted := by
  unfold fat32Init at h
  dsimp only at h
  split at h
  · cases h
  · split at h
    · cases h
    · split at h
      · cases h
      · rename_i h12 h34
        cases h
        exact Bpb.accepted_iff.mpr ⟨h12, h34⟩

/-- The boot sector of a volume with one sector to a cluster, 32 reserved sectors and two FATs of
34 sectors. -/
def smallBoot : Mem := fun i =>
  if i = 12 then 2 else if i = 13 then 1 else if i = 14 then 32 else if i = 16 then 2
  else if i = 33 then 0x20 else if i = 36 then 34 else if i = 44 then 2 else 0

def smallBpb : Bpb := ⟨512, 1, 32, 2, 0x2000, 34, 2⟩

/-- A disk with that boot sector. -/
def Disk.mounted (d : Disk) : Disk := fun lba => if lba = 0 then smallBoot else d lba

theorem mounts_mounted (d : Disk) : Mounts d.mounted smallBpb where
  parse := by
    show Bpb.parse smallBoot = smallBpb
    decide
  accepted := by constructor <;> decide

example : smallBpb.fat.dataStartSector = 100 := by decide

end FlowOS.Fat32
