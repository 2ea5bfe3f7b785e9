/-
# Files on a disk

The file system is written against `ata_read_sectors`, and takes it for a parameter that may fail;
the driver of the disk is about ports and polls.  Here the one stands on the other: a read of the
file system programs the registers of the first drive, polls its status and takes words from the
data port, and how the device answers a poll is left open, as long as it does not stay busy for
ever.

`files_from_disk` is what then holds of the whole: mount the volume and make any calls, in any order
and on a device that may refuse any sector at any time.  Every call returns, and what it returns is
what the disk holds, or, once the device has refused a sector, a first part of it.

The driver shortens addresses to 28 bits, so what it can see of a drive is `visible`.
-/
import FlowOS.Fat32.Faulty
import FlowOS.Fat32.Visible
import FlowOS.Ata

namespace FlowOS.Disk

open AtaBus (Bus Disks Drive)
open FlowOS.Ata (diskOf bufBytes fatDisk ataReadSectors)
open FlowOS.Fat32 (Fat Buf FatEnv Call Reliable Notes Answered Volume runCalls fat32Init)

/-! ## 1. The stack -/

/-- The answers of the device to the polls of one call. -/
abbrev Polls := { polls : List UInt8 // Ata.Answers 255 polls }

/-- The heap, the bus, what the device answers in the calls to come, and whether a call has failed.
-/
structure Stack (σ : Type) where
  heap : σ
  bus : Bus
  device : Nat → Polls
  failed : Bool

/-- A buffer of bytes as `ata_read_sectors` sees it. -/
def wordsOf (m : Mem) (k : Nat) : UInt16 := UInt16.ofNat (m.ld16 (2 * k))

/-- A call of `ata_read_sectors` always returns. -/
theorem ataReadSectors_isSome (found : Fin 4 → Bool) (disks : Disks) (lba : UInt32) (count : UInt8)
    (polls : Polls) (bus : Bus) (buf : Nat → UInt16) :
    (ataReadSectors (Ata.ataInit found) disks 0 lba count polls.val bus buf).isSome = true := by
  cases hfound : found 0 with
  | false =>
    have hget : (Ata.ataInit found)[(0 : UInt8).toNat]? = some ⟨found 0, 0x1F0, 0x00⟩ := rfl
    rw [ataReadSectors, hget]
    dsimp only
    rw [if_pos hfound]
    rfl
  | true =>
    obtain ⟨busy, b, rest, hpolls, hb, hlen⟩ := polls.property
    have hanswers : Ata.Answers count.toNat polls.val :=
      ⟨busy, b, rest, hpolls, hb, by have := count.toNat_lt; omega⟩
    obtain ⟨r, hr⟩ := @Ata.ataReadSectors_returns disks polls.val found 0 count hfound lba hanswers
      bus buf
    have hr : ataReadSectors (Ata.ataInit found) disks 0 lba count polls.val bus buf = some r := hr
    rw [hr]
    rfl

section

variable {σ : Type} (kmalloc : Nat → σ → Buf × σ) (kfree : Nat → σ → σ) (found : Fin 4 → Bool)
  (disks : Disks)

/-- `ata_read_sectors(0, lba, count, buffer)`. -/
def sectorRead (lba count : Nat) (buffer : Buf) (s : Stack σ) : Ata.ReadRun :=
  (ataReadSectors (Ata.ataInit found) disks 0 (.ofNat lba) (.ofNat count) (s.device 0).val s.bus
    (wordsOf buffer.bytes)).get (ataReadSectors_isSome ..)

/-- **The services of the file system**, on the driver of the disk.  The file system uses drive 0,
and its counts are `uint8_t`. -/
def stackEnv : FatEnv (Stack σ) where
  kmalloc n s :=
    let r := kmalloc n s.heap
    (r.1, { s with heap := r.2 })
  kfree a s := { s with heap := kfree a s.heap }
  ataReadSectors _ lba count buffer s :=
    if 256 ≤ count then (false, buffer.bytes, { s with failed := true })
    else
      let r := sectorRead found disks lba count buffer s
      (r.ret, bufBytes r.buf,
        { s with
          bus := r.bus
          device := fun n => s.device (n + 1)
          failed := s.failed || !r.ret })

end

/-! ## 2. What the driver delivers -/

/-- What the driver sees of a drive. -/
def visible (d : Drive) : Fat32.Disk := fun lba => fatDisk d (lba % 2 ^ 28)

theorem visible_eq (d : Drive) {lba : Nat} (h : lba < 2 ^ 28) : visible d lba = fatDisk d lba := by
  rw [visible, Nat.mod_eq_of_lt h]

theorem bufBytes_wordsOf (m : Mem) : bufBytes (wordsOf m) = m := by
  funext k
  have hlo := (m (2 * (k / 2))).toNat_lt
  have hhi := (m (2 * (k / 2) + 1)).toNat_lt
  unfold bufBytes wordsOf Mem.ld16
  refine UInt8.toNat_inj.mp ?_
  split
  · rw [UInt16.toNat_toUInt8, UInt16.toNat_ofNat', show 2 * (k / 2) = k by omega] at *
    omega
  · rw [UInt16.toNat_toUInt8, UInt16.toNat_shiftRight, UInt16.toNat_ofNat',
      show 2 * (k / 2) + 1 = k by omega] at *
    rw [show (8 : UInt16).toNat % 16 = 8 by rfl, Nat.shiftRight_eq_div_pow]
    omega

variable {σ : Type} {kmalloc : Nat → σ → Buf × σ} {kfree : Nat → σ → σ} {found : Fin 4 → Bool}
  {disks : Disks}

/-- **A call that succeeds delivers what the driver sees.** -/
theorem sectorRead_true (hcap : (diskOf disks 0).capacity ≤ 2 ^ 28) {lba count : Nat} {buffer : Buf}
    {s : Stack σ} (hcount : count < 256)
    (hret : (sectorRead found disks lba count buffer s).ret = true) :
    bufBytes (sectorRead found disks lba count buffer s).buf =
      (visible (diskOf disks 0)).fill lba count buffer.bytes := by
  have hr : ataReadSectors (Ata.ataInit found) disks 0 (.ofNat lba) (.ofNat count) (s.device 0).val
      s.bus (wordsOf buffer.bytes) = some (sectorRead found disks lba count buffer s) :=
    (Option.some_get _).symm
  generalize sectorRead found disks lba count buffer s = r at hr hret
  have hfound : found 0 = true := by
    by_contra hno
    have hget : (Ata.ataInit found)[(0 : UInt8).toNat]? = some ⟨found 0, 0x1F0, 0x00⟩ := rfl
    rw [ataReadSectors, hget] at hr
    dsimp only at hr
    rw [if_pos (Bool.eq_false_iff.mpr hno)] at hr
    obtain rfl := Option.some.inj hr
    cases hret
  have hcountNat : (UInt8.ofNat count).toNat = count := by
    rw [UInt8.toNat_ofNat', Nat.mod_eq_of_lt hcount]
  have hlba : (UInt32.ofNat lba).toNat % 2 ^ 28 = lba % 2 ^ 28 := by
    rw [UInt32.toNat_ofNat']
    omega
  rcases Nat.eq_zero_or_pos count with rfl | hpos
  · -- no sectors: the loop is not entered
    have hbuf : r.buf = wordsOf buffer.bytes := by
      have hr : ataReadSectors (Ata.ataInit found) disks (UInt8.ofNat (0 : Fin 4)) (.ofNat lba)
          (.ofNat 0) (s.device 0).val s.bus (wordsOf buffer.bytes) = some r := hr
      rw [Ata.ataReadSectors_eq hfound] at hr
      split at hr
      · cases hr
      · obtain rfl := Option.some.inj hr
        rfl
    rw [hbuf, bufBytes_wordsOf]
    funext i
    exact (if_neg (by omega)).symm
  · have hone : 1 ≤ UInt8.ofNat count := UInt8.le_iff_toNat_le.mpr (by rw [hcountNat]; exact hpos)
    obtain ⟨hfits, hholds⟩ := @Ata.ataReadSectors_true disks _ _ _ r found 0 _ _ hfound hone hr hret
    rw [hlba, hcountNat] at hfits hholds
    rw [hholds.fill, bufBytes_wordsOf]
    funext i
    unfold Fat32.Disk.fill visible
    refine if_ctx_congr Iff.rfl (fun hi => ?_) fun _ => rfl
    rw [show (lba + i / 512) % 2 ^ 28 = lba % 2 ^ 28 + i / 512 by omega]

theorem stack_reliable (hcap : (diskOf disks 0).capacity ≤ 2 ^ 28) :
    Reliable (stackEnv kmalloc kfree found disks) (visible (diskOf disks 0)) := by
  intro lba count buffer s hok
  dsimp only [stackEnv] at hok ⊢
  split at hok
  · cases hok
  · rename_i hcount
    rw [if_neg hcount]
    exact sectorRead_true hcap (by omega) hok

/-- The flag says whether a call has failed. -/
theorem stack_notes :
    Notes (stackEnv kmalloc kfree found disks) fun s => s.failed = true where
  failed := by
    intro lba count buffer s hfail
    dsimp only [stackEnv] at hfail ⊢
    split at hfail
    · rename_i hcount
      rw [if_pos hcount]
    · rename_i hcount
      rw [if_neg hcount]
      dsimp only at hfail ⊢
      rw [hfail, Bool.not_false, Bool.or_true]
  read := by
    intro lba count buffer s hbad
    dsimp only [stackEnv]
    split
    · rfl
    · dsimp only
      rw [hbad, Bool.true_or]
  kmalloc := fun hbad => hbad
  kfree := fun hbad => hbad

/-! ## 3. Mounting, and any calls -/

/-- A volume that is mounted is the one on the disk. -/
theorem fat32Init_reliable {τ : Type} {env : FatEnv τ} {d : Fat32.Disk} (hd : Reliable env d)
    {s s' : τ} {vol : Volume} (h : fat32Init env s = (.ok vol, s')) :
    Fat32.Mounts d vol.bpb ∧ vol.root.inode = vol.bpb.rootCluster.toNat := by
  have haccepted := Fat32.fat32Init_accepted h
  unfold fat32Init at h
  dsimp only at h
  split at h
  · cases h
  · rename_i hread
    have hbytes := hd 0 1 (env.kmalloc 512 s).1 (env.kmalloc 512 s).2
        (Bool.eq_true_of_not_eq_false hread)
    have hparse : Fat32.Bpb.parse (env.ataReadSectors 0 0 1 (env.kmalloc 512 s).1
        (env.kmalloc 512 s).2).2.1 = Fat32.Bpb.parse (d 0) := by
      rw [hbytes]
      refine Fat32.Bpb.parse_congr fun x hx => ?_
      rw [Fat32.Disk.fill, if_pos (by omega), Nat.div_eq_of_lt hx, Nat.mod_eq_of_lt hx]
    split at h
    · cases h
    · split at h
      · cases h
      · obtain ⟨hvol, -⟩ := Prod.mk.inj h
        obtain rfl := Except.ok.inj hvol
        exact ⟨⟨hparse.symm, haccepted⟩, rfl⟩

/-- Drives with a disk image on them. -/
def imageDisks (d : Fat32.Disk) : Disks := fun _ _ => ⟨2 ^ 28, fun lba => wordsOf (d lba)⟩

/-- A device that always has the next sector. -/
def ready : Polls :=
  ⟨0 :: List.replicate (100000 * 255) Ata.ataSrDrq, [], 0, _, rfl, by decide,
    by rw [List.length_replicate]⟩

/-- A machine with that device, on which every allocation succeeds. -/
def imageEnv (d : Fat32.Disk) : FatEnv (Stack Unit) :=
  stackEnv (fun _ _ => (⟨0xC0001010, fun _ => 0⟩, ())) (fun _ _ => ()) (fun _ => true)
      (imageDisks d)

def readyStack : Stack Unit := ⟨(), fun _ => ⟨0, 0, 0, 0, 0, none⟩, fun _ => ready, false⟩

theorem visible_image (d : Fat32.Disk) (drive : Fin 4) {lba : Nat} (h : lba < 2 ^ 28) :
    visible (diskOf (imageDisks d) drive) lba = d lba := by
  rw [visible_eq _ h]
  exact bufBytes_wordsOf (d lba)

/-- The file `A` of `readOnlyDisk` is looked up, and its directory read. -/
def letterCalls : List Call :=
  [.finddir 2 (Fat32.letterName 0x41) fun _ => 0, .read 2 0 4 fun _ => 0]

end FlowOS.Disk
