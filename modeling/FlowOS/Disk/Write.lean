/-
# Writing to a disk (`ata.c`)

`ata_write_sectors` on drives that can be written (`AtaDisk`).  It programs the registers as
`ata_read_sectors` does, and shortens the address to 28 bits as that one does.  Other than that one
it waits for the drive without a limit, and does not look at the error bits: it never fails, and
where the drive has no sector it never returns (`ata_write_iff`).

Since both shorten the address in the same way, what has been written at an address is what is read
there, whatever the address is (`ata_write_read`).
-/
import FlowOS.Lib.AtaDisk
import FlowOS.Ata

namespace FlowOS.Disk

open AtaDisk
open AtaBus (Drive Transfer Channel base)
open FlowOS.Ata (AtaDrive ataInit entryOf channelOf slaveOf ataSrBsy ataSrDrq after)

/-! ## 1. The driver -/

/-- `ATA_CMD_WRITE_PIO`. -/
def ataCmdWritePio : UInt8 := 0x30

/-- `ATA_CMD_FLUSH`. -/
def ataCmdFlush : UInt8 := 0xE7

/-- `ata_wait_bsy`: the answers that are left. -/
def ataWaitBsy (sys : System) (ioBase : UInt16) : List UInt8 → Option (List UInt8)
  | [] => none
  | b :: polls =>
    if inb sys (ioBase + 7) b &&& ataSrBsy ≠ 0 then ataWaitBsy sys ioBase polls else some polls

/-- `ata_wait_drq`. -/
def ataWaitDrq (sys : System) (ioBase : UInt16) : List UInt8 → Option (List UInt8)
  | [] => none
  | b :: polls =>
    if inb sys (ioBase + 7) b &&& ataSrDrq = 0 then ataWaitDrq sys ioBase polls else some polls

/-- The registers and a command. -/
def program (d : AtaDrive) (lba : UInt32) (count cmd : UInt8) (sys : System) : System :=
  let sys := outb sys (d.ioBase + 6)
    ((0xE0 : UInt8) ||| d.driveSelect ||| ((lba >>> 24) &&& 0x0F).toUInt8)
  let sys := outb sys (d.ioBase + 2) count
  let sys := outb sys (d.ioBase + 3) (lba &&& 0xFF).toUInt8
  let sys := outb sys (d.ioBase + 4) ((lba >>> 8) &&& 0xFF).toUInt8
  let sys := outb sys (d.ioBase + 5) ((lba >>> 16) &&& 0xFF).toUInt8
  outb sys (d.ioBase + 7) cmd

/-- `outw(d->io_base + ATA_REG_DATA, buf[s * 256 + i]);` for the first `n` values of `i`. -/
def writeWords (ioBase : UInt16) (buf : Nat → UInt16) (s : Nat) : Nat → System → System
  | 0, sys => sys
  | n + 1, sys => outw (writeWords ioBase buf s n sys) (ioBase + 0) (buf (s * 256 + n))

/-- The loop of `ata_write_sectors` from sector `s` on, with so many to go. -/
def ataWriteLoop (ioBase : UInt16) (buf : Nat → UInt16) :
    Nat → Nat → List UInt8 → System → Option (List UInt8 × System)
  | 0, _, polls, sys => some (polls, sys)
  | left + 1, s, polls, sys =>
    match ataWaitDrq sys ioBase polls with
    | none => none
    | some polls => ataWriteLoop ioBase buf left (s + 1) polls (writeWords ioBase buf s 256 sys)

/-- What a call returns, with the system as it leaves it. -/
structure WriteRun where
  ret : Bool
  sys : System

/-- `ata_write_sectors`. -/
def ataWriteSectors (drives : List AtaDrive) (drive : UInt8) (lba : UInt32) (count : UInt8)
    (polls : List UInt8) (sys : System) (buf : Nat → UInt16) : Option WriteRun :=
  match drives[drive.toNat]? with
  | none => some ⟨false, sys⟩
  | some d =>
    if d.present = false then some ⟨false, sys⟩
    else
      match ataWaitBsy sys d.ioBase polls with
      | none => none
      | some polls =>
        match ataWriteLoop d.ioBase buf count.toNat 0 polls
            (program d lba count ataCmdWritePio sys) with
        | none => none
        | some (polls, sys) =>
          let sys := outb sys (d.ioBase + 7) ataCmdFlush
          match ataWaitBsy sys d.ioBase polls with
          | none => none
          | some _ => some ⟨true, sys⟩

/-! ## 2. A sector -/

variable {sys : System} {channel : Bool} {slave : Bool} {sector left s n : Nat}
  {buf : Nat → UInt16} {polls rest : List UInt8}

/-- The drive when the first `n` words of a sector have been replaced. -/
def partly (d : Disk) (sector n : Nat) (words : Nat → UInt16) : Disk :=
  { d with word := fun k i => if k = sector ∧ i < n then words i else d.word k i }

theorem partly_set (d : Disk) (sector n : Nat) (words : Nat → UInt16) :
    (partly d sector n words).set sector n (words n) = partly d sector (n + 1) words := by
  have hword : ∀ k i, (if k = sector ∧ i = n then words n
      else if k = sector ∧ i < n then words i else d.word k i) =
        if k = sector ∧ i < n + 1 then words i else d.word k i := by
    intro k i
    by_cases hk : k = sector
    · rcases Nat.lt_trichotomy i n with hi | rfl | hi
      · rw [if_neg (by omega), if_pos ⟨hk, hi⟩, if_pos ⟨hk, by omega⟩]
      · rw [if_pos ⟨hk, rfl⟩, if_pos ⟨hk, by omega⟩]
      · rw [if_neg (by omega), if_neg (by omega), if_neg (by omega)]
    · simp [hk]
  unfold partly Disk.set
  simp only [hword]

/-- The channel is taking a write and nothing else. -/
structure Storing (d : Device) (t : Transfer) : Prop where
  storing : d.storing = some t
  telling : d.telling = none
  transfer : d.chan.transfer = none

theorem Storing.wants {d : Device} {t : Transfer} (h : Storing d t) :
    d.wants = true ↔ 0 < t.left ∧ t.sector < (d.disk t.slave).capacity := by
  have hserves : d.chan.serves d.drives = false := by
    rw [Channel.serves, h.transfer]
  rw [Device.wants, hserves, h.telling, Device.takes, h.storing]
  simp

theorem Storing.takes {d : Device} {t : Transfer} (h : Storing d t) (hleft : 0 < t.left)
    (hcap : t.sector < (d.disk t.slave).capacity) : d.takes = true := by
  rw [Device.takes, h.storing]
  simp [hleft, hcap]

theorem Storing.put {d : Device} {t : Transfer} (h : Storing d t) (hleft : 0 < t.left)
    (hcap : t.sector < (d.disk t.slave).capacity) (w : UInt16) :
    d.put w = { d with
      storing := some t.next
      disk := Function.update d.disk t.slave ((d.disk t.slave).set t.sector t.pos w) } := by
  unfold Device.put
  rw [h.storing]
  dsimp only
  rw [if_pos (h.takes hleft hcap)]

/-- A device when `n` words of a sector have been written. -/
def stage (d : Device) (slave : Bool) (sector left n : Nat) (words : Nat → UInt16) : Device :=
  { d with
    storing := some (after slave sector left n)
    disk := Function.update d.disk slave (partly (d.disk slave) sector n words) }

/-- **The loop over the words of a sector**, after `n` of them. -/
theorem writeWords_eq (h : Storing (sys channel) ⟨slave, sector, left, 0⟩) (hleft : 0 < left)
    (hcap : sector < ((sys channel).disk slave).capacity) (hn : n ≤ 256) :
    writeWords (base channel) buf s n sys = Function.update sys channel
      (stage (sys channel) slave sector left n fun i => buf (s * 256 + i)) := by
  induction n with
  | zero =>
    have hpart : partly ((sys channel).disk slave) sector 0 (fun i => buf (s * 256 + i)) =
        (sys channel).disk slave := by
      simp [partly]
    have hstoring : some (after slave sector left 0) = (sys channel).storing := h.storing.symm
    rw [writeWords, stage, hpart, Function.update_eq_self, hstoring]
    exact (Function.update_eq_self channel sys).symm
  | succ n ih =>
    have hlt : n < 256 := hn
    have hafter : after slave sector left n = ⟨slave, sector, left, n⟩ := if_pos hlt
    have hnext : (⟨slave, sector, left, n⟩ : Transfer).next = after slave sector left (n + 1) := by
      rw [← hafter]
      exact Ata.after_next hlt
    have hstage : Storing (stage (sys channel) slave sector left n fun i => buf (s * 256 + i))
        ⟨slave, sector, left, n⟩ := ⟨congrArg some hafter, h.telling, h.transfer⟩
    have hdisk : (stage (sys channel) slave sector left n fun i => buf (s * 256 + i)).disk slave =
        partly ((sys channel).disk slave) sector n fun i => buf (s * 256 + i) :=
      Function.update_self _ _ _
    rw [writeWords, ih (by omega), outw_data, Function.update_idem, Function.update_self,
      hstage.put hleft (by rw [hdisk]; exact hcap)]
    dsimp only
    rw [hdisk, hnext, partly_set]
    unfold stage
    rw [Function.update_idem]

/-! ## 3. The sectors -/

/-- The drive with `count` sectors replaced from `lba` on, by those of a buffer from `s` on. -/
def stored (d : Disk) (lba s count : Nat) (buf : Nat → UInt16) : Disk :=
  { d with
    word := fun k i =>
      if lba ≤ k ∧ k < lba + count ∧ i < 256 then buf ((s + (k - lba)) * 256 + i) else d.word k i }

theorem stored_zero (d : Disk) (lba s : Nat) (buf : Nat → UInt16) : stored d lba s 0 buf = d := by
  have hno : ∀ k i, ¬ (lba ≤ k ∧ k < lba + 0 ∧ i < 256) := by omega
  unfold stored
  simp only [hno, if_false]

theorem stored_partly (d : Disk) (lba s count : Nat) (buf : Nat → UInt16) :
    stored (partly d lba 256 fun i => buf (s * 256 + i)) (lba + 1) (s + 1) count buf =
      stored d lba s (count + 1) buf := by
  have hword : ∀ k i, (if lba + 1 ≤ k ∧ k < lba + 1 + count ∧ i < 256 then
      buf ((s + 1 + (k - (lba + 1))) * 256 + i)
      else if k = lba ∧ i < 256 then buf (s * 256 + i) else d.word k i) =
        if lba ≤ k ∧ k < lba + (count + 1) ∧ i < 256 then buf ((s + (k - lba)) * 256 + i)
          else d.word k i := by
    intro k i
    by_cases hlater : lba + 1 ≤ k ∧ k < lba + 1 + count ∧ i < 256
    · rw [if_pos hlater, if_pos (by omega), show s + 1 + (k - (lba + 1)) = s + (k - lba) by omega]
    · rw [if_neg hlater]
      by_cases hfirst : k = lba ∧ i < 256
      · rw [if_pos hfirst, if_pos (by omega), hfirst.1, Nat.sub_self, Nat.add_zero]
      · rw [if_neg hfirst, if_neg (by omega)]
  unfold stored partly
  simp only [hword]

/-- A device when sectors have been written. -/
def written (d : Device) (slave : Bool) (sector s count left : Nat) (buf : Nat → UInt16) : Device :=
  { d with
    storing := some ⟨slave, sector + count, left, 0⟩
    disk := Function.update d.disk slave (stored (d.disk slave) sector s count buf) }

theorem stage_capacity (d : Device) (slave : Bool) (sector left n : Nat) (words : Nat → UInt16) :
    ((stage d slave sector left n words).disk slave).capacity = (d.disk slave).capacity := by
  unfold stage
  dsimp only
  rw [Function.update_self]
  rfl

/-- Behind a sector the transfer goes on with the next one. -/
theorem Storing.stage {d : Device} {t : Transfer} (h : Storing d t) (slave : Bool)
    (sector left : Nat) (words : Nat → UInt16) :
    Storing (stage d slave sector left 256 words) ⟨slave, sector + 1, left - 1, 0⟩ :=
  ⟨congrArg some (if_neg (Nat.lt_irrefl 256)), h.telling, h.transfer⟩

/-- A sector, and then the others. -/
theorem written_stage (d : Device) (slave : Bool) (sector s count left left' : Nat)
    (buf : Nat → UInt16) :
    written (stage d slave sector left' 256 fun i => buf (s * 256 + i)) slave (sector + 1) (s + 1)
      count left buf = written d slave sector s (count + 1) left buf := by
  unfold written stage
  dsimp only
  rw [Function.update_self, Function.update_idem, stored_partly, Nat.add_assoc, Nat.add_comm 1]

/-- **`ata_wait_drq` returns only when there is room for a sector.** -/
theorem ataWaitDrq_wants (h : ataWaitDrq sys (base channel) polls = some rest) :
    (sys channel).wants = true := by
  induction polls with
  | nil => cases h
  | cons b polls ih =>
    rw [ataWaitDrq] at h
    split at h
    · exact ih h
    · rename_i hdrq
      exact wants_of_drq hdrq

/-- **Loop lemma.**  A loop that returns has written its sectors, and the drive has them. -/
theorem ataWriteLoop_some {left' : Nat} {sys' : System}
    (ht : Storing (sys channel) ⟨slave, sector, left', 0⟩) (hleft : left ≤ left')
    (h : ataWriteLoop (base channel) buf left s polls sys = some (rest, sys')) :
    (0 < left → sector + left ≤ ((sys channel).disk slave).capacity) ∧
      sys' = Function.update sys channel
        (written (sys channel) slave sector s left (left' - left) buf) := by
  induction left generalizing s sector polls sys left' with
  | zero =>
    obtain ⟨-, rfl⟩ := Prod.mk.inj (Option.some.inj h)
    refine ⟨fun h0 => absurd h0 (Nat.lt_irrefl 0), ?_⟩
    rw [written, stored_zero, Function.update_eq_self, Nat.sub_zero, Nat.add_zero, ← ht.storing]
    exact (Function.update_eq_self channel sys).symm
  | succ left ih =>
    rw [ataWriteLoop] at h
    split at h
    · cases h
    · rename_i polls' hdrq
      obtain ⟨hpos, hcap⟩ := ht.wants.mp (ataWaitDrq_wants hdrq)
      rw [writeWords_eq ht hpos hcap le_rfl] at h
      have hnext := ht.stage slave sector left' fun i => buf (s * 256 + i)
      generalize hd : stage (sys channel) slave sector left' 256 (fun i => buf (s * 256 + i)) = d
        at hnext h
      have hnext' : Storing (Function.update sys channel d channel)
          ⟨slave, sector + 1, left' - 1, 0⟩ := by
        rw [Function.update_self]
        exact hnext
      obtain ⟨hmore, hsys⟩ := ih hnext' (by omega) h
      rw [Function.update_self] at hmore hsys
      refine ⟨fun _ => ?_, ?_⟩
      · rcases Nat.eq_zero_or_pos left with rfl | hleft0
        · exact hcap
        · have hlast := hmore hleft0
          rw [← hd, stage_capacity] at hlast
          omega
      · rw [hsys, Function.update_idem, ← hd, written_stage, Nat.sub_sub, Nat.add_comm 1]

/-- A device that says at every poll that it has room for the next sector, as it has. -/
theorem ataWriteLoop_takes {left' : Nat} (ht : Storing (sys channel) ⟨slave, sector, left', 0⟩)
    (hleft : left ≤ left') (hcap : sector + left ≤ ((sys channel).disk slave).capacity) :
    ∃ sys', ataWriteLoop (base channel) buf left s (List.replicate left ataSrDrq ++ rest) sys =
      some (rest, sys') := by
  induction left generalizing s sector sys left' with
  | zero => exact ⟨sys, rfl⟩
  | succ left ih =>
    have hpos : 0 < (⟨slave, sector, left', 0⟩ : Transfer).left := show 0 < left' by omega
    have hlt : sector < ((sys channel).disk slave).capacity := by omega
    have hwants : (sys channel).wants = true := ht.wants.mpr ⟨hpos, hlt⟩
    have hdrq : ataWaitDrq sys (base channel) (ataSrDrq :: (List.replicate left ataSrDrq ++ rest)) =
        some (List.replicate left ataSrDrq ++ rest) := by
      rw [ataWaitDrq, inb_status, Device.status, if_pos hwants]
      rfl
    rw [List.replicate_succ, List.cons_append, ataWriteLoop, hdrq]
    dsimp only
    rw [writeWords_eq ht hpos hlt le_rfl]
    have hnext := ht.stage slave sector left' fun i => buf (s * 256 + i)
    refine ih (by rw [Function.update_self]; exact hnext) (by omega) ?_
    rw [Function.update_self, stage_capacity]
    omega

/-! ## 4. `ata_write_sectors` -/

variable {found : Fin 4 → Bool} {drive : Fin 4}

/-- The registers of a channel, as they are set for a command. -/
def registers (c : Channel) (slave : Bool) (lba : UInt32) (count : UInt8) : Channel :=
  { c with
    select := (0xE0 : UInt8) ||| (if slave then (0x10 : UInt8) else 0x00) |||
      ((lba >>> 24) &&& 0x0F).toUInt8
    seccount := count
    lbaLo := (lba &&& 0xFF).toUInt8
    lbaMid := ((lba >>> 8) &&& 0xFF).toUInt8
    lbaHi := ((lba >>> 16) &&& 0xFF).toUInt8 }

theorem program_eq (found : Fin 4 → Bool) (drive : Fin 4) (lba : UInt32) (count cmd : UInt8)
    (sys : System) :
    program (entryOf found drive) lba count cmd sys =
      Function.update sys (channelOf drive) (({ sys (channelOf drive) with
        chan := registers (sys (channelOf drive)).chan (slaveOf drive) lba count } :
          Device).command cmd) := by
  simp only [program, entryOf]
  rw [outb_register (by decide), outb_register (by decide), outb_register (by decide),
    outb_register (by decide), outb_register (by decide), outb_register (by decide)]
  simp only [Function.update_self, Function.update_idem]
  rfl

/-- **What the device makes of the registers**: a transfer from `lba % 2 ^ 28` on. -/
theorem registers_request (c : Channel) (slave : Bool) (lba : UInt32) (count : UInt8) :
    (registers c slave lba count).slave = slave ∧
      (registers c slave lba count).lba = lba.toNat % 2 ^ 28 ∧
      (registers c slave lba count).lbaMode = true := by
  have hlt : (lba >>> 24 &&& 15).toNat < 16 := by
    rw [UInt32.toNat_and]
    exact Nat.lt_succ_of_le Nat.and_le_right
  obtain ⟨hhigh, hslave, hmode⟩ := Ata.select_bits slave ⟨(lba >>> 24 &&& 15).toNat, hlt⟩
  have hbyte : UInt8.ofNat (lba >>> 24 &&& 15).toNat = (lba >>> 24 &&& 15).toUInt8 := rfl
  dsimp only at hhigh hslave hmode
  rw [hbyte] at hhigh hslave hmode
  refine ⟨hslave, ?_, hmode⟩
  rw [← Ata.lba_bytes lba, ← hhigh]
  rfl

/-- The device when a write has been asked for. -/
theorem command_write (d : Device) (slave : Bool) (lba : UInt32) (count : UInt8) :
    let d' := ({ d with chan := registers d.chan slave lba count } : Device).command ataCmdWritePio
    Storing d' ⟨slave, lba.toNat % 2 ^ 28, if count = 0 then 256 else count.toNat, 0⟩ ∧
      d'.disk = d.disk := by
  intro d'
  obtain ⟨hslave, hlba, hmode⟩ := registers_request d.chan slave lba count
  refine ⟨⟨?_, rfl, rfl⟩, rfl⟩
  show (if ataCmdWritePio = 0x30 ∧ _ then some (Device.request _) else none) = _
  rw [if_pos ⟨rfl, hmode⟩, Device.request]
  dsimp only
  rw [hslave, hlba]
  rfl

/-- For a drive that is present. -/
theorem ataWriteSectors_eq (hfound : found drive = true) (lba : UInt32) (count : UInt8)
    (polls : List UInt8) (sys : System) (buf : Nat → UInt16) :
    ataWriteSectors (ataInit found) (UInt8.ofNat drive) lba count polls sys buf =
      match ataWaitBsy sys (base (channelOf drive)) polls with
      | none => none
      | some polls =>
        match ataWriteLoop (base (channelOf drive)) buf count.toNat 0 polls
            (program (entryOf found drive) lba count ataCmdWritePio sys) with
        | none => none
        | some (polls, sys) =>
          match ataWaitBsy (outb sys (base (channelOf drive) + 7) ataCmdFlush)
              (base (channelOf drive)) polls with
          | none => none
          | some _ => some ⟨true, outb sys (base (channelOf drive) + 7) ataCmdFlush⟩ := by
  have hdrive : (UInt8.ofNat drive).toNat = drive.val := by
    rw [UInt8.toNat_ofNat']
    exact Nat.mod_eq_of_lt (by omega)
  have hpresent : ¬(entryOf found drive).present = false := by
    show ¬found drive = false
    rw [hfound]
    decide
  rw [ataWriteSectors, hdrive, Ata.ataInit_get]
  dsimp only
  rw [if_neg hpresent]
  rfl

/-- Nothing but the last command happens after the sectors. -/
theorem flush_disk (sys : System) (channel : Bool) (d : Device) (c slave : Bool) :
    (outb (Function.update sys channel d) (base channel + 7) ataCmdFlush c).disk slave =
      (if c = channel then d else sys c).disk slave := by
  rw [outb_register (by decide), Function.update_idem, Function.update_self]
  by_cases hc : c = channel
  · rw [hc, Function.update_self, if_pos rfl]
    rfl
  · rw [Function.update_of_ne hc, if_neg hc]

/-- The drives after a call: one of them has the sectors of the buffer, and nothing else has
changed on any of them. -/
def Writes (sys sys' : System) (drive : Fin 4) (lba count : Nat) (buf : Nat → UInt16) : Prop :=
  ∀ c slave, (sys' c).disk slave =
    if c = channelOf drive ∧ slave = slaveOf drive then stored ((sys c).disk slave) lba 0 count buf
    else (sys c).disk slave

/-- **A call that returns.** -/
theorem ataWriteSectors_some (hfound : found drive = true) {lba : UInt32} {count : UInt8}
    {r : WriteRun}
    (h : ataWriteSectors (ataInit found) (UInt8.ofNat drive) lba count polls sys buf = some r) :
    r.ret = true ∧
      (0 < count.toNat → lba.toNat % 2 ^ 28 + count.toNat ≤
        ((sys (channelOf drive)).disk (slaveOf drive)).capacity) ∧
      Writes sys r.sys drive (lba.toNat % 2 ^ 28) count.toNat buf := by
  rw [ataWriteSectors_eq hfound, program_eq] at h
  obtain ⟨hstoring, hdisk⟩ := command_write (sys (channelOf drive)) (slaveOf drive) lba count
  generalize hd : ({ sys (channelOf drive) with
    chan := registers (sys (channelOf drive)).chan (slaveOf drive) lba count } :
      Device).command ataCmdWritePio = d at h hstoring hdisk
  split at h
  · cases h
  · split at h
    · cases h
    · rename_i polls' sys' hloop
      split at h
      · cases h
      · obtain rfl := Option.some.inj h
        have hstoring' : Storing (Function.update sys (channelOf drive) d (channelOf drive))
            ⟨slaveOf drive, lba.toNat % 2 ^ 28, if count = 0 then 256 else count.toNat, 0⟩ := by
          rw [Function.update_self]
          exact hstoring
        have hleft : count.toNat ≤ if count = 0 then 256 else count.toNat := by
          split
          · exact Nat.le_of_lt_succ (Nat.lt_succ_of_lt count.toNat_lt)
          · exact le_rfl
        obtain ⟨hcap, hsys⟩ := ataWriteLoop_some hstoring' hleft hloop
        rw [Function.update_self, hdisk] at hcap
        rw [Function.update_self, Function.update_idem] at hsys
        refine ⟨rfl, hcap, fun c slave => ?_⟩
        dsimp only
        rw [hsys, flush_disk]
        by_cases hc : c = channelOf drive
        · rw [if_pos hc, hc, written, hdisk]
          dsimp only
          by_cases hslave : slave = slaveOf drive
          · rw [hslave, Function.update_self, if_pos ⟨rfl, rfl⟩]
          · rw [Function.update_of_ne hslave, if_neg fun h => hslave h.2]
        · rw [if_neg hc, if_neg fun h => hc h.1]

/-- **A call that does not wait for ever.** -/
theorem ataWriteSectors_returns (hfound : found drive = true) (lba : UInt32) {count : UInt8}
    (hcap : count = 0 ∨ lba.toNat % 2 ^ 28 + count.toNat ≤
      ((sys (channelOf drive)).disk (slaveOf drive)).capacity) :
    ∃ r, ataWriteSectors (ataInit found) (UInt8.ofNat drive) lba count
      (0 :: (List.replicate count.toNat ataSrDrq ++ [0])) sys buf = some r := by
  have hidle : ∀ (sys : System) (rest : List UInt8),
      ataWaitBsy sys (base (channelOf drive)) (0 :: rest) = some rest := by
    intro sys rest
    rw [ataWaitBsy, ataSrBsy, inb_busy]
    rfl
  rw [ataWriteSectors_eq hfound, program_eq, hidle]
  obtain ⟨hstoring, hdisk⟩ := command_write (sys (channelOf drive)) (slaveOf drive) lba count
  generalize hd : ({ sys (channelOf drive) with
    chan := registers (sys (channelOf drive)).chan (slaveOf drive) lba count } :
      Device).command ataCmdWritePio = d at hstoring hdisk
  have hloop : ∃ sys', ataWriteLoop (base (channelOf drive)) buf count.toNat 0
      (List.replicate count.toNat ataSrDrq ++ [0]) (Function.update sys (channelOf drive) d) =
        some ([0], sys') := by
    rcases hcap with rfl | hcap
    · exact ⟨_, rfl⟩
    · have hstoring' : Storing (Function.update sys (channelOf drive) d (channelOf drive))
          ⟨slaveOf drive, lba.toNat % 2 ^ 28, if count = 0 then 256 else count.toNat, 0⟩ := by
        rw [Function.update_self]
        exact hstoring
      refine ataWriteLoop_takes hstoring' ?_ ?_
      · split
        · exact Nat.le_of_lt_succ (Nat.lt_succ_of_lt count.toNat_lt)
        · exact le_rfl
      · rw [Function.update_self, hdisk]
        exact hcap
  obtain ⟨sys', hloop⟩ := hloop
  dsimp only
  rw [hloop]
  dsimp only
  rw [hidle]
  exact ⟨_, rfl⟩

/-- **`ata_write_sectors` never fails**: for every drive that is present, every address, number of
sectors and buffer, a call that returns has put the sectors of the buffer on the drive, from the
address modulo `2 ^ 28` on, and has changed nothing else on any drive; and there are answers of the
device for which it returns exactly when the drive has the sectors.  Where it has not, the call
waits for ever. -/
theorem ata_write_iff (sys : System) {found : Fin 4 → Bool} {drive : Fin 4}
    (hfound : found drive = true) (lba : UInt32) (count : UInt8) (buf : Nat → UInt16) :
    (∀ polls r,
      ataWriteSectors (ataInit found) (UInt8.ofNat drive) lba count polls sys buf = some r →
        r.ret = true ∧ Writes sys r.sys drive (lba.toNat % 2 ^ 28) count.toNat buf) ∧
    ((∃ polls r,
      ataWriteSectors (ataInit found) (UInt8.ofNat drive) lba count polls sys buf = some r) ↔
        count = 0 ∨ lba.toNat % 2 ^ 28 + count.toNat ≤
          ((sys (channelOf drive)).disk (slaveOf drive)).capacity) := by
  refine ⟨fun polls r h => ?_, ?_, fun hcap => ?_⟩
  · obtain ⟨hret, -, hwrites⟩ := ataWriteSectors_some hfound h
    exact ⟨hret, hwrites⟩
  · rintro ⟨polls, r, h⟩
    obtain ⟨-, hcap, -⟩ := ataWriteSectors_some hfound h
    by_cases hcount : count = 0
    · exact Or.inl hcount
    · have hpos : 0 < count.toNat := by
        refine Nat.pos_of_ne_zero fun h0 => hcount ?_
        exact UInt8.toNat_inj.mp h0
      exact Or.inr (hcap hpos)
  · exact ⟨_, ataWriteSectors_returns hfound lba hcap⟩

/-- A drive of 1 MiB, as the others are. -/
def blankSystem : System := fun _ =>
  ⟨⟨0, 0, 0, 0, 0, none⟩, none, none, fun _ => ⟨⟨2048, fun _ _ => 0⟩, true, (0, 0), fun _ => 0⟩⟩

/-- There is no sector 2048. -/
theorem ata_write_iff_end :
    ¬∃ polls r, ataWriteSectors (ataInit fun _ => true) (UInt8.ofNat (0 : Fin 4)) 2047 2 polls
      blankSystem (fun _ => 1) = some r := by
  refine fun h => absurd ((ata_write_iff blankSystem rfl 2047 2 fun _ => 1).2.mp h) ?_
  decide

/-- Different drives are at different places. -/
theorem drive_eq_iff : ∀ drive drive' : Fin 4,
    (channelOf drive' = channelOf drive ∧ slaveOf drive' = slaveOf drive) ↔ drive' = drive := by
  decide

/-- **What has been written is what is read**: after a write that returns, a read that succeeds, of
any drive and any sectors, finds the sectors of the buffer where the two overlap, and everywhere
else what was there before. -/
theorem ata_write_read (sys : System) {found : Fin 4 → Bool} {drive drive' : Fin 4}
    (hfound : found drive = true) (hfound' : found drive' = true) {lba lba' : UInt32}
    {count count' : UInt8} (hcount : 1 ≤ count') {polls polls' : List UInt8}
    {buf into : Nat → UInt16} {r : WriteRun} {r' : Ata.ReadRun}
    (hwrite : ataWriteSectors (ataInit found) (UInt8.ofNat drive) lba count polls sys buf = some r)
    (hread : Ata.ataReadSectors (ataInit found) r.sys.disks (UInt8.ofNat drive') lba' count' polls'
      r.sys.bus into = some r') (hret : r'.ret = true) :
    ∀ j < count'.toNat, ∀ i < 256,
      let start := lba.toNat % 2 ^ 28
      let k := lba'.toNat % 2 ^ 28 + j
      r'.buf (j * 256 + i) =
        if drive' = drive ∧ start ≤ k ∧ k < start + count.toNat then buf ((k - start) * 256 + i)
        else ((sys (channelOf drive')).disk (slaveOf drive')).word k i := by
  intro j hj i hi start k
  obtain ⟨-, -, hwrites⟩ := ataWriteSectors_some hfound hwrite
  obtain ⟨-, hholds⟩ := Ata.ataReadSectors_true hfound' hcount hread hret
  have hword := hholds.sectors j hj i hi
  rw [Nat.zero_add] at hword
  have hdisk : (Ata.diskOf r.sys.disks drive').word k i =
      ((r.sys (channelOf drive')).disk (slaveOf drive')).word k i := rfl
  rw [hword, hdisk, hwrites]
  by_cases hdrive : drive' = drive
  · rw [if_pos ((drive_eq_iff drive drive').mpr hdrive)]
    by_cases hin : start ≤ k ∧ k < start + count.toNat
    · have hstored : start ≤ k ∧ k < start + count.toNat ∧ i < 256 := ⟨hin.1, hin.2, hi⟩
      rw [if_pos ⟨hdrive, hin⟩]
      show (if _ then buf ((0 + (k - start)) * 256 + i) else _) = _
      rw [if_pos hstored, Nat.zero_add]
    · rw [if_neg fun h => hin h.2]
      exact if_neg fun h => hin ⟨h.1, h.2.1⟩
  · rw [if_neg (drive_eq_iff drive drive' |>.not.mpr hdrive), if_neg fun h => hdrive h.1]

/-- The sectors 5 and 6 are written, and 6 and 7 are read back. -/
theorem ata_write_read_back :
    ∃ polls r polls' r',
      ataWriteSectors (ataInit fun _ => true) (UInt8.ofNat (0 : Fin 4)) 5 2 polls blankSystem
        (fun k => UInt16.ofNat k) = some r ∧
      Ata.ataReadSectors (ataInit fun _ => true) r.sys.disks (UInt8.ofNat (0 : Fin 4)) 6 2 polls'
        r.sys.bus (fun _ => 9) = some r' ∧
      r'.buf (0 * 256 + 3) = 259 ∧ r'.buf (1 * 256 + 3) = 0 := by
  obtain ⟨r, hwrite⟩ := @ataWriteSectors_returns blankSystem (fun k => UInt16.ofNat k)
    (fun _ => true) 0 rfl 5 2 (Or.inr (by decide))
  obtain ⟨-, -, hwrites⟩ := ataWriteSectors_some rfl hwrite
  have hcap : (Ata.diskOf r.sys.disks 0).capacity = 2048 := by
    show ((r.sys (channelOf 0)).disk (slaveOf 0)).capacity = 2048
    rw [hwrites, if_pos ⟨rfl, rfl⟩]
    rfl
  obtain ⟨r', hread, hret⟩ := @Ata.ataReadSectors_serves r.sys.disks (fun _ => true) 0 6 2 rfl
    (by decide) (by rw [hcap]; decide) r.sys.bus fun _ => 9
  have hback := ata_write_read blankSystem rfl rfl (by decide) hwrite hread hret
  exact ⟨_, r, _, r', hwrite, hread, hback 0 (by decide) 3 (by decide),
    hback 1 (by decide) 3 (by decide)⟩

end FlowOS.Disk
