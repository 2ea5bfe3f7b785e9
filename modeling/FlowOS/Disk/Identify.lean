/-
# Finding the disks (`ata.c`)

`ata_init` asks each of the four drives of the two channels to describe itself.  A drive that does
not answer, that has the signature of another kind of device, or that reports an error is left out;
for the others the description is taken apart: the number of sectors from two words, the names from
words whose two bytes are in the wrong order, with the blanks at the end of the model cut off.

`ata_init_finds` says that what is entered is what the drives say, for all answers of the devices,
and that there are answers for which every disk is entered.  The table that reading starts from
(`Ata.ataInit`) is this one, as far as reading looks at it (`ata_init_reads`).
-/
import FlowOS.Disk.Write
import Mathlib.Data.Fintype.Card

namespace FlowOS.Disk

open AtaDisk
open AtaBus (Drive Transfer Channel base)
open FlowOS.Ata (AtaDrive channelOf slaveOf ataSrBsy ataSrDrq ataSrErr)

/-! ## 1. The driver -/

/-- `ATA_CMD_IDENTIFY`. -/
def ataCmdIdentify : UInt8 := 0xEC

/-- `struct ata_drive`. -/
structure DriveInfo where
  present : Bool
  isAtapi : Bool
  ioBase : UInt16
  ctrlBase : UInt16
  driveSelect : UInt8
  sectors : UInt32
  model : Nat → UInt8
  serial : Nat → UInt8

/-- The first part of `ata_identify`: select the drive, clear the registers, send the command. -/
def askIdentify (ioBase : UInt16) (driveSel : UInt8) (sys : System) : System :=
  let sys := outb sys (ioBase + 6) (0xA0 ||| driveSel)
  let sys := outb sys (ioBase + 2) 0
  let sys := outb sys (ioBase + 3) 0
  let sys := outb sys (ioBase + 4) 0
  let sys := outb sys (ioBase + 5) 0
  outb sys (ioBase + 7) ataCmdIdentify

/-- `while (1)`: wait for data or an error; is it data? -/
def waitIdentified (sys : System) (ioBase : UInt16) : List UInt8 → Option (Bool × List UInt8)
  | [] => none
  | b :: polls =>
    let status := inb sys (ioBase + 7) b
    if status &&& ataSrErr ≠ 0 then some (false, polls)
    else if status &&& ataSrDrq ≠ 0 then some (true, polls)
    else waitIdentified sys ioBase polls

/-- The first `n` words of `identify_data`. -/
def readIdentify (ioBase : UInt16) : Nat → System → (Nat → UInt16) × System
  | 0, sys => (fun _ => 0, sys)
  | n + 1, sys =>
    let r := readIdentify ioBase n sys
    let w := inw r.2 (ioBase + 0)
    (Function.update r.1 n w.1, w.2)

/-- A name, from `n` words: the bytes are swapped in each of them. -/
def swapped (data : Nat → UInt16) (first : Nat) : Nat → (Nat → UInt8) → Nat → UInt8
  | 0, text => text
  | n + 1, text =>
    let text := swapped data first n text
    let text := Function.update text (n * 2) ((data (first + n) >>> 8) &&& 0xFF).toUInt8
    Function.update text (n * 2 + 1) (data (first + n) &&& 0xFF).toUInt8

/-- Trim trailing spaces, with `n` characters to go. -/
def trimSpaces : Nat → (Nat → UInt8) → Nat → UInt8
  | 0, text => text
  | n + 1, text => if text n = 32 then trimSpaces n (Function.update text n 0) else text

/-- The second part of `ata_identify`: what is entered. -/
def extract (ioBase ctrlBase : UInt16) (driveSel : UInt8) (data : Nat → UInt16)
    (drive : DriveInfo) : DriveInfo where
  present := true
  isAtapi := false
  ioBase := ioBase
  ctrlBase := ctrlBase
  driveSelect := driveSel
  sectors := ((data 61).toUInt32 <<< 16) ||| (data 60).toUInt32
  model := trimSpaces 40 (Function.update (swapped data 27 20 drive.model) 40 0)
  serial := Function.update (swapped data 10 10 drive.serial) 20 0

/-- What a call of `ata_identify` leaves, with the answers that are left. -/
structure IdentifyRun where
  ret : Bool
  drive : DriveInfo
  polls : List UInt8
  sys : System

/-- The rest of `ata_identify`, behind the command. -/
def hearIdentify (ioBase ctrlBase : UInt16) (driveSel : UInt8) (drive : DriveInfo)
    (polls : List UInt8) (sys : System) : Option IdentifyRun :=
  match polls with
  | [] => none
  | b :: polls =>
    if inb sys (ioBase + 7) b = 0 then some ⟨false, drive, polls, sys⟩
    else
      match ataWaitBsy sys ioBase polls with
      | none => none
      | some polls =>
        if inb sys (ioBase + 4) 0 ≠ 0 ∨ inb sys (ioBase + 5) 0 ≠ 0 then
          some ⟨false, { drive with isAtapi := true }, polls, sys⟩
        else
          match waitIdentified sys ioBase polls with
          | none => none
          | some (false, polls) => some ⟨false, drive, polls, sys⟩
          | some (true, polls) =>
            let r := readIdentify ioBase 256 sys
            some ⟨true, extract ioBase ctrlBase driveSel r.1 drive, polls, r.2⟩

/-- `ata_identify`. -/
def ataIdentify (ioBase ctrlBase : UInt16) (driveSel : UInt8) (drive : DriveInfo)
    (polls : List UInt8) (sys : System) : Option IdentifyRun :=
  hearIdentify ioBase ctrlBase driveSel drive polls (askIdentify ioBase driveSel sys)

/-- `drives`, `drive_count`, the answers that are left and the system. -/
structure InitRun where
  drives : Nat → DriveInfo
  driveCount : Nat
  polls : List UInt8
  sys : System

/-- `if (ata_identify(..., &drives[i])) drive_count++;`. -/
def identifyStep (i : Nat) (ioBase ctrlBase : UInt16) (driveSel : UInt8) (r : InitRun) :
    Option InitRun :=
  match ataIdentify ioBase ctrlBase driveSel (r.drives i) r.polls r.sys with
  | none => none
  | some x => some ⟨Function.update r.drives i x.drive,
      if x.ret then r.driveCount + 1 else r.driveCount, x.polls, x.sys⟩

/-- `drives[i].present = false;` for all `i < MAX_DRIVES`. -/
def cleared (drives : Nat → DriveInfo) : Nat → DriveInfo := fun i =>
  if i < 4 then { drives i with present := false } else drives i

/-- `ata_init`. -/
def ataInit (drives : Nat → DriveInfo) (polls : List UInt8) (sys : System) : Option InitRun :=
  (identifyStep 0 0x1F0 0x3F6 0x00 ⟨cleared drives, 0, polls, sys⟩).bind fun r =>
    (identifyStep 1 0x1F0 0x3F6 0x10 r).bind fun r =>
      (identifyStep 2 0x170 0x376 0x00 r).bind fun r =>
        identifyStep 3 0x170 0x376 0x10 r

/-! ## 2. Names -/

/-- The two characters of a word. -/
def packed (a b : UInt8) : UInt16 := UInt16.ofNat (256 * a.toNat + b.toNat)

/-- The words from `first` on hold a text, filled up with blanks to `2 * n` characters. -/
def Tells (data : Nat → UInt16) (first n : Nat) (text : List UInt8) : Prop :=
  ∀ i < n, data (first + i) = packed (text.getD (2 * i) 32) (text.getD (2 * i + 1) 32)

theorem packed_high (a b : UInt8) : ((packed a b >>> 8) &&& 0xFF).toUInt8 = a := by
  have ha := a.toNat_lt
  have hb := b.toNat_lt
  have hlow : ∀ n : Nat, n &&& 255 = n % 256 := fun n => Nat.and_two_pow_sub_one_eq_mod n 8
  refine UInt8.toNat_inj.mp ?_
  simp only [packed, UInt16.toNat_toUInt8, UInt16.toNat_and, UInt16.toNat_shiftRight,
    UInt16.toNat_ofNat', Nat.shiftRight_eq_div_pow, UInt16.reduceToNat, hlow, Nat.reduceMod,
    Nat.reducePow]
  omega

theorem packed_low (a b : UInt8) : (packed a b &&& 0xFF).toUInt8 = b := by
  have ha := a.toNat_lt
  have hb := b.toNat_lt
  have hlow : ∀ n : Nat, n &&& 255 = n % 256 := fun n => Nat.and_two_pow_sub_one_eq_mod n 8
  refine UInt8.toNat_inj.mp ?_
  simp only [packed, UInt16.toNat_toUInt8, UInt16.toNat_and, UInt16.toNat_ofNat',
    UInt16.reduceToNat, hlow, Nat.reducePow]
  omega

/-- The bytes come out in the order of the text. -/
theorem swapped_tells {data : Nat → UInt16} {first n : Nat} {text : List UInt8}
    (h : Tells data first n text) (old : Nat → UInt8) (k : Nat) :
    swapped data first n old k = if k < 2 * n then text.getD k 32 else old k := by
  induction n with
  | zero => rfl
  | succ n ih =>
    have hword := h n (Nat.lt_succ_self n)
    have hprev := ih fun i hi => h i (Nat.lt_succ_of_lt hi)
    rw [swapped, hword, packed_high, packed_low]
    by_cases hodd : k = n * 2 + 1
    · rw [hodd, Function.update_self, if_pos (by omega), Nat.mul_comm]
    · rw [Function.update_of_ne hodd]
      by_cases heven : k = n * 2
      · rw [heven, Function.update_self, if_pos (by omega), Nat.mul_comm]
      · rw [Function.update_of_ne heven, hprev]
        by_cases hk : k < 2 * n
        · rw [if_pos hk, if_pos (by omega)]
        · rw [if_neg hk, if_neg (by omega)]

/-- **Trimming**: of a text that is filled up with blanks, the text is left. -/
theorem trimSpaces_eq {text : List UInt8} (hlast : text.getLast? ≠ some 32) {n : Nat}
    (hn : text.length ≤ n) {m : Nat → UInt8} (hm : ∀ k < n, m k = text.getD k 32)
    (hzero : ∀ k, n ≤ k → k ≤ 40 → m k = 0) {k : Nat} (hk : k ≤ 40) :
    trimSpaces n m k = text.getD k 0 := by
  induction n generalizing m with
  | zero =>
    rw [trimSpaces, hzero k (Nat.zero_le k) hk, List.getD_eq_default _ _ (by omega)]
  | succ n ih =>
    rw [trimSpaces]
    rcases Nat.lt_or_ge n text.length with hlt | hge
    · -- the last character of the text, which is no blank
      have hlen : text.length = n + 1 := by omega
      have hne : m n ≠ 32 := by
        intro hblank
        rw [hm n (Nat.lt_succ_self n), List.getD_eq_getElem _ _ hlt] at hblank
        refine hlast ?_
        rw [List.getLast?_eq_getElem?, hlen, Nat.add_sub_cancel, List.getElem?_eq_getElem hlt,
          hblank]
      rw [if_neg hne]
      rcases Nat.lt_or_ge k (n + 1) with hkn | hkn
      · have hk' : k < text.length := by omega
        rw [hm k hkn, List.getD_eq_getElem _ _ hk', List.getD_eq_getElem _ _ hk']
      · rw [hzero k hkn hk, List.getD_eq_default _ _ (by omega)]
    · have hblank : m n = 32 := by
        rw [hm n (Nat.lt_succ_self n), List.getD_eq_default _ _ hge]
      rw [if_pos hblank]
      refine ih hge (fun x hx => ?_) fun x hx hx40 => ?_
      · rw [Function.update_of_ne (by omega)]
        exact hm x (by omega)
      · by_cases hxn : x = n
        · rw [hxn, Function.update_self]
        · rw [Function.update_of_ne hxn]
          exact hzero x (by omega) hx40

/-- **What is entered about a drive.** -/
structure Describes (info : DriveInfo) (i : Fin 4) (d : Disk) : Prop where
  present : info.present = true
  isAtapi : info.isAtapi = false
  ioBase : info.ioBase = base (channelOf i)
  driveSelect : info.driveSelect = if slaveOf i then 0x10 else 0x00
  sectors : info.sectors.toNat = (d.identify 60).toNat + 2 ^ 16 * (d.identify 61).toNat
  model : ∀ text : List UInt8, text.length ≤ 40 → text.getLast? ≠ some 32 →
    Tells d.identify 27 20 text → ∀ k ≤ 40, info.model k = text.getD k 0
  serial : ∀ text : List UInt8, Tells d.identify 10 10 text →
    ∀ k ≤ 20, info.serial k = if k < 20 then text.getD k 32 else 0

theorem shift_or (hi lo : UInt16) :
    ((hi.toUInt32 <<< 16) ||| lo.toUInt32).toNat = lo.toNat + 2 ^ 16 * hi.toNat := by
  have hhi := hi.toNat_lt
  have hlo := lo.toNat_lt
  have hshift : hi.toNat * 2 ^ 16 % 2 ^ 32 = 2 ^ 16 * hi.toNat := by omega
  rw [UInt32.toNat_or, UInt32.toNat_shiftLeft, UInt16.toNat_toUInt32, UInt16.toNat_toUInt32,
    UInt32.toNat_ofNat_of_lt (by decide), Nat.shiftLeft_eq, hshift,
    ← Nat.two_pow_add_eq_or_of_lt hlo, Nat.add_comm]

theorem extract_describes (i : Fin 4) (ctrlBase : UInt16) {data : Nat → UInt16} {d : Disk}
    (hdata : ∀ n < 256, data n = d.identify n) (drive : DriveInfo) :
    Describes (extract (base (channelOf i)) ctrlBase (if slaveOf i then 0x10 else 0x00) data drive)
      i d where
  present := rfl
  isAtapi := rfl
  ioBase := rfl
  driveSelect := rfl
  sectors := by
    rw [← hdata 60 (by decide), ← hdata 61 (by decide)]
    exact shift_or _ _
  model := by
    intro text hlen hlast htells k hk
    have htells' : Tells data 27 20 text := by
      intro j hj
      rw [hdata _ (by omega)]
      exact htells j hj
    refine trimSpaces_eq hlast hlen (fun x hx => ?_) (fun x hx hx40 => ?_) hk
    · rw [Function.update_of_ne (by omega), swapped_tells htells', if_pos (by omega)]
    · rw [show x = 40 by omega, Function.update_self]
  serial := by
    intro text htells k hk
    have htells' : Tells data 10 10 text := by
      intro j hj
      rw [hdata _ (by omega)]
      exact htells j hj
    show Function.update _ 20 0 k = _
    by_cases h20 : k = 20
    · rw [h20, Function.update_self, if_neg (by decide)]
    · rw [Function.update_of_ne h20, swapped_tells htells', if_pos (by omega), if_pos (by omega)]

/-! ## 3. A drive that is asked -/

variable {sys : System} {polls rest : List UInt8}

/-- The drive of a number. -/
def diskAt (sys : System) (i : Fin 4) : Disk := (sys (channelOf i)).disk (slaveOf i)

/-- What `ata_init` looks for. -/
def IsAta (d : Disk) : Prop := d.present = true ∧ d.signature = (0, 0)

instance (d : Disk) : Decidable (IsAta d) := inferInstanceAs (Decidable (_ ∧ _))

/-- The registers that are cleared, and the drive. -/
def askRegisters (c : Channel) (slave : Bool) : Channel :=
  { c with
    select := (0xA0 : UInt8) ||| (if slave then (0x10 : UInt8) else 0x00)
    seccount := 0, lbaLo := 0, lbaMid := 0, lbaHi := 0 }

theorem askIdentify_eq (channel slave : Bool) (sys : System) :
    askIdentify (base channel) (if slave then 0x10 else 0x00) sys =
      Function.update sys channel (({ sys channel with
        chan := askRegisters (sys channel).chan slave } : Device).command ataCmdIdentify) := by
  simp only [askIdentify]
  rw [outb_register (by decide), outb_register (by decide), outb_register (by decide),
    outb_register (by decide), outb_register (by decide), outb_register (by decide)]
  simp only [Function.update_self, Function.update_idem]
  rfl

/-- A device whose drive `slave` has been asked. -/
structure Asked (d d' : Device) (slave : Bool) : Prop where
  disk : d'.disk = d.disk
  storing : d'.storing = none
  transfer : d'.chan.transfer = none
  selected : d'.selected = d.disk slave
  telling : d'.telling = if IsAta (d.disk slave) then some 0 else none
  signature : (d'.chan.lbaMid, d'.chan.lbaHi) =
    if (d.disk slave).present then (d.disk slave).signature else (0, 0)

theorem select_slave (slave : Bool) :
    ((0xA0 : UInt8) ||| (if slave then (0x10 : UInt8) else 0x00)).toNat.testBit 4 = slave := by
  cases slave <;> decide

theorem asked_command (d : Device) (slave : Bool) :
    Asked d (({ d with chan := askRegisters d.chan slave } : Device).command ataCmdIdentify)
      slave := by
  have hslave : (askRegisters d.chan slave).slave = slave := select_slave slave
  have hsel : ({ d with chan := askRegisters d.chan slave } : Device).selected = d.disk slave :=
    congrArg d.disk hslave
  have hchan : (askRegisters d.chan slave).command 0xEC =
      { askRegisters d.chan slave with transfer := none } := rfl
  -- the command is known, and so is the drive: what is left are the branches of the device
  simp only [Device.command, hsel, ataCmdIdentify, hchan]
  refine ⟨rfl, rfl, ?_, congrArg d.disk ?_, ?_, ?_⟩
  · dsimp only
    split <;> rfl
  · dsimp only
    split <;> exact hslave
  · by_cases hata : IsAta (d.disk slave)
    · simp [hata, hata.1, hata.2]
    · rw [if_neg hata]
      refine if_neg ?_
      simpa [IsAta] using hata
  · by_cases hpresent : (d.disk slave).present = true
    · by_cases hsig : (d.disk slave).signature = (0, 0)
      · simp [hpresent, hsig, askRegisters]
      · simp [hpresent, hsig]
    · simp [hpresent, askRegisters]

theorem Asked.wants {d d' : Device} {slave : Bool} (h : Asked d d' slave) :
    d'.wants = true ↔ IsAta (d.disk slave) := by
  have hserves : d'.chan.serves d'.drives = false := by
    rw [Channel.serves, h.transfer]
  have htakes : d'.takes = false := by
    rw [Device.takes, h.storing]
  rw [Device.wants, hserves, htakes, h.telling]
  split <;> simp [*]

/-- The registers tell whether a device that is present is an ATA disk. -/
theorem Asked.refused {d d' : Device} {slave : Bool} (h : Asked d d' slave) :
    (d'.chan.lbaMid ≠ 0 ∨ d'.chan.lbaHi ≠ 0) ↔
      (d.disk slave).present = true ∧ (d.disk slave).signature ≠ (0, 0) := by
  have hpair : (d'.chan.lbaMid ≠ 0 ∨ d'.chan.lbaHi ≠ 0) ↔
      (d'.chan.lbaMid, d'.chan.lbaHi) ≠ (0, 0) := by
    simp only [ne_eq, Prod.mk.injEq, not_and_or]
  rw [hpair, h.signature]
  split <;> simp [*]

/-- **The loop over the words of the description.** -/
theorem readIdentify_eq {channel : Bool} (h : (sys channel).telling = some 0) {n : Nat}
    (hn : n ≤ 256) :
    readIdentify (base channel) n sys =
      (fun k => if k < n then (sys channel).selected.identify k else 0,
        Function.update sys channel
          { sys channel with telling := if n < 256 then some n else none }) := by
  induction n with
  | zero =>
    have htelling : (if 0 < 256 then some 0 else none) = (sys channel).telling := h.symm
    rw [readIdentify, htelling, Function.update_eq_self]
    simp
  | succ n ih =>
    have hlt : n < 256 := hn
    rw [readIdentify, ih (by omega)]
    dsimp only
    rw [inw_data, Function.update_self, Function.update_idem, if_pos hlt]
    refine Prod.ext (funext fun k => ?_) rfl
    dsimp only
    by_cases hk : k = n
    · rw [hk, Function.update_self, if_pos (Nat.lt_succ_self n)]
      rfl
    · rw [Function.update_of_ne hk]
      by_cases hkn : k < n
      · rw [if_pos hkn, if_pos (by omega)]
      · rw [if_neg hkn, if_neg (by omega)]

theorem waitIdentified_wants {channel : Bool}
    (h : waitIdentified sys (base channel) polls = some (true, rest)) :
    (sys channel).wants = true := by
  induction polls with
  | nil => cases h
  | cons b polls ih =>
    rw [waitIdentified] at h
    split at h
    · cases h
    · split at h
      · rename_i hdrq
        exact wants_of_drq hdrq
      · exact ih h

/-! ## 4. `ata_identify` and `ata_init` -/

/-- What a call of `ata_identify` for a drive may do. -/
structure Identified (sys : System) (i : Fin 4) (drive : DriveInfo) (r : IdentifyRun) : Prop where
  disks : ∀ c, (r.sys c).disk = (sys c).disk
  found : r.ret = true → IsAta (diskAt sys i) ∧ Describes r.drive i (diskAt sys i)
  missed : r.ret = false → r.drive.present = drive.present ∧
    (r.drive.isAtapi = drive.isAtapi ∨
      r.drive.isAtapi = true ∧ (diskAt sys i).present = true ∧ (diskAt sys i).signature ≠ (0, 0))

/-- Replacing a device by one with the same drives. -/
theorem update_disk {d : Device} {channel : Bool} (h : d.disk = (sys channel).disk) (c : Bool) :
    (Function.update sys channel d c).disk = (sys c).disk := by
  by_cases hc : c = channel
  · rw [hc, Function.update_self, h]
  · rw [Function.update_of_ne hc]

theorem askIdentify_asked (channel slave : Bool) (sys : System) :
    let sys' := askIdentify (base channel) (if slave then 0x10 else 0x00) sys
    Asked (sys channel) (sys' channel) slave ∧ ∀ c, (sys' c).disk = (sys c).disk := by
  intro sys'
  have hasked := asked_command (sys channel) slave
  have hsys : sys' = _ := askIdentify_eq channel slave sys
  rw [hsys, Function.update_self]
  exact ⟨hasked, update_disk hasked.disk⟩

/-- **A call of `ata_identify` that returns.** -/
theorem ataIdentify_some {i : Fin 4} {ctrlBase : UInt16} {drive : DriveInfo} {r : IdentifyRun}
    (h : ataIdentify (base (channelOf i)) ctrlBase (if slaveOf i then 0x10 else 0x00) drive polls
      sys = some r) :
    Identified sys i drive r := by
  obtain ⟨hasked, hdisks⟩ := askIdentify_asked (channelOf i) (slaveOf i) sys
  rw [ataIdentify] at h
  generalize askIdentify (base (channelOf i)) _ sys = sys' at hasked hdisks h
  unfold hearIdentify at h
  rw [inb_lbaMid, inb_lbaHi] at h
  split at h
  · cases h
  split at h
  · obtain rfl := Option.some.inj h
    exact ⟨hdisks, nofun, fun _ => ⟨rfl, .inl rfl⟩⟩
  split at h
  · cases h
  split at h
  · rename_i hsig
    obtain rfl := Option.some.inj h
    exact ⟨hdisks, nofun, fun _ => ⟨rfl, .inr ⟨rfl, hasked.refused.mp hsig⟩⟩⟩
  split at h
  · cases h
  · obtain rfl := Option.some.inj h
    exact ⟨hdisks, nofun, fun _ => ⟨rfl, .inl rfl⟩⟩
  · rename_i hwait
    obtain rfl := Option.some.inj h
    have hata := hasked.wants.mp (waitIdentified_wants hwait)
    have htelling : (sys' (channelOf i)).telling = some 0 := by
      rw [hasked.telling, if_pos hata]
    rw [readIdentify_eq htelling le_rfl]
    refine ⟨fun c => ?_, fun _ => ⟨hata, extract_describes i _ (fun n hn => ?_) _⟩, nofun⟩
    · refine (update_disk ?_ c).trans (hdisks c)
      rfl
    · dsimp only
      rw [if_pos hn, hasked.selected]
      rfl

/-- The answers of a device that is not busy: those of a disk, of another device, of none. -/
def answers (d : Disk) : List UInt8 :=
  if IsAta d then [0x08, 0x00, 0x08] else if d.present then [0x40, 0x00] else [0x00]

/-- **Every drive is found that gives these answers.** -/
theorem ataIdentify_answers (i : Fin 4) (ctrlBase : UInt16) (drive : DriveInfo) (rest : List UInt8)
    (sys : System) :
    ∃ r, ataIdentify (base (channelOf i)) ctrlBase (if slaveOf i then 0x10 else 0x00) drive
        (answers (diskAt sys i) ++ rest) sys = some r ∧
      r.polls = rest ∧ (r.ret = true ↔ IsAta (diskAt sys i)) := by
  obtain ⟨hasked, -⟩ := askIdentify_asked (channelOf i) (slaveOf i) sys
  rw [ataIdentify]
  generalize askIdentify (base (channelOf i)) _ sys = sys' at hasked ⊢
  by_cases hata : IsAta (diskAt sys i)
  · have hstatus : ∀ b, inb sys' (base (channelOf i) + 7) b = b := by
      intro b
      rw [inb_status, Device.status, if_pos (hasked.wants.mpr hata)]
    have hsig : ¬(inb sys' (base (channelOf i) + 4) 0 ≠ 0 ∨
        inb sys' (base (channelOf i) + 5) 0 ≠ 0) := by
      rw [inb_lbaMid, inb_lbaHi]
      exact fun h => (hasked.refused.mp h).2 hata.2
    have hfirst : ¬inb sys' (base (channelOf i) + 7) 0x08 = 0 := by
      rw [hstatus]
      decide
    have hbsy : ataWaitBsy sys' (base (channelOf i)) (0x00 :: 0x08 :: rest) =
        some (0x08 :: rest) := by
      rw [ataWaitBsy, hstatus]
      rfl
    have hwait : waitIdentified sys' (base (channelOf i)) (0x08 :: rest) = some (true, rest) := by
      rw [waitIdentified, hstatus]
      rfl
    rw [answers, if_pos hata, List.cons_append, List.cons_append, List.cons_append, List.nil_append,
      hearIdentify, if_neg hfirst, hbsy]
    dsimp only
    rw [if_neg hsig, hwait]
    exact ⟨_, rfl, rfl, iff_of_true rfl hata⟩
  · have hstatus : ∀ b, inb sys' (base (channelOf i) + 7) b = b &&& 0xF7 := by
      intro b
      rw [inb_status, Device.status, if_neg fun h => hata (hasked.wants.mp h)]
    rw [answers, if_neg hata]
    by_cases hpresent : (diskAt sys i).present = true
    · have hsig : inb sys' (base (channelOf i) + 4) 0 ≠ 0 ∨
          inb sys' (base (channelOf i) + 5) 0 ≠ 0 := by
        rw [inb_lbaMid, inb_lbaHi]
        exact hasked.refused.mpr ⟨hpresent, fun h => hata ⟨hpresent, h⟩⟩
      have hfirst : ¬inb sys' (base (channelOf i) + 7) 0x40 = 0 := by
        rw [hstatus]
        decide
      have hbsy : ataWaitBsy sys' (base (channelOf i)) (0x00 :: rest) = some rest := by
        rw [ataWaitBsy, hstatus]
        rfl
      rw [if_pos hpresent, List.cons_append, List.cons_append, List.nil_append, hearIdentify,
        if_neg hfirst, hbsy]
      dsimp only
      rw [if_pos hsig]
      exact ⟨_, rfl, rfl, iff_of_false Bool.false_ne_true hata⟩
    · have hnone : inb sys' (base (channelOf i) + 7) 0x00 = 0 := by
        rw [hstatus]
        rfl
      rw [if_neg hpresent, List.cons_append, List.nil_append, hearIdentify, if_pos hnone]
      exact ⟨_, rfl, rfl, iff_of_false Bool.false_ne_true hata⟩

/-- **What `ata_init` leaves**: what is entered in the table is on the bus, the count is right, and
no drive has changed. -/
structure Inventory (sys : System) (r : InitRun) : Prop where
  disks : ∀ c, (r.sys c).disk = (sys c).disk
  found : ∀ i : Fin 4, (r.drives i).present = true →
    IsAta (diskAt sys i) ∧ Describes (r.drives i) i (diskAt sys i)
  atapi : ∀ i : Fin 4, (r.drives i).isAtapi = true →
    (diskAt sys i).present = true ∧ (diskAt sys i).signature ≠ (0, 0)
  driveCount : r.driveCount = (Finset.univ.filter fun i : Fin 4 => (r.drives i).present = true).card

theorem Inventory.same {r : InitRun} (h : Inventory sys r) (i : Fin 4) :
    diskAt r.sys i = diskAt sys i := congrFun (h.disks _) _

/-- The number of drives in the table, when one more has been asked. -/
theorem card_update {drives : Nat → DriveInfo} {i : Fin 4} {d : DriveInfo}
    (hfresh : (drives i).present = false) :
    (Finset.univ.filter fun j : Fin 4 => (Function.update drives i d j).present = true).card =
      (Finset.univ.filter fun j : Fin 4 => (drives j).present = true).card +
        if d.present then 1 else 0 := by
  by_cases hd : d.present = true
  · rw [if_pos hd, ← Finset.card_insert_of_notMem (a := i)]
    · refine congrArg Finset.card (Finset.ext fun j => ?_)
      by_cases hj : j = i
      · simp [hj, hd]
      · simp [hj, Fin.val_ne_of_ne hj]
    · simp [hfresh]
  · rw [if_neg hd]
    refine congrArg Finset.card (Finset.filter_congr fun j _ => ?_)
    by_cases hj : j = i
    · simp [hj, hd, hfresh]
    · simp [Fin.val_ne_of_ne hj]

/-- **A step** of `ata_init`, for a drive that is not entered yet. -/
theorem Inventory.step {i : Fin 4} {ctrlBase : UInt16} {r r' : InitRun} (h : Inventory sys r)
    (hfresh : (r.drives i).present = false)
    (hstep : identifyStep i (base (channelOf i)) ctrlBase (if slaveOf i then 0x10 else 0x00) r =
      some r') :
    Inventory sys r' ∧ ∀ j : Fin 4, j ≠ i → r'.drives j = r.drives j := by
  rw [identifyStep] at hstep
  split at hstep
  · cases hstep
  · rename_i x hx
    obtain rfl := Option.some.inj hstep
    obtain ⟨hdisks, hfound, hmissed⟩ := ataIdentify_some hx
    rw [h.same] at hfound hmissed
    have hother : ∀ j : Fin 4, j ≠ i → Function.update r.drives i x.drive j = r.drives j :=
      fun j hj => Function.update_of_ne (Fin.val_ne_of_ne hj) _ _
    refine ⟨⟨fun c => (hdisks c).trans (h.disks c), fun j hj => ?_, fun j hj => ?_, ?_⟩, hother⟩
    · dsimp only at hj ⊢
      by_cases hji : j = i
      · subst hji
        rw [Function.update_self] at hj ⊢
        cases hret : x.ret with
        | true => exact hfound hret
        | false => rw [(hmissed hret).1, hfresh] at hj; cases hj
      · rw [hother j hji] at hj ⊢
        exact h.found j hj
    · dsimp only at hj
      by_cases hji : j = i
      · subst hji
        rw [Function.update_self] at hj
        cases hret : x.ret with
        | true => rw [(hfound hret).2.isAtapi] at hj; cases hj
        | false =>
          rcases (hmissed hret).2 with hsame | ⟨-, hsig⟩
          · exact h.atapi j (hsame ▸ hj)
          · exact hsig
      · rw [hother j hji] at hj
        exact h.atapi j hj
    · dsimp only
      rw [card_update hfresh, h.driveCount]
      cases hret : x.ret with
      | true => rw [if_pos rfl, if_pos (hfound hret).2.present]
      | false => rw [if_neg nofun, (hmissed hret).1, hfresh, if_neg nofun]; rfl

/-- The same, with the answers of a device that is not busy. -/
theorem Inventory.asks {i : Fin 4} (ctrlBase : UInt16) {r : InitRun} (h : Inventory sys r)
    (hfresh : (r.drives i).present = false) (hpolls : r.polls = answers (diskAt sys i) ++ rest) :
    ∃ r', identifyStep i (base (channelOf i)) ctrlBase (if slaveOf i then 0x10 else 0x00) r =
        some r' ∧
      Inventory sys r' ∧ r'.polls = rest ∧
      ((r'.drives i).present = true ↔ IsAta (diskAt sys i)) ∧
        ∀ j : Fin 4, j ≠ i → r'.drives j = r.drives j := by
  obtain ⟨x, hx, hrest, hret⟩ := ataIdentify_answers i ctrlBase (r.drives i) rest r.sys
  rw [h.same] at hx hret
  rw [← hpolls] at hx
  have hstep : identifyStep i (base (channelOf i)) ctrlBase (if slaveOf i then 0x10 else 0x00) r =
      some ⟨Function.update r.drives i x.drive,
        if x.ret then r.driveCount + 1 else r.driveCount, x.polls, x.sys⟩ := by
    rw [identifyStep, hx]
  obtain ⟨hinv, hkeep⟩ := h.step hfresh hstep
  refine ⟨_, hstep, hinv, hrest, ?_, hkeep⟩
  dsimp only
  rw [Function.update_self, ← hret]
  cases hr : x.ret with
  | true => exact iff_of_true ((ataIdentify_some hx).found hr).2.present rfl
  | false =>
    rw [((ataIdentify_some hx).missed hr).1, hfresh]

theorem cleared_at (drives : Nat → DriveInfo) (i : Fin 4) :
    cleared drives i = { drives i with present := false } := if_pos i.isLt

theorem cleared_present (drives : Nat → DriveInfo) (i : Fin 4) :
    (cleared drives i).present = false := by
  rw [cleared_at]

/-- The table that `ata_init` starts with. -/
theorem inventory_start {drives : Nat → DriveInfo} (hzero : ∀ i, (drives i).isAtapi = false)
    (polls : List UInt8) (sys : System) :
    Inventory sys ⟨cleared drives, 0, polls, sys⟩ := by
  refine ⟨fun _ => rfl, fun i hi => ?_, fun i hi => ?_, ?_⟩
  · simp [cleared_present] at hi
  · simp [cleared_at, hzero] at hi
  · simp [cleared_present]

/-- **The run** of `ata_init`. -/
theorem ataInit_inventory {drives : Nat → DriveInfo} (hzero : ∀ i, (drives i).isAtapi = false)
    {r : InitRun} (h : ataInit drives polls sys = some r) : Inventory sys r := by
  have hstart := inventory_start hzero polls sys
  unfold ataInit at h
  obtain ⟨r₀, h₀, h⟩ := Option.bind_eq_some_iff.mp h
  obtain ⟨r₁, h₁, h⟩ := Option.bind_eq_some_iff.mp h
  obtain ⟨r₂, h₂, h⟩ := Option.bind_eq_some_iff.mp h
  obtain ⟨hinv₀, hkeep₀⟩ := hstart.step (i := 0) (cleared_present drives 0) h₀
  obtain ⟨hinv₁, hkeep₁⟩ := hinv₀.step (i := 1)
      (by rw [hkeep₀ 1 (by decide)]; exact cleared_present drives 1) h₁
  obtain ⟨hinv₂, hkeep₂⟩ := hinv₁.step (i := 2)
    (by rw [hkeep₁ 2 (by decide), hkeep₀ 2 (by decide)]; exact cleared_present drives 2) h₂
  exact (hinv₂.step (i := 3)
    (by
      rw [hkeep₂ 3 (by decide), hkeep₁ 3 (by decide), hkeep₀ 3 (by decide)]
      exact cleared_present drives 3) h).1

/-- **`ata_init` finds the disks.**  Whatever the devices answer: when it returns, each drive that
it has entered is an ATA disk and is described as it describes itself, and none has changed.  And
there are answers for which it returns and has entered every ATA disk. -/
theorem ata_init_finds (drives : Nat → DriveInfo) (hzero : ∀ i, (drives i).isAtapi = false)
    (sys : System) :
    (∀ polls r, ataInit drives polls sys = some r → Inventory sys r) ∧
      ∃ polls r, ataInit drives polls sys = some r ∧
        ∀ i : Fin 4, (r.drives i).present = true ↔ IsAta (diskAt sys i) := by
  refine ⟨fun polls r => ataInit_inventory hzero, ?_⟩
  let polls := answers (diskAt sys 0) ++ (answers (diskAt sys 1) ++ (answers (diskAt sys 2) ++
    (answers (diskAt sys 3) ++ [])))
  obtain ⟨r₀, h₀, hinv₀, hrest₀, hiff₀, hkeep₀⟩ :=
    (inventory_start hzero polls sys).asks (i := 0) 0x3F6 (cleared_present drives 0) rfl
  obtain ⟨r₁, h₁, hinv₁, hrest₁, hiff₁, hkeep₁⟩ :=
    hinv₀.asks (i := 1) 0x3F6 (by rw [hkeep₀ 1 (by decide)]; exact cleared_present drives 1) hrest₀
  obtain ⟨r₂, h₂, hinv₂, hrest₂, hiff₂, hkeep₂⟩ := hinv₁.asks (i := 2) 0x376
    (by rw [hkeep₁ 2 (by decide), hkeep₀ 2 (by decide)]; exact cleared_present drives 2) hrest₁
  obtain ⟨r₃, h₃, -, -, hiff₃, hkeep₃⟩ := hinv₂.asks (i := 3) 0x376
    (by
      rw [hkeep₂ 3 (by decide), hkeep₁ 3 (by decide), hkeep₀ 3 (by decide)]
      exact cleared_present drives 3) hrest₂
  refine ⟨polls, r₃, ?_, fun i => ?_⟩
  · rw [ataInit, Option.bind_eq_some_iff]
    refine ⟨r₀, h₀, ?_⟩
    rw [Option.bind_eq_some_iff]
    refine ⟨r₁, h₁, ?_⟩
    rw [Option.bind_eq_some_iff]
    exact ⟨r₂, h₂, h₃⟩
  · match i with
    | 0 => rw [hkeep₃ 0 (by decide), hkeep₂ 0 (by decide), hkeep₁ 0 (by decide), hiff₀]
    | 1 => rw [hkeep₃ 1 (by decide), hkeep₂ 1 (by decide), hiff₁]
    | 2 => rw [hkeep₃ 2 (by decide), hiff₂]
    | 3 => exact hiff₃

/-- A disk that calls itself `FLOW` on the primary channel, and a drive for compact discs on the
secondary one. -/
def mixedSystem : System := fun channel =>
  ⟨⟨0, 0, 0, 0, 0, none⟩, none, none, fun slave =>
    ⟨⟨2048, fun _ _ => 0⟩, !slave, if channel then (0x14, 0xEB) else (0, 0), fun n =>
      if n = 60 then 2048 else if n = 27 then 0x464C else if n = 28 then 0x4F57 else 0x2020⟩⟩

theorem ata_init_finds_mixed :
    ∃ polls r, ataInit (fun _ => ⟨false, false, 0, 0, 0, 0, fun _ => 0, fun _ => 0⟩) polls
        mixedSystem = some r ∧
      (∀ i : Fin 4, (r.drives i).present = true ↔ i = 0) ∧ r.driveCount = 1 ∧
      ∀ k ≤ 40, (r.drives 0).model k = [0x46, 0x4C, 0x4F, 0x57].getD k 0 := by
  obtain ⟨hall, polls, r, hr, hfound⟩ := ata_init_finds
    (fun _ => ⟨false, false, 0, 0, 0, 0, fun _ => 0, fun _ => 0⟩) (fun _ => rfl) mixedSystem
  have hata : ∀ i : Fin 4, IsAta (diskAt mixedSystem i) ↔ i = 0 := by decide
  have hiff : ∀ i : Fin 4, (r.drives i).present = true ↔ i = 0 := fun i => (hfound i).trans (hata i)
  have hinv := hall polls r hr
  refine ⟨polls, r, hr, hiff, ?_, ?_⟩
  · rw [hinv.driveCount]
    simp only [hiff]
    rfl
  · exact (hinv.found 0 ((hiff 0).mpr rfl)).2.model _ (by decide) (by decide)
      (by unfold Tells; decide)

/-! ## 5. The table that reading and writing start from -/

/-- The entries of the table that are looked at. -/
def InitRun.table (r : InitRun) : List AtaDrive :=
  (List.range 4).map fun i => ⟨(r.drives i).present, (r.drives i).ioBase, (r.drives i).driveSelect⟩

/-- The two tables agree where a drive is present, and on whether it is. -/
theorem table_get {r : InitRun} (h : Inventory sys r) (n : Nat) :
    r.table[n]? = (Ata.ataInit fun i => (r.drives i).present)[n]? ∨
      ∃ e e', r.table[n]? = some e ∧ (Ata.ataInit fun i => (r.drives i).present)[n]? = some e' ∧
        e.present = false ∧ e'.present = false := by
  rcases Nat.lt_or_ge n 4 with hn | hn
  · have hleft : r.table[n]? = some ⟨(r.drives n).present, (r.drives n).ioBase,
        (r.drives n).driveSelect⟩ := by
      rw [InitRun.table, List.getElem?_map, List.getElem?_range hn]
      rfl
    have hright : (Ata.ataInit fun i : Fin 4 => (r.drives i).present)[n]? =
        some (Ata.entryOf (fun i : Fin 4 => (r.drives i).present) ⟨n, hn⟩) :=
      Ata.ataInit_get _ ⟨n, hn⟩
    cases hpresent : (r.drives n).present with
    | true =>
      obtain ⟨-, hdesc⟩ := h.found ⟨n, hn⟩ hpresent
      left
      rw [hleft, hright, hdesc.ioBase, hdesc.driveSelect]
      rfl
    | false => exact .inr ⟨_, _, hleft, hright, hpresent, hpresent⟩
  · left
    have hlen : r.table.length = 4 := rfl
    rw [List.getElem?_eq_none (by omega), List.getElem?_eq_none hn]

/-- **Reading and writing start from what `ata_init` has found**: with its table both do what they
do with the table of the drives that are present. -/
theorem ata_init_reads {drives : Nat → DriveInfo} (hzero : ∀ i, (drives i).isAtapi = false)
    {r : InitRun} (h : ataInit drives polls sys = some r) (drive : UInt8) (lba : UInt32)
    (count : UInt8) (answers : List UInt8) (buf : Nat → UInt16) :
    (∀ disks bus, Ata.ataReadSectors r.table disks drive lba count answers bus buf =
      Ata.ataReadSectors (Ata.ataInit fun i => (r.drives i).present) disks drive lba count answers
        bus buf) ∧
      ∀ sys', ataWriteSectors r.table drive lba count answers sys' buf =
        ataWriteSectors (Ata.ataInit fun i => (r.drives i).present) drive lba count answers sys'
          buf := by
  rcases table_get (ataInit_inventory hzero h) drive.toNat with heq | ⟨e, e', he, he', hno, hno'⟩
  · unfold Ata.ataReadSectors ataWriteSectors
    rw [heq]
    exact ⟨fun _ _ => rfl, fun _ => rfl⟩
  · unfold Ata.ataReadSectors ataWriteSectors
    rw [he, he']
    dsimp only
    simp only [if_pos hno, if_pos hno', implies_true, and_self]

end FlowOS.Disk
