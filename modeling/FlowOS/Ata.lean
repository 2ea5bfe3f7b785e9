/-
# The disk driver (`ata.c`)

`ata_read_sectors` programs the registers of a drive's channel and then takes 256 words for each
sector, waiting for the drive before each.  The bus is `AtaBus`.  The device's answers to the polls
of the status port are a list; when it ends the driver is waiting.

The address has 32 bits and the registers have room for 28.  `(lba >> 24) & 0x0F` drops the other
four, and nothing looks at them or at the number of sectors the drive has reported.  An address of
`2 ^ 28` or more is read at `lba % 2 ^ 28`, where there is such a sector, and the call succeeds
(`ata_read_iff`).
-/
import FlowOS.Lib.AtaBus
import FlowOS.Fat32.Read

namespace FlowOS.Ata

open AtaBus

/-! ## 1. The driver -/

/-- `ATA_SR_BSY`. -/
def ataSrBsy : UInt8 := 0x80

/-- `ATA_SR_DF`. -/
def ataSrDf : UInt8 := 0x20

/-- `ATA_SR_DRQ`. -/
def ataSrDrq : UInt8 := 0x08

/-- `ATA_SR_ERR`. -/
def ataSrErr : UInt8 := 0x01

/-- `ATA_CMD_READ_PIO`. -/
def ataCmdReadPio : UInt8 := 0x20

/-- `struct ata_drive`, as far as reading looks at it. -/
structure AtaDrive where
  present : Bool
  ioBase : UInt16
  driveSelect : UInt8

/-- What `ata_init` leaves in `drives`: primary and secondary channel, master and slave, each
present if `ata_identify` has found it. -/
def ataInit (found : Fin 4 → Bool) : List AtaDrive :=
  [⟨found 0, 0x1F0, 0x00⟩, ⟨found 1, 0x1F0, 0x10⟩, ⟨found 2, 0x170, 0x00⟩, ⟨found 3, 0x170, 0x10⟩]

/-- `ata_wait_bsy`: the answers that are left. -/
def ataWaitBsy (disks : Disks) (bus : Bus) (ioBase : UInt16) : List UInt8 → Option (List UInt8)
  | [] => none
  | b :: polls =>
    if inb disks bus (ioBase + 7) b &&& ataSrBsy ≠ 0 then ataWaitBsy disks bus ioBase polls
    else some polls

/-- The loop of `ata_wait_ready`, with `timeout` rounds to go. -/
def ataWaitReadyLoop (disks : Disks) (bus : Bus) (ioBase : UInt16) :
    List UInt8 → Nat → Option (Bool × List UInt8)
  | polls, 0 => some (false, polls)
  | [], _ => none
  | b :: polls, timeout + 1 =>
    let status := inb disks bus (ioBase + 7) b
    if status &&& ataSrErr ≠ 0 then some (false, polls)
    else if status &&& ataSrDf ≠ 0 then some (false, polls)
    else if status &&& ataSrBsy = 0 ∧ status &&& ataSrDrq ≠ 0 then some (true, polls)
    else ataWaitReadyLoop disks bus ioBase polls timeout

/-- `ata_wait_ready`. -/
def ataWaitReady (disks : Disks) (bus : Bus) (ioBase : UInt16) (polls : List UInt8) :
    Option (Bool × List UInt8) :=
  ataWaitReadyLoop disks bus ioBase polls 100000

/-- `buf[s * 256 + i] = inw(d->io_base + ATA_REG_DATA);` for the first `n` values of `i`. -/
def readWords (disks : Disks) (ioBase : UInt16) (s : Nat) :
    Nat → Bus × (Nat → UInt16) → Bus × (Nat → UInt16)
  | 0, st => st
  | n + 1, st =>
    let st := readWords disks ioBase s n st
    let r := inw disks st.1 (ioBase + 0)
    (r.2, Function.update st.2 (s * 256 + n) r.1)

/-- What a call returns, with the buffer and the bus as it leaves them. -/
structure ReadRun where
  ret : Bool
  buf : Nat → UInt16
  bus : Bus

/-- The loop of `ata_read_sectors` from sector `s` on, with so many to go. -/
def ataReadLoop (disks : Disks) (ioBase : UInt16) :
    Nat → Nat → List UInt8 → Bus → (Nat → UInt16) → Option ReadRun
  | 0, _, _, bus, buf => some ⟨true, buf, bus⟩
  | left + 1, s, polls, bus, buf =>
    match ataWaitReady disks bus ioBase polls with
    | none => none
    | some (false, _) => some ⟨false, buf, bus⟩
    | some (true, polls) =>
      let st := readWords disks ioBase s 256 (bus, buf)
      ataReadLoop disks ioBase left (s + 1) polls st.1 st.2

/-- The registers and the command. -/
def program (d : AtaDrive) (lba : UInt32) (count : UInt8) (bus : Bus) : Bus :=
  let bus := outb bus (d.ioBase + 6)
    ((0xE0 : UInt8) ||| d.driveSelect ||| ((lba >>> 24) &&& 0x0F).toUInt8)
  let bus := outb bus (d.ioBase + 2) count
  let bus := outb bus (d.ioBase + 3) (lba &&& 0xFF).toUInt8
  let bus := outb bus (d.ioBase + 4) ((lba >>> 8) &&& 0xFF).toUInt8
  let bus := outb bus (d.ioBase + 5) ((lba >>> 16) &&& 0xFF).toUInt8
  outb bus (d.ioBase + 7) ataCmdReadPio

/-- `ata_read_sectors`. -/
def ataReadSectors (drives : List AtaDrive) (disks : Disks) (drive : UInt8) (lba : UInt32)
    (count : UInt8) (polls : List UInt8) (bus : Bus) (buf : Nat → UInt16) : Option ReadRun :=
  match drives[drive.toNat]? with
  | none => some ⟨false, buf, bus⟩
  | some d =>
    if d.present = false then some ⟨false, buf, bus⟩
    else
      match ataWaitBsy disks bus d.ioBase polls with
      | none => none
      | some polls =>
        ataReadLoop disks d.ioBase count.toNat 0 polls (program d lba count bus) buf

/-! ## 2. The registers -/

/-- The channel of a drive. -/
def channelOf (drive : Fin 4) : Bool := 2 ≤ drive.val

/-- Is a drive the second one of its channel? -/
def slaveOf (drive : Fin 4) : Bool := drive.val % 2 = 1

/-- The drive itself. -/
def diskOf (disks : Disks) (drive : Fin 4) : Drive := disks (channelOf drive) (slaveOf drive)

/-- What `drives` holds for a drive. -/
def entryOf (found : Fin 4 → Bool) (drive : Fin 4) : AtaDrive :=
  ⟨found drive, base (channelOf drive), if slaveOf drive then 0x10 else 0x00⟩

theorem ataInit_get (found : Fin 4 → Bool) (drive : Fin 4) :
    (ataInit found)[drive.val]? = some (entryOf found drive) := by
  match drive with
  | 0 | 1 | 2 | 3 => rfl

/-- The drive register: the drive, the address mode and four bits of the address. -/
theorem select_bits (slave : Bool) (high : Fin 16) :
    let b := (0xE0 : UInt8) ||| (if slave then 0x10 else 0x00) ||| UInt8.ofNat high
    b.toNat % 16 = high ∧ b.toNat.testBit 4 = slave ∧ b.toNat.testBit 6 = true := by
  revert slave high
  decide

/-- The address is taken apart modulo `2 ^ 28`. -/
theorem lba_bytes (lba : UInt32) :
    ((lba >>> 24) &&& 0x0F).toNat * 2 ^ 24 + ((lba >>> 16) &&& 0xFF).toUInt8.toNat * 2 ^ 16 +
        ((lba >>> 8) &&& 0xFF).toUInt8.toNat * 2 ^ 8 + (lba &&& 0xFF).toUInt8.toNat =
      lba.toNat % 2 ^ 28 := by
  have hlow : ∀ n : Nat, n &&& 255 = n % 256 := fun n => Nat.and_two_pow_sub_one_eq_mod n 8
  have hhigh : ∀ n : Nat, n &&& 15 = n % 16 := fun n => Nat.and_two_pow_sub_one_eq_mod n 4
  simp only [UInt32.toNat_toUInt8, UInt32.toNat_and, UInt32.toNat_shiftRight, UInt32.reduceToNat,
    Nat.shiftRight_eq_div_pow, Nat.reduceMod, Nat.reducePow, hlow, hhigh]
  omega

/-- **What the device makes of the registers**: a transfer from `lba % 2 ^ 28` on. -/
theorem program_transfer (found : Fin 4 → Bool) (drive : Fin 4) (lba : UInt32) {count : UInt8}
    (hcount : 1 ≤ count) (bus : Bus) :
    (program (entryOf found drive) lba count bus (channelOf drive)).transfer =
      some ⟨slaveOf drive, lba.toNat % 2 ^ 28, count.toNat, 0⟩ := by
  have hne : count ≠ 0 := by
    rintro rfl
    exact absurd hcount (by decide)
  simp only [program, entryOf]
  rw [outb_register (by decide), outb_register (by decide), outb_register (by decide),
    outb_register (by decide), outb_register (by decide), outb_register (by decide)]
  simp only [Function.update_self, Function.update_idem]
  simp only [Channel.write, UInt16.reduceToNat]
  have hlt : (lba >>> 24 &&& 15).toNat < 16 := by
    rw [UInt32.toNat_and]
    exact Nat.lt_succ_of_le Nat.and_le_right
  obtain ⟨hhigh, hslave, hmode⟩ := select_bits (slaveOf drive) ⟨(lba >>> 24 &&& 15).toNat, hlt⟩
  have hbyte : UInt8.ofNat (lba >>> 24 &&& 15).toNat = (lba >>> 24 &&& 15).toUInt8 := rfl
  dsimp only at hhigh hslave hmode
  rw [hbyte] at hhigh hslave hmode
  rw [Channel.command, if_pos ⟨rfl, hmode⟩]
  refine congrArg some (Transfer.ext hslave ?_ (if_neg hne) rfl)
  rw [← lba_bytes lba, ← hhigh]
  rfl

/-! ## 3. Waiting -/

variable {disks : Disks} {bus : Bus} {channel : Bool} {polls rest : List UInt8}

/-- **`ata_wait_ready` succeeds only when there is a sector to take.** -/
theorem ataWaitReadyLoop_true {timeout : Nat}
    (h : ataWaitReadyLoop disks bus (base channel) polls timeout = some (true, rest)) :
    (bus channel).serves (disks channel) = true := by
  induction polls generalizing timeout with
  | nil =>
    cases timeout with
    | zero => cases h
    | succ timeout => cases h
  | cons b polls ih =>
    cases timeout with
    | zero => cases h
    | succ timeout =>
      rw [ataWaitReadyLoop] at h
      split at h
      · cases h
      · split at h
        · cases h
        · split at h
          · rename_i hready
            exact serves_of_drq hready.2
          · exact ih h

/-- It returns, after as many answers as it has rounds at most. -/
theorem ataWaitReadyLoop_returns {timeout : Nat} (h : timeout ≤ polls.length) :
    ∃ ok rest, ataWaitReadyLoop disks bus (base channel) polls timeout = some (ok, rest) ∧
      polls.length ≤ rest.length + timeout := by
  induction polls generalizing timeout with
  | nil =>
    obtain rfl : timeout = 0 := Nat.le_zero.mp h
    exact ⟨false, [], rfl, Nat.zero_le _⟩
  | cons b polls ih =>
    cases timeout with
    | zero => exact ⟨false, b :: polls, rfl, Nat.le_refl _⟩
    | succ timeout =>
      rw [List.length_cons] at h ⊢
      rw [ataWaitReadyLoop]
      split
      · exact ⟨false, polls, rfl, by omega⟩
      · split
        · exact ⟨false, polls, rfl, by omega⟩
        · split
          · exact ⟨true, polls, rfl, by omega⟩
          · obtain ⟨ok, rest, hloop, hlen⟩ := ih (Nat.le_of_succ_le_succ h)
            exact ⟨ok, rest, hloop, by omega⟩

/-- A device that has a sector and says so. -/
theorem ataWaitReady_serves (h : (bus channel).serves (disks channel) = true)
    (polls : List UInt8) :
    ataWaitReady disks bus (base channel) (ataSrDrq :: polls) = some (true, polls) := by
  have hstatus : inb disks bus (base channel + 7) ataSrDrq = ataSrDrq := by
    rw [inb_status, Channel.status, if_pos h]
  rw [ataWaitReady, ataWaitReadyLoop, hstatus]
  rfl

/-! ## 4. A sector -/

variable {buf : Nat → UInt16} {slave : Bool} {sector left s : Nat}

/-- What is left of a transfer when `n` words of a sector have been taken. -/
def after (slave : Bool) (sector left n : Nat) : Transfer :=
  if n < 256 then ⟨slave, sector, left, n⟩ else ⟨slave, sector + 1, left - 1, 0⟩

theorem after_next {n : Nat} (hn : n < 256) :
    (after slave sector left n).next = after slave sector left (n + 1) := by
  unfold after Transfer.next
  rw [if_pos hn]

/-- **The loop over the words of a sector**, after `n` of them. -/
theorem readWords_spec (ht : (bus channel).transfer = some ⟨slave, sector, left, 0⟩) {n : Nat}
    (hn : n ≤ 256) :
    let st := readWords disks (base channel) s n (bus, buf)
    (st.1 channel).transfer = some (after slave sector left n) ∧
      (∀ i < n, st.2 (s * 256 + i) = (disks channel slave).word sector i) ∧
      ∀ k, k < s * 256 ∨ s * 256 + n ≤ k → st.2 k = buf k := by
  induction n with
  | zero => exact ⟨ht, fun i hi => absurd hi (Nat.not_lt_zero i), fun k _ => rfl⟩
  | succ n ih =>
    obtain ⟨htransfer, hword, hrest⟩ := ih (by omega)
    have hlt : n < 256 := hn
    have hafter : after slave sector left n = ⟨slave, sector, left, n⟩ := if_pos hlt
    intro st
    have hst : st = (Bus.goOn (readWords disks (base channel) s n (bus, buf)).1 channel
        (after slave sector left (n + 1)), Function.update
          (readWords disks (base channel) s n (bus, buf)).2 (s * 256 + n)
          ((disks channel slave).word sector n)) := by
      show readWords disks (base channel) s (n + 1) (bus, buf) = _
      rw [readWords]
      rw [inw_data htransfer, after_next hlt, hafter]
    rw [hst]
    refine ⟨Bus.goOn_transfer _ _ _, fun i hi => ?_, fun k hk => ?_⟩
    · rcases Nat.lt_succ_iff_lt_or_eq.mp hi with hi | rfl
      · exact (Function.update_of_ne (show s * 256 + i ≠ s * 256 + n by omega) _ _).trans
          (hword i hi)
      · exact Function.update_self _ _ _
    · have hne : k ≠ s * 256 + n := by omega
      exact (Function.update_of_ne hne _ _).trans (hrest k (by omega))

/-- All the words of a sector: the transfer goes on with the next sector. -/
theorem readSector_spec (ht : (bus channel).transfer = some ⟨slave, sector, left + 1, 0⟩) :
    ∃ bus' buf', readWords disks (base channel) s 256 (bus, buf) = (bus', buf') ∧
      (bus' channel).transfer = some ⟨slave, sector + 1, left, 0⟩ ∧
      (∀ i < 256, buf' (s * 256 + i) = (disks channel slave).word sector i) ∧
      ∀ k, k < 256 * s ∨ 256 * (s + 1) ≤ k → buf' k = buf k := by
  obtain ⟨htransfer, hwords, hkept⟩ :=
    @readWords_spec disks bus channel buf slave sector (left + 1) s
    ht 256 (Nat.le_refl _)
  have hafter : after slave sector (left + 1) 256 = ⟨slave, sector + 1, left, 0⟩ :=
    if_neg (Nat.lt_irrefl 256)
  rw [hafter] at htransfer
  exact ⟨_, _, rfl, htransfer, hwords, fun k hk => hkept k (by omega)⟩

/-! ## 5. The sectors -/

/-- The buffer holds `count` sectors from `lba` on, and behind them what it held. -/
structure Holds (d : Drive) (lba s count : Nat) (old buf : Nat → UInt16) : Prop where
  sectors : ∀ j < count, ∀ i < 256, buf ((s + j) * 256 + i) = d.word (lba + j) i
  others : ∀ k, k < 256 * s ∨ 256 * (s + count) ≤ k → buf k = old k

variable {r : ReadRun}

/-- **Loop lemma.**  A loop that succeeds has taken the sectors of its transfer, and the drive has
them. -/
theorem ataReadLoop_true (ht : (bus channel).transfer = some ⟨slave, sector, left, 0⟩)
    (h : ataReadLoop disks (base channel) left s polls bus buf = some r) (hret : r.ret = true) :
    (0 < left → sector + left ≤ (disks channel slave).capacity) ∧
      Holds (disks channel slave) sector s left buf r.buf := by
  induction left generalizing s sector polls bus buf with
  | zero =>
    obtain rfl := Option.some.inj h
    exact ⟨fun h0 => absurd h0 (Nat.lt_irrefl 0), fun j hj => absurd hj (Nat.not_lt_zero j),
      fun k _ => rfl⟩
  | succ left ih =>
    rw [ataReadLoop] at h
    split at h
    · cases h
    · obtain rfl := Option.some.inj h
      cases hret
    · rename_i rest hready
      have hcap : sector < (disks channel slave).capacity :=
        ((serves_iff disks ht).mp (ataWaitReadyLoop_true hready)).2
      obtain ⟨bus', buf', hst, htransfer, hwords, hkept⟩ :=
        @readSector_spec disks bus channel buf slave sector left s ht
      rw [hst] at h
      obtain ⟨hmore, hsectors, hothers⟩ := ih htransfer h
      refine ⟨fun _ => ?_, ?_, ?_⟩
      · rcases Nat.eq_zero_or_pos left with rfl | hpos
        · exact hcap
        · have hlast := hmore hpos
          omega
      · intro j hj i hi
        cases j with
        | zero => exact (hothers _ (by omega)).trans (hwords i hi)
        | succ j =>
          have hword := hsectors j (by omega) i hi
          rwa [show s + 1 + j = s + (j + 1) by omega,
            show sector + 1 + j = sector + (j + 1) by omega] at hword
      · intro k hk
        exact (hothers k (by omega)).trans (hkept k (by omega))

/-- With an answer to every poll the loop returns. -/
theorem ataReadLoop_returns (h : 100000 * left ≤ polls.length) :
    ∃ r, ataReadLoop disks (base channel) left s polls bus buf = some r := by
  induction left generalizing s polls bus buf with
  | zero => exact ⟨_, rfl⟩
  | succ left ih =>
    obtain ⟨ok, rest, hready, hlen⟩ := @ataWaitReadyLoop_returns disks bus channel polls 100000
      (by omega)
    have hready : ataWaitReady disks bus (base channel) polls = some (ok, rest) := hready
    rw [ataReadLoop, hready]
    cases ok with
    | false => exact ⟨_, rfl⟩
    | true => exact ih (by omega)

/-- A device that says at every poll that it has the next sector, as it has. -/
theorem ataReadLoop_serves (ht : (bus channel).transfer = some ⟨slave, sector, left, 0⟩)
    (hcap : sector + left ≤ (disks channel slave).capacity) :
    ∃ r, ataReadLoop disks (base channel) left s (List.replicate left ataSrDrq) bus buf = some r ∧
      r.ret = true := by
  induction left generalizing s sector bus buf with
  | zero => exact ⟨_, rfl, rfl⟩
  | succ left ih =>
    have hserves := (serves_iff disks ht).mpr
      ⟨Nat.succ_pos left, show sector < (disks channel slave).capacity by omega⟩
    obtain ⟨bus', buf', hst, htransfer, -, -⟩ :=
      @readSector_spec disks bus channel buf slave sector left s ht
    rw [List.replicate_succ, ataReadLoop, ataWaitReady_serves hserves]
    dsimp only
    rw [hst]
    exact ih htransfer (by omega)

/-! ## 6. `ata_read_sectors` -/

/-- The busy bit is the device's to set. -/
theorem inb_busy (disks : Disks) (bus : Bus) (channel : Bool) (b : UInt8) :
    inb disks bus (base channel + 7) b &&& ataSrBsy = b &&& ataSrBsy := by
  rw [inb_status, Channel.status]
  split
  · rfl
  · rw [UInt8.and_assoc]
    rfl

/-- The device answers: it is not busy for ever, and there is an answer to each poll after that. -/
def Answers (count : Nat) (polls : List UInt8) : Prop :=
  ∃ busy b rest, polls = busy ++ b :: rest ∧ b &&& ataSrBsy = 0 ∧ 100000 * count ≤ rest.length

theorem ataWaitBsy_returns {busy rest : List UInt8} {b : UInt8} (hb : b &&& ataSrBsy = 0) :
    ∃ left, ataWaitBsy disks bus (base channel) (busy ++ b :: rest) = some left ∧
      rest.length ≤ left.length := by
  induction busy with
  | nil =>
    rw [List.nil_append, ataWaitBsy, inb_busy, if_neg fun h => h hb]
    exact ⟨rest, rfl, Nat.le_refl _⟩
  | cons d busy ih =>
    rw [List.cons_append, ataWaitBsy]
    split
    · exact ih
    · refine ⟨_, rfl, ?_⟩
      rw [List.length_append, List.length_cons]
      omega

variable {found : Fin 4 → Bool} {drive : Fin 4} {lba : UInt32} {count : UInt8}

/-- For a drive that is present. -/
theorem ataReadSectors_eq (hfound : found drive = true) (disks : Disks) (lba : UInt32)
    (count : UInt8) (polls : List UInt8) (bus : Bus) (buf : Nat → UInt16) :
    ataReadSectors (ataInit found) disks (UInt8.ofNat drive) lba count polls bus buf =
      match ataWaitBsy disks bus (base (channelOf drive)) polls with
      | none => none
      | some polls =>
        ataReadLoop disks (base (channelOf drive)) count.toNat 0 polls
          (program (entryOf found drive) lba count bus) buf := by
  have hdrive : (UInt8.ofNat drive).toNat = drive.val := by
    rw [UInt8.toNat_ofNat']
    exact Nat.mod_eq_of_lt (by omega)
  have hpresent : ¬(entryOf found drive).present = false := by
    show ¬found drive = false
    rw [hfound]
    decide
  rw [ataReadSectors, hdrive, ataInit_get]
  dsimp only
  rw [if_neg hpresent]
  rfl

/-- **A call that succeeds** has read the sectors from `lba % 2 ^ 28` on, and the drive has them. -/
theorem ataReadSectors_true (hfound : found drive = true) (hcount : 1 ≤ count)
    (h : ataReadSectors (ataInit found) disks (UInt8.ofNat drive) lba count polls bus buf = some r)
    (hret : r.ret = true) :
    lba.toNat % 2 ^ 28 + count.toNat ≤ (diskOf disks drive).capacity ∧
      Holds (diskOf disks drive) (lba.toNat % 2 ^ 28) 0 count.toNat buf r.buf := by
  rw [ataReadSectors_eq hfound] at h
  split at h
  · cases h
  · obtain ⟨hcap, hholds⟩ := ataReadLoop_true (program_transfer found drive lba hcount bus) h hret
    exact ⟨hcap (UInt8.le_iff_toNat_le.mp hcount), hholds⟩

/-- The call returns. -/
theorem ataReadSectors_returns (hfound : found drive = true) (lba : UInt32)
    (h : Answers count.toNat polls) (bus : Bus) (buf : Nat → UInt16) :
    ∃ r, ataReadSectors (ataInit found) disks (UInt8.ofNat drive) lba count polls bus buf =
      some r := by
  obtain ⟨busy, b, rest, rfl, hb, hlen⟩ := h
  obtain ⟨left, hwait, hleft⟩ := @ataWaitBsy_returns disks bus (channelOf drive) busy rest b hb
  rw [ataReadSectors_eq hfound, hwait]
  exact ataReadLoop_returns (by omega)

/-- A device that is not busy and has the sectors of the shortened address: the call succeeds. -/
theorem ataReadSectors_serves (hfound : found drive = true) (hcount : 1 ≤ count)
    (hcap : lba.toNat % 2 ^ 28 + count.toNat ≤ (diskOf disks drive).capacity) (bus : Bus)
    (buf : Nat → UInt16) :
    ∃ r, ataReadSectors (ataInit found) disks (UInt8.ofNat drive) lba count
      (0 :: List.replicate count.toNat ataSrDrq) bus buf = some r ∧ r.ret = true := by
  have hwait : ataWaitBsy disks bus (base (channelOf drive))
      (0 :: List.replicate count.toNat ataSrDrq) = some (List.replicate count.toNat ataSrDrq) := by
    rw [ataWaitBsy, inb_busy]
    rfl
  rw [ataReadSectors_eq hfound, hwait]
  exact ataReadLoop_serves (program_transfer found drive lba hcount bus) hcap

/-- Can the sectors from `lba` on be reached: has the drive got them, and has the first one an
address of 28 bits? -/
def Reachable (d : Drive) (lba count : Nat) : Prop := lba < 2 ^ 28 ∧ lba + count ≤ d.capacity

/-- **What reading should do**: when it succeeds, the sectors are reachable and the buffer holds
just them; when they are not reachable, it returns and says so. -/
structure Faithful (found : Fin 4 → Bool) (disks : Disks) (drive : Fin 4) (lba : UInt32)
    (count : UInt8) : Prop where
  holds : ∀ polls bus buf r,
    ataReadSectors (ataInit found) disks (UInt8.ofNat drive) lba count polls bus buf = some r →
    r.ret = true → Reachable (diskOf disks drive) lba.toNat count.toNat ∧
      Holds (diskOf disks drive) lba.toNat 0 count.toNat buf r.buf
  refuses : ¬Reachable (diskOf disks drive) lba.toNat count.toNat →
    ∀ polls bus buf, Answers count.toNat polls → ∃ r,
      ataReadSectors (ataInit found) disks (UInt8.ofNat drive) lba count polls bus buf = some r ∧
        r.ret = false

/-- **Reading is faithful for addresses of 28 bits**, and for others just when the sectors with the
same low 28 bits are not there.  For every present drive, every content of the disks, every address
and every number of sectors, whatever the bus does. -/
theorem ata_read_iff (disks : Disks) {found : Fin 4 → Bool} {drive : Fin 4}
    (hfound : found drive = true) (lba : UInt32) {count : UInt8} (hcount : 1 ≤ count) :
    Faithful found disks drive lba count ↔
      lba.toNat < 2 ^ 28 ∨
        (diskOf disks drive).capacity < lba.toNat % 2 ^ 28 + count.toNat := by
  constructor
  · intro h
    by_contra hnot
    obtain ⟨hbig, hcap⟩ := not_or.mp hnot
    obtain ⟨r, hread, hret⟩ := ataReadSectors_serves hfound hcount (Nat.le_of_not_lt hcap)
      (fun _ => ⟨0, 0, 0, 0, 0, none⟩) fun _ => 0
    exact hbig (h.holds _ _ _ r hread hret).1.1
  · intro h
    have hholds : ∀ polls bus buf r,
        ataReadSectors (ataInit found) disks (UInt8.ofNat drive) lba count polls bus buf = some r →
        r.ret = true → Reachable (diskOf disks drive) lba.toNat count.toNat ∧
          Holds (diskOf disks drive) lba.toNat 0 count.toNat buf r.buf := by
      intro polls bus buf r hread hret
      obtain ⟨hcap, hholds⟩ := ataReadSectors_true hfound hcount hread hret
      have hlt : lba.toNat < 2 ^ 28 := h.resolve_right (by omega)
      rw [Nat.mod_eq_of_lt hlt] at hcap hholds
      exact ⟨⟨hlt, hcap⟩, hholds⟩
    refine ⟨hholds, fun hno polls bus buf hanswers => ?_⟩
    obtain ⟨r, hread⟩ := ataReadSectors_returns hfound lba hanswers bus buf
    refine ⟨r, hread, ?_⟩
    by_contra hret
    exact hno (hholds polls bus buf r hread (Bool.eq_true_of_not_eq_false hret)).1

/-- Drives of 1 MiB; the words of a sector have its number's upper half. -/
def smallDisks : Disks := fun _ _ => ⟨2048, fun sector _ => UInt16.ofNat (sector / 2 ^ 16)⟩

/-- The sectors 5 and 6. -/
theorem ata_read_iff_small : Faithful (fun _ => true) smallDisks 0 5 2 :=
  (ata_read_iff smallDisks rfl 5 (by decide)).mpr (Or.inl (by decide))

/-- Sector `0x10000005`, which such a drive has not got: the call succeeds, with sector 5. -/
theorem wrong_sector :
    ∃ polls bus buf r,
      ataReadSectors (ataInit fun _ => true) smallDisks 0 0x10000005 1 polls bus buf = some r ∧
        r.ret = true ∧ ¬Reachable (diskOf smallDisks 0) 0x10000005 1 ∧
        (∀ i < 256, r.buf i = (diskOf smallDisks 0).word 5 i) ∧
        r.buf 0 ≠ (diskOf smallDisks 0).word 0x10000005 0 := by
  obtain ⟨r, hread, hret⟩ := @ataReadSectors_serves smallDisks (fun _ => true) 0 0x10000005 1 rfl
    (by decide) (by decide) (fun _ => ⟨0, 0, 0, 0, 0, none⟩) fun _ => 0
  have hsector : ∀ i < 256, r.buf i = (diskOf smallDisks 0).word 5 i := by
    intro i hi
    have hword := (ataReadSectors_true rfl (by decide) hread hret).2.sectors 0 (by decide) i hi
    rwa [show (0 + 0) * 256 + i = i by omega] at hword
  refine ⟨_, _, _, r, hread, hret, fun h => absurd h.1 (by decide), hsector, ?_⟩
  rw [hsector 0 (by decide)]
  decide

/-! ## 7. What the file system gets -/

/-- The bytes of a buffer of words. -/
def bufBytes (buf : Nat → UInt16) : Mem := fun k =>
  if k % 2 = 0 then (buf (k / 2)).toUInt8 else (buf (k / 2) >>> 8).toUInt8

/-- A drive as the file system sees it. -/
def fatDisk (d : Drive) : Fat32.Disk := fun lba => bufBytes (d.word lba)

theorem Holds.fill {d : Drive} {lba count : Nat} {old buf : Nat → UInt16}
    (h : Holds d lba 0 count old buf) :
    bufBytes buf = (fatDisk d).fill lba count (bufBytes old) := by
  funext k
  unfold Fat32.Disk.fill fatDisk bufBytes
  by_cases hk : k < 512 * count
  · have hplace : (0 + k / 512) * 256 + k % 512 / 2 = k / 2 := by omega
    have hword := h.sectors (k / 512) (by omega) (k % 512 / 2) (by omega)
    rw [hplace] at hword
    rw [if_pos hk, hword, show k % 512 % 2 = k % 2 by omega]
  · rw [if_neg hk, h.others (k / 2) (by omega)]

/-- **The file system's disk.**  A read that succeeds at an address of 28 bits delivers what the
file system takes the drive to hold. -/
theorem ataReadSectors_fill (hfound : found drive = true) (hcount : 1 ≤ count)
    (hlba : lba.toNat < 2 ^ 28)
    (h : ataReadSectors (ataInit found) disks (UInt8.ofNat drive) lba count polls bus buf = some r)
    (hret : r.ret = true) :
    bufBytes r.buf =
      (fatDisk (diskOf disks drive)).fill lba.toNat count.toNat (bufBytes buf) := by
  have hholds := (ataReadSectors_true hfound hcount h hret).2
  rw [Nat.mod_eq_of_lt hlba] at hholds
  exact hholds.fill

end FlowOS.Ata
