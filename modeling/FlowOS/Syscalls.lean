/-
# System calls (`syscalls.c`)

A program asks for a line of input by `SYS_READ`, with the address of its buffer in `ebx` and the
length in `ecx`.  `sys_read` runs in the kernel and stores wherever the pointer says.  The module
says what a call stores, for every input, and when that stays within the caller's buffer and
within what the caller itself could write.

The characters come from `keyboard_get_char`; a run of the handler is given the characters typed
so far, and waits when it needs more.
-/
import FlowOS.Paging.Run

namespace FlowOS.Syscalls

open Frames Paging

/-! ## 1. The handler -/

/-- `SYS_EXIT`. -/
def sysExit : BitVec 32 := 1

/-- `SYS_READ`. -/
def sysReadNo : BitVec 32 := 3

/-- `SYS_WRITE`. -/
def sysWrite : BitVec 32 := 4

/-- `SYS_EXEC`. -/
def sysExec : BitVec 32 := 11

/-- The registers the handler reads and writes. -/
structure Registers where
  eax : BitVec 32
  ebx : BitVec 32
  ecx : BitVec 32

/-- A byte stored through a pointer of the caller. -/
structure Store where
  addr : BitVec 32
  byte : UInt8
deriving DecidableEq

/-- What is passed to `log_info`; the argument of `SYS_WRITE` is passed on as it is. -/
inductive Message
  | processExited
  | unknownSyscall
  | text (str : BitVec 32)

/-- What `sys_read` has done: its stores, the characters echoed on the screen, and the value it
returned, if it has. -/
structure ReadRun where
  stores : List Store
  echo : List UInt8
  ret : Option (BitVec 32)

/-- The loop of `sys_read`, from index `i` on.  `max_len - 1` is computed, and compared, as a
signed number of 32 bits. -/
def sysReadLoop (buffer maxLen : BitVec 32) : List UInt8 → BitVec 32 → ReadRun
  | keys, i =>
    if i.slt (maxLen - 1) then
      match keys with
      | [] => ⟨[], [], none⟩  -- waiting in `keyboard_get_char`
      | c :: keys =>
        if c = 10 then ⟨[⟨buffer + i, 0⟩], [10], some i⟩
        else if c = 8 then
          if (0 : BitVec 32).slt i then
            let r := sysReadLoop buffer maxLen keys (i - 1)
            { r with echo := 8 :: r.echo }
          else sysReadLoop buffer maxLen keys i
        else
          let r := sysReadLoop buffer maxLen keys (i + 1)
          { r with stores := ⟨buffer + i, c⟩ :: r.stores, echo := c :: r.echo }
    else ⟨[⟨buffer + i, 0⟩], [], some i⟩

/-- `sys_read`. -/
def sysRead (buffer maxLen : BitVec 32) (keys : List UInt8) : ReadRun :=
  sysReadLoop buffer maxLen keys 0

/-- What `syscall_handler` has done; `regs` are the registers it returns with, if it does. -/
structure HandlerRun where
  stores : List Store
  echo : List UInt8
  log : List Message
  regs : Option Registers

/-- `syscall_handler`, for the characters typed; of `elf_exec` only the value it returns. -/
def syscallHandler (elfExec : BitVec 32 → BitVec 32) (regs : Registers) (keys : List UInt8) :
    HandlerRun :=
  if regs.eax = sysExit then ⟨[], [], [.processExited], none⟩
  else if regs.eax = sysReadNo then
    let r := sysRead regs.ebx regs.ecx keys
    ⟨r.stores, r.echo, [], r.ret.map fun ret => { regs with eax := ret }⟩
  else if regs.eax = sysWrite then ⟨[], [], [.text regs.ebx], some { regs with eax := 0 }⟩
  else if regs.eax = sysExec then ⟨[], [], [], some { regs with eax := elfExec regs.ebx }⟩
  else ⟨[], [], [.unknownSyscall], some { regs with eax := -1 }⟩

/-! ## 2. What the caller may write -/

/-- An address of the caller's buffer, whose length is a signed number. -/
def InBuffer (regs : Registers) (a : Nat) : Prop :=
  regs.ebx.toNat ≤ a ∧ (a : Int) < regs.ebx.toNat + max 0 regs.ecx.toInt

/-- A program may write to the page of an address: it is present, writable and a user page, in the
directory and in the table. -/
def MayWrite (pg : Paging) (a : Nat) : Prop :=
  let all := pagePresent ||| pageWrite ||| pageUser
  let pdEntry := word pg.mem pg.currentPdPhys (pdIndex a)
  pdEntry &&& all = all ∧ word pg.mem (frameOf pdEntry) (ptIndex a) &&& all = all

/-- Whatever is typed, the call stores in the caller's buffer and where the caller may write. -/
def Contained (elfExec : BitVec 32 → BitVec 32) (pg : Paging) (regs : Registers) : Prop :=
  ∀ keys, ∀ s ∈ (syscallHandler elfExec regs keys).stores,
    InBuffer regs s.addr.toNat ∧ MayWrite pg s.addr.toNat

/-- The buffer has room for the terminator, does not run over the end of the address space, and
lies in pages of the caller. -/
structure OwnBuffer (pg : Paging) (regs : Registers) : Prop where
  positive : 0 < regs.ecx.toInt
  noWrap : regs.ebx.toNat + regs.ecx.toNat ≤ 2 ^ 32
  pages : ∀ a, regs.ebx.toNat ≤ a → a < regs.ebx.toNat + regs.ecx.toNat → MayWrite pg a

/-! ## 3. The stores of `sys_read` -/

variable {buffer maxLen i : BitVec 32}

theorem toInt_pos_iff : 0 < maxLen.toInt ↔ 0 < maxLen.toNat ∧ maxLen.toNat < 2 ^ 31 := by
  rw [BitVec.toInt_eq_toNat_cond]
  split <;> omega

theorem toNat_add_one (hi : i.toNat < 2 ^ 31) : (i + 1).toNat = i.toNat + 1 := by
  rw [BitVec.toNat_add, show (1 : BitVec 32).toNat = 1 from rfl]
  omega

theorem toNat_sub_one (hi : 0 < i.toNat) : (i - 1).toNat = i.toNat - 1 := by
  rw [BitVec.toNat_sub, show (1 : BitVec 32).toNat = 1 from rfl]
  omega

/-- For numbers below `2 ^ 31` the signed comparison is that of numbers. -/
theorem slt_eq {x y : BitVec 32} (hx : x.toNat < 2 ^ 31) (hy : y.toNat < 2 ^ 31) :
    x.slt y = decide (x.toNat < y.toNat) := by
  rw [BitVec.slt, BitVec.toInt_eq_toNat_of_lt (by omega), BitVec.toInt_eq_toNat_of_lt (by omega)]
  exact decide_eq_decide.mpr Int.ofNat_lt

/-- The condition of the loop, for a positive length. -/
theorem slt_pred (hpos : 0 < maxLen.toInt) (hi : i.toNat < maxLen.toNat) :
    i.slt (maxLen - 1) = decide (i.toNat + 1 < maxLen.toNat) := by
  obtain ⟨h0, h31⟩ := toInt_pos_iff.mp hpos
  have hsub := toNat_sub_one h0
  rw [slt_eq (by omega) (by omega), hsub]
  exact decide_eq_decide.mpr (by omega)

/-- **Every store is at an index below the length.** -/
theorem sysReadLoop_stores (hpos : 0 < maxLen.toInt) (keys : List UInt8)
    (hi : i.toNat < maxLen.toNat) {s : Store} (hs : s ∈ (sysReadLoop buffer maxLen keys i).stores) :
    ∃ j : BitVec 32, j.toNat < maxLen.toNat ∧ s.addr = buffer + j := by
  obtain ⟨-, h31⟩ := toInt_pos_iff.mp hpos
  induction keys generalizing i with
  | nil =>
    rw [sysReadLoop] at hs
    split at hs
    · cases hs
    · obtain rfl := List.mem_singleton.mp hs
      exact ⟨i, hi, rfl⟩
  | cons c keys ih =>
    rw [sysReadLoop, slt_pred hpos hi] at hs
    split at hs
    · rename_i hlt
      have hlt := of_decide_eq_true hlt
      dsimp only at hs
      split at hs
      · obtain rfl := List.mem_singleton.mp hs
        exact ⟨i, hi, rfl⟩
      · split at hs
        · split at hs
          · rename_i hback
            rw [slt_eq (by decide) (by omega)] at hback
            have hpred := toNat_sub_one (of_decide_eq_true hback)
            exact ih (by omega) hs
          · exact ih hi hs
        · rcases List.mem_cons.mp hs with rfl | hs
          · exact ⟨i, hi, rfl⟩
          · have hsucc := toNat_add_one (show i.toNat < 2 ^ 31 by omega)
            exact ih (by omega) hs
    · obtain rfl := List.mem_singleton.mp hs
      exact ⟨i, hi, rfl⟩

/-- A line of `n` letters. -/
def line (n : Nat) : List UInt8 := List.replicate n 97 ++ [10]

/-- **Every index below the length is stored to**, for some input: the terminator of a line. -/
theorem sysReadLoop_line (hpos : 0 < maxLen.toInt) {n : Nat} (hn : i.toNat + n < maxLen.toNat) :
    ⟨buffer + (i + BitVec.ofNat 32 n), 0⟩ ∈ (sysReadLoop buffer maxLen (line n) i).stores := by
  obtain ⟨-, h31⟩ := toInt_pos_iff.mp hpos
  induction n generalizing i with
  | zero =>
    rw [line, List.replicate_zero, List.nil_append, sysReadLoop]
    simp only [BitVec.ofNat_eq_ofNat, BitVec.add_zero, if_true]
    split <;> exact List.mem_singleton_self _
  | succ n ih =>
    have hsucc := toNat_add_one (show i.toNat < 2 ^ 31 by omega)
    have hlt : i.toNat + 1 < maxLen.toNat := by omega
    have hadd : i + BitVec.ofNat 32 (n + 1) = i + 1 + BitVec.ofNat 32 n := by
      rw [BitVec.ofNat_add, BitVec.add_assoc, BitVec.add_comm (BitVec.ofNat 32 n)]
      rfl
    rw [line, List.replicate_succ, List.cons_append, sysReadLoop, slt_pred hpos (by omega),
      if_pos (decide_eq_true hlt), if_neg (by decide), if_neg (by decide), hadd]
    exact List.mem_cons_of_mem _ (ih (by omega))

/-- Without a positive length the first byte of the buffer is stored to all the same. -/
theorem sysRead_nonpos (buffer maxLen : BitVec 32) :
    ⟨buffer, 0⟩ ∈ (sysRead buffer maxLen [10]).stores := by
  have hzero : buffer + 0 = buffer := BitVec.add_zero buffer
  rw [sysRead, sysReadLoop, hzero]
  simp only [if_true]
  split <;> exact List.mem_singleton_self _

/-! ## 4. When the stores are contained -/

theorem syscallHandler_read {elfExec : BitVec 32 → BitVec 32} {regs : Registers}
    (hread : regs.eax = sysReadNo) (keys : List UInt8) :
    (syscallHandler elfExec regs keys).stores = (sysRead regs.ebx regs.ecx keys).stores := by
  rw [syscallHandler, hread, if_neg (by decide), if_pos rfl]

/-- **`SYS_READ` stays in the caller's memory** exactly when the length is positive and the buffer
lies in pages the caller may write. -/
theorem read_contained_iff (elfExec : BitVec 32 → BitVec 32) (pg : Paging) (regs : Registers)
    (hread : regs.eax = sysReadNo) : Contained elfExec pg regs ↔ OwnBuffer pg regs := by
  constructor
  · intro h
    have hpos : 0 < regs.ecx.toInt := by
      have hstore : ⟨regs.ebx, 0⟩ ∈ (syscallHandler elfExec regs [10]).stores := by
        rw [syscallHandler_read hread]
        exact sysRead_nonpos regs.ebx regs.ecx
      obtain ⟨⟨-, hlt⟩, -⟩ := h [10] _ hstore
      dsimp only at hlt
      omega
    obtain ⟨h0, h31⟩ := toInt_pos_iff.mp hpos
    -- the terminator of a line of `n` letters
    have hline : ∀ n < regs.ecx.toNat, ∀ a, a = (regs.ebx.toNat + n) % 2 ^ 32 →
        InBuffer regs a ∧ MayWrite pg a := by
      intro n hn a ha
      have hstore := @sysReadLoop_line regs.ebx regs.ecx 0 hpos n (by simpa using hn)
      have hcontained := h (line n) _ (by rw [syscallHandler_read hread]; exact hstore)
      have haddr : (regs.ebx + (0 + BitVec.ofNat 32 n)).toNat = a := by
        rw [ha, BitVec.toNat_add, BitVec.toNat_add, BitVec.toNat_ofNat]
        simp
      rw [← haddr]
      exact hcontained
    -- an index that wraps round to address 0 is outside the buffer
    have hwrap : regs.ebx.toNat + regs.ecx.toNat ≤ 2 ^ 32 := by
      by_contra hwrap
      have := regs.ebx.isLt
      obtain ⟨⟨hlow, -⟩, -⟩ := hline (2 ^ 32 - regs.ebx.toNat) (by omega) 0 (by omega)
      omega
    exact ⟨hpos, hwrap, fun a hlo hhi => (hline (a - regs.ebx.toNat) (by omega) a (by omega)).2⟩
  · rintro ⟨hpos, hwrap, hpages⟩ keys s hs
    rw [syscallHandler_read hread] at hs
    obtain ⟨h0, h31⟩ := toInt_pos_iff.mp hpos
    obtain ⟨j, hj, haddr⟩ :=
      sysReadLoop_stores hpos keys (show (0 : BitVec 32).toNat < _ from h0) hs
    have htoNat : s.addr.toNat = regs.ebx.toNat + j.toNat := by
      rw [haddr, BitVec.toNat_add, Nat.mod_eq_of_lt (by omega)]
    have htoInt : regs.ecx.toInt = regs.ecx.toNat := BitVec.toInt_eq_toNat_of_lt (by omega)
    rw [htoNat]
    exact ⟨⟨by omega, by omega⟩, hpages _ (by omega) (by omega)⟩

/-- A directory at 0x1000 and a table at 0x2000, with one user page at 0x40000000. -/
def userPaging : Paging :=
  ⟨setWord (setWord (fun _ => 0) 0x1000 256 0x2007) 0x2000 0 0x3007, 0x1000, 0x1000⟩

/-- A buffer of 16 bytes in that page is filled without harm. -/
theorem read_contained_iff_user : Contained (fun _ => 0) userPaging ⟨3, 0x40000000, 16⟩ := by
  refine (read_contained_iff (fun _ => 0) userPaging ⟨3, 0x40000000, 16⟩ rfl).mpr
    ⟨by decide, by decide, fun a hlo hhi => ?_⟩
  have hlo : 0x40000000 ≤ a := hlo
  have hhi : a < 0x40000000 + 16 := hhi
  have hpd : pdIndex a = 256 := by
    rw [pdIndex_eq]
    omega
  have hpt : ptIndex a = 0 := by
    rw [ptIndex_eq]
    omega
  rw [MayWrite, hpd, hpt]
  decide +kernel

/-- The pages of the identity map are the kernel's: the directory entries lack the user flag. -/
theorem not_mayWrite_identity (img : Image) (mem : Mem) {a : Nat} (ha : a < 2 ^ 30) :
    ¬ MayWrite (pagingInit img mem) a := by
  have hi : pdIndex a < 256 := by
    rw [pdIndex_eq]
    omega
  rintro ⟨hdir, -⟩
  have hentry := word_pagingInit img mem (show pdIndex a < 1024 by omega)
  rw [if_pos hi] at hentry
  rw [show (pagingInit img mem).currentPdPhys = img.kernelPd from rfl, hentry,
    show pagePresent ||| pageWrite ||| pageUser = 2 ^ 3 - 1 from rfl,
    Nat.and_two_pow_sub_one_eq_mod] at hdir
  have halign := img.table_aligned (pdIndex a)
  omega

/-- **Outside the buffer and in the kernel.**  A length of 0 stores a terminator behind the empty
buffer, and a pointer to the kernel's own memory is stored through. -/
theorem read_escapes :
    (∃ s ∈ (syscallHandler (fun _ => 0) ⟨3, 0x40000000, 0⟩ []).stores,
      ¬ InBuffer ⟨3, 0x40000000, 0⟩ s.addr.toNat) ∧
    ∃ s ∈ (syscallHandler (fun _ => 0) ⟨3, 0x100000, 16⟩ [10]).stores,
      ¬ MayWrite (pagingInit smallImage fun _ => 0) s.addr.toNat :=
  ⟨⟨⟨0x40000000, 0⟩, by decide, fun h => absurd h.2 (by decide)⟩,
    ⟨0x100000, 0⟩, by decide, not_mayWrite_identity smallImage (fun _ => 0) (by decide)⟩

end FlowOS.Syscalls
