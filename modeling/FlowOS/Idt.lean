/-
# Interrupts (`idt.c`, and the start of the drivers that use it)

From a line that a device raises to the C function that serves it there are five steps: the chips
choose a vector, the processor takes the gate of the vector, the gate leads to a stub of `isr.asm`,
the stub passes the number to `irq_handler`, and that one announces the end of the service, before
it calls what has been registered for the number.

Two questions are settled here.  What can be in service when interrupts are on: nothing, in any
interleaving of the devices with the kernel (`irq_never_blocked`), because the announcement is made
while they are off.  That no line is mistaken for another one on its way is `irq_dispatched`.  The
other direction, a program that asks for a vector itself, is `user_int`.
-/
import FlowOS.Lib.Descriptor
import FlowOS.Lib.Loop
import FlowOS.Pic
import FlowOS.Process.Frame
import FlowOS.Vga

namespace FlowOS.Idt

open I8259 X86 Pic Vga

/-! ## 1. The tables -/

/-- The stubs of `isr.asm`. -/
inductive Stub
  | isr (n : Fin 32)
  | isr128
  | irq (l : Fin 16)
  deriving DecidableEq

/-- The number that a stub pushes. -/
def Stub.vector : Stub → Nat
  | .isr n => n
  | .isr128 => 128
  | .irq l => 32 + l

/-- Where the linker has put the stubs. -/
structure Image where
  addr : Stub → UInt32
  inj : Function.Injective addr

/-- The functions that are registered. -/
inductive Handler
  | timerCallback
  | keyboardCallback
  | pageFaultHandler
  | syscallHandler
  deriving DecidableEq

/-- `idt`, `interrupt_handlers`, and the chips. -/
structure State where
  idt : UInt8 → Gate
  interruptHandlers : UInt8 → Option Handler
  pics : Pair

/-- `idt_set_gate`, the entry it writes. -/
def gateOf (base : UInt32) (sel : UInt16) (flags : UInt8) : Gate :=
  ⟨(base &&& 0xFFFF).toUInt16, sel, 0, flags, ((base >>> 16) &&& 0xFFFF).toUInt16⟩

/-- `idt_set_gate`. -/
def idtSetGate (s : State) (num : UInt8) (base : UInt32) (sel : UInt16) (flags : UInt8) : State :=
  { s with idt := Function.update s.idt num (gateOf base sel flags) }

/-- `register_interrupt_handler`. -/
def registerInterruptHandler (s : State) (n : UInt8) (handler : Option Handler) : State :=
  { s with interruptHandlers := Function.update s.interruptHandlers n handler }

/-- `idt_init`. -/
def idtInit (image : Image) (s : State) : State :=
  let s := (List.range 256).foldl (fun s i =>
    registerInterruptHandler (idtSetGate s (UInt8.ofNat i) 0 0 0) (UInt8.ofNat i) none) s
  let s := { s with pics := picRemap 0x20 0x28 s.pics }
  let s := (List.finRange 32).foldl (fun s (n : Fin 32) =>
    idtSetGate s (UInt8.ofNat n) (image.addr (.isr n)) 0x08 0x8E) s
  (List.finRange 16).foldl (fun s (l : Fin 16) =>
    idtSetGate s (UInt8.ofNat (32 + l)) (image.addr (.irq l)) 0x08 0x8E) s

/-- `timer_init`; the ports of the timer chip are none of those of the interrupt controllers. -/
def timerInit (s : State) (frequency : UInt32) : State :=
  let s := registerInterruptHandler s 32 (some .timerCallback)
  let divisor := 1193180 / frequency
  let pics := s.pics.outb 0x43 0x36
  let pics := pics.outb 0x40 (divisor &&& 0xFF).toUInt8
  let pics := pics.outb 0x40 ((divisor >>> 8) &&& 0xFF).toUInt8
  { s with pics := picClearMask 0 pics }

/-- `keyboard_init`. -/
def keyboardInit (s : State) : State :=
  let s := registerInterruptHandler s 33 (some .keyboardCallback)
  { s with pics := picClearMask 1 s.pics }

/-- `syscall_init`. -/
def syscallInit (image : Image) (s : State) : State :=
  let s := registerInterruptHandler s 0x80 (some .syscallHandler)
  idtSetGate s 0x80 (image.addr .isr128) 0x08 0xEE

/-- What `kmain` does to the tables and the chips, up to `sti`. -/
def bootInterrupts (image : Image) (s : State) : State :=
  let s := idtInit image s
  let s := { s with pics := picRemap 0x20 0x28 s.pics }
  let s := registerInterruptHandler s 14 (some .pageFaultHandler)  -- paging_init
  let s := timerInit s 100
  let s := keyboardInit s
  syscallInit image s

/-! ## 2. The handlers -/

/-- `interrupt_handlers[int_no]`; `none` outside of the array. -/
def handlerAt (s : State) (intNo : UInt32) : Option (Option Handler) :=
  if intNo < 256 then some (s.interruptHandlers intNo.toUInt8) else none

/-- What a handler does next. -/
inductive Act
  | out (port : UInt16) (v : UInt8)
  | call (h : Handler)
  deriving DecidableEq

/-- `irq_handler`. -/
def irqHandler (s : State) (intNo : UInt32) : Option (List Act) :=
  let eoi := if 40 ≤ intNo then picSendEoi (intNo - 32).toUInt8 else picSendEoi (intNo - 32).toUInt8
  (handlerAt s intNo).map fun h => eoi.map (fun w => .out w.1 w.2) ++ h.toList.map .call

/-- `"CRITICAL EXCEPTION: "`. -/
def crashMessage : List UInt8 :=
  [67, 82, 73, 84, 73, 67, 65, 76, 32, 69, 88, 67, 69, 80, 84, 73, 79, 78, 58, 32]

/-- The digits that `isr_handler` makes of a number. -/
def crashDigits (n : UInt32) : List UInt8 :=
  if 10 ≤ n then [48 + (n / 10).toUInt8, 48 + (n % 10).toUInt8] else [48 + n.toUInt8]

/-- The crash screen of `isr_handler`: white on red. -/
def crashScreen (s : Screen) (n : UInt32) : Screen :=
  let s := putCells 0x4F s 0 (List.replicate 2000 0x20)
  let s := putCells 0x4F s 0 crashMessage
  putCells 0x4F s crashMessage.length (crashDigits n)

/-- How `isr_handler` ends. -/
inductive Outcome
  | called (h : Handler)
  | halted (s : Screen)
  | returned

/-- `isr_handler`. -/
def isrHandler (s : State) (intNo : UInt32) (screen : Screen) : Option Outcome :=
  (handlerAt s intNo).map fun
    | some h => .called h
    | none => if intNo < 32 then .halted (crashScreen screen intNo) else .returned

/-! ## 3. What the tables hold -/

/-- **Encoding and decoding**: the address of a gate is the one that was written to it. -/
theorem gateOf_offset (base : UInt32) (sel : UInt16) (flags : UInt8) :
    (gateOf base sel flags).offset = base := by
  have hlow : (base &&& 0xFFFF).toNat = base.toNat % 2 ^ 16 := by
    rw [UInt32.toNat_and]
    exact Nat.and_two_pow_sub_one_eq_mod base.toNat 16
  have hhigh : ((base >>> 16) &&& 0xFFFF).toNat = base.toNat / 2 ^ 16 % 2 ^ 16 := by
    rw [UInt32.toNat_and, UInt32.toNat_shiftRight, Nat.shiftRight_eq_div_pow]
    exact Nat.and_two_pow_sub_one_eq_mod _ 16
  have hlt := base.toNat_lt
  refine UInt32.toNat_inj.mp ?_
  unfold gateOf Gate.offset
  rw [UInt32.toNat_ofNat', UInt32.toNat_toUInt16, UInt32.toNat_toUInt16, hlow, hhigh]
  omega

/-- A gate for the kernel, taken by the hardware. -/
theorem entry_kernel (base : UInt32) (cpl : Nat) :
    (gateOf base 0x08 0x8E).entry false cpl = .enter 0x08 base true := by
  have hkind : (gateOf base 0x08 0x8E).kind = 14 := (by decide : (0x8E : UInt8).toNat % 32 = 14)
  have hpresent : (gateOf base 0x08 0x8E).present = true :=
    (by decide : (0x8E : UInt8).toNat.testBit 7 = true)
  rw [Gate.entry_enter hkind hpresent fun h => absurd h Bool.false_ne_true, gateOf_offset]
  rfl

/-- The gates after the start. -/
def gateTable (image : Image) (v : UInt8) : Gate :=
  if h : v.toNat < 32 then gateOf (image.addr (.isr ⟨v.toNat, h⟩)) 0x08 0x8E
  else if h : v.toNat - 32 < 16 then gateOf (image.addr (.irq ⟨v.toNat - 32, h⟩)) 0x08 0x8E
  else if v = 0x80 then gateOf (image.addr .isr128) 0x08 0xEE
  else gateOf 0 0 0

/-- The functions that are registered after the start. -/
def handlerTable (v : UInt8) : Option Handler :=
  if v = 14 then some .pageFaultHandler
  else if v = 32 then some .timerCallback
  else if v = 33 then some .keyboardCallback
  else if v = 0x80 then some .syscallHandler
  else none

theorem foldl_setGate {ι : Type} (key : ι → UInt8) (base : ι → UInt32) (sel : UInt16)
    (flags : UInt8) (l : List ι) (s : State) :
    l.foldl (fun s i => idtSetGate s (key i) (base i) sel flags) s =
      { s with idt := Loop.fill key (fun i => gateOf (base i) sel flags) s.idt l } := by
  induction l generalizing s with
  | nil => rfl
  | cons i l ih => exact ih (idtSetGate s (key i) (base i) sel flags)

theorem foldl_clear (l : List Nat) (s : State) :
    l.foldl (fun s i =>
      registerInterruptHandler (idtSetGate s (UInt8.ofNat i) 0 0 0) (UInt8.ofNat i) none) s =
      { s with
        idt := Loop.fill UInt8.ofNat (fun _ => gateOf 0 0 0) s.idt l
        interruptHandlers := Loop.fill UInt8.ofNat (fun _ => none) s.interruptHandlers l } := by
  induction l generalizing s with
  | nil => rfl
  | cons i l ih => exact ih _

theorem clear_all {β : Type} (c : β) (g : UInt8 → β) :
    Loop.fill UInt8.ofNat (fun _ => c) g (List.range 256) = fun _ => c := by
  funext v
  have hmem : v.toNat ∈ List.range 256 := List.mem_range.mpr v.toNat_lt
  have hfill := @Loop.fill_at β ℕ UInt8 _ UInt8.ofNat (fun _ => c) g _ _ hmem fun _ _ _ => rfl
  rwa [UInt8.ofNat_toNat] at hfill

theorem ofNat_inj {i j : Nat} (hi : i < 256) (hj : j < 256) (h : UInt8.ofNat i = UInt8.ofNat j) :
    i = j := by
  have h' := congrArg UInt8.toNat h
  rwa [UInt8.toNat_ofNat_of_lt' hi, UInt8.toNat_ofNat_of_lt' hj] at h'

/-- A block of gates, from the vector `a` on. -/
theorem fill_block {n a : Nat} (hn : a + n ≤ 256) (val : Fin n → Gate) (g : UInt8 → Gate)
    (v : UInt8) :
    Loop.fill (fun i : Fin n => UInt8.ofNat (a + i)) val g (List.finRange n) v =
      if h : a ≤ v.toNat ∧ v.toNat - a < n then val ⟨v.toNat - a, h.2⟩ else g v := by
  have hinj : ∀ i j : Fin n, UInt8.ofNat (a + i) = UInt8.ofNat (a + j) → i = j := by
    intro i j hij
    have := ofNat_inj (by omega) (by omega) hij
    exact Fin.ext (by omega)
  split
  · rename_i h
    have hv : v = UInt8.ofNat (a + (⟨v.toNat - a, h.2⟩ : Fin n)) := by
      rw [show a + ((⟨v.toNat - a, h.2⟩ : Fin n) : Nat) = v.toNat from Nat.add_sub_cancel' h.1,
        UInt8.ofNat_toNat]
    conv_lhs => rw [hv]
    exact Loop.fill_at g (List.mem_finRange _) fun j _ hj => by rw [hinj _ _ hj]
  · rename_i h
    refine Loop.fill_other val g fun i _ hi => h ?_
    have hlt : a + i.val < 256 := by omega
    rw [← hi, UInt8.toNat_ofNat_of_lt' hlt]
    omega

/-- `idt_init` fills the first 48 gates and clears the others. -/
theorem idtInit_eq (image : Image) (s : State) :
    idtInit image s =
      ⟨fun v => if v = 0x80 then gateOf 0 0 0 else gateTable image v, fun _ => none,
        picRemap 0x20 0x28 s.pics⟩ := by
  have hisr : ∀ g : UInt8 → Gate, Loop.fill (fun n : Fin 32 => UInt8.ofNat n)
      (fun n => gateOf (image.addr (.isr n)) 0x08 0x8E) g (List.finRange 32) =
        fun v => if h : v.toNat < 32 then gateOf (image.addr (.isr ⟨v.toNat, h⟩)) 0x08 0x8E
          else g v := by
    intro g
    funext v
    have hblock := fill_block (n := 32) (a := 0) (by decide)
      (fun n => gateOf (image.addr (.isr n)) 0x08 0x8E) g v
    simpa using hblock
  unfold idtInit
  simp only [foldl_clear, foldl_setGate, clear_all, hisr]
  congr 1
  funext v
  rw [fill_block (by decide)]
  have hv : v = 0x80 ↔ v.toNat = 128 := by
    rw [← UInt8.toNat_inj]
    rfl
  unfold gateTable
  simp only [hv]
  by_cases h32 : v.toNat < 32
  · have hne : ¬ v.toNat = 128 := by omega
    have hblock : ¬ (32 ≤ v.toNat ∧ v.toNat - 32 < 16) := by omega
    rw [dif_neg hblock, dif_pos h32, if_neg hne, dif_pos h32]
  · by_cases h48 : v.toNat - 32 < 16
    · have hne : ¬ v.toNat = 128 := by omega
      have hblock : 32 ≤ v.toNat ∧ v.toNat - 32 < 16 := by omega
      rw [dif_pos hblock, if_neg hne, dif_neg h32, dif_pos h48]
    · have hblock : ¬ (32 ≤ v.toNat ∧ v.toNat - 32 < 16) := by omega
      rw [dif_neg hblock, dif_neg h32, dif_neg h32, dif_neg h48]
      split <;> rfl

variable (image : Image) (s : State)

/-- **The gates after the start.** -/
theorem bootInterrupts_idt : (bootInterrupts image s).idt = gateTable image := by
  have hboot : (bootInterrupts image s).idt =
      Function.update (idtInit image s).idt 0x80 (gateOf (image.addr .isr128) 0x08 0xEE) := rfl
  rw [hboot, idtInit_eq]
  funext v
  by_cases hv : v = 0x80
  · rw [hv, Function.update_self]
    rfl
  · rw [Function.update_of_ne hv]
    exact if_neg hv

/-- **The functions that are registered.** -/
theorem bootInterrupts_handlers : (bootInterrupts image s).interruptHandlers = handlerTable := by
  have hboot : (bootInterrupts image s).interruptHandlers =
      Function.update (Function.update (Function.update (Function.update
        (idtInit image s).interruptHandlers 14 (some .pageFaultHandler))
        32 (some .timerCallback)) 33 (some .keyboardCallback)) 0x80 (some .syscallHandler) := rfl
  rw [hboot, idtInit_eq]
  funext v
  unfold handlerTable
  simp only [Function.update_apply]
  by_cases h14 : v = 14
  · subst h14
    rfl
  · by_cases h32 : v = 32
    · subst h32
      rfl
    · by_cases h33 : v = 33
      · subst h33
        rfl
      · simp [h14, h32, h33]

theorem register_pics (n : UInt8) (h : Option Handler) :
    (registerInterruptHandler s n h).pics = s.pics := rfl

theorem syscallInit_pics : (syscallInit image s).pics = s.pics := rfl

theorem timerInit_pics (frequency : UInt32) :
    (timerInit s frequency).pics = picClearMask (UInt8.ofNat (0 : Fin 16)) s.pics := rfl

theorem keyboardInit_pics :
    (keyboardInit s).pics = picClearMask (UInt8.ofNat (1 : Fin 16)) s.pics := rfl

/-- **The chips after the start**: the vectors follow each other from 32 on, and of the lines that
the firmware has closed, the two of the drivers are open. -/
theorem bootInterrupts_pics :
    (bootInterrupts image s).pics.Running 0x20 0x28 ∧ (bootInterrupts image s).pics.Quiet ∧
      ∀ k, lineMasked (bootInterrupts image s).pics k =
        (lineMasked s.pics k && !decide (k = 0) && !decide (k = 1)) := by
  obtain ⟨hrun₁, hquiet₁, hm₁, hs₁⟩ := picRemap_running 0x20 0x28 (idtInit image s).pics
  generalize hp : picRemap 0x20 0x28 (idtInit image s).pics = p at hrun₁ hquiet₁ hm₁ hs₁
  have hmasks : ∀ k, lineMasked p k = lineMasked s.pics k := by
    obtain ⟨-, -, hm, hs⟩ := picRemap_running 0x20 0x28 s.pics
    have hidt : (idtInit image s).pics = picRemap 0x20 0x28 s.pics := by rw [idtInit_eq]
    rw [hidt] at hm₁ hs₁
    intro k
    unfold lineMasked Chip.masked
    rw [hm₁, hs₁, hm, hs]
  have hboot : (bootInterrupts image s).pics =
      picClearMask (UInt8.ofNat (1 : Fin 16)) (picClearMask (UInt8.ofNat (0 : Fin 16)) p) := by
    simp only [bootInterrupts, syscallInit_pics, keyboardInit_pics, timerInit_pics, register_pics,
      hp]
  obtain ⟨m₁, m₂, heq, h0⟩ := picClearMask_masks hrun₁ 0
  have hrun₂ := withMasks_running hrun₁ m₁ m₂
  obtain ⟨n₁, n₂, heq', h1⟩ := picClearMask_masks hrun₂ 1
  rw [hboot, heq, heq']
  refine ⟨withMasks_running hrun₂ n₁ n₂, hquiet₁, fun k => ?_⟩
  rw [h1, h0, hmasks]

/-! ## 4. From the line to the handler -/

/-- The stubs. -/
def stubs : List Stub := (List.finRange 32).map .isr ++ .isr128 :: (List.finRange 16).map .irq

/-- The stub at an address. -/
def Image.stubAt (image : Image) (a : UInt32) : Option Stub :=
  stubs.find? fun st => image.addr st = a

theorem mem_stubs (st : Stub) : st ∈ stubs := by
  cases st with
  | isr n => simp [stubs]
  | isr128 => simp [stubs]
  | irq l => simp [stubs]

theorem Image.stubAt_addr (image : Image) (st : Stub) : image.stubAt (image.addr st) = some st := by
  have hfound : (image.stubAt (image.addr st)).isSome = true :=
    List.find?_isSome.mpr ⟨st, mem_stubs st, by simp⟩
  obtain ⟨st', hst'⟩ := Option.isSome_iff_exists.mp hfound
  have haddr := List.find?_some hst'
  rw [hst', image.inj (of_decide_eq_true haddr)]

/-- **The number in the struct that a handler gets is the one of the stub**, whatever has been
interrupted: the frame of `isr.asm` and the struct of `idt.h` agree. -/
theorem Stub.intNo_eq (st : Stub) (tss : Tss) (flags err : UInt32) (cpu : SegState) :
    ∃ code, Process.stub st.vector = some code ∧
      let now := Process.atHandler tss flags err st.vector code cpu
      (Process.Registers.of now.state.2 (Process.argument now)).intNo = UInt32.ofNat st.vector := by
  have hcode : (Process.stub st.vector).isSome = true := by
    cases st with
    | isr n =>
      revert n
      decide
    | isr128 => rfl
    | irq l =>
      revert l
      decide
  obtain ⟨code, hcode⟩ := Option.isSome_iff_exists.mp hcode
  obtain ⟨-, -, sp, rest, hwords⟩ := Process.atHandler_words hcode
  exact ⟨code, hcode, (Process.Registers.of_words hwords).1.intNo⟩

/-- The machine: the kernel's tables and the chips, the interrupt flag, and what `irq_handler` has
still to do before it returns or calls. -/
structure Machine where
  kernel : State
  iflag : Bool
  todo : List Act

/-- The processor takes an interrupt: vector, gate, stub, `irq_handler`.  `none` if there is no
vector, no gate or no stub of a line, or if the handler looks outside of its array. -/
def Machine.accept (image : Image) (cpl : Nat) (m : Machine) : Option Machine :=
  match m.kernel.pics.inta with
  | (none, _) => none
  | (some v, pics) =>
    match deliver m.kernel.idt v false cpl with
    | none => none
    | some (_, _, offset, off) =>
      match image.stubAt offset with
      | some (.irq l) =>
        (irqHandler m.kernel (UInt32.ofNat (Stub.irq l).vector)).map fun todo =>
          ⟨{ m.kernel with pics := pics }, m.iflag && !off, todo⟩
      | _ => none

/-- The machine with other chips. -/
def Machine.withPics (m : Machine) (pics : Pair) : Machine :=
  { m with kernel := { m.kernel with pics := pics } }

/-- **What can happen**: a device changes the requests at any time.  The processor takes an
interrupt when interrupts are on.  Otherwise it goes on with `irq_handler`, or, when that has
nothing left to do, with anything: the body of a handler, a return, another process; such code may
turn interrupts on or off and open or close lines. -/
inductive Step (image : Image) : Machine → Machine → Prop
  | lines (m : Machine) (irr₁ irr₂ : Fin 8 → Bool) :
      Step image m (m.withPics ⟨{ m.kernel.pics.master with irr := irr₁ },
        { m.kernel.pics.slave with irr := irr₂ }⟩)
  | accept {m m' : Machine} (cpl : Nat) (hif : m.iflag = true) (h : m.accept image cpl = some m') :
      Step image m m'
  | out {m : Machine} {port : UInt16} {v : UInt8} {acts : List Act}
      (h : m.todo = .out port v :: acts) :
      Step image m { m.withPics (m.kernel.pics.outb port v) with todo := acts }
  | call {m : Machine} {f : Handler} {acts : List Act} (h : m.todo = .call f :: acts) :
      Step image m { m with todo := acts }
  | flag {m : Machine} (h : m.todo = []) (iflag : Bool) : Step image m { m with iflag := iflag }
  | setMask {m : Machine} (h : m.todo = []) (irq : Fin 16) :
      Step image m (m.withPics (picSetMask (UInt8.ofNat irq) m.kernel.pics))
  | clearMask {m : Machine} (h : m.todo = []) (irq : Fin 16) :
      Step image m (m.withPics (picClearMask (UInt8.ofNat irq) m.kernel.pics))

/-- The chips when what is left to do has been done. -/
def Machine.settled (m : Machine) : Pair :=
  m.todo.foldl (fun p a =>
    match a with
    | .out port v => p.outb port v
    | .call _ => p) m.kernel.pics

/-- What is left to do is announcements, and a call after them. -/
inductive Winding : List Act → Prop
  | none : Winding []
  | call (f : Handler) : Winding [.call f]
  | eoi {port : UInt16} {acts : List Act} (hport : port = pic1Command ∨ port = pic2Command)
      (h : Winding acts) : Winding (.out port picEoi :: acts)

/-- **The invariant**: the tables are those of the start, the chips are in use, and when what is
left to do has been done nothing is in service.  Interrupts stay off until then. -/
structure Machine.Ok (image : Image) (m : Machine) : Prop where
  idt : m.kernel.idt = gateTable image
  handlers : m.kernel.interruptHandlers = handlerTable
  running : m.kernel.pics.Running 0x20 0x28
  winding : Winding m.todo
  settled : m.settled.Quiet
  off : m.todo ≠ [] → m.iflag = false

/-- What `irq_handler` does for a line. -/
def serviceOf (k : Fin 16) : List Act :=
  (if 8 ≤ k then [.out pic2Command picEoi] else []) ++ [.out pic1Command picEoi] ++
    (if k = 0 then [.call .timerCallback] else if k = 1 then [.call .keyboardCallback] else [])

theorem serviceOf_eq : ∀ k, serviceOf k =
    (picSendEoi (UInt8.ofNat k)).map (fun w => .out w.1 w.2) ++
      (if k = 0 then [.call .timerCallback] else if k = 1 then [.call .keyboardCallback]
        else []) := by
  decide

/-- Why a line is served: it is the most urgent one that asks, through the second chip or not, or
nothing has asked when a chip had to answer. -/
inductive Cause (p : Pair) : Fin 16 → Prop
  | master (l : Fin 8) (hl : l ≠ 2) (h : p.master.Urgent l) : Cause p ⟨l, by omega⟩
  | slave (l : Fin 8) (h2 : p.master.Urgent 2) (h : p.slave.Urgent l) : Cause p ⟨8 + l, by omega⟩
  | spurious (h : ∀ l, ¬ p.master.Asks l) : Cause p 7
  | spuriousSlave (h2 : p.master.Urgent 2) (h : ∀ l, ¬ p.slave.Asks l) : Cause p 15

section Machine

variable {image} {m m' : Machine} {cpl : Nat}

theorem irqHandler_line {s : State} (hs : s.interruptHandlers = handlerTable) (k : Fin 16) :
    irqHandler s (UInt32.ofNat (Stub.irq k).vector) = some (serviceOf k) := by
  unfold irqHandler handlerAt
  rw [hs]
  revert k
  decide

/-- The gate of a line leads to its stub, with interrupts off. -/
theorem deliver_line (k : Fin 16) (cpl : Nat) :
    deliver (gateTable image) (UInt8.ofNat (32 + k)) false cpl =
      some (UInt8.ofNat (32 + k), 0x08, image.addr (.irq k), true) := by
  have hv : (UInt8.ofNat (32 + k.val)).toNat = 32 + k.val :=
    UInt8.toNat_ofNat_of_lt' (show 32 + k.val < 256 by omega)
  have hgate : gateTable image (UInt8.ofNat (32 + k)) = gateOf (image.addr (.irq k)) 0x08 0x8E := by
    unfold gateTable
    rw [dif_neg (by omega), dif_pos (by omega)]
    congr 3
    exact Fin.ext (by dsimp only; omega)
  exact deliver_enter (by rw [hgate, entry_kernel])

/-- The chips name the line: the processor gets to `irq_handler` with its number. -/
theorem accept_line (h : m.Ok image) {k : Fin 16} {pics : Pair}
    (hinta : m.kernel.pics.inta = (some (UInt8.ofNat (32 + k)), pics)) :
    m.accept image cpl = some ⟨{ m.kernel with pics := pics }, false, serviceOf k⟩ := by
  unfold Machine.accept
  rw [hinta]
  dsimp only
  rw [h.idt, deliver_line]
  dsimp only
  rw [image.stubAt_addr]
  dsimp only
  rw [irqHandler_line h.handlers, Option.map_some, Bool.not_true, Bool.and_false]

theorem Machine.Ok.todo_nil (h : m.Ok image) (hif : m.iflag = true) : m.todo = [] := by
  by_contra hne
  rw [h.off hne] at hif
  cases hif

/-- **When interrupts are on, nothing is in service.** -/
theorem Machine.Ok.quiet (h : m.Ok image) (hif : m.iflag = true) : m.kernel.pics.Quiet := by
  have hs := h.settled
  rwa [Machine.settled, h.todo_nil hif] at hs

/-- **The way from the chips to the handler**, and how the service will end. -/
theorem Machine.Ok.accept (h : m.Ok image) (hif : m.iflag = true) (cpl : Nat) :
    ∃ k pics, m.accept image cpl = some ⟨{ m.kernel with pics := pics }, false, serviceOf k⟩ ∧
      Cause m.kernel.pics k ∧ pics.Running 0x20 0x28 ∧
      (Machine.mk { m.kernel with pics := pics } false (serviceOf k)).settled.Quiet := by
  obtain ⟨hq₁, hq₂⟩ := h.quiet hif
  have hack := h.running.inta
  generalize hinta : m.kernel.pics.inta = r at hack
  have hrun := h.running
  have hends : ∀ (k : Fin 16) (pics : Pair),
      (Machine.mk { m.kernel with pics := pics } false (serviceOf k)).settled =
        ⟨pics.master.eoi, if 8 ≤ k then pics.slave.eoi else pics.slave⟩ := by
    intro k pics
    unfold Machine.settled serviceOf
    by_cases h8 : 8 ≤ k
    · rw [if_pos h8, if_pos h8]
      split
      · rfl
      · split <;> rfl
    · rw [if_neg h8, if_neg h8]
      split
      · rfl
      · split <;> rfl
  cases hack with
  | @master l hl hreq =>
    have hvec : (0x20 : UInt8) + UInt8.ofNat l =
        UInt8.ofNat (32 + (⟨l, by omega⟩ : Fin 16).val) := by
      rw [UInt8.ofNat_add]
      rfl
    rw [hvec] at hinta
    have h8 : ¬ (8 : Fin 16) ≤ ⟨l, by omega⟩ := by
      rw [Fin.le_def]
      exact Nat.not_le.mpr l.isLt
    refine ⟨_, _, accept_line h hinta, .master l hl (hq₁.urgent hreq),
      ⟨hrun.master.serve l, hrun.slave⟩, ?_⟩
    rw [hends, if_neg h8]
    exact ⟨hq₁.eoi_serve l, hq₂⟩
  | spurious hreq =>
    refine ⟨7, _, accept_line h hinta, .spurious (hq₁.asks_none hreq), hrun, ?_⟩
    rw [hends, hq₁.eoi]
    exact ⟨hq₁, hq₂⟩
  | @slave l hreq hk =>
    have hvec : (0x28 : UInt8) + UInt8.ofNat l =
        UInt8.ofNat (32 + (⟨8 + l, by omega⟩ : Fin 16).val) := by
      rw [UInt8.ofNat_add, UInt8.ofNat_add, ← UInt8.add_assoc]
      rfl
    rw [hvec] at hinta
    have h8 : (8 : Fin 16) ≤ ⟨8 + l, by omega⟩ := by
      rw [Fin.le_def]
      exact Nat.le_add_right 8 l
    refine ⟨_, _, accept_line h hinta, .slave l (hq₁.urgent hreq) (hq₂.urgent hk),
      ⟨hrun.master.serve 2, hrun.slave.serve l⟩, ?_⟩
    rw [hends, if_pos h8]
    exact ⟨hq₁.eoi_serve 2, hq₂.eoi_serve l⟩
  | spuriousSlave hreq hk =>
    refine ⟨15, _, accept_line h hinta, .spuriousSlave (hq₁.urgent hreq) (hq₂.asks_none hk),
      ⟨hrun.master.serve 2, hrun.slave⟩, ?_⟩
    rw [hends, if_pos (by decide), hq₂.eoi]
    exact ⟨hq₁.eoi_serve 2, hq₂⟩

/-- The chips after the announcements depend on the services alone. -/
theorem Winding.settled_isr {acts : List Act} (hw : Winding acts) {k k' : State} {f f' : Bool}
    (h₁ : k.pics.master.isr = k'.pics.master.isr) (h₂ : k.pics.slave.isr = k'.pics.slave.isr)
    (hq : (Machine.mk k f acts).settled.Quiet) : (Machine.mk k' f' acts).settled.Quiet := by
  induction hw generalizing k k' with
  | none => exact ⟨h₁.symm.trans hq.1, h₂.symm.trans hq.2⟩
  | call => exact ⟨h₁.symm.trans hq.1, h₂.symm.trans hq.2⟩
  | @eoi port acts hport _ ih =>
    rcases hport with rfl | rfl
    · exact @ih { k with pics := k.pics.outb pic1Command picEoi }
        { k' with pics := k'.pics.outb pic1Command picEoi } (Chip.eoi_isr h₁) h₂ hq
    · exact @ih { k with pics := k.pics.outb pic2Command picEoi }
        { k' with pics := k'.pics.outb pic2Command picEoi } h₁ (Chip.eoi_isr h₂) hq

theorem serviceOf_winding (k : Fin 16) : Winding (serviceOf k) := by
  have hcall : Winding (if k = 0 then [.call .timerCallback]
      else if k = 1 then [.call .keyboardCallback] else []) := by
    split
    · exact .call _
    · split
      · exact .call _
      · exact .none
  have hmaster := hcall.eoi (Or.inl rfl)
  unfold serviceOf
  split
  · exact hmaster.eoi (Or.inr rfl)
  · exact hmaster

theorem outb_eoi {p : Pair} (h : p.Running 0x20 0x28) {port : UInt16}
    (hport : port = pic1Command ∨ port = pic2Command) :
    (p.outb port picEoi).Running 0x20 0x28 := by
  rcases hport with rfl | rfl
  · exact ⟨h.master.eoi, h.slave⟩
  · exact ⟨h.master, h.slave.eoi⟩

/-- Between handlers, the masks may change. -/
theorem Machine.Ok.masks (h : m.Ok image) (m₁ m₂ : UInt8) :
    (m.withPics (withMasks m.kernel.pics m₁ m₂)).Ok image :=
  ⟨h.idt, h.handlers, withMasks_running h.running m₁ m₂, h.winding,
    h.winding.settled_isr (k := m.kernel) rfl rfl h.settled, h.off⟩

/-- **Step lemma.** -/
theorem Machine.Ok.step (h : m.Ok image) (hstep : Step image m m') : m'.Ok image := by
  cases hstep with
  | lines irr₁ irr₂ =>
    exact ⟨h.idt, h.handlers,
      ⟨⟨h.running.master.phase, h.running.master.x86, h.running.master.autoEoi,
          h.running.master.base, h.running.master.cascade⟩,
        ⟨h.running.slave.phase, h.running.slave.x86, h.running.slave.autoEoi,
          h.running.slave.base, h.running.slave.cascade⟩⟩,
      h.winding, h.winding.settled_isr (k := m.kernel) rfl rfl h.settled, h.off⟩
  | accept cpl hif hacc =>
    obtain ⟨k, pics, haccept, -, hrun, hquiet⟩ := h.accept hif cpl
    obtain rfl := Option.some.inj (haccept.symm.trans hacc)
    exact ⟨h.idt, h.handlers, hrun, serviceOf_winding k, hquiet, fun _ => rfl⟩
  | @out port v acts htodo =>
    have hw := h.winding
    have hs := h.settled
    rw [Machine.settled, htodo] at hs
    have hoff := h.off (htodo ▸ List.cons_ne_nil _ _)
    rw [htodo] at hw
    cases hw with
    | eoi hport hrest =>
      exact ⟨h.idt, h.handlers, outb_eoi h.running hport, hrest, hs, fun _ => hoff⟩
  | @call f acts htodo =>
    have hw := h.winding
    have hs := h.settled
    rw [Machine.settled, htodo] at hs
    rw [htodo] at hw
    cases hw with
    | call => exact ⟨h.idt, h.handlers, h.running, .none, hs, fun hne => absurd rfl hne⟩
  | flag htodo iflag =>
    exact ⟨h.idt, h.handlers, h.running, h.winding, h.settled, fun hne => absurd htodo hne⟩
  | setMask htodo irq =>
    obtain ⟨m₁, m₂, heq, -⟩ := picSetMask_masks h.running irq
    rw [heq]
    exact h.masks m₁ m₂
  | clearMask htodo irq =>
    obtain ⟨m₁, m₂, heq, -⟩ := picClearMask_masks h.running irq
    rw [heq]
    exact h.masks m₁ m₂

/-- The machine after `sti`. -/
def bootMachine (image : Image) (s : State) : Machine := ⟨bootInterrupts image s, true, []⟩

theorem bootMachine_ok (image : Image) (s : State) : (bootMachine image s).Ok image := by
  obtain ⟨hrun, hquiet, -⟩ := bootInterrupts_pics image s
  exact ⟨bootInterrupts_idt image s, bootInterrupts_handlers image s, hrun, .none, hquiet,
    fun hne => absurd rfl hne⟩

theorem reachable_ok {s : State}
    (hrun : Relation.ReflTransGen (Step image) (bootMachine image s) m) : m.Ok image := by
  induction hrun with
  | refl => exact bootMachine_ok image s
  | tail _ hstep ih => exact ih.step hstep

end Machine

/-- **No line is ever blocked**: whatever state the firmware has left the chips in, and however the
devices and the kernel interleave, nothing is in service when interrupts are on, so the most urgent
line that asks is the one that is passed on; and what `irq_handler` has still to do ends the service
it was called for, spurious interrupts included. -/
theorem irq_never_blocked (image : Image) (s : State) {m : Machine}
    (hrun : Relation.ReflTransGen (Step image) (bootMachine image s) m) :
    (m.iflag = true → m.kernel.pics.Quiet ∧
      ∀ l, m.kernel.pics.master.Asks l → ∃ l' ≤ l, m.kernel.pics.master.request = some l') ∧
      m.settled.Quiet := by
  have h := reachable_ok hrun
  refine ⟨fun hif => ⟨h.quiet hif, fun l hl => ?_⟩, h.settled⟩
  have hq := (h.quiet hif).1
  cases hreq : m.kernel.pics.master.request with
  | none => exact absurd hl (hq.asks_none hreq l)
  | some l' =>
    refine ⟨l', le_of_not_gt fun hlt => ?_, rfl⟩
    exact (hq.urgent hreq).2 l hlt hl

/-- Addresses for the stubs. -/
def sampleImage : Image where
  addr := fun st => 0x101000 + 16 * UInt32.ofNat st.vector
  inj := by
    have hvector : ∀ a b : Stub, a.vector = b.vector → a = b := by
      intro a b hab
      cases a <;> cases b <;> simp only [Stub.vector, Stub.isr.injEq, Stub.irq.injEq] at hab ⊢ <;>
        omega
    have hlt : ∀ a : Stub, a.vector ≤ 128 := by
      intro a
      cases a <;> simp only [Stub.vector] <;> omega
    intro a b hab
    have ha := hlt a
    have hb := hlt b
    have h := congrArg UInt32.toNat hab
    simp only [UInt32.toNat_add, UInt32.toNat_mul, UInt32.toNat_ofNat', UInt32.reduceToNat] at h
    exact hvector a b (by omega)

/-- Chips that the firmware has left in the middle of a service, and of their initialization. -/
def sampleState : State where
  idt := fun _ => ⟨1, 2, 3, 4, 5⟩
  interruptHandlers := fun _ => none
  pics :=
    ⟨⟨0xB8, fun _ => true, fun _ => true, 8, 0, false, false, .icw3, false, true⟩,
      ⟨0x8F, fun _ => false, fun _ => true, 0x70, 0, false, true, .ready, true, false⟩⟩

/-- A keyboard interrupt, and one of line 7. -/
def sampleMachine : Machine :=
  (bootMachine sampleImage sampleState).withPics
    ⟨{ (bootMachine sampleImage sampleState).kernel.pics.master with
        irr := fun l => l.val == 1 || l.val == 7 },
      { (bootMachine sampleImage sampleState).kernel.pics.slave with irr := fun _ => false }⟩

theorem sampleMachine_reached :
    Relation.ReflTransGen (Step sampleImage) (bootMachine sampleImage sampleState) sampleMachine :=
  .single (.lines _ _ _)

theorem irq_never_blocked_key :
    ∃ l' ≤ (1 : Fin 8), sampleMachine.kernel.pics.master.request = some l' :=
  ((irq_never_blocked sampleImage sampleState sampleMachine_reached).1 rfl).2 1
    ⟨rfl, by decide +kernel⟩

/-- **No line is mistaken for another one**: whenever interrupts are on, the processor gets, with
interrupts off, to `irq_handler` for the most urgent line that asks, or for line 7 of a chip that
nothing asks, with the number of that line in its struct, whatever has been interrupted;
`irq_handler` reads inside of its table, announces the end of the service to the chips that take
part in it, and calls the timer for line 0, the keyboard for line 1 and nothing for the others. -/
theorem irq_dispatched (image : Image) (s : State) {m : Machine}
    (hrun : Relation.ReflTransGen (Step image) (bootMachine image s) m) (hif : m.iflag = true)
    (cpl : Nat) :
    ∃ k m', m.accept image cpl = some m' ∧ Cause m.kernel.pics k ∧ m'.iflag = false ∧
      (∀ tss flags err cpu, ∃ code, Process.stub (32 + k) = some code ∧
        let now := Process.atHandler tss flags err (32 + k) code cpu
        (Process.Registers.of now.state.2 (Process.argument now)).intNo = UInt32.ofNat (32 + k)) ∧
      m'.todo = (picSendEoi (UInt8.ofNat k)).map (fun w => .out w.1 w.2) ++
        (if k = 0 then [.call .timerCallback] else if k = 1 then [.call .keyboardCallback]
          else []) := by
  obtain ⟨k, pics, haccept, hcause, -, -⟩ := (reachable_ok hrun).accept hif cpl
  exact ⟨k, _, haccept, hcause, rfl, (Stub.irq k).intNo_eq, serviceOf_eq k⟩

theorem irq_dispatched_key :
    ∃ k m', sampleMachine.accept sampleImage 3 = some m' ∧ Cause sampleMachine.kernel.pics k ∧
      m'.iflag = false := by
  obtain ⟨k, m', haccept, hcause, hoff, -⟩ :=
    irq_dispatched sampleImage sampleState sampleMachine_reached rfl 3
  exact ⟨k, m', haccept, hcause, hoff⟩

/-! ## 5. Exceptions, and programs that ask for a vector -/

/-- A vector that is not one of a line: gate, stub, `isr_handler`. -/
def Machine.exception (image : Image) (m : Machine) (v : UInt8) (software : Bool) (cpl : Nat)
    (screen : Screen) : Option Outcome :=
  match deliver m.kernel.idt v software cpl with
  | none => none
  | some (_, _, offset, _) =>
    match image.stubAt offset with
    | none | some (.irq _) => none
    | some st => isrHandler m.kernel (UInt32.ofNat st.vector) screen

theorem crashDigits_decimal : ∀ n : Fin 32, crashDigits (UInt32.ofNat n) =
    (Nat.toDigits 10 n).map fun c => UInt8.ofNat c.toNat := by decide

/-- **The crash screen**: red to the last cell, the message and the number in the first row. -/
theorem crashScreen_view (s : Screen) (n : Fin 32) {k : Nat} (hk : k < 2000) :
    (crashScreen s (UInt32.ofNat n)).view k =
      ((crashMessage ++ (Nat.toDigits 10 n).map fun c => UInt8.ofNat c.toNat).getD k 0x20,
          0x4F) := by
  unfold crashScreen
  rw [crashDigits_decimal]
  generalize (Nat.toDigits 10 n).map (fun c => UInt8.ofNat c.toNat) = digits
  have hcat := putCells_append 0x4F crashMessage digits
      (putCells 0x4F s 0 (List.replicate 2000 0x20)) 0
  rw [Int.zero_add] at hcat
  dsimp only
  rw [← hcat, putCells_view, putCells_view, List.length_replicate, Int.sub_zero, Int.toNat_natCast]
  by_cases htext : k < (crashMessage ++ digits).length
  · rw [if_pos (by omega), List.getD_eq_getElem _ _ htext, List.getD_eq_getElem _ _ htext]
  · rw [if_neg (by omega), if_pos (by omega), List.getD_eq_default _ _ (Nat.le_of_not_lt htext),
      List.getD_replicate _ hk]

theorem crashScreen_inside {s : Screen} (h : s.Inside) (n : Fin 32) :
    (crashScreen s (UInt32.ofNat n)).Inside := by
  have hlen : ∀ n : Fin 32, (crashDigits (UInt32.ofNat n)).length ≤ 2 := by decide
  have hn := hlen n
  have hclear : (putCells 0x4F s 0 (List.replicate 2000 0x20)).Inside :=
    putCells_inside _ _ h le_rfl (by rw [List.length_replicate]; decide)
  have htext := putCells_inside 0x4F crashMessage hclear le_rfl (by decide)
  exact putCells_inside _ _ htext (by decide) (by
    have hmsg : crashMessage.length = 20 := rfl
    omega)

section Machine

variable {image} {m : Machine}

/-- The gate of an exception. -/
theorem entry_exception (n : Fin 32) (cpl : Nat) :
    (gateTable image (UInt8.ofNat n)).entry false cpl = .enter 0x08 (image.addr (.isr n)) true := by
  have hv : (UInt8.ofNat n.val).toNat = n.val :=
    UInt8.toNat_ofNat_of_lt' (show n.val < 256 by omega)
  have hgate : gateTable image (UInt8.ofNat n) = gateOf (image.addr (.isr n)) 0x08 0x8E := by
    unfold gateTable
    rw [dif_pos (by omega)]
    congr 3
    exact Fin.ext hv
  rw [hgate, entry_kernel]

/-- What `isr_handler` does with an exception. -/
theorem isrHandler_exception {s : State} (hs : s.interruptHandlers = handlerTable) (n : Fin 32)
    (screen : Screen) :
    isrHandler s (UInt32.ofNat n) screen =
      some (if n = 14 then .called .pageFaultHandler
        else .halted (crashScreen screen (UInt32.ofNat n))) := by
  have hat : ∀ n : Fin 32, (if UInt32.ofNat n < 256 then
      some (handlerTable (UInt32.ofNat n).toUInt8) else none) =
        some (if n = 14 then some .pageFaultHandler else none) := by decide
  have hlt : ∀ n : Fin 32, UInt32.ofNat n < 32 := by decide
  unfold isrHandler handlerAt
  rw [hs, hat, Option.map_some]
  by_cases hn : n = 14
  · rw [if_pos hn, if_pos hn]
  · rw [if_neg hn, if_neg hn]
    dsimp only
    rw [if_pos (hlt n)]

/-- An `int` instruction at level 3 that is not the one for system calls is refused by its gate. -/
theorem entry_user {v : UInt8} (hv : v ≠ 0x80) : (gateTable image v).entry true 3 = .fault 13 := by
  unfold gateTable
  split
  · exact Gate.entry_refused (Or.inl (by decide : (0x8E : UInt8).toNat / 32 % 4 < 3))
  · split
    · exact Gate.entry_refused (Or.inl (by decide : (0x8E : UInt8).toNat / 32 % 4 < 3))
    · exact Gate.entry_refused (Or.inl (by decide : (0 : UInt8).toNat / 32 % 4 < 3))

/-- The gate for system calls is open to level 3. -/
theorem entry_syscall (cpl : Nat) (hcpl : cpl ≤ 3) :
    (gateTable image 0x80).entry true cpl = .enter 0x08 (image.addr .isr128) true := by
  have hgate : gateTable image 0x80 = gateOf (image.addr .isr128) 0x08 0xEE := rfl
  have hkind : (gateOf (image.addr .isr128) 0x08 0xEE).kind = 14 :=
    (by decide : (0xEE : UInt8).toNat % 32 = 14)
  have hpresent : (gateOf (image.addr .isr128) 0x08 0xEE).present = true :=
    (by decide : (0xEE : UInt8).toNat.testBit 7 = true)
  have hdpl : (gateOf (image.addr .isr128) 0x08 0xEE).dpl = 3 :=
    (by decide : (0xEE : UInt8).toNat / 32 % 4 = 3)
  rw [hgate, Gate.entry_enter hkind hpresent fun _ => hdpl ▸ hcpl, gateOf_offset]
  rfl

end Machine

/-- **The other ways into the kernel**, from every state it reaches: an exception stops the machine
with its number on a red screen, but for page faults, which have a handler; an `int` instruction of
a program is a system call if it asks for the vector 128, and for every other vector, the numbers of
lines and exceptions included, it stops the machine as a protection fault.  Nothing is written
outside of the screen. -/
theorem user_int (image : Image) (s : State) {m : Machine}
    (hrun : Relation.ReflTransGen (Step image) (bootMachine image s) m) (screen : Screen) :
    (∀ (n : Fin 32) (cpl : Nat), m.exception image (UInt8.ofNat n) false cpl screen =
      some (if n = 14 then .called .pageFaultHandler
        else .halted (crashScreen screen (UInt32.ofNat n)))) ∧
    (∀ v : UInt8, m.exception image v true 3 screen =
      some (if v = 0x80 then .called .syscallHandler else .halted (crashScreen screen 13))) ∧
    ∀ n : Fin 32, (screen.Inside → (crashScreen screen (UInt32.ofNat n)).Inside) ∧
      ∀ k : Nat, k < 2000 → (crashScreen screen (UInt32.ofNat n)).view k =
        ((crashMessage ++ (Nat.toDigits 10 n).map fun c => UInt8.ofNat c.toNat).getD k 0x20,
          0x4F) := by
  have h := reachable_ok hrun
  refine ⟨fun n cpl => ?_, fun v => ?_, fun n =>
    ⟨fun hs => crashScreen_inside hs n, fun k hk => crashScreen_view screen n hk⟩⟩
  · unfold Machine.exception
    rw [h.idt, deliver_enter (entry_exception n cpl)]
    dsimp only
    rw [image.stubAt_addr]
    exact isrHandler_exception h.handlers n screen
  · unfold Machine.exception
    rw [h.idt]
    by_cases hv : v = 0x80
    · subst hv
      rw [deliver_enter (entry_syscall 3 le_rfl)]
      dsimp only
      rw [image.stubAt_addr]
      dsimp only
      unfold isrHandler handlerAt
      rw [h.handlers]
      rfl
    · rw [if_neg hv, deliver_fault (entry_user hv) (entry_exception 13 3)]
      dsimp only
      rw [image.stubAt_addr]
      exact isrHandler_exception h.handlers 13 screen

/-- A program that executes `int 3`. -/
theorem user_int_breakpoint :
    (bootMachine sampleImage sampleState).exception sampleImage 3 true 3 (Vga.boot fun _ => 0) =
      some (.halted (crashScreen (Vga.boot fun _ => 0) 13)) :=
  (user_int sampleImage sampleState .refl (Vga.boot fun _ => 0)).2.1 3

end FlowOS.Idt
