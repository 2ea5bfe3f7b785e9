/-
# Frames that survive until they are used

A process that is not running is a frame on its stack and the stack pointer in its control block.
`Safe` says that every live process has both as it left them, that live processes are on stacks of
their own, and that every return from `context_switch` so far found what it should.  Each action
keeps it under two conditions: `Sane`, that code writes where it may (a process on its own stack,
with room for what it pushes, and a new process on a new stack), and `Alone`, that an interrupt
from level 3 finds no other process on the interrupt stack.
-/
import FlowOS.Process.Machine

namespace FlowOS.Process

open Word X86 Trace

variable {σ : Type}

/-! ## 1. The property -/

/-- `process_table`. -/
def tableRegion (env : ProcEnv σ) : Region :=
  ⟨env.processTable, env.processTable + processSize * maxProcesses⟩

/-- The words of a frame, as `context_switch` pops them and further up. -/
def Context.words (env : ProcEnv σ) (x : Context) : List UInt32 :=
  match x.origin with
  | .created entry => [0, 0, 0, 0, UInt32.ofNat env.processWrapper, 0, entry]
  | .called _ cpu => [cpu.reg .ebp, cpu.reg .edi, cpu.reg .esi, cpu.reg .ebx, cpu.eip]

/-- **The frame of a process on the stack `r` is as the process left it**: the control block points
to it, and from there to the top of the stack no byte has changed. -/
structure Saved (env : ProcEnv σ) (mem : Mem) (r : Region) (p : Slot) (x : Context) : Prop where
  cell : mem.ld32 (espAddr env p) = x.esp
  low : r.lo ≤ x.esp
  high : x.esp + 4 * (x.words env).length ≤ r.hi
  bytes : ∀ a, x.esp ≤ a → a < r.hi → mem a = x.mem a
  words : Stack x.mem (UInt32.ofNat x.esp) (x.words env)
  pointer : ∀ kind cpu, x.origin = .called kind cpu → UInt32.ofNat x.esp = cpu.reg .esp - 20

/-- **A return from `context_switch` finds what it should**: a process that had called it continues
at the return address with its callee-saved registers and its stack pointer; a new process enters
`process_wrapper`, whose argument is above the return address on the stack, with zeros in the
callee-saved registers. -/
def Resumption.ContextOk (env : ProcEnv σ) (e : Resumption) : Prop :=
  match e.context with
  | some ⟨.called _ cpu, _, _⟩ =>
    e.cpu.eip = cpu.eip ∧ ∀ r ∈ [Reg.esp, .ebx, .esi, .edi, .ebp], e.cpu.reg r = cpu.reg r
  | some ⟨.created entry, _, _⟩ =>
    e.cpu.eip = UInt32.ofNat env.processWrapper ∧
      (∀ r ∈ [Reg.ebx, .esi, .edi, .ebp], e.cpu.reg r = 0) ∧
      load e.mem (e.cpu.reg .esp + 4) = entry
  | none => False

/-- The addresses of the linked image: the process table and the interrupt stack do not overlap. -/
structure Linked (env : ProcEnv σ) (tss : Tss) : Prop where
  wrapper : env.processWrapper < 2 ^ 32
  table : (tableRegion env).hi ≤ 2 ^ 32
  room : interruptStackSize ≤ tss.esp0.toNat
  apart : (interruptRegion tss).Apart (tableRegion env)

/-- Live processes are on stacks of their own, apart from the process table; a process that is not
on the interrupt stack has nothing of it. -/
structure Stacks (env : ProcEnv σ) (tss : Tss) (live : Slot → Prop) (stack : Slot → Region) :
    Prop where
  below : ∀ p, live p → (stack p).hi ≤ 2 ^ 32
  table : ∀ p, live p → (stack p).Apart (tableRegion env)
  apart : ∀ p q, p ≠ q → live p → live q → (stack p).Apart (stack q)
  interrupt : ∀ p, live p → stack p = interruptRegion tss ∨ (stack p).Apart (interruptRegion tss)

/-- **Every live process that is not running has its frame, on a stack of its own.** -/
structure Safe (env : ProcEnv σ) (m : Machine σ) : Prop extends Accounted m where
  linked : Linked env m.tss
  layout : Stacks env m.tss m.sched.Live m.stack
  saved : ∀ p x, p ≠ m.current → m.sched.Live p → m.context p = some x →
    Saved env m.sched.mem (m.stack p) p x
  log : ∀ e ∈ m.log, e.ContextOk env

/-! ## 2. The conditions -/

/-- Addresses the current process may write: outside the process table and outside the stack of
any other live process, unless it is on that stack itself. -/
def MayWrite (env : ProcEnv σ) (m : Machine σ) (a : Nat) : Prop :=
  ¬ (tableRegion env).Has a ∧ ∀ p, p ≠ m.current → m.sched.Live p →
    m.stack p ≠ m.stack m.current → ¬ (m.stack p).Has a

/-- The stack of the current process has room for `n` more bytes. -/
def HasRoom (m : Machine σ) (n : Nat) : Prop :=
  (m.stack m.current).lo + n ≤ (m.cpu.reg .esp).toNat ∧
    (m.cpu.reg .esp).toNat ≤ (m.stack m.current).hi

/-- A stack that nobody uses. -/
structure FreshStack (env : ProcEnv σ) (m : Machine σ) (r : Region) : Prop where
  below : r.hi < 2 ^ 32
  table : r.Apart (tableRegion env)
  interrupt : r.Apart m.interruptStack
  live : ∀ p, m.sched.Live p → r.Apart (m.stack p)

/-- The stack `process_create` has taken for the new process is one that nobody uses. -/
def FreshStackOf (env : ProcEnv σ) (m : Machine σ) : Option Slot × σ × Sched → Prop
  | (none, _, _) => True
  | (some p, _, s) =>
    let top := (s.processTable p).kernelStack
    kernelStackSize ≤ top ∧ FreshStack env m ⟨top - kernelStackSize, top⟩

/-- **Code stays where it may.**  A process writes to its own stack and to nobody else's, and has
room on it for the frames it pushes (28 bytes for the call of `context_switch`, 32 for
`enter_usermode`, 60 for an interrupt at level 0); `kmalloc` gives a new process a stack that
nobody uses. -/
def Sane (env : ProcEnv σ) (m : Machine σ) : Act σ → Prop
  | .work _ _ writes => ∀ w ∈ writes, MayWrite env m w.1
  | .create name entry => FreshStackOf env m (processCreate env m.k m.sched name entry.toNat)
  | .call _ => HasRoom m 28
  | .enter _ _ => HasRoom m 32
  | .trap _ => m.cpu.user = false → HasRoom m 60
  | .tick cpu writes => (m.cpu.user = false → HasRoom m 60) ∧
    (∀ w ∈ writes, MayWrite env (m.interrupted m.current 32) w.1) ∧
    HasRoom (m.handling cpu writes) 28
  | _ => True

/-- **An interrupt from level 3 finds no other process on the interrupt stack.** -/
def Alone (m : Machine σ) : Act σ → Prop
  | .trap _ | .tick _ _ => m.cpu.user = true → ∀ p, p ≠ m.current → m.sched.Live p →
    m.stack p ≠ m.interruptStack
  | _ => True

instance (env : ProcEnv σ) (m : Machine σ) (a : Nat) : Decidable (MayWrite env m a) :=
  inferInstanceAs (Decidable (_ ∧ _))

instance (m : Machine σ) (n : Nat) : Decidable (HasRoom m n) := inferInstanceAs (Decidable (_ ∧ _))

instance (env : ProcEnv σ) (m : Machine σ) (r : Region) : Decidable (FreshStack env m r) :=
  decidable_of_iff (r.hi < 2 ^ 32 ∧ r.Apart (tableRegion env) ∧ r.Apart m.interruptStack ∧
      ∀ p, m.sched.Live p → r.Apart (m.stack p))
    ⟨fun h => ⟨h.1, h.2.1, h.2.2.1, h.2.2.2⟩, fun h => ⟨h.below, h.table, h.interrupt, h.live⟩⟩

instance (env : ProcEnv σ) (m : Machine σ) :
    (r : Option Slot × σ × Sched) → Decidable (FreshStackOf env m r)
  | (none, _, _) => .isTrue trivial
  | (some _, _, _) => inferInstanceAs (Decidable (_ ∧ FreshStack env m _))

instance (env : ProcEnv σ) (m : Machine σ) : (a : Act σ) → Decidable (Sane env m a)
  | .work _ _ writes => inferInstanceAs (Decidable (∀ w ∈ writes, MayWrite env m w.1))
  | .create _ _ => inferInstanceAs (Decidable (FreshStackOf env m _))
  | .call _ => inferInstanceAs (Decidable (HasRoom m 28))
  | .enter _ _ => inferInstanceAs (Decidable (HasRoom m 32))
  | .trap _ => inferInstanceAs (Decidable (m.cpu.user = false → HasRoom m 60))
  | .tick cpu writes => inferInstanceAs (Decidable ((m.cpu.user = false → HasRoom m 60) ∧
      (∀ w ∈ writes, MayWrite env (m.interrupted m.current 32) w.1) ∧
      HasRoom (m.handling cpu writes) 28))
  | .flag _ | .preemption _ | .iret => .isTrue trivial

instance (m : Machine σ) : (a : Act σ) → Decidable (Alone m a)
  | .trap _ | .tick _ _ => inferInstanceAs (Decidable (m.cpu.user = true → ∀ p, p ≠ m.current →
      m.sched.Live p → m.stack p ≠ m.interruptStack))
  | .work _ _ _ | .create _ _ | .call _ | .enter _ _ | .flag _ | .preemption _ | .iret =>
    .isTrue trivial

/-! ## 3. Memory that is left alone -/

variable {env : ProcEnv σ} {m : Machine σ}

/-- The `esp` field of a control block lies in the process table. -/
theorem espAddr_bounds (env : ProcEnv σ) (p : Slot) :
    (tableRegion env).lo ≤ espAddr env p ∧ espAddr env p + 4 ≤ (tableRegion env).hi := by
  have hp : p.val < 256 := p.isLt
  simp only [tableRegion, espAddr, processSize, maxProcesses]
  omega

theorem espAddr_apart (env : ProcEnv σ) {p q : Slot} (h : p ≠ q) :
    espAddr env p + 4 ≤ espAddr env q ∨ espAddr env q + 4 ≤ espAddr env p := by
  have hne : p.val ≠ q.val := fun hv => h (Fin.ext hv)
  simp only [espAddr, processSize]
  omega

/-- A frame sees its own stack and its own field of the process table. -/
theorem Saved.congr {mem mem' : Mem} {r : Region} {p : Slot} {x : Context}
    (h : Saved env mem r p x) (hstack : ∀ a, r.Has a → mem' a = mem a)
    (hcell : ∀ a, espAddr env p ≤ a → a < espAddr env p + 4 → mem' a = mem a) :
    Saved env mem' r p x where
  cell := (Mem.ld32_congr hcell).trans h.cell
  low := h.low
  high := h.high
  bytes := fun a h1 h2 => (hstack a ⟨h.low.trans h1, h2⟩).trans (h.bytes a h1 h2)
  words := h.words
  pointer := h.pointer

theorem Region.Apart.not_has {r r' : Region} {a : Nat} (h : r.Apart r') (ha : r.Has a) :
    ¬ r'.Has a := by
  unfold Region.Apart Region.Has at *
  omega

theorem Region.Apart.symm {r r' : Region} (h : r.Apart r') : r'.Apart r := Or.symm h

theorem Stacks.mono {tss : Tss} {live live' : Slot → Prop} {stack : Slot → Region}
    (h : Stacks env tss live stack) (hl : ∀ p, live' p → live p) : Stacks env tss live' stack where
  below := fun p hp => h.below p (hl p hp)
  table := fun p hp => h.table p (hl p hp)
  apart := fun p q hpq hp hq => h.apart p q hpq (hl p hp) (hl q hq)
  interrupt := fun p hp => h.interrupt p (hl p hp)

/-- A process comes onto a stack that no other live process uses. -/
theorem Stacks.update {tss : Tss} {live live' : Slot → Prop} {stack : Slot → Region}
    (h : Stacks env tss live stack) {p : Slot} {r : Region} (hl : ∀ q, q ≠ p → live' q → live q)
    (hbelow : r.hi ≤ 2 ^ 32) (htable : r.Apart (tableRegion env))
    (hint : r = interruptRegion tss ∨ r.Apart (interruptRegion tss))
    (hothers : ∀ q, q ≠ p → live' q → r.Apart (stack q)) :
    Stacks env tss live' (setAt stack p r) := by
  have hself : setAt stack p r p = r := setAt_self _ _ _
  have hother : ∀ q, q ≠ p → setAt stack p r q = stack q :=
    fun q hq => setAt_other _ _ hq
  refine ⟨fun q hq => ?_, fun q hq => ?_, fun q q' hqq hq hq' => ?_, fun q hq => ?_⟩
  · by_cases hqp : q = p
    · rw [hqp, hself]
      exact hbelow
    · rw [hother q hqp]
      exact h.below q (hl q hqp hq)
  · by_cases hqp : q = p
    · rw [hqp, hself]
      exact htable
    · rw [hother q hqp]
      exact h.table q (hl q hqp hq)
  · by_cases hqp : q = p
    · have hqp' : q' ≠ p := fun h' => hqq (hqp.trans h'.symm)
      rw [hqp, hself, hother q' hqp']
      exact hothers q' hqp' hq'
    · rw [hother q hqp]
      by_cases hqp' : q' = p
      · rw [hqp', hself]
        exact (hothers q hqp hq).symm
      · rw [hother q' hqp']
        exact h.apart q q' hqq (hl q hqp hq) (hl q' hqp' hq')
  · by_cases hqp : q = p
    · rw [hqp, hself]
      exact hint
    · rw [hother q hqp]
      exact h.interrupt q (hl q hqp hq)

/-- Registers, and memory outside the process table and the other processes' stacks, may change. -/
theorem Safe.withState (h : Safe env m) (s : X86.State)
    (htable : ∀ a, (tableRegion env).Has a → s.2 a = m.sched.mem a)
    (hstack : ∀ p, p ≠ m.current → m.sched.Live p → ∀ a, (m.stack p).Has a →
      s.2 a = m.sched.mem a) : Safe env (m.withState s) where
  toAccounted := h.toAccounted.withState s
  linked := h.linked
  layout := h.layout
  saved := by
    intro p x hp hl hx
    refine (h.saved p x hp hl hx).congr (hstack p hp hl) fun a h1 h2 => htable a ?_
    have := espAddr_bounds env p
    exact ⟨by omega, by omega⟩
  log := h.log

/-- The current process comes onto the interrupt stack, where no other live process is. -/
theorem Safe.onInterruptStack (h : Safe env m)
    (halone : ∀ p, p ≠ m.current → m.sched.Live p → m.stack p ≠ m.interruptStack) :
    Safe env { m with stack := setAt m.stack m.current m.interruptStack } where
  toAccounted := ⟨h.sched, h.context⟩
  linked := h.linked
  layout := h.layout.update (fun _ _ hl => hl) (Nat.le_of_lt m.tss.esp0.toNat_lt) h.linked.apart
    (Or.inl rfl)
    fun p hp hl => ((h.layout.interrupt p hl).resolve_left (halone p hp hl)).symm
  saved := by
    intro p x hp hl hx
    have hstack : setAt m.stack m.current m.interruptStack p = m.stack p :=
      setAt_other _ _ hp
    change Saved env m.sched.mem (setAt m.stack m.current m.interruptStack p) p x
    rw [hstack]
    exact h.saved p x hp hl hx
  log := h.log

/-! ## 4. The switch -/

/-- The arguments of the call, in the order they are pushed. -/
def callArgs (env : ProcEnv σ) (m : Machine σ) (c next : Slot) : List UInt32 :=
  [load m.sched.mem (UInt32.ofNat (espAddr env next)), UInt32.ofNat (espAddr env c)]

theorem calling_esp {c next : Slot} (hroom : 8 ≤ (m.cpu.reg .esp).toNat) :
    ((m.calling env c next).1.reg .esp).toNat = (m.cpu.reg .esp).toNat - 8 :=
  @pushAll_esp (callArgs env m c next) m.state hroom

/-- The call writes the arguments below the stack pointer. -/
theorem calling_outside {c next : Slot} {a : Nat} (hroom : 8 ≤ (m.cpu.reg .esp).toNat)
    (ha : a < (m.cpu.reg .esp).toNat - 8 ∨ (m.cpu.reg .esp).toNat ≤ a) :
    (m.calling env c next).2 a = m.sched.mem a :=
  @pushAll_outside (callArgs env m c next) m.state a hroom ha

theorem calling_stack {c next : Slot} (hroom : 8 ≤ (m.cpu.reg .esp).toNat) :
    Stack (m.calling env c next).2 ((m.calling env c next).1.reg .esp)
      (callArgs env m c next).reverse :=
  @Stack.pushAll (callArgs env m c next) [] m.state (Stack.nil _ _) hroom

/-- The address of an `esp` field as a word. -/
theorem toNat_espAddr (h : (tableRegion env).hi ≤ 2 ^ 32) (p : Slot) :
    (UInt32.ofNat (espAddr env p)).toNat = espAddr env p := by
  have := espAddr_bounds env p
  rw [UInt32.toNat_ofNat']
  exact Nat.mod_eq_of_lt (by omega)

/-- The first five words of a frame are those `context_switch` pops. -/
theorem words_shape (env : ProcEnv σ) (x : Context) : ∃ ebp edi esi ebx eip rest,
    x.words env = [ebp, edi, esi, ebx, eip] ++ rest := by
  obtain ⟨entry | ⟨kind, cpu⟩, esp, mem⟩ := x
  · exact ⟨_, _, _, _, _, _, rfl⟩
  · exact ⟨_, _, _, _, _, [], rfl⟩

/-- The frame of a process in the memory it is in now. -/
theorem Saved.stack {mem : Mem} {r : Region} {p : Slot} {x : Context} (h : Saved env mem r p x) :
    Stack mem (UInt32.ofNat x.esp) (x.words env) := by
  have hlt : x.esp < 2 ^ 32 := h.cell ▸ Mem.ld32_lt _ _
  have hesp : (UInt32.ofNat x.esp).toNat = x.esp := by
    rw [UInt32.toNat_ofNat']
    exact Nat.mod_eq_of_lt hlt
  refine h.words.congr fun a h1 h2 => h.bytes a (by omega) ?_
  have := h.high
  omega

/-- What a switch from the current process `c` to `next` needs: room on the one stack, the frame on
the other, and both apart from each other and from the process table. -/
structure Switchable (env : ProcEnv σ) (m : Machine σ) (c next : Slot) (r r' : Region)
    (x : Context) : Prop where
  linked : (tableRegion env).hi ≤ 2 ^ 32
  below : r.hi ≤ 2 ^ 32
  room : r.lo + 28 ≤ (m.cpu.reg .esp).toNat ∧ (m.cpu.reg .esp).toNat ≤ r.hi
  frame : Saved env m.sched.mem r' next x
  table : r.Apart (tableRegion env)
  table' : r'.Apart (tableRegion env)
  apart : r.Apart r'

variable {c next : Slot} {r r' : Region} {x : Context}

/-- **The registers after a switch** are those of the frame switched to. -/
theorem Switchable.call_eq (h : Switchable env m c next r r' x) {ebp edi esi ebx eip : UInt32}
    (rest : List UInt32) (hw : x.words env = [ebp, edi, esi, ebx, eip] ++ rest) :
    X86.call contextSwitch (m.calling env c next) =
      (resumedCpu (m.calling env c next).1 ebp edi esi ebx eip
        (UInt32.ofNat x.esp + 4 + 4 + 4 + 4 + 4) (UInt32.ofNat (espAddr env c)),
        savedMem (m.calling env c next) (UInt32.ofNat (espAddr env c))) := by
  obtain ⟨hlo, hhi⟩ := h.room
  have hroom : 8 ≤ (m.cpu.reg .esp).toNat := by omega
  have hesp := @calling_esp σ env m c next hroom
  have hcell := toNat_espAddr h.linked c
  have hcellb := espAddr_bounds env c
  have hlt : x.esp < 2 ^ 32 := h.frame.cell ▸ Mem.ld32_lt _ _
  have hxesp : (UInt32.ofNat x.esp).toNat = x.esp := by
    rw [UInt32.toNat_ofNat']
    exact Nat.mod_eq_of_lt hlt
  have hnew : load m.sched.mem (UInt32.ofNat (espAddr env next)) = UInt32.ofNat x.esp := by
    rw [load, toNat_espAddr h.linked, h.frame.cell]
  have hhigh : x.esp + 20 ≤ r'.hi := by
    have := h.frame.high
    rw [hw, List.length_append] at this
    simp only [List.length_cons, List.length_nil] at this
    omega
  have hlow := h.frame.low
  have hframe : Stack m.sched.mem (UInt32.ofNat x.esp) [ebp, edi, esi, ebx, eip] := by
    have := h.frame.stack
    rw [hw] at this
    exact this.left
  have hapart := h.apart
  have htable := h.table
  have htable' := h.table'
  unfold Region.Apart at hapart htable htable'
  have hargs := @calling_stack σ env m c next hroom
  have hrev : (callArgs env m c next).reverse
      = [UInt32.ofNat (espAddr env c), UInt32.ofNat x.esp] := by
    rw [callArgs, hnew]
    rfl
  rw [hrev] at hargs
  refine contextSwitch_spec (by omega) hargs (hframe.congr fun a h1 h2 => ?_) ?_ ?_ ?_
  · have : a < x.esp + 20 := by rw [hxesp] at h2; exact h2
    exact calling_outside hroom (by omega)
  all_goals omega

/-- **The memory after a switch**: what the process leaves behind is saved, and nothing outside its
stack and its field of the process table has changed. -/
theorem Switchable.saved (h : Switchable env m c next r r' x) (kind : Kind) :
    Saved env (X86.call contextSwitch (m.calling env c next)).2 r c (m.left env kind c next) ∧
      ∀ a, ¬ r.Has a → (a < espAddr env c ∨ espAddr env c + 4 ≤ a) →
        (X86.call contextSwitch (m.calling env c next)).2 a = m.sched.mem a := by
  obtain ⟨ebp, edi, esi, ebx, eip, rest, hw⟩ := words_shape env x
  have hcall := h.call_eq rest hw
  obtain ⟨hlo, hhi⟩ := h.room
  have hroom : 8 ≤ (m.cpu.reg .esp).toNat := by omega
  have hesp := @calling_esp σ env m c next hroom
  have hcell := toNat_espAddr h.linked c
  have hcellb := espAddr_bounds env c
  have htable := h.table
  unfold Region.Apart at htable
  have hmem : (X86.call contextSwitch (m.calling env c next)).2
      = savedMem (m.calling env c next) (UInt32.ofNat (espAddr env c)) := by rw [hcall]
  obtain ⟨hstack, hsaved, hout⟩ := @savedMem_spec (m.calling env c next)
    (UInt32.ofNat (espAddr env c)) (by omega) (by omega)
  rw [hesp, hcell] at hsaved hout
  have hleft : ((m.calling env c next).1.reg .esp - 20).toNat
      = (m.cpu.reg .esp).toNat - 8 - 20 := by
    rw [← hesp]
    exact UInt32.toNat_sub_of_le _ _ (UInt32.le_iff_toNat_le.mpr (by
      simp only [UInt32.reduceToNat]
      omega))
  have hsp : (pushAll (savedWords (m.calling env c next).1) (m.calling env c next)).1.reg .esp
      = (m.calling env c next).1.reg .esp - 20 := by
    refine UInt32.toNat_inj.mp ?_
    rw [hleft, ← hesp]
    exact pushAll_esp (show 4 * 5 ≤ _ by omega)
  rw [hmem]
  refine ⟨⟨hsaved.trans hleft.symm, ?_, ?_, fun a _ _ => by rw [Machine.left, hmem], ?_, ?_⟩, ?_⟩
  · change r.lo ≤ ((m.calling env c next).1.reg .esp - 20).toNat
    omega
  · change ((m.calling env c next).1.reg .esp - 20).toNat + 20 ≤ r.hi
    omega
  · rw [Machine.left, UInt32.ofNat_toNat, hmem, ← hsp]
    exact hstack
  · rintro kind' cpu hcpu
    obtain ⟨-, rfl⟩ := Origin.called.inj hcpu
    exact UInt32.ofNat_toNat
  · intro a hr ha
    have hr' : a < r.lo ∨ r.hi ≤ a := by
      unfold Region.Has at hr
      omega
    rw [hout a (by omega) ha]
    exact calling_outside hroom (by omega)

/-- **The process switched to finds what it should.** -/
theorem Switchable.contextOk (h : Switchable env m c next r r' x) :
    Resumption.ContextOk env ⟨next, some x, (X86.call contextSwitch (m.calling env c next)).1,
      (X86.call contextSwitch (m.calling env c next)).2⟩ := by
  -- the whole frame is still there after the switch
  have hframe : Stack (X86.call contextSwitch (m.calling env c next)).2 (UInt32.ofNat x.esp)
      (x.words env) := by
    have hlt : x.esp < 2 ^ 32 := h.frame.cell ▸ Mem.ld32_lt _ _
    have hxesp : (UInt32.ofNat x.esp).toNat = x.esp := by
      rw [UInt32.toNat_ofNat']
      exact Nat.mod_eq_of_lt hlt
    refine h.frame.stack.congr fun a h1 h2 => (h.saved .voluntary).2 a ?_ ?_
    · have hhas : r'.Has a := ⟨by have := h.frame.low; omega, by have := h.frame.high; omega⟩
      exact h.apart.symm.not_has hhas
    · have hb := espAddr_bounds env c
      have htable := h.table'
      have hlow := h.frame.low
      have hhigh := h.frame.high
      unfold Region.Apart at htable
      omega
  obtain ⟨origin, esp, mem⟩ := x
  cases origin with
  | called kind cpu =>
    have hptr := h.frame.pointer kind cpu rfl
    rw [h.call_eq [] rfl, hptr]
    have hesp : cpu.reg .esp - 20 + 4 + 4 + 4 + 4 + 4 = cpu.reg .esp := by
      simp only [UInt32.add_assoc]
      exact UInt32.sub_add_cancel _ _
    simp [Resumption.ContextOk, resumedCpu, hesp]
  | created entry =>
    have harg := hframe.get (i := 6) (w := entry) rfl
    rw [h.call_eq [0, entry] rfl] at harg ⊢
    refine ⟨rfl, by simp [resumedCpu], ?_⟩
    rw [← harg]
    simp only [resumedCpu, UInt32.add_assoc]
    rfl

/-- The frames after a switch from `c` to `next`: that of `c` is new, the others are as before. -/
theorem Switchable.frames (h : Switchable env m c next r r' x) (kind : Kind) {p : Slot}
    {y : Context} {rp : Region} (hp : p ≠ c) (hy : Saved env m.sched.mem rp p y)
    (hapart : r.Apart rp) (htable : rp.Apart (tableRegion env)) :
    Saved env (m.switch env kind c next).sched.mem rp p y := by
  rw [switch_mem]
  have hout := (h.saved kind).2
  have hcell := espAddr_bounds env c
  refine hy.congr (fun a ha => hout a (hapart.symm.not_has ha) ?_) fun a h1 h2 => hout a ?_ ?_
  · have := htable.not_has ha
    unfold Region.Has at this
    omega
  · have hb := espAddr_bounds env p
    exact h.table.symm.not_has ⟨by omega, by omega⟩
  · have := espAddr_apart env hp
    omega

/-- An operation that creates no process and does not switch. -/
theorem Safe.stay (h : Safe env m) {exits : Bool} {s : Sched} {k : σ}
    (hr : Performed m.sched m.current none exits (s, none)) :
    Safe env { m with k := k, sched := s } := by
  have hbefore := fun p => @Performed.live_before m.sched m.current p exits (s, none) hr
  obtain ⟨q, hq⟩ := hr.inv_stay
  have hcur : Machine.current { m with k := k, sched := s } = m.current := by
    change s.currentProcess.getD 0 = m.current
    rw [hq.current, Option.getD_some]
  refine ⟨h.toAccounted.finish env .voluntary hr, h.linked, h.layout.mono hbefore,
    fun p x hp hl hx => ?_, h.log⟩
  rw [hcur] at hp
  change Saved env s.mem (m.stack p) p x
  rw [hr.mem rfl]
  exact h.saved p x hp (hbefore p hl) hx

/-- **An operation that creates no process, with its switch, keeps every frame.** -/
theorem Safe.finish (h : Safe env m) {exits : Bool} {res : Sched × Switch} {k : σ} (kind : Kind)
    (hr : Performed m.sched m.current none exits res) (hroom : HasRoom m 28) :
    Safe env (Machine.finish env { m with k := k, sched := res.1 } kind res.2) := by
  have hacc := h.toAccounted.finish env (k := k) kind hr
  have hbefore := fun p => @Performed.live_before m.sched m.current p exits res hr
  have hmem := hr.mem rfl
  obtain ⟨next, q, hq, hsw⟩ := hr.inv
  by_cases hn : next = m.current
  · rw [if_pos hn] at hsw
    obtain ⟨s, sw⟩ := res
    subst hsw
    exact h.stay hr
  · rw [hsw] at hacc ⊢
    rw [if_neg hn] at hacc ⊢
    have hlive := hbefore next hq.current_live
    obtain ⟨x, hx⟩ := h.context next hn hlive
    have hcurLive : m.sched.Live m.current := by
      obtain ⟨q', hq'⟩ := h.sched
      exact hq'.current_live
    have hsaved : ∀ p y, p ≠ m.current → m.sched.Live p → m.context p = some y →
        Saved env res.1.mem (m.stack p) p y := by
      rw [hmem]
      exact h.saved
    generalize hm₀ : { m with k := k, sched := res.1 } = m₀ at hacc
    have hstack₀ : m₀.stack = m.stack := by rw [← hm₀]
    have hctx₀ : m₀.context = m.context := by rw [← hm₀]
    have htss₀ : m₀.tss = m.tss := by rw [← hm₀]
    have hlog₀ : m₀.log = m.log := by rw [← hm₀]
    have hsched₀ : m₀.sched = res.1 := by rw [← hm₀]
    have hsw : Switchable env m₀ m.current next (m.stack m.current) (m.stack next) x := by
      refine ⟨h.linked.table, h.layout.below _ hcurLive, ?_, ?_, h.layout.table _ hcurLive,
        h.layout.table _ hlive, h.layout.apart _ _ (Ne.symm hn) hcurLive hlive⟩
      · rw [← hm₀]
        exact hroom
      · rw [hsched₀]
        exact hsaved next x hn hlive hx
    have hcur : (m₀.switch env kind m.current next).current = next := by
      rw [Machine.current, switch_sched, hsched₀, hq.current, Option.getD_some]
    have hlive₀ : ∀ p, (m₀.switch env kind m.current next).sched.Live p → m.sched.Live p := by
      intro p hp
      rw [switch_sched, hsched₀] at hp
      exact hbefore p hp
    rw [Machine.finish] at hacc ⊢
    refine ⟨hacc, ?_, ?_, fun p y hp hl hy => ?_, fun e he => ?_⟩
    · rw [switch_tss, htss₀]
      exact h.linked
    · rw [switch_tss, htss₀, switch_stack, hstack₀]
      exact h.layout.mono hlive₀
    · have hpl := hlive₀ p hl
      rw [hcur] at hp
      rw [switch_context, if_neg hp] at hy
      rw [switch_stack, hstack₀]
      split at hy
      · rename_i hpc
        obtain rfl := Option.some.inj hy
        rw [hpc, switch_mem]
        exact (hsw.saved kind).1
      · rename_i hpc
        rw [hctx₀] at hy
        refine hsw.frames kind hpc ?_ (h.layout.apart _ _ (Ne.symm hpc) hcurLive hpl)
          (h.layout.table _ hpl)
        rw [hsched₀]
        exact hsaved p y hpc hpl hy
    · rw [switch_log, hlog₀] at he
      rcases List.mem_append.mp he with he | he
      · exact h.log e he
      · obtain rfl := List.mem_singleton.mp he
        rw [hctx₀, hx]
        exact hsw.contextOk

end FlowOS.Process
