/-
# Processes and the scheduler (`process.c`, `timer.c`)

The process table is 256 control blocks; a `process_t*` is a slot of the table or `NULL`.  The
scheduler keeps a ready queue linked through the blocks' `next` fields, and the timer holds the
tick counter and the preemption flags.  `Sched` is all of it, with `current_pd_phys` of
`paging.c`, which `schedule` switches, and the memory that holds the kernel stacks.

Two things are kept as the machine keeps them.  The `esp` field of a control block lives in
memory, since `context_switch` writes it through a pointer; and `schedule` stops at its call of
`context_switch`, returning the pair of processes it switches between, since what happens then
is the business of the switch itself.

Heap and paging are the parameter `ProcEnv`, as `PageEnv` is for the heap.
-/
import FlowOS.Heap.Basic

namespace FlowOS

open Word

namespace Process

/-- `process_state_t`. -/
inductive State
  | unused | created | ready | running | blocked | sleeping | terminated
  deriving DecidableEq, Repr

/-- `MAX_PROCESSES`. -/
abbrev maxProcesses : Nat := 256

instance : NeZero maxProcesses := ⟨by decide⟩

/-- `KERNEL_STACK_SIZE`. -/
def kernelStackSize : Nat := 4096

/-- A pointer to an entry of `process_table`. -/
abbrev Slot := Fin maxProcesses

end Process

open Process in
/-- `struct process`, without `context`, which no function uses, and without `esp`, which lives
in memory. -/
structure Process where
  pid : Nat
  state : State
  kernelStack : Nat
  pageDirectory : Nat
  sleepUntil : Nat
  exitCode : Int
  parent : Option Slot
  next : Option Slot
  name : Nat → UInt8

/-- What `process.c` calls in the heap and in paging, over their state `σ`, and the link-time
addresses it stores: of `idle_process`, of `process_wrapper` and of `process_table`. -/
structure ProcEnv (σ : Type) where
  kmalloc : Nat → σ → Nat × σ
  kfree : Nat → σ → σ
  pagingClonePd : σ → Nat × σ
  idleProcess : Nat
  processWrapper : Nat
  processTable : Nat

namespace Process

/-- The static variables of `process.c` and `timer.c`, the directories of `paging.c`, and the
memory with the kernel stacks and the `esp` fields. -/
structure Sched where
  processTable : Slot → Process
  currentProcess : Option Slot
  readyQueueHead : Option Slot
  readyQueueTail : Option Slot
  nextPid : Nat
  ticks : Nat
  preemptionEnabled : Bool
  timeSlice : Nat
  sliceRemaining : Nat
  currentPdPhys : Nat
  kernelPdPhys : Nat
  mem : Mem

variable {σ : Type}

/-! ## 1. Control blocks -/

/-- `*proc = x`. -/
def Sched.put (s : Sched) (p : Slot) (x : Process) : Sched :=
  { s with processTable := Function.update s.processTable p x }

/-- `proc->state = st`. -/
def setState (s : Sched) (p : Slot) (st : State) : Sched :=
  s.put p { s.processTable p with state := st }

/-- `proc->next = q`. -/
def setNext (s : Sched) (p : Slot) (q : Option Slot) : Sched :=
  s.put p { s.processTable p with next := q }

/-- `sizeof(process_t)`. -/
def processSize : Nat := 88

/-- `&proc->esp`. -/
def espAddr (env : ProcEnv σ) (p : Slot) : Nat := env.processTable + processSize * p + 28

/-- Copy a string, cut at 31 characters, into a `name` field and end it with `'\0'`; the bytes
after that stay as they were. -/
def copyName (old : Nat → UInt8) (name : List UInt8) : Nat → UInt8 := fun i =>
  if i < (name.take 31).length then name.getD i 0
  else if i = (name.take 31).length then 0
  else old i

/-- Store the words `ws` below the address `top`: the first one at `top - 4`. -/
def storeBelow (m : Mem) (top : Nat) : List Nat → Mem
  | [] => m
  | w :: ws => storeBelow (m.st32 (sub32 top 4) w) (sub32 top 4) ws

/-! ## 2. The ready queue -/

/-- `scheduler_init`. -/
def schedulerInit (s : Sched) : Sched := { s with readyQueueHead := none, readyQueueTail := none }

/-- `scheduler_add`. -/
def schedulerAdd (s : Sched) (proc : Slot) : Sched :=
  let s := setNext s proc none
  match s.readyQueueTail with
  | none => { s with readyQueueHead := some proc, readyQueueTail := some proc }
  | some tail => { setNext s tail (some proc) with readyQueueTail := some proc }

/-- The `while` loop of `scheduler_remove`, with `n` rounds to go: the process in front of `proc`,
or the last one. -/
def seekPrev (s : Sched) (proc : Slot) : (n : Nat) → (prev : Slot) → Option Slot
  | 0, _ => none
  | n + 1, prev =>
    match (s.processTable prev).next with
    | none => some prev
    | some next => if next = proc then some prev else seekPrev s proc n next

/-- `scheduler_remove`; `none` if its loop does not end.  A walk that ends meets no process twice,
so it has fewer rounds than there are processes. -/
def schedulerRemove (s : Sched) (proc : Option Slot) : Option Sched :=
  match proc, s.readyQueueHead with
  | some proc, some head =>
    if head = proc then
      let s := { s with readyQueueHead := (s.processTable proc).next }
      let s := if s.readyQueueHead = none then { s with readyQueueTail := none } else s
      some (setNext s proc none)
    else
      match seekPrev s proc maxProcesses head with
      | none => none
      | some prev =>
        if (s.processTable prev).next = some proc then
          let s := setNext s prev (s.processTable proc).next
          let s := if s.readyQueueTail = some proc then { s with readyQueueTail := some prev }
            else s
          some (setNext s proc none)
        else some s
  | _, _ => some s

/-- One round of the loop of `wake_sleeping_processes`. -/
def wakeOne (currentTick : Nat) (s : Sched) (i : Slot) : Sched :=
  if (s.processTable i).state = .sleeping then
    if (s.processTable i).sleepUntil ≤ currentTick then
      schedulerAdd (setState s i .ready) i
    else s
  else s

/-- `wake_sleeping_processes`. -/
def wakeSleepingProcesses (s : Sched) : Sched :=
  (List.finRange maxProcesses).foldl (wakeOne s.ticks) s

/-- The head of the ready queue, taken off it. -/
def takeHead (s : Sched) (next : Slot) : Sched :=
  let s := { s with readyQueueHead := (s.processTable next).next }
  let s := if s.readyQueueHead = none then { s with readyQueueTail := none } else s
  setNext s next none

/-- The call `context_switch(&prev->esp, next->esp)` an operation ends with, if it makes one, as
the pair `(prev, next)`. -/
abbrev Switch := Option (Slot × Slot)

/-- The end of `schedule`: make `next` the running process and, unless it is running already,
switch to its page directory and to its stack. -/
def switchTo (s : Sched) (prev next : Slot) : Sched × Switch :=
  if next = prev then (setState s prev .running, none)
  else
    let s := { s with currentProcess := some next }
    let s := setState s next .running
    let s :=
      if (s.processTable prev).pageDirectory ≠ (s.processTable next).pageDirectory then
        { s with currentPdPhys := (s.processTable next).pageDirectory }  -- paging_switch
      else s
    (s, some (prev, next))

/-- `schedule`, up to its call of `context_switch`. -/
def schedule (s : Sched) : Sched × Switch :=
  match s.currentProcess with
  | none => (s, none)
  | some prev =>
    let s := wakeSleepingProcesses s
    match s.readyQueueHead with
    | some next => switchTo (takeHead s next) prev next
    | none => switchTo s prev 0  -- no ready process, run idle

/-! ## 3. Process operations -/

/-- The frame `process_init` builds for the idle process, from the top of its stack down. -/
def idleFrame (env : ProcEnv σ) : List Nat := [env.idleProcess, 0, 0, 0, 0]

/-- The frame `process_create` builds for a new process, from the top of its stack down: the
argument of `process_wrapper`, its return address, the address `context_switch` returns to, and
the four registers it pops. -/
def initialFrame (env : ProcEnv σ) (entry : Nat) : List Nat :=
  [entry, 0, env.processWrapper, 0, 0, 0, 0]

/-- `process_init`. -/
def processInit (env : ProcEnv σ) (k : σ) (s : Sched) : σ × Sched :=
  let s := { s with processTable := fun i => { s.processTable i with state := .unused, pid := 0 } }
  let r := env.kmalloc kernelStackSize k
  let top := add32 r.1 kernelStackSize
  let idle := s.processTable 0
  let s := s.put 0
    { idle with
      pid := 0, state := .ready, kernelStack := top, pageDirectory := s.kernelPdPhys,
      parent := none, next := none, name := copyName idle.name [105, 100, 108, 101] }  -- "idle"
  let mem := storeBelow s.mem top (idleFrame env)
  let mem := mem.st32 (espAddr env 0) (sub32 top 20)
  (r.2, { s with mem := mem, currentProcess := some 0 })

/-- `find_free_slot`. -/
def findFreeSlot (s : Sched) : Option Slot :=
  (List.finRange maxProcesses).find? fun i => i ≠ 0 ∧ (s.processTable i).state = .unused

/-- `process_create`.  Returns the new process, or `none` on failure.  The control block is
worked on as a value, `proc`, that every way out stores in its slot. -/
def processCreate (env : ProcEnv σ) (k : σ) (s : Sched) (name : List UInt8) (entry : Nat) :
    Option Slot × σ × Sched :=
  match findFreeSlot s with
  | none => (none, k, s)
  | some p =>
    let proc :=
      { s.processTable p with
        pid := s.nextPid, state := .created, parent := s.currentProcess, next := none,
        exitCode := 0, sleepUntil := 0 }
    let s := { s with nextPid := add32 s.nextPid 1 }
    let r := env.pagingClonePd k
    let proc := { proc with pageDirectory := r.1 }
    if r.1 = 0 then
      -- the slot has no stack of its own yet: this frees whatever its field holds
      let k := env.kfree (sub32 proc.kernelStack kernelStackSize) r.2
      (none, k, s.put p { proc with state := .unused })
    else
      let a := env.kmalloc kernelStackSize r.2
      let proc := { proc with kernelStack := a.1 }
      if a.1 = 0 then (none, a.2, s.put p { proc with state := .unused })
      else
        let top := add32 a.1 kernelStackSize
        let mem := storeBelow s.mem top (initialFrame env entry)
        let mem := mem.st32 (espAddr env p) (sub32 top 28)
        let proc := { proc with kernelStack := top, name := copyName proc.name name }
        let s := { s with mem := mem }
        (some p, a.2, schedulerAdd (setState (s.put p proc) p .ready) p)

/-- `process_exit`. -/
def processExit (env : ProcEnv σ) (k : σ) (s : Sched) (code : Int) : σ × Sched × Switch :=
  match s.currentProcess with
  | none => (k, s, none)
  | some c =>
    if (s.processTable c).pid = 0 then (k, s, none)  -- can't exit the idle process
    else
      let s := s.put c { s.processTable c with exitCode := code, state := .terminated }
      let k := env.kfree (sub32 (s.processTable c).kernelStack kernelStackSize) k
      (k, schedule s)

/-- `process_yield`. -/
def processYield (s : Sched) : Sched × Switch :=
  match s.currentProcess with
  | none => schedule s
  | some c =>
    if (s.processTable c).state = .running then
      schedule (schedulerAdd (setState s c .ready) c)
    else schedule s

/-- The ticks `process_sleep` waits for a time in milliseconds. -/
def sleepTicks (ms : Nat) : Nat :=
  let ticks := ms * 100 % 2 ^ 32 / 1000
  if ticks = 0 then 1 else ticks

/-- `process_sleep`. -/
def processSleep (s : Sched) (ms : Nat) : Sched × Switch :=
  match s.currentProcess with
  | none => (s, none)
  | some c =>
    schedule (s.put c
      { s.processTable c with
        sleepUntil := add32 s.ticks (sleepTicks ms), state := .sleeping })

/-! ## 4. The timer -/

/-- `timer_callback`. -/
def timerCallback (s : Sched) : Sched × Switch :=
  let s := { s with ticks := add32 s.ticks 1 }
  if s.preemptionEnabled then
    let s := if 0 < s.sliceRemaining then { s with sliceRemaining := s.sliceRemaining - 1 } else s
    if s.sliceRemaining = 0 then
      let s := { s with sliceRemaining := s.timeSlice }
      match s.currentProcess with
      | none => (s, none)
      | some c => if (s.processTable c).state = .running then processYield s else (s, none)
    else (s, none)
  else (s, none)

/-- `timer_enable_preemption`. -/
def timerEnablePreemption (s : Sched) : Sched :=
  { s with sliceRemaining := s.timeSlice, preemptionEnabled := true }

/-- `timer_disable_preemption`. -/
def timerDisablePreemption (s : Sched) : Sched := { s with preemptionEnabled := false }

/-- The static variables as the program image has them, with the directory `paging_init` has
made current. -/
def statics (kernelPd : Nat) (mem : Mem) : Sched where
  processTable := fun _ => ⟨0, .unused, 0, 0, 0, 0, none, none, fun _ => 0⟩
  currentProcess := none
  readyQueueHead := none
  readyQueueTail := none
  nextPid := 1
  ticks := 0
  preemptionEnabled := false
  timeSlice := 10
  sliceRemaining := 0
  currentPdPhys := kernelPd
  kernelPdPhys := kernelPd
  mem := mem

/-- `process_init` then `scheduler_init`, from the program's initial static variables. -/
def bootProcesses (env : ProcEnv σ) (k : σ) (kernelPd : Nat) (mem : Mem) : σ × Sched :=
  let r := processInit env k (statics kernelPd mem)
  (r.1, schedulerInit r.2)

end Process

end FlowOS
