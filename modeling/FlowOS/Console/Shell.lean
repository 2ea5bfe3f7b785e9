/-
# The shell (`userspace/shell.c`)

`_start` writes a prompt, reads a line into `buffer[128]` by `SYS_READ`, compares it with the
commands that it knows, and otherwise takes it for the name of a program, in capitals, for
`SYS_EXEC`.  With `sys_read` as a `Reader` it is a program that reads in rounds, one for each line.

`shell_session` says what a session is: the lines that are typed, edited as `sys_read` edits them,
and the answer to each of them (`respond`), one after the other, until one ends the session.  That
the code does this although it works on two arrays, of which one keeps what earlier lines have left,
is what has to be shown.

`SYS_WRITE` is `log_info`, and `SYS_EXIT` never returns.  Of `elf_exec` only what it logs and
whether it starts the program is of interest, which may depend on all that has happened before; when
it does, the shell is gone.
-/
import FlowOS.Console.SysRead
import FlowOS.Lib.CString
import FlowOS.Vga

namespace FlowOS.Shell

open FlowOS.Vga FlowOS.Syscalls
open CArray (textFrom textOf textFrom_eq textFrom_length)
open Keyboard (ascii)

/-! ## 1. The program -/

/-- A system call of the shell other than `SYS_READ`. -/
inductive Event
  | write (text : List UInt8)
  | exec (path : List UInt8)
  deriving DecidableEq

/-- How a session ends. -/
inductive Ending
  | exited
  | launched
  deriving DecidableEq

/-- The shell between two lines: its memory and `path[128]`, the screen, the calls it has made, and
how it has ended. -/
structure State where
  mem : BitVec 32 → UInt8
  path : Int → UInt8
  screen : Screen
  events : List Event
  ended : Option Ending

/-- What `elf_exec` logs, and whether it starts the program, after some calls. -/
abbrev Loader := List Event → List UInt8 → List (List UInt8) × Bool

/-- `write`. -/
def State.write (w : State) (text : List UInt8) : State :=
  { w with screen := logInfo w.screen text, events := w.events ++ [.write text] }

/-- `strcmp`, on the characters before the terminating zeros. -/
def strcmp : List UInt8 → List UInt8 → Int
  | c :: s1, d :: s2 => if c = d then strcmp s1 s2 else (c.toNat : Int) - d.toNat
  | c :: _, [] => c.toNat
  | [], d :: _ => -d.toNat
  | [], [] => 0

/-- A character of the name of a program. -/
def upper (c : UInt8) : UInt8 := if 0x61 ≤ c ∧ c ≤ 0x7A then c - 32 else c

/-- The loop that fills `path`, on what is left of the string in `buffer`. -/
def upperLoop : List UInt8 → Int → (Int → UInt8) → Int → UInt8
  | [], _, path => path
  | c :: text, i, path => upperLoop text (i + 1) (Function.update path i (upper c))

/-- The string in `buffer`. -/
def bufferText (buffer : BitVec 32) (mem : BitVec 32 → UInt8) : List UInt8 :=
  textOf (fun i => mem (buffer + BitVec.ofInt 32 i)) 128

/-- The texts of `help`. -/
def helpTexts : List (List UInt8) :=
  [ascii "Available commands:\n", ascii "  help  - Show this help\n",
    ascii "  clear - Clear screen\n", ascii "  test  - Run test program\n",
    ascii "  exit  - Exit shell\n\n"]

/-- `"FlowOS> "`. -/
def prompt : List UInt8 := ascii "FlowOS> "

section

variable (elfExec : Loader) (buffer : BitVec 32)

/-- A line that is taken for the name of a program. -/
def launch (w : State) (len : Int) : State :=
  let path := Function.update (upperLoop (bufferText buffer w.mem) 0 w.path) len 0
  let name := textOf path 128
  let r := elfExec w.events name
  let w := { w with
    path := path
    screen := r.1.foldl logInfo w.screen
    events := w.events ++ [Event.exec name] }
  if r.2 then { w with ended := some .launched }
  else
    ((w.write (ascii "Command not found: ")).write (bufferText buffer w.mem)).write (ascii "\n")

/-- A line that is not empty. -/
def command (w : State) (len : Int) : State :=
  let text := bufferText buffer w.mem
  let w := w.write (ascii "\n")
  if strcmp text (ascii "help") = 0 then helpTexts.foldl State.write w
  else if strcmp text (ascii "clear") = 0 ∨ strcmp text (ascii "cls") = 0 then
    (List.replicate 25 (ascii "\n")).foldl State.write w
  else if strcmp text (ascii "exit") = 0 then
    let w := w.write (ascii "Goodbye!\n")
    { w with screen := logInfo w.screen (ascii "Process exited"), ended := some .exited }
  else if 0 < len then launch elfExec buffer w len
  else w

/-- The loop of `_start`, from one prompt to the next: what `sys_read` has done is done. -/
def program : Rounds UInt8 ReadState State where
  reader := sysReader buffer 128
  start _ := sysReadStart buffer 128
  finish w r :=
    let w := { w with
      mem := store w.mem r.run.stores
      screen := r.run.echo.foldl vgaPutChar w.screen }
    let len := (r.run.ret.getD 0).toInt
    let w := if len = 0 then w else command elfExec buffer w len
    if w.ended.isSome then w else w.write prompt
  stops w := w.ended.isSome

end

/-- `_start` before its loop. -/
def banner (mem : BitVec 32 → UInt8) (path : Int → UInt8) (s : Screen) : State :=
  let w : State := ⟨mem, path, s, [], none⟩
  let w := w.write (ascii "\n\n*** FlowOS Shell ***\n")
  w.write (ascii "Type 'help' for available commands\n\n")

/-- `_start` at its first prompt. -/
def initial (mem : BitVec 32 → UInt8) (path : Int → UInt8) (s : Screen) : State :=
  (banner mem path s).write prompt

/-! ## 2. Sessions -/

/-- The lines that are typed, of at most 127 characters, with `text` typed already. -/
def linesFrom : List UInt8 → List UInt8 → List (List UInt8)
  | _, [] => []
  | text, c :: keys =>
    if c = 10 then text :: linesFrom [] keys
    else if (edit text c).length = 127 then edit text c :: linesFrom [] keys
    else linesFrom (edit text c) keys

/-- The lines that are typed. -/
def lines (keys : List UInt8) : List (List UInt8) := linesFrom [] keys

/-- The calls that answer a line which is the name of a program. -/
def launches (elfExec : Loader) (before : List Event) (line : List UInt8) :
    List Event × Option Ending :=
  let name := line.map upper
  if (elfExec before name).2 then ([.exec name], some .launched)
  else ([.exec name, .write (ascii "Command not found: "), .write line, .write (ascii "\n")], none)

/-- **The meaning of a line**: the calls that answer it, and whether it ends the session. -/
def respond (elfExec : Loader) (before : List Event) (line : List UInt8) :
    List Event × Option Ending :=
  let start := Event.write (ascii "\n")
  if line = [] then ([], none)
  else if line = ascii "help" then (start :: helpTexts.map .write, none)
  else if line = ascii "clear" ∨ line = ascii "cls" then
    (start :: List.replicate 25 (.write (ascii "\n")), none)
  else if line = ascii "exit" then ([start, .write (ascii "Goodbye!\n")], some .exited)
  else
    let r := launches elfExec (before ++ [start]) line
    (start :: r.1, r.2)

/-- **The meaning of a session**: the calls, and how it ends. -/
def session (elfExec : Loader) : List Event → List (List UInt8) → List Event × Option Ending
  | before, [] => (before, none)
  | before, line :: rest =>
    match respond elfExec before line with
    | (events, some ending) => (before ++ events, some ending)
    | (events, none) => session elfExec (before ++ events ++ [.write prompt]) rest

/-! ## 3. Strings -/

theorem strcmp_eq_zero {s1 s2 : List UInt8} (h1 : ∀ c ∈ s1, c ≠ 0) (h2 : ∀ c ∈ s2, c ≠ 0) :
    strcmp s1 s2 = 0 ↔ s1 = s2 := by
  have hpos : ∀ c : UInt8, c ≠ 0 → c.toNat ≠ 0 := fun c hc h0 => hc (UInt8.toNat_inj.mp h0)
  induction s1 generalizing s2 with
  | nil =>
    cases s2 with
    | nil => simp [strcmp]
    | cons d s2 =>
      have hd := hpos d (h2 d List.mem_cons_self)
      simp [strcmp, hd]
  | cons c s1 ih =>
    have hc := hpos c (h1 c List.mem_cons_self)
    cases s2 with
    | nil => simp [strcmp, hc]
    | cons d s2 =>
      have hrest : strcmp s1 s2 = 0 ↔ s1 = s2 :=
        ih (fun x hx => h1 x (List.mem_cons_of_mem c hx))
          fun x hx => h2 x (List.mem_cons_of_mem d hx)
      rw [strcmp, List.cons.injEq]
      by_cases hcd : c = d
      · rw [if_pos hcd, hrest]
        exact ⟨fun h => ⟨hcd, h⟩, fun h => h.2⟩
      · rw [if_neg hcd]
        have hne : c.toNat ≠ d.toNat := fun h => hcd (UInt8.toNat_inj.mp h)
        exact ⟨fun h => absurd h (by omega), fun h => absurd h.1 hcd⟩

theorem upper_ne_zero {c : UInt8} (hc : c ≠ 0) : upper c ≠ 0 := by
  unfold upper
  split
  · rename_i hletter
    have hle : 0x61 ≤ c.toNat := UInt8.le_iff_toNat_le.mp hletter.1
    intro h0
    have hsub : (c - 32).toNat = c.toNat - 32 :=
      UInt8.toNat_sub_of_le c 32 (UInt8.le_iff_toNat_le.mpr (show 32 ≤ c.toNat by omega))
    rw [h0] at hsub
    exact absurd hsub (show ¬0 = c.toNat - 32 by omega)
  · exact hc

theorem upperLoop_eq (text : List UInt8) (i : Int) (path : Int → UInt8) (j : Int) :
    upperLoop text i path j =
      if i ≤ j ∧ j < i + text.length then upper (text.getD (j - i).toNat 0) else path j := by
  induction text generalizing i path with
  | nil =>
    rw [upperLoop, List.length_nil, if_neg (by omega)]
  | cons c text ih =>
    rw [upperLoop, ih, List.length_cons]
    by_cases hj : j = i
    · subst hj
      rw [if_neg (by omega), if_pos (by omega), Function.update_self, Int.sub_self]
      rfl
    · rw [Function.update_of_ne hj]
      by_cases hin : i + 1 ≤ j ∧ j < i + 1 + text.length
      · have hidx : (j - i).toNat = (j - (i + 1)).toNat + 1 := by omega
        rw [if_pos hin, if_pos (by omega), hidx, List.getD_cons_succ]
      · rw [if_neg hin, if_neg (by omega)]

/-- **The name of the program** that `path` holds: the line in capitals. -/
theorem path_text {line : List UInt8} (hzero : ∀ c ∈ line, c ≠ 0) (hlen : line.length < 128)
    (path : Int → UInt8) :
    textOf (Function.update (upperLoop line 0 path) line.length 0) 128 = line.map upper := by
  refine textFrom_eq ?_ (by rw [List.length_map]; exact hlen) (fun j hj => ?_) ?_
  · intro c hc
    obtain ⟨d, hd, rfl⟩ := List.mem_map.mp hc
    exact upper_ne_zero (hzero d hd)
  · rw [List.length_map] at hj
    rw [Int.zero_add, Function.update_of_ne (by omega), upperLoop_eq, if_pos (by omega),
      List.getElem_map, Int.sub_zero, Int.toNat_natCast, List.getD_eq_getElem _ _ hj]
  · rw [Int.zero_add, List.length_map, Function.update_self]

variable {buffer : BitVec 32} {mem : BitVec 32 → UInt8}

/-- What `sys_read` has left in `buffer`. -/
theorem bufferText_eq {line : List UInt8} (h : HoldsText mem buffer (line ++ [0]))
    (hzero : ∀ c ∈ line, c ≠ 0) (hlen : line.length < 128) : bufferText buffer mem = line := by
  unfold bufferText textOf
  refine textFrom_eq hzero hlen (fun j hj => ?_) ?_
  · rw [Int.zero_add, BitVec.ofInt_natCast, h j (by rw [List.length_append]; omega),
      List.getElem_append_left hj]
  · rw [Int.zero_add, BitVec.ofInt_natCast,
      h line.length (by rw [List.length_append, List.length_singleton]; omega),
      List.getElem_concat_length rfl]

/-! ## 4. A line -/

variable {elfExec : Loader} {w : State} {line : List UInt8}

/-- A sequence of texts. -/
theorem foldl_write (texts : List (List UInt8)) (w : State) :
    texts.foldl State.write w =
      { w with
        screen := texts.foldl logInfo w.screen
        events := w.events ++ texts.map .write } := by
  induction texts generalizing w with
  | nil => rw [List.foldl_nil, List.foldl_nil, List.map_nil, List.append_nil]
  | cons text texts ih =>
    rw [List.foldl_cons, ih, List.foldl_cons, List.map_cons, State.write, List.append_assoc]
    rfl

theorem launch_launches (elfExec : Loader) (hended : w.ended = none)
    (hbuf : bufferText buffer w.mem = line)
    (hzero : ∀ c ∈ line, c ≠ 0) (hlen : line.length < 128) :
    ((launch elfExec buffer w line.length).events, (launch elfExec buffer w line.length).ended) =
      (w.events ++ (launches elfExec w.events line).1, (launches elfExec w.events line).2) := by
  unfold launch launches
  dsimp only
  rw [hbuf, path_text hzero hlen]
  by_cases hrun : (elfExec w.events (line.map upper)).2 = true
  · rw [if_pos hrun, if_pos hrun]
  · rw [if_neg hrun, if_neg hrun]
    simp only [State.write, hended, List.append_assoc, List.cons_append, List.nil_append]

/-- **A command does what it means.** -/
theorem command_respond (hended : w.ended = none) (hbuf : bufferText buffer w.mem = line)
    (hzero : ∀ c ∈ line, c ≠ 0) (hne : line ≠ []) (hlen : line.length < 128) :
    ((command elfExec buffer w line.length).events,
      (command elfExec buffer w line.length).ended) =
      (w.events ++ (respond elfExec w.events line).1, (respond elfExec w.events line).2) := by
  have hpos : 0 < (line.length : Int) := Int.natCast_pos.mpr (List.length_pos_iff.mpr hne)
  unfold command respond
  have hnames : 0 ∉ ascii "help" ∧ 0 ∉ ascii "clear" ∧ 0 ∉ ascii "cls" ∧ 0 ∉ ascii "exit" := by
    decide
  obtain ⟨hhelp, hclear, hcls, hexit⟩ := hnames
  simp only [hbuf, strcmp_eq_zero hzero (List.forall_mem_ne'.mpr hhelp),
    strcmp_eq_zero hzero (List.forall_mem_ne'.mpr hclear),
    strcmp_eq_zero hzero (List.forall_mem_ne'.mpr hcls),
    strcmp_eq_zero hzero (List.forall_mem_ne'.mpr hexit), if_neg hne, if_pos hpos]
  split
  · rw [foldl_write]
    simp only [State.write, hended, List.append_assoc, List.cons_append, List.nil_append]
  · split
    · rw [foldl_write]
      simp only [State.write, hended, List.append_assoc, List.cons_append, List.nil_append,
        List.map_replicate]
    · split
      · simp only [State.write, List.append_assoc, List.cons_append, List.nil_append]
      · have hlaunch := launch_launches elfExec (w := w.write (ascii "\n")) hended hbuf hzero hlen
        simp only [State.write, List.append_assoc, List.cons_append, List.nil_append] at hlaunch ⊢
        exact hlaunch

/-! ## 5. The lines -/

variable {text keys rest : List UInt8}

/-- The first line is what `sys_read` takes for one. -/
theorem linesFrom_shortest (h : Shortest 127 text line) (hroom : text.length ≠ 127)
    (rest : List UInt8) :
    linesFrom text (line ++ rest) = editLine text line :: lines rest := by
  induction line generalizing text with
  | nil => exact absurd (complete_nil.mp h.complete) hroom
  | cons c line ih =>
    rw [List.cons_append, linesFrom]
    by_cases hc : c = 10
    · subst hc
      obtain rfl := h.newline
      rw [if_pos rfl, editLine_newline, List.nil_append]
      rfl
    · rw [if_neg hc, editLine_cons hc]
      by_cases hfull : (edit text c).length = 127
      · obtain rfl : line = [] := by
          by_contra hne
          exact (h.tail hc).least [] List.nil_prefix (Ne.symm hne) (complete_nil.mpr hfull)
        rw [if_pos hfull, editLine_nil, List.nil_append]
        rfl
      · rw [if_neg hfull]
        exact ih (h.tail hc) hfull

/-- No line is complete. -/
theorem linesFrom_waits (h : ∀ p, p <+: keys → ¬Complete 127 text p) :
    linesFrom text keys = [] := by
  induction keys generalizing text with
  | nil => rfl
  | cons c keys ih =>
    have hc : c ≠ 10 := by
      rintro rfl
      exact h [10] ((List.prefix_cons_inj 10).mpr List.nil_prefix) (.inl rfl)
    have htail : ∀ p, p <+: keys → ¬Complete 127 (edit text c) p := fun p hp hcomplete =>
      h (c :: p) ((List.prefix_cons_inj c).mpr hp) ((complete_cons hc).mpr hcomplete)
    have hfull : (edit text c).length ≠ 127 := fun hfull =>
      htail [] List.nil_prefix (complete_nil.mpr hfull)
    rw [linesFrom, if_neg hc, if_neg hfull]
    exact ih htail

/-- The characters of a line have been typed. -/
theorem mem_editLine {c : UInt8} (h : c ∈ editLine text keys) : c ∈ text ∨ c ∈ keys := by
  induction keys generalizing text with
  | nil => exact .inl h
  | cons d keys ih =>
    by_cases hd : d = 10
    · rw [hd, editLine_newline] at h
      exact .inl h
    · rw [editLine_cons hd] at h
      rcases ih h with htext | hkeys
      · unfold edit at htext
        split at htext
        · exact .inl (List.dropLast_subset _ htext)
        · rcases List.mem_append.mp htext with htext | hlast
          · exact .inl htext
          · rw [List.mem_singleton.mp hlast]
            exact .inr List.mem_cons_self
      · exact .inr (List.mem_cons_of_mem d hkeys)

/-- **A round**: the shell waits, or a line has been read and the shell goes on behind it. -/
theorem run_line (elfExec : Loader) (buffer : BitVec 32) (hended : w.ended = none)
    (keys : List UInt8) :
    let R := (program elfExec buffer).toReader
    (lines keys = [] ∧ (R.run ((program elfExec buffer).enter w) keys).1.1 = w) ∨
      ∃ line rest r, keys = line ++ rest ∧ lines keys = editLine [] line :: lines rest ∧
        (editLine [] line).length < 128 ∧
        r.run.ret = some (BitVec.ofNat 32 (editLine [] line).length) ∧
        HoldsText (store w.mem r.run.stores) buffer (editLine [] line ++ [0]) ∧
        R.run ((program elfExec buffer).enter w) keys =
          R.run ((program elfExec buffer).enter ((program elfExec buffer).finish w r)) rest := by
  intro R
  have hstops : (program elfExec buffer).stops w = false := by
    show w.ended.isSome = false
    rw [hended]
    rfl
  have hwants : (sysReader buffer 128).wants (sysReadStart buffer 128) = true := by
    rw [sysReadStart, loopTest_room (by decide)]
    rfl
  have hrun : R.run ((program elfExec buffer).enter w) keys = _ :=
    Rounds.run_eq (P := program elfExec buffer) hstops hwants keys
  obtain ⟨hdone, hleft⟩ := Prod.mk.inj (@sysReadStart_run buffer 128 keys)
  generalize hx : (sysReader buffer 128).run (sysReadStart buffer 128) keys = x at hdone hleft
  rw [show (program elfExec buffer).reader.run (sysReadStart buffer 128) keys = x from hx] at hrun
  dsimp only at hrun
  by_cases hcomplete : ∃ p, p <+: keys ∧ Complete 127 [] p
  · obtain ⟨p, hp, hcomplete⟩ := hcomplete
    obtain ⟨line, ⟨rest, hkeys⟩, hline⟩ := exists_shortest hp hcomplete
    have hread := @sysReadKeys_line buffer 128 (by decide) line hline rest w.mem
    rw [hkeys] at hread
    have hret : x.1.run.ret = some (BitVec.ofNat 32 (editLine [] line).length) := by
      rw [hdone]
      exact hread.ret
    have hstop : ¬(program elfExec buffer).reader.wants x.1 = true := by
      show ¬x.1.run.ret.isNone = true
      rw [hret]
      exact Bool.false_ne_true
    rw [if_neg hstop] at hrun
    refine .inr ⟨line, rest, x.1, hkeys.symm, ?_, hread.fits, hret, ?_, ?_⟩
    · rw [← hkeys]
      exact linesFrom_shortest hline (by decide) rest
    · rw [hdone]
      exact hread.holds
    · rw [hrun, hleft, hread.left]
  · push Not at hcomplete
    have hwait := (@sysReadKeys_waits buffer 128 0 [] (by decide) keys hcomplete (by decide) rfl).1
    have hgo : (program elfExec buffer).reader.wants x.1 = true := by
      show x.1.run.ret.isNone = true
      rw [hdone, hwait]
      rfl
    rw [if_pos hgo] at hrun
    exact .inl ⟨linesFrom_waits hcomplete, by rw [hrun]⟩

/-! ## 6. The session -/

/-- **A round does what its line means**, and writes the next prompt. -/
theorem finish_respond (elfExec : Loader) {r : ReadState} (hended : w.ended = none)
    (hret : r.run.ret = some (BitVec.ofNat 32 line.length))
    (hholds : HoldsText (store w.mem r.run.stores) buffer (line ++ [0]))
    (hzero : ∀ c ∈ line, c ≠ 0) (hlen : line.length < 128) :
    let w' := (program elfExec buffer).finish w r
    let a := respond elfExec w.events line
    w'.ended = a.2 ∧
      w'.events = w.events ++ a.1 ++ if a.2.isSome then [] else [.write prompt] := by
  intro w' a
  have hint : (BitVec.ofNat 32 line.length).toInt = line.length := by
    rw [BitVec.toInt_eq_toNat_of_lt (by rw [BitVec.toNat_ofNat]; omega), BitVec.toNat_ofNat,
      Nat.mod_eq_of_lt (by omega)]
  -- the state behind `sys_read`, and behind the command
  let v : State := { w with
    mem := store w.mem r.run.stores, screen := r.run.echo.foldl vgaPutChar w.screen }
  let u := if (line.length : Int) = 0 then v else command elfExec buffer v line.length
  have hfinish : w' = if u.ended.isSome then u else u.write prompt := by
    show (program elfExec buffer).finish w r = _
    unfold program
    dsimp only
    rw [hret, Option.getD_some, hint]
  have hu : (u.events, u.ended) = (w.events ++ a.1, a.2) := by
    by_cases hne : line = []
    · have ha : a = ([], none) := if_pos hne
      have huv : u = v := if_pos (by rw [hne]; rfl)
      rw [ha, huv, List.append_nil, ← hended]
    · have hlen0 : ¬(line.length : Int) = 0 := fun h0 =>
        hne (List.length_eq_zero_iff.mp (Int.natCast_eq_zero.mp h0))
      have huv : u = command elfExec buffer v line.length := if_neg hlen0
      rw [huv]
      exact command_respond (w := v) hended (bufferText_eq hholds hzero hlen) hzero hne hlen
  obtain ⟨hevents, hended'⟩ := Prod.mk.inj hu
  rw [hfinish, hended']
  cases ha : a.2 with
  | none =>
    refine ⟨hended'.trans ha, ?_⟩
    show u.events ++ [Event.write prompt] = _
    rw [hevents]
    rfl
  | some ending =>
    refine ⟨hended'.trans ha, ?_⟩
    show u.events = _
    rw [hevents]
    exact (List.append_nil _).symm

/-- **The run of a session.** -/
theorem run_session (elfExec : Loader) (buffer : BitVec 32) (hended : w.ended = none)
    (hzero : 0 ∉ keys) :
    let r := ((program elfExec buffer).toReader.run ((program elfExec buffer).enter w) keys).1.1
    (r.events, r.ended) = session elfExec w.events (lines keys) := by
  dsimp only
  induction hlines : lines keys generalizing w keys with
  | nil =>
    rcases run_line elfExec buffer hended keys with ⟨-, hwait⟩ | ⟨line, rest, r, -, h, -⟩
    · rw [hwait, session, hended]
    · rw [hlines] at h
      cases h
  | cons t ts ih =>
    rcases run_line elfExec buffer hended keys with
      ⟨hnone, -⟩ | ⟨line, rest, r, hkeys, hsome, hlen, hret, hholds, hrun⟩
    · rw [hlines] at hnone
      cases hnone
    · obtain ⟨rfl, hrest⟩ := List.cons.inj (hlines.symm.trans hsome)
      have hline : ∀ c ∈ editLine [] line, c ≠ 0 := by
        rintro c hc rfl
        have hmem := (mem_editLine hc).resolve_left List.not_mem_nil
        exact hzero (by rw [hkeys]; exact List.mem_append_left rest hmem)
      have hzero' : 0 ∉ rest := fun h => hzero (by rw [hkeys]; exact List.mem_append_right line h)
      obtain ⟨hended', hevents⟩ := finish_respond elfExec hended hret hholds hline hlen
      rw [hrun, session]
      cases ha : respond elfExec w.events (editLine [] line) with
      | mk events ending =>
        rw [ha] at hended' hevents
        cases ending with
        | none =>
          have hnext := ih hended' hzero' hrest.symm
          rw [hevents] at hnext
          exact hnext
        | some e =>
          have hstops :
              (program elfExec buffer).stops ((program elfExec buffer).finish w r) = true := by
            show ((program elfExec buffer).finish w r).ended.isSome = true
            rw [hended']
            rfl
          rw [Rounds.enter, Rounds.run_stops hstops]
          dsimp only
          rw [hevents, hended', Option.isSome_some, if_pos rfl, List.append_nil]

/-- The shell on the keyboard's driver, after some interrupts and steps. -/
def shellConsole (elfExec : Loader) (buffer : BitVec 32) (first : State)
    (acts : List Keyboard.Act) :
    Console (State × ReadState) :=
  acts.foldl (Console.next (program elfExec buffer).toReader)
    (Console.boot ((program elfExec buffer).enter first))

end FlowOS.Shell
