/-
# The login screen (`kernel.c`)

`show_login_screen` asks for a name and a password, by `read_input`, and asks again until neither is
empty.  With `read_input` as a `Reader`, it is a program that reads in rounds, one for each field.

What has been typed into a field is a text (`fieldEdit`), the stream of keys a list of such texts,
one for each newline (`entries`), and two of them are an attempt.  `login_accepts` says that the
first attempt with two texts that are not empty is the one that is accepted, and what the two
buffers hold then.  `login_masks_password` compares two sessions: what is on the screen, at every
moment, does not depend on the characters of the passwords.

The waiting of `timer_wait` changes neither the screen nor the buffers and is left out; keys that
are pressed meanwhile are in the keyboard's ring.
-/
import FlowOS.Console.Typing
import FlowOS.Console.Screens
import FlowOS.Lib.CString

namespace FlowOS.Login

open FlowOS.Vga
open CArray (textFrom textOf textFrom_eq textFrom_length)
open Keyboard (ascii)

/-! ## 1. The program -/

/-- `field_col`. -/
def fieldCol : Int := 35

/-- `field_width`. -/
def fieldWidth : Int := 20

/-- A call of `read_input`: the row and the kind of its field, what it has done, and what it has
returned, if it has. -/
structure Entry where
  row : Int
  isPassword : Bool
  field : Field
  ret : Option Int

/-- The loop of `read_input`. -/
def readInputReader : Reader UInt8 Entry where
  wants e := e.ret.isNone
  feed e c :=
    if c = 0x0A then
      { e with
        field := { e.field with buffer := Function.update e.field.buffer e.field.pos 0 }
        ret := some e.field.pos }
    else { e with field := e.field.key e.row fieldCol fieldWidth e.isPassword c }

/-- `show_login_screen` between two fields: the screen, `login_username` and `login_password`, which
field comes next, and whether the loop has been left. -/
structure State where
  screen : Screen
  username : Int → UInt8
  password : Int → UInt8
  atPassword : Bool
  done : Bool

/-- The screen before the loop. -/
def loginScreen (s : Screen) : Screen :=
  let s := vgaClear s
  let s := drawBox s 6 20 12 40
  let s := vgaWriteCentered s 8 (ascii "FlowOS Login")
  let s := vgaWriteAt s 10 24 (ascii "Username:")
  let s := drawInputField s 10 fieldCol fieldWidth
  let s := vgaWriteAt s 12 24 (ascii "Password:")
  let s := drawInputField s 12 fieldCol fieldWidth
  vgaWriteCentered s 15 (ascii "Press ENTER after each field")

/-- What is drawn when an attempt has failed. -/
def rejected (s : Screen) : Screen :=
  let s := vgaWriteCentered s 15 (ascii "Invalid credentials!")
  let s := vgaWriteCentered s 15 (List.replicate 29 0x20)
  let s := vgaWriteCentered s 15 (ascii "Press ENTER after each field")
  let s := drawInputField s 10 fieldCol fieldWidth
  drawInputField s 12 fieldCol fieldWidth

/-- What is drawn behind the loop. -/
def authenticating (s : Screen) : Screen :=
  let s := vgaWriteCentered s 15 (List.replicate 29 0x20)
  let s := vgaWriteCentered s 15 (ascii "Authenticating...")
  vgaWriteCentered s 15 (ascii "Authenticating...")

/-- Are both strings non-empty? -/
def check (w : State) : State :=
  if 0 < kstrlen (textOf w.username 32) ∧ 0 < kstrlen (textOf w.password 32) then
    { w with screen := authenticating w.screen, done := true }
  else { w with screen := rejected w.screen, atPassword := false }

/-- The loop of `show_login_screen`. -/
def program : Rounds UInt8 Entry State where
  reader := readInputReader
  start w :=
    if w.atPassword then
      ⟨12, true, ⟨0, w.password, drawInputField w.screen 12 fieldCol fieldWidth⟩, none⟩
    else ⟨10, false, ⟨0, w.username, drawInputField w.screen 10 fieldCol fieldWidth⟩, none⟩
  finish w e :=
    if w.atPassword then check { w with screen := e.field.screen, password := e.field.buffer }
    else { w with screen := e.field.screen, username := e.field.buffer, atPassword := true }
  stops w := w.done

/-- `show_login_screen` at its first key. -/
def initial (s : Screen) (username password : Int → UInt8) : State :=
  ⟨loginScreen s, username, password, false, false⟩

/-- `show_login_screen` on some keys: where it is, and the keys that it leaves. -/
def showLoginScreen (s : Screen) (username password : Int → UInt8) (keys : List UInt8) :
    (State × Entry) × List UInt8 :=
  program.toReader.run (program.enter (initial s username password)) keys

/-- The screen in the middle of it: `read_input` draws. -/
def shown (x : State × Entry) : Screen := if x.1.done then x.1.screen else x.2.field.screen

/-- It is `read_input`, with the keys behind the newline left. -/
theorem readInputReader_run (row : Int) (isPassword : Bool) (f : Field) (keys : List UInt8) :
    readInputReader.run ⟨row, isPassword, f, none⟩ keys =
      let r := readInputLoop row fieldCol fieldWidth isPassword keys f
      (⟨row, isPassword, r.1, r.2⟩, (keys.dropWhile (· ≠ 0x0A)).tail) := by
  induction keys generalizing f with
  | nil => rfl
  | cons c keys ih =>
    rw [Reader.run_cons rfl, readInputLoop]
    by_cases hc : c = 0x0A
    · rw [if_pos hc, List.dropWhile_cons_of_neg (by simpa using hc), List.tail_cons]
      have hfeed : readInputReader.feed ⟨row, isPassword, f, none⟩ c = ⟨row, isPassword,
          { f with buffer := Function.update f.buffer f.pos 0 }, some f.pos⟩ := if_pos hc
      rw [hfeed, Reader.run_ended rfl]
    · rw [if_neg hc, List.dropWhile_cons_of_pos (by simpa using hc)]
      have hfeed : readInputReader.feed ⟨row, isPassword, f, none⟩ c = ⟨row, isPassword,
          f.key row fieldCol fieldWidth isPassword c, none⟩ := if_neg hc
      rw [hfeed, ih]

/-! ## 2. Texts -/

/-- What a key does to the text in a field. -/
def fieldEdit (text : List UInt8) (c : UInt8) : List UInt8 :=
  if c = 0x08 then text.dropLast
  else if text.length < 19 ∧ 32 ≤ c ∧ c < 127 then text ++ [c]
  else text

/-- The texts that are typed: one for each newline, with `text` in the first field already. -/
def entriesFrom : List UInt8 → List UInt8 → List (List UInt8)
  | _, [] => []
  | text, c :: keys =>
    if c = 0x0A then text :: entriesFrom [] keys else entriesFrom (fieldEdit text c) keys

/-- The texts that are typed. -/
def entries (keys : List UInt8) : List (List UInt8) := entriesFrom [] keys

/-- Name and password. -/
def attempts : List (List UInt8) → List (List UInt8 × List UInt8)
  | u :: p :: rest => (u, p) :: attempts rest
  | _ => []

/-- Neither is empty. -/
def Good (a : List UInt8 × List UInt8) : Prop := a.1 ≠ [] ∧ a.2 ≠ []

/-- The keys behind the newline of that number. -/
def behind : Nat → List UInt8 → List UInt8
  | 0, keys => keys
  | n + 1, keys => behind n (keys.dropWhile (· ≠ 0x0A)).tail

variable {row : Int} {isPassword : Bool} {f : Field} {text keys : List UInt8}

/-- A field that holds a text. -/
structure Typed (f : Field) (text : List UInt8) : Prop where
  pos : f.pos = text.length
  holds : ∀ j (hj : j < text.length), f.buffer j = text[j]
  short : text.length ≤ 19
  noZero : ∀ c ∈ text, c ≠ 0

theorem typed_nil (buffer : Int → UInt8) (s : Screen) : Typed ⟨0, buffer, s⟩ [] :=
  ⟨rfl, fun j hj => absurd hj (Nat.not_lt_zero j), Nat.zero_le 19, nofun⟩

/-- **Step lemma.** -/
theorem Typed.key (h : Typed f text) (c : UInt8) :
    Typed (f.key row fieldCol fieldWidth isPassword c) (fieldEdit text c) := by
  have hpos := h.pos
  unfold Field.key fieldEdit
  by_cases hback : c = 0x08
  · rw [if_pos hback, if_pos hback]
    by_cases h0 : 0 < f.pos
    · rw [if_pos h0]
      refine ⟨?_, fun j hj => ?_, ?_, fun d hd => h.noZero d (List.dropLast_subset _ hd)⟩
      · rw [List.length_dropLast]
        show f.pos - 1 = _
        omega
      · rw [List.getElem_dropLast]
        rw [List.length_dropLast] at hj
        exact h.holds j (by omega)
      · rw [List.length_dropLast]
        have := h.short
        omega
    · obtain rfl : text = [] := List.length_eq_zero_iff.mp (by omega)
      rw [if_neg h0]
      exact h
  · rw [if_neg hback, if_neg hback]
    have hroom : (f.pos < fieldWidth - 1 ∧ 32 ≤ c ∧ c < 127) ↔
        (text.length < 19 ∧ 32 ≤ c ∧ c < 127) := by
      have hwidth : fieldWidth = 20 := rfl
      rw [hpos, hwidth]
      exact and_congr_left' (by omega)
    by_cases hprint : text.length < 19 ∧ 32 ≤ c ∧ c < 127
    · rw [if_pos (hroom.mpr hprint), if_pos hprint]
      refine ⟨?_, fun j hj => ?_, ?_, fun d hd => ?_⟩
      · rw [List.length_append, List.length_singleton]
        show f.pos + 1 = _
        omega
      · rw [List.length_append, List.length_singleton] at hj
        dsimp only
        rcases Nat.lt_or_ge j text.length with hlt | hge
        · rw [Function.update_of_ne (by omega), List.getElem_append_left hlt]
          exact h.holds j hlt
        · obtain rfl : j = text.length := by omega
          rw [← hpos, Function.update_self, List.getElem_concat_length rfl]
      · rw [List.length_append, List.length_singleton]
        omega
      · rcases List.mem_append.mp hd with hd | hd
        · exact h.noZero d hd
        · rw [List.mem_singleton.mp hd]
          rintro rfl
          exact absurd hprint.2.1 (by decide)
    · rw [if_neg fun hr => hprint (hroom.mp hr), if_neg hprint]
      exact h

/-- The newline ends the text. -/
theorem Typed.ended (h : Typed f text) :
    textOf (Function.update f.buffer f.pos 0) 32 = text := by
  have hshort := h.short
  have hpos := h.pos
  refine textFrom_eq h.noZero (by omega) (fun j hj => ?_) ?_
  · rw [Function.update_of_ne (by omega), Int.zero_add]
    exact h.holds j hj
  · rw [Int.zero_add, ← hpos, Function.update_self]

/-- **`read_input` reads a text**, or waits. -/
theorem readInputLoop_text (h : Typed f text) (keys : List UInt8) :
    let r := readInputLoop row fieldCol fieldWidth isPassword keys f
    (r.2 = none ∧ entriesFrom text keys = []) ∨
      ∃ t, r.2 = some (t.length : Int) ∧ textOf r.1.buffer 32 = t ∧
        entriesFrom text keys = t :: entries (behind 1 keys) := by
  induction keys generalizing f text with
  | nil => exact .inl ⟨rfl, rfl⟩
  | cons c keys ih =>
    rw [readInputLoop, entriesFrom, behind]
    by_cases hc : c = 0x0A
    · rw [if_pos hc, if_pos hc, List.dropWhile_cons_of_neg (by simpa using hc), List.tail_cons]
      exact .inr ⟨text, congrArg some h.pos, h.ended, rfl⟩
    · rw [if_neg hc, if_neg hc, List.dropWhile_cons_of_pos (by simpa using hc)]
      exact ih (h.key c)

/-! ## 3. Rounds -/

variable {w : State}

/-- A round begins in an empty field. -/
theorem start_typed (w : State) : ∃ row isPassword f,
    program.start w = ⟨row, isPassword, f, none⟩ ∧ Typed f [] := by
  unfold program
  dsimp only
  split
  · exact ⟨_, _, _, rfl, typed_nil _ _⟩
  · exact ⟨_, _, _, rfl, typed_nil _ _⟩

/-- Behind the name comes the password. -/
theorem finish_name (hat : w.atPassword = false) (e : Entry) :
    program.finish w e =
      { w with screen := e.field.screen, username := e.field.buffer, atPassword := true } := by
  unfold program
  dsimp only
  rw [if_neg (by rw [hat]; decide)]

/-- Behind the password comes the check. -/
theorem finish_password (hat : w.atPassword = true) (e : Entry) :
    program.finish w e = check { w with screen := e.field.screen, password := e.field.buffer } := by
  unfold program
  dsimp only
  rw [if_pos hat]

/-- **A field**: the program waits in it, or it has read a text and goes on behind the newline. -/
theorem run_field (hdone : w.done = false) (keys : List UInt8) :
    (entries keys = [] ∧ (program.toReader.run (program.enter w) keys).1.1 = w) ∨
      ∃ t e, entries keys = t :: entries (behind 1 keys) ∧ textOf e.field.buffer 32 = t ∧
        program.toReader.run (program.enter w) keys =
          program.toReader.run (program.enter (program.finish w e)) (behind 1 keys) := by
  obtain ⟨row, isPassword, f, hstart, htyped⟩ := start_typed w
  have henter : program.enter w = (w, ⟨row, isPassword, f, none⟩) := by
    rw [Rounds.enter, hstart]
  have hrun := Rounds.run_eq (P := program) (w := w) (s := ⟨row, isPassword, f, none⟩) hdone rfl
      keys
  rw [← henter, show program.reader = readInputReader from rfl, readInputReader_run] at hrun
  dsimp only at hrun
  rcases @readInputLoop_text row isPassword f [] htyped keys with
    ⟨hnone, hentries⟩ | ⟨t, hsome, htext, hentries⟩
  · left
    rw [hnone] at hrun
    exact ⟨hentries, by rw [hrun]; rfl⟩
  · right
    rw [hsome] at hrun
    exact ⟨t, _, hentries, htext, hrun⟩

/-- **An attempt**: it is not complete, or it is checked and the program goes on behind it. -/
theorem run_attempt (hdone : w.done = false) (hat : w.atPassword = false) (keys : List UInt8) :
    (attempts (entries keys) = [] ∧
        (program.toReader.run (program.enter w) keys).1.1.done = false) ∨
      ∃ u p w', attempts (entries keys) = (u, p) :: attempts (entries (behind 2 keys)) ∧
        textOf w'.username 32 = u ∧ textOf w'.password 32 = p ∧ w'.done = false ∧
        program.toReader.run (program.enter w) keys =
          program.toReader.run (program.enter (check w')) (behind 2 keys) := by
  rcases run_field hdone keys with ⟨hentries, hwait⟩ | ⟨u, e, hentries, hu, hrun⟩
  · left
    rw [hentries, hwait]
    exact ⟨rfl, hdone⟩
  · rw [finish_name hat] at hrun
    have hkeys : behind 1 (behind 1 keys) = behind 2 keys := rfl
    rcases run_field (w := { w with
      screen := e.field.screen, username := e.field.buffer, atPassword := true }) hdone
      (behind 1 keys) with ⟨hnone, hwait⟩ | ⟨p, e', hentries', hp, hrun'⟩
    · left
      rw [hentries, hnone, hrun, hwait]
      exact ⟨rfl, hdone⟩
    · right
      rw [hkeys, finish_password rfl] at hrun'
      rw [hkeys] at hentries'
      refine ⟨u, p, _, by rw [hentries, hentries']; rfl, hu, ?_, ?_, hrun.trans hrun'⟩
      · exact hp
      · exact hdone

theorem kstrlen_pos {text : List UInt8} : 0 < kstrlen text ↔ text ≠ [] := by
  unfold kstrlen
  rw [Int.natCast_pos, List.length_pos_iff]

/-- The check lets an attempt pass exactly if it is good. -/
theorem check_good (h : Good (textOf w.username 32, textOf w.password 32)) :
    check w = { w with screen := authenticating w.screen, done := true } :=
  if_pos ⟨kstrlen_pos.mpr h.1, kstrlen_pos.mpr h.2⟩

theorem check_bad (h : ¬Good (textOf w.username 32, textOf w.password 32)) :
    check w = { w with screen := rejected w.screen, atPassword := false } :=
  if_neg fun hpos => h ⟨kstrlen_pos.mp hpos.1, kstrlen_pos.mp hpos.2⟩

/-- What `show_login_screen` has done on some keys, in terms of the attempts in them. -/
structure Accepts (keys : List UInt8) (r : (State × Entry) × List UInt8) : Prop where
  done : r.1.1.done = true ↔ ∃ a ∈ attempts (entries keys), Good a
  first : ∀ n u p, (attempts (entries keys))[n]? = some (u, p) → Good (u, p) →
    (∀ m < n, ∀ a, (attempts (entries keys))[m]? = some a → ¬Good a) →
    textOf r.1.1.username 32 = u ∧ textOf r.1.1.password 32 = p ∧
      r.2 = behind (2 * (n + 1)) keys

theorem behind_add (m n : Nat) (keys : List UInt8) :
    behind n (behind m keys) = behind (m + n) keys := by
  induction m generalizing keys with
  | zero => rw [behind, Nat.zero_add]
  | succ m ih => rw [behind, ih, Nat.succ_add, behind]

theorem run_accepts (hdone : w.done = false) (hat : w.atPassword = false) (keys : List UInt8) :
    Accepts keys (program.toReader.run (program.enter w) keys) := by
  induction has : attempts (entries keys) generalizing w keys with
  | nil =>
    rcases run_attempt hdone hat keys with ⟨hnone, hwait⟩ | ⟨u, p, w', hsome, -⟩
    · refine ⟨?_, fun n u p hn => ?_⟩
      · rw [hwait, hnone]
        simp
      · rw [hnone] at hn
        cases hn
    · rw [has] at hsome
      cases hsome
  | cons a as ih =>
    rcases run_attempt hdone hat keys with ⟨hnone, -⟩ | ⟨u, p, w', hsome, hu, hp, hdone', hrun⟩
    · rw [has] at hnone
      cases hnone
    · obtain ⟨rfl, has'⟩ := List.cons.inj (has.symm.trans hsome)
      by_cases hgood : Good (u, p)
      · have hcheck : check w' = { w' with screen := authenticating w'.screen, done := true } :=
          check_good (by rw [hu, hp]; exact hgood)
        rw [hrun, hcheck, Rounds.enter, Rounds.run_stops rfl]
        refine ⟨iff_of_true rfl ⟨(u, p), by rw [hsome]; exact List.mem_cons_self, hgood⟩, ?_⟩
        intro n u' p' hn _ hbefore
        cases n with
        | zero =>
          rw [hsome, List.getElem?_cons_zero] at hn
          obtain ⟨rfl, rfl⟩ := Prod.mk.inj (Option.some.inj hn)
          exact ⟨hu, hp, rfl⟩
        | succ n =>
          exact absurd hgood (hbefore 0 (Nat.zero_lt_succ n) (u, p) (by rw [hsome]; rfl))
      · have hcheck : check w' = { w' with screen := rejected w'.screen, atPassword := false } :=
          check_bad (by rw [hu, hp]; exact hgood)
        have hnext := ih (w := { w' with screen := rejected w'.screen, atPassword := false })
          hdone' rfl (behind 2 keys) has'.symm
        rw [hrun, hcheck]
        refine ⟨?_, fun n u' p' hn hg hbefore => ?_⟩
        · rw [hnext.done, hsome]
          simp [hgood]
        · rw [hsome] at hn hbefore
          cases n with
          | zero =>
            obtain ⟨rfl, rfl⟩ := Prod.mk.inj (Option.some.inj hn)
            exact absurd hg hgood
          | succ n =>
            obtain ⟨hu', hp', hrest⟩ := hnext.first n u' p' hn hg fun m hm a ha =>
              hbefore (m + 1) (Nat.succ_lt_succ hm) a ha
            refine ⟨hu', hp', hrest.trans ?_⟩
            rw [behind_add]
            congr 1
            omega

/-- The login on the keyboard's driver, after some interrupts and steps. -/
def loginConsole (s : Screen) (username password : Int → UInt8) (acts : List Keyboard.Act) :
    Console (State × Entry) :=
  acts.foldl (Console.next program.toReader)
    (Console.boot (program.enter (initial s username password)))

/-- **The first good attempt is the one that is accepted**, for every order of key presses and
steps: the loop is left exactly if there is an attempt with a name and a password that are not
empty; then the two buffers hold the name and the password of the first one, and the characters
behind it are left in the ring.  This holds of the characters that have been taken, and after `3 *
255` steps of all that have been typed. -/
theorem login_accepts (s : Screen) (username password : Int → UInt8) (acts : List Keyboard.Act) :
    let now := loginConsole s username password acts
    Accepts now.kbd.returned (now.prog, []) ∧
      ∀ n, 3 * 255 ≤ n →
        let later := Console.steps program.toReader n now
        Accepts now.kbd.accepted (later.prog, Keyboard.contents later.kbd.keyboard) := by
  exact Console.of_run (Q := Accepts) (fun keys _ => run_accepts rfl rfl keys) acts

/-! ## 4. Two sessions with different passwords -/

/-- The keys of two sessions: in a name they are the same, in a password only their classes are. -/
def Alike : Bool → List UInt8 → List UInt8 → Prop
  | _, [], [] => True
  | inPassword, c :: keys, c' :: keys' =>
    (if inPassword then keyClass c = keyClass c' else c = c') ∧
      Alike (if c = 0x0A then !inPassword else inPassword) keys keys'
  | _, _, _ => False

instance : ∀ (inPassword : Bool) (keys keys' : List UInt8),
    Decidable (Alike inPassword keys keys')
  | _, [], [] => isTrue trivial
  | _, [], _ :: _ => isFalse id
  | _, _ :: _, [] => isFalse id
  | inPassword, c :: keys, c' :: keys' =>
    have := instDecidableAlike (if c = 0x0A then !inPassword else inPassword) keys keys'
    inferInstanceAs (Decidable ((if inPassword then keyClass c = keyClass c' else c = c') ∧ _))

theorem Alike.length_eq {inPassword : Bool} {keys keys' : List UInt8}
    (h : Alike inPassword keys keys') : keys.length = keys'.length := by
  induction keys generalizing inPassword keys' with
  | nil =>
    cases keys' with
    | nil => rfl
    | cons c' keys' => exact h.elim
  | cons c keys ih =>
    cases keys' with
    | nil => exact h.elim
    | cons c' keys' => rw [List.length_cons, List.length_cons, ih h.2]

variable {x x' : State × Entry}

/-- A session in the middle of a field. -/
structure Running (x : State × Entry) : Prop where
  ret : x.2.ret = none
  kind : x.2.isPassword = x.1.atPassword
  typed : ∃ text, Typed x.2.field text

/-- Two sessions that look the same. -/
structure Same (x x' : State × Entry) : Prop where
  screen : x.1.screen = x'.1.screen
  username : x.1.username = x'.1.username
  atPassword : x.1.atPassword = x'.1.atPassword
  done : x.1.done = x'.1.done
  row : x.2.row = x'.2.row
  view : x.2.field.view = x'.2.field.view
  buffer : x.1.atPassword = false → x.2.field.buffer = x'.2.field.buffer

theorem running_enter (w : State) : Running (program.enter w) := by
  unfold Rounds.enter program
  dsimp only
  by_cases hat : w.atPassword = true
  · rw [if_pos hat]
    exact ⟨rfl, hat.symm, [], typed_nil _ _⟩
  · rw [if_neg hat]
    exact ⟨rfl, (Bool.eq_false_iff.mpr hat).symm, [], typed_nil _ _⟩

/-- Between two fields nothing but the password may differ. -/
theorem same_enter {w w' : State} (hscreen : w.screen = w'.screen)
    (husername : w.username = w'.username) (hat : w.atPassword = w'.atPassword)
    (hdone : w.done = w'.done) : Same (program.enter w) (program.enter w') := by
  unfold Rounds.enter program
  dsimp only
  rw [← hat, ← hscreen, ← husername]
  by_cases hpw : w.atPassword = true
  · rw [if_pos hpw, if_pos hpw]
    exact ⟨hscreen, husername, hat, hdone, rfl, rfl, fun hno => absurd hpw (by rw [hno]; decide)⟩
  · rw [if_neg hpw, if_neg hpw]
    exact ⟨hscreen, husername, hat, hdone, rfl, rfl, fun _ => rfl⟩

/-- The field when the newline has been typed. -/
def Entry.ended (e : Entry) : Entry :=
  { e with
    field := { e.field with buffer := Function.update e.field.buffer e.field.pos 0 }
    ret := some e.field.pos }

theorem feed_newline (x : State × Entry) :
    program.toReader.feed x 0x0A = program.enter (program.finish x.1 x.2.ended) := rfl

theorem feed_key (h : Running x) {c : UInt8} (hc : c ≠ 0x0A) :
    program.toReader.feed x c =
      (x.1, { x.2 with field := x.2.field.key x.2.row fieldCol fieldWidth x.2.isPassword c }) := by
  have hfeed : program.reader.feed x.2 c =
      { x.2 with field := x.2.field.key x.2.row fieldCol fieldWidth x.2.isPassword c } := if_neg hc
  have hwants : program.reader.wants (program.reader.feed x.2 c) = true := by
    rw [hfeed]
    show x.2.ret.isNone = true
    rw [h.ret]
    rfl
  show (if _ then _ else _) = _
  rw [if_pos hwants, hfeed]

theorem Running.feed (h : Running x) (c : UInt8) : Running (program.toReader.feed x c) := by
  by_cases hc : c = 0x0A
  · rw [hc, feed_newline]
    exact running_enter _
  · obtain ⟨text, htext⟩ := h.typed
    rw [feed_key h hc]
    exact ⟨h.ret, h.kind, _, htext.key c⟩

/-- The check looks at the password only to see whether it is empty. -/
theorem check_same {w w' : State} (hscreen : w.screen = w'.screen)
    (husername : w.username = w'.username) (hat : w.atPassword = w'.atPassword)
    (hdone : w.done = w'.done)
    (hempty : 0 < kstrlen (textOf w.password 32) ↔ 0 < kstrlen (textOf w'.password 32)) :
    Same (program.enter (check w)) (program.enter (check w')) := by
  unfold check
  rw [← husername]
  by_cases hgood : 0 < kstrlen (textOf w.username 32) ∧ 0 < kstrlen (textOf w.password 32)
  · rw [if_pos hgood, if_pos ⟨hgood.1, hempty.mp hgood.2⟩]
    refine same_enter ?_ rfl hat rfl
    dsimp only
    rw [hscreen]
  · rw [if_neg hgood, if_neg fun h => hgood ⟨h.1, hempty.mpr h.2⟩]
    refine same_enter ?_ rfl rfl hdone
    dsimp only
    rw [hscreen]

/-- The length of a password is the position in its field. -/
theorem Running.kstrlen_pos (h : Running x) :
    0 < kstrlen (textOf x.2.ended.field.buffer 32) ↔ 0 < x.2.field.pos := by
  obtain ⟨text, htext⟩ := h.typed
  rw [show textOf x.2.ended.field.buffer 32 = text from htext.ended, htext.pos]
  rfl

/-- **Step lemma.** -/
theorem Same.feed (h : Same x x') (hx : Running x) (hx' : Running x') {c c' : UInt8}
    (hkeys : if x.1.atPassword then keyClass c = keyClass c' else c = c') :
    Same (program.toReader.feed x c) (program.toReader.feed x' c') := by
  obtain ⟨hpos, hscreen⟩ := View.mk.inj h.view
  cases hat : x.1.atPassword with
  | false =>
    rw [hat] at hkeys
    obtain rfl : c = c' := hkeys
    have hbuffer := h.buffer hat
    have hat' : x'.1.atPassword = false := h.atPassword.symm.trans hat
    have hfield : x.2.field = x'.2.field := by
      cases hf : x.2.field
      cases hf' : x'.2.field
      rw [hf, hf'] at hpos hscreen hbuffer
      rw [Field.mk.injEq]
      exact ⟨hpos, hbuffer, hscreen⟩
    by_cases hc : c = 0x0A
    · rw [hc, feed_newline, feed_newline]
      rw [finish_name hat, finish_name hat']
      refine same_enter hscreen ?_ rfl h.done
      dsimp only [Entry.ended]
      rw [hfield]
    · rw [feed_key hx hc, feed_key hx' hc]
      have hkind : x.2.isPassword = x'.2.isPassword := by rw [hx.kind, hx'.kind, hat, hat']
      refine ⟨h.screen, h.username, h.atPassword, h.done, h.row, ?_, fun _ => ?_⟩
      · rw [hfield, h.row, hkind]
      · rw [hfield, h.row, hkind]
  | true =>
    rw [hat] at hkeys
    have hclass : keyClass c = keyClass c' := hkeys
    have hat' : x'.1.atPassword = true := h.atPassword.symm.trans hat
    have hkind : x.2.isPassword = true := hx.kind.trans hat
    have hkind' : x'.2.isPassword = true := hx'.kind.trans hat'
    by_cases hc : c = 0x0A
    · have hc' : c' = 0x0A := by
        rw [← keyClass_newline, ← hclass, keyClass_newline]
        exact hc
      rw [hc, hc', feed_newline, feed_newline, finish_password hat, finish_password hat']
      refine check_same hscreen h.username h.atPassword h.done ?_
      rw [hx.kstrlen_pos, hx'.kstrlen_pos, hpos]
    · have hc' : c' ≠ 0x0A := by
        rw [ne_eq, ← keyClass_newline, ← hclass, keyClass_newline]
        exact hc
      rw [feed_key hx hc, feed_key hx' hc']
      refine ⟨h.screen, h.username, h.atPassword, h.done, h.row, ?_, fun hno => ?_⟩
      · dsimp only
        rw [hkind, hkind', Field.key_view hc, Field.key_view hc', h.view, h.row, hclass]
      · exact absurd hat (by rw [show x.1.atPassword = false from hno]; decide)

/-- Two sessions with the keys that are still to come. -/
structure Sim (x : State × Entry) (keys : List UInt8) (x' : State × Entry) (keys' : List UInt8) :
    Prop where
  left : Running x
  right : Running x'
  same : Same x x'
  length : keys.length = keys'.length
  alike : x.1.done = false → Alike x.1.atPassword keys keys'

/-- Which field comes next. -/
theorem feed_atPassword (h : Running x) (c : UInt8)
    (hdone : (program.toReader.feed x c).1.done = false) :
    (program.toReader.feed x c).1.atPassword =
      if c = 0x0A then !x.1.atPassword else x.1.atPassword := by
  by_cases hc : c = 0x0A
  · rw [if_pos hc]
    rw [hc, feed_newline] at hdone ⊢
    cases hat : x.1.atPassword with
    | false =>
      rw [finish_name hat]
      rfl
    | true =>
      rw [finish_password hat] at hdone ⊢
      unfold Rounds.enter check at hdone ⊢
      dsimp only at hdone ⊢
      split at hdone
      · cases hdone
      · rename_i hbad
        rw [if_neg hbad]
        rfl
  · rw [if_neg hc, feed_key h hc]

/-- **Step lemma**, with the keys. -/
theorem Sim.feed {c : UInt8} {keys keys' : List UInt8} (h : Sim x (c :: keys) x' keys')
    (hdone : x.1.done = false) : ∃ c' rest, keys' = c' :: rest ∧
      Sim (program.toReader.feed x c) keys (program.toReader.feed x' c') rest := by
  have halike := h.alike hdone
  cases keys' with
  | nil => exact halike.elim
  | cons c' rest =>
    obtain ⟨hkey, hrest⟩ := halike
    refine ⟨c', rest, rfl, h.left.feed c, h.right.feed c', h.same.feed h.left h.right hkey,
      hrest.length_eq, fun hdone' => ?_⟩
    rw [feed_atPassword h.left c hdone']
    exact hrest

/-- **The password never shows.**  Two sessions with the same keys in the names, and with keys of
the same classes in the passwords, look the same at every moment: byte for byte on the screen; and
the loop is left by both or by none, with the same name. -/
theorem login_masks_password (s : Screen) (username password password' : Int → UInt8)
    (keys keys' : List UInt8) (halike : Alike false keys keys') :
    let r := (showLoginScreen s username password keys).1
    let r' := (showLoginScreen s username password' keys').1
    shown r = shown r' ∧ r.1.done = r'.1.done ∧ r.1.username = r'.1.username := by
  intro r r'
  have hstart : Sim (program.enter (initial s username password)) keys
      (program.enter (initial s username password')) keys' :=
    ⟨running_enter _, running_enter _, same_enter rfl rfl rfl rfl, halike.length_eq,
      fun _ => halike⟩
  have hend : Sim r _ r' _ := Reader.run_sim (R := program.toReader)
    (fun h => congrArg not h.same.done)
    (fun h => List.length_eq_zero_iff.mp h.length.symm)
    (fun h hwants => h.feed (by simpa [Rounds.toReader, program] using hwants)) hstart
  refine ⟨?_, hend.same.done, hend.same.username⟩
  unfold shown
  rw [← hend.same.done, hend.same.screen, (View.mk.inj hend.same.view).2]

/-- `me`, and then the passwords `sun` and `ink`. -/
theorem login_masks_password_words :
    shown (showLoginScreen (boot fun _ => 0) (fun _ => 0) (fun _ => 0)
        (ascii "me\nsun\n")).1 =
      shown (showLoginScreen (boot fun _ => 0) (fun _ => 0) (fun _ => 0)
        (ascii "me\nink\n")).1 :=
  (login_masks_password (boot fun _ => 0) (fun _ => 0) (fun _ => 0) (fun _ => 0) _ _
    (by decide)).1

/-! ## 5. On the screen -/

/-- The string that `show_booted_message` builds in `welcome[48]`: from index 9 on it copies while
the index is below 46. -/
def welcome (username : Int → UInt8) : List UInt8 :=
  ascii "Welcome, " ++ textFrom username 37 0 ++ ascii "!"

/-- `show_booted_message`. -/
def showBootedMessage (s : Screen) (username : Int → UInt8) : Screen :=
  let s := vgaClear s
  let s := drawBox s 9 15 7 50
  let oldColor := s.color
  let s := vgaWriteCentered { s with color := 0x0A } 12 (ascii "FlowOS Booted")
  vgaWriteCentered { s with color := oldColor } 18 (welcome username)

theorem welcome_fits (username : Int → UInt8) : (welcome username).length + 1 ≤ 48 := by
  have hname := textFrom_length username 37 0
  have hhead : (ascii "Welcome, ").length = 9 := rfl
  have htail : (ascii "!").length = 1 := rfl
  rw [welcome, List.length_append, List.length_append, hhead, htail]
  omega

theorem inside_color {s : Screen} (h : s.Inside) (color : UInt8) :
    { s with color := color }.Inside := ⟨h.row, h.col, h.writes⟩

theorem inside_loginScreen {s : Screen} (h : s.Inside) : (loginScreen s).Inside := by
  have hbox : (drawBox (vgaClear s) 6 20 12 40).Inside := h.vgaClear.drawBox (by decide) (by decide)
  exact ((((hbox.vgaWriteCentered _ _).vgaWriteAt _ _ _).drawInputField (by decide)
    (by decide)).vgaWriteAt _ _ _ |>.drawInputField (by decide) (by decide)).vgaWriteCentered _ _

theorem inside_rejected {s : Screen} (h : s.Inside) : (rejected s).Inside :=
  ((((h.vgaWriteCentered _ _).vgaWriteCentered _ _).vgaWriteCentered _ _).drawInputField
    (by decide) (by decide)).drawInputField (by decide) (by decide)

theorem inside_authenticating {s : Screen} (h : s.Inside) : (authenticating s).Inside :=
  ((h.vgaWriteCentered _ _).vgaWriteCentered _ _).vgaWriteCentered _ _

/-- **A key keeps to the screen**: the position is one of the field, which lies on the screen. -/
theorem inside_key {f : Field} {text : List UInt8} (h : f.screen.Inside) (htext : Typed f text)
    (hrow : 0 ≤ row ∧ row < 25) (c : UInt8) :
    (f.key row fieldCol fieldWidth isPassword c).screen.Inside := by
  have hpos := htext.pos
  have hshort := htext.short
  have hcell : ∀ i : Int, 0 ≤ i → i < 20 → ∀ d, (f.screen.cell (fieldIdx row fieldCol i) d
      f.screen.color).Inside := by
    intro i h0 hlt d
    refine h.cellAt ?_ _ _
    unfold fieldCol vgaCols
    omega
  unfold Field.key
  split
  · split
    · exact hcell _ (by omega) (by omega) _
    · exact h
  · split
    · rename_i hprint
      have hlt : f.pos < fieldWidth - 1 := hprint.1
      unfold fieldWidth at hlt
      exact hcell _ (by omega) (by omega) _
    · exact h

/-- The screens of a session, and the row of its field. -/
structure OnScreen (x : State × Entry) : Prop where
  running : Running x
  row : 0 ≤ x.2.row ∧ x.2.row < 25
  screen : x.1.screen.Inside
  field : x.2.field.screen.Inside

theorem onScreen_enter {w : State} (h : w.screen.Inside) : OnScreen (program.enter w) := by
  refine ⟨running_enter w, ?_, h, ?_⟩
  · unfold Rounds.enter program
    dsimp only
    split
    · exact (by decide : (0 : Int) ≤ 12 ∧ (12 : Int) < 25)
    · exact (by decide : (0 : Int) ≤ 10 ∧ (10 : Int) < 25)
  · unfold Rounds.enter program
    dsimp only
    split <;> exact h.drawInputField (by decide) (by decide)

/-- **Step lemma.** -/
theorem OnScreen.feed (h : OnScreen x) (c : UInt8) : OnScreen (program.toReader.feed x c) := by
  by_cases hc : c = 0x0A
  · rw [hc, feed_newline]
    refine onScreen_enter ?_
    cases hat : x.1.atPassword with
    | false =>
      rw [finish_name hat]
      exact h.field
    | true =>
      rw [finish_password hat]
      unfold check
      dsimp only
      split
      · dsimp only
        exact inside_authenticating h.field
      · dsimp only
        exact inside_rejected h.field
  · obtain ⟨text, htext⟩ := h.running.typed
    have hnext := h.running.feed c
    rw [feed_key h.running hc] at hnext ⊢
    exact ⟨hnext, h.row, h.screen, inside_key h.field htext h.row c⟩

/-- **The screens of the start keep to the screen**, whatever is typed: from any screen that the
driver's calls can lead to, every byte that the loading screen, the login and the welcome store lies
in the screen's 4000 bytes; and the welcome fits its array. -/
theorem boot_screens_inside (mem : Int → UInt8) (calls : List Call)
    (username password : Int → UInt8) (keys : List UInt8) :
    let s := calls.foldl Screen.call (boot mem)
    let r := (showLoginScreen (bootScreen s) username password keys).1
    (shown r).Inside ∧ (showBootedMessage (shown r) r.1.username).Inside ∧
      (welcome r.1.username).length + 1 ≤ 48 := by
  intro s r
  have hs : s.Inside := screen_inside mem calls
  have hinitial : (initial (bootScreen s) username password).screen.Inside := by
    unfold initial
    dsimp only
    exact inside_loginScreen hs.bootScreen
  have hr : OnScreen r := Reader.run_inv (R := program.toReader) (I := OnScreen)
    (fun x c _ hx => hx.feed c) (onScreen_enter hinitial) keys
  have hshown : (shown r).Inside := by
    unfold shown
    split
    · exact hr.screen
    · exact hr.field
  have hbox : (drawBox (vgaClear (shown r)) 9 15 7 50).Inside :=
    hshown.vgaClear.drawBox (by decide) (by decide)
  refine ⟨hshown, ?_, welcome_fits _⟩
  exact (inside_color ((inside_color hbox _).vgaWriteCentered _ _) _).vgaWriteCentered _ _

end FlowOS.Login
