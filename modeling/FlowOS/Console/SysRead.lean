/-
# `sys_read` while keys are pressed

`sysReadKeys` is given its characters as a list.  Here `sys_read` takes them from the driver, one by
one, while interrupts come in: the loop is a `Reader`, on the keyboard's `Console`.

`sys_read_typed` says what a program gets that asks for a line: for every order of key presses and
steps of the kernel, the line it gets is the first complete one of what has been typed, also if that
was before it asked, what has been typed behind it waits for the next call, and once a line has been
typed the call returns.
-/
import FlowOS.Console.Typing
import FlowOS.LineInput

namespace FlowOS.Syscalls

/-! ## 1. The loop -/

/-- `sys_read` between two characters: its index, and what it has done. -/
structure ReadState where
  i : BitVec 32
  run : ReadRun

/-- The test of the loop, and what comes behind the loop. -/
def loopTest (buffer maxLen : BitVec 32) (r : ReadState) : ReadState :=
  if r.i.slt (maxLen - 1) then r
  else ⟨r.i, ⟨r.run.stores ++ [⟨buffer + r.i, 0⟩], r.run.echo, some r.i⟩⟩

/-- The loop of `sys_read`: what it does with a character, up to the next one. -/
def sysReader (buffer maxLen : BitVec 32) : Reader UInt8 ReadState where
  wants r := r.run.ret.isNone
  feed r c :=
    if c = 10 then ⟨r.i, ⟨r.run.stores ++ [⟨buffer + r.i, 0⟩], r.run.echo ++ [10], some r.i⟩⟩
    else if c = 8 then
      if (0 : BitVec 32).slt r.i then
        loopTest buffer maxLen ⟨r.i - 1, { r.run with echo := r.run.echo ++ [8] }⟩
      else loopTest buffer maxLen r
    else
      loopTest buffer maxLen
        ⟨r.i + 1, ⟨r.run.stores ++ [⟨buffer + r.i, c⟩], r.run.echo ++ [c], none⟩⟩

/-- `sys_read` at its first character. -/
def sysReadStart (buffer maxLen : BitVec 32) : ReadState :=
  loopTest buffer maxLen ⟨0, ⟨[], [], none⟩⟩

variable {buffer maxLen : BitVec 32} {r : ReadState}

/-- What has been done, and then what a run does. -/
def ReadRun.append (a b : ReadRun) : ReadRun := ⟨a.stores ++ b.stores, a.echo ++ b.echo, b.ret⟩

theorem loopTest_room (hroom : r.i.slt (maxLen - 1) = true) : loopTest buffer maxLen r = r :=
  if_pos hroom

/-- **It is the same loop.** -/
theorem sysReader_run (hret : r.run.ret = none) (keys : List UInt8) :
    let x := (sysReader buffer maxLen).run (loopTest buffer maxLen r) keys
    let y := sysReadKeys buffer maxLen keys r.i
    (x.1.run, x.2) = (r.run.append y.1, y.2) := by
  dsimp only
  induction keys generalizing r with
  | nil =>
    rw [Reader.run_nil, sysReadKeys]
    by_cases hroom : r.i.slt (maxLen - 1) = true
    · rw [if_pos hroom, loopTest_room hroom, ReadRun.append, ← hret, List.append_nil,
        List.append_nil]
    · rw [if_neg hroom, loopTest, if_neg hroom, ReadRun.append, List.append_nil]
  | cons c keys ih =>
    rw [sysReadKeys]
    by_cases hroom : r.i.slt (maxLen - 1) = true
    · have hwants : (sysReader buffer maxLen).wants r = true := by
        show r.run.ret.isNone = true
        rw [hret]
        rfl
      rw [if_pos hroom, loopTest_room hroom, Reader.run_cons hwants]
      dsimp only [sysReader]
      split
      · rw [Reader.run_ended rfl]
        rfl
      · split
        · split
          · refine (ih (r := ⟨r.i - 1, { r.run with echo := r.run.echo ++ [8] }⟩) hret).trans ?_
            simp only [ReadRun.append, List.append_assoc, List.singleton_append]
          · exact ih hret
        · refine (ih (r := ⟨r.i + 1, _⟩) rfl).trans ?_
          simp only [ReadRun.append, List.append_assoc, List.singleton_append]
    · have hended : (sysReader buffer maxLen).wants (loopTest buffer maxLen r) = false := by
        rw [loopTest, if_neg hroom]
        rfl
      rw [Reader.run_ended hended, if_neg hroom, loopTest, if_neg hroom, ReadRun.append,
        List.append_nil]

/-- The whole call. -/
theorem sysReadStart_run (keys : List UInt8) :
    let x := (sysReader buffer maxLen).run (sysReadStart buffer maxLen) keys
    (x.1.run, x.2) = sysReadKeys buffer maxLen keys 0 :=
  sysReader_run (r := ⟨0, ⟨[], [], none⟩⟩) rfl keys

/-! ## 2. Any order of key presses and steps -/

/-- Among the first parts of a stream that complete a line there is a shortest one. -/
theorem exists_shortest {n : Nat} {text p keys : List UInt8} (hp : p <+: keys)
    (h : Complete n text p) : ∃ line, line <+: keys ∧ Shortest n text line := by
  induction hlen : p.length using Nat.strong_induction_on generalizing p with
  | _ len ih =>
    by_cases hleast : ∀ q, q <+: p → q ≠ p → ¬Complete n text q
    · exact ⟨p, hp, h, hleast⟩
    · push Not at hleast
      obtain ⟨q, hq, hne, hcomplete⟩ := hleast
      have hlt : q.length < p.length := by
        refine lt_of_le_of_ne hq.length_le fun he => hne (hq.eq_of_length he)
      exact ih q.length (by omega) (hq.trans hp) hcomplete rfl

/-- A call that finds a complete line. -/
theorem sysReadKeys_line (hpos : 0 < maxLen.toInt) {line : List UInt8}
    (hline : Shortest (maxLen.toNat - 1) [] line) (rest : List UInt8) (mem : BitVec 32 → UInt8) :
    ReadsLine buffer maxLen 0 mem (line ++ rest) (editLine [] line) rest :=
  sysReadKeys_shortest hpos hline (toInt_pos_iff.mp hpos).1 rfl
    (fun j hj => absurd hj (Nat.not_lt_zero j)) rest

/-- **Characters that end a call are the shortest complete line.** -/
theorem sysReadKeys_returned (hpos : 0 < maxLen.toInt) {keys : List UInt8} {ret : BitVec 32}
    (hret : (sysReadKeys buffer maxLen keys 0).1.ret = some ret)
    (hleft : (sysReadKeys buffer maxLen keys 0).2 = []) :
    Shortest (maxLen.toNat - 1) [] keys := by
  obtain ⟨h0, -⟩ := toInt_pos_iff.mp hpos
  have hsome : ∃ p, p <+: keys ∧ Complete (maxLen.toNat - 1) [] p := by
    by_contra hnone
    push Not at hnone
    have hwait := (@sysReadKeys_waits buffer maxLen 0 [] hpos keys hnone h0 rfl).1
    rw [hret] at hwait
    cases hwait
  obtain ⟨p, hp, hcomplete⟩ := hsome
  obtain ⟨line, ⟨rest, hkeys⟩, hline⟩ := exists_shortest hp hcomplete
  have hrest := (@sysReadKeys_line buffer maxLen hpos line hline rest fun _ => 0).left
  rw [hkeys, hleft] at hrest
  rw [← hkeys, ← hrest, List.append_nil]
  exact hline

/-- `sys_read` on the keyboard's driver, after some interrupts and steps. -/
def readConsole (buffer maxLen : BitVec 32) (acts : List Keyboard.Act) : Console ReadState :=
  acts.foldl (Console.next (sysReader buffer maxLen)) (Console.boot (sysReadStart buffer maxLen))

/-- **`sys_read` gets the first line that is typed**, for every order of interrupts and steps: when
it has returned, what it has taken is the shortest first part of the characters that completes a
line, the buffer holds the text of that line and its length is returned, and the characters behind
it are in the ring; once a line is complete it returns; and the characters are those of the keys
pressed as long as none is pressed while the ring is full. -/
theorem sys_read_typed (buffer maxLen : BitVec 32) (hpos : 0 < maxLen.toInt)
    (acts : List Keyboard.Act) :
    let s := readConsole buffer maxLen acts
    (∀ ret, s.prog.run.ret = some ret → ∃ line, Shortest (maxLen.toNat - 1) [] line ∧
      s.kbd.accepted = line ++ Keyboard.contents s.kbd.keyboard ∧
      ret = BitVec.ofNat 32 (editLine [] line).length ∧
      ∀ mem, HoldsText (store mem s.prog.run.stores) buffer (editLine [] line ++ [0])) ∧
    (∀ p, p <+: s.kbd.accepted → Complete (maxLen.toNat - 1) [] p → ∀ n, 3 * 255 ≤ n →
      (Console.steps (sysReader buffer maxLen) n s).prog.run.ret.isSome) ∧
    (Console.Roomy (sysReader buffer maxLen) (Console.boot (sysReadStart buffer maxLen)) acts →
      s.kbd.accepted = Console.typed acts) := by
  intro s
  have hok : Console.Ok (sysReader buffer maxLen) (sysReadStart buffer maxLen) s :=
    Console.ok_run _ _ acts
  refine ⟨fun ret hret => ?_, fun p hp hcomplete n hn => ?_, fun hroomy => ?_⟩
  · obtain ⟨hdone, hleft⟩ := Prod.mk.inj (@sysReadStart_run buffer maxLen s.kbd.returned)
    rw [hok.prog] at hdone hleft
    rw [hdone] at hret ⊢
    have hline := sysReadKeys_returned hpos hret hleft.symm
    have hread := fun mem => @sysReadKeys_line buffer maxLen hpos _ hline [] mem
    rw [List.append_nil] at hread
    obtain ⟨q, hq, hacc, -⟩ := hok.kbd
    have hcontents : Keyboard.contents s.kbd.keyboard = q := Ring.Holds.contents_eq hq
    refine ⟨s.kbd.returned, hline, ?_, ?_, fun mem => (hread mem).holds⟩
    · rw [hcontents, hacc]
    · have hvalue := (hread fun _ => 0).ret
      rw [hret] at hvalue
      exact Option.some.inj hvalue
  · obtain ⟨line, ⟨rest, hkeys⟩, hline⟩ := exists_shortest hp hcomplete
    obtain ⟨hdone, -⟩ := Prod.mk.inj (@sysReadStart_run buffer maxLen s.kbd.accepted)
    have hread := @sysReadKeys_line buffer maxLen hpos line hline rest fun _ => 0
    rw [hkeys] at hread
    rw [hok.settled hn] at hdone
    rw [show (Console.steps _ n s).prog.run = _ from hdone, hread.ret]
    rfl
  · exact (Console.ok_boot _ _).accepted hroomy

/-- `a` and the newline are pressed before the call has got further than its test, and another key
behind them. -/
theorem sys_read_typed_ahead :
    (Console.steps (sysReader 0x40000000 16) 765 (readConsole 0x40000000 16
      [.interrupt 30, .consume, .interrupt 28, .interrupt 31])).prog.run.ret.isSome :=
  (sys_read_typed 0x40000000 16 (by decide) _).2.1 [97, 10] (by decide) (.inl rfl) 765 le_rfl

end FlowOS.Syscalls
