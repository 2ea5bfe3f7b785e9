/-
# Typing to a program

A program of the kernel that reads from the keyboard calls `keyboard_get_char` for each character,
and key presses come in at any time: while it waits, between two steps of `keyboard_get_char`, and
long before it asks.  A `Console` is the driver of `Keyboard` with such a program, a `Reader`,
behind it.  Between two calls of `keyboard_get_char` the program and the interrupt handler have
nothing in common, so what it does there is one step.

Whatever the order of interrupts and steps is, the program is where it would be if it had been given
the characters that it has taken as a list (`Console.Ok`), and with no more interrupts it gets,
within `3 * 255` steps, to where the list of all characters brings it (`Ok.settled`); what it has
not asked for stays in the ring.
-/
import FlowOS.Keyboard
import FlowOS.Lib.Reader

namespace FlowOS

open Keyboard (Act Pc Holds Known Translatable keyboardCallback getCharStep)

/-- The driver and a program that reads. -/
structure Console (σ : Type) where
  kbd : Keyboard.State
  prog : σ

namespace Console

variable {σ : Type} {R : Reader UInt8 σ} {s : Console σ} {prog : σ} {q : List UInt8}

/-! ## 1. Interleavings -/

/-- When `keyboard_get_char` returns, the program goes on. -/
def given (R : Reader UInt8 σ) (prog : σ) : Option UInt8 → σ
  | none => prog
  | some c => R.feed prog c

/-- An interrupt, or a step of the program: as long as it wants a character it is in
`keyboard_get_char`. -/
def next (R : Reader UInt8 σ) (s : Console σ) : Act → Console σ
  | .interrupt scancode => { s with kbd := Keyboard.next s.kbd (.interrupt scancode) }
  | .consume =>
    if R.wants s.prog then
      ⟨Keyboard.next s.kbd .consume,
        given R s.prog (getCharStep s.kbd.keyboard s.kbd.pc).2.2⟩
    else s

/-- The driver as the kernel image has it. -/
def boot (prog : σ) : Console σ := ⟨Keyboard.init, prog⟩

/-- The steps of a program, with no interrupts. -/
def steps (R : Reader UInt8 σ) (n : Nat) (s : Console σ) : Console σ :=
  (fun s => next R s .consume)^[n] s

/-- The characters of the keys that are pressed. -/
def typed (acts : List Act) : List UInt8 :=
  acts.filterMap fun
    | .interrupt scancode =>
      if scancode &&& 0x80 = 0 ∧ Keyboard.translate scancode ≠ 0 then
        some (Keyboard.translate scancode)
      else none
    | .consume => none

/-- No key is pressed while the ring is full. -/
def Roomy (R : Reader UInt8 σ) : Console σ → List Act → Prop
  | _, [] => True
  | s, a :: acts =>
    (∀ scancode, a = .interrupt scancode → Translatable scancode →
      (Keyboard.contents s.kbd.keyboard).length < 255) ∧ Roomy R (next R s a) acts

/-! ## 2. The invariant -/

/-- **The program is where the characters that it has taken bring it**, and it is inside of
`keyboard_get_char` only while it wants one. -/
structure Ok (R : Reader UInt8 σ) (prog : σ) (s : Console σ) : Prop where
  kbd : Keyboard.Inv s.kbd
  prog : R.run prog s.kbd.returned = (s.prog, [])
  inside : s.kbd.pc = .test ∨ R.wants s.prog = true

theorem ok_boot (R : Reader UInt8 σ) (prog : σ) : Ok R prog (boot prog) :=
  ⟨Keyboard.inv_init, rfl, .inl rfl⟩

/-- What a step of `keyboard_get_char` returns is what it adds to the history. -/
theorem next_returned (s : Keyboard.State) :
    (Keyboard.next s .consume).returned =
      s.returned ++ (getCharStep s.keyboard s.pc).2.2.toList := rfl

/-- **Step lemma.** -/
theorem Ok.next (h : Ok R prog s) (a : Act) : Ok R prog (next R s a) := by
  cases a with
  | interrupt scancode => exact ⟨Keyboard.inv_next h.kbd _, h.prog, h.inside⟩
  | consume =>
    rw [Console.next]
    by_cases hwants : R.wants s.prog = true
    · rw [if_pos hwants]
      have hret := next_returned s.kbd
      refine ⟨Keyboard.inv_next h.kbd _, ?_, ?_⟩
      · dsimp only
        rw [hret]
        cases (getCharStep s.kbd.keyboard s.kbd.pc).2.2 with
        | none =>
          rw [Option.toList_none, List.append_nil]
          exact h.prog
        | some c => exact Reader.run_snoc h.prog hwants c
      · cases hpc : s.kbd.pc with
        | test =>
          refine .inr ?_
          dsimp only [getCharStep]
          split <;> exact hwants
        | read => exact .inr hwants
        | advance c =>
          refine .inl ?_
          show (getCharStep s.kbd.keyboard s.kbd.pc).1 = .test
          rw [hpc]
          rfl
    · rw [if_neg hwants]
      exact h

/-- **Run lemma.** -/
theorem ok_run (R : Reader UInt8 σ) (prog : σ) (acts : List Act) :
    Ok R prog (acts.foldl (Console.next R) (boot prog)) :=
  Trace.foldl_inv (I := Ok R prog) acts (fun _ a h => h.next a) (ok_boot R prog)

/-! ## 3. What has been typed -/

/-- **Nothing is lost** as long as the ring has room. -/
theorem Ok.accepted (h : Ok R prog s) {acts : List Act} (hroomy : Roomy R s acts) :
    (acts.foldl (Console.next R) s).kbd.accepted = s.kbd.accepted ++ typed acts := by
  induction acts generalizing s with
  | nil => exact (List.append_nil _).symm
  | cons a acts ih =>
    rw [List.foldl_cons, ih (h.next a) hroomy.2]
    cases a with
    | interrupt scancode =>
      obtain ⟨q, hq, -, -⟩ := h.kbd
      have hcontents : Keyboard.contents s.kbd.keyboard = q := Ring.Holds.contents_eq hq
      have hroom := hroomy.1 scancode rfl
      rw [hcontents] at hroom
      show (if _ then _ else _) ++ _ = _
      rcases Keyboard.keyboardCallback_cases hq scancode with ⟨ht, -, hmoved, -⟩ | ⟨hfull, hsame⟩
      · have htyped : typed (.interrupt scancode :: acts) =
            Keyboard.translate scancode :: typed acts :=
          List.filterMap_cons_some (if_pos ht)
        rw [if_neg hmoved, htyped, List.append_assoc]
        rfl
      · have hno : ¬Translatable scancode := fun ht => absurd (hfull ht)
          (by have := hroom ht; omega)
        have htyped : typed (.interrupt scancode :: acts) = typed acts :=
          List.filterMap_cons_none (if_neg hno)
        rw [hsame, if_pos rfl, htyped]
    | consume =>
      have hsame : (Console.next R s .consume).kbd.accepted = s.kbd.accepted := by
        rw [Console.next]
        split <;> rfl
      rw [hsame]
      rfl

/-- No character is the zero that ends a string. -/
theorem zero_notMem_accepted (R : Reader UInt8 σ) (prog : σ) (acts : List Act) :
    0 ∉ (acts.foldl (Console.next R) (boot prog)).kbd.accepted := by
  refine (Trace.foldl_inv (I := fun s => Ok R prog s ∧ 0 ∉ s.kbd.accepted) acts ?_
    ⟨ok_boot R prog, List.not_mem_nil⟩).2
  rintro s a ⟨hok, hzero⟩
  refine ⟨hok.next a, ?_⟩
  cases a with
  | interrupt scancode =>
    obtain ⟨q, hq, -, -⟩ := hok.kbd
    dsimp only [Console.next, Keyboard.next]
    rcases Keyboard.keyboardCallback_cases hq scancode with ⟨ht, -, hmoved, -⟩ | ⟨-, hsame⟩
    · rw [if_neg hmoved, List.mem_append, List.mem_singleton]
      exact not_or_intro hzero (Ne.symm ht.2)
    · rw [hsame, if_pos rfl]
      exact hzero
  | consume =>
    rw [Console.next]
    split <;> exact hzero

theorem zero_notMem_returned (R : Reader UInt8 σ) (prog : σ) (acts : List Act) :
    0 ∉ (acts.foldl (Console.next R) (boot prog)).kbd.returned := by
  obtain ⟨q, -, hacc, -⟩ := (ok_run R prog acts).kbd
  intro h0
  refine zero_notMem_accepted R prog acts ?_
  rw [hacc]
  exact List.mem_append_left q h0

/-! ## 4. Progress -/

theorem steps_succ (R : Reader UInt8 σ) (n : Nat) (s : Console σ) :
    steps R (n + 1) s = steps R n (next R s .consume) := rfl

theorem steps_add (R : Reader UInt8 σ) (m n : Nat) (s : Console σ) :
    steps R (m + n) s = steps R m (steps R n s) := Function.iterate_add_apply _ m n s

theorem Ok.steps (h : Ok R prog s) (n : Nat) : Ok R prog (steps R n s) := by
  induction n generalizing s with
  | zero => exact h
  | succ n ih => exact ih (h.next .consume)

/-- The test of `keyboard_get_char` finds a character. -/
theorem step_test (hwants : R.wants s.prog = true) (hpc : s.kbd.pc = .test)
    (hne : s.kbd.keyboard.bufferStart ≠ s.kbd.keyboard.bufferEnd) :
    next R s .consume = ⟨{ s.kbd with pc := .read }, s.prog⟩ := by
  rw [next, if_pos hwants, Keyboard.next, hpc]
  simp only [getCharStep, if_neg hne, Option.toList_none, List.append_nil, given]

/-- The read. -/
theorem step_read (hwants : R.wants s.prog = true) (hpc : s.kbd.pc = .read) :
    next R s .consume =
      ⟨{ s.kbd with pc := .advance (s.kbd.keyboard.keyboardBuffer s.kbd.keyboard.bufferStart) },
        s.prog⟩ := by
  rw [next, if_pos hwants, Keyboard.next, hpc]
  simp only [getCharStep, Option.toList_none, List.append_nil, given]

/-- The advance, with which the program goes on. -/
theorem step_advance {c : UInt8} (hwants : R.wants s.prog = true) (hpc : s.kbd.pc = .advance c)
    (hq : Holds s.kbd.keyboard (c :: q)) :
    (next R s .consume).prog = R.feed s.prog c ∧ Holds (next R s .consume).kbd.keyboard q ∧
      (next R s .consume).kbd.accepted = s.kbd.accepted := by
  have hpop := Ring.Holds.pop hq
  rw [← Keyboard.add32_index (Ring.Holds.start_lt hq)] at hpop
  rw [next, if_pos hwants, Keyboard.next, hpc]
  exact ⟨rfl, hpop, rfl⟩

/-- Behind the test, two steps take the first character of the ring. -/
theorem steps_read {c : UInt8} (hwants : R.wants s.prog = true) (hpc : s.kbd.pc = .read)
    (hq : Holds s.kbd.keyboard (c :: q)) :
    (steps R 2 s).prog = R.feed s.prog c ∧ Holds (steps R 2 s).kbd.keyboard q ∧
      (steps R 2 s).kbd.accepted = s.kbd.accepted := by
  have hfront : s.kbd.keyboard.keyboardBuffer s.kbd.keyboard.bufferStart = c := Ring.Holds.front hq
  rw [steps_succ, step_read hwants hpc, hfront]
  exact step_advance (s := ⟨{ s.kbd with pc := .advance c }, s.prog⟩) hwants rfl hq

/-- **In at most three steps a character is taken.** -/
theorem Ok.takes (h : Ok R prog s) {c : UInt8} (hq : Holds s.kbd.keyboard (c :: q))
    (hwants : R.wants s.prog = true) :
    ∃ k ≤ 3, (Console.steps R k s).prog = R.feed s.prog c ∧
      Holds (Console.steps R k s).kbd.keyboard q ∧
      (Console.steps R k s).kbd.accepted = s.kbd.accepted := by
  obtain ⟨q', hq', -, hknown⟩ := h.kbd
  obtain rfl : q' = c :: q := by
    rw [← Ring.Holds.contents_eq hq', ← Ring.Holds.contents_eq hq]
  have hne : s.kbd.keyboard.bufferStart ≠ s.kbd.keyboard.bufferEnd := fun he =>
    List.cons_ne_nil c q ((Ring.Holds.empty_iff hq).mp he)
  cases hpc : s.kbd.pc with
  | test =>
    refine ⟨3, le_rfl, ?_⟩
    rw [steps_succ, step_test hwants hpc hne]
    exact steps_read (s := ⟨{ s.kbd with pc := .read }, s.prog⟩) hwants rfl hq
  | read => exact ⟨2, by decide, steps_read hwants hpc hq⟩
  | advance d =>
    rw [hpc] at hknown
    obtain ⟨rest, he⟩ := hknown
    obtain ⟨rfl, rfl⟩ := List.cons.inj he
    exact ⟨1, by decide, step_advance hwants hpc hq⟩

/-- A program that has nothing to read, or does not want to, stays where it is. -/
theorem Ok.still (h : Ok R prog s) (hq : Holds s.kbd.keyboard q)
    (hstill : R.wants s.prog = false ∨ q = []) (n : Nat) : Console.steps R n s = s := by
  refine Function.iterate_fixed ?_ n
  rw [Console.next]
  by_cases hwants : R.wants s.prog = true
  · obtain rfl : q = [] := hstill.resolve_left (by rw [hwants]; decide)
    obtain ⟨q', hq', -, hknown⟩ := h.kbd
    obtain rfl : q' = [] := by
      rw [← Ring.Holds.contents_eq hq', Ring.Holds.contents_eq hq]
    have hempty : s.kbd.keyboard.bufferStart = s.kbd.keyboard.bufferEnd :=
      (Ring.Holds.empty_iff hq).mpr rfl
    obtain ⟨⟨kb, pc, accepted, returned⟩, prog'⟩ := s
    cases pc with
    | test =>
      rw [if_pos hwants, Keyboard.next]
      dsimp only at hempty ⊢
      simp only [getCharStep, if_pos hempty, Option.toList_none, List.append_nil, given]
    | read => exact absurd rfl hknown
    | advance c => obtain ⟨rest, he⟩ := hknown; cases he
  · rw [if_neg hwants]

/-- **What is in the ring is read**, as far as the program wants it, in three steps for each
character. -/
theorem Ok.settles (h : Ok R prog s) (hq : Holds s.kbd.keyboard q) {n : Nat}
    (hn : 3 * q.length ≤ n) :
    (Console.steps R n s).prog = (R.run s.prog q).1 ∧
      Holds (Console.steps R n s).kbd.keyboard (R.run s.prog q).2 ∧
      (Console.steps R n s).kbd.accepted = s.kbd.accepted := by
  induction q generalizing s n with
  | nil =>
    rw [h.still hq (.inr rfl) n]
    exact ⟨rfl, hq, rfl⟩
  | cons c q ih =>
    cases hwants : R.wants s.prog with
    | true =>
      obtain ⟨k, hk, hprog, hrest, hacc⟩ := h.takes hq hwants
      rw [List.length_cons] at hn
      obtain ⟨hprog', hq', hacc'⟩ := ih (h.steps k) hrest (show 3 * q.length ≤ n - k by omega)
      rw [← steps_add, Nat.sub_add_cancel (by omega)] at hprog' hq' hacc'
      rw [Reader.run_cons hwants, ← hprog]
      exact ⟨hprog', hq', hacc'.trans hacc⟩
    | false =>
      rw [h.still hq (.inl hwants) n, Reader.run_ended hwants]
      exact ⟨rfl, hq, rfl⟩

/-- **The order of interrupts and steps does not matter**: after any of them and `3 * 255` steps
more the program is where the list of the characters brings it, and what it has not asked for is in
the ring. -/
theorem Ok.settled (h : Ok R prog s) {n : Nat} (hn : 3 * 255 ≤ n) :
    R.run prog s.kbd.accepted =
      ((Console.steps R n s).prog, Keyboard.contents (Console.steps R n s).kbd.keyboard) := by
  obtain ⟨q, hq, hacc, -⟩ := h.kbd
  have hlen : q.length < 256 := Ring.Holds.fits hq
  obtain ⟨hprog, hq', -⟩ := h.settles hq (show 3 * q.length ≤ n by omega)
  have hrun : R.run prog s.kbd.accepted = R.run s.prog q := by
    rw [hacc, Reader.run_append _ _ _ (by rw [h.prog]), h.prog]
  have hcontents : Keyboard.contents (Console.steps R n s).kbd.keyboard = (R.run s.prog q).2 :=
    Ring.Holds.contents_eq hq'
  rw [hrun, hprog, hcontents]

/-- **From lists of characters to the keyboard**: what a program does with every list, it does, for
every order of interrupts and steps, with the characters that it has taken, and within `3 * 255`
steps with all of them. -/
theorem of_run {Q : List UInt8 → σ × List UInt8 → Prop}
    (hQ : ∀ keys, 0 ∉ keys → Q keys (R.run prog keys)) (acts : List Act) :
    let now := acts.foldl (Console.next R) (boot prog)
    Q now.kbd.returned (now.prog, []) ∧
      ∀ n, 3 * 255 ≤ n →
        let later := Console.steps R n now
        Q now.kbd.accepted (later.prog, Keyboard.contents later.kbd.keyboard) := by
  intro now
  have hok : Ok R prog now := ok_run R prog acts
  refine ⟨?_, fun n hn => ?_⟩
  · rw [← hok.prog]
    exact hQ _ (zero_notMem_returned R prog acts)
  · dsimp only
    rw [← hok.settled hn]
    exact hQ _ (zero_notMem_accepted R prog acts)

end Console

end FlowOS
