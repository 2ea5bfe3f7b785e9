/-
# The keyboard driver (`keyboard.c`)

The interrupt handler translates scancodes and stores the characters in a ring of 256 slots;
`keyboard_get_char` waits until the ring is not empty and takes the first one out.  Nothing locks
the ring.  An interrupt can come between any two steps of `keyboard_get_char`, so these are
separate actions here, and the handler, which runs with interrupts off, is one.

Besides the variables of the driver the state keeps two histories, of the characters the handler
has stored and of those `keyboard_get_char` has returned.
-/
import FlowOS.Lib.Ring
import FlowOS.Lib.Trace
import FlowOS.Lib.Word

namespace FlowOS

open Word

/-- The static variables of `keyboard.c`. -/
structure Keyboard where
  keyboardBuffer : Nat → UInt8
  bufferStart : Nat
  bufferEnd : Nat

namespace Keyboard

/-! ## 1. The driver -/

/-- `KEYBOARD_BUFFER_SIZE`. -/
def keyboardBufferSize : Nat := 256

/-- The characters of a text. -/
def ascii (text : String) : List UInt8 := text.toList.map fun c => UInt8.ofNat c.toNat

/-- `scancode_to_ascii`; the entries behind the last one listed are 0. -/
def scancodeToAscii : List UInt8 :=
  [0, 27] ++ ascii "1234567890-=\x08" ++
  ascii "\tqwertyuiop[]\n" ++
  [0] ++ ascii "asdfghjkl;'`" ++
  [0] ++ ascii "\\zxcvbnm,./" ++ [0] ++
  ascii "*" ++ [0] ++ ascii " " ++ List.replicate 16 0 ++
  ascii "-" ++ [0, 0, 0] ++ ascii "+"

/-- `scancode_to_ascii[scancode]`. -/
def translate (scancode : UInt8) : UInt8 := scancodeToAscii.getD scancode.toNat 0

/-- `keyboard_callback`, for the byte it reads from the data port. -/
def keyboardCallback (kb : Keyboard) (scancode : UInt8) : Keyboard :=
  -- a key release
  if scancode &&& 0x80 ≠ 0 then kb
  else
    let c := translate scancode
    if c ≠ 0 then
      let next := add32 kb.bufferEnd 1 % keyboardBufferSize
      if next ≠ kb.bufferStart then
        { kb with
          keyboardBuffer := Function.update kb.keyboardBuffer kb.bufferEnd c
          bufferEnd := next }
      else kb
    else kb

/-- `keyboard_has_input`. -/
def keyboardHasInput (kb : Keyboard) : Bool := kb.bufferStart != kb.bufferEnd

/-- Where `keyboard_get_char` is: at the test of its loop, before the read of the slot, or before
the advance of `buffer_start`, with the character that was read. -/
inductive Pc
  | test
  | read
  | advance (c : UInt8)

/-- One step of `keyboard_get_char`, and the character it returns with it. -/
def getCharStep (kb : Keyboard) : Pc → Pc × Keyboard × Option UInt8
  | .test => if kb.bufferStart = kb.bufferEnd then (.test, kb, none) else (.read, kb, none)
  | .read => (.advance (kb.keyboardBuffer kb.bufferStart), kb, none)
  | .advance c =>
    (.test, { kb with bufferStart := add32 kb.bufferStart 1 % keyboardBufferSize }, some c)

/-! ## 2. Interleavings -/

/-- The driver, its reader, and the two histories. -/
structure State where
  keyboard : Keyboard
  pc : Pc
  accepted : List UInt8
  returned : List UInt8

/-- An interrupt with a scancode, or a step of `keyboard_get_char`. -/
inductive Act
  | interrupt (scancode : UInt8)
  | consume

/-- The state after an action.  A character has been accepted when the handler has moved
`buffer_end`. -/
def next (s : State) : Act → State
  | .interrupt scancode =>
    let kb := keyboardCallback s.keyboard scancode
    { s with
      keyboard := kb
      accepted := if kb.bufferEnd = s.keyboard.bufferEnd then s.accepted
        else s.accepted ++ [translate scancode] }
  | .consume =>
    let r := getCharStep s.keyboard s.pc
    { s with pc := r.1, keyboard := r.2.1, returned := s.returned ++ r.2.2.toList }

/-- The variables as the kernel image has them. -/
def init : State := ⟨⟨fun _ => 0, 0, 0⟩, .test, [], []⟩

/-- The characters in the ring. -/
def contents (kb : Keyboard) : List UInt8 :=
  Ring.contents keyboardBufferSize kb.keyboardBuffer kb.bufferStart kb.bufferEnd

/-- A press of a key that has a character. -/
def Translatable (scancode : UInt8) : Prop := scancode &&& 0x80 = 0 ∧ translate scancode ≠ 0

/-- **Nothing is lost, doubled or reordered** between the handler and `keyboard_get_char`. -/
structure InOrder (s : State) : Prop where
  returned : s.returned <+: s.accepted
  pending : s.accepted.drop s.returned.length = contents s.keyboard
  atMost : (contents s.keyboard).length ≤ 255
  dropped : ∀ scancode, Translatable scancode →
    (keyboardCallback s.keyboard scancode).bufferEnd = s.keyboard.bufferEnd →
    (contents s.keyboard).length = 255

/-! ## 3. The invariant -/

/-- The ring of the driver holds `q`. -/
def Holds (kb : Keyboard) (q : List UInt8) : Prop :=
  Ring.Holds keyboardBufferSize kb.keyboardBuffer kb.bufferStart kb.bufferEnd q

/-- What `keyboard_get_char` knows at each point: the ring is not empty once the test has passed,
and the character that was read is its first. -/
def Known (q : List UInt8) : Pc → Prop
  | .test => True
  | .read => q ≠ []
  | .advance c => ∃ rest, q = c :: rest

/-- The ring holds what has been accepted and not returned. -/
def Inv (s : State) : Prop :=
  ∃ q, Holds s.keyboard q ∧ s.accepted = s.returned ++ q ∧ Known q s.pc

variable {kb : Keyboard} {q : List UInt8} {s : State}

/-- Indices of the ring do not wrap as 32-bit numbers. -/
theorem add32_index {i : Nat} (hi : i < keyboardBufferSize) :
    add32 i 1 % keyboardBufferSize = (i + 1) % keyboardBufferSize := by
  rw [keyboardBufferSize] at hi
  rw [add32_of_lt (by omega)]

theorem Holds.end_lt (h : Holds kb q) : kb.bufferEnd < keyboardBufferSize := by
  rw [h.stop_eq]
  exact Nat.mod_lt _ (by decide)

/-- `keyboard_has_input` tells whether a character is pending. -/
theorem Holds.hasInput (h : Holds kb q) : keyboardHasInput kb = true ↔ q ≠ [] := by
  rw [keyboardHasInput, bne_iff_ne, ne_eq, Ring.Holds.empty_iff h]

/-- **What the handler does**: it appends the character of a key press while there is room, and
otherwise nothing. -/
theorem keyboardCallback_cases (h : Holds kb q) (scancode : UInt8) :
    (Translatable scancode ∧ q.length < 255 ∧
      (keyboardCallback kb scancode).bufferEnd ≠ kb.bufferEnd ∧
      Holds (keyboardCallback kb scancode) (q ++ [translate scancode])) ∨
    ((Translatable scancode → q.length = 255) ∧ keyboardCallback kb scancode = kb) := by
  have hfull := Ring.Holds.full_iff h
  have hfits := Ring.Holds.fits h
  rw [← add32_index h.end_lt] at hfull
  unfold keyboardCallback
  by_cases hrelease : scancode &&& 0x80 = 0
  · rw [if_neg (not_not_intro hrelease)]
    by_cases hchar : translate scancode = 0
    · exact Or.inr ⟨fun ht => absurd hchar ht.2, if_neg (not_not_intro hchar)⟩
    · dsimp only
      rw [if_pos hchar]
      by_cases hroom : q.length + 1 = keyboardBufferSize
      · exact Or.inr ⟨fun _ => Nat.succ.inj hroom, if_neg (not_not_intro (hfull.mpr hroom))⟩
      · rw [if_pos (mt hfull.mp hroom), add32_index h.end_lt]
        have hlt : q.length + 1 < keyboardBufferSize := by omega
        refine Or.inl ⟨⟨hrelease, hchar⟩, Nat.lt_of_succ_lt_succ hlt, ?_, Ring.Holds.push h hlt _⟩
        have hend := h.end_lt
        dsimp only
        simp only [keyboardBufferSize] at hend ⊢
        omega
  · exact Or.inr ⟨fun ht => absurd ht.1 hrelease, if_pos hrelease⟩

/-- An interrupt appends behind what the reader has seen. -/
theorem Known.append {pc : Pc} (h : Known q pc) (c : UInt8) : Known (q ++ [c]) pc := by
  cases pc with
  | test => trivial
  | read => exact List.append_ne_nil_of_left_ne_nil h _
  | advance d =>
    obtain ⟨rest, rfl⟩ := h
    exact ⟨rest ++ [c], rfl⟩

/-- **Step lemma.** -/
theorem inv_next (h : Inv s) (a : Act) : Inv (next s a) := by
  obtain ⟨q, hq, hacc, hknown⟩ := h
  cases a with
  | interrupt scancode =>
    rw [next]
    rcases keyboardCallback_cases hq scancode with ⟨-, -, hmoved, hq'⟩ | ⟨-, hsame⟩
    · refine ⟨_, hq', ?_, hknown.append _⟩
      dsimp only
      rw [if_neg hmoved, hacc, List.append_assoc]
    · rw [hsame]
      exact ⟨q, hq, (if_pos rfl).trans hacc, hknown⟩
  | consume =>
    rw [next]
    cases hpc : s.pc with
    | test =>
      by_cases hempty : s.keyboard.bufferStart = s.keyboard.bufferEnd
      · simp only [getCharStep, if_pos hempty]
        exact ⟨q, hq, by simpa using hacc, trivial⟩
      · simp only [getCharStep, if_neg hempty]
        exact ⟨q, hq, by simpa using hacc, mt (Ring.Holds.empty_iff hq).mpr hempty⟩
    | read =>
      rw [hpc] at hknown
      obtain ⟨c, rest, rfl⟩ := List.exists_cons_of_ne_nil hknown
      refine ⟨c :: rest, hq, by simpa [getCharStep] using hacc, rest, ?_⟩
      rw [Ring.Holds.front hq]
    | advance c =>
      rw [hpc] at hknown
      obtain ⟨rest, rfl⟩ := hknown
      refine ⟨rest, ?_, by simpa [getCharStep] using hacc, trivial⟩
      have hpop := Ring.Holds.pop hq
      rw [← add32_index (Ring.Holds.start_lt hq)] at hpop
      exact hpop

theorem inv_init : Inv init := ⟨[], Ring.holds_nil (by decide) _, rfl, trivial⟩

theorem Inv.inOrder (h : Inv s) : InOrder s := by
  obtain ⟨q, hq, hacc, -⟩ := h
  have hcontents : contents s.keyboard = q := Ring.Holds.contents_eq hq
  refine ⟨⟨q, hacc.symm⟩, ?_, ?_, ?_⟩
  · rw [hacc, hcontents, List.drop_left]
  · rw [hcontents]
    exact Nat.le_of_lt_succ (Ring.Holds.fits hq)
  · intro scancode ht hkept
    rw [hcontents]
    rcases keyboardCallback_cases hq scancode with ⟨-, -, hmoved, -⟩ | ⟨hfull, -⟩
    · exact absurd hkept hmoved
    · exact hfull ht

/-- **Characters come out as they went in**, whatever the interleaving. -/
theorem in_order (acts : List Act) : InOrder (acts.foldl next init) :=
  (Trace.foldl_inv (I := Inv) acts (fun _ a h => inv_next h a) inv_init).inOrder

end Keyboard

end FlowOS
