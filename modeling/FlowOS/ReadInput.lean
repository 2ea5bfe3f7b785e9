/-
# The input fields of the login screen (`kernel.c`)

`read_input` edits a field of the login screen: it draws `max_len` underscores, then takes key after
key until a newline.  It keeps the position in the field, stores what is typed in the caller's
buffer, and writes the field's cells itself, not through `vga_put_char`.

The keys are a list of what `keyboard_get_char` returns; when it ends before a newline the call is
waiting, and so what holds for all lists holds at every moment of a session.

With `is_password` set, the characters reach the buffer and nothing else: what the screen and the
caller see is computed from the classes of the keys alone (`View.loop`, `readInputLoop_view`).
-/
import FlowOS.Vga

namespace FlowOS.Vga

/-! ## 1. The call -/

/-- `(row * VGA_COLS + col + i) * 2`: where the `i`-th cell of a field lies. -/
def fieldIdx (row col i : Int) : Int := (row * vgaCols + col + i) * 2

/-- `draw_input_field`. -/
def drawInputField (s : Screen) (row col width : Int) : Screen :=
  (List.range width.toNat).foldl
    (fun s (i : Nat) => s.cell (fieldIdx row col i) 0x5F s.color) s

/-- `read_input` between two keys: `pos`, the caller's buffer and the screen. -/
structure Field where
  pos : Int
  buffer : Int → UInt8
  screen : Screen

section

variable (row col maxLen : Int) (isPassword : Bool)

/-- The loop of `read_input` on a key other than the newline.  A `char` is signed, and one that is
negative is not printable. -/
def Field.key (f : Field) (c : UInt8) : Field :=
  if c = 0x08 then
    if 0 < f.pos then
      let pos := f.pos - 1
      { f with pos := pos, screen := f.screen.cell (fieldIdx row col pos) 0x5F f.screen.color }
    else f
  else if f.pos < maxLen - 1 ∧ 32 ≤ c ∧ c < 127 then
    { pos := f.pos + 1
      buffer := Function.update f.buffer f.pos c
      screen := f.screen.cell (fieldIdx row col f.pos) (if isPassword then 0x2A else c)
        f.screen.color }
  else f

/-- The loop of `read_input`: what it returns, `none` while it waits for a key. -/
def readInputLoop : List UInt8 → Field → Field × Option Int
  | [], f => (f, none)
  | c :: keys, f =>
    if c = 0x0A then ({ f with buffer := Function.update f.buffer f.pos 0 }, some f.pos)
    else readInputLoop keys (f.key row col maxLen isPassword c)

/-- `read_input`. -/
def readInput (s : Screen) (buffer : Int → UInt8) (keys : List UInt8) : Field × Option Int :=
  readInputLoop row col maxLen isPassword keys ⟨0, buffer, drawInputField s row col maxLen⟩

end

variable {row col maxLen : Int} {isPassword : Bool} {f : Field}

/-! ## 2. What a password shows -/

/-- What `read_input` tells keys apart by. -/
inductive KeyClass
  | newline
  | backspace
  | printable
  | other
  deriving DecidableEq

def keyClass (c : UInt8) : KeyClass :=
  if c = 0x0A then .newline
  else if c = 0x08 then .backspace
  else if 32 ≤ c ∧ c < 127 then .printable
  else .other

/-- A field without its buffer. -/
structure View where
  pos : Int
  screen : Screen

def Field.view (f : Field) : View := ⟨f.pos, f.screen⟩

/-- A key in a password field, of which the class is known. -/
def View.key (row col maxLen : Int) (v : View) : KeyClass → View
  | .newline => v
  | .backspace =>
    if 0 < v.pos then ⟨v.pos - 1, v.screen.cell (fieldIdx row col (v.pos - 1)) 0x5F v.screen.color⟩
    else v
  | .printable =>
    if v.pos < maxLen - 1 then
      ⟨v.pos + 1, v.screen.cell (fieldIdx row col v.pos) 0x2A v.screen.color⟩
    else v
  | .other => v

def View.loop (row col maxLen : Int) : List KeyClass → View → View × Option Int
  | [], v => (v, none)
  | k :: keys, v =>
    if k = .newline then (v, some v.pos) else View.loop row col maxLen keys (v.key row col maxLen k)

theorem keyClass_newline {c : UInt8} : keyClass c = .newline ↔ c = 0x0A := by
  unfold keyClass
  split
  · simp_all
  · split
    · simp_all
    · split <;> simp_all

/-- **Step lemma.**  The view after a key follows from the view before it and the key's class. -/
theorem Field.key_view {c : UInt8} (hc : c ≠ 0x0A) :
    (f.key row col maxLen true c).view = f.view.key row col maxLen (keyClass c) := by
  unfold Field.key keyClass
  rw [if_neg hc]
  by_cases hback : c = 0x08
  · rw [if_pos hback, if_pos hback]
    show _ = if 0 < f.pos then _ else _
    split <;> rfl
  · rw [if_neg hback, if_neg hback]
    by_cases hprint : 32 ≤ c ∧ c < 127
    · rw [if_pos hprint]
      show _ = if f.pos < maxLen - 1 then _ else _
      by_cases hroom : f.pos < maxLen - 1
      · rw [if_pos ⟨hroom, hprint⟩, if_pos hroom]
        rfl
      · rw [if_neg fun h => hroom h.1, if_neg hroom]
    · rw [if_neg fun h => hprint h.2, if_neg hprint]
      rfl

/-- **Run lemma.**  A session in a password field is a session of its keys' classes. -/
theorem readInputLoop_view (row col maxLen : Int) (keys : List UInt8) (f : Field) :
    (readInputLoop row col maxLen true keys f).map Field.view id =
      View.loop row col maxLen (keys.map keyClass) f.view := by
  induction keys generalizing f with
  | nil => rfl
  | cons c keys ih =>
    rw [List.map_cons, readInputLoop, View.loop]
    by_cases hc : c = 0x0A
    · rw [if_pos hc, if_pos (keyClass_newline.mpr hc)]
      rfl
    · rw [if_neg hc, if_neg fun h => hc (keyClass_newline.mp h), ih, Field.key_view hc]

/-! ## 3. What a field shows -/

/-- **The invariant**: the cells before the position show what has been typed, as stars in a
password field, and the other cells of the field are empty. -/
structure Field.Shows (row col maxLen : Int) (isPassword : Bool) (f : Field) : Prop where
  pos : 0 ≤ f.pos
  fits : f.pos = 0 ∨ f.pos < maxLen
  typed : ∀ i, 0 ≤ i → i < f.pos →
    f.screen.mem (fieldIdx row col i) = if isPassword then 0x2A else f.buffer i
  rest : ∀ i, f.pos ≤ i → i < maxLen → f.screen.mem (fieldIdx row col i) = 0x5F

/-- The other cells of a field. -/
theorem fieldCell_other (s : Screen) {i j : Int} (hne : j ≠ i) (c attr : UInt8) :
    (s.cell (fieldIdx row col i) c attr).mem (fieldIdx row col j) =
      s.mem (fieldIdx row col j) :=
  s.cell_other (by omega) c attr

theorem drawInputField_mem (s : Screen) (width i : Int) (hi : 0 ≤ i) (hlt : i < width) :
    (drawInputField s row col width).mem (fieldIdx row col i) = 0x5F := by
  -- the cells below the loop's counter are drawn, and stay so
  have hdrawn : ∀ n : Nat, i < n →
      ((List.range n).foldl (fun s (i : Nat) => s.cell (fieldIdx row col i) 0x5F s.color) s).mem
        (fieldIdx row col i) = 0x5F := by
    intro n hn
    induction n with
    | zero => omega
    | succ n ih =>
      rw [List.range_succ, List.foldl_append, List.foldl_cons, List.foldl_nil]
      by_cases he : i = n
      · rw [he]
        exact Screen.cell_self _ _ _ _
      · rw [fieldCell_other _ he, ih (by omega)]
  exact hdrawn width.toNat (by omega)

theorem Field.Shows.drawn (s : Screen) (buffer : Int → UInt8) :
    Field.Shows row col maxLen isPassword ⟨0, buffer, drawInputField s row col maxLen⟩ where
  pos := Int.le_refl 0
  fits := Or.inl rfl
  typed := fun i h0 hlt => absurd hlt (show ¬i < 0 by omega)
  rest := fun i h0 hlt => drawInputField_mem s maxLen i h0 hlt

theorem Field.Shows.backspace (h : f.Shows row col maxLen isPassword) (hpos : 0 < f.pos) :
    Field.Shows row col maxLen isPassword
      ⟨f.pos - 1, f.buffer, f.screen.cell (fieldIdx row col (f.pos - 1)) 0x5F f.screen.color⟩ where
  pos := show 0 ≤ f.pos - 1 by omega
  fits := by
    have hfits := h.fits
    show f.pos - 1 = 0 ∨ f.pos - 1 < maxLen
    omega
  typed := by
    intro i h0 hlt
    have hlt : i < f.pos - 1 := hlt
    exact (fieldCell_other _ (by omega) _ _).trans (h.typed i h0 (by omega))
  rest := by
    intro i hle hlt
    have hle : f.pos - 1 ≤ i := hle
    by_cases he : i = f.pos - 1
    · rw [he]
      exact Screen.cell_self _ _ _ _
    · exact (fieldCell_other _ he _ _).trans (h.rest i (by omega) hlt)

theorem Field.Shows.printable (h : f.Shows row col maxLen isPassword) (hroom : f.pos < maxLen - 1)
    (c : UInt8) :
    Field.Shows row col maxLen isPassword
      ⟨f.pos + 1, Function.update f.buffer f.pos c,
        f.screen.cell (fieldIdx row col f.pos) (if isPassword then 0x2A else c)
          f.screen.color⟩ where
  pos := by
    have hpos := h.pos
    show 0 ≤ f.pos + 1
    omega
  fits := Or.inr (show f.pos + 1 < maxLen by omega)
  typed := by
    intro i h0 hlt
    have hlt : i < f.pos + 1 := hlt
    dsimp only
    by_cases he : i = f.pos
    · rw [he, Function.update_self]
      exact Screen.cell_self _ _ _ _
    · rw [Function.update_of_ne he]
      exact (fieldCell_other _ he _ _).trans (h.typed i h0 (by omega))
  rest := by
    intro i hle hlt
    have hle : f.pos + 1 ≤ i := hle
    exact (fieldCell_other _ (by omega) _ _).trans (h.rest i (by omega) hlt)

/-- **Step lemma.** -/
theorem Field.Shows.key (h : f.Shows row col maxLen isPassword) (c : UInt8) :
    (f.key row col maxLen isPassword c).Shows row col maxLen isPassword := by
  unfold Field.key
  split
  · split
    · rename_i hpos
      exact h.backspace hpos
    · exact h
  · split
    · rename_i hprint
      exact h.printable hprint.1 c
    · exact h

/-- The newline stores the zero behind what has been typed. -/
theorem Field.Shows.newline (h : f.Shows row col maxLen isPassword) :
    { f with buffer := Function.update f.buffer f.pos 0 }.Shows row col maxLen isPassword where
  pos := h.pos
  fits := h.fits
  typed := by
    intro i h0 hlt
    have hlt : i < f.pos := hlt
    dsimp only
    rw [Function.update_of_ne (by omega)]
    exact h.typed i h0 hlt
  rest := h.rest

/-- **Run lemma.** -/
theorem readInputLoop_shows (keys : List UInt8) (h : f.Shows row col maxLen isPassword) :
    (readInputLoop row col maxLen isPassword keys f).1.Shows row col maxLen isPassword := by
  induction keys generalizing f with
  | nil => exact h
  | cons c keys ih =>
    rw [readInputLoop]
    split
    · exact h.newline
    · exact ih (h.key c)

/-- **A password stays off the screen.**  Two sessions whose keys agree on their classes write the
same to the screen, byte for byte, and return the same length; and in every session, password or
not, the field shows at every moment what `Field.Shows` says. -/
theorem read_input_masked (row col maxLen : Int) (s : Screen) :
    (∀ buffer buffer' keys keys', keys.map keyClass = keys'.map keyClass →
      (readInput row col maxLen true s buffer keys).1.screen =
          (readInput row col maxLen true s buffer' keys').1.screen ∧
        (readInput row col maxLen true s buffer keys).2 =
          (readInput row col maxLen true s buffer' keys').2) ∧
      ∀ isPassword buffer keys,
        (readInput row col maxLen isPassword s buffer keys).1.Shows row col maxLen isPassword := by
  refine ⟨fun buffer buffer' keys keys' hclass => ?_, fun isPassword buffer keys => ?_⟩
  · have hview := readInputLoop_view row col maxLen keys
      ⟨0, buffer, drawInputField s row col maxLen⟩
    have hview' := readInputLoop_view row col maxLen keys'
      ⟨0, buffer', drawInputField s row col maxLen⟩
    rw [hclass] at hview
    have hsame := hview.trans hview'.symm
    exact ⟨congrArg (fun r => r.1.screen) hsame, congrArg (fun r => r.2) hsame⟩
  · exact readInputLoop_shows keys (Field.Shows.drawn s buffer)

/-- `ab` and `x~`, with a character taken back in between. -/
theorem read_input_masked_letters :
    (readInput 12 35 20 true (boot fun _ => 0) (fun _ => 0) [0x61, 0x63, 0x08, 0x62]).1.screen =
      (readInput 12 35 20 true (boot fun _ => 0) (fun _ => 1) [0x78, 0x20, 0x08, 0x7E]).1.screen :=
  ((read_input_masked 12 35 20 (boot fun _ => 0)).1 _ _ _ _ (by decide)).1

end FlowOS.Vga
