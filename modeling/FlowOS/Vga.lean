/-
# The text screen (`kernel.c`)

The VGA driver: 25 rows of 80 cells, a character and an attribute byte each, at `VGA_MEMORY`.  A
`Screen` is that memory and the static variables of the driver, with a record of the bytes that have
been stored.  An index into `VGA_MEMORY` is an `int`, so nothing in the model keeps one from being
negative or too large; that none is, is the module's result (`screen_inside`).

A string is the list of its characters before the terminating zero.  `int` is modelled by the
integers: the strings are shorter than `2 ^ 31`, and apart from their length only the cursor is
computed with.
-/
import Mathlib.Logic.Function.Basic
import Mathlib.Data.List.Basic

namespace FlowOS.Vga

/-! ## 1. The driver -/

/-- A byte stored at `VGA_MEMORY[idx]`. -/
structure Write where
  idx : Int
  byte : UInt8
  deriving DecidableEq

/-- `vga_row`, `vga_col`, `vga_color`, the memory from `VGA_MEMORY` on, the bytes stored there so
far, and what has been sent to the serial port. -/
structure Screen where
  row : Int
  col : Int
  color : UInt8
  mem : Int → UInt8
  writes : List Write
  serial : List UInt8

/-- `VGA_COLS`. -/
def vgaCols : Int := 80

/-- `VGA_ROWS`. -/
def vgaRows : Int := 25

/-- `VGA_MEMORY[idx] = b`. -/
def Screen.store (s : Screen) (idx : Int) (b : UInt8) : Screen :=
  { s with mem := Function.update s.mem idx b, writes := s.writes ++ [⟨idx, b⟩] }

/-- A character and its attribute: `VGA_MEMORY[idx] = c; VGA_MEMORY[idx + 1] = attr;`. -/
def Screen.cell (s : Screen) (idx : Int) (c attr : UInt8) : Screen :=
  (s.store idx c).store (idx + 1) attr

/-- `kstrlen`. -/
def kstrlen (str : List UInt8) : Int := str.length

/-- The inner loop of `vga_clear`, which is also the loop of `log_info`: blanks in one row. -/
def clearRow (attr : UInt8) (s : Screen) (row : Int) : Screen :=
  (List.range 80).foldl (fun s (col : Nat) => s.cell ((row * vgaCols + col) * 2) 0x20 attr) s

/-- `vga_clear`. -/
def vgaClear (s : Screen) : Screen :=
  let s := (List.range 25).foldl (fun s (row : Nat) => clearRow s.color s row) s
  { s with row := 0, col := 0 }

/-- `vga_set_cursor`. -/
def vgaSetCursor (s : Screen) (row col : Int) : Screen :=
  let row := if row < 0 then 0 else row
  let row := if vgaRows ≤ row then vgaRows - 1 else row
  let col := if col < 0 then 0 else col
  let col := if vgaCols ≤ col then vgaCols - 1 else col
  { s with row := row, col := col }

/-- `if (++vga_row >= VGA_ROWS) vga_row = 0;`, at the beginning of the line. -/
def nextLine (s : Screen) : Screen :=
  { s with row := if vgaRows ≤ s.row + 1 then 0 else s.row + 1, col := 0 }

/-- `vga_put_char`. -/
def vgaPutChar (s : Screen) (c : UInt8) : Screen :=
  if c = 0x0A then nextLine s
  else if c = 0x08 then
    if 0 < s.col then
      let s := { s with col := s.col - 1 }
      s.cell ((s.row * vgaCols + s.col) * 2) 0x20 s.color
    else s
  else
    let s := s.cell ((s.row * vgaCols + s.col) * 2) c s.color
    if vgaCols ≤ s.col + 1 then nextLine s else { s with col := s.col + 1 }

/-- `print_vga`. -/
def printVga (s : Screen) (str : List UInt8) : Screen := str.foldl vgaPutChar s

/-- `vga_write_at`. -/
def vgaWriteAt (s : Screen) (row col : Int) (str : List UInt8) : Screen :=
  printVga (vgaSetCursor s row col) str

/-- `vga_write_centered`; the division of C rounds towards zero. -/
def vgaWriteCentered (s : Screen) (row : Int) (str : List UInt8) : Screen :=
  let col := (vgaCols - kstrlen str).tdiv 2
  let col := if col < 0 then 0 else col
  vgaWriteAt s row col str

/-- `print_serial`. -/
def printSerial (s : Screen) (str : List UInt8) : Screen := { s with serial := s.serial ++ str }

/-- `"[INFO] "`. -/
def infoTag : List UInt8 := [0x5B, 0x49, 0x4E, 0x46, 0x4F, 0x5D, 0x20]

/-- `log_info`. -/
def logInfo (s : Screen) (msg : List UInt8) : Screen :=
  let s := printSerial s infoTag
  let s := printSerial s msg
  let s := printSerial s [0x0A]
  let row := vgaRows - 1
  let s := clearRow 0x07 s row
  let s := vgaWriteAt s row 0 infoTag
  vgaWriteAt s row 7 msg

/-- A call of the driver. -/
inductive Call
  | clear
  | setCursor (row col : Int)
  | putChar (c : UInt8)
  | print (str : List UInt8)
  | writeAt (row col : Int) (str : List UInt8)
  | writeCentered (row : Int) (str : List UInt8)
  | logInfo (msg : List UInt8)

def Screen.call (s : Screen) : Call → Screen
  | .clear => vgaClear s
  | .setCursor row col => vgaSetCursor s row col
  | .putChar c => vgaPutChar s c
  | .print str => printVga s str
  | .writeAt row col str => vgaWriteAt s row col str
  | .writeCentered row str => vgaWriteCentered s row str
  | .logInfo msg => Vga.logInfo s msg

/-- The driver when the kernel starts, with the memory as it finds it. -/
def boot (mem : Int → UInt8) : Screen := ⟨0, 0, 0x0F, mem, [], []⟩

/-- A cell shows the character written to it. -/
theorem Screen.cell_self (s : Screen) (k : Int) (c attr : UInt8) :
    (s.cell (k * 2) c attr).mem (k * 2) = c := by
  show Function.update (Function.update s.mem _ c) _ attr _ = c
  rw [Function.update_of_ne (by omega), Function.update_self]

/-- Another cell is left alone: it lies two bytes away at least. -/
theorem Screen.cell_other (s : Screen) {k j : Int} (hne : j ≠ k) (c attr : UInt8) :
    (s.cell (k * 2) c attr).mem (j * 2) = s.mem (j * 2) := by
  show Function.update (Function.update s.mem _ c) _ attr _ = _
  rw [Function.update_of_ne (by omega), Function.update_of_ne (by omega)]

/-! ## 2. Within the screen -/

/-- **The invariant**: the cursor is on the screen, and so is every byte stored. -/
structure Screen.Inside (s : Screen) : Prop where
  row : 0 ≤ s.row ∧ s.row < 25
  col : 0 ≤ s.col ∧ s.col < 80
  writes : ∀ w ∈ s.writes, 0 ≤ w.idx ∧ w.idx < 4000

variable {s : Screen} {c attr : UInt8} {row col : Int}

/-- A cell of the screen. -/
theorem Screen.Inside.cell (h : s.Inside) (hrow : 0 ≤ row ∧ row < 25) (hcol : 0 ≤ col ∧ col < 80)
    (c attr : UInt8) : (s.cell ((row * vgaCols + col) * 2) c attr).Inside := by
  have hidx : (row * vgaCols + col) * 2 = row * 160 + col * 2 := by
    unfold vgaCols
    omega
  refine ⟨h.row, h.col, fun w hw => ?_⟩
  rw [hidx] at hw
  rcases List.mem_append.mp hw with hw | hw
  · rcases List.mem_append.mp hw with hw | hw
    · exact h.writes w hw
    · rw [List.mem_singleton.mp hw]
      dsimp only
      omega
  · rw [List.mem_singleton.mp hw]
    dsimp only
    omega

/-- A cursor on the screen. -/
theorem Screen.Inside.cursor (h : s.Inside) (hrow : 0 ≤ row ∧ row < 25)
    (hcol : 0 ≤ col ∧ col < 80) :
    { s with row := row, col := col }.Inside := ⟨hrow, hcol, h.writes⟩

theorem Screen.Inside.nextLine (h : s.Inside) : (nextLine s).Inside := by
  have hrows : vgaRows = 25 := rfl
  have hrow := h.row
  refine h.cursor ?_ (by decide)
  split <;> omega

theorem Screen.Inside.clearRow (h : s.Inside) (hrow : 0 ≤ row ∧ row < 25) (attr : UInt8) :
    (clearRow attr s row).Inside := by
  refine List.foldlRecOn _ _ h fun s hs col hcol => hs.cell hrow ?_ _ _
  have hlt := List.mem_range.mp hcol
  omega

theorem Screen.Inside.vgaClear (h : s.Inside) : (vgaClear s).Inside := by
  have hrows : ((List.range 25).foldl (fun s (row : Nat) => Vga.clearRow s.color s row)
      s).Inside := by
    refine List.foldlRecOn _ _ h fun s hs row hrow => hs.clearRow ?_ _
    have hlt := List.mem_range.mp hrow
    omega
  exact hrows.cursor (by decide) (by decide)

/-- Any two integers are clamped. -/
theorem Screen.Inside.vgaSetCursor (h : s.Inside) (row col : Int) :
    (vgaSetCursor s row col).Inside := by
  have hrows : vgaRows = 25 := rfl
  have hcols : vgaCols = 80 := rfl
  refine h.cursor ?_ ?_
  · rw [hrows]
    split <;> split <;> omega
  · rw [hcols]
    split <;> split <;> omega

/-- **`vga_put_char` keeps the cursor on the screen**, for every character. -/
theorem Screen.Inside.vgaPutChar (h : s.Inside) (c : UInt8) : (vgaPutChar s c).Inside := by
  have hcols : vgaCols = 80 := rfl
  have hcol := h.col
  unfold Vga.vgaPutChar
  split
  · exact h.nextLine
  · split
    · split
      · have hback : 0 ≤ s.col - 1 ∧ s.col - 1 < 80 := by omega
        exact (h.cursor h.row hback).cell h.row hback _ _
      · exact h
    · have hcell := h.cell h.row h.col c s.color
      dsimp only
      split
      · exact hcell.nextLine
      · rename_i hlt
        have hlt : ¬vgaCols ≤ s.col + 1 := hlt
        exact hcell.cursor h.row (show 0 ≤ s.col + 1 ∧ s.col + 1 < 80 by omega)

theorem Screen.Inside.printVga (h : s.Inside) (str : List UInt8) : (printVga s str).Inside :=
  List.foldlRecOn _ _ h fun _ hs c _ => hs.vgaPutChar c

theorem Screen.Inside.vgaWriteAt (h : s.Inside) (row col : Int) (str : List UInt8) :
    (vgaWriteAt s row col str).Inside := (h.vgaSetCursor row col).printVga str

theorem Screen.Inside.logInfo (h : s.Inside) (msg : List UInt8) : (logInfo s msg).Inside := by
  have hserial : (printSerial (printSerial (printSerial s infoTag) msg) [0x0A]).Inside :=
    ⟨h.row, h.col, h.writes⟩
  exact ((hserial.clearRow (by decide) _).vgaWriteAt _ _ _).vgaWriteAt _ _ _

/-- **Step lemma.** -/
theorem Screen.Inside.call (h : s.Inside) (c : Call) : (s.call c).Inside := by
  cases c with
  | clear => exact h.vgaClear
  | setCursor row col => exact h.vgaSetCursor row col
  | putChar c => exact h.vgaPutChar c
  | print str => exact h.printVga str
  | writeAt row col str => exact h.vgaWriteAt row col str
  | writeCentered row str => exact h.vgaWriteAt row _ str
  | logInfo msg => exact h.logInfo msg

theorem boot_inside (mem : Int → UInt8) : (boot mem).Inside :=
  ⟨by simp [boot], by simp [boot], by simp [boot]⟩

/-- **The driver stays on the screen**: after any sequence of its calls, with any integers,
characters and strings, the cursor is on the screen and every byte stored lies in its 4000 bytes. -/
theorem screen_inside (mem : Int → UInt8) (calls : List Call) :
    (calls.foldl Screen.call (boot mem)).Inside :=
  List.foldlRecOn _ _ (boot_inside mem) fun _ hs c _ => hs.call c

/-! ## 3. What is on the screen -/

/-- The character and the attribute in each cell. -/
def Screen.view (s : Screen) (k : Int) : UInt8 × UInt8 := (s.mem (k * 2), s.mem (k * 2 + 1))

theorem Screen.cell_view (s : Screen) (k : Int) (c attr : UInt8) :
    (s.cell (k * 2) c attr).view = Function.update s.view k (c, attr) := by
  funext j
  by_cases hj : j = k
  · rw [hj, Function.update_self]
    show (_, Function.update (Function.update s.mem _ c) _ attr _) = _
    rw [Screen.cell_self, Function.update_self]
  · rw [Function.update_of_ne hj]
    show (_, Function.update (Function.update s.mem _ c) _ attr _) = _
    rw [Screen.cell_other s hj, Function.update_of_ne (by omega), Function.update_of_ne (by omega)]
    rfl

/-- A loop that writes characters to the cells from `k` on. -/
def putCells (attr : UInt8) : Screen → Int → List UInt8 → Screen
  | s, _, [] => s
  | s, k, c :: cs => putCells attr (s.cell (k * 2) c attr) (k + 1) cs

theorem putCells_append (attr : UInt8) (cs ds : List UInt8) (s : Screen) (k : Int) :
    putCells attr s k (cs ++ ds) = putCells attr (putCells attr s k cs) (k + cs.length) ds := by
  induction cs generalizing s k with
  | nil => rw [List.length_nil, Int.natCast_zero, Int.add_zero, putCells, List.nil_append]
  | cons c cs ih =>
    rw [List.cons_append, putCells, ih, putCells, List.length_cons]
    congr 1
    omega

theorem putCells_view (attr : UInt8) (cs : List UInt8) (s : Screen) (k j : Int) :
    (putCells attr s k cs).view j =
      if k ≤ j ∧ j < k + cs.length then (cs.getD (j - k).toNat 0, attr) else s.view j := by
  induction cs generalizing s k with
  | nil =>
    have hno : ¬ (k ≤ j ∧ j < k + ([] : List UInt8).length) := by
      rw [List.length_nil]
      omega
    rw [if_neg hno]
    rfl
  | cons c cs ih =>
    rw [putCells, ih, Screen.cell_view, List.length_cons]
    by_cases hj : j = k
    · subst hj
      have hno : ¬ (j + 1 ≤ j ∧ j < j + 1 + cs.length) := by omega
      have hyes : j ≤ j ∧ j < j + (cs.length + 1 : Nat) := by omega
      rw [if_neg hno, if_pos hyes, Function.update_self, Int.sub_self]
      rfl
    · rw [Function.update_of_ne hj]
      by_cases hin : k + 1 ≤ j ∧ j < k + 1 + cs.length
      · have hyes : k ≤ j ∧ j < k + (cs.length + 1 : Nat) := by omega
        have hidx : (j - k).toNat = (j - (k + 1)).toNat + 1 := by omega
        rw [if_pos hin, if_pos hyes, hidx, List.getD_cons_succ]
      · have hno : ¬ (k ≤ j ∧ j < k + (cs.length + 1 : Nat)) := by omega
        rw [if_neg hin, if_neg hno]

theorem putCells_inside (attr : UInt8) (cs : List UInt8) {s : Screen} (h : s.Inside) {k : Int}
    (hk : 0 ≤ k) (hlen : k + cs.length ≤ 2000) : (putCells attr s k cs).Inside := by
  induction cs generalizing s k with
  | nil => exact h
  | cons c cs ih =>
    rw [List.length_cons] at hlen
    have hcell := @Screen.Inside.cell s (k / 80) (k % 80) h (by omega) (by omega) c attr
    have hidx : (k / 80 * vgaCols + k % 80) * 2 = k * 2 := by
      unfold vgaCols
      omega
    rw [hidx] at hcell
    exact ih hcell (by omega) (by omega)

end FlowOS.Vga
