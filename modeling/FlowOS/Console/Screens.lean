/-
# The screens of the start (`kernel.c`)

What `kmain` draws before anyone can type: boxes, the loading bar with its percentage, and the text
around them.  These functions compute places on the screen themselves, without the clamping of
`vga_set_cursor`, so that they stay on the screen only because of what they are called with.
-/
import FlowOS.ReadInput
import FlowOS.Keyboard

namespace FlowOS.Vga

open Keyboard (ascii)

/-! ## 1. Numbers -/

/-- The loop of `uitoa`: `tmp`, which has room for ten digits, from the lowest on. -/
def uitoaLoop : Nat → Nat → List UInt8
  | 0, _ => []
  | room + 1, value =>
    if 0 < value then UInt8.ofNat (0x30 + value % 10) :: uitoaLoop room (value / 10) else []

/-- `uitoa`: the text in `buffer`. -/
def uitoa (value : UInt32) : List UInt8 :=
  if value = 0 then [0x30] else (uitoaLoop 10 value.toNat).reverse

/-! ## 2. Boxes and bars -/

/-- `draw_box`. -/
def drawBox (s : Screen) (top left height width : Int) : Screen :=
  let s := (List.range width.toNat).foldl (fun s (i : Nat) =>
    let s := s.cell ((top * vgaCols + (left + i)) * 2) 0x2D s.color
    s.cell (((top + height - 1) * vgaCols + (left + i)) * 2) 0x2D s.color) s
  let s := (List.range height.toNat).foldl (fun s (i : Nat) =>
    let s := s.cell (((top + i) * vgaCols + left) * 2) 0x7C s.color
    s.cell (((top + i) * vgaCols + left + width - 1) * 2) 0x7C s.color) s
  -- the corners keep their attribute
  let s := s.store ((top * vgaCols + left) * 2) 0x2B
  let s := s.store ((top * vgaCols + left + width - 1) * 2) 0x2B
  let s := s.store (((top + height - 1) * vgaCols + left) * 2) 0x2B
  s.store (((top + height - 1) * vgaCols + left + width - 1) * 2) 0x2B

/-- `draw_loading_bar`. -/
def drawLoadingBar (s : Screen) (percent : Int) : Screen :=
  let row := 13
  let width := 40
  let col := (vgaCols - width).tdiv 2
  let innerWidth := width - 2
  let filled := (percent * innerWidth).tdiv 100
  let s := vgaWriteAt s row col (ascii "[")
  let s := vgaWriteAt s row (col + width - 1) (ascii "]")
  let s := (List.range 38).foldl (fun s (i : Nat) =>
    s.cell ((row * vgaCols + col + 1 + i) * 2) (if i < filled then 0x23 else 0x20) s.color) s
  vgaWriteCentered s (row + 1) (uitoa (UInt32.ofInt percent) ++ ascii "%")

/-- The screen of the start, behind `log_info("FlowOS: Kernel initialized successfully!")`. -/
def bootScreen (s : Screen) : Screen :=
  let s := vgaClear s
  let s := vgaWriteCentered s 8 (ascii "FlowOS is initializing...")
  let s := vgaWriteCentered s 11 (ascii "Loading core modules...")
  (List.range 11).foldl (fun s (i : Nat) => drawLoadingBar s (10 * i)) s

/-! ## 3. On the screen -/

variable {s : Screen} {row col width height top left : Int}

theorem Screen.Inside.store (h : s.Inside) {idx : Int} (hidx : 0 ≤ idx ∧ idx < 4000) (b : UInt8) :
    (s.store idx b).Inside := by
  refine ⟨h.row, h.col, fun w hw => ?_⟩
  rcases List.mem_append.mp hw with hw | hw
  · exact h.writes w hw
  · rw [List.mem_singleton.mp hw]
    exact hidx

/-- A cell of the screen, however its place is written. -/
theorem Screen.Inside.cellAt (h : s.Inside) {k : Int} (hk : 0 ≤ k ∧ k < 2000) (c attr : UInt8) :
    (s.cell (k * 2) c attr).Inside :=
  (h.store (by omega) c).store (by omega) attr

theorem Screen.Inside.vgaWriteCentered (h : s.Inside) (row : Int) (str : List UInt8) :
    (vgaWriteCentered s row str).Inside := h.vgaWriteAt row _ str

/-- A loop that keeps to the screen. -/
theorem Screen.Inside.foldl {f : Screen → Nat → Screen} {n : Nat} (h : s.Inside)
    (hf : ∀ s i, i < n → s.Inside → (f s i).Inside) : ((List.range n).foldl f s).Inside :=
  List.foldlRecOn _ _ h fun s hs i hi => hf s i (List.mem_range.mp hi) hs

theorem Screen.Inside.drawInputField (h : s.Inside) (hrow : 0 ≤ row ∧ row < 25)
    (hcol : 0 ≤ col ∧ col + width ≤ 80) : (drawInputField s row col width).Inside := by
  refine h.foldl fun s i hi hs => hs.cellAt ?_ _ _
  unfold vgaCols
  omega

/-- **`draw_box` keeps to the screen** if the box does. -/
theorem Screen.Inside.drawBox (h : s.Inside) (htop : 0 ≤ top ∧ 0 < height ∧ top + height ≤ 25)
    (hleft : 0 ≤ left ∧ 0 < width ∧ left + width ≤ 80) :
    (drawBox s top left height width).Inside := by
  have hcols : vgaCols = 80 := rfl
  unfold Vga.drawBox
  rw [hcols]
  refine Screen.Inside.store (Screen.Inside.store (Screen.Inside.store (Screen.Inside.store
    (Screen.Inside.foldl (h.foldl ?_) ?_) ?_ _) ?_ _) ?_ _) ?_ _
  · intro s i hi hs
    exact (hs.cellAt (by omega) _ _).cellAt (by omega) _ _
  · intro s i hi hs
    exact (hs.cellAt (by omega) _ _).cellAt (by omega) _ _
  all_goals omega

/-- The loading bar is at a fixed place, whatever the percentage is. -/
theorem Screen.Inside.drawLoadingBar (h : s.Inside) (percent : Int) :
    (drawLoadingBar s percent).Inside := by
  refine Screen.Inside.vgaWriteCentered (Screen.Inside.foldl ((h.vgaWriteAt _ _ _).vgaWriteAt _ _ _)
    fun s i hi hs => hs.cellAt ?_ _ _) _ _
  have hcol : (vgaCols - 40).tdiv 2 = 20 := rfl
  rw [hcol]
  unfold vgaCols
  omega

theorem Screen.Inside.bootScreen (h : s.Inside) : (bootScreen s).Inside :=
  Screen.Inside.foldl ((h.vgaClear.vgaWriteCentered _ _).vgaWriteCentered _ _) fun _ _ _ hs =>
    hs.drawLoadingBar _

end FlowOS.Vga
