/-
# The echo of a line

`sys_read` keeps the line in the caller's buffer and echoes it with `vga_put_char`: two states, the
index into the buffer and the cursor, moved by two functions.  A character moves both ahead, over
the end of a row and from the last row to the first.  A backspace takes the index back whenever
there is a character left, but the cursor only within its row: in column 0 `vga_put_char('\b')` does
nothing.

So the screen shows the line as long as no character is deleted there (`echo_agrees_iff`), and after
that the cursor is one cell ahead and the deleted character stays on the screen.

The buffer is memory of the caller and taken to be apart from the screen's.
-/
import FlowOS.LineInput
import FlowOS.Vga
import Mathlib.Data.List.TakeWhile

namespace FlowOS.Syscalls

open FlowOS.Vga

/-! ## 1. The buffer and the screen -/

/-- The cell the cursor stands on, counted row by row. -/
def cursorCell (s : Screen) : Int := s.row * vgaCols + s.col

/-- Where the `j`-th cell from the cursor on lies; behind the last cell comes the first. -/
def cellFrom (start : Screen) (j : Nat) : Int := (cursorCell start + j) % 2000 * 2

/-- The screen when the characters have been typed. -/
def echoed (buffer maxLen : BitVec 32) (start : Screen) (keys : List UInt8) : Screen :=
  (sysRead buffer maxLen keys).echo.foldl vgaPutChar start

/-- **The echo agrees with the buffer**: from the cell where the cursor stood the screen shows the
characters of the buffer, as many as the line has, and the cursor stands behind them. -/
structure EchoAgrees (buffer maxLen : BitVec 32) (mem : BitVec 32 → UInt8) (start : Screen)
    (keys : List UInt8) : Prop where
  shows : ∀ j, j < (editLine [] keys).length →
    (echoed buffer maxLen start keys).mem (cellFrom start j) =
      store mem (sysRead buffer maxLen keys).stores (buffer + BitVec.ofNat 32 j)
  cursor : cursorCell (echoed buffer maxLen start keys) =
    (cursorCell start + (editLine [] keys).length) % 2000

/-- The characters that `sys_read` takes: it was still reading before each of them. -/
def Taken (buffer maxLen : BitVec 32) (keys : List UInt8) : Prop :=
  ∀ p c, p ++ [c] <+: keys → (sysRead buffer maxLen p).ret = none

/-- `sys_read` between two characters: its index, the memory and the screen. -/
structure Reading where
  i : BitVec 32
  mem : BitVec 32 → UInt8
  screen : Screen

/-- The body of the loop, on a character that is no newline. -/
def Reading.key (buffer : BitVec 32) (r : Reading) (c : UInt8) : Reading :=
  if c = 8 then
    if (0 : BitVec 32).slt r.i then ⟨r.i - 1, r.mem, vgaPutChar r.screen 8⟩ else r
  else ⟨r.i + 1, Function.update r.mem (buffer + r.i) c, vgaPutChar r.screen c⟩

/-- The loop on such characters. -/
def Reading.keys (buffer maxLen : BitVec 32) : List UInt8 → Reading → Reading
  | [], r => r
  | c :: cs, r => if r.i.slt (maxLen - 1) then Reading.keys buffer maxLen cs (r.key buffer c) else r

variable {buffer maxLen : BitVec 32} {start s : Screen} {text keys p : List UInt8} {r : Reading}
  {c : UInt8}

/-- What `sys_read` has done on some characters is what the loop has done: the screen, whether the
call is still reading, and the memory, with the terminating zero if it is not. -/
structure Tracks (buffer maxLen : BitVec 32) (run : ReadRun) (before now : Reading) : Prop where
  screen : run.echo.foldl vgaPutChar before.screen = now.screen
  reading : run.ret = none ↔ now.i.slt (maxLen - 1) = true
  mem : store before.mem run.stores =
    if now.i.slt (maxLen - 1) then now.mem else Function.update now.mem (buffer + now.i) 0

/-- `sys_read` is that loop. -/
theorem sysReadLoop_tracks (hkeys : 10 ∉ keys) (r : Reading) :
    Tracks buffer maxLen (sysReadLoop buffer maxLen keys r.i) r
      (Reading.keys buffer maxLen keys r) := by
  induction keys generalizing r with
  | nil =>
    rw [sysReadLoop, Reading.keys]
    by_cases hroom : r.i.slt (maxLen - 1) = true
    · rw [if_pos hroom]
      exact ⟨rfl, iff_of_true rfl hroom, (if_pos hroom).symm⟩
    · rw [if_neg hroom]
      exact ⟨rfl, iff_of_false (by simp) hroom, (if_neg hroom).symm⟩
  | cons c keys ih =>
    have hc : c ≠ 10 := fun hc => hkeys (hc ▸ List.mem_cons_self)
    have hnext := ih (fun hmem => hkeys (List.mem_cons_of_mem c hmem)) (r.key buffer c)
    rw [sysReadLoop, Reading.keys]
    by_cases hroom : r.i.slt (maxLen - 1) = true
    · rw [if_pos hroom, if_pos hroom]
      dsimp only
      rw [if_neg hc]
      revert hnext
      unfold Reading.key
      split
      · rename_i hback
        subst hback
        split
        · exact fun h => ⟨h.screen, h.reading, h.mem⟩
        · exact id
      · exact fun h => ⟨h.screen, h.reading, h.mem⟩
    · rw [if_neg hroom, if_neg hroom]
      exact ⟨rfl, iff_of_false (by simp) hroom, (if_neg hroom).symm⟩

/-- One more character. -/
theorem Reading.keys_append (c : UInt8) (p : List UInt8) (r : Reading) :
    Reading.keys buffer maxLen (p ++ [c]) r =
      let now := Reading.keys buffer maxLen p r
      if now.i.slt (maxLen - 1) then now.key buffer c else now := by
  induction p generalizing r with
  | nil => rfl
  | cons d p ih =>
    rw [List.cons_append, Reading.keys, Reading.keys]
    by_cases hroom : r.i.slt (maxLen - 1) = true
    · rw [if_pos hroom, if_pos hroom, ih]
    · rw [if_neg hroom, if_neg hroom]
      dsimp only
      rw [if_neg hroom]

/-- Without a newline every character is edited into the line. -/
theorem editLine_append (h : 10 ∉ p ++ [c]) (text : List UInt8) :
    editLine text (p ++ [c]) = edit (editLine text p) c := by
  have hall : ∀ q : List UInt8, 10 ∉ q → q.takeWhile (· ≠ 10) = q := by
    intro q hq
    refine List.takeWhile_eq_self_iff.mpr fun d hd => ?_
    exact decide_eq_true fun he => hq (he ▸ hd)
  have hp : 10 ∉ p := fun hmem => h (List.mem_append_left [c] hmem)
  rw [editLine, hall _ h, editLine, hall _ hp, List.foldl_append]
  rfl

/-! ## 2. The buffer -/

/-- The index is the length of the line, and the buffer holds the line. -/
structure Buffered (buffer : BitVec 32) (text : List UInt8) (r : Reading) : Prop where
  index : r.i = BitVec.ofNat 32 text.length
  holds : HoldsText r.mem buffer text

theorem Buffered.pos_iff (h : Buffered buffer text r) (hlen : text.length < 2000) :
    (0 : BitVec 32).slt r.i = true ↔ text ≠ [] := by
  have hi : r.i.toNat = text.length := by
    rw [h.index, BitVec.toNat_ofNat, Nat.mod_eq_of_lt (by omega)]
  rw [slt_eq (by decide) (by omega), hi, decide_eq_true_iff]
  exact List.length_pos_iff

/-- **Step lemma.** -/
theorem Buffered.key (h : Buffered buffer text r) (hlen : text.length < 2000) (c : UInt8) :
    Buffered buffer (edit text c) (r.key buffer c) := by
  by_cases hback : c = 8
  · subst hback
    have hindex := index_edit_backspace (show text.length < 2 ^ 31 by omega) h.index
    have hdrop : edit text 8 = text.dropLast := if_pos rfl
    unfold Reading.key
    rw [if_pos rfl]
    split
    · rename_i hpos
      rw [if_pos hpos] at hindex
      exact ⟨hindex, hdrop ▸ h.holds.dropLast⟩
    · rename_i hpos
      rw [if_neg hpos] at hindex
      exact ⟨hindex, hdrop ▸ h.holds.dropLast⟩
  · have happend : edit text c = text ++ [c] := if_neg hback
    unfold Reading.key
    rw [if_neg hback]
    exact ⟨index_edit_append hback h.index,
      happend ▸ h.holds.append (by omega) h.index c⟩

/-! ## 3. The screen -/

/-- The screen shows the line from the cell where the cursor stood, and the cursor stands behind
it. -/
structure Shown (start : Screen) (text : List UInt8) (s : Screen) : Prop where
  inside : s.Inside
  shows : ∀ j (hj : j < text.length), s.mem (cellFrom start j) = text[j]
  cursor : cursorCell s = (cursorCell start + text.length) % 2000

/-- The column is that of the line's end. -/
theorem col_eq (hs : s.Inside) {n : Nat} (h : cursorCell s = (cursorCell start + n) % 2000) :
    s.col = (start.col + n) % 80 := by
  have hcol := hs.col
  unfold cursorCell vgaCols at h
  omega

/-- A character goes to the cursor's cell, and the cursor to the next. -/
theorem vgaPutChar_char (hs : s.Inside) (hnl : c ≠ 10) (hbs : c ≠ 8) :
    (vgaPutChar s c).mem = (s.cell (cursorCell s * 2) c s.color).mem ∧
      cursorCell (vgaPutChar s c) = (cursorCell s + 1) % 2000 := by
  have hrow := hs.row
  have hcol := hs.col
  unfold vgaPutChar
  rw [if_neg hnl, if_neg hbs]
  dsimp only
  split
  · rename_i hend
    have hend : vgaCols ≤ s.col + 1 := hend
    refine ⟨rfl, ?_⟩
    show (if vgaRows ≤ s.row + 1 then 0 else s.row + 1) * vgaCols + 0 = _
    unfold cursorCell vgaRows vgaCols at *
    split <;> omega
  · rename_i hend
    have hend : ¬vgaCols ≤ s.col + 1 := hend
    refine ⟨rfl, ?_⟩
    show s.row * vgaCols + (s.col + 1) = _
    unfold cursorCell vgaCols at *
    omega

/-- A backspace within a row blanks the cell before the cursor and goes there. -/
theorem vgaPutChar_backspace (hcol : 0 < s.col) :
    (vgaPutChar s 8).mem = (s.cell ((cursorCell s - 1) * 2) 0x20 s.color).mem ∧
      cursorCell (vgaPutChar s 8) = cursorCell s - 1 := by
  have hput : vgaPutChar s 8 =
      Screen.cell { s with col := s.col - 1 } ((s.row * vgaCols + (s.col - 1)) * 2) 0x20
        s.color := by
    unfold vgaPutChar
    rw [if_neg (by decide), if_pos rfl, if_pos hcol]
  have hcell : s.row * vgaCols + (s.col - 1) = cursorCell s - 1 := by
    unfold cursorCell
    omega
  rw [hput, hcell]
  exact ⟨rfl, hcell⟩

/-- A backspace at the beginning of a row does nothing. -/
theorem vgaPutChar_stuck (hcol : s.col = 0) : vgaPutChar s 8 = s := by
  unfold vgaPutChar
  rw [if_neg (by decide), if_pos rfl, if_neg (by omega)]

theorem Shown.append (h : Shown start text s) (hlen : text.length < 2000) (hnl : c ≠ 10)
    (hbs : c ≠ 8) : Shown start (text ++ [c]) (vgaPutChar s c) := by
  obtain ⟨hmem, hcursor⟩ := vgaPutChar_char h.inside hnl hbs
  refine ⟨h.inside.vgaPutChar c, ?_, ?_⟩
  · intro j hj
    rw [List.length_append, List.length_singleton] at hj
    rw [hmem, h.cursor, cellFrom]
    rcases Nat.lt_or_ge j text.length with hlt | hge
    · rw [Screen.cell_other _ (by omega), List.getElem_append_left hlt]
      exact h.shows j hlt
    · obtain rfl : j = text.length := by omega
      rw [Screen.cell_self]
      simp
  · rw [hcursor, h.cursor, List.length_append, List.length_singleton]
    omega

theorem Shown.dropLast (h : Shown start text s) (hlen : text.length < 2000) (hne : text ≠ [])
    (hrow : (start.col + text.length) % 80 ≠ 0) :
    Shown start text.dropLast (vgaPutChar s 8) := by
  have hpos := List.length_pos_iff.mpr hne
  have hcol := col_eq h.inside h.cursor
  obtain ⟨hmem, hcursor⟩ := @vgaPutChar_backspace s (by have := h.inside.col; omega)
  -- within a row the cell before the cursor is that of the last character
  have hlast : cursorCell s - 1 = (cursorCell start + (text.length - 1 : Nat)) % 2000 := by
    have hin := h.inside.col
    rw [h.cursor]
    unfold cursorCell vgaCols
    omega
  refine ⟨h.inside.vgaPutChar 8, ?_, ?_⟩
  · intro j hj
    rw [List.length_dropLast] at hj
    rw [hmem, hlast, cellFrom, Screen.cell_other _ (by omega), List.getElem_dropLast]
    exact h.shows j (by omega)
  · rw [hcursor, hlast, List.length_dropLast]

/-- **Step lemma.**  The condition is on a backspace that deletes a character. -/
theorem Shown.key (h : Shown start text r.screen) (hbuf : Buffered buffer text r)
    (hlen : text.length < 2000) (hnl : c ≠ 10)
    (hback : c = 8 → text ≠ [] → (start.col + text.length) % 80 ≠ 0) :
    Shown start (edit text c) (r.key buffer c).screen := by
  unfold Reading.key edit
  by_cases hbs : c = 8
  · rw [if_pos hbs, if_pos hbs]
    by_cases hne : text = []
    · subst hne
      rw [if_neg fun hpos => (hbuf.pos_iff hlen).mp hpos rfl]
      exact h
    · rw [if_pos ((hbuf.pos_iff hlen).mpr hne)]
      exact h.dropLast hlen hne (hback hbs hne)
  · rw [if_neg hbs, if_neg hbs]
    exact h.append hlen hnl hbs

/-! ## 4. The line -/

section

variable {mem : BitVec 32 → UInt8}

/-- The loop when some characters have been typed. -/
def readingAt (buffer maxLen : BitVec 32) (mem : BitVec 32 → UInt8) (start : Screen)
    (p : List UInt8) : Reading := Reading.keys buffer maxLen p ⟨0, mem, start⟩

theorem sysRead_tracks (mem : BitVec 32 → UInt8) (start : Screen) (hp : 10 ∉ p) :
    Tracks buffer maxLen (sysRead buffer maxLen p) ⟨0, mem, start⟩
      (readingAt buffer maxLen mem start p) :=
  sysReadLoop_tracks hp ⟨0, mem, start⟩

theorem Taken.part (h : Taken buffer maxLen keys) (hp : p <+: keys) : Taken buffer maxLen p :=
  fun q c hq => h q c (hq.trans hp)

/-- The last character that has been taken. -/
theorem Taken.last (h : Taken buffer maxLen (p ++ [c])) (hp : 10 ∉ p) :
    readingAt buffer maxLen mem start (p ++ [c]) =
      (readingAt buffer maxLen mem start p).key buffer c := by
  have hreading := (sysRead_tracks mem start hp).reading.mp (h p c (List.prefix_refl _))
  unfold readingAt
  rw [Reading.keys_append]
  exact if_pos hreading

/-- A line that `sys_read` takes: no newline is among the characters, and at no moment does it fill
the screen. -/
structure Line (buffer maxLen : BitVec 32) (keys : List UInt8) : Prop where
  taken : Taken buffer maxLen keys
  noNewline : 10 ∉ keys
  short : ∀ p, p <+: keys → (editLine [] p).length < 2000

theorem Line.part (h : Line buffer maxLen keys) (hp : p <+: keys) : Line buffer maxLen p :=
  ⟨h.taken.part hp, fun hmem => h.noNewline (hp.subset hmem), fun q hq => h.short q (hq.trans hp)⟩

theorem Line.of_inits (hnl : 10 ∉ keys)
    (h : ∀ p ∈ keys.inits,
      (sysRead buffer maxLen p).ret = none ∧ (editLine [] p).length < 2000) :
    Line buffer maxLen keys where
  taken := fun p c hp => (h p ((List.mem_inits p keys).mpr ((List.prefix_append p [c]).trans hp))).1
  noNewline := hnl
  short := fun p hp => (h p ((List.mem_inits p keys).mpr hp)).2

/-- **Run lemma**, for the buffer. -/
theorem Line.buffered (h : Line buffer maxLen p) (mem : BitVec 32 → UInt8) (start : Screen) :
    Buffered buffer (editLine [] p) (readingAt buffer maxLen mem start p) := by
  induction p using List.reverseRecOn with
  | nil => exact ⟨rfl, fun j hj => absurd hj (Nat.not_lt_zero j)⟩
  | append_singleton p c ih =>
    have hp : p <+: p ++ [c] := List.prefix_append p [c]
    have hline := h.part hp
    rw [h.taken.last hline.noNewline, editLine_append h.noNewline]
    exact (ih hline).key (h.short p hp) c

/-- **Run lemma**, for the screen. -/
theorem Line.shown (h : Line buffer maxLen p) (hstart : start.Inside)
    (hback : ∀ q, q ++ [8] <+: p → editLine [] q ≠ [] →
      (start.col + (editLine [] q).length) % 80 ≠ 0) :
    Shown start (editLine [] p) (readingAt buffer maxLen mem start p).screen := by
  induction p using List.reverseRecOn with
  | nil =>
    refine ⟨hstart, fun j hj => absurd hj (Nat.not_lt_zero j), ?_⟩
    have hrow := hstart.row
    have hcol := hstart.col
    show cursorCell start = (cursorCell start + (0 : Nat)) % 2000
    unfold cursorCell vgaCols
    omega
  | append_singleton p c ih =>
    have hp : p <+: p ++ [c] := List.prefix_append p [c]
    have hline := h.part hp
    rw [h.taken.last hline.noNewline, editLine_append h.noNewline]
    refine (ih hline fun q hq => hback q (hq.trans hp)).key (hline.buffered mem start)
        (h.short p hp) ?_ ?_
    · rintro rfl
      exact h.noNewline (List.mem_append_right p (List.mem_singleton_self 10))
    · rintro rfl
      exact hback p (List.prefix_refl _)

/-- The terminating zero is stored behind the line. -/
theorem Line.stored (h : Line buffer maxLen p) (mem : BitVec 32 → UInt8) (start : Screen) {j : Nat}
    (hj : j < (editLine [] p).length) :
    store mem (sysRead buffer maxLen p).stores (buffer + BitVec.ofNat 32 j) =
      (readingAt buffer maxLen mem start p).mem (buffer + BitVec.ofNat 32 j) := by
  have hmem := (@sysRead_tracks buffer maxLen p mem start h.noNewline).mem
  have hlen := h.short p (List.prefix_refl p)
  have hindex := (h.buffered mem start).index
  rw [hmem]
  split
  · rfl
  · rw [hindex]
    exact Function.update_of_ne (place_ne (by omega) (by omega) (by omega)) _ _

theorem Line.agrees (h : Line buffer maxLen p)
    (hshown : Shown start (editLine [] p) (readingAt buffer maxLen mem start p).screen) :
    EchoAgrees buffer maxLen mem start p := by
  have hscreen : echoed buffer maxLen start p = (readingAt buffer maxLen mem start p).screen :=
    (sysRead_tracks mem start h.noNewline).screen
  refine ⟨?_, ?_⟩
  · intro j hj
    rw [hscreen, hshown.shows j hj, h.stored mem start hj]
    exact ((h.buffered mem start).holds j hj).symm
  · rw [hscreen]
    exact hshown.cursor

/-- **The echo agrees with the buffer unless a character is deleted at the beginning of a row.**
For every buffer, every cursor on the screen and every line, the echo agrees after each of the
characters just when no backspace finds a line that ends at the end of a row. -/
theorem echo_agrees_iff (buffer maxLen : BitVec 32) (mem : BitVec 32 → UInt8) {start : Screen}
    (hstart : start.Inside) {keys : List UInt8} (hkeys : Line buffer maxLen keys) :
    (∀ p, p <+: keys → EchoAgrees buffer maxLen mem start p) ↔
      ∀ p, p ++ [8] <+: keys → editLine [] p ≠ [] →
        (start.col + (editLine [] p).length) % 80 ≠ 0 := by
  constructor
  · intro hagrees p hp hne hrow
    have hpre : p <+: keys := (List.prefix_append p [8]).trans hp
    have hline := hkeys.part hpre
    have hlonger := hkeys.part hp
    have hlen := hline.short p (List.prefix_refl p)
    have hpos := List.length_pos_iff.mpr hne
    have hbuf := hline.buffered mem start
    -- the cursor is in column 0, and the backspace leaves it there
    have hscreen : echoed buffer maxLen start p = (readingAt buffer maxLen mem start p).screen :=
      (sysRead_tracks mem start hline.noNewline).screen
    have hcursor := (hagrees p hpre).cursor
    have hinside : (echoed buffer maxLen start p).Inside := hstart.printVga _
    have hcol : (echoed buffer maxLen start p).col = 0 := (col_eq hinside hcursor).trans hrow
    have hafter : echoed buffer maxLen start (p ++ [8]) = echoed buffer maxLen start p := by
      have hscreen' : echoed buffer maxLen start (p ++ [8]) =
          (readingAt buffer maxLen mem start (p ++ [8])).screen :=
        (sysRead_tracks mem start hlonger.noNewline).screen
      rw [hscreen', hlonger.taken.last hline.noNewline, Reading.key, if_pos rfl,
        if_pos ((hbuf.pos_iff hlen).mpr hne), ← hscreen]
      exact vgaPutChar_stuck hcol
    have hcursor' := (hagrees (p ++ [8]) hp).cursor
    rw [hafter, hcursor, editLine_append hlonger.noNewline, edit, if_pos rfl,
      List.length_dropLast] at hcursor'
    omega
  · intro hback p hp
    have hline := hkeys.part hp
    exact hline.agrees (hline.shown hstart fun q hq => hback q (hq.trans hp))

end

/-- An empty screen with the cursor at the end of a row. -/
def rowEnd (row : Int) : Screen := vgaSetCursor (boot fun _ => 0) row 79

theorem rowEnd_inside (row : Int) : (rowEnd row).Inside := (boot_inside _).vgaSetCursor row 79

/-- `abc` and a backspace, over the end of the last row. -/
theorem echo_agrees_iff_abc :
    Line 0x40000000 16 [97, 98, 99, 8] ∧
      ∀ p ∈ [97, 98, 99, 8].inits, EchoAgrees 0x40000000 16 (fun _ => 0) (rowEnd 24) p := by
  have hline : Line 0x40000000 16 [97, 98, 99, 8] := Line.of_inits (by decide) (by decide)
  have hback : ∀ p ∈ [97, 98, 99, 8].inits, p ++ [8] ∈ [97, 98, 99, 8].inits → editLine [] p ≠ [] →
      ((rowEnd 24).col + (editLine [] p).length) % 80 ≠ 0 := by decide
  have hagrees := (echo_agrees_iff 0x40000000 16 (fun _ => 0) (rowEnd_inside 24) hline).mpr
    fun p hp => hback p ((List.mem_inits p _).mpr ((List.prefix_append p [8]).trans hp))
      ((List.mem_inits _ _).mpr hp)
  exact ⟨hline, fun p hp => hagrees p ((List.mem_inits p _).mp hp)⟩

/-- `a` in the last column and a backspace: the buffer is empty, but the `a` stays and the cursor is
still behind it. -/
theorem echo_disagrees :
    (rowEnd 0).Inside ∧ Line 0x40000000 16 [97, 8] ∧
      ¬EchoAgrees 0x40000000 16 (fun _ => 0) (rowEnd 0) [97, 8] := by
  refine ⟨rowEnd_inside 0, Line.of_inits (by decide) (by decide), fun h => ?_⟩
  have hcursor : cursorCell (echoed 0x40000000 16 (rowEnd 0) [97, 8]) ≠
      (cursorCell (rowEnd 0) + (editLine [] [97, 8]).length) % 2000 := by decide
  exact hcursor h.cursor

end FlowOS.Syscalls
