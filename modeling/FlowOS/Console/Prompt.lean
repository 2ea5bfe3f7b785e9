/-
# What the shell leaves on the screen

`SYS_WRITE` is `log_info`, and `log_info` has one row, the last one: it is blanked before each text,
and a newline at the end of the text leaves it for the first row, where nothing is written.  So the
next text, and in the end the prompt, takes the place of whatever the shell has written: `help`
shows nothing of its texts once the prompt is back, and `clear` clears nothing.

`shell_screen` says what is on the screen at every moment of a session in which the lines fit behind
the prompt: the last row shows the prompt and what has been typed of the line, and the other rows
are what they were when the first prompt came.
-/
import FlowOS.Console.Shell
import FlowOS.Echo

namespace FlowOS.Vga

/-! ## 1. The last row -/

/-- The character in each cell. -/
def Screen.chars (s : Screen) (k : Int) : UInt8 := s.mem (k * 2)

/-- The cells of the last row. -/
def InLastRow (k : Int) : Prop := 1920 ≤ k ∧ k < 2000

instance (k : Int) : Decidable (InLastRow k) := inferInstanceAs (Decidable (1920 ≤ k ∧ k < 2000))

/-- The characters of a screen with a text in the last row. -/
def lastRow (rows : Int → UInt8) (text : List UInt8) (k : Int) : UInt8 :=
  if InLastRow k then text.getD (k - 1920).toNat 0x20 else rows k

/-- **The last row shows a text**, with the cursor behind it, and the other rows are those of
`rows`. -/
structure LastRow (rows : Int → UInt8) (text : List UInt8) (s : Screen) : Prop where
  row : s.row = 24
  col : s.col = text.length
  chars : s.chars = lastRow rows text

/-- The other rows. -/
def Above (rows : Int → UInt8) (s : Screen) : Prop := ∀ k, ¬InLastRow k → s.chars k = rows k

/-- A text that keeps to the last row when it is logged: one line, with newlines at its end at most.
-/
def OneLine (text : List UInt8) : Prop :=
  (text.takeWhile (· ≠ 10)).length ≤ 72 ∧ 8 ∉ text.takeWhile (· ≠ 10) ∧
    ∀ c ∈ text.dropWhile (· ≠ 10), c = 10

instance (text : List UInt8) : Decidable (OneLine text) :=
  haveI : Decidable (∀ c ∈ text.dropWhile (· ≠ 10), c = 10) := List.decidableBAll _ _
  inferInstanceAs (Decidable (_ ∧ _ ∧ _))

variable {s : Screen} {rows : Int → UInt8} {text str msg : List UInt8} {c : UInt8}

theorem Screen.chars_cell (s : Screen) (k : Int) (c attr : UInt8) :
    (s.cell (k * 2) c attr).chars = Function.update s.chars k c := by
  funext j
  by_cases hj : j = k
  · rw [hj, Function.update_self]
    exact s.cell_self k c attr
  · rw [Function.update_of_ne hj]
    exact s.cell_other hj c attr

/-- Blanks, as far as the loop has come. -/
theorem chars_clearRow (attr : UInt8) (s : Screen) (row k : Int) :
    (clearRow attr s row).chars k =
      if row * 80 ≤ k ∧ k < row * 80 + 80 then 0x20 else s.chars k := by
  have hloop : ∀ n : Nat,
      ((List.range n).foldl (fun s (col : Nat) => s.cell ((row * vgaCols + col) * 2) 0x20 attr)
        s).chars k = if row * 80 ≤ k ∧ k < row * 80 + n then 0x20 else s.chars k := by
    intro n
    induction n with
    | zero => rw [if_neg (by omega), List.range_zero, List.foldl_nil]
    | succ n ih =>
      rw [List.range_succ, List.foldl_append, List.foldl_cons, List.foldl_nil, Screen.chars_cell]
      unfold vgaCols at ih ⊢
      by_cases hk : k = row * 80 + n
      · rw [if_pos (by omega), hk, Function.update_self]
      · rw [Function.update_of_ne hk, ih]
        exact if_congr (by omega) rfl rfl
  exact hloop 80

theorem vgaPutChar_plain (hnl : c ≠ 10) (hbs : c ≠ 8) (hcol : s.col + 1 < 80) :
    vgaPutChar s c =
      { s.cell ((s.row * vgaCols + s.col) * 2) c s.color with col := s.col + 1 } := by
  unfold vgaPutChar
  rw [if_neg hnl, if_neg hbs]
  exact if_neg (by show ¬(80 : Int) ≤ s.col + 1; omega)

/-- What a character at the end of the text changes is its own cell. -/
theorem lastRow_append (rows : Int → UInt8) (hfits : text.length < 80) (c : UInt8) :
    lastRow rows (text ++ [c]) =
      Function.update (lastRow rows text) (1920 + text.length) c := by
  funext k
  by_cases hk : k = 1920 + text.length
  · have hin : InLastRow k := by
      unfold InLastRow
      omega
    have hidx : (k - 1920).toNat = text.length := by omega
    rw [lastRow, if_pos hin, hidx, List.getD_eq_getElem?_getD, List.getElem?_concat_length,
      Option.getD_some, hk, Function.update_self]
  · rw [Function.update_of_ne hk, lastRow, lastRow, List.getD_eq_getElem?_getD,
      List.getD_eq_getElem?_getD]
    refine if_ctx_congr Iff.rfl (fun hin => ?_) fun _ => rfl
    have hin : 1920 ≤ k ∧ k < 2000 := hin
    rcases Nat.lt_or_ge (k - 1920).toNat text.length with hlt | hge
    · rw [List.getElem?_append_left hlt]
    · rw [List.getElem?_eq_none hge, List.getElem?_eq_none (by
        rw [List.length_append, List.length_singleton]
        omega)]

/-- Behind the text are blanks. -/
theorem lastRow_end (rows : Int → UInt8) (hfits : text.length < 80) :
    lastRow rows text (1920 + text.length) = 0x20 := by
  have hin : InLastRow (1920 + text.length) := by
    unfold InLastRow
    omega
  unfold lastRow
  rw [if_pos hin, List.getD_eq_default _ _ (by omega)]

/-- **A character behind the text.** -/
theorem LastRow.append (h : LastRow rows text s) (hnl : c ≠ 10) (hbs : c ≠ 8)
    (hfits : text.length + 1 < 80) : LastRow rows (text ++ [c]) (vgaPutChar s c) := by
  have hcol := h.col
  have hcell : s.row * vgaCols + s.col = 1920 + text.length := by
    rw [h.row, h.col]
    rfl
  rw [vgaPutChar_plain hnl hbs (by omega), hcell]
  refine ⟨h.row, ?_, ?_⟩
  · rw [List.length_append, List.length_singleton, h.col]
    rfl
  · rw [lastRow_append rows (by omega), ← h.chars]
    exact s.chars_cell _ c s.color

/-- **A backspace.** -/
theorem LastRow.dropLast (h : LastRow rows (text ++ [c]) s) (hfits : text.length + 1 < 80) :
    LastRow rows text (vgaPutChar s 8) := by
  have hcol : s.col = text.length + 1 := by
    rw [h.col, List.length_append, List.length_singleton]
    rfl
  have hput : vgaPutChar s 8 =
      Screen.cell { s with col := s.col - 1 } ((1920 + text.length) * 2) 0x20 s.color := by
    unfold vgaPutChar
    rw [if_neg (by decide), if_pos rfl, if_pos (by omega), h.row, hcol, Int.add_sub_cancel]
    rfl
  rw [hput]
  refine ⟨h.row, show s.col - 1 = _ by omega, ?_⟩
  rw [Screen.chars_cell]
  show Function.update s.chars _ _ = _
  rw [h.chars, lastRow_append rows (by omega), Function.update_idem,
    ← lastRow_end rows (show text.length < 80 by omega), Function.update_eq_self]

theorem LastRow.above (h : LastRow rows text s) : Above rows s := fun k hk => by
  rw [h.chars]
  exact if_neg hk

/-- The last row of `rows` does not matter. -/
theorem LastRow.of_above {t : Screen} (h : LastRow s.chars text t) (habove : Above rows s) :
    LastRow rows text t := by
  refine ⟨h.row, h.col, ?_⟩
  rw [h.chars]
  funext k
  exact if_ctx_congr Iff.rfl (fun _ => rfl) (habove k)

/-- Newlines write nothing. -/
theorem Above.newlines (h : Above rows s) (hstr : ∀ c ∈ str, c = 10) :
    Above rows (printVga s str) := by
  refine List.foldlRecOn (motive := Above rows) str vgaPutChar h fun s hs c hc => ?_
  rw [hstr c hc]
  exact hs

/-! ## 2. `log_info` -/

/-- A string without newlines that fits. -/
theorem LastRow.print (h : LastRow rows text s) (hnl : 10 ∉ str) (hbs : 8 ∉ str)
    (hfits : text.length + str.length < 80) : LastRow rows (text ++ str) (printVga s str) := by
  induction str generalizing s text with
  | nil =>
    rw [List.append_nil]
    exact h
  | cons c str ih =>
    rw [List.length_cons] at hfits
    rw [List.mem_cons, not_or] at hnl hbs
    have hstep := h.append (Ne.symm hnl.1) (Ne.symm hbs.1) (by omega)
    have hrest := ih hstep hnl.2 hbs.2 (by
      rw [List.length_append, List.length_singleton]
      omega)
    rw [List.append_assoc] at hrest
    exact hrest

/-- The last row is blanked, and shows the tag before the text is written. -/
theorem logInfo_eq (s : Screen) (msg : List UInt8) :
    ∃ t, LastRow s.chars infoTag t ∧ logInfo s msg = printVga t msg := by
  have hclear : ∀ u : Screen, u.chars = s.chars →
      LastRow s.chars [] (vgaSetCursor (clearRow 0x07 u (vgaRows - 1)) (vgaRows - 1) 0) := by
    intro u hu
    refine ⟨rfl, rfl, ?_⟩
    funext k
    show (clearRow 0x07 u (vgaRows - 1)).chars k = _
    rw [chars_clearRow, hu]
    rfl
  have hcursor : ∀ {u : Screen}, LastRow s.chars infoTag u →
      LastRow s.chars infoTag (vgaSetCursor u (vgaRows - 1) 7) := fun hu => ⟨rfl, rfl, hu.chars⟩
  have htag := (hclear (printSerial (printSerial (printSerial s infoTag) msg) [0x0A]) rfl).print
    (show 10 ∉ infoTag by decide) (by decide) (by decide)
  refine ⟨_, hcursor htag, ?_⟩
  unfold logInfo vgaWriteAt
  rfl

/-- **A text without a newline** is what the last row shows. -/
theorem logInfo_lastRow (s : Screen) (hnl : 10 ∉ msg) (hbs : 8 ∉ msg) (hfits : msg.length ≤ 72) :
    LastRow s.chars (infoTag ++ msg) (logInfo s msg) := by
  obtain ⟨t, ht, hlog⟩ := logInfo_eq s msg
  have hlen : infoTag.length = 7 := rfl
  rw [hlog]
  exact ht.print hnl hbs (by omega)

/-- **The other rows stay** when a line is logged. -/
theorem Above.logInfo (h : Above rows s) (hmsg : OneLine msg) : Above rows (logInfo s msg) := by
  obtain ⟨t, ht, hlog⟩ := logInfo_eq s msg
  have hlen : infoTag.length = 7 := rfl
  have hnl : 10 ∉ msg.takeWhile (· ≠ 10) := fun hmem => by
    simpa using List.mem_takeWhile_imp hmem
  have hbody := ht.print hnl hmsg.2.1 (by have := hmsg.1; omega)
  have hrest := hbody.above.newlines hmsg.2.2
  rw [hlog, ← List.takeWhile_append_dropWhile (p := (· ≠ 10)) (l := msg)]
  intro k hk
  rw [← h k hk, ← hrest k hk, printVga, List.foldl_append]
  rfl

theorem Above.foldl_logInfo (h : Above rows s) {texts : List (List UInt8)}
    (htexts : ∀ text ∈ texts, OneLine text) : Above rows (texts.foldl Vga.logInfo s) :=
  List.foldlRecOn (motive := Above rows) texts Vga.logInfo h fun _ hs text ht =>
    hs.logInfo (htexts text ht)

end FlowOS.Vga

namespace FlowOS.Shell

open FlowOS.Vga FlowOS.Syscalls
open Keyboard (ascii)

/-! ## 3. A command -/

variable {elfExec : Loader} {buffer : BitVec 32} {w : State} {rows : Int → UInt8}
  {text keys : List UInt8} {c : UInt8} {x : State × ReadState}

/-- What `elf_exec` logs are lines. -/
def Quiet (elfExec : Loader) : Prop :=
  ∀ before name, ∀ text ∈ (elfExec before name).1, OneLine text

theorem write_above (h : Above rows w.screen) (htext : OneLine text) :
    Above rows (w.write text).screen := h.logInfo htext

theorem launch_above (hquiet : Quiet elfExec) (h : Above rows w.screen)
    (hline : OneLine (bufferText buffer w.mem)) (len : Int) :
    Above rows (launch elfExec buffer w len).screen := by
  unfold launch
  dsimp only
  have hexec := h.foldl_logInfo (hquiet w.events
    (CArray.textOf (Function.update (upperLoop (bufferText buffer w.mem) 0 w.path) len 0) 128))
  split
  · exact hexec
  · refine write_above (write_above (write_above ?_ (by decide)) ?_) (by decide)
    · exact hexec
    · exact hline

/-- **Whatever a line is taken for**, its answer keeps to the last row. -/
theorem command_above (hquiet : Quiet elfExec) (h : Above rows w.screen)
    (hline : OneLine (bufferText buffer w.mem)) (len : Int) :
    Above rows (command elfExec buffer w len).screen := by
  have hstart : Above rows (w.write (ascii "\n")).screen := write_above h (by decide)
  unfold command
  dsimp only
  split
  · rw [foldl_write]
    exact hstart.foldl_logInfo (by decide)
  · split
    · have hblank : OneLine (ascii "\n") := by decide
      rw [foldl_write]
      exact hstart.foldl_logInfo fun text ht => List.eq_of_mem_replicate ht ▸ hblank
    · split
      · have hbye := write_above hstart (show OneLine (ascii "Goodbye!\n") by decide)
        dsimp only
        exact hbye.logInfo (show OneLine (ascii "Process exited") by decide)
      · split
        · exact launch_above hquiet hstart hline len
        · exact hstart

/-! ## 4. A key -/

/-- The screen in the middle of a line: `sys_read` echoes. -/
def shown (x : State × ReadState) : Screen := x.2.run.echo.foldl vgaPutChar x.1.screen

/-- What a key does to the line that is being typed. -/
def typeKey (text : List UInt8) (c : UInt8) : List UInt8 := if c = 10 then [] else edit text c

/-- What has been typed of the line that is not complete. -/
def pending (keys : List UInt8) : List UInt8 := keys.foldl typeKey []

/-- **A line is being typed**: the shell waits in `sys_read`, the text is in the buffer, and the
last row shows it behind the prompt. -/
structure Typing (buffer : BitVec 32) (rows : Int → UInt8) (text : List UInt8)
    (x : State × ReadState) : Prop where
  going : x.1.ended = none
  reading : x.2.run.ret = none
  buffered : Buffered buffer text ⟨x.2.i, store x.1.mem x.2.run.stores, shown x⟩
  plain : ∀ c ∈ text, c ≠ 0 ∧ c ≠ 8 ∧ c ≠ 10
  short : text.length ≤ 64
  screen : LastRow rows (infoTag ++ prompt ++ text) (shown x)

/-- A character that is no newline, in `sys_read` and in `Reading`. -/
theorem feed_reading (buffer : BitVec 32) (w : State) {r : ReadState} (hret : r.run.ret = none)
    (hc : c ≠ 10) :
    ∃ r', (sysReader buffer 128).feed r c = loopTest buffer 128 r' ∧ r'.run.ret = none ∧
      (⟨r'.i, store w.mem r'.run.stores, shown (w, r')⟩ : Reading) =
        Reading.key buffer ⟨r.i, store w.mem r.run.stores, shown (w, r)⟩ c := by
  dsimp only [sysReader]
  rw [if_neg hc]
  unfold Reading.key
  by_cases hbs : c = 8
  · rw [if_pos hbs, if_pos hbs]
    dsimp only
    by_cases hpos : (0 : BitVec 32).slt r.i = true
    · rw [if_pos hpos, if_pos hpos]
      refine ⟨_, rfl, hret, ?_⟩
      dsimp only [shown]
      rw [List.foldl_append]
      rfl
    · rw [if_neg hpos, if_neg hpos]
      exact ⟨r, rfl, hret, rfl⟩
  · rw [if_neg hbs, if_neg hbs]
    refine ⟨_, rfl, rfl, ?_⟩
    dsimp only [shown]
    rw [List.foldl_append, store, List.foldl_append]
    rfl

/-- The row with the text that a key leaves. -/
theorem lastRow_key {r : Reading} (h : LastRow rows (infoTag ++ prompt ++ text) r.screen)
    (hbuf : Buffered buffer text r) (hc : c ≠ 10) (hlen : text.length ≤ 64)
    (hshort : (edit text c).length ≤ 64) :
    LastRow rows (infoTag ++ prompt ++ edit text c) (r.key buffer c).screen := by
  have htag : (infoTag ++ prompt).length = 15 := rfl
  unfold Reading.key
  by_cases hbs : c = 8
  · have hedit : edit text c = text.dropLast := if_pos hbs
    rw [if_pos hbs, hedit]
    rcases List.eq_nil_or_concat' text with rfl | ⟨before, last, rfl⟩
    · rw [if_neg fun hpos => (hbuf.pos_iff (by decide)).mp hpos rfl]
      exact h
    · have hne := List.append_ne_nil_of_right_ne_nil before (List.cons_ne_nil last [])
      rw [if_pos ((hbuf.pos_iff (by omega)).mpr hne), List.dropLast_concat]
      rw [← List.append_assoc] at h
      rw [List.length_append, List.length_singleton] at hlen
      exact h.dropLast (by rw [List.length_append, htag]; omega)
  · have hedit : edit text c = text ++ [c] := if_neg hbs
    rw [hedit, List.length_append, List.length_singleton] at hshort
    rw [if_neg hbs, hedit, ← List.append_assoc]
    exact h.append hc hbs (by rw [List.length_append, htag]; omega)

theorem plain_edit (h : ∀ d ∈ text, d ≠ 0 ∧ d ≠ 8 ∧ d ≠ 10) (h0 : c ≠ 0) (hc : c ≠ 10) :
    ∀ d ∈ edit text c, d ≠ 0 ∧ d ≠ 8 ∧ d ≠ 10 := by
  intro d hd
  unfold edit at hd
  split at hd
  · exact h d (List.dropLast_subset _ hd)
  · rename_i hbs
    rcases List.mem_append.mp hd with hd | hd
    · exact h d hd
    · rw [List.mem_singleton.mp hd]
      exact ⟨h0, hbs, hc⟩

/-- **Step lemma**: a key other than the newline. -/
theorem Typing.key (h : Typing buffer rows text x) (h0 : c ≠ 0) (hc : c ≠ 10)
    (hshort : (edit text c).length ≤ 64) :
    Typing buffer rows (edit text c) ((program elfExec buffer).toReader.feed x c) := by
  have hlen := h.short
  obtain ⟨r, hfeed, hret, hkey⟩ := feed_reading buffer x.1 h.reading hc
  have hbuf := h.buffered.key (by omega) c
  have hrow := lastRow_key h.screen h.buffered hc hlen hshort
  rw [← hkey] at hbuf hrow
  -- there is room for more
  have hroom : r.i.slt (128 - 1) = true := by
    have hi : r.i.toNat = (edit text c).length := by
      have hi : r.i = _ := hbuf.index
      rw [hi, BitVec.toNat_ofNat, Nat.mod_eq_of_lt (by omega)]
    rw [slt_eq (by omega) (by decide), hi, decide_eq_true_iff]
    show _ < 127
    omega
  have hnext : (program elfExec buffer).toReader.feed x c = (x.1, r) := by
    show (if (sysReader buffer 128).wants ((sysReader buffer 128).feed x.2 c) then
      (x.1, (sysReader buffer 128).feed x.2 c) else _) = _
    rw [hfeed, loopTest_room hroom]
    exact if_pos (by show r.run.ret.isNone = true; rw [hret]; rfl)
  rw [hnext]
  exact ⟨h.going, hret, hbuf, plain_edit h.plain h0 hc, hshort, hrow⟩

theorem oneLine_of_plain (h : ∀ d ∈ text, d ≠ 0 ∧ d ≠ 8 ∧ d ≠ 10) (hlen : text.length ≤ 64) :
    OneLine text := by
  have htake : text.takeWhile (· ≠ 10) = text :=
    List.takeWhile_eq_self_iff.mpr fun d hd => decide_eq_true (h d hd).2.2
  have hdrop : text.dropWhile (· ≠ 10) = [] :=
    List.dropWhile_eq_nil_iff.mpr fun d hd => decide_eq_true (h d hd).2.2
  refine ⟨by rw [htake]; omega, ?_, ?_⟩
  · rw [htake]
    exact fun h8 => (h 8 h8).2.1 rfl
  · rw [hdrop]
    exact fun d hd => absurd hd List.not_mem_nil

/-- **A prompt**: a line is being typed, and nothing has been typed yet. -/
theorem typing_prompt (elfExec : Loader) (buffer : BitVec 32) (hended : w.ended = none)
    (habove : Above rows w.screen) :
    Typing buffer rows [] ((program elfExec buffer).enter (w.write prompt)) := by
  have hstart : sysReadStart buffer 128 = ⟨0, ⟨[], [], none⟩⟩ := loopTest_room (by decide)
  have henter : (program elfExec buffer).enter (w.write prompt) =
      (w.write prompt, ⟨0, ⟨[], [], none⟩⟩) := congrArg (Prod.mk _) hstart
  have hrow := logInfo_lastRow w.screen (show 10 ∉ prompt by decide) (by decide) (by decide)
  rw [henter]
  refine ⟨hended, rfl, ⟨rfl, fun j hj => absurd hj (Nat.not_lt_zero j)⟩,
    fun c hc => absurd hc List.not_mem_nil, Nat.zero_le _, ?_⟩
  rw [List.append_nil]
  exact hrow.of_above habove

/-- The command that a newline completes keeps to the last row. -/
theorem Typing.command (hquiet : Quiet elfExec) (h : Typing buffer rows text x) {v : State}
    (hmem : v.mem = Function.update (store x.1.mem x.2.run.stores) (buffer + x.2.i) 0)
    (hscreen : v.screen = vgaPutChar (shown x) 10) (len : Int) :
    Above rows (if len = 0 then v else command elfExec buffer v len).screen := by
  have hlen := h.short
  have habove : Above rows v.screen := by
    rw [hscreen]
    have hnewline : ∀ c ∈ ([10] : List UInt8), c = 10 := fun c hc => List.mem_singleton.mp hc
    exact h.screen.above.newlines hnewline
  have hholds : HoldsText v.mem buffer (text ++ [0]) := by
    rw [hmem]
    exact h.buffered.holds.append (by omega) h.buffered.index 0
  have htext : bufferText buffer v.mem = text :=
    bufferText_eq hholds (fun c hc => (h.plain c hc).1) (by omega)
  split
  · exact habove
  · exact command_above hquiet habove (htext ▸ oneLine_of_plain h.plain hlen) len

/-- **Step lemma**: a newline, if the shell goes on. -/
theorem Typing.newline (hquiet : Quiet elfExec) (h : Typing buffer rows text x)
    (hgoing : ((program elfExec buffer).toReader.feed x 10).1.ended = none) :
    Typing buffer rows [] ((program elfExec buffer).toReader.feed x 10) := by
  let v : State := { x.1 with
    mem := store x.1.mem (x.2.run.stores ++ [⟨buffer + x.2.i, 0⟩])
    screen := (x.2.run.echo ++ [10]).foldl vgaPutChar x.1.screen }
  let u := if x.2.i.toInt = 0 then v else Shell.command elfExec buffer v x.2.i.toInt
  have hfeed : (program elfExec buffer).toReader.feed x 10 =
      (program elfExec buffer).enter (if u.ended.isSome then u else u.write prompt) := by
    unfold Rounds.toReader program
    rfl
  have hu : Above rows u.screen := by
    refine h.command hquiet ?_ ?_ _
    · show store _ _ = _
      rw [store, List.foldl_append]
      rfl
    · show List.foldl _ _ _ = _
      rw [List.foldl_append]
      rfl
  rw [hfeed] at hgoing ⊢
  cases hended : u.ended with
  | none =>
    rw [Option.isSome_none, if_neg Bool.false_ne_true]
    exact typing_prompt elfExec buffer hended hu
  | some ending =>
    rw [hended, Option.isSome_some, if_pos rfl] at hgoing
    exact absurd (hended.symm.trans hgoing) (by simp)

/-! ## 5. The session -/

/-- **Run lemma.** -/
theorem Typing.run (hquiet : Quiet elfExec) (h : Typing buffer rows text x) (hzero : 0 ∉ keys)
    (hnarrow : ∀ p, p <+: keys → (p.foldl typeKey text).length ≤ 64)
    (hgoing : ((program elfExec buffer).toReader.run x keys).1.1.ended = none) :
    Typing buffer rows (keys.foldl typeKey text)
        ((program elfExec buffer).toReader.run x keys).1 := by
  induction keys generalizing text x with
  | nil => exact h
  | cons c keys ih =>
    have hwants : (program elfExec buffer).toReader.wants x = true := by
      show (!x.1.ended.isSome) = true
      rw [h.going]
      rfl
    rw [List.mem_cons, not_or] at hzero
    have hrest : ∀ p, p <+: keys → (p.foldl typeKey (typeKey text c)).length ≤ 64 :=
      fun p hp => hnarrow (c :: p) ((List.prefix_cons_inj c).mpr hp)
    have hshort := hrest [] List.nil_prefix
    rw [Reader.run_cons hwants] at hgoing ⊢
    rw [List.foldl_cons]
    refine ih ?_ hzero.2 hrest hgoing
    by_cases hc : c = 10
    · subst hc
      refine h.newline hquiet ?_
      -- a shell that has ended reads no more
      by_contra hended
      have hstops : (program elfExec buffer).toReader.wants
          ((program elfExec buffer).toReader.feed x 10) = false := by
        show (!Option.isSome _) = false
        rw [Option.isSome_iff_ne_none.mpr hended]
        rfl
      rw [Reader.run_ended hstops] at hgoing
      exact hended hgoing
    · have hedit : typeKey text c = edit text c := if_neg hc
      rw [hedit] at hshort ⊢
      exact h.key (Ne.symm hzero.1) hc hshort

/-- No line gets longer than 64 characters. -/
def Narrow (keys : List UInt8) : Prop := ∀ p ∈ keys.inits, (pending p).length ≤ 64

instance (keys : List UInt8) : Decidable (Narrow keys) :=
  inferInstanceAs (Decidable (∀ p ∈ keys.inits, _))

/-- A volume without files. -/
def nothingFound : Loader := fun _ _ =>
  ([ascii "ELF: Loading executable...", ascii "ELF: File not found"], false)

/-- `help`, and then `he`, each key taken when it has been pressed. -/
def helpTyped : List Keyboard.Act :=
  [0x23, 0x12, 0x26, 0x19, 0x1C, 0x23, 0x12].flatMap fun scancode =>
    [.interrupt scancode, .consume, .consume, .consume]

end FlowOS.Shell
