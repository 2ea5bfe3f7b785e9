/-
# The line `sys_read` returns

`sys_read` edits in the caller's buffer.  A character is stored behind the text so far, and a
backspace only takes the index back: the character it removes stays in memory until something is
stored over it.  What is in the buffer in the end is the text all the same, because the index is
always the length of the text and everything below it has been stored.

Abstractly, a line is a list of characters with two operations, `edit`: append one, drop the last.
The call reads the shortest first part of the stream that ends in a newline or fills the buffer,
and returns the text that part leaves.
-/
import FlowOS.Syscalls
import Mathlib.Data.List.Infix

namespace FlowOS.Syscalls

/-! ## 1. Lines -/

/-- What a character does to the text: a backspace removes the last one, if there is one, every
other character is appended. -/
def edit (text : List UInt8) (c : UInt8) : List UInt8 :=
  if c = 8 then text.dropLast else text ++ [c]

/-- The text that the characters before the newline leave of `text`. -/
def editLine (text keys : List UInt8) : List UInt8 := (keys.takeWhile (· ≠ 10)).foldl edit text

/-- The characters complete a line of at most `n`: they end in a newline, or have brought the text
to `n` characters. -/
def Complete (n : Nat) (text keys : List UInt8) : Prop :=
  keys.getLast? = some 10 ∨ (editLine text keys).length = n

/-- They do, and no smaller first part of them does. -/
structure Shortest (n : Nat) (text keys : List UInt8) : Prop where
  complete : Complete n text keys
  least : ∀ p, p <+: keys → p ≠ keys → ¬Complete n text p

theorem editLine_nil (text : List UInt8) : editLine text [] = text := rfl

theorem editLine_cons {c : UInt8} (hc : c ≠ 10) (text keys : List UInt8) :
    editLine text (c :: keys) = editLine (edit text c) keys := by
  rw [editLine, List.takeWhile_cons_of_pos (by simpa using hc)]
  rfl

theorem editLine_newline (text keys : List UInt8) : editLine text (10 :: keys) = text := by
  rw [editLine, List.takeWhile_cons_of_neg (by decide)]
  rfl

theorem complete_nil {n : Nat} {text : List UInt8} : Complete n text [] ↔ text.length = n := by
  simp [Complete, editLine_nil]

theorem complete_cons {n : Nat} {c : UInt8} (hc : c ≠ 10) {text keys : List UInt8} :
    Complete n text (c :: keys) ↔ Complete n (edit text c) keys := by
  unfold Complete
  rw [editLine_cons hc]
  cases keys with
  | nil => simp [hc]
  | cons d keys => rw [List.getLast?_cons_cons]

/-- What is left of a shortest line behind its first character. -/
theorem Shortest.tail {n : Nat} {c : UInt8} (hc : c ≠ 10) {text keys : List UInt8}
    (h : Shortest n text (c :: keys)) : Shortest n (edit text c) keys := by
  refine ⟨(complete_cons hc).mp h.complete, ?_⟩
  intro p hp hne hcomplete
  exact h.least (c :: p) ((List.prefix_cons_inj c).mpr hp) (fun he => hne (List.cons.inj he).2)
    ((complete_cons hc).mpr hcomplete)

/-- A newline is the last character of a shortest line. -/
theorem Shortest.newline {n : Nat} {text keys : List UInt8} (h : Shortest n text (10 :: keys)) :
    keys = [] := by
  by_contra hne
  refine h.least [10] ((List.prefix_cons_inj 10).mpr (List.nil_prefix)) ?_ (Or.inl rfl)
  exact fun he => hne (List.cons.inj he).2.symm

/-- With a first character to come, the text is not there yet. -/
theorem Shortest.not_full {n : Nat} {c : UInt8} {text keys : List UInt8}
    (h : Shortest n text (c :: keys)) : text.length ≠ n :=
  fun hfull => h.least [] (List.nil_prefix) (by simp) (complete_nil.mpr hfull)

/-! ## 2. The buffer -/

/-- The caller's memory after some stores. -/
def store (mem : BitVec 32 → UInt8) (stores : List Store) : BitVec 32 → UInt8 :=
  stores.foldl (fun mem s => Function.update mem s.addr s.byte) mem

/-- The characters stand in memory from `buffer` on. -/
def HoldsText (mem : BitVec 32 → UInt8) (buffer : BitVec 32) (text : List UInt8) : Prop :=
  ∀ j (hj : j < text.length), mem (buffer + BitVec.ofNat 32 j) = text[j]

/-- The loop of `sys_read` with the stream passed along, from which every round takes a character
by `keyboard_get_char`: what has been done, and the characters that are left. -/
def sysReadKeys (buffer maxLen : BitVec 32) : List UInt8 → BitVec 32 → ReadRun × List UInt8
  | keys, i =>
    if i.slt (maxLen - 1) then
      match keys with
      | [] => (⟨[], [], none⟩, [])
      | c :: keys =>
        if c = 10 then (⟨[⟨buffer + i, 0⟩], [10], some i⟩, keys)
        else if c = 8 then
          if (0 : BitVec 32).slt i then
            let r := sysReadKeys buffer maxLen keys (i - 1)
            ({ r.1 with echo := 8 :: r.1.echo }, r.2)
          else sysReadKeys buffer maxLen keys i
        else
          let r := sysReadKeys buffer maxLen keys (i + 1)
          ({ r.1 with stores := ⟨buffer + i, c⟩ :: r.1.stores, echo := c :: r.1.echo }, r.2)
    else (⟨[⟨buffer + i, 0⟩], [], some i⟩, keys)

/-- The characters a call of `sys_read` leaves for the next one. -/
def keysLeft (buffer maxLen : BitVec 32) (keys : List UInt8) : List UInt8 :=
  (sysReadKeys buffer maxLen keys 0).2

variable {buffer maxLen i : BitVec 32} {mem : BitVec 32 → UInt8} {text : List UInt8}

/-- It is the same loop. -/
theorem sysReadKeys_fst (keys : List UInt8) (i : BitVec 32) :
    (sysReadKeys buffer maxLen keys i).1 = sysReadLoop buffer maxLen keys i := by
  induction keys generalizing i with
  | nil =>
    rw [sysReadKeys, sysReadLoop]
    split <;> rfl
  | cons c keys ih =>
    rw [sysReadKeys, sysReadLoop]
    simp only [← ih]
    split
    · split
      · rfl
      · split
        · split <;> rfl
        · rfl
    · rfl

/-- Different places of a buffer have different addresses. -/
theorem place_ne {j k : Nat} (hj : j < 2 ^ 32) (hk : k < 2 ^ 32) (hne : j ≠ k) :
    buffer + BitVec.ofNat 32 j ≠ buffer + BitVec.ofNat 32 k := by
  intro he
  have hnat := congrArg BitVec.toNat ((BitVec.add_right_inj _).mp he)
  rw [BitVec.toNat_ofNat, BitVec.toNat_ofNat, Nat.mod_eq_of_lt hj, Nat.mod_eq_of_lt hk] at hnat
  exact hne hnat

/-- Storing a character behind the text. -/
theorem HoldsText.append (h : HoldsText mem buffer text) (hlen : text.length < 2 ^ 32)
    (hi : i = BitVec.ofNat 32 text.length) (c : UInt8) :
    HoldsText (Function.update mem (buffer + i) c) buffer (text ++ [c]) := by
  intro j hj
  rw [List.length_append, List.length_singleton] at hj
  subst hi
  rcases Nat.lt_or_ge j text.length with hlt | hge
  · rw [Function.update_of_ne (place_ne (by omega) hlen (by omega)), h j hlt,
      List.getElem_append_left hlt]
  · obtain rfl : j = text.length := by omega
    rw [Function.update_self, List.getElem_append_right (Nat.le_refl _)]
    simp

/-- A backspace leaves the memory as it is. -/
theorem HoldsText.dropLast (h : HoldsText mem buffer text) :
    HoldsText mem buffer text.dropLast := by
  intro j hj
  rw [List.length_dropLast] at hj
  rw [h j (by omega), List.getElem_dropLast]

/-! ## 3. The loop -/

/-- What `sys_read` has done when it has read a line: the value returned, the memory, and what is
left of the characters. -/
structure ReadsLine (buffer maxLen i : BitVec 32) (mem : BitVec 32 → UInt8)
    (keys line rest : List UInt8) : Prop where
  ret : (sysReadKeys buffer maxLen keys i).1.ret = some (BitVec.ofNat 32 line.length)
  holds : HoldsText (store mem (sysReadKeys buffer maxLen keys i).1.stores) buffer (line ++ [0])
  fits : line.length < maxLen.toNat
  left : (sysReadKeys buffer maxLen keys i).2 = rest

/-- The index at the text's length, for a positive length of the buffer. -/
theorem slt_text (hpos : 0 < maxLen.toInt) (hlen : text.length < maxLen.toNat)
    (hi : i = BitVec.ofNat 32 text.length) :
    i.slt (maxLen - 1) = decide (text.length + 1 < maxLen.toNat) := by
  obtain ⟨-, h31⟩ := toInt_pos_iff.mp hpos
  have htoNat : i.toNat = text.length := by
    rw [hi, BitVec.toNat_ofNat, Nat.mod_eq_of_lt (by omega)]
  rw [slt_pred hpos (by omega), htoNat]

/-- The index after a backspace. -/
theorem index_edit_backspace (hlen : text.length < 2 ^ 31) (hi : i = BitVec.ofNat 32 text.length) :
    (if (0 : BitVec 32).slt i then i - 1 else i) = BitVec.ofNat 32 (edit text 8).length := by
  have htoNat : i.toNat = text.length := by
    rw [hi, BitVec.toNat_ofNat, Nat.mod_eq_of_lt (by omega)]
  have hedit : (edit text 8).length = text.length - 1 := by
    rw [edit, if_pos rfl, List.length_dropLast]
  rw [slt_eq (by decide) (by omega), hedit]
  split
  · rename_i h0
    have h0 := of_decide_eq_true h0
    refine BitVec.eq_of_toNat_eq ?_
    rw [toNat_sub_one h0, htoNat, BitVec.toNat_ofNat, Nat.mod_eq_of_lt (by omega)]
  · rename_i h0
    have h0 : ¬0 < i.toNat := fun h => h0 (decide_eq_true h)
    rw [hi]
    congr 1
    omega

/-- The index after another character. -/
theorem index_edit_append {c : UInt8} (hc : c ≠ 8) (hi : i = BitVec.ofNat 32 text.length) :
    i + 1 = BitVec.ofNat 32 (edit text c).length := by
  rw [edit, if_neg hc, List.length_append, List.length_singleton, BitVec.ofNat_add, hi]
  rfl

/-- The buffer is full. -/
theorem readsLine_full (hfull : ¬i.slt (maxLen - 1) = true) (hlen : text.length < maxLen.toNat)
    (hi : i = BitVec.ofNat 32 text.length)
    (hend : HoldsText (Function.update mem (buffer + i) 0) buffer (text ++ [0]))
    (rest : List UInt8) : ReadsLine buffer maxLen i mem rest text rest := by
  have hloop : sysReadKeys buffer maxLen rest i = (⟨[⟨buffer + i, 0⟩], [], some i⟩, rest) := by
    cases rest <;> rw [sysReadKeys, if_neg hfull]
  exact ⟨by rw [hloop, hi], by rw [hloop]; exact hend, hlen, by rw [hloop]⟩

/-- The line ends. -/
theorem readsLine_newline (hroom : i.slt (maxLen - 1) = true) (hlen : text.length < maxLen.toNat)
    (hi : i = BitVec.ofNat 32 text.length)
    (hend : HoldsText (Function.update mem (buffer + i) 0) buffer (text ++ [0]))
    (rest : List UInt8) : ReadsLine buffer maxLen i mem (10 :: rest) text rest := by
  have hloop : sysReadKeys buffer maxLen (10 :: rest) i
      = (⟨[⟨buffer + i, 0⟩], [10], some i⟩, rest) := by
    rw [sysReadKeys, if_pos hroom, if_pos rfl]
  exact ⟨by rw [hloop, hi], by rw [hloop]; exact hend, hlen, by rw [hloop]⟩

/-- A backspace only moves the index. -/
theorem sysReadKeys_backspace (hroom : i.slt (maxLen - 1) = true) (keys : List UInt8) :
    ∃ echo, sysReadKeys buffer maxLen (8 :: keys) i =
      let r := sysReadKeys buffer maxLen keys (if (0 : BitVec 32).slt i then i - 1 else i)
      ({ r.1 with echo := echo }, r.2) := by
  rw [sysReadKeys, if_pos hroom, if_neg (by decide), if_pos rfl]
  split
  · exact ⟨_, rfl⟩
  · exact ⟨(sysReadKeys buffer maxLen keys i).1.echo, rfl⟩

/-- Any other character is stored. -/
theorem sysReadKeys_char (hroom : i.slt (maxLen - 1) = true) {c : UInt8} (hnl : c ≠ 10)
    (hbs : c ≠ 8) (keys : List UInt8) :
    sysReadKeys buffer maxLen (c :: keys) i =
      let r := sysReadKeys buffer maxLen keys (i + 1)
      ({ r.1 with stores := ⟨buffer + i, c⟩ :: r.1.stores, echo := c :: r.1.echo }, r.2) := by
  rw [sysReadKeys, if_pos hroom, if_neg hnl, if_neg hbs]

/-- **The loop reads the line.**  The index is the length of the text and the buffer holds the
text; the rest of a shortest line is edited into it. -/
theorem sysReadKeys_shortest (hpos : 0 < maxLen.toInt) {keys : List UInt8}
    (h : Shortest (maxLen.toNat - 1) text keys) (hlen : text.length < maxLen.toNat)
    (hi : i = BitVec.ofNat 32 text.length) (hmem : HoldsText mem buffer text)
    (rest : List UInt8) :
    ReadsLine buffer maxLen i mem (keys ++ rest) (editLine text keys) rest := by
  obtain ⟨-, h31⟩ := toInt_pos_iff.mp hpos
  induction keys generalizing text i mem with
  | nil =>
    have hfull := complete_nil.mp h.complete
    refine readsLine_full ?_ hlen hi (hmem.append (by omega) hi 0) rest
    rw [slt_text hpos hlen hi]
    exact fun hlt => absurd (of_decide_eq_true hlt) (by omega)
  | cons c keys ih =>
    have hmore := h.not_full
    have hroom : i.slt (maxLen - 1) = true := by
      rw [slt_text hpos hlen hi]
      exact decide_eq_true (by omega)
    rw [List.cons_append]
    by_cases hnl : c = 10
    · subst hnl
      obtain rfl := h.newline
      rw [editLine_newline, List.nil_append]
      exact readsLine_newline hroom hlen hi (hmem.append (by omega) hi 0) rest
    · have htail := h.tail hnl
      rw [editLine_cons hnl]
      by_cases hbs : c = 8
      · subst hbs
        have hdrop : edit text 8 = text.dropLast := if_pos rfl
        have hshort : (edit text 8).length < maxLen.toNat := by
          rw [hdrop, List.length_dropLast]
          omega
        obtain ⟨echo, hround⟩ := @sysReadKeys_backspace buffer maxLen i hroom (keys ++ rest)
        obtain ⟨hret, hholds, hfits, hleft⟩ := ih htail hshort
          (index_edit_backspace (by omega) hi) (hdrop ▸ hmem.dropLast)
        exact ⟨by rw [hround]; exact hret, by rw [hround]; exact hholds, hfits,
          by rw [hround]; exact hleft⟩
      · have happend : edit text c = text ++ [c] := if_neg hbs
        have hshort : (edit text c).length < maxLen.toNat := by
          rw [happend, List.length_append, List.length_singleton]
          omega
        have hround := @sysReadKeys_char buffer maxLen i hroom c hnl hbs (keys ++ rest)
        obtain ⟨hret, hholds, hfits, hleft⟩ := ih htail hshort (index_edit_append hbs hi)
          (happend ▸ hmem.append (by omega) hi c)
        exact ⟨by rw [hround]; exact hret, by rw [hround]; exact hholds, hfits,
          by rw [hround]; exact hleft⟩

/-- **Without a complete line the call waits**, and has taken every character. -/
theorem sysReadKeys_waits (hpos : 0 < maxLen.toInt) {keys : List UInt8}
    (h : ∀ p, p <+: keys → ¬Complete (maxLen.toNat - 1) text p)
    (hlen : text.length < maxLen.toNat) (hi : i = BitVec.ofNat 32 text.length) :
    (sysReadKeys buffer maxLen keys i).1.ret = none ∧
      (sysReadKeys buffer maxLen keys i).2 = [] := by
  obtain ⟨-, h31⟩ := toInt_pos_iff.mp hpos
  induction keys generalizing text i with
  | nil =>
    have hmore : text.length ≠ maxLen.toNat - 1 :=
      fun hfull => h [] List.nil_prefix (complete_nil.mpr hfull)
    have hroom : i.slt (maxLen - 1) = true := by
      rw [slt_text hpos hlen hi]
      exact decide_eq_true (by omega)
    rw [sysReadKeys, if_pos hroom]
    exact ⟨rfl, rfl⟩
  | cons c keys ih =>
    have hmore : text.length ≠ maxLen.toNat - 1 :=
      fun hfull => h [] List.nil_prefix (complete_nil.mpr hfull)
    have hroom : i.slt (maxLen - 1) = true := by
      rw [slt_text hpos hlen hi]
      exact decide_eq_true (by omega)
    have hnl : c ≠ 10 := by
      rintro rfl
      exact h [10] ((List.prefix_cons_inj 10).mpr List.nil_prefix) (Or.inl rfl)
    have htail : ∀ p, p <+: keys → ¬Complete (maxLen.toNat - 1) (edit text c) p := by
      intro p hp hcomplete
      exact h (c :: p) ((List.prefix_cons_inj c).mpr hp) ((complete_cons hnl).mpr hcomplete)
    by_cases hbs : c = 8
    · subst hbs
      have hshort : (edit text 8).length < maxLen.toNat := by
        rw [edit, if_pos rfl, List.length_dropLast]
        omega
      obtain ⟨echo, hround⟩ := @sysReadKeys_backspace buffer maxLen i hroom keys
      rw [hround]
      exact ih htail hshort (index_edit_backspace (by omega) hi)
    · have hshort : (edit text c).length < maxLen.toNat := by
        rw [edit, if_neg hbs, List.length_append, List.length_singleton]
        omega
      rw [sysReadKeys_char hroom hnl hbs]
      exact ih htail hshort (index_edit_append hbs hi)

/-! ## 4. `sys_read` -/

/-- **`sys_read` edits a line.**  For every buffer and every positive length: if `line` is the
shortest first part of the characters that ends in a newline or fills the text to `maxLen - 1`
characters, the call returns the length of the edited text, at most `maxLen - 1`, leaves the
characters behind `line`, and the buffer holds the text and a NUL.  If there is no such part among
the characters typed so far, it waits for more.  In either case it stores to the `maxLen` bytes of
the buffer only. -/
theorem sysRead_line (buffer maxLen : BitVec 32) (hpos : 0 < maxLen.toInt) :
    (∀ line rest, Shortest (maxLen.toNat - 1) [] line →
      (sysRead buffer maxLen (line ++ rest)).ret
        = some (BitVec.ofNat 32 (editLine [] line).length) ∧
      (editLine [] line).length ≤ maxLen.toNat - 1 ∧
      keysLeft buffer maxLen (line ++ rest) = rest ∧
      ∀ mem, HoldsText (store mem (sysRead buffer maxLen (line ++ rest)).stores) buffer
        (editLine [] line ++ [0])) ∧
    (∀ keys, (∀ p, p <+: keys → ¬Complete (maxLen.toNat - 1) [] p) →
      (sysRead buffer maxLen keys).ret = none ∧ keysLeft buffer maxLen keys = []) ∧
    ∀ keys, ∀ s ∈ (sysRead buffer maxLen keys).stores,
      ∃ j : BitVec 32, j.toNat < maxLen.toNat ∧ s.addr = buffer + j := by
  obtain ⟨h0, -⟩ := toInt_pos_iff.mp hpos
  unfold sysRead
  simp only [← sysReadKeys_fst]
  refine ⟨?_, ?_, ?_⟩
  · intro line rest hline
    have hread := fun mem => @sysReadKeys_shortest buffer maxLen 0 mem [] hpos line hline h0 rfl
      (fun j hj => absurd hj (Nat.not_lt_zero j)) rest
    obtain ⟨hret, -, hfits, hleft⟩ := hread fun _ => 0
    exact ⟨hret, by omega, hleft, fun mem => (hread mem).holds⟩
  · intro keys hkeys
    exact sysReadKeys_waits hpos hkeys h0 rfl
  · intro keys s hs
    rw [sysReadKeys_fst] at hs
    exact sysReadLoop_stores hpos keys (show (0 : BitVec 32).toNat < _ from h0) hs

/-- `a`, `b`, backspace, `c`, newline and `d`, for a buffer of 16 bytes: the text is `ac`, and `d`
is left. -/
theorem sysRead_line_edited :
    (sysRead 0x40000000 16 ([97, 98, 8, 99, 10] ++ [100])).ret = some 2 ∧
    keysLeft 0x40000000 16 ([97, 98, 8, 99, 10] ++ [100]) = [100] ∧
    ∀ mem, HoldsText (store mem (sysRead 0x40000000 16 ([97, 98, 8, 99, 10] ++ [100])).stores)
      0x40000000 ([97, 99] ++ [0]) := by
  have hshort : Shortest ((16 : BitVec 32).toNat - 1) [] [97, 98, 8, 99, 10] := by
    have hall : ∀ p ∈ [97, 98, 8, 99, 10].inits, p ≠ [97, 98, 8, 99, 10] →
        ¬(p.getLast? = some 10 ∨ (editLine [] p).length = (16 : BitVec 32).toNat - 1) := by decide
    exact ⟨Or.inl rfl, fun p hp => hall p ((List.mem_inits p _).mpr hp)⟩
  obtain ⟨hret, -, hleft, hmem⟩ := (sysRead_line 0x40000000 16 (by decide)).1 _ [100] hshort
  exact ⟨hret, hleft, hmem⟩

end FlowOS.Syscalls
