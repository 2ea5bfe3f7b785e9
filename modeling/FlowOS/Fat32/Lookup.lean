/-
# Looking a file up by its rendered name

The rendering drops the blanks of an 8.3 name and puts a dot in front of an extension.  For any
eleven bytes it has at most twelve characters and fits `entry_name[13]` (`copyName_fits`).

It can be read back when the name is a short name: blanks only behind the characters of the base
and of the extension, no dot and no zero byte.  The characters before the first dot are then the
base and those behind it the extension, and padding with blanks gives the two fields again
(`Valid.name_eq`).  So the rendering tells short names apart, and `fat32_finddir` finds the entry
it is asked for.  The entries `.` and `..` of a directory are no short names in this sense, but no
short name is rendered like one of them.
-/
import FlowOS.Fat32.Visible

namespace FlowOS.Fat32

/-! ## 1. Padding -/

/-- Behind a blank there are only blanks. -/
def Padded (l : List UInt8) : Prop := l.Pairwise fun c c' => c = 0x20 → c' = 0x20

instance (l : List UInt8) : Decidable (Padded l) :=
  inferInstanceAs (Decidable (l.Pairwise fun c c' => c = 0x20 → c' = 0x20))

theorem padded_cons {c : UInt8} {l : List UInt8} :
    Padded (c :: l) ↔ (c = 0x20 → ∀ c' ∈ l, c' = 0x20) ∧ Padded l := by
  unfold Padded
  rw [List.pairwise_cons]
  constructor
  · rintro ⟨h, hl⟩
    exact ⟨fun hc c' hc' => h c' hc' hc, hl⟩
  · rintro ⟨h, hl⟩
    exact ⟨fun c' hc' hc => h hc c' hc', hl⟩

/-- The characters of a padded field are in front. -/
theorem Padded.eq_filter {l : List UInt8} (h : Padded l) : ∃ k,
    l = l.filter (· ≠ 0x20) ++ List.replicate k 0x20 := by
  induction l with
  | nil => exact ⟨0, rfl⟩
  | cons c l ih =>
    obtain ⟨hc, hl⟩ := padded_cons.mp h
    by_cases hblank : c = 0x20
    · have hall : ∀ c' ∈ c :: l, c' = 0x20 := List.forall_mem_cons.mpr ⟨hblank, hc hblank⟩
      refine ⟨(c :: l).length, ?_⟩
      rw [List.filter_eq_nil_iff.mpr (by simpa using hall), List.nil_append]
      exact List.eq_replicate_of_mem hall
    · obtain ⟨k, hk⟩ := ih hl
      refine ⟨k, ?_⟩
      rw [List.filter_cons_of_pos (by simpa using hblank), List.cons_append, ← hk]

/-- A field is its characters and its width. -/
theorem Padded.eq_of_filter {l l' : List UInt8} (h : Padded l) (h' : Padded l')
    (hlen : l.length = l'.length) (hchars : l.filter (· ≠ 0x20) = l'.filter (· ≠ 0x20)) :
    l = l' := by
  obtain ⟨k, hk⟩ := h.eq_filter
  obtain ⟨k', hk'⟩ := h'.eq_filter
  have hwidth : k = k' := by
    have hl := congrArg List.length hk
    have hl' := congrArg List.length hk'
    rw [List.length_append, List.length_replicate] at hl hl'
    rw [hchars] at hl
    omega
  rw [hk, hk', hchars, hwidth]

/-- A field that starts with a blank has no characters. -/
theorem Padded.filter_eq_nil {c : UInt8} {l : List UInt8} (h : Padded (c :: l)) (hc : c = 0x20) :
    (c :: l).filter (· ≠ 0x20) = [] := by
  have hall := (padded_cons.mp h).1 hc
  exact List.filter_eq_nil_iff.mpr (by simpa [hc] using hall)

/-! ## 2. Short names -/

/-- A short name: base and extension are padded, and there is no dot and no zero byte. -/
structure DirEntry.Valid (e : DirEntry) : Prop where
  base : Padded (e.name.toList.take 8)
  ext : Padded (e.name.toList.drop 8)
  noDot : ∀ c ∈ e.name.toList, c ≠ 0x2E
  noZero : ∀ c ∈ e.name.toList, c ≠ 0

/-- The entry of a directory for itself, or for the one above it. -/
def DirEntry.IsDot (e : DirEntry) : Prop :=
  e.name.toList = 0x2E :: List.replicate 10 0x20 ∨
    e.name.toList = 0x2E :: 0x2E :: List.replicate 9 0x20

variable {e e' : DirEntry}

/-- The rendering of a short name ends at no zero byte. -/
theorem DirEntry.Valid.cname_eq (h : e.Valid) : e.cname = e.shortName := by
  refine List.takeWhile_eq_self_iff.mpr fun c hc => ?_
  have hne : c ≠ 0 := by
    unfold shortName at hc
    rcases List.mem_append.mp hc with hc | hc
    · exact h.noZero c (List.mem_of_mem_take (List.mem_of_mem_filter hc))
    · split at hc
      · rcases List.mem_cons.mp hc with rfl | hc
        · decide
        · exact h.noZero c (List.mem_of_mem_drop (List.mem_of_mem_filter hc))
      · cases hc
  simpa using hne

theorem DirEntry.Valid.base_noDot (h : e.Valid) :
    ∀ c ∈ (e.name.toList.take 8).filter (· ≠ 0x20), c ≠ 0x2E :=
  fun c hc => h.noDot c (List.mem_of_mem_take (List.mem_of_mem_filter hc))

/-- **Reading the base back**: what is before the first dot. -/
theorem DirEntry.Valid.base_eq (h : e.Valid) :
    (e.name.toList.take 8).filter (· ≠ 0x20) = e.shortName.takeWhile (· ≠ 0x2E) := by
  unfold shortName
  rw [List.takeWhile_append_of_pos (by simpa using h.base_noDot)]
  split <;> simp

/-- **Reading the extension back**: what is behind the first dot. -/
theorem DirEntry.Valid.ext_filter_eq (h : e.Valid) :
    (e.name.toList.drop 8).filter (· ≠ 0x20) = (e.shortName.dropWhile (· ≠ 0x2E)).tail := by
  unfold shortName
  rw [List.dropWhile_append_of_pos (by simpa using h.base_noDot)]
  split
  · simp
  · rename_i hblank
    have hext := h.ext
    rw [e.ext_eq] at hext ⊢
    rw [hext.filter_eq_nil (not_not.mp hblank)]
    rfl

/-- **Short names that are rendered alike are the same.** -/
theorem DirEntry.Valid.name_eq (h : e.Valid) (h' : e'.Valid) (heq : e.cname = e'.cname) :
    e.name = e'.name := by
  rw [h.cname_eq, h'.cname_eq] at heq
  have hbase : e.name.toList.take 8 = e'.name.toList.take 8 := by
    refine h.base.eq_of_filter h'.base (by simp) ?_
    rw [h.base_eq, h'.base_eq, heq]
  have hext : e.name.toList.drop 8 = e'.name.toList.drop 8 := by
    refine h.ext.eq_of_filter h'.ext (by simp) ?_
    rw [h.ext_filter_eq, h'.ext_filter_eq, heq]
  have hall : e.name.toList = e'.name.toList := by
    rw [← List.take_append_drop 8 e.name.toList, hbase, hext, List.take_append_drop]
  exact Vector.toList_inj.mp hall

/-- If there is something behind the base it has characters. -/
theorem DirEntry.Valid.ext_ne_nil (h : e.Valid) (hdot : 0x2E ∈ e.shortName) :
    (e.name.toList.drop 8).filter (· ≠ 0x20) ≠ [] := by
  unfold shortName at hdot
  rcases List.mem_append.mp hdot with hdot | hdot
  · exact absurd rfl (h.base_noDot _ hdot)
  · split at hdot
    · rename_i hchar
      rw [e.ext_eq, List.filter_cons_of_pos (by simpa using hchar)]
      exact List.cons_ne_nil _ _
    · cases hdot

theorem DirEntry.IsDot.shortName_eq (h : e.IsDot) :
    e.shortName = [0x2E] ∨ e.shortName = [0x2E, 0x2E] := by
  have hext := e.ext_eq
  unfold shortName
  rcases h with h | h
  · rw [h] at hext
    rw [h, ← (List.cons.inj hext).1]
    exact Or.inl (by decide)
  · rw [h] at hext
    rw [h, ← (List.cons.inj hext).1]
    exact Or.inr (by decide)

/-- A short name is not rendered like a dot entry: its extension would be empty, or a dot. -/
theorem DirEntry.Valid.cname_ne_dot (h : e.Valid) (hdot : e'.IsDot) : e.cname ≠ e'.cname := by
  intro heq
  rw [h.cname_eq] at heq
  have hext := h.ext_filter_eq
  rcases hdot.shortName_eq with hname | hname
  · have hshort : e.shortName = [0x2E] := by
      rw [heq, cname, hname]
      decide
    rw [hshort] at hext
    exact h.ext_ne_nil (by rw [hshort]; decide) hext
  · have hshort : e.shortName = [0x2E, 0x2E] := by
      rw [heq, cname, hname]
      decide
    rw [hshort] at hext
    have hmem : (0x2E : UInt8) ∈ (e.name.toList.drop 8).filter (· ≠ 0x20) := by
      rw [hext]
      decide
    exact h.noDot _ (List.mem_of_mem_drop (List.mem_of_mem_filter hmem)) rfl

/-- **The rendering fits `entry_name[13]`**, for any eleven bytes: the terminator included, nothing
is stored behind. -/
theorem copyName_fits (e : DirEntry) (dst : Mem) : ∀ x, 13 ≤ x → copyName e dst x = dst x := by
  intro x hx
  refine (copyName_delivered e dst).rest x (Or.inr ?_)
  have hlen := length_shortName e
  rw [List.length_append, List.length_singleton]
  omega

/-! ## 3. Lookup -/

variable {σ : Type} {env : FatEnv σ} {d : Disk} {fat : Fat}

/-- In a directory of short names and dot entries, the first entry with a given rendering is the one
with the name. -/
theorem find_cname {l : List DirEntry} (hvalid : ∀ e' ∈ l, e'.Valid ∨ e'.IsDot) (he : e ∈ l)
    (hev : e.Valid) (hone : ∀ e' ∈ l, e'.name = e.name → e' = e) {name : Mem}
    (hname : name.CStr 0 e.cname) : (l.find? fun e' => name.CStr 0 e'.cname) = some e := by
  cases hfind : l.find? fun e' => name.CStr 0 e'.cname with
  | none => exact absurd (List.find?_eq_none.mp hfind e he) (by simpa using hname)
  | some e' =>
    have hmem := List.mem_of_find?_eq_some hfind
    have hname' : name.CStr 0 e'.cname := by simpa using List.find?_some hfind
    have heq : e.cname = e'.cname := hname.unique hname'
    rcases hvalid e' hmem with hv | hdot
    · rw [hone e' hmem (hv.name_eq hev heq.symm)]
    · exact absurd heq (hev.cname_ne_dot hdot)

/-- **The rendering tells short names apart.**  Two short names with the same rendering are equal;
the rendering of any name is a string that `entry_name[13]` has room for; and in a directory of
short names, dot entries aside, `fat32_finddir` of an entry's rendering returns the node of the one
entry with that name. -/
theorem short_names_apart :
    (∀ e e' : DirEntry, e.Valid → e'.Valid → ∀ dst dst' t, (copyName e dst).CStr 0 t →
      (copyName e' dst').CStr 0 t → e.name = e'.name) ∧
    (∀ e dst, (∃ t, t.length < 13 ∧ (copyName e dst).CStr 0 t) ∧
      ∀ x, 13 ≤ x → copyName e dst x = dst x) ∧
    ∀ {σ : Type} (env : FatEnv σ) (d : Disk), Serves env d → Allocates env → ∀ fat : Fat,
      fat.bytesPerSector = 512 → ∀ dir cs, DirChain d fat dir cs →
      (∀ e ∈ listing d fat cs, e.Valid ∨ e.IsDot) →
      ∀ e ∈ listing d fat cs, e.Valid → (∀ e' ∈ listing d fat cs, e'.name = e.name → e' = e) →
      ∀ fuel, cs.length < fuel → ∀ dst t, (copyName e dst).CStr 0 t →
      ∀ name entryName s, name.CStr 0 t →
        ∃ node s', fat32Finddir env fat fuel dir name entryName s = some (some node, s') ∧
          node.Stands e := by
  refine ⟨?_, ?_, ?_⟩
  · intro e e' he he' dst dst' t ht ht'
    refine he.name_eq he' ?_
    rw [(copyName_cstr e dst).unique ht, (copyName_cstr e' dst').unique ht']
  · intro e dst
    exact ⟨⟨e.cname, length_cname e, copyName_cstr e dst⟩, copyName_fits e dst⟩
  · intro σ env d hd ha fat h512 dir cs hchain hvalid e he hev hone fuel hfuel dst t ht name
      entryName s hname
    rw [← (copyName_cstr e dst).unique ht] at hname
    obtain ⟨r, s', heq, hrel⟩ := fat32Finddir_listing hd ha h512 hchain hfuel name entryName s
    rw [find_cname hvalid he hev hone hname] at hrel
    cases hrel with
    | @some node _ hstands => exact ⟨node, s', heq, hstands⟩

/-- The file `A` of `readOnlyDisk`. -/
theorem short_names_apart_letter : ∃ node s',
    fat32Finddir (readyEnv readOnlyDisk.mounted) smallBpb.fat 2 2 (letterName 0x41) (fun _ => 0) ()
      = some (some node, s') ∧ node.Stands (readOnlyEntry 0) := by
  have hlist : listing readOnlyDisk.mounted smallBpb.fat [2] = [readOnlyEntry 0] := by
    decide +kernel
  have hvalid : (readOnlyEntry 0).Valid :=
    ⟨by decide +kernel, by decide +kernel, by decide +kernel, by decide +kernel⟩
  refine short_names_apart.2.2 (readyEnv readOnlyDisk.mounted) readOnlyDisk.mounted
    (fun _ _ _ _ => ⟨rfl, rfl⟩) (fun _ _ => by simp [readyEnv]) smallBpb.fat rfl 2 [2]
    readOnlyDisk_dir ?_ (readOnlyEntry 0) ?_ hvalid ?_ 2 (by decide) (fun _ => 0) [0x41]
    (by decide +kernel) _ _ _ (by decide)
  all_goals rw [hlist]
  · intro e he
    rw [List.mem_singleton.mp he]
    exact Or.inl hvalid
  · exact List.mem_singleton_self _
  · intro e he _
    exact List.mem_singleton.mp he

end FlowOS.Fat32
