/-
# Where a segment is loaded

The loader computes the pages of a segment from `vaddr` and `memsz`, reads as many bytes as
`filesz` lets it, and clears the rest up to `memsz`.  All of this is 32-bit arithmetic on numbers
that the file chooses.  The module says exactly for which of them the bytes stay on the pages.

The work on a segment is first written down as a list of actions, in order; `loadSegment` performs
this list and nothing else (`loadSegment_performs`).  So the pages it maps and the bytes it stores
are those of the list.

Let `n` be the number of pages between the start of the first one and `vaddr + memsz`, rounded up.
`num_pages` is `n` modulo `2 ^ 20`, and so it is too small exactly when the segment takes more
than `2 ^ 32 - 4096` bytes from the start of its first page on.  And the file may deliver more
bytes than the pages hold, since nothing compares `filesz` with `memsz`.
-/
import FlowOS.Elf.Exec

namespace FlowOS.Elf

open Word Frames Paging

variable {σ : Type}

/-! ## 1. The actions -/

inductive Action
  | back (v : UInt32) (flags : Nat)
  | work (offset size : Nat)
  | store (v : UInt32) (b : UInt8)

/-- One action of the loader, while it holds the program headers at `pheaders`. -/
def Action.perform (c : Calls σ) (pheaders : Nat) : Action → Load σ Unit
  | .back v flags => backPage c v flags do
      c.kfree pheaders
      throw (.returns .outOfPhysicalMemory)
  | .work offset size => c.vfsWork offset size
  | .store v b => store8 c v.toNat b

def performs (c : Calls σ) (pheaders : Nat) : List Action → Load σ Unit
  | [] => pure ()
  | x :: xs => do
    x.perform c pheaders
    performs c pheaders xs

/-- The `n` pages from `v` on. -/
def backs (flags n : Nat) (v : UInt32) : List Action :=
  (List.range n).map fun j => .back (v + 4096 * UInt32.ofNat j) flags

/-- The bytes `bs`, from `v` on. -/
def stores (bs : List UInt8) (v : UInt32) : List Action :=
  bs.mapIdx fun j b => .store (v + UInt32.ofNat j) b

/-- What the loader does for segment `i`: its pages, the bytes of the file, the cleared ones. -/
def segmentActions (reads : Reads) (file : List UInt8) (i : Nat) (ph : ProgramHeader) :
    List Action :=
  backs ph.pageFlags ph.numPages.toNat ph.pageStart ++
  (if 0 < ph.filesz then
    .work ph.offset.toNat ph.filesz.toNat :: stores (delivered reads file i ph) ph.vaddr
  else []) ++
  (if ph.filesz < ph.memsz then
    stores (List.replicate (ph.memsz - ph.filesz).toNat 0) (ph.vaddr + ph.filesz)
  else [])

theorem performs_append (c : Calls σ) (pheaders : Nat) (xs ys : List Action) :
    performs c pheaders (xs ++ ys)
      = performs c pheaders xs >>= fun _ => performs c pheaders ys := by
  induction xs with
  | nil => rw [List.nil_append, performs, pure_bind]
  | cons x xs ih => rw [List.cons_append, performs, performs, ih, bind_assoc]

theorem backs_succ (flags n : Nat) (v : UInt32) :
    backs flags (n + 1) v = .back v flags :: backs flags n (v + 4096) := by
  have hzero : v + 4096 * UInt32.ofNat 0 = v := by
    rw [show UInt32.ofNat 0 = 0 from rfl, UInt32.mul_zero, UInt32.add_zero]
  have hsucc : ∀ j, v + 4096 * UInt32.ofNat (j + 1) = v + 4096 + 4096 * UInt32.ofNat j := by
    intro j
    rw [UInt32.ofNat_add, UInt32.mul_add, UInt32.add_comm (4096 * UInt32.ofNat j),
      ← UInt32.add_assoc]
    rfl
  unfold backs
  rw [List.range_succ_eq_map, List.map_cons, List.map_map, hzero]
  simp only [Function.comp_def, Nat.succ_eq_add_one, hsucc]

theorem stores_cons (b : UInt8) (bs : List UInt8) (v : UInt32) :
    stores (b :: bs) v = .store v b :: stores bs (v + 1) := by
  have hzero : v + UInt32.ofNat 0 = v := by
    rw [show UInt32.ofNat 0 = 0 from rfl, UInt32.add_zero]
  have hsucc : ∀ j, v + UInt32.ofNat (j + 1) = v + 1 + UInt32.ofNat j := by
    intro j
    rw [UInt32.ofNat_add, UInt32.add_comm (UInt32.ofNat j), ← UInt32.add_assoc]
    rfl
  unfold stores
  rw [List.mapIdx_cons, hzero]
  simp only [hsucc]

theorem performs_backs (c : Calls σ) (pheaders flags n : Nat) (v : UInt32) :
    performs c pheaders (backs flags n v) = mapSegmentPages c pheaders flags n v := by
  induction n generalizing v with
  | zero => rfl
  | succ n ih =>
    rw [backs_succ, performs, ih]
    rfl

theorem performs_stores (c : Calls σ) (pheaders : Nat) (bs : List UInt8) (v : UInt32) :
    performs c pheaders (stores bs v) = storeBytes c bs v := by
  induction bs generalizing v with
  | nil => rfl
  | cons b bs ih =>
    rw [stores_cons, performs, ih]
    rfl

/-- **The body of the loop performs the actions of its segment.** -/
theorem loadSegment_performs (c : Calls σ) (reads : Reads) (file : List UInt8) (pheaders i : Nat)
    {ph : ProgramHeader} (htype : ph.type = ptLoad) :
    loadSegment c reads file pheaders i ph
      = performs c pheaders (segmentActions reads file i ph) := by
  have hread : performs c pheaders (if 0 < ph.filesz then
      .work ph.offset.toNat ph.filesz.toNat :: stores (delivered reads file i ph) ph.vaddr
      else []) = readSegment c reads file i ph := by
    unfold readSegment
    split
    · rw [performs, performs_stores, vfsRead, bind_assoc]
      simp only [pure_bind]
      rfl
    · rfl
  have hbss : performs c pheaders (if ph.filesz < ph.memsz then
      stores (List.replicate (ph.memsz - ph.filesz).toNat 0) (ph.vaddr + ph.filesz) else [])
      = clearBss c ph := by
    unfold clearBss
    split
    · exact performs_stores c pheaders _ _
    · rfl
  rw [segmentActions, performs_append, performs_append, performs_backs, hread, hbss, loadSegment,
    if_neg (not_not.mpr htype), bind_assoc]

/-! ## 2. The pages -/

/-- One of the actions maps page `q`. -/
def Mapped (xs : List Action) (q : Nat) : Prop :=
  ∃ v flags, .back v flags ∈ xs ∧ v.toNat / 4096 = q

/-- **The segment stays on its pages**: every byte stored for it is on a page that is mapped for
it, and so are the `memsz` addresses from `vaddr` on. -/
structure OnItsPages (ph : ProgramHeader) (xs : List Action) : Prop where
  stores : ∀ v b, .store v b ∈ xs → Mapped xs (v.toNat / 4096)
  covers : ∀ j < ph.memsz.toNat, Mapped xs ((ph.vaddr + UInt32.ofNat j).toNat / 4096)

namespace ProgramHeader

variable (ph : ProgramHeader)

/-- The page of byte `j` of the segment, counted round the address space. -/
theorem page_eq {j : Nat} (hj : j < 2 ^ 32) :
    (ph.vaddr + UInt32.ofNat j).toNat / 4096
      = (ph.vaddr.toNat / 4096 + (ph.vaddr.toNat % 4096 + j) / 4096) % 2 ^ 20 := by
  rw [UInt32.toNat_add, UInt32.toNat_ofNat']
  omega

/-- The page that is mapped in round `i`. -/
theorem back_eq {i : Nat} (hi : i < 2 ^ 20) :
    (ph.pageStart + 4096 * UInt32.ofNat i).toNat / 4096
      = (ph.vaddr.toNat / 4096 + i) % 2 ^ 20 := by
  rw [UInt32.toNat_add, UInt32.toNat_mul, UInt32.toNat_ofNat', ph.pageStart_eq, frameOf]
  change (ph.vaddr.toNat / 4096 * 4096 + 4096 * (i % 2 ^ 32) % 2 ^ 32) % 2 ^ 32 / 4096 = _
  omega

end ProgramHeader

variable {reads : Reads} {file : List UInt8} {i : Nat} {ph : ProgramHeader}

theorem mem_stores {x : Action} {bs : List UInt8} {v : UInt32} :
    x ∈ stores bs v ↔
      ∃ (j : Nat) (b : UInt8), bs[j]? = some b ∧ x = .store (v + UInt32.ofNat j) b := by
  unfold stores
  rw [List.mem_mapIdx]
  constructor
  · rintro ⟨j, hj, rfl⟩
    exact ⟨j, bs[j], List.getElem?_eq_getElem hj, rfl⟩
  · rintro ⟨j, b, hj, rfl⟩
    obtain ⟨hlt, rfl⟩ := List.getElem?_eq_some_iff.mp hj
    exact ⟨j, hlt, rfl⟩

/-- Which actions there are: the pages of the first part, the bytes of the other two, and the
call of the file system. -/
theorem mem_segmentActions {x : Action} : x ∈ segmentActions reads file i ph ↔
    (∃ k < ph.numPages.toNat, x = .back (ph.pageStart + 4096 * UInt32.ofNat k) ph.pageFlags) ∨
    (0 < ph.filesz ∧ x = .work ph.offset.toNat ph.filesz.toNat) ∨
    (0 < ph.filesz ∧ x ∈ stores (delivered reads file i ph) ph.vaddr) ∨
    (ph.filesz < ph.memsz ∧ x ∈ stores (List.replicate (ph.memsz - ph.filesz).toNat 0)
      (ph.vaddr + ph.filesz)) := by
  have hbacks : x ∈ backs ph.pageFlags ph.numPages.toNat ph.pageStart ↔ ∃ k < ph.numPages.toNat,
      x = .back (ph.pageStart + 4096 * UInt32.ofNat k) ph.pageFlags := by
    unfold backs
    rw [List.mem_map]
    simp only [List.mem_range, eq_comm]
  unfold segmentActions
  rw [List.mem_append, List.mem_append, hbacks, or_assoc]
  refine or_congr Iff.rfl ?_
  by_cases h0 : 0 < ph.filesz
  · by_cases hlt : ph.filesz < ph.memsz
    · rw [if_pos h0, if_pos hlt, List.mem_cons, or_assoc]
      simp only [h0, hlt, true_and]
    · rw [if_pos h0, if_neg hlt, List.mem_cons]
      simp only [h0, hlt, true_and, false_and, List.not_mem_nil, or_false]
  · by_cases hlt : ph.filesz < ph.memsz
    · rw [if_neg h0, if_pos hlt]
      simp only [h0, hlt, true_and, false_and, List.not_mem_nil, false_or]
    · rw [if_neg h0, if_neg hlt]
      simp only [h0, hlt, false_and, List.not_mem_nil, or_false]

/-- Only the first part of the actions maps pages. -/
theorem mapped_iff {q : Nat} : Mapped (segmentActions reads file i ph) q ↔
    ∃ k < ph.pages % 2 ^ 20, q = (ph.vaddr.toNat / 4096 + k) % 2 ^ 20 := by
  have hround : ∀ {k}, k < ph.pages % 2 ^ 20 → k < 2 ^ 20 :=
    fun h => h.trans (Nat.mod_lt _ (by decide))
  unfold Mapped
  simp only [mem_segmentActions, ph.numPages_eq]
  constructor
  · rintro ⟨v, flags, ⟨k, hk, hx⟩ | ⟨-, hx⟩ | ⟨-, hx⟩ | ⟨-, hx⟩, rfl⟩
    · cases hx
      exact ⟨k, hk, ph.back_eq (hround hk)⟩
    · cases hx
    · obtain ⟨j, b, -, hx⟩ := mem_stores.mp hx
      cases hx
    · obtain ⟨j, b, -, hx⟩ := mem_stores.mp hx
      cases hx
  · rintro ⟨k, hk, rfl⟩
    exact ⟨_, _, Or.inl ⟨k, hk, rfl⟩, ph.back_eq (hround hk)⟩

/-- **Byte `j` is on a page of the segment** if the page, counted from the first one, is one of
those mapped. -/
theorem mapped_byte_iff {j : Nat} (hj : j < 2 ^ 32) :
    Mapped (segmentActions reads file i ph) ((ph.vaddr + UInt32.ofNat j).toNat / 4096) ↔
      (ph.vaddr.toNat % 4096 + j) / 4096 % 2 ^ 20 < ph.pages % 2 ^ 20 := by
  rw [mapped_iff, ph.page_eq hj]
  constructor
  · rintro ⟨k, hk, heq⟩
    omega
  · intro h
    exact ⟨(ph.vaddr.toNat % 4096 + j) / 4096 % 2 ^ 20, h, by omega⟩

/-- What is stored: the bytes the file delivers, and zeros from `filesz` up to `memsz`. -/
theorem mem_segmentActions_store {v : UInt32} :
    (∃ b, .store v b ∈ segmentActions reads file i ph) ↔
      ∃ j, v = ph.vaddr + UInt32.ofNat j ∧ (j < (delivered reads file i ph).length ∨
        ph.filesz.toNat ≤ j ∧ j < ph.memsz.toNat) := by
  have hbss : ∀ j, ph.vaddr + ph.filesz + UInt32.ofNat j
      = ph.vaddr + UInt32.ofNat (ph.filesz.toNat + j) := fun j => by
    rw [UInt32.ofNat_add, UInt32.ofNat_toNat, UInt32.add_assoc]
  simp only [mem_segmentActions]
  constructor
  · rintro ⟨b, ⟨k, -, hx⟩ | ⟨-, hx⟩ | ⟨-, hx⟩ | ⟨hlt, hx⟩⟩
    · cases hx
    · cases hx
    · obtain ⟨j, b', hj, hx⟩ := mem_stores.mp hx
      cases hx
      exact ⟨j, rfl, Or.inl (List.getElem?_eq_some_iff.mp hj).1⟩
    · obtain ⟨j, b', hj, hx⟩ := mem_stores.mp hx
      cases hx
      have hlen := (List.getElem?_eq_some_iff.mp hj).1
      rw [List.length_replicate, UInt32.toNat_sub_of_le _ _ (UInt32.le_of_lt hlt)] at hlen
      exact ⟨ph.filesz.toNat + j, hbss j, Or.inr ⟨Nat.le_add_right _ _, by omega⟩⟩
  · rintro ⟨j, rfl, hj | ⟨hle, hj⟩⟩
    · have hpos : 0 < ph.filesz := by
        rw [UInt32.lt_iff_toNat_lt]
        exact (Nat.zero_le j).trans_lt (hj.trans_le delivered_length_le)
      exact ⟨_, Or.inr (Or.inr (Or.inl ⟨hpos, mem_stores.mpr
        ⟨j, _, List.getElem?_eq_getElem hj, rfl⟩⟩))⟩
    · have hlt : ph.filesz < ph.memsz := by
        rw [UInt32.lt_iff_toNat_lt]
        omega
      obtain ⟨k, rfl⟩ := Nat.exists_eq_add_of_le hle
      refine ⟨0, Or.inr (Or.inr (Or.inr ⟨hlt, mem_stores.mpr ⟨k, 0, ?_, by rw [hbss]⟩⟩))⟩
      rw [UInt32.toNat_sub_of_le _ _ (UInt32.le_of_lt hlt)]
      exact List.getElem?_replicate_of_lt (by omega)

/-- **When a segment stays on its pages.**  The loader performs the actions of the segment, and
they keep to its pages if and only if the segment takes at most `2 ^ 32 - 4096` bytes, counted from
the start of its first page, and the bytes the file delivers fit on the pages of `memsz`. -/
theorem onItsPages_iff (c : Calls σ) (reads : Reads) (file : List UInt8) (pheaders i : Nat)
    (ph : ProgramHeader) (htype : ph.type = ptLoad) :
    loadSegment c reads file pheaders i ph
        = performs c pheaders (segmentActions reads file i ph) ∧
      (OnItsPages ph (segmentActions reads file i ph) ↔
        ph.vaddr.toNat % 4096 + ph.memsz.toNat ≤ 2 ^ 32 - 4096 ∧
        ph.vaddr.toNat % 4096 + (delivered reads file i ph).length
          ≤ 4096 * ((ph.vaddr.toNat % 4096 + ph.memsz.toNat + 0xFFF) / 4096)) := by
  refine ⟨loadSegment_performs c reads file pheaders i htype, ?_⟩
  have hm := ph.memsz.toNat_lt
  have hd : (delivered reads file i ph).length < 2 ^ 32 :=
    delivered_length_le.trans_lt ph.filesz.toNat_lt
  have hpages : ph.pages = (ph.vaddr.toNat % 4096 + ph.memsz.toNat + 0xFFF) / 4096 := rfl
  rw [← hpages]
  constructor
  · rintro ⟨hstores, hcovers⟩
    have hsmall : ph.vaddr.toNat % 4096 + ph.memsz.toNat ≤ 2 ^ 32 - 4096 := by
      by_contra hbig
      -- `num_pages` is 0 or 1: the first or the second page is not mapped
      have h0 := (mapped_byte_iff (by decide)).mp (hcovers 0 (by omega))
      have h1 := (mapped_byte_iff (by decide)).mp (hcovers 4096 (by omega))
      omega
    refine ⟨hsmall, ?_⟩
    by_contra hbig
    -- the first byte behind the pages is delivered
    obtain ⟨j, hj⟩ : ∃ j, j = 4096 * ph.pages - ph.vaddr.toNat % 4096 := ⟨_, rfl⟩
    have hin : j < (delivered reads file i ph).length := by omega
    obtain ⟨b, hb⟩ := mem_segmentActions_store.mpr ⟨j, rfl, Or.inl hin⟩
    have hbyte := (mapped_byte_iff (by omega)).mp (hstores _ b hb)
    omega
  · rintro ⟨hsmall, hfits⟩
    refine ⟨fun v b hb => ?_, fun j hj => (mapped_byte_iff (by omega)).mpr (by omega)⟩
    obtain ⟨j, rfl, hj⟩ := mem_segmentActions_store.mp ⟨b, hb⟩
    exact (mapped_byte_iff (by omega)).mpr (by omega)

/-- A segment of one byte. -/
theorem onItsPages_iff_byte :
    OnItsPages (byteSegment 0 0x40000000)
      (segmentActions fullReads apartFile 0 (byteSegment 0 0x40000000)) :=
  (onItsPages_iff (pmmEnv apartFile).calls fullReads apartFile 0 0 (byteSegment 0 0x40000000)
    rfl).2.mpr ⟨by decide, by decide⟩

/-- A segment of a page and a byte in the file, which claims to take one byte in memory. -/
def longSegment : ProgramHeader := ⟨ptLoad, 0, 0x40000000, 4097, 1, 5⟩

def longActions : List Action :=
  segmentActions ⟨0, 0, fun _ => 4097⟩ (List.replicate 4097 0x90) 0 longSegment

/-- All of the address space but one byte, with nothing in the file. -/
def hugeSegment : ProgramHeader := ⟨ptLoad, 0, 0, 0, 0xFFFFFFFF, 7⟩

def hugeActions : List Action := segmentActions ⟨0, 0, fun _ => 0⟩ [] 0 hugeSegment

/-- The last byte of the one goes to a page that was not mapped for it.  For the other no page is
mapped at all, and it is cleared from address 0 on. -/
theorem segments_off_their_pages :
    ((∃ b, .store 0x40001000 b ∈ longActions) ∧ ¬Mapped longActions 0x40001) ∧
    (∃ b, .store 0 b ∈ hugeActions) ∧ ∀ q, ¬Mapped hugeActions q := by
  refine ⟨⟨?_, ?_⟩, ?_, ?_⟩
  · refine mem_segmentActions_store.mpr ⟨4096, rfl, Or.inl ?_⟩
    have hlen : (delivered ⟨0, 0, fun _ => 4097⟩ (List.replicate 4097 0x90) 0 longSegment).length
        = 4097 := by
      rw [delivered, List.length_take, List.length_take, List.length_drop, List.length_replicate]
      rfl
    rw [hlen]
    decide
  · rw [longActions, mapped_iff]
    rintro ⟨k, hk, hq⟩
    have hone : longSegment.pages % 2 ^ 20 = 1 := by decide
    have hstart : longSegment.vaddr.toNat / 4096 = 0x40000 := by decide
    rw [hone] at hk
    rw [hstart] at hq
    omega
  · exact mem_segmentActions_store.mpr ⟨0, rfl, Or.inr ⟨by decide, by decide⟩⟩
  · intro q
    rw [hugeActions, mapped_iff]
    rintro ⟨k, hk, -⟩
    have hnone : hugeSegment.pages % 2 ^ 20 = 0 := by decide
    rw [hnone] at hk
    exact Nat.not_lt_zero k hk

end FlowOS.Elf
