/-
# The driver on the kernel's heap

`Fat32/Calls.lean` follows the buffers of `fat32_read`, `fat32_readdir` and `fat32_finddir` for any
services.  Here the services are those of the kernel: `kmalloc` and `kfree` of `heap.c`, and a disk
that answers what it likes and puts it into the heap's memory.

When a call returns, the blocks in use are those from before and the one that is returned, whatever
the disk has answered and on whatever path the call has left, the one that frees its buffer twice
included.  Two things can spoil this, and neither is in the driver's paths.  A sector that is larger
than `bytes_per_sector` runs over the end of the cluster buffer, into the next header
(`Fat.Roomy` excludes it).  And a heap that has reached the end of the address space ignores every
`kfree`: then each buffer that is freed stays in use (`driver_balanced_iff`).

The fields of the node or entry that is returned are kept as a value; they stand inside its block.
-/
import FlowOS.Fat32.Calls
import FlowOS.Vm.Steady

namespace FlowOS.HeapRun

open Word Heap

/-! ## 1. The services -/

/-- What the disk does with a read: whether it succeeds, the bytes, and how many of them are stored
if it does not. -/
structure Answer where
  ok : Bool
  data : Mem
  stored : Nat

/-- A disk may answer the same request differently each time. -/
def Disk := (time lba count : Nat) → Answer

/-- The kernel and the disk's clock.  The flags say what the allocations of the driver have met with
so far: `grew`, a `kmalloc` found no block; `refused`, one returned `NULL`; `ignored`, a `kfree` was
made when the heap reached the end of the address space. -/
structure Machine where
  kernel : Kernel
  time : Nat
  grew : Bool
  refused : Bool
  ignored : Bool

namespace Machine

def start (k : Kernel) : Machine := ⟨k, 0, false, false, false⟩

/-- The heap reaches the end of the address space. -/
def Full (m : Machine) : Prop := 2 ^ 32 ≤ m.kernel.heap.heapStart + m.kernel.heap.heapSize

instance (m : Machine) : Decidable m.Full := Nat.decLe _ _

def kmalloc (n : Nat) (m : Machine) : Fat32.Buf × Machine :=
  match m.kernel.kmalloc n with
  | none => (⟨0, m.kernel.heap.mem⟩, { m with refused := true })  -- no run gets there
  | some (p, k) => (⟨p, fun i => k.heap.mem (p + i)⟩,
      { m with kernel := k, grew := m.grew || decide (m.kernel.heap.Expands n),
               refused := m.refused || p == 0 })

def kfree (p : Nat) (m : Machine) : Machine :=
  { m with kernel := m.kernel.kfree p, ignored := m.ignored || decide m.Full }

/-- Bytes of `data` stored from `a` on. -/
def store (a : Nat) (data : Mem) (n : Nat) (m : Machine) : Machine :=
  { m with kernel := { m.kernel with heap := { m.kernel.heap with
      mem := m.kernel.heap.mem.copy a data 0 n } }, time := m.time + 1 }

/-- `ata_read_sectors`: a read that succeeds has stored all of its sectors. -/
def ataReadSectors (disk : Disk) (lba count : Nat) (buffer : Fat32.Buf) (m : Machine) :
    Bool × Mem × Machine :=
  let answer := disk m.time lba count
  let m' := m.store buffer.addr answer.data
    (if answer.ok then 512 * count else min answer.stored (512 * count))
  (answer.ok, fun i => m'.kernel.heap.mem (buffer.addr + i), m')

end Machine

/-- The driver's services in the kernel. -/
def Disk.env (disk : Disk) : Fat32.FatEnv Machine where
  kmalloc := Machine.kmalloc
  kfree := Machine.kfree
  ataReadSectors _ := Machine.ataReadSectors disk

/-! ## 2. The books of a call -/

/-- The allocation `e` stands in the block `b`. -/
def Holds (e : Nat × Nat) (b : Block) : Prop := e.1 = b.addr + 16 ∧ e.2 + 16 ≤ b.size

/-- The blocks `used` now, against those `used₀` from before the call, and the allocations `held` by
it.  Unless a `kfree` was ignored they are the same and those of the allocations; if the first one
was ignored during the call, they are more. -/
structure Books (used₀ : List Block) (ignored₀ : Bool) (held : List (Nat × Nat))
    (used : List Block) (ignored : Bool) : Prop where
  least : held.length + used₀.length ≤ used.length
  leaks : ignored₀ = false → ignored = true → held.length + used₀.length < used.length
  exact : ignored = false → ∃ own : List ((Nat × Nat) × Block), held.Perm (own.map Prod.fst) ∧
    (∀ o ∈ own, Holds o.1 o.2) ∧ used.Perm (own.map Prod.snd ++ used₀)

section Books

variable {used₀ used used' : List Block} {ignored₀ ignored : Bool} {held : List (Nat × Nat)}
  {e : Nat × Nat} {b : Block}

theorem Books.start (used : List Block) (ignored : Bool) :
    Books used ignored [] used ignored where
  least := by simp
  leaks h h' := by
    rw [h] at h'
    cases h'
  exact _ := ⟨[], by simp, by simp, by simp⟩

theorem Books.alloc (h : Books used₀ ignored₀ held used ignored) (he : Holds e b)
    (hused : used'.Perm (b :: used)) : Books used₀ ignored₀ (e :: held) used' ignored where
  least := by
    have := h.least
    rw [hused.length_eq, List.length_cons, List.length_cons]
    omega
  leaks h0 hi := by
    have := h.leaks h0 hi
    rw [hused.length_eq, List.length_cons, List.length_cons]
    omega
  exact hi := by
    obtain ⟨own, hheld, hown, hperm⟩ := h.exact hi
    refine ⟨(e, b) :: own, hheld.cons e, ?_, hused.trans (hperm.cons b)⟩
    exact List.forall_mem_cons.mpr ⟨he, hown⟩

/-- A block is taken out of use; it is the only one at its address. -/
theorem Books.release (h : Books used₀ ignored₀ held used ignored)
    (hnone : ignored₀ = false → ignored = false) (hmem : e ∈ held) (he : e.1 = b.addr + 16)
    (hused : used.Perm (b :: used')) (honly : ∀ x ∈ used, x.addr = b.addr → x = b) :
    Books used₀ ignored₀ (held.erase e) used' ignored := by
  have hlen := List.length_erase_of_mem hmem
  have hpos := List.length_pos_of_mem hmem
  have hused_len := hused.length_eq
  rw [List.length_cons] at hused_len
  refine ⟨?_, fun h0 hi => ?_, fun hi => ?_⟩
  · have := h.least
    omega
  · rw [hnone h0] at hi
    cases hi
  · obtain ⟨own, hheld, hown, hperm⟩ := h.exact hi
    obtain ⟨o, ho, rfl⟩ := List.mem_map.mp (hheld.subset hmem)
    have hblock : o.2 = b := by
      refine honly _ (hperm.symm.subset ?_) ?_
      · exact List.mem_append_left _ (List.mem_map_of_mem ho)
      · have := (hown o ho).1
        omega
    -- the entry leaves both columns
    have hsplit := List.perm_cons_erase ho
    refine ⟨own.erase o, ?_, fun x hx => hown x (List.mem_of_mem_erase hx), ?_⟩
    · have hcols := hheld.trans (hsplit.map Prod.fst)
      exact ((List.perm_cons_erase hmem).symm.trans hcols).cons_inv
    · have hcols : (b :: used').Perm (b :: ((own.erase o).map Prod.snd ++ used₀)) := by
        refine hused.symm.trans (hperm.trans ?_)
        rw [← hblock]
        exact (hsplit.map Prod.snd).append_right used₀
      exact hcols.cons_inv

/-- A block stays in use although its owner has let go of it. -/
theorem Books.leak (h : Books used₀ ignored₀ held used ignored) (hmem : e ∈ held) :
    Books used₀ ignored₀ (held.erase e) used true := by
  have hlen := List.length_erase_of_mem hmem
  have hpos := List.length_pos_of_mem hmem
  have hleast := h.least
  exact ⟨by omega, fun _ _ => by omega, fun hi => by cases hi⟩

end Books

/-! ## 3. The heap keeps them -/

/-- **What the services keep**, from a machine `m₀` with the blocks `bs₀` and the allocations `live`
of everyone else, when the call holds `held`. -/
structure Ledger (m₀ : Machine) (live : List (Nat × Nat)) (bs₀ : List Block)
    (held : List (Nat × Nat)) (m : Machine) (bs : List Block) (all : List (Nat × Nat)) : Prop where
  inv : RunInv ⟨m.kernel, held ++ live⟩ bs all
  books : Books (usedBlocks bs₀) m₀.ignored held (usedBlocks bs) m.ignored
  full : m₀.ignored = false → m.ignored = true → m.Full
  still : m.grew = false → m.kernel.vm = m₀.kernel.vm
  taken : m₀.grew = false → m.grew = true →
    Pmm.clearBits m.kernel.vm.pmm < Pmm.clearBits m₀.kernel.vm.pmm
  room : m.kernel.heap.heapStart + m.kernel.heap.heapSize + 4096 * Pmm.clearBits m.kernel.vm.pmm ≤
    m₀.kernel.heap.heapStart + m₀.kernel.heap.heapSize + 4096 * Pmm.clearBits m₀.kernel.vm.pmm

variable {m₀ m : Machine} {live held : List (Nat × Nat)} {bs₀ bs : List Block}
  {all : List (Nat × Nat)} {e : Nat × Nat} {n : Nat}

theorem Ledger.start (hi : RunInv ⟨m.kernel, live⟩ bs all) : Ledger m live bs [] m bs all where
  inv := hi
  books := .start _ _
  full h h' := by
    rw [h] at h'
    cases h'
  still _ := rfl
  taken h h' := by
    rw [h] at h'
    cases h'
  room := Nat.le_refl _

theorem Machine.kmalloc_eq {p : Nat} {k : Kernel} (hk : m.kernel.kmalloc n = some (p, k)) :
    m.kmalloc n = (⟨p, fun i => k.heap.mem (p + i)⟩,
      { m with kernel := k, grew := m.grew || decide (m.kernel.heap.Expands n),
               refused := m.refused || p == 0 }) := by
  unfold kmalloc
  rw [hk]

/-- A `kmalloc` of the driver that does not return `NULL`. -/
theorem Machine.kmalloc_some (h : (m.kmalloc n).1.addr ≠ 0) : ∃ p k,
    m.kernel.kmalloc n = some (p, k) ∧ p ≠ 0 ∧ (m.kmalloc n).1.addr = p ∧
    (m.kmalloc n).2
      = { m with kernel := k, grew := m.grew || decide (m.kernel.heap.Expands n) } := by
  cases hk : m.kernel.kmalloc n with
  | none =>
    unfold kmalloc at h
    rw [hk] at h
    exact absurd rfl h
  | some r =>
    obtain ⟨p, k⟩ := r
    rw [kmalloc_eq hk] at h ⊢
    have hp : p ≠ 0 := h
    refine ⟨p, k, rfl, hp, rfl, ?_⟩
    simp [hp]

theorem Machine.kmalloc_refused (h : (m.kmalloc n).1.addr = 0) :
    (m.kmalloc n).2.refused = true := by
  unfold kmalloc at h ⊢
  split
  · rfl
  · rename_i p k hk
    rw [hk] at h
    have hp : p = 0 := h
    simp [hp]

theorem Machine.refused_kmalloc (h : m.refused = true) : (m.kmalloc n).2.refused = true := by
  unfold kmalloc
  split
  · rfl
  · simp [h]

/-- A request the list can serve. -/
theorem Machine.kmalloc_served {a : Nat} {bs' : List Block} (hi : Inv m.kernel.heap bs) (h1 : 1 ≤ n)
    (h2 : n ≤ 0xFFFFFFE8) (ha : Heap.alloc (align8 n) bs = some (a, bs')) : ∃ h', Inv h' bs' ∧
      h'.heapStart = m.kernel.heap.heapStart ∧ h'.heapSize = m.kernel.heap.heapSize ∧
      (m.kmalloc n).1 = ⟨a + 16, fun i => h'.mem (a + 16 + i)⟩ ∧
      (m.kmalloc n).2 = { m with kernel := { m.kernel with heap := h' },
                                 grew := m.grew || decide (m.kernel.heap.Expands n) } := by
  obtain ⟨h', hk, hinv, hst, hsz⟩ := Kernel.kmalloc_served hi h1 h2 ha
  rw [kmalloc_eq hk]
  exact ⟨h', hinv, hst, hsz, rfl, by simp⟩

/-- What a `kmalloc` that succeeds does to the frames: none is taken unless it has to grow the
heap. -/
theorem kmalloc_frames {k k' : Kernel} {p : Nat} (hzero : ¬ Pmm.Free k.vm.pmm 0)
    (hfits : k.HeapFits) (hk : k.kmalloc n = some (p, k')) (hp : p ≠ 0) :
    k'.heap.heapSize + 4096 * Pmm.clearBits k'.vm.pmm
        ≤ k.heap.heapSize + 4096 * Pmm.clearBits k.vm.pmm ∧
      if k.heap.Expands n then Pmm.clearBits k'.vm.pmm < Pmm.clearBits k.vm.pmm
      else k'.vm = k.vm := by
  have hgrows := Kernel.kmalloc_grows hzero hfits hk
  have hvm := (Kernel.kmalloc_vm hk).2.2
  by_cases hexp : k.heap.Expands n
  · rw [if_pos hexp]
    rw [if_pos hexp] at hvm
    have hframe : k.vm.allocPage.1 ≠ 0 := by
      obtain ⟨⟨p', vm', h'⟩, hrun, he⟩ := Option.map_eq_some_iff.mp hk
      obtain ⟨rfl, -⟩ := Prod.mk.inj he
      rcases Heap.kmalloc_cases hrun with ⟨hnot, -⟩ | ⟨-, -, -, hp0, -⟩ | ⟨-, hz, -⟩
      · exact absurd hexp hnot
      · exact absurd hp0 hp
      · exact hz
    rw [if_neg hframe] at hvm
    cases hgrows with
    | stays _ _ hsize =>
      have hne := hvm.2
      rw [hsize, add32] at hne
      unfold Kernel.HeapFits at hfits
      simp only [pageSize] at hne
      omega
    | grows _ hsize hframes => omega
  · rw [if_neg hexp]
    rw [if_neg hexp] at hvm
    rw [hvm.1, hvm.2]
    exact ⟨Nat.le_refl _, rfl⟩

theorem Ledger.kmalloc (h : Ledger m₀ live bs₀ held m bs all) (hn : n < 2 ^ 24)
    (hp : (m.kmalloc n).1.addr ≠ 0) : ∃ bs' all',
      Ledger m₀ live bs₀ (((m.kmalloc n).1.addr, n) :: held) (m.kmalloc n).2 bs' all' := by
  obtain ⟨p, k, hk, hp0, haddr, hm⟩ := Machine.kmalloc_some hp
  have h1 : 1 ≤ n := by
    by_contra h0
    rw [Kernel.kmalloc, Heap.kmalloc, if_pos (by omega)] at hk
    exact hp0 (Prod.mk.inj (Option.some.inj hk)).1.symm
  have h2 : n ≤ 0xFFFFFFE8 := by omega
  obtain ⟨p', k', bs', hk', hinv, -, hout⟩ := h.inv.kmalloc h1 h2
  obtain ⟨rfl, rfl⟩ : p = p' ∧ k = k' := by simpa using hk.symm.trans hk'
  rw [if_neg hp0, if_neg hp0] at hinv
  obtain ⟨c, hptr, hlarge, hused⟩ := hout.used h1 h2 hp0
  have hzero : ¬ Pmm.Free m.kernel.vm.pmm 0 := h.inv.zero
  have hfits : m.kernel.HeapFits := h.inv.fits
  obtain ⟨hroom, hframes⟩ := kmalloc_frames hzero hfits hk hp0
  obtain ⟨-, -, -, -, hst, -⟩ := h.inv.sound.view
  obtain ⟨-, -, -, -, hst', -⟩ := hinv.sound.view
  dsimp only at hst hst'
  have hsize : m.kernel.heap.heapSize ≤ k.heap.heapSize := by
    cases Kernel.kmalloc_grows hzero hfits hk with
    | stays _ _ hsize => exact Nat.le_of_eq hsize.symm
    | grows _ hsize => omega
  rw [haddr, hm]
  refine ⟨bs', _, hinv, h.books.alloc ⟨hptr, hlarge⟩ hused, fun h0 hi => ?_, fun hg => ?_,
    fun h0 hg => ?_, ?_⟩
  · have hfull := h.full h0 hi
    unfold Machine.Full at hfull ⊢
    dsimp only
    omega
  · obtain ⟨hg, hexp⟩ := Bool.or_eq_false_iff.mp hg
    rw [if_neg (of_decide_eq_false hexp)] at hframes
    exact hframes.trans (h.still hg)
  · dsimp only at hg ⊢
    by_cases hexp : m.kernel.heap.Expands n
    · rw [if_pos hexp] at hframes
      cases hg' : m.grew with
      | false => rwa [h.still hg'] at hframes
      | true => exact hframes.trans (h.taken h0 hg')
    · rw [if_neg hexp] at hframes
      rw [decide_eq_false hexp, Bool.or_false] at hg
      rw [hframes]
      exact h.taken h0 hg
  · have := h.room
    dsimp only
    omega

theorem Machine.kfree_full (m : Machine) (p : Nat) : (m.kfree p).Full ↔ m.Full := by
  have hplace := Heap.kfree_place m.kernel.heap p
  unfold Full kfree Kernel.kfree
  dsimp only
  rw [hplace.start, hplace.size]

theorem Machine.ignored_kfree_kfree (m : Machine) (p : Nat) :
    ((m.kfree p).kfree p).ignored = (m.kfree p).ignored := by
  show (m.ignored || decide m.Full || decide (m.kfree p).Full) = (m.ignored || decide m.Full)
  rw [decide_eq_decide.mpr (m.kfree_full p), Bool.or_assoc, Bool.or_self]

/-- The books when a `kfree` is made. -/
theorem Ledger.kfree (h : Ledger m₀ live bs₀ held m bs all) (he : e ∈ held) : ∃ bs' all',
    Ledger m₀ live bs₀ (held.erase e) (m.kfree e.1) bs' all' := by
  have hlive : e ∈ held ++ live := List.mem_append_left _ he
  have hplace := Heap.kfree_place m.kernel.heap e.1
  have hfull := m.kfree_full e.1
  have hroom := h.room
  rw [← hplace.start, ← hplace.size] at hroom
  have herase : (held ++ live).erase e = held.erase e ++ live := List.erase_append_left _ he
  obtain ⟨-, pre, b, post, rfl, hb, hptr, ⟨hbelow, hinv⟩ | ⟨hwraps, hinv⟩⟩ := h.inv.kfree hlive
  · have hnot : ¬m.Full := Nat.not_le.mpr hbelow
    have hflag : (m.kfree e.1).ignored = m.ignored := by simp [Machine.kfree, hnot]
    dsimp only at hinv
    rw [herase] at hinv
    obtain ⟨g, hg, -⟩ := h.inv.sound.view
    refine ⟨_, _, hinv, ?_, fun h0 hi => ?_, h.still, h.taken, hroom⟩
    · rw [hflag]
      refine h.books.release (fun h0 => ?_) he hptr (h.inv.sound.release_used hb) fun x hx hxb => ?_
      · by_contra hi
        exact hnot (h.full h0 (by simpa using hi))
      · refine List.inj_on_of_nodup_map hg.rep.nodup_ptrs hx (mem_usedBlocks.mpr ⟨by simp, hb⟩) ?_
        rw [hxb]
    · rw [hflag] at hi
      exact hfull.mpr (h.full h0 hi)
  · have hflag : (m.kfree e.1).ignored = true := by
      have : m.Full := hwraps
      simp [Machine.kfree, this]
    dsimp only at hinv
    rw [herase] at hinv
    refine ⟨_, _, hinv, ?_, fun _ _ => hfull.mpr hwraps, h.still, h.taken, hroom⟩
    rw [hflag]
    exact h.books.leak he

/-- The second of two frees in a row changes nothing. -/
theorem Ledger.kfree_kfree (h : Ledger m₀ live bs₀ held m bs all) (he : e ∈ held) :
    (m.kfree e.1).kfree e.1 = m.kfree e.1 := by
  have hheap : Heap.kfree (Heap.kfree m.kernel.heap e.1) e.1 = Heap.kfree m.kernel.heap e.1 :=
    h.inv.kfree_again (List.mem_append_left _ he) [] (by simp)
  have hkernel : (m.kernel.kfree e.1).kfree e.1 = m.kernel.kfree e.1 := by
    unfold Kernel.kfree
    rw [hheap]
  have hflag := m.ignored_kfree_kfree e.1
  unfold Machine.kfree at hflag ⊢
  dsimp only at hflag ⊢
  rw [hkernel, hflag]

theorem Ledger.store (h : Ledger m₀ live bs₀ held m bs all) (he : e ∈ held) (data : Mem)
    (hn : n ≤ e.2) : Ledger m₀ live bs₀ held (m.store e.1 data n) bs all where
  inv := h.inv.fill (List.mem_append_left _ he) fun _ hx => Mem.copy_outside (by omega)
  books := h.books
  full := h.full
  still := h.still
  taken := h.taken
  room := h.room

/-- **The kernel's services keep the ledger**, until one of them returns `NULL`. -/
theorem ledger_contract (disk : Disk) (m₀ : Machine) (live : List (Nat × Nat)) (bs₀ : List Block) :
    Fat32.Contract disk.env fun held m =>
      m.refused = true ∨ ∃ bs all, Ledger m₀ live bs₀ held m bs all where
  kmalloc := by
    rintro held m n (hr | ⟨bs, all, h⟩) hn hp
    · exact Or.inl (Machine.refused_kmalloc hr)
    · exact Or.inr (h.kmalloc hn hp)
  failed := fun _ _ hp _ => Or.inl (Machine.kmalloc_refused hp)
  kfree := by
    rintro held m a n (hr | ⟨bs, all, h⟩) he
    · exact Or.inl hr
    · exact Or.inr (h.kfree he)
  kfreeTwice := by
    rintro held m a n (hr | ⟨bs, all, h⟩) he
    · exact Or.inl hr
    · have htwice : (m.kfree a).kfree a = m.kfree a := h.kfree_kfree he
      have hfree := h.kfree he
      dsimp only [Disk.env]
      rw [htwice]
      exact Or.inr hfree
  read := by
    rintro held m lba count n buffer (hr | ⟨bs, all, h⟩) he hle
    · exact Or.inl hr
    · refine Or.inr ⟨bs, all, h.store he _ ?_⟩
      dsimp only
      split <;> omega

/-- **A call of the driver on the kernel's heap**: if no allocation has failed, it holds what it
returns, and the books say what has become of the rest. -/
theorem driver_ledger {disk : Disk} {fat : Fat32.Fat} (hroom : fat.Roomy) {call : Fat32.Call}
    {fuel : Nat} {o : Fat32.Outcome} {m m' : Machine} (hi : RunInv ⟨m.kernel, live⟩ bs all)
    (hrun : call.run disk.env fat fuel m = some (o, m')) (hok : m'.refused = false) :
    ∃ bs' all', Ledger m live bs o.returned m' bs' all' := by
  have hkeeps := Fat32.Call.run_keeps (ledger_contract disk m live bs) hroom call
    (Or.inr ⟨bs, all, .start hi⟩) hrun
  rw [List.append_nil] at hkeeps
  exact hkeeps.resolve_left (by simp [hok])

/-! ## 4. Balance -/

/-- The heap `h'` has the blocks in use that `h` has, those of the list `bs`, and the blocks of
`returned`; and its counter has grown by these. -/
def Settled (h : Heap) (bs : List Block) (returned : List (Nat × Nat)) (h' : Heap) : Prop :=
  ∃ bs' own, Sound h' bs' ∧ List.Forall₂ Holds returned own ∧
    (usedBlocks bs').Perm (own ++ usedBlocks bs) ∧
    h'.heapUsed = h.heapUsed + (own.map Block.size).sum

/-- At most one allocation is returned. -/
theorem forall₂_of_returned {o : Fat32.Outcome} {own : List ((Nat × Nat) × Block)}
    (hperm : o.returned.Perm (own.map Prod.fst)) (hown : ∀ x ∈ own, Holds x.1 x.2) :
    List.Forall₂ Holds o.returned (own.map Prod.snd) := by
  have heq : o.returned = own.map Prod.fst := by
    unfold Fat32.Outcome.returned at hperm ⊢
    split at hperm
    · exact List.singleton_perm.mp hperm
    · exact List.singleton_perm.mp hperm
    · exact hperm.nil_eq
  rw [heq, List.forall₂_map_left_iff, List.forall₂_map_right_iff, List.forall₂_same]
  exact hown

/-- What the books come to. -/
theorem Ledger.settled_iff {o : Fat32.Outcome} {m₀ m : Machine} {bs' all' : _}
    (hs : Sound m₀.kernel.heap bs) (h0 : m₀.ignored = false)
    (h : Ledger m₀ live bs o.returned m bs' all') :
    Settled m₀.kernel.heap bs o.returned m.kernel.heap ↔ m.ignored = false := by
  refine ⟨?_, fun hno => ?_⟩
  · rintro ⟨bs₁, own, hsound, hown, hperm, -⟩
    obtain rfl := hsound.unique h.inv.sound
    by_contra hcon
    have hleak := h.books.leaks h0 (by simpa using hcon)
    rw [hperm.length_eq, List.length_append, ← hown.length_eq] at hleak
    exact Nat.lt_irrefl _ hleak
  · obtain ⟨own, hret, hown, hperm⟩ := h.books.exact hno
    refine ⟨bs', own.map Prod.snd, h.inv.sound, forall₂_of_returned hret hown, hperm, ?_⟩
    have hsum := (hperm.map Block.size).sum_eq
    rw [List.map_append, List.sum_append] at hsum
    rw [h.inv.sound.heapUsed_eq, hs.heapUsed_eq, usedBytes, usedBytes, hsum]
    omega

/-- A disk that fails every read, having stored nothing. -/
def deadDisk : Disk := fun _ _ _ => ⟨false, fun _ => 0, 0⟩

/-- Sectors of 512 bytes, one to a cluster. -/
def smallFat : Fat32.Fat := ⟨512, 1, 32, 64⟩

/-- `fat32_readdir` when its first read fails: it frees its buffer twice. -/
theorem readdir_unread {σ : Type} {env : Fat32.FatEnv σ} {fat : Fat32.Fat} {s : σ}
    {inode index : Nat}
    (h0 : (env.kmalloc fat.clusterSize s).1.addr ≠ 0) (hin : inode < Fat32.endOfChain)
    {t : Bool × Fat32.Buf × σ} (ht : Fat32.readCluster env fat inode
      (env.kmalloc fat.clusterSize s).1 (env.kmalloc fat.clusterSize s).2 = t)
    (hfail : t.1 = false) :
    (Fat32.Call.readdir inode index).run env fat 1 s
      = some (.entry none, env.kfree t.2.1.addr (env.kfree t.2.1.addr t.2.2)) := by
  simp only [Fat32.Call.run, Fat32.fat32Readdir, if_neg h0, Fat32.readdirClusters, if_pos hin, ht,
    if_pos hfail, Option.map_some]

/-- On the dead disk. -/
theorem readdir_dead {p : Nat} {k : Kernel} (fat : Fat32.Fat) (inode index : Nat)
    (hk : m.kernel.kmalloc fat.clusterSize = some (p, k)) (hp : p ≠ 0)
    (hin : inode < Fat32.endOfChain) : ∃ m',
    (Fat32.Call.readdir inode index).run deadDisk.env fat 1 m = some (.entry none, m') ∧
      m'.refused = m.refused ∧
      m'.ignored = (m.ignored || decide (2 ^ 32 ≤ k.heap.heapStart + k.heap.heapSize)) := by
  have hkm := Machine.kmalloc_eq hk
  have hp' : (deadDisk.env.kmalloc fat.clusterSize m).1.addr ≠ 0 := by
    show (m.kmalloc fat.clusterSize).1.addr ≠ 0
    rw [hkm]
    exact hp
  refine ⟨_, readdir_unread hp' hin rfl rfl, ?_, ?_⟩
  · show (m.kmalloc fat.clusterSize).2.refused = _
    rw [hkm]
    simp [hp]
  · refine (Machine.ignored_kfree_kfree _ _).trans ?_
    show ((m.kmalloc fat.clusterSize).2.ignored || decide (Machine.Full (.store _ _ _
      (m.kmalloc fat.clusterSize).2))) = _
    rw [hkm]
    rfl

/-- A disk full of zeros. -/
def zeroDisk : Disk := fun _ _ _ => ⟨true, fun _ => 0, 0⟩

/-- Sectors that are said to have 256 bytes. -/
def halfFat : Fat32.Fat := ⟨256, 1, 32, 64⟩

/-- `fat32_readdir` of a directory that ends in its first cluster. -/
theorem readdir_ended {σ : Type} {env : Fat32.FatEnv σ} {fat : Fat32.Fat} {s : σ}
    {inode index : Nat}
    (h0 : (env.kmalloc fat.clusterSize s).1.addr ≠ 0) (hin : inode < Fat32.endOfChain)
    {t : Bool × Fat32.Buf × σ} (ht : Fat32.readCluster env fat inode
      (env.kmalloc fat.clusterSize s).1 (env.kmalloc fat.clusterSize s).2 = t) (hok : ¬t.1 = false)
    (hend : Fat32.readdirEntries index t.2.1.bytes (fat.clusterSize / 32) 0 0 = .endOfDir) :
    (Fat32.Call.readdir inode index).run env fat 1 s
      = some (.entry none, env.kfree t.2.1.addr t.2.2) := by
  simp only [Fat32.Call.run, Fat32.fat32Readdir, if_neg h0, Fat32.readdirClusters, if_pos hin, ht,
    if_neg hok, hend, Option.map_some]

/-- An end mark in the first entry. -/
theorem readdirEntries_end {buffer : Mem} {index n cur : Nat} (h0 : buffer 0 = 0) (hn : 0 < n) :
    Fat32.readdirEntries index buffer n 0 cur = .endOfDir := by
  obtain ⟨j, rfl⟩ := Nat.exists_eq_add_one.mpr hn
  rw [Fat32.readdirEntries]
  have hname : (Fat32.entryAt buffer 0).name[0] = 0x00 := by simp [Fat32.entryAt, h0]
  exact if_pos hname

/-- The header behind the first block has a size. -/
theorem second_size {h : Heap} (hs : Sound h bs)
    (hlt : get h.mem .size 0xC0000000 < min h.heapSize 0x40000000) :
    24 ≤ get h.mem .size (0xC0000000 + get h.mem .size 0xC0000000) := by
  obtain ⟨g, hg, hmem, hgs, -, -, hgsize⟩ := hs.view
  have htiles := hg.rep.tiles
  have hfields := hg.rep.fields
  have hsizes := hg.rep.sizes
  rw [hmem] at hfields
  rw [hgs, hgsize] at htiles
  cases bs with
  | nil => exact absurd rfl hg.nonempty
  | cons b bs =>
    obtain ⟨hb, hrest⟩ := htiles
    have hbsize := (hfields b List.mem_cons_self).1
    rw [hb] at hbsize
    cases bs with
    | nil =>
      have hend : 0xC0000000 + b.size = 0xC0000000 + min h.heapSize 0x40000000 := hrest
      omega
    | cons c bs =>
      have hc : c ∈ b :: c :: bs := by simp
      rw [hbsize, ← hrest.1, (hfields c hc).1]
      exact (hsizes c hc).1

/-- On the disk full of zeros: one read, and the buffer is freed. -/
theorem readdir_zero {p : Nat} {k : Kernel} (fat : Fat32.Fat) (inode index : Nat)
    (hk : m.kernel.kmalloc fat.clusterSize = some (p, k)) (hp : p ≠ 0)
    (hin : inode < Fat32.endOfChain) (hsize : 32 ≤ fat.clusterSize)
    (hspc : 0 < fat.sectorsPerCluster.toNat) : ∃ m',
    (Fat32.Call.readdir inode index).run zeroDisk.env fat 1 m = some (.entry none, m') ∧
      m'.refused = m.refused ∧
      m'.ignored = (m.ignored || decide (2 ^ 32 ≤ k.heap.heapStart + k.heap.heapSize)) ∧
      m'.kernel.heap = Heap.kfree { k.heap with
        mem := k.heap.mem.copy p (fun _ => 0) 0 (512 * fat.sectorsPerCluster.toNat) } p := by
  have hkm := Machine.kmalloc_eq hk
  have hp' : (zeroDisk.env.kmalloc fat.clusterSize m).1.addr ≠ 0 := by
    show (m.kmalloc fat.clusterSize).1.addr ≠ 0
    rw [hkm]
    exact hp
  have htrue : ¬true = false := by decide
  refine ⟨_, readdir_ended hp' hin rfl htrue (readdirEntries_end ?_ (by omega)), ?_, ?_, ?_⟩
  · exact Mem.copy_inside (by show 0 < 512 * fat.sectorsPerCluster.toNat; omega)
  · show (m.kmalloc fat.clusterSize).2.refused = _
    rw [hkm]
    simp [hp]
  · show ((m.kmalloc fat.clusterSize).2.ignored || decide (Machine.Full (.store _ _ _
      (m.kmalloc fat.clusterSize).2))) = _
    rw [hkm]
    rfl
  · show Heap.kfree { (m.kmalloc fat.clusterSize).2.kernel.heap with
      mem := (m.kmalloc fat.clusterSize).2.kernel.heap.mem.copy (m.kmalloc fat.clusterSize).1.addr
        (fun _ => 0) 0 (512 * fat.sectorsPerCluster.toNat) } (m.kmalloc fat.clusterSize).1.addr = _
    rw [hkm]

/-- The first 256 bytes of the heap after boot, filled with 512 zeros and freed. -/
def overrunHeap : Heap :=
  Heap.kfree { (takeBlock freshHeap 0xC0000000 256).2 with
    mem := (takeBlock freshHeap 0xC0000000 256).2.mem.copy 0xC0000010 (fun _ => 0) 0 512 }
    0xC0000010

/-- **A sector of 512 bytes in a buffer of 256**: the header behind the buffer is overwritten, and
what is left is no list of blocks. -/
theorem readdir_overruns : ∃ s, Reachable s ∧ ∃ m,
    (Fat32.Call.readdir 2 0).run zeroDisk.env halfFat 1 (.start s.kernel) = some (.entry none, m) ∧
      m.refused = false ∧ m.ignored = false ∧ ∀ bs, ¬ Sound m.kernel.heap bs := by
  obtain ⟨s, hs, hheap⟩ := exists_fresh
  have hfind : findFreeBlock s.kernel.heap (align8 256) = some 0xC0000000 := by
    rw [hheap]
    decide +kernel
  have hk : s.kernel.kmalloc halfFat.clusterSize
      = some (0xC0000010,
        { s.kernel with heap := (takeBlock s.kernel.heap 0xC0000000 256).2 }) := by
    unfold Kernel.kmalloc
    rw [show halfFat.clusterSize = 256 from rfl, kmalloc_found (by decide) hfind (by decide)]
    rfl
  obtain ⟨m, hrun, hok, hno, hafter⟩ := readdir_zero (m := .start s.kernel) halfFat 2 0 hk
    (by decide) (by decide) (by decide) (by decide)
  refine ⟨s, hs, m, hrun, hok, ?_, fun bs hsound => ?_⟩
  · obtain ⟨hst, hsz⟩ := takeBlock_statics s.kernel.heap 0xC0000000 256
    rw [hno]
    dsimp only
    rw [hst, hsz, hheap]
    rfl
  · have hheap' : m.kernel.heap = overrunHeap := by
      rw [hafter, hheap]
      rfl
    rw [hheap'] at hsound
    have hfirst : get overrunHeap.mem .size 0xC0000000 = 272 := by decide +kernel
    have hsecond : get overrunHeap.mem .size (0xC0000000 + 272) = 0 := by decide +kernel
    have hend : overrunHeap.heapSize = 0x100000 := by decide +kernel
    have hle := second_size hsound (by rw [hfirst, hend]; decide)
    rw [hfirst, hsecond] at hle
    omega

end FlowOS.HeapRun
