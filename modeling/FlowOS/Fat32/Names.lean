/-
# Short names

The rendering of an 8.3 name that `fat32_readdir` returns and `fat32_finddir` compares with: the
copying loops against the list of characters they copy, and the comparison against equality of C
strings.  Any eleven bytes are a name here; a zero byte among them ends the string early.
-/
import FlowOS.Fat32.Dir
import FlowOS.Fat32.Read
import FlowOS.Lib.CString

namespace FlowOS.Fat32

/-! ## 1. The rendering -/

/-- The rendering as a C string: a zero byte in the name ends it. -/
def DirEntry.cname (e : DirEntry) : List UInt8 := e.shortName.takeWhile (· ≠ 0)

theorem length_shortName (e : DirEntry) : e.shortName.length ≤ 12 := by
  have hbase := List.length_filter_le (· ≠ (0x20 : UInt8)) (e.name.toList.take 8)
  have hext := List.length_filter_le (· ≠ (0x20 : UInt8)) (e.name.toList.drop 8)
  rw [List.length_take, Vector.length_toList] at hbase
  rw [List.length_drop, Vector.length_toList] at hext
  unfold DirEntry.shortName
  rw [List.length_append]
  split
  · rw [List.length_cons]
    omega
  · rw [List.length_nil]
    omega

theorem length_cname (e : DirEntry) : e.cname.length < 13 :=
  lt_of_le_of_lt (List.takeWhile_sublist _).length_le (Nat.lt_succ_of_le (length_shortName e))

/-! ## 2. The copying loops -/

theorem Delivered.one (j : Nat) (c : UInt8) (dst : Mem) :
    Delivered j [c] dst (dst.st8 j c) (j + 1) := by
  refine ⟨rfl, ?_, fun x hx => Mem.st8_other c ?_⟩
  · rw [List.length_singleton, Mem.bytes_succ, Mem.bytes_zero, Mem.st8_same]
  · rw [List.length_singleton] at hx
    omega

/-- The copying loop leaves out the blanks. -/
theorem copyChars_delivered (dst : Mem) (j : Nat) (cs : List UInt8) :
    Delivered j (cs.filter (· ≠ 0x20)) dst (copyChars dst j cs).1 (copyChars dst j cs).2 := by
  induction cs generalizing dst j with
  | nil => exact Delivered.nil j dst
  | cons c cs ih =>
    rw [copyChars]
    by_cases hc : c ≠ 0x20
    · rw [if_pos hc, List.filter_cons_of_pos (by simpa using hc)]
      exact (Delivered.one j c dst).cons (ih _ _)
    · rw [if_neg hc, List.filter_cons_of_neg (by simpa using hc)]
      exact ih dst j

/-- What one copy leaves and what the next adds behind it. -/
theorem Delivered.append {j k : Nat} {a b : List UInt8} {dst dst₁ dst' : Mem} {r : Nat}
    (h₁ : Delivered j a dst dst₁ k) (h : Delivered k b dst₁ dst' r) :
    Delivered j (a ++ b) dst dst' r := by
  obtain rfl := h₁.count
  exact h₁.cons h

theorem Delivered.terminated {k : Nat} {a : List UInt8} {dst dst₁ : Mem}
    (h : Delivered 0 a dst dst₁ k) :
    Delivered 0 (a ++ [0]) dst (dst₁.st8 k 0) (a.length + 1) := by
  have hk : k = a.length := by rw [h.count, Nat.zero_add]
  subst hk
  exact h.append (Delivered.one _ 0 _)

/-- **The name copied is the 8.3 rendering**, with a zero byte behind it. -/
theorem copyName_delivered (e : DirEntry) (dst : Mem) :
    Delivered 0 (e.shortName ++ [0]) dst (copyName e dst) (e.shortName.length + 1) := by
  unfold copyName DirEntry.shortName
  dsimp only
  have hbase := copyChars_delivered dst 0 (e.name.toList.take 8)
  generalize copyChars dst 0 (e.name.toList.take 8) = r at hbase ⊢
  by_cases hext : e.name[8] ≠ 0x20
  · rw [if_pos hext, if_pos hext]
    have hdot := hbase.append ((Delivered.one r.2 0x2E r.1).append
      (copyChars_delivered (r.1.st8 r.2 0x2E) (r.2 + 1) (e.name.toList.drop 8)))
    exact hdot.terminated
  · rw [if_neg hext, if_neg hext, List.append_nil]
    exact hbase.terminated

theorem copyName_cstr (e : DirEntry) (dst : Mem) : (copyName e dst).CStr 0 e.cname := by
  refine Mem.cstr_takeWhile ?_
  have h := (copyName_delivered e dst).holds
  rwa [List.length_append, List.length_singleton] at h

/-! ## 3. The comparison -/

/-- **The string compare** of `fat32_finddir` never leaves `entry_name`, and it answers whether
`name` holds the same string. -/
theorem matchName_cstr {name entryName : Mem} {t : List UInt8} {n k : Nat}
    (ht : entryName.CStr k t) (hn : t.length < n) :
    matchName name entryName n k = some (decide (name.CStr k t)) := by
  induction t generalizing n k with
  | nil =>
    obtain ⟨n, rfl⟩ : ∃ m, n = m + 1 := ⟨n - 1, by simp at hn; omega⟩
    have h0 := Mem.cstr_nil.mp ht
    rw [matchName, h0]
    by_cases hname : name k = 0
    · simp [hname, Mem.cstr_nil]
    · simp [hname, Mem.cstr_nil]
  | cons c t ih =>
    obtain ⟨n, rfl⟩ : ∃ m, n = m + 1 := ⟨n - 1, by omega⟩
    obtain ⟨hc, h0, ht⟩ := Mem.cstr_cons.mp ht
    rw [matchName, hc, if_pos (Or.inr h0), ih ht (by simpa using hn)]
    by_cases hname : name k = c
    · simp [hname, h0, Mem.cstr_cons]
    · simp [hname, Mem.cstr_cons]

end FlowOS.Fat32
