/-
Pantavisor.Lib.CString — bytes, C strings and the string-library calls that
the modelled C code makes.

A buffer and a C string are both a `CStr`, a list of bytes; what makes one a
string is `NulFree`. `cstrAt buf i` is the string that a `char *` into a
buffer denotes: the bytes from offset `i` up to the first NUL. The comparison
calls of the C library become prefix tests: for a NUL-free key, `strncmp` and
`memcmp` over `strlen(key)` bytes succeed exactly when the key is a prefix of
what the other pointer sees.

Nothing here names a program; the modules of the model instantiate it.
-/
import Mathlib.Data.List.Basic
import Mathlib.Data.List.TakeWhile

namespace Pantavisor.Lib

/-- A byte buffer or, when it has no NUL in it, a C string. -/
abbrev CStr := List UInt8

instance : LawfulBEq CStr := List.instLawfulBEq

/-- The bytes of an ASCII literal of the source. -/
def str (s : String) : CStr := s.toList.map fun c => c.toNat.toUInt8

/-- The bytes of a literal, read off its characters. -/
theorem str_ofList (cs : List Char) : str (String.ofList cs) = cs.map fun c => c.toNat.toUInt8 :=
  congrArg (List.map _) String.toList_ofList

/-- A string has no terminator inside. -/
def NulFree (s : CStr) : Prop := (0 : UInt8) ∉ s

instance (s : CStr) : Decidable (NulFree s) := inferInstanceAs (Decidable (_ ∉ _))

/-- What a `char *` to offset `i` of a buffer reads, up to the first NUL. -/
def cstrAt (buf : CStr) (i : Nat) : CStr := (buf.drop i).takeWhile (· != 0)

/-- A buffer of `size` zero bytes into which `data` was read. -/
def readInto (size : Nat) (data : CStr) : CStr :=
  data ++ List.replicate (size - data.length) 0

/-- `write` at offset 0 of a file that holds `old`: a longer file keeps its tail. -/
def overwrite (old new : CStr) : CStr := new ++ old.drop new.length

/-- What a string has from its last such byte on, as `strrchr` finds it. -/
def strrchr (c : UInt8) (s : CStr) : Option CStr :=
  if c ∈ s then some (c :: (s.reverse.takeWhile (· ≠ c)).reverse) else none

theorem strrchr_suffix {c : UInt8} {s t : CStr} (h : strrchr c s = some t) : ∃ a, s = a ++ t := by
  unfold strrchr at h
  split at h
  · rename_i hc
    obtain rfl := Option.some.inj h
    have hsplit := List.takeWhile_append_dropWhile (p := fun x => decide (x ≠ c)) (l := s.reverse)
    cases hd : s.reverse.dropWhile (fun x => decide (x ≠ c)) with
    | nil =>
        rw [List.dropWhile_eq_nil_iff] at hd
        have := hd c (List.mem_reverse.mpr hc)
        simp at this
    | cons x xs =>
        have hx : x = c := by
          have hhead := List.head_dropWhile_not (p := fun x => decide (x ≠ c)) (l := s.reverse)
            (by rw [hd]; simp)
          simp only [hd, List.head_cons] at hhead
          simpa using hhead
        rw [hd, hx] at hsplit
        exact ⟨xs.reverse, by simpa using (congrArg List.reverse hsplit).symm⟩
  · cases h

/-- What `strrchr` finds is the end of the string, if the byte is in it once. -/
theorem strrchr_eq_iff {c : UInt8} {s t : CStr} (ht : c ∉ t) :
    strrchr c s = some (c :: t) ↔ c :: t <:+ s := by
  constructor
  · intro h
    obtain ⟨a, rfl⟩ := strrchr_suffix h
    exact List.suffix_append a _
  · rintro ⟨a, rfl⟩
    have hrev : ∀ x ∈ t.reverse, decide (x ≠ c) = true := by
      intro x hx
      simpa using fun heq : x = c => ht (heq ▸ List.mem_reverse.mp hx)
    rw [strrchr, if_pos (by simp), List.reverse_append, List.reverse_cons, List.append_assoc,
      List.takeWhile_append_of_pos hrev, List.singleton_append,
      List.takeWhile_cons_of_neg (by simp), List.append_nil, List.reverse_reverse]

/-! ## Strings at an offset -/

theorem takeWhile_ne_append {t : UInt8} {s rest : CStr} (h : t ∉ s) :
    (s ++ t :: rest).takeWhile (· != t) = s := by
  have hs : ∀ c ∈ s, (c != t) = true := by
    intro c hc
    simpa using fun hct : c = t => h (hct ▸ hc)
  rw [List.takeWhile_append_of_pos hs, List.takeWhile_cons_of_neg (by simp), List.append_nil]

/-- A string reads as itself from its start. -/
theorem cstrAt_zero {s : CStr} (h : NulFree s) : cstrAt s 0 = s := by
  rw [cstrAt, List.drop_zero, List.takeWhile_eq_self_iff]
  exact fun c hc => by simpa using fun h0 : c = 0 => h (h0 ▸ hc)

/-- The string at the end of `pre` in `pre ++ s ++ 0 :: rest` is `s`. -/
theorem cstrAt_append {pre s rest : CStr} (h : NulFree s) :
    cstrAt (pre ++ (s ++ 0 :: rest)) pre.length = s := by
  rw [cstrAt, List.drop_left]
  exact takeWhile_ne_append h

/-- The same, some bytes into `s`. -/
theorem cstrAt_append_add {pre s rest : CStr} (h : NulFree s) {n : Nat}
    (hn : n ≤ s.length) :
    cstrAt (pre ++ (s ++ 0 :: rest)) (pre.length + n) = s.drop n := by
  rw [cstrAt, ← List.drop_drop, List.drop_left, List.drop_append_of_le_length hn]
  exact takeWhile_ne_append fun hm => h (List.mem_of_mem_drop hm)

/-! ## Comparing against a key -/

/-- A key without the terminator is a prefix of a terminated string exactly
when it is a prefix of the string itself. -/
theorem prefix_terminated {key s rest : CStr} {t : UInt8} (hk : t ∉ key) :
    key <+: s ++ t :: rest ↔ key <+: s := by
  constructor
  · intro h
    by_contra hs
    -- a longer key would reach the terminator
    have hlen : s.length < key.length := by
      by_contra hle
      exact hs (List.prefix_of_prefix_length_le h (List.prefix_append _ _) (by omega))
    have hpre : s ++ [t] <+: key :=
      List.prefix_of_prefix_length_le (by simp) h (by simp; omega)
    exact hk (hpre.subset (by simp))
  · intro h
    exact h.trans (List.prefix_append _ _)

/-! ## Buffers -/

theorem length_readInto {size : Nat} {data : CStr} (h : data.length ≤ size) :
    (readInto size data).length = size := by
  simp only [readInto, List.length_append, List.length_replicate]
  omega

theorem overwrite_same_length {old new : CStr} (h : old.length ≤ new.length) :
    overwrite old new = new := by
  simp [overwrite, List.drop_eq_nil_of_le h]

end Pantavisor.Lib
