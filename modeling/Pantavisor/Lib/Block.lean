/-
Pantavisor.Lib.Block — memory that was allocated.

A block is a list of bytes, where `none` is a byte that nothing was stored in. What the
language does not define is `none` as a result: a store behind the end of a block, and a
string that has no terminator in its block or an unset byte before it.

Nothing here names a program; the modules of the model instantiate it.
-/
import Mathlib.Algebra.Group.Int.Defs
import Mathlib.Algebra.Group.Nat.Defs
import Pantavisor.Lib.CString

namespace Pantavisor.Lib

/-- What a `size_t` keeps of a number. -/
@[irreducible] def wrapSize (n : Nat) : Nat := n % 2 ^ 64

/-- The difference of two sizes. -/
def subSize (a b : Nat) : Nat := wrapSize (a + 2 ^ 64 - b)

/-- The size that an `int` becomes. -/
@[irreducible] def sizeOfInt (n : Int) : Nat := (n % 2 ^ 64).toNat

/-- What an `int` keeps of a size. -/
@[irreducible] def intOfSize (n : Nat) : Int := (n : Int).bmod (2 ^ 32)

theorem wrapSize_eq {n : Nat} (h : n < 2 ^ 64) : wrapSize n = n := by
  unfold wrapSize
  omega

theorem wrapSize_lt (n : Nat) : wrapSize n < 2 ^ 64 := by
  unfold wrapSize
  omega

theorem subSize_eq {a b : Nat} (h : b ≤ a) (ha : a < 2 ^ 64) : subSize a b = a - b := by
  unfold subSize wrapSize
  omega

theorem sizeOfInt_eq {n : Nat} (h : n < 2 ^ 63) : sizeOfInt n = n := by
  have hint : (n : Int) < 2 ^ 63 := by exact_mod_cast h
  unfold sizeOfInt
  omega

theorem intOfSize_eq {n : Nat} (h : n < 2 ^ 31) : intOfSize n = n := by
  have hint : (n : Int) < 2 ^ 31 := by exact_mod_cast h
  unfold intOfSize
  rw [Int.bmod_def]
  omega

theorem intOfSize_emod (n : Nat) : intOfSize n % 2 ^ 32 = n % 2 ^ 32 := by
  unfold intOfSize
  rw [Int.bmod_def]
  omega

/-- From 2³¹ on a size is not the number that an `int` keeps of it. -/
theorem intOfSize_le {n : Nat} (h : 2 ^ 31 ≤ n) : intOfSize n ≤ n - 2 ^ 32 := by
  have hint : 2 ^ 31 ≤ (n : Int) := by exact_mod_cast h
  unfold intOfSize
  rw [Int.bmod_def]
  omega

theorem intOfSize_lt (n : Nat) : intOfSize n < 2 ^ 31 := by
  unfold intOfSize
  rw [Int.bmod_def]
  omega

/-- An `int` keeps a size by its lower half, where the sign bit is not set. -/
theorem intOfSize_of_lt {n : Nat} (h : n % 2 ^ 32 < 2 ^ 31) : intOfSize n = (n % 2 ^ 32 : Nat) := by
  unfold intOfSize
  rw [Int.bmod_def]
  omega

theorem intOfSize_neg {n : Nat} (h : ¬ n % 2 ^ 32 < 2 ^ 31) : intOfSize n < 0 := by
  unfold intOfSize
  rw [Int.bmod_def]
  omega

/-- An allocated block of memory. -/
abbrev Block := List (Option UInt8)

namespace Block

/-- `calloc` -/
def calloc (size : Nat) : Block := List.replicate size (some 0)

/-- `strdup` -/
def strdup (s : CStr) : Block := (s ++ [0]).map some

/-- `realloc`: what it adds to a block is not set. -/
def realloc (b : Block) (size : Nat) : Block :=
  b.take size ++ List.replicate (size - b.length) none

/-- Bytes that are stored at an offset. -/
def store (b : Block) (offset : Nat) (data : CStr) : Option Block :=
  if offset + data.length ≤ b.length then
    some (b.take offset ++ data.map some ++ b.drop (offset + data.length))
  else none

/-- `strncpy` from an object with these bytes: the string, or as much of it as asked for, and
zeros up to that. -/
def strncpy (b : Block) (src : CStr) (n : Nat) : Option Block :=
  if n ≤ b.length ∧ (n ≤ src.length ∨ (0 : UInt8) ∈ src) then
    let s := (src.take n).takeWhile (· != 0)
    some (s.map some ++ List.replicate (n - s.length) (some 0) ++ b.drop n)
  else none

/-- The string at the start of a block. -/
def text : Block → Option CStr
  | [] => none
  | none :: _ => none
  | some c :: rest => if c = 0 then some [] else (text rest).map (c :: ·)

/-! ## The string of a block -/

theorem text_map_append {s : CStr} (h : NulFree s) (rest : Block) :
    text (s.map some ++ rest) = (text rest).map (s ++ ·) := by
  induction s with
  | nil => simp
  | cons c s ih =>
    rw [NulFree, List.mem_cons, not_or] at h
    rw [List.map_cons, List.cons_append, text, if_neg (Ne.symm h.1), ih h.2, Option.map_map]
    rfl

/-- A string ends at its terminator. -/
theorem text_append_zero {s : CStr} (h : NulFree s) (rest : Block) :
    text (s.map some ++ some 0 :: rest) = some s := by
  rw [text_map_append h, text, if_pos rfl, Option.map_some, List.append_nil]

/-- Bytes without a terminator are no string. -/
theorem text_map_eq_none {s : CStr} (h : NulFree s) : text (s.map some) = none := by
  have happ := text_map_append h []
  rw [List.append_nil] at happ
  rw [happ]
  rfl

theorem text_eq_some_iff {b : Block} {s : CStr} :
    text b = some s ↔ NulFree s ∧ ∃ rest, b = s.map some ++ some 0 :: rest := by
  constructor
  · intro h
    induction b generalizing s with
    | nil => cases h
    | cons x b ih =>
      cases x with
      | none => cases h
      | some c =>
        rw [text] at h
        split at h
        · rename_i hc
          obtain rfl := Option.some.inj h
          exact ⟨by simp [NulFree], b, by rw [hc]; rfl⟩
        · rename_i hc
          obtain ⟨t, ht, rfl⟩ := Option.map_eq_some_iff.mp h
          obtain ⟨hnul, rest, rfl⟩ := ih ht
          refine ⟨?_, rest, rfl⟩
          rw [NulFree, List.mem_cons, not_or]
          exact ⟨Ne.symm hc, hnul⟩
  · rintro ⟨hnul, rest, rfl⟩
    exact text_append_zero hnul rest

theorem text_strdup {s : CStr} (h : NulFree s) : text (strdup s) = some s := by
  rw [strdup, List.map_append]
  exact text_append_zero h []

/-- In a block of set bytes a map of the bytes maps the string. -/
theorem text_map_map {b : Block} {s : CStr} {f : UInt8 → UInt8} (hf : ∀ c, f c = 0 ↔ c = 0)
    (h : text b = some s) : text (b.map (Option.map f)) = some (s.map f) := by
  obtain ⟨hnul, rest, rfl⟩ := text_eq_some_iff.mp h
  refine text_eq_some_iff.mpr ⟨?_, rest.map (Option.map f), ?_⟩
  · intro hmem
    obtain ⟨c, hc, h0⟩ := List.mem_map.mp hmem
    exact hnul ((hf c).mp h0 ▸ hc)
  · simp [(hf 0).mpr rfl]

/-! ## Storing -/

theorem store_eq {b c : Block} {offset : Nat} {data : CStr} (h : b.store offset data = some c) :
    offset + data.length ≤ b.length ∧
      c = b.take offset ++ data.map some ++ b.drop (offset + data.length) := by
  rw [store] at h
  split at h
  · exact ⟨‹_›, (Option.some.inj h).symm⟩
  · cases h

theorem store_eq_none_iff {b : Block} {offset : Nat} {data : CStr} :
    b.store offset data = none ↔ b.length < offset + data.length := by
  rw [store]
  split
  · simp only [reduceCtorEq, false_iff]
    omega
  · simp only [true_iff]
    omega

theorem length_store {b c : Block} {offset : Nat} {data : CStr}
    (h : b.store offset data = some c) : c.length = b.length := by
  obtain ⟨hle, rfl⟩ := store_eq h
  simp only [List.length_append, List.length_take, List.length_map, List.length_drop]
  omega

/-- Bytes that fit at the start of a block. -/
theorem store_zero {b : Block} {data : CStr} (h : data.length ≤ b.length) :
    b.store 0 data = some (data.map some ++ b.drop data.length) := by
  rw [store, if_pos (by omega)]
  simp

theorem length_realloc (b : Block) (size : Nat) : (b.realloc size).length = size := by
  rw [realloc, List.length_append, List.length_take, List.length_replicate]
  omega

/-- What was in a block stays in it, as far as there is room. -/
theorem take_realloc {b : Block} {n size : Nat} (hsize : n ≤ size) (hb : n ≤ b.length) :
    (b.realloc size).take n = b.take n := by
  rw [realloc, List.take_append_of_le_length (by rw [List.length_take]; omega), List.take_take,
    Nat.min_eq_left hsize]

/-- A terminator that is stored inside of a string ends it there. -/
theorem text_store_zero {b : Block} {s t : CStr} {c : UInt8} (h : text b = some (s ++ c :: t)) :
    (b.store s.length [0]).bind text = some s := by
  obtain ⟨hnul, rest, rfl⟩ := text_eq_some_iff.mp h
  have hs : NulFree s := fun hmem => hnul (List.mem_append_left _ hmem)
  rw [store, if_pos (by simp), Option.bind_some]
  have htake : ((s ++ c :: t).map some ++ some 0 :: rest).take s.length = s.map some := by
    rw [List.map_append, List.append_assoc]
    exact List.take_left' (by simp)
  rw [htake, List.append_assoc]
  exact text_append_zero hs _

/-- A string that is stored behind the string of a block, where there is room for it. -/
theorem store_append {b : Block} {s t : CStr} (hs : text b = some s) (ht : NulFree t)
    (hfit : s.length + t.length < b.length) :
    ∃ c, b.store s.length (t ++ [0]) = some c ∧ c.length = b.length ∧ text c = some (s ++ t) := by
  obtain ⟨hnul, rest, rfl⟩ := text_eq_some_iff.mp hs
  have hle : s.length + (t ++ [0]).length ≤ (s.map some ++ some 0 :: rest).length := by
    rw [List.length_append, List.length_singleton]
    omega
  have hstore : store (s.map some ++ some 0 :: rest) s.length (t ++ [0])
      = some (s.map some ++ (t ++ [0]).map some ++
          (s.map some ++ some 0 :: rest).drop (s.length + (t ++ [0]).length)) := by
    rw [store, if_pos hle, List.take_left' (by simp)]
  refine ⟨_, hstore, length_store hstore, ?_⟩
  have hboth : NulFree (s ++ t) := fun hmem =>
    (List.mem_append.mp hmem).elim (fun h => hnul h) (fun h => ht h)
  rw [List.map_append, ← List.append_assoc, ← List.map_append, List.append_assoc]
  exact text_append_zero hboth _

/-- A string of the given length, and what was behind it. -/
theorem strncpy_eq {b : Block} {s rest : CStr} (h : NulFree s) (hle : s.length ≤ b.length) :
    b.strncpy (s ++ rest) s.length = some (s.map some ++ b.drop s.length) := by
  have hself : s.takeWhile (· != 0) = s := by
    rw [List.takeWhile_eq_self_iff]
    exact fun c hc => by simpa using fun h0 : c = 0 => h (h0 ▸ hc)
  rw [strncpy, if_pos ⟨hle, .inl (by simp)⟩, List.take_left, hself]
  simp

end Block

end Pantavisor.Lib
