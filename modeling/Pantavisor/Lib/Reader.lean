/-
Pantavisor.Lib.Reader — code that reads an object through pointers.

A `Reader` is given the bytes of an object. Besides its result it says how far it read,
as the offset behind the last byte; what is undefined is a fault (`none`), such as a read
behind the end of the object. `Within` says that only the first `n` bytes were read.

A reader is `Steady` if the bytes behind its extent have no part in what it does: within
the first `n` bytes it reads what it would read if these were the whole object. Each
reader here is steady and `bind` keeps that, so a handler that is put together from them
is, and its safety is a question about the first `n` bytes alone (`within_iff`).
-/
import Pantavisor.Lib.CString

namespace Pantavisor.Lib

/-- Code that reads an object: its result, and the offset behind the last byte it read. -/
def Reader (α : Type) : Type := CStr → Option (α × Nat)

namespace Reader

variable {α β : Type}

instance : Monad Reader where
  pure a := fun _ => some (a, 0)
  bind r f := fun mem => (r mem).bind fun a => (f a.1 mem).map fun b => (b.1, max a.2 b.2)

/-- What the language does not define. -/
def fault : Reader α := fun _ => none

/-- `n` bytes from an offset on. -/
def bytes (offset n : Nat) : Reader CStr := fun mem =>
  if offset + n ≤ mem.length then some ((mem.drop offset).take n, offset + n) else none

/-- A string up to its terminator. -/
def string (offset : Nat) : Reader CStr := fun mem =>
  if (0 : UInt8) ∈ mem.drop offset then
    some (cstrAt mem offset, offset + (cstrAt mem offset).length + 1)
  else none

/-- `%.*s`: a string up to its terminator, but no more bytes than the precision, if that is
not negative. -/
def upTo (offset : Nat) (precision : Int) : Reader CStr := fun mem =>
  if 0 ≤ precision ∧ (0 : UInt8) ∉ (mem.drop offset).take precision.toNat then
    bytes offset precision.toNat mem
  else string offset mem

variable {mem : CStr} {n : Nat}

/-- The second of two readers goes on from what the first one made. -/
theorem bind_eq_some {r : Reader α} {f : α → Reader β} {b : β} {extent : Nat} :
    (r >>= f) mem = some (b, extent) ↔
      ∃ a e e', r mem = some (a, e) ∧ f a mem = some (b, e') ∧ extent = max e e' := by
  constructor
  · intro h
    obtain ⟨⟨a, e⟩, ha, h⟩ := Option.bind_eq_some_iff.mp h
    obtain ⟨⟨b', e'⟩, hb, h⟩ := Option.map_eq_some_iff.mp h
    cases h
    exact ⟨a, e, e', ha, hb, rfl⟩
  · rintro ⟨a, e, e', ha, hb, rfl⟩
    show (r mem).bind _ = _
    rw [ha, Option.bind_some, hb]
    rfl

/-- What a reader makes of an object. -/
def Yields (r : Reader α) (mem : CStr) (a : α) : Prop := ∃ extent, r mem = some (a, extent)

theorem Yields.unique {r : Reader α} {a b : α} (ha : Yields r mem a) (hb : Yields r mem b) :
    a = b := by
  obtain ⟨e, ha⟩ := ha
  obtain ⟨e', hb⟩ := hb
  exact congrArg Prod.fst (Option.some.inj (ha.symm.trans hb))

@[simp] theorem yields_pure {a b : α} : Yields (pure a) mem b ↔ b = a := by
  constructor
  · rintro ⟨extent, h⟩
    exact (congrArg Prod.fst (Option.some.inj h)).symm
  · rintro rfl
    exact ⟨0, rfl⟩

@[simp] theorem yields_fault {a : α} : ¬ Yields fault mem a := by
  rintro ⟨extent, h⟩
  cases h

@[simp] theorem yields_bind {r : Reader α} {f : α → Reader β} {b : β} :
    Yields (r >>= f) mem b ↔ ∃ a, Yields r mem a ∧ Yields (f a) mem b := by
  constructor
  · rintro ⟨extent, h⟩
    obtain ⟨a, e, e', ha, hb, -⟩ := bind_eq_some.mp h
    exact ⟨a, ⟨e, ha⟩, e', hb⟩
  · rintro ⟨a, ⟨e, ha⟩, e', hb⟩
    exact ⟨_, bind_eq_some.mpr ⟨a, e, e', ha, hb, rfl⟩⟩

/-- A sequence of readers makes something if each of them does. -/
theorem exists_yields_bind {r : Reader α} {f : α → Reader β} :
    (∃ b, Yields (r >>= f) mem b) ↔ ∃ a, Yields r mem a ∧ ∃ b, Yields (f a) mem b := by
  simp only [yields_bind]
  constructor
  · rintro ⟨b, a, ha, hb⟩
    exact ⟨a, ha, b, hb⟩
  · rintro ⟨a, ha, b, hb⟩
    exact ⟨b, a, ha, hb⟩

theorem exists_yields_pure (a : α) : ∃ b, Yields (pure a) mem b := ⟨a, yields_pure.mpr rfl⟩

/-! ## The extent -/

/-- Nothing is undefined, and only the first `n` bytes are read. -/
def Within (r : Reader α) (mem : CStr) (n : Nat) : Prop :=
  ∃ a extent, r mem = some (a, extent) ∧ extent ≤ n

/-- What is behind the extent has no part in what is read. -/
def Steady (r : Reader α) : Prop :=
  ∀ mem n a extent, r mem = some (a, extent) ∧ extent ≤ n ↔ r (mem.take n) = some (a, extent)

/-- A steady reader keeps to the first bytes if they are enough for it. -/
theorem Steady.within_iff {r : Reader α} (h : Steady r) :
    Within r mem n ↔ ∃ a, Yields r (mem.take n) a := by
  constructor
  · rintro ⟨a, extent, hr⟩
    exact ⟨a, extent, (h mem n a extent).mp hr⟩
  · rintro ⟨a, extent, hr⟩
    exact ⟨a, extent, (h mem n a extent).mpr hr⟩

theorem steady_pure (a : α) : Steady (pure a : Reader α) := by
  intro mem n b extent
  constructor
  · exact fun h => h.1
  · intro h
    have hextent : 0 = extent := congrArg Prod.snd (Option.some.inj h)
    exact ⟨h, by omega⟩

theorem steady_fault : Steady (fault : Reader α) := by
  intro mem n a extent
  simp [fault]

theorem Steady.bind {r : Reader α} {f : α → Reader β} (hr : Steady r)
    (hf : ∀ a, Steady (f a)) : Steady (r >>= f) := by
  intro mem n b extent
  rw [bind_eq_some, bind_eq_some]
  constructor
  · rintro ⟨⟨a, e, e', ha, hb, rfl⟩, hle⟩
    exact ⟨a, e, e', (hr mem n a e).mp ⟨ha, by omega⟩, (hf a mem n b e').mp ⟨hb, by omega⟩, rfl⟩
  · rintro ⟨a, e, e', ha, hb, rfl⟩
    obtain ⟨ha, hle⟩ := (hr mem n a e).mpr ha
    obtain ⟨hb, hle'⟩ := (hf a mem n b e').mpr hb
    exact ⟨⟨a, e, e', ha, hb, rfl⟩, by omega⟩

theorem bytes_eq_some {offset k : Nat} {a : CStr} {extent : Nat} :
    bytes offset k mem = some (a, extent) ↔
      a = (mem.drop offset).take k ∧ extent = offset + k ∧ offset + k ≤ mem.length := by
  unfold bytes
  constructor
  · intro h
    split at h
    · cases h
      exact ⟨rfl, rfl, ‹_›⟩
    · cases h
  · rintro ⟨rfl, rfl, hle⟩
    exact if_pos hle

theorem steady_bytes (offset k : Nat) : Steady (bytes offset k) := by
  intro mem n a extent
  have htake : offset + k ≤ n → ((mem.take n).drop offset).take k = (mem.drop offset).take k := by
    intro hle
    rw [List.drop_take, List.take_take, Nat.min_eq_left (by omega)]
  rw [bytes_eq_some, bytes_eq_some, List.length_take]
  constructor
  · rintro ⟨⟨rfl, rfl, hmem⟩, hle⟩
    exact ⟨(htake hle).symm, rfl, by omega⟩
  · rintro ⟨rfl, rfl, hle⟩
    exact ⟨⟨htake (by omega), rfl, by omega⟩, by omega⟩

/-- A string is read if its terminator is there. -/
theorem string_eq_some {offset : Nat} {s : CStr} {extent : Nat} :
    string offset mem = some (s, extent) ↔
      NulFree s ∧ (∃ rest, mem.drop offset = s ++ 0 :: rest) ∧ extent = offset + s.length + 1 := by
  unfold string
  constructor
  · intro h
    split at h
    · rename_i hmem
      obtain ⟨rfl, rfl⟩ := Prod.mk.inj (Option.some.inj h)
      obtain ⟨t, rest, ht, hnul⟩ := List.eq_append_cons_of_mem hmem
      have hcstr : cstrAt mem offset = t := by
        rw [cstrAt, ht]
        exact takeWhile_ne_append hnul
      exact ⟨hcstr ▸ hnul, ⟨rest, hcstr ▸ ht⟩, rfl⟩
    · cases h
  · rintro ⟨hs, ⟨rest, hrest⟩, rfl⟩
    have hcstr : cstrAt mem offset = s := by
      rw [cstrAt, hrest]
      exact takeWhile_ne_append hs
    rw [if_pos (by rw [hrest]; simp), hcstr]

theorem steady_string (offset : Nat) : Steady (string offset) := by
  intro mem n s extent
  rw [string_eq_some, string_eq_some, List.drop_take]
  constructor
  · rintro ⟨⟨hs, ⟨rest, hrest⟩, rfl⟩, hle⟩
    refine ⟨hs, ⟨rest.take (n - offset - (s.length + 1)), ?_⟩, rfl⟩
    have hn : n - offset = (s ++ [0]).length + (n - offset - (s.length + 1)) := by
      simp only [List.length_append, List.length_singleton]
      omega
    have happ : s ++ 0 :: rest = (s ++ [0]) ++ rest := by simp
    rw [hrest, happ, hn, List.take_length_add_append]
    simp
  · rintro ⟨hs, ⟨rest, hrest⟩, rfl⟩
    have hlen := congrArg List.length hrest
    simp only [List.length_take, List.length_append, List.length_cons] at hlen
    have hsplit := List.take_append_drop (n - offset) (mem.drop offset)
    rw [hrest, List.append_assoc, List.cons_append] at hsplit
    exact ⟨⟨hs, ⟨_, hsplit.symm⟩, rfl⟩, by omega⟩

theorem steady_upTo (offset : Nat) (precision : Int) : Steady (upTo offset precision) := by
  intro mem n a extent
  by_cases hneg : precision < 0
  · have hstring : ∀ mem, upTo offset precision mem = string offset mem := fun mem =>
      if_neg (by omega)
    rw [hstring, hstring]
    exact steady_string offset mem n a extent
  by_cases hle : offset + precision.toNat ≤ n
  · -- the bytes that decide are in both
    have htake : ((mem.take n).drop offset).take precision.toNat
        = (mem.drop offset).take precision.toNat := by
      rw [List.drop_take, List.take_take, Nat.min_eq_left (by omega)]
    unfold upTo
    rw [htake]
    split
    · exact steady_bytes offset precision.toNat mem n a extent
    · exact steady_string offset mem n a extent
  · -- what is read ends with a terminator before the precision does
    have hlong : (mem.take n).drop offset = ((mem.take n).drop offset).take precision.toNat := by
      refine (List.take_of_length_le ?_).symm
      simp only [List.length_drop, List.length_take]
      omega
    have hsub : ((mem.take n).drop offset).take precision.toNat
        ⊆ (mem.drop offset).take precision.toNat := by
      rw [List.drop_take, List.take_take, Nat.min_comm, ← List.take_take]
      exact List.take_subset _ _
    unfold upTo
    constructor
    · rintro ⟨h, hextent⟩
      split at h
      · exact absurd (bytes_eq_some.mp h).2.1 (by omega)
      · have htake := (steady_string offset mem n a extent).mp ⟨h, hextent⟩
        obtain ⟨-, ⟨rest, hrest⟩, -⟩ := string_eq_some.mp htake
        rw [if_neg (by rw [← hlong, hrest]; simp), htake]
    · intro h
      split at h
      · have hfits := bytes_eq_some.mp h
        rw [List.length_take] at hfits
        omega
      · rename_i hbranch
        obtain ⟨hstring, hextent⟩ := (steady_string offset mem n a extent).mpr h
        have hmem : (0 : UInt8) ∈ (mem.drop offset).take precision.toNat := by
          by_contra hnot
          exact hbranch ⟨by omega, fun hm => hnot (hsub hm)⟩
        exact ⟨by rw [if_neg (by simp [hmem]), hstring], hextent⟩

/-! ## What is read -/

theorem yields_bytes {offset k : Nat} {a : CStr} :
    Yields (bytes offset k) mem a ↔ a = (mem.drop offset).take k ∧ offset + k ≤ mem.length := by
  constructor
  · rintro ⟨extent, h⟩
    exact ⟨(bytes_eq_some.mp h).1, (bytes_eq_some.mp h).2.2⟩
  · rintro ⟨ha, hle⟩
    exact ⟨offset + k, bytes_eq_some.mpr ⟨ha, rfl, hle⟩⟩

theorem yields_string {offset : Nat} {s : CStr} :
    Yields (string offset) mem s ↔ NulFree s ∧ ∃ rest, mem.drop offset = s ++ 0 :: rest := by
  constructor
  · rintro ⟨extent, h⟩
    exact ⟨(string_eq_some.mp h).1, (string_eq_some.mp h).2.1⟩
  · rintro ⟨hs, hrest⟩
    exact ⟨_, string_eq_some.mpr ⟨hs, hrest, rfl⟩⟩

/-- The bytes behind a string. -/
theorem drop_string {offset : Nat} {s rest : CStr} (h : mem.drop offset = s ++ 0 :: rest) :
    mem.drop (offset + s.length + 1) = rest := by
  rw [Nat.add_assoc, ← List.drop_drop, h, ← List.drop_drop, List.drop_left, List.drop_one,
    List.tail_cons]

/-- Bytes up to a precision are read if there is a terminator or if they are there. -/
theorem yields_upTo {offset : Nat} {precision : Int} (hoffset : offset ≤ mem.length) :
    (∃ a, Yields (upTo offset precision) mem a) ↔
      (0 : UInt8) ∈ mem.drop offset ∨
        0 ≤ precision ∧ precision ≤ (mem.drop offset).length := by
  have hstring : (∃ a, Yields (string offset) mem a) ↔ (0 : UInt8) ∈ mem.drop offset := by
    constructor
    · rintro ⟨a, ha⟩
      obtain ⟨-, rest, hrest⟩ := yields_string.mp ha
      rw [hrest]
      simp
    · intro hmem
      obtain ⟨s, rest, hrest, hs⟩ := List.eq_append_cons_of_mem hmem
      exact ⟨s, yields_string.mpr ⟨hs, rest, hrest⟩⟩
  rw [List.length_drop]
  by_cases hbranch : 0 ≤ precision ∧ (0 : UInt8) ∉ (mem.drop offset).take precision.toNat
  · have hbytes : (∃ a, Yields (upTo offset precision) mem a) ↔
        offset + precision.toNat ≤ mem.length := by
      unfold Yields upTo
      rw [if_pos hbranch]
      constructor
      · rintro ⟨a, extent, h⟩
        exact (bytes_eq_some.mp h).2.2
      · exact fun hle => ⟨_, _, bytes_eq_some.mpr ⟨rfl, rfl, hle⟩⟩
    rw [hbytes]
    constructor
    · exact fun hle => .inr ⟨hbranch.1, by omega⟩
    · rintro (hmem | hle)
      · -- the terminator is behind the precision
        by_contra hgt
        refine hbranch.2 ?_
        rwa [List.take_of_length_le (by simp only [List.length_drop]; omega)]
      · omega
  · have hupTo : (∃ a, Yields (upTo offset precision) mem a) ↔ (0 : UInt8) ∈ mem.drop offset := by
      rw [← hstring]
      unfold Yields upTo
      rw [if_neg hbranch]
    rw [hupTo]
    constructor
    · exact .inl
    · rintro (hmem | hle)
      · exact hmem
      · by_contra hnot
        exact hbranch ⟨hle.1, fun hm => hnot (List.mem_of_mem_take hm)⟩

end Reader

end Pantavisor.Lib
