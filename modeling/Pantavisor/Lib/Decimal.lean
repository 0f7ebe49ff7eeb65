/-
Pantavisor.Lib.Decimal — numbers as `%d` prints them and `atoi` reads them.

`intText` is what `printf` makes of an `int`, and `atoi` what the C library reads from
the start of a string: white space, a sign, and digits up to the first byte that is none.
-/
import Mathlib.Data.List.Basic
import Pantavisor.Lib.CString

namespace Pantavisor.Lib

/-- The digits of a number. -/
def digitText (n : Nat) : CStr := (Nat.toDigits 10 n).map fun c => c.toNat.toUInt8

/-- `%d` -/
def intText : Int → CStr
  | .ofNat n => digitText n
  | .negSucc n => 45 :: digitText (n + 1)

/-- `isdigit` -/
def isDigit (c : UInt8) : Bool := 48 ≤ c && c ≤ 57

/-- `isspace` -/
def isSpace (c : UInt8) : Bool := c == 32 || (9 ≤ c && c ≤ 13)

/-- The number that the digits at the start of a string are. -/
def digitsValue (s : CStr) : Nat :=
  (s.takeWhile isDigit).foldl (fun n c => 10 * n + (c.toNat - 48)) 0

/-- `atoi`, and `sscanf` with `%d` -/
def atoi (s : CStr) : Int :=
  match s.dropWhile isSpace with
  | 45 :: t => -digitsValue t
  | 43 :: t => digitsValue t
  | t => digitsValue t

/-! ## Digits -/

theorem isDigit_of_mem_digitText {n : Nat} {c : UInt8} (h : c ∈ digitText n) :
    isDigit c = true := by
  obtain ⟨d, hd, rfl⟩ := List.mem_map.mp h
  have hdigit := Nat.isDigit_of_mem_toDigits (by decide) (by decide) hd
  simp only [Char.isDigit, Bool.and_eq_true, decide_eq_true_eq, UInt32.le_iff_toNat_le] at hdigit
  have hlow : 48 ≤ d.toNat := hdigit.1
  have hhigh : d.toNat ≤ 57 := hdigit.2
  simp only [isDigit, Bool.and_eq_true, decide_eq_true_eq, UInt8.le_iff_toNat_le,
    Nat.toUInt8_eq, UInt8.toNat_ofNat', UInt8.reduceToNat]
  omega

theorem digitText_ne_nil (n : Nat) : digitText n ≠ [] := by
  simp [digitText, Nat.toDigits_ne_nil]

/-- Folding the bytes of digits is folding the digits. -/
theorem foldl_digits {cs : List Char} (h : ∀ c ∈ cs, c.toNat ≤ 57) (init : Nat) :
    (cs.map fun c => c.toNat.toUInt8).foldl (fun n c => 10 * n + (c.toNat - 48)) init
      = Nat.ofDigitChars 10 cs init := by
  induction cs generalizing init with
  | nil => rfl
  | cons c cs ih =>
    have hc : c.toNat ≤ 57 := h c (List.mem_cons_self ..)
    have hbyte : c.toNat.toUInt8.toNat = c.toNat := by
      rw [Nat.toUInt8_eq, UInt8.toNat_ofNat', Nat.mod_eq_of_lt (by omega)]
    rw [List.map_cons, List.foldl_cons, ih fun d hd => h d (List.mem_cons_of_mem _ hd),
      Nat.ofDigitChars_cons, hbyte]
    rfl

theorem foldl_digitText (n : Nat) :
    (digitText n).foldl (fun n c => 10 * n + (c.toNat - 48)) 0 = n := by
  rw [digitText, foldl_digits, Nat.ofDigitChars_ten_toDigits]
  intro c hc
  have hdigit := Nat.isDigit_of_mem_toDigits (by decide) (by decide) hc
  simp only [Char.isDigit, Bool.and_eq_true, decide_eq_true_eq, UInt32.le_iff_toNat_le] at hdigit
  exact hdigit.2

/-- The digits of a number are read back, up to a byte that is none. -/
theorem digitsValue_digitText {n : Nat} {rest : CStr}
    (h : ∀ c ∈ rest.head?, isDigit c = false) : digitsValue (digitText n ++ rest) = n := by
  have hrest : rest.takeWhile isDigit = [] := by
    cases rest with
    | nil => rfl
    | cons c rest => exact List.takeWhile_cons_of_neg (by simp [h c rfl])
  rw [digitsValue, List.takeWhile_append_of_pos fun c hc => isDigit_of_mem_digitText hc, hrest,
    List.append_nil, foldl_digitText]

/-! ## Numbers with a sign -/

theorem isDigit_not_space {c : UInt8} (h : isDigit c = true) :
    isSpace c = false ∧ c ≠ 45 ∧ c ≠ 43 := by
  simp only [isDigit, Bool.and_eq_true, decide_eq_true_eq, UInt8.le_iff_toNat_le,
    UInt8.reduceToNat] at h
  refine ⟨?_, ?_, ?_⟩
  · simp only [isSpace, Bool.or_eq_false_iff, beq_eq_false_iff_ne, Bool.and_eq_false_iff,
      decide_eq_false_iff_not, UInt8.le_iff_toNat_le, UInt8.reduceToNat]
    exact ⟨fun h32 => by simp [h32] at h, .inr (by omega)⟩
  · rintro rfl
    simp at h
  · rintro rfl
    simp at h

/-- What `%d` prints is read back. -/
theorem atoi_intText {n : Int} {rest : CStr} (h : ∀ c ∈ rest.head?, isDigit c = false) :
    atoi (intText n ++ rest) = n := by
  cases n with
  | ofNat n =>
    obtain ⟨c, t, hct⟩ := List.exists_cons_of_ne_nil (digitText_ne_nil n)
    have hc : isDigit c = true := isDigit_of_mem_digitText (n := n) (by simp [hct])
    obtain ⟨hspace, hminus, hplus⟩ := isDigit_not_space hc
    have hvalue := digitsValue_digitText (n := n) h
    simp only [intText, hct, List.cons_append, atoi] at hvalue ⊢
    rw [List.dropWhile_cons_of_neg (by simp [hspace])]
    split
    · exact absurd (List.cons.inj ‹_›).1 hminus
    · exact absurd (List.cons.inj ‹_›).1 hplus
    · rw [hvalue]
      rfl
  | negSucc n =>
    have hvalue := digitsValue_digitText (n := n + 1) h
    simp only [intText, List.cons_append, atoi]
    rw [List.dropWhile_cons_of_neg (by decide)]
    simp only [hvalue]
    rfl

theorem intText_noNul (n : Int) : NulFree (intText n) := by
  intro h
  cases n with
  | ofNat n =>
    have hdigit := isDigit_of_mem_digitText h
    exact absurd hdigit (by decide)
  | negSucc n =>
    rcases List.mem_cons.mp h with h | h
    · exact absurd h (by decide)
    · exact absurd (isDigit_of_mem_digitText h) (by decide)

end Pantavisor.Lib
