/-
Pantavisor.Json.Format — writing a string into a JSON text (`pv_json_format`).

Every byte that a JSON string may not have in it goes in as a `\u` escape, so
that what comes out, between quotes, is a string for what went in.
-/
import Pantavisor.Lib.JsonValue

namespace Pantavisor.Json

open Pantavisor.Lib

/-- `nibble_to_hexchar` -/
def nibbleToHexchar (nibble : UInt8) : UInt8 :=
  if nibble ≤ 9 then 48 + nibble else 65 + (nibble - 10)

/-- `modify_to_json` -/
def modifyToJson (ch : UInt8) : CStr :=
  [92, 117, 48, 48, nibbleToHexchar (ch >>> 4), nibbleToHexchar (ch &&& 15)]

/-- `char_is_json_special` -/
def charIsJsonSpecial (ch : UInt8) : Bool := ch ≤ 0x1f || ch = 92 || ch = 34

/-- What a byte becomes. -/
def formatChar (ch : UInt8) : CStr := if charIsJsonSpecial ch then modifyToJson ch else [ch]

/-- `pv_json_format` of a whole string, with `none` for NULL, which it returns
for an empty one. -/
def pvJsonFormat (buf : CStr) : Option CStr :=
  if buf.length > 0 then some (buf.flatMap formatChar) else none

theorem hexDigit_nibble {n : UInt8} (h : n < 16) : hexDigit (nibbleToHexchar n) = some n.toNat := by
  have hall : ∀ i : Fin 16, hexDigit (nibbleToHexchar (UInt8.ofNat i)) = some i := by decide
  have hlt : n.toNat < 16 := by simpa using UInt8.lt_iff_toNat_lt.mp h
  simpa using hall ⟨n.toNat, hlt⟩

/-- What a byte becomes is a string for that byte. -/
theorem formatChar_text (ch : UInt8) : StringText (formatChar ch) [ch] := by
  rw [formatChar]
  split
  · next hspecial =>
    have hascii : ch < 128 := by
      simp only [charIsJsonSpecial, Bool.or_eq_true, decide_eq_true_eq] at hspecial
      rcases hspecial with (h | h) | h
      · exact UInt8.lt_of_le_of_lt h (by decide)
      · rw [h]; decide
      · rw [h]; decide
    have hhigh : (ch >>> 4).toNat = ch.toNat / 16 := by
      simp [UInt8.toNat_shiftRight, Nat.shiftRight_eq_div_pow]
    have hlow : (ch &&& 15).toNat = ch.toNat % 16 := by
      rw [UInt8.toNat_and]
      exact Nat.and_two_pow_sub_one_eq_mod ch.toNat 4
    have hlt : ch.toNat < 256 := ch.toNat_lt
    refine .unicode (hexDigit_nibble ?_) (hexDigit_nibble ?_) ?_ hascii .nil
    · rw [UInt8.lt_iff_toNat_lt, hhigh]
      simp only [UInt8.reduceToNat]
      omega
    · rw [UInt8.lt_iff_toNat_lt, hlow]
      simp only [UInt8.reduceToNat]
      omega
    · rw [hhigh, hlow]
      omega
  · next hspecial =>
    simp only [charIsJsonSpecial, Bool.or_eq_true, decide_eq_true_eq, not_or] at hspecial
    obtain ⟨⟨hcontrol, hback⟩, hquote⟩ := hspecial
    refine .plain ⟨?_, hquote, hback⟩ .nil
    rw [UInt8.le_iff_toNat_le] at hcontrol ⊢
    simp only [UInt8.reduceToNat] at hcontrol ⊢
    omega

/-- **A formatted string is a JSON string** for what was formatted. -/
theorem flatMap_formatChar_text (buf : CStr) : StringText (buf.flatMap formatChar) buf := by
  induction buf with
  | nil => exact .nil
  | cons ch rest ih => exact (formatChar_text ch).append ih

theorem flatMap_formatChar_plain {buf : CStr} (h : ∀ c ∈ buf, charIsJsonSpecial c = false) :
    buf.flatMap formatChar = buf := by
  induction buf with
  | nil => rfl
  | cons c rest ih =>
    rw [List.flatMap_cons, ih fun d hd => h d (by simp [hd]), formatChar, h c (by simp)]
    rfl

example : pvJsonFormat (str "a\"\n") = some (str "a\\u0022\\u000A") := by decide

end Pantavisor.Json
