/-
Pantavisor.Json.FormatBuffer — `pv_json_format` (`utils/json.c`) with the buffer it writes to.

The buffer has room for six bytes of each byte of the string, and its terminator. As the bytes
go in one by one they stay inside of it (`formatLoop_eq`), and what is left there is the
`pvJsonFormat` of the string. The room is counted in an `int`, though, and so is the length that
the callers take from `strlen`: from 357913942 bytes on the product has no room in that.

A function gives `none` where the C code is undefined: where an `int` overflows, where a byte is
stored behind the end of a block, and where one is read behind the end of the string.
-/
import Mathlib.Data.List.Infix
import Pantavisor.Json.Format
import Pantavisor.Lib.Block
import Pantavisor.Lib.JsonEnds

namespace Pantavisor.Json

open Pantavisor.Lib

/-! ## The code -/

/-- `json_string` and `json_str_idx` -/
structure FormatDst where
  dst : Block
  off : Nat

/-- `dst[(*off_dst)++] = c` -/
def FormatDst.put (j : FormatDst) (c : UInt8) : Option FormatDst :=
  (j.dst.store j.off [c]).map fun dst => ⟨dst, j.off + 1⟩

/-- The loop of `pv_json_format`, where `modify_to_json` stores six bytes one by one. -/
def formatLoop : CStr → FormatDst → Option FormatDst
  | [], j => some j
  | ch :: buf, j =>
    if charIsJsonSpecial ch then ((modifyToJson ch).foldlM FormatDst.put j).bind (formatLoop buf)
    else (j.put ch).bind (formatLoop buf)

/-- `pv_json_format`, which returns NULL for a length that is not positive. At the end the block
gets as short as its string. -/
def pvJsonFormatIn (buf : CStr) (len : Int) : Option (Option CStr) :=
  if len ≤ 0 then some none
  else if len * 6 + 1 < 2 ^ 31 ∧ len ≤ buf.length then do
    let j ← formatLoop (buf.take len.toNat) ⟨Block.calloc (len * 6 + 1).toNat, 0⟩
    let string ← j.dst.text
    return some string
  else none

/-! ## What is written -/

/-- What a formatted string is to be: no raw control byte and no raw quote, no backslash but
those that start the escape of a byte, not too long, and a JSON string for what went in. -/
structure Formatted (s out : CStr) : Prop where
  plain : ∀ c ∈ out, ¬ c ≤ 0x1f ∧ c ≠ quote
  escapes : ∀ front behind, out = front ++ backslash :: behind →
    ∃ before ch after rest, s = before ++ ch :: after ∧ charIsJsonSpecial ch ∧
      backslash :: behind = modifyToJson ch ++ rest ∧
      StringText front before ∧ StringText rest after
  length_le : out.length ≤ 6 * s.length
  text : StringText out s

theorem nibbleToHexchar_digit {n : UInt8} (h : n < 16) :
    48 ≤ nibbleToHexchar n ∧ nibbleToHexchar n ≠ backslash := by
  have hall : ∀ i : Fin 16, 48 ≤ nibbleToHexchar (UInt8.ofNat i) ∧
      nibbleToHexchar (UInt8.ofNat i) ≠ backslash := by decide
  have hlt : n.toNat < 16 := by simpa using UInt8.lt_iff_toNat_lt.mp h
  simpa using hall ⟨n.toNat, hlt⟩

theorem nibbles_lt (ch : UInt8) : ch >>> 4 < 16 ∧ ch &&& 15 < 16 := by
  have hlt : ch.toNat < 256 := ch.toNat_lt
  constructor
  · rw [UInt8.lt_iff_toNat_lt, UInt8.toNat_shiftRight]
    simp only [Nat.shiftRight_eq_div_pow, UInt8.reduceToNat, Nat.reduceMod, Nat.reducePow]
    omega
  · rw [UInt8.lt_iff_toNat_lt, UInt8.toNat_and]
    exact Nat.lt_of_le_of_lt Nat.and_le_right (by decide)

/-- A byte from the digits on, or one of the letters. -/
theorem plain_of_le {c : UInt8} (h : 48 ≤ c) : ¬ c ≤ 0x1f ∧ c ≠ quote := by
  rw [UInt8.le_iff_toNat_le] at h
  refine ⟨fun hle => ?_, fun heq => ?_⟩
  · rw [UInt8.le_iff_toNat_le] at hle
    simp only [UInt8.reduceToNat] at h hle
    omega
  · rw [heq] at h
    exact absurd h (by decide)

/-- No byte of an escape has to be escaped, but for the backslash it starts with. -/
theorem modifyToJson_plain (ch : UInt8) : ∀ c ∈ modifyToJson ch, ¬ c ≤ 0x1f ∧ c ≠ quote := by
  obtain ⟨hhigh, hlow⟩ := nibbles_lt ch
  intro c hc
  simp only [modifyToJson, List.mem_cons, List.not_mem_nil, or_false] at hc
  rcases hc with rfl | rfl | rfl | rfl | rfl | rfl
  · decide
  · decide
  · decide
  · decide
  · exact plain_of_le (nibbleToHexchar_digit hhigh).1
  · exact plain_of_le (nibbleToHexchar_digit hlow).1

theorem modifyToJson_backslash (ch : UInt8) : backslash ∉ (modifyToJson ch).tail := by
  obtain ⟨hhigh, hlow⟩ := nibbles_lt ch
  simp only [modifyToJson, List.tail_cons, List.mem_cons, List.not_mem_nil, or_false, not_or]
  exact ⟨by decide, by decide, by decide, (nibbleToHexchar_digit hhigh).2.symm,
    (nibbleToHexchar_digit hlow).2.symm⟩

theorem formatChar_plain (ch : UInt8) : ∀ c ∈ formatChar ch, ¬ c ≤ 0x1f ∧ c ≠ quote := by
  rw [formatChar]
  split
  · exact modifyToJson_plain ch
  · next hspecial =>
    simp only [charIsJsonSpecial, Bool.or_eq_true, decide_eq_true_eq, not_or] at hspecial
    intro c hc
    rw [List.mem_singleton] at hc
    exact hc ▸ ⟨hspecial.1.1, hspecial.2⟩

theorem length_formatChar_le (ch : UInt8) : (formatChar ch).length ≤ 6 := by
  rw [formatChar]
  split
  · exact le_refl 6
  · exact Nat.le_of_ble_eq_true rfl

theorem length_flatMap_formatChar_le (s : CStr) :
    (s.flatMap formatChar).length ≤ 6 * s.length := by
  induction s with
  | nil => exact le_refl 0
  | cons ch s ih =>
    have hchar := length_formatChar_le ch
    rw [List.flatMap_cons, List.length_append, List.length_cons]
    omega

theorem formatChar_nulFree (s : CStr) : NulFree (s.flatMap formatChar) := by
  intro hmem
  obtain ⟨ch, -, hch⟩ := List.mem_flatMap.mp hmem
  exact (formatChar_plain ch 0 hch).1 (by decide)

/-- A backslash of what is written starts the escape of a byte. -/
theorem flatMap_formatChar_backslash {s front behind : CStr}
    (h : s.flatMap formatChar = front ++ backslash :: behind) :
    ∃ before ch after, s = before ++ ch :: after ∧ charIsJsonSpecial ch ∧
      front = before.flatMap formatChar ∧
      backslash :: behind = modifyToJson ch ++ after.flatMap formatChar := by
  induction s generalizing front with
  | nil => simp at h
  | cons ch s ih =>
    rw [List.flatMap_cons] at h
    -- the backslash is behind what the byte became, or it is its first byte
    rcases List.append_eq_append_iff.mp h with ⟨z, rfl, hz⟩ | ⟨z, hz, hbehind⟩
    · obtain ⟨before, ch', after, rfl, hspecial, rfl, hrest⟩ := ih hz
      exact ⟨ch :: before, ch', after, rfl, hspecial, by rw [List.flatMap_cons], hrest⟩
    · cases z with
      | nil =>
        rw [List.append_nil] at hz
        have hnext : s.flatMap formatChar = [] ++ backslash :: behind := by simpa using hbehind.symm
        obtain ⟨before, ch', after, rfl, hspecial, hfront, hrest⟩ := ih hnext
        refine ⟨ch :: before, ch', after, rfl, hspecial, ?_, hrest⟩
        rw [List.flatMap_cons, ← hfront, List.append_nil, hz]
      | cons c z =>
        obtain ⟨rfl, rfl⟩ := List.cons.inj hbehind
        rw [formatChar] at hz
        split at hz
        · next hspecial =>
          cases front with
          | nil => exact ⟨[], ch, s, rfl, hspecial, rfl, by rw [hz]; rfl⟩
          | cons d front =>
            refine absurd ?_ (modifyToJson_backslash ch)
            rw [hz]
            simp
        · next hspecial =>
          have hch : ch = backslash := by
            cases front with
            | nil => exact (List.cons.inj hz).1
            | cons d front => simp at hz
          exact absurd (by rw [hch]; rfl) hspecial

/-- Each byte in its place makes a formatted string. -/
theorem formatted_flatMap (s : CStr) : Formatted s (s.flatMap formatChar) where
  plain := fun c hc => by
    obtain ⟨ch, -, hch⟩ := List.mem_flatMap.mp hc
    exact formatChar_plain ch c hch
  escapes := fun front behind h => by
    obtain ⟨before, ch, after, hs, hspecial, hfront, hrest⟩ := flatMap_formatChar_backslash h
    exact ⟨before, ch, after, after.flatMap formatChar, hs, hspecial, hrest,
      hfront ▸ flatMap_formatChar_text before, flatMap_formatChar_text after⟩
  length_le := length_flatMap_formatChar_le s
  text := flatMap_formatChar_text s

/-! ## Where it is written -/

/-- A block of zeros with a text at its start. -/
def FormatDst.after (size : Nat) (out : CStr) : FormatDst :=
  ⟨out.map some ++ List.replicate (size - out.length) (some 0), out.length⟩

theorem FormatDst.put_after {size : Nat} {out : CStr} {c : UInt8} (h : out.length < size) :
    (FormatDst.after size out).put c = some (FormatDst.after size (out ++ [c])) := by
  have hroom : size - out.length = size - (out.length + 1) + 1 := by omega
  have hstore : (out.map some ++ List.replicate (size - out.length) (some 0) : Block).store
      out.length [c] = some ((out ++ [c]).map some ++
        List.replicate (size - (out.length + 1)) (some 0)) := by
    rw [Block.store, if_pos (by simp; omega), List.take_left' (by simp), List.drop_append,
      List.drop_eq_nil_of_le (by simp)]
    simp [hroom]
  rw [FormatDst.put, after, hstore, Option.map_some, after, List.length_append,
    List.length_singleton]

/-- Bytes for which there is room, one by one. -/
theorem FormatDst.foldlM_put_after {size : Nat} {bytes : CStr} :
    ∀ {out : CStr}, (out ++ bytes).length ≤ size →
      bytes.foldlM FormatDst.put (FormatDst.after size out)
        = some (FormatDst.after size (out ++ bytes)) := by
  induction bytes with
  | nil =>
    intro out _
    rw [List.foldlM_nil, List.append_nil]
    rfl
  | cons c bytes ih =>
    intro out h
    have hlt : out.length < size := by
      rw [List.length_append, List.length_cons] at h
      omega
    rw [List.append_cons] at h ⊢
    rw [List.foldlM_cons, put_after hlt]
    exact ih h

/-- What a byte becomes is written behind what is there. -/
theorem formatLoop_cons {size : Nat} {out s : CStr} {ch : UInt8}
    (h : (out ++ formatChar ch).length ≤ size) :
    formatLoop (ch :: s) (FormatDst.after size out)
      = formatLoop s (FormatDst.after size (out ++ formatChar ch)) := by
  rw [formatLoop]
  rw [formatChar] at h ⊢
  split at h
  · next hspecial =>
    rw [if_pos hspecial, if_pos hspecial, FormatDst.foldlM_put_after h]
    rfl
  · next hspecial =>
    rw [List.length_append, List.length_singleton] at h
    rw [if_neg hspecial, if_neg hspecial, FormatDst.put_after h]
    rfl

/-- The loop stays inside of the block, if that has room for all that it writes. -/
theorem formatLoop_eq {size : Nat} {s : CStr} :
    ∀ {out : CStr}, (out ++ s.flatMap formatChar).length ≤ size →
      formatLoop s (FormatDst.after size out)
        = some (FormatDst.after size (out ++ s.flatMap formatChar)) := by
  induction s with
  | nil =>
    intro out _
    rw [formatLoop, List.flatMap_nil, List.append_nil]
  | cons ch s ih =>
    intro out h
    rw [List.flatMap_cons, ← List.append_assoc] at h ⊢
    have hchar : (out ++ formatChar ch).length ≤ size :=
      Nat.le_trans (List.prefix_append _ _).length_le h
    rw [formatLoop_cons hchar, ih h]

theorem FormatDst.text_after {size : Nat} {out : CStr} (hnul : NulFree out)
    (h : out.length < size) : (FormatDst.after size out).dst.text = some out := by
  obtain ⟨k, hk⟩ : ∃ k, size - out.length = k + 1 := ⟨size - out.length - 1, by omega⟩
  rw [after, hk, List.replicate_succ]
  exact Block.text_append_zero hnul _

/-- A length that the code can count with formats that much of the string. -/
theorem pvJsonFormatIn_eq {buf : CStr} {len : Int} (hpos : 0 < len) (hroom : len * 6 + 1 < 2 ^ 31)
    (hlen : len ≤ buf.length) :
    pvJsonFormatIn buf len = some (some ((buf.take len.toNat).flatMap formatChar)) := by
  have htake : (buf.take len.toNat).length = len.toNat := by
    rw [List.length_take]
    omega
  have hwritten := length_flatMap_formatChar_le (buf.take len.toNat)
  rw [htake] at hwritten
  have hlt : ((buf.take len.toNat).flatMap formatChar).length < (len * 6 + 1).toNat := by omega
  have hloop : formatLoop (buf.take len.toNat) (FormatDst.after (len * 6 + 1).toNat [])
      = some (FormatDst.after (len * 6 + 1).toNat
          ([] ++ (buf.take len.toNat).flatMap formatChar)) := formatLoop_eq (Nat.le_of_lt hlt)
  rw [List.nil_append] at hloop
  have hstart : (⟨Block.calloc (len * 6 + 1).toNat, 0⟩ : FormatDst)
      = FormatDst.after (len * 6 + 1).toNat [] := rfl
  rw [pvJsonFormatIn, if_neg (by omega), if_pos ⟨hroom, hlen⟩, hstart, hloop]
  simp only [Option.bind_eq_bind, Option.bind_some]
  rw [FormatDst.text_after (formatChar_nulFree _) hlt]
  rfl

/-- The buffer is left with the `pvJsonFormat` of the string. -/
theorem pvJsonFormatIn_length {s : CStr} (h : s.length * 6 + 1 < 2 ^ 31) :
    pvJsonFormatIn s (intOfSize s.length) = some (pvJsonFormat s) := by
  rw [intOfSize_eq (by omega)]
  cases s with
  | nil => rfl
  | cons c s =>
    have hpos : 0 < (c :: s).length := Nat.succ_pos _
    rw [pvJsonFormatIn_eq (by omega) (by omega) (Int.le_refl _), pvJsonFormat, if_pos hpos,
      Int.toNat_natCast, List.take_length]

/-- What is returned is a string for no more than the `int` counts. -/
theorem pvJsonFormatIn_text {s out : CStr} {len : Int}
    (h : pvJsonFormatIn s len = some (some out)) :
    len * 6 + 1 < 2 ^ 31 ∧ StringText out (s.take len.toNat) := by
  have hdef := h
  rw [pvJsonFormatIn] at h
  split at h
  · cases h
  · split at h
    · next hpos hroom =>
      rw [pvJsonFormatIn_eq (by omega) hroom.1 hroom.2] at hdef
      obtain rfl := Option.some.inj (Option.some.inj hdef)
      exact ⟨hroom.1, flatMap_formatChar_text _⟩
    · cases h

/-- A string that is returned for the whole of another one is one that the room was counted for. -/
theorem room_of_text {s out : CStr} (h : pvJsonFormatIn s (intOfSize s.length) = some (some out))
    (htext : StringText out s) : s.length * 6 + 1 < 2 ^ 31 := by
  obtain ⟨hroom, htake⟩ := pvJsonFormatIn_text h
  have heq := congrArg List.length (htext.unique htake)
  rw [List.length_take] at heq
  omega

/-- **Formatting a string round trips**, and stays inside of the buffer, exactly for the strings
of at most 357913941 bytes: those whose room is an `int`. -/
theorem pvJsonFormat_roundTrip_iff {s : CStr} (hs : s ≠ []) :
    (∃ out, pvJsonFormatIn s (intOfSize s.length) = some (some out) ∧ Formatted s out) ↔
      s.length * 6 + 1 < 2 ^ 31 := by
  constructor
  · rintro ⟨out, hout, hformatted⟩
    exact room_of_text hout hformatted.text
  · intro h
    have hpos : s.length > 0 := List.length_pos_iff.mpr hs
    refine ⟨s.flatMap formatChar, ?_, formatted_flatMap s⟩
    rw [pvJsonFormatIn_length h, pvJsonFormat, if_pos hpos]

/-- A log line with a quote, a backslash and a line feed in it. -/
theorem pvJsonFormat_roundTrip_iff_line :
    (∃ out, pvJsonFormatIn (str "a\"\\\n") (intOfSize (str "a\"\\\n").length) = some (some out) ∧
      Formatted (str "a\"\\\n") out) ↔ (str "a\"\\\n").length * 6 + 1 < 2 ^ 31 :=
  pvJsonFormat_roundTrip_iff (by decide)

/-- For a third of a gigabyte of one letter the room is no `int`, and no string comes back. -/
theorem pvJsonFormat_room_overflows :
    let s : CStr := List.replicate 357913942 97
    s ≠ [] ∧ pvJsonFormatIn s (intOfSize s.length) = none ∧
      ¬ ∃ out, pvJsonFormatIn s (intOfSize s.length) = some (some out) ∧ Formatted s out := by
  intro s
  have hlen : s.length = 357913942 := List.length_replicate ..
  have hint : intOfSize s.length = 357913942 := by rw [hlen, intOfSize_eq (by omega)]; rfl
  have hnone : pvJsonFormatIn s (intOfSize s.length) = none := by
    rw [hint, pvJsonFormatIn, if_neg (by omega), if_neg (by omega)]
  refine ⟨fun hnil => ?_, hnone, ?_⟩
  · rw [hnil] at hlen
    cases hlen
  · rintro ⟨out, hout, -⟩
    rw [hnone] at hout
    cases hout

end Pantavisor.Json
