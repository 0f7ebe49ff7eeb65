/-
Pantavisor.Signature.Base64 — URL-safe base64 in allocated blocks (`utils/base64.c`).

`pv_base64_url_encode` makes its text in one block and cuts the padding off there.
`pv_base64_url_decode` puts the padding back on a copy, which `realloc` makes longer by the
padding alone: with padding there is no room for the terminator that `strlen` looks for next.
So a round trip is possible where nothing is padded (`roundTrips_iff`).

The codec of mbedtls is a parameter. It is asked for what it documents, that it decodes
base64, and is given the sizes of its buffers.

In an `Option (Option _)` the outer `none` is undefined behaviour, the inner one a -1.
-/
import Pantavisor.Lib.Block
import Pantavisor.Signature.Signature

namespace Pantavisor.Base64

open Pantavisor.Lib
open Pantavisor.Signature (base64Char base64Digit base64Groups base64Text paddingOf)

/-! ## The code -/

/-- What `pv_base64_url_encode` puts for a byte. -/
def toUrl (c : UInt8) : UInt8 := if c = 47 then 95 else if c = 43 then 45 else c

/-- What `pv_base64_url_decode` puts for a byte. -/
def fromUrl (c : UInt8) : UInt8 := if c = 95 then 47 else if c = 45 then 43 else c

/-- `padding` equals signs behind the string of a block that `realloc` makes as long. -/
def pad (str : Block) (oldLen : Int) (padding : Nat) : Option Block :=
  (str.realloc (oldLen + padding).toNat).store oldLen.toNat (List.replicate padding 61)

/-- `pv_base64_add_padding_multi4` from the length on -/
def addPadding (str : Block) (oldLen : Int) : Option Block :=
  match oldLen.tmod 4 with
  | 2 => pad str oldLen 2
  | 3 => pad str oldLen 1
  | _ => some str

/-- `pv_base64_add_padding_multi4` -/
def pvBase64AddPaddingMulti4 (str : Block) : Option Block :=
  str.text.bind fun s => addPadding str (intOfSize s.length)

/-- The loop of `pv_base64_remove_padding_multi4` -/
def cutPadding (str : Block) (s : CStr) (len : Int) : Option Block :=
  match (s.take len.toNat).findIdx? (· = 61) with
  | some i => str.store i [0]
  | none => some str

/-- `pv_base64_remove_padding_multi4` -/
def pvBase64RemovePaddingMulti4 (str : Block) : Option Block :=
  str.text.bind fun s => cutPadding str s (intOfSize s.length)

/-- `mbedtls_base64_encode`. Of nothing it writes nothing. -/
def mbedtlsBase64Encode (dst : Block) (dlen : Nat) (src : CStr) : Option (Option (Block × Nat)) :=
  if src = [] then some (some (dst, 0))
  else if dlen < (base64Text src).length + 1 then some none
  else (dst.store 0 (base64Text src ++ [0])).map fun dst => some (dst, (base64Text src).length)

/-- `mbedtls_base64_decode`, where `decode` says what data a text has. -/
def mbedtlsBase64Decode (decode : CStr → Option CStr) (dst : Block) (dlen : Nat) (src : CStr) :
    Option (Option (Block × Nat)) :=
  match decode src with
  | none => some none
  | some data =>
    if dlen < data.length then some none
    else (dst.store 0 data).map fun dst => some (dst, data.length)

/-- `pv_base64_decode` -/
def pvBase64Decode (decode : CStr → Option CStr) (src : CStr) : Option (Option (Block × Nat)) :=
  let len := (wrapSize (4 * src.length) / 3 + 3) / 4 * 4
  mbedtlsBase64Decode decode (Block.calloc len) len src

/-- `pv_base64_url_decode` -/
def pvBase64UrlDecode (decode : CStr → Option CStr) (src : CStr) :
    Option (Option (Block × Nat)) := do
  let itmp ← pvBase64AddPaddingMulti4 (Block.strdup src)
  let ilen := (← itmp.text).length
  let itmp : Block := (itmp.take ilen).map (Option.map fromUrl) ++ itmp.drop ilen
  pvBase64Decode decode (← itmp.text)

/-- `pv_base64_url_encode` -/
def pvBase64UrlEncode (src : CStr) : Option (Option (Block × Nat)) := do
  let len := wrapSize (wrapSize (src.length * 4) / 3 + 4)
  match ← mbedtlsBase64Encode (Block.calloc len) len src with
  | none => return none
  | some (dst, olen) =>
    let dst ← pvBase64RemovePaddingMulti4 (dst.map (Option.map toUrl))
    return some (dst, olen)

/-! ## URL-safe base64 -/

/-- The URL-safe digit of a value. -/
def urlChar (n : Nat) : UInt8 :=
  if n = 62 then 45
  else if n = 63 then 95
  else base64Char n

/-- URL-safe base64 of groups of three bytes, without padding. -/
def urlText : CStr → CStr
  | [] => []
  | [a] => [urlChar (a.toNat / 4), urlChar (a.toNat % 4 * 16)]
  | [a, b] =>
    [urlChar (a.toNat / 4), urlChar (a.toNat % 4 * 16 + b.toNat / 16),
      urlChar (b.toNat % 16 * 4)]
  | a :: b :: c :: rest =>
    urlChar (a.toNat / 4) :: urlChar (a.toNat % 4 * 16 + b.toNat / 16) ::
      urlChar (b.toNat % 16 * 4 + c.toNat / 64) :: urlChar (c.toNat % 64) ::
      urlText rest

/-- How many equals signs base64 of `n` bytes ends with. -/
def padding (n : Nat) : Nat := (3 - n % 3) % 3

theorem fromUrl_urlChar : ∀ n < 64, fromUrl (urlChar n) = base64Char n := by decide

theorem toUrl_base64Char : ∀ n < 64, toUrl (base64Char n) = urlChar n := by decide

theorem urlChar_ne : ∀ n < 64, urlChar n ≠ 0 ∧ urlChar n ≠ 61 := by decide

theorem base64Char_ne : ∀ n < 64, base64Char n ≠ 0 ∧ base64Char n ≠ 61 := by decide

theorem base64Digit_base64Char : ∀ n < 64, base64Digit (base64Char n) = some n := by decide

/-- The values of the four digits of three bytes. -/
theorem digits_lt (a b c : UInt8) :
    a.toNat / 4 < 64 ∧ a.toNat % 4 * 16 + b.toNat / 16 < 64 ∧
      b.toNat % 16 * 4 + c.toNat / 64 < 64 ∧ c.toNat % 64 < 64 := by
  have ha := a.toNat_lt
  have hb := b.toNat_lt
  have hc := c.toNat_lt
  omega

theorem urlText_digits (x : CStr) : ∀ c ∈ urlText x, ∃ n < 64, c = urlChar n := by
  induction x using urlText.induct with
  | case1 => simp [urlText]
  | case2 a =>
    have h := digits_lt a 0 0
    intro c hc
    simp only [urlText, List.mem_cons, List.not_mem_nil, or_false] at hc
    rcases hc with rfl | rfl
    · exact ⟨_, h.1, rfl⟩
    · exact ⟨_, by omega, rfl⟩
  | case3 a b =>
    have h := digits_lt a b 0
    intro c hc
    simp only [urlText, List.mem_cons, List.not_mem_nil, or_false] at hc
    rcases hc with rfl | rfl | rfl
    · exact ⟨_, h.1, rfl⟩
    · exact ⟨_, h.2.1, rfl⟩
    · exact ⟨_, by omega, rfl⟩
  | case4 a b c rest ih =>
    have h := digits_lt a b c
    intro d hd
    simp only [urlText, List.mem_cons] at hd
    rcases hd with rfl | rfl | rfl | rfl | hd
    · exact ⟨_, h.1, rfl⟩
    · exact ⟨_, h.2.1, rfl⟩
    · exact ⟨_, h.2.2.1, rfl⟩
    · exact ⟨_, h.2.2.2, rfl⟩
    · exact ih d hd

theorem nulFree_urlText (x : CStr) : NulFree (urlText x) := by
  intro hmem
  obtain ⟨n, hn, heq⟩ := urlText_digits x 0 hmem
  exact (urlChar_ne n hn).1 heq.symm

/-- No equals sign is a digit. -/
theorem padding_not_mem (x : CStr) : (61 : UInt8) ∉ urlText x := by
  intro hmem
  obtain ⟨n, hn, heq⟩ := urlText_digits x 61 hmem
  exact (urlChar_ne n hn).2 heq.symm

/-- Base64 is the URL-safe text in the other alphabet, and the padding. -/
theorem base64Text_eq (x : CStr) :
    base64Text x = (urlText x).map fromUrl ++ List.replicate (padding x.length) 61 := by
  induction x using urlText.induct with
  | case1 => rfl
  | case2 a =>
    have h := digits_lt a 0 0
    rw [base64Text, urlText, List.map_cons, List.map_cons, fromUrl_urlChar _ h.1,
      fromUrl_urlChar _ (by omega)]
    rfl
  | case3 a b =>
    have h := digits_lt a b 0
    rw [base64Text, urlText, List.map_cons, List.map_cons, List.map_cons,
      fromUrl_urlChar _ h.1, fromUrl_urlChar _ h.2.1, fromUrl_urlChar _ (by omega)]
    rfl
  | case4 a b c rest ih =>
    have h := digits_lt a b c
    have hpad : padding (a :: b :: c :: rest).length = padding rest.length := by
      simp only [padding, List.length_cons]
      omega
    rw [base64Text, urlText, hpad, List.map_cons, List.map_cons, List.map_cons, List.map_cons,
      fromUrl_urlChar _ h.1, fromUrl_urlChar _ h.2.1, fromUrl_urlChar _ h.2.2.1,
      fromUrl_urlChar _ h.2.2.2, ih]
    rfl

theorem length_urlText (x : CStr) : (urlText x).length = (4 * x.length + 2) / 3 := by
  induction x using urlText.induct with
  | case1 => rfl
  | case2 a => simp [urlText]
  | case3 a b => simp [urlText]
  | case4 a b c rest ih =>
    simp only [urlText, List.length_cons, ih]
    omega

theorem length_base64Text (x : CStr) :
    (base64Text x).length = (urlText x).length + padding x.length := by
  rw [base64Text_eq, List.length_append, List.length_map, List.length_replicate]

/-- A group of four digits. -/
theorem base64Groups_digits {a b c d : Nat} (ha : a < 64) (hb : b < 64) (hc : c < 64)
    (hd : d < 64) (rest : CStr) :
    base64Groups (base64Char a :: base64Char b :: base64Char c :: base64Char d :: rest)
      = (base64Groups rest).map fun data =>
          ((((a * 64 + b) * 64 + c) * 64 + d) / 65536).toUInt8 ::
            ((((a * 64 + b) * 64 + c) * 64 + d) / 256 % 256).toUInt8 ::
            ((((a * 64 + b) * 64 + c) * 64 + d) % 256).toUInt8 :: data := by
  rw [base64Groups]
  · simp only [base64Digit_base64Char _ ha, base64Digit_base64Char _ hb,
      base64Digit_base64Char _ hc, base64Digit_base64Char _ hd, Option.bind_eq_bind,
      Option.bind_some, Option.pure_def]
    cases base64Groups rest <;> rfl
  · intro _ heq
    exact absurd heq (base64Char_ne _ hd).2
  · intro heq
    exact absurd heq (base64Char_ne _ hd).2

/-- What was encoded is decoded. -/
theorem base64Groups_base64Text (x : CStr) : base64Groups (base64Text x) = some x := by
  induction x using urlText.induct with
  | case1 => rfl
  | case2 a =>
    have h := digits_lt a 0 0
    have hbyte : (a.toNat / 4 * 64 + a.toNat % 4 * 16) / 16 = a.toNat := by omega
    rw [base64Text, base64Groups, base64Digit_base64Char _ h.1,
      base64Digit_base64Char _ (by omega)]
    simp [hbyte]
  | case3 a b =>
    have h := digits_lt a b 0
    have hb := b.toNat_lt
    have hfirst : ((a.toNat / 4 * 64 + (a.toNat % 4 * 16 + b.toNat / 16)) * 64
        + b.toNat % 16 * 4) / 1024 = a.toNat := by omega
    have hsecond : ((a.toNat / 4 * 64 + (a.toNat % 4 * 16 + b.toNat / 16)) * 64
        + b.toNat % 16 * 4) / 4 % 256 = b.toNat := by omega
    rw [base64Text, base64Groups, base64Digit_base64Char _ h.1,
      base64Digit_base64Char _ h.2.1, base64Digit_base64Char _ (by omega)]
    · simp [hfirst, hsecond]
    · exact fun heq => absurd heq (base64Char_ne _ (by omega)).2
  | case4 a b c rest ih =>
    have h := digits_lt a b c
    have hb := b.toNat_lt
    have hc := c.toNat_lt
    have hfirst : (((a.toNat / 4 * 64 + (a.toNat % 4 * 16 + b.toNat / 16)) * 64
        + (b.toNat % 16 * 4 + c.toNat / 64)) * 64 + c.toNat % 64) / 65536 = a.toNat := by omega
    have hsecond : (((a.toNat / 4 * 64 + (a.toNat % 4 * 16 + b.toNat / 16)) * 64
        + (b.toNat % 16 * 4 + c.toNat / 64)) * 64 + c.toNat % 64) / 256 % 256 = b.toNat := by
      omega
    have hthird : (((a.toNat / 4 * 64 + (a.toNat % 4 * 16 + b.toNat / 16)) * 64
        + (b.toNat % 16 * 4 + c.toNat / 64)) * 64 + c.toNat % 64) % 256 = c.toNat := by omega
    rw [base64Text, base64Groups_digits h.1 h.2.1 h.2.2.1 h.2.2.2, ih, hfirst, hsecond, hthird]
    simp

/-! ## Encoding -/

theorem map_toUrl_base64Text (x : CStr) :
    (base64Text x).map toUrl = urlText x ++ List.replicate (padding x.length) 61 := by
  have hdigits : ((urlText x).map fromUrl).map toUrl = urlText x := by
    have hself : ∀ c ∈ urlText x, toUrl (fromUrl c) = c := by
      intro c hc
      obtain ⟨n, hn, rfl⟩ := urlText_digits x c hc
      rw [fromUrl_urlChar n hn, toUrl_base64Char n hn]
    rw [List.map_map]
    exact (List.map_congr_left hself).trans (List.map_id _)
  rw [base64Text_eq, List.map_append, hdigits, List.map_replicate]
  rfl

theorem nulFree_base64Text (x : CStr) : NulFree (base64Text x) := by
  intro hmem
  rw [base64Text_eq, List.mem_append, List.mem_map] at hmem
  rcases hmem with ⟨c, hc, heq⟩ | hmem
  · obtain ⟨n, hn, rfl⟩ := urlText_digits x c hc
    rw [fromUrl_urlChar n hn] at heq
    exact (base64Char_ne n hn).1 heq
  · exact absurd (List.eq_of_mem_replicate hmem) (by decide)

theorem toUrl_eq_zero (c : UInt8) : toUrl c = 0 ↔ c = 0 := by
  rw [toUrl]
  split
  · rename_i h
    rw [h]
    decide
  · split
    · rename_i h
      rw [h]
      decide
    · rfl

/-- The codec writes base64 and its terminator, if there is room for both. -/
theorem mbedtlsBase64Encode_text {x : CStr} {n : Nat} (hn : 0 < n) {dst : Block} {olen : Nat}
    (h : mbedtlsBase64Encode (Block.calloc n) n x = some (some (dst, olen))) :
    dst.text = some (base64Text x) := by
  rw [mbedtlsBase64Encode] at h
  split at h
  · rename_i hx
    cases h
    obtain ⟨m, rfl⟩ := Nat.exists_eq_succ_of_ne_zero (by omega : n ≠ 0)
    rw [hx]
    rfl
  · split at h
    · cases h
    · obtain ⟨b, hb, heq⟩ := Option.map_eq_some_iff.mp h
      cases heq
      obtain ⟨-, rfl⟩ := Block.store_eq hb
      rw [List.take_zero, List.nil_append, List.map_append, List.append_assoc]
      exact Block.text_append_zero (nulFree_base64Text x) _

theorem mbedtlsBase64Encode_fits {x : CStr} {n : Nat} (h : (base64Text x).length < n) :
    ∃ r, mbedtlsBase64Encode (Block.calloc n) n x = some (some r) := by
  rw [mbedtlsBase64Encode]
  split
  · exact ⟨_, rfl⟩
  · rw [if_neg (by omega), Block.store_zero (by simp [Block.calloc]; omega)]
    exact ⟨_, rfl⟩

/-- The string is cut off at the first equals sign that the loop gets to. -/
theorem cutPadding_text {b : Block} {s : CStr} (h : b.text = some s) (len : Int) :
    (cutPadding b s len).bind Block.text
      = some (if 61 ∈ s.take len.toNat then s.takeWhile (· != 61) else s) := by
  rw [cutPadding]
  cases hfind : (s.take len.toNat).findIdx? (· = 61) with
  | none =>
    rw [List.findIdx?_eq_none_iff] at hfind
    rw [if_neg fun hmem => absurd (hfind 61 hmem) (by decide)]
    exact h
  | some i =>
    obtain ⟨hlt, heq, hbefore⟩ := List.findIdx?_eq_some_iff_getElem.mp hfind
    have hlen : i < s.length := by
      rw [List.length_take] at hlt
      omega
    have hget : s[i] = 61 := by simpa using heq
    have hsplit : s = s.take i ++ 61 :: s.drop (i + 1) := by
      rw [← hget, List.getElem_cons_drop, List.take_append_drop]
    have hnone : 61 ∉ s.take i := by
      intro hmem
      obtain ⟨j, hj, hj61⟩ := List.mem_iff_getElem.mp hmem
      rw [List.length_take] at hj
      rw [List.getElem_take] at hj61
      exact hbefore j (by omega) (by simpa using hj61)
    have hmem : 61 ∈ s.take len.toNat := List.mem_of_getElem (of_decide_eq_true heq)
    have hcut : s.takeWhile (· != 61) = s.take i := by
      conv_lhs => rw [hsplit]
      exact takeWhile_ne_append hnone
    rw [if_pos hmem, hcut]
    rw [hsplit] at h
    have hstored := Block.text_store_zero h
    rwa [List.length_take, Nat.min_eq_left hlen.le] at hstored

theorem pvBase64RemovePaddingMulti4_text {b : Block} {s : CStr} (h : b.text = some s) :
    (pvBase64RemovePaddingMulti4 b).bind Block.text
      = some (if 61 ∈ s.take (intOfSize s.length).toNat then s.takeWhile (· != 61) else s) := by
  rw [pvBase64RemovePaddingMulti4, h, Option.bind_some, cutPadding_text h]

theorem takeWhile_urlText (x rest : CStr) :
    (urlText x ++ 61 :: rest).takeWhile (· != 61) = urlText x :=
  takeWhile_ne_append (padding_not_mem x)

/-- The size of the block to encode into. -/
theorem encodedSize (n : Nat) :
    wrapSize (wrapSize (n * 4) / 3 + 4) = wrapSize (n * 4) / 3 + 4 := by
  have hlt := wrapSize_lt (n * 4)
  exact wrapSize_eq (by omega)

/-- What is encoded, where the loop over an `int` may not get to the padding. -/
theorem pvBase64UrlEncode_text {x : CStr} {dst : Block} {olen : Nat}
    (h : pvBase64UrlEncode x = some (some (dst, olen))) :
    dst.text = some
      (if 61 ∈ ((base64Text x).map toUrl).take (intOfSize (base64Text x).length).toNat
        then urlText x else (base64Text x).map toUrl) := by
  rw [pvBase64UrlEncode, encodedSize] at h
  obtain ⟨r, hr, h⟩ := Option.bind_eq_some_iff.mp h
  cases r with
  | none => cases h
  | some r =>
    obtain ⟨b, o⟩ := r
    obtain ⟨c, hc, heq⟩ := Option.bind_eq_some_iff.mp h
    cases heq
    have htext := Block.text_map_map toUrl_eq_zero (mbedtlsBase64Encode_text (by omega) hr)
    have hcut := pvBase64RemovePaddingMulti4_text htext
    rw [hc, Option.bind_some, List.length_map] at hcut
    rw [hcut]
    split
    · rename_i hmem
      rw [map_toUrl_base64Text] at hmem ⊢
      cases hpad : padding x.length with
      | zero =>
        rw [hpad, List.replicate_zero, List.append_nil] at hmem
        exact absurd (List.mem_of_mem_take hmem) (padding_not_mem x)
      | succ n => rw [List.replicate_succ, takeWhile_urlText]
    · rfl

theorem exists_pvBase64UrlEncode {x : CStr} (h : x.length < 2 ^ 62) :
    ∃ r, pvBase64UrlEncode x = some (some r) := by
  have hsize : wrapSize (x.length * 4) = x.length * 4 := wrapSize_eq (by omega)
  have hfits : (base64Text x).length < x.length * 4 / 3 + 4 := by
    rw [length_base64Text, length_urlText, padding]
    omega
  obtain ⟨⟨b, olen⟩, hr⟩ := mbedtlsBase64Encode_fits hfits
  have htext := Block.text_map_map toUrl_eq_zero (mbedtlsBase64Encode_text (by omega) hr)
  obtain ⟨c, hc, -⟩ := Option.bind_eq_some_iff.mp (pvBase64RemovePaddingMulti4_text htext)
  rw [pvBase64UrlEncode, encodedSize, hsize, hr]
  exact ⟨(c, olen), by simp [hc]⟩

/-! ## Decoding -/

theorem take_strdup (s : CStr) : (Block.strdup s).take s.length = s.map some := by
  rw [Block.strdup, List.map_append]
  exact List.take_left' (by simp)

/-- The equals signs take the place of the terminator, or of more. -/
theorem pad_text {s : CStr} (h : NulFree s) {m n : Nat} (hm : m ≤ s.length) (hn : 0 < n) :
    (pad (Block.strdup s) m n).bind Block.text = none := by
  have hnul : NulFree (s.take m ++ List.replicate n 61) := by
    intro hmem
    rcases List.mem_append.mp hmem with hmem | hmem
    · exact h (List.mem_of_mem_take hmem)
    · exact absurd (List.eq_of_mem_replicate hmem) (by decide)
  have hlen : ((m : Int) + n).toNat = m + n := by omega
  have hroom : m ≤ (Block.strdup s).length := by simp [Block.strdup]; omega
  have htake : (Block.strdup s).take m = (s.take m).map some := by
    rw [Block.strdup, List.map_append, List.take_append_of_le_length (by simpa using hm),
      List.map_take]
  rw [pad, hlen, Int.toNat_natCast, Block.store,
    if_pos (by rw [Block.length_realloc, List.length_replicate]), Option.bind_some,
    Block.take_realloc (by omega) hroom, htake, List.length_replicate,
    List.drop_eq_nil_of_le (by rw [Block.length_realloc]), List.append_nil, ← List.map_append]
  exact Block.text_map_eq_none hnul

theorem paddingOf_eq_zero_iff {s : CStr} :
    paddingOf s = 0 ↔ ¬ s.length % 2 ^ 32 < 2 ^ 31 ∨ s.length % 4 ≤ 1 := by
  rw [paddingOf]
  split
  · rename_i hint
    rw [or_iff_right (not_not.mpr hint)]
    rcases (by omega : s.length % 4 = 0 ∨ s.length % 4 = 1 ∨ s.length % 4 = 2 ∨ s.length % 4 = 3)
      with h | h | h | h <;> rw [h] <;> decide
  · rename_i hint
    exact ⟨fun _ => .inl hint, fun _ => rfl⟩

/-- A text that needs padding is left without a terminator. -/
theorem pvBase64AddPaddingMulti4_padded {s : CStr} (h : NulFree s) (hpad : paddingOf s ≠ 0) :
    (pvBase64AddPaddingMulti4 (Block.strdup s)).bind Block.text = none := by
  rw [Ne, paddingOf_eq_zero_iff, not_or, not_not, not_le] at hpad
  obtain ⟨hlt, hmod⟩ := hpad
  have hle : s.length % 2 ^ 32 ≤ s.length := Nat.mod_le _ _
  rw [pvBase64AddPaddingMulti4, Block.text_strdup h, Option.bind_some, intOfSize_of_lt hlt,
    addPadding, Int.tmod_eq_emod_of_nonneg (by omega)]
  rcases (by omega : s.length % 4 = 2 ∨ s.length % 4 = 3) with hmod | hmod
  · rw [show ((s.length % 2 ^ 32 : Nat) : Int) % 4 = 2 by omega]
    exact pad_text h hle (by decide)
  · rw [show ((s.length % 2 ^ 32 : Nat) : Int) % 4 = 3 by omega]
    exact pad_text h hle (by decide)

/-- Another one stays as it is. -/
theorem pvBase64AddPaddingMulti4_whole {s : CStr} (h : NulFree s) (hpad : paddingOf s = 0) :
    pvBase64AddPaddingMulti4 (Block.strdup s) = some (Block.strdup s) := by
  have hrem : (intOfSize s.length).tmod 4 ≤ 1 := by
    by_cases hlt : s.length % 2 ^ 32 < 2 ^ 31
    · have hmod := (paddingOf_eq_zero_iff.mp hpad).resolve_left (not_not.mpr hlt)
      rw [intOfSize_of_lt hlt, Int.tmod_eq_emod_of_nonneg (by omega)]
      omega
    · have hneg := intOfSize_neg hlt
      have hnonneg := Int.tmod_nonneg 4 (a := -intOfSize s.length) (by omega)
      rw [Int.neg_tmod] at hnonneg
      omega
  rw [pvBase64AddPaddingMulti4, Block.text_strdup h, Option.bind_some, addPadding]
  split
  · omega
  · omega
  · rfl

theorem fromUrl_eq_zero (c : UInt8) : fromUrl c = 0 ↔ c = 0 := by
  rw [fromUrl]
  split
  · rename_i h
    rw [h]
    decide
  · split
    · rename_i h
      rw [h]
      decide
    · rfl

variable {decode : CStr → Option CStr}

theorem pvBase64UrlDecode_padded {s : CStr} (h : NulFree s) (hpad : paddingOf s ≠ 0) :
    pvBase64UrlDecode decode s = none := by
  have hpadded := pvBase64AddPaddingMulti4_padded h hpad
  rw [pvBase64UrlDecode]
  cases hitmp : pvBase64AddPaddingMulti4 (Block.strdup s) with
  | none => rfl
  | some itmp =>
    rw [hitmp, Option.bind_some] at hpadded
    simp [hpadded]

theorem pvBase64UrlDecode_whole {s : CStr} (h : NulFree s) (hpad : paddingOf s = 0) :
    pvBase64UrlDecode decode s = pvBase64Decode decode (s.map fromUrl) := by
  have hdrop : (Block.strdup s).drop s.length = [some 0] := by
    rw [Block.strdup, List.map_append]
    exact List.drop_left' (by simp)
  have hnul : NulFree (s.map fromUrl) := by
    intro hmem
    obtain ⟨c, hc, h0⟩ := List.mem_map.mp hmem
    exact h ((fromUrl_eq_zero c).mp h0 ▸ hc)
  have hmap : ((s.map some).map (Option.map fromUrl)) = (s.map fromUrl).map some := by
    rw [List.map_map, List.map_map]
    rfl
  simp only [pvBase64UrlDecode, pvBase64AddPaddingMulti4_whole h hpad, Option.bind_eq_bind,
    Option.bind_some, Block.text_strdup h, take_strdup, hdrop, hmap,
    Block.text_append_zero hnul]

/-- The data of a text fits, if the block is as long. -/
theorem mbedtlsBase64Decode_eq {s x : CStr} (hs : decode s = some x) (n : Nat) :
    mbedtlsBase64Decode decode (Block.calloc n) n s
      = if n < x.length then some none
        else some (some (x.map some ++ (Block.calloc n).drop x.length, x.length)) := by
  rw [mbedtlsBase64Decode, hs]
  show (if n < x.length then some none else _) = _
  split
  · rfl
  · rw [Block.store_zero (by rw [Block.calloc, List.length_replicate]; omega)]
    rfl

/-! ## The strings of the signature model -/

variable {env : Signature.Env}

theorem upToInt_eq (s : CStr) : Signature.upToInt s = s.take (intOfSize s.length).toNat := by
  rw [Signature.upToInt]
  split
  · rename_i hlt
    rw [intOfSize_of_lt hlt, Int.toNat_natCast]
  · rename_i hlt
    have hneg := intOfSize_neg hlt
    rw [Int.toNat_of_nonpos (by omega), List.take_zero]

/-- Where the signature model works with strings, it has the encoded text. -/
theorem signature_pvBase64UrlEncode {x : CStr} (h : env.base64Encode x = base64Text x)
    {dst : Block} {olen : Nat} (hencode : pvBase64UrlEncode x = some (some (dst, olen))) :
    dst.text = some (Signature.pvBase64UrlEncode env x) := by
  rw [pvBase64UrlEncode_text hencode, Signature.pvBase64UrlEncode, h]
  show _ = some (if 61 ∈ Signature.upToInt ((base64Text x).map toUrl) then
    ((base64Text x).map toUrl).takeWhile (· != 61) else (base64Text x).map toUrl)
  rw [upToInt_eq, List.length_map]
  split
  · rename_i hmem
    rw [map_toUrl_base64Text] at hmem ⊢
    cases hpad : padding x.length with
    | zero =>
      rw [hpad, List.replicate_zero, List.append_nil] at hmem
      exact absurd (List.mem_of_mem_take hmem) (padding_not_mem x)
    | succ n =>
      rw [List.replicate_succ, takeWhile_urlText]
  · rfl

/-- It has a fault where the string in the block has no end. -/
theorem signature_pvBase64AddPaddingMulti4 {s : CStr} (h : NulFree s) :
    (pvBase64AddPaddingMulti4 (Block.strdup s)).bind Block.text
      = Signature.pvBase64AddPaddingMulti4 env.bounded s := by
  rw [Signature.pvBase64AddPaddingMulti4]
  split
  · rename_i hpad
    rw [pvBase64AddPaddingMulti4_whole h hpad, Option.bind_some, Block.text_strdup h]
  · rename_i hpad
    exact pvBase64AddPaddingMulti4_padded h hpad

/-- Decoded data in its block. -/
def blockOf (data : CStr) (size : Nat) : Block :=
  data.map some ++ (Block.calloc size).drop data.length

/-- It decodes to the same data, in a block of the same size. -/
theorem signature_pvBase64UrlDecode {s : CStr} (h : NulFree s) :
    pvBase64UrlDecode env.base64Decode s
      = (Signature.pvBase64UrlDecode env.bounded s).map
          (Option.map fun d => (blockOf d.1 d.2, d.1.length)) := by
  rw [Signature.pvBase64UrlDecode, Signature.pvBase64AddPaddingMulti4]
  split
  · rename_i hpad
    rw [pvBase64UrlDecode_whole h hpad, pvBase64Decode, Option.map_some, Option.map_some]
    show _ = some ((Signature.pvBase64Decode env (s.map fromUrl)).map _)
    rw [Signature.pvBase64Decode]
    cases hdata : env.base64Decode (s.map fromUrl) with
    | none =>
      rw [mbedtlsBase64Decode, hdata]
      rfl
    | some data =>
      rw [mbedtlsBase64Decode_eq hdata]
      dsimp only
      split <;> rfl
  · rename_i hpad
    rw [pvBase64UrlDecode_padded h hpad]
    rfl

/-- And it reads the same string from that block. -/
theorem text_blockOf {data : CStr} {size : Nat} (h : data.length ≤ size) :
    (blockOf data size).text = Signature.textOf data size := by
  have hrest : (Block.calloc size).drop data.length
      = List.replicate (size - data.length) (some 0) := List.drop_replicate
  rw [Signature.textOf, blockOf, hrest]
  by_cases hzero : (0 : UInt8) ∈ data
  · -- the string ends in the data
    rw [if_pos (.inl hzero)]
    obtain ⟨pre, post, rfl, hpre⟩ := List.eq_append_cons_of_mem hzero
    have hcstr : cstrAt (pre ++ 0 :: post) 0 = pre := takeWhile_ne_append hpre
    rw [hcstr, List.map_append, List.append_assoc]
    exact Block.text_append_zero hpre _
  · by_cases hlt : data.length < size
    · obtain ⟨n, hn⟩ := Nat.exists_eq_succ_of_ne_zero (by omega : size - data.length ≠ 0)
      rw [if_pos (.inr hlt), cstrAt_zero hzero, hn, List.replicate_succ]
      exact Block.text_append_zero hzero _
    · rw [if_neg (not_or.mpr ⟨hzero, hlt⟩), show size - data.length = 0 by omega,
        List.replicate_zero, List.append_nil]
      exact Block.text_map_eq_none hzero

/-! ## The round trip -/

/-- A string is encoded to its URL-safe base64, and that is decoded to the string and its
length, with nothing undefined on the way. -/
structure RoundTrips (decode : CStr → Option CStr) (x : CStr) : Prop where
  encoded : ∃ dst olen, pvBase64UrlEncode x = some (some (dst, olen)) ∧
    dst.text = some (urlText x)
  decoded : ∃ dst olen, pvBase64UrlDecode decode (urlText x) = some (some (dst, olen)) ∧
    olen = x.length ∧ dst.take olen = x.map some

/-- Base64 of whole groups of three is the URL-safe text in the other alphabet. -/
theorem base64Text_whole {x : CStr} (h : x.length % 3 = 0) :
    (urlText x).map fromUrl = base64Text x := by
  have hpad : padding x.length = 0 := by
    rw [padding]
    omega
  rw [base64Text_eq, hpad, List.replicate_zero, List.append_nil]

/-- The block for the data is large enough, unless its size wraps around. -/
theorem decodedSize_lt_iff (m : Nat) :
    (wrapSize (4 * (4 * m)) / 3 + 3) / 4 * 4 < 3 * m ↔ 2 ^ 60 ≤ m := by
  unfold wrapSize
  omega

theorem pvBase64UrlDecode_urlText (hcodec : ∀ x, decode (base64Text x) = some x) {x : CStr}
    (h : x.length % 3 = 0) :
    pvBase64UrlDecode decode (urlText x) =
      if 3 * 2 ^ 60 ≤ x.length then some none
      else some (some (x.map some ++ (Block.calloc
        ((wrapSize (4 * (base64Text x).length) / 3 + 3) / 4 * 4)).drop x.length, x.length)) := by
  obtain ⟨m, hm⟩ : ∃ m, x.length = 3 * m := ⟨x.length / 3, by omega⟩
  have hlen : (base64Text x).length = 4 * m := by
    rw [length_base64Text, length_urlText, padding]
    omega
  have hmod : (urlText x).length % 4 = 0 := by
    rw [length_urlText]
    omega
  rw [pvBase64UrlDecode_whole (nulFree_urlText x) (paddingOf_eq_zero_iff.mpr (by omega)),
    base64Text_whole h, pvBase64Decode,
    mbedtlsBase64Decode_eq (hcodec x), hlen, hm]
  have hiff := decodedSize_lt_iff m
  by_cases hsize : 2 ^ 60 ≤ m
  · rw [if_pos (hiff.mpr hsize), if_pos (by omega)]
  · rw [if_neg fun hlt => hsize (hiff.mp hlt), if_neg (by omega)]

/-- With padding the round trip fails: the decoder runs out of the block, or the encoder, in
a text that an `int` is too narrow for, leaves the padding. -/
theorem not_roundTrips_padded {x : CStr} (hmod : x.length % 3 ≠ 0) : ¬ RoundTrips decode x := by
  rintro ⟨⟨dst, olen, henc, htext⟩, out, n, hdec, -, -⟩
  have hlen := length_base64Text x
  have hurl := length_urlText x
  have hpad : 0 < padding x.length ∧ padding x.length ≤ 2 := by
    rw [padding]
    omega
  have hgroups : (urlText x).length % 4 = 2 ∨ (urlText x).length % 4 = 3 := by
    rcases (by omega : x.length % 3 = 1 ∨ x.length % 3 = 2) with h | h
    · exact .inl (by omega)
    · exact .inr (by omega)
  by_cases hlt : (base64Text x).length < 2 ^ 31
  · have hpadded : pvBase64UrlDecode decode (urlText x) = none :=
      pvBase64UrlDecode_padded (nulFree_urlText x) (by rw [Ne, paddingOf_eq_zero_iff]; omega)
    rw [hpadded] at hdec
    cases hdec
  · have hint := intOfSize_le (Nat.le_of_not_lt hlt)
    have hshort : (intOfSize (base64Text x).length).toNat ≤ (urlText x).length := by omega
    have henc := pvBase64UrlEncode_text henc
    rw [map_toUrl_base64Text, List.take_append_of_le_length hshort,
      if_neg fun hmem => padding_not_mem x (List.mem_of_mem_take hmem), htext] at henc
    have hsame := congrArg List.length (Option.some.inj henc)
    rw [List.length_append, List.length_replicate] at hsame
    omega

/-- **A string makes the round trip** through URL-safe base64 just if nothing is padded and
no size wraps around. -/
theorem roundTrips_iff (hcodec : ∀ x, decode (base64Text x) = some x) (x : CStr) :
    RoundTrips decode x ↔ x.length % 3 = 0 ∧ x.length < 3 * 2 ^ 60 := by
  constructor
  · intro h
    have hmod : x.length % 3 = 0 := by
      by_contra hmod
      exact not_roundTrips_padded hmod h
    refine ⟨hmod, ?_⟩
    by_contra hge
    obtain ⟨out, n, hdec, -, -⟩ := h.decoded
    rw [pvBase64UrlDecode_urlText hcodec hmod, if_pos (by omega)] at hdec
    cases hdec
  · rintro ⟨hmod, hlt⟩
    constructor
    · obtain ⟨⟨dst, olen⟩, henc⟩ := exists_pvBase64UrlEncode (show x.length < 2 ^ 62 by omega)
      have hpad : padding x.length = 0 := by
        rw [padding]
        omega
      have htext := pvBase64UrlEncode_text henc
      rw [map_toUrl_base64Text, hpad, List.replicate_zero, List.append_nil, ite_self] at htext
      exact ⟨dst, olen, henc, htext⟩
    · refine ⟨_, _, by rw [pvBase64UrlDecode_urlText hcodec hmod, if_neg (by omega)], rfl, ?_⟩
      exact List.take_left' (by simp)

theorem roundTrips_three : RoundTrips base64Groups (str "pvs") :=
  (roundTrips_iff base64Groups_base64Text (str "pvs")).mpr (by decide)

/-- The two digits of one byte are put into a block of four, without a terminator. -/
theorem one_byte_runs_over : ¬ RoundTrips base64Groups (str "a") :=
  not_roundTrips_padded (by decide)

end Pantavisor.Base64
