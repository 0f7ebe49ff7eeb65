/-
Pantavisor.Storage.Checksum — the two comparisons of a file's SHA-256 with a
string of hexadecimal digits: `pv_storage_validate_file_checksum`, for stored
files, and the one in `trail_download_object`, for downloaded ones.

Both decode the string in steps of two characters with `strtoul`. The second
compares the 32 bytes one by one; the first hands them to `strncmp`, which
stops at a byte that is zero in both. So the two agree, and are right, except
for digests that differ only behind such a byte (`checksum_exact_iff`).

The digest itself is a parameter, a function from contents to bytes.
-/
import Pantavisor.Lib.CString
import Mathlib.Algebra.Group.Nat.Defs

namespace Pantavisor.Storage

open Pantavisor.Lib

/-! ## Hexadecimal digits -/

/-- The value of a hexadecimal digit. -/
def hexValue (c : UInt8) : Option Nat :=
  if 48 ≤ c ∧ c ≤ 57 then some (c.toNat - 48)
  else if 97 ≤ c ∧ c ≤ 102 then some (c.toNat - 87)
  else if 65 ≤ c ∧ c ≤ 70 then some (c.toNat - 55)
  else none

/-- The bytes that a string of hexadecimal digits stands for. -/
def hexDecode : CStr → Option (List UInt8)
  | [] => some []
  | [_] => none
  | a :: b :: rest => do
    let high ← hexValue a
    let low ← hexValue b
    return (16 * high + low).toUInt8 :: (← hexDecode rest)

/-- The digits of a number as far as `strtoul` takes them. -/
def hexDigits (acc : Nat) : CStr → Nat
  | [] => acc
  | c :: rest =>
    match hexValue c with
    | none => acc
    | some v => hexDigits (acc * 16 + v) rest

/-- `strtoul(s, NULL, 16)` of at most two characters, as an `unsigned char`. -/
def strtoul16 (s : CStr) : UInt8 :=
  match s.dropWhile fun c => c = 32 || (9 ≤ c && c ≤ 13) with
  | 45 :: rest => (2 ^ 64 - hexDigits 0 rest).toUInt8
  | 43 :: rest => (hexDigits 0 rest).toUInt8
  | rest => (hexDigits 0 rest).toUInt8

/-- The bytes that the decoding loops get from a string, two characters each. -/
def cloudSha : CStr → List UInt8
  | [] => []
  | [a] => [strtoul16 [a]]
  | a :: b :: rest => strtoul16 [a, b] :: cloudSha rest

/-! ## The two checks -/

/-- `strncmp(a, b, n) == 0` -/
def strncmpEq : Nat → List UInt8 → List UInt8 → Bool
  | 0, _, _ => true
  | n + 1, a :: as, b :: bs => if a ≠ b then false else if a = 0 then true else strncmpEq n as bs
  | _ + 1, _, _ => true

/-- The 32 bytes that `pv_storage_validate_file_checksum` decodes; `none` where
it reads behind the string. -/
def storedSha (checksum : CStr) : Option (List UInt8) :=
  if checksum.length < 62 then none else some ((cloudSha checksum ++ [0]).take 32)

/-- `pv_storage_validate_file_checksum` of a file with these contents, or of one
that cannot be opened. -/
def pvStorageValidateFileChecksum (sha256 : CStr → List UInt8) (file : Option CStr)
    (checksum : CStr) : Option Int :=
  match file with
  | none => some (-1)
  | some contents =>
    match storedSha checksum with
    | none => none
    | some cloud => some (if strncmpEq 32 cloud (sha256 contents) then 0 else -1)

/-- The comparison in `trail_download_object` of the digest of the download with
the string from the server; `none` where it writes behind `cloud_sha` or reads
what it did not write. -/
def downloadShaMatches (localSha : List UInt8) (checksum : CStr) : Option Bool :=
  if (cloudSha checksum).length = 32 then some (decide (cloudSha checksum = localSha)) else none

/-! ## Strings of digits -/

theorem hexValue_plain {c : UInt8} {v : Nat} (h : hexValue c = some v) :
    (c = 32 || (9 ≤ c && c ≤ 13)) = false ∧ c ≠ 45 ∧ c ≠ 43 := by
  have hc : 48 ≤ c := by
    by_contra hlt
    have h48 : ¬ 48 ≤ c.toNat := fun hle => hlt (UInt8.le_iff_toNat_le.mpr hle)
    have h97 : ¬ 97 ≤ c := fun hle => by
      have := UInt8.le_iff_toNat_le.mp hle
      simp at this
      omega
    have h65 : ¬ 65 ≤ c := fun hle => by
      have := UInt8.le_iff_toNat_le.mp hle
      simp at this
      omega
    simp [hexValue, hlt, h97, h65] at h
  have hn := UInt8.le_iff_toNat_le.mp hc
  simp only [UInt8.reduceToNat] at hn
  refine ⟨?_, ?_, ?_⟩
  · simp only [Bool.or_eq_false_iff, decide_eq_false_iff_not, Bool.and_eq_false_iff]
    refine ⟨fun h => ?_, .inr fun h => ?_⟩
    · rw [h] at hn; simp at hn
    · have := UInt8.le_iff_toNat_le.mp h
      simp at this
      omega
  · rintro rfl; simp at hn
  · rintro rfl; simp at hn

/-- `strtoul` of two digits is the byte they stand for. -/
theorem strtoul16_digits {a b : UInt8} {x y : Nat} (ha : hexValue a = some x)
    (hb : hexValue b = some y) : strtoul16 [a, b] = (16 * x + y).toUInt8 := by
  obtain ⟨hspace, hminus, hplus⟩ := hexValue_plain ha
  have hdrop : [a, b].dropWhile (fun c => c = 32 || (9 ≤ c && c ≤ 13)) = [a, b] := by
    rw [List.dropWhile_cons, if_neg (by rw [hspace]; decide)]
  have hdigits : hexDigits 0 [a, b] = 16 * x + y := by
    simp [hexDigits, ha, hb, Nat.mul_comm]
  unfold strtoul16
  rw [hdrop]
  split
  · rename_i h
    exact absurd (List.cons.inj h).1 hminus
  · rename_i h
    exact absurd (List.cons.inj h).1 hplus
  · rw [hdigits]

/-- The loops decode a string of digits to the bytes it stands for. -/
theorem cloudSha_digits {s : CStr} {bytes : List UInt8} (h : hexDecode s = some bytes) :
    cloudSha s = bytes := by
  induction s using cloudSha.induct generalizing bytes with
  | case1 => simpa [hexDecode, cloudSha] using h
  | case2 a => simp [hexDecode] at h
  | case3 a b rest ih =>
    simp only [hexDecode, Option.bind_eq_bind, Option.pure_def] at h
    obtain ⟨x, hx, h⟩ := Option.bind_eq_some_iff.mp h
    obtain ⟨y, hy, h⟩ := Option.bind_eq_some_iff.mp h
    obtain ⟨tail, htail, h⟩ := Option.bind_eq_some_iff.mp h
    rw [cloudSha, strtoul16_digits hx hy, ih htail]
    exact Option.some.inj h

theorem length_hexDecode {s : CStr} {bytes : List UInt8} (h : hexDecode s = some bytes) :
    s.length = 2 * bytes.length := by
  induction s using cloudSha.induct generalizing bytes with
  | case1 =>
    simp only [hexDecode, Option.some.injEq] at h
    simp [← h]
  | case2 a => simp [hexDecode] at h
  | case3 a b rest ih =>
    simp only [hexDecode, Option.bind_eq_bind, Option.pure_def] at h
    obtain ⟨x, -, h⟩ := Option.bind_eq_some_iff.mp h
    obtain ⟨y, -, h⟩ := Option.bind_eq_some_iff.mp h
    obtain ⟨tail, htail, h⟩ := Option.bind_eq_some_iff.mp h
    have := ih htail
    rw [← Option.some.inj h]
    simp only [List.length_cons]
    omega

/-! ## When the checks are exact -/

/-- The two differ, but are the same up to and including a zero byte. -/
def AgreeToZero (a b : List UInt8) : Prop :=
  a ≠ b ∧ ∃ i, a.take (i + 1) = b.take (i + 1) ∧ a[i]? = some 0

/-- `strncmp` takes for equal what is, and what agrees up to a zero byte. -/
theorem strncmpEq_iff {n : Nat} {a b : List UInt8} (ha : a.length = n) (hb : b.length = n) :
    strncmpEq n a b = true ↔ a = b ∨ AgreeToZero a b := by
  induction n generalizing a b with
  | zero =>
    rw [List.length_eq_zero_iff.mp ha, List.length_eq_zero_iff.mp hb]
    simp [strncmpEq]
  | succ n ih =>
    match a, b, ha, hb with
    | x :: a, y :: b, ha, hb =>
      have ih' := ih (Nat.succ.inj ha) (Nat.succ.inj hb)
      rw [strncmpEq]
      by_cases hxy : x = y
      · subst hxy
        rw [if_neg (by simp)]
        by_cases hx : x = 0
        · -- everything behind the zero byte is left out
          rw [if_pos hx]
          simp only [true_iff]
          by_cases hab : a = b
          · exact .inl (by rw [hab])
          · exact .inr ⟨by simpa using hab, 0, by simp, by simp [hx]⟩
        · rw [if_neg hx, ih']
          constructor
          · rintro (rfl | ⟨hne, i, htake, hi⟩)
            · exact .inl rfl
            · exact .inr ⟨by simpa using hne, i + 1, by simpa using htake, by simpa using hi⟩
          · rintro (h | ⟨hne, i, htake, hi⟩)
            · exact .inl (List.cons.inj h).2
            · cases i with
              | zero => exact absurd (by simpa using hi) hx
              | succ i => exact .inr ⟨by simpa using hne, i, by simpa using htake, by simpa using hi⟩
      · rw [if_pos hxy]
        simp only [Bool.false_eq_true, false_iff]
        rintro (h | ⟨-, i, htake, -⟩)
        · exact hxy (List.cons.inj h).1
        · simp only [List.take_succ_cons, List.cons.injEq] at htake
          exact hxy htake.1

/-- The check of a stored file, for a string of 64 digits. -/
theorem validateFileChecksum_iff (sha256 : CStr → List UInt8) {file s : CStr}
    {bytes : List UInt8} (hsha : (sha256 file).length = 32) (hs : hexDecode s = some bytes)
    (hlen : bytes.length = 32) :
    pvStorageValidateFileChecksum sha256 (some file) s = some 0 ↔
      bytes = sha256 file ∨ AgreeToZero bytes (sha256 file) := by
  have hslen := length_hexDecode hs
  have hstored : storedSha s = some bytes := by
    rw [storedSha, if_neg (by omega), cloudSha_digits hs, List.take_append_of_le_length (by omega),
      List.take_of_length_le (by omega)]
  rw [pvStorageValidateFileChecksum, hstored, ← strncmpEq_iff hlen hsha]
  cases h : strncmpEq 32 bytes (sha256 file) <;> simp [h]

/-- The check of a download, for a string of 64 digits. -/
theorem downloadShaMatches_eq {s : CStr} {bytes : List UInt8} (localSha : List UInt8)
    (hs : hexDecode s = some bytes) (hlen : bytes.length = 32) :
    downloadShaMatches localSha s = some (decide (bytes = localSha)) := by
  rw [downloadShaMatches, cloudSha_digits hs, if_pos hlen]

/-- **The stored-file check is exact**, and agrees with the check of a download,
exactly when the digest does not differ from the string only behind a zero byte. -/
theorem checksum_exact_iff (sha256 : CStr → List UInt8) {file s : CStr} {bytes : List UInt8}
    (hsha : (sha256 file).length = 32) (hs : hexDecode s = some bytes)
    (hlen : bytes.length = 32) :
    ((pvStorageValidateFileChecksum sha256 (some file) s = some 0 ↔ sha256 file = bytes) ∧
      (pvStorageValidateFileChecksum sha256 (some file) s = some 0 ↔
        downloadShaMatches (sha256 file) s = some true)) ↔
      ¬ AgreeToZero bytes (sha256 file) := by
  rw [validateFileChecksum_iff sha256 hsha hs hlen, downloadShaMatches_eq _ hs hlen]
  simp only [Option.some.injEq, decide_eq_true_eq]
  constructor
  · rintro ⟨-, h⟩ hz
    exact hz.1 (h.mp (.inr hz))
  · intro hz
    refine ⟨⟨?_, fun h => .inl h.symm⟩, ⟨?_, .inl⟩⟩
    · rintro (h | h)
      · exact h.symm
      · exact absurd h hz
    · rintro (h | h)
      · exact h
      · exact absurd h hz

/-- The digest of the empty file, in digits. -/
def emptySha : CStr :=
  str "e3b0c44298fc1c14" ++ str "9afbf4c8996fb924" ++ str "27ae41e4649b934c" ++
    str "a495991b7852b855"

/-- A digest function with the value of SHA-256 at the empty file. -/
def sha256OfEmpty (_ : CStr) : List UInt8 := cloudSha emptySha

theorem length_sha256OfEmpty (c : CStr) : (sha256OfEmpty c).length = 32 :=
  (by decide +kernel : (sha256OfEmpty []).length = 32)

/-- The empty file passes both checks with its digest. -/
theorem checksum_exact_iff_empty :
    pvStorageValidateFileChecksum sha256OfEmpty (some []) emptySha = some 0 ∧
      downloadShaMatches (sha256OfEmpty []) emptySha = some true := by
  have hs : hexDecode emptySha = some (sha256OfEmpty []) := by decide +kernel
  have hexact := (checksum_exact_iff sha256OfEmpty (by decide +kernel) hs (by decide +kernel)).mpr
    fun h => h.1 rfl
  have hstored := hexact.1.mpr rfl
  exact ⟨hstored, hexact.2.mp hstored⟩

/-- A digest that starts with a zero byte passes the check of a stored file
against another one that does. -/
theorem checksum_stops_at_zero :
    ∃ digest : List UInt8, digest.length = 32 ∧
      hexDecode (List.replicate 64 48) = some (List.replicate 32 0) ∧
      digest ≠ List.replicate 32 0 ∧
      pvStorageValidateFileChecksum (fun _ => digest) (some []) (List.replicate 64 48) = some 0 ∧
      downloadShaMatches digest (List.replicate 64 48) = some false :=
  ⟨0 :: List.replicate 31 1, by decide +kernel⟩

end Pantavisor.Storage
