/-
Pantavisor.Signature.Signature — the verification of the signatures in a state
JSON (`signature.c`, and what it uses of `utils/base64.c`).

The state JSON becomes a list of pairs, one for each top-level key. A pair
whose value is an object with `#spec` `pvs@2` is a signature; its protected
header has lists of patterns that select the pairs it signs. `included` is set
anew for each signature, `covered` is kept over all of them.

A function gives `none` where the C code dereferences NULL, uses what it never
initialised, or goes behind a buffer. What is not in the repository is a field of
`Env`: the tokenizer, `fnmatch`, and the decoding and the public key operations of
mbedtls. `behind` is what `strlen` reads from behind a copy that
`pv_base64_add_padding_multi4` made longer without a terminator: by the language
(`Env.bounded`) there is nothing to read. In an `Option (Option _)` the outer `none`
is such a fault, the inner one NULL or a -1.
-/
import Pantavisor.Json.Tokenizer
import Pantavisor.Lib.Block
import Pantavisor.Lib.JsonText

namespace Pantavisor.Signature

open Pantavisor.Lib Pantavisor.Json

/-- What the code calls that is not in the repository. -/
structure Env where
  jsmn : Jsmn
  /-- `fnmatch` with `FNM_PATHNAME` and, if the flag is set, `FNM_LEADING_DIR` -/
  fnmatch : Bool → CStr → CStr → Bool
  base64Decode : CStr → Option CStr
  base64Encode : CStr → CStr
  behind : CStr → Option CStr
  /-- whether there is a public key of a supported type: the one of a chain of DER
  certificates that the CA file verifies, without certificates the one in `PATH_PVS_PK` -/
  keyLoads : List CStr → Bool
  /-- whether that key verifies a signature of the SHA-256 of a text -/
  keyVerify : List CStr → CStr → CStr → Bool

/-- The device as the language has it: what is behind a block is not to be read. -/
def Env.bounded (env : Env) : Env := { env with behind := fun _ => none }

/-- `secureboot_mode_t` -/
inductive SecurebootMode where
  | disabled
  | lenient
  | strict
  deriving DecidableEq, Repr

/-- `struct pv_signature_headers_pvs` -/
structure HeadersPvs where
  incl : Option CStr
  excl : Option CStr
  deriving DecidableEq, Repr

/-- `struct pv_signature_headers`. `pv_signature_parse_protected` returns none
without `alg`. -/
structure Headers where
  alg : CStr
  x5c : Option CStr
  pvs : Option HeadersPvs
  deriving DecidableEq, Repr

/-- `struct pv_signature` -/
structure PvSignature where
  protectedHeader : Option CStr
  signature : Option CStr
  deriving DecidableEq, Repr

/-- `struct pv_signature_pair` -/
structure Pair where
  key : CStr
  value : CStr
  included : Bool
  covered : Bool
  deriving DecidableEq, Repr

/-! ## Base64 -/

/-- The part of a text before its length, taken for an `int`: nothing if that is negative. -/
def upToInt (s : CStr) : CStr :=
  if s.length % 2 ^ 32 < 2 ^ 31 then s.take (s.length % 2 ^ 32) else []

/-- How many equals signs `pv_base64_add_padding_multi4` puts behind a text. -/
def paddingOf (s : CStr) : Nat :=
  if s.length % 2 ^ 32 < 2 ^ 31 then
    match s.length % 4 with
    | 2 => 2
    | 3 => 1
    | _ => 0
  else 0

/-- `pv_base64_add_padding_multi4`, and what `strlen` makes of its result. -/
def pvBase64AddPaddingMulti4 (env : Env) (s : CStr) : Option CStr :=
  if paddingOf s = 0 then some s
  else (env.behind s).map fun rest => upToInt s ++ List.replicate (paddingOf s) 61 ++ rest

/-- `pv_base64_decode`: the data, and the size of the block that it is in. -/
def pvBase64Decode (env : Env) (s : CStr) : Option (CStr × Nat) :=
  let len := (wrapSize (4 * s.length) / 3 + 3) / 4 * 4
  match env.base64Decode s with
  | none => none
  | some data => if len < data.length then none else some (data, len)

/-- `pv_base64_url_decode` -/
def pvBase64UrlDecode (env : Env) (s : CStr) : Option (Option (CStr × Nat)) :=
  (pvBase64AddPaddingMulti4 env s).map fun itmp =>
    pvBase64Decode env (itmp.map fun c => if c = 95 then 47 else if c = 45 then 43 else c)

/-- Decoded data as a C string: it ends at a zero, which may be in the rest of the block. -/
def textOf (data : CStr) (size : Nat) : Option CStr :=
  if 0 ∈ data ∨ data.length < size then some (cstrAt data 0) else none

/-- `pv_base64_url_encode`. Its buffer is never too small, and the padding is cut where
an `int` gets to it. -/
def pvBase64UrlEncode (env : Env) (s : CStr) : CStr :=
  let text := (env.base64Encode s).map fun c =>
    if c = 47 then (95 : UInt8) else if c = 43 then 45 else c
  if 61 ∈ upToInt text then text.takeWhile (· != 61) else text

/-! ## Parsing a signature -/

/-- `pv_signature_parse_pvs`, with `none` for NULL. A value that the tokenizer
does not accept leaves the structure as `calloc` made it. -/
def pvSignatureParsePvs (env : Env) (json : CStr) : Option PvSignature :=
  match env.jsmn.parse json with
  | none => some ⟨none, none⟩
  | some toks =>
    if pvJsonGetValue json (str "#spec") toks ≠ some (str "pvs@2") then none
    else
      match pvJsonGetValue json (str "protected") toks,
        pvJsonGetValue json (str "signature") toks with
      | some p, some s => some ⟨some p, some s⟩
      | _, _ => none

/-- `pv_signature_parse_headers_pvs`, with `none` for NULL. -/
def pvSignatureParseHeadersPvs (env : Env) (json : CStr) : Option HeadersPvs :=
  match env.jsmn.parse json with
  | none => some ⟨none, none⟩
  | some toks =>
    match pvJsonGetValue json (str "include") toks, pvJsonGetValue json (str "exclude") toks with
    | some i, some e => some ⟨some i, some e⟩
    | _, _ => none

/-- The part of `pv_signature_parse_protected` behind the decoding. -/
def pvSignatureParseHeaders (env : Env) (json : CStr) : Option Headers := do
  let toks ← env.jsmn.parse json
  let typ ← pvJsonGetValue json (str "typ") toks
  if typ ≠ str "PVS" then none
  let pvs ← pvJsonGetValue json (str "pvs") toks
  let alg ← pvJsonGetValue json (str "alg") toks
  return {
    alg := alg
    x5c := pvJsonGetValue json (str "x5c") toks
    pvs := pvSignatureParseHeadersPvs env pvs }

/-- `pv_signature_parse_protected`. The decoded header is read as a C string. -/
def pvSignatureParseProtected (env : Env) (protectedHeader : CStr) : Option (Option Headers) := do
  match ← pvBase64UrlDecode env protectedHeader with
  | none => return none
  | some (data, size) =>
    let json ← textOf data size
    return pvSignatureParseHeaders env json

/-! ## Selecting the files -/

/-- `dirname` of a path with a slash in it. -/
def dirname (path : CStr) : CStr :=
  let dir := (path.reverse.dropWhile (· ≠ 47)).reverse
  let stripped := (dir.reverse.dropWhile (· = 47)).reverse
  if stripped = [] then str "/" else stripped

/-- What `pv_signature_include_files` gives to `fnmatch` for a pattern: whether
with `FNM_LEADING_DIR`, and the path. -/
def fnmatchArgs (pattern : CStr) : Bool × CStr :=
  if pattern = str "**" then (true, [])
  else if 3 < pattern.length ∧ (str "/**").isSuffixOf pattern then (true, dirname pattern)
  else (false, pattern)

/-- Whether a pattern selects a key. -/
def patternMatches (env : Env) (pattern key : CStr) : Bool :=
  env.fnmatch (fnmatchArgs pattern).1 (fnmatchArgs pattern).2 key

/-- The patterns of a filter, none if it is no list with elements. -/
def patterns (env : Env) (json : CStr) : List CStr :=
  match env.jsmn.parse json with
  | none => []
  | some toks =>
    let size := env.jsmn.arrayCount json toks 0
    if size ≤ 0 then [] else pvJsonArrayStrs json toks 0 size

/-- The inner loop of `pv_signature_include_files`, for one pattern. -/
def includePattern (env : Env) (incl : Bool) (pairs : List Pair) (pattern : CStr) :
    List Pair :=
  pairs.map fun p =>
    if patternMatches env pattern p.key then { p with included := incl, covered := true } else p

/-- `pv_signature_include_files` -/
def pvSignatureIncludeFiles (env : Env) (json : CStr) (incl : Bool) (pairs : List Pair) :
    List Pair :=
  (patterns env json).foldl (includePattern env incl) pairs

/-- `pv_signature_reset_included` -/
def pvSignatureResetIncluded (pairs : List Pair) : List Pair :=
  pairs.map fun p => { p with included := false }

/-- `pv_signature_filter_files` -/
def pvSignatureFilterFiles (env : Env) (pvs : Option HeadersPvs) (pairs : List Pair) :
    Option (List Pair) :=
  match pvs with
  | some ⟨some incl, some excl⟩ =>
    some (pvSignatureIncludeFiles env excl false (pvSignatureIncludeFiles env incl true pairs))
  | _ => none

/-! ## The payload -/

/-- `out` of `pv_signature_get_json_files`: the string in it and its size. -/
structure OutBuffer where
  text : CStr
  size : Nat
  deriving DecidableEq, Repr

/-- `realloc` to the running length, an `int`. One that an `int` does not hold is
negative, or less than what is appended next. -/
def OutBuffer.realloc (out : OutBuffer) (len : Nat) : Option OutBuffer :=
  if len < 2 ^ 31 then some { out with size := len } else none

/-- `strcat`, with `none` for a write behind the buffer. -/
def OutBuffer.strcat (out : OutBuffer) (s : CStr) : Option OutBuffer :=
  if out.text.length + s.length + 1 ≤ out.size then some { out with text := out.text ++ s }
  else none

/-- One pair in the loop of `pv_signature_get_json_files`, with the running
length. -/
def appendPair (p : Pair) (out : OutBuffer) (len : Nat) : Option (OutBuffer × Nat) := do
  let len := len + 1 + p.key.length
  let out ← out.realloc len
  let out ← out.strcat (str "\"")
  let out ← out.strcat p.key
  let (out, len) ←
    if p.value.head? ≠ some openBrace then do
      let len := len + 4 + p.value.length
      let out ← out.realloc len
      let out ← out.strcat (str "\":\"")
      let out ← out.strcat p.value
      let out ← out.strcat (str "\"")
      pure (out, len)
    else do
      let len := len + 2 + p.value.length
      let out ← out.realloc len
      let out ← out.strcat (str "\":")
      let out ← out.strcat p.value
      pure (out, len)
  let len := len + 1
  let out ← out.realloc len
  let out ← out.strcat (str ",")
  return (out, len)

/-- The loop of `pv_signature_get_json_files`. -/
def appendPairs : List Pair → OutBuffer → Nat → Option (OutBuffer × Nat)
  | [], out, len => some (out, len)
  | p :: ps, out, len =>
    if !p.included then appendPairs ps out len
    else
      match appendPair p out len with
      | none => none
      | some (out, len) => appendPairs ps out len

/-- `pv_signature_get_json_files`. At the end `'}'` and the terminator are
written at `len - 2` and `len - 1`. -/
def pvSignatureGetJsonFiles (pairs : List Pair) : Option CStr := do
  let out : OutBuffer := ⟨[], 2⟩
  let out ← out.strcat (str "\x7b")
  let (out, len) ← appendPairs pairs out 2
  if 2 < len then
    if out.size < len ∨ out.text.length < len - 2 then none
    else return out.text.take (len - 2) ++ [closeBrace]
  else return str "\x7b\x7d"

/-! ## Verifying -/

/-- `pv_signature_get_certs_raw`, with `none` for false. -/
def pvSignatureGetCertsRaw (env : Env) (x5c : Option CStr) : Option (List CStr) :=
  match x5c with
  | none => some []
  | some x5c =>
    match env.jsmn.parse x5c with
    | none => none
    | some toks =>
      let size := env.jsmn.arrayCount x5c toks 0
      if size ≤ 0 then none else some (pvJsonArrayStrs x5c toks 0 size)

/-- The certificates that `pv_signature_parse_certs` decodes, with `none` where
one of them is no base64. -/
def decodedCerts (env : Env) (certsRaw : List CStr) : Option (List CStr) :=
  certsRaw.mapM fun cert => (pvBase64Decode env cert).map Prod.fst

/-- `pv_signature_verify_sha256` -/
def pvSignatureVerifySha256 (env : Env) (payload : CStr) (certsRaw : List CStr)
    (protectedHeader : CStr) (signature : Option CStr) : Option Bool := do
  match decodedCerts env certsRaw with
  | none => return false
  | some ders =>
    if !env.keyLoads ders then return false
    match ← pvBase64UrlDecode env (← signature) with
    | none => return false
    | some (sig, _) =>
      return env.keyVerify ders (protectedHeader ++ str "." ++ pvBase64UrlEncode env payload) sig

/-- The algorithms that `pv_signature_verify_pvs` knows. -/
def knownAlg (alg : CStr) : Bool := alg = str "RS256" || alg = str "ES256"

/-- `pv_signature_verify_pvs`: its result and the pairs with their flags.
Without headers, the list of certificates that is freed was never set up. -/
def pvSignatureVerifyPvs (env : Env) (sig : PvSignature) (pairs : List Pair) :
    Option (Bool × List Pair) := do
  -- `strdup` in `pv_base64_url_decode`
  let protectedHeader ← sig.protectedHeader
  let headers ← (← pvSignatureParseProtected env protectedHeader)
  match pvSignatureGetCertsRaw env headers.x5c with
  | none => return (false, pairs)
  | some certsRaw =>
    let pairs ← pvSignatureFilterFiles env headers.pvs (pvSignatureResetIncluded pairs)
    let payload ← pvSignatureGetJsonFiles pairs
    if knownAlg headers.alg then
      return (← pvSignatureVerifySha256 env payload certsRaw protectedHeader sig.signature, pairs)
    else return (false, pairs)

/-- The loop of `pv_signature_verify_pairs` over the values of the pairs. -/
def verifyValues (env : Env) : List CStr → List Pair → Option (Bool × List Pair)
  | [], pairs => some (true, pairs)
  | value :: values, pairs =>
    match pvSignatureParsePvs env value with
    | none => verifyValues env values pairs
    | some sig =>
      match pvSignatureVerifyPvs env sig pairs with
      | none => none
      | some (false, pairs) => some (false, pairs)
      | some (true, pairs) => verifyValues env values pairs

/-- `pv_signature_verify_pairs` -/
def pvSignatureVerifyPairs (env : Env) (pairs : List Pair) : Option (Bool × List Pair) :=
  verifyValues env (pairs.map (·.value)) pairs

/-- Whether a key is under `_sigs/`. -/
def underSigs (key : CStr) : Bool := (str "_sigs/").isPrefixOf key

/-- `pv_signature_all_covered` -/
def pvSignatureAllCovered (pairs : List Pair) : Bool :=
  pairs.all fun p => underSigs p.key || p.covered

/-- `pv_signature_parse_json`. A text that the tokenizer does not accept gives no
pairs, one that is no object a dereference of NULL. -/
def pvSignatureParseJson (env : Env) (json : CStr) : Option (List Pair) :=
  match env.jsmn.parse json with
  | none => some []
  | some toks =>
    (keysAndValues env.jsmn json toks).map fun kvs => kvs.map fun kv => ⟨kv.1, kv.2, false, false⟩

/-- `pv_signature_verify` -/
def pvSignatureVerify (env : Env) (mode : SecurebootMode) (json : CStr) : Option Bool := do
  if mode = .disabled then return true
  let pairs ← pvSignatureParseJson env json
  let (ret, pairs) ← pvSignatureVerifyPairs env pairs
  return ret && (decide (mode ≠ .strict) || pvSignatureAllCovered pairs)

/-! ## An environment to run with -/

/-- The value of a base64 digit. -/
def base64Digit (c : UInt8) : Option Nat :=
  if 65 ≤ c ∧ c ≤ 90 then some (c.toNat - 65)
  else if 97 ≤ c ∧ c ≤ 122 then some (c.toNat - 71)
  else if 48 ≤ c ∧ c ≤ 57 then some (c.toNat + 4)
  else if c = 43 then some 62
  else if c = 47 then some 63
  else none

/-- Base64 in groups of four digits, where the last one may be padded. -/
def base64Groups : CStr → Option CStr
  | [] => some []
  | [a, b, 61, 61] => do
    let n := (← base64Digit a) * 64 + (← base64Digit b)
    return [(n / 16).toUInt8]
  | [a, b, c, 61] => do
    let n := ((← base64Digit a) * 64 + (← base64Digit b)) * 64 + (← base64Digit c)
    return [(n / 1024).toUInt8, (n / 4 % 256).toUInt8]
  | a :: b :: c :: d :: rest => do
    let n := (((← base64Digit a) * 64 + (← base64Digit b)) * 64 + (← base64Digit c)) * 64
      + (← base64Digit d)
    return (n / 65536).toUInt8 :: (n / 256 % 256).toUInt8 :: (n % 256).toUInt8 ::
      (← base64Groups rest)
  | _ => none

/-- The base64 digit of a value. -/
def base64Char (n : Nat) : UInt8 :=
  if n < 26 then (n + 65).toUInt8
  else if n < 52 then (n + 71).toUInt8
  else if n < 62 then (n - 4).toUInt8
  else if n = 62 then 43
  else 47

/-- Base64 of groups of three bytes, padded at the end. -/
def base64Text : CStr → CStr
  | [] => []
  | [a] => [base64Char (a.toNat / 4), base64Char (a.toNat % 4 * 16), 61, 61]
  | [a, b] =>
    [base64Char (a.toNat / 4), base64Char (a.toNat % 4 * 16 + b.toNat / 16),
      base64Char (b.toNat % 16 * 4), 61]
  | a :: b :: c :: rest =>
    base64Char (a.toNat / 4) :: base64Char (a.toNat % 4 * 16 + b.toNat / 16) ::
      base64Char (b.toNat % 16 * 4 + c.toNat / 64) :: base64Char (c.toNat % 64) ::
      base64Text rest

/-- Patterns without special characters, for which `fnmatch` compares; with
`FNM_LEADING_DIR` a key may go on with a slash. -/
def literalMatch (leadingDir : Bool) (pattern key : CStr) : Bool :=
  pattern = key || leadingDir && (pattern ++ str "/").isPrefixOf key

/-- A device whose key accepts every signature. -/
def acceptingEnv : Env where
  jsmn := tokenizer
  fnmatch := literalMatch
  base64Decode := base64Groups
  base64Encode := base64Text
  behind _ := none
  keyLoads _ := true
  keyVerify _ _ _ := true

example : base64Groups (base64Text (str "pvs@2")) = some (str "pvs@2") := by decide

end Pantavisor.Signature
