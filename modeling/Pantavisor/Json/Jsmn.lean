/-
Pantavisor.Json.Jsmn — the tokens of a JSON text and how the code reads them
(`utils/json.c`).

The tokenizer is a library outside the repository and a parameter here: a
`Jsmn` gives the tokens of a text, in the order of their starts, and for an
object or an array the tokens of its keys or elements. A token is a range of
bytes of the text; that of a string is what stands between the quotes.

`pv_json_get_value` does not look for a member of an object. It scans all
tokens of the text for a string with the text of the key, at any depth and
also among the values, and takes the token behind it.
-/
import Pantavisor.Lib.CString

namespace Pantavisor.Json

open Pantavisor.Lib

/-- `jsmntype_t` -/
inductive TokType where
  | undefined
  | object
  | array
  | string
  | primitive
  deriving DecidableEq, Repr

/-- `jsmntok_t` -/
structure Tok where
  type : TokType
  start : Nat
  stop : Nat
  size : Nat
  deriving DecidableEq, Repr

/-- The tokenizer. A position in a vector of tokens stands for a `jsmntok_t *`. -/
structure Jsmn where
  /-- `jsmnutil_parse_json`: `none` where it returns less than 0, and else the
  tokens, whose number it returns -/
  parse : CStr → Option (List Tok)
  /-- `jsmnutil_get_object_keys`, with `none` for NULL -/
  objectKeys : CStr → List Tok → Nat → Option (List Nat)
  /-- `jsmnutil_get_array_toks`, with `none` for NULL -/
  arrayToks : CStr → List Tok → Nat → Option (List Nat)
  /-- `jsmnutil_array_count` -/
  arrayCount : CStr → List Tok → Nat → Int
  /-- `jsmnutil_object_key_count` -/
  objectKeyCount : CStr → List Tok → Nat → Nat

/-- The text of a token, as `snprintf` or `strncpy` copies it. -/
def tokText (buf : CStr) (t : Tok) : CStr := (buf.drop t.start).take (t.stop - t.start)

/-- A string token with the text of the key. -/
def Tok.isKey (buf key : CStr) (t : Tok) : Bool :=
  decide (t.stop - t.start = key.length) && decide (t.type = .string) &&
    decide (tokText buf t = key)

/-- `pv_json_get_key_count` -/
def pvJsonGetKeyCount (buf key : CStr) (toks : List Tok) : Nat := toks.countP (·.isKey buf key)

/-- The loop of `pv_json_get_value`; `seen` is `t == 1`. -/
def pvJsonGetValueLoop (buf key : CStr) : Bool → List Tok → Option CStr
  | _, [] => none
  | seen, t :: rest =>
    if t.isKey buf key then pvJsonGetValueLoop buf key true rest
    else if seen then some (tokText buf t)
    else pvJsonGetValueLoop buf key false rest

/-- `pv_json_get_value`, with `none` for NULL. -/
def pvJsonGetValue (buf key : CStr) (toks : List Tok) : Option CStr :=
  pvJsonGetValueLoop buf key false toks

/-- The texts that a loop of `pv_json_array_get_one_str` from token `k + 1`
takes, for an array of `size` elements at token `k`. -/
def pvJsonArrayStrs (buf : CStr) (toks : List Tok) (k : Nat) (size : Int) : List CStr :=
  ((toks.drop (k + 1)).take size.toNat).map (tokText buf)

/-- A top-level key of an object and the token behind it. -/
def keyAndValue (buf : CStr) (toks : List Tok) (k : Nat) : Option (CStr × CStr) := do
  let key ← toks[k]?
  let value ← toks[k + 1]?
  return (tokText buf key, tokText buf value)

/-- The top-level keys of an object with their values, as the loops over
`jsmnutil_get_object_keys` copy them. `none` if the text is no object, or a key
has no token behind it. -/
def keysAndValues (jsmn : Jsmn) (buf : CStr) (toks : List Tok) : Option (List (CStr × CStr)) := do
  let keys ← jsmn.objectKeys buf toks 0
  keys.mapM (keyAndValue buf toks)

/-- A member of an object: the value of its first top-level key with that text.
This is what `pv_json_get_value` is used for. -/
def member (jsmn : Jsmn) (buf key : CStr) (toks : List Tok) : Option CStr :=
  match keysAndValues jsmn buf toks with
  | none => none
  | some members => (members.find? fun m => m.1 = key).map (·.2)

end Pantavisor.Json
