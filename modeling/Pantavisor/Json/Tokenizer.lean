/-
Pantavisor.Json.Tokenizer — a tokenizer of JSON texts, to run the model with.

One pass over the bytes, with a token for each object, array, string and
primitive in the order of their starts, as `Jsmn` asks for. Like the library
without its strict mode it takes any run of printable bytes for a primitive, so
that a text of hexadecimal digits is one token.
-/
import Pantavisor.Json.Jsmn
import Pantavisor.Lib.JsonText

namespace Pantavisor.Json

open Pantavisor.Lib

/-- What the bytes at the current position belong to. -/
inductive TokMode where
  | plain
  | string (start : Nat)
  | escape (start : Nat)
  | primitive (start : Nat)
  deriving DecidableEq, Repr

/-- The tokens so far, the objects and arrays that are open, and whether a colon
was the last thing read. -/
structure TokState where
  toks : List Tok
  opened : List Nat
  mode : TokMode
  afterColon : Bool
  deriving DecidableEq, Repr

/-- A new token. A key or an element counts for what it is in, a value does not. -/
def TokState.add (s : TokState) (t : Tok) : TokState :=
  let toks :=
    match s.opened, s.afterColon with
    | k :: _, false => s.toks.modify k fun t => { t with size := t.size + 1 }
    | _, _ => s.toks
  { s with toks := toks ++ [t], mode := .plain, afterColon := false }

/-- The end of an object or an array. -/
def TokState.close (s : TokState) (stop : Nat) : Option TokState :=
  match s.opened with
  | [] => none
  | k :: opened =>
    some { s with toks := s.toks.modify k fun t => { t with stop := stop }, opened := opened }

/-- A byte outside strings and primitives. -/
def TokState.plainByte (s : TokState) (pos : Nat) (c : UInt8) : Option TokState :=
  if c = quote then some { s with mode := .string (pos + 1) }
  else if c = openBrace ∨ c = openBracket then
    let type := if c = openBrace then TokType.object else TokType.array
    some { s.add ⟨type, pos, 0, 0⟩ with opened := s.toks.length :: s.opened }
  else if c = closeBrace ∨ c = closeBracket then s.close (pos + 1)
  else if c = colon then some { s with afterColon := true }
  else if c = comma then some { s with afterColon := false }
  else if c = 32 ∨ c = 9 ∨ c = 10 ∨ c = 13 then some s
  else if c < 32 ∨ 127 ≤ c then none
  else some { s with mode := .primitive pos }

/-- The bytes that end a primitive. -/
def endsPrimitive (c : UInt8) : Bool :=
  c = comma || c = colon || c = closeBrace || c = closeBracket || c = 32 || c = 9 || c = 10 ||
    c = 13

/-- The pass over the bytes from position `pos` on. -/
def tokLoop : CStr → Nat → TokState → Option (List Tok)
  | [], pos, s =>
    match s.opened, s.mode with
    | [], .plain => some s.toks
    | [], .primitive start => some (s.add ⟨.primitive, start, pos, 0⟩).toks
    | _, _ => none
  | c :: rest, pos, s =>
    match s.mode with
    | .plain =>
      match s.plainByte pos c with
      | none => none
      | some s => tokLoop rest (pos + 1) s
    | .string start =>
      if c = quote then tokLoop rest (pos + 1) (s.add ⟨.string, start, pos, 0⟩)
      else if c = backslash then tokLoop rest (pos + 1) { s with mode := .escape start }
      else tokLoop rest (pos + 1) s
    | .escape start => tokLoop rest (pos + 1) { s with mode := .string start }
    | .primitive start =>
      if endsPrimitive c then
        match (s.add ⟨.primitive, start, pos, 0⟩).plainByte pos c with
        | none => none
        | some s => tokLoop rest (pos + 1) s
      else if c < 32 ∨ 127 ≤ c then none
      else tokLoop rest (pos + 1) s

/-- The keys among the tokens of an object that ends at `stop`: `next` is where
the next key or value may start, as what is inside a value is left out. -/
def keysFrom (stop : Nat) : List Tok → Nat → Nat → Bool → List Nat
  | [], _, _, _ => []
  | t :: rest, k, next, isKey =>
    if stop ≤ t.start then []
    else if t.start < next then keysFrom stop rest (k + 1) next isKey
    else if isKey then k :: keysFrom stop rest (k + 1) t.stop false
    else keysFrom stop rest (k + 1) t.stop true

/-- The elements among the tokens of an array that ends at `stop`. -/
def elementsFrom (stop : Nat) : List Tok → Nat → Nat → List Nat
  | [], _, _ => []
  | t :: rest, k, next =>
    if stop ≤ t.start then []
    else if t.start < next then elementsFrom stop rest (k + 1) next
    else k :: elementsFrom stop rest (k + 1) t.stop

/-- The tokenizer. -/
def tokenizer : Jsmn where
  parse buf := tokLoop buf 0 ⟨[], [], .plain, false⟩
  objectKeys _ toks k :=
    match toks[k]? with
    | some t =>
      if t.type = .object then some (keysFrom t.stop (toks.drop (k + 1)) (k + 1) 0 true) else none
    | none => none
  arrayToks _ toks k :=
    match toks[k]? with
    | some t =>
      if t.type = .array then some (elementsFrom t.stop (toks.drop (k + 1)) (k + 1) 0) else none
    | none => none
  arrayCount _ toks k :=
    match toks[k]? with
    | some t => if t.type = .array then t.size else 0
    | none => 0
  objectKeyCount _ toks k :=
    match toks[k]? with
    | some t => if t.type = .object then t.size else 0
    | none => 0

example :
    (tokenizer.parse (str "\x7b\"a\":[1,\"x\"],\"b/c\":\x7b\"d\":\"2\"\x7d\x7d")).bind
      (keysAndValues tokenizer (str "\x7b\"a\":[1,\"x\"],\"b/c\":\x7b\"d\":\"2\"\x7d\x7d"))
      = some [(str "a", str "[1,\"x\"]"), (str "b/c", str "\x7b\"d\":\"2\"\x7d")] := by
  decide +kernel

end Pantavisor.Json
