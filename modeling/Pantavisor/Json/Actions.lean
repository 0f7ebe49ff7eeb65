/-
Pantavisor.Json.Actions — reading a JSON object by a table of keys and actions
(`start_json_parsing_with_action` and what it calls).

An entry of the table says what kind of value its action takes; nothing compares
this with the kind of the value that the object has. An action returns a number,
and one other than 0 ends the table.

Here and in the parsers `none` stands for a fault: a pointer that is NULL, out of
bounds or never set is dereferenced.
-/
import Pantavisor.Json.Jsmn

namespace Pantavisor.Json

open Pantavisor.Lib

/-- The action of a `struct json_key_action`, by its `type`. -/
inductive KeyAction (σ : Type) where
  /-- `JSMN_STRING`, with the text of the value -/
  | string (action : CStr → σ → Option (Int × σ))
  /-- `JSMN_ARRAY`, once for each element: `buf`, its tokens and the element's one -/
  | array (action : CStr → List Tok → Nat → σ → Option (Int × σ))
  /-- `JSMN_OBJECT`, with the text of the value as `buf` -/
  | object (action : CStr → σ → Option (Int × σ))

/-- `struct json_key_action` -/
structure JsonKeyAction (σ : Type) where
  key : CStr
  action : KeyAction σ

variable {σ : Type}

/-- `do_lookup_json_key`: the first key that starts with the one of the table. -/
def doLookupJsonKey (buf : CStr) (toks : List Tok) (keys : List Nat) (key : CStr) : Option Nat :=
  keys.find? fun k => (toks[k]?.any fun t => key.isPrefixOf (tokText buf t))

/-- The loop of `do_json_key_action_array`: `count` elements, as far as the action
returns 0. Behind the last token of the array there is a NULL. -/
def doArrayLoop (action : Nat → σ → Option (Int × σ)) : Nat → List Nat → σ → Option (Int × σ)
  | 0, _, s => some (0, s)
  | _ + 1, [], _ => none
  | count + 1, k :: rest, s =>
    match action k s with
    | none => none
    | some (ret, s) => if ret ≠ 0 then some (ret, s) else doArrayLoop action count rest s

/-- `do_one_jka_action`, for the key at token `k`. -/
def doOneJkaAction (jsmn : Jsmn) (buf : CStr) (toks : List Tok) (k : Nat) (action : KeyAction σ)
    (s : σ) : Option (Int × σ) :=
  match toks[k + 1]? with
  | none => none
  | some value =>
    match action with
    | .string action => action (tokText buf value) s
    | .object action => action (tokText buf value) s
    | .array action =>
      -- `do_json_key_action_array`
      match jsmn.arrayToks buf toks (k + 1) with
      | none => some (-1, s)
      | some elements => doArrayLoop (action buf toks) value.size elements s

/-- The loop over the table. -/
def keyActionLoop (jsmn : Jsmn) (buf : CStr) (toks : List Tok) (keys : List Nat) :
    List (JsonKeyAction σ) → σ → Option (Int × σ)
  | [], s => some (0, s)
  | entry :: rest, s =>
    match doLookupJsonKey buf toks keys entry.key with
    | none => keyActionLoop jsmn buf toks keys rest s
    | some k =>
      match doOneJkaAction jsmn buf toks k entry.action s with
      | none => none
      | some (ret, s) => if ret ≠ 0 then some (ret, s) else keyActionLoop jsmn buf toks keys rest s

/-- `start_json_parsing_with_action` for an object. A text that is no JSON gives a
negative number, and one without tokens 0. -/
def startJsonParsingWithAction (jsmn : Jsmn) (buf : CStr) (table : List (JsonKeyAction σ))
    (s : σ) : Option (Int × σ) :=
  match jsmn.parse buf with
  | none => some (-1, s)
  | some [] => some (0, s)
  | some toks =>
    match jsmn.objectKeys buf toks 0 with
    | none => some (-1, s)
    | some keys => keyActionLoop jsmn buf toks keys table s

/-! ## Two runs of one table -/

/-- Two outcomes with the same number, and states in relation. -/
def Agree (R : σ → σ → Prop) : Option (Int × σ) → Option (Int × σ) → Prop
  | none, none => True
  | some (ret, s), some (ret', s') => ret = ret' ∧ R s s'
  | _, _ => False

/-- The action does the same in states that are in relation. -/
def KeyAction.Respects (R : σ → σ → Prop) : KeyAction σ → Prop
  | .string action => ∀ value s s', R s s' → Agree R (action value s) (action value s')
  | .array action =>
    ∀ buf toks k s s', R s s' → Agree R (action buf toks k s) (action buf toks k s')
  | .object action => ∀ buf s s', R s s' → Agree R (action buf s) (action buf s')

variable {R : σ → σ → Prop}

theorem agree_some {ret : Int} {s s' : σ} (h : R s s') : Agree R (some (ret, s)) (some (ret, s')) :=
  ⟨rfl, h⟩

theorem Agree.cases {o o' : Option (Int × σ)} (h : Agree R o o') :
    o = none ∧ o' = none ∨ ∃ ret s s', o = some (ret, s) ∧ o' = some (ret, s') ∧ R s s' := by
  rcases o with _ | ⟨ret, s⟩ <;> rcases o' with _ | ⟨ret', s'⟩
  · exact .inl ⟨rfl, rfl⟩
  · exact absurd h (by simp [Agree])
  · exact absurd h (by simp [Agree])
  · obtain ⟨rfl, hs⟩ := h
    exact .inr ⟨ret, s, s', rfl, rfl, hs⟩

/-- What runs behind an outcome: nothing, if that was another number than 0. -/
def andThen (o : Option (Int × σ)) (f : σ → Option (Int × σ)) : Option (Int × σ) :=
  match o with
  | none => none
  | some (ret, s) => if ret ≠ 0 then some (ret, s) else f s

@[simp] theorem andThen_zero (s : σ) (f : σ → Option (Int × σ)) : andThen (some (0, s)) f = f s := rfl

theorem doArrayLoop_cons (action : Nat → σ → Option (Int × σ)) (count k : Nat) (rest : List Nat)
    (s : σ) : doArrayLoop action (count + 1) (k :: rest) s
      = andThen (action k s) (doArrayLoop action count rest) := by
  rw [doArrayLoop]
  rcases action k s with _ | ⟨ret, s⟩ <;> rfl

theorem keyActionLoop_found {jsmn : Jsmn} {buf : CStr} {toks : List Tok} {keys : List Nat}
    {entry : JsonKeyAction σ} {k : Nat} (h : doLookupJsonKey buf toks keys entry.key = some k)
    (rest : List (JsonKeyAction σ)) (s : σ) :
    keyActionLoop jsmn buf toks keys (entry :: rest) s
      = andThen (doOneJkaAction jsmn buf toks k entry.action s)
          (keyActionLoop jsmn buf toks keys rest) := by
  rw [keyActionLoop, h]
  dsimp only
  rcases doOneJkaAction jsmn buf toks k entry.action s with _ | ⟨ret, s⟩ <;> rfl

theorem Agree.andThen {o o' : Option (Int × σ)} {f : σ → Option (Int × σ)} (h : Agree R o o')
    (hf : ∀ s s', R s s' → Agree R (f s) (f s')) : Agree R (andThen o f) (andThen o' f) := by
  rcases h.cases with ⟨rfl, rfl⟩ | ⟨ret, s, s', rfl, rfl, hs⟩
  · trivial
  · simp only [Json.andThen]
    split
    · exact ⟨rfl, hs⟩
    · exact hf s s' hs

theorem doArrayLoop_agree {action : Nat → σ → Option (Int × σ)}
    (h : ∀ k s s', R s s' → Agree R (action k s) (action k s')) (count : Nat) (elements : List Nat) :
    ∀ s s', R s s' → Agree R (doArrayLoop action count elements s)
      (doArrayLoop action count elements s') := by
  induction count generalizing elements with
  | zero => exact fun s s' hs => agree_some hs
  | succ count ih =>
    intro s s' hs
    cases elements with
    | nil => trivial
    | cons k rest =>
      rw [doArrayLoop_cons, doArrayLoop_cons]
      exact (h k s s' hs).andThen (ih rest)

theorem doOneJkaAction_agree {jsmn : Jsmn} {buf : CStr} {toks : List Tok} {k : Nat}
    {action : KeyAction σ} (h : action.Respects R) {s s' : σ} (hs : R s s') :
    Agree R (doOneJkaAction jsmn buf toks k action s) (doOneJkaAction jsmn buf toks k action s') := by
  unfold doOneJkaAction
  split
  · trivial
  · cases action with
    | string action => exact h _ s s' hs
    | object action => exact h _ s s' hs
    | array action =>
      dsimp only
      split
      · exact agree_some hs
      · exact doArrayLoop_agree (h buf toks) _ _ s s' hs

/-- **A table whose actions respect a relation** does the same in states that are in it. -/
theorem keyActionLoop_agree {jsmn : Jsmn} {buf : CStr} {toks : List Tok} {keys : List Nat}
    {table : List (JsonKeyAction σ)} (h : ∀ entry ∈ table, entry.action.Respects R) :
    ∀ s s', R s s' → Agree R (keyActionLoop jsmn buf toks keys table s)
      (keyActionLoop jsmn buf toks keys table s') := by
  induction table with
  | nil => exact fun s s' hs => agree_some hs
  | cons entry rest ih =>
    rw [List.forall_mem_cons] at h
    intro s s' hs
    cases hfound : doLookupJsonKey buf toks keys entry.key with
    | none =>
      simp only [keyActionLoop, hfound]
      exact ih h.2 s s' hs
    | some k =>
      rw [keyActionLoop_found hfound, keyActionLoop_found hfound]
      exact (doOneJkaAction_agree h.1 hs).andThen (ih h.2)

/-! ## One run -/

/-- The action keeps a property of the state, whatever it returns. -/
def KeyAction.Keeps (P : σ → Prop) : KeyAction σ → Prop :=
  KeyAction.Respects fun s s' => s = s' ∧ P s

theorem agree_self {P : σ → Prop} {o : Option (Int × σ)} (h : ∀ ret s, o = some (ret, s) → P s) :
    Agree (fun s s' => s = s' ∧ P s) o o := by
  rcases o with _ | ⟨ret, s⟩
  · trivial
  · exact agree_some ⟨rfl, h ret s rfl⟩

theorem Agree.self {P : σ → Prop} {o : Option (Int × σ)} (h : Agree (fun s s' => s = s' ∧ P s) o o)
    {ret : Int} {s : σ} (ho : o = some (ret, s)) : P s := by
  rw [ho] at h
  exact h.2.2

/-- **A table whose actions keep a property** keeps it. -/
theorem keyActionLoop_keeps {P : σ → Prop} {jsmn : Jsmn} {buf : CStr} {toks : List Tok}
    {keys : List Nat} {table : List (JsonKeyAction σ)} (h : ∀ entry ∈ table, entry.action.Keeps P)
    {s s' : σ} {ret : Int} (hs : P s)
    (hrun : keyActionLoop jsmn buf toks keys table s = some (ret, s')) : P s' :=
  (keyActionLoop_agree h s s ⟨rfl, hs⟩).self hrun

/-- One entry of a table that ran to its end: its key is not there, or its action
returned 0. -/
theorem keyActionLoop_cons {jsmn : Jsmn} {buf : CStr} {toks : List Tok} {keys : List Nat}
    {entry : JsonKeyAction σ} {rest : List (JsonKeyAction σ)} {s s' : σ}
    (h : keyActionLoop jsmn buf toks keys (entry :: rest) s = some (0, s')) :
    ∃ s₁, (doLookupJsonKey buf toks keys entry.key = none ∧ s₁ = s ∨
        ∃ k, doLookupJsonKey buf toks keys entry.key = some k ∧
          doOneJkaAction jsmn buf toks k entry.action s = some (0, s₁)) ∧
      keyActionLoop jsmn buf toks keys rest s₁ = some (0, s') := by
  rw [keyActionLoop] at h
  split at h
  · rename_i hnone
    exact ⟨s, .inl ⟨hnone, rfl⟩, h⟩
  · rename_i k hfound
    split at h
    · cases h
    · rename_i ret s₁ haction
      split at h
      · rename_i hret
        obtain ⟨rfl, -⟩ := Prod.mk.inj (Option.some.inj h)
        exact absurd rfl hret
      · rename_i hret
        obtain rfl : ret = 0 := not_not.mp hret
        exact ⟨s₁, .inr ⟨k, hfound, haction⟩, h⟩

/-- A parse that returned 0 did nothing, or went through the table. -/
theorem startJsonParsingWithAction_zero {jsmn : Jsmn} {buf : CStr} {table : List (JsonKeyAction σ)}
    {s s' : σ} (h : startJsonParsingWithAction jsmn buf table s = some (0, s')) :
    s' = s ∨ ∃ toks keys, jsmn.parse buf = some toks ∧ jsmn.objectKeys buf toks 0 = some keys ∧
      keyActionLoop jsmn buf toks keys table s = some (0, s') := by
  unfold startJsonParsingWithAction at h
  cases hparse : jsmn.parse buf with
  | none =>
    rw [hparse] at h
    cases h
  | some toks =>
    rw [hparse] at h
    cases toks with
    | nil => exact .inl (Prod.mk.inj (Option.some.inj h)).2.symm
    | cons t toks =>
      dsimp only at h
      cases hkeys : jsmn.objectKeys buf (t :: toks) 0 with
      | none =>
        rw [hkeys] at h
        cases h
      | some keys =>
        rw [hkeys] at h
        exact .inr ⟨t :: toks, keys, rfl, hkeys, h⟩

end Pantavisor.Json
