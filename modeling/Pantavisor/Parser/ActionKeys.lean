/-
Pantavisor.Parser.ActionKeys — which members of an object the actions of a table are run for
(`do_lookup_json_key`, `do_action_for_array` and `__start_json_parsing_with_action` in
`parser_system1.c`).

A text is one object, or an array of objects that a table is run over one after another. The
lookup compares as many bytes as the key of the table has, so it takes the first key that begins
with that one. `actsOnOwnKeys_iff` says what that costs: each action runs for its own member exactly
if, as far as the table is run, the first key that begins with the one of an entry is that key
itself.

A run goes in order, up to the first number that is not 0. What it calls is kept apart from what
comes of it, by the tokens of the keys.
-/
import Pantavisor.Json.Document
import Pantavisor.Parser.System1

namespace Pantavisor.Parser

open Pantavisor.Lib Pantavisor.Json Pantavisor.State

variable {σ β γ : Type}

/-! ## Both kinds of texts -/

/-- `do_action_for_array`, for the element at token `k`; for token 0 it is what is done with a
text that is an object. -/
def doActionForArray (jsmn : Jsmn) (buf : CStr) (toks : List Tok) (table : List (JsonKeyAction σ))
    (k : Nat) (s : σ) : Option (Int × σ) :=
  match jsmn.objectKeys buf toks k with
  | none => some (-1, s)
  | some keys => keyActionLoop jsmn buf toks keys table s

/-- `start_json_parsing_with_action`, with its `type`. An array goes through
`do_json_key_action_array`, by an entry without a key. -/
def startJsonParsing (jsmn : Jsmn) (buf : CStr) (type : TokType) (table : List (JsonKeyAction σ))
    (s : σ) : Option (Int × σ) :=
  match jsmn.parse buf with
  | none => some (-1, s)
  | some [] => some (0, s)
  | some (t :: rest) =>
    match type with
    | .array =>
      match jsmn.arrayToks buf (t :: rest) 0 with
      | none => some (-1, s)
      | some elements =>
        doArrayLoop (doActionForArray jsmn buf (t :: rest) table) t.size elements s
    | .object => doActionForArray jsmn buf (t :: rest) table 0 s
    | _ => some (-1, s)

/-! ## Runs in order -/

/-- One after another, as far as they return 0. -/
def inOrder (act : β → σ → Option (Int × σ)) : List β → σ → Option (Int × σ)
  | [], s => some (0, s)
  | x :: rest, s => andThen (act x s) (inOrder act rest)

/-- What each of them calls, as far as the run comes. -/
def callsInOrder (call : β → σ → γ) (act : β → σ → Option (Int × σ)) : List β → σ → List γ
  | [], _ => []
  | x :: rest, s =>
    call x s :: match act x s with
      | none => []
      | some (ret, s) => if ret ≠ 0 then [] else callsInOrder call act rest s

/-- A condition on each of them, as far as the run comes. -/
def HoldsInOrder (P : β → σ → Prop) (act : β → σ → Option (Int × σ)) : List β → σ → Prop
  | [], _ => True
  | x :: rest, s => P x s ∧ ∀ s', act x s = some (0, s') → HoldsInOrder P act rest s'

section

variable {P : β → σ → Prop} {call call' : β → σ → γ} {act act' : β → σ → Option (Int × σ)}

/-- A run whose steps do the same where the condition holds is the same run. -/
theorem inOrder_eq {items : List β}
    (h : ∀ x ∈ items, ∀ s, P x s → call x s = call' x s ∧ act x s = act' x s) :
    ∀ {s : σ}, HoldsInOrder P act' items s →
      callsInOrder call act items s = callsInOrder call' act' items s ∧
        inOrder act items s = inOrder act' items s := by
  induction items with
  | nil => exact fun _ => ⟨rfl, rfl⟩
  | cons x rest ih =>
    rw [List.forall_mem_cons] at h
    intro s hholds
    obtain ⟨hcall, hact⟩ := h.1 s hholds.1
    rw [callsInOrder, callsInOrder, inOrder, inOrder, hcall, hact]
    cases hout : act' x s with
    | none => exact ⟨rfl, rfl⟩
    | some out =>
      obtain ⟨ret, s'⟩ := out
      by_cases hret : ret = 0
      · obtain ⟨hcalls, hrun⟩ := ih h.2 (hholds.2 s' (hret ▸ hout))
        simp only [andThen, hret, ne_eq, not_true, if_false]
        exact ⟨by rw [hcalls], hrun⟩
      · simp only [andThen, hret, ne_eq, not_false_eq_true, if_true, and_self]

/-- The calls tell whether the condition holds, if each one does. -/
theorem holdsInOrder_of_calls {items : List β}
    (hsame : ∀ x ∈ items, ∀ s, P x s → act x s = act' x s)
    (hcall : ∀ x ∈ items, ∀ s, call x s = call' x s → P x s) :
    ∀ {s : σ}, callsInOrder call act items s = callsInOrder call' act' items s →
      HoldsInOrder P act' items s := by
  induction items with
  | nil => exact fun _ => trivial
  | cons x rest ih =>
    rw [List.forall_mem_cons] at hsame hcall
    intro s h
    rw [callsInOrder, callsInOrder] at h
    obtain ⟨hhead, htail⟩ := List.cons.inj h
    have hP := hcall.1 s hhead
    refine ⟨hP, fun s' hout => ?_⟩
    rw [hsame.1 s hP, hout] at htail
    exact ih hsame.2 hcall.2 htail

theorem holdsInOrder_of_forall {items : List β} (h : ∀ x ∈ items, ∀ s, P x s) :
    ∀ {s : σ}, HoldsInOrder P act items s := by
  induction items with
  | nil => exact trivial
  | cons x rest ih =>
    rw [List.forall_mem_cons] at h
    exact fun {s} => ⟨h.1 s, fun _ _ => ih h.2⟩

end

theorem inOrder_map {α : Type} (f : α → β) (act : β → σ → Option (Int × σ)) (items : List α) :
    inOrder act (items.map f) = inOrder (fun x => act (f x)) items := by
  induction items with
  | nil => rfl
  | cons x rest ih =>
    funext s
    rw [List.map_cons, inOrder, inOrder, ih]

theorem callsInOrder_map {α : Type} (f : α → β) (call : β → σ → γ) (act : β → σ → Option (Int × σ))
    (items : List α) :
    callsInOrder call act (items.map f) = callsInOrder (fun x => call (f x)) (fun x => act (f x)) items := by
  induction items with
  | nil => rfl
  | cons x rest ih =>
    funext s
    rw [List.map_cons, callsInOrder, callsInOrder, ih]

/-- The loop over the elements of an array, where there are as many as are counted. -/
theorem doArrayLoop_inOrder (action : Nat → σ → Option (Int × σ)) (elements : List Nat) :
    doArrayLoop action elements.length elements = inOrder action elements := by
  induction elements with
  | nil =>
    funext s
    rfl
  | cons k rest ih =>
    funext s
    rw [List.length_cons, doArrayLoop_cons, ih, inOrder]

/-! ## The calls of the code -/

/-- What the loop over the table does with an entry. -/
def keyEntry (jsmn : Jsmn) (buf : CStr) (toks : List Tok) (keys : List Nat)
    (entry : JsonKeyAction σ) (s : σ) : Option (Int × σ) :=
  match doLookupJsonKey buf toks keys entry.key with
  | none => some (0, s)
  | some k => doOneJkaAction jsmn buf toks k entry.action s

theorem keyActionLoop_inOrder (jsmn : Jsmn) (buf : CStr) (toks : List Tok) (keys : List Nat)
    (table : List (JsonKeyAction σ)) :
    keyActionLoop jsmn buf toks keys table = inOrder (keyEntry jsmn buf toks keys) table := by
  induction table with
  | nil =>
    funext s
    rfl
  | cons entry rest ih =>
    funext s
    rw [inOrder, keyEntry]
    cases hfound : doLookupJsonKey buf toks keys entry.key with
    | none => rw [keyActionLoop, hfound, andThen_zero, ← ih]
    | some k => rw [keyActionLoop_found hfound, ih]

/-- For each entry, the token of the key that its action is called for. -/
def objectCalls (jsmn : Jsmn) (buf : CStr) (toks : List Tok) (table : List (JsonKeyAction σ))
    (k : Nat) (s : σ) : List (Option Nat) :=
  match jsmn.objectKeys buf toks k with
  | none => []
  | some keys =>
    callsInOrder (fun entry _ => doLookupJsonKey buf toks keys entry.key)
      (keyEntry jsmn buf toks keys) table s

/-- The calls of `start_json_parsing_with_action`, for each object. -/
def startCalls (jsmn : Jsmn) (buf : CStr) (type : TokType) (table : List (JsonKeyAction σ))
    (s : σ) : List (List (Option Nat)) :=
  match jsmn.parse buf with
  | some (t :: rest) =>
    match type with
    | .array =>
      match jsmn.arrayToks buf (t :: rest) 0 with
      | none => []
      | some elements =>
        callsInOrder (objectCalls jsmn buf (t :: rest) table)
          (doActionForArray jsmn buf (t :: rest) table) (elements.take t.size) s
    | .object => [objectCalls jsmn buf (t :: rest) table 0 s]
    | _ => []
  | _ => []

/-! ## The calls that are meant -/

/-- Which tokens are the elements of an array, if the first one is token `k`. -/
def itemSlots (k : Nat) : List (JsonItem JsonValue) → List Nat
  | [] => []
  | item :: rest => k :: itemSlots (k + item.value.parts.length) rest

/-- The elements of the array at token `k`, with their tokens. -/
def slottedItems (k : Nat) (items : List (JsonItem JsonValue)) : List (Nat × JsonItem JsonValue) :=
  (itemSlots (k + 1) items).zip items

/-- The members of the object at token `k`, with the tokens of their keys. -/
def slotted (k : Nat) (members : List (JsonMember JsonValue)) :
    List (Nat × JsonMember JsonValue) :=
  (keySlots (k + 1) members).zip members

/-- The member whose key is that of an action, in full. -/
def ownMember (object : List (Nat × JsonMember JsonValue)) (key : CStr) :
    Option (Nat × JsonMember JsonValue) :=
  object.find? fun p => p.2.key = key

/-- An action on the value of a member: on the elements of an array one by one. On another value
an action for arrays does what it does. -/
def ownAction (jsmn : Jsmn) (buf : CStr) (toks : List Tok) (p : Nat × JsonMember JsonValue)
    (action : KeyAction σ) (s : σ) : Option (Int × σ) :=
  match action with
  | .string action => action (valueText p.2.value) s
  | .object action => action (valueText p.2.value) s
  | .array action =>
    match p.2.value with
    | .array _ items => inOrder (action buf toks) (itemSlots (p.1 + 2) items) s
    | _ => doOneJkaAction jsmn buf toks p.1 (.array action) s

/-- An entry, for its own member. -/
def ownEntry (jsmn : Jsmn) (buf : CStr) (toks : List Tok)
    (object : List (Nat × JsonMember JsonValue)) (entry : JsonKeyAction σ) (s : σ) :
    Option (Int × σ) :=
  match ownMember object entry.key with
  | none => some (0, s)
  | some p => ownAction jsmn buf toks p entry.action s

def ownCalls (jsmn : Jsmn) (buf : CStr) (toks : List Tok) (table : List (JsonKeyAction σ))
    (object : List (Nat × JsonMember JsonValue)) (s : σ) : List (Option Nat) :=
  callsInOrder (fun entry _ => (ownMember object entry.key).map (·.1))
    (ownEntry jsmn buf toks object) table s

/-- A table over an element of an array. An element that is no object does what it does. -/
def ownElement (jsmn : Jsmn) (buf : CStr) (toks : List Tok) (table : List (JsonKeyAction σ))
    (p : Nat × JsonItem JsonValue) (s : σ) : Option (Int × σ) :=
  match p.2.value with
  | .object _ members => inOrder (ownEntry jsmn buf toks (slotted p.1 members)) table s
  | _ => doActionForArray jsmn buf toks table p.1 s

def ownElementCalls (jsmn : Jsmn) (buf : CStr) (toks : List Tok) (table : List (JsonKeyAction σ))
    (p : Nat × JsonItem JsonValue) (s : σ) : List (Option Nat) :=
  match p.2.value with
  | .object _ members => ownCalls jsmn buf toks table (slotted p.1 members) s
  | _ => objectCalls jsmn buf toks table p.1 s

/-- A table over a text with this value. -/
def ownStart (jsmn : Jsmn) (buf : CStr) (toks : List Tok) (table : List (JsonKeyAction σ)) :
    JsonValue → σ → Option (Int × σ)
  | .object _ members, s => inOrder (ownEntry jsmn buf toks (slotted 0 members)) table s
  | .array _ items, s => inOrder (ownElement jsmn buf toks table) (slottedItems 0 items) s
  | _, s => some (-1, s)

def ownStartCalls (jsmn : Jsmn) (buf : CStr) (toks : List Tok) (table : List (JsonKeyAction σ)) :
    JsonValue → σ → List (List (Option Nat))
  | .object _ members, s => [ownCalls jsmn buf toks table (slotted 0 members) s]
  | .array _ items, s =>
    callsInOrder (ownElementCalls jsmn buf toks table) (ownElement jsmn buf toks table)
      (slottedItems 0 items) s
  | _, _ => []

/-! ## How the tokenizer reads a text -/

/-- A text that is one JSON value, by its syntax tree. -/
structure ValueDoc where
  pre : CStr
  value : JsonValue
  post : CStr
  white : White pre ∧ White post
  valid : value.Valid

def ValueDoc.text (d : ValueDoc) : CStr := d.pre ++ (d.value.text ++ d.post)

/-- The elements of the array at token `k` are found, and counted. -/
structure ReadsArray (jsmn : Jsmn) (buf : CStr) (toks : List Tok) (k : Nat)
    (items : List (JsonItem JsonValue)) : Prop where
  elements : jsmn.arrayToks buf toks k = some (itemSlots (k + 1) items)
  size : ∀ t, toks[k]? = some t → t.size = items.length

/-- The keys of the object at token `k` are found, and the elements of arrays in it. -/
structure ReadsObject (jsmn : Jsmn) (buf : CStr) (toks : List Tok) (k : Nat)
    (members : List (JsonMember JsonValue)) : Prop where
  keys : jsmn.objectKeys buf toks k = some (keySlots (k + 1) members)
  arrays : ∀ p ∈ slotted k members, ∀ gap items, p.2.value = .array gap items →
    ReadsArray jsmn buf toks (p.1 + 1) items

/-- The tokenizer reads a text as what it is: its tokens are there, and the elements and the keys
that a table is run over. -/
structure ReadsValue (jsmn : Jsmn) (d : ValueDoc) (toks : List Tok) : Prop where
  parse : jsmn.parse d.text = some toks
  spans : toks.map Tok.span = valueSpans d.pre.length d.value
  object : ∀ gap members, d.value = .object gap members → ReadsObject jsmn d.text toks 0 members
  array : ∀ gap items, d.value = .array gap items → ReadsArray jsmn d.text toks 0 items
  elements : ∀ gap items, d.value = .array gap items → ∀ p ∈ slottedItems 0 items,
    ∀ gap' members, p.2.value = .object gap' members →
      ReadsObject jsmn d.text toks p.1 members

/-- Tokens from token `k` on read these parts. -/
def TokensAt (buf : CStr) (toks : List Tok) (k : Nat) (parts : List (JsonKind × CStr)) : Prop :=
  ∃ before mid after, toks = before ++ (mid ++ after) ∧ before.length = k ∧
    List.Forall₂ (fun t p => t.span.Reads buf p) mid parts

theorem length_keySlots (k : Nat) (members : List (JsonMember JsonValue)) :
    (keySlots k members).length = members.length := by
  induction members generalizing k with
  | nil => rfl
  | cons m rest ih => rw [keySlots, List.length_cons, List.length_cons, ih]

theorem length_itemSlots (k : Nat) (items : List (JsonItem JsonValue)) :
    (itemSlots k items).length = items.length := by
  induction items generalizing k with
  | nil => rfl
  | cons item rest ih => rw [itemSlots, List.length_cons, List.length_cons, ih]

theorem slotted_fst (k : Nat) (members : List (JsonMember JsonValue)) :
    (slotted k members).map (·.1) = keySlots (k + 1) members :=
  List.map_fst_zip (le_of_eq (length_keySlots _ members))

theorem slotted_keys (k : Nat) (members : List (JsonMember JsonValue)) :
    (slotted k members).map (·.2.key) = members.map (·.key) := by
  have hsnd := List.map_snd_zip (le_of_eq (length_keySlots (k + 1) members).symm)
  conv_rhs => rw [← hsnd, List.map_map]
  rfl

theorem memberAt_append {buf : CStr} {toks : List Tok} {k : Nat} {m : JsonMember JsonValue}
    (h : MemberAt buf toks k m) (after : List Tok) : MemberAt buf (toks ++ after) k m := by
  obtain ⟨key, value, hkey, hvalue, hreads⟩ := h
  have hmore : ∀ {i : Nat} {t : Tok}, toks[i]? = some t → (toks ++ after)[i]? = some t := by
    intro i t ht
    obtain ⟨hi, -⟩ := List.getElem?_eq_some_iff.mp ht
    rw [List.getElem?_append_left hi, ht]
  exact ⟨key, value, hmore hkey, hmore hvalue, hreads⟩

/-- A token is the key of one text. -/
theorem memberAt_key {buf : CStr} {toks : List Tok} {k : Nat} {m m' : JsonMember JsonValue}
    (h : MemberAt buf toks k m) (h' : MemberAt buf toks k m') : m.key = m'.key := by
  obtain ⟨key, -, hkey, -, hreads, -⟩ := h
  obtain ⟨key', -, hkey', -, hreads', -⟩ := h'
  obtain rfl := Option.some.inj (hkey.symm.trans hkey')
  exact (tokText_of_reads hreads).symm.trans (tokText_of_reads hreads')

/-- The tokens of the members of an object. -/
theorem TokensAt.slotted {buf : CStr} {toks : List Tok} {k : Nat} {gap : CStr}
    {members : List (JsonMember JsonValue)}
    (h : TokensAt buf toks k (JsonValue.object gap members).parts) :
    ∀ p ∈ slotted k members, MemberAt buf toks p.1 p.2 := by
  obtain ⟨before, mid, after, rfl, rfl, hreads⟩ := h
  rw [JsonValue.parts] at hreads
  obtain ⟨t, rest, -, hrest, rfl⟩ := List.forall₂_cons_right_iff.mp hreads
  have hslots := memberAt_keySlots hrest (before ++ [t])
  rw [List.length_append, List.length_singleton] at hslots
  rintro ⟨i, m⟩ hp
  have hmember := memberAt_append (List.forall₂_zip hslots hp) after
  simpa using hmember

/-- The tokens of the elements of an array. -/
theorem tokensAt_items {buf : CStr} {toks : List Tok} {items : List (JsonItem JsonValue)} :
    ∀ {k : Nat}, TokensAt buf toks k (JsonValue.itemsParts items) →
      ∀ p ∈ (itemSlots k items).zip items, TokensAt buf toks p.1 p.2.value.parts := by
  induction items with
  | nil => exact fun _ p hp => absurd hp (by simp [itemSlots])
  | cons item rest ih =>
    intro k h p hp
    obtain ⟨before, mid, after, rfl, rfl, hreads⟩ := h
    rw [JsonValue.itemsParts] at hreads
    have hfirst := List.forall₂_take_append mid item.value.parts _ hreads
    have hrest := List.forall₂_drop_append mid item.value.parts _ hreads
    have hlen := hfirst.length_eq
    rw [itemSlots, List.zip_cons_cons, List.mem_cons] at hp
    rcases hp with rfl | hp
    · refine ⟨before, mid.take item.value.parts.length,
        mid.drop item.value.parts.length ++ after, ?_, rfl, hfirst⟩
      rw [← List.append_assoc (List.take _ mid), List.take_append_drop]
    · refine ih ⟨before ++ mid.take item.value.parts.length, mid.drop item.value.parts.length,
        after, ?_, ?_, hrest⟩ p hp
      · rw [List.append_assoc, ← List.append_assoc (List.take _ mid), List.take_append_drop]
      · rw [List.length_append, hlen]

theorem TokensAt.slottedItems {buf : CStr} {toks : List Tok} {k : Nat} {gap : CStr}
    {items : List (JsonItem JsonValue)}
    (h : TokensAt buf toks k (JsonValue.array gap items).parts) :
    ∀ p ∈ slottedItems k items, TokensAt buf toks p.1 p.2.value.parts := by
  obtain ⟨before, mid, after, rfl, rfl, hreads⟩ := h
  rw [JsonValue.parts] at hreads
  obtain ⟨t, rest, -, hrest, rfl⟩ := List.forall₂_cons_right_iff.mp hreads
  refine tokensAt_items ⟨before ++ [t], rest, after, ?_, ?_, hrest⟩
  · simp
  · rw [List.length_append, List.length_singleton]

theorem ReadsValue.tokensAt {jsmn : Jsmn} {d : ValueDoc} {toks : List Tok}
    (h : ReadsValue jsmn d toks) : TokensAt d.text toks 0 d.value.parts := by
  refine ⟨[], toks, [], by simp, rfl, ?_⟩
  rw [← List.forall₂_map_left_iff, h.spans]
  exact reads_value d.pre d.post d.value rfl rfl

/-! ## The lookup -/

/-- The first key that begins with the one of an action is that key itself, if there is any. -/
def KeyFirst (members : List (JsonMember JsonValue)) (key : CStr) : Prop :=
  ∀ k, (members.map (·.key)).find? (key.isPrefixOf ·) = some k → k = key

instance (members : List (JsonMember JsonValue)) (key : CStr) : Decidable (KeyFirst members key) :=
  decidable_of_iff (((members.map (·.key)).find? (key.isPrefixOf ·)).all (· = key)) (by
    rw [KeyFirst]
    cases (members.map (·.key)).find? (key.isPrefixOf ·) <;> simp)

theorem doLookupJsonKey_eq {buf : CStr} {toks : List Tok}
    {object : List (Nat × JsonMember JsonValue)} (h : ∀ p ∈ object, MemberAt buf toks p.1 p.2)
    (key : CStr) :
    doLookupJsonKey buf toks (object.map (·.1)) key
      = (object.find? fun p => key.isPrefixOf p.2.key).map (·.1) := by
  rw [doLookupJsonKey, List.find?_map]
  congr 1
  induction object with
  | nil => rfl
  | cons p rest ih =>
    rw [List.forall_mem_cons] at h
    obtain ⟨t, -, ht, -, hreads, -⟩ := h.1
    rw [List.find?_cons, List.find?_cons, ih h.2, Function.comp_apply, ht, Option.any_some,
      tokText_of_reads hreads]

/-- A first key that is the key in full is found by either lookup. -/
theorem find?_of_keyFirst {object : List (Nat × JsonMember JsonValue)} {key : CStr}
    (h : ∀ k, (object.map (·.2.key)).find? (key.isPrefixOf ·) = some k → k = key) :
    (object.find? fun p => key.isPrefixOf p.2.key) = ownMember object key := by
  induction object with
  | nil => rfl
  | cons p rest ih =>
    rw [List.map_cons, List.find?_cons] at h
    rw [ownMember, List.find?_cons, List.find?_cons]
    cases hpre : key.isPrefixOf p.2.key with
    | true =>
      rw [hpre] at h
      rw [decide_eq_true (h _ rfl)]
    | false =>
      rw [hpre] at h
      have hne : p.2.key ≠ key := by
        rintro heq
        rw [heq, List.isPrefixOf_iff_prefix.mpr List.prefix_rfl] at hpre
        cases hpre
      rw [decide_eq_false hne]
      exact ih h

/-- **The lookup finds the own member** exactly if the first key that begins with the action's is
that key. -/
theorem doLookupJsonKey_iff {buf : CStr} {toks : List Tok} {k : Nat}
    {members : List (JsonMember JsonValue)}
    (h : ∀ p ∈ slotted k members, MemberAt buf toks p.1 p.2) (key : CStr) :
    doLookupJsonKey buf toks (keySlots (k + 1) members) key
        = (ownMember (slotted k members) key).map (·.1) ↔ KeyFirst members key := by
  rw [← slotted_fst, doLookupJsonKey_eq h, KeyFirst, ← slotted_keys k]
  constructor
  · intro heq k' hk'
    have hcomp : ((slotted k members).map (·.2.key)).find? (key.isPrefixOf ·)
        = ((slotted k members).find? fun p => key.isPrefixOf p.2.key).map (·.2.key) :=
      List.find?_map ..
    rw [hcomp] at hk'
    obtain ⟨p, hp, rfl⟩ := Option.map_eq_some_iff.mp hk'
    rw [hp] at heq
    obtain ⟨q, hq, hpq⟩ := Option.map_eq_some_iff.mp heq.symm
    have hown : q.2.key = key := by simpa using List.find?_some hq
    -- both are found at one token
    have hmember := h q (List.mem_of_find?_eq_some hq)
    rw [hpq] at hmember
    exact (memberAt_key (h p (List.mem_of_find?_eq_some hp)) hmember).trans hown
  · intro hfirst
    rw [find?_of_keyFirst hfirst]

theorem doOneJkaAction_eq {jsmn : Jsmn} {buf : CStr} {toks : List Tok}
    {p : Nat × JsonMember JsonValue} (hmember : MemberAt buf toks p.1 p.2)
    (harrays : ∀ gap items, p.2.value = .array gap items → ReadsArray jsmn buf toks (p.1 + 1) items)
    (action : KeyAction σ) (s : σ) :
    doOneJkaAction jsmn buf toks p.1 action s = ownAction jsmn buf toks p action s := by
  obtain ⟨-, value, -, hvalue, -, hreads⟩ := hmember
  have htext := tokText_of_reads hreads
  cases action with
  | string action => simp only [doOneJkaAction, hvalue, htext, ownAction]
  | object action => simp only [doOneJkaAction, hvalue, htext, ownAction]
  | array action =>
    cases hkind : p.2.value with
    | array gap items =>
      have harray := harrays gap items hkind
      have hsize := harray.size value hvalue
      rw [← length_itemSlots (p.1 + 1 + 1)] at hsize
      simp only [doOneJkaAction, hvalue, harray.elements, hsize, ownAction, hkind,
        doArrayLoop_inOrder]
    | scalar text => simp only [ownAction, hkind]
    | string raw => simp only [ownAction, hkind]
    | object gap members => simp only [ownAction, hkind]

/-! ## Actions for their own keys -/

/-- As far as a table is run over an object, the first key that begins with the one of an entry is
that key itself. -/
def ObjectKeysFirst (jsmn : Jsmn) (buf : CStr) (toks : List Tok) (table : List (JsonKeyAction σ))
    (k : Nat) (members : List (JsonMember JsonValue)) (s : σ) : Prop :=
  HoldsInOrder (fun entry _ => KeyFirst members entry.key)
    (ownEntry jsmn buf toks (slotted k members)) table s

def ElementKeysFirst (jsmn : Jsmn) (buf : CStr) (toks : List Tok) (table : List (JsonKeyAction σ))
    (p : Nat × JsonItem JsonValue) (s : σ) : Prop :=
  match p.2.value with
  | .object _ members => ObjectKeysFirst jsmn buf toks table p.1 members s
  | _ => True

/-- The same of a text: of the object, or of each object of the array that the run comes to. -/
def KeysFirst (jsmn : Jsmn) (buf : CStr) (toks : List Tok) (table : List (JsonKeyAction σ)) :
    JsonValue → σ → Prop
  | .object _ members, s => ObjectKeysFirst jsmn buf toks table 0 members s
  | .array _ items, s =>
    HoldsInOrder (ElementKeysFirst jsmn buf toks table) (ownElement jsmn buf toks table)
      (slottedItems 0 items) s
  | _, _ => True

/-- Each action is called for its own member and no other, and does what it does to its value. -/
structure ActsOnOwnKeys (jsmn : Jsmn) (d : ValueDoc) (toks : List Tok)
    (table : List (JsonKeyAction σ)) (s : σ) : Prop where
  calls : startCalls jsmn d.text (tokType (valueKind d.value)) table s
    = ownStartCalls jsmn d.text toks table d.value s
  result : startJsonParsing jsmn d.text (tokType (valueKind d.value)) table s
    = ownStart jsmn d.text toks table d.value s

section

variable {jsmn : Jsmn} {buf : CStr} {toks : List Tok} {table : List (JsonKeyAction σ)} {k : Nat}
  {members : List (JsonMember JsonValue)}

/-- An entry whose key is found right is run for its own member. -/
theorem keyEntry_eq (hobject : ReadsObject jsmn buf toks k members)
    (hmember : ∀ p ∈ slotted k members, MemberAt buf toks p.1 p.2) {entry : JsonKeyAction σ}
    (h : KeyFirst members entry.key) (s : σ) :
    keyEntry jsmn buf toks (keySlots (k + 1) members) entry s
      = ownEntry jsmn buf toks (slotted k members) entry s := by
  rw [keyEntry, (doLookupJsonKey_iff hmember entry.key).mpr h, ownEntry]
  cases hown : ownMember (slotted k members) entry.key with
  | none => rfl
  | some p =>
    have hp := List.mem_of_find?_eq_some hown
    exact doOneJkaAction_eq (hmember p hp) (hobject.arrays p hp) entry.action s

/-- A run over an object, with the keys in this order. -/
theorem object_acts (hobject : ReadsObject jsmn buf toks k members)
    (hmember : ∀ p ∈ slotted k members, MemberAt buf toks p.1 p.2) {s : σ}
    (h : ObjectKeysFirst jsmn buf toks table k members s) :
    objectCalls jsmn buf toks table k s = ownCalls jsmn buf toks table (slotted k members) s ∧
      doActionForArray jsmn buf toks table k s
        = inOrder (ownEntry jsmn buf toks (slotted k members)) table s := by
  simp only [objectCalls, doActionForArray, hobject.keys, keyActionLoop_inOrder, ownCalls]
  exact inOrder_eq (fun entry _ s hfirst =>
    ⟨(doLookupJsonKey_iff hmember entry.key).mpr hfirst, keyEntry_eq hobject hmember hfirst s⟩) h

/-- The calls over an object tell the order of its keys. -/
theorem object_calls (hobject : ReadsObject jsmn buf toks k members)
    (hmember : ∀ p ∈ slotted k members, MemberAt buf toks p.1 p.2) {s : σ}
    (h : objectCalls jsmn buf toks table k s = ownCalls jsmn buf toks table (slotted k members) s) :
    ObjectKeysFirst jsmn buf toks table k members s := by
  simp only [objectCalls, hobject.keys, ownCalls] at h
  exact holdsInOrder_of_calls (fun _ _ s hfirst => keyEntry_eq hobject hmember hfirst s)
    (fun entry _ _ hcall => (doLookupJsonKey_iff hmember entry.key).mp hcall) h

/-- What is known of an element that is an object. -/
def ElementRead (jsmn : Jsmn) (buf : CStr) (toks : List Tok) (p : Nat × JsonItem JsonValue) : Prop :=
  ∀ gap members, p.2.value = .object gap members → ReadsObject jsmn buf toks p.1 members ∧
    ∀ q ∈ slotted p.1 members, MemberAt buf toks q.1 q.2

theorem element_acts {p : Nat × JsonItem JsonValue} (hp : ElementRead jsmn buf toks p) {s : σ}
    (h : ElementKeysFirst jsmn buf toks table p s) :
    objectCalls jsmn buf toks table p.1 s = ownElementCalls jsmn buf toks table p s ∧
      doActionForArray jsmn buf toks table p.1 s = ownElement jsmn buf toks table p s := by
  rw [ElementKeysFirst] at h
  rw [ownElementCalls, ownElement]
  cases hkind : p.2.value with
  | object gap members =>
    rw [hkind] at h
    exact object_acts (hp gap members hkind).1 (hp gap members hkind).2 h
  | scalar text => exact ⟨rfl, rfl⟩
  | string raw => exact ⟨rfl, rfl⟩
  | array gap items => exact ⟨rfl, rfl⟩

theorem element_calls {p : Nat × JsonItem JsonValue} (hp : ElementRead jsmn buf toks p) {s : σ}
    (h : objectCalls jsmn buf toks table p.1 s = ownElementCalls jsmn buf toks table p s) :
    ElementKeysFirst jsmn buf toks table p s := by
  rw [ownElementCalls] at h
  rw [ElementKeysFirst]
  cases hkind : p.2.value with
  | object gap members =>
    rw [hkind] at h
    exact object_calls (hp gap members hkind).1 (hp gap members hkind).2 h
  | scalar text => trivial
  | string raw => trivial
  | array gap items => trivial

end

section

variable {jsmn : Jsmn} {d : ValueDoc} {toks : List Tok} {table : List (JsonKeyAction σ)} {s : σ}

/-- The tokens are not empty: the first one is the value. -/
theorem ReadsValue.tokens (h : ReadsValue jsmn d toks) : ∃ t rest, toks = t :: rest := by
  obtain ⟨before, mid, after, rfl, -, hreads⟩ := h.tokensAt
  obtain ⟨inner, hparts⟩ := parts_cons d.value
  rw [hparts] at hreads
  obtain ⟨t, rest, -, -, rfl⟩ := List.forall₂_cons_right_iff.mp hreads
  cases before with
  | nil => exact ⟨t, rest ++ after, rfl⟩
  | cons b before => exact ⟨b, before ++ (t :: rest ++ after), rfl⟩

/-- A text that is an object. -/
theorem start_object (table : List (JsonKeyAction σ)) (s : σ) (h : ReadsValue jsmn d toks) :
    startCalls jsmn d.text .object table s = [objectCalls jsmn d.text toks table 0 s] ∧
      startJsonParsing jsmn d.text .object table s = doActionForArray jsmn d.text toks table 0 s := by
  obtain ⟨t, rest, rfl⟩ := h.tokens
  rw [startCalls, startJsonParsing, h.parse]
  exact ⟨rfl, rfl⟩

/-- A text that is an array goes through its elements. -/
theorem start_array (table : List (JsonKeyAction σ)) (s : σ) {gap : CStr}
    {items : List (JsonItem JsonValue)} (h : ReadsValue jsmn d toks) (hvalue : d.value = .array gap items) :
    startCalls jsmn d.text .array table s
        = callsInOrder (fun p => objectCalls jsmn d.text toks table p.1)
            (fun p => doActionForArray jsmn d.text toks table p.1) (slottedItems 0 items) s ∧
      startJsonParsing jsmn d.text .array table s
        = inOrder (fun p => doActionForArray jsmn d.text toks table p.1) (slottedItems 0 items) s := by
  obtain ⟨t, rest, rfl⟩ := h.tokens
  obtain ⟨helements, hsize⟩ := h.array gap items hvalue
  have hcount : t.size = (itemSlots (0 + 1) items).length :=
    (hsize t rfl).trans (length_itemSlots _ items).symm
  have hslots : itemSlots (0 + 1) items = (slottedItems 0 items).map (·.1) :=
    (List.map_fst_zip (le_of_eq (length_itemSlots (0 + 1) items))).symm
  rw [startCalls, startJsonParsing, h.parse]
  simp only [helements, hcount, List.take_length, doArrayLoop_inOrder]
  rw [hslots, callsInOrder_map, inOrder_map]
  exact ⟨rfl, rfl⟩

theorem ReadsValue.elementRead {gap : CStr} {items : List (JsonItem JsonValue)}
    (h : ReadsValue jsmn d toks) (hvalue : d.value = .array gap items) :
    ∀ p ∈ slottedItems 0 items, ElementRead jsmn d.text toks p := by
  intro p hp gap' members hkind
  have htokens : TokensAt d.text toks 0 (JsonValue.array gap items).parts := hvalue ▸ h.tokensAt
  have helement := htokens.slottedItems p hp
  rw [hkind] at helement
  exact ⟨h.elements gap items hvalue p hp gap' members hkind, helement.slotted⟩

theorem actsOnOwnKeys_of_keysFirst (h : ReadsValue jsmn d toks)
    (hfirst : KeysFirst jsmn d.text toks table d.value s) : ActsOnOwnKeys jsmn d toks table s := by
  have hparse := h.parse
  obtain ⟨t, rest, htoks⟩ := h.tokens
  cases hvalue : d.value with
  | object gap members =>
    rw [hvalue] at hfirst
    have htokens : TokensAt d.text toks 0 (JsonValue.object gap members).parts :=
      hvalue ▸ h.tokensAt
    have hmember := htokens.slotted
    obtain ⟨hcalls, hrun⟩ := object_acts (h.object gap members hvalue) hmember hfirst
    obtain ⟨hstart, hparsing⟩ := start_object table s h
    refine ⟨?_, ?_⟩
    · rw [hvalue]
      exact hstart.trans (congrArg (fun calls => [calls]) hcalls)
    · rw [hvalue]
      exact hparsing.trans hrun
  | array gap items =>
    rw [hvalue] at hfirst
    have hread := h.elementRead hvalue
    obtain ⟨hcalls, hrun⟩ := inOrder_eq (fun p hp s hkeys => element_acts (hread p hp) hkeys) hfirst
    obtain ⟨hstart, hparsing⟩ := start_array table s h hvalue
    refine ⟨?_, ?_⟩
    · rw [hvalue]
      exact hstart.trans hcalls
    · rw [hvalue]
      exact hparsing.trans hrun
  | scalar text =>
    rw [htoks] at hparse
    refine ⟨?_, ?_⟩
    · rw [hvalue, startCalls, hparse]
      rfl
    · rw [hvalue, startJsonParsing, hparse]
      rfl
  | string raw =>
    rw [htoks] at hparse
    refine ⟨?_, ?_⟩
    · rw [hvalue, startCalls, hparse]
      rfl
    · rw [hvalue, startJsonParsing, hparse]
      rfl

theorem keysFirst_of_actsOnOwnKeys (h : ReadsValue jsmn d toks)
    (hacts : ActsOnOwnKeys jsmn d toks table s) : KeysFirst jsmn d.text toks table d.value s := by
  have hcalls := hacts.calls
  cases hvalue : d.value with
  | object gap members =>
    have htokens : TokensAt d.text toks 0 (JsonValue.object gap members).parts :=
      hvalue ▸ h.tokensAt
    have hmember := htokens.slotted
    rw [hvalue] at hcalls
    have hown := (start_object table s h).1.symm.trans hcalls
    exact object_calls (h.object gap members hvalue) hmember (List.cons.inj hown).1
  | array gap items =>
    have hread := h.elementRead hvalue
    rw [hvalue] at hcalls
    exact holdsInOrder_of_calls (fun p hp s hkeys => (element_acts (hread p hp) hkeys).2)
      (fun p hp s hcall => element_calls (hread p hp) hcall)
      ((start_array table s h hvalue).1.symm.trans hcalls)
  | scalar text => trivial
  | string raw => trivial

/-- **An action is run for its own key**, with the value of that member and the elements of an
array in order, exactly if the first key that begins with it is that key itself. -/
theorem actsOnOwnKeys_iff (h : ReadsValue jsmn d toks) :
    ActsOnOwnKeys jsmn d toks table s ↔ KeysFirst jsmn d.text toks table d.value s :=
  ⟨keysFirst_of_actsOnOwnKeys h, actsOnOwnKeys_of_keysFirst h⟩

end

/-- A `run.json` with a name and a volume. -/
def volumeDoc : ValueDoc where
  pre := []
  value := .object [] [⟨[], str "name", [], [], .string (str "a"), []⟩,
    ⟨[], str "volumes", [], [], .array [] [⟨[], .string (str "v"), []⟩], []⟩]
  post := []
  white := white_nils
  valid := by
    rw [JsonValue.Valid, membersValid_iff]
    refine ⟨by decide, fun m hm => ?_⟩
    rw [List.mem_cons, List.mem_singleton] at hm
    rcases hm with rfl | rfl
    · refine ⟨by decide, stringBody_of_unescaped (by decide), by decide, by decide, ?_, by decide⟩
      rw [JsonValue.Valid]
      exact stringBody_of_unescaped (by decide)
    · refine ⟨by decide, stringBody_of_unescaped (by decide), by decide, by decide, ?_, by decide⟩
      simp only [JsonValue.Valid, JsonValue.ItemsValid]
      exact ⟨by decide, by decide, stringBody_of_unescaped (by decide), by decide, trivial⟩

/-- The tokens of it. -/
def volumeToks : List Tok :=
  [⟨.object, 0, 28, 2⟩, ⟨.string, 2, 6, 0⟩, ⟨.string, 9, 10, 0⟩, ⟨.string, 13, 20, 0⟩,
    ⟨.array, 22, 27, 1⟩, ⟨.string, 24, 25, 0⟩]

theorem volumeDoc_reads : ReadsValue tokenizer volumeDoc volumeToks where
  parse := by decide +kernel
  spans := by decide +kernel
  object := by
    intro gap members hvalue
    obtain ⟨rfl, rfl⟩ := JsonValue.object.inj hvalue
    refine ⟨by decide +kernel, fun p hp gap' items harray => ?_⟩
    simp only [slotted, keySlots, List.zip_cons_cons, List.zip_nil_left, List.mem_cons,
      List.not_mem_nil, or_false] at hp
    rcases hp with rfl | rfl
    · cases harray
    · obtain ⟨rfl, rfl⟩ := JsonValue.array.inj harray
      simp only [JsonValue.parts, List.length_singleton]
      exact ⟨by decide +kernel, fun t ht => by obtain rfl := Option.some.inj ht; rfl⟩
  array := fun gap items hvalue => by cases hvalue
  elements := fun gap items hvalue => by cases hvalue

/-- The table of a platform, run over it. -/
theorem actsOnOwnKeys_iff_volume :
    ActsOnOwnKeys tokenizer volumeDoc volumeToks (system1PlatformKeyAction tokenizer)
      ⟨pvStateNew 0 [] .system1, none, none, none⟩ := by
  refine (actsOnOwnKeys_iff volumeDoc_reads).mpr (holdsInOrder_of_forall fun entry hentry _ => ?_)
  simp only [system1PlatformKeyAction, List.mem_cons, List.not_mem_nil, or_false] at hentry
  rcases hentry with rfl | rfl | rfl | rfl | rfl | rfl | rfl | rfl | rfl | rfl | rfl <;> decide

/-- A `run.json` with a longer key than that of the name. -/
def namedDoc : ValueDoc where
  pre := []
  value := .object [] [⟨[], str "named", [], [], .string (str "x"), []⟩]
  post := []
  white := white_nils
  valid := by
    rw [JsonValue.Valid, membersValid_iff]
    refine ⟨by decide, fun m hm => ?_⟩
    obtain rfl := List.mem_singleton.mp hm
    refine ⟨by decide, stringBody_of_unescaped (by decide), by decide, by decide, ?_, by decide⟩
    rw [JsonValue.Valid]
    exact stringBody_of_unescaped (by decide)

/-- The tokens of it. -/
def namedToks : List Tok := [⟨.object, 0, 13, 1⟩, ⟨.string, 2, 7, 0⟩, ⟨.string, 10, 11, 0⟩]

theorem namedDoc_reads : ReadsValue tokenizer namedDoc namedToks where
  parse := by decide +kernel
  spans := by decide +kernel
  object := by
    intro gap members hvalue
    obtain ⟨rfl, rfl⟩ := JsonValue.object.inj hvalue
    refine ⟨by decide +kernel, fun p hp gap' items harray => ?_⟩
    simp only [slotted, keySlots, List.zip_cons_cons, List.zip_nil_left, List.mem_cons,
      List.not_mem_nil, or_false] at hp
    obtain rfl := hp
    cases harray
  array := fun gap items hvalue => by cases hvalue
  elements := fun gap items hvalue => by cases hvalue

/-- The name of a platform is taken from that member. -/
theorem actsOnOwnKeys_fails :
    ReadsValue tokenizer namedDoc namedToks ∧
      ¬ ActsOnOwnKeys tokenizer namedDoc namedToks (system1PlatformKeyAction tokenizer)
        ⟨pvStateNew 0 [] .system1, none, none, none⟩ := by
  refine ⟨namedDoc_reads, fun hacts => ?_⟩
  have hfirst : KeyFirst [⟨[], str "named", [], [], .string (str "x"), []⟩] (str "name") :=
    (keysFirst_of_actsOnOwnKeys namedDoc_reads hacts).1
  exact absurd hfirst (by decide)

end Pantavisor.Parser
