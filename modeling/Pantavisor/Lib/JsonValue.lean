/-
Pantavisor.Lib.JsonValue — JSON texts by their syntax trees.

A `JsonValue` is a value as it stands in a text, white space included: `text`
writes it out, and `Valid` is what RFC 8259 asks of its parts. `parts` lists the
value and all that is inside it in the order in which they start, each with its
kind and its text, the keys of an object among them: what a tokenizer finds.

`StringText raw s` says that `raw`, between quotes, is a JSON string for `s`.
-/
import Pantavisor.Lib.JsonText

namespace Pantavisor.Lib

/-! ## Syntax trees -/

/-- An element of an array, with the white space around it. -/
structure JsonItem (α : Type) where
  pre : CStr
  value : α
  post : CStr
  deriving DecidableEq

/-- A member of an object, with the white space before and behind its key and
its value. -/
structure JsonMember (α : Type) where
  pre : CStr
  key : CStr
  gap : CStr
  gap' : CStr
  value : α
  post : CStr
  deriving DecidableEq

/-- A JSON value as it stands in a text. A string and a key are what is between
the quotes; `gap` is the white space behind the opening bracket. -/
inductive JsonValue where
  | scalar (text : CStr)
  | string (raw : CStr)
  | array (gap : CStr) (items : List (JsonItem JsonValue))
  | object (gap : CStr) (members : List (JsonMember JsonValue))

/-- A key or a string in its quotes. -/
def quoted (raw : CStr) : CStr := quote :: (raw ++ [quote])

/-- What separates an element from the one before it. -/
def separator {α : Type} (rest : List α) (text : CStr) : CStr :=
  if rest.isEmpty then [] else comma :: text

mutual

/-- The text of a value. -/
def JsonValue.text : JsonValue → CStr
  | .scalar text => text
  | .string raw => quoted raw
  | .array gap items => openBracket :: (gap ++ JsonValue.itemsText items ++ [closeBracket])
  | .object gap members => openBrace :: (gap ++ JsonValue.membersText members ++ [closeBrace])

/-- The text between the brackets of an array. -/
def JsonValue.itemsText : List (JsonItem JsonValue) → CStr
  | [] => []
  | ⟨pre, value, post⟩ :: rest =>
    pre ++ value.text ++ post ++ separator rest (JsonValue.itemsText rest)

/-- The text between the braces of an object. -/
def JsonValue.membersText : List (JsonMember JsonValue) → CStr
  | [] => []
  | ⟨pre, key, gap, gap', value, post⟩ :: rest =>
    pre ++ quoted key ++ gap ++ colon :: gap' ++ value.text ++ post ++
      separator rest (JsonValue.membersText rest)

end

/-- The kinds of what is in a text. -/
inductive JsonKind where
  | scalar
  | string
  | array
  | object
  deriving DecidableEq, Repr

mutual

/-- A value and all that is inside it. -/
def JsonValue.parts : JsonValue → List (JsonKind × CStr)
  | .scalar text => [(.scalar, text)]
  | .string raw => [(.string, raw)]
  | .array gap items =>
    (.array, (JsonValue.array gap items).text) :: JsonValue.itemsParts items
  | .object gap members =>
    (.object, (JsonValue.object gap members).text) :: JsonValue.membersParts members

/-- All that is inside an array. -/
def JsonValue.itemsParts : List (JsonItem JsonValue) → List (JsonKind × CStr)
  | [] => []
  | ⟨_, value, _⟩ :: rest => value.parts ++ JsonValue.itemsParts rest

/-- All that is inside an object. -/
def JsonValue.membersParts : List (JsonMember JsonValue) → List (JsonKind × CStr)
  | [] => []
  | ⟨_, key, _, _, value, _⟩ :: rest =>
    (.string, key) :: (value.parts ++ JsonValue.membersParts rest)

end

/-! ## Strings -/

/-- The bytes that a string may have in it as they are. -/
def Unescaped (c : UInt8) : Prop := 32 ≤ c ∧ c ≠ quote ∧ c ≠ backslash

instance (c : UInt8) : Decidable (Unescaped c) := inferInstanceAs (Decidable (_ ∧ _ ∧ _))

/-- A hexadecimal digit and its value. -/
def hexDigit (c : UInt8) : Option Nat :=
  if 48 ≤ c ∧ c ≤ 57 then some (c.toNat - 48)
  else if 65 ≤ c ∧ c ≤ 70 then some (c.toNat - 55)
  else if 97 ≤ c ∧ c ≤ 102 then some (c.toNat - 87)
  else none

/-- What stands behind a backslash for one byte. -/
def shortEscape (c : UInt8) : Option UInt8 :=
  if c = quote ∨ c = backslash ∨ c = 47 then some c
  else if c = 98 then some 8
  else if c = 102 then some 12
  else if c = 110 then some 10
  else if c = 114 then some 13
  else if c = 116 then some 9
  else none

/-- What may stand between the quotes of a string. -/
inductive StringBody : CStr → Prop where
  | nil : StringBody []
  | plain {c : UInt8} {raw : CStr} (hc : Unescaped c) (h : StringBody raw) : StringBody (c :: raw)
  | escape {c d : UInt8} {raw : CStr} (hc : shortEscape c = some d) (h : StringBody raw) :
      StringBody (backslash :: c :: raw)
  | unicode {a b c d : UInt8} {raw : CStr} (ha : (hexDigit a).isSome) (hb : (hexDigit b).isSome)
      (hc : (hexDigit c).isSome) (hd : (hexDigit d).isSome) (h : StringBody raw) :
      StringBody (backslash :: 117 :: a :: b :: c :: d :: raw)

/-- The bytes that a string stands for, with `\u` escapes for ASCII only. -/
inductive StringText : CStr → CStr → Prop where
  | nil : StringText [] []
  | plain {c : UInt8} {raw s : CStr} (hc : Unescaped c) (h : StringText raw s) :
      StringText (c :: raw) (c :: s)
  | escape {c d : UInt8} {raw s : CStr} (hc : shortEscape c = some d) (h : StringText raw s) :
      StringText (backslash :: c :: raw) (d :: s)
  | unicode {a b c : UInt8} {high low : Nat} {raw s : CStr} (ha : hexDigit a = some high)
      (hb : hexDigit b = some low) (hc : c.toNat = 16 * high + low) (hascii : c < 128)
      (h : StringText raw s) : StringText (backslash :: 117 :: 48 :: 48 :: a :: b :: raw) (c :: s)

theorem StringText.body {raw s : CStr} (h : StringText raw s) : StringBody raw := by
  induction h with
  | nil => exact .nil
  | plain hc _ ih => exact .plain hc ih
  | escape hc _ ih => exact .escape hc ih
  | unicode ha hb _ _ _ ih => exact .unicode rfl rfl (by simp [ha]) (by simp [hb]) ih

/-- A string without anything to escape. -/
def AllUnescaped (raw : CStr) : Prop := ∀ c ∈ raw, Unescaped c

instance (raw : CStr) : Decidable (AllUnescaped raw) := List.decidableBAll _ raw

/-- A string without anything to escape stands for itself. -/
theorem stringBody_of_unescaped {raw : CStr} (h : AllUnescaped raw) : StringBody raw := by
  induction raw with
  | nil => exact .nil
  | cons c raw ih =>
    have hall := List.forall_mem_cons.mp h
    exact .plain hall.1 (ih hall.2)

theorem StringText.append {raw raw' s s' : CStr} (h : StringText raw s)
    (h' : StringText raw' s') : StringText (raw ++ raw') (s ++ s') := by
  induction h with
  | nil => exact h'
  | plain hc _ ih => exact .plain hc ih
  | escape hc _ ih => exact .escape hc ih
  | unicode ha hb hc hascii _ ih => exact .unicode ha hb hc hascii ih

/-! ## Valid texts -/

/-- The white space of a JSON text. -/
def White (s : CStr) : Prop := ∀ c ∈ s, c = 32 ∨ c = 9 ∨ c = 10 ∨ c = 13

instance (s : CStr) : Decidable (White s) := List.decidableBAll _ s

/-- One or more digits. -/
def Digits (s : CStr) : Prop := s ≠ [] ∧ ∀ c ∈ s, 48 ≤ c ∧ c ≤ 57

/-- The integer part of a number has no leading zero. -/
def IntPart (s : CStr) : Prop := Digits s ∧ (s.head? = some 48 → s = [48])

/-- The text of a number. -/
def NumberText (s : CStr) : Prop :=
  ∃ sign int frac exp : CStr, s = sign ++ int ++ frac ++ exp ∧
    (sign = [] ∨ sign = [45]) ∧ IntPart int ∧
    (frac = [] ∨ ∃ ds, frac = 46 :: ds ∧ Digits ds) ∧
    (exp = [] ∨ ∃ e sign' ds, exp = e :: (sign' ++ ds) ∧ (e = 101 ∨ e = 69) ∧
      (sign' = [] ∨ sign' = [43] ∨ sign' = [45]) ∧ Digits ds)

/-- The text of a number or a literal. -/
def ScalarText (s : CStr) : Prop :=
  s = str "true" ∨ s = str "false" ∨ s = str "null" ∨ NumberText s

mutual

/-- A value that RFC 8259 allows. -/
def JsonValue.Valid : JsonValue → Prop
  | .scalar text => ScalarText text
  | .string raw => StringBody raw
  | .array gap items => White gap ∧ JsonValue.ItemsValid items
  | .object gap members => White gap ∧ JsonValue.MembersValid members

def JsonValue.ItemsValid : List (JsonItem JsonValue) → Prop
  | [] => True
  | ⟨pre, value, post⟩ :: rest =>
    White pre ∧ value.Valid ∧ White post ∧ JsonValue.ItemsValid rest

def JsonValue.MembersValid : List (JsonMember JsonValue) → Prop
  | [] => True
  | ⟨pre, key, gap, gap', value, post⟩ :: rest =>
    White pre ∧ StringBody key ∧ White gap ∧ White gap' ∧ value.Valid ∧ White post ∧
      JsonValue.MembersValid rest

end

/-- A JSON text: a value with white space around it. -/
def JsonDocument (s : CStr) : Prop :=
  ∃ pre v post, s = pre ++ JsonValue.text v ++ post ∧ White pre ∧ v.Valid ∧ White post

theorem membersText_cons (m : JsonMember JsonValue) (rest : List (JsonMember JsonValue)) :
    JsonValue.membersText (m :: rest) =
      m.pre ++ quoted m.key ++ m.gap ++ colon :: m.gap' ++ m.value.text ++ m.post ++
        separator rest (JsonValue.membersText rest) := by
  rw [JsonValue.membersText]

theorem membersValid_iff (members : List (JsonMember JsonValue)) :
    JsonValue.MembersValid members ↔
      ∀ m ∈ members, White m.pre ∧ StringBody m.key ∧ White m.gap ∧ White m.gap' ∧
        m.value.Valid ∧ White m.post := by
  induction members with
  | nil => simp [JsonValue.MembersValid]
  | cons m rest ih =>
    rw [JsonValue.MembersValid, ih, List.forall_mem_cons]
    simp only [and_assoc]

end Pantavisor.Lib
