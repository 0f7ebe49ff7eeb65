/-
Pantavisor.Json.Document — the tokens of a text that is one JSON object, and what a
lookup among them finds.

The tokens of a value are its parts with their places: `spans` has the kind, the
start and the end of each. Tokens with these spans read as the parts
(`read_of_spans`), so what `pv_json_get_value` and `pv_json_get_key_count` do is
told by the syntax tree alone. They look at strings of any depth, and at string
values: the lookup is one of a member exactly if no other string of the text is
the key (`lookup_right_iff`).
-/
import Pantavisor.Lib.JsonValue
import Pantavisor.Json.Tokenizer
import Mathlib.Algebra.GroupWithZero.Nat
import Mathlib.Data.List.Forall2

namespace Pantavisor.Json

open Pantavisor.Lib

/-! ## The places of the parts -/

/-- The token type of a kind. -/
def tokType : JsonKind → TokType
  | .scalar => .primitive
  | .string => .string
  | .array => .array
  | .object => .object

/-- Where a token is. -/
structure Span where
  type : TokType
  start : Nat
  stop : Nat
  deriving DecidableEq, Repr

def Tok.span (t : Tok) : Span := ⟨t.type, t.start, t.stop⟩

mutual

/-- The spans of a value that starts at `off`, and of all that is inside it. -/
def valueSpans (off : Nat) : JsonValue → List Span
  | .scalar text => [⟨.primitive, off, off + text.length⟩]
  | .string raw => [⟨.string, off + 1, off + 1 + raw.length⟩]
  | .array gap items =>
    ⟨.array, off, off + (JsonValue.array gap items).text.length⟩ ::
      itemsSpans (off + 1 + gap.length) items
  | .object gap members =>
    ⟨.object, off, off + (JsonValue.object gap members).text.length⟩ ::
      membersSpans (off + 1 + gap.length) members

def itemsSpans (off : Nat) : List (JsonItem JsonValue) → List Span
  | [] => []
  | ⟨pre, value, post⟩ :: rest =>
    valueSpans (off + pre.length) value ++
      itemsSpans (off + pre.length + value.text.length + post.length + 1) rest

def membersSpans (off : Nat) : List (JsonMember JsonValue) → List Span
  | [] => []
  | ⟨pre, key, gap, gap', value, post⟩ :: rest =>
    let keyOff := off + pre.length + 1
    let valueOff := keyOff + key.length + 1 + gap.length + 1 + gap'.length
    ⟨.string, keyOff, keyOff + key.length⟩ ::
      (valueSpans valueOff value ++
        membersSpans (valueOff + value.text.length + post.length + 1) rest)

end

/-- What a span of a text reads: the kind and the text. -/
def Span.read (buf : CStr) (s : Span) : TokType × CStr :=
  (s.type, (buf.drop s.start).take (s.stop - s.start))

/-- A part as a token reads it. -/
def partRead (p : JsonKind × CStr) : TokType × CStr := (tokType p.1, p.2)

/-- A span that reads a part, and is as long as it. -/
def Span.Reads (buf : CStr) (s : Span) (p : JsonKind × CStr) : Prop :=
  s.read buf = partRead p ∧ s.stop - s.start = p.2.length

theorem Span.reads_of_append (kind : JsonKind) {buf text : CStr} (pre post : CStr)
    (hbuf : buf = pre ++ (text ++ post)) {off : Nat} (hoff : off = pre.length) :
    Span.Reads buf ⟨tokType kind, off, off + text.length⟩ (kind, text) := by
  subst hbuf hoff
  simp [Span.Reads, Span.read, partRead]

mutual

/-- The spans of a value at its place read its parts. -/
theorem reads_value {buf : CStr} (pre post : CStr) (v : JsonValue)
    (hbuf : buf = pre ++ (v.text ++ post)) {off : Nat} (hoff : off = pre.length) :
    List.Forall₂ (Span.Reads buf) (valueSpans off v) v.parts := by
  match v with
  | .scalar text =>
    rw [valueSpans, JsonValue.parts]
    rw [JsonValue.text] at hbuf
    exact .cons (Span.reads_of_append .scalar pre post hbuf hoff) .nil
  | .string raw =>
    rw [valueSpans, JsonValue.parts]
    rw [JsonValue.text, quoted] at hbuf
    refine .cons (Span.reads_of_append .string (pre ++ [quote]) (quote :: post) ?_ ?_) .nil
    · simp [hbuf]
    · simp [hoff]
  | .array gap items =>
    rw [valueSpans, JsonValue.parts]
    refine .cons (Span.reads_of_append .array pre post hbuf hoff) ?_
    refine reads_items (pre ++ openBracket :: gap) (closeBracket :: post) items ?_ ?_
    · simp [hbuf, JsonValue.text]
    · simp [hoff]; omega
  | .object gap members =>
    rw [valueSpans, JsonValue.parts]
    refine .cons (Span.reads_of_append .object pre post hbuf hoff) ?_
    refine reads_members (pre ++ openBrace :: gap) (closeBrace :: post) members ?_ ?_
    · simp [hbuf, JsonValue.text]
    · simp [hoff]; omega

theorem reads_items {buf : CStr} (pre post : CStr) (items : List (JsonItem JsonValue))
    (hbuf : buf = pre ++ (JsonValue.itemsText items ++ post)) {off : Nat} (hoff : off = pre.length) :
    List.Forall₂ (Span.Reads buf) (itemsSpans off items) (JsonValue.itemsParts items) := by
  match items with
  | [] =>
    rw [itemsSpans, JsonValue.itemsParts]
    exact .nil
  | ⟨before, value, behind⟩ :: rest =>
    rw [itemsSpans, JsonValue.itemsParts]
    rw [JsonValue.itemsText] at hbuf
    refine List.rel_append (reads_value (pre ++ before)
      (behind ++ (separator rest (JsonValue.itemsText rest) ++ post)) value ?_ ?_) ?_
    · simp [hbuf]
    · simp [hoff]
    · match rest with
      | [] =>
        rw [itemsSpans, JsonValue.itemsParts]
        exact .nil
      | next :: rest =>
        refine reads_items (pre ++ (before ++ (value.text ++ (behind ++ [comma])))) post
          (next :: rest) ?_ ?_
        · simp [hbuf, separator]
        · simp [hoff]; omega

theorem reads_members {buf : CStr} (pre post : CStr) (members : List (JsonMember JsonValue))
    (hbuf : buf = pre ++ (JsonValue.membersText members ++ post)) {off : Nat}
    (hoff : off = pre.length) :
    List.Forall₂ (Span.Reads buf) (membersSpans off members) (JsonValue.membersParts members) := by
  match members with
  | [] =>
    rw [membersSpans, JsonValue.membersParts]
    exact .nil
  | ⟨before, key, gap, gap', value, behind⟩ :: rest =>
    rw [membersSpans, JsonValue.membersParts]
    rw [JsonValue.membersText] at hbuf
    refine .cons ?_ (List.rel_append ?_ ?_)
    · refine Span.reads_of_append .string (pre ++ (before ++ [quote]))
        (quote :: (gap ++ colon :: (gap' ++ (value.text ++ (behind ++
          (separator rest (JsonValue.membersText rest) ++ post)))))) ?_ ?_
      · simp [hbuf, quoted]
      · simp [hoff]; omega
    · refine reads_value (pre ++ (before ++ (quoted key ++ (gap ++ colon :: gap'))))
        (behind ++ (separator rest (JsonValue.membersText rest) ++ post)) value ?_ ?_
      · simp [hbuf]
      · simp [hoff, quoted]; omega
    · match rest with
      | [] =>
        rw [membersSpans, JsonValue.membersParts]
        exact .nil
      | next :: rest =>
        refine reads_members (pre ++ (before ++ (quoted key ++ (gap ++ colon ::
          (gap' ++ (value.text ++ (behind ++ [comma]))))))) post (next :: rest) ?_ ?_
        · simp [hbuf, separator]
        · simp [hoff, quoted]; omega

end

/-! ## A text that is one object -/

/-- A text that is one JSON object, by its syntax tree. -/
structure ObjectDoc where
  pre : CStr
  gap : CStr
  members : List (JsonMember JsonValue)
  post : CStr
  white : White pre ∧ White post
  valid : (JsonValue.object gap members).Valid

namespace ObjectDoc

variable (d : ObjectDoc)

def value : JsonValue := .object d.gap d.members

def text : CStr := d.pre ++ (d.value.text ++ d.post)

/-- The top-level keys. -/
def keys : List CStr := d.members.map (·.key)

/-- Where the tokens of the text are. -/
def spans : List Span := valueSpans d.pre.length d.value

end ObjectDoc

/-- The text of a value, without the quotes of a string. -/
def valueText : JsonValue → CStr
  | .string raw => raw
  | v => v.text

/-- The kind of a value. -/
def valueKind : JsonValue → JsonKind
  | .scalar _ => .scalar
  | .string _ => .string
  | .array _ _ => .array
  | .object _ _ => .object

/-- A value and what is inside it. -/
theorem parts_cons (v : JsonValue) :
    ∃ inner, v.parts = (valueKind v, valueText v) :: inner := by
  cases v with
  | scalar text => exact ⟨[], by rw [JsonValue.parts, valueText, JsonValue.text, valueKind]; simp⟩
  | string raw => exact ⟨[], by rw [JsonValue.parts, valueText, valueKind]⟩
  | array gap items =>
    exact ⟨JsonValue.itemsParts items, by rw [JsonValue.parts, valueText, valueKind]; simp⟩
  | object gap members =>
    exact ⟨JsonValue.membersParts members, by rw [JsonValue.parts, valueText, valueKind]; simp⟩

/-- The value of the member with a key, and of the first one if there are more. Keys
are compared as they stand in the text. -/
def ObjectDoc.member (d : ObjectDoc) (key : CStr) : Option CStr :=
  (d.members.find? fun m => m.key = key).map fun m => valueText m.value

/-- The members, one after another. -/
theorem membersParts_eq (members : List (JsonMember JsonValue)) :
    JsonValue.membersParts members =
      members.flatMap fun m => (.string, m.key) :: m.value.parts := by
  induction members with
  | nil => rw [JsonValue.membersParts, List.flatMap_nil]
  | cons m rest ih => rw [JsonValue.membersParts, ih, List.flatMap_cons, List.cons_append]

/-! ## Lookups -/

/-- The loop of `pv_json_get_value`, over the parts. -/
def lookupParts (key : CStr) : Bool → List (JsonKind × CStr) → Option CStr
  | _, [] => none
  | seen, p :: rest =>
    if p = (.string, key) then lookupParts key true rest
    else if seen then some p.2
    else lookupParts key false rest

theorem tokType_string {kind : JsonKind} : tokType kind = .string ↔ kind = .string := by
  cases kind <;> simp [tokType]

/-- A token that reads a part is the key exactly if the part is. -/
theorem isKey_of_reads {buf key : CStr} {t : Tok} {p : JsonKind × CStr}
    (h : t.span.Reads buf p) : t.isKey buf key = decide (p = (.string, key)) := by
  obtain ⟨hread, hlen⟩ := h
  simp only [Span.read, partRead, Tok.span, Prod.mk.injEq] at hread hlen
  rw [Tok.isKey, hlen, hread.1, tokText, hread.2, Bool.eq_iff_iff]
  simp only [Bool.and_eq_true, decide_eq_true_eq, tokType_string, Prod.ext_iff]
  constructor
  · rintro ⟨⟨-, hkind⟩, htext⟩
    exact ⟨hkind, htext⟩
  · rintro ⟨hkind, htext⟩
    exact ⟨⟨by rw [htext], hkind⟩, htext⟩

theorem tokText_of_reads {buf : CStr} {t : Tok} {p : JsonKind × CStr} (h : t.span.Reads buf p) :
    tokText buf t = p.2 := congrArg Prod.snd h.1

/-- The tokens of an object read its parts. -/
theorem reads_of_spans {d : ObjectDoc} {toks : List Tok} (htoks : toks.map Tok.span = d.spans) :
    List.Forall₂ (fun t p => t.span.Reads d.text p) toks d.value.parts := by
  rw [← List.forall₂_map_left_iff, htoks]
  exact reads_value d.pre d.post d.value rfl rfl

theorem pvJsonGetValueLoop_of_reads {buf key : CStr} {toks : List Tok}
    {parts : List (JsonKind × CStr)} (h : List.Forall₂ (fun t p => t.span.Reads buf p) toks parts) :
    ∀ seen, pvJsonGetValueLoop buf key seen toks = lookupParts key seen parts := by
  induction h with
  | nil =>
    intro seen
    rw [pvJsonGetValueLoop, lookupParts]
  | cons hread _ ih =>
    intro seen
    simp only [pvJsonGetValueLoop, lookupParts, isKey_of_reads hread, tokText_of_reads hread, ih,
      decide_eq_true_eq]

theorem pvJsonGetKeyCount_of_reads {buf key : CStr} {toks : List Tok}
    {parts : List (JsonKind × CStr)} (h : List.Forall₂ (fun t p => t.span.Reads buf p) toks parts) :
    pvJsonGetKeyCount buf key toks = parts.count (.string, key) := by
  rw [pvJsonGetKeyCount]
  induction h with
  | nil => rfl
  | @cons t p toks parts hread _ ih =>
    rw [List.countP_cons, List.count_cons, ih, isKey_of_reads hread]
    simp only [decide_eq_true_eq, beq_iff_eq]

/-- Parts that are all something else do not end the search. -/
theorem lookupParts_skip {key : CStr} {parts : List (JsonKind × CStr)}
    (h : (.string, key) ∉ parts) (rest : List (JsonKind × CStr)) :
    lookupParts key false (parts ++ rest) = lookupParts key false rest := by
  induction parts with
  | nil => rfl
  | cons p parts ih =>
    rw [List.mem_cons, not_or] at h
    rw [List.cons_append, lookupParts, if_neg (Ne.symm h.1), if_neg (by simp), ih h.2]

/-- Among members with no other such string, the member with the key is found. -/
theorem lookupParts_members {key : CStr} {members : List (JsonMember JsonValue)}
    (h : ∀ m ∈ members, (JsonKind.string, key) ∉ m.value.parts) :
    lookupParts key false (JsonValue.membersParts members) =
      (members.find? fun m => m.key = key).map fun m => valueText m.value := by
  induction members with
  | nil => rw [JsonValue.membersParts, lookupParts, List.find?_nil, Option.map_none]
  | cons m rest ih =>
    rw [List.forall_mem_cons] at h
    obtain ⟨m_pre, m_key, gap, gap', value, post⟩ := m
    rw [JsonValue.membersParts, lookupParts]
    by_cases hkey : m_key = key
    · obtain ⟨inner, hparts⟩ := parts_cons value
      have hne : (valueKind value, valueText value) ≠ (.string, key) := by
        intro heq
        exact h.1 (by rw [hparts, heq]; exact List.mem_cons_self)
      rw [if_pos (by rw [hkey]), hparts, List.cons_append, lookupParts, if_neg hne, if_pos rfl]
      simp [hkey]
    · have hne : (JsonKind.string, m_key) ≠ (.string, key) := by simpa using hkey
      rw [if_neg hne, if_neg (by simp), lookupParts_skip h.1, ih h.2,
        List.find?_cons_of_neg (by simpa using hkey)]

/-- How often a string is among the members: as a key, and inside of the values. -/
theorem count_membersParts (key : CStr) (members : List (JsonMember JsonValue)) :
    (JsonValue.membersParts members).count (.string, key) =
      (members.map (·.key)).count key +
        (members.map fun m => m.value.parts.count (.string, key)).sum := by
  induction members with
  | nil => rw [JsonValue.membersParts]; rfl
  | cons m rest ih =>
    rw [JsonValue.membersParts, List.count_cons, List.count_append, ih, List.map_cons,
      List.count_cons, List.map_cons, List.sum_cons]
    simp only [beq_iff_eq, Prod.mk.injEq, true_and]
    omega

/-- What a member lookup gives: the value of the member, and how many there are. -/
def LookupRight (d : ObjectDoc) (key : CStr) (toks : List Tok) : Prop :=
  pvJsonGetValue d.text key toks = d.member key ∧
    pvJsonGetKeyCount d.text key toks = d.keys.count key

/-- No string of the text reads as the key, but for the top-level keys. -/
def OnlyKey (d : ObjectDoc) (key : CStr) : Prop :=
  ∀ m ∈ d.members, (JsonKind.string, key) ∉ m.value.parts

/-- The parts of an object: itself, and those of its members. -/
theorem ObjectDoc.parts_value (d : ObjectDoc) :
    d.value.parts = (.object, d.value.text) :: JsonValue.membersParts d.members := by
  rw [ObjectDoc.value, JsonValue.parts]

theorem pvJsonGetValue_parts {d : ObjectDoc} {toks : List Tok}
    (htoks : toks.map Tok.span = d.spans) (key : CStr) :
    pvJsonGetValue d.text key toks = lookupParts key false (JsonValue.membersParts d.members) := by
  rw [pvJsonGetValue, pvJsonGetValueLoop_of_reads (reads_of_spans htoks), d.parts_value,
    lookupParts, if_neg (by simp), if_neg (by simp)]

theorem pvJsonGetKeyCount_parts {d : ObjectDoc} {toks : List Tok}
    (htoks : toks.map Tok.span = d.spans) (key : CStr) :
    pvJsonGetKeyCount d.text key toks = (JsonValue.membersParts d.members).count (.string, key) := by
  rw [pvJsonGetKeyCount_of_reads (reads_of_spans htoks), d.parts_value,
    List.count_cons_of_ne (by simp)]

/-- A lookup of the only such strings is right. -/
theorem pvJsonGetValue_of_onlyKey {d : ObjectDoc} {toks : List Tok}
    (htoks : toks.map Tok.span = d.spans) {key : CStr} (h : OnlyKey d key) :
    pvJsonGetValue d.text key toks = d.member key := by
  rw [pvJsonGetValue_parts htoks, lookupParts_members h, ObjectDoc.member]

theorem pvJsonGetKeyCount_iff {d : ObjectDoc} {toks : List Tok}
    (htoks : toks.map Tok.span = d.spans) (key : CStr) :
    pvJsonGetKeyCount d.text key toks = d.keys.count key ↔ OnlyKey d key := by
  have hsum : ∀ members : List (JsonMember JsonValue),
      (members.map fun m => m.value.parts.count (JsonKind.string, key)).sum = 0 ↔
        ∀ m ∈ members, (JsonKind.string, key) ∉ m.value.parts := by
    intro members
    rw [List.sum_eq_zero_iff_forall_eq_nat, List.forall_mem_map]
    simp only [List.count_eq_zero]
  rw [pvJsonGetKeyCount_parts htoks, count_membersParts, OnlyKey, ← hsum, ObjectDoc.keys]
  omega

/-- **Lookup is member lookup** exactly if no string of the text other than a
top-level key is the key. -/
theorem lookup_right_iff (d : ObjectDoc) {toks : List Tok}
    (htoks : toks.map Tok.span = d.spans) (key : CStr) :
    LookupRight d key toks ↔ OnlyKey d key := by
  refine ⟨fun h => (pvJsonGetKeyCount_iff htoks key).mp h.2, fun h => ⟨?_, ?_⟩⟩
  · exact pvJsonGetValue_of_onlyKey htoks h
  · exact (pvJsonGetKeyCount_iff htoks key).mpr h

/-! ## The members -/

/-- The members, each with the text of its value. -/
def ObjectDoc.pairs (d : ObjectDoc) : List (CStr × CStr) :=
  d.members.map fun m => (m.key, valueText m.value)

theorem ObjectDoc.keys_eq (d : ObjectDoc) : d.keys = d.pairs.map (·.1) := by
  rw [keys, pairs, List.map_map]
  rfl

theorem ObjectDoc.member_eq (d : ObjectDoc) (key : CStr) :
    d.member key = (d.pairs.find? fun p => p.1 = key).map (·.2) := by
  rw [member, pairs, List.find?_map, Option.map_map]
  rfl

/-- Which tokens are the keys of an object, if the first one is token `k`. -/
def keySlots (k : Nat) : List (JsonMember JsonValue) → List Nat
  | [] => []
  | m :: rest => k :: keySlots (k + 1 + m.value.parts.length) rest

/-- The tokenizer reads a text as what it is: its tokens are there, and the keys of
the object are its members' keys. -/
structure Jsmn.Reads (jsmn : Jsmn) (d : ObjectDoc) (toks : List Tok) : Prop where
  parse : jsmn.parse d.text = some toks
  spans : toks.map Tok.span = d.spans
  keys : jsmn.objectKeys d.text toks 0 = some (keySlots 1 d.members)

instance (jsmn : Jsmn) (d : ObjectDoc) (toks : List Tok) : Decidable (jsmn.Reads d toks) :=
  decidable_of_iff (jsmn.parse d.text = some toks ∧ toks.map Tok.span = d.spans ∧
    jsmn.objectKeys d.text toks 0 = some (keySlots 1 d.members))
    ⟨fun h => ⟨h.1, h.2.1, h.2.2⟩, fun h => ⟨h.parse, h.spans, h.keys⟩⟩

/-- The tokens of a member: its key at a place, and its value behind it. -/
def MemberAt (buf : CStr) (toks : List Tok) (k : Nat) (m : JsonMember JsonValue) : Prop :=
  ∃ key value, toks[k]? = some key ∧ toks[k + 1]? = some value ∧
    key.span.Reads buf (.string, m.key) ∧
    value.span.Reads buf (valueKind m.value, valueText m.value)

/-- The key tokens are those of the members, one after another. -/
theorem memberAt_keySlots {buf : CStr} {members : List (JsonMember JsonValue)} {rest : List Tok}
    (hreads : List.Forall₂ (fun t p => t.span.Reads buf p) rest (JsonValue.membersParts members)) :
    ∀ before : List Tok,
      List.Forall₂ (MemberAt buf (before ++ rest)) (keySlots before.length members) members := by
  induction members generalizing rest with
  | nil => exact fun before => .nil
  | cons m members ih =>
    intro before
    rw [membersParts_eq, List.flatMap_cons, List.cons_append] at hreads
    obtain ⟨key, rest', hkey, hrest, rfl⟩ := List.forall₂_cons_right_iff.mp hreads
    obtain ⟨inner, hparts⟩ := parts_cons m.value
    have hlen : (rest'.take m.value.parts.length).length = m.value.parts.length := by
      rw [List.length_take, List.Forall₂.length_eq hrest, List.length_append]
      omega
    have hbehind := List.forall₂_drop_append rest' m.value.parts _ hrest
    rw [← membersParts_eq] at hbehind
    have hfirst : MemberAt buf (before ++ key :: rest') before.length m := by
      -- the value is the token behind the key
      rw [hparts, List.cons_append] at hrest
      obtain ⟨t, rest'', ht, -, rfl⟩ := List.forall₂_cons_right_iff.mp hrest
      refine ⟨key, t, by simp, ?_, hkey, ht⟩
      rw [List.getElem?_append_right (by omega), Nat.add_sub_cancel_left]
      rfl
    have hsplit : before ++ key :: rest'
        = (before ++ key :: rest'.take m.value.parts.length) ++ rest'.drop m.value.parts.length := by
      simp
    have hslot : before.length + 1 + m.value.parts.length
        = (before ++ key :: rest'.take m.value.parts.length).length := by
      rw [List.length_append, List.length_cons, hlen]
      omega
    rw [keySlots, hslot]
    refine .cons hfirst ?_
    rw [hsplit]
    exact ih hbehind _

theorem mapM_of_forall₂ {α β γ : Type} {f : α → Option γ} {g : β → γ} {xs : List α} {ys : List β}
    (h : List.Forall₂ (fun x y => f x = some (g y)) xs ys) : xs.mapM f = some (ys.map g) := by
  induction h with
  | nil => rfl
  | cons hx _ ih =>
    rw [List.mapM_cons, hx, ih]
    rfl

theorem MemberAt.keyAndValue {buf : CStr} {toks : List Tok} {k : Nat} {m : JsonMember JsonValue}
    (h : MemberAt buf toks k m) : keyAndValue buf toks k = some (m.key, valueText m.value) := by
  obtain ⟨key, value, hkey, hvalue, hkeyReads, hvalueReads⟩ := h
  simp only [Json.keyAndValue, hkey, hvalue, Option.bind_eq_bind, Option.bind_some,
    tokText_of_reads hkeyReads, tokText_of_reads hvalueReads]
  rfl

/-- The key tokens of a text that is read, and those behind them. -/
theorem Jsmn.Reads.memberAt {jsmn : Jsmn} {d : ObjectDoc} {toks : List Tok} (h : jsmn.Reads d toks) :
    List.Forall₂ (MemberAt d.text toks) (keySlots 1 d.members) d.members := by
  have hreads := reads_of_spans h.spans
  rw [d.parts_value] at hreads
  obtain ⟨t, rest, -, hrest, rfl⟩ := List.forall₂_cons_right_iff.mp hreads
  exact memberAt_keySlots hrest [t]

/-- The loops over the keys of an object go through its members. -/
theorem Jsmn.Reads.pairs {jsmn : Jsmn} {d : ObjectDoc} {toks : List Tok} (h : jsmn.Reads d toks) :
    (keySlots 1 d.members).mapM (keyAndValue d.text toks) = some d.pairs :=
  mapM_of_forall₂ (h.memberAt.imp fun _ _ hm => hm.keyAndValue)

theorem white_nils : White [] ∧ White [] := by decide

/-- A manifest with a kernel, addons and an initrd. -/
def manifestDoc : ObjectDoc where
  pre := []
  gap := []
  members := [⟨[], str "linux", [], [], .string (str "k"), []⟩,
    ⟨[], str "addons", [], [],
      .array [] [⟨[], .string (str "a"), []⟩, ⟨[], .string (str "b"), []⟩], []⟩,
    ⟨[], str "initrd", [], [], .string (str "i"), []⟩]
  post := []
  white := white_nils
  valid := by
    rw [JsonValue.Valid, membersValid_iff]
    simp only [List.forall_mem_cons, JsonValue.Valid, JsonValue.ItemsValid]
    refine ⟨by decide, ⟨by decide, stringBody_of_unescaped (by decide), by decide, by decide,
        stringBody_of_unescaped (by decide), by decide⟩,
      ⟨by decide, stringBody_of_unescaped (by decide), by decide, by decide, ?_, by decide⟩,
      ⟨by decide, stringBody_of_unescaped (by decide), by decide, by decide,
        stringBody_of_unescaped (by decide), by decide⟩, by simp⟩
    exact ⟨by decide, by decide, stringBody_of_unescaped (by decide), by decide, by decide,
      stringBody_of_unescaped (by decide), by decide, trivial⟩

/-- Its initrd is looked up behind the addons, and a modem firmware is not found. -/
theorem lookup_right_iff_manifest :
    ∃ toks, tokenizer.parse manifestDoc.text = some toks ∧
      LookupRight manifestDoc (str "initrd") toks ∧ LookupRight manifestDoc (str "modem") toks ∧
      manifestDoc.member (str "initrd") = some (str "i") := by
  obtain ⟨hparse, hspans, hinitrd, hmodem, hvalue⟩ :
      (tokenizer.parse manifestDoc.text).isSome ∧
        ((tokenizer.parse manifestDoc.text).getD []).map Tok.span = manifestDoc.spans ∧
        (∀ m ∈ manifestDoc.members, (JsonKind.string, str "initrd") ∉ m.value.parts) ∧
        (∀ m ∈ manifestDoc.members, (JsonKind.string, str "modem") ∉ m.value.parts) ∧
        manifestDoc.member (str "initrd") = some (str "i") := by decide +kernel
  obtain ⟨toks, htoks⟩ := Option.isSome_iff_exists.mp hparse
  rw [htoks, Option.getD_some] at hspans
  exact ⟨toks, htoks, (lookup_right_iff manifestDoc hspans (str "initrd")).mpr hinitrd,
    (lookup_right_iff manifestDoc hspans (str "modem")).mpr hmodem, hvalue⟩

/-- A manifest without a kernel, with an addon of that name. -/
def addonDoc : ObjectDoc where
  pre := []
  gap := []
  members := [⟨[], str "addons", [], [],
    .array [] [⟨[], .string (str "linux"), []⟩, ⟨[], .string (str "a"), []⟩], []⟩]
  post := []
  white := white_nils
  valid := by
    rw [JsonValue.Valid, membersValid_iff]
    refine ⟨by decide, fun m hm => ?_⟩
    obtain rfl := List.mem_singleton.mp hm
    refine ⟨by decide, stringBody_of_unescaped (by decide), by decide, by decide, ?_, by decide⟩
    simp only [JsonValue.Valid, JsonValue.ItemsValid]
    exact ⟨by decide, by decide, stringBody_of_unescaped (by decide), by decide, by decide,
      stringBody_of_unescaped (by decide), by decide, trivial⟩

/-- The addon behind it is taken for the kernel. -/
theorem lookup_finds_element :
    ¬ ∀ (d : ObjectDoc) (toks : List Tok) (key : CStr), d.keys.Nodup →
      toks.map Tok.span = d.spans → LookupRight d key toks := by
  intro h
  have hspans : [⟨.object, 0, 24, 1⟩, ⟨.string, 2, 8, 0⟩, ⟨.array, 10, 23, 2⟩,
      ⟨.string, 12, 17, 0⟩, ⟨.string, 20, 21, 0⟩].map Tok.span = addonDoc.spans := by decide +kernel
  have hvalue := (h addonDoc _ (str "linux") (by decide) hspans).1
  exact absurd hvalue (by decide +kernel)

end Pantavisor.Json
