/-
Pantavisor.Json.Unescape — `pv_str_unescape_to_ascii` (`utils/str.c`) on the text of
an object.

The call replaces two bytes, wherever they are, by one. The user metadata calls it
for `\n` before it parses an answer, so that the bytes of a string are changed and
not the string: of an escaped backslash with an `n` behind it, it takes the second
half. `newlines` is what it leaves of a text and `JsonValue.newlined` what it leaves
of a tree (`newlines_value`); the escapes of a string are still right exactly if no
escaped backslash has an `n` behind it (`escapesRight_newlines`).
-/
import Pantavisor.Json.Document

namespace Pantavisor.Json

open Pantavisor.Lib

/-- The line feed. -/
def lineFeed : UInt8 := 10

/-- The letter `n`. -/
def letterN : UInt8 := 110

/-! ## The call -/

/-- `strstr`: where the first occurrence starts. -/
def strstr : CStr → CStr → Option Nat
  | [], code => if code = [] then some 0 else none
  | c :: s, code => if code <+: c :: s then some 0 else (strstr s code).map (· + 1)

/-- The loop of `pv_str_unescape_to_ascii`, for so many occurrences: `new` is what it
has written, and `tmp` what it has not looked at. -/
def unescapeLoop (code : CStr) (c : UInt8) : Nat → CStr → CStr → CStr
  | 0, new, _ => new
  | k + 1, new, tmp =>
    match strstr tmp code with
    | none => new
    | some p => unescapeLoop code c k (new ++ tmp.take p ++ [c]) (tmp.drop (p + code.length))

/-- `pv_str_unescape_to_ascii`. There are no more occurrences than bytes. -/
def pvStrUnescapeToAscii (buf code : CStr) (c : UInt8) : CStr :=
  let tmp := buf ++ code
  let new := unescapeLoop code c tmp.length [] tmp
  if new.getLast? = some c then new.dropLast else new

/-! ## What it leaves of a text -/

/-- The two bytes that stand for a line feed. -/
def lineFeedCode : CStr := [backslash, letterN]

/-- A text with a line feed for each such pair of bytes, from left to right. -/
def newlines : CStr → CStr
  | [] => []
  | [c] => [c]
  | c :: d :: s =>
    if c = backslash ∧ d = letterN then lineFeed :: newlines s else c :: newlines (d :: s)

theorem strstr_append (s code : CStr) : ∃ p, strstr (s ++ code) code = some p := by
  induction s with
  | nil =>
    cases code with
    | nil => exact ⟨0, by simp [strstr]⟩
    | cons c code => exact ⟨0, by simp [strstr]⟩
  | cons c s ih =>
    obtain ⟨p, hp⟩ := ih
    rw [List.cons_append, strstr, hp]
    split
    · exact ⟨0, rfl⟩
    · exact ⟨p + 1, rfl⟩

/-- A byte with which no occurrence starts is written as it is. -/
theorem unescapeLoop_skip {code : CStr} {c b : UInt8} {k : Nat} {new s : CStr}
    (h : ¬ code <+: b :: (s ++ code)) :
    unescapeLoop code c (k + 1) new (b :: (s ++ code))
      = unescapeLoop code c (k + 1) (new ++ [b]) (s ++ code) := by
  obtain ⟨p, hp⟩ := strstr_append s code
  rw [unescapeLoop, unescapeLoop, strstr, if_neg h, hp]
  simp only [Option.map_some, List.take_succ_cons, Nat.add_right_comm p 1, List.drop_succ_cons,
    List.append_assoc, List.singleton_append]

theorem unescapeLoop_newlines (s : CStr) :
    ∀ (k : Nat) (new : CStr), s.length < k →
      unescapeLoop lineFeedCode lineFeed (k + 1) new (s ++ lineFeedCode)
        = new ++ newlines s ++ [lineFeed] := by
  induction s using newlines.induct with
  | case1 =>
    intro k new hk
    obtain ⟨k, rfl⟩ := Nat.exists_eq_succ_of_ne_zero (Nat.ne_of_gt hk)
    simp [unescapeLoop, strstr, newlines, lineFeedCode]
  | case2 b =>
    intro k new hk
    obtain ⟨k, rfl⟩ := Nat.exists_eq_succ_of_ne_zero (Nat.ne_of_gt (Nat.zero_lt_of_lt hk))
    have hskip : ¬ lineFeedCode <+: b :: ([] ++ lineFeedCode) := by
      simp [lineFeedCode, backslash, letterN]
    rw [show [b] ++ lineFeedCode = b :: ([] ++ lineFeedCode) from rfl, unescapeLoop_skip hskip]
    simp [unescapeLoop, strstr, newlines, lineFeedCode]
  | case3 b d s hcode ih =>
    intro k new hk
    obtain ⟨rfl, rfl⟩ := hcode
    have hk' : s.length + 2 < k := hk
    obtain ⟨k, rfl⟩ := Nat.exists_eq_succ_of_ne_zero (Nat.ne_of_gt (Nat.zero_lt_of_lt hk))
    have hfound : strstr (backslash :: letterN :: s ++ lineFeedCode) lineFeedCode = some 0 := by
      rw [List.cons_append, strstr, if_pos]
      exact ⟨s ++ lineFeedCode, rfl⟩
    have hrest := ih k (new ++ [lineFeed]) (by omega)
    rw [unescapeLoop, hfound, newlines, if_pos ⟨rfl, rfl⟩]
    simpa [lineFeedCode] using hrest
  | case4 b d s hcode ih =>
    intro k new hk
    have hskip : ¬ lineFeedCode <+: b :: (d :: s ++ lineFeedCode) := by
      intro h
      rw [lineFeedCode, List.cons_prefix_cons, List.cons_append, List.cons_prefix_cons] at h
      exact hcode ⟨h.1.symm, h.2.1.symm⟩
    have hlen : (d :: s).length < k := Nat.lt_of_succ_lt hk
    rw [List.cons_append, unescapeLoop_skip hskip, ih k (new ++ [b]) hlen, newlines, if_neg hcode]
    simp

/-- The call for `\n`, as the user metadata makes it. -/
theorem pvStrUnescapeToAscii_newlines (s : CStr) :
    pvStrUnescapeToAscii s lineFeedCode lineFeed = newlines s := by
  have hloop := unescapeLoop_newlines s (s.length + 1) [] (Nat.lt_succ_self _)
  have hlen : (s ++ lineFeedCode).length = s.length + 1 + 1 := by simp [lineFeedCode]
  simp only [pvStrUnescapeToAscii, hlen, hloop, List.nil_append, List.getLast?_append,
    List.getLast?_singleton, Option.some_or, if_true, List.dropLast_concat]

/-- A text without a backslash stays as it is. -/
theorem newlines_append_clean {a : CStr} (h : backslash ∉ a) (b : CStr) :
    newlines (a ++ b) = a ++ newlines b := by
  induction a with
  | nil => rfl
  | cons c a ih =>
    rw [List.mem_cons, not_or] at h
    rw [List.cons_append, List.cons_append, ← ih h.2]
    cases hab : a ++ b with
    | nil => rfl
    | cons d s => rw [newlines, if_neg fun hcode => h.1 hcode.1.symm]

theorem newlines_clean {a : CStr} (h : backslash ∉ a) : newlines a = a := by
  have h' := newlines_append_clean h []
  rwa [List.append_nil, newlines, List.append_nil] at h'

theorem newlines_cons {c : UInt8} (hc : c ≠ backslash) (s : CStr) :
    newlines (c :: s) = c :: newlines s :=
  newlines_append_clean (a := [c]) (by simpa using hc.symm) s

/-- What is between two quotes is done on its own. -/
theorem newlines_quote (a b : CStr) :
    newlines (a ++ quote :: b) = newlines a ++ quote :: newlines b := by
  have hquote : quote ≠ backslash := by decide
  induction a using newlines.induct with
  | case1 => exact newlines_cons hquote b
  | case2 c =>
    have hne : ¬ (c = backslash ∧ quote = letterN) := fun h => absurd h.2 (by decide)
    rw [List.singleton_append, newlines, newlines, if_neg hne, newlines_cons hquote]
    rfl
  | case3 c d s hcode ih =>
    rw [List.cons_append, List.cons_append, newlines, if_pos hcode, ih, newlines, if_pos hcode]
    rfl
  | case4 c d s hcode ih =>
    rw [List.cons_append, List.cons_append, newlines, if_neg hcode, newlines, if_neg hcode]
    rw [List.cons_append] at ih
    rw [ih]
    rfl

theorem mem_newlines {s : CStr} {c : UInt8} (h : c ∈ newlines s) : c ∈ s ∨ c = lineFeed := by
  induction s using newlines.induct with
  | case1 => exact .inl h
  | case2 b => exact .inl h
  | case3 b d s hcode ih =>
    rw [newlines, if_pos hcode, List.mem_cons] at h
    rcases h with h | h
    · exact .inr h
    · exact (ih h).imp (fun h => by simp [h]) id
  | case4 b d s hcode ih =>
    rw [newlines, if_neg hcode, List.mem_cons] at h
    rcases h with h | h
    · exact .inl (by simp [h])
    · exact (ih h).imp (fun h => List.mem_cons_of_mem _ h) id

/-- A text without a line feed that comes out is the one that went in. -/
theorem newlines_eq_iff {s t : CStr} (ht : lineFeed ∉ t) : newlines s = t ↔ s = t ∧ newlines t = t := by
  constructor
  · intro h
    suffices hs : s = t by exact ⟨hs, hs ▸ h⟩
    induction s using newlines.induct generalizing t with
    | case1 => exact h
    | case2 b => exact h
    | case3 b d s hcode ih =>
      rw [newlines, if_pos hcode] at h
      exact absurd (h ▸ List.mem_cons_self) ht
    | case4 b d s hcode ih =>
      rw [newlines, if_neg hcode] at h
      subst h
      rw [List.mem_cons, not_or] at ht
      rw [← ih ht.2 rfl]
  · rintro ⟨rfl, h⟩
    exact h

/-! ## What it leaves of a tree -/

mutual

/-- A value whose strings went through the call. -/
def newlined : JsonValue → JsonValue
  | .scalar text => .scalar text
  | .string raw => .string (newlines raw)
  | .array gap items => .array gap (itemsNewlined items)
  | .object gap members => .object gap (membersNewlined members)

def itemsNewlined : List (JsonItem JsonValue) → List (JsonItem JsonValue)
  | [] => []
  | ⟨pre, value, post⟩ :: rest => ⟨pre, newlined value, post⟩ :: itemsNewlined rest

def membersNewlined : List (JsonMember JsonValue) → List (JsonMember JsonValue)
  | [] => []
  | ⟨pre, key, gap, gap', value, post⟩ :: rest =>
    ⟨pre, newlines key, gap, gap', newlined value, post⟩ :: membersNewlined rest

end

theorem membersNewlined_eq (members : List (JsonMember JsonValue)) :
    membersNewlined members =
      members.map fun m => { m with key := newlines m.key, value := newlined m.value } := by
  induction members with
  | nil => rw [membersNewlined, List.map_nil]
  | cons m rest ih => rw [membersNewlined, ih, List.map_cons]

/-- White space has no backslash in it. -/
theorem white_clean {s : CStr} (h : White s) : backslash ∉ s := fun hmem =>
  absurd (h backslash hmem) (by decide)

theorem digits_clean {s : CStr} (h : Digits s) : backslash ∉ s := fun hmem =>
  absurd (h.2 backslash hmem) (by decide)

theorem scalarText_clean {s : CStr} (h : ScalarText s) : backslash ∉ s := by
  rcases h with rfl | rfl | rfl | ⟨sign, int, frac, exp, rfl, hsign, hint, hfrac, hexp⟩
  · decide
  · decide
  · decide
  · have hsign : backslash ∉ sign := by rcases hsign with rfl | rfl <;> decide
    have hfrac : backslash ∉ frac := by
      rcases hfrac with rfl | ⟨ds, rfl, hds⟩
      · decide
      · exact List.not_mem_cons_of_ne_of_not_mem (by decide) (digits_clean hds)
    have hexp : backslash ∉ exp := by
      rcases hexp with rfl | ⟨e, sign', ds, rfl, he, hsign', hds⟩
      · decide
      · have hsign' : backslash ∉ sign' := by rcases hsign' with rfl | rfl | rfl <;> decide
        have he : backslash ≠ e := by rcases he with rfl | rfl <;> decide
        simp [he, hsign', digits_clean hds]
    simp [hsign, digits_clean hint.1, hfrac, hexp]

theorem newlines_white {s : CStr} (h : White s) (rest : CStr) :
    newlines (s ++ rest) = s ++ newlines rest := newlines_append_clean (white_clean h) rest

theorem newlines_quoted (raw rest : CStr) :
    newlines (quoted raw ++ rest) = quoted (newlines raw) ++ newlines rest := by
  have hquote : quote ≠ backslash := by decide
  rw [quoted, List.cons_append, List.append_assoc, List.singleton_append, newlines_cons hquote,
    newlines_quote, quoted, List.cons_append, List.append_assoc, List.singleton_append]

theorem separator_newlined {α : Type} {rest rest' : List α} (h : rest'.isEmpty = rest.isEmpty)
    {text text' tail : CStr} (htext : newlines (text ++ tail) = text' ++ newlines tail) :
    newlines (separator rest text ++ tail) = separator rest' text' ++ newlines tail := by
  rw [separator, separator, h]
  split
  · rfl
  · rw [List.cons_append, newlines_cons (by decide), htext, List.cons_append]

mutual

/-- **The call on the text of a value** does its strings, and nothing else. -/
theorem newlines_value (v : JsonValue) (hv : v.Valid) (rest : CStr) :
    newlines (v.text ++ rest) = (newlined v).text ++ newlines rest := by
  match v with
  | .scalar text =>
    rw [JsonValue.Valid] at hv
    rw [newlined, JsonValue.text, newlines_append_clean (scalarText_clean hv)]
  | .string raw => rw [newlined, JsonValue.text, JsonValue.text, newlines_quoted]
  | .array gap items =>
    rw [JsonValue.Valid] at hv
    rw [newlined, JsonValue.text, JsonValue.text]
    simp only [List.cons_append, List.append_assoc, List.nil_append]
    rw [newlines_cons (by decide), newlines_white hv.1, newlines_items items hv.2,
      newlines_cons (by decide)]
  | .object gap members =>
    rw [JsonValue.Valid] at hv
    rw [newlined, JsonValue.text, JsonValue.text]
    simp only [List.cons_append, List.append_assoc, List.nil_append]
    rw [newlines_cons (by decide), newlines_white hv.1, newlines_members members hv.2,
      newlines_cons (by decide)]

theorem newlines_items (items : List (JsonItem JsonValue)) (h : JsonValue.ItemsValid items)
    (tail : CStr) :
    newlines (JsonValue.itemsText items ++ tail)
      = JsonValue.itemsText (itemsNewlined items) ++ newlines tail := by
  match items with
  | [] => rw [itemsNewlined, JsonValue.itemsText]; rfl
  | ⟨pre, value, post⟩ :: rest =>
    rw [JsonValue.ItemsValid] at h
    obtain ⟨hpre, hvalue, hpost, hrest⟩ := h
    have hempty : (itemsNewlined rest).isEmpty = rest.isEmpty := by
      cases rest with
      | nil => rw [itemsNewlined]
      | cons m rest => rw [itemsNewlined]; rfl
    rw [itemsNewlined, JsonValue.itemsText, JsonValue.itemsText]
    simp only [List.append_assoc]
    rw [newlines_white hpre, newlines_value value hvalue, newlines_white hpost,
      separator_newlined hempty (newlines_items rest hrest tail)]

theorem newlines_members (members : List (JsonMember JsonValue)) (h : JsonValue.MembersValid members)
    (tail : CStr) :
    newlines (JsonValue.membersText members ++ tail)
      = JsonValue.membersText (membersNewlined members) ++ newlines tail := by
  match members with
  | [] => rw [membersNewlined, JsonValue.membersText]; rfl
  | ⟨pre, key, gap, gap', value, post⟩ :: rest =>
    rw [JsonValue.MembersValid] at h
    obtain ⟨hpre, -, hgap, hgap', hvalue, hpost, hrest⟩ := h
    have hempty : (membersNewlined rest).isEmpty = rest.isEmpty := by
      cases rest with
      | nil => rw [membersNewlined]
      | cons m rest => rw [membersNewlined]; rfl
    rw [membersNewlined, JsonValue.membersText, JsonValue.membersText]
    simp only [List.append_assoc, List.cons_append]
    rw [newlines_white hpre, newlines_quoted, newlines_white hgap, newlines_cons (by decide),
      newlines_white hgap', newlines_value value hvalue, newlines_white hpost,
      separator_newlined hempty (newlines_members rest hrest tail)]

end

/-! ## The strings of a tree -/

mutual

/-- The strings of the tree that is left. -/
theorem mem_parts_newlined (v : JsonValue) (raw : CStr) :
    (JsonKind.string, raw) ∈ (newlined v).parts ↔
      ∃ s, (JsonKind.string, s) ∈ v.parts ∧ raw = newlines s := by
  match v with
  | .scalar text =>
    rw [newlined, JsonValue.parts]
    simp
  | .string s =>
    rw [newlined, JsonValue.parts, JsonValue.parts]
    simp
  | .array gap items =>
    rw [newlined, JsonValue.parts, JsonValue.parts]
    simpa using mem_itemsParts_newlined items raw
  | .object gap members =>
    rw [newlined, JsonValue.parts, JsonValue.parts]
    simpa using mem_membersParts_newlined members raw

theorem mem_itemsParts_newlined (items : List (JsonItem JsonValue)) (raw : CStr) :
    (JsonKind.string, raw) ∈ JsonValue.itemsParts (itemsNewlined items) ↔
      ∃ s, (JsonKind.string, s) ∈ JsonValue.itemsParts items ∧ raw = newlines s := by
  match items with
  | [] =>
    rw [itemsNewlined, JsonValue.itemsParts]
    simp
  | ⟨pre, value, post⟩ :: rest =>
    rw [itemsNewlined, JsonValue.itemsParts, JsonValue.itemsParts, List.mem_append,
      mem_parts_newlined value, mem_itemsParts_newlined rest]
    simp only [List.mem_append, or_and_right, exists_or]

theorem mem_membersParts_newlined (members : List (JsonMember JsonValue)) (raw : CStr) :
    (JsonKind.string, raw) ∈ JsonValue.membersParts (membersNewlined members) ↔
      ∃ s, (JsonKind.string, s) ∈ JsonValue.membersParts members ∧ raw = newlines s := by
  match members with
  | [] =>
    rw [membersNewlined, JsonValue.membersParts]
    simp
  | ⟨pre, key, gap, gap', value, post⟩ :: rest =>
    rw [membersNewlined, JsonValue.membersParts, JsonValue.membersParts, List.mem_cons,
      List.mem_append, mem_parts_newlined value, mem_membersParts_newlined rest]
    simp only [List.mem_cons, List.mem_append, Prod.mk.injEq, true_and, or_and_right, exists_or,
      exists_eq_left]

end

/-! ## Escapes -/

/-- Four hexadecimal digits, behind `\u`. -/
def FourDigits (s : CStr) : Prop := (s.take 4).length = 4 ∧ ∀ c ∈ s.take 4, (hexDigit c).isSome

instance (s : CStr) : Decidable (FourDigits s) := inferInstanceAs (Decidable (_ ∧ _))

/-- What the tokenizer checks of a string: the byte behind a backslash. Every other
byte may be there, control bytes too. -/
def EscapesRight : CStr → Prop
  | [] => True
  | [c] => c ≠ backslash
  | c :: d :: s =>
    if c = backslash then (shortEscape d ≠ none ∨ d = 117 ∧ FourDigits s) ∧ EscapesRight s
    else EscapesRight (d :: s)

instance decidableEscapesRight : (s : CStr) → Decidable (EscapesRight s)
  | [] => inferInstanceAs (Decidable True)
  | [c] => inferInstanceAs (Decidable (c ≠ backslash))
  | c :: d :: s =>
    have := decidableEscapesRight s
    have := decidableEscapesRight (d :: s)
    inferInstanceAs (Decidable (if c = backslash then
      (shortEscape d ≠ none ∨ d = 117 ∧ FourDigits s) ∧ EscapesRight s else EscapesRight (d :: s)))

/-- An escaped backslash has an `n` behind it. -/
def EscapedN : CStr → Prop
  | [] => False
  | [_] => False
  | c :: d :: s =>
    if c = backslash then (d = backslash ∧ s.head? = some letterN) ∨ EscapedN s
    else EscapedN (d :: s)

theorem escapesRight_cons {c : UInt8} (hc : c ≠ backslash) (s : CStr) :
    EscapesRight (c :: s) ↔ EscapesRight s := by
  cases s with
  | nil => simp [EscapesRight, hc]
  | cons d s => rw [EscapesRight, if_neg hc]

theorem escapedN_cons {c : UInt8} (hc : c ≠ backslash) (s : CStr) :
    EscapedN (c :: s) ↔ EscapedN s := by
  cases s with
  | nil => simp [EscapedN]
  | cons d s => rw [EscapedN, if_neg hc]

theorem not_escapedN {s : CStr} (h : backslash ∉ s) : ¬ EscapedN s := by
  induction s with
  | nil => exact id
  | cons c s ih =>
    rw [List.mem_cons, not_or] at h
    rw [escapedN_cons (Ne.symm h.1)]
    exact ih h.2

theorem hexDigit_ne {c : UInt8} (h : (hexDigit c).isSome) : c ≠ backslash := by
  rintro rfl
  exact absurd h (by decide)

theorem fourDigits_cons {a b c d : UInt8} (ha : (hexDigit a).isSome) (hb : (hexDigit b).isSome)
    (hc : (hexDigit c).isSome) (hd : (hexDigit d).isSome) (s : CStr) :
    FourDigits (a :: b :: c :: d :: s) := by
  refine ⟨rfl, ?_⟩
  simp [ha, hb, hc, hd]

/-- **The escapes of a string are right behind the call** exactly if no escaped
backslash had an `n` behind it. -/
theorem escapesRight_newlines {raw : CStr} (h : StringBody raw) :
    EscapesRight (newlines raw) ↔ ¬ EscapedN raw := by
  induction h with
  | nil => simp [newlines, EscapesRight, EscapedN]
  | plain hc _ ih => rw [newlines_cons hc.2.2, escapesRight_cons hc.2.2, escapedN_cons hc.2.2, ih]
  | @escape c d raw hc hraw ih =>
    by_cases hn : c = letterN
    · subst hn
      rw [newlines, if_pos ⟨rfl, rfl⟩, escapesRight_cons (by decide), ih, EscapedN, if_pos rfl]
      simp [show letterN ≠ backslash by decide]
    · have hfirst : newlines (backslash :: c :: raw) = backslash :: newlines (c :: raw) := by
        rw [newlines, if_neg fun h => hn h.2]
      have hescape : shortEscape c ≠ none := by simp [hc]
      rw [hfirst, EscapedN, if_pos rfl]
      by_cases hb : c = backslash
      · subst hb
        cases raw with
        | nil => simp [newlines, EscapesRight, EscapedN, hescape]
        | cons e raw =>
          by_cases he : e = letterN
          · -- the second backslash and the `n` are taken for one pair
            subst he
            rw [newlines, if_pos ⟨rfl, rfl⟩, EscapesRight, if_pos rfl]
            simp [shortEscape, lineFeed, quote, backslash]
          · rw [newlines, if_neg fun h => he h.2, EscapesRight, if_pos rfl, ih]
            simp [hescape, he]
      · rw [newlines_cons hb, EscapesRight, if_pos rfl, ih]
        simp [hescape, hb]
  | @unicode a b c d raw ha hb hc hd _ ih =>
    have hdigits : newlines (a :: b :: c :: d :: raw) = a :: b :: c :: d :: newlines raw := by
      rw [newlines_cons (hexDigit_ne ha), newlines_cons (hexDigit_ne hb),
        newlines_cons (hexDigit_ne hc), newlines_cons (hexDigit_ne hd)]
    have hfirst : newlines (backslash :: 117 :: a :: b :: c :: d :: raw)
        = backslash :: 117 :: a :: b :: c :: d :: newlines raw := by
      rw [newlines, if_neg fun h => absurd h.2 (by decide), newlines_cons (by decide), hdigits]
    have hfour := fourDigits_cons ha hb hc hd (newlines raw)
    rw [hfirst, EscapesRight, if_pos rfl, EscapedN, if_pos rfl,
      escapesRight_cons (hexDigit_ne ha), escapesRight_cons (hexDigit_ne hb),
      escapesRight_cons (hexDigit_ne hc), escapesRight_cons (hexDigit_ne hd), ih,
      escapedN_cons (hexDigit_ne ha), escapedN_cons (hexDigit_ne hb),
      escapedN_cons (hexDigit_ne hc), escapedN_cons (hexDigit_ne hd)]
    simp [hfour, backslash]

mutual

/-- The strings of a valid value. -/
theorem stringBody_of_parts (v : JsonValue) (hv : v.Valid) (raw : CStr)
    (h : (JsonKind.string, raw) ∈ v.parts) : StringBody raw := by
  match v with
  | .scalar text =>
    rw [JsonValue.parts] at h
    simp at h
  | .string s =>
    rw [JsonValue.Valid] at hv
    rw [JsonValue.parts] at h
    simp only [List.mem_singleton, Prod.mk.injEq, true_and] at h
    exact h ▸ hv
  | .array gap items =>
    rw [JsonValue.Valid] at hv
    rw [JsonValue.parts] at h
    exact stringBody_of_itemsParts items hv.2 raw (by simpa using h)
  | .object gap members =>
    rw [JsonValue.Valid] at hv
    rw [JsonValue.parts] at h
    exact stringBody_of_membersParts members hv.2 raw (by simpa using h)

theorem stringBody_of_itemsParts (items : List (JsonItem JsonValue))
    (hv : JsonValue.ItemsValid items) (raw : CStr)
    (h : (JsonKind.string, raw) ∈ JsonValue.itemsParts items) : StringBody raw := by
  match items with
  | [] =>
    rw [JsonValue.itemsParts] at h
    simp at h
  | ⟨pre, value, post⟩ :: rest =>
    rw [JsonValue.ItemsValid] at hv
    rw [JsonValue.itemsParts, List.mem_append] at h
    rcases h with h | h
    · exact stringBody_of_parts value hv.2.1 raw h
    · exact stringBody_of_itemsParts rest hv.2.2.2 raw h

theorem stringBody_of_membersParts (members : List (JsonMember JsonValue))
    (hv : JsonValue.MembersValid members) (raw : CStr)
    (h : (JsonKind.string, raw) ∈ JsonValue.membersParts members) : StringBody raw := by
  match members with
  | [] =>
    rw [JsonValue.membersParts] at h
    simp at h
  | ⟨pre, key, gap, gap', value, post⟩ :: rest =>
    rw [JsonValue.MembersValid] at hv
    obtain ⟨-, hkey, -, -, hvalue, -, hrest⟩ := hv
    rw [JsonValue.membersParts, List.mem_cons, List.mem_append] at h
    rcases h with h | h | h
    · rw [Prod.mk.injEq] at h
      exact h.2 ▸ hkey
    · exact stringBody_of_parts value hvalue raw h
    · exact stringBody_of_membersParts rest hrest raw h

end

/-! ## Reading what is left -/

/-- All strings have right escapes behind the call. -/
def EscapesKept (d : ObjectDoc) : Prop :=
  ∀ raw, (JsonKind.string, raw) ∈ (newlined d.value).parts → EscapesRight raw

/-- The tokenizer reads what the call leaves of a text: its tokens are there, control
bytes in strings or not, and without right escapes it has no tokens. -/
structure Jsmn.ReadsNewlined (jsmn : Jsmn) (d : ObjectDoc) (toks : List Tok) : Prop where
  parse : EscapesKept d → jsmn.parse (newlines d.text) = some toks
  spans : EscapesKept d → toks.map Tok.span = valueSpans d.pre.length (newlined d.value)
  reject : ¬ EscapesKept d → jsmn.parse (newlines d.text) = none

theorem escapesKept_iff (d : ObjectDoc) :
    EscapesKept d ↔ ∀ raw, (JsonKind.string, raw) ∈ d.value.parts → ¬ EscapedN raw := by
  constructor
  · intro h raw hraw
    rw [← escapesRight_newlines (stringBody_of_parts d.value d.valid raw hraw)]
    exact h _ ((mem_parts_newlined d.value _).mpr ⟨raw, hraw, rfl⟩)
  · intro h raw hraw
    obtain ⟨s, hs, rfl⟩ := (mem_parts_newlined d.value raw).mp hraw
    exact (escapesRight_newlines (stringBody_of_parts d.value d.valid s hs)).mpr (h s hs)

theorem newlines_text (d : ObjectDoc) :
    newlines d.text = d.pre ++ ((newlined d.value).text ++ d.post) := by
  rw [ObjectDoc.text, newlines_white d.white.1, newlines_value d.value d.valid,
    newlines_clean (white_clean d.white.2)]

theorem newlined_object (d : ObjectDoc) :
    newlined d.value = .object d.gap (membersNewlined d.members) := by
  rw [ObjectDoc.value, newlined]

/-- The lookup of the only such strings is right behind the call, too. -/
theorem pvJsonGetValue_newlined {d : ObjectDoc} {toks : List Tok}
    (htoks : toks.map Tok.span = valueSpans d.pre.length (newlined d.value)) {key : CStr}
    (hkey : lineFeed ∉ key) (hclean : newlines key = key) (honly : OnlyKey d key) :
    pvJsonGetValue (newlines d.text) key toks =
      (d.members.find? fun m => m.key = key).map fun m => valueText (newlined m.value) := by
  have hreads : List.Forall₂ (fun t p => t.span.Reads (newlines d.text) p) toks
      (newlined d.value).parts := by
    rw [← List.forall₂_map_left_iff, htoks]
    exact reads_value d.pre d.post (newlined d.value) (newlines_text d) rfl
  have hiff : ∀ raw, newlines raw = key ↔ raw = key := by
    intro raw
    rw [newlines_eq_iff hkey]
    exact ⟨fun h => h.1, fun h => ⟨h, hclean⟩⟩
  -- no other string becomes the key
  have honly' : ∀ m ∈ membersNewlined d.members, (JsonKind.string, key) ∉ m.value.parts := by
    rw [membersNewlined_eq, List.forall_mem_map]
    intro m hm hmem
    obtain ⟨raw, hraw, heq⟩ := (mem_parts_newlined m.value key).mp hmem
    exact honly m hm ((hiff raw).mp heq.symm ▸ hraw)
  have hmembers : (membersNewlined d.members).find? (fun m => m.key = key)
      = (d.members.find? fun m => m.key = key).map fun m =>
          { m with key := newlines m.key, value := newlined m.value } := by
    rw [membersNewlined_eq, List.find?_map]
    simp only [Function.comp_def, hiff]
  rw [pvJsonGetValue, pvJsonGetValueLoop_of_reads hreads, newlined_object, JsonValue.parts,
    lookupParts, if_neg (by simp), if_neg (by simp), lookupParts_members honly', hmembers,
    Option.map_map]
  rfl

/-- The tokenizer, with the check of the escapes that the library has. -/
def checkedTokenizer : Jsmn :=
  { tokenizer with parse := fun buf => if EscapesRight buf then tokenizer.parse buf else none }

end Pantavisor.Json
