/-
Pantavisor.Signature.Payload — the text that is signed
(`pv_signature_get_json_files`).

`payloadText` says what the text is: a brace, the included pairs with commas
between them, a brace. The code builds it in a buffer that it makes longer by
a running length. The string always fills that buffer (`OutBuffer.tight`), so no
write goes behind it and the last comma is where `len - 2` says, up to the length
that an `int` does not hold.

Two lists with the same text are the same list, because each part of it tells
where it ends: a raw string at its quote, an object at its closing brace.
-/
import Pantavisor.Signature.Signature

namespace Pantavisor.Signature

open Pantavisor.Lib

/-- The pairs that are included, as they go into the payload. -/
def entries (pairs : List Pair) : List (CStr × CStr) :=
  (pairs.filter (·.included)).map fun p => (p.key, p.value)

/-- A value in the payload: in quotes, unless it is an object. -/
def valueText (value : CStr) : CStr :=
  if value.head? = some openBrace then value else quote :: (value ++ [quote])

/-- A pair in the payload. -/
def entryText (e : CStr × CStr) : CStr :=
  quote :: (e.1 ++ quote :: colon :: valueText e.2)

/-- The pairs joined by commas. -/
def joinEntries : List (CStr × CStr) → CStr
  | [] => []
  | [e] => entryText e
  | e :: f :: rest => entryText e ++ comma :: joinEntries (f :: rest)

/-- The payload of a list of pairs. -/
def payloadText (es : List (CStr × CStr)) : CStr :=
  openBrace :: (joinEntries es ++ [closeBrace])

/-! ## The text that the code builds -/

/-- A buffer with a string, its terminator, and nothing else. -/
def OutBuffer.tight (text : CStr) : OutBuffer := ⟨text, text.length + 1⟩

theorem strcat_fits {text s : CStr} {n : Nat} (h : text.length + s.length + 1 ≤ n) :
    OutBuffer.strcat ⟨text, n⟩ s = some ⟨text ++ s, n⟩ := if_pos h

/-- Strings that fit into the buffer together are appended one after the other. -/
theorem strcats_fit {ss : List CStr} {text : CStr} {n : Nat}
    (h : text.length + ss.flatten.length + 1 ≤ n) :
    ss.foldlM OutBuffer.strcat ⟨text, n⟩ = some ⟨text ++ ss.flatten, n⟩ := by
  induction ss generalizing text with
  | nil => simp
  | cons s ss ih =>
    rw [List.flatten_cons, List.length_append] at h
    have hrest : (text ++ s).length + ss.flatten.length + 1 ≤ n := by
      rw [List.length_append]
      omega
    rw [List.foldlM_cons, strcat_fits (by omega), Option.bind_eq_bind, Option.bind_some, ih hrest,
      List.flatten_cons, List.append_assoc]

/-- A buffer that its string fills is filled again when it has been made longer by what is
appended, unless the length is no `int`. -/
theorem grow_tight (text : CStr) (ss : List CStr) :
    ((OutBuffer.tight text).realloc ((text ++ ss.flatten).length + 1)).bind (fun out =>
        ss.foldlM OutBuffer.strcat out)
      = if (text ++ ss.flatten).length + 1 < 2 ^ 31 then some (.tight (text ++ ss.flatten))
        else none := by
  rw [OutBuffer.realloc]
  split
  · rw [Option.bind_some]
    exact strcats_fit (Nat.le_of_eq (by rw [List.length_append]; rfl))
  · rfl

/-- What stands in the payload before and behind a value. -/
def valueParts (value : CStr) : List CStr :=
  if value.head? ≠ some openBrace then [str "\":\"", value, str "\""] else [str "\":", value]

theorem flatten_valueParts (value : CStr) :
    (valueParts value).flatten = quote :: colon :: valueText value := by
  unfold valueParts valueText
  by_cases hobj : value.head? = some openBrace
  · rw [if_neg (by simp [hobj]), if_pos hobj]
    exact congrArg (quote :: colon :: ·) (List.append_nil value)
  · rw [if_pos hobj, if_neg hobj]
    rfl

/-- A round of the loop makes the buffer longer three times: for the key, the value and the
comma. -/
theorem appendPair_grows (p : Pair) (out : OutBuffer) (len : Nat) :
    appendPair p out len
      = ((out.realloc (len + [str "\"", p.key].flatten.length)).bind fun out =>
          [str "\"", p.key].foldlM OutBuffer.strcat out).bind fun out =>
        let len := len + [str "\"", p.key].flatten.length
        ((out.realloc (len + (valueParts p.value).flatten.length)).bind fun out =>
          (valueParts p.value).foldlM OutBuffer.strcat out).bind fun out =>
        let len := len + (valueParts p.value).flatten.length
        ((out.realloc (len + [str ","].flatten.length)).bind fun out =>
          [str ","].foldlM OutBuffer.strcat out).map fun out =>
        (out, len + [str ","].flatten.length) := by
  have hkey : len + [str "\"", p.key].flatten.length = len + 1 + p.key.length := by
    rw [List.flatten_cons, List.length_append, List.flatten_singleton, ← Nat.add_assoc]
    rfl
  rw [hkey]
  by_cases hobj : p.value.head? = some openBrace
  · have hvalue : (valueParts p.value).flatten.length = 2 + p.value.length := by
      rw [flatten_valueParts, valueText, if_pos hobj]
      simp only [List.length_cons]
      omega
    rw [hvalue, valueParts, if_neg (not_not.mpr hobj)]
    simp only [appendPair, hobj, ne_eq, not_true_eq_false, if_false, List.foldlM_cons,
      List.foldlM_nil, Option.pure_def, Option.bind_eq_bind, Option.bind_some, Option.bind_fun_some,
      Option.map_eq_bind, Option.bind_assoc, Nat.add_assoc]
    rfl
  · have hvalue : (valueParts p.value).flatten.length = 4 + p.value.length := by
      rw [flatten_valueParts, valueText, if_neg hobj]
      simp only [List.length_cons, List.length_append, List.length_nil]
      omega
    rw [hvalue, valueParts, if_pos hobj]
    simp only [appendPair, hobj, ne_eq, not_false_eq_true, if_true, List.foldlM_cons,
      List.foldlM_nil, Option.pure_def, Option.bind_eq_bind, Option.bind_some, Option.bind_fun_some,
      Option.map_eq_bind, Option.bind_assoc, Nat.add_assoc]
    rfl

/-- One round of the loop adds the pair and a comma, and keeps the buffer tight. -/
theorem appendPair_eq (p : Pair) (text : CStr) :
    let text' := text ++ (entryText (p.key, p.value) ++ [comma])
    appendPair p (.tight text) (text.length + 1)
      = if text'.length + 1 < 2 ^ 31 then some (.tight text', text'.length + 1) else none := by
  have hgrown : ∀ (text : CStr) (ss : List CStr),
      text.length + 1 + ss.flatten.length = (text ++ ss.flatten).length + 1 := by
    intro text ss
    rw [List.length_append]
    omega
  have htext : text ++ (entryText (p.key, p.value) ++ [comma])
      = ((text ++ [str "\"", p.key].flatten) ++ (valueParts p.value).flatten)
        ++ [str ","].flatten := by
    rw [flatten_valueParts, entryText]
    simp only [List.flatten_cons, List.flatten_nil, List.append_nil, List.append_assoc,
      List.cons_append]
    rfl
  rw [appendPair_grows, htext]
  simp only [hgrown]
  -- a length that is no `int` ends the round, and the later ones are not less
  rw [grow_tight]
  by_cases hkey : (text ++ [str "\"", p.key].flatten).length + 1 < 2 ^ 31
  swap
  · rw [if_neg hkey, if_neg (by simp only [List.length_append] at hkey ⊢; omega)]
    rfl
  rw [if_pos hkey, Option.bind_some, grow_tight]
  by_cases hvalue : ((text ++ [str "\"", p.key].flatten)
      ++ (valueParts p.value).flatten).length + 1 < 2 ^ 31
  swap
  · rw [if_neg hvalue, if_neg (by simp only [List.length_append] at hvalue ⊢; omega)]
    rfl
  rw [if_pos hvalue, Option.bind_some, grow_tight]
  split <;> rfl

/-- The entries with a comma behind each. -/
def commaEntries (es : List (CStr × CStr)) : CStr := es.flatMap fun e => entryText e ++ [comma]

/-- The loop adds every included pair with a comma behind it. -/
theorem appendPairs_eq (pairs : List Pair) {text : CStr} (h : text.length + 1 < 2 ^ 31) :
    let text' := text ++ commaEntries (entries pairs)
    appendPairs pairs (.tight text) (text.length + 1)
      = if text'.length + 1 < 2 ^ 31 then some (.tight text', text'.length + 1) else none := by
  induction pairs generalizing text with
  | nil =>
    show some _ = _
    rw [show commaEntries (entries []) = [] from rfl, List.append_nil, if_pos h]
  | cons p ps ih =>
    rw [appendPairs]
    cases hp : p.included with
    | false =>
      have hentries : entries (p :: ps) = entries ps := by simp [entries, hp]
      rw [if_pos (by simp), hentries]
      exact ih h
    | true =>
      have hentries : entries (p :: ps) = (p.key, p.value) :: entries ps := by simp [entries, hp]
      have htext : text ++ commaEntries (entries (p :: ps))
          = text ++ (entryText (p.key, p.value) ++ [comma]) ++ commaEntries (entries ps) := by
        simp [hentries, commaEntries]
      rw [if_neg (by simp), appendPair_eq p text, htext]
      by_cases hfirst : (text ++ (entryText (p.key, p.value) ++ [comma])).length + 1 < 2 ^ 31
      · rw [if_pos hfirst]
        exact ih hfirst
      · rw [if_neg hfirst]
        dsimp only
        rw [if_neg (by rw [List.length_append]; omega)]

theorem commaEntries_eq {es : List (CStr × CStr)} (h : es ≠ []) :
    commaEntries es = joinEntries es ++ [comma] := by
  induction es with
  | nil => exact absurd rfl h
  | cons e es ih =>
    cases es with
    | nil => simp [commaEntries, joinEntries]
    | cons f rest =>
      have := ih (by simp)
      rw [commaEntries, List.flatMap_cons, ← commaEntries, this, joinEntries]
      simp

theorem length_payloadText {es : List (CStr × CStr)} (h : es ≠ []) :
    (payloadText es).length = (openBrace :: commaEntries es).length := by
  rw [commaEntries_eq h]
  simp [payloadText]

/-- **The payload** is what `payloadText` says, if an `int` holds its length with the
terminator, and then no write goes behind the buffer. -/
theorem getJsonFiles_eq (pairs : List Pair) :
    pvSignatureGetJsonFiles pairs
      = if (payloadText (entries pairs)).length + 1 < 2 ^ 31 then
          some (payloadText (entries pairs))
        else none := by
  have hstart : OutBuffer.strcat ⟨[], 2⟩ (str "\x7b") = some (.tight [openBrace]) := rfl
  have hloop := appendPairs_eq pairs (show [openBrace].length + 1 < 2 ^ 31 by decide)
  simp only [List.length_singleton, Nat.reduceAdd, List.singleton_append] at hloop
  simp only [pvSignatureGetJsonFiles, hstart, hloop, Option.bind_eq_bind, Option.bind_some]
  by_cases hes : entries pairs = []
  · rw [hes]
    rfl
  · rw [length_payloadText hes]
    split
    · rename_i hlen
      have hshort : 2 < (openBrace :: commaEntries (entries pairs)).length + 1 := by
        rw [commaEntries_eq hes]
        simp
      rw [Option.bind_some, if_pos hshort, if_neg (by simp [OutBuffer.tight])]
      -- everything but the last comma is kept
      rw [OutBuffer.tight, commaEntries_eq hes]
      simp only [Option.pure_def, payloadText]
      rw [show (openBrace :: (joinEntries (entries pairs) ++ [comma])).length + 1 - 2
          = (openBrace :: joinEntries (entries pairs)).length by simp,
        ← List.cons_append, List.take_left, List.cons_append]
    · rfl

/-! ## Injectivity -/

/-- A pair as a state JSON has it: the key is the body of a string, and the
value is the body of a string that does not look like an object, or an object. -/
def Signable (e : CStr × CStr) : Prop :=
  RawString e.1 ∧ (RawString e.2 ∧ e.2.head? ≠ some openBrace ∨ ObjectText e.2)

theorem valueText_string {v : CStr} (h : v.head? ≠ some openBrace) :
    valueText v = quote :: (v ++ [quote]) := if_neg h

theorem valueText_object {v : CStr} (h : ObjectText v) : valueText v = v := if_pos h.head

/-- The first byte of a value's text tells an object from a string. -/
theorem string_ne_object {v w s t : CStr} (hw : ObjectText w) :
    quote :: (v ++ [quote]) ++ s ≠ w ++ t := by
  intro h
  cases w with
  | nil => exact absurd hw (by simp [ObjectText])
  | cons c w =>
    have hc : quote = c := (List.cons.inj h).1
    exact absurd (hc.trans hw.1) (by decide)

/-- A value's text tells where it ends, and which value it is of. -/
theorem valueText_inj {v w s t : CStr}
    (hv : RawString v ∧ v.head? ≠ some openBrace ∨ ObjectText v)
    (hw : RawString w ∧ w.head? ≠ some openBrace ∨ ObjectText w)
    (h : valueText v ++ s = valueText w ++ t) : v = w ∧ s = t := by
  rcases hv with ⟨hv, hvb⟩ | hv <;> rcases hw with ⟨hw, hwb⟩ | hw
  · rw [valueText_string hvb, valueText_string hwb] at h
    have h' : v ++ quote :: s = w ++ quote :: t := by simpa using h
    exact hv.append_inj hw h'
  · rw [valueText_string hvb, valueText_object hw] at h
    exact absurd h (string_ne_object hw)
  · rw [valueText_object hv, valueText_string hwb] at h
    exact absurd h.symm (string_ne_object hv)
  · rw [valueText_object hv, valueText_object hw] at h
    exact hv.append_inj hw h

theorem entryText_inj {e f : CStr × CStr} {s t : CStr} (he : Signable e) (hf : Signable f)
    (h : entryText e ++ s = entryText f ++ t) : e = f ∧ s = t := by
  have h' : e.1 ++ quote :: (colon :: valueText e.2 ++ s)
      = f.1 ++ quote :: (colon :: valueText f.2 ++ t) := by
    simpa [entryText] using h
  obtain ⟨hkey, hrest⟩ := he.1.append_inj hf.1 h'
  obtain ⟨hvalue, hst⟩ := valueText_inj he.2 hf.2 (List.cons.inj hrest).2
  exact ⟨Prod.ext hkey hvalue, hst⟩

/-- What follows the first of two or more entries, and the one of one. -/
theorem joinEntries_cons (e : CStr × CStr) (es : List (CStr × CStr)) :
    joinEntries (e :: es) ++ [closeBrace]
      = entryText e ++ (if es = [] then [closeBrace] else comma :: (joinEntries es ++ [closeBrace])) := by
  cases es with
  | nil => rfl
  | cons f rest => simp [joinEntries]

/-- The joined entries tell which they are. -/
theorem joinEntries_inj {es fs : List (CStr × CStr)} (hes : ∀ e ∈ es, Signable e)
    (hfs : ∀ f ∈ fs, Signable f)
    (h : joinEntries es ++ [closeBrace] = joinEntries fs ++ [closeBrace]) : es = fs := by
  have hne : ∀ (e : CStr × CStr) (es : List (CStr × CStr)),
      joinEntries (e :: es) ++ [closeBrace] ≠ [closeBrace] := by
    intro e es h
    rw [joinEntries_cons, entryText, List.cons_append] at h
    exact absurd (List.cons.inj h).1 (by decide)
  induction es generalizing fs with
  | nil =>
    cases fs with
    | nil => rfl
    | cons f fs => exact absurd h.symm (hne f fs)
  | cons e es ih =>
    cases fs with
    | nil => exact absurd h (hne e es)
    | cons f fs =>
      rw [joinEntries_cons, joinEntries_cons] at h
      obtain ⟨rfl, hrest⟩ := entryText_inj (hes e (by simp)) (hfs f (by simp)) h
      congr 1
      -- a comma behind the entry means that more follow
      by_cases he : es = [] <;> by_cases hf : fs = []
      · rw [he, hf]
      · rw [if_pos he, if_neg hf] at hrest
        exact absurd (List.cons.inj hrest).1 (by decide)
      · rw [if_neg he, if_pos hf] at hrest
        exact absurd (List.cons.inj hrest).1 (by decide)
      · rw [if_neg he, if_neg hf] at hrest
        exact ih (fun e he => hes e (by simp [he])) (fun f hf => hfs f (by simp [hf]))
          (List.cons.inj hrest).2

theorem payloadText_inj {es fs : List (CStr × CStr)} (hes : ∀ e ∈ es, Signable e)
    (hfs : ∀ f ∈ fs, Signable f) (h : payloadText es = payloadText fs) : es = fs :=
  joinEntries_inj hes hfs (List.cons.inj h).2

/-- **The payload determines the pairs.** For every list of pairs the text is the one of
its included pairs, built inside the buffer, exactly if an `int` holds its length with the
terminator; and two lists of pairs as a state JSON has them that give the same text include
the same pairs, in the same order. -/
theorem payload_determines_pairs_iff (pairs pairs' : List Pair) :
    (pvSignatureGetJsonFiles pairs = some (payloadText (entries pairs)) ↔
      (payloadText (entries pairs)).length + 1 < 2 ^ 31) ∧
    ((∀ e ∈ entries pairs, Signable e) → (∀ e ∈ entries pairs', Signable e) →
      ∀ text, pvSignatureGetJsonFiles pairs = some text →
        pvSignatureGetJsonFiles pairs' = some text → entries pairs = entries pairs') := by
  constructor
  · rw [getJsonFiles_eq]
    split
    · rename_i hlen
      exact ⟨fun _ => hlen, fun _ => rfl⟩
    · rename_i hlen
      exact ⟨(fun h => by cases h), fun h => absurd h hlen⟩
  · intro hp hp' text h h'
    rw [getJsonFiles_eq] at h h'
    have htext := (Option.ite_none_right_eq_some.mp h).2
    have htext' := (Option.ite_none_right_eq_some.mp h').2
    exact payloadText_inj hp hp' (Option.some.inj (htext.trans htext'.symm))

/-- A list with two pairs, and one more that is not included. -/
def twoOfThree (covered : Bool) : List Pair :=
  [⟨str "a", str "1f", true, covered⟩, ⟨str "b", str "2e", false, true⟩,
    ⟨str "c.json", str "\x7b\"x\":\"\x7d\"\x7d", true, true⟩]

/-- Marks, and a pair that is not included, are no part of the text. -/
theorem payload_determines_pairs_filtered :
    pvSignatureGetJsonFiles (twoOfThree true) = some (payloadText (entries (twoOfThree true))) ∧
      entries (twoOfThree true) = entries ((twoOfThree false).filter (·.included)) := by
  have hsign : ∀ e ∈ ([(str "a", str "1f"), (str "c.json", str "\x7b\"x\":\"\x7d\"\x7d")] :
      List (CStr × CStr)), Signable e := by
    intro e he
    simp only [List.mem_cons, List.not_mem_nil, or_false] at he
    rcases he with rfl | rfl
    · exact ⟨by simp [RawString, str, quote, backslash], .inl
        ⟨by simp [RawString, str, quote, backslash], by decide⟩⟩
    · refine ⟨by simp [RawString, str, quote, backslash], .inr ?_⟩
      simp [ObjectText, Closes, str, quote, backslash, openBrace, closeBrace, openBracket,
        closeBracket]
  obtain ⟨htext, hpairs⟩ := payload_determines_pairs_iff (twoOfThree true)
    ((twoOfThree false).filter (·.included))
  have hshort := htext.mpr (by decide +kernel)
  exact ⟨hshort, hpairs hsign hsign _ hshort (by decide +kernel)⟩

theorem rawString_replicate (n : Nat) : RawString (List.replicate n 97) := by
  induction n with
  | zero => trivial
  | succ n ih =>
    cases n with
    | zero => exact ⟨by decide, by decide⟩
    | succ n =>
      rw [List.replicate_succ, List.replicate_succ, RawString, if_neg (by decide)]
      exact ⟨by decide, ih⟩

/-- A pair with a long value. -/
def longPair (n : Nat) : Pair := ⟨str "a", List.replicate n 97, true, false⟩

theorem signable_longPair (n : Nat) : ∀ e ∈ entries [longPair n], Signable e := by
  intro e he
  have hentries : entries [longPair n] = [(str "a", List.replicate n 97)] := rfl
  rw [hentries, List.mem_singleton] at he
  subst he
  refine ⟨by simp [RawString, str, quote, backslash], .inl ⟨rawString_replicate n, ?_⟩⟩
  cases n with
  | zero => simp
  | succ n => simp [List.replicate_succ, openBrace]

theorem length_longPair (n : Nat) : n ≤ (payloadText (entries [longPair n])).length := by
  have hentries : entries [longPair n] = [(str "a", List.replicate n 97)] := rfl
  rw [hentries, payloadText, joinEntries, entryText, valueText]
  split
  · simp only [List.length_cons, List.length_append, List.length_replicate]
    omega
  · simp only [List.length_cons, List.length_append, List.length_replicate]
    omega

/-- A value of 2 GiB leaves no text. -/
theorem payload_of_long_value :
    ¬ ∀ pairs, (∀ e ∈ entries pairs, Signable e) →
      pvSignatureGetJsonFiles pairs = some (payloadText (entries pairs)) := by
  intro h
  have htext := h [longPair (2 ^ 31)] (signable_longPair (2 ^ 31))
  have hlen := length_longPair (2 ^ 31)
  rw [getJsonFiles_eq, if_neg (by omega)] at htext
  cases htext

end Pantavisor.Signature
