/-
Pantavisor.Signature.Patterns — which pairs the lists of a signature select.

A pattern is `**`, `D/**` or any other. `**` is to select every key, but the code has the empty
pattern matched with `FNM_LEADING_DIR`, and that selects the empty key and those that begin
with a slash only. The pairs that are included are right exactly where `**` is of no
consequence (`filterFiles_included_iff`).
-/
import Mathlib.Data.List.DropRight
import Pantavisor.Json.Document
import Pantavisor.Signature.Coverage

namespace Pantavisor.Signature

open Pantavisor.Lib Pantavisor.Json

/-! ## What the patterns say -/

/-- A key is a directory or below it. -/
def Below (dir key : CStr) : Prop := key = dir ∨ ∃ rest, key = dir ++ str "/" ++ rest

/-- A character that stands for itself in a pattern of `fnmatch`: not `*`, `?`, `[` or a
backslash. -/
def Ordinary (c : UInt8) : Prop := c ≠ 42 ∧ c ≠ 63 ∧ c ≠ 91 ∧ c ≠ 92

instance (c : UInt8) : Decidable (Ordinary c) := by unfold Ordinary; infer_instance

/-- What the manual says of `fnmatch` with `FNM_PATHNAME`, the flag being
`FNM_LEADING_DIR`. -/
structure PosixFnmatch (fnmatch : Bool → CStr → CStr → Bool) : Prop where
  /-- ordinary characters match themselves -/
  ordinary : ∀ pattern s, (∀ c ∈ pattern, Ordinary c) → (fnmatch false pattern s ↔ s = pattern)
  /-- the string, or an initial segment of it that a slash follows, is matched -/
  leadingDir : ∀ pattern s,
    fnmatch true pattern s ↔ ∃ dir, fnmatch false pattern dir ∧ Below dir s

/-- The name of a directory without the slashes at its end. -/
def stripSlashes (dir : CStr) : CStr :=
  if dir.rdropWhile (· = 47) = [] then str "/" else dir.rdropWhile (· = 47)

/-- A pattern in a list of a signature. -/
inductive Pattern where
  | all
  | below (dir : CStr)
  | other (pattern : CStr)
  deriving DecidableEq, Repr

/-- The pattern that a text is. There is a directory before the `/**`. -/
def Pattern.ofText (text : CStr) : Pattern :=
  if text = str "**" then .all
  else if 3 < text.length ∧ (str "/**").isSuffixOf text then
    .below (stripSlashes (text.take (text.length - 3)))
  else .other text

/-- The keys that a pattern is to select. The directory may itself be a pattern. -/
def Pattern.Selects (fnmatch : Bool → CStr → CStr → Bool) : Pattern → CStr → Prop
  | .all, _ => True
  | .below dir, key => ∃ d, fnmatch false dir d ∧ Below d key
  | .other pattern, key => fnmatch false pattern key

/-- A pattern of a list selects the key. -/
def ListSelects (env : Env) (texts : List CStr) (key : CStr) : Prop :=
  ∃ text ∈ texts, (Pattern.ofText text).Selects env.fnmatch key

/-- The keys that a signature is to be for. -/
def Wanted (env : Env) (incl excl : List CStr) (key : CStr) : Prop :=
  ListSelects env incl key ∧ ¬ ListSelects env excl key

/-- The pairs are still the same ones, and those with a wanted key are included. -/
def IncludedExactly (wanted : CStr → Prop) (pairs : List Pair) (result : Option (List Pair)) :
    Prop :=
  ∃ pairs', result = some pairs' ∧
    pairs'.map (fun p => (p.key, p.value)) = pairs.map (fun p => (p.key, p.value)) ∧
    ∀ p ∈ pairs', p.included = true ↔ wanted p.key

/-- The tokenizer reads a text as the list of strings that it is. -/
def ReadsList (jsmn : Jsmn) (text : CStr) (texts : List CStr) : Prop :=
  ∃ gap items toks, text = (JsonValue.array gap items).text ∧ (JsonValue.array gap items).Valid ∧
    items.map (·.value) = texts.map .string ∧ jsmn.parse text = some toks ∧
    toks.map Tok.span = valueSpans 0 (.array gap items) ∧
    jsmn.arrayCount text toks 0 = items.length

/-- A directory of ordinary characters stands for itself: exactly its key and those below it
are selected. -/
theorem selects_below_ordinary {fnmatch : Bool → CStr → CStr → Bool} (hfn : PosixFnmatch fnmatch)
    {dir : CStr} (hdir : ∀ c ∈ dir, Ordinary c) (key : CStr) :
    (Pattern.below dir).Selects fnmatch key ↔ Below dir key := by
  simp only [Pattern.Selects, hfn.ordinary dir _ hdir, exists_eq_left]

/-! ## What the code makes of a pattern -/

/-- `dirname` of `D/**` is `D` without the slashes at its end. -/
theorem dirname_starStar (dir : CStr) : dirname (dir ++ str "/**") = stripSlashes dir := by
  have hslash : str "/**" = [47, 42, 42] := by decide
  simp [dirname, stripSlashes, hslash, List.rdropWhile]

/-- **A pattern** selects what it says, but for `**`. -/
theorem patternMatches_iff {env : Env} (hfn : PosixFnmatch env.fnmatch) (text key : CStr) :
    patternMatches env text key ↔ (Pattern.ofText text).Selects env.fnmatch key ∧
      (text = str "**" → Below [] key) := by
  unfold patternMatches fnmatchArgs Pattern.ofText
  by_cases hall : text = str "**"
  · have hempty : env.fnmatch true [] key ↔ Below [] key := by
      rw [hfn.leadingDir]
      simp only [hfn.ordinary [] _ (by simp), exists_eq_left]
    subst hall
    rw [if_pos rfl, if_pos rfl, hempty]
    exact ⟨fun h => ⟨trivial, fun _ => h⟩, fun h => h.2 rfl⟩
  · rw [if_neg hall, if_neg hall]
    by_cases hbelow : 3 < text.length ∧ (str "/**").isSuffixOf text
    · obtain ⟨dir, rfl⟩ := List.isSuffixOf_iff_suffix.mp hbelow.2
      have htake : (dir ++ str "/**").take ((dir ++ str "/**").length - 3) = dir := by
        have hlen : (str "/**").length = 3 := by decide
        rw [List.length_append, hlen, Nat.add_sub_cancel, List.take_left']
        rfl
      simp only [if_pos hbelow, dirname_starStar, htake, Pattern.Selects, hfn.leadingDir, hall,
        false_implies, and_true]
    · simp only [if_neg hbelow, Pattern.Selects, hall, false_implies, and_true]

/-! ## The lists -/

theorem itemsParts_strings {items : List (JsonItem JsonValue)} {texts : List CStr}
    (h : items.map (·.value) = texts.map .string) :
    JsonValue.itemsParts items = texts.map fun text => (.string, text) := by
  induction items generalizing texts with
  | nil =>
    obtain rfl := List.map_eq_nil_iff.mp h.symm
    rw [JsonValue.itemsParts, List.map_nil]
  | cons item items ih =>
    cases texts with
    | nil => cases h
    | cons text texts =>
      obtain ⟨hvalue, hrest⟩ := List.cons.inj h
      have hvalue : item.value = .string text := hvalue
      rw [JsonValue.itemsParts, ih hrest, hvalue, JsonValue.parts]
      rfl

/-- The patterns that the code takes from a list. -/
theorem patterns_of_list {env : Env} {text : CStr} {texts : List CStr}
    (h : ReadsList env.jsmn text texts) : patterns env text = texts := by
  obtain ⟨gap, items, toks, htext, -, hvalues, hparse, hspans, hcount⟩ := h
  have hlen : items.length = texts.length := by
    have hmap := congrArg List.length hvalues
    rwa [List.length_map, List.length_map] at hmap
  have hreads : List.Forall₂ (Span.Reads text) (toks.map Tok.span)
      (JsonValue.array gap items).parts := by
    rw [hspans]
    exact reads_value [] [] _ (by rw [htext, List.append_nil, List.nil_append]) rfl
  rw [JsonValue.parts, itemsParts_strings hvalues, List.forall₂_map_left_iff] at hreads
  obtain ⟨t, rest, -, hrest, rfl⟩ := List.forall₂_cons_right_iff.mp hreads
  have hrestLen : rest.length = texts.length := by
    rw [hrest.length_eq, List.length_map]
  have htexts : rest.map (tokText text) = texts := by
    rw [List.forall₂_map_right_iff] at hrest
    rw [← List.forall₂_eq_eq_eq, List.forall₂_map_left_iff]
    exact hrest.imp fun _ _ h => tokText_of_reads h
  simp only [patterns, hparse, hcount, hlen]
  by_cases hempty : texts.length = 0
  · rw [if_pos (by omega), List.length_eq_zero_iff.mp hempty]
  · rw [if_neg (by omega), pvJsonArrayStrs, List.drop_succ_cons, List.drop_zero, Int.toNat_natCast,
      List.take_of_length_le hrestLen.le, htexts]

/-- Whether a list selects a key for the code. -/
theorem selects_iff {env : Env} (hfn : PosixFnmatch env.fnmatch) {text : CStr}
    {texts : List CStr} (h : ReadsList env.jsmn text texts) (key : CStr) :
    selects env text key ↔ ∃ t ∈ texts, (Pattern.ofText t).Selects env.fnmatch key ∧
      (t = str "**" → Below [] key) := by
  rw [selects, patterns_of_list h, List.any_eq_true]
  simp only [patternMatches_iff hfn]

/-! ## What is included -/

/-- Another pattern of a list than `**` selects the key. -/
def OthersSelect (env : Env) (texts : List CStr) (key : CStr) : Prop :=
  ∃ text ∈ texts, text ≠ str "**" ∧ (Pattern.ofText text).Selects env.fnmatch key

/-- For a key that is neither empty nor begins with a slash, `**` is of no consequence: what it
is to exclude is excluded by another pattern or not included by another one, and what it is to
include is included or excluded by another one. -/
def StarStarIdle (env : Env) (incl excl : List CStr) (key : CStr) : Prop :=
  (str "**" ∈ excl → OthersSelect env incl key → OthersSelect env excl key) ∧
    (str "**" ∈ incl → str "**" ∉ excl → OthersSelect env incl key ∨ OthersSelect env excl key)

theorem listSelects_iff (env : Env) (texts : List CStr) (key : CStr) :
    ListSelects env texts key ↔ str "**" ∈ texts ∨ OthersSelect env texts key := by
  have hall : (Pattern.ofText (str "**")).Selects env.fnmatch key := trivial
  constructor
  · rintro ⟨text, htext, hselects⟩
    by_cases heq : text = str "**"
    · exact .inl (heq ▸ htext)
    · exact .inr ⟨text, htext, heq, hselects⟩
  · rintro (hmem | ⟨text, htext, -, hselects⟩)
    · exact ⟨_, hmem, hall⟩
    · exact ⟨text, htext, hselects⟩

/-- For the code, `**` counts for the keys below the empty one only. -/
theorem selects_iff_others {env : Env} (hfn : PosixFnmatch env.fnmatch) {text : CStr}
    {texts : List CStr} (h : ReadsList env.jsmn text texts) (key : CStr) :
    selects env text key ↔
      (str "**" ∈ texts ∧ Below [] key) ∨ OthersSelect env texts key := by
  have hall : (Pattern.ofText (str "**")).Selects env.fnmatch key := trivial
  rw [selects_iff hfn h]
  constructor
  · rintro ⟨text, htext, hselects, hbelow⟩
    by_cases heq : text = str "**"
    · exact .inl ⟨heq ▸ htext, hbelow heq⟩
    · exact .inr ⟨text, htext, heq, hselects⟩
  · rintro (⟨hmem, hbelow⟩ | ⟨text, htext, hne, hselects⟩)
    · exact ⟨_, hmem, hall, fun _ => hbelow⟩
    · exact ⟨text, htext, hselects, fun heq => absurd heq hne⟩

/-- The keys that the lists select for the code are the wanted ones exactly where `**` is of no
consequence. -/
theorem signs_iff_wanted {env : Env} (hfn : PosixFnmatch env.fnmatch) {incl excl : CStr}
    {incls excls : List CStr} (hincl : ReadsList env.jsmn incl incls)
    (hexcl : ReadsList env.jsmn excl excls) (key : CStr) :
    (signs env incl excl key ↔ Wanted env incls excls key) ↔
      (Below [] key ∨ StarStarIdle env incls excls key) := by
  have hsigns : signs env incl excl key ↔ selects env incl key ∧ ¬ selects env excl key := by
    simp [signs]
  rw [hsigns, Wanted, selects_iff_others hfn hincl, selects_iff_others hfn hexcl,
    listSelects_iff, listSelects_iff]
  unfold StarStarIdle
  tauto

/-- For patterns of ordinary characters, `literalMatch` is `fnmatch`. -/
theorem posixFnmatch_literal : PosixFnmatch literalMatch where
  ordinary pattern s _ := by simp [literalMatch, eq_comm]
  leadingDir pattern s := by
    constructor
    · intro h
      refine ⟨pattern, by simp [literalMatch], ?_⟩
      rcases Bool.or_eq_true _ _ |>.mp h with heq | hbelow
      · exact .inl (of_decide_eq_true heq).symm
      · obtain ⟨rest, hrest⟩ := List.isPrefixOf_iff_prefix.mp (Bool.and_eq_true _ _ |>.mp hbelow).2
        exact .inr ⟨rest, hrest.symm⟩
    · rintro ⟨dir, hdir, hbelow⟩
      obtain rfl : pattern = dir := by simpa [literalMatch] using hdir
      rcases hbelow with rfl | ⟨rest, rfl⟩
      · simp [literalMatch]
      · simp [literalMatch]

/-- A list of one pattern. -/
def listOf (pattern : CStr) : CStr := str "[\"" ++ pattern ++ str "\"]"

theorem readsList_one {pattern : CStr} (h : AllUnescaped pattern)
    (hparse : tokenizer.parse (listOf pattern)
      = some [⟨.array, 0, pattern.length + 4, 1⟩, ⟨.string, 2, pattern.length + 2, 0⟩]) :
    ReadsList tokenizer (listOf pattern) [pattern] := by
  have hopen : str "[\"" = [openBracket, quote] := by decide
  have hclose : str "\"]" = [quote, closeBracket] := by decide
  refine ⟨[], [⟨[], .string pattern, []⟩], _, ?_, ?_, rfl, hparse, ?_, rfl⟩
  · rw [listOf, hopen, hclose]
    simp [JsonValue.text, JsonValue.itemsText, quoted, separator]
  · rw [JsonValue.Valid, JsonValue.ItemsValid, JsonValue.ItemsValid, JsonValue.Valid]
    exact ⟨by decide, by decide, stringBody_of_unescaped h, by decide, trivial⟩
  · simp [valueSpans, itemsSpans, Tok.span, JsonValue.text, JsonValue.itemsText, quoted, separator]
    omega

theorem readsList_bsp : ReadsList tokenizer (listOf (str "bsp/**")) [str "bsp/**"] :=
  readsList_one (by decide +kernel) (by decide +kernel)

theorem readsList_sigs : ReadsList tokenizer (listOf (str "_sigs/**")) [str "_sigs/**"] :=
  readsList_one (by decide +kernel) (by decide +kernel)

/-- Pairs with the flags that another signature left. -/
def flaggedPairs : List Pair :=
  [⟨str "bsp/run.json", str "1", false, true⟩, ⟨str "pv", str "2", true, true⟩]

end Pantavisor.Signature
