/-
Pantavisor.Config.ConfigParser — files of keys and values (`config_parser.c`), and the
values of a field.

A line is a key, an equals sign and a value. `load_key_value_file` takes the last byte of
each line for its newline. What `write_config_tuple_string` writes is read back
(`loadKeyValueFile_tuples`), as long as no value has a line of its own.
-/
import Mathlib.Algebra.Group.Int.Defs
import Mathlib.Algebra.Group.Nat.Defs
import Pantavisor.Lib.Decimal
import Pantavisor.Lib.KeyedList

namespace Pantavisor.Config

open Pantavisor.Lib

def newline : UInt8 := 10

def equals : UInt8 := 61

/-! ## Reading a file -/

/-- The lines that `fgets` gets from a file, each with its newline. -/
def fgetsLines : CStr → List CStr
  | [] => []
  | c :: cs =>
    if c = newline then [c] :: fgetsLines cs
    else
      match fgetsLines cs with
      | [] => [[c]]
      | line :: rest => (c :: line) :: rest

/-- The key and the value of a line. -/
def keyValueOf (line : CStr) : Option (CStr × CStr) :=
  let buff := (cstrAt line 0).dropLast
  if equals ∈ buff then
    some (buff.takeWhile (· ≠ equals), (buff.dropWhile (· ≠ equals)).drop 1)
  else none

/-- `_config_add_item` -/
def configAddItem (list : List (CStr × CStr)) (item : CStr × CStr) : List (CStr × CStr) :=
  if item.1 ∈ list.map Prod.fst then list.map fun i => if i.1 = item.1 then item else i
  else if item.1 = [] then list
  else list ++ [item]

/-- `load_key_value_file`. From an empty file `fgets` gets the empty string, again and
again. -/
def loadKeyValueFile (content : CStr) : Option (List (CStr × CStr)) :=
  if content = [] then none
  else some (((fgetsLines content).filterMap keyValueOf).foldl configAddItem [])

/-- `config_get_value` -/
def configGetValue (list : List (CStr × CStr)) (key : CStr) : Option CStr := denote list key

/-- `config_iterate_items`: the loop ends at an item for which the action returns anything
but 0. -/
def configIterateItems {σ : Type} (action : CStr → CStr → σ → Int × σ) :
    List (CStr × CStr) → σ → σ
  | [], arg => arg
  | (key, value) :: rest, arg =>
    let (ret, arg) := action key value arg
    if ret ≠ 0 then arg else configIterateItems action rest arg

theorem configIterateItems_cons {σ : Type} {action : CStr → CStr → σ → Int × σ}
    {i : CStr × CStr} {rest : List (CStr × CStr)} {arg arg' : σ}
    (h : action i.1 i.2 arg = (0, arg')) :
    configIterateItems action (i :: rest) arg = configIterateItems action rest arg' := by
  rw [configIterateItems, h]
  exact if_neg (by decide)

/-- What an `int` keeps of a number. -/
def wrapInt (n : Int) : Int := n.bmod (2 ^ 32)

/-- `config_get_value_string` -/
def configGetValueString (list : List (CStr × CStr)) (key : CStr) (defaultValue : Option CStr) :
    Option CStr :=
  ((configGetValue list key).or defaultValue).filter (· ≠ [])

/-- `config_get_value_int` -/
def configGetValueInt (list : List (CStr × CStr)) (key : CStr) (defaultValue : Int) : Int :=
  ((configGetValue list key).map fun item => wrapInt (atoi item)).getD defaultValue

/-- `config_get_value_bool` -/
def configGetValueBool (list : List (CStr × CStr)) (key : CStr) (defaultValue : Bool) : Bool :=
  ((configGetValue list key).map fun item => decide (wrapInt (atoi item) ≠ 0)).getD defaultValue

/-- `config_get_value_logsize` -/
def configGetValueLogsize (list : List (CStr × CStr)) (key : CStr) (defaultValue : Int) : Int :=
  let value := configGetValueInt list key defaultValue
  if 1024 ≤ value then defaultValue else value

/-! ## Writing a file -/

/-- `write_config_tuple_string` -/
def writeConfigTupleString (key : CStr) (value : Option CStr) : CStr :=
  (value.map fun v => key ++ [equals] ++ v ++ [newline]).getD []

/-! ## Reading back -/

/-- A value on one line. -/
def OneLine (v : CStr) : Prop := newline ∉ v ∧ NulFree v

instance (v : CStr) : Decidable (OneLine v) := inferInstanceAs (Decidable (_ ∧ _))

/-- A key that a line can start with. -/
structure KeyOk (key : CStr) : Prop where
  line : OneLine key
  noEquals : equals ∉ key
  nonempty : key ≠ []

instance (key : CStr) : Decidable (KeyOk key) :=
  decidable_of_iff (OneLine key ∧ equals ∉ key ∧ key ≠ [])
    ⟨fun h => ⟨h.1, h.2.1, h.2.2⟩, fun h => ⟨h.line, h.noEquals, h.nonempty⟩⟩

theorem fgetsLines_append {line rest : CStr} (h : newline ∉ line) :
    fgetsLines (line ++ newline :: rest) = (line ++ [newline]) :: fgetsLines rest := by
  induction line with
  | nil => rw [List.nil_append, fgetsLines, if_pos rfl, List.nil_append]
  | cons c line ih =>
    rw [List.mem_cons, not_or] at h
    rw [List.cons_append, fgetsLines, if_neg (Ne.symm h.1), ih h.2]
    rfl

/-- A line is read as the key and the value that it was written from. -/
theorem keyValueOf_line {key value : CStr} (hkey : KeyOk key) (hvalue : OneLine value) :
    keyValueOf (key ++ [equals] ++ value ++ [newline]) = some (key, value) := by
  have hnul : NulFree (key ++ [equals] ++ value ++ [newline]) := by
    simp only [NulFree, List.mem_append, List.mem_singleton, not_or]
    exact ⟨⟨⟨hkey.line.2, by decide⟩, hvalue.2⟩, by decide⟩
  have hne : ∀ c ∈ key, decide (c ≠ equals) = true := fun c hc =>
    decide_eq_true fun heq => hkey.noEquals (heq ▸ hc)
  rw [keyValueOf, cstrAt_zero hnul, List.dropLast_concat, List.append_assoc,
    List.takeWhile_append_of_pos hne, List.dropWhile_append_of_pos hne, List.singleton_append,
    List.takeWhile_cons_of_neg (by simp), List.dropWhile_cons_of_neg (by simp), List.append_nil]
  simp

/-- Items with new keys are added at the end. -/
theorem foldl_configAddItem {items list : List (CStr × CStr)}
    (hnodup : (list ++ items).map Prod.fst |>.Nodup) (hkeys : ∀ i ∈ items, i.1 ≠ []) :
    items.foldl configAddItem list = list ++ items := by
  induction items generalizing list with
  | nil => simp
  | cons item items ih =>
    have hnew : item.1 ∉ list.map Prod.fst := by
      rw [List.map_append, List.map_cons, List.nodup_append] at hnodup
      exact fun hmem => hnodup.2.2 _ hmem _ (List.mem_cons_self ..) rfl
    rw [List.foldl_cons, configAddItem, if_neg hnew, if_neg (hkeys _ (List.mem_cons_self ..)),
      ih (by simpa using hnodup) fun i hi => hkeys i (List.mem_cons_of_mem _ hi)]
    simp

/-- The text of a tuple that is written. -/
def tupleLine (item : CStr × CStr) : CStr := item.1 ++ [equals] ++ item.2 ++ [newline]

/-- **A file is read back** as the tuples that were written. -/
theorem loadKeyValueFile_tuples {items : List (CStr × CStr)} (hne : items ≠ [])
    (hnodup : (items.map Prod.fst).Nodup) (hkeys : ∀ i ∈ items, KeyOk i.1)
    (hvalues : ∀ i ∈ items, OneLine i.2) :
    loadKeyValueFile (items.flatMap tupleLine) = some items := by
  have hlines : ((fgetsLines (items.flatMap tupleLine)).filterMap keyValueOf) = items := by
    clear hnodup hne
    induction items with
    | nil => rfl
    | cons item items ih =>
      have hkey := hkeys item (List.mem_cons_self ..)
      have hvalue := hvalues item (List.mem_cons_self ..)
      have hnone : newline ∉ item.1 ++ [equals] ++ item.2 := by
        simp only [List.mem_append, List.mem_singleton, not_or]
        exact ⟨⟨hkey.line.1, by decide⟩, hvalue.1⟩
      have hline : (item :: items).flatMap tupleLine
          = (item.1 ++ [equals] ++ item.2) ++ newline :: items.flatMap tupleLine := by
        simp [List.flatMap_cons, tupleLine]
      rw [hline, fgetsLines_append hnone, List.filterMap_cons_some (keyValueOf_line hkey hvalue),
        ih (fun i hi => hkeys i (List.mem_cons_of_mem _ hi))
          fun i hi => hvalues i (List.mem_cons_of_mem _ hi)]
  have htext : items.flatMap tupleLine ≠ [] := by
    obtain ⟨item, rest, rfl⟩ := List.exists_cons_of_ne_nil hne
    simp [List.flatMap_cons, tupleLine]
  rw [loadKeyValueFile, if_neg htext, hlines,
    foldl_configAddItem (by simpa using hnodup) fun i hi => (hkeys i hi).nonempty]
  rfl

/-! ## What a loaded list has -/

/-- A line ends at its first newline. -/
theorem newline_not_mem_dropLast {s line : CStr} (h : line ∈ fgetsLines s) :
    newline ∉ line.dropLast := by
  induction s generalizing line with
  | nil => cases h
  | cons c s ih =>
    rw [fgetsLines] at h
    split at h
    · rcases List.mem_cons.mp h with rfl | h
      · simp
      · exact ih h
    · rename_i hc
      cases hlines : fgetsLines s with
      | nil =>
        rw [hlines, List.mem_singleton] at h
        simp [h]
      | cons l ls =>
        rw [hlines] at h ih
        rcases List.mem_cons.mp h with rfl | h
        · have hl := ih (List.mem_cons_self ..)
          cases l with
          | nil => simp
          | cons d l =>
            rw [List.dropLast_cons_cons, List.mem_cons, not_or]
            exact ⟨Ne.symm hc, hl⟩
        · exact ih (List.mem_cons_of_mem _ h)

theorem prefix_dropLast {p line : CStr} (h : p <+: line) : p.dropLast <+: line.dropLast := by
  obtain ⟨t, rfl⟩ := h
  rcases List.eq_nil_or_concat t with rfl | ⟨u, x, rfl⟩
  · simp
  · rw [List.concat_eq_append, ← List.append_assoc, List.dropLast_concat]
    exact (List.dropLast_prefix p).trans (List.prefix_append ..)

theorem oneLine_of_keyValueOf {s line : CStr} (hline : line ∈ fgetsLines s) {i : CStr × CStr}
    (h : keyValueOf line = some i) : OneLine i.2 := by
  have hpre : (cstrAt line 0).dropLast <+: line.dropLast :=
    prefix_dropLast (List.takeWhile_prefix _)
  have hsub : ∀ c ∈ i.2, c ∈ (cstrAt line 0).dropLast := by
    rw [keyValueOf] at h
    split at h
    · obtain rfl := Option.some.inj h
      exact fun c hc => (List.dropWhile_sublist _).subset (List.mem_of_mem_drop hc)
    · cases h
  refine ⟨fun hnl => newline_not_mem_dropLast hline (hpre.subset (hsub _ hnl)), fun h0 => ?_⟩
  have hmem : 0 ∈ line.takeWhile (· != 0) := (List.dropLast_sublist _).subset (hsub _ h0)
  have hzero := List.mem_takeWhile_imp hmem
  simp at hzero

theorem mem_foldl_configAddItem {items list : List (CStr × CStr)} {i : CStr × CStr}
    (h : i ∈ items.foldl configAddItem list) : i ∈ list ∨ i ∈ items := by
  induction items generalizing list with
  | nil => exact .inl h
  | cons item items ih =>
    rcases ih h with h | h
    · rw [configAddItem] at h
      split at h
      · obtain ⟨j, hj, rfl⟩ := List.mem_map.mp h
        split
        · exact .inr (List.mem_cons_self ..)
        · exact .inl hj
      · split at h
        · exact .inl h
        · rcases List.mem_append.mp h with h | h
          · exact .inl h
          · exact .inr (List.mem_singleton.mp h ▸ List.mem_cons_self ..)
    · exact .inr (List.mem_cons_of_mem _ h)

/-! ## The value of a key -/

/-- A value that is replaced wherever its key is. -/
theorem denote_map_replace (list : List (CStr × CStr)) (item : CStr × CStr) (k : CStr) :
    denote (list.map fun i => if i.1 = item.1 then item else i) k
      = if k = item.1 ∧ k ∈ list.map Prod.fst then some item.2 else denote list k := by
  induction list with
  | nil => simp
  | cons i list ih =>
    rw [List.map_cons, denote_cons, denote_cons, ih]
    simp only [List.map_cons, List.mem_cons]
    by_cases hi : i.1 = item.1
    · rw [if_pos hi]
      by_cases hk : k = item.1
      · rw [if_pos hk, if_pos ⟨hk, .inl (hk.trans hi.symm)⟩]
      · rw [if_neg hk, if_neg fun h => hk h.1, if_neg fun h => hk h.1,
          if_neg fun h => hk (h.trans hi)]
    · rw [if_neg hi]
      by_cases hk : k = i.1
      · rw [if_pos hk, if_pos hk, if_neg fun h => hi (hk.symm.trans h.1)]
      · simp only [if_neg hk, or_iff_right hk]

/-- An item sets its key. -/
theorem denote_configAddItem (list : List (CStr × CStr)) {item : CStr × CStr} (h : item.1 ≠ [])
    (k : CStr) :
    denote (configAddItem list item) k = if k = item.1 then some item.2 else denote list k := by
  rw [configAddItem]
  by_cases hmem : item.1 ∈ list.map Prod.fst
  · rw [if_pos hmem, denote_map_replace]
    by_cases hk : k = item.1
    · rw [if_pos ⟨hk, hk ▸ hmem⟩, if_pos hk]
    · rw [if_neg fun h => hk h.1, if_neg hk]
  · rw [if_neg hmem, if_neg h, denote_append, denote_cons, denote_nil]
    by_cases hk : k = item.1
    · rw [if_pos hk, if_pos hk, hk, denote_eq_none_iff.mpr hmem, Option.none_or]
    · rw [if_neg hk, if_neg hk, Option.or_none]

/-- Of items with one key the last is kept. -/
theorem denote_foldl_configAddItem {items : List (CStr × CStr)} (h : ∀ i ∈ items, i.1 ≠ [])
    (list : List (CStr × CStr)) (k : CStr) :
    denote (items.foldl configAddItem list) k = (denote items.reverse k).or (denote list k) := by
  induction items generalizing list with
  | nil => rfl
  | cons item items ih =>
    rw [List.foldl_cons, ih fun i hi => h i (List.mem_cons_of_mem _ hi),
      denote_configAddItem _ (h _ (List.mem_cons_self ..)), List.reverse_cons, denote_append,
      denote_cons, denote_nil]
    cases denote items.reverse k with
    | some v => rfl
    | none =>
      rw [Option.none_or, Option.none_or]
      split <;> rfl

/-- Every value of a file is on one line. -/
theorem oneLine_of_load {content : CStr} {list : List (CStr × CStr)}
    (h : loadKeyValueFile content = some list) : ∀ i ∈ list, OneLine i.2 := by
  intro i hi
  rw [loadKeyValueFile] at h
  split at h
  · cases h
  · obtain rfl := Option.some.inj h
    rcases mem_foldl_configAddItem hi with hi | hi
    · cases hi
    · obtain ⟨line, hline, heq⟩ := List.mem_filterMap.mp hi
      exact oneLine_of_keyValueOf hline heq

/-- A string that is loaded is on one line and not empty. -/
theorem getValueString_ok {content : CStr} {list : List (CStr × CStr)}
    (h : loadKeyValueFile content = some list) {key v : CStr} {defaultValue : Option CStr}
    (hdefault : ∀ d ∈ defaultValue, OneLine d)
    (hv : v ∈ configGetValueString list key defaultValue) : OneLine v ∧ v ≠ [] := by
  obtain ⟨hv, hne⟩ := Option.mem_filter_iff.mp hv
  refine ⟨?_, of_decide_eq_true hne⟩
  rcases Option.or_eq_some_iff.mp hv with hv | ⟨-, hv⟩
  · exact oneLine_of_load h _ (mem_of_denote hv)
  · exact hdefault v hv

theorem wrapInt_range (n : Int) : -(2 ^ 31) ≤ wrapInt n ∧ wrapInt n < 2 ^ 31 := by
  have hlow := @Int.le_bmod n (2 ^ 32) (by decide)
  have hhigh := @Int.bmod_lt n (2 ^ 32) (by decide)
  rw [wrapInt]
  omega

theorem wrapInt_eq {n : Int} (h : -(2 ^ 31) ≤ n ∧ n < 2 ^ 31) : wrapInt n = n := by
  rw [wrapInt, Int.bmod_def]
  omega

end Pantavisor.Config
