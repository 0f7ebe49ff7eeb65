/-
Pantavisor.Config.Cmdline — overrides on the kernel command line (`config_parse_cmdline` in
`config_parser.c`).

A token that starts with the hint is taken apart by `strtok_r`, which skips the equals signs
at the start of what it is given and has no empty tokens: `=v` is a key `v`, and a key without
an equals sign gets the empty value. At the end of `/proc/cmdline` is a newline, which is
looked for in the value alone. In `_config_replace_item` an empty list stays empty, so without
a configuration file nothing is overridden.
-/
import Pantavisor.Config.ConfigParser

namespace Pantavisor.Config

open Pantavisor.Lib

def space : UInt8 := 32

/-! ## The code -/

/-- The tokens that `strtok_r` finds between spaces, behind an open one. -/
def tokensFrom : CStr → CStr → List CStr
  | token, [] => if token = [] then [] else [token]
  | token, c :: cs =>
    if c = space then (if token = [] then [] else [token]) ++ tokensFrom [] cs
    else tokensFrom (token ++ [c]) cs

/-- The tokens of a text. -/
def tokens (s : CStr) : List CStr := tokensFrom [] s

/-- `_config_replace_item` -/
def configReplaceItem (list : List (CStr × CStr)) (item : CStr × CStr) : List (CStr × CStr) :=
  if list = [] then list else configAddItem list item

/-- The key and the value of what is behind the hint: two calls of `strtok_r`, the end of the
value at a newline, and the empty value where there is none. -/
def strtokItem (k : CStr) : Option (CStr × CStr) :=
  let rest := k.dropWhile (· = equals)
  if rest = [] then none
  else
    some (rest.takeWhile (· ≠ equals),
      ((rest.dropWhile (· ≠ equals)).drop 1).takeWhile (· ≠ newline))

/-- What is behind the hint in a token. -/
def behindHint (hint token : CStr) : Option CStr :=
  if hint <+: token then some (token.drop hint.length) else none

/-- The loop of `config_parse_cmdline` for one token -/
def overrideToken (hint : CStr) (list : List (CStr × CStr)) (token : CStr) :
    List (CStr × CStr) :=
  match (behindHint hint token).bind strtokItem with
  | none => list
  | some item => configReplaceItem list item

/-- `config_parse_cmdline`, with what it returns; `/proc/cmdline` may be missing. -/
def configParseCmdline (procCmdline : Option CStr) (hint : CStr) (list : List (CStr × CStr)) :
    Int × List (CStr × CStr) :=
  match procCmdline with
  | none => (-1, list)
  | some content =>
    let buf := content.take 1024
    if buf = [] then (-1, list) else (0, (tokens buf).foldl (overrideToken hint) list)

/-! ## What a command line asks for -/

/-- A token that is the hint followed by a key, an equals sign and a value. -/
def assignmentOf (rest : CStr) : Option (CStr × CStr) :=
  if equals ∈ rest then
    some (rest.takeWhile (· ≠ equals), (rest.dropWhile (· ≠ equals)).drop 1)
  else none

/-- What is behind the hint in each token of a command line that has it. -/
def hinted (hint cmdline : CStr) : List CStr := (tokens cmdline).filterMap (behindHint hint)

/-- The value of a key with the overrides: of the last token that assigns it, or else of the
last item of the file. -/
def overridden (items : List (CStr × CStr)) (hint cmdline key : CStr) : Option CStr :=
  (denote ((hinted hint cmdline).filterMap assignmentOf).reverse key).or
    (denote items.reverse key)

/-- The list that is loaded from the items of a file. -/
def loaded (items : List (CStr × CStr)) : List (CStr × CStr) := items.foldl configAddItem []

/-- The command line takes precedence, and only where it says so. `/proc/cmdline` has it with a
newline behind it. -/
def TakesPrecedence (items : List (CStr × CStr)) (hint cmdline : CStr) : Prop :=
  ∀ key, configGetValue
      (configParseCmdline (some (cmdline ++ [newline])) hint (loaded items)).2 key
    = overridden items hint cmdline key

/-- The token that a command line ends with, or nothing if that is a space. -/
def openToken (cmdline : CStr) : CStr := (cmdline.reverse.takeWhile (· ≠ space)).reverse

/-- A command line whose hinted tokens are read as they are meant. -/
structure Plain (items : List (CStr × CStr)) (hint cmdline : CStr) : Prop where
  /-- no key is empty -/
  keyed : ∀ rest ∈ hinted hint cmdline, rest.head? ≠ some equals
  /-- the newline is not in a key -/
  ended : ∀ rest, behindHint hint (openToken cmdline) = some rest → equals ∈ rest
  /-- a key without an equals sign is assigned later on, or is to be empty -/
  flags : ∀ before rest behind, hinted hint cmdline = before ++ rest :: behind →
    equals ∉ rest → rest ≠ [] →
      (∃ r ∈ behind, equals ∈ r ∧ r.takeWhile (· ≠ equals) = rest) ∨
        overridden items hint cmdline rest = some []

/-! ## The tokens -/

theorem openToken_of_not_mem {s : CStr} (h : space ∉ s) : openToken s = s := by
  have hall : ∀ c ∈ s.reverse, decide (c ≠ space) = true := fun c hc =>
    decide_eq_true fun heq => h (heq ▸ List.mem_reverse.mp hc)
  rw [openToken, List.takeWhile_eq_self_iff.mpr hall, List.reverse_reverse]

theorem openToken_append_space (a b : CStr) : openToken (a ++ space :: b) = openToken b := by
  rw [openToken, List.reverse_append, List.reverse_cons, List.append_assoc,
    List.singleton_append, openToken]
  congr 1
  by_cases h : space ∈ b
  · obtain ⟨x, y, hsplit, hx⟩ := List.eq_append_cons_of_mem (List.mem_reverse.mpr h)
    have hall : ∀ c ∈ x, decide (c ≠ space) = true := fun c hc =>
      decide_eq_true fun heq => hx (heq ▸ hc)
    rw [hsplit, List.append_assoc, List.takeWhile_append_of_pos hall,
      List.takeWhile_append_of_pos hall, List.cons_append,
      List.takeWhile_cons_of_neg (by simp), List.takeWhile_cons_of_neg (by simp)]
  · have hall : ∀ c ∈ b.reverse, decide (c ≠ space) = true := fun c hc =>
      decide_eq_true fun heq => h (heq ▸ List.mem_reverse.mp hc)
    rw [List.takeWhile_append_of_pos hall, List.takeWhile_cons_of_neg (by simp),
      List.append_nil, List.takeWhile_eq_self_iff.mpr hall]

/-- The newline goes to the token that the command line ends with. -/
theorem tokensFrom_newline {token : CStr} (htoken : space ∉ token) (s : CStr) :
    ∃ front,
      tokensFrom token s = front ++
        (if openToken (token ++ s) = [] then [] else [openToken (token ++ s)]) ∧
      tokensFrom token (s ++ [newline]) = front ++ [openToken (token ++ s) ++ [newline]] := by
  induction s generalizing token with
  | nil =>
    refine ⟨[], ?_, ?_⟩
    · rw [tokensFrom, List.append_nil, openToken_of_not_mem htoken, List.nil_append]
    · rw [List.nil_append, tokensFrom, if_neg (by decide), tokensFrom, if_neg (by simp),
        List.append_nil, openToken_of_not_mem htoken, List.nil_append]
  | cons c s ih =>
    rw [List.cons_append, tokensFrom, tokensFrom]
    by_cases hc : c = space
    · obtain ⟨front, hfront, hnewline⟩ := ih List.not_mem_nil
      rw [if_pos hc, if_pos hc, hc, openToken_append_space, hfront, hnewline, List.nil_append]
      exact ⟨_, (List.append_assoc _ _ _).symm, (List.append_assoc _ _ _).symm⟩
    · have htoken' : space ∉ token ++ [c] := by
        rw [List.mem_append, not_or, List.mem_singleton]
        exact ⟨htoken, Ne.symm hc⟩
      obtain ⟨front, hfront, hnewline⟩ := ih htoken'
      rw [if_neg hc, if_neg hc, hfront, hnewline]
      exact ⟨front, by simp, by simp⟩

theorem mem_tokensFrom {token s t : CStr} (h : t ∈ tokensFrom token s) :
    ∀ c ∈ t, c ∈ token ∨ c ∈ s := by
  induction s generalizing token with
  | nil =>
    rw [tokensFrom] at h
    split at h
    · cases h
    · obtain rfl := List.mem_singleton.mp h
      exact fun c hc => .inl hc
  | cons d s ih =>
    rw [tokensFrom] at h
    intro c hc
    split at h
    · rcases List.mem_append.mp h with h | h
      · split at h
        · cases h
        · obtain rfl := List.mem_singleton.mp h
          exact .inl hc
      · rcases ih h c hc with hmem | hmem
        · cases hmem
        · exact .inr (List.mem_cons_of_mem _ hmem)
    · rcases ih h c hc with hmem | hmem
      · rcases List.mem_append.mp hmem with hmem | hmem
        · exact .inl hmem
        · obtain rfl := List.mem_singleton.mp hmem
          exact .inr (List.mem_cons_self ..)
      · exact .inr (List.mem_cons_of_mem _ hmem)

/-! ## One token -/

/-- What does not start with an equals sign is read up to the first one. -/
theorem strtokItem_eq {rest : CStr} (hne : rest ≠ []) (h : rest.head? ≠ some equals) :
    strtokItem rest = some (rest.takeWhile (· ≠ equals),
      ((rest.dropWhile (· ≠ equals)).drop 1).takeWhile (· ≠ newline)) := by
  obtain ⟨c, cs, rfl⟩ := List.exists_cons_of_ne_nil hne
  have hc : c ≠ equals := fun heq => h (by rw [heq]; rfl)
  have hall : (c :: cs).dropWhile (· = equals) = c :: cs :=
    List.dropWhile_cons_of_neg (by simpa using hc)
  rw [strtokItem, hall]
  exact if_neg hne

theorem takeWhile_equals {rest : CStr} (h : equals ∉ rest) :
    rest.takeWhile (· ≠ equals) = rest ∧ rest.dropWhile (· ≠ equals) = [] := by
  have hall : ∀ c ∈ rest, decide (c ≠ equals) = true := fun c hc =>
    decide_eq_true fun heq => h (heq ▸ hc)
  exact ⟨List.takeWhile_eq_self_iff.mpr hall, List.dropWhile_eq_nil_iff.mpr hall⟩

theorem head_ne_equals {rest : CStr} (h : equals ∉ rest) : rest.head? ≠ some equals :=
  fun heq => h (List.mem_of_head? heq)

/-- A key without an equals sign gets the empty value. -/
theorem strtokItem_flag {rest : CStr} (hne : rest ≠ []) (h : equals ∉ rest) :
    strtokItem rest = some (rest, []) := by
  rw [strtokItem_eq hne (head_ne_equals h), (takeWhile_equals h).1, (takeWhile_equals h).2]
  rfl

/-- An assignment is read as it is meant, where its key is not empty. -/
theorem strtokItem_assignment {rest : CStr} (hmem : equals ∈ rest)
    (hkey : rest.head? ≠ some equals) (hline : newline ∉ rest) :
    strtokItem rest = assignmentOf rest := by
  have hall : ∀ c ∈ (rest.dropWhile (· ≠ equals)).drop 1, decide (c ≠ newline) = true := by
    intro c hc
    refine decide_eq_true fun heq => hline ?_
    exact (List.dropWhile_sublist _).subset (List.mem_of_mem_drop (heq ▸ hc))
  rw [strtokItem_eq (List.ne_nil_of_mem hmem) hkey, assignmentOf, if_pos hmem,
    List.takeWhile_eq_self_iff.mpr hall]

/-- A newline behind an assignment is cut off. -/
theorem strtokItem_newline {rest : CStr} (hmem : equals ∈ rest)
    (hkey : rest.head? ≠ some equals) (hline : newline ∉ rest) :
    strtokItem (rest ++ [newline]) = strtokItem rest := by
  obtain ⟨k, v, hsplit, hk⟩ := List.eq_append_cons_of_mem hmem
  have hall : ∀ c ∈ k, decide (c ≠ equals) = true := fun c hc =>
    decide_eq_true fun heq => hk (heq ▸ hc)
  have hv : ∀ c ∈ v, decide (c ≠ newline) = true := by
    intro c hc
    refine decide_eq_true fun heq => hline ?_
    rw [hsplit]
    exact List.mem_append_right _ (List.mem_cons_of_mem _ (heq ▸ hc))
  have hhead : (rest ++ [newline]).head? ≠ some equals := by
    rwa [List.head?_append_of_ne_nil _ (List.ne_nil_of_mem hmem)]
  rw [strtokItem_eq (by simp) hhead, strtokItem_eq (List.ne_nil_of_mem hmem) hkey, hsplit,
    List.append_assoc, List.takeWhile_append_of_pos hall, List.takeWhile_append_of_pos hall,
    List.dropWhile_append_of_pos hall, List.dropWhile_append_of_pos hall, List.cons_append,
    List.takeWhile_cons_of_neg (by simp), List.takeWhile_cons_of_neg (by simp),
    List.dropWhile_cons_of_neg (by simp), List.dropWhile_cons_of_neg (by simp), List.drop_succ_cons,
    List.drop_succ_cons, List.drop_zero, List.drop_zero, List.takeWhile_append_of_pos hv,
    List.takeWhile_cons_of_neg (by simp), List.append_nil, List.append_nil,
    List.takeWhile_eq_self_iff.mpr hv]

theorem strtokItem_key_ne_nil {rest : CStr} {i : CStr × CStr} (h : strtokItem rest = some i) :
    i.1 ≠ [] := by
  rw [strtokItem] at h
  split at h
  · cases h
  · rename_i hne
    obtain rfl := Option.some.inj h
    obtain ⟨c, cs, hcons⟩ := List.exists_cons_of_ne_nil hne
    have hc : c ≠ equals := by
      have hhead := List.head?_dropWhile_not (· = equals) rest
      rw [hcons] at hhead
      simpa using hhead
    dsimp only
    rw [hcons, List.takeWhile_cons_of_pos (by simpa using hc)]
    exact List.cons_ne_nil _ _

/-! ## The hinted tokens -/

section Hinted

variable {hint cmdline : CStr}

theorem behindHint_newline (h : newline ∉ hint) (token : CStr) :
    behindHint hint (token ++ [newline]) = (behindHint hint token).map (· ++ [newline]) := by
  rw [behindHint, behindHint]
  by_cases hpre : hint <+: token
  · rw [if_pos hpre, if_pos ((prefix_terminated h).mpr hpre), Option.map_some,
      List.drop_append_of_le_length hpre.length_le]
  · rw [if_neg hpre, if_neg fun hn => hpre ((prefix_terminated h).mp hn), Option.map_none]

/-- No token of a line has a hint with a newline, but the newline itself may complete it. -/
theorem behindHint_of_newline_mem {token : CStr} (h : newline ∈ hint) (ht : newline ∉ token) :
    behindHint hint token = none ∧
      (behindHint hint (token ++ [newline])).toList.filterMap strtokItem = [] := by
  refine ⟨if_neg fun hpre => ht (hpre.subset h), ?_⟩
  rw [behindHint]
  split
  · rename_i hpre
    have hlong : ¬ hint.length ≤ token.length := fun hle =>
      ht ((List.prefix_of_prefix_length_le hpre (List.prefix_append ..) hle).subset h)
    rw [List.drop_eq_nil_of_le (by simp; omega)]
    rfl
  · rfl

theorem newline_not_mem_hinted (h : newline ∉ cmdline) {rest : CStr}
    (hrest : rest ∈ hinted hint cmdline) : newline ∉ rest := by
  obtain ⟨token, htoken, heq⟩ := List.mem_filterMap.mp hrest
  rw [behindHint] at heq
  split at heq
  · obtain rfl := Option.some.inj heq
    intro hmem
    rcases mem_tokensFrom htoken _ (List.mem_of_mem_drop hmem) with hmem | hmem
    · cases hmem
    · exact h hmem
  · cases heq

/-- The hinted tokens of a command line, and what is read behind it with the newline. -/
theorem hinted_newline (hint : CStr) (hline : newline ∉ cmdline) :
    ∃ front, hinted hint cmdline = front ++
        (if openToken cmdline = [] then [] else (behindHint hint (openToken cmdline)).toList) ∧
      (hinted hint (cmdline ++ [newline])).filterMap strtokItem
        = (front ++ ((behindHint hint (openToken cmdline)).map (· ++ [newline])).toList).filterMap
            strtokItem := by
  obtain ⟨front, hfront, hnewline⟩ := tokensFrom_newline List.not_mem_nil cmdline
  rw [List.nil_append] at hfront hnewline
  have hone : ∀ token, [token].filterMap (behindHint hint) = (behindHint hint token).toList := by
    intro token
    cases hrest : behindHint hint token with
    | none => rw [List.filterMap_cons_none hrest]; rfl
    | some rest => rw [List.filterMap_cons_some hrest]; rfl
  have hopen : newline ∉ openToken cmdline := fun hmem =>
    hline (List.mem_reverse.mp ((List.takeWhile_sublist _).subset (List.mem_reverse.mp hmem)))
  refine ⟨front.filterMap (behindHint hint), ?_, ?_⟩
  · rw [hinted, tokens, hfront, List.filterMap_append]
    congr 1
    split
    · rfl
    · exact hone _
  · rw [hinted, tokens, hnewline, List.filterMap_append, List.filterMap_append, hone,
      List.filterMap_append]
    congr 1
    by_cases hnl : newline ∈ hint
    · obtain ⟨hnone, hnil⟩ := behindHint_of_newline_mem hnl hopen
      rw [hnone, hnil]
      rfl
    · rw [behindHint_newline hnl]

end Hinted

/-! ## The list -/

theorem configAddItem_ne_nil {list : List (CStr × CStr)} (h : list ≠ [])
    (item : CStr × CStr) : configAddItem list item ≠ [] := by
  rw [configAddItem]
  split
  · simpa using h
  · split
    · exact h
    · simp

/-- An empty list stays empty. -/
theorem foldl_overrideToken_nil (hint : CStr) (ts : List CStr) :
    ts.foldl (overrideToken hint) [] = [] := by
  induction ts with
  | nil => rfl
  | cons t ts ih =>
    have hstep : overrideToken hint [] t = [] := by
      rw [overrideToken]
      split
      · rfl
      · exact if_pos rfl
    rw [List.foldl_cons, hstep, ih]

/-- The items that are read from the tokens are added to a list that is not empty. -/
theorem foldl_overrideToken {list : List (CStr × CStr)} (hne : list ≠ []) (hint : CStr)
    (ts : List CStr) :
    ts.foldl (overrideToken hint) list
      = ((ts.filterMap (behindHint hint)).filterMap strtokItem).foldl configAddItem list := by
  induction ts generalizing list with
  | nil => rfl
  | cons t ts ih =>
    have hstep : overrideToken hint list t
        = (((behindHint hint t).bind strtokItem).toList).foldl configAddItem list := by
      rw [overrideToken]
      cases (behindHint hint t).bind strtokItem with
      | none => rfl
      | some item => exact if_neg hne
    have hstay : overrideToken hint list t ≠ [] := by
      rw [overrideToken]
      split
      · exact hne
      · rw [configReplaceItem, if_neg hne]
        exact configAddItem_ne_nil hne _
    rw [List.foldl_cons, ih hstay, hstep, ← List.foldl_append]
    congr 1
    cases hrest : behindHint hint t with
    | none => rw [List.filterMap_cons_none hrest]; rfl
    | some rest =>
      rw [List.filterMap_cons_some hrest, Option.bind_some]
      cases hitem : strtokItem rest with
      | none => rw [List.filterMap_cons_none hitem]; rfl
      | some item => rw [List.filterMap_cons_some hitem]; rfl

theorem loaded_ne_nil {items : List (CStr × CStr)} (hne : items ≠ [])
    (hkeys : ∀ i ∈ items, i.1 ≠ []) : loaded items ≠ [] := by
  obtain ⟨item, rest, rfl⟩ := List.exists_cons_of_ne_nil hne
  have hfirst : configAddItem [] item = [item] := by
    rw [configAddItem, if_neg (by simp), if_neg (hkeys _ (List.mem_cons_self ..)), List.nil_append]
  have hrun : ∀ (is list : List (CStr × CStr)), list ≠ [] → is.foldl configAddItem list ≠ [] := by
    intro is
    induction is with
    | nil => exact fun list h => h
    | cons i is ih => exact fun list h => ih _ (configAddItem_ne_nil h i)
  rw [loaded, List.foldl_cons, hfirst]
  exact hrun rest _ (List.cons_ne_nil _ _)

/-- The value that is found, of what was read or else of the file. -/
theorem configGetValue_configParseCmdline {items : List (CStr × CStr)} {hint cmdline : CStr}
    (hne : items ≠ []) (hkeys : ∀ i ∈ items, i.1 ≠ []) (hlen : cmdline.length < 1024)
    (key : CStr) :
    configGetValue (configParseCmdline (some (cmdline ++ [newline])) hint (loaded items)).2 key
      = (denote ((hinted hint (cmdline ++ [newline])).filterMap strtokItem).reverse key).or
          (denote items.reverse key) := by
  have htake : (cmdline ++ [newline]).take 1024 = cmdline ++ [newline] :=
    List.take_of_length_le (by simp; omega)
  have hread : ∀ i ∈ (hinted hint (cmdline ++ [newline])).filterMap strtokItem, i.1 ≠ [] := by
    intro i hi
    obtain ⟨rest, -, heq⟩ := List.mem_filterMap.mp hi
    exact strtokItem_key_ne_nil heq
  rw [configParseCmdline]
  simp only [htake]
  rw [if_neg (by simp), foldl_overrideToken (loaded_ne_nil hne hkeys), ← hinted, configGetValue,
    denote_foldl_configAddItem hread, loaded, denote_foldl_configAddItem hkeys, denote_nil,
    Option.or_none]

/-- The last item with a key decides. -/
theorem denote_filterMap_last (f : CStr → Option (CStr × CStr)) (key : CStr) (rs : List CStr) :
    denote (rs.filterMap f).reverse key = none ∨
      ∃ before rest behind v, rs = before ++ rest :: behind ∧ f rest = some (key, v) ∧
        denote (behind.filterMap f).reverse key = none ∧
        denote (rs.filterMap f).reverse key = some v := by
  induction rs with
  | nil => exact .inl rfl
  | cons r rs ih =>
    have hcons : denote ((r :: rs).filterMap f).reverse key
        = (denote (rs.filterMap f).reverse key).or (denote (f r).toList key) := by
      cases hr : f r with
      | none => rw [List.filterMap_cons_none hr]; simp
      | some i => rw [List.filterMap_cons_some hr, List.reverse_cons, denote_append]; rfl
    rcases ih with hnone | ⟨before, rest, behind, v, hsplit, hrest, hbehind, hv⟩
    · rw [hcons, hnone, Option.none_or]
      cases hr : f r with
      | none => exact .inl rfl
      | some i =>
        rw [Option.toList_some, denote_cons, denote_nil]
        by_cases hkey : key = i.1
        · exact .inr ⟨[], r, rs, i.2, rfl, by rw [hr, hkey], hnone, if_pos hkey⟩
        · exact .inl (if_neg hkey)
    · refine .inr ⟨r :: before, rest, behind, v, by rw [hsplit, List.cons_append], hrest, hbehind,
        ?_⟩
      rw [hcons, hv, Option.some_or]

/-- An item behind which nothing has its key decides. -/
theorem denote_filterMap_append {f : CStr → Option (CStr × CStr)} {rest key v : CStr}
    (h : f rest = some (key, v)) (before behind : List CStr) :
    denote ((before ++ rest :: behind).filterMap f).reverse key
      = (denote (behind.filterMap f).reverse key).or (some v) := by
  rw [List.filterMap_append, List.filterMap_cons_some h, List.reverse_append, List.reverse_cons,
    List.append_assoc, denote_append, List.singleton_append, denote_cons, if_pos rfl]

theorem denote_filterMap_eq_none {f : CStr → Option (CStr × CStr)} {key : CStr} {rs : List CStr}
    (h : ∀ r ∈ rs, ∀ i, f r = some i → i.1 ≠ key) :
    denote (rs.filterMap f).reverse key = none := by
  rcases denote_filterMap_last f key rs with hnone | ⟨before, rest, behind, v, hsplit, hrest, -⟩
  · exact hnone
  · exact absurd rfl (h rest (by rw [hsplit]; simp) _ hrest)

theorem assignmentOf_eq_some {rest : CStr} {i : CStr × CStr} (h : assignmentOf rest = some i) :
    equals ∈ rest ∧ rest.takeWhile (· ≠ equals) = i.1 := by
  rw [assignmentOf] at h
  split at h
  · rename_i hmem
    exact ⟨hmem, congrArg Prod.fst (Option.some.inj h)⟩
  · cases h

/-! ## Precedence -/

section Precedence

variable {items : List (CStr × CStr)} {hint cmdline : CStr}

/-- Without an item in the list no override is kept. -/
theorem takesPrecedence_nil_iff :
    TakesPrecedence [] hint cmdline ↔ ∀ rest ∈ hinted hint cmdline, equals ∉ rest := by
  have hcode : ∀ key,
      configGetValue (configParseCmdline (some (cmdline ++ [newline])) hint (loaded [])).2 key
        = none := by
    intro key
    rw [configParseCmdline]
    split
    · rfl
    · rw [loaded, List.foldl_nil, foldl_overrideToken_nil]
      rfl
  constructor
  · intro h rest hrest hmem
    have hkey := h (rest.takeWhile (· ≠ equals))
    rw [hcode] at hkey
    have hnone := (Option.or_eq_none_iff.mp hkey.symm).1
    refine denote_eq_none_iff.mp hnone (List.mem_map.mpr ⟨_, List.mem_reverse.mpr
      (List.mem_filterMap.mpr ⟨rest, hrest, if_pos hmem⟩), rfl⟩)
  · intro h key
    have hnone : (hinted hint cmdline).filterMap assignmentOf = [] :=
      List.filterMap_eq_nil_iff.mpr fun rest hrest => if_neg (h rest hrest)
    rw [hcode, overridden, hnone]
    rfl

/-- The newline makes no difference to what is read. -/
theorem read_eq (hkeyed : ∀ rest ∈ hinted hint cmdline, rest.head? ≠ some equals)
    (hended : ∀ rest, behindHint hint (openToken cmdline) = some rest → equals ∈ rest)
    (hline : newline ∉ cmdline) :
    (hinted hint (cmdline ++ [newline])).filterMap strtokItem
      = (hinted hint cmdline).filterMap strtokItem := by
  obtain ⟨front, hfront, hread⟩ := hinted_newline hint hline
  rw [hread, hfront]
  cases hrest : behindHint hint (openToken cmdline) with
  | none => simp
  | some rest =>
    have hmem := hended rest hrest
    have hopen : openToken cmdline ≠ [] := by
      intro hnil
      rw [hnil, behindHint] at hrest
      split at hrest
      · rw [List.drop_nil] at hrest
        rw [← Option.some.inj hrest] at hmem
        cases hmem
      · cases hrest
    have hlast : rest ∈ hinted hint cmdline := by
      rw [hfront, if_neg hopen, hrest]
      exact List.mem_append_right _ (List.mem_singleton_self _)
    have hkey := hkeyed rest hlast
    have hnl := newline_not_mem_hinted hline hlast
    rw [if_neg hopen, Option.map_some, List.filterMap_append, List.filterMap_append]
    congr 1
    rw [Option.toList_some, Option.toList_some, List.filterMap_cons, List.filterMap_cons,
      strtokItem_newline hmem hkey hnl]

/-- What a token assigns is what is read from it. -/
theorem assigned (hkeyed : ∀ rest ∈ hinted hint cmdline, rest.head? ≠ some equals)
    (hline : newline ∉ cmdline) {rest : CStr} (hrest : rest ∈ hinted hint cmdline)
    (hmem : equals ∈ rest) :
    strtokItem rest = assignmentOf rest :=
  strtokItem_assignment hmem (hkeyed rest hrest) (newline_not_mem_hinted hline hrest)

/-- A key that nothing is read for is assigned nowhere. -/
theorem Plain.denote_eq_none (h : Plain items hint cmdline) (hline : newline ∉ cmdline)
    {rs : List CStr} (hsub : ∀ r ∈ rs, r ∈ hinted hint cmdline) {key : CStr}
    (hnone : denote (rs.filterMap strtokItem).reverse key = none) :
    denote (rs.filterMap assignmentOf).reverse key = none := by
  refine denote_filterMap_eq_none fun r hr i hi heq => ?_
  have hread := assigned h.keyed hline (hsub r hr) (assignmentOf_eq_some hi).1
  refine denote_eq_none_iff.mp hnone (List.mem_map.mpr ⟨i, List.mem_reverse.mpr
    (List.mem_filterMap.mpr ⟨r, hr, hread.trans hi⟩), heq⟩)

theorem Plain.takesPrecedence (h : Plain items hint cmdline) (hne : items ≠ [])
    (hitems : ∀ i ∈ items, KeyOk i.1) (hline : newline ∉ cmdline)
    (hlen : cmdline.length < 1024) : TakesPrecedence items hint cmdline := by
  intro key
  rw [configGetValue_configParseCmdline hne (fun i hi => (hitems i hi).nonempty) hlen,
    read_eq h.keyed h.ended hline]
  rcases denote_filterMap_last strtokItem key (hinted hint cmdline) with
    hnone | ⟨before, rest, behind, v, hsplit, hrest, hbehind, hv⟩
  · rw [hnone, overridden, h.denote_eq_none hline (fun r hr => hr) hnone]
  · have hsub : ∀ r ∈ behind, r ∈ hinted hint cmdline := fun r hr => by
      rw [hsplit]
      exact List.mem_append_right _ (List.mem_cons_of_mem _ hr)
    have hmemRest : rest ∈ hinted hint cmdline := by
      rw [hsplit]
      simp
    have hlater := h.denote_eq_none hline hsub hbehind
    rw [hv, Option.some_or]
    by_cases hmem : equals ∈ rest
    · have hassign : assignmentOf rest = some (key, v) :=
        (assigned h.keyed hline hmemRest hmem).symm.trans hrest
      rw [overridden, hsplit, denote_filterMap_append hassign, hlater, Option.none_or,
        Option.some_or]
    · -- nothing behind the flag assigns its key, so it has to be empty
      have hnonempty : rest ≠ [] := by
        rintro rfl
        cases hrest
      rw [strtokItem_flag hnonempty hmem, Option.some.injEq, Prod.mk.injEq] at hrest
      rcases h.flags before rest behind hsplit hmem hnonempty with ⟨r, hr, hrmem, hrkey⟩ | hempty
      · refine absurd (List.mem_map.mpr ⟨_, List.mem_reverse.mpr
          (List.mem_filterMap.mpr ⟨r, hr, if_pos hrmem⟩), ?_⟩) (denote_eq_none_iff.mp hlater)
        rw [← hrest.1, ← hrkey]
      · rw [← hrest.1, ← hrest.2, hempty]

/-- What a command line that takes precedence sets. -/
theorem TakesPrecedence.value (h : TakesPrecedence items hint cmdline) (hne : items ≠ [])
    (hitems : ∀ i ∈ items, KeyOk i.1) (hlen : cmdline.length < 1024) (key : CStr) :
    (denote ((hinted hint (cmdline ++ [newline])).filterMap strtokItem).reverse key).or
      (denote items.reverse key) = overridden items hint cmdline key :=
  (configGetValue_configParseCmdline hne (fun i hi => (hitems i hi).nonempty) hlen key).symm.trans
    (h key)

theorem TakesPrecedence.keyed (h : TakesPrecedence items hint cmdline) (hne : items ≠ [])
    (hitems : ∀ i ∈ items, KeyOk i.1) (hlen : cmdline.length < 1024) :
    ∀ rest ∈ hinted hint cmdline, rest.head? ≠ some equals := by
  intro rest hrest hhead
  -- the empty key is assigned, and never set
  obtain ⟨cs, rfl⟩ := List.head?_eq_some_iff.mp hhead
  have hfile : denote items.reverse [] = none := by
    refine denote_eq_none_iff.mpr fun hmem => ?_
    obtain ⟨i, hi, heq⟩ := List.mem_map.mp hmem
    exact (hitems i (List.mem_reverse.mp hi)).nonempty heq
  have hvalue := h.value hne hitems hlen []
  rw [denote_filterMap_eq_none fun r _ i hi => strtokItem_key_ne_nil hi, hfile, Option.none_or,
    overridden] at hvalue
  have hassign : assignmentOf (equals :: cs) = some ([], cs) := by
    rw [assignmentOf, if_pos (List.mem_cons_self ..), List.takeWhile_cons_of_neg (by simp),
      List.dropWhile_cons_of_neg (by simp), List.drop_succ_cons, List.drop_zero]
  exact denote_eq_none_iff.mp (Option.or_eq_none_iff.mp hvalue.symm).1 (List.mem_map.mpr
    ⟨([], cs), List.mem_reverse.mpr (List.mem_filterMap.mpr ⟨_, hrest, hassign⟩), rfl⟩)

theorem TakesPrecedence.ended (h : TakesPrecedence items hint cmdline) (hne : items ≠ [])
    (hitems : ∀ i ∈ items, KeyOk i.1) (hline : newline ∉ cmdline)
    (hlen : cmdline.length < 1024) :
    ∀ rest, behindHint hint (openToken cmdline) = some rest → equals ∈ rest := by
  intro rest hrest
  by_contra hmem
  obtain ⟨front, -, hread⟩ := hinted_newline hint hline
  -- the key with the newline is set, and neither assigned nor in the file
  have hset : equals ∉ rest ++ [newline] := by
    rw [List.mem_append, not_or, List.mem_singleton]
    exact ⟨hmem, by decide⟩
  have hnl : newline ∈ rest ++ [newline] := List.mem_append_right _ (List.mem_singleton_self _)
  have hfile : denote items.reverse (rest ++ [newline]) = none := by
    refine denote_eq_none_iff.mpr fun hkey => ?_
    obtain ⟨i, hi, heq⟩ := List.mem_map.mp hkey
    exact (hitems i (List.mem_reverse.mp hi)).line.1 (heq ▸ hnl)
  have hassigned : denote ((hinted hint cmdline).filterMap assignmentOf).reverse
      (rest ++ [newline]) = none := by
    refine denote_filterMap_eq_none fun r hr i hi heq => ?_
    refine newline_not_mem_hinted hline hr ((List.takeWhile_sublist (· ≠ equals)).subset ?_)
    rw [(assignmentOf_eq_some hi).2, heq]
    exact hnl
  have hvalue := h.value hne hitems hlen (rest ++ [newline])
  rw [hread, hrest, Option.map_some, Option.toList_some,
    denote_filterMap_append (strtokItem_flag (by simp) hset) front [], List.filterMap_nil,
    List.reverse_nil, denote_nil, Option.none_or, Option.some_or, overridden, hassigned, hfile]
    at hvalue
  cases hvalue

theorem TakesPrecedence.flags (h : TakesPrecedence items hint cmdline) (hne : items ≠ [])
    (hitems : ∀ i ∈ items, KeyOk i.1) (hline : newline ∉ cmdline)
    (hlen : cmdline.length < 1024) {before behind : List CStr} {rest : CStr}
    (hsplit : hinted hint cmdline = before ++ rest :: behind) (hmem : equals ∉ rest)
    (hnonempty : rest ≠ []) :
    (∃ r ∈ behind, equals ∈ r ∧ r.takeWhile (· ≠ equals) = rest) ∨
      overridden items hint cmdline rest = some [] := by
  have hkeyed := h.keyed hne hitems hlen
  by_cases hlater : ∃ r ∈ behind, equals ∈ r ∧ r.takeWhile (· ≠ equals) = rest
  · exact .inl hlater
  · refine .inr ?_
    have hvalue := h.value hne hitems hlen rest
    rw [read_eq hkeyed (h.ended hne hitems hline hlen) hline, hsplit,
      denote_filterMap_append (strtokItem_flag hnonempty hmem)] at hvalue
    -- behind it the key is read from flags alone
    rcases denote_filterMap_last strtokItem rest behind with
      hnone | ⟨before', r, behind', v, hsplit', hr, -, hv⟩
    · rw [← hvalue, hnone]
      rfl
    · have hrbehind : r ∈ behind := by
        rw [hsplit']
        simp
      have hrmem : r ∈ hinted hint cmdline := by
        rw [hsplit]
        exact List.mem_append_right _ (List.mem_cons_of_mem _ hrbehind)
      have hflag : equals ∉ r := fun hreq =>
        hlater ⟨r, hrbehind, hreq, (assignmentOf_eq_some
          ((assigned hkeyed hline hrmem hreq).symm.trans hr)).2⟩
      have hrne : r ≠ [] := by
        rintro rfl
        cases hr
      rw [strtokItem_flag hrne hflag, Option.some.injEq, Prod.mk.injEq] at hr
      rw [← hvalue, hv, ← hr.2]
      rfl

/-- **The command line takes precedence** exactly if there is an item that it can be added to
and its hinted tokens are read as they are meant, or if it assigns nothing. The keys of a file
start a line, and `/proc/cmdline` is one line. -/
theorem takesPrecedence_iff (hitems : ∀ i ∈ items, KeyOk i.1) (hline : OneLine cmdline)
    (hlen : cmdline.length < 1024) :
    TakesPrecedence items hint cmdline ↔
      (items = [] ∧ ∀ rest ∈ hinted hint cmdline, equals ∉ rest) ∨
      (items ≠ [] ∧ Plain items hint cmdline) := by
  by_cases hne : items = []
  · obtain rfl := hne
    rw [takesPrecedence_nil_iff]
    simp
  · constructor
    · intro h
      exact .inr ⟨hne, h.keyed hne hitems hlen, h.ended hne hitems hline.1 hlen,
        fun _ _ _ hsplit hmem hnonempty =>
          h.flags hne hitems hline.1 hlen hsplit hmem hnonempty⟩
    · rintro (⟨hnil, -⟩ | ⟨-, hplain⟩)
      · exact absurd hnil hne
      · exact hplain.takesPrecedence hne hitems hline.1 hlen

end Precedence

/-- The keys of a file start a line. -/
theorem keyOk_of_keyValueOf {content line : CStr} (hline : line ∈ fgetsLines content)
    {i : CStr × CStr} (h : keyValueOf line = some i) (hne : i.1 ≠ []) : KeyOk i.1 := by
  rw [keyValueOf] at h
  split at h
  · obtain rfl := Option.some.inj h
    have hpre : (cstrAt line 0).dropLast <+: line.dropLast :=
      prefix_dropLast (List.takeWhile_prefix _)
    have hsub := List.takeWhile_sublist (· ≠ equals) (l := (cstrAt line 0).dropLast)
    refine ⟨⟨fun hnl => newline_not_mem_dropLast hline (hpre.subset (hsub.subset hnl)),
      fun h0 => ?_⟩, fun heq => ?_, hne⟩
    · have hzero := List.mem_takeWhile_imp ((List.dropLast_sublist _).subset (hsub.subset h0))
      simp at hzero
    · have hno := List.mem_takeWhile_imp heq
      simp at hno
  · cases h

theorem takesPrecedence_assignment :
    TakesPrecedence [(str "rev", str "1")] (str "pv_") (str "quiet pv_rev=2") :=
  (takesPrecedence_iff (by decide) (by decide) (by decide)).mpr (.inr ⟨by decide, by
    have hhinted : hinted (str "pv_") (str "quiet pv_rev=2") = [str "rev=2"] := by decide +kernel
    refine ⟨by decide +kernel, ?_, fun before rest behind hsplit hmem _ => ?_⟩
    · intro rest hrest
      rw [show behindHint (str "pv_") (openToken (str "quiet pv_rev=2")) = some (str "rev=2") by
        decide +kernel] at hrest
      exact Option.some.inj hrest ▸ by decide
    · have hrest : rest ∈ hinted (str "pv_") (str "quiet pv_rev=2") := by
        rw [hsplit]
        simp
      rw [hhinted, List.mem_singleton] at hrest
      exact absurd (by decide) (hrest ▸ hmem)⟩)

/-- An override of an empty configuration is lost. -/
theorem override_of_empty_file_lost : ¬ TakesPrecedence [] (str "pv_") (str "pv_wdt.timeout=30") :=
  fun h => absurd (h (str "wdt.timeout")) (by decide +kernel)

end Pantavisor.Config
