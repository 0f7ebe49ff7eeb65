/-
Pantavisor.Config.LoadFile — `load_key_value_file` on the buffer that it allocates
(`config_parser.c`).

The buffer has the size of the file, and `fgets` is given one byte more, which it needs for
the terminator of a file of one line. What is cut off a line is its last byte, whatever it
is: without a newline at the end of the file the last line loses a byte of its value. An item
without a key is freed before its strings are set.

A function gives `none` where the C code is undefined. `ConfigParser` has the same code on
strings.
-/
import Pantavisor.Config.ConfigParser
import Pantavisor.Lib.Block

namespace Pantavisor.Config.Buffer

open Pantavisor.Lib

/-! ## The code -/

/-- `_config_add_item`. Behind an empty key it frees what `malloc` has left in the item. -/
def configAddItem (list : List (CStr × CStr)) (item : CStr × CStr) :
    Option (List (CStr × CStr)) :=
  if item.1 ∈ list.map Prod.fst then some (list.map fun i => if i.1 = item.1 then item else i)
  else if item.1 = [] then none
  else some (list ++ [item])

/-- The pieces that `fgets` gets from a file with room for `limit` bytes, where `room` is left
for the first of them. -/
def fgetsPieces (limit : Nat) : Nat → CStr → List CStr
  | _, [] => []
  | room, c :: cs =>
    if c = newline ∨ room ≤ 1 then [c] :: fgetsPieces limit limit cs
    else
      match fgetsPieces limit (room - 1) cs with
      | [] => [[c]]
      | piece :: rest => (c :: piece) :: rest

/-- What `fgets` gets, where its size is an `int`: nothing if that is not positive, and the
empty string, again and again, if it is one. -/
def fgetsAll (size : Int) (content : CStr) : List CStr :=
  if size ≤ 0 then []
  else if size = 1 then [[]]
  else fgetsPieces (size - 1).toNat (size - 1).toNat content

/-- `fgets` of a line into the buffer, and the body of the loop up to `_config_add_item`. -/
def readLine (buff : Block) (line : CStr) : Option (Block × Option (CStr × CStr)) := do
  let buff ← buff.store 0 (line ++ [0])
  let s ← buff.text
  -- `buff[-1]`
  if s = [] then none
  else
    let buff ← buff.store (s.length - 1) [0]
    let s ← buff.text
    return (buff,
      if equals ∈ s then some (s.takeWhile (· ≠ equals), (s.dropWhile (· ≠ equals)).drop 1)
      else none)

/-- The loop of `load_key_value_file` -/
def loadLines : List CStr → Block → List (CStr × CStr) → Option (List (CStr × CStr))
  | [], _, list => some list
  | line :: lines, buff, list =>
    match readLine buff line with
    | none => none
    | some (buff, none) => loadLines lines buff list
    | some (buff, some item) =>
      match configAddItem list item with
      | none => none
      | some list => loadLines lines buff list

/-- `load_key_value_file` of a file that is there -/
def loadKeyValueFile (content : CStr) : Option (List (CStr × CStr)) :=
  loadLines (fgetsAll (intOfSize (content.length + 1)) content) (Block.calloc content.length) []

/-! ## What the lines of a file say -/

/-- The lines of a file that have a newline, without it, and what is behind the last one. -/
def splitLines : CStr → List CStr × CStr
  | [] => ([], [])
  | c :: cs =>
    if c = newline then ([] :: (splitLines cs).1, (splitLines cs).2)
    else
      match (splitLines cs).1 with
      | [] => ([], c :: (splitLines cs).2)
      | line :: rest => ((c :: line) :: rest, (splitLines cs).2)

/-- The lines of a file, the last of which may have no newline. -/
def linesOf (content : CStr) : List CStr :=
  (splitLines content).1 ++ if (splitLines content).2 = [] then [] else [(splitLines content).2]

/-- The key and the value of a line: what is before its first equals sign, and the rest. -/
def itemOf (line : CStr) : Option (CStr × CStr) :=
  if equals ∈ line ∧ line.head? ≠ some equals then
    some (line.takeWhile (· ≠ equals), (line.dropWhile (· ≠ equals)).drop 1)
  else none

/-- The value in the last of the lines with a key. -/
def lastValue (lines : List CStr) (key : CStr) : Option CStr :=
  denote (lines.filterMap itemOf).reverse key

/-! ## One line -/

/-- The last byte of a line that fits goes, and the key and the value are what is left. -/
theorem readLine_fits {buff : Block} {line : CStr} (hnul : NulFree line) (hne : line ≠ [])
    (hlt : line.length < buff.length) :
    ∃ buff', readLine buff line = some (buff', keyValueOf line) ∧
      buff'.length = buff.length := by
  obtain ⟨b, hstore, htext⟩ : ∃ b, buff.store 0 (line ++ [0]) = some b ∧ b.text = some line := by
    refine ⟨_, Block.store_zero (by simp; omega), ?_⟩
    rw [List.map_append, List.append_assoc]
    exact Block.text_append_zero hnul _
  obtain ⟨s, c, hline⟩ : ∃ s c, line = s ++ [c] :=
    ⟨line.dropLast, line.getLast hne, (List.dropLast_append_getLast hne).symm⟩
  have hlen : line.length - 1 = s.length := by
    rw [hline]
    simp
  have hwhole := htext
  rw [hline] at hwhole
  obtain ⟨buff', hstore', htext'⟩ := Option.bind_eq_some_iff.mp (Block.text_store_zero hwhole)
  have hitem : keyValueOf line = if equals ∈ s then
      some (s.takeWhile (· ≠ equals), (s.dropWhile (· ≠ equals)).drop 1) else none := by
    rw [keyValueOf, cstrAt_zero hnul, hline, List.dropLast_concat]
  refine ⟨buff', ?_, ?_⟩
  · rw [readLine, hstore]
    simp only [Option.bind_eq_bind, Option.bind_some, htext, if_neg hne, hlen, hstore', htext',
      hitem]
    rfl
  · rw [Block.length_store hstore', Block.length_store hstore]

/-- A line that does not fit runs over, and of none the first byte is cut off before it. -/
theorem readLine_none {buff : Block} {line : CStr}
    (h : ¬ (line ≠ [] ∧ line.length < buff.length)) : readLine buff line = none := by
  rw [readLine]
  by_cases hlt : line.length < buff.length
  · obtain rfl : line = [] := by
      by_contra hne
      exact h ⟨hne, hlt⟩
    rw [Block.store_zero (show ([] ++ [0] : CStr).length ≤ buff.length from hlt)]
    rfl
  · rw [Block.store_eq_none_iff.mpr (by simp; omega)]
    rfl

theorem configAddItem_eq {list : List (CStr × CStr)} (hlist : [] ∉ list.map Prod.fst)
    (item : CStr × CStr) :
    configAddItem list item
      = if item.1 = [] then none else some (Config.configAddItem list item) := by
  rw [configAddItem, Config.configAddItem]
  by_cases hempty : item.1 = []
  · rw [if_pos hempty, if_neg (by rw [hempty]; exact hlist), if_pos hempty]
  · simp only [if_neg hempty]
    split <;> rfl

theorem nil_not_mem_configAddItem {list : List (CStr × CStr)} (hlist : [] ∉ list.map Prod.fst)
    {item : CStr × CStr} (h : item.1 ≠ []) :
    [] ∉ (Config.configAddItem list item).map Prod.fst := by
  rw [← denote_eq_none_iff, denote_configAddItem _ h, if_neg (Ne.symm h), denote_eq_none_iff]
  exact hlist

/-- **The lines are loaded** just if each of them fits and none has an empty key. -/
theorem loadLines_eq_some_iff {lines : List CStr} {buff : Block} {list r : List (CStr × CStr)}
    (hlines : ∀ line ∈ lines, NulFree line) (hlist : [] ∉ list.map Prod.fst) :
    loadLines lines buff list = some r ↔
      (∀ line ∈ lines, line ≠ [] ∧ line.length < buff.length ∧
        ∀ i, keyValueOf line = some i → i.1 ≠ []) ∧
      (lines.filterMap keyValueOf).foldl Config.configAddItem list = r := by
  induction lines generalizing buff list with
  | nil => simp [loadLines]
  | cons line lines ih =>
    have hrest : ∀ l ∈ lines, NulFree l := fun l hl => hlines l (List.mem_cons_of_mem _ hl)
    rw [loadLines, List.forall_mem_cons]
    by_cases hfits : line ≠ [] ∧ line.length < buff.length
    · obtain ⟨buff', hread, hlen⟩ :=
        readLine_fits (hlines line (List.mem_cons_self ..)) hfits.1 hfits.2
      rw [hread]
      cases hitem : keyValueOf line with
      | none =>
        dsimp only
        rw [ih hrest hlist, hlen, List.filterMap_cons_none hitem]
        simp [hfits]
      | some item =>
        dsimp only
        rw [configAddItem_eq hlist, List.filterMap_cons_some hitem, List.foldl_cons]
        by_cases hempty : item.1 = []
        · rw [if_pos hempty]
          simp [hempty]
        · rw [if_neg hempty]
          dsimp only
          rw [ih hrest (nil_not_mem_configAddItem hlist hempty), hlen]
          simp [hfits, hempty]
    · rw [readLine_none hfits]
      simp only [reduceCtorEq, false_iff, not_and]
      intro h
      exact absurd ⟨h.1.1, h.1.2.1⟩ hfits

/-! ## The lines -/

theorem mem_fgetsPieces {limit room : Nat} {content piece : CStr}
    (h : piece ∈ fgetsPieces limit room content) : piece ≠ [] ∧ ∀ c ∈ piece, c ∈ content := by
  induction content generalizing room piece with
  | nil => cases h
  | cons c cs ih =>
    rw [fgetsPieces] at h
    split at h
    · rcases List.mem_cons.mp h with rfl | h
      · simp
      · exact ⟨(ih h).1, fun d hd => List.mem_cons_of_mem _ ((ih h).2 d hd)⟩
    · cases hpieces : fgetsPieces limit (room - 1) cs with
      | nil =>
        rw [hpieces, List.mem_singleton] at h
        simp [h]
      | cons first rest =>
        rw [hpieces] at h
        rcases List.mem_cons.mp h with rfl | h
        · have hfirst := ih (by rw [hpieces]; exact List.mem_cons_self ..)
          refine ⟨by simp, fun d hd => ?_⟩
          rcases List.mem_cons.mp hd with rfl | hd
          · exact List.mem_cons_self ..
          · exact List.mem_cons_of_mem _ (hfirst.2 d hd)
        · have hpiece := ih (by rw [hpieces]; exact List.mem_cons_of_mem _ h)
          exact ⟨hpiece.1, fun d hd => List.mem_cons_of_mem _ (hpiece.2 d hd)⟩

/-- A piece has no more than the room for it. -/
theorem length_fgetsPieces {limit : Nat} (hlimit : 0 < limit) {content : CStr} {room : Nat}
    (hroom : 0 < room ∧ room ≤ limit) :
    (∀ p ∈ (fgetsPieces limit room content).head?, p.length ≤ room) ∧
      ∀ p ∈ fgetsPieces limit room content, p.length ≤ limit := by
  induction content generalizing room with
  | nil => simp [fgetsPieces]
  | cons c cs ih =>
    rw [fgetsPieces]
    split
    · have hrest := (ih ⟨hlimit, le_refl limit⟩).2
      refine ⟨?_, ?_⟩
      · rintro p hp
        obtain rfl := Option.some.inj hp
        exact hroom.1
      · rw [List.forall_mem_cons]
        exact ⟨hlimit, hrest⟩
    · rename_i hgoes
      obtain ⟨hfirst, hrest⟩ := ih (show 0 < room - 1 ∧ room - 1 ≤ limit by omega)
      cases hpieces : fgetsPieces limit (room - 1) cs with
      | nil =>
        refine ⟨?_, ?_⟩
        · rintro p hp
          obtain rfl := Option.some.inj hp
          exact hroom.1
        · rw [List.forall_mem_singleton]
          exact hlimit
      | cons first rest =>
        rw [hpieces] at hfirst hrest
        have hlen := hfirst first rfl
        refine ⟨?_, ?_⟩
        · rintro p hp
          obtain rfl := Option.some.inj hp
          rw [List.length_cons]
          omega
        · rw [List.forall_mem_cons]
          refine ⟨?_, fun p hp => hrest p (List.mem_cons_of_mem _ hp)⟩
          rw [List.length_cons]
          omega

/-- In a buffer as large as the file each line is one piece. -/
theorem fgetsPieces_eq {limit room : Nat} {content : CStr} (h : content.length ≤ room)
    (hlimit : content.length ≤ limit) :
    fgetsPieces limit room content = fgetsLines content := by
  induction content generalizing room with
  | nil => rfl
  | cons c cs ih =>
    rw [List.length_cons] at h hlimit
    rw [fgetsPieces, fgetsLines]
    by_cases hc : c = newline
    · rw [if_pos (.inl hc), if_pos hc, ih (by omega) (by omega)]
    · rw [if_neg hc]
      by_cases hroom : room ≤ 1
      · obtain rfl := List.length_eq_zero_iff.mp (by omega : cs.length = 0)
        exact if_pos (.inr hroom)
      · cases hrest : fgetsLines cs with
        | nil => rw [if_neg (not_or.mpr ⟨hc, hroom⟩), ih (by omega) (by omega), hrest]
        | cons line lines => rw [if_neg (not_or.mpr ⟨hc, hroom⟩), ih (by omega) (by omega), hrest]

theorem splitLines_spec (content : CStr) :
    fgetsLines content = (splitLines content).1.map (· ++ [newline]) ++
        (if (splitLines content).2 = [] then [] else [(splitLines content).2]) ∧
      (∀ line ∈ (splitLines content).1, newline ∉ line) ∧ newline ∉ (splitLines content).2 := by
  induction content with
  | nil => simp [fgetsLines, splitLines]
  | cons c cs ih =>
    obtain ⟨hlines, hbody, htail⟩ := ih
    rw [fgetsLines, splitLines]
    split
    · rename_i hc
      rw [hlines, hc]
      exact ⟨rfl, by simpa using hbody, htail⟩
    · rename_i hc
      rw [hlines]
      cases hsplit : (splitLines cs).1 with
      | nil =>
        have hne : newline ∉ c :: (splitLines cs).2 := by
          rw [List.mem_cons, not_or]
          exact ⟨Ne.symm hc, htail⟩
        refine ⟨?_, by simp, hne⟩
        by_cases hempty : (splitLines cs).2 = []
        · simp [hempty]
        · simp [hempty]
      | cons line rest =>
        rw [hsplit, List.forall_mem_cons] at hbody
        refine ⟨rfl, ?_, htail⟩
        rw [List.forall_mem_cons, List.mem_cons, not_or]
        exact ⟨⟨Ne.symm hc, hbody.1⟩, hbody.2⟩

/-- What is before the last byte of a line, where that is a newline. -/
theorem keyValueOf_whole {line : CStr} (hnul : NulFree line) (h : line.head? ≠ some equals) :
    keyValueOf (line ++ [newline]) = itemOf line := by
  have hwhole : NulFree (line ++ [newline]) := by
    rw [NulFree, List.mem_append, not_or]
    exact ⟨hnul, by decide⟩
  rw [keyValueOf, cstrAt_zero hwhole, List.dropLast_concat, itemOf]
  simp only [h, ne_eq, not_false_eq_true, and_true]

theorem takeWhile_key {key : CStr} (value : CStr) (h : equals ∉ key) :
    (key ++ equals :: value).takeWhile (· ≠ equals) = key ∧
      ((key ++ equals :: value).dropWhile (· ≠ equals)).drop 1 = value := by
  have hne : ∀ c ∈ key, decide (c ≠ equals) = true := fun c hc =>
    decide_eq_true fun heq => h (heq ▸ hc)
  rw [List.takeWhile_append_of_pos hne, List.dropWhile_append_of_pos hne,
    List.takeWhile_cons_of_neg (by simp), List.dropWhile_cons_of_neg (by simp), List.append_nil]
  exact ⟨rfl, rfl⟩

/-- A line has a key at its start, which may be empty, or no equals sign. -/
theorem exists_key {line : CStr} (h : equals ∈ line) :
    ∃ key value, line = key ++ equals :: value ∧ equals ∉ key := by
  obtain ⟨key, value, hline, hkey⟩ := List.eq_append_cons_of_mem h
  exact ⟨key, value, hline, hkey⟩

theorem itemOf_key {key value : CStr} (hkey : equals ∉ key) :
    itemOf (key ++ equals :: value) = if key = [] then none else some (key, value) := by
  rw [itemOf, (takeWhile_key _ hkey).1, (takeWhile_key _ hkey).2]
  cases key with
  | nil => simp
  | cons c key =>
    have hc : c ≠ equals := fun heq => hkey (heq ▸ List.mem_cons_self ..)
    simp [hc]

theorem itemOf_none {line : CStr} (h : equals ∉ line) : itemOf line = none := by
  rw [itemOf, if_neg fun hboth => h hboth.1]

theorem key_ne_nil_of_itemOf {line : CStr} {i : CStr × CStr} (h : itemOf line = some i) :
    i.1 ≠ [] := by
  by_cases hmem : equals ∈ line
  · obtain ⟨key, value, rfl, hkey⟩ := exists_key hmem
    rw [itemOf_key hkey] at h
    split at h
    · cases h
    · obtain rfl := Option.some.inj h
      assumption
  · rw [itemOf_none hmem] at h
    cases h

/-- What the code makes of a line without a newline: it loses its last byte. -/
theorem keyValueOf_unterminated {line : CStr} (hnul : NulFree line) :
    (equals ∉ line → keyValueOf line = none) ∧
      ∀ key value, line = key ++ equals :: value → equals ∉ key →
        keyValueOf line = if value = [] then none else some (key, value.dropLast) := by
  constructor
  · intro h
    rw [keyValueOf, cstrAt_zero hnul]
    exact if_neg fun hmem => h ((List.dropLast_sublist _).subset hmem)
  · rintro key value rfl hkey
    rw [keyValueOf, cstrAt_zero hnul]
    rcases List.eq_nil_or_concat value with rfl | ⟨v, c, rfl⟩
    · rw [List.dropLast_concat, if_pos rfl]
      exact if_neg hkey
    · have hne : v ++ [c] ≠ [] := by simp
      rw [List.concat_eq_append, if_neg hne, ← List.cons_append, ← List.append_assoc,
        List.dropLast_concat, List.dropLast_concat]
      show (if equals ∈ key ++ equals :: v then _ else _) = _
      rw [if_pos (by simp), (takeWhile_key _ hkey).1, (takeWhile_key _ hkey).2]

/-! ## The file -/

/-- A last line without a newline is read right if it has no key and value, or if its value is
empty and its key has no other before. -/
def TailOk (before : CStr → Option CStr) (tail : CStr) : Prop :=
  equals ∉ tail ∨ tail = [equals] ∨
    ∃ key, tail = key ++ [equals] ∧ key ≠ [] ∧ equals ∉ key ∧ before key = some []

/-- The value of an item, if it is the one of a key. -/
def valueFor (item : Option (CStr × CStr)) (key : CStr) : Option CStr := denote item.toList key

theorem valueFor_some (key value k : CStr) :
    valueFor (some (key, value)) k = if k = key then some value else none := by
  rw [valueFor, Option.toList_some, denote_cons, denote_nil]

/-- What the last line does is right just if `TailOk` says so. -/
theorem tailOk_iff {before : CStr → Option CStr} {tail : CStr} (hnul : NulFree tail) :
    ((∀ i, keyValueOf tail = some i → i.1 ≠ []) ∧
        ∀ k, (valueFor (keyValueOf tail) k).or (before k) = (valueFor (itemOf tail) k).or (before k))
      ↔ TailOk before tail := by
  obtain ⟨hnone, hsome⟩ := keyValueOf_unterminated hnul
  by_cases hmem : equals ∈ tail
  · obtain ⟨key, value, htail, hkey⟩ := exists_key hmem
    have hcode := hsome key value htail hkey
    have hitem : itemOf tail = if key = [] then none else some (key, value) := by
      rw [htail, itemOf_key hkey]
    rw [hcode, hitem]
    by_cases hvalue : value = []
    · subst hvalue
      rw [if_pos rfl]
      by_cases hempty : key = []
      · subst hempty
        rw [if_pos rfl]
        simp [TailOk, htail]
      · rw [if_neg hempty]
        constructor
        · rintro ⟨-, h⟩
          have hbefore := h key
          rw [valueFor_some, if_pos rfl] at hbefore
          exact .inr (.inr ⟨key, htail, hempty, hkey, hbefore⟩)
        · intro h
          have hbefore : before key = some [] := by
            rcases h with h | h | ⟨key', htail', -, -, hbefore⟩
            · exact absurd hmem h
            · rw [htail] at h
              exact absurd (List.append_inj' (h.trans (List.nil_append _).symm) rfl).1 hempty
            · rw [htail] at htail'
              rw [(List.append_inj' htail' rfl).1]
              exact hbefore
          refine ⟨by simp, fun k => ?_⟩
          rw [valueFor_some]
          split
          · rename_i hk
            rw [hk, hbefore]
            rfl
          · rfl
    · rw [if_neg hvalue]
      constructor
      · rintro ⟨hkeys, h⟩
        have hempty : key ≠ [] := hkeys _ rfl
        have hsame := h key
        rw [if_neg hempty, valueFor_some, valueFor_some, if_pos rfl, if_pos rfl] at hsame
        have hlen := congrArg List.length (Option.some.inj hsame)
        rw [List.length_dropLast] at hlen
        have hpos := List.length_pos_of_ne_nil hvalue
        omega
      · intro h
        have hrest := (takeWhile_key value hkey).2
        rcases h with h | h | ⟨key', htail', -, hkey', -⟩
        · exact absurd hmem h
        · rw [htail] at h
          have hlen := congrArg List.length h
          rw [List.length_append, List.length_cons, List.length_singleton] at hlen
          exact absurd (List.length_eq_zero_iff.mp (by omega)) hvalue
        · rw [← htail, htail', (takeWhile_key _ hkey').2] at hrest
          exact absurd hrest.symm hvalue
  · rw [hnone hmem, itemOf_none hmem]
    simp [TailOk, hmem]

theorem denote_tail {f : CStr → Option (CStr × CStr)} (hf : f [] = none) (tail key : CStr) :
    denote ((if tail = [] then [] else [tail]).filterMap f).reverse key = valueFor (f tail) key := by
  split
  · rename_i h
    rw [h, hf]
    rfl
  · cases hitem : f tail with
    | none =>
      rw [List.filterMap_cons_none hitem]
      rfl
    | some item =>
      rw [List.filterMap_cons_some hitem]
      rfl

/-- What the lines before the last and the last one say. -/
theorem lastValue_snoc (lines : List CStr) (tail key : CStr) :
    lastValue (lines ++ if tail = [] then [] else [tail]) key
      = (valueFor (itemOf tail) key).or (lastValue lines key) := by
  rw [lastValue, List.filterMap_append, List.reverse_append, denote_append, denote_tail rfl]
  rfl

/-- A file that is loaded right: it has two lines or more, no key is empty, and the last line
is in order if it has no newline. -/
structure Loadable (content : CStr) : Prop where
  two : 2 ≤ (linesOf content).length
  keys : ∀ line ∈ (splitLines content).1, line.head? ≠ some equals
  tail : TailOk (lastValue (splitLines content).1) (splitLines content).2

/-- The same for a file that is so long that the size given to `fgets` is another number as an
`int`: the pieces that it makes of the file mean what its lines do. -/
structure LongLoadable (content : CStr) : Prop where
  size : intOfSize (content.length + 1) ≠ 1
  keys : ∀ piece ∈ fgetsAll (intOfSize (content.length + 1)) content,
    ∀ i, keyValueOf piece = some i → i.1 ≠ []
  values : ∀ key,
    denote ((fgetsAll (intOfSize (content.length + 1)) content).filterMap keyValueOf).reverse key
      = lastValue (linesOf content) key

/-- A file is loaded, with nothing undefined, to what its lines say. -/
def LoadedExactly (content : CStr) : Prop :=
  ∃ list, loadKeyValueFile content = some list ∧
    ∀ key, configGetValue list key = lastValue (linesOf content) key

theorem mem_fgetsAll {size : Int} {content piece : CStr} (h : piece ∈ fgetsAll size content) :
    ∀ c ∈ piece, c ∈ content := by
  rw [fgetsAll] at h
  split at h
  · cases h
  · split at h
    · obtain rfl := List.mem_singleton.mp h
      simp
    · exact (mem_fgetsPieces h).2

theorem loadKeyValueFile_eq_some_iff {content : CStr} {list : List (CStr × CStr)}
    (h : NulFree content) :
    loadKeyValueFile content = some list ↔
      (∀ piece ∈ fgetsAll (intOfSize (content.length + 1)) content,
        piece ≠ [] ∧ piece.length < content.length ∧
          ∀ i, keyValueOf piece = some i → i.1 ≠ []) ∧
      ((fgetsAll (intOfSize (content.length + 1)) content).filterMap keyValueOf).foldl
        Config.configAddItem [] = list := by
  have hnul : ∀ piece ∈ fgetsAll (intOfSize (content.length + 1)) content, NulFree piece :=
    fun piece hpiece h0 => h (mem_fgetsAll hpiece 0 h0)
  rw [loadKeyValueFile, loadLines_eq_some_iff hnul (by simp)]
  simp only [Block.calloc, List.length_replicate]

theorem configGetValue_loaded {pieces : List CStr}
    (h : ∀ piece ∈ pieces, ∀ i, keyValueOf piece = some i → i.1 ≠ []) (key : CStr) :
    configGetValue ((pieces.filterMap keyValueOf).foldl Config.configAddItem []) key
      = denote (pieces.filterMap keyValueOf).reverse key := by
  have hitems : ∀ i ∈ pieces.filterMap keyValueOf, i.1 ≠ [] := by
    intro i hi
    obtain ⟨piece, hpiece, heq⟩ := List.mem_filterMap.mp hi
    exact h piece hpiece i heq
  rw [configGetValue, denote_foldl_configAddItem hitems, denote_nil, Option.or_none]

/-- What is asked of a file, told of the pieces that `fgets` makes of it. -/
theorem loadedExactly_pieces {content : CStr} (h : NulFree content) {pieces : List CStr}
    (hpieces : fgetsAll (intOfSize (content.length + 1)) content = pieces) :
    LoadedExactly content ↔
      (∀ piece ∈ pieces, piece ≠ [] ∧ piece.length < content.length) ∧
      (∀ piece ∈ pieces, ∀ i, keyValueOf piece = some i → i.1 ≠ []) ∧
      ∀ key, denote (pieces.filterMap keyValueOf).reverse key = lastValue (linesOf content) key := by
  subst hpieces
  constructor
  · rintro ⟨list, hload, hvalues⟩
    obtain ⟨hfits, rfl⟩ := (loadKeyValueFile_eq_some_iff h).mp hload
    have hkeys := fun piece hpiece => (hfits piece hpiece).2.2
    refine ⟨fun piece hpiece => ⟨(hfits piece hpiece).1, (hfits piece hpiece).2.1⟩, hkeys, ?_⟩
    intro key
    rw [← configGetValue_loaded hkeys]
    exact hvalues key
  · rintro ⟨hfits, hkeys, hvalues⟩
    refine ⟨_, (loadKeyValueFile_eq_some_iff h).mpr ⟨fun piece hpiece =>
      ⟨(hfits piece hpiece).1, (hfits piece hpiece).2, hkeys piece hpiece⟩, rfl⟩, ?_⟩
    intro key
    rw [configGetValue_loaded hkeys]
    exact hvalues key

/-! ## Files of a common size -/

theorem flatten_fgetsLines (content : CStr) : (fgetsLines content).flatten = content := by
  induction content with
  | nil => rfl
  | cons c cs ih =>
    rw [fgetsLines]
    split
    · rw [List.flatten_cons, ih]
      rfl
    · cases hlines : fgetsLines cs with
      | nil =>
        rw [hlines] at ih
        rw [← ih]
        rfl
      | cons line rest =>
        rw [hlines] at ih
        rw [List.flatten_cons, List.cons_append, ← List.flatten_cons, ih]

theorem fgetsLines_ne_nil {content line : CStr} (h : line ∈ fgetsLines content) : line ≠ [] := by
  rw [← fgetsPieces_eq (le_refl _) (le_refl _)] at h
  exact (mem_fgetsPieces h).1

/-- Each line leaves a byte of the buffer for its terminator, unless it is the only one. -/
theorem lines_fit_iff {content : CStr} (h : content ≠ []) :
    (∀ line ∈ fgetsLines content, line.length < content.length) ↔
      2 ≤ (fgetsLines content).length := by
  have hflat := flatten_fgetsLines content
  constructor
  · intro hfits
    by_contra hfew
    match hlines : fgetsLines content with
    | [] =>
      rw [hlines] at hflat
      exact h hflat.symm
    | [line] =>
      rw [hlines, List.flatten_singleton] at hflat
      have hlt := hfits line (by rw [hlines]; exact List.mem_singleton_self line)
      rw [hflat] at hlt
      exact lt_irrefl _ hlt
    | _ :: _ :: _ =>
      rw [hlines] at hfew
      simp at hfew
  · intro htwo line hline
    obtain ⟨before, behind, hsplit⟩ := List.append_of_mem hline
    rw [hsplit] at hflat htwo
    have hlen := congrArg List.length hflat
    rw [List.flatten_append, List.flatten_cons, List.length_append, List.length_append] at hlen
    have hother : ∀ {a b : List CStr} {l : CStr}, fgetsLines content = a ++ l :: b →
        0 < l.length := fun heq =>
      List.length_pos_of_ne_nil (fgetsLines_ne_nil (by rw [heq]; simp))
    cases before with
    | cons first before =>
      have hpos : 0 < first.length :=
        hother (show fgetsLines content = [] ++ first :: (before ++ line :: behind) from hsplit)
      rw [List.flatten_cons, List.length_append] at hlen
      omega
    | nil =>
      cases behind with
      | nil => simp at htwo
      | cons second behind =>
        have hpos : 0 < second.length :=
          hother (show fgetsLines content = [line] ++ second :: behind from hsplit)
        rw [List.flatten_cons, List.length_append] at hlen
        omega

/-- What `fgets` gets from a file whose size and one more is an `int`. -/
theorem fgetsAll_common {content : CStr} (h : content ≠ []) (hsize : content.length + 1 < 2 ^ 31) :
    fgetsAll (intOfSize (content.length + 1)) content = fgetsLines content := by
  have hpos := List.length_pos_of_ne_nil h
  have hlimit : (intOfSize (content.length + 1) - 1).toNat = content.length := by
    rw [intOfSize_eq hsize]
    omega
  rw [fgetsAll, hlimit, intOfSize_eq hsize, if_neg (by omega), if_neg (by omega)]
  exact fgetsPieces_eq (le_refl _) (le_refl _)

theorem length_linesOf (content : CStr) :
    (fgetsLines content).length = (linesOf content).length := by
  rw [(splitLines_spec content).1, linesOf, List.length_append, List.length_append,
    List.length_map]

theorem nulFree_line {content line : CStr} (h : NulFree content) (hline : line ∈ fgetsLines content) :
    NulFree line := by
  rw [← fgetsPieces_eq (le_refl _) (le_refl _)] at hline
  exact fun h0 => h ((mem_fgetsPieces hline).2 0 h0)

theorem keyValueOf_noKey {value : CStr} (h : NulFree value) :
    keyValueOf (equals :: value ++ [newline]) = some ([], value) := by
  have hnul : NulFree (equals :: value ++ [newline]) := by
    simp only [NulFree, List.cons_append, List.mem_cons, List.mem_append, not_or]
    exact ⟨by decide, h, by decide, by simp⟩
  rw [keyValueOf, cstrAt_zero hnul, List.dropLast_concat]
  rfl

theorem nulFree_body {content line : CStr} (h : NulFree content)
    (hline : line ∈ (splitLines content).1) : NulFree line := by
  have hmem : line ++ [newline] ∈ fgetsLines content := by
    rw [(splitLines_spec content).1]
    exact List.mem_append_left _ (List.mem_map.mpr ⟨line, hline, rfl⟩)
  exact fun h0 => nulFree_line h hmem (List.mem_append_left _ h0)

theorem nulFree_tail {content : CStr} (h : NulFree content) : NulFree (splitLines content).2 := by
  by_cases hempty : (splitLines content).2 = []
  · rw [hempty]
    simp [NulFree]
  · refine nulFree_line h ?_
    rw [(splitLines_spec content).1, if_neg hempty]
    simp

theorem keyValueOf_nil : keyValueOf [] = none := rfl

/-- What is loaded with the buffer is what the model on strings has. -/
theorem loadKeyValueFile_strings {content : CStr} {list : List (CStr × CStr)}
    (h : NulFree content) (hsize : content.length + 1 < 2 ^ 31)
    (hload : loadKeyValueFile content = some list) :
    Config.loadKeyValueFile content = some list := by
  obtain ⟨hfits, hlist⟩ := (loadKeyValueFile_eq_some_iff h).mp hload
  by_cases hempty : content = []
  · subst hempty
    rw [intOfSize_eq hsize] at hfits
    exact absurd rfl (hfits [] (List.mem_singleton_self _)).1
  · rw [fgetsAll_common hempty hsize] at hlist
    rw [Config.loadKeyValueFile, if_neg hempty, hlist]

/-- No key of a file is empty, where no whole line starts with an equals sign and the last one,
as it is read, does not either. -/
theorem keys_iff {content : CStr} (h : NulFree content) :
    (∀ line ∈ fgetsLines content, ∀ i, keyValueOf line = some i → i.1 ≠ []) ↔
      (∀ line ∈ (splitLines content).1, line.head? ≠ some equals) ∧
        ∀ i, keyValueOf (splitLines content).2 = some i → i.1 ≠ [] := by
  rw [(splitLines_spec content).1, List.forall_mem_append, List.forall_mem_map]
  refine and_congr ?_ ?_
  · refine forall₂_congr fun line hline => ?_
    have hnul := nulFree_body h hline
    constructor
    · intro hkeys hhead
      cases line with
      | nil => cases hhead
      | cons c value =>
        obtain rfl := Option.some.inj hhead
        have hvalue : NulFree value := fun h0 => hnul (List.mem_cons_of_mem _ h0)
        exact hkeys _ (keyValueOf_noKey hvalue) rfl
    · intro hhead i hi
      rw [keyValueOf_whole hnul hhead] at hi
      exact key_ne_nil_of_itemOf hi
  · split
    · rename_i hempty
      rw [hempty, keyValueOf_nil]
      simp
    · simp

/-- What the lines of a file are read as, the last one apart. -/
theorem values_read {content : CStr} (h : NulFree content)
    (hkeys : ∀ line ∈ (splitLines content).1, line.head? ≠ some equals) (key : CStr) :
    denote ((fgetsLines content).filterMap keyValueOf).reverse key
      = (valueFor (keyValueOf (splitLines content).2) key).or
          (lastValue (splitLines content).1 key) := by
  have hbody : ((splitLines content).1.map (· ++ [newline])).filterMap keyValueOf
      = (splitLines content).1.filterMap itemOf := by
    rw [List.filterMap_map]
    exact List.filterMap_congr fun line hline =>
      keyValueOf_whole (nulFree_body h hline) (hkeys line hline)
  rw [(splitLines_spec content).1, List.filterMap_append, hbody, List.reverse_append,
    denote_append, denote_tail keyValueOf_nil]
  rfl

/-- A file of a common size is loaded to what it says just if it is in order. -/
theorem loadedExactly_common {content : CStr} (h : NulFree content)
    (hsize : content.length + 1 < 2 ^ 31) : LoadedExactly content ↔ Loadable content := by
  by_cases hempty : content = []
  · subst hempty
    have hpieces : fgetsAll (intOfSize (([] : CStr).length + 1)) [] = [[]] := by
      rw [intOfSize_eq hsize]
      rfl
    rw [loadedExactly_pieces h hpieces]
    constructor
    · intro hload
      exact absurd rfl (hload.1 [] (List.mem_singleton_self _)).1
    · intro hgood
      exact absurd hgood.two (by decide)
  · rw [loadedExactly_pieces h (fgetsAll_common hempty hsize), keys_iff h]
    have hfits : (∀ line ∈ fgetsLines content, line ≠ [] ∧ line.length < content.length) ↔
        2 ≤ (linesOf content).length := by
      rw [← length_linesOf, ← lines_fit_iff hempty]
      exact forall₂_congr fun line hline => and_iff_right (fgetsLines_ne_nil hline)
    rw [hfits]
    constructor
    · rintro ⟨htwo, ⟨hkeys, htail⟩, hvalues⟩
      refine ⟨htwo, hkeys, (tailOk_iff (nulFree_tail h)).mp ⟨htail, fun key => ?_⟩⟩
      rw [← values_read h hkeys, hvalues, linesOf, lastValue_snoc]
    · rintro ⟨htwo, hkeys, htail⟩
      obtain ⟨htail, hvalues⟩ := (tailOk_iff (nulFree_tail h)).mpr htail
      refine ⟨htwo, ⟨hkeys, htail⟩, fun key => ?_⟩
      rw [values_read h hkeys, hvalues, linesOf, lastValue_snoc]

/-! ## Files of any size -/

/-- Of a longer file the pieces are so short that they fit. -/
theorem loadedExactly_long {content : CStr} (h : NulFree content)
    (hsize : 2 ^ 31 ≤ content.length + 1) : LoadedExactly content ↔ LongLoadable content := by
  have hint := intOfSize_le hsize
  rw [loadedExactly_pieces h rfl]
  constructor
  · rintro ⟨hfits, hkeys, hvalues⟩
    refine ⟨fun hone => ?_, hkeys, hvalues⟩
    refine absurd rfl (hfits [] ?_).1
    rw [hone]
    exact List.mem_singleton_self _
  · rintro ⟨hone, hkeys, hvalues⟩
    refine ⟨fun piece hpiece => ?_, hkeys, hvalues⟩
    rw [fgetsAll] at hpiece
    split at hpiece
    · cases hpiece
    · refine ⟨(mem_fgetsPieces hpiece).1, ?_⟩
      have hlimit : 0 < (intOfSize (content.length + 1) - 1).toNat := by omega
      have hlen := (length_fgetsPieces hlimit ⟨hlimit, le_refl _⟩).2 piece hpiece
      omega

/-- **A file is loaded exactly and safely** just if it is in order. -/
theorem loadedExactly_iff {content : CStr} (h : NulFree content) :
    LoadedExactly content ↔
      if content.length + 1 < 2 ^ 31 then Loadable content else LongLoadable content := by
  split
  · exact loadedExactly_common h ‹_›
  · exact loadedExactly_long h (by omega)

theorem loadedExactly_two_lines : LoadedExactly (str "a=1\nb=2\n") :=
  (loadedExactly_iff (by decide)).mpr (by
    rw [if_pos (by decide)]
    exact ⟨by decide, by decide, .inl (by decide)⟩)

/-- Without a newline at the end of the file the last value loses a byte. -/
theorem last_byte_lost : ¬ LoadedExactly (str "id=1\nsecret=ab") := by
  rintro ⟨list, hload, hvalues⟩
  have hlist : loadKeyValueFile (str "id=1\nsecret=ab")
      = some [(str "id", str "1"), (str "secret", str "a")] := by decide +kernel
  obtain rfl := Option.some.inj (hlist.symm.trans hload)
  exact absurd (hvalues (str "secret")) (by decide)

end Pantavisor.Config.Buffer
