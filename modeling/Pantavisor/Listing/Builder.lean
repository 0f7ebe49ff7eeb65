/-
Pantavisor.Listing.Builder — the JSON texts of the control socket: the metadata, the objects and
the revisions (`pv_metadata_get_meta_string` in `metadata.c`, `pv_objects_get_list_string` in
`objects.c`, `pv_storage_get_revisions_string` in `storage.c`).

Each of them lets a buffer grow by the length of a line, which is counted apart from the line
itself, and at the end puts the closing bracket over the last byte. Without any line that byte
is the opening bracket. The lengths are right, but for a number that is printed with a sign,
which is one byte longer than it was counted (`objectLine`).

A function gives `none` where the C code is undefined: where an `int` overflows, and where a
byte is read that was not set.
-/
import Pantavisor.Json.FormatBuffer
import Pantavisor.Lib.Block
import Pantavisor.Lib.Decimal
import Pantavisor.Listing.Fields

namespace Pantavisor.Listing

open Pantavisor.Lib Pantavisor.Json Pantavisor.Metadata

/-! ## The buffer -/

/-- `json` and `len` -/
structure JsonText where
  json : Block
  len : Nat

/-- `calloc` of one byte, and the bracket that is put there. -/
def openJson (bracket : UInt8) : JsonText := ⟨[some bracket], 1⟩

/-- `realloc` and `snprintf` of a line. `len` and `line_len` are `int`s, and `snprintf` has no
text that none counts. -/
def addLine (j : JsonText) (lineLen : Nat) (line : CStr) : Option JsonText :=
  if j.len + lineLen + 1 < 2 ^ 31 then
    ((j.json.realloc (j.len + lineLen + 1)).store j.len (line.take lineLen ++ [0])).map fun json =>
      ⟨json, j.len + lineLen⟩
  else none

/-- What is done behind `out`. -/
def closeJson (bracket : UInt8) (j : JsonText) : Option CStr :=
  let len := j.len + 1
  if len < 2 ^ 31 then do
    let json ← (j.json.realloc len).store (len - 2) [bracket]
    let json ← json.store (len - 1) [0]
    json.text
  else none

/-- A pass of the loop over a list, where `line` gives the length that is counted and the line,
or nothing where the loop goes on. -/
def addElement {α : Type} (line : α → Option (Option (Nat × CStr))) (j : JsonText) (a : α) :
    Option JsonText :=
  (line a).bind fun l =>
    match l with
    | none => some j
    | some (lineLen, text) => addLine j lineLen text

/-- The loop over a list. An empty list is no loop: `len` is counted up instead. -/
def listString {α : Type} (opening closing : UInt8) (line : α → Option (Option (Nat × CStr)))
    (list : List α) : Option CStr :=
  if list = [] then closeJson closing { openJson opening with len := 2 }
  else (list.foldlM (addElement line) (openJson opening)).bind (closeJson closing)

/-! ## The metadata -/

/-- A pair of `pv_metadata_get_meta_string`. For an empty value there is no escaped one, and the
room for it is counted in an `int`. -/
def metaLine (curr : PvMeta) : Option (Option (Nat × CStr)) :=
  if curr.value.head? ≠ some openBrace then
    (pvJsonFormatIn curr.value (intOfSize curr.value.length)).map fun escaped =>
      escaped.map fun escaped =>
        (curr.key.length + escaped.length + 6,
          str "\"" ++ curr.key ++ str "\":\"" ++ escaped ++ str "\",")
  else
    some (some (curr.key.length + curr.value.length + 4,
      str "\"" ++ curr.key ++ str "\":" ++ curr.value ++ str ","))

/-- `pv_metadata_get_meta_string` -/
def pvMetadataGetMetaString (metaList : List PvMeta) : Option CStr :=
  listString openBrace closeBrace metaLine metaList

/-! ## The objects -/

/-- The loop of `get_digit_count` -/
def digitLoop (number : Int) : Nat :=
  if h : number = 0 then 0 else digitLoop (number.tdiv 10) + 1
  termination_by number.natAbs
  decreasing_by
    rw [Int.natAbs_tdiv]
    exact Nat.div_lt_self (Int.natAbs_pos.mpr h) (by decide)

/-- `get_digit_count`. The negation of the least `int` is that number again. -/
def getDigitCount (number : Int) : Nat :=
  digitLoop (if number < 0 then if number = -(2 ^ 31) then number else -number else number) + 1

/-- An entry of the directory of objects, and the size of the file. -/
structure ObjectFile where
  path : CStr
  size : Nat
  deriving DecidableEq

/-- An object of `pv_objects_get_list_string`. The size is kept in an `unsigned int` and
printed as an `int`. -/
def objectLine (o : ObjectFile) : Option (Nat × CStr) :=
  if o.path.length ≠ 64 then none
  else if o.size % 2 ^ 32 = 0 then none
  else
    let sizeObject := intOfSize o.size
    some (o.path.length + getDigitCount sizeObject + 26,
      str "\x7b\"sha256\": \"" ++ o.path ++ str "\", \"size\": \"" ++ intText sizeObject
        ++ str "\"\x7d,")

/-- `pv_objects_get_list_string` of what `pv_storage_get_subdir` has found -/
def pvObjectsGetListString (objects : List ObjectFile) : Option CStr :=
  listString openBracket closeBracket (fun o => some (objectLine o)) objects

/-! ## The revisions -/

/-- A date of `localtime` -/
structure Tm where
  year : Int
  mon : Nat
  mday : Nat
  hour : Nat
  min : Nat
  sec : Nat
  deriving DecidableEq

/-- A number of two digits. -/
def twoDigits (n : Nat) : CStr := if n < 10 then 48 :: digitText n else digitText n

/-- `strftime` as `pv_storage_get_file_date` calls it -/
def Tm.text (tm : Tm) : CStr :=
  intText tm.year ++ str "-" ++ twoDigits tm.mon ++ str "-" ++ twoDigits tm.mday ++ str "T"
    ++ twoDigits tm.hour ++ str ":" ++ twoDigits tm.min ++ str ":" ++ twoDigits tm.sec ++ str "Z"

/-- An entry of the directory of trails, the time of its state and what is in its files, where
they are there. -/
structure RevisionDir where
  path : CStr
  mtime : Tm
  commitmsg : Option CStr
  progress : Option CStr
  deriving DecidableEq

/-- `pv_storage_load_file`, as a string. Its size is kept in an `unsigned int`. -/
def pvStorageLoadFile (maxSize : Nat) (content : Option CStr) : Option CStr :=
  content.bind fun c =>
    let size := c.length % 2 ^ 32
    if maxSize < size then none else some (cstrAt (c.take size) 0)

/-- The entries that are left out. -/
def notListed : List CStr :=
  [str "..", str ".", str "current", str "locals", str "locals/..", str "locals/."]

/-- A revision of `pv_storage_get_revisions_string` -/
def revisionLine (r : RevisionDir) : Option (Nat × CStr) :=
  if r.path ∈ notListed then none
  else
    let progress := ((pvStorageLoadFile 512 r.progress).filter (· ≠ [])).getD (str "\x7b\x7d")
    let date := r.mtime.text
    let escCommitmsg := ((pvStorageLoadFile 512 r.commitmsg).bind pvJsonFormat).getD []
    some (r.path.length + escCommitmsg.length + date.length + progress.length + 52,
      str "\x7b\"name\":\"" ++ r.path ++ str "\", \"date\":\"" ++ date
        ++ str "\", \"commitmsg\":\"" ++ escCommitmsg ++ str "\", \"progress\":" ++ progress
        ++ str "\x7d,")

/-- `pv_storage_get_revisions_string` of what `pv_storage_get_revisions` has found -/
def pvStorageGetRevisionsString (revisions : List RevisionDir) : Option CStr :=
  listString openBracket closeBracket (fun r => some (revisionLine r)) revisions

/-! ## What the buffer has in it -/

/-- The text is at the start of the buffer, and is as long as `len` says. -/
def JsonText.Has (j : JsonText) (s : CStr) : Prop :=
  j.len = s.length ∧ ∃ rest, j.json = s.map some ++ rest

/-- The lines, as far as they were counted. -/
def linesText (lines : List (Nat × CStr)) : CStr := lines.flatMap fun l => l.2.take l.1

theorem addLine_eq {j : JsonText} {s line : CStr} {lineLen : Nat} (h : j.Has s)
    (hle : lineLen ≤ line.length) (hfits : j.len + lineLen + 1 < 2 ^ 31) :
    ∃ j', addLine j lineLen line = some j' ∧ j'.Has (s ++ line.take lineLen) := by
  obtain ⟨hlen, rest, hjson⟩ := h
  have htake : (j.json.realloc (j.len + lineLen + 1)).take j.len = s.map some := by
    rw [Block.take_realloc (by omega) (by rw [hjson, hlen]; simp), hjson, hlen]
    exact List.take_left' (by simp)
  have hroom : j.len + (line.take lineLen ++ [0]).length ≤
      (j.json.realloc (j.len + lineLen + 1)).length := by
    rw [Block.length_realloc, List.length_append, List.length_take, Nat.min_eq_left hle]
    exact le_refl _
  rw [addLine, if_pos hfits, Block.store, if_pos hroom, Option.map_some, htake]
  refine ⟨_, rfl, ?_, [some 0] ++ (j.json.realloc (j.len + lineLen + 1)).drop
    (j.len + (line.take lineLen ++ [0]).length), ?_⟩
  · show j.len + lineLen = (s ++ line.take lineLen).length
    rw [hlen, List.length_append, List.length_take, Nat.min_eq_left hle]
  · simp

/-- The closing bracket takes the place of the last byte. -/
theorem closeJson_eq {j : JsonText} {s : CStr} {c : UInt8} (h : j.Has s) (hne : s ≠ [])
    (hnul : NulFree s) (hc : c ≠ 0) :
    closeJson c j = if s.length + 1 < 2 ^ 31 then some (s.dropLast ++ [c]) else none := by
  obtain ⟨hlen, rest, hjson⟩ := h
  obtain ⟨t, d, rfl⟩ : ∃ t d, s = t ++ [d] :=
    ⟨s.dropLast, s.getLast hne, (List.dropLast_append_getLast hne).symm⟩
  have htake : (j.json.realloc (j.len + 1)).take t.length = t.map some := by
    rw [Block.take_realloc (by rw [hlen]; simp; omega) (by rw [hjson]; simp), hjson,
      List.map_append, List.append_assoc]
    exact List.take_left' (by simp)
  have hsize : (j.json.realloc (j.len + 1)).length = t.length + 2 := by
    rw [Block.length_realloc, hlen, List.length_append, List.length_singleton]
  have hlast : j.len + 1 - 2 = t.length := by
    rw [hlen, List.length_append, List.length_singleton]
    omega
  rw [closeJson]
  simp only [hlen]
  split
  · rw [← hlen, hlast, Block.store, if_pos (by rw [hsize]; simp)]
    have hfirst : ((j.json.realloc (j.len + 1)).take t.length ++ [c].map some ++
        (j.json.realloc (j.len + 1)).drop (t.length + [c].length)).take (t.length + 1)
          = (t ++ [c]).map some := by
      rw [htake, ← List.map_append]
      exact List.take_left' (by simp)
    have hlength : ((j.json.realloc (j.len + 1)).take t.length ++ [c].map some ++
        (j.json.realloc (j.len + 1)).drop (t.length + [c].length)).length = t.length + 2 := by
      simp only [List.length_append, List.length_take, List.length_drop, hsize, List.length_map,
        List.length_singleton]
      omega
    have hat : j.len + 1 - 1 = t.length + 1 := by
      rw [hlen, List.length_append, List.length_singleton]
      omega
    simp only [Option.bind_eq_bind, Option.bind_some]
    rw [hat, Block.store, if_pos (by rw [hlength]; simp), Option.bind_some, hfirst,
      List.dropLast_concat, List.append_assoc]
    refine Block.text_append_zero ?_ _
    simp only [NulFree, List.mem_append, List.mem_singleton, not_or] at hnul ⊢
    exact ⟨hnul.1, Ne.symm hc⟩
  · rfl

/-- **The text that is built**, where an `int` counts it. -/
theorem foldlM_addLine {lines : List (Nat × CStr)} {j : JsonText} {s : CStr} {c : UInt8}
    (h : j.Has s) (hne : s ≠ []) (hnul : NulFree s) (hc : c ≠ 0)
    (hlines : ∀ l ∈ lines, l.1 ≤ l.2.length ∧ NulFree l.2) :
    (lines.foldlM (fun j l => addLine j l.1 l.2) j).bind (closeJson c)
      = if (s ++ linesText lines).length + 1 < 2 ^ 31 then
          some ((s ++ linesText lines).dropLast ++ [c])
        else none := by
  induction lines generalizing j s with
  | nil =>
    rw [linesText, List.flatMap_nil, List.append_nil]
    exact closeJson_eq h hne hnul hc
  | cons l lines ih =>
    obtain ⟨hl, hrest⟩ := List.forall_mem_cons.mp hlines
    have htext : s ++ linesText (l :: lines) = (s ++ l.2.take l.1) ++ linesText lines := by
      rw [linesText, List.flatMap_cons, ← List.append_assoc]
      rfl
    rw [List.foldlM_cons, htext]
    by_cases hfits : j.len + l.1 + 1 < 2 ^ 31
    · obtain ⟨j', hadd, hhas⟩ := addLine_eq h hl.1 hfits
      have hnul' : NulFree (s ++ l.2.take l.1) := by
        intro hmem
        rcases List.mem_append.mp hmem with hmem | hmem
        · exact hnul hmem
        · exact hl.2 (List.mem_of_mem_take hmem)
      rw [hadd]
      exact ih hhas (by simp [hne]) hnul' hrest
    · have hlong : ¬ ((s ++ l.2.take l.1) ++ linesText lines).length + 1 < 2 ^ 31 := by
        rw [h.1] at hfits
        rw [List.length_append, List.length_append, List.length_take, Nat.min_eq_left hl.1]
        omega
      rw [if_neg hlong, addLine, if_neg hfits]
      rfl

/-- The text of an empty list. -/
theorem closeJson_empty {o c : UInt8} (ho : o ≠ 0) (hc : c ≠ 0) :
    closeJson c { openJson o with len := 2 } = some [o, c] := by
  have hlast : closeJson c { openJson o with len := 2 }
      = Block.text [some o, some c, some 0] := rfl
  rw [hlast, Block.text, if_neg ho, Block.text, if_neg hc]
  rfl

section Loop

variable {α : Type} {o c : UInt8} {line : α → Option (Option (Nat × CStr))} {list : List α}

/-- A loop over elements whose lines are defined adds these lines. -/
theorem foldlM_addElement {line' : α → Option (Nat × CStr)}
    (h : ∀ a ∈ list, line a = some (line' a)) (j : JsonText) :
    list.foldlM (addElement line) j
      = (list.filterMap line').foldlM (fun j l => addLine j l.1 l.2) j := by
  induction list generalizing j with
  | nil => rfl
  | cons a list ih =>
    obtain ⟨ha, hrest⟩ := List.forall_mem_cons.mp h
    rw [List.foldlM_cons, addElement, ha, Option.bind_some]
    cases hline : line' a with
    | none =>
      rw [List.filterMap_cons_none hline]
      exact ih hrest j
    | some l =>
      rw [List.filterMap_cons_some hline, List.foldlM_cons]
      exact Option.bind_congr fun j' _ => ih hrest j'

theorem listString_eq (ho : o ≠ 0) (hc : c ≠ 0) {line' : α → Option (Nat × CStr)}
    (h : ∀ a ∈ list, line a = some (line' a))
    (hlines : ∀ l ∈ list.filterMap line', l.1 ≤ l.2.length ∧ NulFree l.2) :
    listString o c line list =
      if list = [] then some [o, c]
      else if (o :: linesText (list.filterMap line')).length + 1 < 2 ^ 31 then
        some ((o :: linesText (list.filterMap line')).dropLast ++ [c])
      else none := by
  rw [listString]
  split
  · exact closeJson_empty ho hc
  · rw [foldlM_addElement h]
    exact foldlM_addLine (s := [o]) ⟨rfl, [], rfl⟩ (List.cons_ne_nil _ _)
      (by simpa [NulFree] using Ne.symm ho) hc hlines

/-- A loop that gets to a text has a line for each element. -/
theorem isSome_of_foldlM {j j' : JsonText} (h : list.foldlM (addElement line) j = some j') :
    ∀ a ∈ list, (line a).isSome := by
  induction list generalizing j with
  | nil => exact fun a ha => absurd ha List.not_mem_nil
  | cons a list ih =>
    rw [List.foldlM_cons] at h
    obtain ⟨j₁, hfirst, hrest⟩ := Option.bind_eq_some_iff.mp h
    obtain ⟨l, hl, -⟩ := Option.bind_eq_some_iff.mp hfirst
    exact List.forall_mem_cons.mpr ⟨by rw [hl]; rfl, ih hrest⟩

theorem isSome_of_listString {text : CStr} (h : listString o c line list = some text) :
    ∀ a ∈ list, (line a).isSome := by
  rw [listString] at h
  split at h
  · rename_i hnil
    rw [hnil]
    exact fun a ha => absurd ha List.not_mem_nil
  · obtain ⟨j, hj, -⟩ := Option.bind_eq_some_iff.mp h
    exact isSome_of_foldlM hj

theorem closeJson_length {j : JsonText} {text : CStr} (h : closeJson c j = some text) :
    text.length < 2 ^ 31 := by
  unfold closeJson at h
  dsimp only at h
  split at h
  · rename_i hlen
    obtain ⟨b, hb, h⟩ := Option.bind_eq_some_iff.mp h
    obtain ⟨b', hb', h⟩ := Option.bind_eq_some_iff.mp h
    obtain ⟨-, rest, rfl⟩ := Block.text_eq_some_iff.mp h
    have hsize := (Block.length_store hb').trans (Block.length_store hb)
    rw [Block.length_realloc, List.length_append, List.length_map, List.length_cons] at hsize
    omega
  · cases h

/-- A text is counted in an `int`. -/
theorem listString_length {text : CStr} (h : listString o c line list = some text) :
    text.length < 2 ^ 31 := by
  rw [listString] at h
  split at h
  · exact closeJson_length h
  · obtain ⟨j, -, hj⟩ := Option.bind_eq_some_iff.mp h
    exact closeJson_length hj

end Loop

/-! ## The lengths that are counted -/

theorem digitLoop_zero : digitLoop 0 = 0 := by
  rw [digitLoop, dif_pos rfl]

theorem digitLoop_step {n : Int} (h : n ≠ 0) : digitLoop n = digitLoop (n.tdiv 10) + 1 := by
  rw [digitLoop, dif_neg h]

theorem digitLoop_ofNat (n : Nat) (hn : n ≠ 0) : digitLoop n = (digitText n).length := by
  induction n using Nat.strongRecOn with
  | ind n ih =>
    have hdiv : (n : Int).tdiv 10 = ((n / 10 : Nat) : Int) := rfl
    rw [digitLoop_step (by omega), hdiv, digitText, List.length_map]
    by_cases hlt : n < 10
    · rw [Nat.div_eq_of_lt hlt, Nat.toDigits_of_lt_base hlt, Int.ofNat_zero, digitLoop_zero]
      rfl
    · rw [ih (n / 10) (by omega) (by omega), Nat.toDigits_of_base_le (by decide) (by omega),
        digitText, List.length_map, List.length_append, List.length_singleton]

theorem digitLoop_neg (n : Nat) : digitLoop (-n) = digitLoop n := by
  induction n using Nat.strongRecOn with
  | ind n ih =>
    by_cases hzero : n = 0
    · rw [hzero]
      rfl
    · have hdiv : (-(n : Int)).tdiv 10 = -((n / 10 : Nat) : Int) := by
        rw [Int.neg_tdiv]
        rfl
      calc digitLoop (-n) = digitLoop (-((n / 10 : Nat) : Int)) + 1 := by
            rw [digitLoop_step (by omega), hdiv]
        _ = digitLoop ((n / 10 : Nat) : Int) + 1 := by rw [ih (n / 10) (by omega)]
        _ = digitLoop n := by
            rw [digitLoop_step (n := (n : Int)) (by omega)]
            rfl

/-- A number is printed as it was counted, but for its sign. -/
theorem getDigitCount_eq {n : Int} (hn : n ≠ 0) :
    getDigitCount n + (if n < 0 then 1 else 0) = (intText n).length + 1 := by
  cases n with
  | ofNat n =>
    have hnat : n ≠ 0 := by rintro rfl; exact hn rfl
    have hsign : ¬ Int.ofNat n < 0 := Int.not_lt.mpr (Int.natCast_nonneg n)
    rw [getDigitCount, if_neg hsign, if_neg hsign, intText]
    exact congrArg (· + 1) (digitLoop_ofNat n hnat)
  | negSucc n =>
    have hpos : digitLoop (Int.negSucc n) = (digitText (n + 1)).length := by
      rw [Int.negSucc_eq, ← digitLoop_ofNat (n + 1) (by omega)]
      exact digitLoop_neg (n + 1)
    have hneg : digitLoop (-Int.negSucc n) = (digitText (n + 1)).length :=
      digitLoop_ofNat (n + 1) (by omega)
    rw [getDigitCount, if_pos (Int.negSucc_lt_zero n), if_pos (Int.negSucc_lt_zero n), intText,
      List.length_cons]
    split
    · rw [hpos]
    · rw [hneg]

end Pantavisor.Listing
