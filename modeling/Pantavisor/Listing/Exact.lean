/-
Pantavisor.Listing.Exact — when the listings of the control socket are exact JSON.

A listing is exact if its text is a JSON text whose elements are those that were to be listed,
each once and with its fields. The keys and names go into the text as they are, an element
without a value is left out, a size is printed as an `int`, a file of more than 512 bytes is
not loaded, and a list of which nothing is listed loses its opening bracket.
-/
import Pantavisor.Listing.Builder

namespace Pantavisor.Listing

open Pantavisor.Lib Pantavisor.Json Pantavisor.Metadata

/-! ## What is to be listed -/

/-- The text is a JSON object with these fields, in their order. -/
def ObjectListed (fields : List (CStr × Field)) (text : CStr) : Prop :=
  ∃ gap members, text = (JsonValue.object gap members).text ∧
    (JsonValue.object gap members).Valid ∧
    List.Forall₂ (fun f m => Holds f.1 f.2 m) fields members

/-- The text is a JSON array of objects with these fields. -/
def ArrayListed (elems : List (List (CStr × Field))) (text : CStr) : Prop :=
  ∃ gap items, text = (JsonValue.array gap items).text ∧ (JsonValue.array gap items).Valid ∧
    List.Forall₂ HoldsAll elems items

/-- A pair of the metadata: its value is a string, or the JSON that it begins like. -/
def metaField (e : PvMeta) : CStr × Field :=
  (e.key, if e.HasJson then .json e.value else .string e.value)

/-- An object has the name of a checksum and something in it. -/
def ObjectFile.Eligible (o : ObjectFile) : Prop := o.path.length = 64 ∧ 0 < o.size

instance (o : ObjectFile) : Decidable o.Eligible := inferInstanceAs (Decidable (_ ∧ _))

def objectFields (o : ObjectFile) : List (CStr × Field) :=
  [(str "sha256", .string o.path), (str "size", .string (digitText o.size))]

/-- A revision is what is neither a directory entry nor the directory of the local ones. -/
def RevisionDir.Eligible (r : RevisionDir) : Prop := r.path ∉ notListed

instance (r : RevisionDir) : Decidable r.Eligible := inferInstanceAs (Decidable (¬ _))

/-- A revision without a commit message has the empty one, and without a progress the empty
object. -/
def revisionFields (r : RevisionDir) : List (CStr × Field) :=
  [(str "name", .string r.path), (str "date", .string r.mtime.text),
    (str "commitmsg", .string (r.commitmsg.getD [])),
    (str "progress", .json (r.progress.getD (str "\x7b\x7d")))]

def MetaListed (metaList : List PvMeta) : Prop :=
  ∃ text, pvMetadataGetMetaString metaList = some text ∧
    ObjectListed (metaList.map metaField) text

def ObjectsListed (objects : List ObjectFile) : Prop :=
  ∃ text, pvObjectsGetListString objects = some text ∧
    ArrayListed ((objects.filter (·.Eligible)).map objectFields) text

def RevisionsListed (revisions : List RevisionDir) : Prop :=
  ∃ text, pvStorageGetRevisionsString revisions = some text ∧
    ArrayListed ((revisions.filter (·.Eligible)).map revisionFields) text

/-! ## When it is listed -/

/-- The lengths that are counted for the lines. -/
def countedLength : List (Nat × CStr) → Nat
  | [] => 0
  | l :: lines => l.1 + countedLength lines

/-- The room for the escaped value, which is six times the value and a byte, is an `int`. -/
def Escapable (e : PvMeta) : Prop := ¬ e.HasJson → e.value.length * 6 + 1 < 2 ^ 31

instance (e : PvMeta) : Decidable (Escapable e) := inferInstanceAs (Decidable (_ → _))

/-- No value is empty or too long to be escaped, and no key has anything to escape. -/
def MetaListable (metaList : List PvMeta) : Prop :=
  metaList = [] ∨
    (∀ e ∈ metaList, e.value ≠ [] ∧ AllUnescaped e.key ∧ Escapable e) ∧
      countedLength (metaList.filterMap fun e => (metaLine e).join) + 2 < 2 ^ 31

/-- There is an object to be listed, no name of one has anything to escape, and no size is more
than an `int` has. -/
def ObjectsListable (objects : List ObjectFile) : Prop :=
  objects = [] ∨
    (∃ o ∈ objects, o.Eligible) ∧
      (∀ o ∈ objects, o.Eligible → AllUnescaped o.path ∧ o.size < 2 ^ 31) ∧
      countedLength (objects.filterMap objectLine) + 2 < 2 ^ 31

/-- The files of a revision are loaded whole. -/
def RevisionDir.Loaded (r : RevisionDir) : Prop :=
  (∀ msg ∈ r.commitmsg, msg.length ≤ 512 ∧ NulFree msg) ∧ ∀ p ∈ r.progress, p.length ≤ 512

instance (r : RevisionDir) : Decidable r.Loaded := inferInstanceAs (Decidable (_ ∧ _))

/-- There is a revision to be listed, no name of one has anything to escape, and its files are
loaded whole. -/
def RevisionsListable (revisions : List RevisionDir) : Prop :=
  revisions = [] ∨
    (∃ r ∈ revisions, r.Eligible) ∧
      (∀ r ∈ revisions, r.Eligible → AllUnescaped r.path ∧ r.Loaded) ∧
      countedLength (revisions.filterMap revisionLine) + 2 < 2 ^ 31

/-! ## Lines and parts -/

/-- What is written for an element. -/
def lineFrag {α : Type} (line : α → Option (Nat × CStr)) (a : α) : CStr :=
  ((line a).map fun l => l.2.take l.1).getD []

theorem linesText_filterMap {α : Type} {line : α → Option (Nat × CStr)} (eligible kept : α → Bool)
    {list : List α} (h : ∀ a ∈ list, (line a).isSome = (eligible a && kept a)) :
    linesText (list.filterMap line)
      = ((list.filter eligible).filter kept).flatMap (lineFrag line) := by
  induction list with
  | nil => rfl
  | cons a list ih =>
    have hrest := ih fun b hb => h b (List.mem_cons_of_mem _ hb)
    have ha := h a (List.mem_cons_self ..)
    cases hline : line a with
    | none =>
      rw [hline, Option.isSome_none] at ha
      rw [List.filterMap_cons_none hline, hrest]
      by_cases he : eligible a
      · have hk : ¬ kept a = true := by
          rw [he, Bool.true_and] at ha
          rw [← ha]
          decide
        rw [List.filter_cons_of_pos he, List.filter_cons_of_neg hk]
      · rw [List.filter_cons_of_neg he]
    | some l =>
      rw [hline, Option.isSome_some] at ha
      obtain ⟨he, hk⟩ := Bool.and_eq_true_iff.mp ha.symm
      rw [List.filterMap_cons_some hline, List.filter_cons_of_pos he, List.filter_cons_of_pos hk,
        List.flatMap_cons, ← hrest, linesText, List.flatMap_cons, lineFrag, hline]
      rfl

theorem length_linesText {lines : List (Nat × CStr)} (h : ∀ l ∈ lines, l.1 ≤ l.2.length) :
    (linesText lines).length = countedLength lines := by
  induction lines with
  | nil => rfl
  | cons l lines ih =>
    obtain ⟨hl, hrest⟩ := List.forall_mem_cons.mp h
    rw [linesText, List.flatMap_cons, List.length_append, List.length_take, Nat.min_eq_left hl,
      countedLength, ← ih hrest]
    rfl

/-- A part is no longer than the whole. -/
theorem length_flatMap_mem {β : Type} {f : β → CStr} {bs : List β} {b : β} (hb : b ∈ bs) :
    (f b).length ≤ (bs.flatMap f).length := by
  obtain ⟨before, after, rfl⟩ := List.append_of_mem hb
  rw [List.flatMap_append, List.flatMap_cons, List.length_append, List.length_append]
  omega

/-- A text between brackets that is not empty has the bracket put over its last byte. -/
theorem listString_text {α : Type} {o c : UInt8} (ho : o ≠ 0) (hc : c ≠ 0)
    {line : α → Option (Option (Nat × CStr))} {line' : α → Option (Nat × CStr)} {list : List α}
    (hne : list ≠ []) (h : ∀ a ∈ list, line a = some (line' a))
    (hlines : ∀ l ∈ list.filterMap line', l.1 ≤ l.2.length ∧ NulFree l.2) {P : CStr → Prop} :
    (∃ text, listString o c line list = some text ∧ P text) ↔
      countedLength (list.filterMap line') + 2 < 2 ^ 31 ∧
        P ((o :: linesText (list.filterMap line')).dropLast ++ [c]) := by
  have hlen := length_linesText fun l hl => (hlines l hl).1
  rw [listString_eq ho hc h hlines, if_neg hne, List.length_cons, hlen]
  by_cases hfits : countedLength (list.filterMap line') + 1 + 1 < 2 ^ 31
  · rw [if_pos hfits]
    exact ⟨fun ⟨text, htext, hp⟩ => ⟨hfits, Option.some.inj htext ▸ hp⟩,
      fun ⟨_, hp⟩ => ⟨_, rfl, hp⟩⟩
  · rw [if_neg hfits]
    exact ⟨fun ⟨_, htext, _⟩ => (Option.some_ne_none _ htext.symm).elim,
      fun ⟨hlt, _⟩ => absurd hlt hfits⟩

/-! ## Arrays -/

/-- A line ends with a comma, or has lost it. -/
def LineEnd (frag : CStr) : Prop :=
  (∃ u, frag = u ++ [comma]) ∨ ∃ u, frag = u ++ [quote, closeBrace]

/-- An element of an array ends with its brace. -/
theorem itemsText_end {items : List (JsonItem JsonValue)} {elems : List (List (CStr × Field))}
    (hvalid : JsonValue.ItemsValid items) (hall : List.Forall₂ HoldsAll elems items)
    (hne : items ≠ []) :
    ∃ z post, JsonValue.itemsText items = z ++ closeBrace :: post ∧ White post := by
  obtain ⟨its, it, rfl⟩ : ∃ its it, items = its ++ [it] :=
    ⟨items.dropLast, items.getLast hne, (List.dropLast_append_getLast hne).symm⟩
  have hmem : it ∈ its ++ [it] := by simp
  obtain ⟨fields, hholds⟩ : ∃ fields, HoldsAll fields it := by
    obtain ⟨i, hi, hget⟩ := List.mem_iff_getElem.mp hmem
    have hi' : i < elems.length := by rw [hall.length_eq]; exact hi
    have hat := hall.get hi' hi
    rw [List.get_eq_getElem, List.get_eq_getElem, hget] at hat
    exact ⟨_, hat⟩
  obtain ⟨gap, members, hvalue, -⟩ := hholds
  have hpost := ((itemsValid_iff _).mp hvalid it hmem).2.2
  have hfrags := flatMap_itemFrag hne
  rw [List.flatMap_append, List.flatMap_singleton, itemFrag, hvalue, JsonValue.text,
    ← List.append_assoc] at hfrags
  refine ⟨its.flatMap itemFrag ++ it.pre ++ openBrace :: (gap ++ JsonValue.membersText members),
    it.post, ?_, hpost⟩
  refine (List.append_cancel_right (?_ : _ ++ [comma] = _ ++ [comma])).symm
  rw [← hfrags]
  simp

section Arrays

variable {α : Type} {kept : α → Bool} {frag : α → CStr} {elem : α → List (CStr × Field)}

/-- **An array that is exact** has all its elements, and each is right. -/
theorem array_parts {as : List α} (good : α → Prop)
    (hlineEnd : ∀ a ∈ as, kept a → LineEnd (frag a))
    (hpeel : ∀ a ∈ as, ∀ item, (White item.pre ∧ item.value.Valid ∧ White item.post) → kept a →
      HoldsAll (elem a) item → ∀ x y, Sharp x → x ++ frag a = y ++ itemFrag item →
        good a ∧ Near x y)
    (hskip : ∀ a ∈ as, ∀ a' ∈ as, ∀ item, (White item.pre ∧ item.value.Valid ∧ White item.post) →
      ¬ kept a → kept a' → HoldsAll (elem a) item → ∀ x y, Sharp x →
        x ++ frag a' ≠ y ++ itemFrag item)
    (h : ArrayListed (as.map elem)
      ((openBracket :: (as.filter kept).flatMap frag).dropLast ++ [closeBracket])) :
    as ≠ [] ∧ ∀ a ∈ as, kept a ∧ good a := by
  obtain ⟨gap, items, htext, hvalid, hall⟩ := h
  rw [JsonValue.Valid] at hvalid
  have hvalidAll := (itemsValid_iff _).mp hvalid.2
  have hfront : (openBracket :: (as.filter kept).flatMap frag).dropLast
      = openBracket :: (gap ++ JsonValue.itemsText items) := by
    refine List.append_cancel_right (?_ : _ ++ [closeBracket] = _ ++ [closeBracket])
    rw [htext, JsonValue.text, List.cons_append]
  rcases List.eq_nil_or_concat (as.filter kept) with hnil | ⟨cs, c, hconcat⟩
  · -- the opening bracket is gone
    rw [hnil] at hfront
    cases hfront
  have hc : c ∈ as.filter kept := by
    rw [hconcat]
    simp
  obtain ⟨hcin, hckept⟩ := List.mem_filter.mp hc
  have hne : as ≠ [] := List.ne_nil_of_mem hcin
  have hitems : items ≠ [] := by
    rintro rfl
    have hlen := hall.length_eq
    rw [List.length_map, List.length_nil] at hlen
    exact hne (List.eq_nil_of_length_eq_zero hlen)
  have hflat : (as.filter kept).flatMap frag = cs.flatMap frag ++ frag c := by
    rw [hconcat, List.concat_eq_append, List.flatMap_append, List.flatMap_singleton]
  rcases hlineEnd c hcin hckept with ⟨u, hu⟩ | ⟨u, hu⟩
  · have hfull : [openBracket] ++ (as.filter kept).flatMap frag
        = (openBracket :: gap) ++ items.flatMap itemFrag := by
      have hsplit : openBracket :: (as.filter kept).flatMap frag
          = (openBracket :: (cs.flatMap frag ++ u)) ++ [comma] := by
        rw [hflat, hu]
        simp
      rw [hsplit, List.dropLast_concat] at hfront
      rw [List.singleton_append, hsplit, hfront, flatMap_itemFrag hitems]
      simp
    have hsharp : ∀ a ∈ as, kept a → Sharp (frag a) := by
      intro a ha hk
      rcases hlineEnd a ha hk with ⟨v, hv⟩ | ⟨v, hv⟩
      · rw [hv]
        exact sharp_concat (by decide) (by decide) v
      · rw [hv]
        exact ⟨v ++ [quote], closeBrace, by simp, by decide, by decide⟩
    have hstart : Sharp [openBracket] := sharp_concat (by decide) (by decide) []
    refine ⟨hne, (peel_all kept frag itemFrag (fun a item => HoldsAll (elem a) item) good
      hstart hsharp (fun item => ⟨_, rfl⟩) (by decide)
      (fun a ha item hitem hk hh => hpeel a ha item (hvalidAll item hitem) hk hh)
      (fun a ha a' ha' item hitem hk hk' hh =>
        hskip a ha a' ha' item (hvalidAll item hitem) hk hk' hh)
      (List.rel_reverse (List.forall₂_map_left_iff.mp hall))
      (by rw [hfull]; exact Near.refl _)).1⟩
  · -- the bracket is put over the brace of an object
    exfalso
    obtain ⟨z, post, hz, hpost⟩ := itemsText_end hvalid.2 hall hitems
    have hsplit : openBracket :: (as.filter kept).flatMap frag
        = (openBracket :: (cs.flatMap frag ++ u ++ [quote])) ++ [closeBrace] := by
      rw [hflat, hu]
      simp
    rw [hsplit, List.dropLast_concat, hz] at hfront
    have hend : (openBracket :: (cs.flatMap frag ++ u)) ++ quote :: []
        = (openBracket :: (gap ++ z)) ++ closeBrace :: post := by
      simpa using hfront
    obtain ⟨-, heq, -⟩ := white_end_inj (by simp [White]) hpost (by decide) (by decide) hend
    exact absurd heq (by decide)

/-- What is written right is an exact array. -/
theorem array_listed {as : List α} (hne : as ≠ []) (parts : α → List Part)
    (hparts : ∀ a ∈ as, parts a ≠ [] ∧ (parts a).map Part.meant = elem a ∧
      frag a = objectFrag ((parts a).map Part.written) ∧
      ∀ p ∈ parts a, p.Apart ∧ p.Right ∧ FieldOk p.field) :
    ArrayListed (as.map elem) ((openBracket :: as.flatMap frag).dropLast ++ [closeBracket]) := by
  have hitems : ∀ bs : List α, (∀ a ∈ bs, a ∈ as) → ∃ items,
      (∀ item ∈ items, White item.pre ∧ item.value.Valid ∧ White item.post) ∧
      List.Forall₂ HoldsAll (bs.map elem) items ∧ bs.flatMap frag = items.flatMap itemFrag := by
    intro bs
    induction bs with
    | nil => exact fun _ => ⟨[], by simp, .nil, rfl⟩
    | cons b bs ih =>
      intro hsub
      obtain ⟨items, hvalid, hall, htext⟩ := ih fun a ha => hsub a (List.mem_cons_of_mem _ ha)
      obtain ⟨hbne, hmeant, hfrag, hright⟩ := hparts b (hsub b (List.mem_cons_self ..))
      obtain ⟨item, hitem, hholds, hobject⟩ := exists_item hbne hright
      refine ⟨item :: items, List.forall_mem_cons.mpr ⟨hitem, hvalid⟩, .cons ?_ hall, ?_⟩
      · rw [← hmeant]
        exact hholds
      · rw [List.flatMap_cons, List.flatMap_cons, htext, hfrag, hobject]
  obtain ⟨items, hvalid, hall, htext⟩ := hitems as fun _ h => h
  have hnonempty : items ≠ [] := by
    rintro rfl
    rw [List.forall₂_nil_right_iff, List.map_eq_nil_iff] at hall
    exact hne hall
  refine ⟨[], items, ?_, ?_, hall⟩
  · rw [htext, flatMap_itemFrag hnonempty, JsonValue.text, ← List.cons_append,
      List.dropLast_concat]
    simp
  · rw [JsonValue.Valid]
    exact ⟨by simp [White], (itemsValid_iff _).mpr hvalid⟩

end Arrays

theorem arrayListed_nil : ArrayListed [] [openBracket, closeBracket] := by
  refine ⟨[], [], rfl, ?_, .nil⟩
  rw [JsonValue.Valid]
  exact ⟨by simp [White], trivial⟩

/-! ## Formatted strings -/

theorem formatChar_quote_free (c : UInt8) : quote ∉ formatChar c ∧ (c ≠ 0 → 0 ∉ formatChar c) := by
  have hnibble : ∀ n : UInt8, n < 16 → quote ≠ nibbleToHexchar n ∧ 0 ≠ nibbleToHexchar n := by
    intro n hn
    have hdigit := hexDigit_nibble hn
    have hquote : hexDigit quote = none := by decide
    have hzero : hexDigit 0 = none := by decide
    refine ⟨fun heq => ?_, fun heq => ?_⟩ <;> rw [← heq] at hdigit
    · cases hquote.symm.trans hdigit
    · cases hzero.symm.trans hdigit
  rw [formatChar]
  split
  · have hhigh := hnibble (c >>> 4) (by
      rw [UInt8.lt_iff_toNat_lt, UInt8.toNat_shiftRight]
      have hlt := c.toNat_lt
      simp only [UInt8.reduceToNat, Nat.reduceMod, Nat.shiftRight_eq_div_pow]
      omega)
    have hlow := hnibble (c &&& 15) (by
      rw [UInt8.lt_iff_toNat_lt, UInt8.toNat_and]
      exact Nat.lt_of_le_of_lt Nat.and_le_right (by decide))
    simp only [modifyToJson, List.mem_cons, List.not_mem_nil, or_false, not_or]
    exact ⟨⟨by decide, by decide, by decide, by decide, hhigh.1, hlow.1⟩,
      fun _ => ⟨by decide, by decide, by decide, by decide, hhigh.2, hlow.2⟩⟩
  · rename_i hspecial
    simp only [charIsJsonSpecial, Bool.or_eq_true, decide_eq_true_eq, not_or] at hspecial
    simp only [List.mem_singleton]
    exact ⟨Ne.symm hspecial.2, Ne.symm⟩

theorem quote_not_mem_format (s : CStr) : quote ∉ s.flatMap formatChar := by
  intro hmem
  obtain ⟨c, -, hc⟩ := List.mem_flatMap.mp hmem
  exact (formatChar_quote_free c).1 hc

theorem format_noNul {s : CStr} (h : NulFree s) : NulFree (s.flatMap formatChar) := by
  intro hmem
  obtain ⟨c, hc, h0⟩ := List.mem_flatMap.mp hmem
  refine (formatChar_quote_free c).2 ?_ h0
  rintro rfl
  exact h hc

/-! ## The metadata -/

section Metadata

variable {metaList : List PvMeta}

/-- What is written for a pair of the metadata, and what is meant by it. -/
def metaPart (e : PvMeta) : Part where
  written := ⟨[], e.key, if e.HasJson then .json e.value
    else .string [] (e.value.flatMap formatChar)⟩
  field := (metaField e).2

theorem metaPart_apart (e : PvMeta) : (metaPart e).Apart := by
  refine ⟨by simp [metaPart, White], ?_⟩
  rw [metaPart, metaField]
  by_cases h : e.HasJson
  · simp only [if_pos h]
    exact .inl rfl
  · simp only [if_neg h]
    exact ⟨by simp [White], .inl (quote_not_mem_format _)⟩

theorem metaPart_right {e : PvMeta} (h : AllUnescaped e.key) : (metaPart e).Right := by
  refine ⟨h, ?_⟩
  rw [metaPart, metaField]
  by_cases hjson : e.HasJson
  · simp only [if_pos hjson]
    rfl
  · simp only [if_neg hjson]
    exact flatMap_formatChar_text e.value

theorem metaPart_ok {e : PvMeta} (h : e.JsonOk) : FieldOk (metaPart e).field := by
  rw [metaPart, metaField]
  by_cases hjson : e.HasJson
  · simp only [if_pos hjson]
    exact h hjson
  · simp only [if_neg hjson]
    trivial

/-- What is counted and written for a pair, where its escaped value has room. -/
def metaEntry (e : PvMeta) : Option (Nat × CStr) :=
  if e.value.head? ≠ some openBrace then
    (pvJsonFormat e.value).map fun escaped =>
      (e.key.length + escaped.length + 6,
        str "\"" ++ e.key ++ str "\":\"" ++ escaped ++ str "\",")
  else
    some (e.key.length + e.value.length + 4, str "\"" ++ e.key ++ str "\":" ++ e.value ++ str ",")

theorem metaLine_eq {e : PvMeta} (h : Escapable e) : metaLine e = some (metaEntry e) := by
  rw [metaLine, metaEntry]
  by_cases hjson : e.HasJson
  · have hif : ¬ e.value.head? ≠ some openBrace := not_not.mpr hjson
    rw [if_neg hif, if_neg hif]
  · have hif : e.value.head? ≠ some openBrace := hjson
    rw [if_pos hif, if_pos hif, pvJsonFormatIn_length (h hjson), Option.map_some]

theorem metaEntry_nil {e : PvMeta} (h : e.value = []) : metaEntry e = none := by
  rw [metaEntry, h, if_pos (by simp)]
  rfl

/-- The length of a pair is counted right. -/
theorem metaEntry_eq {e : PvMeta} (h : e.value ≠ []) :
    metaEntry e = some (((metaPart e).written.text ++ [comma]).length,
      (metaPart e).written.text ++ [comma]) := by
  have hformat : pvJsonFormat e.value = some (e.value.flatMap formatChar) :=
    if_pos (List.length_pos_iff.mpr h)
  have hq : str "\"" = [quote] := rfl
  have hqcq : str "\":\"" = [quote, colon, quote] := rfl
  have hqc : str "\":" = [quote, colon] := rfl
  have hqm : str "\"," = [quote, comma] := rfl
  have hm : str "," = [comma] := rfl
  by_cases hjson : e.HasJson
  · have htext : (metaPart e).written.text ++ [comma]
        = str "\"" ++ e.key ++ str "\":" ++ e.value ++ str "," := by
      simp [metaPart, if_pos hjson, Written.text, Content.text, quoted, hq, hqc, hm]
    have hif : ¬ e.value.head? ≠ some openBrace := not_not.mpr hjson
    rw [metaEntry, if_neg hif, htext]
    congr 2
    simp only [List.length_append, hq, hqc, hm, List.length_cons, List.length_nil]
    omega
  · have htext : (metaPart e).written.text ++ [comma]
        = str "\"" ++ e.key ++ str "\":\"" ++ e.value.flatMap formatChar ++ str "\"," := by
      simp [metaPart, if_neg hjson, Written.text, Content.text, quoted, hq, hqcq, hqm]
    have hif : e.value.head? ≠ some openBrace := hjson
    rw [metaEntry, if_pos hif, hformat, Option.map_some, htext]
    congr 2
    simp only [List.length_append, hq, hqcq, hqm, List.length_cons, List.length_nil]
    omega

theorem metaFrag_eq {e : PvMeta} (h : e.value ≠ []) :
    lineFrag metaEntry e = (metaPart e).written.text ++ [comma] := by
  rw [lineFrag, metaEntry_eq h, Option.map_some, Option.getD_some, List.take_length]

theorem metaText_noNul {e : PvMeta} (hkey : NulFree e.key) (hvalue : NulFree e.value) :
    NulFree ((metaPart e).written.text ++ [comma]) := by
  have hformat := format_noNul hvalue
  by_cases hjson : e.HasJson
  · simp only [metaPart, if_pos hjson, Written.text, Content.text, quoted, NulFree,
      List.mem_append, List.mem_cons, List.not_mem_nil, or_false, not_or]
    exact ⟨⟨⟨not_false, by decide, hkey, by decide⟩, by decide, hvalue⟩, by decide⟩
  · simp only [metaPart, if_neg hjson, Written.text, Content.text, quoted, NulFree,
      List.mem_append, List.mem_cons, List.not_mem_nil, or_false, not_or]
    exact ⟨⟨⟨not_false, by decide, hkey, by decide⟩, by decide, not_false, by decide, hformat,
      by decide⟩, by decide⟩

theorem metaEntries_ok (h : ∀ e ∈ metaList, NulFree e.key ∧ NulFree e.value) :
    ∀ l ∈ metaList.filterMap metaEntry, l.1 ≤ l.2.length ∧ NulFree l.2 := by
  intro l hl
  obtain ⟨e, he, hline⟩ := List.mem_filterMap.mp hl
  by_cases hvalue : e.value = []
  · rw [metaEntry_nil hvalue] at hline
    cases hline
  · rw [metaEntry_eq hvalue] at hline
    obtain rfl := Option.some.inj hline
    exact ⟨le_refl _, metaText_noNul (h e he).1 (h e he).2⟩

/-- A pair with a value does not say that there is none. -/
theorem metaPart_skip {e e' : PvMeta} (hvalue : e.value = []) (hvalue' : e'.value ≠ [])
    {m : JsonMember JsonValue} (hm : MemberValid m) (hholds : Holds e.key (metaField e).2 m)
    {x y : CStr} (hjson : e'.JsonOk) :
    x ++ ((metaPart e').written.text ++ [comma]) ≠ y ++ memberFrag m := by
  intro h
  have hnil : White [] := by simp [White]
  have hempty : ¬ e.HasJson := by
    rw [PvMeta.HasJson, hvalue]
    simp
  rw [metaField, if_neg hempty, hvalue] at hholds
  obtain ⟨-, raw, hraw, htext⟩ := hholds
  obtain rfl : raw = [] := by
    cases htext
    rfl
  have hfull : x ++ (metaPart e').written.text
      = (y ++ m.pre ++ quoted m.key ++ m.gap ++ colon :: m.gap' ++ [quote]) ++ quote :: m.post := by
    refine List.append_cancel_right (?_ : _ ++ [comma] = _ ++ [comma])
    rw [memberFrag, hraw, JsonValue.text] at h
    simpa [quoted] using h
  by_cases hjson' : e'.HasJson
  · -- a value that is an object ends with a brace
    obtain ⟨z, post, hz, hpost⟩ := (hjson hjson').brace_end hjson'
    have hend : (x ++ quoted e'.key ++ colon :: z) ++ closeBrace :: post
        = (y ++ m.pre ++ quoted m.key ++ m.gap ++ colon :: m.gap' ++ [quote])
          ++ quote :: m.post := by
      rw [← hfull, metaPart]
      simp [if_pos hjson', Written.text, Content.text, hz]
    obtain ⟨-, heq, -⟩ := white_end_inj hpost hm.2.2.2.2.2 (by decide) (by decide) hend
    exact absurd heq (by decide)
  · -- and a string that is not empty with a byte and a quote
    have hend : (x ++ quoted e'.key ++ colon :: quote :: e'.value.flatMap formatChar) ++ quote :: []
        = (y ++ m.pre ++ quoted m.key ++ m.gap ++ colon :: m.gap' ++ [quote])
          ++ quote :: m.post := by
      rw [← hfull, metaPart]
      simp [if_neg hjson', Written.text, Content.text, quoted]
    obtain ⟨hfront, -, -⟩ := white_end_inj hnil hm.2.2.2.2.2 (by decide) (by decide) hend
    obtain ⟨u, c, hc⟩ : ∃ u c, e'.value.flatMap formatChar = u ++ [c] := by
      have hne : e'.value.flatMap formatChar ≠ [] := by
        obtain ⟨d, t, hcons⟩ := List.exists_cons_of_ne_nil hvalue'
        rw [hcons, List.flatMap_cons, formatChar]
        split <;> simp [modifyToJson]
      exact ⟨_, _, (List.dropLast_append_getLast hne).symm⟩
    have hquote := quote_not_mem_format e'.value
    rw [hc, ← List.cons_append, ← List.cons_append, ← List.append_assoc] at hfront
    have hlast := (List.cons.inj (List.append_inj_right' hfront rfl)).1
    rw [hc, hlast] at hquote
    exact hquote (by simp)

theorem metaEntries_text :
    linesText (metaList.filterMap metaEntry)
      = (metaList.filter (·.value ≠ [])).flatMap (lineFrag metaEntry) := by
  have hsome : ∀ e ∈ metaList, (metaEntry e).isSome = (true && decide (e.value ≠ [])) := by
    intro e _
    by_cases hvalue : e.value = []
    · rw [metaEntry_nil hvalue, hvalue]
      rfl
    · rw [metaEntry_eq hvalue]
      simp [hvalue]
  rw [linesText_filterMap (fun _ => true) _ hsome, List.filter_true]

/-- An object that is exact has all pairs, and each key is right. -/
theorem meta_parts (hjson : ∀ e ∈ metaList, e.JsonOk) (hne : metaList ≠ [])
    (h : ObjectListed (metaList.map metaField)
      ((openBrace :: linesText (metaList.filterMap metaEntry)).dropLast ++ [closeBrace])) :
    ∀ e ∈ metaList, e.value ≠ [] ∧ AllUnescaped e.key := by
  obtain ⟨gap, members, htext, hvalid, hall⟩ := h
  rw [JsonValue.Valid, membersValid_iff] at hvalid
  rw [List.forall₂_map_left_iff] at hall
  rw [metaEntries_text] at htext
  have hfront : (openBrace :: (metaList.filter (·.value ≠ [])).flatMap (lineFrag metaEntry)).dropLast
      = openBrace :: (gap ++ JsonValue.membersText members) := by
    refine List.append_cancel_right (?_ : _ ++ [closeBrace] = _ ++ [closeBrace])
    rw [htext, JsonValue.text, List.cons_append]
  have hmembers : members ≠ [] := by
    rintro rfl
    exact hne (List.forall₂_nil_right_iff.mp hall)
  rcases List.eq_nil_or_concat (metaList.filter (·.value ≠ [])) with hnil | ⟨cs, c, hconcat⟩
  · -- the opening brace is gone
    rw [hnil] at hfront
    cases hfront
  have hc : c ∈ metaList.filter (·.value ≠ []) := by
    rw [hconcat]
    simp
  have hcvalue : c.value ≠ [] := of_decide_eq_true (List.mem_filter.mp hc).2
  have hflat : (metaList.filter (·.value ≠ [])).flatMap (lineFrag metaEntry)
      = cs.flatMap (lineFrag metaEntry) ++ ((metaPart c).written.text ++ [comma]) := by
    rw [hconcat, List.concat_eq_append, List.flatMap_append, List.flatMap_singleton,
      metaFrag_eq hcvalue]
  have hfull : [openBrace] ++ (metaList.filter (·.value ≠ [])).flatMap (lineFrag metaEntry)
      = (openBrace :: gap) ++ members.flatMap memberFrag := by
    have hsplit : openBrace :: (metaList.filter (·.value ≠ [])).flatMap (lineFrag metaEntry)
        = (openBrace :: (cs.flatMap (lineFrag metaEntry) ++ (metaPart c).written.text))
          ++ [comma] := by
      rw [hflat]
      simp
    rw [hsplit, List.dropLast_concat] at hfront
    rw [List.singleton_append, hsplit, hfront, flatMap_memberFrag hmembers]
    simp
  have hstart : Sharp [openBrace] := sharp_concat (by decide) (by decide) []
  have hparts := (peel_all (fun e : PvMeta => decide (e.value ≠ [])) (lineFrag metaEntry) memberFrag
    (fun e m => Holds e.key (metaField e).2 m) (fun e => AllUnescaped e.key) hstart
    (fun e _ hkept => by
      rw [metaFrag_eq (of_decide_eq_true hkept)]
      exact sharp_concat (by decide) (by decide) _)
    (fun m => ⟨_, rfl⟩) (by decide)
    (fun e _ m hm hkept hholds x y hx hxy => by
      rw [metaFrag_eq (of_decide_eq_true hkept)] at hxy
      obtain ⟨hright, hnear⟩ := peel_field (hvalid.2 m hm) hholds (metaPart_apart e).2
        (metaPart_apart e).1 hx hxy
      exact ⟨hright.1, hnear⟩)
    (fun e _ e' he' m hm hkept hkept' hholds x y _ hxy => by
      rw [metaFrag_eq (of_decide_eq_true hkept')] at hxy
      exact metaPart_skip (by simpa using hkept) (of_decide_eq_true hkept') (hvalid.2 m hm) hholds
        (hjson e' he') hxy)
    (List.rel_reverse hall) (by rw [hfull]; exact Near.refl _)).1
  exact fun e he => ⟨of_decide_eq_true (hparts e he).1, (hparts e he).2⟩

/-- No string of an exact object is longer than its text. -/
theorem string_length {fields : List (CStr × Field)} {text : CStr} (h : ObjectListed fields text)
    {key s : CStr} (hs : (key, .string s) ∈ fields) : s.length ≤ text.length := by
  obtain ⟨gap, members, rfl, -, hall⟩ := h
  obtain ⟨m, hm, -, raw, hraw, htext⟩ : ∃ m ∈ members, Holds key (.string s) m := by
    obtain ⟨i, hi, hget⟩ := List.mem_iff_getElem.mp hs
    have hi' : i < members.length := by rw [← hall.length_eq]; exact hi
    have hat := hall.get hi hi'
    rw [List.get_eq_getElem, List.get_eq_getElem, hget] at hat
    exact ⟨_, List.getElem_mem hi', hat⟩
  have hle := length_flatMap_mem (f := memberFrag) hm
  rw [flatMap_memberFrag (List.ne_nil_of_mem hm), memberFrag, hraw, JsonValue.text] at hle
  have hshort := htext.length_le
  rw [JsonValue.text]
  simp only [quoted, List.length_append, List.length_cons, List.length_nil] at hle ⊢
  omega

/-- An exact text was counted in an `int`, so that no value is too long to be escaped. -/
theorem escapable_of_listed (h : MetaListed metaList) : ∀ e ∈ metaList, Escapable e := by
  obtain ⟨text, htext, hlisted⟩ := h
  intro e he hjson
  have hfield : (e.key, Field.string e.value) ∈ metaList.map metaField :=
    List.mem_map.mpr ⟨e, he, by rw [metaField, if_neg hjson]⟩
  have hlen := (string_length hlisted hfield).trans_lt (listString_length htext)
  have hline := isSome_of_listString htext e he
  have hif : e.value.head? ≠ some openBrace := hjson
  rw [metaLine, if_pos hif, Option.isSome_map, intOfSize_eq hlen] at hline
  by_contra hlong
  have hpos : ¬ ((e.value.length : Int) ≤ 0) := by omega
  rw [pvJsonFormatIn, if_neg hpos, if_neg (by omega)] at hline
  cases hline

/-- **The metadata are listed exactly** just if no value is empty or too long and no key has
anything to escape. -/
theorem metaListed_iff (h : ∀ e ∈ metaList, e.JsonOk ∧ NulFree e.key ∧ NulFree e.value) :
    MetaListed metaList ↔ MetaListable metaList := by
  by_cases hescapable : ∀ e ∈ metaList, Escapable e
  swap
  · refine iff_of_false (fun hlisted => hescapable (escapable_of_listed hlisted)) ?_
    rintro (hnil | ⟨hgood, -⟩)
    · exact hescapable fun e he => by
        rw [hnil] at he
        exact absurd he List.not_mem_nil
    · exact hescapable fun e he => (hgood e he).2.2
  by_cases hne : metaList = []
  · obtain rfl := hne
    refine ⟨fun _ => .inl rfl, fun _ => ⟨[openBrace, closeBrace], by decide, [], [], rfl, ?_, .nil⟩⟩
    rw [JsonValue.Valid]
    exact ⟨by simp [White], trivial⟩
  · have hlines := metaEntries_ok fun e he => (h e he).2
    have hline : ∀ e ∈ metaList, metaLine e = some (metaEntry e) :=
      fun e he => metaLine_eq (hescapable e he)
    have hjoin : metaList.filterMap (fun e => (metaLine e).join) = metaList.filterMap metaEntry :=
      List.filterMap_congr fun e he => by rw [hline e he, Option.join_some]
    rw [MetaListed, pvMetadataGetMetaString,
      listString_text (by decide) (by decide) hne hline hlines, MetaListable, or_iff_right hne,
      hjoin, and_comm]
    refine and_congr_left fun _ => ⟨fun hlisted e he => ?_, fun hgood => ?_⟩
    · obtain ⟨hvalue, hkey⟩ := meta_parts (fun e he => (h e he).1) hne hlisted e he
      exact ⟨hvalue, hkey, hescapable e he⟩
    have hkept : metaList.filter (·.value ≠ []) = metaList :=
      List.filter_eq_self.mpr fun e he => decide_eq_true (hgood e he).1
    have hparts : ∀ p ∈ metaList.map metaPart, p.Apart ∧ p.Right ∧ FieldOk p.field := by
      intro p hp
      obtain ⟨e, he, rfl⟩ := List.mem_map.mp hp
      exact ⟨metaPart_apart e, metaPart_right (hgood e he).2.1, metaPart_ok (h e he).1⟩
    obtain ⟨members, hvalid, hall, htext⟩ := exists_members hparts
    have hmembers : members ≠ [] := by
      rintro rfl
      rw [List.forall₂_nil_right_iff, List.map_eq_nil_iff] at hall
      exact hne hall
    have hflat : metaList.flatMap (lineFrag metaEntry)
        = JsonValue.membersText members ++ [comma] := by
      rw [← flatMap_memberFrag hmembers, ← htext, List.flatMap_map]
      exact List.flatMap_congr fun e he => metaFrag_eq (hgood e he).1
    refine ⟨[], members, ?_, ?_, ?_⟩
    · rw [metaEntries_text, hkept, hflat, ← List.cons_append, List.dropLast_concat, JsonValue.text]
      simp
    · rw [JsonValue.Valid]
      exact ⟨by simp [White], (membersValid_iff _).mpr hvalid⟩
    · rw [List.forall₂_map_left_iff] at hall ⊢
      exact hall

end Metadata

/-! ## The objects -/

section Objects

variable {objects : List ObjectFile}

/-- What is written for a name and a number, and what is meant by it. -/
def objectParts (path : CStr) (n : Int) (o : ObjectFile) : List Part :=
  [⟨⟨[], str "sha256", .string [32] path⟩, .string o.path⟩,
    ⟨⟨[32], str "size", .string [32] (intText n)⟩, .string (digitText o.size)⟩]

theorem intText_quote_free (n : Int) : quote ∉ intText n := by
  cases n with
  | ofNat n => exact fun h => absurd (isDigit_of_mem_digitText h) (by decide)
  | negSucc n =>
    intro h
    rcases List.mem_cons.mp h with h | h
    · exact absurd h (by decide)
    · exact absurd (isDigit_of_mem_digitText h) (by decide)

theorem digitText_unescaped (n : Nat) : AllUnescaped (digitText n) := by
  intro c hc
  have hdigit := isDigit_of_mem_digitText hc
  simp only [isDigit, Bool.and_eq_true, decide_eq_true_eq] at hdigit
  refine ⟨UInt8.le_trans (by decide) hdigit.1, ?_, ?_⟩
  · rintro rfl
    exact absurd hdigit.1 (by decide)
  · rintro rfl
    exact absurd hdigit.2 (by decide)

theorem digitText_inj {n m : Nat} (h : digitText n = digitText m) : n = m := by
  rw [← foldl_digitText n, h, foldl_digitText]

theorem objectText_eq (path : CStr) (n : Int) (o : ObjectFile) :
    str "\x7b\"sha256\": \"" ++ path ++ str "\", \"size\": \"" ++ intText n ++ str "\"\x7d,"
      = objectFrag ((objectParts path n o).map Part.written) := by
  have hopen : str "\x7b\"sha256\": \""
      = openBrace :: (quoted (str "sha256") ++ [colon, 32, quote]) := rfl
  have hmid : str "\", \"size\": \""
      = quote :: comma :: 32 :: (quoted (str "size") ++ [colon, 32, quote]) := rfl
  have hclose : str "\"\x7d," = [quote, closeBrace, comma] := rfl
  have hfields : fieldsText ((objectParts path n o).map Part.written)
      = quoted (str "sha256") ++ colon :: 32 :: quoted path ++ comma :: 32 :: (quoted (str "size")
        ++ colon :: 32 :: quoted (intText n)) := by
    refine List.append_cancel_right (?_ : _ ++ [comma] = _ ++ [comma])
    rw [fieldsText_comma (by simp [objectParts])]
    simp [objectParts, Written.text, Content.text]
  rw [objectFrag, hfields, hopen, hmid, hclose]
  simp [quoted]

theorem intOfSize_ne_zero {n : Nat} (h : n % 2 ^ 32 ≠ 0) : intOfSize n ≠ 0 := by
  intro hzero
  have hmod := intOfSize_emod n
  rw [hzero] at hmod
  omega

/-- A line for an object: the length is that of the text, but one less behind a sign. -/
theorem objectLine_eq {o : ObjectFile} (hpath : o.path.length = 64) (hsize : o.size % 2 ^ 32 ≠ 0) :
    ∃ len, objectLine o = some (len,
        objectFrag ((objectParts o.path (intOfSize o.size) o).map Part.written)) ∧
      len + (if intOfSize o.size < 0 then 1 else 0)
        = (objectFrag ((objectParts o.path (intOfSize o.size) o).map Part.written)).length := by
  have hcount := getDigitCount_eq (intOfSize_ne_zero hsize)
  refine ⟨o.path.length + getDigitCount (intOfSize o.size) + 26, ?_, ?_⟩
  · rw [objectLine, if_neg (not_not.mpr hpath), if_neg hsize, ← objectText_eq]
  · have hopen : (str "\x7b\"sha256\": \"").length = 12 := rfl
    have hmid : (str "\", \"size\": \"").length = 12 := rfl
    have hclose : (str "\"\x7d,").length = 3 := rfl
    rw [← objectText_eq, List.length_append, List.length_append, List.length_append,
      List.length_append, hopen, hmid, hclose]
    omega

theorem objectLine_none {o : ObjectFile} (h : ¬ (o.path.length = 64 ∧ o.size % 2 ^ 32 ≠ 0)) :
    objectLine o = none := by
  rw [objectLine]
  by_cases hpath : o.path.length = 64
  · rw [if_neg (not_not.mpr hpath), if_pos (not_not.mp fun hsize => h ⟨hpath, hsize⟩)]
  · rw [if_pos hpath]

theorem objectFrag_eq {o : ObjectFile} (hpath : o.path.length = 64)
    (hsize : o.size % 2 ^ 32 ≠ 0) :
    (0 < intOfSize o.size ∧ lineFrag objectLine o
      = objectFrag ((objectParts o.path (intOfSize o.size) o).map Part.written)) ∨
    ∃ u, lineFrag objectLine o = u ++ [quote, closeBrace] := by
  obtain ⟨len, hline, hlen⟩ := objectLine_eq hpath hsize
  have hnonzero := intOfSize_ne_zero hsize
  rw [lineFrag, hline, Option.map_some, Option.getD_some]
  dsimp only
  by_cases hneg : intOfSize o.size < 0
  · rw [if_pos hneg] at hlen
    refine .inr ⟨str "\x7b\"sha256\": \"" ++ o.path ++ str "\", \"size\": \""
      ++ intText (intOfSize o.size), ?_⟩
    have hclose : str "\"\x7d," = [quote, closeBrace] ++ [comma] := rfl
    rw [← objectText_eq, hclose, ← List.append_assoc] at hlen ⊢
    rw [List.length_append, List.length_singleton] at hlen
    rw [List.take_append_of_le_length (by omega), List.take_of_length_le (by omega)]
  · rw [if_neg hneg] at hlen
    exact .inl ⟨by omega, by rw [List.take_of_length_le (by omega)]⟩

/-- The last object of an exact listing is printed with its size. -/
theorem object_peel {o o' : ObjectFile} {item : JsonItem JsonValue} {x y : CStr}
    (hitem : White item.pre ∧ item.value.Valid ∧ White item.post)
    (ho : o.path.length = 64) (ho' : o'.path.length = 64) (hsize : o'.size % 2 ^ 32 ≠ 0)
    (hholds : HoldsAll (objectFields o) item)
    (h : x ++ lineFrag objectLine o' = y ++ itemFrag item) :
    (StringText o'.path o.path ∧ (o.size : Int) = intOfSize o'.size) ∧ Near x y := by
  rcases objectFrag_eq ho' hsize with ⟨hpos, hfrag⟩ | ⟨u, hu⟩
  · rw [hfrag] at h
    have hsame : (objectParts o'.path (intOfSize o'.size) o').map Part.written
        = (objectParts o'.path (intOfSize o'.size) o).map Part.written := rfl
    rw [hsame] at h
    have hspace : White [32] := by simp [White]
    have hnil : White [] := by simp [White]
    have hapart : ∀ p ∈ objectParts o'.path (intOfSize o'.size) o, p.Apart := by
      rw [objectParts, List.forall_mem_cons, List.forall_mem_singleton]
      exact ⟨⟨hnil, hspace, .inr (by rw [ho, ho'])⟩, hspace, hspace,
        .inl (intText_quote_free _)⟩
    obtain ⟨hright, hnear⟩ := peel_object (by simp [objectParts]) hapart
      ⟨hitem.2.1, hitem.1, hitem.2.2⟩ hholds h
    rw [objectParts, List.forall_mem_cons, List.forall_mem_singleton] at hright
    have hdigits : StringText (intText (intOfSize o'.size)) (digitText o.size) := hright.2.2
    obtain ⟨n, hn⟩ := Int.eq_ofNat_of_zero_le (Int.le_of_lt hpos)
    have htext : intText (intOfSize o'.size) = digitText n := by rw [hn]; rfl
    rw [htext] at hdigits
    have heq := hdigits.unique (stringText_of_unescaped (digitText_unescaped n))
    exact ⟨⟨hright.1.2, by rw [digitText_inj heq, hn]⟩, hnear⟩
  · -- a line without its comma is not followed by anything
    exfalso
    rw [hu, itemFrag, ← List.append_assoc] at h
    have hbrace : (x ++ u ++ [quote]) ++ [closeBrace]
        = (y ++ (item.pre ++ item.value.text ++ item.post)) ++ [comma] := by
      simpa using h
    exact absurd (List.cons.inj (List.append_inj_right' hbrace rfl)).1 (by decide)

theorem objectLines_ok (h : ∀ o ∈ objects, NulFree o.path) :
    ∀ l ∈ objects.filterMap objectLine, l.1 ≤ l.2.length ∧ NulFree l.2 := by
  intro l hl
  obtain ⟨o, ho, hline⟩ := List.mem_filterMap.mp hl
  by_cases hlisted : o.path.length = 64 ∧ o.size % 2 ^ 32 ≠ 0
  · obtain ⟨len, heq, hlen⟩ := objectLine_eq hlisted.1 hlisted.2
    obtain rfl := Option.some.inj (heq.symm.trans hline)
    refine ⟨by dsimp only; omega, ?_⟩
    have hpath := h o ho
    have hnumber := intText_noNul (intOfSize o.size)
    rw [← objectText_eq]
    simp only [NulFree, List.mem_append, not_or] at hpath hnumber ⊢
    exact ⟨⟨⟨⟨by decide, hpath⟩, by decide⟩, hnumber⟩, by decide⟩
  · rw [objectLine_none hlisted] at hline
    cases hline

theorem objectLines_text :
    linesText (objects.filterMap objectLine)
      = ((objects.filter (·.Eligible)).filter (·.size % 2 ^ 32 ≠ 0)).flatMap
          (lineFrag objectLine) := by
  refine linesText_filterMap _ _ fun o _ => ?_
  by_cases hlisted : o.path.length = 64 ∧ o.size % 2 ^ 32 ≠ 0
  · obtain ⟨len, heq, -⟩ := objectLine_eq hlisted.1 hlisted.2
    have hpos : 0 < o.size := by
      rcases Nat.eq_zero_or_pos o.size with hzero | hpos
      · exact absurd (by rw [hzero]; rfl) hlisted.2
      · exact hpos
    rw [heq, decide_eq_true (show o.Eligible from ⟨hlisted.1, hpos⟩), decide_eq_true hlisted.2]
    rfl
  · rw [objectLine_none hlisted, Option.isSome_none]
    refine (Bool.and_eq_false_iff.mpr ?_).symm
    rcases not_and_or.mp hlisted with hpath | hsize
    · exact .inl (decide_eq_false fun h => hpath h.1)
    · exact .inr (decide_eq_false hsize)

/-- What is written for an object with an unescaped name and a size that is an `int`. -/
theorem objectParts_listed {o : ObjectFile} (hel : o.Eligible) (hname : AllUnescaped o.path)
    (hbound : o.size < 2 ^ 31) :
    objectParts o.path (intOfSize o.size) o ≠ [] ∧
      (objectParts o.path (intOfSize o.size) o).map Part.meant = objectFields o ∧
      lineFrag objectLine o
        = objectFrag ((objectParts o.path (intOfSize o.size) o).map Part.written) ∧
      ∀ p ∈ objectParts o.path (intOfSize o.size) o, p.Apart ∧ p.Right ∧ FieldOk p.field := by
  have hsmall : o.size % 2 ^ 32 = o.size := Nat.mod_eq_of_lt (by omega)
  have hint : intOfSize o.size = o.size := intOfSize_eq hbound
  have hfrag : lineFrag objectLine o
      = objectFrag ((objectParts o.path (intOfSize o.size) o).map Part.written) := by
    obtain ⟨len, hline, hlen⟩ := objectLine_eq hel.1 (by rw [hsmall]; exact Nat.ne_of_gt hel.2)
    rw [if_neg (by rw [hint]; omega)] at hlen
    rw [lineFrag, hline, Option.map_some, Option.getD_some]
    exact List.take_of_length_le (by dsimp only; omega)
  have hspace : White [32] := by simp [White]
  have hnil : White [] := by simp [White]
  have hnumber : intText (intOfSize o.size) = digitText o.size := by rw [hint]; rfl
  have hkeys : AllUnescaped (str "sha256") ∧ AllUnescaped (str "size") := by decide
  refine ⟨by simp [objectParts], rfl, hfrag, ?_⟩
  rw [objectParts, List.forall_mem_cons, List.forall_mem_singleton]
  exact ⟨⟨⟨hnil, hspace, .inr (le_refl _)⟩,
      ⟨hkeys.1, stringText_of_unescaped hname⟩, trivial⟩,
    ⟨hspace, hspace, .inl (intText_quote_free _)⟩,
    ⟨hkeys.2, by
      rw [hnumber]
      exact stringText_of_unescaped (digitText_unescaped _)⟩, trivial⟩

/-- **The objects are listed exactly** just if there is one, no name has anything to escape and
no size is more than an `int` has. -/
theorem objectsListed_iff (h : ∀ o ∈ objects, NulFree o.path) :
    ObjectsListed objects ↔ ObjectsListable objects := by
  by_cases hne : objects = []
  · obtain rfl := hne
    exact ⟨fun _ => .inl rfl, fun _ => ⟨[openBracket, closeBracket], by decide, arrayListed_nil⟩⟩
  · rw [ObjectsListed, pvObjectsGetListString,
      listString_text (by decide) (by decide) hne (fun _ _ => rfl) (objectLines_ok h), ObjectsListable,
      or_iff_right hne, ← and_assoc, and_comm]
    refine and_congr_left fun _ => ?_
    rw [objectLines_text]
    have hmem : ∀ o ∈ objects.filter (·.Eligible), o ∈ objects ∧ o.Eligible := fun o ho =>
      ⟨(List.mem_filter.mp ho).1, of_decide_eq_true (List.mem_filter.mp ho).2⟩
    have hlt : ∀ o o' : ObjectFile, (o.size : Int) = intOfSize o'.size → o.size < 2 ^ 31 := by
      intro o o' heq
      by_contra hlong
      have hrange := intOfSize_lt o'.size
      omega
    constructor
    · intro hlisted
      obtain ⟨hsome, hgood⟩ := array_parts (fun o => AllUnescaped o.path ∧ o.size < 2 ^ 31)
        (fun o ho hkept => by
          rcases objectFrag_eq (hmem o ho).2.1 (of_decide_eq_true hkept) with ⟨-, hu⟩ | hu
          · exact .inl (hu ▸ objectFrag_end _)
          · exact .inr hu)
        (fun o ho item hitem hkept hholds x y _ hxy => by
          obtain ⟨⟨htext, hsize⟩, hnear⟩ := object_peel hitem (hmem o ho).2.1 (hmem o ho).2.1
            (of_decide_eq_true hkept) hholds hxy
          exact ⟨⟨htext.unescaped, hlt o o hsize⟩, hnear⟩)
        (fun o ho o' ho' item hitem hkept hkept' hholds x y _ hxy => by
          -- a size that is a multiple of 2³² is not printed for another object
          obtain ⟨⟨-, hsize⟩, -⟩ := object_peel hitem (hmem o ho).2.1 (hmem o' ho').2.1
            (of_decide_eq_true hkept') hholds hxy
          have hpos := (hmem o ho).2.2
          have hsmall := hlt o o' hsize
          have hzero : o.size % 2 ^ 32 = 0 := by simpa using hkept
          rw [Nat.mod_eq_of_lt (by omega)] at hzero
          omega)
        hlisted
      obtain ⟨o, ho⟩ := List.exists_mem_of_ne_nil _ hsome
      exact ⟨⟨o, hmem o ho⟩, fun o ho hel => (hgood o (List.mem_filter.mpr
        ⟨ho, decide_eq_true hel⟩)).2⟩
    · rintro ⟨⟨o, ho, hel⟩, hgood⟩
      have hin : o ∈ objects.filter (·.Eligible) := List.mem_filter.mpr ⟨ho, decide_eq_true hel⟩
      have hsmall : ∀ o ∈ objects.filter (·.Eligible), o.size % 2 ^ 32 = o.size := fun o ho =>
        Nat.mod_eq_of_lt (by have := (hgood o (hmem o ho).1 (hmem o ho).2).2; omega)
      have hall : (objects.filter (·.Eligible)).filter (·.size % 2 ^ 32 ≠ 0)
          = objects.filter (·.Eligible) := by
        refine List.filter_eq_self.mpr fun o ho => decide_eq_true ?_
        rw [hsmall o ho]
        exact Nat.ne_of_gt (hmem o ho).2.2
      rw [hall]
      exact array_listed (List.ne_nil_of_mem hin)
        (fun o => objectParts o.path (intOfSize o.size) o) fun o ho =>
          objectParts_listed (hmem o ho).2 (hgood o (hmem o ho).1 (hmem o ho).2).1
            (hgood o (hmem o ho).1 (hmem o ho).2).2

end Objects

/-! ## The revisions -/

theorem twoDigits_unescaped (n : Nat) : AllUnescaped (twoDigits n) := by
  rw [twoDigits]
  split
  · exact List.forall_mem_cons.mpr ⟨by decide, digitText_unescaped n⟩
  · exact digitText_unescaped n

theorem Tm.text_unescaped (tm : Tm) : AllUnescaped tm.text := by
  have happend : ∀ {a b : CStr}, AllUnescaped a → AllUnescaped b → AllUnescaped (a ++ b) :=
    fun ha hb => List.forall_mem_append.mpr ⟨ha, hb⟩
  have hyear : AllUnescaped (intText tm.year) := by
    cases tm.year with
    | ofNat n => exact digitText_unescaped n
    | negSucc n => exact List.forall_mem_cons.mpr ⟨by decide, digitText_unescaped (n + 1)⟩
  have hmarks : AllUnescaped (str "-") ∧ AllUnescaped (str "T") ∧ AllUnescaped (str ":") ∧
      AllUnescaped (str "Z") := by decide
  obtain ⟨hdash, ht, hcolon, hz⟩ := hmarks
  rw [Tm.text]
  exact happend (happend (happend (happend (happend (happend (happend (happend (happend (happend
    (happend hyear hdash) (twoDigits_unescaped _)) hdash) (twoDigits_unescaped _)) ht)
    (twoDigits_unescaped _)) hcolon) (twoDigits_unescaped _)) hcolon) (twoDigits_unescaped _)) hz

theorem unescaped_noNul {s : CStr} (h : AllUnescaped s) : NulFree s :=
  (stringText_of_unescaped h).body.noNul

section Revisions

variable {revisions : List RevisionDir}

/-- The commit message as it is loaded. -/
def RevisionDir.loadedMsg (r : RevisionDir) : CStr := (pvStorageLoadFile 512 r.commitmsg).getD []

/-- The progress as it is loaded. -/
def RevisionDir.loadedProgress (r : RevisionDir) : CStr :=
  ((pvStorageLoadFile 512 r.progress).filter (· ≠ [])).getD (str "\x7b\x7d")

/-- What is written for a revision, and what is meant by it. -/
def revisionParts (r : RevisionDir) : List Part :=
  [⟨⟨[], str "name", .string [] r.path⟩, .string r.path⟩,
    ⟨⟨[32], str "date", .string [] r.mtime.text⟩, .string r.mtime.text⟩,
    ⟨⟨[32], str "commitmsg", .string [] (r.loadedMsg.flatMap formatChar)⟩,
      .string (r.commitmsg.getD [])⟩,
    ⟨⟨[32], str "progress", .json r.loadedProgress⟩,
      .json (r.progress.getD (str "\x7b\x7d"))⟩]

theorem loadedMsg_format (r : RevisionDir) :
    ((pvStorageLoadFile 512 r.commitmsg).bind pvJsonFormat).getD []
      = r.loadedMsg.flatMap formatChar := by
  rw [RevisionDir.loadedMsg]
  cases pvStorageLoadFile 512 r.commitmsg with
  | none => rfl
  | some msg =>
    rw [Option.bind_some, Option.getD_some, pvJsonFormat]
    cases msg with
    | nil => rfl
    | cons c msg => rw [if_pos (by simp), Option.getD_some]

theorem revisionText_eq (r : RevisionDir) :
    str "\x7b\"name\":\"" ++ r.path ++ str "\", \"date\":\"" ++ r.mtime.text
        ++ str "\", \"commitmsg\":\"" ++ r.loadedMsg.flatMap formatChar
        ++ str "\", \"progress\":" ++ r.loadedProgress ++ str "\x7d,"
      = objectFrag ((revisionParts r).map Part.written) := by
  have hopen : str "\x7b\"name\":\"" = openBrace :: (quoted (str "name") ++ [colon, quote]) := rfl
  have hdate : str "\", \"date\":\""
      = quote :: comma :: 32 :: (quoted (str "date") ++ [colon, quote]) := rfl
  have hmsg : str "\", \"commitmsg\":\""
      = quote :: comma :: 32 :: (quoted (str "commitmsg") ++ [colon, quote]) := rfl
  have hprogress : str "\", \"progress\":"
      = quote :: comma :: 32 :: (quoted (str "progress") ++ [colon]) := rfl
  have hclose : str "\x7d," = [closeBrace, comma] := rfl
  have hfields : fieldsText ((revisionParts r).map Part.written)
      = quoted (str "name") ++ colon :: quoted r.path ++ comma :: 32 :: (quoted (str "date")
        ++ colon :: quoted r.mtime.text ++ comma :: 32 :: (quoted (str "commitmsg")
        ++ colon :: quoted (r.loadedMsg.flatMap formatChar) ++ comma :: 32 ::
          (quoted (str "progress") ++ colon :: r.loadedProgress))) := by
    refine List.append_cancel_right (?_ : _ ++ [comma] = _ ++ [comma])
    rw [fieldsText_comma (by simp [revisionParts])]
    simp [revisionParts, Written.text, Content.text]
  rw [objectFrag, hfields, hopen, hdate, hmsg, hprogress, hclose]
  simp [quoted]

/-- The length of a line for a revision is counted right. -/
theorem revisionLine_eq {r : RevisionDir} (h : r.Eligible) :
    revisionLine r = some ((objectFrag ((revisionParts r).map Part.written)).length,
      objectFrag ((revisionParts r).map Part.written)) := by
  have hopen : (str "\x7b\"name\":\"").length = 9 := rfl
  have hdate : (str "\", \"date\":\"").length = 11 := rfl
  have hmsg : (str "\", \"commitmsg\":\"").length = 16 := rfl
  have hprogress : (str "\", \"progress\":").length = 14 := rfl
  have hclose : (str "\x7d,").length = 2 := rfl
  rw [revisionLine, if_neg h, loadedMsg_format, ← RevisionDir.loadedProgress]
  simp only [revisionText_eq]
  congr 2
  rw [← revisionText_eq]
  simp only [List.length_append, hopen, hdate, hmsg, hprogress, hclose]
  omega

theorem revisionLine_none {r : RevisionDir} (h : ¬ r.Eligible) : revisionLine r = none :=
  if_pos (not_not.mp h)

theorem revisionFrag_eq {r : RevisionDir} (h : r.Eligible) :
    lineFrag revisionLine r = objectFrag ((revisionParts r).map Part.written) := by
  rw [lineFrag, revisionLine_eq h, Option.map_some, Option.getD_some, List.take_length]

theorem revisionLines_text :
    linesText (revisions.filterMap revisionLine)
      = ((revisions.filter (·.Eligible)).filter fun _ => true).flatMap (lineFrag revisionLine) := by
  refine linesText_filterMap _ _ fun r _ => ?_
  by_cases h : r.Eligible
  · rw [revisionLine_eq h, decide_eq_true h]
    rfl
  · rw [revisionLine_none h, decide_eq_false h]
    rfl

/-- What is loaded of a progress file that is JSON: all of it, or nothing. -/
theorem loadedProgress_eq {r : RevisionDir} (hjson : ∀ p ∈ r.progress, JsonDocument p)
    (hsize : ∀ p ∈ r.progress, p.length < 2 ^ 32) :
    r.loadedProgress
      = if ∀ p ∈ r.progress, p.length ≤ 512 then r.progress.getD (str "\x7b\x7d")
        else str "\x7b\x7d" := by
  rw [RevisionDir.loadedProgress, pvStorageLoadFile]
  cases hprogress : r.progress with
  | none => simp
  | some p =>
    rw [hprogress] at hjson hsize
    have hnul := (hjson p rfl).noNul
    have hne : p ≠ [] := by
      rintro rfl
      obtain ⟨pre, v, post, heq, -, hv, -⟩ := hjson [] rfl
      obtain ⟨u, e, hu, -⟩ := JsonValue.text_last hv
      have hlen := congrArg List.length heq
      rw [hu] at hlen
      simp at hlen
    simp only [Option.bind_some, Nat.mod_eq_of_lt (hsize p rfl), List.take_length,
      cstrAt_zero hnul]
    by_cases hle : p.length ≤ 512
    · have hfilter : (some p).filter (· ≠ []) = some p :=
        Option.filter_eq_some_iff.mpr ⟨rfl, decide_eq_true hne⟩
      rw [if_neg (Nat.not_lt.mpr hle), hfilter, if_pos (by simpa using hle)]
    · simp [hle, Nat.lt_of_not_le hle]

/-- What is loaded of a commit message is all of it just if it is short and has no NUL. -/
theorem loadedMsg_iff (r : RevisionDir) :
    r.loadedMsg = r.commitmsg.getD [] ↔ ∀ msg ∈ r.commitmsg, msg.length ≤ 512 ∧ NulFree msg := by
  rw [RevisionDir.loadedMsg, pvStorageLoadFile]
  cases r.commitmsg with
  | none => simp
  | some msg =>
    rw [Option.bind_some, Option.getD_some]
    simp only [Option.mem_some_iff, forall_eq']
    constructor
    · intro h
      by_cases hlong : 512 < msg.length % 2 ^ 32
      · rw [if_pos hlong, Option.getD_none] at h
        rw [← h] at hlong
        exact absurd hlong (by decide)
      · rw [if_neg hlong, Option.getD_some] at h
        have hlen : msg.length ≤ msg.length % 2 ^ 32 := by
          calc msg.length = (cstrAt (msg.take (msg.length % 2 ^ 32)) 0).length := by rw [h]
            _ ≤ (msg.take (msg.length % 2 ^ 32)).length := (List.takeWhile_sublist _).length_le
            _ ≤ msg.length % 2 ^ 32 := List.length_take_le ..
        refine ⟨by omega, ?_⟩
        rw [← h]
        exact fun hmem => by simpa using List.mem_takeWhile_imp hmem
    · rintro ⟨hle, hnul⟩
      rw [Nat.mod_eq_of_lt (by omega), if_neg (by omega), List.take_length, cstrAt_zero hnul,
        Option.getD_some]

theorem revisionParts_apart {r : RevisionDir} (hjson : ∀ p ∈ r.progress, JsonDocument p)
    (hsize : ∀ p ∈ r.progress, p.length < 2 ^ 32) : ∀ p ∈ revisionParts r, p.Apart := by
  have hspace : White [32] := by simp [White]
  have hnil : White [] := by simp [White]
  have hprogress : r.loadedProgress = r.progress.getD (str "\x7b\x7d") ∨
      r.loadedProgress = [openBrace, closeBrace] := by
    rw [loadedProgress_eq hjson hsize]
    split
    · exact .inl rfl
    · exact .inr rfl
  simp only [revisionParts, List.forall_mem_cons, List.not_mem_nil, false_implies, implies_true,
    and_true]
  exact ⟨⟨hnil, hnil, .inr (le_refl _)⟩, ⟨hspace, hnil, .inr (le_refl _)⟩,
    ⟨hspace, hnil, .inl (quote_not_mem_format _)⟩, hspace, hprogress⟩

/-- The parts of a revision are right just if its name has nothing to escape and its files are
loaded whole. -/
theorem revisionParts_right_iff {r : RevisionDir} (hjson : ∀ p ∈ r.progress, JsonDocument p)
    (hsize : ∀ p ∈ r.progress, p.length < 2 ^ 32) :
    (∀ p ∈ revisionParts r, p.Right) ↔ AllUnescaped r.path ∧ r.Loaded := by
  have hkeys : AllUnescaped (str "name") ∧ AllUnescaped (str "date") ∧
      AllUnescaped (str "commitmsg") ∧ AllUnescaped (str "progress") := by decide
  obtain ⟨hname, hdate, hmsg, hprogress⟩ := hkeys
  simp only [revisionParts, List.forall_mem_cons, List.not_mem_nil, false_implies, implies_true,
    and_true]
  constructor
  · rintro ⟨⟨-, hpath⟩, -, ⟨-, hcommit⟩, -, hload⟩
    have hpath : StringText r.path r.path := hpath
    have hcommit : StringText (r.loadedMsg.flatMap formatChar) (r.commitmsg.getD []) := hcommit
    have hload : r.loadedProgress = r.progress.getD (str "\x7b\x7d") := hload
    refine ⟨hpath.unescaped,
      (loadedMsg_iff r).mp ((flatMap_formatChar_text _).unique hcommit), ?_⟩
    rw [loadedProgress_eq hjson hsize] at hload
    split at hload
    · assumption
    · rename_i hlong
      intro p hp
      rw [Option.mem_def.mp hp, Option.getD_some] at hload
      rw [← hload]
      decide
  · rintro ⟨hpath, hcommit, hshort⟩
    have hload : r.loadedProgress = r.progress.getD (str "\x7b\x7d") := by
      rw [loadedProgress_eq hjson hsize, if_pos hshort]
    have hmsgs := (loadedMsg_iff r).mpr hcommit
    refine ⟨⟨hname, stringText_of_unescaped hpath⟩,
      ⟨hdate, stringText_of_unescaped r.mtime.text_unescaped⟩, ⟨hmsg, ?_⟩, hprogress, hload⟩
    rw [hmsgs]
    exact flatMap_formatChar_text _

theorem revisionLines_ok
    (h : ∀ r ∈ revisions, NulFree r.path ∧ ∀ p ∈ r.progress, JsonDocument p) :
    ∀ l ∈ revisions.filterMap revisionLine, l.1 ≤ l.2.length ∧ NulFree l.2 := by
  intro l hl
  obtain ⟨r, hr, hline⟩ := List.mem_filterMap.mp hl
  by_cases hel : r.Eligible
  · obtain rfl := Option.some.inj ((revisionLine_eq hel).symm.trans hline)
    refine ⟨le_refl _, ?_⟩
    have hpath := (h r hr).1
    have hdate := unescaped_noNul r.mtime.text_unescaped
    have hcstr : ∀ {n : Nat} {content : Option CStr} {s : CStr},
        pvStorageLoadFile n content = some s → NulFree s := by
      intro n content s hs
      obtain ⟨c, -, hc⟩ := Option.bind_eq_some_iff.mp hs
      dsimp only at hc
      split at hc
      · cases hc
      · rw [← Option.some.inj hc]
        exact fun hmem => by simpa using List.mem_takeWhile_imp hmem
    have hmsg : NulFree (r.loadedMsg.flatMap formatChar) := by
      refine format_noNul ?_
      rw [RevisionDir.loadedMsg]
      cases hload : pvStorageLoadFile 512 r.commitmsg with
      | none => exact List.not_mem_nil
      | some msg => exact hcstr hload
    have hprogress : NulFree r.loadedProgress := by
      rw [RevisionDir.loadedProgress]
      cases hload : (pvStorageLoadFile 512 r.progress).filter (· ≠ []) with
      | none =>
        show NulFree (str "\x7b\x7d")
        decide
      | some p => exact hcstr (Option.filter_eq_some_iff.mp hload).1
    rw [← revisionText_eq]
    simp only [NulFree, List.mem_append, not_or] at hpath hdate hmsg hprogress ⊢
    exact ⟨⟨⟨⟨⟨⟨⟨⟨by decide, hpath⟩, by decide⟩, hdate⟩, by decide⟩, hmsg⟩, by decide⟩, hprogress⟩,
      by decide⟩
  · rw [revisionLine_none hel] at hline
    cases hline

/-- In an exact array no text of a field is longer than the array. -/
theorem field_length {elems : List (List (CStr × Field))} {text : CStr}
    (h : ArrayListed elems text) {fields : List (CStr × Field)} (hfields : fields ∈ elems)
    {key t : CStr} (ht : (key, .json t) ∈ fields) : t.length ≤ text.length := by
  obtain ⟨gap, items, rfl, -, hall⟩ := h
  obtain ⟨item, hitem, inner, members, hvalue, hmembers⟩ :
      ∃ item ∈ items, HoldsAll fields item := by
    obtain ⟨i, hi, hget⟩ := List.mem_iff_getElem.mp hfields
    have hi' : i < items.length := by rw [← hall.length_eq]; exact hi
    have hat := hall.get hi hi'
    rw [List.get_eq_getElem, List.get_eq_getElem, hget] at hat
    exact ⟨_, List.getElem_mem hi', hat⟩
  obtain ⟨m, hm, -, heq⟩ : ∃ m ∈ members, Holds key (.json t) m := by
    obtain ⟨i, hi, hget⟩ := List.mem_iff_getElem.mp ht
    have hi' : i < members.length := by rw [← hmembers.length_eq]; exact hi
    have hat := hmembers.get hi hi'
    rw [List.get_eq_getElem, List.get_eq_getElem, hget] at hat
    exact ⟨_, List.getElem_mem hi', hat⟩
  have hinner := length_flatMap_mem (f := memberFrag) hm
  have houter := length_flatMap_mem (f := itemFrag) hitem
  rw [flatMap_memberFrag (List.ne_nil_of_mem hm)] at hinner
  rw [flatMap_itemFrag (List.ne_nil_of_mem hitem), itemFrag, hvalue, JsonValue.text] at houter
  have htext := congrArg List.length heq
  rw [memberFrag] at hinner
  simp only [List.length_append, List.length_cons, List.length_nil, JsonValue.text]
    at hinner houter htext ⊢
  omega

/-- What is written for a revision with an unescaped name whose files are loaded whole. -/
theorem revisionParts_listed {r : RevisionDir} (hel : r.Eligible)
    (hjson : ∀ p ∈ r.progress, JsonDocument p) (hok : AllUnescaped r.path ∧ r.Loaded) :
    revisionParts r ≠ [] ∧ (revisionParts r).map Part.meant = revisionFields r ∧
      lineFrag revisionLine r = objectFrag ((revisionParts r).map Part.written) ∧
      ∀ p ∈ revisionParts r, p.Apart ∧ p.Right ∧ FieldOk p.field := by
  have hsize : ∀ p ∈ r.progress, p.length < 2 ^ 32 := fun p hp => by
    have := hok.2.2 p hp
    omega
  have hprogress : JsonDocument (r.progress.getD (str "\x7b\x7d")) := by
    cases hp : r.progress with
    | none =>
      refine ⟨[], .object [] [], [], rfl, by simp [White], ?_, by simp [White]⟩
      rw [JsonValue.Valid]
      exact ⟨by simp [White], trivial⟩
    | some p => exact hjson p hp
  refine ⟨by simp [revisionParts], rfl, revisionFrag_eq hel, fun p hp =>
    ⟨revisionParts_apart hjson hsize p hp, (revisionParts_right_iff hjson hsize).mpr hok p hp, ?_⟩⟩
  simp only [revisionParts, List.mem_cons, List.not_mem_nil, or_false] at hp
  rcases hp with rfl | rfl | rfl | rfl
  · trivial
  · trivial
  · trivial
  · exact hprogress

/-- **The revisions are listed exactly** just if there is one, no name has anything to escape and
their files are loaded whole. -/
theorem revisionsListed_iff
    (h : ∀ r ∈ revisions, NulFree r.path ∧ ∀ p ∈ r.progress, JsonDocument p) :
    RevisionsListed revisions ↔ RevisionsListable revisions := by
  by_cases hne : revisions = []
  · obtain rfl := hne
    exact ⟨fun _ => .inl rfl, fun _ => ⟨[openBracket, closeBracket], by decide, arrayListed_nil⟩⟩
  · have hlines := revisionLines_ok h
    have hlen := length_linesText fun l hl => (hlines l hl).1
    rw [RevisionsListed, pvStorageGetRevisionsString,
      listString_text (by decide) (by decide) hne (fun _ _ => rfl) hlines, RevisionsListable, or_iff_right hne,
      ← and_assoc, and_comm]
    refine and_congr_left fun hfits => ?_
    have hmem : ∀ r ∈ revisions.filter (·.Eligible), r ∈ revisions ∧ r.Eligible := fun r hr =>
      ⟨(List.mem_filter.mp hr).1, of_decide_eq_true (List.mem_filter.mp hr).2⟩
    constructor
    · intro hlisted
      have hsize : ∀ r ∈ revisions.filter (·.Eligible), ∀ p ∈ r.progress, p.length < 2 ^ 32 := by
        intro r hr p hp
        have hfield : (str "progress", Field.json p) ∈ revisionFields r := by
          rw [revisionFields, Option.mem_def.mp hp]
          simp
        have hle := field_length hlisted (List.mem_map.mpr ⟨r, hr, rfl⟩) hfield
        rw [List.length_append, List.length_dropLast, List.length_cons, hlen] at hle
        simp only [List.length_cons, List.length_nil] at hle
        omega
      rw [revisionLines_text] at hlisted
      obtain ⟨hsome, hgood⟩ := array_parts (fun r => AllUnescaped r.path ∧ r.Loaded)
        (fun r hr _ => by
          rw [revisionFrag_eq (hmem r hr).2]
          exact .inl (objectFrag_end _))
        (fun r hr item hitem _ hholds x y _ hxy => by
          rw [revisionFrag_eq (hmem r hr).2] at hxy
          obtain ⟨hright, hnear⟩ := peel_object (by simp [revisionParts])
            (revisionParts_apart (h r (hmem r hr).1).2 (hsize r hr))
            ⟨hitem.2.1, hitem.1, hitem.2.2⟩ hholds hxy
          exact ⟨(revisionParts_right_iff (h r (hmem r hr).1).2 (hsize r hr)).mp hright, hnear⟩)
        (fun _ _ _ _ _ _ hfalse => absurd rfl hfalse) hlisted
      obtain ⟨r, hr⟩ := List.exists_mem_of_ne_nil _ hsome
      exact ⟨⟨r, hmem r hr⟩, fun r hr hel => (hgood r (List.mem_filter.mpr
        ⟨hr, decide_eq_true hel⟩)).2⟩
    · rintro ⟨⟨r, hr, hel⟩, hgood⟩
      have hin : r ∈ revisions.filter (·.Eligible) := List.mem_filter.mpr ⟨hr, decide_eq_true hel⟩
      rw [revisionLines_text, List.filter_true]
      exact array_listed (List.ne_nil_of_mem hin) revisionParts fun r hr =>
        revisionParts_listed (hmem r hr).2 (h r (hmem r hr).1).2
          (hgood r (hmem r hr).1 (hmem r hr).2)

end Revisions

/-! ## All listings -/

/-- `{"a":"b"}` -/
def smallJson : CStr := str "\x7b\"a\":\"b\"\x7d"

theorem smallJson_document : JsonDocument smallJson := by
  have hnil : White [] := by simp [White]
  refine ⟨[], .object [] [⟨[], str "a", [], [], .string (str "b"), []⟩], [], by decide, hnil, ?_,
    hnil⟩
  rw [JsonValue.Valid, membersValid_iff]
  refine ⟨hnil, fun m hm => ?_⟩
  obtain rfl := List.mem_singleton.mp hm
  refine ⟨hnil, (stringText_of_unescaped (by decide)).body, hnil, hnil, ?_, hnil⟩
  rw [JsonValue.Valid]
  exact (stringText_of_unescaped (by decide)).body

/-- A string with a quote in it, and an object. -/
def someMeta : List PvMeta := [⟨str "a", str "b\"", true⟩, ⟨str "o", smallJson, true⟩]

/-- A directory entry, and an object. -/
def someObjects : List ObjectFile := [⟨str "..", 4096⟩, ⟨List.replicate 64 97, 120⟩]

/-- A directory entry, a revision with its files, and one without. -/
def someRevisions : List RevisionDir :=
  [⟨str "..", ⟨2022, 1, 2, 3, 4, 5⟩, none, none⟩,
    ⟨str "0", ⟨2022, 1, 2, 3, 4, 5⟩, some (str "first"), some smallJson⟩,
    ⟨str "locals/a", ⟨2022, 11, 2, 13, 4, 5⟩, none, none⟩]

end Pantavisor.Listing
