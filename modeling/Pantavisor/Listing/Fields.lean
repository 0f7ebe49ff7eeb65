/-
Pantavisor.Listing.Fields — objects and arrays whose texts are written field by field, and
what is read of them.

`Holds key field m` says that a member of a JSON object has the field. Where the text of an
object is made of fields, it is read as an object with these members only if each was written
so that it says what it is to say (`peel_field`, for the last one), and where some were left
out it is not read so at all (`peel_all`).
-/
import Mathlib.Data.List.Induction
import Pantavisor.Lib.JsonEnds
import Pantavisor.Metadata.Upload

namespace Pantavisor.Listing

open Pantavisor.Lib Pantavisor.Metadata

/-! ## Fields -/

/-- What a field is to say: a string, or a value that is given by its text. -/
inductive Field where
  | string (s : CStr)
  | json (text : CStr)
  deriving DecidableEq

/-- A member of an object has the field. -/
def Holds (key : CStr) (field : Field) (m : JsonMember JsonValue) : Prop :=
  StringText m.key key ∧
    match field with
    | .string s => ∃ raw, m.value = .string raw ∧ StringText raw s
    | .json text => text = m.gap' ++ m.value.text ++ m.post

/-- What is written for a field: a string between quotes, or a text as it is. -/
inductive Content where
  | string (gap raw : CStr)
  | json (text : CStr)
  deriving DecidableEq

def Content.text : Content → CStr
  | .string gap raw => gap ++ quoted raw
  | .json text => text

/-- A field as it is written, with the white space before it. -/
structure Written where
  pre : CStr
  key : CStr
  content : Content
  deriving DecidableEq

def Written.text (w : Written) : CStr := w.pre ++ quoted w.key ++ colon :: w.content.text

/-- What is written says what the field is to say. -/
def Says : Content → Field → Prop
  | .string _ raw, .string s => StringText raw s
  | .json text, .json text' => text = text'
  | _, _ => False

/-- What may be written for a field. A string has no quote in it or is no longer than what it
is to say, and a text may give way to an empty object. -/
def Candidate : Content → Field → Prop
  | .string gap raw, .string s => White gap ∧ (quote ∉ raw ∨ raw.length ≤ s.length)
  | .json text, .json text' => text = text' ∨ text = [openBrace, closeBrace]
  | _, _ => False

/-- A member of a valid object. -/
def MemberValid (m : JsonMember JsonValue) : Prop :=
  White m.pre ∧ StringBody m.key ∧ White m.gap ∧ White m.gap' ∧ m.value.Valid ∧ White m.post

/-! ## Ends of texts -/

/-- A text that ends with neither white space nor a backslash. -/
def Sharp (x : CStr) : Prop := ∃ u c, x = u ++ [c] ∧ ¬ WhiteByte c ∧ c ≠ backslash

/-- Texts that differ in the white space at their ends. -/
def Near (x y : CStr) : Prop := ∃ v w, White v ∧ White w ∧ x ++ v = y ++ w

theorem Sharp.append {y : CStr} (h : Sharp y) (x : CStr) : Sharp (x ++ y) := by
  obtain ⟨u, c, rfl, hc⟩ := h
  exact ⟨x ++ u, c, (List.append_assoc ..).symm, hc⟩

theorem sharp_concat {c : UInt8} (hw : ¬ WhiteByte c) (hb : c ≠ backslash) (x : CStr) :
    Sharp (x ++ [c]) := ⟨x, c, rfl, hw, hb⟩

theorem Sharp.last {x w : CStr} (h : Sharp x) (hw : White w) :
    (x ++ w).getLast? ≠ some backslash := by
  obtain ⟨u, c, rfl, -, hc⟩ := h
  rcases List.eq_nil_or_concat w with rfl | ⟨w, d, rfl⟩
  · simpa using hc
  · rw [List.concat_eq_append, ← List.append_assoc, List.getLast?_append, List.getLast?_singleton,
      Option.some_or]
    intro heq
    have hd := hw d (by simp)
    rw [Option.some.inj heq] at hd
    exact absurd hd (by decide)

theorem Near.eq {x y : CStr} (h : Near x y) (hx : Sharp x) (hy : Sharp y) : x = y := by
  obtain ⟨v, w, hv, hw, heq⟩ := h
  obtain ⟨u, c, rfl, hc, -⟩ := hx
  obtain ⟨u', c', rfl, hc', -⟩ := hy
  rw [List.append_assoc, List.append_assoc] at heq
  obtain ⟨rfl, rfl, -⟩ := white_end_inj hv hw hc hc' heq
  rfl

theorem Near.refl (x : CStr) : Near x x := ⟨[], [], by simp [White], by simp [White], rfl⟩

/-! ## The last field -/

/-- A text that ends with an empty object behind a colon has no other value there. -/
theorem braces_end {a b g p : CStr} {v : JsonValue} (hg : White g) (hp : White p) (hv : v.Valid)
    (h : a ++ colon :: [openBrace, closeBrace] = b ++ colon :: (g ++ v.text ++ p)) :
    g ++ v.text ++ p = [openBrace, closeBrace] := by
  have hnil : White [] := by simp [White]
  obtain ⟨u, e, htext, he, -, hobject⟩ := JsonValue.text_last hv
  have hend : (a ++ [colon, openBrace]) ++ closeBrace :: []
      = (b ++ colon :: (g ++ u)) ++ e :: p := by
    rw [htext] at h
    simpa using h
  obtain ⟨hfront, hbrace, rfl⟩ := white_end_inj hnil hp (by decide) he hend
  obtain ⟨gap, members, rfl⟩ := hobject hbrace.symm
  rw [JsonValue.Valid] at hv
  have hu : u = openBrace :: (gap ++ JsonValue.membersText members) := by
    have htext' : openBrace :: (gap ++ JsonValue.membersText members) ++ [closeBrace]
        = u ++ [e] := by
      rw [← htext, JsonValue.text, List.cons_append]
    exact (List.append_inj_left' htext' rfl).symm
  rcases List.eq_nil_or_concat members with rfl | ⟨ms, m, rfl⟩
  · have hempty : (a ++ [colon]) ++ openBrace :: [] = (b ++ colon :: g) ++ openBrace :: gap := by
      rw [hu] at hfront
      simpa [JsonValue.membersText] using hfront
    obtain ⟨hfront, -, rfl⟩ := white_end_inj hnil hv.1 (by decide) (by decide) hempty
    obtain ⟨-, -, rfl⟩ := white_end_inj hnil hg (by decide) (by decide) hfront
    rfl
  · -- the last member would end with an opening brace
    rw [List.concat_eq_append] at hu hv
    have hmember : MemberValid m := (membersValid_iff _).mp hv.2 m (by simp)
    obtain ⟨u', e', htext', he', hopen, -⟩ := JsonValue.text_last hmember.2.2.2.2.1
    have hlast : ∃ z, JsonValue.membersText (ms ++ [m]) = z ++ e' :: m.post := by
      have hfrags : (ms ++ [m]).flatMap memberFrag = _ := flatMap_memberFrag (by simp)
      rw [List.flatMap_append, List.flatMap_singleton, memberFrag, htext', ← List.append_assoc]
        at hfrags
      have hdrop := List.append_inj_left' hfrags rfl
      exact ⟨ms.flatMap memberFrag ++ (m.pre ++ quoted m.key ++ m.gap ++ colon :: m.gap' ++ u'), by
        rw [← hdrop]
        simp⟩
    obtain ⟨z, hz⟩ := hlast
    have hfull : (a ++ [colon]) ++ openBrace :: []
        = (b ++ colon :: (g ++ openBrace :: (gap ++ z))) ++ e' :: m.post := by
      rw [hu, hz] at hfront
      simpa using hfront
    obtain ⟨-, heq, -⟩ := white_end_inj hnil hmember.2.2.2.2.2 (by decide) he' hfull
    exact absurd heq.symm hopen

/-- The key at the end of a text. -/
theorem key_end {x y pre key : CStr} {m : JsonMember JsonValue}
    (hx : (x ++ pre).getLast? ≠ some backslash) (hm : MemberValid m) (hkey : StringText m.key key)
    (h : x ++ pre ++ quoted key = y ++ m.pre ++ quoted m.key ++ m.gap) :
    AllUnescaped key ∧ x ++ pre = y ++ m.pre := by
  have hquote : (x ++ pre ++ quote :: key) ++ quote :: []
      = (y ++ m.pre ++ quote :: m.key) ++ quote :: m.gap := by
    simpa [quoted] using h
  obtain ⟨-, -, hgap⟩ := white_end_inj (by simp [White]) hm.2.2.1 (by decide) (by decide) hquote
  rw [← hgap, List.append_nil] at h
  obtain ⟨heq, hfront⟩ := quoted_end_inj hx hm.2.1 (.inr hkey.length_le) h
  rw [heq] at hkey
  exact ⟨hkey.unescaped, hfront⟩

/-- **The last field** of a text is read as it is written. -/
theorem peel_field {x y : CStr} {w : Written} {field : Field} {m : JsonMember JsonValue}
    (hm : MemberValid m) (hholds : Holds w.key field m) (hcandidate : Candidate w.content field)
    (hpre : White w.pre) (hx : Sharp x) (h : x ++ (w.text ++ [comma]) = y ++ memberFrag m) :
    (AllUnescaped w.key ∧ Says w.content field) ∧ Near x y := by
  have hlast := hx.last hpre
  have hfull : x ++ w.pre ++ quoted w.key ++ colon :: w.content.text
      = y ++ m.pre ++ quoted m.key ++ m.gap ++ colon :: (m.gap' ++ m.value.text ++ m.post) := by
    refine List.append_cancel_right (?_ : _ ++ [comma] = _ ++ [comma])
    rw [Written.text, memberFrag] at h
    simpa using h
  cases hcontent : w.content with
  | string gap raw =>
    cases field with
    | json text => rw [hcontent] at hcandidate; exact hcandidate.elim
    | string s =>
      rw [hcontent] at hcandidate hfull
      obtain ⟨hkey, raw', hvalue, htext⟩ := hholds
      rw [hvalue, JsonValue.text, Content.text] at hfull
      -- white space behind the string, and then the string itself
      have hquote : (x ++ w.pre ++ quoted w.key ++ colon :: (gap ++ quote :: raw)) ++ quote :: []
          = (y ++ m.pre ++ quoted m.key ++ m.gap ++ colon :: (m.gap' ++ quote :: raw'))
            ++ quote :: m.post := by
        simpa [quoted] using hfull
      obtain ⟨-, -, hpost⟩ :=
        white_end_inj (by simp [White]) hm.2.2.2.2.2 (by decide) (by decide) hquote
      have hstring : (x ++ w.pre ++ quoted w.key ++ colon :: gap) ++ quoted raw
          = (y ++ m.pre ++ quoted m.key ++ m.gap ++ colon :: m.gap') ++ quoted raw' := by
        rw [← hpost] at hfull
        simpa using hfull
      have hcolon : ((x ++ w.pre ++ quoted w.key ++ [colon]) ++ gap).getLast? ≠ some backslash :=
        (sharp_concat (by decide) (by decide) _).last hcandidate.1
      obtain ⟨heq, hfront⟩ := quoted_end_inj (by simpa using hcolon) htext.body
        (hcandidate.2.imp_right fun hle => hle.trans htext.length_le) hstring
      obtain ⟨hkeys, -, -⟩ := white_end_inj hcandidate.1 hm.2.2.2.1 (by decide) (by decide) hfront
      obtain ⟨hplain, hxy⟩ := key_end hlast hm hkey hkeys
      rw [heq] at htext
      exact ⟨⟨hplain, htext⟩, w.pre, m.pre, hpre, hm.1, hxy⟩
  | json text =>
    cases field with
    | string s => rw [hcontent] at hcandidate; exact hcandidate.elim
    | json text' =>
      rw [hcontent] at hcandidate hfull
      obtain ⟨hkey, rfl⟩ := hholds
      rw [Content.text] at hfull
      have hsame : text = m.gap' ++ m.value.text ++ m.post := by
        rcases hcandidate with heq | rfl
        · exact heq
        · exact (braces_end hm.2.2.2.1 hm.2.2.2.2.2 hm.2.2.2.2.1 hfull).symm
      rw [← hsame] at hfull
      have hkeys := List.append_inj_left' hfull rfl
      obtain ⟨hplain, hxy⟩ := key_end hlast hm hkey hkeys
      exact ⟨⟨hplain, hsame⟩, w.pre, m.pre, hpre, hm.1, hxy⟩

/-! ## All parts -/

section Parts

variable {α β : Type} (kept : α → Bool) (frag : α → CStr) (frag' : β → CStr)
  (holds : α → β → Prop) (good : α → Prop) {start start' : CStr}

/-- **All parts of a text** are there and are right, where that can be told of the last one. -/
theorem peel_all {as : List α} {bs : List β} (hstart : Sharp start)
    (hsharp : ∀ a ∈ as, kept a → Sharp (frag a)) (hcomma : ∀ b, ∃ u, frag' b = u ++ [comma])
    (hopen : start.getLast? ≠ some comma)
    (hpeel : ∀ a ∈ as, ∀ b ∈ bs, kept a → holds a b → ∀ x y, Sharp x →
      x ++ frag a = y ++ frag' b → good a ∧ Near x y)
    (hskip : ∀ a ∈ as, ∀ a' ∈ as, ∀ b ∈ bs, ¬ kept a → kept a' → holds a b → ∀ x y, Sharp x →
      x ++ frag a' ≠ y ++ frag' b)
    (hall : List.Forall₂ holds as.reverse bs.reverse)
    (h : Near (start ++ (as.filter kept).flatMap frag) (start' ++ bs.flatMap frag')) :
    (∀ a ∈ as, kept a ∧ good a) ∧ Near start start' := by
  have hsharpAll : ∀ as' : List α, (∀ a ∈ as', a ∈ as) →
      Sharp (start ++ (as'.filter kept).flatMap frag) := by
    intro as' hsub
    rcases List.eq_nil_or_concat (as'.filter kept) with hnil | ⟨cs, c, hconcat⟩
    · rw [hnil]
      simpa using hstart
    · have hmem : c ∈ as'.filter kept := by
        rw [hconcat]
        simp
      obtain ⟨hin, hkept⟩ := List.mem_filter.mp hmem
      rw [hconcat, List.concat_eq_append, List.flatMap_append, List.flatMap_singleton,
        ← List.append_assoc]
      exact (hsharp c (hsub c hin) hkept).append _
  induction as using List.reverseRecOn generalizing bs with
  | nil =>
    rw [List.reverse_nil, List.forall₂_nil_left_iff] at hall
    obtain rfl := List.reverse_eq_nil_iff.mp hall
    exact ⟨by simp, by simpa using h⟩
  | append_singleton as a ih =>
    rcases List.eq_nil_or_concat bs with rfl | ⟨bs, b, rfl⟩
    · simp at hall
    rw [List.concat_eq_append] at hall h hpeel hskip
    rw [List.reverse_append, List.reverse_append, List.reverse_singleton, List.reverse_singleton,
      List.singleton_append, List.singleton_append, List.forall₂_cons] at hall
    obtain ⟨hab, hall⟩ := hall
    have ha : a ∈ as ++ [a] := by simp
    have hb : b ∈ bs ++ [b] := by simp
    have hin : ∀ a' ∈ as, a' ∈ as ++ [a] := fun a' ha' => List.mem_append_left _ ha'
    have hbin : ∀ b' ∈ bs, b' ∈ bs ++ [b] := fun b' hb' => List.mem_append_left _ hb'
    have hsharpFull := hsharpAll (as ++ [a]) fun _ h => h
    obtain ⟨u, hu⟩ := hcomma b
    have hend : Sharp (start' ++ (bs ++ [b]).flatMap frag') := by
      rw [List.flatMap_append, List.flatMap_singleton, hu, ← List.append_assoc,
        ← List.append_assoc]
      exact sharp_concat (by decide) (by decide) _
    have heq := h.eq hsharpFull hend
    by_cases hkept : kept a
    · rw [List.filter_append, List.filter_cons_of_pos hkept, List.filter_nil, List.flatMap_append,
        List.flatMap_append, List.flatMap_singleton, List.flatMap_singleton, ← List.append_assoc,
        ← List.append_assoc] at heq
      obtain ⟨hgood, hnear⟩ := hpeel a ha b hb hkept hab _ _ (hsharpAll as hin) heq
      obtain ⟨hrest, hstarts⟩ := ih (fun a' ha' => hsharp a' (hin a' ha'))
        (fun a' ha' b' hb' => hpeel a' (hin a' ha') b' (hbin b' hb'))
        (fun a' ha' c hc b' hb' => hskip a' (hin a' ha') c (hin c hc) b' (hbin b' hb'))
        hall hnear fun as' hsub => hsharpAll as' fun a' ha' => hin a' (hsub a' ha')
      refine ⟨fun a' ha' => ?_, hstarts⟩
      rcases List.mem_append.mp ha' with ha' | ha'
      · exact hrest a' ha'
      · obtain rfl := List.mem_singleton.mp ha'
        exact ⟨hkept, hgood⟩
    · -- the last part that is there stands for one that is not
      exfalso
      rw [List.filter_append, List.filter_cons_of_neg hkept, List.filter_nil, List.append_nil,
        List.flatMap_append, List.flatMap_singleton, ← List.append_assoc] at heq
      rcases List.eq_nil_or_concat (as.filter kept) with hnil | ⟨cs, c, hconcat⟩
      · rw [hnil, List.flatMap_nil, List.append_nil, hu, ← List.append_assoc] at heq
        exact hopen (by rw [heq]; simp)
      · have hmem : c ∈ as.filter kept := by
          rw [hconcat]
          simp
        obtain ⟨hcin, hckept⟩ := List.mem_filter.mp hmem
        have hcs : (as.filter kept).flatMap frag = cs.flatMap frag ++ frag c := by
          rw [hconcat, List.concat_eq_append, List.flatMap_append, List.flatMap_singleton]
        rw [hcs, ← List.append_assoc] at heq
        refine hskip a ha c (hin c hcin) b hb hkept hckept hab _ _ ?_ heq
        have hfront : cs.filter kept = cs := by
          refine List.filter_eq_self.mpr fun d hd => ?_
          have hd' : d ∈ as.filter kept := by
            rw [hconcat]
            simp [hd]
          exact (List.mem_filter.mp hd').2
        rw [← hfront]
        refine hsharpAll cs fun d hd => hin d ?_
        have hd' : d ∈ as.filter kept := by
          rw [hconcat]
          simp [hd]
        exact (List.mem_filter.mp hd').1

end Parts

/-! ## Objects in an array -/

/-- An element of an array with the comma behind it. -/
def itemFrag (item : JsonItem JsonValue) : CStr :=
  item.pre ++ item.value.text ++ item.post ++ [comma]

theorem flatMap_itemFrag {items : List (JsonItem JsonValue)} (h : items ≠ []) :
    items.flatMap itemFrag = JsonValue.itemsText items ++ [comma] := by
  induction items with
  | nil => exact absurd rfl h
  | cons item rest ih =>
    rw [List.flatMap_cons, JsonValue.itemsText, itemFrag]
    cases rest with
    | nil => simp [separator]
    | cons item' rest =>
      rw [ih (by simp)]
      simp [separator]

theorem itemsValid_iff (items : List (JsonItem JsonValue)) :
    JsonValue.ItemsValid items ↔
      ∀ item ∈ items, White item.pre ∧ item.value.Valid ∧ White item.post := by
  induction items with
  | nil => simp [JsonValue.ItemsValid]
  | cons item rest ih =>
    rw [JsonValue.ItemsValid, ih, List.forall_mem_cons]
    simp only [and_assoc]

/-- An element is an object with these fields. -/
def HoldsAll (fields : List (CStr × Field)) (item : JsonItem JsonValue) : Prop :=
  ∃ gap members, item.value = .object gap members ∧
    List.Forall₂ (fun f m => Holds f.1 f.2 m) fields members

/-- The fields of an object, separated by commas. -/
def fieldsText (ws : List Written) : CStr := (ws.flatMap fun w => w.text ++ [comma]).dropLast

/-- An object of fields with the comma behind it. -/
def objectFrag (ws : List Written) : CStr := openBrace :: fieldsText ws ++ [closeBrace, comma]

theorem objectFrag_end (ws : List Written) : ∃ u, objectFrag ws = u ++ [comma] :=
  ⟨openBrace :: fieldsText ws ++ [closeBrace], by simp [objectFrag]⟩

theorem fieldsText_comma {ws : List Written} (h : ws ≠ []) :
    fieldsText ws ++ [comma] = ws.flatMap fun w => w.text ++ [comma] := by
  rcases List.eq_nil_or_concat ws with hnil | ⟨vs, w, rfl⟩
  · exact absurd hnil h
  · rw [fieldsText, List.concat_eq_append, List.flatMap_append, List.flatMap_singleton,
      ← List.append_assoc, List.dropLast_concat]

/-- A field that is written for one that is meant. -/
structure Part where
  written : Written
  field : Field

/-- What a field of an object is to be. -/
def Part.meant (p : Part) : CStr × Field := (p.written.key, p.field)

/-- A part that is not confused with the text around it. -/
def Part.Apart (p : Part) : Prop := White p.written.pre ∧ Candidate p.written.content p.field

/-- A part that says what it is to say. -/
def Part.Right (p : Part) : Prop := AllUnescaped p.written.key ∧ Says p.written.content p.field

/-- The last object of a text is read as it is written. -/
theorem peel_object {x y : CStr} {ps : List Part} {item : JsonItem JsonValue}
    (hne : ps ≠ []) (hapart : ∀ p ∈ ps, p.Apart) (hitem : item.value.Valid ∧ White item.pre ∧
      White item.post) (hholds : HoldsAll (ps.map Part.meant) item)
    (h : x ++ objectFrag (ps.map Part.written) = y ++ itemFrag item) :
    (∀ p ∈ ps, p.Right) ∧ Near x y := by
  obtain ⟨gap, members, hvalue, hmembers⟩ := hholds
  rw [List.forall₂_map_left_iff] at hmembers
  rw [hvalue, JsonValue.Valid, membersValid_iff] at hitem
  have hnil : White [] := by simp [White]
  have hne' : members ≠ [] := by
    rintro rfl
    exact hne (List.forall₂_nil_right_iff.mp hmembers)
  have hend : (x ++ openBrace :: fieldsText (ps.map Part.written)) ++ closeBrace :: []
      = (y ++ item.pre ++ openBrace :: (gap ++ JsonValue.membersText members))
        ++ closeBrace :: item.post := by
    refine List.append_cancel_right (?_ : _ ++ [comma] = _ ++ [comma])
    rw [objectFrag, itemFrag, hvalue, JsonValue.text] at h
    simpa using h
  obtain ⟨hfront, -, -⟩ := white_end_inj hnil hitem.2.2 (by decide) (by decide) hend
  have hfrags : (x ++ [openBrace]) ++ (ps.filter fun _ => true).flatMap
        (fun p => p.written.text ++ [comma])
      = (y ++ item.pre ++ openBrace :: gap) ++ members.flatMap memberFrag := by
    have hwritten : ps.flatMap (fun p => p.written.text ++ [comma])
        = fieldsText (ps.map Part.written) ++ [comma] := by
      rw [fieldsText_comma (by simpa using hne), List.flatMap_map]
    rw [List.filter_true, flatMap_memberFrag hne', hwritten]
    simpa using congrArg (· ++ [comma]) hfront
  have hlast : (x ++ [openBrace]).getLast? ≠ some comma := by
    rw [List.getLast?_append, List.getLast?_singleton, Option.some_or]
    decide
  obtain ⟨hright, v, w, hv, hw, hnear⟩ := peel_all (fun _ => true)
    (fun p : Part => p.written.text ++ [comma]) memberFrag
    (fun p m => Holds p.meant.1 p.meant.2 m) Part.Right
    (sharp_concat (by decide) (by decide) x)
    (fun p _ _ => sharp_concat (by decide) (by decide) _) (fun m => ⟨_, rfl⟩) hlast
    (fun p hp m hm _ hpm a b ha hab =>
      peel_field (hitem.1.2 m hm) hpm (hapart p hp).2 (hapart p hp).1 ha hab)
    (fun _ _ _ _ _ _ hfalse => absurd rfl hfalse) (List.rel_reverse hmembers)
    (by rw [hfrags]; exact Near.refl _)
  rw [List.append_assoc, List.append_assoc, List.singleton_append, List.cons_append] at hnear
  have hgap : White (gap ++ w) := fun c hc =>
    (List.mem_append.mp hc).elim (hitem.1.1 c) (hw c)
  obtain ⟨hxy, -, -⟩ := white_end_inj hv hgap (by decide) (by decide) hnear
  exact ⟨fun p hp => (hright p hp).2, [], item.pre, hnil, hitem.2.1, by
    rw [List.append_nil, hxy]⟩

/-! ## What is written right is read -/

/-- The text of a field that is a value has to be one. -/
def FieldOk : Field → Prop
  | .string _ => True
  | .json text => JsonDocument text

theorem exists_member {p : Part} (happart : p.Apart) (hright : p.Right) (hok : FieldOk p.field) :
    ∃ m, MemberValid m ∧ Holds p.meant.1 p.meant.2 m ∧
      p.written.text ++ [comma] = memberFrag m := by
  obtain ⟨⟨pre, key, content⟩, field⟩ := p
  obtain ⟨hpre, hcandidate⟩ := happart
  obtain ⟨hkey, hsays⟩ := hright
  have hnil : White [] := by simp [White]
  have hkeyText := stringText_of_unescaped hkey
  cases content with
  | string gap raw =>
    cases field with
    | json text => exact hsays.elim
    | string s =>
      refine ⟨⟨pre, key, [], gap, .string raw, []⟩, ⟨hpre, hkeyText.body, hnil, hcandidate.1, ?_,
        hnil⟩, ⟨hkeyText, raw, rfl, hsays⟩, ?_⟩
      · rw [JsonValue.Valid]
        exact StringText.body hsays
      · simp [Written.text, Content.text, memberFrag, JsonValue.text]
  | json text =>
    cases field with
    | string s => exact hsays.elim
    | json text' =>
      obtain rfl : text = text' := hsays
      obtain ⟨front, v, post, heq, hfront, hv, hpost⟩ : JsonDocument text := hok
      refine ⟨⟨pre, key, [], front, v, post⟩, ⟨hpre, hkeyText.body, hnil, hfront, hv, hpost⟩,
        ⟨hkeyText, heq⟩, ?_⟩
      simp [Written.text, Content.text, memberFrag, heq]

theorem exists_members {ps : List Part} (h : ∀ p ∈ ps, p.Apart ∧ p.Right ∧ FieldOk p.field) :
    ∃ members, (∀ m ∈ members, MemberValid m) ∧
      List.Forall₂ (fun p m => Holds (Part.meant p).1 p.meant.2 m) ps members ∧
      ps.flatMap (fun p => p.written.text ++ [comma]) = members.flatMap memberFrag := by
  induction ps with
  | nil => exact ⟨[], by simp, .nil, rfl⟩
  | cons p ps ih =>
    obtain ⟨happart, hright, hok⟩ := h p (by simp)
    obtain ⟨m, hm, hholds, htext⟩ := exists_member happart hright hok
    obtain ⟨members, hvalid, hall, htexts⟩ := ih fun q hq => h q (by simp [hq])
    exact ⟨m :: members, List.forall_mem_cons.mpr ⟨hm, hvalid⟩, .cons hholds hall, by
      rw [List.flatMap_cons, List.flatMap_cons, htext, htexts]⟩

theorem exists_item {ps : List Part} (hne : ps ≠ [])
    (h : ∀ p ∈ ps, p.Apart ∧ p.Right ∧ FieldOk p.field) :
    ∃ item, (White item.pre ∧ item.value.Valid ∧ White item.post) ∧
      HoldsAll (ps.map Part.meant) item ∧
      objectFrag (ps.map Part.written) = itemFrag item := by
  obtain ⟨members, hvalid, hall, htext⟩ := exists_members h
  have hnil : White [] := by simp [White]
  have hne' : members ≠ [] := by
    rintro rfl
    exact hne (List.forall₂_nil_right_iff.mp hall)
  refine ⟨⟨[], .object [] members, []⟩, ⟨hnil, ?_, hnil⟩, ⟨[], members, rfl, ?_⟩, ?_⟩
  · rw [JsonValue.Valid]
    exact ⟨hnil, (membersValid_iff _).mpr hvalid⟩
  · rw [List.forall₂_map_left_iff]
    exact hall
  · have hfields : fieldsText (ps.map Part.written) = JsonValue.membersText members := by
      refine List.append_cancel_right (?_ : _ ++ [comma] = _ ++ [comma])
      rw [fieldsText_comma (by simpa using hne), List.flatMap_map, htext,
        flatMap_memberFrag hne']
    rw [objectFrag, itemFrag, hfields, JsonValue.text]
    simp

end Pantavisor.Listing
