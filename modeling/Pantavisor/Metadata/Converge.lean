/-
Pantavisor.Metadata.Converge — the user metadata under an answer that comes again.

A `CloudAnswer` is a JSON document with one string `user-meta`, a top-level key whose
value is an object. Behind two such answers in a row the entries are those of the
object, as long as the parser finds it (`getByKey_twice`), and a third changes nothing,
the files included. What comes before the parser decides whether it does: it makes a
line feed of the second half of an escaped backslash and the `n` behind it, in any
string of the answer, and the text is none that can be read (`converges_iff`).
-/
import Pantavisor.Metadata.Sync

namespace Pantavisor.Metadata

open Pantavisor.Lib Pantavisor.Json

variable {jsmn : Jsmn}

/-! ## Answers of the cloud -/

/-- An answer: its text, and its object as a text of its own. Keys and values of the
object have no backslash in them. -/
structure CloudAnswer where
  doc : ObjectDoc
  um : ObjectDoc
  bare : um.pre = [] ∧ um.post = []
  member : ∃ m ∈ doc.members, m.key = str "user-meta" ∧ m.value = um.value
  only : doc.value.parts.count (.string, str "user-meta") = 1
  distinct : um.keys.Nodup
  clean : backslash ∉ um.value.text

/-- The literal `null`. -/
def isNull : JsonValue → Bool
  | .scalar text => text = str "null"
  | _ => false

/-- The members of the object, `null` as no value. -/
def CloudAnswer.members (a : CloudAnswer) : List (CStr × Option CStr) :=
  a.um.members.map fun m => (m.key, if isNull m.value then none else some (valueText m.value))

/-- The map of the object. -/
def CloudAnswer.value (a : CloudAnswer) (key : CStr) : Option CStr := wanted a.members key

/-- Every string of the answer is as it should be behind the call: no escaped
backslash has an `n` behind it. -/
def CloudAnswer.Kept (a : CloudAnswer) : Prop :=
  ∀ raw, (JsonKind.string, raw) ∈ a.doc.value.parts → ¬ EscapedN raw

/-! ## What is found -/

/-- Two of a list with a key that is there once are the same. -/
theorem eq_of_count_one {α : Type} {f : α → CStr} {xs : List α} {k : CStr}
    (h : (xs.map f).count k = 1) {x y : α} (hx : x ∈ xs) (hy : y ∈ xs) (hkx : f x = k)
    (hky : f y = k) : x = y := by
  induction xs with
  | nil => cases hx
  | cons z xs ih =>
    rw [List.map_cons, List.count_cons] at h
    have hpos : ∀ w ∈ xs, f w = k → 0 < (xs.map f).count k := fun w hw hkw =>
      List.count_pos_iff.mpr (hkw ▸ List.mem_map_of_mem hw)
    by_cases hz : f z = k
    · -- the others have another key
      have hnone : (xs.map f).count k = 0 := by
        rw [if_pos (by simpa using hz)] at h
        omega
      have hout : ∀ w ∈ xs, f w ≠ k := fun w hw hkw => by
        have := hpos w hw hkw
        omega
      rcases List.mem_cons.mp hx with rfl | hx
      · rcases List.mem_cons.mp hy with rfl | hy
        · rfl
        · exact absurd hky (hout y hy)
      · exact absurd hkx (hout x hx)
    · rw [if_neg (by simpa using hz)] at h
      rcases List.mem_cons.mp hx with rfl | hx
      · exact absurd hkx hz
      · rcases List.mem_cons.mp hy with rfl | hy
        · exact absurd hky hz
        · exact ih h hx hy

namespace CloudAnswer

variable (a : CloudAnswer)

theorem counts :
    a.doc.keys.count (str "user-meta") = 1 ∧ OnlyKey a.doc (str "user-meta") := by
  have honly := a.only
  obtain ⟨m, hm, hkey, -⟩ := a.member
  have hmem : str "user-meta" ∈ a.doc.keys := hkey ▸ List.mem_map_of_mem hm
  have hpos := List.count_pos_iff.mpr hmem
  rw [a.doc.parts_value, List.count_cons_of_ne (by simp), count_membersParts] at honly
  rw [ObjectDoc.keys] at hpos ⊢
  have hzero : (a.doc.members.map fun m =>
      m.value.parts.count (JsonKind.string, str "user-meta")).sum = 0 := by omega
  refine ⟨by omega, fun m hm => ?_⟩
  rw [List.sum_eq_zero_iff_forall_eq_nat, List.forall_mem_map] at hzero
  exact List.count_eq_zero.mp (hzero m hm)

/-- The member that is looked up. -/
theorem find_member :
    ∃ m, a.doc.members.find? (fun m => m.key = str "user-meta") = some m ∧
      m.value = a.um.value := by
  obtain ⟨m, hm, hkey, hvalue⟩ := a.member
  cases hfind : a.doc.members.find? fun m => m.key = str "user-meta" with
  | none =>
    rw [List.find?_eq_none] at hfind
    exact absurd (decide_eq_true hkey) (hfind m hm)
  | some m' =>
    have hkey' : m'.key = str "user-meta" := by simpa using List.find?_some hfind
    obtain rfl := eq_of_count_one a.counts.1 (List.mem_of_find?_eq_some hfind) hm hkey' hkey
    exact ⟨m', rfl, hvalue⟩

theorem um_text : a.um.text = a.um.value.text := by
  rw [ObjectDoc.text, a.bare.1, a.bare.2, List.nil_append, List.append_nil]

/-- The text that is found for `user-meta`: the object as it is in the answer. -/
theorem usermetaText_eq {toks : List Tok} (h : jsmn.ReadsNewlined a.doc toks) (hkept : a.Kept) :
    usermetaText jsmn (newlines a.doc.text) = some a.um.text := by
  have hescapes := (escapesKept_iff a.doc).mpr hkept
  obtain ⟨m, hfind, hvalue⟩ := a.find_member
  have hclean : newlines (str "user-meta") = str "user-meta" := newlines_clean (by decide)
  have htext : valueText (newlined a.um.value) = a.um.value.text := by
    have hobject := newlines_value a.um.value a.um.valid []
    rw [List.append_nil, newlines_clean a.clean, newlines, List.append_nil] at hobject
    rw [hobject, newlined_object, valueText]
    simp
  rw [usermetaText, h.parse hescapes, Option.getD_some,
    pvJsonGetValue_newlined (h.spans hescapes) (by decide) hclean a.counts.2, hfind,
    Option.map_some, hvalue, htext, a.um_text]

/-- With an escape that is not right, nothing is found. -/
theorem usermetaText_none {toks : List Tok} (h : jsmn.ReadsNewlined a.doc toks)
    (hkept : ¬ a.Kept) : usermetaText jsmn (newlines a.doc.text) = none := by
  have hescapes : ¬ EscapesKept a.doc := fun he => hkept ((escapesKept_iff a.doc).mp he)
  rw [usermetaText, h.reject hescapes, Option.getD_none]
  rfl

/-- The members of the object, as the loop goes through them. -/
theorem usermetaMembers_eq {toks : List Tok} (h : jsmn.Reads a.um toks) :
    usermetaMembers jsmn a.um.text = some a.members := by
  have hmember : ∀ k m, MemberAt a.um.text toks k m → usermetaMember a.um.text toks k
      = some (m.key, if isNull m.value then none else some (valueText m.value)) := by
    rintro k ⟨pre, mkey, gap, gap', mvalue, post⟩ ⟨key, value, hkey, hvalue, hkeyReads, hvalueReads⟩
    have htype : value.type = tokType (valueKind mvalue) := congrArg Prod.fst hvalueReads.1
    have hnull : (value.type ≠ .primitive ∨ valueText mvalue ≠ str "null") ↔
        ¬ isNull mvalue = true := by
      rw [htype]
      cases mvalue with
      | scalar text => simp [valueKind, tokType, isNull, valueText, JsonValue.text]
      | string raw => simp [valueKind, tokType, isNull]
      | array gap items => simp [valueKind, tokType, isNull]
      | object gap members => simp [valueKind, tokType, isNull]
    simp only [usermetaMember, hkey, hvalue, Option.bind_eq_bind, Option.bind_some,
      tokText_of_reads hkeyReads, tokText_of_reads hvalueReads, hnull, ite_not]
    rfl
  simp only [usermetaMembers, h.parse, h.keys, Option.bind_eq_bind, Option.bind_some]
  exact mapM_of_forall₂ (h.memberAt.imp fun k m => hmember k m)

theorem keys_members : a.members.map (·.1) = a.um.keys := by
  rw [members, List.map_map, ObjectDoc.keys]
  rfl

/-- What the parser finds is added, and the sweep is behind it. -/
theorem sync_kept {toks toks' : List Tok} (h : jsmn.ReadsNewlined a.doc toks)
    (hum : jsmn.Reads a.um toks') (hkept : a.Kept) (m : PvUsermeta) :
    pvMetadataParseUsermeta jsmn m a.doc.text = some (usermetaClear (addMembers m a.members)) := by
  rw [parseUsermeta_newlines, pvUsermetaParse, a.usermetaText_eq h hkept]
  simp only [a.usermetaMembers_eq hum, Option.map_some]

/-- The object wants nothing exactly if all its members are `null`. -/
theorem value_none_iff : (∀ key, a.value key = none) ↔ ∀ m ∈ a.um.members, isNull m.value := by
  constructor
  · intro h m hm
    have hkeys : (a.um.members.map (·.key)).Nodup := a.distinct
    have hfind : a.um.members.find? (fun m' => m'.key = m.key) = some m := by
      cases hfind : a.um.members.find? fun m' => m'.key = m.key with
      | none =>
        rw [List.find?_eq_none] at hfind
        exact absurd (decide_eq_true rfl) (hfind m hm)
      | some m' =>
        have hkey : m'.key = m.key := by simpa using List.find?_some hfind
        have hcount := List.count_eq_one_of_mem hkeys (List.mem_map_of_mem hm)
        rw [eq_of_count_one hcount (List.mem_of_find?_eq_some hfind) hm hkey rfl]
    have hnone := h m.key
    rw [value, wanted, members, List.find?_map, Function.comp_def] at hnone
    simp only [hfind, Option.map_some, Option.bind_some] at hnone
    by_contra hnull
    rw [if_neg hnull] at hnone
    cases hnone
  · intro h key
    rw [value, wanted, members, List.find?_map, Function.comp_def]
    cases hfind : a.um.members.find? fun m => m.key = key with
    | none => simp
    | some m => simp [h m (List.mem_of_find?_eq_some hfind)]

end CloudAnswer

/-! ## One answer, and one more -/

/-- What an answer adds. -/
def addedMembers (jsmn : Jsmn) (body : CStr) : List (CStr × Option CStr) :=
  ((usermetaText jsmn (newlines body)).bind (usermetaMembers jsmn)).getD []

/-- No key is there twice, after any of the additions and after any round of the
sweep. -/
def UniqueThrough (jsmn : Jsmn) (m : PvUsermeta) (body : CStr) : Prop :=
  (∀ k, Unique (addMembers m ((addedMembers jsmn body).take k)).usermeta) ∧
    ∀ k, Unique ((usermetaClearFrom ⟨[], (addMembers m (addedMembers jsmn body)).fs⟩
        ((addMembers m (addedMembers jsmn body)).usermeta.take k)).usermeta ++
      (addMembers m (addedMembers jsmn body)).usermeta.drop k)

theorem uniqueThrough {m : PvUsermeta} (h : Unique m.usermeta) (body : CStr) :
    UniqueThrough jsmn m body :=
  ⟨fun _ => unique_addMembers h _, fun k => unique_clearFrom (unique_addMembers h _) _ k⟩

/-- Two answers in a row leave the map of the object, with no key there twice on the
way, and any further one leaves all as it is. -/
def Converges (jsmn : Jsmn) (m : PvUsermeta) (a : CloudAnswer) : Prop :=
  ∃ m₁ m₂, pvMetadataParseUsermeta jsmn m a.doc.text = some m₁ ∧
    pvMetadataParseUsermeta jsmn m₁ a.doc.text = some m₂ ∧
    (∀ key, m₂.value key = a.value key) ∧
    UniqueThrough jsmn m a.doc.text ∧ UniqueThrough jsmn m₁ a.doc.text ∧
    pvMetadataParseUsermeta jsmn m₂ a.doc.text = some m₂

variable {members : List (CStr × Option CStr)}

/-- **One answer**: the keys of the object have its values, and of the others those
are left that had a mark. No entry has one now. -/
theorem getByKey_sync {m : PvUsermeta} (hm : Unique m.usermeta) (h : (members.map (·.1)).Nodup)
    (k : CStr) :
    pvMetadataGetByKey (usermetaClear (addMembers m members)).usermeta k
      = ((wanted members k).map fun value => ⟨k, value, false⟩).or
          (((pvMetadataGetByKey m.usermeta k).filter (·.updated)).map PvMeta.unmarked) := by
  rw [getByKey_clear (unique_addMembers hm members), getByKey_addMembers h]
  cases wanted members k with
  | none => simp
  | some value => simp [Option.filter, PvMeta.unmarked]

/-- **Two answers**: the keys of the object, and no other. -/
theorem getByKey_twice {m : PvUsermeta} (hm : Unique m.usermeta) (h : (members.map (·.1)).Nodup)
    (k : CStr) :
    pvMetadataGetByKey
        (usermetaClear (addMembers (usermetaClear (addMembers m members)) members)).usermeta k
      = (wanted members k).map fun value => ⟨k, value, false⟩ := by
  have hfirst := unique_clear (unique_addMembers hm members)
  rw [getByKey_sync hfirst h, getByKey_sync hm h]
  cases wanted members k with
  | some value => simp
  | none =>
    cases pvMetadataGetByKey m.usermeta k with
    | none => rfl
    | some e => by_cases hup : e.updated = true <;> simp [Option.filter, hup, PvMeta.unmarked]

/-- Additions of values that are there change no key and no file. -/
theorem addMembers_same {m : PvUsermeta}
    (h : ∀ member ∈ members, ∀ value, member.2 = some value → m.value member.1 = some value) :
    (addMembers m members).usermeta.map (·.key) = m.usermeta.map (·.key) ∧
      (addMembers m members).fs = m.fs := by
  induction members generalizing m with
  | nil => exact ⟨rfl, rfl⟩
  | cons member members ih =>
    obtain ⟨key, value⟩ := member
    rw [List.forall_mem_cons] at h
    rw [addMembers_cons]
    cases value with
    | none => exact ih h.2
    | some value =>
      have hvalue : m.value key = some value := h.1 value rfl
      have hmem : key ∈ m.usermeta.map (·.key) := by
        by_contra hnot
        rw [PvUsermeta.value, getByKey_eq_none.mpr hnot] at hvalue
        cases hvalue
      have hsame : ∀ k, (pvMetadataAddUsermeta m key (some value)).2.value k = m.value k := by
        intro k
        rw [value_addUsermeta]
        split
        · next hk => rw [hk, hvalue]
        · rfl
      have hrest := ih (m := (pvMetadataAddUsermeta m key (some value)).2)
        fun member hmember v hv => (hsame member.1).trans (h.2 member hmember v hv)
      rw [keys_addUsermeta, if_pos hmem, fs_addUsermeta, if_pos hvalue] at hrest
      exact hrest

/-- The value that an object with distinct keys wants a key of it to be. -/
theorem wanted_of_mem (h : (members.map (·.1)).Nodup) {member : CStr × Option CStr}
    (hmember : member ∈ members) : wanted members member.1 = member.2 := by
  rw [wanted]
  cases hfind : members.find? fun member' => member'.1 = member.1 with
  | none =>
    rw [List.find?_eq_none] at hfind
    exact absurd (decide_eq_true rfl) (hfind member hmember)
  | some member' =>
    have hkey : member'.1 = member.1 := by simpa using List.find?_some hfind
    have hcount := List.count_eq_one_of_mem h (List.mem_map.mpr ⟨member, hmember, rfl⟩)
    rw [eq_of_count_one hcount (List.mem_of_find?_eq_some hfind) hmember hkey rfl,
      Option.bind_some]

/-- **One more answer** changes nothing where the keys of the object, and no other,
are there without marks. -/
theorem sync_again {m : PvUsermeta} (hm : Unique m.usermeta) (h : (members.map (·.1)).Nodup)
    (hvalues : ∀ k, pvMetadataGetByKey m.usermeta k
      = (wanted members k).map fun value => ⟨k, value, false⟩) :
    usermetaClear (addMembers m members) = m := by
  have hthere : ∀ member ∈ members, ∀ value, member.2 = some value →
      m.value member.1 = some value := by
    intro member hmember value hvalue
    rw [PvUsermeta.value, hvalues, wanted_of_mem h hmember, hvalue]
    rfl
  obtain ⟨hkeys, hfs⟩ := addMembers_same hthere
  have hunique := unique_addMembers hm members
  -- every entry has been added
  have hmarked : ∀ e ∈ (addMembers m members).usermeta, e.updated = true := by
    intro e he
    have hfound := getByKey_of_mem hunique he
    rw [getByKey_addMembers h, hvalues] at hfound
    cases hwanted : wanted members e.key with
    | none => simp [hwanted] at hfound
    | some value =>
      simp only [hwanted, Option.map_some, Option.some_or, Option.some.injEq] at hfound
      rw [← hfound]
  have hkeys' : (usermetaClear (addMembers m members)).usermeta.map (·.key)
      = m.usermeta.map (·.key) := by
    rw [usermetaClear_eq hunique, List.filter_eq_self.mpr hmarked, ← hkeys, List.map_map]
    rfl
  have hentries := ext_of_getByKey hm hkeys' fun k => by
    rw [getByKey_sync hm h, hvalues]
    cases wanted members k <;> simp
  exact eq_of_parts hentries ((clear_of_marked hunique hmarked).trans hfs)

/-- An object of one key. -/
def umDoc : ObjectDoc where
  pre := []
  gap := []
  members := [⟨[], str "k", [], [], .string (str "v"), []⟩]
  post := []
  white := white_nils
  valid := by
    rw [JsonValue.Valid, membersValid_iff]
    refine ⟨by decide, fun m hm => ?_⟩
    obtain rfl := List.mem_singleton.mp hm
    exact ⟨by decide, stringBody_of_unescaped (by decide), by decide, by decide,
      (by rw [JsonValue.Valid]; exact stringBody_of_unescaped (by decide)), by decide⟩

/-- An answer with that object, and a nick name with the text `raw` in front of it. -/
def nickDoc (raw : CStr) (h : StringBody raw) : ObjectDoc where
  pre := []
  gap := []
  members := [⟨[], str "nick", [], [], .string raw, []⟩,
    ⟨[], str "user-meta", [], [], umDoc.value, []⟩]
  post := []
  white := white_nils
  valid := by
    rw [JsonValue.Valid, membersValid_iff]
    refine ⟨by decide, ?_⟩
    rw [List.forall_mem_cons, List.forall_mem_singleton]
    have hnil : White [] := by decide
    have hnick : AllUnescaped (str "nick") := by decide
    have hkey : AllUnescaped (str "user-meta") := by decide
    refine ⟨⟨hnil, stringBody_of_unescaped hnick, hnil, hnil, ?_, hnil⟩,
      hnil, stringBody_of_unescaped hkey, hnil, hnil, umDoc.valid, hnil⟩
    rw [JsonValue.Valid]
    exact h

theorem nickDoc_parts (raw : CStr) (h : StringBody raw) :
    (nickDoc raw h).value.parts
      = [(.object, (nickDoc raw h).value.text), (.string, str "nick"), (.string, raw),
        (.string, str "user-meta"), (.object, umDoc.value.text), (.string, str "k"),
        (.string, str "v")] := by
  rw [ObjectDoc.parts_value, membersParts_eq]
  simp only [nickDoc, List.flatMap_cons, List.flatMap_nil, JsonValue.parts, umDoc, ObjectDoc.value,
    membersParts_eq, List.cons_append, List.nil_append]

def nickAnswer (raw : CStr) (h : StringBody raw) (hraw : raw ≠ str "user-meta") : CloudAnswer where
  doc := nickDoc raw h
  um := umDoc
  bare := ⟨rfl, rfl⟩
  member := ⟨⟨[], str "user-meta", [], [], umDoc.value, []⟩, by simp [nickDoc], rfl, rfl⟩
  only := by
    rw [nickDoc_parts]
    have hnick : str "nick" ≠ str "user-meta" := by decide
    have hk : str "k" ≠ str "user-meta" := by decide
    have hv : str "v" ≠ str "user-meta" := by decide
    simp [hraw, hnick, hk, hv]
  distinct := by decide
  clean := by decide +kernel

theorem nickDoc_kept_iff {raw : CStr} (h : StringBody raw) :
    EscapesKept (nickDoc raw h) ↔ ¬ EscapedN raw := by
  have hnick : ¬ EscapedN (str "nick") := not_escapedN (by decide)
  have hkey : ¬ EscapedN (str "user-meta") := not_escapedN (by decide)
  have hk : ¬ EscapedN (str "k") := not_escapedN (by decide)
  have hv : ¬ EscapedN (str "v") := not_escapedN (by decide)
  rw [escapesKept_iff, nickDoc_parts]
  simp [hnick, hkey, hk, hv]

theorem umDoc_reads :
    checkedTokenizer.Reads umDoc [⟨.object, 0, 9, 1⟩, ⟨.string, 2, 3, 0⟩, ⟨.string, 6, 7, 0⟩] := by
  refine ⟨?_, ?_, ?_⟩ <;> decide +kernel

theorem plainNick : StringBody (str "n") := stringBody_of_unescaped (by decide)

/-- An escaped backslash and an `n`. -/
theorem escapedNick : StringBody [backslash, backslash, letterN] :=
  .escape rfl (.plain (by decide) .nil)

end Pantavisor.Metadata
