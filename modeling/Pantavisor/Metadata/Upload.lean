/-
Pantavisor.Metadata.Upload — what the upload of the device metadata sends, and
which marks it clears.

`ObjectOf es payload` says that a payload is a JSON object with a member for
each entry of `es` and no other. `picked` are the entries that the loop finds
room for, and the payload is an object of them as long as there is one, and as
long as no key that goes in as it is needs an escape.

The marks are cleared for all entries, also for those that were left out. So a
step is right as long as every marked entry is picked when the server accepts.
-/
import Mathlib.Data.List.Forall2
import Pantavisor.Metadata.Devmeta

namespace Pantavisor.Metadata

open Pantavisor.Lib Pantavisor.Json

/-! ## What a payload has in it -/

/-- The entries that wait for an upload. -/
def PvMetadata.marked (m : PvMetadata) : List PvMeta := m.devmeta.filter (·.updated)

/-- The member stands for the entry: its key is the entry's, and its value is a
string for the entry's value or, for a value that is an object, that text. -/
def MemberOf (e : PvMeta) (member : JsonMember JsonValue) : Prop :=
  StringText member.key e.key ∧
    ((∃ raw, member.value = .string raw ∧ StringText raw e.value) ∨
      e.value.head? = some openBrace ∧ e.value = member.gap' ++ member.value.text ++ member.post)

/-- A well-formed JSON object with a member for each of the entries. -/
def ObjectOf (es : List PvMeta) (payload : CStr) : Prop :=
  ∃ gap members, payload = (JsonValue.object gap members).text ∧
    (JsonValue.object gap members).Valid ∧ List.Forall₂ MemberOf es members

/-- No entry with the key is marked. -/
def Cleared (m : PvMetadata) (key : CStr) : Prop :=
  ∀ e ∈ m.devmeta, e.key = key → e.updated = false

/-- The server accepts what the call sends. -/
def Call.accepted : Call → Bool
  | .uploadDevmeta _ accepted => accepted
  | _ => false

/-- What a call has to be: it is defined, the payload is an object of marked entries, and
the mark of an entry is cleared only if the server accepts the entry in it. -/
def CallRight (size : Int) (m : PvMetadata) (call : Call) : Prop :=
  (callResult size m call).isSome ∧
  (∀ payload, sentBy size m call = some payload →
    ∃ es, es.Sublist m.marked ∧ ObjectOf es payload ∧
      ∀ e ∈ m.marked, Cleared (stepCall size m call) e.key → call.accepted ∧ e ∈ es) ∧
  (sentBy size m call = none → ∀ e ∈ m.marked, ¬ Cleared (stepCall size m call) e.key)

/-! ## What the loop picks -/

/-- An entry with something in its key and in its value. -/
def PvMeta.Sendable (e : PvMeta) : Prop := e.key ≠ [] ∧ e.value ≠ []

instance (e : PvMeta) : Decidable e.Sendable := inferInstanceAs (Decidable (_ ∧ _))

/-- An entry whose lengths are `int`s, also with all of it escaped. -/
def PvMeta.Counted (e : PvMeta) : Prop := (e.key.length + e.value.length) * 6 + 6 < 2 ^ 31

instance (e : PvMeta) : Decidable e.Counted := inferInstanceAs (Decidable (_ < _))

/-- The value is written as JSON. -/
def PvMeta.HasJson (e : PvMeta) : Prop := e.value.head? = some openBrace

instance (e : PvMeta) : Decidable e.HasJson := inferInstanceAs (Decidable (_ = _))

/-- What is written for an entry, with the comma behind it. -/
def PvMeta.frag (e : PvMeta) : CStr :=
  if e.HasJson then quoted e.key ++ colon :: (e.value ++ [comma])
  else quoted (e.key.flatMap formatChar) ++ colon ::
    (quoted (e.value.flatMap formatChar) ++ [comma])

/-- Of the entries, those that there is room for, in their order. -/
def picked (avail : Int) : List PvMeta → List PvMeta
  | [] => []
  | e :: rest =>
    if e.Sendable ∧ (e.frag.length : Int) < avail then
      e :: picked (avail - e.frag.length) rest
    else picked avail rest

theorem writeMeta_eq {b : JsonBuf} {e : PvMeta} (h : e.updated = true) (hcounted : e.Counted) :
    writeMeta b e = some (if e.Sendable ∧ (e.frag.length : Int) < b.avail
      then ⟨b.json ++ e.frag, b.avail - e.frag.length⟩ else b) := by
  obtain ⟨key, value, updated⟩ := e
  simp only at h
  subst h
  simp only [PvMeta.Counted] at hcounted
  have hq : str "\"" = [quote] := rfl
  have hqcq : str "\":\"" = [quote, colon, quote] := rfl
  have hqc : str "\":" = [quote, colon] := rfl
  have hqm : str "\"," = [quote, comma] := rfl
  have hm : str "," = [comma] := rfl
  simp only [writeMeta, Bool.not_true, Bool.false_eq_true, if_false,
    pvJsonFormatIn_length (s := key) (by omega), pvJsonFormatIn_length (s := value) (by omega)]
  by_cases hk : key = []
  · simp [hk, pvJsonFormat, PvMeta.Sendable]
  by_cases hv : value = []
  · simp [hv, pvJsonFormat, PvMeta.Sendable]
  have hsend : (⟨key, value, true⟩ : PvMeta).Sendable := ⟨hk, hv⟩
  have hkf : pvJsonFormat key = some (key.flatMap formatChar) :=
    if_pos (List.length_pos_iff.mpr hk)
  have hvf : pvJsonFormat value = some (value.flatMap formatChar) :=
    if_pos (List.length_pos_iff.mpr hv)
  simp only [hkf, hvf, hsend, true_and, JsonBuf.write, hq, hqcq, hqc, hqm, hm]
  by_cases hjson : value.head? = some openBrace
  · have hfrag : (⟨key, value, true⟩ : PvMeta).frag
        = [quote] ++ key ++ [quote, colon] ++ value ++ [comma] := by
      simp [PvMeta.frag, PvMeta.HasJson, hjson, quoted]
    have hlen : (⟨key, value, true⟩ : PvMeta).frag.length
        = key.length + value.length + 1 * 2 + 1 + 1 := by
      rw [hfrag]; simp; omega
    rw [if_neg (by simp [hjson]), hlen, hfrag]
  · have hfrag : (⟨key, value, true⟩ : PvMeta).frag
        = [quote] ++ key.flatMap formatChar ++ [quote, colon, quote]
            ++ value.flatMap formatChar ++ [quote, comma] := by
      simp [PvMeta.frag, PvMeta.HasJson, hjson, quoted]
    have hlen : (⟨key, value, true⟩ : PvMeta).frag.length
        = (key.flatMap formatChar).length + (value.flatMap formatChar).length
            + 2 * 2 + 1 + 1 := by
      rw [hfrag]; simp only [List.length_append, List.length_cons, List.length_nil]; omega
    rw [if_pos hjson, hlen, hfrag]

/-- The loop writes the entries that are picked, one behind the other: by induction on the
entries, each with the room that those before it leave. -/
theorem foldlM_writeMeta (es : List PvMeta) (b : JsonBuf)
    (hcounted : ∀ e ∈ es.filter (·.updated), e.Counted) :
    ∃ avail, es.foldlM writeMeta b
      = some ⟨b.json ++ (picked b.avail (es.filter (·.updated))).flatMap PvMeta.frag, avail⟩ := by
  induction es generalizing b with
  | nil => exact ⟨b.avail, by simp [picked]⟩
  | cons e rest ih =>
    rw [List.foldlM_cons]
    cases hup : e.updated with
    | false =>
      have hskip : writeMeta b e = some b := by simp [writeMeta, hup]
      rw [List.filter_cons_of_neg (by simp [hup])] at hcounted ⊢
      rw [hskip]
      exact ih b hcounted
    | true =>
      rw [List.filter_cons_of_pos hup] at hcounted ⊢
      obtain ⟨hhere, hrest⟩ := List.forall_mem_cons.mp hcounted
      rw [picked, writeMeta_eq hup hhere]
      by_cases hroom : e.Sendable ∧ (e.frag.length : Int) < b.avail
      · rw [if_pos hroom, if_pos hroom, List.flatMap_cons, ← List.append_assoc]
        exact ih _ hrest
      · rw [if_neg hroom, if_neg hroom]
        exact ih b hrest

theorem picked_sublist (avail : Int) (es : List PvMeta) : (picked avail es).Sublist es := by
  induction es generalizing avail with
  | nil => exact .slnil
  | cons e rest ih =>
    rw [picked]
    split
    · exact (ih _).cons_cons e
    · exact (ih _).cons e

/-- Some entry is picked exactly if one has room in the empty buffer. -/
theorem picked_ne_nil_iff (avail : Int) (es : List PvMeta) :
    picked avail es ≠ [] ↔ ∃ e ∈ es, e.Sendable ∧ (e.frag.length : Int) < avail := by
  induction es with
  | nil => simp [picked]
  | cons e rest ih =>
    rw [picked, List.exists_mem_cons_iff]
    by_cases hroom : e.Sendable ∧ (e.frag.length : Int) < avail
    · simp [hroom]
    · rw [if_neg hroom, ih]
      simp [hroom]

/-- The length of all that is written for the entries. -/
def fragsLength : List PvMeta → Nat
  | [] => 0
  | e :: rest => e.frag.length + fragsLength rest

/-- All entries are picked exactly if there is room for all of them together. -/
theorem picked_eq_self_iff {avail : Int} {es : List PvMeta} (hne : es ≠ []) :
    picked avail es = es ↔ (∀ e ∈ es, e.Sendable) ∧ (fragsLength es : Int) < avail := by
  induction es generalizing avail with
  | nil => exact absurd rfl hne
  | cons e rest ih =>
    rw [picked, List.forall_mem_cons]
    rw [fragsLength]
    have hlonger : ∀ a, picked a rest ≠ e :: rest := by
      intro a heq
      have hlen := (picked_sublist a rest).length_le
      rw [heq, List.length_cons] at hlen
      omega
    by_cases hroom : e.Sendable ∧ (e.frag.length : Int) < avail
    · rw [if_pos hroom, List.cons.injEq]
      cases rest with
      | nil => simp [picked, hroom, fragsLength]
      | cons f rest =>
        rw [ih (by simp)]
        simp only [true_and, hroom.1]
        constructor
        · rintro ⟨hall, hsum⟩
          exact ⟨hall, by omega⟩
        · rintro ⟨hall, hsum⟩
          exact ⟨hall, by omega⟩
    · rw [if_neg hroom]
      constructor
      · exact fun heq => absurd heq (hlonger avail)
      · rintro ⟨⟨hsend, -⟩, hsum⟩
        exact absurd ⟨hsend, by omega⟩ hroom

/-! ## The payload is an object -/

/-- The member of an object with the comma behind it. -/
def memberFrag (m : JsonMember JsonValue) : CStr :=
  m.pre ++ quoted m.key ++ m.gap ++ colon :: m.gap' ++ m.value.text ++ m.post ++ [comma]

theorem flatMap_memberFrag {members : List (JsonMember JsonValue)} (h : members ≠ []) :
    members.flatMap memberFrag = JsonValue.membersText members ++ [comma] := by
  induction members with
  | nil => exact absurd rfl h
  | cons m rest ih =>
    rw [List.flatMap_cons, membersText_cons, memberFrag]
    cases rest with
    | nil => simp [separator]
    | cons m' rest =>
      rw [ih (by simp)]
      simp [separator]

/-- A value that begins like an object is a JSON text. -/
def PvMeta.JsonOk (e : PvMeta) : Prop := e.HasJson → JsonDocument e.value

/-- A key that goes into the payload as it is needs no escape. -/
def PvMeta.KeyOk (e : PvMeta) : Prop := e.HasJson → ∀ c ∈ e.key, charIsJsonSpecial c = false

/-- What is written for an entry is a valid member for it. -/
theorem exists_member {e : PvMeta} (hjson : e.JsonOk) (hkey : e.KeyOk) :
    ∃ m, MemberOf e m ∧ e.frag = memberFrag m ∧ White m.pre ∧ StringBody m.key ∧ White m.gap ∧
      White m.gap' ∧ m.value.Valid ∧ White m.post := by
  have hnil : White [] := by simp [White]
  have hkeyText : StringText (e.key.flatMap formatChar) e.key := flatMap_formatChar_text e.key
  by_cases h : e.HasJson
  · obtain ⟨pre, v, post, heq, hpre, hv, hpost⟩ := hjson h
    rw [flatMap_formatChar_plain (hkey h)] at hkeyText
    refine ⟨⟨[], e.key, [], pre, v, post⟩, ⟨hkeyText, .inr ⟨h, heq⟩⟩, ?_, hnil, hkeyText.body,
      hnil, hpre, hv, hpost⟩
    simp [PvMeta.frag, if_pos h, memberFrag, heq]
  · have hvalue := flatMap_formatChar_text e.value
    refine ⟨⟨[], e.key.flatMap formatChar, [], [], .string (e.value.flatMap formatChar), []⟩,
      ⟨hkeyText, .inl ⟨_, rfl, hvalue⟩⟩, ?_, hnil, hkeyText.body, hnil, hnil, ?_, hnil⟩
    · simp [PvMeta.frag, if_neg h, memberFrag, JsonValue.text]
    · rw [JsonValue.Valid]; exact hvalue.body

theorem exists_members {es : List PvMeta} (hjson : ∀ e ∈ es, e.JsonOk)
    (hkey : ∀ e ∈ es, e.KeyOk) :
    ∃ members, List.Forall₂ MemberOf es members ∧ JsonValue.MembersValid members ∧
      es.flatMap PvMeta.frag = members.flatMap memberFrag := by
  induction es with
  | nil => exact ⟨[], .nil, trivial, rfl⟩
  | cons e rest ih =>
    obtain ⟨m, hm, hfrag, hvalid⟩ := exists_member (hjson e (by simp)) (hkey e (by simp))
    obtain ⟨members, hall, hvalids, hfrags⟩ :=
      ih (fun f hf => hjson f (by simp [hf])) (fun f hf => hkey f (by simp [hf]))
    refine ⟨m :: members, .cons hm hall, ?_, ?_⟩
    · rw [membersValid_iff, List.forall_mem_cons]
      exact ⟨hvalid, (membersValid_iff members).mp hvalids⟩
    · rw [List.flatMap_cons, List.flatMap_cons, hfrag, hfrags]

/-- The last comma gives way to the closing brace. -/
theorem devmetaJson_objectOf {size : Int} {m : PvMetadata} (hjson : ∀ e ∈ m.devmeta, e.JsonOk)
    (hcounted : ∀ e ∈ m.marked, e.Counted)
    (hkey : ∀ e ∈ picked (size - 1) m.marked, e.KeyOk) (hne : picked (size - 1) m.marked ≠ []) :
    ∃ json, devmetaJson size m.devmeta = some json ∧
      ObjectOf (picked (size - 1) m.marked) json := by
  have hmem : ∀ e ∈ picked (size - 1) m.marked, e ∈ m.devmeta := fun e he =>
    (List.mem_filter.mp ((picked_sublist _ _).subset he)).1
  obtain ⟨members, hall, hvalid, hfrags⟩ := exists_members (fun e he => hjson e (hmem e he)) hkey
  have hmembers : members ≠ [] := by
    rintro rfl
    exact hne (List.forall₂_nil_right_iff.mp hall)
  have htext : str "\x7b" ++ (picked (size - 1) m.marked).flatMap PvMeta.frag
      = openBrace :: JsonValue.membersText members ++ [comma] :=
    calc str "\x7b" ++ (picked (size - 1) m.marked).flatMap PvMeta.frag
        = openBrace :: members.flatMap memberFrag := by rw [hfrags]; rfl
      _ = openBrace :: JsonValue.membersText members ++ [comma] := by
        rw [flatMap_memberFrag hmembers, List.cons_append]
  obtain ⟨avail, hloop⟩ := foldlM_writeMeta m.devmeta ⟨str "\x7b", size - 1⟩ hcounted
  refine ⟨_, by rw [devmetaJson, hloop]; rfl, [], members, ?_, ⟨by simp [White], hvalid⟩, hall⟩
  show (str "\x7b" ++ (picked (size - 1) m.marked).flatMap PvMeta.frag).dropLast ++ [closeBrace] = _
  rw [htext, List.dropLast_concat, JsonValue.text]
  simp

/-! ## Runs of calls -/

/-- A value given to a call that begins like an object is a JSON text. -/
def ValueOk (value : CStr) : Prop := value.head? = some openBrace → JsonDocument value

/-- The values that a call brings. -/
def Call.values : Call → List CStr
  | .addDevmeta _ value => [value]
  | .initDevmeta _ readings => readings
  | .uploadDevmeta _ _ => []

/-- All entries with values that begin like an object have JSON texts. -/
def PvMetadata.JsonOk (m : PvMetadata) : Prop := ∀ e ∈ m.devmeta, e.JsonOk

/-- When an upload is right: what is marked can be formatted, something of it fits in the
buffer, no key that is written as it is needs an escape, and what the server accepts is
all that is marked. -/
def UploadFits (size : Int) (m : PvMetadata) : Call → Prop
  | .uploadDevmeta true accepted =>
    m.devmetaUploaded = false →
      (∀ e ∈ m.marked, e.Counted) ∧
      (∃ e ∈ m.marked, e.Sendable ∧ (e.frag.length : Int) < size - 1) ∧
      (∀ e ∈ picked (size - 1) m.marked, e.KeyOk) ∧
      (accepted →
        (∀ e ∈ m.marked, e.Sendable) ∧ (fragsLength m.marked : Int) < size - 1)
  | _ => True

/-! ### What adding an entry keeps -/

theorem mem_modifyByKey {key : CStr} {f : PvMeta → PvMeta} {es : List PvMeta} {e : PvMeta}
    (h : e ∈ modifyByKey key f es) : e ∈ es ∨ ∃ e' ∈ es, e'.key = key ∧ e = f e' := by
  induction es with
  | nil => simp [modifyByKey] at h
  | cons curr rest ih =>
    rw [modifyByKey] at h
    split at h
    · next hkey =>
      rcases List.mem_cons.mp h with rfl | h
      · exact .inr ⟨curr, by simp, hkey, rfl⟩
      · exact .inl (by simp [h])
    · rcases List.mem_cons.mp h with rfl | h
      · exact .inl (by simp)
      · rcases ih h with h | ⟨e', he', hkey, rfl⟩
        · exact .inl (by simp [h])
        · exact .inr ⟨e', by simp [he'], hkey, rfl⟩

/-- A write that leaves keys and marks alone leaves a marked entry with its key. -/
theorem marked_modifyByKey (key : CStr) {f : PvMeta → PvMeta} {es : List PvMeta} {e : PvMeta}
    (hf : ∀ e, (f e).key = e.key ∧ (e.updated = true → (f e).updated = true)) (he : e ∈ es)
    (hup : e.updated = true) :
    ∃ e' ∈ modifyByKey key f es, e'.key = e.key ∧ e'.updated = true := by
  induction es with
  | nil => simp at he
  | cons curr rest ih =>
    rw [modifyByKey]
    split
    · rcases List.mem_cons.mp he with rfl | he
      · exact ⟨f e, by simp, (hf e).1, (hf e).2 hup⟩
      · exact ⟨e, by simp [he], rfl, hup⟩
    · rcases List.mem_cons.mp he with rfl | he
      · exact ⟨e, by simp, rfl, hup⟩
      · obtain ⟨e', he', hkey⟩ := ih he
        exact ⟨e', by simp [he'], hkey⟩

/-- The entries that `pv_metadata_add` leaves: old ones, or with the new value. -/
theorem mem_pvMetadataAdd {head : List PvMeta} {key value : CStr} {e : PvMeta}
    (h : e ∈ (pvMetadataAdd head key value).2) : e ∈ head ∨ e.value = value := by
  rw [pvMetadataAdd] at h
  split at h
  · split at h
    · exact .inl h
    · rcases mem_modifyByKey h with h | ⟨e', -, -, rfl⟩
      · exact .inl h
      · exact .inr rfl
  · rcases List.mem_cons.mp h with rfl | h
    · exact .inr rfl
    · exact .inl h

theorem marked_pvMetadataAdd {head : List PvMeta} (key value : CStr) {e : PvMeta}
    (he : e ∈ head) (hup : e.updated = true) :
    ∃ e' ∈ (pvMetadataAdd head key value).2, e'.key = e.key ∧ e'.updated = true := by
  rw [pvMetadataAdd]
  split
  · split
    · exact ⟨e, he, rfl, hup⟩
    · exact marked_modifyByKey _ (fun _ => ⟨rfl, id⟩) he hup
  · exact ⟨e, by simp [he], rfl, hup⟩

theorem jsonOk_addDevmeta {m : PvMetadata} {key value : CStr} (hm : m.JsonOk)
    (hvalue : ValueOk value) : (pvMetadataAddDevmeta m key value).JsonOk := by
  intro e he
  simp only [pvMetadataAddDevmeta] at he
  split at he
  · have hadd : ∀ e ∈ (pvMetadataAdd m.devmeta key value).2, e.JsonOk := by
      intro e he
      rcases mem_pvMetadataAdd he with he | heq
      · exact hm e he
      · rw [PvMeta.JsonOk, PvMeta.HasJson, heq]
        exact hvalue
    rcases mem_modifyByKey he with he | ⟨e', he', -, rfl⟩
    · exact hadd e he
    · exact hadd e' he'
  · exact hm e he

/-- Adding an entry clears no mark. -/
theorem marked_addDevmeta {m : PvMetadata} (key value : CStr) {e : PvMeta}
    (he : e ∈ m.devmeta) (hup : e.updated = true) :
    ∃ e' ∈ (pvMetadataAddDevmeta m key value).devmeta, e'.key = e.key ∧ e'.updated = true := by
  simp only [pvMetadataAddDevmeta]
  split
  · obtain ⟨e', he', hkey', hup'⟩ := marked_pvMetadataAdd key value he hup
    obtain ⟨e'', he'', hkey'', hup''⟩ := marked_modifyByKey key
      (fun curr => ⟨rfl, fun _ => rfl⟩ : ∀ curr : PvMeta,
        { curr with updated := true }.key = curr.key ∧ (curr.updated = true → true = true)) he' hup'
    exact ⟨e'', he'', hkey''.trans hkey', hup''⟩
  · exact ⟨e, he, rfl, hup⟩

/-- What holds of the entries, and is kept by adding one of the readings, holds
after `pv_metadata_init_devmeta`. -/
theorem initDevmeta_induct {P : List PvMeta → Prop} {size : Option Int} {readings : List CStr}
    {m : PvMetadata}
    (hadd : ∀ m : PvMetadata, ∀ key : CStr, ∀ value ∈ readings, P m.devmeta →
      P (pvMetadataAddDevmeta m key value).devmeta)
    (hm : P m.devmeta) : P (pvMetadataInitDevmeta size readings m).devmeta := by
  have hfold : ∀ (pairs : List (CStr × CStr)) (m : PvMetadata),
      (∀ p ∈ pairs, p.2 ∈ readings) → P m.devmeta →
      P (pairs.foldl (fun m p => pvMetadataAddDevmeta m p.1 p.2) m).devmeta := by
    intro pairs
    induction pairs with
    | nil => exact fun m _ hm => hm
    | cons p rest ih =>
      intro m hpairs hm
      exact ih _ (fun q hq => hpairs q (by simp [hq])) (hadd m p.1 p.2 (hpairs p (by simp)) hm)
  cases size with
  | none => exact hm
  | some size =>
    simp only [pvMetadataInitDevmeta]
    split
    · exact hm
    · exact hfold _ m (fun p hp => (List.of_mem_zip hp).2) hm

/-! ### One call -/

theorem not_cleared {m : PvMetadata} {e : PvMeta}
    (h : ∃ e' ∈ m.devmeta, e'.key = e.key ∧ e'.updated = true) : ¬ Cleared m e.key := by
  obtain ⟨e', he', hkey, hup⟩ := h
  intro hclear
  rw [hclear e' he' hkey] at hup
  exact absurd hup (by decide)

theorem jsonOk_stepCall {size : Int} {m : PvMetadata} {call : Call} (hm : m.JsonOk)
    (hvalues : ∀ value ∈ call.values, ValueOk value) : (stepCall size m call).JsonOk := by
  cases call with
  | addDevmeta key value => exact jsonOk_addDevmeta hm (hvalues value (by simp [Call.values]))
  | initDevmeta buffer readings =>
    exact initDevmeta_induct (P := fun es => ∀ e ∈ es, e.JsonOk)
      (fun _ _ value hv hm => jsonOk_addDevmeta hm (hvalues value hv)) hm
  | uploadDevmeta buffer accepted =>
    have hupload : ∀ size accepted,
        ((pvMetadataUploadDevmeta size accepted m).getD (none, m)).2.JsonOk := by
      intro size accepted
      unfold pvMetadataUploadDevmeta
      split
      · exact hm
      · split
        · exact hm
        · cases devmetaJson _ m.devmeta with
          | none => exact hm
          | some json =>
            rw [Option.map_some, Option.getD_some]
            split
            · intro e he
              obtain ⟨e', he', rfl⟩ := List.mem_map.mp he
              exact hm e' he'
            · exact hm
    exact hupload _ accepted

/-- A call that sends nothing clears no mark. -/
theorem callRight_of_kept {size : Int} {m : PvMetadata} {call : Call}
    (hdefined : (callResult size m call).isSome) (hsent : sentBy size m call = none)
    (hkept : ∀ e ∈ m.devmeta, e.updated = true →
      ∃ e' ∈ (stepCall size m call).devmeta, e'.key = e.key ∧ e'.updated = true) :
    CallRight size m call := by
  refine ⟨hdefined, fun payload h => ?_, fun _ e he => ?_⟩
  · rw [hsent] at h
    exact absurd h (by simp)
  · obtain ⟨hmem, hup⟩ := List.mem_filter.mp he
    exact not_cleared (hkept e hmem hup)

theorem callRight_of_fits {size : Int} {m : PvMetadata} {call : Call} (hm : m.JsonOk)
    (hfits : UploadFits size m call) : CallRight size m call := by
  cases call with
  | addDevmeta key value => exact callRight_of_kept rfl rfl fun e he hup => marked_addDevmeta key value he hup
  | initDevmeta buffer readings =>
    refine callRight_of_kept rfl rfl fun e he hup => ?_
    refine initDevmeta_induct (P := fun es => ∃ e' ∈ es, e'.key = e.key ∧ e'.updated = true)
      (fun m key value _ h => ?_) ⟨e, he, rfl, hup⟩
    obtain ⟨e', he', hkey', hup'⟩ := h
    obtain ⟨e'', he'', hkey'', hup''⟩ := marked_addDevmeta key value he' hup'
    exact ⟨e'', he'', hkey''.trans hkey', hup''⟩
  | uploadDevmeta buffer accepted =>
    cases buffer with
    | false => exact callRight_of_kept rfl rfl fun e he hup => ⟨e, he, rfl, hup⟩
    | true =>
      by_cases huploaded : m.devmetaUploaded = true
      · have hidle : callResult size m (.uploadDevmeta true accepted) = some (none, m) := by
          simp [callResult, pvMetadataUploadDevmeta, huploaded]
        refine callRight_of_kept (by rw [hidle]; rfl) ?_ fun e he hup => ?_
        · simp [sentBy, hidle]
        · simpa [stepCall, hidle] using ⟨e, he, rfl, hup⟩
      · obtain ⟨hcounted, hsome, hkey, haccepted⟩ := hfits (by simpa using huploaded)
        have hne := (picked_ne_nil_iff _ _).mpr hsome
        obtain ⟨json, hjson, hobject⟩ := devmetaJson_objectOf hm hcounted hkey hne
        cases accepted with
        | false =>
          -- nothing is cleared when the server refuses
          have hstep : callResult size m (.uploadDevmeta true false) = some (some json, m) := by
            simp [callResult, pvMetadataUploadDevmeta, huploaded, hjson]
          refine ⟨by rw [hstep]; rfl, fun payload hsent => ?_, fun hsent => ?_⟩
          · obtain rfl : payload = json := by simpa [sentBy, hstep] using hsent.symm
            refine ⟨_, picked_sublist _ _, hobject, fun e he hclear => ?_⟩
            obtain ⟨hmem, hup⟩ := List.mem_filter.mp he
            refine absurd hclear (not_cleared ⟨e, ?_, rfl, hup⟩)
            simpa [stepCall, hstep] using hmem
          · simp [sentBy, hstep] at hsent
        | true =>
          have hall : picked (size - 1) m.marked = m.marked :=
            (picked_eq_self_iff (fun h => hne (by rw [h]; rfl))).mpr (haccepted rfl)
          have hstep : callResult size m (.uploadDevmeta true true) = some (some json,
              { devmeta := m.devmeta.map fun info => { info with updated := false }
                devmetaUploaded := true }) := by
            simp [callResult, pvMetadataUploadDevmeta, huploaded, hjson]
          refine ⟨by rw [hstep]; rfl, fun payload hsent => ?_, fun hsent => ?_⟩
          · obtain rfl : payload = json := by simpa [sentBy, hstep] using hsent.symm
            exact ⟨_, picked_sublist _ _, hobject, fun e he _ => ⟨rfl, hall.symm ▸ he⟩⟩
          · simp [sentBy, hstep] at hsent

/-! ### All calls -/

/-- **No update of the device metadata is lost** in a run of calls whose uploads all
fit: every payload is an object of marked entries, and a mark is cleared only when
the server has accepted the entry. -/
theorem devmeta_upload_right {size : Int} {m : PvMetadata} {calls : List Call} (hm : m.JsonOk)
    (hvalues : ∀ call ∈ calls, ∀ value ∈ call.values, ValueOk value)
    (hfits : (metadataSystem size).Along (UploadFits size) m calls) :
    (metadataSystem size).Along (CallRight size) m calls := by
  have hstep : ∀ m call, PvMetadata.JsonOk m →
      UploadFits size m call ∧ (∀ value ∈ call.values, ValueOk value) →
      PvMetadata.JsonOk ((metadataSystem size).step m call) ∧ CallRight size m call :=
    fun m call hm h => ⟨jsonOk_stepCall hm h.2, callRight_of_fits hm h.1⟩
  exact (System.along_of_invariant hstep hm (hfits.and_forall hvalues)).1

theorem devmeta_upload_right_one :
    (metadataSystem 1024).Along (CallRight 1024) ⟨[], false⟩
      [.addDevmeta (str "a") (str "1"), .uploadDevmeta true true] := by
  refine devmeta_upload_right (by simp [PvMetadata.JsonOk]) ?_ ⟨trivial, fun _ => ?_, trivial⟩
  · intro call hcall value hvalue hbrace
    simp only [List.mem_cons, List.not_mem_nil, or_false] at hcall
    rcases hcall with rfl | rfl
    · obtain rfl : value = str "1" := by simpa [Call.values] using hvalue
      exact absurd hbrace (by decide)
    · simp [Call.values] at hvalue
  · have hmarked : (stepCall 1024 ⟨[], false⟩ (.addDevmeta (str "a") (str "1"))).marked
        = [⟨str "a", str "1", true⟩] := by decide
    have hstep : (metadataSystem 1024).step ⟨[], false⟩ (.addDevmeta (str "a") (str "1"))
        = stepCall 1024 ⟨[], false⟩ (.addDevmeta (str "a") (str "1")) := rfl
    rw [hstep, hmarked]
    refine ⟨?_, ⟨⟨str "a", str "1", true⟩, by simp, by decide, by decide⟩, ?_,
      fun _ => ⟨?_, by decide⟩⟩
    · intro e he
      obtain rfl := List.mem_singleton.mp he
      decide
    · intro e he hjson
      obtain rfl := List.mem_singleton.mp ((picked_sublist _ _).subset he)
      exact absurd hjson (by decide)
    · intro e he
      obtain rfl := List.mem_singleton.mp he
      decide

/-- An empty value is left out: the payload is a lone brace, and when the server
takes it the mark is gone. -/
theorem devmeta_upload_loses_empty_value :
    ¬ ∀ (size : Int) (m : PvMetadata) (calls : List Call), m.JsonOk →
      (∀ call ∈ calls, ∀ value ∈ call.values, ValueOk value) →
      (metadataSystem size).Along (CallRight size) m calls := by
  intro hall
  have hrun := hall 1024 ⟨[], false⟩ [.addDevmeta (str "a") [], .uploadDevmeta true true]
    (by simp [PvMetadata.JsonOk]) (by simp [Call.values, ValueOk])
  obtain ⟨-, ⟨-, hsent, -⟩, -⟩ := hrun
  have hpayload : sentBy 1024 (stepCall 1024 ⟨[], false⟩ (.addDevmeta (str "a") []))
      (.uploadDevmeta true true) = some (str "\x7d") := by decide +kernel
  obtain ⟨es, -, ⟨gap, members, htext, -⟩, -⟩ := hsent _ hpayload
  rw [JsonValue.text] at htext
  exact absurd (List.cons.inj htext).1 (by decide)

end Pantavisor.Metadata
