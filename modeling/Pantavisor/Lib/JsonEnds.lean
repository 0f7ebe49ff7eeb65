/-
Pantavisor.Lib.JsonEnds — JSON texts read from their ends.

A text that was put together from strings is a JSON text for what went in only if every part
of it is where the grammar has it. That is seen from the end of the text: white space there
is told apart from what is not (`white_end_inj`), a quote inside a string has a backslash
before it (`StringBody.before_quote`), and so a string begins where it was put
(`quoted_end_inj`), which nothing in front of it can change.

The last byte of a value tells an object from the other kinds (`JsonValue.text_last`).
-/
import Mathlib.Data.List.Basic
import Pantavisor.Lib.JsonValue

namespace Pantavisor.Lib

/-! ## White space at the end -/

/-- A byte of white space. -/
def WhiteByte (c : UInt8) : Prop := c = 32 ∨ c = 9 ∨ c = 10 ∨ c = 13

instance (c : UInt8) : Decidable (WhiteByte c) := inferInstanceAs (Decidable (_ ∨ _ ∨ _ ∨ _))

theorem white_front_inj {a b : CStr} {c d : UInt8} {v w : CStr} (hv : ∀ x ∈ v, WhiteByte x)
    (hw : ∀ x ∈ w, WhiteByte x) (hc : ¬ WhiteByte c) (hd : ¬ WhiteByte d)
    (h : v ++ c :: a = w ++ d :: b) : v = w ∧ c = d ∧ a = b := by
  induction v generalizing w with
  | nil =>
    cases w with
    | nil =>
      obtain ⟨hcd, hab⟩ := List.cons.inj h
      exact ⟨rfl, hcd, hab⟩
    | cons x w => exact absurd ((List.cons.inj h).1 ▸ hw x (List.mem_cons_self ..)) hc
  | cons x v ih =>
    cases w with
    | nil => exact absurd ((List.cons.inj h).1 ▸ hv x (List.mem_cons_self ..)) hd
    | cons y w =>
      obtain ⟨rfl, hrest⟩ := List.cons.inj h
      obtain ⟨rfl, htail⟩ := ih (fun z hz => hv z (List.mem_cons_of_mem _ hz))
        (fun z hz => hw z (List.mem_cons_of_mem _ hz)) hrest
      exact ⟨rfl, htail⟩

/-- The white space at the end of a text is told apart from what is before it. -/
theorem white_end_inj {a b : CStr} {c d : UInt8} {v w : CStr} (hv : White v) (hw : White w)
    (hc : ¬ WhiteByte c) (hd : ¬ WhiteByte d) (h : a ++ c :: v = b ++ d :: w) :
    a = b ∧ c = d ∧ v = w := by
  have hrev := congrArg List.reverse h
  simp only [List.reverse_append, List.reverse_cons, List.append_assoc, List.singleton_append]
    at hrev
  obtain ⟨hvw, hcd, hab⟩ := white_front_inj (fun x hx => hv x (List.mem_reverse.mp hx))
    (fun x hx => hw x (List.mem_reverse.mp hx)) hc hd hrev
  exact ⟨List.reverse_inj.mp hab, hcd, List.reverse_inj.mp hvw⟩

/-! ## Strings at the end -/

theorem split_of_quote_free {u raw z w : CStr} (hu : quote ∉ u)
    (h : u ++ raw = z ++ quote :: w) : ∃ z', z = u ++ z' ∧ raw = z' ++ quote :: w := by
  rcases List.append_eq_append_iff.mp h with ⟨z', rfl, hz⟩ | ⟨z', rfl, hz⟩
  · exact ⟨z', rfl, hz⟩
  · cases z' with
    | nil => exact ⟨[], by simp, hz.symm⟩
    | cons c z' => exact absurd (by rw [(List.cons.inj hz).1]; simp) hu

/-- A quote inside a string has a backslash before it. -/
theorem StringBody.before_quote {raw z w : CStr} (h : StringBody raw)
    (heq : raw = z ++ quote :: w) : z.getLast? = some backslash := by
  have hskip : ∀ {u z : CStr}, z.getLast? = some backslash →
      (u ++ z).getLast? = some backslash := by
    intro u z hz
    rw [List.getLast?_append, hz, Option.some_or]
  induction h generalizing z with
  | nil => simp at heq
  | @plain c raw hc _ ih =>
    obtain ⟨z', rfl, hz⟩ := split_of_quote_free (u := [c])
      (by simpa using Ne.symm hc.2.1) heq
    exact hskip (ih hz)
  | @escape c d raw hc _ ih =>
    by_cases hq : c = quote
    · obtain ⟨z', rfl, hz⟩ := split_of_quote_free (u := [backslash]) (by decide) heq
      cases z' with
      | nil => rfl
      | cons e z' =>
        obtain ⟨-, hrest⟩ := List.cons.inj hz
        exact hskip (u := [backslash, e]) (ih hrest)
    · obtain ⟨z', rfl, hz⟩ := split_of_quote_free (u := [backslash, c])
        (by simpa using ⟨by decide, Ne.symm hq⟩) heq
      exact hskip (ih hz)
  | @unicode a b c d raw ha hb hc hd _ ih =>
    have hdigit : ∀ {x : UInt8}, (hexDigit x).isSome → quote ≠ x := by
      rintro x hx rfl
      exact absurd hx (by decide)
    have hfree : quote ∉ [backslash, 117, a, b, c, d] := by
      simp only [List.mem_cons, List.not_mem_nil, or_false, not_or]
      exact ⟨by decide, by decide, hdigit ha, hdigit hb, hdigit hc, hdigit hd⟩
    obtain ⟨z', rfl, hz⟩ := split_of_quote_free hfree heq
    exact hskip (ih hz)

/-- A string at the end of a text is the one that was put there: it has no quote in it, or it is
no longer than what it is read as. -/
theorem quoted_end_inj {x y f raw : CStr} (hx : x.getLast? ≠ some backslash)
    (hraw : StringBody raw) (hf : quote ∉ f ∨ f.length ≤ raw.length)
    (h : x ++ quoted f = y ++ quoted raw) : raw = f ∧ x = y := by
  have h : x ++ quote :: f = y ++ quote :: raw := by
    rw [quoted, quoted, ← List.cons_append, ← List.cons_append, ← List.append_assoc,
      ← List.append_assoc] at h
    exact List.append_cancel_right h
  rcases List.append_eq_append_iff.mp h with ⟨z, rfl, hz⟩ | ⟨z, rfl, hz⟩
  · cases z with
    | nil => exact ⟨((List.cons.inj hz).2).symm, (List.append_nil x).symm⟩
    | cons c z =>
      -- what was put there would go on before its quote
      have hfz : f = z ++ quote :: raw := (List.cons.inj hz).2
      rcases hf with hno | hle
      · exact absurd (by simp [hfz]) hno
      · rw [hfz, List.length_append, List.length_cons] at hle
        omega
  · cases z with
    | nil => exact ⟨(List.cons.inj hz).2, List.append_nil y⟩
    | cons c z =>
      obtain ⟨rfl, hrest⟩ := List.cons.inj hz
      have hback := hraw.before_quote hrest
      refine absurd ?_ hx
      rw [List.getLast?_append, List.getLast?_cons, hback]
      rfl

/-! ## What a string stands for -/

theorem StringText.length_le {raw s : CStr} (h : StringText raw s) : s.length ≤ raw.length := by
  induction h with
  | nil => exact le_refl 0
  | plain _ _ ih => exact Nat.succ_le_succ ih
  | escape _ _ ih =>
    simp only [List.length_cons]
    omega
  | unicode _ _ _ _ _ ih =>
    simp only [List.length_cons]
    omega

/-- A string that is its own text has nothing to escape. -/
theorem StringText.unescaped {s : CStr} (h : StringText s s) : AllUnescaped s := by
  have hall : ∀ {raw t : CStr}, StringText raw t → raw.length ≤ t.length → AllUnescaped raw := by
    intro raw t h
    induction h with
    | nil => exact fun _ _ hc => absurd hc List.not_mem_nil
    | plain hc _ ih =>
      intro hlen
      exact List.forall_mem_cons.mpr ⟨hc, ih (Nat.le_of_succ_le_succ hlen)⟩
    | escape _ h _ =>
      intro hlen
      have hle := h.length_le
      simp only [List.length_cons] at hlen
      omega
    | unicode _ _ _ _ h _ =>
      intro hlen
      have hle := h.length_le
      simp only [List.length_cons] at hlen
      omega
  exact hall h (le_refl _)

theorem stringText_of_unescaped {s : CStr} (h : AllUnescaped s) : StringText s s := by
  induction s with
  | nil => exact .nil
  | cons c s ih =>
    have hall := List.forall_mem_cons.mp h
    exact .plain hall.1 (ih hall.2)

/-- A string stands for one text. -/
theorem StringText.unique {raw s t : CStr} (hs : StringText raw s) (ht : StringText raw t) :
    s = t := by
  have hback : ∀ {c : UInt8}, Unescaped c → c ≠ backslash := fun hc => hc.2.2
  have hnone : shortEscape 117 = none := by decide
  induction hs generalizing t with
  | nil =>
    cases ht
    rfl
  | plain hc _ ih =>
    cases ht with
    | plain _ ht => rw [ih ht]
    | escape _ _ => exact absurd rfl (hback hc)
    | unicode _ _ _ _ _ => exact absurd rfl (hback hc)
  | escape hc _ ih =>
    cases ht with
    | plain hc' _ => exact absurd rfl (hback hc')
    | escape hc' ht => rw [ih ht, Option.some.inj (hc.symm.trans hc')]
    | unicode _ _ _ _ _ => cases hnone.symm.trans hc
  | unicode ha hb hc _ _ ih =>
    cases ht with
    | plain hc' _ => exact absurd rfl (hback hc')
    | escape hc' _ => cases hnone.symm.trans hc'
    | unicode ha' hb' hc' _ ht =>
      have hhigh := Option.some.inj (ha.symm.trans ha')
      have hlow := Option.some.inj (hb.symm.trans hb')
      rw [ih ht, UInt8.toNat_inj.mp (hc.trans (by rw [hhigh, hlow, hc']))]

/-! ## The end of a value -/

/-- The bytes of numbers and literals. -/
theorem ScalarText.bytes {s : CStr} (h : ScalarText s) :
    s ≠ [] ∧ ∀ c ∈ s, 43 ≤ c ∧ c ≤ 122 := by
  have hdigits : ∀ {ds : CStr}, Digits ds → ∀ c ∈ ds, 43 ≤ c ∧ c ≤ 122 := by
    intro ds hds c hc
    obtain ⟨hlow, hhigh⟩ := hds.2 c hc
    exact ⟨UInt8.le_trans (by decide +kernel) hlow, UInt8.le_trans hhigh (by decide +kernel)⟩
  rcases h with rfl | rfl | rfl | ⟨sign, int, frac, exp, rfl, hsign, hint, hfrac, hexp⟩
  · decide +kernel
  · decide +kernel
  · decide +kernel
  · have hsignBytes : ∀ c ∈ sign, 43 ≤ c ∧ c ≤ 122 := by
      rcases hsign with rfl | rfl <;> decide +kernel
    have hfracBytes : ∀ c ∈ frac, 43 ≤ c ∧ c ≤ 122 := by
      rcases hfrac with rfl | ⟨ds, rfl, hds⟩
      · decide +kernel
      · exact List.forall_mem_cons.mpr ⟨by decide +kernel, hdigits hds⟩
    have hexpBytes : ∀ c ∈ exp, 43 ≤ c ∧ c ≤ 122 := by
      rcases hexp with rfl | ⟨e, sign', ds, rfl, he, hsign', hds⟩
      · decide +kernel
      · have he' : 43 ≤ e ∧ e ≤ 122 := by rcases he with rfl | rfl <;> decide +kernel
        have hsign'' : ∀ c ∈ sign', 43 ≤ c ∧ c ≤ 122 := by
          rcases hsign' with rfl | rfl | rfl <;> decide +kernel
        refine List.forall_mem_cons.mpr ⟨he', fun c hc => ?_⟩
        rcases List.mem_append.mp hc with hc | hc
        · exact hsign'' c hc
        · exact hdigits hds c hc
    refine ⟨by simp [hint.1.1], fun c hc => ?_⟩
    simp only [List.mem_append] at hc
    rcases hc with ((hc | hc) | hc) | hc
    · exact hsignBytes c hc
    · exact hdigits hint.1 c hc
    · exact hfracBytes c hc
    · exact hexpBytes c hc

/-- The last byte of a value is no white space and opens nothing, and a brace is that of an
object. -/
theorem JsonValue.text_last {v : JsonValue} (h : v.Valid) :
    ∃ u e, v.text = u ++ [e] ∧ ¬ WhiteByte e ∧ e ≠ openBrace ∧
      (e = closeBrace → ∃ gap members, v = .object gap members) := by
  cases v with
  | scalar s =>
    rw [JsonValue.Valid] at h
    obtain ⟨hne, hbytes⟩ := h.bytes
    have hlast := hbytes _ (List.getLast_mem hne)
    have hrange : 43 ≤ (s.getLast hne).toNat ∧ (s.getLast hne).toNat ≤ 122 :=
      ⟨UInt8.le_iff_toNat_le.mp hlast.1, UInt8.le_iff_toNat_le.mp hlast.2⟩
    refine ⟨s.dropLast, s.getLast hne, ?_, ?_, ?_, ?_⟩
    · rw [JsonValue.text, List.dropLast_append_getLast]
    · rintro (heq | heq | heq | heq) <;> rw [heq] at hrange <;> exact absurd hrange (by decide)
    · intro heq
      rw [heq] at hrange
      exact absurd hrange (by decide)
    · intro heq
      rw [heq] at hrange
      exact absurd hrange (by decide)
  | string raw =>
    refine ⟨quote :: raw, quote, ?_, by decide, by decide, fun heq => absurd heq (by decide)⟩
    rw [JsonValue.text, quoted, List.cons_append]
  | array gap items =>
    refine ⟨openBracket :: (gap ++ JsonValue.itemsText items), closeBracket, ?_, by decide,
      by decide, fun heq => absurd heq (by decide)⟩
    rw [JsonValue.text, List.cons_append]
  | object gap members =>
    refine ⟨openBrace :: (gap ++ JsonValue.membersText members), closeBrace, ?_, by decide,
      by decide, fun _ => ⟨gap, members, rfl⟩⟩
    rw [JsonValue.text, List.cons_append]

/-- A text that begins like an object ends like one. -/
theorem JsonDocument.brace_end {s : CStr} (h : JsonDocument s) (hhead : s.head? = some openBrace) :
    ∃ z post, s = z ++ closeBrace :: post ∧ White post := by
  obtain ⟨pre, v, post, rfl, hpre, hv, hpost⟩ := h
  have hnone : pre = [] := by
    cases pre with
    | nil => rfl
    | cons c pre =>
      have hc := hpre c (List.mem_cons_self ..)
      rw [List.append_assoc, List.cons_append, List.head?_cons, Option.some.injEq] at hhead
      rw [hhead] at hc
      exact absurd hc (by decide)
  obtain ⟨d, t, hfirst⟩ : ∃ d t, v.text = d :: t := by
    obtain ⟨u, e, hu, -⟩ := JsonValue.text_last hv
    rw [hu]
    exact List.exists_cons_of_ne_nil (by simp)
  rw [hnone, List.nil_append, hfirst, List.cons_append, List.head?_cons, Option.some.injEq] at hhead
  cases v with
  | scalar s =>
    rw [JsonValue.Valid] at hv
    rw [JsonValue.text] at hfirst
    have hbyte := hv.bytes.2 d (by rw [hfirst]; exact List.mem_cons_self ..)
    rw [hhead] at hbyte
    exact absurd hbyte (by decide)
  | string raw =>
    rw [JsonValue.text, quoted] at hfirst
    exact absurd ((List.cons.inj hfirst).1.trans hhead) (by decide)
  | array gap items =>
    rw [JsonValue.text] at hfirst
    exact absurd ((List.cons.inj hfirst).1.trans hhead) (by decide)
  | object gap members =>
    refine ⟨pre ++ openBrace :: (gap ++ JsonValue.membersText members), post, ?_, hpost⟩
    rw [JsonValue.text]
    simp

/-! ## No text has a terminator in it -/

theorem white_noNul {s : CStr} (h : White s) : NulFree s := fun hmem =>
  absurd (h 0 hmem) (by decide)

theorem StringBody.noNul {raw : CStr} (h : StringBody raw) : NulFree raw := by
  have hdigit : ∀ {x : UInt8}, (hexDigit x).isSome → (0 : UInt8) ≠ x := by
    rintro x hx rfl
    exact absurd hx (by decide)
  induction h with
  | nil => exact List.not_mem_nil
  | plain hc _ ih =>
    refine List.not_mem_cons_of_ne_of_not_mem ?_ ih
    rintro rfl
    exact absurd hc (by decide)
  | @escape c d raw hc _ ih =>
    refine List.not_mem_cons_of_ne_of_not_mem (by decide)
      (List.not_mem_cons_of_ne_of_not_mem ?_ ih)
    rintro rfl
    have hnone : shortEscape 0 = none := by decide
    cases hnone.symm.trans hc
  | unicode ha hb hc hd _ ih =>
    simp only [NulFree, List.mem_cons, not_or]
    exact ⟨by decide, by decide, hdigit ha, hdigit hb, hdigit hc, hdigit hd, ih⟩

theorem quoted_noNul {raw : CStr} (h : StringBody raw) : NulFree (quoted raw) := by
  simp only [NulFree, quoted, List.mem_cons, List.mem_append, List.not_mem_nil, or_false, not_or]
  exact ⟨by decide, h.noNul, by decide⟩

theorem separator_noNul {α : Type} (rest : List α) {text : CStr} (h : NulFree text) :
    NulFree (separator rest text) := by
  rw [separator]
  split
  · exact List.not_mem_nil
  · exact List.not_mem_cons_of_ne_of_not_mem (by decide) h

mutual

/-- A valid value has no terminator in its text. -/
theorem JsonValue.noNul (v : JsonValue) (h : v.Valid) : NulFree v.text := by
  match v with
  | .scalar s =>
    rw [JsonValue.Valid] at h
    rw [JsonValue.text]
    exact fun hmem => absurd (h.bytes.2 0 hmem) (by decide)
  | .string raw =>
    rw [JsonValue.Valid] at h
    rw [JsonValue.text]
    exact quoted_noNul h
  | .array gap items =>
    rw [JsonValue.Valid] at h
    have hitems := JsonValue.items_noNul items h.2
    simp only [JsonValue.text, NulFree, List.mem_cons, List.mem_append, List.not_mem_nil, or_false,
      not_or]
    exact ⟨by decide, ⟨white_noNul h.1, hitems⟩, by decide⟩
  | .object gap members =>
    rw [JsonValue.Valid] at h
    have hmembers := JsonValue.members_noNul members h.2
    simp only [JsonValue.text, NulFree, List.mem_cons, List.mem_append, List.not_mem_nil, or_false,
      not_or]
    exact ⟨by decide, ⟨white_noNul h.1, hmembers⟩, by decide⟩

theorem JsonValue.items_noNul (items : List (JsonItem JsonValue))
    (h : JsonValue.ItemsValid items) : NulFree (JsonValue.itemsText items) := by
  match items with
  | [] => exact List.not_mem_nil
  | ⟨pre, value, post⟩ :: rest =>
    rw [JsonValue.ItemsValid] at h
    have hvalue := JsonValue.noNul value h.2.1
    have hrest := JsonValue.items_noNul rest h.2.2.2
    simp only [JsonValue.itemsText, NulFree, List.mem_append, not_or]
    exact ⟨⟨⟨white_noNul h.1, hvalue⟩, white_noNul h.2.2.1⟩, separator_noNul rest hrest⟩

theorem JsonValue.members_noNul (members : List (JsonMember JsonValue))
    (h : JsonValue.MembersValid members) : NulFree (JsonValue.membersText members) := by
  match members with
  | [] => exact List.not_mem_nil
  | ⟨pre, key, gap, gap', value, post⟩ :: rest =>
    rw [JsonValue.MembersValid] at h
    have hvalue := JsonValue.noNul value h.2.2.2.2.1
    have hrest := JsonValue.members_noNul rest h.2.2.2.2.2.2
    simp only [JsonValue.membersText, NulFree, List.mem_append, List.mem_cons, not_or]
    exact ⟨⟨⟨⟨⟨⟨white_noNul h.1, quoted_noNul h.2.1⟩, white_noNul h.2.2.1⟩, by decide,
      white_noNul h.2.2.2.1⟩, hvalue⟩, white_noNul h.2.2.2.2.2.1⟩, separator_noNul rest hrest⟩

end

theorem JsonDocument.noNul {s : CStr} (h : JsonDocument s) : NulFree s := by
  obtain ⟨pre, v, post, rfl, hpre, hv, hpost⟩ := h
  simp only [NulFree, List.mem_append, not_or]
  exact ⟨⟨white_noNul hpre, v.noNul hv⟩, white_noNul hpost⟩

end Pantavisor.Lib
