/-
Pantavisor.Lib.JsonText — where a string and an object end in a JSON text.

A raw string body ends at its first quote that no backslash escapes, and an
object ends where the bracket that opens it is closed, brackets inside strings
not counted. Both are prefix codes: of two texts that go on differently, the
string or the object at the front is the same (`RawString.append_inj`,
`ObjectText.append_inj`).
-/
import Pantavisor.Lib.CString

namespace Pantavisor.Lib

/-! ## Bytes -/

def quote : UInt8 := 34
def backslash : UInt8 := 92
def comma : UInt8 := 44
def colon : UInt8 := 58
def openBrace : UInt8 := 123
def closeBrace : UInt8 := 125
def openBracket : UInt8 := 91
def closeBracket : UInt8 := 93

/-! ## Strings -/

/-- The body of a JSON string as it stands in the text: every quote in it is
escaped, and it does not end in the middle of an escape. -/
def RawString : CStr → Prop
  | [] => True
  | [c] => c ≠ quote ∧ c ≠ backslash
  | c :: d :: rest =>
    if c = backslash then RawString rest else c ≠ quote ∧ RawString (d :: rest)

/-- A body and its closing quote tell where the body ends. -/
theorem RawString.append_inj {s t u v : CStr} (hs : RawString s) (ht : RawString t)
    (h : s ++ quote :: u = t ++ quote :: v) : s = t ∧ u = v := by
  have hqb : quote ≠ backslash := by decide
  induction s using RawString.induct generalizing t with
  | case1 =>
    match t, ht with
    | [], _ => simpa using h
    | [c], ht =>
      simp only [List.nil_append, List.cons_append, List.cons.injEq] at h
      exact absurd h.1.symm ht.1
    | c :: d :: rest, ht =>
      simp only [List.nil_append, List.cons_append, List.cons.injEq] at h
      rw [RawString, if_neg (h.1 ▸ hqb)] at ht
      exact absurd h.1.symm ht.1
  | case2 c =>
    match t, ht with
    | [], _ =>
      simp only [List.nil_append, List.cons_append, List.cons.injEq] at h
      exact absurd h.1 hs.1
    | [d], _ => simpa using h
    | d :: e :: rest, ht =>
      simp only [List.nil_append, List.cons_append, List.cons.injEq] at h
      rw [RawString, if_neg (h.1 ▸ hs.2)] at ht
      cases rest with
      | nil => exact absurd h.2.1.symm ht.2.1
      | cons f rest =>
        have hne : e ≠ backslash := h.2.1 ▸ hqb
        rw [RawString, if_neg hne] at ht
        exact absurd h.2.1.symm ht.2.1
  | case3 d rest ih =>
    rw [RawString, if_pos rfl] at hs
    match t, ht with
    | [], _ =>
      simp only [List.nil_append, List.cons_append, List.cons.injEq] at h
      exact absurd h.1.symm hqb
    | [e], ht =>
      simp only [List.nil_append, List.cons_append, List.cons.injEq] at h
      exact absurd h.1.symm ht.2
    | e :: f :: rest', ht =>
      simp only [List.cons_append, List.cons.injEq] at h
      obtain ⟨rfl, rfl, h⟩ := h
      rw [RawString, if_pos rfl] at ht
      obtain ⟨rfl, huv⟩ := ih hs ht h
      exact ⟨rfl, huv⟩
  | case4 c d rest hc ih =>
    rw [RawString, if_neg hc] at hs
    match t, ht with
    | [], _ =>
      simp only [List.nil_append, List.cons_append, List.cons.injEq] at h
      exact absurd h.1 hs.1
    | [e], ht =>
      simp only [List.nil_append, List.cons_append, List.cons.injEq] at h
      obtain ⟨rfl, hd, h⟩ := h
      obtain ⟨hnil, -⟩ := ih (t := []) hs.2 trivial (by simp [hd, h])
      simp at hnil
    | e :: f :: rest', ht =>
      simp only [List.cons_append, List.cons.injEq] at h
      obtain ⟨rfl, h⟩ := h
      rw [RawString, if_neg hc] at ht
      obtain ⟨heq, huv⟩ := ih (t := f :: rest') hs.2 ht.2 (by simpa using h)
      exact ⟨by rw [heq], huv⟩

/-! ## Objects -/

/-- Where a scan of a text is. -/
inductive ScanMode where
  | plain
  | string
  | escape
  deriving DecidableEq, Repr

/-- The scan from inside `depth` open brackets comes to the last one's end with
the last byte of the text, and not before. -/
def Closes : Nat → ScanMode → CStr → Prop
  | _, _, [] => False
  | depth, .escape, _ :: rest => Closes depth .string rest
  | depth, .string, c :: rest =>
    if c = quote then Closes depth .plain rest
    else if c = backslash then Closes depth .escape rest
    else Closes depth .string rest
  | depth, .plain, c :: rest =>
    if c = quote then Closes depth .string rest
    else if c = openBrace ∨ c = openBracket then Closes (depth + 1) .plain rest
    else if c = closeBrace ∨ c = closeBracket then
      if depth = 1 then rest = [] else Closes (depth - 1) .plain rest
    else Closes depth .plain rest

/-- An object text: it opens with a brace, and ends where that is closed. -/
def ObjectText : CStr → Prop
  | [] => False
  | c :: rest => c = openBrace ∧ Closes 1 .plain rest

theorem Closes.append_inj {depth : Nat} {mode : ScanMode} {s t u v : CStr}
    (hs : Closes depth mode s) (ht : Closes depth mode t) (h : s ++ u = t ++ v) : s = t := by
  induction s generalizing depth mode t with
  | nil => cases mode <;> simp [Closes] at hs
  | cons c s ih =>
    cases t with
    | nil => cases mode <;> simp [Closes] at ht
    | cons d t =>
      simp only [List.cons_append, List.cons.injEq] at h
      obtain ⟨rfl, h⟩ := h
      congr 1
      cases mode with
      | escape => exact ih hs ht h
      | string =>
        rw [Closes] at hs ht
        split at hs
        · rename_i hc; rw [if_pos hc] at ht; exact ih hs ht h
        · rename_i hc; rw [if_neg hc] at ht
          split at hs
          · rename_i hb; rw [if_pos hb] at ht; exact ih hs ht h
          · rename_i hb; rw [if_neg hb] at ht; exact ih hs ht h
      | plain =>
        rw [Closes] at hs ht
        split at hs
        · rename_i hc; rw [if_pos hc] at ht; exact ih hs ht h
        · rename_i hc; rw [if_neg hc] at ht
          split at hs
          · rename_i ho; rw [if_pos ho] at ht; exact ih hs ht h
          · rename_i ho; rw [if_neg ho] at ht
            split at hs
            · rename_i hx; rw [if_pos hx] at ht
              split at hs
              · rename_i hd; rw [if_pos hd] at ht; rw [hs, ht]
              · rename_i hd; rw [if_neg hd] at ht; exact ih hs ht h
            · rename_i hx; rw [if_neg hx] at ht; exact ih hs ht h

/-- Of two texts with an object in front, that object is the same. -/
theorem ObjectText.append_inj {s t u v : CStr} (hs : ObjectText s) (ht : ObjectText t)
    (h : s ++ u = t ++ v) : s = t ∧ u = v := by
  have heq : s = t := by
    cases s with
    | nil => exact absurd hs (by simp [ObjectText])
    | cons c s =>
      cases t with
      | nil => exact absurd ht (by simp [ObjectText])
      | cons d t =>
        simp only [List.cons_append, List.cons.injEq] at h
        rw [h.1, hs.2.append_inj ht.2 h.2]
  subst heq
  exact ⟨rfl, List.append_cancel_left h⟩

theorem ObjectText.head {s : CStr} (h : ObjectText s) : s.head? = some openBrace := by
  cases s with
  | nil => exact absurd h (by simp [ObjectText])
  | cons c s => simp [h.1]

end Pantavisor.Lib
