/-
Pantavisor.Lib.Lines — a text of lines that is taken in from its start, piece by
piece.

`Taken sep chunk P t pieces` says how the prefix `t` of a text was taken: by whole
lines, whose texts are `P` unless they are empty, and by chunks of a fixed length
from inside a line, which are `P` too. `pieces` are the chunks of the line in which
`t` ends. Then every line that ends in `t` is put together from texts that are `P`,
and one that is shorter than a chunk is itself `P` (`Taken.delivered`).

`Thinned p text out` says that `out` is what is left of a text when some elements that
are `p` are deleted. For a part of the text it can be told from the number of the other
elements, so a text is thinned piece by piece (`Thinned.append_iff`).

`cut` is a function that cuts a text into its lines and into chunks, as `Taken` has them.
-/
import Mathlib.Data.List.Basic

namespace Pantavisor.Lib

variable {α : Type} {sep : α} {chunk : Nat} {P : List α → Prop}

/-- How a prefix of a text was taken. -/
inductive Taken (sep : α) (chunk : Nat) (P : List α → Prop) : List α → List (List α) → Prop where
  | nil : Taken sep chunk P [] []
  | line {t seg : List α} {pieces : List (List α)} (h : Taken sep chunk P t pieces)
      (hseg : sep ∉ seg) (hP : seg ≠ [] → P seg) : Taken sep chunk P (t ++ (seg ++ [sep])) []
  | piece {t seg : List α} {pieces : List (List α)} (h : Taken sep chunk P t pieces)
      (hseg : sep ∉ seg) (hlen : seg.length = chunk) (hP : P seg) :
      Taken sep chunk P (t ++ seg) (pieces ++ [seg])

/-- A line may start behind the prefix. -/
def LineStart (sep : α) (pre : List α) : Prop := pre = [] ∨ ∃ pre', pre = pre' ++ [sep]

/-- The text is put together from texts that are `P`, and if it is shorter than a
chunk it is one. -/
def Delivered (chunk : Nat) (P : List α → Prop) (text : List α) : Prop :=
  (text.length < chunk → P text) ∧ ∃ pieces : List (List α), text = pieces.flatten ∧
    ∀ piece ∈ pieces, P piece

theorem Taken.mono {Q : List α → Prop} (hPQ : ∀ s, P s → Q s) {t : List α}
    {pieces : List (List α)} (h : Taken sep chunk P t pieces) : Taken sep chunk Q t pieces := by
  induction h with
  | nil => exact .nil
  | line _ hseg hP ih => exact .line ih hseg fun hne => hPQ _ (hP hne)
  | piece _ hseg hlen hP ih => exact .piece ih hseg hlen (hPQ _ hP)

theorem Taken.pieces {t : List α} {pieces : List (List α)} (h : Taken sep chunk P t pieces) :
    ∀ piece ∈ pieces, P piece ∧ piece.length = chunk := by
  induction h with
  | nil => simp
  | line _ _ _ _ => simp
  | piece _ _ hlen hP ih =>
    intro piece hpiece
    rcases List.mem_append.mp hpiece with hpiece | hpiece
    · exact ih piece hpiece
    · obtain rfl := List.mem_singleton.mp hpiece
      exact ⟨hP, hlen⟩

/-- What a line starts behind is not longer than a text that goes on without a
separator. -/
theorem LineStart.split {pre tail t seg : List α} (hpre : LineStart sep pre)
    (hseg : sep ∉ seg) (h : pre ++ tail = t ++ seg) : ∃ x, t = pre ++ x ∧ tail = x ++ seg := by
  rcases List.append_eq_append_iff.mp h with ⟨x, ht, htail⟩ | ⟨x, hpre', hseg'⟩
  · exact ⟨x, ht, htail⟩
  · rcases hpre with rfl | ⟨pre', rfl⟩
    · obtain ⟨rfl, rfl⟩ := List.append_eq_nil_iff.mp hpre'.symm
      exact ⟨[], rfl, by simpa using hseg'.symm⟩
    · -- a separator at the end of `pre` would be in the segment
      rcases List.eq_nil_or_concat x with rfl | ⟨y, last, rfl⟩
      · exact ⟨[], by simpa using hpre'.symm, by simpa using hseg'.symm⟩
      · rw [List.concat_eq_append, ← List.append_assoc] at hpre'
        have hlast : sep = last := by
          have := (List.append_inj' hpre' rfl).2
          simpa using this
        exact absurd (by simp [hseg', hlast]) hseg

/-- The end of the text that is in no whole line is the pieces. -/
theorem Taken.tail {t : List α} {pieces : List (List α)} (h : Taken sep chunk P t pieces) :
    ∀ {pre tail : List α}, t = pre ++ tail → LineStart sep pre → sep ∉ tail →
      tail = pieces.flatten := by
  induction h with
  | nil =>
    intro pre tail heq _ _
    simp [(List.append_eq_nil_iff.mp heq.symm).2]
  | line _ hseg _ _ =>
    intro pre tail heq _ htail
    rcases List.eq_nil_or_concat tail with rfl | ⟨y, last, rfl⟩
    · rfl
    · rw [List.concat_eq_append, ← List.append_assoc, ← List.append_assoc] at heq
      have hlast := (List.append_inj' heq rfl).2
      simp only [List.cons.injEq, and_true] at hlast
      exact absurd (by simp [hlast]) htail
  | piece _ hseg _ _ ih =>
    intro pre tail heq hpre htail
    obtain ⟨x, ht, rfl⟩ := hpre.split hseg heq.symm
    have hx := ih ht hpre fun hm => htail (by simp [hm])
    rw [List.flatten_append, ← hx]
    simp

/-- **Every line that ends in what was taken is delivered.** -/
theorem Taken.delivered_line {t : List α} {pieces : List (List α)}
    (h : Taken sep chunk P t pieces) :
    ∀ {pre line rest : List α}, t = pre ++ (line ++ sep :: rest) → LineStart sep pre →
      sep ∉ line → line ≠ [] → Delivered chunk P line := by
  induction h with
  | nil =>
    intro pre line rest heq
    simp at heq
  | @line t seg pieces h hseg hP ih =>
    intro pre line rest heq hpre hline hne
    rcases List.eq_nil_or_concat rest with rfl | ⟨rest', last, rfl⟩
    · -- the line is the one that was taken last
      rw [← List.append_assoc, ← List.append_assoc] at heq
      have hbody := (List.append_inj' heq rfl).1
      obtain ⟨x, ht, rfl⟩ := hpre.split hseg hbody.symm
      have hx := h.tail ht hpre fun hm => hline (by simp [hm])
      refine ⟨fun hlen => ?_, ?_⟩
      · cases pieces with
        | nil =>
          simp only [List.flatten_nil] at hx
          subst hx
          exact hP (by simpa using hne)
        | cons piece pieces =>
          have hpiece := (h.pieces piece (by simp)).2
          rw [hx] at hlen
          simp only [List.flatten_cons, List.length_append] at hlen
          omega
      · by_cases hseg' : seg = []
        · exact ⟨pieces, by simp [hx, hseg'], fun piece hp => (h.pieces piece hp).1⟩
        · refine ⟨pieces ++ [seg], by simp [hx], fun piece hp => ?_⟩
          rcases List.mem_append.mp hp with hp | hp
          · exact (h.pieces piece hp).1
          · exact List.mem_singleton.mp hp ▸ hP hseg'
    · -- it ended before
      have heq' : t ++ seg = pre ++ (line ++ sep :: rest') := by
        have hcat : (t ++ seg) ++ [sep] = (pre ++ (line ++ sep :: rest')) ++ [last] := by
          simpa [List.concat_eq_append] using heq
        exact (List.append_inj' hcat rfl).1
      have hstart : LineStart sep (pre ++ (line ++ [sep])) := .inr ⟨pre ++ line, by simp⟩
      have hcat : (pre ++ (line ++ [sep])) ++ rest' = t ++ seg := by simpa using heq'.symm
      obtain ⟨x, ht, -⟩ := hstart.split hseg hcat
      have ht' : t = pre ++ (line ++ sep :: x) := by simpa using ht
      exact ih ht' hpre hline hne
  | @piece t seg pieces h hseg _ _ ih =>
    intro pre line rest heq hpre hline hne
    have hstart : LineStart sep (pre ++ (line ++ [sep])) := .inr ⟨pre ++ line, by simp⟩
    have hcat : (pre ++ (line ++ [sep])) ++ rest = t ++ seg := by simpa using heq.symm
    obtain ⟨x, ht, -⟩ := hstart.split hseg hcat
    have ht' : t = pre ++ (line ++ sep :: x) := by simpa using ht
    exact ih ht' hpre hline hne

/-- So is a line whose text was taken up to its end. -/
theorem Taken.delivered_tail {pre line : List α} {pieces : List (List α)}
    (h : Taken sep chunk P (pre ++ line) pieces) (hpre : LineStart sep pre) (hline : sep ∉ line)
    (hne : line ≠ []) : Delivered chunk P line := by
  have hx := h.tail rfl hpre hline
  refine ⟨fun hlen => ?_, pieces, hx, fun piece hp => (h.pieces piece hp).1⟩
  cases pieces with
  | nil => exact absurd hx hne
  | cons piece pieces =>
    have hpiece := (h.pieces piece (by simp)).2
    rw [hx] at hlen
    simp only [List.flatten_cons, List.length_append] at hlen
    omega

/-- A line that the first `n` elements of the text get to the end of is delivered. -/
theorem Taken.delivered {text pre line rest : List α} {n : Nat} {pieces : List (List α)}
    (h : Taken sep chunk P (text.take n) pieces) (htext : text = pre ++ (line ++ sep :: rest))
    (hpre : LineStart sep pre) (hline : sep ∉ line) (hne : line ≠ [])
    (hn : pre.length + line.length ≤ n) : Delivered chunk P line := by
  obtain ⟨k, rfl⟩ : ∃ k, n = (pre ++ line).length + k := ⟨n - (pre ++ line).length, by
    simp only [List.length_append]; omega⟩
  have htake : text.take ((pre ++ line).length + k) = (pre ++ line) ++ (sep :: rest).take k := by
    rw [htext, ← List.append_assoc, List.take_length_add_append]
  rw [htake] at h
  cases k with
  | zero => exact delivered_tail (by simpa using h) hpre hline hne
  | succ k =>
    have heq : (pre ++ line) ++ (sep :: rest).take (k + 1) = pre ++ (line ++ sep :: rest.take k) := by
      simp
    exact h.delivered_line heq hpre hline hne

/-! ## Deleting -/

/-- What is left when some elements that are `p` are deleted. -/
inductive Thinned (p : α → Bool) : List α → List α → Prop where
  | nil : Thinned p [] []
  | keep (a : α) {text out : List α} (h : Thinned p text out) : Thinned p (a :: text) (a :: out)
  | drop {a : α} {text out : List α} (ha : p a = true) (h : Thinned p text out) :
      Thinned p (a :: text) out

variable {p : α → Bool}

theorem Thinned.refl : ∀ text : List α, Thinned p text text
  | [] => .nil
  | a :: text => .keep a (Thinned.refl text)

theorem Thinned.sublist {text out : List α} (h : Thinned p text out) : out.Sublist text := by
  induction h with
  | nil => exact .slnil
  | keep a _ ih => exact ih.cons_cons a
  | drop _ _ ih => exact ih.cons _

theorem thinned_singleton {a : α} : Thinned p [a] [] ↔ p a = true := by
  constructor
  · intro h
    cases h with
    | drop ha _ => exact ha
  · exact fun ha => .drop ha .nil

/-- A sublist with all the other elements. -/
theorem thinned_iff {text out : List α} (h : out.Sublist text) :
    Thinned p text out ↔ out.countP (fun a => !p a) = text.countP (fun a => !p a) := by
  constructor
  · intro hthin
    induction hthin with
    | nil => rfl
    | keep a _ ih => rw [List.countP_cons, List.countP_cons, ih ‹Thinned p _ _›.sublist]
    | drop ha _ ih =>
      rw [List.countP_cons_of_neg (by simp [ha]), ih ‹Thinned p _ _›.sublist]
  · intro hcount
    induction h with
    | slnil => exact .nil
    | @cons out text a hsub ih =>
      have hle := hsub.countP_le (p := fun a => !p a)
      rw [List.countP_cons] at hcount
      by_cases ha : p a = true
      · rw [if_neg (by simp [ha])] at hcount
        exact .drop ha (ih hcount)
      · rw [if_pos (by simp [ha])] at hcount
        omega
    | @cons_cons out text a hsub ih =>
      rw [List.countP_cons, List.countP_cons] at hcount
      exact .keep a (ih (by omega))

/-- A text is thinned if each of its parts is. -/
theorem Thinned.append_iff {text out text' out' : List α} (h : out.Sublist text)
    (h' : out'.Sublist text') :
    Thinned p (text ++ text') (out ++ out') ↔ Thinned p text out ∧ Thinned p text' out' := by
  have hle := h.countP_le (p := fun a => !p a)
  have hle' := h'.countP_le (p := fun a => !p a)
  rw [thinned_iff (h.append h'), thinned_iff h, thinned_iff h', List.countP_append,
    List.countP_append]
  omega

/-! ## Cutting -/

section Cut

variable [DecidableEq α]

variable (sep chunk) in
/-- Takes in the next element: what was cut off so far, and what is left of the line. -/
def cutStep (s : List (List α) × List α) (a : α) : List (List α) × List α :=
  if a = sep then (if s.2 = [] then s.1 else s.1 ++ [s.2], [])
  else if s.2.length + 1 = chunk then (s.1 ++ [s.2 ++ [a]], [])
  else (s.1, s.2 ++ [a])

variable (sep chunk) in
/-- Cuts a text into its lines, and what is as long as a chunk into chunks from the
start of its line. Empty lines are left out. An unfinished line is left over. -/
def cut (text : List α) : List (List α) × List α := text.foldl (cutStep sep chunk) ([], [])

theorem cut_append (t u : List α) :
    cut sep chunk (t ++ u) = u.foldl (cutStep sep chunk) (cut sep chunk t) := List.foldl_append

/-- Inside of a line nothing is cut off. -/
theorem foldl_cutStep {segs : List (List α)} {seg : List α} :
    ∀ {left : List α}, sep ∉ seg → left.length + seg.length < chunk →
      seg.foldl (cutStep sep chunk) (segs, left) = (segs, left ++ seg) := by
  induction seg with
  | nil => intro left _ _; simp
  | cons a seg ih =>
    intro left hseg hlen
    rw [List.length_cons] at hlen
    have ha : a ≠ sep := fun h => hseg (by simp [h])
    have hstep : cutStep sep chunk (segs, left) a = (segs, left ++ [a]) := by
      rw [cutStep, if_neg ha, if_neg (by simp only; omega)]
    have hlen' : (left ++ [a]).length + seg.length < chunk := by
      rw [List.length_append, List.length_singleton]
      omega
    rw [List.foldl_cons, hstep, ih (fun h => hseg (by simp [h])) hlen', List.append_assoc]
    rfl

/-- A line is cut off at its end. -/
theorem cut_line {t seg : List α} {segs : List (List α)} (h : cut sep chunk t = (segs, []))
    (hseg : sep ∉ seg) (hlen : seg.length < chunk) :
    cut sep chunk (t ++ (seg ++ [sep])) = (if seg = [] then segs else segs ++ [seg], []) := by
  rw [cut_append, h, List.foldl_append, foldl_cutStep hseg (by simpa using hlen)]
  simp [cutStep]

/-- A chunk is cut off. -/
theorem cut_piece {t seg : List α} {segs : List (List α)} (h : cut sep chunk t = (segs, []))
    (hseg : sep ∉ seg) (hlen : seg.length = chunk) (hne : seg ≠ []) :
    cut sep chunk (t ++ seg) = (segs ++ [seg], []) := by
  rcases List.eq_nil_or_concat seg with rfl | ⟨init, last, rfl⟩
  · exact absurd rfl hne
  · rw [List.concat_eq_append] at hseg hlen ⊢
    rw [List.length_append, List.length_singleton] at hlen
    have hlast : last ≠ sep := fun h => hseg (by simp [h])
    have hshort : ([] : List α).length + init.length < chunk := by
      rw [List.length_nil]
      omega
    rw [cut_append, h, List.foldl_append, foldl_cutStep (fun hm => hseg (by simp [hm])) hshort]
    simp [cutStep, hlast, hlen]

/-- Nothing but separators is lost. -/
theorem cut_flatten (text : List α) :
    (cut sep chunk text).1.flatten ++ (cut sep chunk text).2 = text.filter (· ≠ sep) := by
  have hstep : ∀ (s : List (List α) × List α) (a : α),
      (cutStep sep chunk s a).1.flatten ++ (cutStep sep chunk s a).2
        = s.1.flatten ++ s.2 ++ [a].filter (· ≠ sep) := by
    intro s a
    unfold cutStep
    split
    · next ha =>
      split
      · next hs => simp [ha, hs]
      · simp [ha]
    · next ha =>
      split
      · simp [ha]
      · simp [ha]
  have hfold : ∀ (text : List α) (s : List (List α) × List α),
      (text.foldl (cutStep sep chunk) s).1.flatten ++ (text.foldl (cutStep sep chunk) s).2
        = s.1.flatten ++ s.2 ++ text.filter (· ≠ sep) := by
    intro text
    induction text with
    | nil => intro s; simp
    | cons a text ih =>
      intro s
      rw [List.foldl_cons, ih, hstep, List.append_assoc, ← List.filter_append]
      rfl
  rw [cut, hfold]
  rfl

end Cut

end Pantavisor.Lib
