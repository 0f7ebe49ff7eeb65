/-
Pantavisor.Lib.Replace — each occurrence of a code in a list, replaced by one element.

An occurrence is found from left to right. Where no proper prefix of the code is a suffix of it
(`Borderless`) two occurrences never overlap, so that the order does not matter, and a text that
has the code put behind it has only that occurrence more (`Borderless.prefix_append`).

Nothing here names a program; the modules of the model instantiate it.
-/
import Mathlib.Data.List.Infix

namespace Pantavisor.Lib

variable {α : Type} {code s : List α} {c : α}

/-- A list behind so many elements of an occurrence, with each occurrence replaced. -/
def replaceFrom [DecidableEq α] (code : List α) (c : α) : Nat → List α → List α
  | _, [] => []
  | skip + 1, _ :: s => replaceFrom code c skip s
  | 0, a :: s =>
    if code <+: a :: s then c :: replaceFrom code c (code.length - 1) s
    else a :: replaceFrom code c 0 s

/-- A list with each occurrence of a code replaced by an element. -/
def replaceAll [DecidableEq α] (code : List α) (c : α) (s : List α) : List α :=
  replaceFrom code c 0 s

/-- No proper prefix of the code is also a suffix of it. -/
def Borderless (code : List α) : Prop :=
  ∀ u, u <+: code → u <:+ code → u = [] ∨ u = code

theorem borderless_iff :
    Borderless code ↔ ∀ u ∈ code.inits, u <:+ code → u = [] ∨ u = code := by
  simp only [Borderless, List.mem_inits]

instance [DecidableEq α] : Decidable (Borderless code) := decidable_of_iff' _ borderless_iff

/-- In front of a code without a border there is the code only if it is there in full. -/
theorem Borderless.prefix_append (h : Borderless code) (hs : s ≠ []) (hcode : code <+: s ++ code) :
    code <+: s := by
  obtain ⟨rest, hrest⟩ := hcode
  rcases List.append_eq_append_iff.mp hrest with ⟨u, rfl, -⟩ | ⟨v, heq, hv⟩
  · exact List.prefix_append code u
  · have hsuffix : v <:+ code := heq ▸ List.suffix_append s v
    rcases h v ⟨rest, hv.symm⟩ hsuffix with rfl | rfl
    · rw [List.append_nil] at heq
      exact heq ▸ List.prefix_rfl
    · -- then nothing is in front of it
      exact absurd (List.self_eq_append_left.mp heq) hs

section

variable [DecidableEq α]

theorem replaceAll_cons_of_not {a : α} (h : ¬ code <+: a :: s) :
    replaceAll code c (a :: s) = a :: replaceAll code c s := by
  rw [replaceAll, replaceFrom, if_neg h]
  rfl

theorem replaceFrom_length (u s : List α) :
    replaceFrom code c u.length (u ++ s) = replaceFrom code c 0 s := by
  induction u with
  | nil => rfl
  | cons a u ih => exact ih

/-- An occurrence at the start. -/
theorem replaceAll_code (hcode : code ≠ []) (s : List α) :
    replaceAll code c (code ++ s) = c :: replaceAll code c s := by
  cases code with
  | nil => exact absurd rfl hcode
  | cons a u =>
    rw [List.cons_append, replaceAll, replaceFrom, if_pos ⟨s, rfl⟩, List.length_cons,
      Nat.add_sub_cancel, replaceFrom_length]
    rfl

/-- A list without the first element of the code stays as it is. -/
theorem replaceAll_of_not_mem {a : α} {u : List α} (h : a ∉ s) :
    replaceAll (a :: u) c s = s := by
  induction s with
  | nil => rfl
  | cons b s ih =>
    rw [List.mem_cons, not_or] at h
    have hne : ¬ a :: u <+: b :: s := fun hpre => h.1 (List.cons_prefix_cons.mp hpre).1
    rw [replaceAll_cons_of_not hne, ih h.2]

end

end Pantavisor.Lib
