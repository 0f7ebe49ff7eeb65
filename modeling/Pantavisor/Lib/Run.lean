/-
Pantavisor.Lib.Run — labelled transition systems and what holds over their
runs.

A `System` has a step function over labels; a label holds everything a step
takes from outside (which step it is and the outcome of each call it makes),
so a run is a list of labels. `Reachable.induct` packages the induction over
reachable states, and `along_of_invariant` the one over the steps of a run.
-/
import Mathlib.Data.List.Basic

namespace Pantavisor.Lib

/-- A system: its initial states and what a step does. -/
structure System (σ ℓ : Type) where
  init : σ → Prop
  step : σ → ℓ → σ

variable {σ ℓ : Type}

namespace System

variable (M : System σ ℓ)

/-- The states that a run from an initial state gets to. -/
inductive Reachable : σ → Prop where
  | init {s : σ} (h : M.init s) : Reachable s
  | step {s : σ} (h : Reachable s) (l : ℓ) : Reachable (M.step s l)

/-- Where a run of steps ends. -/
def run (s : σ) (ls : List ℓ) : σ := ls.foldl M.step s

/-- Every step of a run from `s` is a `P`. -/
def Along (P : σ → ℓ → Prop) : σ → List ℓ → Prop
  | _, [] => True
  | s, l :: ls => P s l ∧ Along P (M.step s l) ls

variable {M}

@[simp] theorem run_nil (s : σ) : M.run s [] = s := rfl

@[simp] theorem run_cons (s : σ) (l : ℓ) (ls : List ℓ) :
    M.run s (l :: ls) = M.run (M.step s l) ls := rfl

/-- What holds initially and is kept by every step holds of every reachable
state. -/
theorem Reachable.induct {Inv : σ → Prop} (hinit : ∀ s, M.init s → Inv s)
    (hstep : ∀ s l, Inv s → Inv (M.step s l)) {s : σ} (h : M.Reachable s) : Inv s := by
  induction h with
  | init h => exact hinit _ h
  | step _ l ih => exact hstep _ l ih

theorem Reachable.run {s : σ} (h : M.Reachable s) (ls : List ℓ) : M.Reachable (M.run s ls) := by
  induction ls generalizing s with
  | nil => exact h
  | cons l ls ih => exact ih (h.step l)

/-- Along a run whose steps are all an `A`, an invariant that each `A` keeps
holds, and so does what each `A` step from it is. -/
theorem along_of_invariant {Inv : σ → Prop} {A P : σ → ℓ → Prop}
    (hstep : ∀ s l, Inv s → A s l → Inv (M.step s l) ∧ P s l) :
    ∀ {ls : List ℓ} {s : σ}, Inv s → M.Along A s ls → M.Along P s ls ∧ Inv (M.run s ls) := by
  intro ls
  induction ls with
  | nil => intro s h _; exact ⟨trivial, h⟩
  | cons l ls ih =>
      intro s h hall
      obtain ⟨hinv, hp⟩ := hstep s l h hall.1
      obtain ⟨halong, hend⟩ := ih hinv hall.2
      exact ⟨⟨hp, halong⟩, hend⟩

/-- Two properties of a step that are the same under an invariant are the same
along runs. -/
theorem along_iff_of_invariant {Inv : σ → Prop} {P Q : σ → ℓ → Prop}
    (hstep : ∀ s l, Inv s → Inv (M.step s l)) (hiff : ∀ s l, Inv s → (P s l ↔ Q s l)) :
    ∀ {ls : List ℓ} {s : σ}, Inv s → (M.Along P s ls ↔ M.Along Q s ls) := by
  intro ls
  induction ls with
  | nil => intro s _; exact Iff.rfl
  | cons l ls ih =>
      intro s h
      exact and_congr (hiff s l h) (ih (hstep s l h))

theorem Along.and_forall {P : σ → ℓ → Prop} {Q : ℓ → Prop} :
    ∀ {ls : List ℓ} {s : σ}, M.Along P s ls → (∀ l ∈ ls, Q l) →
      M.Along (fun s l => P s l ∧ Q l) s ls := by
  intro ls
  induction ls with
  | nil => intro s _ _; exact trivial
  | cons l ls ih =>
      intro s h hall
      exact ⟨⟨h.1, hall l (by simp)⟩, ih h.2 fun l' hl' => hall l' (by simp [hl'])⟩

end System

end Pantavisor.Lib
