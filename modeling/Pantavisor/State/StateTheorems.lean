/-
Pantavisor.State.StateTheorems — what comparing, starting and transferring leave
of a state.
-/
import Pantavisor.State.State

namespace Pantavisor.State

open Pantavisor.Lib

/-! ## The revision of a state -/

theorem rev_pvStateTransfer {inp out t : PvState} (h : pvStateTransfer inp out = some t) :
    t.rev = inp.rev := by
  simp only [pvStateTransfer, Option.bind_eq_bind, Option.bind_eq_some_iff] at h
  obtain ⟨_, -, _, -, ht⟩ := h
  rw [← Option.some.inj ht]

theorem rev_pvPlatformsStart {start : Platform → Option Int} {s t : PvState} {runlevel : Int}
    (h : pvPlatformsStart start s runlevel = some t) : t.rev = s.rev := by
  simp only [pvPlatformsStart, Option.bind_eq_bind, Option.bind_eq_some_iff] at h
  obtain ⟨_, -, ht⟩ := h
  rw [← Option.some.inj ht]

/-! ## What a comparison leaves -/

/-- What holds of the state that a scan ends with, if it does not fault. -/
def Scan.All (P : PvState → Prop) : Scan → Prop
  | .next s _ | .reboot s => P s
  | .fault => True

theorem Scan.All.andThen {P : PvState → Prop} {scan : Scan} (h : scan.All P)
    {f : PvState → Int → Scan} (hf : ∀ s runlevel, P s → (f s runlevel).All P) :
    (scan.andThen f).All P := by
  cases scan with
  | next s runlevel => exact hf s runlevel h
  | reboot s => exact h
  | fault => trivial

section Flags

variable {P : PvState → Prop} (hP : ∀ s a, P s → P (s.setUpdated a))

include hP

theorem all_comparePlatforms (pending : PvState) (ps : List Platform) {s : PvState}
    (runlevel : Int) (h : P s) : (comparePlatforms pending ps s runlevel).All P := by
  induction ps generalizing s runlevel with
  | nil => exact h
  | cons p ps ih =>
    simp only [comparePlatforms]
    split
    · split
      · exact h
      · exact ih _ h
    · exact ih _ (hP s _ h)

theorem all_compareChanged (pending : PvState) (items os : List Item) {s : PvState}
    (runlevel : Int) (h : P s) : (compareChanged pending items os s runlevel).All P := by
  induction os generalizing s runlevel with
  | nil => exact h
  | cons o os ih =>
    simp only [compareChanged]
    split
    · split
      · exact h
      · split
        · trivial
        · exact ih _ h
    · split
      · exact ih _ h
      · split
        · exact h
        · split
          · exact ih _ (hP s _ h)
          · trivial

theorem all_compareDeleted (items os : List Item) {s : PvState} (runlevel : Int) (h : P s) :
    (compareDeleted items os s runlevel).All P := by
  induction os generalizing s runlevel with
  | nil => exact h
  | cons o os ih =>
    simp only [compareDeleted]
    split
    · exact ih _ h
    · split
      · exact h
      · split
        · trivial
        · exact ih _ (hP s _ h)

/-- A comparison only sets `updated` flags. -/
theorem all_pvStateCompareStates {pending current s : PvState} {runlevel : Int}
    (h : pvStateCompareStates pending current = some (s, runlevel)) (hcurrent : P current) :
    P s := by
  have hloops : (compareLoops pending current).All P := by
    refine (all_comparePlatforms hP pending _ _ hcurrent).andThen fun s r hs => ?_
    refine (all_compareChanged hP pending _ _ _ hs).andThen fun s r hs => ?_
    refine (all_compareDeleted hP _ _ _ hs).andThen fun s r hs => ?_
    refine (all_compareChanged hP pending _ _ _ hs).andThen fun s r hs => ?_
    exact all_compareDeleted hP _ _ _ hs
  unfold pvStateCompareStates at h
  split at h
  · rename_i heq
    rw [heq] at hloops
    rw [← (Prod.mk.inj (Option.some.inj h)).1]
    exact hloops
  · rename_i heq
    rw [heq] at hloops
    rw [← (Prod.mk.inj (Option.some.inj h)).1]
    exact hloops
  · cases h

end Flags

/-- A comparison leaves the revision of the current state as it is. -/
theorem rev_pvStateCompareStates {pending current s : PvState} {runlevel : Int}
    (h : pvStateCompareStates pending current = some (s, runlevel)) : s.rev = current.rev :=
  all_pvStateCompareStates (P := fun t => t.rev = current.rev) (fun _ _ ht => ht) h rfl

/-! ## What a transfer leaves -/

/-- The platforms of the running state come from either state. -/
theorem mem_movePlatforms {p : Platform} {ps : List Platform} {out : PvState}
    (h : p ∈ (movePlatforms ps out).platforms) : p ∈ ps ∨ p ∈ out.platforms := by
  induction ps generalizing out with
  | nil => exact .inr h
  | cons q ps ih =>
    rw [movePlatforms] at h
    split at h
    · exact (ih h).imp_left (List.mem_cons_of_mem _)
    · rcases ih h with h | h
      · exact .inl (List.mem_cons_of_mem _ h)
      · rcases List.mem_append.mp h with h | h
        · exact .inr h
        · exact .inl (List.mem_singleton.mp h ▸ List.mem_cons_self ..)

theorem mem_pvStateTransfer {inp out t : PvState} (h : pvStateTransfer inp out = some t)
    {p : Platform} (hp : p ∈ t.platforms) : p ∈ inp.platforms ∨ p ∈ out.platforms := by
  simp only [pvStateTransfer, pvStateTransferPlatforms, pvStateRemovePlatforms,
    Option.bind_eq_bind, Option.bind_eq_some_iff, Option.pure_def, Option.some.injEq] at h
  obtain ⟨_, ⟨_, -, _, -, _, -, rfl⟩, _, ⟨_, -, _, -, _, -, rfl⟩, rfl⟩ := h
  exact (mem_movePlatforms hp).imp_right fun h => (List.mem_filter.mp h).1

end Pantavisor.State
