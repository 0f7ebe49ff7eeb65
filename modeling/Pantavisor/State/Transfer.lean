/-
Pantavisor.State.Transfer — who owns what after `pv_state_transfer`.

`in` and `out` are two states with items, and afterwards two again. Items go over by
the name of their owner, and platforms by their own, one after another: of two
platforms with one name only the first goes over, and the items of both. So an item
is left behind by its owner exactly if that is not the first of its name.
-/
import Pantavisor.State.State
import Mathlib.Data.List.Perm.Basic
import Mathlib.Data.List.Nodup

namespace Pantavisor.State

open Pantavisor.Lib

/-! ## Owners -/

theorem platformAt_some {s : PvState} {a : Addr} {p : Platform} (h : s.platformAt a = some p) :
    p ∈ s.platforms ∧ p.addr = a :=
  ⟨List.mem_of_find?_eq_some h, by simpa using List.find?_some h⟩

theorem platformAt_isSome {s : PvState} {a : Addr} :
    (s.platformAt a).isSome ↔ ∃ p ∈ s.platforms, p.addr = a := by
  simp [PvState.platformAt]

theorem platformAt_of_mem {s : PvState} (h : (s.platforms.map (·.addr)).Nodup) {p : Platform}
    (hp : p ∈ s.platforms) : s.platformAt p.addr = some p := by
  obtain ⟨q, hq⟩ := Option.isSome_iff_exists.mp (platformAt_isSome.mpr ⟨p, hp, rfl⟩)
  obtain ⟨hmem, haddr⟩ := platformAt_some hq
  rw [hq, List.inj_on_of_nodup_map h hmem hp haddr]

theorem getByName_isSome {s : PvState} {name : CStr} :
    (s.platformGetByName name).isSome ↔ ∃ p ∈ s.platforms, p.name = name := by
  simp [PvState.platformGetByName]

/-- The lists of a parsed state. Jsons and objects are linked to the first platform of a
name, and volumes to the one that they were parsed with. -/
structure Linked (s : PvState) : Prop where
  addrs : (s.platforms.map (·.addr)).Nodup
  jsons : ∀ j ∈ s.jsons, ∀ a ∈ j.plat, ∃ p, s.platformAt a = some p ∧
    s.platformGetByName p.name = some p
  objects : ∀ o ∈ s.objects, ∀ a ∈ o.plat, ∃ p, s.platformAt a = some p ∧
    s.platformGetByName p.name = some p
  volumes : ∀ v ∈ s.volumes, ∀ a ∈ v.plat, ∃ p, s.platformAt a = some p

/-- An owner, if there is one, is a platform of the state. -/
def OwnerHere (s : PvState) (plat : Option Addr) : Prop := ∀ a ∈ plat, (s.platformAt a).isSome

/-- The owners of all items are platforms of the state. -/
structure OwnersHere (s : PvState) : Prop where
  jsons : ∀ j ∈ s.jsons, OwnerHere s j.plat
  objects : ∀ o ∈ s.objects, OwnerHere s o.plat
  volumes : ∀ v ∈ s.volumes, OwnerHere s v.plat

/-! ## What stays in `in` -/

/-- The items of `in` that are not moved. -/
def leaveItems {α : Type} (inp out : PvState) (plat : α → Option Addr) (items : List α) :
    Option (List α) :=
  items.filterM fun o => (movesItem inp out (plat o)).map (!·)

/-- The platforms of `in` that are not moved. -/
def leavePlatforms : List Platform → PvState → List Platform
  | [], _ => []
  | p :: ps, out =>
    if (out.platformGetByName p.name).isSome then p :: leavePlatforms ps out
    else leavePlatforms ps { out with platforms := out.platforms ++ [p] }

/-- What `in` becomes by `pv_state_transfer`. -/
def pvStateTransferIn (inp out : PvState) : Option PvState := do
  let out ← pvStateRemovePlatforms out
  let jsons ← leaveItems inp out PvJson.plat inp.jsons
  let objects ← leaveItems inp out PvObject.plat inp.objects
  let volumes ← leaveItems inp out PvVolume.plat inp.volumes
  return { inp with
    jsons := jsons
    objects := objects
    volumes := volumes
    platforms := leavePlatforms inp.platforms out }

/-! ## Platforms -/

/-- Moving platforms leaves the lists of items alone. -/
theorem movePlatforms_items (ps : List Platform) (out : PvState) (jsons : List PvJson)
    (objects : List PvObject) (volumes : List PvVolume) :
    movePlatforms ps { out with jsons := jsons, objects := objects, volumes := volumes }
      = { out with
          jsons := jsons
          objects := objects
          volumes := volumes
          platforms := (movePlatforms ps out).platforms } := by
  induction ps generalizing out with
  | nil => rfl
  | cons p ps ih =>
    have hget : PvState.platformGetByName
        { out with jsons := jsons, objects := objects, volumes := volumes } p.name
          = out.platformGetByName p.name := rfl
    rw [movePlatforms, movePlatforms, hget]
    split
    · exact ih out
    · exact ih { out with platforms := out.platforms ++ [p] }

/-- Every platform is in one of the two lists. -/
theorem movePlatforms_perm (ps : List Platform) (out : PvState) :
    ((movePlatforms ps out).platforms ++ leavePlatforms ps out).Perm (out.platforms ++ ps) := by
  induction ps generalizing out with
  | nil => exact .refl _
  | cons p ps ih =>
    rw [movePlatforms, leavePlatforms]
    split
    · exact List.perm_middle.trans (((ih out).cons p).trans List.perm_middle.symm)
    · refine (ih _).trans (List.Perm.of_eq ?_)
      rw [List.append_assoc, List.singleton_append]

/-- A platform goes over if it is the first of a name that `out` has not got. -/
theorem mem_movePlatforms_iff {p : Platform} (ps : List Platform) (out : PvState) :
    p ∈ (movePlatforms ps out).platforms ↔ p ∈ out.platforms ∨
      (¬ ∃ q ∈ out.platforms, q.name = p.name) ∧ ps.find? (fun q => q.name = p.name) = some p := by
  induction ps generalizing out with
  | nil => simp [movePlatforms]
  | cons q ps ih =>
    rw [movePlatforms]
    by_cases hq : (out.platformGetByName q.name).isSome
    · rw [if_pos hq, ih]
      by_cases hname : q.name = p.name
      · have hin := getByName_isSome.mp hq
        rw [hname] at hin
        simp only [hin, not_true_eq_false, false_and]
      · rw [List.find?_cons_of_neg (by simpa using hname)]
    · rw [if_neg hq, ih]
      rw [getByName_isSome] at hq
      simp only [List.mem_append, List.mem_singleton]
      by_cases hname : q.name = p.name
      · rw [List.find?_cons_of_pos (by simpa using hname)]
        rw [hname] at hq
        have hgone : ¬ ¬ ∃ r, (r ∈ out.platforms ∨ r = q) ∧ r.name = p.name :=
          not_not.mpr ⟨q, .inr rfl, hname⟩
        simp only [hgone, false_and, or_false, hq, not_false_eq_true, true_and, Option.some.injEq]
        exact or_congr_right eq_comm
      · rw [List.find?_cons_of_neg (by simpa using hname)]
        have hsame : (∃ r, (r ∈ out.platforms ∨ r = q) ∧ r.name = p.name) ↔
            ∃ r ∈ out.platforms, r.name = p.name := by
          constructor
          · rintro ⟨r, hr | rfl, hrp⟩
            · exact ⟨r, hr, hrp⟩
            · exact absurd hrp hname
          · rintro ⟨r, hr, hrp⟩
            exact ⟨r, .inl hr, hrp⟩
        have hpq : p ≠ q := fun heq => hname (heq ▸ rfl)
        simp only [hsame, hpq, or_false]

/-- A platform of a name that `out` has stays. -/
theorem mem_leavePlatforms {p : Platform} {ps : List Platform} {out : PvState} (hp : p ∈ ps)
    (hout : ∃ q ∈ out.platforms, q.name = p.name) : p ∈ leavePlatforms ps out := by
  induction ps generalizing out with
  | nil => cases hp
  | cons q ps ih =>
    rw [leavePlatforms]
    rcases List.mem_cons.mp hp with rfl | hp
    · rw [if_pos (getByName_isSome.mpr hout)]
      exact List.mem_cons_self ..
    · split
      · exact List.mem_cons_of_mem _ (ih hp hout)
      · obtain ⟨r, hr, hname⟩ := hout
        exact ih hp ⟨r, List.mem_append_left _ hr, hname⟩

/-! ## Items -/

/-- A filter that does not fault is one. -/
theorem filterM_some {α : Type} {items : List α} {f : α → Option Bool} {keep : α → Bool}
    (h : ∀ o ∈ items, f o = some (keep o)) : items.filterM f = some (items.filter keep) := by
  have haux : ∀ acc, List.filterAuxM f items acc = some ((items.filter keep).reverse ++ acc) := by
    induction items with
    | nil => exact fun acc => rfl
    | cons o items ih =>
      intro acc
      rw [List.forall_mem_cons] at h
      rw [List.filterAuxM, h.1, Option.bind_eq_bind, Option.bind_some, ih h.2]
      cases hkeep : keep o <;> simp [hkeep]
  rw [List.filterM, haux]
  simp

/-- An item of `out` that is not removed. -/
def keeps (out : PvState) (plat : Option Addr) : Bool :=
  plat.all fun a => (out.platformAt a).any fun p => p.status = .started

/-- An item of `in` whose owner has a name that `out` has not got. -/
def moves (inp out : PvState) (plat : Option Addr) : Bool :=
  plat.any fun a => (inp.platformAt a).any fun p => (out.platformGetByName p.name).isNone

theorem keepsItem_eq {out : PvState} {plat : Option Addr} (h : OwnerHere out plat) :
    keepsItem out plat = some (keeps out plat) := by
  cases plat with
  | none => rfl
  | some a =>
    obtain ⟨p, hp⟩ := Option.isSome_iff_exists.mp (h a rfl)
    simp [keepsItem, keeps, hp]

theorem movesItem_eq {inp : PvState} (out : PvState) {plat : Option Addr} (h : OwnerHere inp plat) :
    movesItem inp out plat = some (moves inp out plat) := by
  cases plat with
  | none => rfl
  | some a =>
    obtain ⟨p, hp⟩ := Option.isSome_iff_exists.mp (h a rfl)
    simp [movesItem, moves, hp]

theorem moveItems_eq {α : Type} {inp : PvState} (out : PvState) {plat : α → Option Addr}
    {items : List α} (h : ∀ o ∈ items, OwnerHere inp (plat o)) :
    moveItems inp out plat items = some (items.filter fun o => moves inp out (plat o)) :=
  filterM_some fun o ho => movesItem_eq out (h o ho)

theorem leaveItems_eq {α : Type} {inp : PvState} (out : PvState) {plat : α → Option Addr}
    {items : List α} (h : ∀ o ∈ items, OwnerHere inp (plat o)) :
    leaveItems inp out plat items = some (items.filter fun o => !moves inp out (plat o)) :=
  filterM_some fun o ho => by rw [movesItem_eq out (h o ho), Option.map_some]

theorem removeItems_eq {α : Type} {out : PvState} {plat : α → Option Addr} {items : List α}
    (h : ∀ o ∈ items, OwnerHere out (plat o)) :
    removeItems out plat items = some (items.filter fun o => keeps out (plat o)) :=
  filterM_some fun o ho => keepsItem_eq (h o ho)

theorem Linked.ownersHere {s : PvState} (h : Linked s) : OwnersHere s where
  jsons j hj a ha := by
    obtain ⟨p, hp, -⟩ := h.jsons j hj a ha
    rw [hp]
    rfl
  objects o ho a ha := by
    obtain ⟨p, hp, -⟩ := h.objects o ho a ha
    rw [hp]
    rfl
  volumes v hv a ha := by
    obtain ⟨p, hp⟩ := h.volumes v hv a ha
    rw [hp]
    rfl

/-! ## The transfer -/

/-- `out` without what `pv_state_remove_platforms` removes. -/
def removedState (out : PvState) : PvState :=
  { out with
    jsons := out.jsons.filter fun j => keeps out j.plat
    objects := out.objects.filter fun o => keeps out o.plat
    volumes := out.volumes.filter fun v => keeps out v.plat
    platforms := out.platforms.filter fun p => p.status = .started }

/-- `out` with what it gets. -/
def movedState (inp out : PvState) : PvState :=
  { removedState out with
    rev := inp.rev
    jsons := (removedState out).jsons ++
      inp.jsons.filter fun j => moves inp (removedState out) j.plat
    objects := (removedState out).objects ++
      inp.objects.filter fun o => moves inp (removedState out) o.plat
    volumes := (removedState out).volumes ++
      inp.volumes.filter fun v => moves inp (removedState out) v.plat
    platforms := (movePlatforms inp.platforms (removedState out)).platforms }

/-- `in` without that. -/
def leftState (inp out : PvState) : PvState :=
  { inp with
    jsons := inp.jsons.filter fun j => !moves inp (removedState out) j.plat
    objects := inp.objects.filter fun o => !moves inp (removedState out) o.plat
    volumes := inp.volumes.filter fun v => !moves inp (removedState out) v.plat
    platforms := leavePlatforms inp.platforms (removedState out) }

theorem pvStateRemovePlatforms_eq {out : PvState} (h : OwnersHere out) :
    pvStateRemovePlatforms out = some (removedState out) := by
  rw [pvStateRemovePlatforms, removeItems_eq h.jsons, removeItems_eq h.objects,
    removeItems_eq h.volumes]
  rfl

/-- What the transfer leaves. -/
theorem pvStateTransfer_eq {inp out : PvState} (hin : OwnersHere inp) (hout : OwnersHere out) :
    pvStateTransfer inp out = some (movedState inp out) ∧
      pvStateTransferIn inp out = some (leftState inp out) := by
  constructor
  · rw [pvStateTransfer, pvStateRemovePlatforms_eq hout, Option.bind_eq_bind, Option.bind_some,
      pvStateTransferPlatforms, moveItems_eq _ hin.jsons, moveItems_eq _ hin.objects,
      moveItems_eq _ hin.volumes]
    simp only [Option.bind_eq_bind, Option.bind_some, Option.pure_def]
    rw [movePlatforms_items]
    rfl
  · rw [pvStateTransferIn, pvStateRemovePlatforms_eq hout, Option.bind_eq_bind, Option.bind_some,
      leaveItems_eq _ hin.jsons, leaveItems_eq _ hin.objects, leaveItems_eq _ hin.volumes]
    rfl

/-- **Every item is in one list, with its owner.** What `out` has kept and what `in` had is
in one of the two states, and an owner is in the same state. -/
structure Transferred (inp out in' out' : PvState) : Prop where
  outOwners : OwnersHere out'
  inOwners : OwnersHere in'
  jsons : (out'.jsons ++ in'.jsons).Perm
    ((out.jsons.filter fun j => keeps out j.plat) ++ inp.jsons)
  objects : (out'.objects ++ in'.objects).Perm
    ((out.objects.filter fun o => keeps out o.plat) ++ inp.objects)
  volumes : (out'.volumes ++ in'.volumes).Perm
    ((out.volumes.filter fun v => keeps out v.plat) ++ inp.volumes)
  platforms : (out'.platforms ++ in'.platforms).Perm
    ((out.platforms.filter fun p => p.status = .started) ++ inp.platforms)
  apart : ((out'.platforms ++ in'.platforms).map (·.addr)).Nodup

/-- The owner of a volume is the first platform of its name, unless `out` keeps a platform
of that name. -/
def FirstOwned (inp out : PvState) : Prop :=
  ∀ v ∈ inp.volumes, ∀ p ∈ inp.platforms, v.plat = some p.addr →
    (∃ q ∈ out.platforms, q.status = .started ∧ q.name = p.name) ∨
      inp.platformGetByName p.name = some p

instance (inp out : PvState) : Decidable (FirstOwned inp out) :=
  inferInstanceAs (Decidable (∀ v ∈ inp.volumes, ∀ p ∈ inp.platforms, _))

theorem split_perm {α : Type} (kept items : List α) (f : α → Bool) :
    (kept ++ items.filter f ++ items.filter fun o => !f o).Perm (kept ++ items) := by
  rw [List.append_assoc]
  exact (List.filter_append_perm f items).append_left kept

/-- The addresses of the platforms of both states are distinct, if those of the platforms
that `out` keeps are others than those of `in`. -/
theorem addrs_apart {inp out : PvState} (hin : (inp.platforms.map (·.addr)).Nodup)
    (hout : (out.platforms.map (·.addr)).Nodup)
    (hapart : ∀ p ∈ out.platforms, p.status = .started → ∀ q ∈ inp.platforms, p.addr ≠ q.addr) :
    (((movedState inp out).platforms ++ (leftState inp out).platforms).map (·.addr)).Nodup := by
  refine ((movePlatforms_perm _ _).map _).nodup_iff.mpr ?_
  rw [List.map_append, List.nodup_append]
  refine ⟨hout.sublist (List.filter_sublist.map _), hin, ?_⟩
  intro a ha b hb heq
  obtain ⟨p, hp, rfl⟩ := List.mem_map.mp ha
  obtain ⟨q, hq, rfl⟩ := List.mem_map.mp hb
  obtain ⟨hmem, hstarted⟩ := List.mem_filter.mp hp
  exact hapart p hmem (of_decide_eq_true hstarted) q hq heq

section Owners

variable {inp out : PvState} (hin : Linked inp) (hout : Linked out)
  (hapart : ∀ p ∈ out.platforms, ∀ q ∈ inp.platforms, p.addr ≠ q.addr)

/-- An item that `out` keeps has its owner there. -/
theorem ownerHere_kept {plat : Option Addr} (hhere : OwnerHere out plat)
    (hkeeps : keeps out plat = true) : OwnerHere (movedState inp out) plat := by
  intro a ha
  obtain rfl := Option.mem_def.mp ha
  obtain ⟨p, hp⟩ := Option.isSome_iff_exists.mp (hhere a rfl)
  obtain ⟨hmem, haddr⟩ := platformAt_some hp
  rw [keeps, Option.all_some, hp, Option.any_some, decide_eq_true_eq] at hkeeps
  refine platformAt_isSome.mpr ⟨p, ?_, haddr⟩
  refine (mem_movePlatforms_iff _ _).mpr (.inl ?_)
  exact List.mem_filter.mpr ⟨hmem, decide_eq_true hkeeps⟩

/-- The owner of an item that is moved. -/
theorem moves_iff {a : Addr} {p : Platform} (hp : inp.platformAt a = some p) :
    moves inp (removedState out) (some a) = true ↔
      ¬ ∃ q ∈ out.platforms, q.status = .started ∧ q.name = p.name := by
  rw [moves, Option.any_some, hp, Option.any_some, Option.isNone_iff_eq_none,
    ← Option.not_isSome_iff_eq_none, getByName_isSome]
  simp only [removedState, List.mem_filter, decide_eq_true_eq, and_assoc]

include hin hapart in
/-- An item that is moved has its owner with it exactly if that is the first of its name. -/
theorem ownerHere_moved {a : Addr} {p : Platform} (hp : inp.platformAt a = some p)
    (hmoves : moves inp (removedState out) (some a) = true) :
    OwnerHere (movedState inp out) (some a) ↔ inp.platformGetByName p.name = some p := by
  obtain ⟨hmem, haddr⟩ := platformAt_some hp
  have hnone := (moves_iff hp).mp hmoves
  have hgone : ¬ ∃ q ∈ (removedState out).platforms, q.name = p.name := by
    simpa only [removedState, List.mem_filter, decide_eq_true_eq, and_assoc] using hnone
  constructor
  · intro h
    obtain ⟨q, hq, hqaddr⟩ := platformAt_isSome.mp (h a rfl)
    rcases (mem_movePlatforms_iff _ _).mp hq with hq | ⟨-, hq⟩
    · exact absurd (hqaddr.trans haddr.symm) (hapart q (List.mem_filter.mp hq).1 p hmem)
    · have hqmem := List.mem_of_find?_eq_some hq
      obtain rfl := List.inj_on_of_nodup_map hin.addrs hqmem hmem (hqaddr.trans haddr.symm)
      exact hq
  · intro h b hb
    obtain rfl := Option.some.inj hb
    exact platformAt_isSome.mpr ⟨p, (mem_movePlatforms_iff _ _).mpr (.inr ⟨hgone, h⟩), haddr⟩

/-- An item that stays has its owner with it. -/
theorem ownerHere_left {plat : Option Addr} (hhere : OwnerHere inp plat)
    (hmoves : moves inp (removedState out) plat = false) : OwnerHere (leftState inp out) plat := by
  intro a ha
  obtain rfl := Option.mem_def.mp ha
  obtain ⟨p, hp⟩ := Option.isSome_iff_exists.mp (hhere a rfl)
  obtain ⟨hmem, haddr⟩ := platformAt_some hp
  have hsome : ∃ q ∈ out.platforms, q.status = .started ∧ q.name = p.name := by
    by_contra hnone
    rw [(moves_iff hp).mpr hnone] at hmoves
    cases hmoves
  obtain ⟨q, hq, hstarted, hname⟩ := hsome
  refine platformAt_isSome.mpr ⟨p, mem_leavePlatforms hmem ⟨q, ?_, hname⟩, haddr⟩
  exact List.mem_filter.mpr ⟨hq, decide_eq_true hstarted⟩

include hin hout hapart in
/-- **A transfer leaves every owner with its items** exactly if the owners of volumes are
the first of their names. -/
theorem transferred_iff :
    (∃ in' out', pvStateTransfer inp out = some out' ∧ pvStateTransferIn inp out = some in' ∧
      Transferred inp out in' out') ↔ FirstOwned inp out := by
  obtain ⟨htransfer, hleft⟩ := pvStateTransfer_eq hin.ownersHere hout.ownersHere
  have hinHere := hin.ownersHere
  have houtHere := hout.ownersHere
  constructor
  · rintro ⟨in', out', hmoved, -, htransferred⟩ v hv p hp hplat
    obtain rfl := Option.some.inj (htransfer.symm.trans hmoved)
    refine or_iff_not_imp_left.mpr fun hnone => ?_
    have hat := platformAt_of_mem hin.addrs hp
    have hmoves := (moves_iff hat).mpr hnone
    refine (ownerHere_moved hin hapart hat hmoves).mp (hplat ▸ htransferred.outOwners.volumes v ?_)
    exact List.mem_append_right _ (List.mem_filter.mpr ⟨hv, by rw [hplat]; exact hmoves⟩)
  · intro hfirst
    -- an item that is moved, by what is known of its owner
    have hmovedItem : ∀ plat, OwnerHere inp plat → moves inp (removedState out) plat = true →
        (∀ p ∈ inp.platforms, plat = some p.addr →
          (∃ q ∈ out.platforms, q.status = .started ∧ q.name = p.name) ∨
            inp.platformGetByName p.name = some p) → OwnerHere (movedState inp out) plat := by
      intro plat hhere hmoves howner
      cases plat with
      | none => exact fun a ha => by cases ha
      | some a =>
        obtain ⟨p, hp⟩ := Option.isSome_iff_exists.mp (hhere a rfl)
        obtain ⟨hmem, rfl⟩ := platformAt_some hp
        refine (ownerHere_moved hin hapart hp hmoves).mpr ?_
        exact (howner p hmem rfl).resolve_left ((moves_iff hp).mp hmoves)
    have hlinked : ∀ plat : Option Addr, (∀ a ∈ plat, ∃ p, inp.platformAt a = some p ∧
        inp.platformGetByName p.name = some p) → ∀ p ∈ inp.platforms, plat = some p.addr →
          (∃ q ∈ out.platforms, q.status = .started ∧ q.name = p.name) ∨
            inp.platformGetByName p.name = some p := by
      rintro plat hplat p hp rfl
      obtain ⟨q, hq, hget⟩ := hplat p.addr rfl
      rw [platformAt_of_mem hin.addrs hp] at hq
      exact .inr (Option.some.inj hq ▸ hget)
    refine ⟨_, _, htransfer, hleft, ⟨fun j hj => ?_, fun o ho => ?_, fun v hv => ?_⟩,
      ⟨fun j hj => ?_, fun o ho => ?_, fun v hv => ?_⟩, split_perm _ _ _, split_perm _ _ _,
      split_perm _ _ _, movePlatforms_perm _ _, ?_⟩
    · rcases List.mem_append.mp hj with hj | hj
      · obtain ⟨hj, hkeeps⟩ := List.mem_filter.mp hj
        exact ownerHere_kept (houtHere.jsons j hj) hkeeps
      · obtain ⟨hj, hmoves⟩ := List.mem_filter.mp hj
        exact hmovedItem _ (hinHere.jsons j hj) hmoves (hlinked _ (hin.jsons j hj))
    · rcases List.mem_append.mp ho with ho | ho
      · obtain ⟨ho, hkeeps⟩ := List.mem_filter.mp ho
        exact ownerHere_kept (houtHere.objects o ho) hkeeps
      · obtain ⟨ho, hmoves⟩ := List.mem_filter.mp ho
        exact hmovedItem _ (hinHere.objects o ho) hmoves (hlinked _ (hin.objects o ho))
    · rcases List.mem_append.mp hv with hv | hv
      · obtain ⟨hv, hkeeps⟩ := List.mem_filter.mp hv
        exact ownerHere_kept (houtHere.volumes v hv) hkeeps
      · obtain ⟨hv, hmoves⟩ := List.mem_filter.mp hv
        exact hmovedItem _ (hinHere.volumes v hv) hmoves (hfirst v hv)
    · obtain ⟨hj, hmoves⟩ := List.mem_filter.mp hj
      exact ownerHere_left (hinHere.jsons j hj) (by simpa using hmoves)
    · obtain ⟨ho, hmoves⟩ := List.mem_filter.mp ho
      exact ownerHere_left (hinHere.objects o ho) (by simpa using hmoves)
    · obtain ⟨hv, hmoves⟩ := List.mem_filter.mp hv
      exact ownerHere_left (hinHere.volumes v hv) (by simpa using hmoves)
    · exact addrs_apart hin.addrs hout.addrs fun p hp _ => hapart p hp

end Owners

end Pantavisor.State
