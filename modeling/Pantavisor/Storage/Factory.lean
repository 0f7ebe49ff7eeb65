/-
Pantavisor.Storage.Factory — making a revision the factory revision.

`pv_storage_update_factory` first removes revision 0 and then makes a new one
with a copy of the state json of another. `updateFactory_atomic_iff` says when
this is an atomic copy: when nothing fails, what fails unnoticed included, and
the json is there once revision 0 is gone. A call that fails has removed
revision 0 already.
-/
import Pantavisor.Storage.Expand

namespace Pantavisor.Storage

open Pantavisor.Lib

/-! ## Removing a revision -/

/-- A place that `remove_in` removes: a directory with proper names in it, if it
is there. -/
structure Removable (fs : Fs) (p : Path) : Prop where
  noLink : fs.NoLink p
  dir : fs.root.get p = none ∨ fs.DirAt p
  named : fs.Named p

theorem Removable.of_remove {fs : Fs} {p q : Path} (h : Removable fs p) (hpq : ¬ q <+: p)
    (hqp : ¬ p <+: q) : Removable (fs.setRoot q none) p where
  noLink r hr l hl := by
    rcases Tree.leaf_of_set rfl hl with hl | ⟨c, -, hc, -⟩
    · exact h.noLink r hr l hl
    · cases hc
  dir := by
    have hget := Tree.get_set_disjoint hpq hqp none fs.root
    exact h.dir.imp (fun h => hget.trans h) fun ⟨es, hes⟩ => ⟨es, hget.trans hes⟩
  named r es hes e he := by
    refine h.named r es ?_ e he
    rw [← hes]
    refine (Tree.get_set_disjoint ?_ (fun h' => hqp ((List.prefix_append _ _).trans h')) none
      fs.root).symm
    intro h'
    rcases List.prefix_or_prefix_of_prefix h' (List.prefix_append p r) with h' | h'
    · exact hpq h'
    · exact hqp h'

/-- The three directories of a revision. -/
def logsPlace (rev : CStr) : Path := clean (str "logs" :: components rev)

def disksPlace (rev : CStr) : Path := clean (str "disks" :: str "rev" :: components rev)

/-- The storage without a revision. -/
def withoutRev (fs : Fs) (rev : CStr) : Fs :=
  ((fs.setRoot (clean (revPath rev)) none).setRoot (logsPlace rev) none).setRoot (disksPlace rev)
    none

/-- Every directory of the revision can be removed. -/
structure RevRemovable (fs : Fs) (rev : CStr) : Prop where
  plain : Plain (components rev)
  trails : Removable fs (clean (revPath rev))
  logs : Removable fs (logsPlace rev)
  disks : Removable fs (disksPlace rev)

/-- **Removing a revision** takes away its three directories. -/
theorem pvStorageRmRev_eq {fs : Fs} {rev : CStr} (h : RevRemovable fs rev) :
    pvStorageRmRev fs rev = withoutRev fs rev := by
  have hplain : Plain (str "disks" :: str "rev" :: components rev) :=
    (h.plain.cons (by decide)).cons (by decide)
  have htrails : clean (revPath rev) = str "trails" :: clean (components rev) :=
    clean_cons_proper (by decide) _
  have hlogs : logsPlace rev = str "logs" :: clean (components rev) :=
    clean_cons_proper (by decide) _
  have hdisks : disksPlace rev = str "disks" :: clean (str "rev" :: components rev) :=
    clean_cons_proper (by decide) _
  have h₁ := Fs.removeIn_eq (plain_revPath h.plain) rfl (by rw [htrails]; simp) h.trails.noLink
    h.trails.dir h.trails.named
  have hlogs₁ : Removable (fs.setRoot (clean (revPath rev)) none) (logsPlace rev) :=
    h.logs.of_remove (by rw [htrails, hlogs]; exact not_prefix_of_head_ne (by decide) _ _)
      (by rw [htrails, hlogs]; exact not_prefix_of_head_ne (by decide) _ _)
  have h₂ := Fs.removeIn_eq (h.plain.cons (by decide)) rfl
    (by rw [show clean _ = _ from hlogs]; simp) hlogs₁.noLink hlogs₁.dir hlogs₁.named
  have hdisks₁ : Removable (fs.setRoot (clean (revPath rev)) none) (disksPlace rev) :=
    h.disks.of_remove (by rw [htrails, hdisks]; exact not_prefix_of_head_ne (by decide) _ _)
      (by rw [htrails, hdisks]; exact not_prefix_of_head_ne (by decide) _ _)
  have hdisks₂ : Removable ((fs.setRoot (clean (revPath rev)) none).setRoot (logsPlace rev) none)
      (disksPlace rev) :=
    hdisks₁.of_remove (by rw [hlogs, hdisks]; exact not_prefix_of_head_ne (by decide) _ _)
      (by rw [hlogs, hdisks]; exact not_prefix_of_head_ne (by decide) _ _)
  have h₃ := Fs.removeIn_eq hplain rfl (by rw [show clean _ = _ from hdisks]; simp) hdisks₂.noLink
    hdisks₂.dir hdisks₂.named
  have h₁' : fs.removeIn (str "trails" :: components rev) = _ := h₁
  simp only [pvStorageRmRev, withoutRev, h₁', h₂, logsPlace, disksPlace] at h₃ ⊢
  rw [h₃]

/-! ## What the call does -/

/-- The directory of revision 0. -/
def factoryPlace : Path := [str "trails", str "0"]

theorem clean_revPath_zero : clean (revPath (str "0")) = factoryPlace := by decide

/-- A storage as the program keeps it: revision 0 is a directory, if it is
there, and there is no link in it. -/
structure FactoryOk (fs : Fs) : Prop where
  trails : fs.DirAt [str "trails"]
  rev : RevRemovable fs (str "0")
  noLink : ∀ q l, fs.root.get (factoryPlace ++ q) ≠ some (.symlink l)

/-- The storage with a revision 0 that has only its `.pvr`. -/
def withFactoryDirs (fs : Fs) : Fs :=
  ((withoutRev fs (str "0")).setRoot factoryPlace (some (.dir []))).setRoot
    (factoryPlace ++ [str ".pvr"]) (some (.dir []))

/-- The storage with a revision 0 that has only a state json. -/
def withFactoryJson (fs : Fs) (json : CStr) : Fs :=
  (withFactoryDirs fs).create (factoryPlace ++ [str ".pvr", str "json"]) json

variable {fs : Fs}

theorem FactoryOk.gone (h : FactoryOk fs) :
    (withoutRev fs (str "0")).DirAt [str "trails"] ∧
      (withoutRev fs (str "0")).root.get factoryPlace = none := by
  have hlogs : logsPlace (str "0") = [str "logs", str "0"] := by decide
  have hdisks : disksPlace (str "0") = [str "disks", str "rev", str "0"] := by decide
  have hkeep : ∀ {p : Path} {t : Tree}, str "trails" :: p = str "trails" :: p →
      (Tree.set (disksPlace (str "0")) none (Tree.set (logsPlace (str "0")) none t)).get
        (str "trails" :: p) = t.get (str "trails" :: p) := by
    intro p t _
    have hoff : ∀ {b : Name} {q : Path}, b ≠ str "trails" →
        ¬ b :: q <+: str "trails" :: p ∧ ¬ str "trails" :: p <+: b :: q := fun hne =>
      ⟨not_prefix_of_head_ne hne _ _, not_prefix_of_head_ne hne.symm _ _⟩
    rw [hlogs, hdisks, Tree.get_set_disjoint (hoff (by decide)).1 (hoff (by decide)).2,
      Tree.get_set_disjoint (hoff (by decide)).1 (hoff (by decide)).2]
  constructor
  · obtain ⟨es, hes⟩ := h.trails
    refine ⟨setEntry es (str "0") none, ?_⟩
    simp only [withoutRev, Fs.root_setRoot, clean_revPath_zero]
    rw [hkeep rfl]
    exact Tree.get_set_parent hes (str "0") none
  · simp only [withoutRev, Fs.root_setRoot, clean_revPath_zero]
    rw [factoryPlace, hkeep rfl]
    exact Tree.get_set_none (by simp) _

/-- The directory that the json is created in. -/
theorem FactoryOk.dirs (h : FactoryOk fs) :
    (withFactoryDirs fs).root.get factoryPlace = some (.dir [(str ".pvr", .dir [])]) := by
  obtain ⟨⟨es, hes⟩, -⟩ := h.gone
  have hself := Tree.get_set_self hes (str "0") (some (.dir []))
  exact Tree.get_set_parent (p := factoryPlace) hself (str ".pvr") (some (.dir []))

theorem FactoryOk.mkdirP (h : FactoryOk fs) :
    (withoutRev fs (str "0")).mkdirP (pvrPath (str "0")) = withFactoryDirs fs := by
  obtain ⟨hdir, hnone⟩ := h.gone
  obtain ⟨es, hes⟩ := hdir
  have hpath : pvrPath (str "0") = [str "trails", str "0", str ".pvr"] := by decide
  have htrails : (withoutRev fs (str "0")).DirAt (clean [str "trails"]) := ⟨es, hes⟩
  have h₁ := Fs.mkdir_there (by decide) htrails
  have h₂ := Fs.mkdir_new (n := str "0") (by decide) (by decide) htrails hnone
  have hself := Tree.get_set_self hes (str "0") (some (.dir []))
  have hrev : ((withoutRev fs (str "0")).setRoot factoryPlace (some (.dir []))).DirAt
      (clean factoryPlace) := ⟨[], hself⟩
  have h₃ := Fs.mkdir_new (n := str ".pvr") (by decide) (by decide) hrev
    (Tree.get_snoc (p := factoryPlace) hself (str ".pvr"))
  rw [hpath]
  simp only [Fs.mkdirP, Fs.mkdirFrom, List.nil_append, h₁]
  have h₂' : (withoutRev fs (str "0")).mkdir ([str "trails"] ++ [str "0"]) = _ := h₂
  have h₃' : ((withoutRev fs (str "0")).setRoot (clean [str "trails"] ++ [str "0"])
      (some (.dir []))).mkdir ([str "trails"] ++ [str "0"] ++ [str ".pvr"])
        = some (withFactoryDirs fs) := h₃
  simp only [h₂', h₃']

/-- The call, where it opens the new json. -/
theorem FactoryOk.openJson (h : FactoryOk fs) :
    ∃ i, (withFactoryDirs fs).openCreate (jsonPath (str "0")) true
        = some (i, withFactoryJson fs []) ∧
      ∀ s, (withFactoryJson fs []).writeAt i s = withFactoryJson fs s := by
  have hpath : jsonPath (str "0") = [str "trails", str "0", str ".pvr"] ++ [str "json"] := by decide
  have hdir : (withFactoryDirs fs).root.get (factoryPlace ++ [str ".pvr"]) = some (.dir []) :=
    Tree.get_snoc h.dirs (str ".pvr")
  have hnone : (withFactoryDirs fs).root.get (clean [str "trails", str "0", str ".pvr"] ++
      [str "json"]) = none := Tree.get_snoc hdir (str "json")
  have hpvr : (withFactoryDirs fs).DirAt (clean [str "trails", str "0", str ".pvr"]) := ⟨[], hdir⟩
  have hopen := Fs.openCreate_new (n := str "json") (by decide) (by decide) hpvr hnone true
  rw [hpath, hopen]
  refine ⟨_, rfl, fun s => ?_⟩
  have hover : overwrite ([] : CStr) s = s := overwrite_same_length (by simp)
  simp only [withFactoryJson, Fs.create, Fs.writeAt, Fs.data_setData, if_true, hover]
  simp only [Fs.setData]
  congr 1
  funext j
  by_cases hj : j = (withFactoryDirs fs).root.fresh <;> simp [hj]

/-- **What the call does**, step by step: revision 0 is gone whatever happens. -/
theorem updateFactory_eq (h : FactoryOk fs) (io : FactoryIo) (rev : CStr) :
    pvStorageUpdateFactory io fs rev =
      if io.openFactory then
        match if io.openRevision then (withFactoryJson fs []).readFile (jsonPath rev) else none with
        | none => (-1, withFactoryJson fs [])
        | some src =>
          (if (copyLoop io.copy src).2 < 0 then -1 else 0,
            withFactoryJson fs (copyLoop io.copy src).1)
      else (-1, withFactoryDirs fs) := by
  obtain ⟨i, hopen, hwrite⟩ := h.openJson
  simp only [pvStorageUpdateFactory, pvStorageRmRev_eq h.rev, h.mkdirP]
  cases io.openFactory with
  | false => rfl
  | true =>
      simp only [if_true, hopen]
      cases (if io.openRevision then (withFactoryJson fs []).readFile (jsonPath rev) else none) with
      | none => rfl
      | some src =>
          simp only [hwrite]
          split <;> rfl

/-! ## Atomic copies -/

/-- What revision 0 is: all that its three directories hold. -/
def SameFactory (fs fs' : Fs) : Prop :=
  ∀ p ∈ [factoryPlace, logsPlace (str "0"), disksPlace (str "0")], ∀ q,
    fs'.held (p ++ q) = fs.held (p ++ q)

/-- The copy is atomic: it is made, or nothing of revision 0 is changed. -/
def FactoryAtomic (io : FactoryIo) (fs : Fs) (rev : CStr) : Prop :=
  let (ret, fs') := pvStorageUpdateFactory io fs rev
  if ret = 0 then
    ∃ c, fs.readFile (jsonPath rev) = some c ∧ fs'.readFile (jsonPath (str "0")) = some c
  else SameFactory fs fs'

/-- What is held below a revision with nothing in it but `.pvr`, and in that at
most a state json. -/
def bareHeld (json : Option CStr) : Path → Option Fs.Held
  | [] => some .dir
  | [a] => if a = str ".pvr" then some .dir else none
  | [a, b] => if a = str ".pvr" ∧ b = str "json" then json.map .file else none
  | _ => none

/-- Revision 0 has nothing but `.pvr`, and in that at most a state json. -/
def BareFactory (fs : Fs) (json : Option CStr) : Prop :=
  (∀ q, fs.held (factoryPlace ++ q) = bareHeld json q) ∧
    (∀ q, fs.held (logsPlace (str "0") ++ q) = none) ∧
    ∀ q, fs.held (disksPlace (str "0") ++ q) = none

/-- Two storages with the same bare revision 0, and one with another. -/
theorem sameFactory_iff {fs' : Fs} {json : Option CStr} (h : BareFactory fs' json) :
    SameFactory fs fs' ↔ BareFactory fs json := by
  obtain ⟨h₁, h₂, h₃⟩ := h
  simp only [SameFactory, BareFactory, List.mem_cons, List.not_mem_nil, or_false,
    forall_eq_or_imp, forall_eq, h₁, h₂, h₃, eq_comm]

theorem held_of_get {p q : Path} {t : Tree} (h : fs.root.get p = some t) :
    fs.held (p ++ q) = (t.get q).map fs.heldOf := by
  rw [Fs.held, Tree.get_append, h, Option.bind_some]

theorem held_of_none {p : Path} (h : fs.root.get p = none) (q : Path) :
    fs.held (p ++ q) = none := by
  rw [Fs.held, Tree.get_append, h]
  rfl

/-- The logs and the disks of revision 0 are gone. -/
theorem gone_withoutRev (fs : Fs) :
    (withoutRev fs (str "0")).root.get (logsPlace (str "0")) = none ∧
      (withoutRev fs (str "0")).root.get (disksPlace (str "0")) = none := by
  have hlogs : logsPlace (str "0") = [str "logs", str "0"] := by decide
  have hdisks : disksPlace (str "0") = [str "disks", str "rev", str "0"] := by decide
  simp only [withoutRev, Fs.root_setRoot]
  rw [hlogs, hdisks]
  refine ⟨?_, Tree.get_set_none (by simp) _⟩
  rw [Tree.get_set_disjoint (by decide) (by decide)]
  exact Tree.get_set_none (by simp) _

/-- Nothing is added outside of the trails. -/
theorem withFactory_outside {p : Path} (hp : ¬ factoryPlace <+: p) (hp' : ¬ p <+: factoryPlace)
    (fs : Fs) (json : CStr) :
    (withFactoryDirs fs).root.get p = (withoutRev fs (str "0")).root.get p ∧
      (withFactoryJson fs json).root.get p = (withoutRev fs (str "0")).root.get p := by
  have hbelow : ∀ q, ¬ factoryPlace ++ q <+: p := fun q h => hp ((List.prefix_append _ _).trans h)
  have habove : ∀ q, ¬ p <+: factoryPlace ++ q := by
    intro q h
    rcases List.prefix_or_prefix_of_prefix h (List.prefix_append _ q) with h | h
    · exact hp' h
    · exact hp h
  have hdirs : (withFactoryDirs fs).root.get p = (withoutRev fs (str "0")).root.get p := by
    simp only [withFactoryDirs, Fs.root_setRoot]
    rw [Tree.get_set_disjoint (hbelow _) (habove _), Tree.get_set_disjoint hp hp']
  exact ⟨hdirs, (Fs.get_create_disjoint (hbelow _) (habove _) json).trans hdirs⟩

theorem FactoryOk.bareDirs (h : FactoryOk fs) : BareFactory (withFactoryDirs fs) none := by
  have hgone := gone_withoutRev fs
  refine ⟨fun q => ?_, held_of_none ?_, held_of_none ?_⟩
  · rw [held_of_get h.dirs]
    match q with
    | [] => rfl
    | [a] =>
      by_cases ha : a = str ".pvr"
      · subst ha; rfl
      · rw [Tree.get_cons, Tree.child_dir, lookup_cons_ne ha, bareHeld, if_neg ha]
        rfl
    | a :: b :: q =>
      have hnone : (Tree.dir [(str ".pvr", .dir [])]).get (a :: b :: q) = none := by
        rw [Tree.get_cons, Tree.child_dir]
        by_cases ha : a = str ".pvr"
        · rw [ha, lookup_cons_self]; rfl
        · rw [lookup_cons_ne ha]; rfl
      rw [hnone]
      cases q with
      | nil => simp [bareHeld]
      | cons c q => rfl
  · rw [(withFactory_outside (by decide) (by decide) fs []).1, hgone.1]
  · rw [(withFactory_outside (by decide) (by decide) fs []).1, hgone.2]

/-- The tree of the new revision 0. -/
theorem FactoryOk.json_tree (h : FactoryOk fs) (json : CStr) :
    ∃ i, (withFactoryJson fs json).root.get factoryPlace
        = some (.dir [(str ".pvr", .dir [(str "json", .file i)])]) ∧
      (withFactoryJson fs json).data i = json := by
  refine ⟨(withFactoryDirs fs).root.fresh, ?_, by simp [withFactoryJson, Fs.create, Fs.data_setData]⟩
  exact Tree.get_set_append (by simp) h.dirs _

theorem FactoryOk.bareJson (h : FactoryOk fs) (json : CStr) :
    BareFactory (withFactoryJson fs json) (some json) := by
  have hgone := gone_withoutRev fs
  obtain ⟨i, htree, hdata⟩ := h.json_tree json
  refine ⟨fun q => ?_, held_of_none ?_, held_of_none ?_⟩
  · rw [held_of_get htree]
    match q with
    | [] => rfl
    | [a] =>
      by_cases ha : a = str ".pvr"
      · subst ha; rfl
      · rw [Tree.get_cons, Tree.child_dir, lookup_cons_ne ha, bareHeld, if_neg ha]
        rfl
    | [a, b] =>
      by_cases ha : a = str ".pvr"
      · subst ha
        rw [Tree.get_cons, Tree.child_dir, lookup_cons_self, Option.bind_some, Tree.get_cons,
          Tree.child_dir]
        by_cases hb : b = str "json"
        · subst hb
          rw [lookup_cons_self]
          simp [bareHeld, Fs.heldOf, hdata]
        · rw [lookup_cons_ne hb, bareHeld, if_neg (fun h => hb h.2)]
          rfl
      · rw [Tree.get_cons, Tree.child_dir, lookup_cons_ne ha, bareHeld, if_neg (fun h => ha h.1)]
        rfl
    | a :: b :: c :: q =>
      have hnone : (Tree.dir [(str ".pvr", .dir [(str "json", .file i)])]).get (a :: b :: c :: q)
          = none := by
        rw [Tree.get_cons, Tree.child_dir]
        by_cases ha : a = str ".pvr"
        · rw [ha, lookup_cons_self, Option.bind_some, Tree.get_cons, Tree.child_dir]
          by_cases hb : b = str "json"
          · rw [hb, lookup_cons_self]; rfl
          · rw [lookup_cons_ne hb]; rfl
        · rw [lookup_cons_ne ha]; rfl
      rw [hnone]
      rfl
  · rw [(withFactory_outside (by decide) (by decide) fs json).2, hgone.1]
  · rw [(withFactory_outside (by decide) (by decide) fs json).2, hgone.2]

/-! ## The json behind the removal -/

/-- What is left of a place when another is removed: the same, or a directory
that has lost an entry. -/
theorem left_behind {p q : Path} {t u v : Tree}
    (hu : u = v ∨ u.isDir = true ∧ v.isDir = true) (h : (t.set p none).get q = some v) :
    ∃ w, t.get q = some w ∧ (u = w ∨ u.isDir = true ∧ w.isDir = true) := by
  rcases Tree.get_of_set h with ⟨w, hw, hwv⟩ | ⟨c, -, hc, -⟩
  · refine ⟨w, hw, ?_⟩
    rcases hu with rfl | ⟨hu, hv⟩
    · exact hwv.imp Eq.symm fun h => ⟨h.2, h.1⟩
    · rcases hwv with rfl | ⟨hw, -⟩
      · exact .inr ⟨hu, hv⟩
      · exact .inr ⟨hu, hw⟩
  · cases hc

/-- A place outside of revision 0 holds what it held, if anything. -/
theorem get_withFactoryJson {q : Path} {u : Tree} (hq : ¬ factoryPlace <+: q)
    (hq' : ¬ q <+: factoryPlace) {json : CStr} (h : (withFactoryJson fs json).root.get q = some u) :
    fs.root.get q = some u ∨ u.isDir = true ∧ fs.DirAt q := by
  rw [(withFactory_outside hq hq' fs json).2] at h
  simp only [withoutRev, Fs.root_setRoot] at h
  obtain ⟨v₁, h₁, hu₁⟩ := left_behind (.inl rfl) h
  obtain ⟨v₂, h₂, hu₂⟩ := left_behind hu₁ h₁
  obtain ⟨w, hw, hu⟩ := left_behind hu₂ h₂
  rcases hu with rfl | ⟨hu, hdir⟩
  · exact .inl hw
  · cases w with
    | dir es => exact .inr ⟨hu, es, hw⟩
    | file _ => cases hdir
    | symlink _ => cases hdir

/-- What is in the new revision 0. -/
theorem FactoryOk.get_inside (h : FactoryOk fs) {q : Path} {u : Tree}
    (hu : (withFactoryJson fs []).root.get (factoryPlace ++ q) = some u) :
    u.isDir = true ∨ ∃ i, u = .file i ∧ (withFactoryJson fs []).data i = [] := by
  obtain ⟨i, htree, hdata⟩ := h.json_tree []
  rw [Tree.get_append, htree, Option.bind_some] at hu
  match q with
  | [] => exact .inl (by rw [← Option.some.inj hu]; rfl)
  | a :: q =>
    obtain ⟨es, c, hes, hc, hu⟩ := Tree.get_cons_some hu
    rw [← Tree.dir.inj hes] at hc
    by_cases ha : a = str ".pvr"
    · rw [ha, lookup_cons_self] at hc
      rw [← Option.some.inj hc] at hu
      match q with
      | [] => exact .inl (by rw [← Option.some.inj hu]; rfl)
      | b :: q =>
        obtain ⟨es, c, hes, hc, hu⟩ := Tree.get_cons_some hu
        rw [← Tree.dir.inj hes] at hc
        by_cases hb : b = str "json"
        · rw [hb, lookup_cons_self] at hc
          rw [← Option.some.inj hc] at hu
          cases q with
          | nil => exact .inr ⟨i, (Option.some.inj hu).symm, hdata⟩
          | cons d q => cases hu
        · rw [lookup_cons_ne hb] at hc
          cases hc
    · rw [lookup_cons_ne ha] at hc
      cases hc

/-- A place is in revision 0, above it, or neither. -/
theorem factory_cases (q : Path) : (∃ r, q = factoryPlace ++ r) ∨ q <+: [str "trails"] ∨
    (¬ factoryPlace <+: q ∧ ¬ q <+: factoryPlace) := by
  by_cases hb : factoryPlace <+: q
  · obtain ⟨r, rfl⟩ := hb
    exact .inl ⟨r, rfl⟩
  · by_cases ha : q <+: factoryPlace
    · refine .inr (.inl ?_)
      rcases List.prefix_concat_iff.mp (show q <+: [str "trails"] ++ [str "0"] from ha) with h | h
      · exact absurd ⟨[], (List.append_nil _).trans h.symm⟩ hb
      · exact h
    · exact .inr (.inr ⟨hb, ha⟩)

theorem FactoryOk.sameLinks (h : FactoryOk fs) : Fs.SameLinks fs (withFactoryJson fs []) := by
  intro q hne l
  rcases factory_cases q with ⟨r, rfl⟩ | hq | ⟨hq, hq'⟩
  · refine iff_of_false (h.noLink r l) fun hl => ?_
    rcases h.get_inside hl with hd | ⟨i, hi, -⟩
    · cases hd
    · cases hi
  · have hdir := h.trails.above hq
    have hdir' : (withFactoryJson fs []).DirAt q := by
      obtain ⟨i, htree, -⟩ := h.json_tree []
      exact Fs.DirAt.above ⟨_, htree⟩ (hq.trans (List.prefix_append [str "trails"] [str "0"]))
    obtain ⟨es, hes⟩ := hdir
    obtain ⟨es', hes'⟩ := hdir'
    rw [hes, hes']
    simp
  · constructor
    · intro hl
      obtain ⟨u, hu⟩ := Option.ne_none_iff_exists'.mp hne
      rcases get_withFactoryJson hq hq' hu with h' | ⟨-, es, h'⟩
      · rw [hu, ← h', hl]
      · rw [hl] at h'
        cases h'
    · intro hl
      rcases get_withFactoryJson hq hq' hl with h' | ⟨hd, -⟩
      · exact h'
      · cases hd

/-- A file that is found behind the removal holds what it held before, or is the
new json. -/
theorem FactoryOk.found_again (h : FactoryOk fs) {p : List Name} {c c' : CStr}
    (hc : fs.readFile p = some c) (hc' : (withFactoryJson fs []).readFile p = some c') :
    c' = c ∨ c' = [] := by
  have hwalk : ∀ {fs : Fs} {c : CStr}, fs.readFile p = some c →
      ∃ r i, fs.walk p = some r ∧ fs.root.get r = some (.file i) ∧ fs.data i = c := by
    intro fs c hc
    unfold Fs.readFile at hc
    split at hc
    · rename_i i hf
      obtain ⟨r, hr, hg⟩ := Option.bind_eq_some_iff.mp hf
      exact ⟨r, i, hr, hg, Option.some.inj hc⟩
    · cases hc
  obtain ⟨r, i, hr, hg, hdata⟩ := hwalk hc
  obtain ⟨r', i', hr', hg', hdata'⟩ := hwalk hc'
  obtain rfl := Fs.walk_agree h.sameLinks hr hr' (by simp [hg'])
  rcases factory_cases r with ⟨s, rfl⟩ | hq | ⟨hq, hq'⟩
  · rcases h.get_inside hg' with hd | ⟨j, hj, hempty⟩
    · cases hd
    · rw [← Tree.file.inj hj, hdata'] at hempty
      exact .inr hempty
  · obtain ⟨es, hes⟩ := h.trails.above hq
    rw [hes] at hg
    cases hg
  · have hold : fs.root.get r = some (.file i') := by
      rcases get_withFactoryJson hq hq' hg' with h' | ⟨hd, -⟩
      · exact h'
      · cases hd
    have hii : i' = i := by
      rw [hold] at hg
      exact Tree.file.inj (Option.some.inj hg)
    have hfresh : i' < (withFactoryDirs fs).root.fresh := by
      refine Tree.lt_fresh_of_get (p := r) ?_
      rw [(withFactory_outside hq hq' fs []).1, ← (withFactory_outside hq hq' fs []).2, hg']
    have hsame : (withFactoryJson fs []).data i' = fs.data i' := by
      rw [withFactoryJson, Fs.create, Fs.data_setData, if_neg hfresh.ne]
      rfl
    left
    rw [← hdata', hsame, hii, hdata]

/-! ## Complete copies -/

/-- No `read` fails, and each `write` takes what was read. -/
def CopyComplete : List CopyStep → CStr → Prop
  | [], _ => True
  | step :: steps, src =>
    match step.read with
    | none => False
    | some n =>
      src = [] ∨
        step.write.taken (src.take (max 1 (min n 4096))) = src.take (max 1 (min n 4096)) ∧
          CopyComplete steps (src.drop (max 1 (min n 4096)))

theorem WriteIo.taken_prefix (io : WriteIo) (s : CStr) : io.taken s <+: s := by
  cases io with
  | none => exact List.prefix_refl s
  | some n => exact List.take_prefix n s

theorem length_copyLoop_le (steps : List CopyStep) (src : CStr) :
    (copyLoop steps src).1.length ≤ src.length := by
  induction steps generalizing src with
  | nil => exact le_refl _
  | cons step steps ih =>
      rw [copyLoop]
      split
      · exact Nat.zero_le _
      · rename_i n hn
        split
        · exact Nat.zero_le _
        · have htaken := (WriteIo.taken_prefix step.write (src.take (max 1 (min n 4096)))).length_le
          have hrest := ih (src.drop (max 1 (min n 4096)))
          simp only [List.length_append, List.length_take, List.length_drop] at htaken hrest ⊢
          omega

/-- A copy that ends without an error is the whole of the source exactly when
each `write` was complete. -/
theorem copyLoop_complete (steps : List CopyStep) (src : CStr) :
    (¬ (copyLoop steps src).2 < 0 ∧ (copyLoop steps src).1 = src) ↔ CopyComplete steps src := by
  induction steps generalizing src with
  | nil => simp [copyLoop, CopyComplete]
  | cons step steps ih =>
      rw [copyLoop, CopyComplete]
      cases step.read with
      | none => simp
      | some n =>
          by_cases hsrc : src = []
          · simp [hsrc]
          · have htaken := WriteIo.taken_prefix step.write (src.take (max 1 (min n 4096)))
            have hrest := length_copyLoop_le steps (src.drop (max 1 (min n 4096)))
            simp only [hsrc, if_false, false_or, ← ih]
            constructor
            · rintro ⟨hret, hout⟩
              -- nothing can be made up for by a later write
              have hlen := congrArg List.length hout
              have hle := htaken.length_le
              simp only [List.length_append, List.length_take, List.length_drop] at hlen hle hrest
              have hfull : step.write.taken (src.take (max 1 (min n 4096)))
                  = src.take (max 1 (min n 4096)) :=
                htaken.eq_of_length (by simp only [List.length_take]; omega)
              refine ⟨hfull, hret, ?_⟩
              rw [hfull] at hout
              exact List.append_cancel_left
                (hout.trans (List.take_append_drop (max 1 (min n 4096)) src).symm)
            · rintro ⟨hfull, hret, hout⟩
              exact ⟨hret, by rw [hfull, hout, List.take_append_drop]⟩

/-! ## When the copy is atomic -/

/-- Nothing fails, and the state json of the revision is there, with what it
holds, once revision 0 has only an empty one. -/
def FactoryCopied (io : FactoryIo) (fs : Fs) (rev : CStr) : Prop :=
  io.openFactory = true ∧ io.openRevision = true ∧
    ∃ c, fs.readFile (jsonPath rev) = some c ∧
      (withFactoryJson fs []).readFile (jsonPath rev) = some c ∧ CopyComplete io.copy c

/-- The call fails, and revision 0 was just what it leaves then. -/
def FactoryWasBare (io : FactoryIo) (fs : Fs) (rev : CStr) : Prop :=
  if io.openFactory then
    match if io.openRevision then (withFactoryJson fs []).readFile (jsonPath rev) else none with
    | none => BareFactory fs (some [])
    | some src => (copyLoop io.copy src).2 < 0 ∧ BareFactory fs (some (copyLoop io.copy src).1)
  else BareFactory fs none

/-- The new json is read back. -/
theorem FactoryOk.read_json (h : FactoryOk fs) (json : CStr) :
    (withFactoryJson fs json).readFile (jsonPath (str "0")) = some json := by
  obtain ⟨i, htree, hdata⟩ := h.json_tree json
  have hpath : jsonPath (str "0") = [str "trails", str "0", str ".pvr"] ++ [str "json"] := by decide
  have hclean : clean [str "trails", str "0", str ".pvr"] = factoryPlace ++ [str ".pvr"] := by decide
  have hfile : (withFactoryJson fs json).root.get (clean [str "trails", str "0", str ".pvr"] ++
      [str "json"]) = some (.file i) := by
    rw [hclean, List.append_assoc, Tree.get_append, htree]
    rfl
  rw [hpath, Fs.readFile_entry (by decide) (by decide) hfile, hdata]

/-- **Making a revision the factory revision is atomic** exactly when nothing
fails and the json of the revision is not that of revision 0, or when the call
fails and revision 0 had nothing to lose. -/
theorem updateFactory_atomic_iff (h : FactoryOk fs) (io : FactoryIo) (rev : CStr) :
    FactoryAtomic io fs rev ↔ FactoryCopied io fs rev ∨ FactoryWasBare io fs rev := by
  unfold FactoryAtomic FactoryCopied FactoryWasBare
  rw [updateFactory_eq h]
  cases hof : io.openFactory with
  | false =>
      simp only [Bool.false_eq_true, if_false, false_and, false_or]
      rw [if_neg (by decide), sameFactory_iff h.bareDirs]
  | true =>
      cases hor : io.openRevision with
      | false =>
          simp only [Bool.false_eq_true, if_false, if_true, false_and, and_false, false_or]
          rw [if_neg (by decide), sameFactory_iff (h.bareJson [])]
      | true =>
          simp only [if_true, true_and]
          cases hsrc : (withFactoryJson fs []).readFile (jsonPath rev) with
          | none =>
              simp only [reduceCtorEq, false_and, and_false, exists_false, false_or]
              rw [if_neg (by decide), sameFactory_iff (h.bareJson [])]
          | some src =>
              simp only
              by_cases hret : (copyLoop io.copy src).2 < 0
              · simp only [hret, if_true, true_and]
                rw [if_neg (by decide), sameFactory_iff (h.bareJson _)]
                refine ⟨.inr, fun hcases => hcases.elim (fun ⟨c, _, hcs, hcomplete⟩ => ?_) id⟩
                rw [← Option.some.inj hcs] at hcomplete
                exact absurd hret ((copyLoop_complete _ _).mpr hcomplete).1
              · simp only [hret, if_false, if_true, false_and, or_false, h.read_json,
                  Option.some.injEq]
                constructor
                · rintro ⟨c, hc, hout⟩
                  rcases h.found_again hc hsrc with heq | hempty
                  · refine ⟨c, hc, heq, (copyLoop_complete _ _).mp ?_⟩
                    rw [← heq] at hout ⊢
                    exact ⟨hret, hout⟩
                  · have hle := length_copyLoop_le io.copy src
                    rw [hempty] at hle
                    have hnil : c = [] := by
                      rw [← hout, hempty]
                      exact List.length_eq_zero_iff.mp (Nat.le_zero.mp (by simpa using hle))
                    refine ⟨c, hc, by rw [hempty, hnil], (copyLoop_complete _ _).mp ?_⟩
                    rw [hempty] at hret hout
                    rw [hnil] at hout ⊢
                    exact ⟨hret, hout⟩
                · rintro ⟨c, hc, rfl, hcomplete⟩
                  exact ⟨src, hc, ((copyLoop_complete _ _).mpr hcomplete).2⟩

/-! ## Two storages -/

/-- A storage with revision 0, the state json of which is given, and a revision
1 with an empty object. -/
def twoRevisions (json : CStr) : Fs where
  root := .dir [(str "trails", .dir [
    (str "0", .dir [(str ".pvr", .dir [(str "json", .file 0)])]),
    (str "1", .dir [(str ".pvr", .dir [(str "json", .file 1)])])])]
  data i := if i = 0 then json else str "\x7b\x7d"

theorem twoRevisions_orderly (json : CStr) : (twoRevisions json).root.orderly = true :=
  (by decide +kernel : (twoRevisions []).root.orderly = true)

theorem twoRevisions_removable (json : CStr) {p : Path}
    (h : (twoRevisions json).root.get p = none ∨ (twoRevisions json).DirAt p) :
    Removable (twoRevisions json) p where
  noLink := Fs.noLink_of_orderly (twoRevisions_orderly json) p
  dir := h
  named := Fs.named_of_orderly (twoRevisions_orderly json) p

theorem twoRevisions_ok (json : CStr) : FactoryOk (twoRevisions json) where
  trails := ⟨_, rfl⟩
  rev := {
    plain := by decide
    trails := twoRevisions_removable json (.inr ⟨_, rfl⟩)
    logs := twoRevisions_removable json (.inl rfl)
    disks := twoRevisions_removable json (.inl rfl) }
  noLink q := Tree.not_symlink_of_orderly (twoRevisions_orderly json) _

/-- Revision 1 becomes the factory revision. -/
theorem updateFactory_atomic_iff_one :
    FactoryAtomic ⟨true, true, []⟩ (twoRevisions []) (str "1") ↔
      FactoryCopied ⟨true, true, []⟩ (twoRevisions []) (str "1") ∨
        FactoryWasBare ⟨true, true, []⟩ (twoRevisions []) (str "1") :=
  updateFactory_atomic_iff (twoRevisions_ok []) ⟨true, true, []⟩ (str "1")

/-- What is left when revision 0 itself is made the factory revision. -/
def factoryOfItself : Int × Fs :=
  pvStorageUpdateFactory ⟨true, true, []⟩ (twoRevisions (str "\x7b\x7d")) (str "0")

/-- The call is not atomic then: it reports success, and revision 0 has lost its
json. -/
theorem updateFactory_not_atomic :
    ¬ ∀ (io : FactoryIo) (fs : Fs) (rev : CStr), FactoryOk fs → FactoryAtomic io fs rev := by
  intro h
  have hatomic : if factoryOfItself.1 = 0 then
      ∃ c, (twoRevisions (str "\x7b\x7d")).readFile (jsonPath (str "0")) = some c ∧
        factoryOfItself.2.readFile (jsonPath (str "0")) = some c
      else SameFactory (twoRevisions (str "\x7b\x7d")) factoryOfItself.2 :=
    h ⟨true, true, []⟩ (twoRevisions (str "\x7b\x7d")) (str "0") (twoRevisions_ok _)
  rw [if_pos (by decide +kernel)] at hatomic
  obtain ⟨c, hbefore, hafter⟩ := hatomic
  have hlost : factoryOfItself.2.readFile (jsonPath (str "0")) = some [] := by decide +kernel
  rw [hlost] at hafter
  rw [← Option.some.inj hafter] at hbefore
  exact absurd hbefore (by decide +kernel)

end Pantavisor.Storage
