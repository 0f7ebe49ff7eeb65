/-
Pantavisor.State.TransferLinks — `pv_state_transfer` on the lists in memory.

The items of two states are linked by nodes in the items, and know their platform by its
address. The transfer takes nodes out of one list and puts them into another, and frees what it
removes. It never follows a pointer to what is freed, and leaves exactly the lists that
`pvStateTransfer` and `pvStateTransferIn` say (`pvStateTransferLinks_refines`): so what is
proved of these is proved of the lists in memory.
-/
import Pantavisor.State.Transfer
import Pantavisor.Utils.DlList

namespace Pantavisor.State

open Pantavisor.Lib Pantavisor.Utils

/-! ## Memory -/

inductive ItemKind where
  | json
  | object
  | volume
  | platform
  deriving DecidableEq, Repr

/-- A node: the head of a list of `in` or of `out`, or the `list` of an item. -/
inductive StateNode where
  | head (kind : ItemKind) (out : Bool)
  | item (kind : ItemKind) (a : Addr)
  deriving DecidableEq, Repr

/-- What is at the addresses, but for the nodes. -/
structure ItemMem where
  json : Addr → PvJson
  object : Addr → PvObject
  volume : Addr → PvVolume
  platform : Addr → Platform
  addr : ∀ a, (platform a).addr = a

/-- The platform that an item is linked to. A platform goes by itself. -/
def ItemMem.plat (c : ItemMem) : ItemKind → Addr → Option Addr
  | .json, a => (c.json a).plat
  | .object, a => (c.object a).plat
  | .volume, a => (c.volume a).plat
  | .platform, a => some a

/-! ## The code -/

/-- A platform is read, if it is not freed. -/
def ItemMem.load (c : ItemMem) (h : DlHeap StateNode) (p : Addr) : Option Platform :=
  if h.live (.item .platform p) then some (c.platform p) else none

/-- `pv_platform_get_by_name` -/
def platformGetByNameLinks (c : ItemMem) (fuel : Nat) (h : DlHeap StateNode) (out : Bool)
    (name : CStr) : Option (Option StateNode) :=
  dlListFind h (fun x => match x with
    | .item _ p => (c.load h p).map fun p => p.name = name
    | .head _ _ => none) (.head .platform out) fuel

/-- The body of a loop of `pv_state_remove_platforms` -/
def removeBody (c : ItemMem) (x : StateNode) (h : DlHeap StateNode) :
    Option (DlHeap StateNode) :=
  match x with
  | .head _ _ => none
  | .item kind a =>
    match c.plat kind a with
    | none => some h
    | some p => do
      let p ← c.load h p
      if p.status = .started then return h
      let h ← dlListDel h x
      h.free x

/-- The body of a loop of `pv_state_transfer_platforms` -/
def transferBody (c : ItemMem) (fuel : Nat) (x : StateNode) (h : DlHeap StateNode) :
    Option (DlHeap StateNode) :=
  match x with
  | .head _ _ => none
  | .item kind a =>
    match c.plat kind a with
    | none => some h
    | some p => do
      let p ← c.load h p
      if (← platformGetByNameLinks c fuel h true p.name).isSome then return h
      let h ← dlListDel h x
      dlListAddTail h (.head kind true) x

/-- `pv_state_remove_platforms` -/
def pvStateRemovePlatformsLinks (c : ItemMem) (fuel : Nat) (h : DlHeap StateNode) :
    Option (DlHeap StateNode) := do
  let h ← dlListForEachSafe id (removeBody c) (.head .json true) fuel h
  let h ← dlListForEachSafe id (removeBody c) (.head .object true) fuel h
  let h ← dlListForEachSafe id (removeBody c) (.head .volume true) fuel h
  dlListForEachSafe id (removeBody c) (.head .platform true) fuel h

/-- `pv_state_transfer_platforms` -/
def pvStateTransferPlatformsLinks (c : ItemMem) (fuel : Nat) (h : DlHeap StateNode) :
    Option (DlHeap StateNode) := do
  let h ← dlListForEachSafe id (transferBody c fuel) (.head .json false) fuel h
  let h ← dlListForEachSafe id (transferBody c fuel) (.head .object false) fuel h
  let h ← dlListForEachSafe id (transferBody c fuel) (.head .volume false) fuel h
  dlListForEachSafe id (transferBody c fuel) (.head .platform false) fuel h

/-- `pv_state_transfer`, but for the text of the revision -/
def pvStateTransferLinks (c : ItemMem) (fuel : Nat) (h : DlHeap StateNode) :
    Option (DlHeap StateNode) := do
  let h ← pvStateRemovePlatformsLinks c fuel h
  pvStateTransferPlatformsLinks c fuel h

/-! ## Lists -/

variable {c : ItemMem} {h h' : DlHeap StateNode} {L : ItemKind → Bool → List Addr}
  {kind : ItemKind} {out : Bool}

/-- The addresses in the lists, with those of one list changed. -/
def setList (L : ItemKind → Bool → List Addr) (kind : ItemKind) (out : Bool) (as : List Addr) :
    ItemKind → Bool → List Addr :=
  fun kind' out' => if kind' = kind ∧ out' = out then as else L kind' out'

@[simp] theorem setList_self (as : List Addr) : setList L kind out as kind out = as := by
  simp [setList]

theorem setList_other {as : List Addr} {kind' : ItemKind} {out' : Bool}
    (hne : ¬ (kind' = kind ∧ out' = out)) : setList L kind out as kind' out' = L kind' out' :=
  if_neg hne

theorem setList_eq : setList L kind out (L kind out) = L := by
  funext kind' out'
  by_cases heq : kind' = kind ∧ out' = out
  · obtain ⟨rfl, rfl⟩ := heq
    exact setList_self _
  · exact setList_other heq

theorem setList_twice (as bs : List Addr) :
    setList (setList L kind out as) kind out bs = setList L kind out bs := by
  funext kind' out'
  by_cases heq : kind' = kind ∧ out' = out
  · obtain ⟨rfl, rfl⟩ := heq
    rw [setList_self, setList_self]
  · rw [setList_other heq, setList_other heq, setList_other heq]

/-- The lists in memory have the items at the addresses. -/
def Lists (h : DlHeap StateNode) (L : ItemKind → Bool → List Addr) : Prop :=
  ∀ kind out, DlList h (.head kind out) ((L kind out).map (.item kind))

theorem mem_items {a : Addr} {as : List Addr} {kind' : ItemKind} :
    StateNode.item kind a ∈ as.map (.item kind') ↔ kind = kind' ∧ a ∈ as := by
  simp only [List.mem_map, StateNode.item.injEq]
  constructor
  · rintro ⟨b, hb, rfl, rfl⟩
    exact ⟨rfl, hb⟩
  · rintro ⟨rfl, ha⟩
    exact ⟨a, ha, rfl, rfl⟩

theorem Lists.live (hl : Lists h L) {a : Addr} (ha : a ∈ L kind out) :
    h.live (.item kind a) = true :=
  (hl kind out).live _ (List.mem_cons_of_mem _ (mem_items.mpr ⟨rfl, ha⟩))

/-- Two lists have no node in common. -/
theorem Lists.disjoint (hl : Lists h L) {kind' : ItemKind} {out' : Bool}
    (hne : ¬ (kind' = kind ∧ out' = out)) :
    (StateNode.head kind' out' :: (L kind' out').map (.item kind')).Disjoint
      (.head kind out :: (L kind out).map (.item kind)) := by
  refine (hl kind' out').disjoint (hl kind out).toRing ?_
  rw [List.mem_cons, not_or]
  refine ⟨fun heq => ?_, by simp⟩
  obtain ⟨rfl, rfl⟩ := StateNode.head.inj heq
  exact hne ⟨rfl, rfl⟩

/-- One list is changed, and its nodes are all that is written. -/
theorem Lists.set (hl : Lists h L) {as : List Addr}
    (hlist : DlList h' (.head kind out) (as.map (.item kind)))
    (hsame : SameOff (.head kind out :: (L kind out).map (.item kind)) h h') :
    Lists h' (setList L kind out as) := by
  intro kind' out'
  by_cases heq : kind' = kind ∧ out' = out
  · obtain ⟨rfl, rfl⟩ := heq
    rw [setList_self]
    exact hlist
  · rw [setList_other heq]
    exact (hl kind' out').frame hsame (hl.disjoint heq)

/-- One list gets an item that is in none. -/
theorem Lists.add (hl : Lists h L) {a : Addr} (hlive : h.live (.item kind a) = true)
    (hnew : ∀ out, a ∉ L kind out) (out : Bool) :
    ∃ h', dlListAddTail h (.head kind out) (.item kind a) = some h' ∧
      Lists h' (setList L kind out (L kind out ++ [a])) ∧ h'.live = h.live := by
  obtain ⟨h', hadd, hlist, hsame, hlive'⟩ := dlListAddTail_spec (hl kind out)
    (by simpa [mem_items] using hnew out) hlive
  refine ⟨h', hadd, fun kind' out' => ?_, hlive'⟩
  by_cases heq : kind' = kind ∧ out' = out
  · obtain ⟨rfl, rfl⟩ := heq
    rw [setList_self, List.map_append]
    exact hlist
  · rw [setList_other heq]
    refine (hl kind' out').frame hsame ?_
    rw [List.disjoint_cons_right]
    refine ⟨fun hmem => ?_, hl.disjoint heq⟩
    rw [List.mem_cons, mem_items] at hmem
    rcases hmem with hmem | ⟨rfl, ha⟩
    · cases hmem
    · exact hnew out' ha

/-- One list loses an item. -/
theorem Lists.del (hl : Lists h L) {a : Addr} {as bs : List Addr}
    (hlist : L kind out = as ++ a :: bs) : ∃ h', dlListDel h (.item kind a) = some h' ∧
      Lists h' (setList L kind out (as ++ bs)) ∧ h'.live = h.live ∧ a ∉ as ++ bs := by
  have hcut := hl kind out
  rw [hlist, List.map_append, List.map_cons] at hcut
  obtain ⟨h', hdel, hlist', hsame, hlive⟩ := dlListDel_spec hcut
  rw [← List.map_append] at hlist'
  rw [← List.map_cons, ← List.map_append, ← hlist] at hsame
  refine ⟨h', hdel, hl.set hlist' hsame, hlive, fun hmem => ?_⟩
  have hnodup := (List.nodup_cons.mp hcut.nodup).2
  rw [List.nodup_middle, List.nodup_cons, ← List.map_append] at hnodup
  exact hnodup.1 (mem_items.mpr ⟨rfl, hmem⟩)

/-- What is freed is in no list. -/
theorem Lists.free (hl : Lists h L) {a : Addr} (hnone : ∀ out, a ∉ L kind out) :
    Lists { h with live := Function.update h.live (.item kind a) false } L := by
  intro kind' out'
  have hsame : SameOff [.item kind a] h
      { h with live := Function.update h.live (.item kind a) false } := by
    intro x hx
    rw [List.mem_singleton] at hx
    exact ⟨rfl, rfl, Function.update_of_ne hx _ _⟩
  refine (hl kind' out').frame hsame ?_
  rw [List.disjoint_singleton, List.mem_cons, mem_items, not_or]
  refine ⟨by simp, ?_⟩
  rintro ⟨rfl, ha⟩
  exact hnone out' ha

/-! ## Platforms -/

theorem load_eq (hl : Lists h L) {p : Addr} (hp : p ∈ L .platform out) :
    c.load h p = some (c.platform p) := by
  rw [ItemMem.load, hl.live hp, if_pos rfl]

/-- Some platform of a list has a name. -/
def ItemMem.named (c : ItemMem) (ps : List Addr) (name : CStr) : Bool :=
  ps.any fun p => (c.platform p).name = name

theorem platformGetByNameLinks_isSome (hl : Lists h L) {fuel : Nat}
    (hfuel : (L .platform out).length < fuel) (name : CStr) :
    (platformGetByNameLinks c fuel h out name).map Option.isSome
      = some (c.named (L .platform out) name) := by
  have htest : ∀ x ∈ (L .platform out).map (.item .platform), (match x with
      | .item _ p => (c.load h p).map fun p => decide (p.name = name)
      | .head _ _ => none) = some (match x with
      | StateNode.item _ p => decide ((c.platform p).name = name)
      | .head _ _ => false) := by
    intro x hx
    obtain ⟨p, hp, rfl⟩ := List.mem_map.mp hx
    simp [load_eq hl hp]
  rw [platformGetByNameLinks, dlListFind_eq (hl .platform out) htest (by simpa using hfuel)]
  rw [Option.map_some, Option.some.injEq, Bool.eq_iff_iff, List.find?_isSome]
  simp [ItemMem.named]

/-! ## Removing -/

/-- An item of `out` stays: it has no platform, or one that is started. -/
def ItemMem.stays (c : ItemMem) (kind : ItemKind) (a : Addr) : Bool :=
  (c.plat kind a).all fun p => (c.platform p).status = .started

/-- The platforms of the items of a list are in a list of platforms. -/
def ItemMem.Here (c : ItemMem) (L : ItemKind → Bool → List Addr) (out : Bool) : Prop :=
  ∀ kind, ∀ a ∈ L kind out, ∀ p ∈ c.plat kind a, p ∈ L .platform out

/-- The platform of an item in a list that is being gone through. -/
theorem plat_mem (hhere : c.Here L out) {a p : Addr} {as : List Addr} (ha : a ∈ as)
    (hsub : as ⊆ L kind out) (hp : p ∈ c.plat kind a) :
    p ∈ setList L kind out as .platform out := by
  by_cases hkind : kind = .platform
  · subst hkind
    obtain rfl : a = p := Option.some.inj hp
    rwa [setList_self]
  · rw [setList_other fun h => hkind h.1.symm]
    exact hhere kind a (hsub ha) p hp

/-- An item is in one list of its kind. -/
theorem Lists.not_mem_other (hl : Lists h L) {a : Addr} (ha : a ∈ L kind out) {out' : Bool}
    (hne : out' ≠ out) : a ∉ L kind out' := by
  intro ha'
  have hnot : ¬ (kind = kind ∧ out' = out) := fun heq => hne heq.2
  exact hl.disjoint hnot (List.mem_cons_of_mem _ (mem_items.mpr ⟨rfl, ha'⟩))
    (List.mem_cons_of_mem _ (mem_items.mpr ⟨rfl, ha⟩))

/-- An item that does not stay is taken out and freed. -/
theorem removeBody_eq (hl : Lists h L) {a : Addr} {as bs : List Addr}
    (hlist : L kind out = as ++ a :: bs) (hplat : ∀ p ∈ c.plat kind a, p ∈ L .platform out) :
    ∃ h', removeBody c (.item kind a) h = some h' ∧
      Lists h' (setList L kind out (as ++ (if c.stays kind a then a :: bs else bs))) ∧
        h'.live = if c.stays kind a then h.live
          else Function.update h.live (.item kind a) false := by
  have ha : a ∈ L kind out := by simp [hlist]
  have hsame : setList L kind out (as ++ a :: bs) = L := by rw [← hlist, setList_eq]
  cases hp : c.plat kind a with
  | none =>
      have hstays : c.stays kind a = true := by simp [ItemMem.stays, hp]
      refine ⟨h, by simp [removeBody, hp], ?_, by simp [hstays]⟩
      rw [if_pos hstays, hsame]
      exact hl
  | some p =>
      have hload : c.load h p = some (c.platform p) := load_eq hl (hplat p hp)
      cases hstays : c.stays kind a with
      | true =>
          have hstarted : (c.platform p).status = .started := by
            simpa [ItemMem.stays, hp] using hstays
          refine ⟨h, by simp [removeBody, hp, hload, hstarted], ?_, by simp⟩
          rw [if_pos rfl, hsame]
          exact hl
      | false =>
          have hstarted : (c.platform p).status ≠ .started := by
            simpa [ItemMem.stays, hp] using hstays
          obtain ⟨h₁, hdel, hl₁, hlive, hout⟩ := hl.del hlist
          have halive : h₁.live (.item kind a) = true := by
            rw [hlive]
            exact hl.live ha
          have hnone : ∀ out', a ∉ setList L kind out (as ++ bs) kind out' := by
            intro out'
            by_cases heq : out' = out
            · rw [heq, setList_self]
              exact hout
            · rw [setList_other fun h => heq h.2]
              exact hl.not_mem_other ha heq
          have hfree : h₁.free (.item kind a)
              = some { h₁ with live := Function.update h₁.live (.item kind a) false } := by
            rw [DlHeap.free, if_pos halive]
          refine ⟨_, ?_, by simpa using hl₁.free hnone, by simp [hlive]⟩
          simpa [removeBody, hp, hload, hstarted, hdel] using hfree

/-- What a loop of `pv_state_remove_platforms` leaves. -/
structure Removed (c : ItemMem) (kind : ItemKind) (L : ItemKind → Bool → List Addr)
    (h h' : DlHeap StateNode) : Prop where
  lists : Lists h' (setList L kind true ((L kind true).filter (c.stays kind)))
  freed : ∀ a ∈ L kind true, c.stays kind a = false → h'.live (.item kind a) = false
  same : ∀ x, (∀ a ∈ L kind true, x ≠ .item kind a) → h'.live x = h.live x

theorem removeLoop_spec (kind : ItemKind) (hl : Lists h L) (hhere : c.Here L true) {fuel : Nat}
    (hfuel : (L kind true).length < fuel) :
    ∃ h', dlListForEachSafe id (removeBody c) (.head kind true) fuel h = some h' ∧
      Removed c kind L h h' := by
  let I : List StateNode → List StateNode → DlHeap StateNode → Prop := fun kept rest h' =>
    ∃ done rs, L kind true = done ++ rs ∧ rest = rs.map (.item kind) ∧
      kept = (done.filter (c.stays kind)).map (.item kind) ∧
      Lists h' (setList L kind true (done.filter (c.stays kind) ++ rs)) ∧
      (∀ a ∈ done, c.stays kind a = false → h'.live (.item kind a) = false) ∧
      ∀ x, (∀ a ∈ L kind true, x ≠ .item kind a) → h'.live x = h.live x
  have hlists : ∀ kept rest h', I kept rest h' →
      DlList (id h') (.head kind true) (kept ++ rest) := by
    rintro kept rest h' ⟨done, rs, -, rfl, rfl, hl', -⟩
    have hlist := hl' kind true
    rwa [setList_self, List.map_append] at hlist
  have hbody : ∀ kept x rest h', I kept (x :: rest) h' → ∃ h'', removeBody c x h' = some h'' ∧
      (I (kept ++ [x]) rest h'' ∨ I kept rest h'') := by
    rintro kept x rest h' ⟨done, rs, hdone, hrest, rfl, hl', hfreed, hsame⟩
    cases rs with
    | nil => cases hrest
    | cons a rs =>
        obtain ⟨rfl, rfl⟩ := List.cons.inj hrest
        have hmem : a ∈ L kind true := by simp [hdone]
        have hsub : done.filter (c.stays kind) ++ a :: rs ⊆ L kind true := by
          rw [hdone]
          exact List.append_subset.mpr ⟨fun b hb => List.mem_append_left _
            (List.mem_of_mem_filter hb), List.subset_append_right _ _⟩
        obtain ⟨h'', hrun, hl'', hlive⟩ := removeBody_eq hl' (setList_self _)
          fun p hp => plat_mem hhere (by simp) hsub hp
        refine ⟨h'', hrun, ?_⟩
        rw [setList_twice] at hl''
        have hnext : L kind true = (done ++ [a]) ++ rs := by simp [hdone]
        have hsame' : ∀ x, (∀ a ∈ L kind true, x ≠ .item kind a) → h''.live x = h.live x := by
          intro x hx
          rw [hlive, ← hsame x hx]
          split
          · rfl
          · exact Function.update_of_ne (hx a hmem) _ _
        cases hstays : c.stays kind a with
        | true =>
            rw [hstays, if_pos rfl] at hl'' hlive
            refine .inl ⟨done ++ [a], rs, hnext, rfl, by simp [hstays], ?_, ?_, hsame'⟩
            · simpa [hstays] using hl''
            · intro b hb hb'
              rw [List.mem_append, List.mem_singleton] at hb
              rcases hb with hb | rfl
              · rw [hlive]
                exact hfreed b hb hb'
              · rw [hstays] at hb'
                cases hb'
        | false =>
            simp only [hstays, Bool.false_eq_true, if_false] at hl'' hlive
            refine .inr ⟨done ++ [a], rs, hnext, rfl, by simp [hstays], ?_, ?_, hsame'⟩
            · simpa [hstays] using hl''
            · intro b hb hb'
              rw [hlive]
              by_cases hba : b = a
              · rw [hba]
                exact Function.update_self ..
              · refine (Function.update_of_ne (by simpa using hba) _ _).trans (hfreed b ?_ hb')
                simpa [hba] using hb
  have hstart : I [] ((L kind true).map (.item kind)) h := by
    refine ⟨[], L kind true, rfl, rfl, rfl, ?_, by simp, fun _ _ => rfl⟩
    rwa [List.filter_nil, List.nil_append, setList_eq]
  obtain ⟨kept, h', hrun, done, rs, hdone, hrest, -, hl', hfreed, hsame⟩ :=
    dlListForEachSafe_rule hlists hbody hstart (by simpa using hfuel)
  obtain rfl : rs = [] := by simpa using hrest.symm
  rw [List.append_nil] at hdone hl'
  rw [← hdone] at hl' hfreed
  exact ⟨h', hrun, hl', hfreed, hsame⟩

/-! ## Moving -/

/-- An item goes over, if it has a platform of a name that `out` has not got. -/
def ItemMem.goes (c : ItemMem) (ps : List Addr) (kind : ItemKind) (a : Addr) : Bool :=
  (c.plat kind a).any fun p => !c.named ps (c.platform p).name

/-- What a loop leaves in `in` of a list, and what the list of `out` becomes. The platforms of
`out` are given by what that list is. -/
def ItemMem.moveList (c : ItemMem) (kind : ItemKind) (ps : List Addr → List Addr) :
    List Addr → List Addr → List Addr × List Addr
  | [], os => ([], os)
  | a :: as, os =>
    if c.goes (ps os) kind a then c.moveList kind ps as (os ++ [a])
    else (a :: (c.moveList kind ps as os).1, (c.moveList kind ps as os).2)

/-- The lists with one in each state changed. -/
def setLists (L : ItemKind → Bool → List Addr) (kind : ItemKind) (as os : List Addr) :
    ItemKind → Bool → List Addr :=
  setList (setList L kind false as) kind true os

theorem setLists_in (as os : List Addr) : setLists L kind as os kind false = as := by
  rw [setLists, setList_other (by simp), setList_self]

theorem setLists_other {as os : List Addr} {kind' : ItemKind} (hne : kind' ≠ kind) :
    setLists L kind as os kind' out = L kind' out := by
  rw [setLists, setList_other fun h => hne h.1, setList_other fun h => hne h.1]

theorem setLists_platform_out (as os : List Addr) :
    setLists L kind as os .platform true = setList L kind true os .platform true := by
  by_cases hkind : kind = .platform
  · subst hkind
    rw [setLists, setList_self, setList_self]
  · rw [setLists, setList_other fun h => hkind h.1.symm, setList_other fun h => hkind h.1.symm,
      setList_other fun h => hkind h.1.symm]

theorem setLists_platform_in (as os : List Addr) :
    setLists L kind as os .platform false = setList L kind false as .platform false :=
  setList_other (by simp)

theorem setLists_eq : setLists L kind (L kind false) (L kind true) = L := by
  rw [setLists, setList_eq, setList_eq]

theorem setLists_twice (as bs os ps : List Addr) :
    setList (setList (setLists L kind as os) kind false bs) kind true ps
      = setLists L kind bs ps := by
  funext kind' out'
  by_cases hkind : kind' = kind
  · subst hkind
    cases out' with
    | true => rw [setList_self, setLists, setList_self]
    | false =>
        rw [setLists_in, setList_other (by simp), setList_self]
  · rw [setList_other fun h => hkind h.1, setList_other fun h => hkind h.1,
      setLists_other hkind, setLists_other hkind]

/-- An item that goes over is put last in the list of `out`. -/
theorem transferBody_eq {fuel : Nat} (hl : Lists h L) {a : Addr} {as bs : List Addr}
    (hlist : L kind false = as ++ a :: bs) (hplat : ∀ p ∈ c.plat kind a, p ∈ L .platform false)
    (hfuel : (L .platform true).length < fuel) :
    ∃ h', transferBody c fuel (.item kind a) h = some h' ∧ h'.live = h.live ∧
      Lists h' (if c.goes (L .platform true) kind a
        then setList (setList L kind false (as ++ bs)) kind true (L kind true ++ [a]) else L) := by
  cases hp : c.plat kind a with
  | none =>
      have hgoes : c.goes (L .platform true) kind a = false := by simp [ItemMem.goes, hp]
      exact ⟨h, by simp [transferBody, hp], rfl, by simpa [hgoes] using hl⟩
  | some p =>
      have hload : c.load h p = some (c.platform p) := load_eq hl (hplat p hp)
      obtain ⟨found, hfound, hsome⟩ : ∃ found, platformGetByNameLinks c fuel h true
          (c.platform p).name = some found ∧
            found.isSome = c.named (L .platform true) (c.platform p).name := by
        have h' := platformGetByNameLinks_isSome (c := c) hl hfuel (c.platform p).name
        rwa [Option.map_eq_some_iff] at h'
      have hgoes : c.goes (L .platform true) kind a = !found.isSome := by
        simp [ItemMem.goes, hp, hsome]
      cases hisSome : found.isSome with
      | true =>
          refine ⟨h, by simp [transferBody, hp, hload, hfound, hisSome], rfl, ?_⟩
          rw [hgoes, hisSome]
          exact hl
      | false =>
          have ha : a ∈ L kind false := by simp [hlist]
          obtain ⟨h₁, hdel, hl₁, hlive₁, hout⟩ := hl.del hlist
          have halive : h₁.live (.item kind a) = true := by
            rw [hlive₁]
            exact hl.live ha
          have hnew : ∀ out, a ∉ setList L kind false (as ++ bs) kind out := by
            intro out
            cases out with
            | false => rwa [setList_self]
            | true =>
                rw [setList_other (by simp)]
                exact hl.not_mem_other ha (by simp)
          obtain ⟨h₂, hadd, hl₂, hlive₂⟩ := hl₁.add halive hnew true
          rw [setList_other (by simp)] at hl₂
          refine ⟨h₂, by simpa [transferBody, hp, hload, hfound, hisSome, hdel] using hadd,
            hlive₂.trans hlive₁, ?_⟩
          rw [hgoes, hisSome]
          exact hl₂

theorem moveList_length (ps : List Addr → List Addr) (as os : List Addr) :
    (c.moveList kind ps as os).1.length + (c.moveList kind ps as os).2.length
      = as.length + os.length := by
  induction as generalizing os with
  | nil => rfl
  | cons a as ih =>
      rw [ItemMem.moveList]
      split
      · rw [ih, List.length_append, List.length_singleton, List.length_cons]
        omega
      · have hrest := ih os
        simp only [List.length_cons]
        omega

theorem moveList_subset (ps : List Addr → List Addr) (as os : List Addr) :
    (c.moveList kind ps as os).1 ⊆ as := by
  induction as generalizing os with
  | nil => exact List.Subset.refl _
  | cons a as ih =>
      rw [ItemMem.moveList]
      split
      · exact fun b hb => List.mem_cons_of_mem _ (ih _ hb)
      · exact List.cons_subset_cons _ (ih os)

/-- Nothing is lost on the way. -/
theorem mem_moveList (ps : List Addr → List Addr) {as os : List Addr} {a : Addr}
    (ha : a ∈ as ∨ a ∈ os) :
    a ∈ (c.moveList kind ps as os).1 ∨ a ∈ (c.moveList kind ps as os).2 := by
  induction as generalizing os with
  | nil => simpa [ItemMem.moveList] using ha
  | cons b as ih =>
      rw [ItemMem.moveList]
      split
      · refine ih ?_
        simp only [List.mem_cons, List.mem_append, List.not_mem_nil, or_false] at ha ⊢
        tauto
      · rcases ha with ha | ha
        · rcases List.mem_cons.mp ha with rfl | ha
          · exact .inl List.mem_cons_self
          · exact (ih (.inl ha)).imp_left (List.mem_cons_of_mem _)
        · exact (ih (.inr ha)).imp_left (List.mem_cons_of_mem _)

/-- What a loop of `pv_state_transfer_platforms` leaves. -/
theorem transferLoop_spec (kind : ItemKind) (hl : Lists h L) (hhere : c.Here L false) {fuel : Nat}
    (hfuel : ∀ kind, (L kind false).length + (L kind true).length < fuel) :
    ∃ h', dlListForEachSafe id (transferBody c fuel) (.head kind false) fuel h = some h' ∧
      h'.live = h.live ∧
      Lists h' (setLists L kind
        (c.moveList kind (fun os => setList L kind true os .platform true)
          (L kind false) (L kind true)).1
        (c.moveList kind (fun os => setList L kind true os .platform true)
          (L kind false) (L kind true)).2) := by
  generalize hps : (fun os => setList L kind true os .platform true) = ps
  let I : List StateNode → List StateNode → DlHeap StateNode → Prop := fun kept rest h' =>
    ∃ ks rs os, kept = ks.map (.item kind) ∧ rest = rs.map (.item kind) ∧
      Lists h' (setLists L kind (ks ++ rs) os) ∧ h'.live = h.live ∧ ks ++ rs ⊆ L kind false ∧
      rs.length + os.length ≤ (L kind false).length + (L kind true).length ∧
      c.moveList kind ps (L kind false) (L kind true)
        = (ks ++ (c.moveList kind ps rs os).1, (c.moveList kind ps rs os).2)
  have hlists : ∀ kept rest h', I kept rest h' →
      DlList (id h') (.head kind false) (kept ++ rest) := by
    rintro kept rest h' ⟨ks, rs, os, rfl, rfl, hl', -⟩
    have hlist := hl' kind false
    rwa [setLists_in, List.map_append] at hlist
  have hbody : ∀ kept x rest h', I kept (x :: rest) h' → ∃ h'',
      transferBody c fuel x h' = some h'' ∧ (I (kept ++ [x]) rest h'' ∨ I kept rest h'') := by
    rintro kept x rest h' ⟨ks, rs, os, rfl, hrest, hl', hlive, hsub, hlen, hmove⟩
    cases rs with
    | nil => cases hrest
    | cons a rs =>
        obtain ⟨rfl, rfl⟩ := List.cons.inj hrest
        have hplat : ∀ p ∈ c.plat kind a,
            p ∈ setLists L kind (ks ++ a :: rs) os .platform false := by
          intro p hp
          rw [setLists_platform_in]
          exact plat_mem hhere (by simp) hsub hp
        have hroom : (setLists L kind (ks ++ a :: rs) os .platform true).length < fuel := by
          rw [setLists_platform_out]
          by_cases hkind : kind = .platform
          · subst hkind
            rw [setList_self]
            exact Nat.lt_of_le_of_lt (Nat.le_trans (Nat.le_add_left _ _) hlen) (hfuel .platform)
          · rw [setList_other fun h => hkind h.1.symm]
            exact Nat.lt_of_le_of_lt (Nat.le_add_left _ _) (hfuel .platform)
        obtain ⟨h'', hrun, hlive', hl''⟩ :=
          transferBody_eq hl' (setLists_in _ _) hplat hroom
        refine ⟨h'', hrun, ?_⟩
        rw [setLists_platform_out, congrFun hps os] at hl''
        rw [ItemMem.moveList] at hmove
        have hsub' : ks ++ rs ⊆ L kind false := fun b hb => hsub (by
          simp only [List.mem_append, List.mem_cons] at hb ⊢
          tauto)
        cases hgoes : c.goes (ps os) kind a with
        | true =>
            rw [hgoes, if_pos rfl] at hl'' hmove
            rw [setLists_twice, show setLists L kind (ks ++ a :: rs) os kind true = os from
              setList_self _] at hl''
            refine .inr ⟨ks, rs, os ++ [a], rfl, rfl, hl'', hlive'.trans hlive, hsub', ?_, hmove⟩
            simp only [List.length_append, List.length_cons, List.length_nil] at hlen ⊢
            omega
        | false =>
            simp only [hgoes, Bool.false_eq_true, if_false] at hl'' hmove
            rw [List.append_cons] at hl'' hsub
            refine .inl ⟨ks ++ [a], rs, os, by simp, rfl, hl'', hlive'.trans hlive, hsub, ?_, ?_⟩
            · simp only [List.length_cons] at hlen
              omega
            · simpa using hmove
  have hstart : I [] ((L kind false).map (.item kind)) h := by
    refine ⟨[], L kind false, L kind true, rfl, rfl, ?_, rfl, List.Subset.refl _, Nat.le_refl _,
      rfl⟩
    rwa [List.nil_append, setLists_eq]
  have hlt : ((L kind false).map (StateNode.item kind)).length < fuel := by
    rw [List.length_map]
    exact Nat.lt_of_le_of_lt (Nat.le_add_right _ _) (hfuel kind)
  obtain ⟨kept, h', hrun, ks, rs, os, -, hrest, hl', hlive, -, -, hmove⟩ :=
    dlListForEachSafe_rule hlists hbody hstart hlt
  obtain rfl : rs = [] := by simpa using hrest.symm
  rw [List.append_nil] at hl'
  rw [hmove]
  exact ⟨h', hrun, hlive, by simpa [ItemMem.moveList] using hl'⟩

/-! ## The loops one after another -/

theorem Here.set (kind : ItemKind) (hhere : c.Here L out) {as : List Addr} (hsub : as ⊆ L kind out)
    (hkind : kind ≠ .platform) : c.Here (setList L kind out as) out := by
  intro kind' a ha p hp
  rw [setList_other fun h => hkind h.1.symm]
  by_cases heq : kind' = kind
  · subst heq
    rw [setList_self] at ha
    exact hhere kind' a (hsub ha) p hp
  · rw [setList_other fun h => heq h.1] at ha
    exact hhere kind' a ha p hp

theorem Here.set_other (hhere : c.Here L out) {as : List Addr} {out' : Bool} (hne : out ≠ out') :
    c.Here (setList L kind out' as) out := by
  intro kind' a ha p hp
  rw [setList_other fun h => hne h.2] at ha ⊢
  exact hhere kind' a ha p hp

/-- The lists when `pv_state_remove_platforms` is through. -/
def removedLists (c : ItemMem) (L : ItemKind → Bool → List Addr) :
    ItemKind → Bool → List Addr :=
  fun kind out => if out then (L kind true).filter (c.stays kind) else L kind false

theorem pvStateRemovePlatformsLinks_spec (hl : Lists h L) (hhere : c.Here L true) {fuel : Nat}
    (hfuel : ∀ kind, (L kind true).length < fuel) :
    ∃ h', pvStateRemovePlatformsLinks c fuel h = some h' ∧ Lists h' (removedLists c L) ∧
      ∀ kind, ∀ a ∈ L kind true, c.stays kind a = false → h'.live (.item kind a) = false := by
  have hstays : ∀ kind, (L kind true).filter (c.stays kind) ⊆ L kind true := fun kind a ha =>
    List.mem_of_mem_filter ha
  obtain ⟨h₁, hrun₁, hend₁⟩ := removeLoop_spec .json hl hhere (hfuel .json)
  have hhere₁ := Here.set .json hhere (hstays .json) (by decide)
  obtain ⟨h₂, hrun₂, hend₂⟩ := removeLoop_spec .object hend₁.lists hhere₁ (hfuel .object)
  have hhere₂ := Here.set .object hhere₁ (hstays .object) (by decide)
  obtain ⟨h₃, hrun₃, hend₃⟩ := removeLoop_spec .volume hend₂.lists hhere₂ (hfuel .volume)
  have hhere₃ := Here.set .volume hhere₂ (hstays .volume) (by decide)
  obtain ⟨h₄, hrun₄, hend₄⟩ := removeLoop_spec .platform hend₃.lists hhere₃ (hfuel .platform)
  refine ⟨h₄, ?_, ?_, ?_⟩
  · simp [pvStateRemovePlatformsLinks, hrun₁, hrun₂, hrun₃, hrun₄]
  · intro kind out
    have hlist := hend₄.lists kind out
    cases kind <;> cases out <;> exact hlist
  · intro kind a ha hgone
    have hother : ∀ {kind' : ItemKind} {as : List Addr}, kind ≠ kind' →
        ∀ b ∈ as, StateNode.item kind a ≠ .item kind' b := fun hne b _ heq =>
      hne (StateNode.item.inj heq).1
    cases kind with
    | json =>
        rw [hend₄.same _ (hother (by decide)), hend₃.same _ (hother (by decide)),
          hend₂.same _ (hother (by decide))]
        exact hend₁.freed a ha hgone
    | object =>
        rw [hend₄.same _ (hother (by decide)), hend₃.same _ (hother (by decide))]
        exact hend₂.freed a ha hgone
    | volume =>
        rw [hend₄.same _ (hother (by decide))]
        exact hend₃.freed a ha hgone
    | platform => exact hend₄.freed a ha hgone

/-- The lists of one kind when its loop of `pv_state_transfer_platforms` is through. -/
def movedOf (c : ItemMem) (L : ItemKind → Bool → List Addr) (kind : ItemKind) :
    List Addr × List Addr :=
  c.moveList kind (fun os => setList L kind true os .platform true) (L kind false) (L kind true)

/-- The lists when `pv_state_transfer_platforms` is through. -/
def movedLists (c : ItemMem) (L : ItemKind → Bool → List Addr) : ItemKind → Bool → List Addr :=
  fun kind out => if out then (movedOf c L kind).2 else (movedOf c L kind).1

/-- What the loops that come later rely on. -/
structure Ready (c : ItemMem) (fuel : Nat) (L : ItemKind → Bool → List Addr) : Prop where
  here : c.Here L false
  fuel : ∀ kind, (L kind false).length + (L kind true).length < fuel

theorem Ready.next {fuel : Nat} (h : Ready c fuel L) (kind : ItemKind) (hkind : kind ≠ .platform) :
    Ready c fuel (setLists L kind (movedOf c L kind).1 (movedOf c L kind).2) where
  here := Here.set_other (Here.set kind h.here (moveList_subset _ _ _) hkind) (by decide)
  fuel kind' := by
    by_cases heq : kind' = kind
    · subst heq
      rw [setLists_in, setLists, setList_self]
      exact (moveList_length _ _ _).trans_lt (h.fuel kind')
    · rw [setLists_other heq, setLists_other heq]
      exact h.fuel kind'

theorem pvStateTransferPlatformsLinks_spec (hl : Lists h L) {fuel : Nat} (hready : Ready c fuel L) :
    ∃ h', pvStateTransferPlatformsLinks c fuel h = some h' ∧ Lists h' (movedLists c L) ∧
      h'.live = h.live := by
  obtain ⟨h₁, hrun₁, hlive₁, hl₁⟩ := transferLoop_spec .json hl hready.here hready.fuel
  have hready₁ := hready.next .json (by decide)
  obtain ⟨h₂, hrun₂, hlive₂, hl₂⟩ := transferLoop_spec .object hl₁ hready₁.here hready₁.fuel
  have hready₂ := hready₁.next .object (by decide)
  obtain ⟨h₃, hrun₃, hlive₃, hl₃⟩ := transferLoop_spec .volume hl₂ hready₂.here hready₂.fuel
  have hready₃ := hready₂.next .volume (by decide)
  obtain ⟨h₄, hrun₄, hlive₄, hl₄⟩ := transferLoop_spec .platform hl₃ hready₃.here hready₃.fuel
  refine ⟨h₄, ?_, ?_, hlive₄.trans (hlive₃.trans (hlive₂.trans hlive₁))⟩
  · simp [pvStateTransferPlatformsLinks, hrun₁, hrun₂, hrun₃, hrun₄]
  · intro kind out
    have hlist := hl₄ kind out
    cases kind <;> cases out <;> exact hlist

/-! ## Two states -/

/-- The lists spell a state. -/
structure Spelled (c : ItemMem) (L : ItemKind → Bool → List Addr) (out : Bool) (s : PvState) :
    Prop where
  jsons : (L .json out).map c.json = s.jsons
  objects : (L .object out).map c.object = s.objects
  volumes : (L .volume out).map c.volume = s.volumes
  platforms : (L .platform out).map c.platform = s.platforms

variable {s inp outp : PvState}

/-- A platform of a state is the one at its address. -/
theorem Spelled.of_mem (hs : Spelled c L out s) {q : Platform} (hq : q ∈ s.platforms) :
    q.addr ∈ L .platform out ∧ q = c.platform q.addr := by
  rw [← hs.platforms] at hq
  obtain ⟨a, ha, rfl⟩ := List.mem_map.mp hq
  rw [c.addr]
  exact ⟨ha, rfl⟩

theorem Spelled.platformAt (hs : Spelled c L out s) {p : Addr} (hp : p ∈ L .platform out) :
    s.platformAt p = some (c.platform p) := by
  have hmem : c.platform p ∈ s.platforms := hs.platforms ▸ List.mem_map_of_mem hp
  obtain ⟨q, hq⟩ := Option.isSome_iff_exists.mp (platformAt_isSome.mpr ⟨_, hmem, c.addr p⟩)
  obtain ⟨hq', rfl⟩ := platformAt_some hq
  rw [hq, ← (hs.of_mem hq').2]

theorem Spelled.mem_platform (hs : Spelled c L out s) {p : Addr} (hp : (s.platformAt p).isSome) :
    p ∈ L .platform out := by
  obtain ⟨q, hq, rfl⟩ := platformAt_isSome.mp hp
  exact (hs.of_mem hq).1

/-- The platforms of the items are there, if they are there in the state. -/
theorem Spelled.here (hs : Spelled c L out s) (howners : OwnersHere s) : c.Here L out := by
  have hitem : ∀ {α : Type} {f : Addr → α} {plat : α → Option Addr} {as : List Addr}
      {items : List α}, as.map f = items → (∀ o ∈ items, OwnerHere s (plat o)) →
        ∀ a ∈ as, ∀ p ∈ plat (f a), p ∈ L .platform out := by
    rintro α f plat as items rfl hhere a ha p hp
    exact hs.mem_platform (hhere _ (List.mem_map_of_mem ha) p hp)
  intro kind a ha p hp
  cases kind with
  | json => exact hitem hs.jsons howners.jsons a ha p hp
  | object => exact hitem hs.objects howners.objects a ha p hp
  | volume => exact hitem hs.volumes howners.volumes a ha p hp
  | platform => exact Option.some.inj hp ▸ ha

/-- What stays in a list is what the state keeps. -/
theorem Spelled.keeps_eq (hs : Spelled c L out s) {plat : Option Addr}
    (hplat : ∀ p ∈ plat, p ∈ L .platform out) :
    (plat.all fun p => decide ((c.platform p).status = .started)) = keeps s plat := by
  cases plat with
  | none => rfl
  | some p => simp [keeps, hs.platformAt (hplat p rfl)]

theorem Spelled.named_eq (hs : Spelled c L out s) (name : CStr) :
    c.named (L .platform out) name = (s.platformGetByName name).isSome := by
  rw [Bool.eq_iff_iff, getByName_isSome, ← hs.platforms]
  simp [ItemMem.named]

/-- What goes over from a list is what the state moves. -/
theorem Spelled.moves_eq (hin : Spelled c L false inp) (hout : Spelled c L true outp)
    {plat : Option Addr} (hplat : ∀ p ∈ plat, p ∈ L .platform false) :
    (plat.any fun p => !c.named (L .platform true) (c.platform p).name) = moves inp outp plat := by
  cases plat with
  | none => rfl
  | some p => simp [moves, hin.platformAt (hplat p rfl), hout.named_eq]

/-- `pv_state_remove_platforms` on the lists does to the state what it is to do. -/
theorem Spelled.removed (hs : Spelled c L true s) (hhere : c.Here L true) :
    Spelled c (removedLists c L) true (removedState s) := by
  have hfilter : ∀ {α : Type} {f : Addr → α} {kind : ItemKind} {keep : α → Bool} {items : List α},
      (L kind true).map f = items → (∀ a ∈ L kind true, c.stays kind a = keep (f a)) →
        ((L kind true).filter (c.stays kind)).map f = items.filter keep := by
    rintro α f kind keep items rfl hkeep
    rw [List.filter_map]
    exact congrArg (List.map f) (List.filter_congr hkeep)
  refine ⟨hfilter hs.jsons fun a ha => ?_, hfilter hs.objects fun a ha => ?_,
    hfilter hs.volumes fun a ha => ?_, hfilter hs.platforms fun a ha => ?_⟩
  · exact hs.keeps_eq (hhere .json a ha)
  · exact hs.keeps_eq (hhere .object a ha)
  · exact hs.keeps_eq (hhere .volume a ha)
  · simp [ItemMem.stays, ItemMem.plat]

/-- Where the platforms of `out` are not changed on the way, a list is split by one test. -/
theorem moveList_const (ps as os : List Addr) :
    c.moveList kind (fun _ => ps) as os
      = (as.filter fun a => !c.goes ps kind a, os ++ as.filter (c.goes ps kind)) := by
  induction as generalizing os with
  | nil => simp [ItemMem.moveList]
  | cons a as ih =>
      rw [ItemMem.moveList]
      cases hgoes : c.goes ps kind a <;> simp [hgoes, ih]

/-- The platforms go over as `movePlatforms` says. -/
theorem moveList_platforms : ∀ (as : List Addr) {os : List Addr} {o : PvState},
    os.map c.platform = o.platforms →
      ((c.moveList .platform id as os).1.map c.platform = leavePlatforms (as.map c.platform) o ∧
        (c.moveList .platform id as os).2.map c.platform
          = (movePlatforms (as.map c.platform) o).platforms)
  | [], os, o, ho => ⟨rfl, ho⟩
  | a :: as, os, o, ho => by
      have hgoes : c.goes os .platform a = !(o.platformGetByName (c.platform a).name).isSome := by
        rw [ItemMem.goes, ItemMem.plat, Option.any_some, Bool.not_inj_iff, Bool.eq_iff_iff,
          getByName_isSome, ← ho]
        simp [ItemMem.named]
      rw [ItemMem.moveList, id, hgoes, List.map_cons, leavePlatforms, movePlatforms]
      cases hnamed : (o.platformGetByName (c.platform a).name).isSome with
      | true =>
          obtain ⟨hleft, hmoved⟩ := moveList_platforms as ho
          exact ⟨congrArg (c.platform a :: ·) hleft, hmoved⟩
      | false =>
          have ho' : (os ++ [a]).map c.platform = o.platforms ++ [c.platform a] := by
            rw [List.map_append, ho, List.map_singleton]
          exact moveList_platforms as
            (o := { o with platforms := o.platforms ++ [c.platform a] }) ho'

theorem movedOf_item (hkind : kind ≠ .platform) :
    movedOf c L kind = ((L kind false).filter fun a => !c.goes (L .platform true) kind a,
      L kind true ++ (L kind false).filter (c.goes (L .platform true) kind)) := by
  have hps : (fun os => setList L kind true os .platform true) = fun _ => L .platform true := by
    funext os
    exact setList_other fun h => hkind h.1.symm
  rw [movedOf, hps, moveList_const]

theorem movedOf_platform :
    movedOf c L .platform = c.moveList .platform id (L .platform false) (L .platform true) := by
  have hps : (fun os => setList L .platform true os .platform true) = id := by
    funext os
    exact setList_self os
  rw [movedOf, hps]

/-- `pv_state_transfer_platforms` on the lists does to the states what it is to do. -/
theorem Spelled.moved (hin : Spelled c L false inp) (hout : Spelled c L true (removedState outp))
    (hhere : c.Here L false) : Spelled c (movedLists c L) false (leftState inp outp) ∧
      Spelled c (movedLists c L) true (movedState inp outp) := by
  have hsplit : ∀ {α : Type} {f : Addr → α} {items outs : List α} (plat : α → Option Addr)
      (kind : ItemKind), kind ≠ .platform → (L kind false).map f = items →
        (L kind true).map f = outs → (∀ a, c.plat kind a = plat (f a)) →
      (movedLists c L kind false).map f
          = items.filter (fun o => !moves inp (removedState outp) (plat o)) ∧
        (movedLists c L kind true).map f
          = outs ++ items.filter fun o => moves inp (removedState outp) (plat o) := by
    rintro α f items outs plat kind hkind rfl rfl hplat
    have hgoes : ∀ a ∈ L kind false,
        c.goes (L .platform true) kind a = moves inp (removedState outp) (plat (f a)) := by
      intro a ha
      rw [ItemMem.goes, hplat]
      exact hin.moves_eq hout (hplat a ▸ hhere kind a ha)
    have hin' : movedLists c L kind false = (movedOf c L kind).1 := rfl
    have hout' : movedLists c L kind true = (movedOf c L kind).2 := rfl
    rw [hin', hout', movedOf_item hkind, List.map_append, List.filter_map, List.filter_map]
    constructor
    · exact congrArg (List.map f) (List.filter_congr fun a ha => by
        rw [hgoes a ha]
        rfl)
    · exact congrArg (fun l => _ ++ List.map f l) (List.filter_congr fun a ha => by
        rw [hgoes a ha]
        rfl)
  obtain ⟨hj, hj'⟩ := hsplit PvJson.plat .json (by decide) hin.jsons hout.jsons fun _ => rfl
  obtain ⟨ho, ho'⟩ := hsplit PvObject.plat .object (by decide) hin.objects hout.objects fun _ => rfl
  obtain ⟨hv, hv'⟩ := hsplit PvVolume.plat .volume (by decide) hin.volumes hout.volumes fun _ => rfl
  obtain ⟨hp, hp'⟩ := moveList_platforms (L .platform false) hout.platforms
  rw [hin.platforms, ← movedOf_platform] at hp hp'
  exact ⟨⟨hj, ho, hv, hp⟩, ⟨hj', ho', hv', hp'⟩⟩

/-- The items of a state. -/
def PvState.itemCount (s : PvState) : Nat :=
  s.jsons.length + s.objects.length + s.volumes.length + s.platforms.length

theorem Spelled.length_le (hs : Spelled c L out s) (kind : ItemKind) :
    (L kind out).length ≤ s.itemCount := by
  have hj := congrArg List.length hs.jsons
  have ho := congrArg List.length hs.objects
  have hv := congrArg List.length hs.volumes
  have hp := congrArg List.length hs.platforms
  simp only [List.length_map] at hj ho hv hp
  rw [PvState.itemCount]
  cases kind <;> omega

/-- **`pv_state_transfer` on the lists in memory** follows no pointer to what is freed, ends, and
leaves the lists of the two states that the transfer is to leave. An item that was in a list is
in one, or freed. -/
theorem pvStateTransferLinks_refines (hl : Lists h L) (hin : Spelled c L false inp)
    (hout : Spelled c L true outp) (hinOwners : OwnersHere inp) (houtOwners : OwnersHere outp)
    {fuel : Nat} (hfuel : inp.itemCount + outp.itemCount < fuel) :
    ∃ h' L' in' out', pvStateTransferLinks c fuel h = some h' ∧ Lists h' L' ∧
      pvStateTransferIn inp outp = some in' ∧ Spelled c L' false in' ∧
      pvStateTransfer inp outp = some out' ∧ Spelled c L' true out' ∧
      ∀ kind out, ∀ a ∈ L kind out, (∃ out', a ∈ L' kind out') ∨
        h'.live (.item kind a) = false := by
  have hinHere := hin.here hinOwners
  have houtHere := hout.here houtOwners
  have hlen : ∀ kind, (L kind false).length + (L kind true).length < fuel := fun kind =>
    (Nat.add_le_add (hin.length_le kind) (hout.length_le kind)).trans_lt hfuel
  obtain ⟨h₁, hrun₁, hl₁, hfreed⟩ := pvStateRemovePlatformsLinks_spec hl houtHere
    fun kind => (Nat.le_add_left _ _).trans_lt (hlen kind)
  have hready : Ready c fuel (removedLists c L) := by
    refine ⟨hinHere, fun kind => ?_⟩
    exact (Nat.add_le_add_left (List.length_filter_le _ _) _).trans_lt (hlen kind)
  obtain ⟨h₂, hrun₂, hl₂, hlive⟩ := pvStateTransferPlatformsLinks_spec hl₁ hready
  have hin₁ : Spelled c (removedLists c L) false inp :=
    ⟨hin.jsons, hin.objects, hin.volumes, hin.platforms⟩
  obtain ⟨hleft, hmoved⟩ := hin₁.moved (hout.removed houtHere) hready.here
  obtain ⟨htransfer, htransferIn⟩ := pvStateTransfer_eq hinOwners houtOwners
  refine ⟨h₂, _, _, _, by simp [pvStateTransferLinks, hrun₁, hrun₂], hl₂, htransferIn, hleft,
    htransfer, hmoved, fun kind out a ha => ?_⟩
  have hmem : ∀ {b}, b ∈ removedLists c L kind false ∨ b ∈ removedLists c L kind true →
      ∃ out', b ∈ movedLists c (removedLists c L) kind out' := by
    intro b hb
    rcases mem_moveList _ hb with hb | hb
    · exact ⟨false, hb⟩
    · exact ⟨true, hb⟩
  cases out with
  | false => exact .inl (hmem (.inl ha))
  | true =>
      cases hstays : c.stays kind a with
      | true => exact .inl (hmem (.inr (List.mem_filter.mpr ⟨ha, hstays⟩)))
      | false =>
          right
          rw [hlive]
          exact hfreed kind a ha hstays

/-! ## An instance -/

/-- The nodes that are linked with one another: a json of a platform in one state, and an object
of a platform with the same name in the other. -/
def onePartner : List (StateNode × StateNode) :=
  [(.head .json false, .item .json ⟨1, 0⟩), (.item .json ⟨1, 0⟩, .head .json false),
    (.head .platform false, .item .platform ⟨1, 0⟩),
    (.item .platform ⟨1, 0⟩, .head .platform false),
    (.head .object true, .item .object ⟨2, 0⟩), (.item .object ⟨2, 0⟩, .head .object true),
    (.head .platform true, .item .platform ⟨2, 0⟩), (.item .platform ⟨2, 0⟩, .head .platform true)]

/-- The node on both sides of a node: a list without items has but its head. -/
def partnerOf (x : StateNode) : Option StateNode :=
  match onePartner.lookup x, x with
  | some y, _ => some y
  | none, .head _ _ => some x
  | none, .item _ _ => none

def partnerHeap : DlHeap StateNode where
  next := partnerOf
  prev := partnerOf
  live x := (partnerOf x).isSome

def partnerLists : ItemKind → Bool → List Addr
  | .json, false => [⟨1, 0⟩]
  | .platform, false => [⟨1, 0⟩]
  | .object, true => [⟨2, 0⟩]
  | .platform, true => [⟨2, 0⟩]
  | _, _ => []

def partnerPlatform (a : Addr) : Platform where
  addr := a
  name := str "a"
  type := none
  config := none
  initPid := 0
  status := .stopped
  runlevel := 0
  mgmt := false
  updated := false

def partnerMem : ItemMem where
  json _ := ⟨str "a/run.json", str "0", some ⟨1, 0⟩⟩
  object _ := ⟨str "a/root", str "0", [], [], some ⟨2, 0⟩⟩
  volume _ := ⟨str "root", .loopimg, none⟩
  platform := partnerPlatform
  addr _ := rfl

def partnerIn : PvState :=
  { pvStateNew 1 (str "1") .system1 with
    jsons := [partnerMem.json ⟨1, 0⟩]
    platforms := [partnerPlatform ⟨1, 0⟩] }

def partnerOut : PvState :=
  { pvStateNew 2 (str "0") .system1 with
    objects := [partnerMem.object ⟨2, 0⟩]
    platforms := [partnerPlatform ⟨2, 0⟩] }

theorem partnerHeap_lists : Lists partnerHeap partnerLists := by
  intro kind out
  cases kind <;> cases out <;> exact ⟨⟨by decide, by decide⟩, by decide⟩

theorem partnerIn_spelled : Spelled partnerMem partnerLists false partnerIn := ⟨rfl, rfl, rfl, rfl⟩

theorem partnerOut_spelled : Spelled partnerMem partnerLists true partnerOut := ⟨rfl, rfl, rfl, rfl⟩

/-- The object of the platform that is not started is freed with it, and the json goes over with
the platform that comes in its place. -/
theorem pvStateTransferLinks_refines_one :
    ∃ h' L' in' out', pvStateTransferLinks partnerMem 5 partnerHeap = some h' ∧ Lists h' L' ∧
      pvStateTransferIn partnerIn partnerOut = some in' ∧ Spelled partnerMem L' false in' ∧
      pvStateTransfer partnerIn partnerOut = some out' ∧ Spelled partnerMem L' true out' ∧
      ∀ kind out, ∀ a ∈ partnerLists kind out, (∃ out', a ∈ L' kind out') ∨
        h'.live (.item kind a) = false := by
  have hnone : ∀ {α : Type} {P : α → Prop}, ∀ a ∈ ([] : List α), P a := fun a ha => by cases ha
  have hin : OwnersHere partnerIn := by
    refine ⟨fun j hj a ha => ?_, hnone, hnone⟩
    obtain rfl := List.mem_singleton.mp hj
    obtain rfl := Option.some.inj ha
    decide
  have hout : OwnersHere partnerOut := by
    refine ⟨hnone, fun o ho a ha => ?_, hnone⟩
    obtain rfl := List.mem_singleton.mp ho
    obtain rfl := Option.some.inj ha
    decide
  exact pvStateTransferLinks_refines partnerHeap_lists partnerIn_spelled partnerOut_spelled hin hout
    (by decide)

end Pantavisor.State
