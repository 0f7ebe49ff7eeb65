/-
Pantavisor.State.Compare — what `pv_state_compare_states` finds.

The five loops are one scan of a list of events: each says that a reboot is needed, that
a runlevel counts, or that a pointer that is NULL is followed. The first reboot ends the
scan, and so does the first fault. `expectedRunlevel` is the same without an order, by
what the two states have.

A platform that is added has no event of its own, and its items may belong to another
one. An item that has an owner now and had none before is a fault.
-/
import Pantavisor.State.Transfer

namespace Pantavisor.State

open Pantavisor.Lib

/-! ## Events -/

/-- What the scan finds at a platform or an item. A runlevel that counts comes with the
platform of `current` that gets the flag. -/
inductive Change where
  | reboot
  | fault
  | counts (runlevel : Int) (flag : Option Addr)
  deriving DecidableEq, Repr

/-- A platform of `current`. -/
def platformEvent (pending : PvState) (p : Platform) : Option Change :=
  match pending.platformGetByName p.name with
  | some q => if q.runlevel ≠ p.runlevel then some .reboot else none
  | none => some (.counts p.runlevel (some p.addr))

/-- What an item of a state counts, with the flag that it sets. -/
def ownerEvent (s : PvState) (plat : Option Addr) (flag : Option Addr) : Change :=
  match plat with
  | none => .reboot
  | some a =>
    match s.platformAt a with
    | none => .fault
    | some p => .counts p.runlevel flag

/-- An item of `pending`. -/
def changedEvent (pending : PvState) (currentItems : List Item) (o : Item) : Option Change :=
  match getByName currentItems o.name with
  | none => some (ownerEvent pending o.plat none)
  | some c =>
    if o.value = c.value then none
    else if o.plat.isSome && c.plat.isNone then some .fault
    else some (ownerEvent pending o.plat c.plat)

/-- An item of `current`. -/
def deletedEvent (pendingItems : List Item) (current : PvState) (o : Item) : Option Change :=
  match getByName pendingItems o.name with
  | some _ => none
  | none => some (ownerEvent current o.plat o.plat)

/-- The events of the five loops. -/
def events (pending current : PvState) : List Change :=
  current.platforms.filterMap (platformEvent pending) ++
  (pending.objectItems.filterMap (changedEvent pending current.objectItems) ++
  (current.objectItems.filterMap (deletedEvent pending.objectItems current) ++
  (pending.jsonItems.filterMap (changedEvent pending current.jsonItems) ++
  current.jsonItems.filterMap (deletedEvent pending.jsonItems current))))

/-- A scan of events. -/
def runEvents : List Change → PvState → Int → Scan
  | [], current, runlevel => .next current runlevel
  | .reboot :: _, current, _ => .reboot current
  | .fault :: _, _, _ => .fault
  | .counts r flag :: es, current, runlevel =>
    runEvents es (flag.elim current current.setUpdated) (min r runlevel)

theorem runEvents_append (es es' : List Change) (current : PvState) (runlevel : Int) :
    runEvents (es ++ es') current runlevel =
      (runEvents es current runlevel).andThen (runEvents es') := by
  induction es generalizing current runlevel with
  | nil => rfl
  | cons e es ih =>
    cases e with
    | reboot => rfl
    | fault => rfl
    | counts r flag => exact ih _ _

/-! ## The loops -/

theorem comparePlatforms_eq (pending : PvState) (ps : List Platform) (current : PvState)
    (runlevel : Int) :
    comparePlatforms pending ps current runlevel =
      runEvents (ps.filterMap (platformEvent pending)) current runlevel := by
  induction ps generalizing current runlevel with
  | nil => rfl
  | cons p ps ih =>
    rw [comparePlatforms]
    cases hget : pending.platformGetByName p.name with
    | some q =>
      by_cases hlevel : q.runlevel = p.runlevel
      · rw [List.filterMap_cons_none (by simp [platformEvent, hget, hlevel])]
        simpa [hlevel] using ih current runlevel
      · rw [List.filterMap_cons_some (b := .reboot) (by simp [platformEvent, hget, hlevel])]
        simp [hlevel, runEvents]
    | none =>
      rw [List.filterMap_cons_some (b := .counts p.runlevel (some p.addr))
        (by simp [platformEvent, hget])]
      exact ih _ _

theorem compareChanged_eq (pending : PvState) (currentItems os : List Item) (current : PvState)
    (runlevel : Int) :
    compareChanged pending currentItems os current runlevel =
      runEvents (os.filterMap (changedEvent pending currentItems)) current runlevel := by
  induction os generalizing current runlevel with
  | nil => rfl
  | cons o os ih =>
    rw [compareChanged]
    cases hget : getByName currentItems o.name with
    | none =>
      rw [List.filterMap_cons_some (b := ownerEvent pending o.plat none)
        (by simp [changedEvent, hget])]
      cases hplat : o.plat with
      | none => rfl
      | some a =>
        cases hat : pending.platformAt a with
        | none => simp [hat, ownerEvent, runEvents]
        | some q =>
          simp only [hat, ownerEvent, runEvents]
          exact ih _ _
    | some c =>
      by_cases hvalue : o.value = c.value
      · rw [List.filterMap_cons_none (by simp [changedEvent, hget, hvalue])]
        simpa [hvalue] using ih current runlevel
      · cases hplat : o.plat with
        | none =>
          rw [List.filterMap_cons_some (b := .reboot)
            (by simp [changedEvent, hget, hvalue, hplat, ownerEvent])]
          simp [hvalue, runEvents]
        | some a =>
          cases hcplat : c.plat with
          | none =>
            rw [List.filterMap_cons_some (b := .fault)
              (by simp [changedEvent, hget, hvalue, hplat, hcplat])]
            simp [hvalue, hcplat, runEvents]
          | some b =>
            cases hat : pending.platformAt a with
            | none =>
              rw [List.filterMap_cons_some (b := .fault)
                (by simp [changedEvent, hget, hvalue, hplat, hcplat, ownerEvent, hat])]
              simp [hvalue, hcplat, hat, runEvents]
            | some q =>
              rw [List.filterMap_cons_some (b := .counts q.runlevel (some b))
                (by simp [changedEvent, hget, hvalue, hplat, hcplat, ownerEvent, hat])]
              simp only [hvalue, hcplat, hat, if_false, runEvents]
              exact ih _ _

/-- The same platforms at the same runlevels. -/
def SameLevels (s t : PvState) : Prop :=
  ∀ a, (s.platformAt a).map (·.runlevel) = (t.platformAt a).map (·.runlevel)

theorem platformAt_setUpdated (s : PvState) (a b : Addr) :
    (s.setUpdated a).platformAt b =
      (s.platformAt b).map fun p => if p.addr = a then { p with updated := true } else p := by
  have hkey : ((fun p : Platform => decide (p.addr = b)) ∘
      fun p => if p.addr = a then { p with updated := true } else p)
        = fun p => decide (p.addr = b) := by
    funext p
    simp only [Function.comp_apply]
    split <;> rfl
  rw [PvState.setUpdated, PvState.modifyPlatform, PvState.platformAt, List.find?_map, hkey]
  rfl

theorem SameLevels.setUpdated {s t : PvState} (h : SameLevels s t) (a : Addr) :
    SameLevels (s.setUpdated a) t := by
  intro b
  rw [← h b, platformAt_setUpdated, Option.map_map]
  refine Option.map_congr fun p _ => ?_
  simp only [Function.comp_apply]
  split <;> rfl

theorem compareDeleted_eq {start : PvState} (pendingItems os : List Item) {current : PvState}
    (runlevel : Int) (h : SameLevels current start) :
    compareDeleted pendingItems os current runlevel =
      runEvents (os.filterMap (deletedEvent pendingItems start)) current runlevel := by
  induction os generalizing current runlevel with
  | nil => rfl
  | cons o os ih =>
    rw [compareDeleted]
    cases hget : getByName pendingItems o.name with
    | some c =>
      rw [List.filterMap_cons_none (by simp [deletedEvent, hget])]
      exact ih _ h
    | none =>
      rw [List.filterMap_cons_some (b := ownerEvent start o.plat o.plat)
        (by simp [deletedEvent, hget])]
      cases hplat : o.plat with
      | none => rfl
      | some a =>
        have hlevel := h a
        cases hat : start.platformAt a with
        | none =>
          rw [hat, Option.map_none, Option.map_eq_none_iff] at hlevel
          simp [hat, hlevel, ownerEvent, runEvents]
        | some q =>
          rw [hat, Option.map_some, Option.map_eq_some_iff] at hlevel
          obtain ⟨p, hp, hrunlevel⟩ := hlevel
          simp only [hat, hp, ownerEvent, runEvents, hrunlevel]
          exact ih _ (h.setUpdated a)

theorem sameLevels_runEvents {start : PvState} (es : List Change) {current : PvState}
    (runlevel : Int) (h : SameLevels current start) {s : PvState} {r : Int}
    (hrun : runEvents es current runlevel = .next s r) : SameLevels s start := by
  induction es generalizing current runlevel with
  | nil =>
    obtain ⟨rfl, -⟩ := Scan.next.inj hrun
    exact h
  | cons e es ih =>
    cases e with
    | reboot => cases hrun
    | fault => cases hrun
    | counts r flag =>
      refine ih _ ?_ hrun
      cases flag with
      | none => exact h
      | some a => exact h.setUpdated a

/-- **The five loops are one scan.** -/
theorem compareLoops_eq (pending current : PvState) :
    compareLoops pending current = runEvents (events pending current) current maxRunlevel := by
  have hstep : ∀ {es es' : List Change} {f : PvState → Int → Scan},
      (∀ s r, SameLevels s current → f s r = runEvents es' s r) → ∀ s r, SameLevels s current →
        (runEvents es s r).andThen f = runEvents (es ++ es') s r := by
    intro es es' f hf s r hs
    rw [runEvents_append]
    cases hrun : runEvents es s r with
    | next s' r' => exact hf s' r' (sameLevels_runEvents es r hs hrun)
    | reboot s' => rfl
    | fault => rfl
  rw [compareLoops, comparePlatforms_eq, events]
  refine hstep (fun s r hs => ?_) current maxRunlevel fun _ => rfl
  rw [compareChanged_eq]
  refine hstep (fun s r hs => ?_) s r hs
  rw [compareDeleted_eq _ _ r hs]
  refine hstep (fun s r hs => ?_) s r hs
  rw [compareChanged_eq]
  exact hstep (fun s r hs => compareDeleted_eq _ _ r hs) s r hs

/-! ## How a scan ends -/

def Change.level? : Change → Option Int
  | .counts r _ => some r
  | _ => none

def Change.flag? : Change → Option Addr
  | .counts _ flag => flag
  | _ => none

/-- The lowest of some runlevels, from `MAX_RUNLEVEL` down. -/
def lowest (levels : List Int) : Int := levels.foldr min maxRunlevel

theorem le_lowest_iff {levels : List Int} {x : Int} :
    x ≤ lowest levels ↔ x ≤ maxRunlevel ∧ ∀ r ∈ levels, x ≤ r := by
  induction levels with
  | nil => simp [lowest]
  | cons r levels ih =>
    rw [lowest, List.foldr_cons, ← lowest, Int.le_min, ih, List.forall_mem_cons]
    tauto

theorem lowest_le_iff {levels : List Int} {x : Int} :
    lowest levels ≤ x ↔ maxRunlevel ≤ x ∨ ∃ r ∈ levels, r ≤ x := by
  rw [← not_iff_not, Int.not_le, ← Int.add_one_le_iff, le_lowest_iff, not_or, not_exists]
  simp only [Int.add_one_le_iff, not_and, Int.not_le]

theorem runEvents_fault {es : List Change} (h : .fault ∈ es.takeWhile (· ≠ .reboot))
    (current : PvState) (runlevel : Int) : runEvents es current runlevel = .fault := by
  induction es generalizing current runlevel with
  | nil => cases h
  | cons e es ih =>
    cases e with
    | reboot => simp at h
    | fault => rfl
    | counts r flag => exact ih (by simpa using h) _ _

theorem runEvents_reboot {es : List Change} (hfault : .fault ∉ es.takeWhile (· ≠ .reboot))
    (h : .reboot ∈ es) (current : PvState) (runlevel : Int) :
    ∃ s, runEvents es current runlevel = .reboot s := by
  induction es generalizing current runlevel with
  | nil => cases h
  | cons e es ih =>
    cases e with
    | reboot => exact ⟨current, rfl⟩
    | fault => simp at hfault
    | counts r flag => exact ih (by simpa using hfault) (by simpa using h) _ _

theorem runEvents_next {es : List Change} (hfault : .fault ∉ es) (hreboot : .reboot ∉ es)
    (current : PvState) (runlevel : Int) :
    runEvents es current runlevel =
      .next ((es.filterMap Change.flag?).foldl PvState.setUpdated current)
        ((es.filterMap Change.level?).foldl (fun m r => min r m) runlevel) := by
  induction es generalizing current runlevel with
  | nil => rfl
  | cons e es ih =>
    rw [List.mem_cons, not_or] at hfault hreboot
    cases e with
    | reboot => exact absurd rfl hreboot.1
    | fault => exact absurd rfl hfault.1
    | counts r flag =>
      rw [runEvents, ih hfault.2 hreboot.2]
      cases flag <;> rfl

theorem foldl_min_eq (levels : List Int) (runlevel : Int) :
    levels.foldl (fun m r => min r m) runlevel = levels.foldr min runlevel := by
  induction levels generalizing runlevel with
  | nil => rfl
  | cons r levels ih =>
    rw [List.foldl_cons, ih, List.foldr_cons]
    clear ih
    induction levels with
    | nil => rfl
    | cons q levels ih =>
      rw [List.foldr_cons, ih, List.foldr_cons]
      omega

/-! ## Flags -/

/-- A platform that is flagged, if it is there. -/
def FlagSet (s : PvState) (a : Addr) : Prop := ∀ p, s.platformAt a = some p → p.updated = true

theorem FlagSet.setUpdated {s : PvState} {a : Addr} (h : FlagSet s a) (b : Addr) :
    FlagSet (s.setUpdated b) a := by
  intro p hp
  rw [platformAt_setUpdated, Option.map_eq_some_iff] at hp
  obtain ⟨q, hq, rfl⟩ := hp
  split
  · rfl
  · exact h q hq

theorem flagSet_setUpdated (s : PvState) (a : Addr) : FlagSet (s.setUpdated a) a := by
  intro p hp
  rw [platformAt_setUpdated, Option.map_eq_some_iff] at hp
  obtain ⟨q, hq, rfl⟩ := hp
  rw [if_pos (platformAt_some hq).2]

theorem flagSet_foldl {a : Addr} (flags : List Addr) {s : PvState} (h : FlagSet s a ∨ a ∈ flags) :
    FlagSet (flags.foldl PvState.setUpdated s) a := by
  induction flags generalizing s with
  | nil => exact h.resolve_right List.not_mem_nil
  | cons b flags ih =>
    refine ih ?_
    rcases h with h | h
    · exact .inl (h.setUpdated b)
    · rcases List.mem_cons.mp h with rfl | h
      · exact .inl (flagSet_setUpdated s a)
      · exact .inr h

/-! ## What is to be found -/

/-- An item is among others with the same value. -/
def Unchanged (items : List Item) (o : Item) : Prop :=
  ∃ c ∈ items, c.name = o.name ∧ c.value = o.value

/-- No item has its name. -/
def Gone (items : List Item) (o : Item) : Prop := ∀ c ∈ items, c.name ≠ o.name

/-- No platform has its name. -/
def NewName (ps : List Platform) (p : Platform) : Prop := ∀ q ∈ ps, q.name ≠ p.name

instance (items : List Item) (o : Item) : Decidable (Unchanged items o) :=
  inferInstanceAs (Decidable (∃ c ∈ items, c.name = o.name ∧ c.value = o.value))

instance (items : List Item) (o : Item) : Decidable (Gone items o) :=
  inferInstanceAs (Decidable (∀ c ∈ items, c.name ≠ o.name))

instance (ps : List Platform) (p : Platform) : Decidable (NewName ps p) :=
  inferInstanceAs (Decidable (∀ q ∈ ps, q.name ≠ p.name))

/-- A platform has another runlevel. -/
def LevelChanged (pending current : PvState) : Prop :=
  ∃ p ∈ current.platforms, ∃ q ∈ pending.platforms, q.name = p.name ∧ q.runlevel ≠ p.runlevel

instance (pending current : PvState) : Decidable (LevelChanged pending current) :=
  inferInstanceAs (Decidable (∃ p ∈ current.platforms, ∃ q ∈ pending.platforms, _))

/-- The runlevel of the owner of an item, and 0 if it has none. -/
def ownerLevel (s : PvState) (o : Item) : Int :=
  (o.plat.bind s.platformAt).elim runlevelData (·.runlevel)

/-- The runlevels of what is added and changed, and of what is removed, in one of the two
kinds of items. -/
def itemLevels (pending current : PvState) (items : PvState → List Item) : List Int :=
  ((items pending).filter fun o => ¬ Unchanged (items current) o).map (ownerLevel pending) ++
  ((items current).filter fun o => Gone (items pending) o).map (ownerLevel current)

/-- The platforms that are added. -/
def addedPlatforms (pending current : PvState) : List Platform :=
  pending.platforms.filter fun p => NewName current.platforms p

/-- All that counts for the runlevel of an update. -/
def countedLevels (pending current : PvState) : List Int :=
  (if LevelChanged pending current then [runlevelData] else []) ++
  (current.platforms.filter fun p => NewName pending.platforms p).map (·.runlevel) ++
  (addedPlatforms pending current).map (·.runlevel) ++
  itemLevels pending current PvState.objectItems ++ itemLevels pending current PvState.jsonItems

/-- The runlevel of an update, by what the two states have. -/
def expectedRunlevel (pending current : PvState) : Int := lowest (countedLevels pending current)

/-- The owners in `current` of what is changed or removed have the flag in `s`. -/
def Flagged (pending current s : PvState) : Prop :=
  (∀ o ∈ current.objectItems, ¬ Unchanged pending.objectItems o → ∀ a ∈ o.plat, FlagSet s a) ∧
  ∀ o ∈ current.jsonItems, ¬ Unchanged pending.jsonItems o → ∀ a ∈ o.plat, FlagSet s a

/-- **An exact comparison**: no NULL is followed, the runlevel is the expected one, and the
flags are set unless it is 0. -/
def Exact (pending current : PvState) : Prop :=
  ∃ s runlevel, pvStateCompareStates pending current = some (s, runlevel) ∧
    runlevel = expectedRunlevel pending current ∧
    (runlevel ≠ 0 → Flagged pending current s)

/-! ## Names -/

/-- The names of each list are distinct. -/
structure DistinctNames (s : PvState) : Prop where
  platforms : (s.platforms.map (·.name)).Nodup
  objects : (s.objectItems.map (·.name)).Nodup
  jsons : (s.jsonItems.map (·.name)).Nodup

theorem getByName_none_iff {items : List Item} {name : CStr} :
    getByName items name = none ↔ ∀ c ∈ items, c.name ≠ name := by
  simp [getByName]

theorem getByName_of_mem {items : List Item} (h : (items.map (·.name)).Nodup) {c : Item}
    (hc : c ∈ items) {name : CStr} (hname : c.name = name) : getByName items name = some c := by
  cases hget : getByName items name with
  | none => exact absurd hname (getByName_none_iff.mp hget c hc)
  | some d =>
    have hd : d.name = name := by simpa using List.find?_some hget
    rw [List.inj_on_of_nodup_map h (List.mem_of_find?_eq_some hget) hc (hd.trans hname.symm)]

theorem platformGetByName_none_iff {s : PvState} {name : CStr} :
    s.platformGetByName name = none ↔ ∀ p ∈ s.platforms, p.name ≠ name := by
  simp [PvState.platformGetByName]

/-! ## The events of each list -/

theorem platformEvent_cases {pending : PvState}
    (hnames : (pending.platforms.map (·.name)).Nodup) (p : Platform) :
    ((∃ q ∈ pending.platforms, q.name = p.name ∧ q.runlevel ≠ p.runlevel) ∧
      platformEvent pending p = some .reboot) ∨
    ((¬ NewName pending.platforms p ∧
      ∀ q ∈ pending.platforms, q.name = p.name → q.runlevel = p.runlevel) ∧
      platformEvent pending p = none) ∨
    (NewName pending.platforms p ∧
      platformEvent pending p = some (.counts p.runlevel (some p.addr))) := by
  rw [platformEvent]
  cases hget : pending.platformGetByName p.name with
  | some q =>
    have hmem := List.mem_of_find?_eq_some hget
    have hname : q.name = p.name := by simpa using List.find?_some hget
    by_cases hlevel : q.runlevel = p.runlevel
    · refine .inr (.inl ⟨⟨fun h => h q hmem hname, fun q' hq' hname' => ?_⟩,
        if_neg (not_not.mpr hlevel)⟩)
      rw [List.inj_on_of_nodup_map hnames hq' hmem (hname'.trans hname.symm)]
      exact hlevel
    · exact .inl ⟨⟨q, hmem, hname, hlevel⟩, if_pos hlevel⟩
  | none => exact .inr (.inr ⟨platformGetByName_none_iff.mp hget, rfl⟩)

theorem ownerEvent_cases {s : PvState} {o : Item} (h : OwnerHere s o.plat) (flag : Option Addr) :
    (o.plat = none ∧ ownerLevel s o = runlevelData ∧ ownerEvent s o.plat flag = .reboot) ∨
    (o.plat.isSome ∧ ownerEvent s o.plat flag = .counts (ownerLevel s o) flag) := by
  cases hplat : o.plat with
  | none => exact .inl ⟨rfl, by rw [ownerLevel, hplat]; rfl, rfl⟩
  | some a =>
    obtain ⟨p, hp⟩ := Option.isSome_iff_exists.mp (h a hplat)
    exact .inr ⟨rfl, by simp [ownerEvent, ownerLevel, hplat, hp]⟩

section Kind

variable {pending current : PvState} {items : PvState → List Item}

/-- The events of one of the two kinds of items. -/
def kindEvents (pending current : PvState) (items : PvState → List Item) : List Change :=
  (items pending).filterMap (changedEvent pending (items current)) ++
  (items current).filterMap (deletedEvent (items pending) current)

/-- The items of a kind have names of their own, and owners that are there. -/
structure KindOk (pending current : PvState) (items : PvState → List Item) : Prop where
  names : ((items current).map (·.name)).Nodup
  pending : ∀ o ∈ items pending, OwnerHere pending o.plat
  current : ∀ o ∈ items current, OwnerHere current o.plat

variable (hkind : KindOk pending current items)

include hkind

theorem changedEvent_cases {o : Item} (ho : o ∈ items pending) :
    (Unchanged (items current) o ∧ changedEvent pending (items current) o = none) ∨
    (¬ Unchanged (items current) o ∧ ownerLevel pending o = runlevelData ∧
      changedEvent pending (items current) o = some .reboot) ∨
    (¬ Unchanged (items current) o ∧ changedEvent pending (items current) o = some .fault) ∨
    (¬ Unchanged (items current) o ∧ ∃ flag,
      changedEvent pending (items current) o = some (.counts (ownerLevel pending o) flag) ∧
      ∀ c ∈ items current, c.name = o.name → flag = c.plat) := by
  have howner := ownerEvent_cases (hkind.pending o ho)
  rw [changedEvent]
  cases hget : getByName (items current) o.name with
  | none =>
    have hgone := getByName_none_iff.mp hget
    have hnot : ¬ Unchanged (items current) o := fun ⟨c, hc, hname, _⟩ => hgone c hc hname
    rcases howner none with ⟨-, hlevel, hevent⟩ | ⟨-, hevent⟩
    · exact .inr (.inl ⟨hnot, hlevel, congrArg some hevent⟩)
    · exact .inr (.inr (.inr ⟨hnot, none, congrArg some hevent,
        fun c hc hname => absurd hname (hgone c hc)⟩))
  | some c =>
    have hmem := List.mem_of_find?_eq_some hget
    have hname : c.name = o.name := by simpa using List.find?_some hget
    have honly : ∀ d ∈ items current, d.name = o.name → d = c := fun d hd hdname =>
      Option.some.inj ((getByName_of_mem hkind.names hd hdname).symm.trans hget)
    dsimp only
    by_cases hvalue : o.value = c.value
    · exact .inl ⟨⟨c, hmem, hname, hvalue.symm⟩, if_pos hvalue⟩
    · have hnot : ¬ Unchanged (items current) o := by
        rintro ⟨d, hd, hdname, hdvalue⟩
        exact hvalue (honly d hd hdname ▸ hdvalue.symm)
      rw [if_neg hvalue]
      rcases howner c.plat with ⟨hplat, hlevel, hevent⟩ | ⟨hplat, hevent⟩
      · refine .inr (.inl ⟨hnot, hlevel, ?_⟩)
        rw [hevent, hplat]
        rfl
      · cases hcplat : c.plat with
        | none => exact .inr (.inr (.inl ⟨hnot, if_pos (by rw [hplat]; rfl)⟩))
        | some b =>
          rw [hcplat] at hevent
          refine .inr (.inr (.inr ⟨hnot, some b, ?_, fun d hd hdname => ?_⟩))
          · rw [hevent, hplat]
            rfl
          · rw [honly d hd hdname, hcplat]

theorem deletedEvent_cases {o : Item} (ho : o ∈ items current) :
    (¬ Gone (items pending) o ∧ deletedEvent (items pending) current o = none) ∨
    (Gone (items pending) o ∧ ownerLevel current o = runlevelData ∧
      deletedEvent (items pending) current o = some .reboot) ∨
    (Gone (items pending) o ∧
      deletedEvent (items pending) current o = some (.counts (ownerLevel current o) o.plat)) := by
  rw [deletedEvent]
  cases hget : getByName (items pending) o.name with
  | some c =>
    have hmem := List.mem_of_find?_eq_some hget
    have hname : c.name = o.name := by simpa using List.find?_some hget
    exact .inl ⟨fun h => h c hmem hname, rfl⟩
  | none =>
    have hgone := getByName_none_iff.mp hget
    rcases ownerEvent_cases (hkind.current o ho) o.plat with ⟨-, hlevel, hevent⟩ | ⟨-, hevent⟩
    · exact .inr (.inl ⟨hgone, hlevel, congrArg some hevent⟩)
    · exact .inr (.inr ⟨hgone, congrArg some hevent⟩)

/-- An item without an owner counts 0. -/
theorem reboot_kindEvents (h : .reboot ∈ kindEvents pending current items) :
    runlevelData ∈ itemLevels pending current items := by
  rcases List.mem_append.mp h with h | h
  · obtain ⟨o, ho, hevent⟩ := List.mem_filterMap.mp h
    refine List.mem_append_left _ (List.mem_map.mpr ⟨o, ?_⟩)
    rcases changedEvent_cases hkind ho with ⟨-, h⟩ | ⟨hnot, hlevel, -⟩ | ⟨-, h⟩ | ⟨-, flag, h, -⟩
    · rw [h] at hevent; cases hevent
    · exact ⟨List.mem_filter.mpr ⟨ho, decide_eq_true hnot⟩, hlevel⟩
    · rw [h] at hevent; cases hevent
    · rw [h] at hevent; cases hevent
  · obtain ⟨o, ho, hevent⟩ := List.mem_filterMap.mp h
    refine List.mem_append_right _ (List.mem_map.mpr ⟨o, ?_⟩)
    rcases deletedEvent_cases hkind ho with ⟨-, h⟩ | ⟨hgone, hlevel, -⟩ | ⟨-, h⟩
    · rw [h] at hevent; cases hevent
    · exact ⟨List.mem_filter.mpr ⟨ho, decide_eq_true hgone⟩, hlevel⟩
    · rw [h] at hevent; cases hevent

variable (hfault : .fault ∉ kindEvents pending current items)
  (hreboot : .reboot ∉ kindEvents pending current items)

include hfault hreboot

/-- What the events count is what is to be counted. -/
theorem levels_kindEvents (r : Int) :
    (∃ flag, .counts r flag ∈ kindEvents pending current items) ↔
      r ∈ itemLevels pending current items := by
  have hchanged : ∀ o ∈ items pending, ∀ e, changedEvent pending (items current) o = some e →
      e ∈ kindEvents pending current items := fun o ho e he =>
    List.mem_append_left _ (List.mem_filterMap.mpr ⟨o, ho, he⟩)
  have hdeleted : ∀ o ∈ items current, ∀ e, deletedEvent (items pending) current o = some e →
      e ∈ kindEvents pending current items := fun o ho e he =>
    List.mem_append_right _ (List.mem_filterMap.mpr ⟨o, ho, he⟩)
  constructor
  · rintro ⟨flag, h⟩
    rcases List.mem_append.mp h with h | h
    · obtain ⟨o, ho, hevent⟩ := List.mem_filterMap.mp h
      refine List.mem_append_left _ (List.mem_map.mpr ⟨o, ?_⟩)
      rcases changedEvent_cases hkind ho with ⟨-, h⟩ | ⟨-, -, h⟩ | ⟨-, h⟩ | ⟨hnot, flag', h, -⟩
      · rw [h] at hevent; cases hevent
      · rw [h] at hevent; cases hevent
      · rw [h] at hevent; cases hevent
      · rw [h] at hevent
        exact ⟨List.mem_filter.mpr ⟨ho, decide_eq_true hnot⟩,
          (Change.counts.inj (Option.some.inj hevent)).1⟩
    · obtain ⟨o, ho, hevent⟩ := List.mem_filterMap.mp h
      refine List.mem_append_right _ (List.mem_map.mpr ⟨o, ?_⟩)
      rcases deletedEvent_cases hkind ho with ⟨-, h⟩ | ⟨-, -, h⟩ | ⟨hgone, h⟩
      · rw [h] at hevent; cases hevent
      · rw [h] at hevent; cases hevent
      · rw [h] at hevent
        exact ⟨List.mem_filter.mpr ⟨ho, decide_eq_true hgone⟩,
          (Change.counts.inj (Option.some.inj hevent)).1⟩
  · intro h
    rcases List.mem_append.mp h with h | h
    · obtain ⟨o, ho, rfl⟩ := List.mem_map.mp h
      obtain ⟨ho, hnot⟩ := List.mem_filter.mp ho
      rcases changedEvent_cases hkind ho with ⟨hun, -⟩ | ⟨-, -, h⟩ | ⟨-, h⟩ | ⟨-, flag, h, -⟩
      · exact absurd hun (of_decide_eq_true hnot)
      · exact absurd (hchanged o ho _ h) hreboot
      · exact absurd (hchanged o ho _ h) hfault
      · exact ⟨flag, hchanged o ho _ h⟩
    · obtain ⟨o, ho, rfl⟩ := List.mem_map.mp h
      obtain ⟨ho, hgone⟩ := List.mem_filter.mp ho
      rcases deletedEvent_cases hkind ho with ⟨hnot, -⟩ | ⟨-, -, h⟩ | ⟨-, h⟩
      · exact absurd (of_decide_eq_true hgone) hnot
      · exact absurd (hdeleted o ho _ h) hreboot
      · exact ⟨o.plat, hdeleted o ho _ h⟩

/-- What is changed or removed flags its owner. -/
theorem flags_kindEvents {o : Item} (ho : o ∈ items current) (hnot : ¬ Unchanged (items pending) o)
    {a : Addr} (ha : o.plat = some a) :
    ∃ r, .counts r (some a) ∈ kindEvents pending current items := by
  by_cases hgone : Gone (items pending) o
  · rcases deletedEvent_cases hkind ho with ⟨hnot, -⟩ | ⟨-, -, h⟩ | ⟨-, h⟩
    · exact absurd hgone hnot
    · exact absurd (List.mem_append_right _ (List.mem_filterMap.mpr ⟨o, ho, h⟩)) hreboot
    · exact ⟨_, List.mem_append_right _ (List.mem_filterMap.mpr ⟨o, ho, ha ▸ h⟩)⟩
  · simp only [Gone, not_forall, not_not] at hgone
    obtain ⟨c, hc, hname⟩ := hgone
    have hmem : ∀ e, changedEvent pending (items current) c = some e →
        e ∈ kindEvents pending current items := fun e he =>
      List.mem_append_left _ (List.mem_filterMap.mpr ⟨c, hc, he⟩)
    rcases changedEvent_cases hkind hc with ⟨hun, -⟩ | ⟨-, -, h⟩ | ⟨-, h⟩ | ⟨-, flag, h, hflag⟩
    · obtain ⟨d, hd, hdname, hdvalue⟩ := hun
      obtain rfl := List.inj_on_of_nodup_map hkind.names hd ho (hdname.trans hname)
      exact absurd ⟨c, hc, hname, hdvalue.symm⟩ hnot
    · exact absurd (hmem _ h) hreboot
    · exact absurd (hmem _ h) hfault
    · rw [hflag o ho hname.symm, ha] at h
      exact ⟨_, hmem _ h⟩

end Kind

/-! ## The comparison -/

theorem pvStateCompareStates_eq (pending current : PvState) :
    (∀ s r, runEvents (events pending current) current maxRunlevel = .next s r →
      pvStateCompareStates pending current = some (s, r)) ∧
    (∀ s, runEvents (events pending current) current maxRunlevel = .reboot s →
      pvStateCompareStates pending current = some (s, runlevelData)) ∧
    (runEvents (events pending current) current maxRunlevel = .fault →
      pvStateCompareStates pending current = none) := by
  rw [← compareLoops_eq]
  refine ⟨fun s r h => ?_, fun s h => ?_, fun h => ?_⟩
  · rw [pvStateCompareStates, h]
  · rw [pvStateCompareStates, h]
  · rw [pvStateCompareStates, h]

/-- What the loops over the items need, and the runlevels of platforms. -/
structure Comparable (pending current : PvState) : Prop where
  platforms : (pending.platforms.map (·.name)).Nodup
  objects : KindOk pending current PvState.objectItems
  jsons : KindOk pending current PvState.jsonItems
  levels : (∀ p ∈ pending.platforms, runlevelData ≤ p.runlevel) ∧
    ∀ p ∈ current.platforms, runlevelData ≤ p.runlevel

/-- The events, by what they are found at. -/
theorem mem_events {pending current : PvState} {e : Change} :
    e ∈ events pending current ↔ e ∈ current.platforms.filterMap (platformEvent pending) ∨
      e ∈ kindEvents pending current PvState.objectItems ∨
      e ∈ kindEvents pending current PvState.jsonItems := by
  simp only [events, kindEvents, List.mem_append]
  tauto

/-- A reboot is one that is expected. -/
theorem reboot_counted {pending current : PvState} (h : Comparable pending current)
    (hreboot : .reboot ∈ events pending current) :
    runlevelData ∈ countedLevels pending current := by
  simp only [countedLevels, List.mem_append]
  rcases mem_events.mp hreboot with hplat | hobject | hjson
  · obtain ⟨p, hp, hevent⟩ := List.mem_filterMap.mp hplat
    rcases platformEvent_cases h.platforms p with ⟨⟨q, hq⟩, -⟩ | ⟨-, hnone⟩ | ⟨-, hcounts⟩
    · refine .inl (.inl (.inl (.inl ?_)))
      rw [if_pos (show LevelChanged pending current from ⟨p, hp, q, hq⟩)]
      exact List.mem_singleton_self _
    · rw [hnone] at hevent; cases hevent
    · rw [hcounts] at hevent; cases hevent
  · exact .inl (.inr (reboot_kindEvents h.objects hobject))
  · exact .inr (reboot_kindEvents h.jsons hjson)

theorem ownerLevel_nonneg {s : PvState} (h : ∀ p ∈ s.platforms, runlevelData ≤ p.runlevel)
    (o : Item) : runlevelData ≤ ownerLevel s o := by
  rw [ownerLevel]
  cases hat : o.plat.bind s.platformAt with
  | none => exact Int.le_refl _
  | some p =>
    obtain ⟨a, -, hp⟩ := Option.bind_eq_some_iff.mp hat
    exact h p (platformAt_some hp).1

theorem itemLevels_nonneg {pending current : PvState} (h : Comparable pending current)
    {items : PvState → List Item} {r : Int} (hr : r ∈ itemLevels pending current items) :
    runlevelData ≤ r := by
  rcases List.mem_append.mp hr with hr | hr
  · obtain ⟨o, -, rfl⟩ := List.mem_map.mp hr
    exact ownerLevel_nonneg h.levels.1 o
  · obtain ⟨o, -, rfl⟩ := List.mem_map.mp hr
    exact ownerLevel_nonneg h.levels.2 o

theorem countedLevels_nonneg {pending current : PvState} (h : Comparable pending current) :
    ∀ r ∈ countedLevels pending current, runlevelData ≤ r := by
  intro r hr
  simp only [countedLevels, List.mem_append] at hr
  rcases hr with (((hr | hr) | hr) | hr) | hr
  · split at hr
    · exact Int.le_of_eq (List.mem_singleton.mp hr).symm
    · cases hr
  · obtain ⟨p, hp, rfl⟩ := List.mem_map.mp hr
    exact h.levels.2 p (List.mem_filter.mp hp).1
  · obtain ⟨p, hp, rfl⟩ := List.mem_map.mp hr
    exact h.levels.1 p (List.mem_filter.mp hp).1
  · exact itemLevels_nonneg h hr
  · exact itemLevels_nonneg h hr

/-- A runlevel that is changed is a reboot. -/
theorem not_levelChanged {pending current : PvState} (h : Comparable pending current)
    (hreboot : .reboot ∉ events pending current) : ¬ LevelChanged pending current := by
  rintro ⟨p, hp, q, hq, hname, hlevel⟩
  simp only [mem_events, not_or] at hreboot
  rcases platformEvent_cases h.platforms p with ⟨-, he⟩ | ⟨⟨-, hsame⟩, -⟩ | ⟨hnew, -⟩
  · exact hreboot.1 (List.mem_filterMap.mpr ⟨p, hp, he⟩)
  · exact hlevel (hsame q hq hname)
  · exact hnew q hq hname

section NoReboot

variable {pending current : PvState} (h : Comparable pending current)
  (hfault : .fault ∉ events pending current) (hreboot : .reboot ∉ events pending current)

include h hfault hreboot

/-- Without a reboot, the events count everything but the platforms that are added. -/
theorem mem_countedLevels (r : Int) :
    r ∈ countedLevels pending current ↔
      r ∈ (events pending current).filterMap Change.level? ∨
        ∃ p ∈ addedPlatforms pending current, p.runlevel = r := by
  have hsame := not_levelChanged h hreboot
  simp only [mem_events, not_or] at hfault hreboot
  have hevents : r ∈ (events pending current).filterMap Change.level? ↔
      (∃ flag, .counts r flag ∈ current.platforms.filterMap (platformEvent pending)) ∨
        r ∈ itemLevels pending current PvState.objectItems ∨
        r ∈ itemLevels pending current PvState.jsonItems := by
    rw [← levels_kindEvents h.objects hfault.2.1 hreboot.2.1,
      ← levels_kindEvents h.jsons hfault.2.2 hreboot.2.2, List.mem_filterMap, ← exists_or,
      ← exists_or]
    constructor
    · rintro ⟨e, he, hlevel⟩
      cases e with
      | reboot => cases hlevel
      | fault => cases hlevel
      | counts r' flag =>
        obtain rfl := Option.some.inj hlevel
        exact ⟨flag, mem_events.mp he⟩
    · rintro ⟨flag, he⟩
      exact ⟨.counts r flag, mem_events.mpr he, rfl⟩
  have hplats : (∃ flag, .counts r flag ∈ current.platforms.filterMap (platformEvent pending)) ↔
      r ∈ (current.platforms.filter fun p => NewName pending.platforms p).map (·.runlevel) := by
    constructor
    · rintro ⟨flag, he⟩
      obtain ⟨p, hp, hevent⟩ := List.mem_filterMap.mp he
      rcases platformEvent_cases h.platforms p with ⟨-, he⟩ | ⟨-, he⟩ | ⟨hnew, he⟩
      · rw [he] at hevent; cases hevent
      · rw [he] at hevent; cases hevent
      · rw [he] at hevent
        exact List.mem_map.mpr ⟨p, List.mem_filter.mpr ⟨hp, decide_eq_true hnew⟩,
          (Change.counts.inj (Option.some.inj hevent)).1⟩
    · intro hr
      obtain ⟨p, hp, rfl⟩ := List.mem_map.mp hr
      obtain ⟨hp, hnew⟩ := List.mem_filter.mp hp
      rcases platformEvent_cases h.platforms p with ⟨-, he⟩ | ⟨⟨hnot, -⟩, -⟩ | ⟨-, he⟩
      · exact absurd (List.mem_filterMap.mpr ⟨p, hp, he⟩) hreboot.1
      · exact absurd (of_decide_eq_true hnew) hnot
      · exact ⟨_, List.mem_filterMap.mpr ⟨p, hp, he⟩⟩
  have hadded : (∃ p ∈ addedPlatforms pending current, p.runlevel = r) ↔
      r ∈ (addedPlatforms pending current).map (·.runlevel) := List.mem_map.symm
  rw [hevents, hplats, hadded]
  simp only [countedLevels, if_neg hsame, List.mem_append, List.not_mem_nil, false_or]
  tauto

/-- The comparison, without a reboot. -/
theorem compare_of_next :
    ∃ s, pvStateCompareStates pending current
        = some (s, lowest ((events pending current).filterMap Change.level?)) ∧
      Flagged pending current s := by
  have hnext := runEvents_next hfault hreboot current maxRunlevel
  rw [foldl_min_eq] at hnext
  refine ⟨_, (pvStateCompareStates_eq pending current).1 _ _ hnext, ?_⟩
  simp only [mem_events, not_or] at hfault hreboot
  have hflag : ∀ r a, .counts r (some a) ∈ events pending current →
      FlagSet (((events pending current).filterMap Change.flag?).foldl PvState.setUpdated current)
        a := fun r a he =>
    flagSet_foldl _ (.inr (List.mem_filterMap.mpr ⟨_, he, rfl⟩))
  constructor
  · intro o ho hnot a ha
    obtain ⟨r, he⟩ := flags_kindEvents h.objects hfault.2.1 hreboot.2.1 ho hnot ha
    exact hflag r a (mem_events.mpr (.inr (.inl he)))
  · intro o ho hnot a ha
    obtain ⟨r, he⟩ := flags_kindEvents h.jsons hfault.2.2 hreboot.2.2 ho hnot ha
    exact hflag r a (mem_events.mpr (.inr (.inr he)))

end NoReboot

/-- When a comparison is exact: no item that has no owner in `current` is changed before the
first reason for a reboot, and without one no platform is added below the runlevel of
something else that is added, changed or removed. -/
structure Comparing (pending current : PvState) : Prop where
  owned : .fault ∉ (events pending current).takeWhile (· ≠ .reboot)
  added : .reboot ∉ events pending current → ∀ p ∈ addedPlatforms pending current,
    maxRunlevel ≤ p.runlevel ∨ ∃ r ∈ (events pending current).filterMap Change.level?, r ≤ p.runlevel

instance (pending current : PvState) : Decidable (Comparing pending current) :=
  decidable_of_iff (_ ∧ _) ⟨fun h => ⟨h.1, h.2⟩, fun h => ⟨h.owned, h.added⟩⟩

theorem takeWhile_no_reboot {es : List Change} (h : .reboot ∉ es) :
    es.takeWhile (· ≠ .reboot) = es :=
  List.takeWhile_eq_self_iff.mpr fun _ he => decide_eq_true fun heq => h (heq ▸ he)

/-- **The comparison is exact** under that condition and no other. -/
theorem exact_iff {pending current : PvState} (h : Comparable pending current) :
    Exact pending current ↔ Comparing pending current := by
  obtain ⟨hnext, hreboots, hfaults⟩ := pvStateCompareStates_eq pending current
  constructor
  · rintro ⟨s, r, hcompare, hexpected, -⟩
    have howned : .fault ∉ (events pending current).takeWhile (· ≠ .reboot) := by
      intro hfault
      rw [hfaults (runEvents_fault hfault _ _)] at hcompare
      cases hcompare
    refine ⟨howned, fun hreboot p hp => ?_⟩
    rw [takeWhile_no_reboot hreboot] at howned
    obtain ⟨s', hcompare', -⟩ := compare_of_next h howned hreboot
    obtain ⟨-, rfl⟩ := Prod.mk.inj (Option.some.inj (hcompare'.symm.trans hcompare))
    rw [← lowest_le_iff, hexpected]
    refine (le_lowest_iff.mp (Int.le_refl (expectedRunlevel pending current))).2 _ ?_
    exact (mem_countedLevels h howned hreboot _).mpr (.inr ⟨p, hp, rfl⟩)
  · rintro ⟨howned, hadded⟩
    by_cases hreboot : .reboot ∈ events pending current
    · obtain ⟨s, hs⟩ := runEvents_reboot howned hreboot current maxRunlevel
      refine ⟨s, runlevelData, hreboots s hs, ?_, fun hne => absurd rfl hne⟩
      refine Int.le_antisymm (le_lowest_iff.mpr ⟨by decide, countedLevels_nonneg h⟩) ?_
      exact lowest_le_iff.mpr (.inr ⟨_, reboot_counted h hreboot, Int.le_refl _⟩)
    · rw [takeWhile_no_reboot hreboot] at howned
      obtain ⟨s, hcompare, hflagged⟩ := compare_of_next h howned hreboot
      refine ⟨s, _, hcompare, ?_, fun _ => hflagged⟩
      have hmem := mem_countedLevels h howned hreboot
      refine Int.le_antisymm (le_lowest_iff.mpr ⟨?_, fun r hr => ?_⟩)
        (le_lowest_iff.mpr ⟨?_, fun r hr => ?_⟩)
      · exact (le_lowest_iff.mp (Int.le_refl _)).1
      · rcases (hmem r).mp hr with hr | ⟨p, hp, rfl⟩
        · exact (le_lowest_iff.mp (Int.le_refl _)).2 r hr
        · exact lowest_le_iff.mpr (hadded hreboot p hp)
      · exact (le_lowest_iff.mp (Int.le_refl (expectedRunlevel pending current))).1
      · exact (le_lowest_iff.mp (Int.le_refl (expectedRunlevel pending current))).2 r
          ((hmem r).mpr (.inl hr))

end Pantavisor.State
