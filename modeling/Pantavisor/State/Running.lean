/-
Pantavisor.State.Running — which platforms a transition without reboot leaves running.

`pv_state_compare_states` flags the platforms of `current` that are gone, and those with
an item that is changed or removed. `pv_platforms_stop` of the app level stops what is
flagged, and `pv_state_transfer` keeps what is still started. Without a reboot nothing
below the app level is flagged, so that the platforms that stay are the started ones
that are not touched (`stays_iff`). A new item touches no platform.
-/
import Pantavisor.State.Compare

namespace Pantavisor.State

open Pantavisor.Lib

/-! ## What is touched -/

/-- Some item of a platform is changed or removed. -/
def ItemTouched (items pendingItems : List Item) (a : Addr) : Prop :=
  ∃ o ∈ items, o.plat = some a ∧ ¬ Unchanged pendingItems o

instance (items pendingItems : List Item) (a : Addr) : Decidable (ItemTouched items pendingItems a) :=
  inferInstanceAs (Decidable (∃ o ∈ items, _))

/-- A platform of `current` is gone, or something of it is not what it was. -/
def Touched (pending current : PvState) (p : Platform) : Prop :=
  NewName pending.platforms p ∨
    ItemTouched current.objectItems pending.objectItems p.addr ∨
    ItemTouched current.jsonItems pending.jsonItems p.addr

instance (pending current : PvState) (p : Platform) : Decidable (Touched pending current p) :=
  inferInstanceAs (Decidable (_ ∨ _))

/-- A platform of `current` that keeps running. -/
def Stays (pending current : PvState) (p : Platform) : Prop :=
  p.status = .started ∧ ¬ Touched pending current p

instance (pending current : PvState) (p : Platform) : Decidable (Stays pending current p) :=
  inferInstanceAs (Decidable (_ ∧ _))

/-- Items of one name belong to platforms of one name, if they belong to any. -/
def SameOwners (pending current : PvState) (items : PvState → List Item) : Prop :=
  ∀ o ∈ items pending, ∀ c ∈ items current, o.name = c.name → ∀ q p,
    o.plat.bind pending.platformAt = some q → c.plat.bind current.platformAt = some p →
      q.name = p.name

/-- Two states, of which the second one runs. -/
structure Mergeable (pending current : PvState) : Prop where
  comparable : Comparable pending current
  pendingNames : DistinctNames pending
  currentNames : DistinctNames current
  addrs : (current.platforms.map (·.addr)).Nodup
  objects : SameOwners pending current PvState.objectItems
  jsons : SameOwners pending current PvState.jsonItems
  levels : ∀ p ∈ current.platforms, p.runlevel ≤ runlevelApp
  unflagged : ∀ p ∈ current.platforms, p.updated = false
  running : ∀ p ∈ current.platforms, p.runlevel ≠ runlevelData → p.status = .started ∧ 0 < p.initPid

theorem platformGetByName_of_mem {s : PvState} (h : (s.platforms.map (·.name)).Nodup) {p : Platform}
    (hp : p ∈ s.platforms) : s.platformGetByName p.name = some p := by
  cases hget : s.platformGetByName p.name with
  | none => exact absurd rfl (platformGetByName_none_iff.mp hget p hp)
  | some q =>
    have hname : q.name = p.name := by simpa using List.find?_some hget
    rw [List.inj_on_of_nodup_map h (List.mem_of_find?_eq_some hget) hp hname]

/-! ## The comparison -/

/-- A comparison without a reboot: it goes through, and counts the app level only. -/
theorem compare_no_reboot {pending current s : PvState} {r : Int}
    (h : pvStateCompareStates pending current = some (s, r))
    (hreboot : pvUpdateRequiresReboot r = false) :
    .fault ∉ events pending current ∧ .reboot ∉ events pending current ∧
      s = ((events pending current).filterMap Change.flag?).foldl PvState.setUpdated current ∧
      r = runlevelApp ∧ ∀ q flag, .counts q flag ∈ events pending current → runlevelApp ≤ q := by
  obtain ⟨hnext, hreboots, hfaults⟩ := pvStateCompareStates_eq pending current
  have hno : .reboot ∉ events pending current := by
    intro hmem
    by_cases hfault : .fault ∈ (events pending current).takeWhile (· ≠ .reboot)
    · rw [hfaults (runEvents_fault hfault _ _)] at h
      cases h
    · obtain ⟨t, ht⟩ := runEvents_reboot hfault hmem current maxRunlevel
      rw [hreboots t ht] at h
      obtain ⟨-, rfl⟩ := Prod.mk.inj (Option.some.inj h)
      exact absurd hreboot (by decide)
  have hfault : .fault ∉ events pending current := by
    intro hmem
    rw [hfaults (runEvents_fault (by rwa [takeWhile_no_reboot hno]) _ _)] at h
    cases h
  have hrun := runEvents_next hfault hno current maxRunlevel
  rw [foldl_min_eq] at hrun
  rw [hnext _ _ hrun] at h
  obtain ⟨rfl, hr⟩ := Prod.mk.inj (Option.some.inj h)
  have hlow : runlevelApp ≤ lowest ((events pending current).filterMap Change.level?) := by
    have hlevel : ¬ r ≤ runlevelPlatform := of_decide_eq_false hreboot
    have hr' : lowest ((events pending current).filterMap Change.level?) = r := hr
    rw [hr']
    simp only [runlevelPlatform, runlevelApp] at hlevel ⊢
    omega
  obtain ⟨-, hall⟩ := le_lowest_iff.mp hlow
  have hle := (le_lowest_iff.mp (Int.le_refl
    (lowest ((events pending current).filterMap Change.level?)))).1
  refine ⟨hfault, hno, rfl, ?_, fun q flag hq => hall q (List.mem_filterMap.mpr ⟨_, hq, rfl⟩)⟩
  exact hr.symm.trans (Int.le_antisymm hle hlow)

/-! ## Flags -/

/-- The platforms of a state, with their flags. -/
theorem foldl_setUpdated (flags : List Addr) (s : PvState) :
    flags.foldl PvState.setUpdated s = { s with
      platforms := s.platforms.map fun p =>
        if p.addr ∈ flags then { p with updated := true } else p } := by
  induction flags generalizing s with
  | nil => simp
  | cons b flags ih =>
    rw [List.foldl_cons, ih, PvState.setUpdated, PvState.modifyPlatform, List.map_map]
    congr 1
    refine List.map_congr_left fun p _ => ?_
    by_cases hb : p.addr = b
    · simp [hb]
    · simp [hb]

/-- The flag of an event is the one that it was given. -/
theorem ownerEvent_flag {s : PvState} {plat flag flag' : Option Addr} {r : Int}
    (h : ownerEvent s plat flag = .counts r flag') : flag = flag' := by
  unfold ownerEvent at h
  split at h
  · cases h
  · split at h
    · cases h
    · exact (Change.counts.inj h).2

/-- An item of `pending` without an owner is in `current` too, without a reboot. -/
theorem unowned_pending {pending current : PvState} {items : PvState → List Item}
    (hreboot : .reboot ∉ kindEvents pending current items) {o : Item} (ho : o ∈ items pending)
    (hplat : o.plat = none) : Unchanged (items current) o := by
  by_contra hnot
  refine hreboot (List.mem_append_left _ (List.mem_filterMap.mpr ⟨o, ho, ?_⟩))
  rw [changedEvent, hplat]
  split
  · rfl
  · rename_i c hget
    have hname : c.name = o.name := by simpa using List.find?_some hget
    have hvalue : o.value ≠ c.value := fun heq =>
      hnot ⟨c, List.mem_of_find?_eq_some hget, hname, heq.symm⟩
    rw [if_neg hvalue]
    rfl

section Kind

variable {pending current : PvState} {items : PvState → List Item}
  (hkind : KindOk pending current items)

include hkind

/-- Without a reboot, the platforms that the items of a kind flag are the touched ones. -/
theorem flags_kindEvents_iff (hnames : ((items pending).map (·.name)).Nodup)
    (hfault : .fault ∉ kindEvents pending current items)
    (hreboot : .reboot ∉ kindEvents pending current items) {a : Addr} :
    (∃ r, .counts r (some a) ∈ kindEvents pending current items) ↔
      ItemTouched (items current) (items pending) a := by
  constructor
  · rintro ⟨r, h⟩
    rcases List.mem_append.mp h with h | h
    · obtain ⟨o, ho, hevent⟩ := List.mem_filterMap.mp h
      rw [changedEvent] at hevent
      split at hevent
      · have hflag := ownerEvent_flag (Option.some.inj hevent)
        cases hflag
      · rename_i c hget
        split at hevent
        · cases hevent
        · rename_i hvalue
          split at hevent
          · cases hevent
          · have hname : c.name = o.name := by simpa using List.find?_some hget
            refine ⟨c, List.mem_of_find?_eq_some hget, ownerEvent_flag (Option.some.inj hevent), ?_⟩
            rintro ⟨d, hd, hdname, hdvalue⟩
            obtain rfl := List.inj_on_of_nodup_map hnames hd ho (hdname.trans hname)
            exact hvalue hdvalue
    · obtain ⟨o, ho, hevent⟩ := List.mem_filterMap.mp h
      rw [deletedEvent] at hevent
      split at hevent
      · cases hevent
      · rename_i hget
        refine ⟨o, ho, ownerEvent_flag (Option.some.inj hevent), ?_⟩
        rintro ⟨d, hd, hdname, -⟩
        exact getByName_none_iff.mp hget d hd hdname
  · rintro ⟨o, ho, ha, hnot⟩
    exact flags_kindEvents hkind hfault hreboot ho hnot ha

/-- Without a reboot, what touches a platform counts its runlevel. -/
theorem level_kindEvents (hsame : SameOwners pending current items)
    (hlevels : ¬ LevelChanged pending current)
    (hfault : .fault ∉ kindEvents pending current items)
    (hreboot : .reboot ∉ kindEvents pending current items) {p : Platform}
    (hp : p ∈ current.platforms) (hat : current.platformAt p.addr = some p)
    (h : ItemTouched (items current) (items pending) p.addr) :
    ∃ flag, .counts p.runlevel flag ∈ kindEvents pending current items := by
  obtain ⟨o, ho, ha, hnot⟩ := h
  have howner : o.plat.bind current.platformAt = some p := by rw [ha, Option.bind_some, hat]
  have hmem : ∀ c ∈ items pending, ∀ e, changedEvent pending (items current) c = some e →
      e ∈ kindEvents pending current items := fun c hc e he =>
    List.mem_append_left _ (List.mem_filterMap.mpr ⟨c, hc, he⟩)
  by_cases hgone : Gone (items pending) o
  · rcases deletedEvent_cases hkind ho with ⟨hnot, -⟩ | ⟨-, -, h⟩ | ⟨-, h⟩
    · exact absurd hgone hnot
    · exact absurd (List.mem_append_right _ (List.mem_filterMap.mpr ⟨o, ho, h⟩)) hreboot
    · rw [ownerLevel, howner] at h
      exact ⟨_, List.mem_append_right _ (List.mem_filterMap.mpr ⟨o, ho, h⟩)⟩
  · simp only [Gone, not_forall, not_not] at hgone
    obtain ⟨c, hc, hname⟩ := hgone
    rcases changedEvent_cases hkind hc with ⟨hun, -⟩ | ⟨-, -, h⟩ | ⟨-, h⟩ | ⟨-, flag, h, -⟩
    · obtain ⟨d, hd, hdname, hdvalue⟩ := hun
      obtain rfl := List.inj_on_of_nodup_map hkind.names hd ho (hdname.trans hname)
      exact absurd ⟨c, hc, hname, hdvalue.symm⟩ hnot
    · exact absurd (hmem c hc _ h) hreboot
    · exact absurd (hmem c hc _ h) hfault
    · -- the changed item belongs to the platform of that name in `pending`
      cases hplat : c.plat with
      | none =>
        rw [changedEvent, getByName_of_mem hkind.names ho hname.symm] at h
        dsimp only at h
        split at h
        · cases h
        · rw [hplat, ha] at h
          cases h
      | some b =>
        obtain ⟨q, hq⟩ := Option.isSome_iff_exists.mp (hkind.pending c hc b hplat)
        have hqowner : c.plat.bind pending.platformAt = some q := by
          rw [hplat, Option.bind_some, hq]
        have hqname := hsame c hc o ho hname q p hqowner howner
        have hlevel : q.runlevel = p.runlevel := by
          by_contra hne
          exact hlevels ⟨p, hp, q, (platformAt_some hq).1, hqname, hne⟩
        rw [ownerLevel, hqowner, Option.elim_some, hlevel] at h
        exact ⟨flag, hmem c hc _ h⟩

/-- An item of `current` without an owner is in `pending` too. -/
theorem unowned_current (hfault : .fault ∉ kindEvents pending current items)
    (hreboot : .reboot ∉ kindEvents pending current items) {c : Item}
    (hc : c ∈ items current) (hplat : c.plat = none) : Unchanged (items pending) c := by
  by_cases hgone : Gone (items pending) c
  · rcases deletedEvent_cases hkind hc with ⟨hnot, -⟩ | ⟨-, -, he⟩ | ⟨-, he⟩
    · exact absurd hgone hnot
    · exact absurd (List.mem_append_right _ (List.mem_filterMap.mpr ⟨c, hc, he⟩)) hreboot
    · rw [deletedEvent, getByName_none_iff.mpr hgone, hplat] at he
      cases he
  · simp only [Gone, not_forall, not_not] at hgone
    obtain ⟨o, ho, hname⟩ := hgone
    refine ⟨o, ho, hname, ?_⟩
    by_contra hvalue
    have hget := getByName_of_mem hkind.names hc hname.symm
    cases hoplat : o.plat with
    | none =>
      have hun : Unchanged (items current) o := unowned_pending hreboot ho hoplat
      obtain ⟨d, hd, hdname, hdvalue⟩ := hun
      obtain rfl := List.inj_on_of_nodup_map hkind.names hd hc (hdname.trans hname)
      exact hvalue hdvalue.symm
    | some a =>
      refine hfault (List.mem_append_left _ (List.mem_filterMap.mpr ⟨o, ho, ?_⟩))
      rw [changedEvent, hget]
      dsimp only
      rw [if_neg hvalue, hoplat, hplat]
      rfl

end Kind

section Running

variable {pending current : PvState} (h : Mergeable pending current)
  (hfault : .fault ∉ events pending current) (hreboot : .reboot ∉ events pending current)

include h hfault hreboot

/-- **The flagged platforms are the touched ones**, without a reboot. -/
theorem flagged_iff {p : Platform} (hp : p ∈ current.platforms) :
    p.addr ∈ (events pending current).filterMap Change.flag? ↔ Touched pending current p := by
  simp only [mem_events, not_or] at hfault hreboot
  have hflag : p.addr ∈ (events pending current).filterMap Change.flag? ↔
      ∃ r, .counts r (some p.addr) ∈ events pending current := by
    rw [List.mem_filterMap]
    constructor
    · rintro ⟨e, he, hflag⟩
      cases e with
      | reboot => cases hflag
      | fault => cases hflag
      | counts r flag =>
        obtain rfl : flag = some p.addr := hflag
        exact ⟨r, he⟩
    · rintro ⟨r, he⟩
      exact ⟨_, he, rfl⟩
  have hplat : (∃ r, .counts r (some p.addr) ∈ current.platforms.filterMap (platformEvent pending)) ↔
      NewName pending.platforms p := by
    constructor
    · rintro ⟨r, he⟩
      obtain ⟨q, hq, hevent⟩ := List.mem_filterMap.mp he
      rcases platformEvent_cases h.comparable.platforms q with ⟨-, hq'⟩ | ⟨-, hq'⟩ | ⟨hnew, hq'⟩
      · rw [hq'] at hevent; cases hevent
      · rw [hq'] at hevent; cases hevent
      · rw [hq'] at hevent
        have haddr := Option.some.inj (Change.counts.inj (Option.some.inj hevent)).2
        rwa [← List.inj_on_of_nodup_map h.addrs hq hp haddr]
    · intro hnew
      rcases platformEvent_cases h.comparable.platforms p with ⟨⟨q, hq, hname, -⟩, -⟩ | ⟨⟨hnot, -⟩, -⟩ |
        ⟨-, he⟩
      · exact absurd hname (hnew q hq)
      · exact absurd hnew hnot
      · exact ⟨_, List.mem_filterMap.mpr ⟨p, hp, he⟩⟩
  rw [hflag, Touched, ← hplat,
    ← flags_kindEvents_iff h.comparable.objects h.pendingNames.objects hfault.2.1 hreboot.2.1,
    ← flags_kindEvents_iff h.comparable.jsons h.pendingNames.jsons hfault.2.2 hreboot.2.2,
    ← exists_or, ← exists_or]
  exact exists_congr fun r => mem_events

/-- Only apps are touched, without a reboot. -/
theorem app_of_touched
    (hall : ∀ q flag, .counts q flag ∈ events pending current → runlevelApp ≤ q) {p : Platform}
    (hp : p ∈ current.platforms) (htouched : Touched pending current p) :
    p.runlevel = runlevelApp := by
  have hsame := not_levelChanged h.comparable hreboot
  have hat := platformAt_of_mem h.addrs hp
  simp only [mem_events, not_or] at hfault hreboot
  refine Int.le_antisymm (h.levels p hp) ?_
  rcases htouched with hnew | hobject | hjson
  · rcases platformEvent_cases h.comparable.platforms p with ⟨⟨q, hq, hname, -⟩, -⟩ | ⟨⟨hnot, -⟩, -⟩ |
      ⟨-, he⟩
    · exact absurd hname (hnew q hq)
    · exact absurd hnew hnot
    · exact hall _ _ (mem_events.mpr (.inl (List.mem_filterMap.mpr ⟨p, hp, he⟩)))
  · obtain ⟨flag, he⟩ := level_kindEvents h.comparable.objects h.objects hsame hfault.2.1 hreboot.2.1
      hp hat hobject
    exact hall _ _ (mem_events.mpr (.inr (.inl he)))
  · obtain ⟨flag, he⟩ := level_kindEvents h.comparable.jsons h.jsons hsame hfault.2.2 hreboot.2.2
      hp hat hjson
    exact hall _ _ (mem_events.mpr (.inr (.inr he)))

end Running

/-! ## What is stopped -/

/-- A platform after the flags and the stop of the app level. -/
def stoppedOf (flags : List Addr) (p : Platform) : Platform :=
  stopPlatform runlevelApp runlevelApp (if p.addr ∈ flags then { p with updated := true } else p)

/-- What the comparison and the stop make of a state. -/
theorem pvPlatformsStop_app (flags : List Addr) (s : PvState) :
    (pvPlatformsStop (flags.foldl PvState.setUpdated s) runlevelApp).1 =
      { s with platforms := s.platforms.map (stoppedOf flags) } := by
  rw [foldl_setUpdated]
  exact congrArg (fun ps => { s with platforms := ps }) List.map_map

theorem stoppedOf_addr (flags : List Addr) (p : Platform) : (stoppedOf flags p).addr = p.addr := by
  unfold stoppedOf stopPlatform
  repeat' split
  all_goals rfl

/-- The state after the stop has the lists of `current`, and its addresses. -/
structure StoppedFrom (current out : PvState) : Prop where
  jsons : out.jsons = current.jsons
  objects : out.objects = current.objects
  volumes : out.volumes = current.volumes
  addrs : out.platforms.map (·.addr) = current.platforms.map (·.addr)

/-- The owners of its items are there as they were. -/
theorem StoppedFrom.ownersHere {current out : PvState} (h : StoppedFrom current out)
    (hcurrent : OwnersHere current) : OwnersHere out := by
  have hhere : ∀ {plat}, OwnerHere current plat → OwnerHere out plat := by
    intro plat hplat a ha
    obtain ⟨p, hp, rfl⟩ := platformAt_isSome.mp (hplat a ha)
    have hmem : p.addr ∈ out.platforms.map (·.addr) := h.addrs ▸ List.mem_map_of_mem hp
    obtain ⟨q, hq, haddr⟩ := List.mem_map.mp hmem
    exact platformAt_isSome.mpr ⟨q, hq, haddr⟩
  refine ⟨fun j hj => hhere (hcurrent.jsons j ?_), fun o ho => hhere (hcurrent.objects o ?_),
    fun v hv => hhere (hcurrent.volumes v ?_)⟩
  · exact h.jsons ▸ hj
  · exact h.objects ▸ ho
  · exact h.volumes ▸ hv

section Stop

variable {pending current s : PvState} {r : Int} (h : Mergeable pending current)
  (hcompare : pvStateCompareStates pending current = some (s, r))
  (hreboot : pvUpdateRequiresReboot r = false)

include hcompare hreboot

theorem stoppedFrom_compare : StoppedFrom current (pvPlatformsStop s r).1 := by
  obtain ⟨-, -, rfl, rfl, -⟩ := compare_no_reboot hcompare hreboot
  rw [pvPlatformsStop_app]
  refine ⟨rfl, rfl, rfl, ?_⟩
  rw [List.map_map]
  exact List.map_congr_left fun p _ => stoppedOf_addr _ p

include h

/-- **What still runs after the stop** are the platforms that are not touched, as they
were. -/
theorem stays_iff {p : Platform} :
    (p ∈ (pvPlatformsStop s r).1.platforms ∧ p.status = .started) ↔
      p ∈ current.platforms ∧ Stays pending current p := by
  obtain ⟨hfault, hno, rfl, rfl, hall⟩ := compare_no_reboot hcompare hreboot
  rw [pvPlatformsStop_app]
  -- what the flag and the stop make of each platform
  have heach : ∀ q ∈ current.platforms,
      (Touched pending current q →
        (stoppedOf ((events pending current).filterMap Change.flag?) q).status ≠ .started) ∧
      (¬ Touched pending current q →
        stoppedOf ((events pending current).filterMap Change.flag?) q = q) := by
    intro q hq
    have hflag := flagged_iff h hfault hno hq
    refine ⟨fun htouched => ?_, fun hnot => ?_⟩
    · have hlevel := app_of_touched h hfault hno hall hq htouched
      obtain ⟨hstarted, hpid⟩ := h.running q hq (by rw [hlevel]; decide)
      rw [stoppedOf, if_pos (hflag.mpr htouched), stopPlatform]
      simp [hlevel, hstarted, hpid]
    · rw [stoppedOf, if_neg (mt hflag.mp hnot), stopPlatform]
      split
      · rfl
      · rename_i hlevel
        have hold : ¬ q.updated = true := by simp [h.unflagged q hq]
        rw [if_pos ⟨rfl, not_not.mp hlevel, hold⟩]
  simp only [List.mem_map]
  constructor
  · rintro ⟨⟨q, hq, rfl⟩, hstarted⟩
    by_cases htouched : Touched pending current q
    · exact absurd hstarted ((heach q hq).1 htouched)
    · rw [(heach q hq).2 htouched] at hstarted ⊢
      exact ⟨hq, hstarted, htouched⟩
  · rintro ⟨hp, hstarted, hnot⟩
    exact ⟨⟨p, hp, (heach p hp).2 hnot⟩, hstarted⟩

/-- What `pv_state_remove_platforms` keeps of the items: those of no platform, and those
of the platforms that stay. -/
theorem keeps_iff {plat : Option Addr} (hhere : OwnerHere current plat) :
    keeps (pvPlatformsStop s r).1 plat = true ↔
      plat = none ∨ ∃ p ∈ current.platforms, Stays pending current p ∧ plat = some p.addr := by
  have hstays := fun p => stays_iff h hcompare hreboot (p := p)
  have haddrs := (stoppedFrom_compare hcompare hreboot).addrs
  have hnodup : ((pvPlatformsStop s r).1.platforms.map (·.addr)).Nodup := haddrs ▸ h.addrs
  cases plat with
  | none => simp [keeps]
  | some a =>
    rw [keeps, Option.all_some, Option.any_eq_true]
    simp only [decide_eq_true_eq, reduceCtorEq, false_or, Option.some.injEq]
    constructor
    · rintro ⟨p, hp, hstarted⟩
      obtain ⟨hmem, haddr⟩ := platformAt_some hp
      obtain ⟨hcurrent, hstay⟩ := (hstays p).mp ⟨hmem, hstarted⟩
      exact ⟨p, hcurrent, hstay, haddr.symm⟩
    · rintro ⟨p, hp, hstay, rfl⟩
      obtain ⟨hmem, hstarted⟩ := (hstays p).mpr ⟨hp, hstay⟩
      exact ⟨p, platformAt_of_mem hnodup hmem, hstarted⟩

end Stop

end Pantavisor.State
