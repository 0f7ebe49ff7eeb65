/-
Pantavisor.Parser.Transition — what a transition without reboot makes of two parsed states.

The running state is looked at by names, as in `KeyOrder`: a platform without its address
and its container, an item with the name of its owner. An item of the running state is one
that was kept, with no owner or with a platform that keeps running, or one that went over
with a platform that does not run. So an item that `pending` adds to a platform that keeps
running is lost (`transition_fresh_iff`).
-/
import Pantavisor.Parser.Links
import Pantavisor.State.Running

namespace Pantavisor.Parser

open Pantavisor.Lib Pantavisor.Json Pantavisor.State

/-! ## A running state and a loaded one -/

/-- What is loaded of a platform: not its address, and nothing of its container. -/
def loadedOf (p : Platform) : Platform :=
  { p with addr := ⟨0, 0⟩, initPid := 0, status := .none, updated := false }

/-- Two states have the same platforms, objects and jsons, as sets. -/
structure SameItems (s t : PvState) : Prop where
  platforms : ∀ p, p ∈ s.platforms.map loadedOf ↔ p ∈ t.platforms.map loadedOf
  objects : ∀ o, o ∈ itemViews s s.objectItems ↔ o ∈ itemViews t t.objectItems
  jsons : ∀ j, j ∈ itemViews s s.jsonItems ↔ j ∈ itemViews t t.jsonItems

/-- **A transition is a fresh load**: the running state has what `pending` has, and a
platform of which nothing is changed or removed is the one that was running. -/
structure FreshLoad (pending current t : PvState) : Prop where
  same : SameItems t pending
  running : ∀ p ∈ current.platforms, p.status = .started → ¬ Touched pending current p →
    p ∈ t.platforms

/-- One kind of items: what has a name in both states has an owner in both or in neither,
and nothing is added to a platform that keeps running. -/
structure KindMerges (pending current : PvState) (items : PvState → List Item) : Prop where
  owners : ∀ o ∈ items pending, ∀ c ∈ items current, o.name = c.name →
    o.plat.isSome = c.plat.isSome
  additions : ∀ o ∈ items pending, Gone (items current) o → ∀ p ∈ current.platforms,
    Stays pending current p → nameAt pending o.plat ≠ some p.name

instance (pending current : PvState) (items : PvState → List Item) :
    Decidable (KindMerges pending current items) :=
  decidable_of_iff ((∀ o ∈ items pending, ∀ c ∈ items current, o.name = c.name →
      o.plat.isSome = c.plat.isSome) ∧
    ∀ o ∈ items pending, Gone (items current) o → ∀ p ∈ current.platforms,
      Stays pending current p → nameAt pending o.plat ≠ some p.name)
    ⟨fun h => ⟨h.1, h.2⟩, fun h => ⟨h.owners, h.additions⟩⟩

/-- When a transition is a fresh load. A platform that keeps running has to be loaded from
`pending` as it was from `current`. -/
structure Merges (pending current : PvState) : Prop where
  objects : KindMerges pending current PvState.objectItems
  jsons : KindMerges pending current PvState.jsonItems
  platforms : ∀ p ∈ current.platforms, Stays pending current p → ∀ q ∈ pending.platforms,
    q.name = p.name → loadedOf q = loadedOf p

instance (pending current : PvState) : Decidable (Merges pending current) :=
  decidable_of_iff (KindMerges pending current PvState.objectItems ∧
      KindMerges pending current PvState.jsonItems ∧
      ∀ p ∈ current.platforms, Stays pending current p → ∀ q ∈ pending.platforms,
        q.name = p.name → loadedOf q = loadedOf p)
    ⟨fun h => ⟨h.1, h.2.1, h.2.2⟩, fun h => ⟨h.objects, h.jsons, h.platforms⟩⟩

/-! ## Owners by their names -/

theorem nameAt_of_platformAt {s : PvState} {a : Addr} {p : Platform} (h : s.platformAt a = some p) :
    nameAt s (some a) = some p.name := by
  rw [nameAt, Option.bind_some, h, Option.map_some]

/-- The owner of an item that has one. -/
theorem exists_owner {s : PvState} {plat : Option Addr} (h : OwnerHere s plat)
    (hplat : plat ≠ none) :
    ∃ p ∈ s.platforms, plat = some p.addr ∧ s.platformAt p.addr = some p ∧
      nameAt s plat = some p.name := by
  obtain ⟨a, rfl⟩ := Option.ne_none_iff_exists'.mp hplat
  obtain ⟨p, hp⟩ := Option.isSome_iff_exists.mp (h a rfl)
  obtain ⟨hmem, rfl⟩ := platformAt_some hp
  exact ⟨p, hmem, rfl, hp, nameAt_of_platformAt hp⟩

/-! ## One kind of items -/

/-- What is known of one kind of items when nothing counts below the app level. -/
structure KindLoaded (pending current : PvState) (items : PvState → List Item) : Prop where
  pendingNames : ((items pending).map (·.name)).Nodup
  currentNames : ((items current).map (·.name)).Nodup
  pendingHere : ∀ o ∈ items pending, OwnerHere pending o.plat
  currentHere : ∀ c ∈ items current, OwnerHere current c.plat
  sameOwners : SameOwners pending current items
  pendingUnowned : ∀ o ∈ items pending, o.plat = none → Unchanged (items current) o
  currentUnowned : ∀ c ∈ items current, c.plat = none → Unchanged (items pending) c
  untouched : ∀ p ∈ current.platforms, Stays pending current p →
    ¬ ItemTouched (items current) (items pending) p.addr

/-- An item that is kept, as it is looked at. -/
def KeptView (pending current : PvState) (items : PvState → List Item)
    (x : CStr × CStr × Option CStr) : Prop :=
  ∃ c ∈ items current, (c.plat = none ∨ ∃ p ∈ current.platforms, Stays pending current p ∧
    c.plat = some p.addr) ∧ (c.name, c.value, nameAt current c.plat) = x

/-- An item that goes over. -/
def MovedView (pending current : PvState) (items : PvState → List Item)
    (x : CStr × CStr × Option CStr) : Prop :=
  ∃ o ∈ items pending, (∃ dir, nameAt pending o.plat = some dir ∧
    ∀ p ∈ current.platforms, Stays pending current p → p.name ≠ dir) ∧
    (o.name, o.value, nameAt pending o.plat) = x

section Kind

variable {pending current : PvState} {items : PvState → List Item}
  (h : KindLoaded pending current items)
  (hnames : (current.platforms.map (·.name)).Nodup)

include h

/-- An item that is kept is in `pending`, if it has an owner in both states or in neither. -/
theorem kept_in_pending (howners : ∀ o ∈ items pending, ∀ c ∈ items current, o.name = c.name →
    o.plat.isSome = c.plat.isSome) {x : CStr × CStr × Option CStr}
    (hx : KeptView pending current items x) : x ∈ itemViews pending (items pending) := by
  obtain ⟨c, hc, hkept, rfl⟩ := hx
  rw [itemViews, List.mem_map]
  rcases hkept with hnone | ⟨p, hp, hstays, hplat⟩
  · obtain ⟨o, ho, hname, hvalue⟩ := h.currentUnowned c hc hnone
    have hsome := howners o ho c hc hname
    rw [hnone, Option.isSome_none, Option.isSome_eq_false_iff, Option.isNone_iff_eq_none] at hsome
    exact ⟨o, ho, by rw [hname, hvalue, hsome, hnone, nameAt, nameAt, Option.bind_none,
      Option.bind_none]⟩
  · have hun : Unchanged (items pending) c := by
      by_contra hnot
      exact h.untouched p hp hstays ⟨c, hc, hplat, hnot⟩
    obtain ⟨o, ho, hname, hvalue⟩ := hun
    have hsome := howners o ho c hc hname
    rw [hplat, Option.isSome_some, Option.isSome_iff_ne_none] at hsome
    obtain ⟨q, -, hqplat, hqat, hqname⟩ := exists_owner (h.pendingHere o ho) hsome
    obtain ⟨p', -, hpplat, hpat, hpname⟩ := exists_owner (h.currentHere c hc) (by rw [hplat]; simp)
    have hsame := h.sameOwners o ho c hc hname q p' (by rw [hqplat, Option.bind_some, hqat])
      (by rw [hpplat, Option.bind_some, hpat])
    exact ⟨o, ho, by rw [hname, hvalue, hqname, hpname, hsame]⟩

include hnames

/-- **The kept items and those that go over are the items of `pending`** under the
condition and no other. -/
theorem merged_views_iff :
    (∀ x, KeptView pending current items x ∨ MovedView pending current items x ↔
      x ∈ itemViews pending (items pending)) ↔ KindMerges pending current items := by
  constructor
  · intro hall
    refine ⟨fun o ho c hc hname => ?_, fun o ho hgone p hp hstays hdir => ?_⟩
    · have hview := (hall (o.name, o.value, nameAt pending o.plat)).mpr
        (List.mem_map.mpr ⟨o, ho, rfl⟩)
      cases hcplat : c.plat with
      | none =>
        -- what has no owner is kept, so that it has none in `pending`
        have hkept : KeptView pending current items (c.name, c.value, nameAt current c.plat) :=
          ⟨c, hc, .inl hcplat, rfl⟩
        obtain ⟨d, hd, heq⟩ := List.mem_map.mp ((hall _).mp (.inl hkept))
        simp only [Prod.mk.injEq] at heq
        obtain rfl := List.inj_on_of_nodup_map h.pendingNames hd ho (heq.1.trans hname.symm)
        cases hdplat : d.plat with
        | none => rfl
        | some a =>
          obtain ⟨q, -, -, -, hq⟩ := exists_owner (h.pendingHere d hd) (by rw [hdplat]; simp)
          rw [hq, hcplat, nameAt, Option.bind_none] at heq
          cases heq.2.2
      | some a =>
        cases hoplat : o.plat with
        | some b => rfl
        | none =>
          rw [hoplat, nameAt, Option.bind_none] at hview
          rcases hview with ⟨d, hd, -, heq⟩ | ⟨d, hd, ⟨dir, hdir, -⟩, heq⟩
          · simp only [Prod.mk.injEq] at heq
            obtain rfl := List.inj_on_of_nodup_map h.currentNames hd hc (heq.1.trans hname)
            obtain ⟨p, -, -, -, hp⟩ := exists_owner (h.currentHere d hd) (by rw [hcplat]; simp)
            rw [hp] at heq
            cases heq.2.2
          · simp only [Prod.mk.injEq] at heq
            rw [hdir] at heq
            cases heq.2.2
    · -- an item of a new name is not kept, and does not go over to a platform that runs
      rcases (hall (o.name, o.value, nameAt pending o.plat)).mpr (List.mem_map.mpr ⟨o, ho, rfl⟩) with
        ⟨c, hc, -, heq⟩ | ⟨d, hd, ⟨dir, hd', hnone⟩, heq⟩
      · exact hgone c hc (Prod.mk.inj heq).1
      · obtain rfl := List.inj_on_of_nodup_map h.pendingNames hd ho (Prod.mk.inj heq).1
        rw [hdir] at hd'
        exact hnone p hp hstays (Option.some.inj hd')
  · rintro ⟨howners, hadditions⟩ x
    constructor
    · rintro (hkept | ⟨o, ho, -, rfl⟩)
      · exact kept_in_pending h howners hkept
      · exact List.mem_map.mpr ⟨o, ho, rfl⟩
    · intro hx
      obtain ⟨o, ho, rfl⟩ := List.mem_map.mp hx
      by_cases hplat : o.plat = none
      · obtain ⟨c, hc, hname, hvalue⟩ := h.pendingUnowned o ho hplat
        have hsome := howners o ho c hc hname.symm
        rw [hplat, Option.isSome_none, eq_comm, Option.isSome_eq_false_iff,
          Option.isNone_iff_eq_none] at hsome
        exact .inl ⟨c, hc, .inl hsome, by rw [hname, hvalue, hsome, hplat, nameAt, nameAt,
          Option.bind_none, Option.bind_none]⟩
      · obtain ⟨q, hq, hqplat, hqat, hqname⟩ := exists_owner (h.pendingHere o ho) hplat
        by_cases hrun : ∃ p ∈ current.platforms, Stays pending current p ∧ p.name = q.name
        · obtain ⟨p, hp, hstays, hpname⟩ := hrun
          -- the item was there, with this platform, and nothing of it has changed
          have hold : ¬ Gone (items current) o := fun hgone =>
            hadditions o ho hgone p hp hstays (hqname.trans (congrArg some hpname.symm))
          simp only [Gone, not_forall, not_not] at hold
          obtain ⟨c, hc, hname⟩ := hold
          have hsome := howners o ho c hc hname.symm
          rw [hqplat, Option.isSome_some, eq_comm, Option.isSome_iff_ne_none] at hsome
          obtain ⟨p', hp', hpplat, hpat, hpname'⟩ := exists_owner (h.currentHere c hc) hsome
          have hsame := h.sameOwners o ho c hc hname.symm q p'
            (by rw [hqplat, Option.bind_some, hqat]) (by rw [hpplat, Option.bind_some, hpat])
          obtain rfl := List.inj_on_of_nodup_map hnames hp' hp (hsame.symm.trans hpname.symm)
          have hun : Unchanged (items pending) c := by
            by_contra hnot
            exact h.untouched p' hp' hstays ⟨c, hc, hpplat, hnot⟩
          obtain ⟨d, hd, hdname, hdvalue⟩ := hun
          obtain rfl := List.inj_on_of_nodup_map h.pendingNames hd ho (hdname.trans hname)
          exact .inl ⟨c, hc, .inr ⟨p', hp', hstays, hpplat⟩, by
            rw [hname, ← hdvalue, hpname', hqname, hpname]⟩
        · refine .inr ⟨o, ho, ⟨q.name, hqname, fun p hp hstays hname => ?_⟩, rfl⟩
          exact hrun ⟨p, hp, hstays, hname⟩

end Kind

/-! ## The state after the transfer -/

section Transfer

variable {pending current s : PvState} {r : Int} (h : Mergeable pending current)
  (hcompare : pvStateCompareStates pending current = some (s, r))
  (hreboot : pvUpdateRequiresReboot r = false)

include hcompare hreboot

/-- What a comparison without a reboot says of one kind of items. -/
theorem kindLoaded_of_compare {items : PvState → List Item} (hkind : KindOk pending current items)
    (hnames : ((items pending).map (·.name)).Nodup) (hsame : SameOwners pending current items)
    (hevents : ∀ e ∈ kindEvents pending current items, e ∈ events pending current)
    (htouched : ∀ p, ItemTouched (items current) (items pending) p.addr →
      Touched pending current p) : KindLoaded pending current items := by
  obtain ⟨hfault, hno, -⟩ := compare_no_reboot hcompare hreboot
  have hfault' := mt (hevents _) hfault
  have hno' := mt (hevents _) hno
  exact {
    pendingNames := hnames
    currentNames := hkind.names
    pendingHere := hkind.pending
    currentHere := hkind.current
    sameOwners := hsame
    pendingUnowned := fun o ho => unowned_pending hno' ho
    currentUnowned := fun c hc => unowned_current hkind hfault' hno' hc
    untouched := fun p _ hstays htouch => hstays.2 (htouched p htouch) }

include h

theorem objects_of_compare : KindLoaded pending current PvState.objectItems :=
  kindLoaded_of_compare hcompare hreboot h.comparable.objects h.pendingNames.objects h.objects
    (fun _ he => mem_events.mpr (.inr (.inl he))) fun _ ht => .inr (.inl ht)

theorem jsons_of_compare : KindLoaded pending current PvState.jsonItems :=
  kindLoaded_of_compare hcompare hreboot h.comparable.jsons h.pendingNames.jsons h.jsons
    (fun _ he => mem_events.mpr (.inr (.inr he))) fun _ ht => .inr (.inr ht)

/-- The platforms that run afterwards. -/
theorem mem_moved_platforms {p : Platform} :
    p ∈ (movedState pending (pvPlatformsStop s r).1).platforms ↔
      (p ∈ current.platforms ∧ Stays pending current p) ∨
      (p ∈ pending.platforms ∧
        ∀ q ∈ current.platforms, Stays pending current q → q.name ≠ p.name) := by
  have hstays : ∀ q : Platform, q ∈ (removedState (pvPlatformsStop s r).1).platforms ↔
      q ∈ current.platforms ∧ Stays pending current q := by
    intro q
    rw [removedState, List.mem_filter, decide_eq_true_eq]
    exact stays_iff h hcompare hreboot
  rw [movedState, mem_movePlatforms_iff, hstays]
  refine or_congr_right ?_
  have hfind : pending.platforms.find? (fun q => q.name = p.name) = some p ↔ p ∈ pending.platforms :=
    ⟨List.mem_of_find?_eq_some, platformGetByName_of_mem h.pendingNames.platforms⟩
  rw [hfind, and_comm]
  refine and_congr_right fun _ => ?_
  simp only [hstays, not_exists, not_and, ne_eq, and_imp]

/-- The platforms that run afterwards have names of their own. -/
theorem moved_name_inj {p q : Platform}
    (hp : p ∈ (movedState pending (pvPlatformsStop s r).1).platforms)
    (hq : q ∈ (movedState pending (pvPlatformsStop s r).1).platforms) (hname : p.name = q.name) :
    p = q := by
  rw [mem_moved_platforms h hcompare hreboot] at hp hq
  rcases hp with ⟨hp, hstays⟩ | ⟨hp, hnone⟩
  · rcases hq with ⟨hq, -⟩ | ⟨hq, hnone'⟩
    · exact List.inj_on_of_nodup_map h.currentNames.platforms hp hq hname
    · exact absurd hname (hnone' p hp hstays)
  · rcases hq with ⟨hq, hstays'⟩ | ⟨hq, -⟩
    · exact absurd hname.symm (hnone q hq hstays')
    · exact List.inj_on_of_nodup_map h.pendingNames.platforms hp hq hname

/-- **The platforms are those of `pending`** exactly if those that keep running are loaded
as they were. -/
theorem moved_platforms_iff :
    (∀ p, p ∈ (movedState pending (pvPlatformsStop s r).1).platforms.map loadedOf ↔
      p ∈ pending.platforms.map loadedOf) ↔
    ∀ p ∈ current.platforms, Stays pending current p → ∀ q ∈ pending.platforms,
      q.name = p.name → loadedOf q = loadedOf p := by
  have hmem := fun p => mem_moved_platforms h hcompare hreboot (p := p)
  constructor
  · intro hall p hp hstays q hq hname
    obtain ⟨p', hp', heq⟩ := List.mem_map.mp ((hall _).mpr (List.mem_map_of_mem hq))
    have hnames := congrArg Platform.name heq
    have hname' : p'.name = q.name := hnames
    rw [moved_name_inj h hcompare hreboot ((hmem _).mpr (.inl ⟨hp, hstays⟩)) hp'
      (hname.symm.trans hname'.symm)]
    exact heq.symm
  · intro hload x
    simp only [List.mem_map]
    constructor
    · rintro ⟨p, hp, rfl⟩
      rcases (hmem _).mp hp with ⟨hp, hstays⟩ | ⟨hp, -⟩
      · have hold : ¬ NewName pending.platforms p := fun hnew => hstays.2 (.inl hnew)
        simp only [NewName, not_forall, not_not] at hold
        obtain ⟨q, hq, hname⟩ := hold
        exact ⟨q, hq, hload p hp hstays q hq hname⟩
      · exact ⟨p, hp, rfl⟩
    · rintro ⟨q, hq, rfl⟩
      by_cases hrun : ∃ p ∈ current.platforms, Stays pending current p ∧ p.name = q.name
      · obtain ⟨p, hp, hstays, hname⟩ := hrun
        exact ⟨p, (hmem _).mpr (.inl ⟨hp, hstays⟩), (hload p hp hstays q hq hname.symm).symm⟩
      · refine ⟨q, (hmem _).mpr (.inr ⟨hq, fun p hp hstays hname => ?_⟩), rfl⟩
        exact hrun ⟨p, hp, hstays, hname⟩

variable (hpending : (pending.platforms.map (·.addr)).Nodup)
  (hapart : ∀ p ∈ current.platforms, ∀ q ∈ pending.platforms, p.addr ≠ q.addr)

include hpending hapart

/-- Every platform has its own address afterwards. -/
theorem moved_addrs :
    ((movedState pending (pvPlatformsStop s r).1).platforms.map (·.addr)).Nodup := by
  have hstopped : ((pvPlatformsStop s r).1.platforms.map (·.addr)).Nodup := by
    rw [(stoppedFrom_compare hcompare hreboot).addrs]
    exact h.addrs
  have haddrs := addrs_apart hpending hstopped fun p hp hstarted =>
    hapart p ((stays_iff h hcompare hreboot).mp ⟨hp, hstarted⟩).1
  rw [List.map_append] at haddrs
  exact (List.nodup_append.mp haddrs).1

/-- **The items of a kind afterwards** are the kept ones and those that go over. -/
theorem moved_views {items : PvState → List Item} (hkind : KindOk pending current items)
    (hitems : items (movedState pending (pvPlatformsStop s r).1) =
      ((items current).filter fun o => keeps (pvPlatformsStop s r).1 o.plat) ++
        (items pending).filter fun o =>
          moves pending (removedState (pvPlatformsStop s r).1) o.plat)
    (x : CStr × CStr × Option CStr) :
    x ∈ itemViews (movedState pending (pvPlatformsStop s r).1)
        (items (movedState pending (pvPlatformsStop s r).1)) ↔
      KeptView pending current items x ∨ MovedView pending current items x := by
  have hmem := fun p => mem_moved_platforms h hcompare hreboot (p := p)
  have haddrs := moved_addrs h hcompare hreboot hpending hapart
  have hname : ∀ p, p ∈ (movedState pending (pvPlatformsStop s r).1).platforms →
      nameAt (movedState pending (pvPlatformsStop s r).1) (some p.addr) = some p.name :=
    fun p hp => nameAt_of_platformAt (platformAt_of_mem haddrs hp)
  rw [itemViews, hitems, List.map_append, List.mem_append, List.mem_map, List.mem_map]
  refine or_congr (exists_congr fun c => ?_) (exists_congr fun o => ?_)
  · rw [List.mem_filter, and_assoc]
    refine and_congr_right fun hc => ?_
    rw [keeps_iff h hcompare hreboot (hkind.current c hc)]
    refine and_congr_right fun hkept => ?_
    -- the name of the owner is the same in both states
    have hsame : nameAt (movedState pending (pvPlatformsStop s r).1) c.plat
        = nameAt current c.plat := by
      rcases hkept with hnone | ⟨p, hp, hstays, hplat⟩
      · rw [hnone, nameAt, nameAt, Option.bind_none, Option.bind_none]
      · rw [hplat, hname p ((hmem _).mpr (.inl ⟨hp, hstays⟩)),
          nameAt_of_platformAt (platformAt_of_mem h.addrs hp)]
    rw [hsame]
  · rw [List.mem_filter, and_assoc]
    refine and_congr_right fun ho => ?_
    by_cases hplat : o.plat = none
    · rw [hplat]
      simp [moves, nameAt]
    · obtain ⟨q, hq, hqplat, hqat, hqname⟩ := exists_owner (hkind.pending o ho) hplat
      have hruns : (¬ ∃ p ∈ (pvPlatformsStop s r).1.platforms, p.status = .started ∧
          p.name = q.name) ↔ ∀ p ∈ current.platforms, Stays pending current p → p.name ≠ q.name := by
        have hstays := fun p => stays_iff h hcompare hreboot (p := p)
        constructor
        · intro hnone p hp hst hpname
          obtain ⟨hmem, hstarted⟩ := (hstays p).mpr ⟨hp, hst⟩
          exact hnone ⟨p, hmem, hstarted, hpname⟩
        · rintro hnone ⟨p, hp, hstarted, hpname⟩
          obtain ⟨hcurrent, hst⟩ := (hstays p).mp ⟨hp, hstarted⟩
          exact hnone p hcurrent hst hpname
      rw [hqplat] at hqname ⊢
      rw [moves_iff hqat, hruns, hqname]
      have hdir : (∃ dir, some q.name = some dir ∧
          ∀ p ∈ current.platforms, Stays pending current p → p.name ≠ dir) ↔
          ∀ p ∈ current.platforms, Stays pending current p → p.name ≠ q.name := by
        constructor
        · rintro ⟨dir, heq, hnone⟩
          obtain rfl := Option.some.inj heq
          exact hnone
        · exact fun hnone => ⟨q.name, rfl, hnone⟩
      rw [hdir]
      refine and_congr_right fun hnone => ?_
      rw [hname q ((hmem _).mpr (.inr ⟨hq, hnone⟩))]

/-- **A transition of two linked states is a fresh load** under the condition and no other. -/
theorem freshLoad_iff :
    FreshLoad pending current (movedState pending (pvPlatformsStop s r).1) ↔
      Merges pending current := by
  have hstopped := stoppedFrom_compare hcompare hreboot
  have hobjects := moved_views h hcompare hreboot hpending hapart h.comparable.objects (by
    simp only [PvState.objectItems, movedState, removedState, List.map_append, List.filter_map,
      hstopped.objects]
    rfl)
  have hjsons := moved_views h hcompare hreboot hpending hapart h.comparable.jsons (by
    simp only [PvState.jsonItems, movedState, removedState, List.map_append, List.filter_map,
      hstopped.jsons]
    rfl)
  have hobjectsIff := merged_views_iff (objects_of_compare h hcompare hreboot)
    h.currentNames.platforms
  have hjsonsIff := merged_views_iff (jsons_of_compare h hcompare hreboot) h.currentNames.platforms
  have hplatforms := moved_platforms_iff h hcompare hreboot
  constructor
  · rintro ⟨⟨hp, ho, hj⟩, -⟩
    exact ⟨hobjectsIff.mp fun x => (hobjects x).symm.trans (ho x),
      hjsonsIff.mp fun x => (hjsons x).symm.trans (hj x), hplatforms.mp hp⟩
  · rintro ⟨ho, hj, hp⟩
    refine ⟨⟨hplatforms.mpr hp, fun x => (hobjects x).trans (hobjectsIff.mpr ho x),
      fun x => (hjsons x).trans (hjsonsIff.mpr hj x)⟩, fun p hp hstarted hnot => ?_⟩
    exact (mem_moved_platforms h hcompare hreboot).mpr (.inl ⟨hp, hstarted, hnot⟩)

end Transfer

/-! ## The flags of a parsed state -/

/-- No platform has the flag of a comparison. -/
def Unflagged (s : PvState) : Prop := ∀ p ∈ s.platforms, p.updated = false

theorem Unflagged.modify {f : Platform → Platform} {b b' : PlatformBundle} {ret : Int}
    (hb : Unflagged b.s) (h : b.modify f = some (ret, b')) (hf : ∀ p, (f p).updated = p.updated) :
    Unflagged b'.s := by
  obtain ⟨a, -, hmodify⟩ := Option.map_eq_some_iff.mp h
  obtain ⟨-, rfl⟩ := Prod.mk.inj hmodify
  intro p hp
  obtain ⟨q, hq, rfl⟩ := List.mem_map.mp hp
  split
  · rw [hf, hb q hq]
  · exact hb q hq

/-- No action of `parse_platform` sets it. -/
theorem keeps_unflagged (jsmn : Jsmn) :
    ∀ entry ∈ system1PlatformKeyAction jsmn, entry.action.Keeps fun b => Unflagged b.s := by
  have hvolume : ∀ {value b b' ret}, Unflagged b.s → doActionForOneVolume value b = some (ret, b') →
      Unflagged b'.s := by
    intro value b b' ret hb h
    obtain ⟨a, -, hone⟩ := Option.map_eq_some_iff.mp h
    obtain ⟨-, rfl⟩ := Prod.mk.inj hone
    exact hb
  intro entry hentry
  simp only [system1PlatformKeyAction, List.mem_cons, List.not_mem_nil, or_false] at hentry
  rcases hentry with rfl | rfl | rfl | rfl | rfl | rfl | rfl | rfl | rfl | rfl | rfl
  · rintro value b _ ⟨rfl, hb⟩
    refine agree_self fun _ _ h => ?_
    obtain ⟨-, rfl⟩ := Prod.mk.inj (Option.some.inj h)
    intro p hp
    rcases List.mem_append.mp hp with hp | hp
    · exact hb p hp
    · rw [List.mem_singleton.mp hp]
  · rintro value b _ ⟨rfl, hb⟩
    exact agree_self fun _ _ h => hb.modify h fun _ => rfl
  · rintro value b _ ⟨rfl, hb⟩
    exact agree_self fun _ _ h => hb.modify h fun _ => rfl
  · rintro buf b _ ⟨rfl, hb⟩
    exact agree_self fun _ _ h => hb.modify h fun _ => rfl
  · rintro buf toks k b _ ⟨rfl, hb⟩
    refine agree_self fun _ _ h => ?_
    obtain ⟨value, -, hmodify⟩ := Option.bind_eq_some_iff.mp h
    exact hb.modify hmodify fun _ => rfl
  · rintro value b _ ⟨rfl, hb⟩
    exact agree_some ⟨rfl, hb⟩
  · rintro value b _ ⟨rfl, hb⟩
    exact agree_some ⟨rfl, hb⟩
  · rintro value b _ ⟨rfl, hb⟩
    exact agree_self fun _ _ h => hvolume hb h
  · rintro buf toks k b _ ⟨rfl, hb⟩
    refine agree_self fun _ _ h => ?_
    obtain ⟨value, -, hone⟩ := Option.bind_eq_some_iff.mp h
    exact hvolume hb hone
  · rintro buf toks k b _ ⟨rfl, hb⟩
    refine agree_self fun _ _ h => ?_
    rw [doActionForOneLog] at h
    split at h
    · obtain ⟨-, rfl⟩ := Prod.mk.inj (Option.some.inj h)
      exact hb
    · obtain ⟨a, -, hlog⟩ := Option.map_eq_some_iff.mp h
      obtain ⟨-, rfl⟩ := Prod.mk.inj hlog
      exact hb
  · rintro buf b _ ⟨rfl, hb⟩
    refine agree_self fun _ _ h => ?_
    obtain ⟨a, -, hstorage⟩ := Option.bind_eq_some_iff.mp h
    split at hstorage
    · obtain ⟨-, rfl⟩ := Prod.mk.inj (Option.some.inj hstorage)
      exact hb
    · obtain ⟨members, -, hb'⟩ := Option.bind_eq_some_iff.mp hstorage
      obtain ⟨-, rfl⟩ := Prod.mk.inj (Option.some.inj hb')
      exact hb

theorem PlatformText.unflagged {jsmn : Jsmn} {buf : CStr} {p : Platform} {vs : List PvVolume}
    (h : PlatformText jsmn buf p vs) : p.updated = false := by
  obtain ⟨b₀, q, hrun, -, hstate, heq⟩ := h.start
  have hflags := congrArg Platform.updated heq
  have hflag : p.updated = q.updated := hflags
  have hnone : Unflagged emptyState := fun _ hp => by cases hp
  have hb₀ : Unflagged b₀.s := by
    rcases startJsonParsingWithAction_zero hrun with rfl | ⟨toks, keys, -, -, hloop⟩
    · exact hnone
    · exact keyActionLoop_keeps (keeps_unflagged jsmn) hnone hloop
  rw [hstate] at hb₀
  exact hflag.trans (hb₀ { q with addr := nextAddr emptyState }
    (List.mem_append_right _ (List.mem_singleton_self _)))

theorem updated_rootFirst (ps : List Platform) :
    (rootFirst ps).map (·.updated) = ps.map (·.updated) := by
  induction ps with
  | nil => rfl
  | cons p ps ih =>
    rw [rootFirst]
    split
    · rfl
    · rw [List.map_cons, ih, List.map_cons]

/-- Defaults leave the flags alone. -/
theorem updated_defaulted (ps : List Platform) :
    (defaulted ps).map (·.updated) = ps.map (·.updated) := by
  have hlevel : ∀ qs : List Platform, (qs.map fun p =>
      if p.runlevel < runlevelData then { p with runlevel := runlevelPlatform } else p).map
        (·.updated) = qs.map (·.updated) := by
    intro qs
    rw [List.map_map]
    refine List.map_congr_left fun p _ => ?_
    simp only [Function.comp_apply]
    split <;> rfl
  rw [defaulted, hlevel]
  split
  · rfl
  · exact updated_rootFirst ps

/-! ## Parsed states -/

/-- What a system1 text is parsed to: the owner of an item is found by its name, and no
platform is flagged. -/
theorem owned_system1 {jsmn : Jsmn} {mntpoint buf rev : CStr} {alloc : Nat} {t : PvState}
    (h : system1Parse jsmn mntpoint (pvStateNew alloc rev .system1) buf = some (some t)) :
    (∀ o ∈ t.objectItems, o.plat = ownerAddr t o.name) ∧
      (∀ j ∈ t.jsonItems, j.plat = ownerAddr t j.name) ∧ Unflagged t := by
  have hslots : Slots (pvStateNew alloc rev .system1) := rfl
  obtain ⟨ms, run, sb, pvs, -, hmanifest, htexts, rfl⟩ := system1Parse_members hslots h
  have hframe := parseBsp_frame hmanifest.bsp
  have hplatforms : sb.platforms = [] := congrArg PvState.platforms hframe
  obtain ⟨hjsons, hobjects⟩ := parsedState_lists mntpoint buf htexts hplatforms
    (congrArg PvState.jsons hframe) (congrArg PvState.objects hframe)
  refine ⟨fun o ho => ?_, fun j hj => ?_, fun p hp => ?_⟩
  · rw [PvState.objectItems, hobjects] at ho
    obtain ⟨m, -, rfl⟩ := List.mem_map.mp ho
    rfl
  · rw [PvState.jsonItems, hjsons, List.map_map] at hj
    obtain ⟨m, -, rfl⟩ := List.mem_map.mp hj
    rfl
  · have hmem := List.mem_map_of_mem (f := Platform.updated) hp
    rw [platforms_parsedState mntpoint buf htexts hplatforms] at hmem
    have hall : ∀ pv ∈ pvs, pv.1.updated = false := by
      rw [PlatformTexts] at htexts
      generalize ofKind [.platform] ms = ms' at htexts
      clear hmanifest hjsons hobjects hp hmem h
      induction htexts with
      | nil => exact fun _ hpv => by cases hpv
      | cons htext _ ih => exact List.forall_mem_cons.mpr ⟨htext.unflagged, ih⟩
    have hmap := (updated_defaulted (addAll sb pvs).platforms).trans
      (map_addAll (·.updated) (fun _ _ => rfl) sb pvs)
    rw [hplatforms, List.map_nil, List.nil_append] at hmap
    have hmem' : p.updated ∈ pvs.map fun pv => pv.1.updated := hmap ▸ hmem
    obtain ⟨pv, hpv, heq⟩ := List.mem_map.mp hmem'
    exact heq.symm.trans (hall pv hpv)

/-- A state with its containers: the status and the pid of each platform. -/
def withContainers (containers : Addr → PlatStatus × Int) (s : PvState) : PvState :=
  { s with platforms := s.platforms.map fun p =>
      { p with status := (containers p.addr).1, initPid := (containers p.addr).2 } }

theorem linked_withContainers (containers : Addr → PlatStatus × Int) {s : PvState} (h : Linked s) :
    Linked (withContainers containers s) :=
  linked_map (f := fun p =>
      { p with status := (containers p.addr).1, initPid := (containers p.addr).2 })
    (fun _ => rfl) (fun _ => rfl) h

/-- Every platform but those of the data level is started, with a pid. -/
def AllStarted (s : PvState) : Prop :=
  ∀ p ∈ s.platforms, p.runlevel ≠ runlevelData → p.status = .started ∧ 0 < p.initPid

instance (s : PvState) : Decidable (AllStarted s) :=
  inferInstanceAs (Decidable (∀ p ∈ s.platforms, _))

/-- The name of an owner is in the name of the item. -/
theorem ownerName_of_owner {s : PvState} (h : (s.platforms.map (·.addr)).Nodup) {name : CStr}
    {p : Platform} (hp : (ownerAddr s name).bind s.platformAt = some p) :
    ownerName name = some p.name := by
  have hview : nameAt s (ownerAddr s name) = some p.name := by
    obtain ⟨a, ha, hat⟩ := Option.bind_eq_some_iff.mp hp
    rw [ha]
    exact nameAt_of_platformAt hat
  rw [nameAt_ownerAddr h] at hview
  exact (Option.filter_eq_some_iff.mp hview).1

/-- Items of one name have owners of one name. -/
theorem sameOwners_of_names {pending current : PvState} {items : PvState → List Item}
    (hpending : (pending.platforms.map (·.addr)).Nodup)
    (hcurrent : (current.platforms.map (·.addr)).Nodup)
    (howned : ∀ o ∈ items pending, o.plat = ownerAddr pending o.name)
    (howned' : ∀ c ∈ items current, c.plat = ownerAddr current c.name) :
    SameOwners pending current items := by
  intro o ho c hc hname q p hq hp
  rw [howned o ho] at hq
  rw [howned' c hc, ← hname] at hp
  exact Option.some.inj ((ownerName_of_owner hpending hq).symm.trans
    (ownerName_of_owner hcurrent hp))

section Parsed

variable {jsmn : Jsmn} {mntpoint buf buf' rev rev' : CStr} {alloc alloc' : Nat}
  {pending loaded : PvState}
  (hpending : system1Parse jsmn mntpoint (pvStateNew alloc rev .system1) buf = some (some pending))
  (hcurrent : system1Parse jsmn mntpoint (pvStateNew alloc' rev' .system1) buf'
    = some (some loaded))
  (hdistinct : DistinctNames pending) (hdistinct' : DistinctNames loaded)
  (containers : Addr → PlatStatus × Int) (hstarted : AllStarted (withContainers containers loaded))

include hpending hcurrent hdistinct hdistinct' hstarted

/-- Two parsed states, of which the second one runs. -/
theorem mergeable_system1 : Mergeable pending (withContainers containers loaded) := by
  obtain ⟨hlinked, -⟩ := linked_system1 hpending
  obtain ⟨hlinked', -⟩ := linked_system1 hcurrent
  obtain ⟨hobjects, hjsons, -⟩ := owned_system1 hpending
  obtain ⟨hobjects', hjsons', hunflagged⟩ := owned_system1 hcurrent
  have hrun := linked_withContainers containers hlinked'
  have hnames : DistinctNames (withContainers containers loaded) := by
    refine ⟨?_, hdistinct'.objects, hdistinct'.jsons⟩
    rw [withContainers, List.map_map]
    exact hdistinct'.platforms
  have howner : ownerAddr (withContainers containers loaded) = ownerAddr loaded := by
    refine ownerAddr_congr ?_
    rw [withContainers, List.map_map]
    rfl
  have hall : ∀ p ∈ (withContainers containers loaded).platforms,
      (runlevelData ≤ p.runlevel ∧ p.runlevel ≤ runlevelApp) ∧ p.updated = false := by
    intro p hp
    obtain ⟨q, hq, rfl⟩ := List.mem_map.mp hp
    exact ⟨range_system1 hcurrent q hq, hunflagged q hq⟩
  exact {
    comparable := comparable_linked hlinked hrun hdistinct hnames
      (fun p hp => (range_system1 hpending p hp).1) fun p hp => (hall p hp).1.1
    pendingNames := hdistinct
    currentNames := hnames
    addrs := hrun.addrs
    objects := sameOwners_of_names hlinked.addrs hrun.addrs hobjects (howner ▸ hobjects')
    jsons := sameOwners_of_names hlinked.addrs hrun.addrs hjsons (howner ▸ hjsons')
    levels := fun p hp => (hall p hp).1.2
    unflagged := fun p hp => (hall p hp).2
    running := hstarted }

/-- **A transition without reboot is a fresh load** exactly if what has a name in both states
has an owner in both or in neither, nothing is added to a platform that keeps running, and
such a platform is loaded as it was. -/
theorem transition_fresh_iff (halloc : alloc ≠ alloc') {s : PvState} {r : Int}
    (hcompare : pvStateCompareStates pending (withContainers containers loaded) = some (s, r))
    (hreboot : pvUpdateRequiresReboot r = false) :
    (∃ t, pvStateTransfer pending (pvPlatformsStop s r).1 = some t ∧
      FreshLoad pending (withContainers containers loaded) t) ↔
    Merges pending (withContainers containers loaded) := by
  obtain ⟨hlinked, hnumber⟩ := linked_system1 hpending
  obtain ⟨hlinked', hnumber'⟩ := linked_system1 hcurrent
  have h := mergeable_system1 hpending hcurrent hdistinct hdistinct' containers hstarted
  have hrun := linked_withContainers containers hlinked'
  have hapart : ∀ p ∈ (withContainers containers loaded).platforms, ∀ q ∈ pending.platforms,
      p.addr ≠ q.addr := by
    intro p hp q hq heq
    obtain ⟨p', hp', rfl⟩ := List.mem_map.mp hp
    exact halloc ((hnumber q hq).symm.trans
      ((congrArg Addr.alloc heq).symm.trans (hnumber' p' hp')))
  obtain ⟨htransfer, -⟩ := pvStateTransfer_eq hlinked.ownersHere
    ((stoppedFrom_compare hcompare hreboot).ownersHere hrun.ownersHere)
  rw [← freshLoad_iff h hcompare hreboot hlinked.addrs hapart]
  constructor
  · rintro ⟨t, ht, hfresh⟩
    obtain rfl := Option.some.inj (htransfer.symm.trans ht)
    exact hfresh
  · exact fun hfresh => ⟨_, htransfer, hfresh⟩

end Parsed

/-! ## A new object of an app -/

instance (s : PvState) : Decidable (DistinctNames s) :=
  decidable_of_iff ((s.platforms.map (·.name)).Nodup ∧ (s.objectItems.map (·.name)).Nodup ∧
      (s.jsonItems.map (·.name)).Nodup)
    ⟨fun h => ⟨h.1, h.2.1, h.2.2⟩, fun h => ⟨h.platforms, h.objects, h.jsons⟩⟩

/-- What a system1 text is parsed to, where it is accepted. -/
def loadedText (alloc : Nat) (buf : CStr) : PvState :=
  ((system1Parse tokenizer (str "/s") (pvStateNew alloc (str "1") .system1) buf).bind id).getD
    (pvStateNew 0 [] .system1)

/-- A text that is accepted, and whose names are distinct. -/
def Loads (alloc : Nat) (buf : CStr) : Prop :=
  ((system1Parse tokenizer (str "/s") (pvStateNew alloc (str "1") .system1) buf).bind id).isSome ∧
    DistinctNames (loadedText alloc buf)

instance (alloc : Nat) (buf : CStr) : Decidable (Loads alloc buf) :=
  inferInstanceAs (Decidable (_ ∧ _))

theorem Loads.parse {alloc : Nat} {buf : CStr} (h : Loads alloc buf) :
    system1Parse tokenizer (str "/s") (pvStateNew alloc (str "1") .system1) buf
      = some (some (loadedText alloc buf)) := accepted_getD h.1 _

/-- A platform of the app level, which runs. -/
def appFileA : CStr := str "\"a/run.json\":\x7b\"name\":\"a\",\"runlevel\":\"app\"\x7d"
def runningApp (file : CStr) : PvState :=
  withContainers (fun _ => (.started, 7)) (loadedText 0 (twoFilesText appFileA file))

/-- A transition to a text with the platform and a file. -/
def appTransition (file file' : CStr) : Option PvState :=
  (pvStateCompareStates (loadedText 1 (twoFilesText appFileA file)) (runningApp file')).bind fun x =>
    if pvUpdateRequiresReboot x.2 then none
    else pvStateTransfer (loadedText 1 (twoFilesText appFileA file)) (pvPlatformsStop x.1 x.2).1

theorem appTransition_some {file file' : CStr} {t : PvState}
    (h : appTransition file file' = some t) :
    ∃ s r, pvStateCompareStates (loadedText 1 (twoFilesText appFileA file)) (runningApp file')
        = some (s, r) ∧ pvUpdateRequiresReboot r = false ∧
      pvStateTransfer (loadedText 1 (twoFilesText appFileA file)) (pvPlatformsStop s r).1
        = some t := by
  obtain ⟨⟨s, r⟩, hcompare, hx⟩ := Option.bind_eq_some_iff.mp h
  split at hx
  · cases hx
  · rename_i hreboot
    exact ⟨s, r, hcompare, Bool.eq_false_iff.mpr hreboot, hx⟩

def objectsXY : CStr := str "\"a/x\":\"1\",\"a/y\":\"1\""

/-- The object that is new does not come to the platform that keeps running. -/
theorem new_object_lost :
    ¬ ∀ (jsmn : Jsmn) (mntpoint buf buf' rev rev' : CStr) (alloc alloc' : Nat)
      (pending loaded : PvState),
      system1Parse jsmn mntpoint (pvStateNew alloc rev .system1) buf = some (some pending) →
      system1Parse jsmn mntpoint (pvStateNew alloc' rev' .system1) buf' = some (some loaded) →
      DistinctNames pending → DistinctNames loaded →
      ∀ containers : Addr → PlatStatus × Int, AllStarted (withContainers containers loaded) →
      alloc ≠ alloc' → ∀ (s : PvState) (r : Int),
      pvStateCompareStates pending (withContainers containers loaded) = some (s, r) →
      pvUpdateRequiresReboot r = false →
      ∃ t, pvStateTransfer pending (pvPlatformsStop s r).1 = some t ∧
        FreshLoad pending (withContainers containers loaded) t := by
  intro h
  have htexts : Loads 1 (twoFilesText appFileA objectsXY) ∧
      Loads 0 (twoFilesText appFileA objectX1) ∧ AllStarted (runningApp objectX1) ∧
      (str "a/y", str "1", some (str "a")) ∈ itemViews
        (loadedText 1 (twoFilesText appFileA objectsXY))
        (loadedText 1 (twoFilesText appFileA objectsXY)).objectItems ∧
      (appTransition objectsXY objectX1).map (fun t => decide
        ((str "a/y", str "1", some (str "a")) ∈ itemViews t t.objectItems)) = some false := by
    unfold appTransition runningApp twoFilesText
    repeat rw [str_ofList]
    decide +kernel
  obtain ⟨hpending, hcurrent, hstarted, hview, hlost⟩ := htexts
  obtain ⟨t, ht, hnot⟩ := Option.map_eq_some_iff.mp hlost
  obtain ⟨s, r, hcompare, hreboot, htransfer⟩ := appTransition_some ht
  obtain ⟨t', ht', hfresh⟩ := h tokenizer (str "/s") _ _ (str "1") (str "1") 1 0 _ _ hpending.parse
    hcurrent.parse hpending.2 hcurrent.2 _ hstarted (by decide) s r hcompare hreboot
  obtain rfl := Option.some.inj (htransfer.symm.trans ht')
  exact of_decide_eq_false hnot ((hfresh.same.objects _).mpr hview)

/-- An object that changes comes with the platform, which is started again. -/
theorem transition_fresh_iff_changed :
    ∃ s r, pvStateCompareStates (loadedText 1 (twoFilesText appFileA objectX2)) (runningApp objectX1)
        = some (s, r) ∧
      ∃ t, pvStateTransfer (loadedText 1 (twoFilesText appFileA objectX2)) (pvPlatformsStop s r).1
        = some t ∧ FreshLoad (loadedText 1 (twoFilesText appFileA objectX2)) (runningApp objectX1) t := by
  have htexts : Loads 1 (twoFilesText appFileA objectX2) ∧
      Loads 0 (twoFilesText appFileA objectX1) ∧ AllStarted (runningApp objectX1) ∧
      Merges (loadedText 1 (twoFilesText appFileA objectX2)) (runningApp objectX1) ∧
      (appTransition objectX2 objectX1).isSome := by
    unfold appTransition runningApp twoFilesText
    repeat rw [str_ofList]
    decide +kernel
  obtain ⟨hpending, hcurrent, hstarted, hmerges, hsome⟩ := htexts
  obtain ⟨t, ht⟩ := Option.isSome_iff_exists.mp hsome
  obtain ⟨s, r, hcompare, hreboot, -⟩ := appTransition_some ht
  exact ⟨s, r, hcompare, (transition_fresh_iff hpending.parse hcurrent.parse hpending.2 hcurrent.2 _
    hstarted (by decide) hcompare hreboot).mpr hmerges⟩

end Pantavisor.Parser
