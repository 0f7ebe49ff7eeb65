/-
Pantavisor.Parser.Links — the states that the parsers give to a comparison and to a
transfer.

What is parsed is linked (`linked_getState`): jsons and objects to the first platform of
a name, volumes to the platform that they were parsed with. All platforms have the
number of the parse, so that those of two parses are apart. With that, the results on
states say what holds of texts.
-/
import Pantavisor.Parser.KeyOrder
import Pantavisor.Parser.Safe
import Pantavisor.State.Compare

namespace Pantavisor.Parser

open Pantavisor.Lib Pantavisor.Json Pantavisor.State

/-! ## system1 -/

/-- The owner of an item, where it is found. -/
theorem linked_ownerAddr {s : PvState} (h : (s.platforms.map (·.addr)).Nodup) {name : CStr}
    {a : Addr} (ha : ownerAddr s name = some a) :
    ∃ p, s.platformAt a = some p ∧ s.platformGetByName p.name = some p := by
  obtain ⟨dir, -, hget⟩ := Option.bind_eq_some_iff.mp ha
  obtain ⟨p, hp, rfl⟩ := Option.map_eq_some_iff.mp hget
  have hname : p.name = dir := by simpa using List.find?_some hp
  exact ⟨p, platformAt_of_mem h (List.mem_of_find?_eq_some hp), hname ▸ hp⟩

theorem owned_addAll {s : PvState} (hs : Slots s) (howned : Owned s) (pvs : List Parsed) :
    Owned (addAll s pvs) := by
  induction pvs generalizing s with
  | nil => exact howned
  | cons pv pvs ih => exact ih (hs.addParsed pv.1 pv.2) (volumeViews_addParsed hs howned pv.1 pv.2).2

theorem alloc_addAll (s : PvState) (pvs : List Parsed) : (addAll s pvs).alloc = s.alloc := by
  induction pvs generalizing s with
  | nil => rfl
  | cons pv pvs ih => exact ih (addParsed s pv.1 pv.2)

/-- An address of a platform that was added. -/
theorem alloc_of_slots {s : PvState} (hs : Slots s) {a : Addr}
    (ha : a ∈ s.platforms.map (·.addr)) : a.alloc = s.alloc := by
  rw [hs, List.mem_map] at ha
  obtain ⟨i, -, rfl⟩ := ha
  rfl

/-- What is parsed to is linked, and numbered by the parse. -/
def LinkedAs (alloc : Nat) (s : PvState) : Prop :=
  Linked s ∧ ∀ p ∈ s.platforms, p.addr.alloc = alloc

theorem linked_system1 {jsmn : Jsmn} {mntpoint buf rev : CStr} {alloc : Nat} {t : PvState}
    (h : system1Parse jsmn mntpoint (pvStateNew alloc rev .system1) buf = some (some t)) :
    LinkedAs alloc t := by
  have hslots : Slots (pvStateNew alloc rev .system1) := rfl
  obtain ⟨ms, run, sb, pvs, -, hmanifest, htexts, rfl⟩ := system1Parse_members hslots h
  have hframe := parseBsp_frame hmanifest.bsp
  have hplatforms : sb.platforms = [] := congrArg PvState.platforms hframe
  have halloc : sb.alloc = alloc := congrArg PvState.alloc hframe
  have hjson : Slots (pvJsonsAdd (pvStateNew alloc rev .system1) (str "bsp/run.json") run) := hslots
  have hslots' : Slots sb := slots_of_frame hjson hframe
  have hinstalled := installed_addAll htexts (s := sb) (by simp [hplatforms])
  -- the addresses are those with which the platforms were added
  have haddrs : (parsedState mntpoint buf sb ms pvs).platforms.map (·.addr)
      = (addAll sb pvs).platforms.map (·.addr) := by
    have hmap := congrArg (List.map Prod.snd) (map_pvStateValidate hinstalled)
    simp only [List.map_map] at hmap
    exact hmap
  have hslotsAll := slots_addAll hslots' pvs
  have hallocAll : (addAll sb pvs).alloc = alloc := (alloc_addAll sb pvs).trans halloc
  have hnodup : ((parsedState mntpoint buf sb ms pvs).platforms.map (·.addr)).Nodup :=
    haddrs ▸ hslotsAll.nodup
  obtain ⟨hjsons, hobjects⟩ := parsedState_lists mntpoint buf htexts hplatforms
    (congrArg PvState.jsons hframe) (congrArg PvState.objects hframe)
  refine ⟨⟨hnodup, fun j hj a ha => ?_, fun o ho a ha => ?_, fun v hv a ha => ?_⟩, fun p hp => ?_⟩
  · rw [hjsons] at hj
    obtain ⟨m, -, rfl⟩ := List.mem_map.mp hj
    exact linked_ownerAddr hnodup ha
  · have hitem := List.mem_map_of_mem (f := PvObject.item) ho
    rw [hobjects] at hitem
    obtain ⟨m, -, hm⟩ := List.mem_map.mp hitem
    have hplat : ownerAddr (parsedState mntpoint buf sb ms pvs) m.1 = o.plat :=
      congrArg Item.plat hm
    exact linked_ownerAddr hnodup (hplat.trans ha)
  · have hunowned := unowned_manifest hmanifest rfl
    have howned := owned_addAll hslots'
      (fun v hv a hplat => by rw [hunowned v hv] at hplat; cases hplat) pvs
    obtain ⟨p, hp, haddr⟩ := platformAt_isSome.mp (howned v hv a ha)
    have hmem : a ∈ (parsedState mntpoint buf sb ms pvs).platforms.map (·.addr) := by
      rw [haddrs]
      exact List.mem_map.mpr ⟨p, hp, haddr⟩
    obtain ⟨q, hq, hqaddr⟩ := List.mem_map.mp hmem
    exact Option.isSome_iff_exists.mp (platformAt_isSome.mpr ⟨q, hq, hqaddr⟩)
  · exact (alloc_of_slots hslotsAll (haddrs ▸ List.mem_map_of_mem hp)).trans hallocAll

/-! ## multi1 -/

namespace Multi1

/-- A state in which nothing is linked, with the addresses of another. -/
structure Unlinked (addrs : List Addr) (s : PvState) : Prop where
  addrs : s.platforms.map (·.addr) = addrs
  jsons : ∀ j ∈ s.jsons, j.plat = none
  objects : ∀ o ∈ s.objects, o.plat = none
  volumes : ∀ v ∈ s.volumes, v.plat = none

theorem Unlinked.modify {addrs : List Addr} {s : PvState} (h : Unlinked addrs s) (a : Addr)
    {f : Platform → Platform} (hf : ∀ p, (f p).addr = p.addr) :
    Unlinked addrs (s.modifyPlatform a f) := by
  refine ⟨?_, h.jsons, h.objects, h.volumes⟩
  rw [← h.addrs, PvState.modifyPlatform, List.map_map]
  refine List.map_congr_left fun p _ => ?_
  dsimp only [Function.comp]
  split
  · exact hf p
  · rfl

theorem Unlinked.parseKey {jsmn : Jsmn} {mntpoint : CStr} {addrs : List Addr} {s s' : PvState}
    {m : CStr × CStr} (hs : Unlinked addrs s) (h : Multi1.parseKey jsmn mntpoint s m = some s') :
    Unlinked addrs s' := by
  unfold Multi1.parseKey at h
  split at h
  · exact Option.some.inj h ▸ hs
  · split at h
    · unfold Multi1.parsePlatform at h
      dsimp only at h
      split at h
      · split at h
        · exact Option.some.inj h ▸ hs
        · cases h
      · split at h
        · exact Option.some.inj h ▸ hs
        · simp only [Option.bind_eq_bind, Option.bind_eq_some_iff, Option.pure_def,
            Option.some.injEq] at h
          obtain ⟨_, -, _, -, _, -, _, -, rfl⟩ := h
          exact hs.modify _ fun _ => rfl
    · obtain rfl := Option.some.inj h
      refine ⟨hs.addrs, hs.jsons, ?_, hs.volumes⟩
      rw [pvObjectsAdd, List.forall_mem_cons]
      exact ⟨rfl, hs.objects⟩

theorem unlinked_foldlM {jsmn : Jsmn} {mntpoint : CStr} {addrs : List Addr}
    {ms : List (CStr × CStr)} {s s' : PvState} (hs : Unlinked addrs s)
    (h : ms.foldlM (Multi1.parseKey jsmn mntpoint) s = some s') : Unlinked addrs s' := by
  induction ms generalizing s with
  | nil => exact Option.some.inj h ▸ hs
  | cons m ms ih =>
    rw [List.foldlM_cons, Option.bind_eq_bind, Option.bind_eq_some_iff] at h
    obtain ⟨s₁, hkey, hrest⟩ := h
    exact ih (hs.parseKey hkey) hrest

/-- A manifest lists platforms and volumes, and links nothing. -/
theorem unlinked_manifestState (jsmn : Jsmn) (alloc : Nat) (rev value : CStr)
    (addons names volumes : List CStr) :
    Unlinked ((addAll { pvStateNew alloc rev .multi1 with
        bsp := { bspOf jsmn value with modules := none }
        addons := (pvStateNew alloc rev .multi1).addons ++ addons }
        (namedPlatforms names)).platforms.map (·.addr))
      (manifestState jsmn (pvStateNew alloc rev .multi1) value addons names volumes) := by
  have hadd : ∀ s : PvState, addAll s (namedPlatforms names) =
      { s with platforms := (addAll s (namedPlatforms names)).platforms } := by
    induction names with
    | nil => exact fun s => rfl
    | cons name names ih =>
      intro s
      have hstep : addParsed s (namedPlatform name) [] =
          { s with platforms := (addParsed s (namedPlatform name) []).platforms } := by
        rw [addParsed]
        simp
      exact (ih (addParsed s (namedPlatform name) [])).trans (congrArg (fun t : PvState =>
        { t with platforms := (addAll s (namedPlatforms (name :: names))).platforms }) hstep)
  refine ⟨rfl, ?_, ?_, ?_⟩
  · rw [manifestState, hadd]
    exact fun j hj => by cases hj
  · rw [manifestState, hadd]
    exact fun o ho => by cases ho
  · rw [manifestState, hadd]
    intro v hv
    rcases List.mem_append.mp hv with hv | hv
    · cases hv
    · obtain ⟨name, -, rfl⟩ := List.mem_map.mp hv
      rfl

end Multi1

theorem linked_multi1 {jsmn : Jsmn} {mntpoint buf rev : CStr} {alloc : Nat} {t : PvState}
    (h : Multi1.multi1Parse jsmn mntpoint (pvStateNew alloc rev .multi1) buf = some (some t)) :
    LinkedAs alloc t := by
  rcases Multi1.multi1Parse_spec h with ⟨-, rfl⟩ |
    ⟨value, addons, names, volumes, ms, s', -, -, -, -, hfold, rfl⟩
  · refine ⟨⟨List.nodup_nil, ?_, ?_, ?_⟩, ?_⟩
    · exact fun j hj => by cases hj
    · exact fun o ho => by cases ho
    · exact fun v hv => by cases hv
    · exact fun p hp => by cases hp
  · have hnew : Slots { pvStateNew alloc rev .multi1 with
        bsp := { bspOf jsmn value with modules := none }
        addons := (pvStateNew alloc rev .multi1).addons ++ addons } := rfl
    have hslots := slots_addAll hnew (Multi1.namedPlatforms names)
    have hstart := Multi1.unlinked_manifestState jsmn alloc rev value addons names volumes
    have hend := Multi1.unlinked_foldlM hstart hfold
    have hsub : (pvPlatformsRemoveNotInstalled { s' with json := some buf }).platforms.map (·.addr)
        |>.Sublist (s'.platforms.map (·.addr)) := List.filter_sublist.map _
    refine ⟨⟨?_, ?_, ?_, ?_⟩, ?_⟩
    · exact (hend.addrs ▸ hslots.nodup).sublist hsub
    · intro j hj a ha
      rw [hend.jsons j hj] at ha
      cases ha
    · intro o ho a ha
      rw [hend.objects o ho] at ha
      cases ha
    · intro v hv a ha
      rw [hend.volumes v hv] at ha
      cases ha
    · intro p hp
      have hmem := hsub.subset (List.mem_map_of_mem hp)
      rw [hend.addrs] at hmem
      exact (alloc_of_slots hslots hmem).trans (alloc_addAll _ _)

/-- **What the parsers give is linked.** -/
theorem linked_getState {jsmn : Jsmn} {mntpoint buf rev : CStr} {alloc : Nat} {t : PvState}
    (h : getState jsmn mntpoint alloc buf rev = some (some t)) : LinkedAs alloc t := by
  rcases getState_cases h with ⟨-, hparse⟩ | ⟨-, hparse⟩
  · exact linked_multi1 hparse
  · exact linked_system1 hparse

/-! ## The transfer -/

/-- A state with other statuses of its platforms. -/
def withStatuses (status : Addr → PlatStatus) (s : PvState) : PvState :=
  { s with platforms := s.platforms.map fun p => { p with status := status p.addr } }

/-- What changes in platforms but their addresses and names leaves everything linked. -/
theorem linked_map {f : Platform → Platform} (haddr : ∀ p, (f p).addr = p.addr)
    (hname : ∀ p, (f p).name = p.name) {s : PvState} (h : Linked s) :
    Linked { s with platforms := s.platforms.map f } := by
  have hat : ∀ a, PvState.platformAt { s with platforms := s.platforms.map f } a =
      (s.platformAt a).map f := by
    intro a
    simp only [PvState.platformAt, List.find?_map, Function.comp_def, haddr]
  have hget : ∀ name, PvState.platformGetByName { s with platforms := s.platforms.map f } name =
      (s.platformGetByName name).map f := by
    intro name
    simp only [PvState.platformGetByName, List.find?_map, Function.comp_def, hname]
  refine ⟨?_, fun j hj a ha => ?_, fun o ho a ha => ?_, fun v hv a ha => ?_⟩
  · rw [List.map_map]
    have hcomp : (fun p : Platform => p.addr) ∘ f = (·.addr) := funext haddr
    rw [hcomp]
    exact h.addrs
  · obtain ⟨p, hp, hfirst⟩ := h.jsons j hj a ha
    exact ⟨f p, by rw [hat, hp, Option.map_some], by rw [hget, hname, hfirst, Option.map_some]⟩
  · obtain ⟨p, hp, hfirst⟩ := h.objects o ho a ha
    exact ⟨f p, by rw [hat, hp, Option.map_some], by rw [hget, hname, hfirst, Option.map_some]⟩
  · obtain ⟨p, hp⟩ := h.volumes v hv a ha
    exact ⟨f p, by rw [hat, hp, Option.map_some]⟩

theorem linked_withStatuses (status : Addr → PlatStatus) {s : PvState} (h : Linked s) :
    Linked (withStatuses status s) :=
  linked_map (f := fun p => { p with status := status p.addr }) (fun _ => rfl) (fun _ => rfl) h

/-- **A transfer leaves no owner behind**, for two states that were parsed and any statuses,
exactly if every volume that is moved belongs to the first platform of its name. -/
theorem transfer_owned_iff {jsmn : Jsmn} {mntpoint buf buf' rev rev' : CStr} {alloc alloc' : Nat}
    {inp out : PvState} (hin : getState jsmn mntpoint alloc buf rev = some (some inp))
    (hout : getState jsmn mntpoint alloc' buf' rev' = some (some out)) (halloc : alloc ≠ alloc')
    (status : Addr → PlatStatus) :
    (∃ in' out', pvStateTransfer inp (withStatuses status out) = some out' ∧
      pvStateTransferIn inp (withStatuses status out) = some in' ∧
      Transferred inp (withStatuses status out) in' out') ↔
    FirstOwned inp (withStatuses status out) := by
  obtain ⟨hlinked, hnumber⟩ := linked_getState hin
  obtain ⟨hlinked', hnumber'⟩ := linked_getState hout
  refine transferred_iff hlinked (linked_withStatuses status hlinked') ?_
  intro p hp q hq heq
  obtain ⟨p', hp', rfl⟩ := List.mem_map.mp hp
  exact halloc ((hnumber q hq).symm.trans ((congrArg Addr.alloc heq).symm.trans (hnumber' p' hp')))

/-- What a text is parsed to, where it is accepted. -/
def acceptedState (alloc : Nat) (buf : CStr) : PvState :=
  ((getState tokenizer (str "/s") alloc buf (str "1")).bind id).getD (pvStateNew 0 [] .system1)

theorem getState_accepted {alloc : Nat} {buf : CStr}
    (h : ((getState tokenizer (str "/s") alloc buf (str "1")).bind id).isSome) :
    getState tokenizer (str "/s") alloc buf (str "1") = some (some (acceptedState alloc buf)) :=
  accepted_getD h _

/-- A second platform of the name `a`, with a volume. -/
def twinFile : CStr := str "\"b/run.json\":\x7b\"name\":\"a\",\"root-volume\":\"r.squashfs\"\x7d"

/-- The volume of the second platform goes over, and the platform does not. -/
theorem owner_left_behind :
    ¬ ∀ (jsmn : Jsmn) (mntpoint buf buf' rev rev' : CStr) (alloc alloc' : Nat) (inp out : PvState),
      getState jsmn mntpoint alloc buf rev = some (some inp) →
      getState jsmn mntpoint alloc' buf' rev' = some (some out) → alloc ≠ alloc' →
      ∀ status : Addr → PlatStatus,
        ∃ in' out', pvStateTransfer inp (withStatuses status out) = some out' ∧
          pvStateTransferIn inp (withStatuses status out) = some in' ∧
          Transferred inp (withStatuses status out) in' out' := by
  intro h
  have htexts : ((getState tokenizer (str "/s") 1 (twoFilesText fileA twinFile) (str "1")).bind
        id).isSome ∧
      ((getState tokenizer (str "/s") 0 (twoFilesText fileB fileB) (str "1")).bind id).isSome ∧
      ((pvStateTransfer (acceptedState 1 (twoFilesText fileA twinFile))
        (withStatuses (fun _ => .stopped) (acceptedState 0 (twoFilesText fileB fileB)))).map fun t =>
          t.volumes.all fun v => v.plat.all fun a => (t.platformAt a).isSome) = some false := by
    unfold twoFilesText
    repeat rw [str_ofList]
    decide +kernel
  obtain ⟨htwins, hother, hall⟩ := htexts
  obtain ⟨in', out', hout, -, htransferred⟩ := h tokenizer (str "/s") _ _ (str "1") (str "1") 1 0 _ _
    (getState_accepted htwins) (getState_accepted hother) (by decide) fun _ => .stopped
  rw [hout, Option.map_some, Option.some.injEq, List.all_eq_false] at hall
  obtain ⟨v, hv, hnot⟩ := hall
  refine hnot (Option.all_eq_true_iff_get _ _ |>.mpr fun hsome => ?_)
  exact htransferred.outOwners.volumes v hv _ (Option.get_mem hsome)

/-- With one platform of each name it is safe. -/
theorem transfer_owned_of_names :
    ∃ in' out', pvStateTransfer (acceptedState 1 (twoFilesText fileA fileB))
        (withStatuses (fun _ => .stopped) (acceptedState 0 (twoFilesText fileA fileB))) = some out' ∧
      pvStateTransferIn (acceptedState 1 (twoFilesText fileA fileB))
        (withStatuses (fun _ => .stopped) (acceptedState 0 (twoFilesText fileA fileB))) = some in' ∧
      Transferred (acceptedState 1 (twoFilesText fileA fileB))
        (withStatuses (fun _ => .stopped) (acceptedState 0 (twoFilesText fileA fileB))) in' out' := by
  have htexts : ((getState tokenizer (str "/s") 1 (twoFilesText fileA fileB) (str "1")).bind
        id).isSome ∧
      ((getState tokenizer (str "/s") 0 (twoFilesText fileA fileB) (str "1")).bind id).isSome ∧
      FirstOwned (acceptedState 1 (twoFilesText fileA fileB))
        (withStatuses (fun _ => .stopped) (acceptedState 0 (twoFilesText fileA fileB))) := by
    unfold twoFilesText
    repeat rw [str_ofList]
    decide +kernel
  obtain ⟨hin, hout, hfirst⟩ := htexts
  exact (transfer_owned_iff (getState_accepted hin) (getState_accepted hout) (by decide) _).mpr
    hfirst

/-! ## The comparison -/

/-- Two linked states can be compared. -/
theorem comparable_linked {pending current : PvState} (hpending : Linked pending)
    (hcurrent : Linked current) (hdistinct : DistinctNames pending)
    (hdistinct' : DistinctNames current) (hlevels : ∀ p ∈ pending.platforms, runlevelData ≤ p.runlevel)
    (hlevels' : ∀ p ∈ current.platforms, runlevelData ≤ p.runlevel) :
    Comparable pending current := by
  have hobjects : ∀ {s : PvState}, Linked s → ∀ o ∈ s.objectItems, OwnerHere s o.plat := by
    intro s hs
    rw [PvState.objectItems, List.forall_mem_map]
    exact hs.ownersHere.objects
  have hjsons : ∀ {s : PvState}, Linked s → ∀ o ∈ s.jsonItems, OwnerHere s o.plat := by
    intro s hs
    rw [PvState.jsonItems, List.forall_mem_map]
    exact hs.ownersHere.jsons
  exact ⟨hdistinct.platforms, ⟨hdistinct'.objects, hobjects hpending, hobjects hcurrent⟩,
    ⟨hdistinct'.jsons, hjsons hpending, hjsons hcurrent⟩, hlevels, hlevels'⟩

/-- **The comparison of two parsed states is exact** exactly if no changed item has an owner in
`pending` only before the first reason for a reboot, and no platform is added, without a
reboot, below everything else that counts. -/
theorem compare_exact_iff {jsmn : Jsmn} {mntpoint buf buf' rev rev' : CStr} {alloc alloc' : Nat}
    {pending current : PvState}
    (hpending : system1Parse jsmn mntpoint (pvStateNew alloc rev .system1) buf
      = some (some pending))
    (hcurrent : system1Parse jsmn mntpoint (pvStateNew alloc' rev' .system1) buf'
      = some (some current))
    (hdistinct : DistinctNames pending) (hdistinct' : DistinctNames current) :
    Exact pending current ↔ Comparing pending current := by
  exact exact_iff (comparable_linked (linked_system1 hpending).1 (linked_system1 hcurrent).1
    hdistinct hdistinct' (fun p hp => (range_system1 hpending p hp).1)
    fun p hp => (range_system1 hcurrent p hp).1)

/-- What a system1 text is parsed to, where it is accepted. -/
def acceptedSystem1 (buf : CStr) : PvState :=
  ((system1Parse tokenizer (str "/s") (pvStateNew 0 (str "1") .system1) buf).bind id).getD
    (pvStateNew 0 [] .system1)

/-- A text that is accepted, and whose names are distinct. -/
def Accepted (buf : CStr) : Prop :=
  ((system1Parse tokenizer (str "/s") (pvStateNew 0 (str "1") .system1) buf).bind id).isSome ∧
    ((acceptedSystem1 buf).platforms.map (·.name)).Nodup ∧
    ((acceptedSystem1 buf).objectItems.map (·.name)).Nodup ∧
    ((acceptedSystem1 buf).jsonItems.map (·.name)).Nodup

instance (buf : CStr) : Decidable (Accepted buf) := inferInstanceAs (Decidable (_ ∧ _))

theorem Accepted.parse {buf : CStr} (h : Accepted buf) :
    system1Parse tokenizer (str "/s") (pvStateNew 0 (str "1") .system1) buf
      = some (some (acceptedSystem1 buf)) := accepted_getD h.1 _

theorem Accepted.distinct {buf : CStr} (h : Accepted buf) : DistinctNames (acceptedSystem1 buf) :=
  ⟨h.2.1, h.2.2.1, h.2.2.2⟩

def objectX1 : CStr := str "\"a/x\":\"1\""
def objectX2 : CStr := str "\"a/x\":\"2\""
def jsonY : CStr := str "\"y.json\":\x7b\x7d"

/-- An object changes that had no platform, and has one now. -/
theorem null_owner_compared :
    ¬ ∀ (jsmn : Jsmn) (mntpoint buf buf' rev rev' : CStr) (alloc alloc' : Nat)
      (pending current : PvState),
      system1Parse jsmn mntpoint (pvStateNew alloc rev .system1) buf = some (some pending) →
      system1Parse jsmn mntpoint (pvStateNew alloc' rev' .system1) buf' = some (some current) →
      DistinctNames pending → DistinctNames current → Exact pending current := by
  intro h
  have htexts : Accepted (twoFilesText fileA objectX2) ∧ Accepted (twoFilesText jsonY objectX1) ∧
      pvStateCompareStates (acceptedSystem1 (twoFilesText fileA objectX2))
        (acceptedSystem1 (twoFilesText jsonY objectX1)) = none := by
    unfold twoFilesText
    repeat rw [str_ofList]
    decide +kernel
  obtain ⟨hpending, hcurrent, hfault⟩ := htexts
  obtain ⟨s, r, hcompare, -⟩ := h tokenizer (str "/s") _ _ (str "1") (str "1") 0 0 _ _
    hpending.parse hcurrent.parse hpending.distinct hcurrent.distinct
  rw [hfault] at hcompare
  cases hcompare

/-- With the platform in both states it is exact. -/
theorem compare_exact_of_owner :
    Exact (acceptedSystem1 (twoFilesText fileA objectX2))
      (acceptedSystem1 (twoFilesText fileA objectX1)) := by
  have htexts : Accepted (twoFilesText fileA objectX2) ∧ Accepted (twoFilesText fileA objectX1) ∧
      Comparing (acceptedSystem1 (twoFilesText fileA objectX2))
        (acceptedSystem1 (twoFilesText fileA objectX1)) := by
    unfold twoFilesText
    repeat rw [str_ofList]
    decide +kernel
  obtain ⟨hpending, hcurrent, hcomparing⟩ := htexts
  exact (compare_exact_iff hpending.parse hcurrent.parse hpending.distinct hcurrent.distinct).mpr
    hcomparing

end Pantavisor.Parser
