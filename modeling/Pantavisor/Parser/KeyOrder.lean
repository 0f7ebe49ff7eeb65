/-
Pantavisor.Parser.KeyOrder — what the order of the keys of a system1 state decides.

A parsed state is looked at by its platforms, volumes and items without their
addresses, with every owner by its name. Two texts with the same members in another
order then have the same state, but for two things: `bsp/run.json` is looked up among
all strings of the text, and the platform that becomes root by default is the first
one of the text, and not the first by name (`key_order_iff`).
-/
import Mathlib.Data.List.Nodup
import Pantavisor.Parser.Runlevels

namespace Pantavisor.Parser

open Pantavisor.Lib Pantavisor.Json Pantavisor.State

/-! ## A state without addresses -/

/-- A platform without its address. -/
def bare (p : Platform) : Platform := { p with addr := ⟨0, 0⟩ }

/-- The name of an owner. -/
def nameAt (s : PvState) (a : Option Addr) : Option CStr :=
  a.bind fun a => (s.platformAt a).map (·.name)

/-- The volumes of a state, with their owners. -/
def volumeViews (s : PvState) : List (CStr × VolumeType × Option CStr) :=
  s.volumes.map fun v => (v.name, v.type, nameAt s v.plat)

/-- The items of a state, with their owners. -/
def itemViews (s : PvState) (items : List Item) : List (CStr × CStr × Option CStr) :=
  items.map fun o => (o.name, o.value, nameAt s o.plat)

/-- Two states are the same, as sets and without their addresses. -/
structure SameState (s t : PvState) : Prop where
  platforms : ∀ p, p ∈ s.platforms.map bare ↔ p ∈ t.platforms.map bare
  volumes : ∀ v, v ∈ volumeViews s ↔ v ∈ volumeViews t
  objects : ∀ o, o ∈ itemViews s s.objectItems ↔ o ∈ itemViews t t.objectItems
  jsons : ∀ j, j ∈ itemViews s s.jsonItems ↔ j ∈ itemViews t t.jsonItems

/-! ## The platforms of a text -/

/-- The platform and the volumes that a `run.json` defines. -/
def textParsed (jsmn : Jsmn) (buf : CStr) : Option (Platform × List (CStr × VolumeType)) := do
  let (_, t) ← parsePlatform jsmn emptyState buf
  let p ← t.platforms.head?
  return (bare p, t.volumes.map fun v => (v.name, v.type))

/-- All of the members of a text, in their order. -/
def textParseds (jsmn : Jsmn) (ms : List (CStr × CStr)) :
    List (Platform × List (CStr × VolumeType)) :=
  (ofKind [.platform] ms).filterMap fun m => textParsed jsmn m.2

/-- The platforms of the members, with the runlevels that are configured. -/
def textPlatforms (jsmn : Jsmn) (ms : List (CStr × CStr)) : List Platform :=
  (textParseds jsmn ms).map (·.1)

/-- A platform and its volumes without addresses. -/
def bareParsed (pv : Parsed) : Platform × List (CStr × VolumeType) :=
  (bare pv.1, pv.2.map fun v => (v.name, v.type))

theorem PlatformText.textParsed {jsmn : Jsmn} {buf : CStr} {p : Platform} {vs : List PvVolume}
    (h : PlatformText jsmn buf p vs) : textParsed jsmn buf = some (bareParsed (p, vs)) := by
  rw [PlatformText] at h
  simp only [Parser.textParsed, h, Option.bind_eq_bind, Option.bind_some]
  simp [addParsed, bareParsed, bare, emptyState, pvStateNew]

theorem PlatformTexts.textParseds {jsmn : Jsmn} {ms : List (CStr × CStr)} {pvs : List Parsed}
    (h : PlatformTexts jsmn ms pvs) : textParseds jsmn ms = pvs.map bareParsed := by
  rw [PlatformTexts] at h
  rw [Parser.textParseds]
  generalize ofKind [.platform] ms = ms' at h ⊢
  induction h with
  | nil => rfl
  | cons htext _ ih =>
    rw [List.filterMap_cons, htext.textParsed]
    exact congrArg (_ :: ·) ih

theorem textParseds_perm (jsmn : Jsmn) {ms ms' : List (CStr × CStr)} (h : ms.Perm ms') :
    (textParseds jsmn ms).Perm (textParseds jsmn ms') := (h.filter _).filterMap _

/-! ## The default root -/

/-- The first platform without a configured runlevel. -/
def firstOpen (ps : List Platform) : Option Platform := ps.find? fun p => p.runlevel = -1

/-- If a root is set by default, it is the first by name of the platforms without a
runlevel. -/
def RootByName (ps : List Platform) (t : PvState) : Prop :=
  (∀ p ∈ ps, p.runlevel ≠ runlevelRoot) → ∀ p ∈ t.platforms, p.runlevel = runlevelRoot →
    ∀ q ∈ ps, q.runlevel = -1 → ¬ q.name < p.name

theorem rootFirst_of_open {ps : List Platform} {p : Platform} (h : firstOpen ps = some p) :
    ∃ before after, ps = before ++ p :: after ∧
      rootFirst ps = before ++ { p with runlevel := runlevelRoot } :: after := by
  induction ps with
  | nil => cases h
  | cons q ps ih =>
    rw [firstOpen, List.find?_cons] at h
    rw [rootFirst]
    by_cases hq : q.runlevel = -1
    · rw [if_pos hq]
      rw [decide_eq_true hq] at h
      obtain rfl := Option.some.inj h
      exact ⟨[], ps, rfl, rfl⟩
    · rw [if_neg hq]
      rw [decide_eq_false hq] at h
      obtain ⟨before, after, hps, hroot⟩ := ih h
      exact ⟨q :: before, after, by rw [hps]; rfl, by rw [hroot]; rfl⟩

theorem rootFirst_of_none {ps : List Platform} (h : firstOpen ps = none) : rootFirst ps = ps := by
  induction ps with
  | nil => rfl
  | cons q ps ih =>
    rw [firstOpen, List.find?_eq_none] at h
    have hq : ¬ q.runlevel = -1 := by simpa using h q List.mem_cons_self
    rw [rootFirst, if_neg hq, ih]
    exact List.find?_eq_none.mpr fun p hp => h p (List.mem_cons_of_mem _ hp)

/-- The platforms that get the runlevel for the others. -/
def fillRunlevel (p : Platform) : Platform :=
  if p.runlevel < runlevelData then { p with runlevel := runlevelPlatform } else p

theorem fillRunlevel_root {p : Platform} (h : (fillRunlevel p).runlevel = runlevelRoot) :
    fillRunlevel p = p ∧ p.runlevel = runlevelRoot := by
  rw [fillRunlevel] at h ⊢
  split at h
  · exact absurd h (by decide : ¬ runlevelPlatform = runlevelRoot)
  · rename_i hge
    rw [if_neg hge]
    exact ⟨rfl, h⟩

/-- With a root among them, the order of platforms changes nothing. -/
theorem defaulted_of_root {ps : List Platform} (h : ∃ p ∈ ps, p.runlevel = runlevelRoot) :
    defaulted ps = ps.map fillRunlevel := by
  have hany : (ps.any fun p => p.runlevel = runlevelRoot) = true := by simpa using h
  rw [defaulted, hany, if_pos rfl]
  rfl

theorem defaulted_of_no_root {ps : List Platform} (h : ∀ p ∈ ps, p.runlevel ≠ runlevelRoot) :
    defaulted ps = (rootFirst ps).map fillRunlevel := by
  have hany : (ps.any fun p => p.runlevel = runlevelRoot) = false := by
    rw [List.any_eq_false]
    exact fun p hp => by simpa using h p hp
  rw [defaulted, hany]
  rfl

/-- Without a root, the only one is what the first open platform becomes. -/
theorem root_of_defaulted {ps : List Platform} (h : ∀ p ∈ ps, p.runlevel ≠ runlevelRoot)
    {q : Platform} :
    q ∈ defaulted ps ∧ q.runlevel = runlevelRoot ↔
      ∃ p, firstOpen ps = some p ∧ q = { p with runlevel := runlevelRoot } := by
  rw [defaulted_of_no_root h]
  constructor
  · rintro ⟨hq, hroot⟩
    obtain ⟨r, hr, rfl⟩ := List.mem_map.mp hq
    obtain ⟨hsame, hroot⟩ := fillRunlevel_root hroot
    rw [hsame]
    cases hopen : firstOpen ps with
    | none =>
      rw [rootFirst_of_none hopen] at hr
      exact absurd hroot (h r hr)
    | some p =>
      obtain ⟨before, after, rfl, hsplit⟩ := rootFirst_of_open hopen
      rw [hsplit] at hr
      refine ⟨p, rfl, ?_⟩
      rcases List.mem_append.mp hr with hr | hr
      · exact absurd hroot (h r (List.mem_append_left _ hr))
      · rcases List.mem_cons.mp hr with rfl | hr
        · rfl
        · exact absurd hroot (h r (List.mem_append_right _ (List.mem_cons_of_mem _ hr)))
  · rintro ⟨p, hopen, rfl⟩
    obtain ⟨before, after, -, hsplit⟩ := rootFirst_of_open hopen
    refine ⟨List.mem_map.mpr ⟨{ p with runlevel := runlevelRoot }, ?_, ?_⟩, rfl⟩
    · rw [hsplit]
      exact List.mem_append_right _ List.mem_cons_self
    · exact if_neg (by decide : ¬ runlevelRoot < runlevelData)

/-- The order leaves the defaults alone if a root is configured, or the same platform
is the first open one. -/
theorem defaulted_perm {ps ps' : List Platform} (hperm : ps.Perm ps')
    (h : (∃ p ∈ ps, p.runlevel = runlevelRoot) ∨ firstOpen ps = firstOpen ps') :
    (defaulted ps).Perm (defaulted ps') := by
  by_cases hroot : ∃ p ∈ ps, p.runlevel = runlevelRoot
  · have hroot' : ∃ p ∈ ps', p.runlevel = runlevelRoot := by
      obtain ⟨p, hp, hlevel⟩ := hroot
      exact ⟨p, hperm.mem_iff.mp hp, hlevel⟩
    rw [defaulted_of_root hroot, defaulted_of_root hroot']
    exact hperm.map _
  · have hsame := h.resolve_left hroot
    have hno : ∀ p ∈ ps, p.runlevel ≠ runlevelRoot := fun p hp hlevel => hroot ⟨p, hp, hlevel⟩
    have hno' : ∀ p ∈ ps', p.runlevel ≠ runlevelRoot := fun p hp => hno p (hperm.mem_iff.mpr hp)
    rw [defaulted_of_no_root hno, defaulted_of_no_root hno']
    refine List.Perm.map _ ?_
    cases hopen : firstOpen ps with
    | none => rwa [rootFirst_of_none hopen, rootFirst_of_none (hsame ▸ hopen)]
    | some p =>
      obtain ⟨before, after, rfl, hsplit⟩ := rootFirst_of_open hopen
      obtain ⟨before', after', rfl, hsplit'⟩ := rootFirst_of_open (hsame ▸ hopen)
      have hrest : (before ++ after).Perm (before' ++ after') :=
        ((List.perm_middle.symm.trans hperm).trans List.perm_middle).cons_inv
      rw [hsplit, hsplit']
      exact (List.perm_middle.trans (hrest.cons _)).trans List.perm_middle.symm

theorem bare_defaulted (ps : List Platform) :
    (defaulted ps).map bare = defaulted (ps.map bare) := by
  have hfirst : ∀ ps : List Platform, (rootFirst ps).map bare = rootFirst (ps.map bare) := by
    intro ps
    induction ps with
    | nil => rfl
    | cons p ps ih =>
      rw [List.map_cons, rootFirst, rootFirst]
      by_cases hp : p.runlevel = -1
      · rw [if_pos hp, if_pos (show (bare p).runlevel = -1 from hp)]
        rfl
      · rw [if_neg hp, if_neg (show ¬ (bare p).runlevel = -1 from hp), List.map_cons, ih]
  have hfill : ∀ ps : List Platform,
      (ps.map fillRunlevel).map bare = (ps.map bare).map fillRunlevel := by
    intro ps
    rw [List.map_map, List.map_map]
    refine List.map_congr_left fun p _ => ?_
    simp only [Function.comp_apply, fillRunlevel]
    split
    · rename_i hlt
      rw [if_pos (show (bare p).runlevel < runlevelData from hlt)]
      rfl
    · rename_i hge
      rw [if_neg (show ¬ (bare p).runlevel < runlevelData from hge)]
  change ((if _ then ps else rootFirst ps).map fillRunlevel).map bare
    = (if _ then ps.map bare else rootFirst (ps.map bare)).map fillRunlevel
  rw [List.any_map]
  change _ = (if ps.any fun p => p.runlevel = runlevelRoot then ps.map bare
    else rootFirst (ps.map bare)).map fillRunlevel
  rw [hfill]
  split
  · rfl
  · rw [hfirst]

/-! ## Volumes -/

/-- Every volume that has an owner has one of the state. -/
def Owned (s : PvState) : Prop :=
  ∀ v ∈ s.volumes, ∀ a, v.plat = some a → (s.platformAt a).isSome

/-- The volumes of a platform, seen from outside. -/
def viewsOf (pv : Platform × List (CStr × VolumeType)) : List (CStr × VolumeType × Option CStr) :=
  pv.2.map fun v => (v.1, v.2, some pv.1.name)

theorem platformAt_addParsed {s : PvState} (hs : Slots s) (p : Platform) (vs : List PvVolume) :
    (∀ a, (s.platformAt a).isSome → (addParsed s p vs).platformAt a = s.platformAt a) ∧
      (addParsed s p vs).platformAt (nextAddr s) = some { p with addr := nextAddr s } := by
  constructor
  · intro a ha
    obtain ⟨q, hq⟩ := Option.isSome_iff_exists.mp ha
    rw [PvState.platformAt] at hq
    rw [PvState.platformAt, PvState.platformAt, addParsed, List.find?_append, hq, Option.some_or]
  · have hnone : s.platforms.find? (fun q => q.addr = nextAddr s) = none :=
      List.find?_eq_none.mpr fun q hq => by simpa using hs.ne_next hq
    rw [PvState.platformAt, addParsed, List.find?_append, hnone, Option.none_or]
    simp

theorem volumeViews_addParsed {s : PvState} (hs : Slots s) (howned : Owned s) (p : Platform)
    (vs : List PvVolume) :
    volumeViews (addParsed s p vs) = volumeViews s ++ viewsOf (bareParsed (p, vs)) ∧
      Owned (addParsed s p vs) := by
  obtain ⟨hold, hnew⟩ := platformAt_addParsed hs p vs
  constructor
  · have hsplit : (addParsed s p vs).volumes
        = s.volumes ++ vs.map fun v => { v with plat := some (nextAddr s) } := rfl
    rw [volumeViews, hsplit, List.map_append, List.map_map, volumeViews, viewsOf, bareParsed,
      List.map_map]
    congr 1
    · refine List.map_congr_left fun v hv => ?_
      cases hplat : v.plat with
      | none => rfl
      | some a =>
        simp only [nameAt, Option.bind_some]
        rw [hold a (howned v hv a hplat)]
    · refine List.map_congr_left fun v _ => ?_
      simp only [Function.comp_apply, nameAt, Option.bind_some, hnew, Option.map_some, bare]
  · intro v hv a hplat
    rcases List.mem_append.mp hv with hv | hv
    · rw [hold a (howned v hv a hplat)]
      exact howned v hv a hplat
    · obtain ⟨w, -, rfl⟩ := List.mem_map.mp hv
      obtain rfl : nextAddr s = a := Option.some.inj hplat
      rw [hnew]
      rfl

theorem volumeViews_addAll {s : PvState} (hs : Slots s) (howned : Owned s) (pvs : List Parsed) :
    volumeViews (addAll s pvs) = volumeViews s ++ (pvs.map bareParsed).flatMap viewsOf := by
  induction pvs generalizing s with
  | nil => simp [addAll]
  | cons pv pvs ih =>
    obtain ⟨hviews, howned'⟩ := volumeViews_addParsed hs howned pv.1 pv.2
    rw [addAll, List.foldl_cons, ← addAll, ih (hs.addParsed pv.1 pv.2) howned', hviews,
      List.append_assoc, List.map_cons, List.flatMap_cons]

/-- What is found by an address depends on the names and the addresses. -/
theorem nameAt_congr {s t : PvState} (h : s.platforms.map nameAddr = t.platforms.map nameAddr) :
    nameAt s = nameAt t := by
  have hfind : ∀ (s : PvState) (a : Addr), (s.platformAt a).map (·.name)
      = ((s.platforms.map nameAddr).find? fun q => q.2 = a).map (·.1) := by
    intro s a
    rw [List.find?_map, Option.map_map]
    rfl
  funext a
  cases a with
  | none => rfl
  | some a => simp only [nameAt, Option.bind_some, hfind, h]

/-! ## Items -/

/-- Every platform has its own address. -/
theorem Slots.nodup {s : PvState} (h : Slots s) : (s.platforms.map (·.addr)).Nodup := by
  rw [h]
  refine List.Nodup.map (fun i j hij => ?_) List.nodup_range
  exact (Addr.mk.inj hij).2

/-- The owner of an item is found by its name again. -/
theorem nameAt_ownerAddr {s : PvState} (h : (s.platforms.map (·.addr)).Nodup) (name : CStr) :
    nameAt s (ownerAddr s name)
      = (ownerName name).filter fun dir => dir ∈ s.platforms.map (·.name) := by
  rw [ownerAddr]
  cases howner : ownerName name with
  | none => rfl
  | some dir =>
    rw [Option.bind_some]
    cases hget : s.platformGetByName dir with
    | none =>
      have hnone : dir ∉ s.platforms.map (·.name) := by
        intro hmem
        obtain ⟨p, hp, hname⟩ := List.mem_map.mp hmem
        exact List.find?_eq_none.mp hget p hp (decide_eq_true hname)
      rw [Option.filter_some_neg (by simpa using hnone)]
      rfl
    | some p =>
      have hmem := List.mem_of_find?_eq_some hget
      have hname : p.name = dir := by simpa using List.find?_some hget
      have hat : s.platformAt p.addr = some p := by
        cases hfound : s.platformAt p.addr with
        | none => exact absurd (decide_eq_true rfl) (List.find?_eq_none.mp hfound p hmem)
        | some q =>
          have haddr : q.addr = p.addr := by simpa using List.find?_some hfound
          rw [List.inj_on_of_nodup_map h (List.mem_of_find?_eq_some hfound) hmem haddr]
      have hin : dir ∈ s.platforms.map (·.name) := List.mem_map.mpr ⟨p, hmem, hname⟩
      rw [Option.map_some, nameAt, Option.bind_some, hat, Option.map_some, hname,
        Option.filter_some_pos (by simpa using hin)]

theorem ownerAddr_isNone (s : PvState) (name : CStr) :
    (ownerAddr s name).isNone = (nameAt s (ownerAddr s name)).isNone := by
  cases howner : ownerAddr s name with
  | none => rfl
  | some a =>
    obtain ⟨dir, -, hget⟩ := Option.bind_eq_some_iff.mp howner
    obtain ⟨p, hp, rfl⟩ := Option.map_eq_some_iff.mp hget
    cases hat : s.platformAt p.addr with
    | none =>
      exact absurd (decide_eq_true rfl)
        (List.find?_eq_none.mp hat p (List.mem_of_find?_eq_some hp))
    | some q => simp [nameAt, hat]

/-! ## What an accepted text looks like -/

/-- The owner of a name among platforms with these names. -/
def ownerIn (names : List CStr) (name : CStr) : Option CStr :=
  (ownerName name).filter fun dir => dir ∈ names

/-- An item that is not discarded. -/
def keptIn (names : List CStr) (name : CStr) : Bool :=
  !(isConfig name && (ownerIn names name).isNone)

/-- Members as items of platforms with these names. -/
def viewsIn (names : List CStr) (ms : List (CStr × CStr)) : List (CStr × CStr × Option CStr) :=
  (ms.filter fun m => keptIn names m.1).map fun m => (m.1, m.2, ownerIn names m.1)

/-- The volumes of a boot manifest. -/
def manifestVolumes (jsmn : Jsmn) (run : CStr) : List (CStr × VolumeType × Option CStr) :=
  (bspVolume (bspOf jsmn run).firmware ++ bspVolume (bspOf jsmn run).modules).map fun v =>
    (v.name, v.type, none)

/-- A state, seen from outside, by what is in its text. -/
structure Looks (jsmn : Jsmn) (ms : List (CStr × CStr)) (run : CStr) (t : PvState) : Prop where
  platforms : t.platforms.map bare = defaulted (textPlatforms jsmn ms)
  volumes : volumeViews t = manifestVolumes jsmn run ++ (textParseds jsmn ms).flatMap viewsOf
  objects : itemViews t t.objectItems
    = viewsIn ((textPlatforms jsmn ms).map (·.name)) (ofKind [.object] ms).reverse
  jsons : itemViews t t.jsonItems = viewsIn ((textPlatforms jsmn ms).map (·.name))
    ((ofKind [.json, .platform] ms).reverse ++ [(str "bsp/run.json", run)])

/-- **What an accepted text looks like.** -/
theorem looks_system1 {jsmn : Jsmn} {mntpoint buf rev : CStr} {alloc : Nat} {t : PvState}
    {ms : List (CStr × CStr)} (hms : keysAndValues jsmn buf (tokensOf jsmn buf) = some ms)
    (h : system1Parse jsmn mntpoint (pvStateNew alloc rev .system1) buf = some (some t)) :
    ∃ run, scan jsmn buf (str "bsp/run.json") = some run ∧ Looks jsmn ms run t := by
  have hslots : Slots (pvStateNew alloc rev .system1) := rfl
  obtain ⟨ms', run, sb, pvs, hms', hmanifest, htexts, rfl⟩ := system1Parse_members hslots h
  obtain rfl := Option.some.inj (hms.symm.trans hms')
  have hframe := parseBsp_frame hmanifest.bsp
  have hplatforms : sb.platforms = [] := congrArg PvState.platforms hframe
  have hjson : Slots (pvJsonsAdd (pvStateNew alloc rev .system1) (str "bsp/run.json") run) := hslots
  have hslots' : Slots sb := slots_of_frame hjson hframe
  obtain ⟨-, keys, -, hsb⟩ := parseBsp_some hmanifest.bsp
  have hvolumes : sb.volumes
      = bspVolume (bspOf jsmn run).firmware ++ bspVolume (bspOf jsmn run).modules :=
    congrArg PvState.volumes hsb
  have hunowned := unowned_manifest hmanifest rfl
  have hinstalled := installed_addAll htexts (s := sb) (by simp [hplatforms])
  -- names and addresses are those of the platforms as they were added
  have hnameAddr : (parsedState mntpoint buf sb ms pvs).platforms.map nameAddr
      = (addAll sb pvs).platforms.map nameAddr := map_pvStateValidate hinstalled
  have hnames : (parsedState mntpoint buf sb ms pvs).platforms.map (·.name)
      = (textPlatforms jsmn ms).map (·.name) := by
    have hmap := congrArg (List.map Prod.fst) hnameAddr
    simp only [List.map_map] at hmap
    refine hmap.trans ((map_addAll (·.name) (fun _ _ => rfl) sb pvs).trans ?_)
    rw [hplatforms, textPlatforms, htexts.textParseds, List.map_map, List.map_map]
    rfl
  have hnodup : ((parsedState mntpoint buf sb ms pvs).platforms.map (·.addr)).Nodup := by
    have hmap := congrArg (List.map Prod.snd) hnameAddr
    simp only [List.map_map] at hmap
    have hadded := (slots_addAll hslots' pvs).nodup
    exact hmap ▸ hadded
  have howner : ∀ name, nameAt (parsedState mntpoint buf sb ms pvs)
      (ownerAddr (parsedState mntpoint buf sb ms pvs) name)
        = ownerIn ((textPlatforms jsmn ms).map (·.name)) name := by
    intro name
    rw [nameAt_ownerAddr hnodup, hnames]
    rfl
  have hkept : ∀ name, (!discarded (parsedState mntpoint buf sb ms pvs) name)
      = keptIn ((textPlatforms jsmn ms).map (·.name)) name := by
    intro name
    rw [discarded, ownerAddr_isNone, howner]
    rfl
  obtain ⟨hjsons, hobjects⟩ := parsedState_lists mntpoint buf htexts hplatforms
    (congrArg PvState.jsons hframe) (congrArg PvState.objects hframe)
  refine ⟨run, hmanifest.value, ?_, ?_, ?_, ?_⟩
  · rw [platforms_parsedState mntpoint buf htexts hplatforms, bare_defaulted,
      map_addAll bare (fun _ _ => rfl), hplatforms, textPlatforms, htexts.textParseds, List.map_map]
    rfl
  · have hviews := volumeViews_addAll hslots'
      (fun v hv a hplat => by rw [hunowned v hv] at hplat; cases hplat) pvs
    have hsame : volumeViews (parsedState mntpoint buf sb ms pvs) = volumeViews (addAll sb pvs) := by
      rw [volumeViews, nameAt_congr hnameAddr]
      rfl
    rw [hsame, hviews, htexts.textParseds, manifestVolumes, ← hvolumes, volumeViews]
    congr 1
    refine List.map_congr_left fun v hv => ?_
    rw [hunowned v hv]
    rfl
  · rw [itemViews, PvState.objectItems, hobjects, List.map_map, viewsIn]
    simp only [hkept]
    exact List.map_congr_left fun m _ => by simp only [Function.comp_apply, howner]
  · rw [itemViews, PvState.jsonItems, hjsons, List.map_map, List.map_map, viewsIn]
    simp only [hkept]
    exact List.map_congr_left fun m _ => by simp only [Function.comp_apply, PvJson.item, howner]

/-! ## Two orders -/

/-- The manifests are the same, and so is the default root, which is the first by name. -/
structure OrderFree (jsmn : Jsmn) (buf buf' : CStr) (ms ms' : List (CStr × CStr)) : Prop where
  manifest : scan jsmn buf (str "bsp/run.json") = scan jsmn buf' (str "bsp/run.json")
  root : (∃ p ∈ textPlatforms jsmn ms, p.runlevel = runlevelRoot) ∨
    firstOpen (textPlatforms jsmn ms) = firstOpen (textPlatforms jsmn ms') ∧
      ∀ p, firstOpen (textPlatforms jsmn ms) = some p →
        ∀ q ∈ textPlatforms jsmn ms, q.runlevel = -1 → ¬ q.name < p.name

/-- The members of one text look like those of the other. -/
theorem viewsIn_perm {names names' : List CStr} (hnames : ∀ name, name ∈ names ↔ name ∈ names')
    {ms ms' : List (CStr × CStr)} (h : ms.Perm ms') : (viewsIn names ms).Perm (viewsIn names' ms') := by
  have howner : ownerIn names = ownerIn names' := by
    funext name
    simp only [ownerIn, hnames]
  have hkept : keptIn names = keptIn names' := by
    funext name
    simp only [keptIn, howner]
  rw [viewsIn, viewsIn, howner, hkept]
  exact (h.filter _).map _

/-- The text of the manifest can be seen. -/
theorem manifest_of_views {names : List CStr} {ms : List (CStr × CStr)} {run run' : CStr}
    {owner : Option CStr} (h : (str "bsp/run.json", run, owner) ∈ viewsIn names
      ((ofKind [.json, .platform] ms).reverse ++ [(str "bsp/run.json", run')])) : run = run' := by
  obtain ⟨m, hm, heq⟩ := List.mem_map.mp h
  obtain ⟨hkey, hrest⟩ := Prod.mk.inj heq
  have hrun : m.2 = run := (Prod.mk.inj hrest).1
  rcases List.mem_append.mp (List.mem_filter.mp hm).1 with hm | hm
  · have hkind := (List.mem_filter.mp (List.mem_reverse.mp hm)).2
    rw [hkey] at hkind
    exact absurd hkind (by decide)
  · rw [List.mem_singleton.mp hm] at hrun
    exact hrun.symm

/-- **The orders that make no difference**: the manifest is found, and the default root
is the same and the first by name. -/
theorem key_order_iff {jsmn : Jsmn} {mntpoint buf buf' rev rev' : CStr} {alloc alloc' : Nat}
    {t t' : PvState} {ms ms' : List (CStr × CStr)}
    (hspec : scan jsmn buf (str "#spec") = some specSystem1)
    (hspec' : scan jsmn buf' (str "#spec") = some specSystem1)
    (h : getState jsmn mntpoint alloc buf rev = some (some t))
    (h' : getState jsmn mntpoint alloc' buf' rev' = some (some t'))
    (hms : keysAndValues jsmn buf (tokensOf jsmn buf) = some ms)
    (hms' : keysAndValues jsmn buf' (tokensOf jsmn buf') = some ms') (hperm : ms.Perm ms') :
    SameState t t' ∧ RootByName (textPlatforms jsmn ms) t ∧ RootByName (textPlatforms jsmn ms') t' ↔
      OrderFree jsmn buf buf' ms ms' := by
  have hsystem : ∀ {buf rev : CStr} {alloc : Nat} {t : PvState},
      scan jsmn buf (str "#spec") = some specSystem1 →
      getState jsmn mntpoint alloc buf rev = some (some t) →
      system1Parse jsmn mntpoint (pvStateNew alloc rev .system1) buf = some (some t) := by
    intro buf rev alloc t hspec h
    rcases getState_cases h with ⟨hmulti, -⟩ | ⟨-, hparse⟩
    · exact absurd (Option.some.inj (hspec.symm.trans hmulti)) specSystem1_ne
    · exact hparse
  obtain ⟨run, hrun, hlooks⟩ := looks_system1 hms (hsystem hspec h)
  obtain ⟨run', hrun', hlooks'⟩ := looks_system1 hms' (hsystem hspec' h')
  have hparseds := textParseds_perm jsmn hperm
  have hplatforms : (textPlatforms jsmn ms).Perm (textPlatforms jsmn ms') := hparseds.map _
  have hnames : ∀ name, name ∈ (textPlatforms jsmn ms).map (·.name) ↔
      name ∈ (textPlatforms jsmn ms').map (·.name) := fun _ => (hplatforms.map _).mem_iff
  -- the root of a state, by what it looks like
  have hroot : ∀ {ms : List (CStr × CStr)} {run : CStr} {t : PvState}, Looks jsmn ms run t →
      (∀ p ∈ textPlatforms jsmn ms, p.runlevel ≠ runlevelRoot) →
      ∀ p, p ∈ t.platforms.map bare ∧ p.runlevel = runlevelRoot ↔
        ∃ q, firstOpen (textPlatforms jsmn ms) = some q ∧ p = { q with runlevel := runlevelRoot } := by
    intro ms run t hlooks hno p
    rw [hlooks.platforms]
    exact root_of_defaulted hno
  constructor
  · rintro ⟨hsame, hbyName, -⟩
    have hmanifest : run = run' := by
      have hmem : ∃ owner, (str "bsp/run.json", run, owner) ∈ itemViews t t.jsonItems := by
        rw [hlooks.jsons]
        refine ⟨_, List.mem_map.mpr ⟨(str "bsp/run.json", run), List.mem_filter.mpr ⟨by simp, ?_⟩,
          rfl⟩⟩
        have hconfig : isConfig (str "bsp/run.json") = false := by decide
        simp [keptIn, hconfig]
      obtain ⟨owner, hmem⟩ := hmem
      have hmem' := (hsame.jsons _).mp hmem
      rw [hlooks'.jsons] at hmem'
      exact manifest_of_views hmem'
    refine ⟨by rw [hrun, hrun', hmanifest], ?_⟩
    by_cases hconfigured : ∃ p ∈ textPlatforms jsmn ms, p.runlevel = runlevelRoot
    · exact .inl hconfigured
    · have hno : ∀ p ∈ textPlatforms jsmn ms, p.runlevel ≠ runlevelRoot :=
        fun p hp hlevel => hconfigured ⟨p, hp, hlevel⟩
      have hno' : ∀ p ∈ textPlatforms jsmn ms', p.runlevel ≠ runlevelRoot :=
        fun p hp => hno p (hplatforms.mem_iff.mpr hp)
      refine .inr ⟨?_, fun p hopen q hq hqopen => ?_⟩
      · cases hopen : firstOpen (textPlatforms jsmn ms) with
        | none =>
          refine (List.find?_eq_none.mpr fun q hq => ?_).symm
          exact List.find?_eq_none.mp hopen q (hplatforms.mem_iff.mpr hq)
        | some p =>
          obtain ⟨hin, hlevel⟩ := (hroot hlooks hno { p with runlevel := runlevelRoot }).mpr
            ⟨p, hopen, rfl⟩
          obtain ⟨q, hopen', heq⟩ := (hroot hlooks' hno' _).mp ⟨(hsame.platforms _).mp hin, hlevel⟩
          have hp : p.runlevel = -1 := by simpa using List.find?_some hopen
          have hq : q.runlevel = -1 := by simpa using List.find?_some hopen'
          have hpq := congrArg (fun p : Platform => { p with runlevel := -1 }) heq
          dsimp only at hpq
          rw [hopen']
          cases p
          cases q
          simp_all
      · obtain ⟨hin, hlevel⟩ := (hroot hlooks hno { p with runlevel := runlevelRoot }).mpr
          ⟨p, hopen, rfl⟩
        obtain ⟨r, hr, hbare⟩ := List.mem_map.mp hin
        have hrlevel : r.runlevel = runlevelRoot := (congrArg Platform.runlevel hbare).trans hlevel
        have hnames := congrArg Platform.name hbare
        have hname : r.name = p.name := hnames
        rw [← hname]
        exact hbyName hno r hr hrlevel q hq hqopen
  · rintro ⟨hmanifest, hfree⟩
    obtain rfl : run = run' := by
      rw [hrun, hrun'] at hmanifest
      exact Option.some.inj hmanifest
    have hbyName : ∀ {ms' : List (CStr × CStr)} {t' : PvState},
        Looks jsmn ms' run t' → (textPlatforms jsmn ms).Perm (textPlatforms jsmn ms') →
        firstOpen (textPlatforms jsmn ms) = firstOpen (textPlatforms jsmn ms') ∨
          (∃ p ∈ textPlatforms jsmn ms, p.runlevel = runlevelRoot) →
        RootByName (textPlatforms jsmn ms') t' := by
      intro ms' t' hlooks' hplatforms hopen hno' p hp hlevel q hq hqopen
      have hno : ¬ ∃ p ∈ textPlatforms jsmn ms, p.runlevel = runlevelRoot :=
        fun ⟨p, hp, hlevel⟩ => hno' p (hplatforms.mem_iff.mp hp) hlevel
      obtain ⟨r, hr, hbare⟩ := (hroot hlooks' hno' (bare p)).mp
        ⟨List.mem_map_of_mem hp, hlevel⟩
      have hnames := congrArg Platform.name hbare
      have hname : p.name = r.name := hnames
      rw [hname]
      exact (hfree.resolve_left hno).2 r ((hopen.resolve_right hno).trans hr) q
        (hplatforms.mem_iff.mpr hq) hqopen
    have hdefaults : (defaulted (textPlatforms jsmn ms)).Perm (defaulted (textPlatforms jsmn ms')) :=
      defaulted_perm hplatforms (hfree.imp_right And.left)
    refine ⟨⟨fun p => ?_, fun v => ?_, fun o => ?_, fun j => ?_⟩, ?_, ?_⟩
    · rw [hlooks.platforms, hlooks'.platforms]
      exact hdefaults.mem_iff
    · rw [hlooks.volumes, hlooks'.volumes]
      exact ((hparseds.flatMap_right _).append_left _).mem_iff
    · rw [hlooks.objects, hlooks'.objects]
      exact (viewsIn_perm hnames ((List.reverse_perm _).trans
        ((hperm.filter _).trans (List.reverse_perm _).symm))).mem_iff
    · rw [hlooks.jsons, hlooks'.jsons]
      exact (viewsIn_perm hnames (((List.reverse_perm _).trans
        ((hperm.filter _).trans (List.reverse_perm _).symm)).append_right _)).mem_iff
    · exact hbyName hlooks (.refl _) (.inl rfl)
    · exact hbyName hlooks' hplatforms (hfree.symm.imp_left And.left)

/-- A state with two files of platforms. -/
def twoFilesText (file file' : CStr) : CStr :=
  str "\x7b\"#spec\":\"pantavisor-service-system@1\",\"bsp/run.json\":\x7b\"linux\":\"k\"\x7d," ++ file ++
    str "," ++ file' ++ str "\x7d"

def fileA : CStr := str "\"a/run.json\":\x7b\"name\":\"a\"\x7d"
def fileB : CStr := str "\"b/run.json\":\x7b\"name\":\"b\"\x7d"
def rootFileB : CStr := str "\"b/run.json\":\x7b\"name\":\"b\",\"runlevel\":\"root\"\x7d"

/-- The members of such a state. -/
def twoMembers (m m' : CStr × CStr) : List (CStr × CStr) :=
  [(str "#spec", specSystem1), (str "bsp/run.json", str "\x7b\"linux\":\"k\"\x7d"), m, m']

def memberA : CStr × CStr := (str "a/run.json", str "\x7b\"name\":\"a\"\x7d")
def memberB : CStr × CStr := (str "b/run.json", str "\x7b\"name\":\"b\"\x7d")
def rootMemberB : CStr × CStr :=
  (str "b/run.json", str "\x7b\"name\":\"b\",\"runlevel\":\"root\"\x7d")

theorem twoMembers_perm (m m' : CStr × CStr) : (twoMembers m m').Perm (twoMembers m' m) :=
  ((List.Perm.swap _ _ []).cons _).cons _

/-- The members of a text, and the platforms of its state with their runlevels. -/
def Outlined (buf : CStr) (ms : List (CStr × CStr)) (views : List (CStr × Int)) : Prop :=
  scan tokenizer buf (str "#spec") = some specSystem1 ∧
    scan tokenizer buf (str "bsp/run.json") = some (str "\x7b\"linux\":\"k\"\x7d") ∧
    keysAndValues tokenizer buf (tokensOf tokenizer buf) = some ms ∧
    ((getState tokenizer (str "/s") 0 buf (str "1")).bind id).map
      (fun t => t.platforms.map fun p => (p.name, p.runlevel)) = some views

/-- With a root among the platforms, their order makes no difference. -/
theorem key_order_iff_root :
    ∃ t t', getState tokenizer (str "/s") 0 (twoFilesText fileA rootFileB) (str "1") = some (some t) ∧
      getState tokenizer (str "/s") 0 (twoFilesText rootFileB fileA) (str "1") = some (some t') ∧
      SameState t t' := by
  obtain ⟨hspec, hrun, hms, hviews⟩ : Outlined (twoFilesText fileA rootFileB)
      (twoMembers memberA rootMemberB) [(str "a", 2), (str "b", 1)] := by
    rw [Outlined, twoFilesText, fileA, rootFileB]
    repeat rw [str_ofList]
    decide +kernel
  obtain ⟨hspec', hrun', hms', hviews'⟩ : Outlined (twoFilesText rootFileB fileA)
      (twoMembers rootMemberB memberA) [(str "b", 1), (str "a", 2)] := by
    rw [Outlined, twoFilesText, fileA, rootFileB]
    repeat rw [str_ofList]
    decide +kernel
  obtain ⟨t, ht, -⟩ := accepted_of_map hviews
  obtain ⟨t', ht', -⟩ := accepted_of_map hviews'
  have hfree : OrderFree tokenizer (twoFilesText fileA rootFileB) (twoFilesText rootFileB fileA)
      (twoMembers memberA rootMemberB) (twoMembers rootMemberB memberA) :=
    ⟨hrun.trans hrun'.symm, .inl (by decide +kernel)⟩
  exact ⟨t, t', ht, ht', ((key_order_iff hspec hspec' ht ht' hms hms'
    (twoMembers_perm _ _)).mpr hfree).1⟩

/-- Without one, the first of the text becomes root. -/
theorem root_by_order :
    ¬ ∀ (jsmn : Jsmn) (mntpoint buf buf' rev : CStr) (alloc : Nat) (t t' : PvState)
      (ms ms' : List (CStr × CStr)),
      scan jsmn buf (str "#spec") = some specSystem1 →
      scan jsmn buf' (str "#spec") = some specSystem1 →
      getState jsmn mntpoint alloc buf rev = some (some t) →
      getState jsmn mntpoint alloc buf' rev = some (some t') →
      keysAndValues jsmn buf (tokensOf jsmn buf) = some ms →
      keysAndValues jsmn buf' (tokensOf jsmn buf') = some ms' → ms.Perm ms' →
      (ms.map (·.1)).Nodup → SameState t t' := by
  intro h
  obtain ⟨hspec, -, hms, hviews⟩ : Outlined (twoFilesText fileA fileB)
      (twoMembers memberA memberB) [(str "a", 1), (str "b", 2)] := by
    rw [Outlined, twoFilesText, fileA, fileB]
    repeat rw [str_ofList]
    decide +kernel
  obtain ⟨hspec', -, hms', hviews'⟩ : Outlined (twoFilesText fileB fileA)
      (twoMembers memberB memberA) [(str "b", 1), (str "a", 2)] := by
    rw [Outlined, twoFilesText, fileA, fileB]
    repeat rw [str_ofList]
    decide +kernel
  obtain ⟨t, ht, hviews⟩ := accepted_of_map hviews
  obtain ⟨t', ht', hviews'⟩ := accepted_of_map hviews'
  have hsame := h tokenizer (str "/s") _ _ (str "1") 0 t t' _ _ hspec hspec' ht ht' hms hms'
    (twoMembers_perm _ _) (by decide)
  have hroot : (str "a", (1 : Int)) ∈ t.platforms.map fun p => (p.name, p.runlevel) := by
    rw [hviews]
    exact List.mem_cons_self
  obtain ⟨p, hp, heq⟩ := List.mem_map.mp hroot
  obtain ⟨q, hq, hbare⟩ := List.mem_map.mp ((hsame.platforms (bare p)).mp (List.mem_map_of_mem hp))
  have hlook := congrArg (fun p : Platform => (p.name, p.runlevel)) hbare
  have hin := List.mem_map_of_mem (f := fun p : Platform => (p.name, p.runlevel)) hq
  rw [show (q.name, q.runlevel) = (str "a", (1 : Int)) from Eq.trans hlook heq, hviews'] at hin
  exact absurd hin (by decide)

end Pantavisor.Parser
