/-
Pantavisor.Parser.Safe — of which texts `pv_parser_get_state` is safe.

Here every fault of the two parsers is put down to the text: a `run.json` without a
name (`Pantavisor.Parser.PlatformFaults`), a name that linking cannot split, and for
multi1 a manifest without a kernel, a text with nothing but special keys, and a
platform that lacks what the parser reads without looking. `safe_iff` says that these
are all.
-/
import Pantavisor.Parser.Accepted
import Pantavisor.Parser.PlatformFaults
import Pantavisor.Json.Tokenizer

namespace Pantavisor.Parser

open Pantavisor.Lib Pantavisor.Json Pantavisor.State

/-! ## Linking -/

/-- `strtok` gives NULL for a name without a component, and for the second one of a
`_config` item that has one. NULL is compared with the names of the platforms. -/
theorem linkOf_none_iff (s : PvState) (name : CStr) :
    linkOf s name = none ↔ clean (components name) = [] ∨
      isConfig name = true ∧ ownerName name = none ∧ s.platforms ≠ [] := by
  have hcomp := components_strtok name
  unfold linkOf
  cases htok : strtok name with
  | none =>
    rw [htok, Option.map_none, Option.getD_none] at hcomp
    simp [hcomp]
  | some r =>
    obtain ⟨dir, rest⟩ := r
    rw [htok, Option.map_some, Option.getD_some] at hcomp
    by_cases hconfig : dir = str "_config"
    · have hrest := components_strtok rest
      cases htok' : strtok rest with
      | none =>
        rw [htok', Option.map_none, Option.getD_none] at hrest
        simp [hcomp, hconfig, htok', hrest, isConfig, ownerName]
      | some r' =>
        rw [htok', Option.map_some, Option.getD_some] at hrest
        have howner : ownerName name ≠ none := by simp [ownerName, hcomp, hconfig, hrest]
        simp only [hconfig, if_true, htok', hcomp, howner, false_and, and_false, or_false,
          List.cons_ne_nil, iff_false]
        split <;> simp
    · have hnot : isConfig name = false := by simp [isConfig, hcomp, hconfig]
      simp [hconfig, hcomp, hnot]

theorem linkItems_none_iff {α : Type} (s : PvState) (name : α → CStr) (set : α → Option Addr → α)
    (items : List α) :
    linkItems s name set items = none ↔ ∃ o ∈ items, linkOf s (name o) = none := by
  induction items with
  | nil => simp [linkItems]
  | cons o rest ih =>
    rw [List.exists_mem_cons_iff, ← ih, linkItems]
    cases hlink : linkOf s (name o) with
    | none => simp
    | some link =>
      cases hrest : linkItems s name set rest with
      | none => simp
      | some rest' => cases link <;> simp

theorem system1Link_none_iff (s : PvState) :
    system1LinkObjectJsonPlatforms s = none ↔
      (∃ o ∈ s.objects, linkOf s o.name = none) ∨ ∃ j ∈ s.jsons, linkOf s j.name = none := by
  rw [← linkItems_none_iff s PvObject.name (fun o a => { o with plat := a }),
    ← linkItems_none_iff s PvJson.name (fun j a => { j with plat := a }),
    system1LinkObjectJsonPlatforms]
  cases linkItems s PvObject.name (fun o a => { o with plat := a }) s.objects <;>
    cases linkItems s PvJson.name (fun j a => { j with plat := a }) s.jsons <;> simp

/-! ## The members of system1 -/

/-- A platform faults before one is rejected. -/
def FaultsFirst (jsmn : Jsmn) : List (CStr × CStr) → Prop
  | [] => False
  | m :: ms =>
    keyKind m.1 = .platform ∧ PlatformFaults jsmn m.2 ∨
      (keyKind m.1 = .platform → ¬ PlatformRejected jsmn m.2) ∧ FaultsFirst jsmn ms

/-- A text cannot both fault and be rejected. -/
theorem PlatformFaults.not_rejected {jsmn : Jsmn} {buf : CStr} (hsound : Sound jsmn)
    (h : PlatformFaults jsmn buf) : ¬ PlatformRejected jsmn buf := by
  obtain ⟨hfaults, hrejected⟩ := parsePlatform_outcome hsound emptyState buf
  intro hrej
  obtain ⟨ret, t, hrun, -⟩ := hrejected.mpr hrej
  rw [hfaults.mpr h] at hrun
  cases hrun

theorem parseKey_outcome {jsmn : Jsmn} (hsound : Sound jsmn) (mntpoint : CStr) (s : PvState)
    (m : CStr × CStr) :
    (parseKey jsmn mntpoint s m = none ↔ keyKind m.1 = .platform ∧ PlatformFaults jsmn m.2) ∧
      (parseKey jsmn mntpoint s m = some none ↔
        keyKind m.1 = .platform ∧ PlatformRejected jsmn m.2) := by
  obtain ⟨hfaults, hrejected⟩ := parsePlatform_outcome hsound s m.2
  unfold parseKey
  cases hkind : keyKind m.1 with
  | special | ignored | json | object => simp
  | platform =>
    rw [← hfaults, ← hrejected]
    rcases parsePlatform jsmn s m.2 with _ | ⟨ret, t⟩
    · simp
    · by_cases hret : ret = 0 <;> simp [hret]

/-- **The loop over the keys** faults if a platform does before one is rejected, and
goes through if none does either. -/
theorem parseKeys_outcome {jsmn : Jsmn} (hsound : Sound jsmn) (mntpoint : CStr)
    (ms : List (CStr × CStr)) (s : PvState) :
    (parseKeys jsmn mntpoint ms s = none ↔ FaultsFirst jsmn ms) ∧
      ((∃ t, parseKeys jsmn mntpoint ms s = some (some t)) ↔ ¬ FaultsFirst jsmn ms ∧
        ∀ m ∈ ms, keyKind m.1 = .platform → ¬ PlatformRejected jsmn m.2) := by
  induction ms generalizing s with
  | nil => simp [parseKeys, FaultsFirst]
  | cons m ms ih =>
    obtain ⟨hfaults, hrejected⟩ := parseKey_outcome hsound mntpoint s m
    rw [List.forall_mem_cons, parseKeys, FaultsFirst]
    rcases hkey : parseKey jsmn mntpoint s m with _ | _ | s'
    · have hplat := hfaults.mp hkey
      simp [hplat]
    · have hplat := hrejected.mp hkey
      have hnot : ¬ PlatformFaults jsmn m.2 := fun h => h.not_rejected hsound hplat.2
      simp [hplat, hnot]
    · have hnot : ¬ (keyKind m.1 = .platform ∧ PlatformFaults jsmn m.2) := by
        rw [← hfaults, hkey]
        simp
      have hnot' : keyKind m.1 = .platform → ¬ PlatformRejected jsmn m.2 := by
        intro hkind hrej
        rw [hrejected.mpr ⟨hkind, hrej⟩] at hkey
        cases hkey
      dsimp only
      rw [(ih s').1, (ih s').2]
      simp only [hnot, false_or, and_iff_right hnot', and_self]

/-- A member that is listed and that linking cannot split. -/
def Unlinkable (ms : List (CStr × CStr)) (m : CStr × CStr) : Prop :=
  keyKind m.1 ∈ [KeyKind.json, .platform, .object] ∧ (clean (components m.1) = [] ∨
    isConfig m.1 = true ∧ ownerName m.1 = none ∧ ∃ p ∈ ms, keyKind p.1 = .platform)

/-- Linking what the members have added. -/
theorem link_addMembers {jsmn : Jsmn} (mntpoint buf : CStr) {run : CStr} {sb : PvState}
    {ms : List (CStr × CStr)} {pvs : List Parsed} (htexts : PlatformTexts jsmn ms pvs)
    (hplatforms : sb.platforms = []) (hjsons : sb.jsons = [⟨str "bsp/run.json", run, none⟩])
    (hobjects : sb.objects = []) :
    system1LinkObjectJsonPlatforms { addMembers mntpoint sb ms pvs with json := some buf } = none ↔
      ∃ m ∈ ms, Unlinkable ms m := by
  have hsome : ({ addMembers mntpoint sb ms pvs with json := some buf } : PvState).platforms ≠ [] ↔
      ∃ p ∈ ms, keyKind p.1 = .platform := by
    have hlen : (addAll sb pvs).platforms.length = pvs.length := by
      have hmap : ∀ (pvs : List Parsed) (s : PvState),
          (addAll s pvs).platforms.length = s.platforms.length + pvs.length := by
        intro pvs
        induction pvs with
        | nil => simp [addAll]
        | cons pv pvs ih =>
          intro s
          rw [addAll, List.foldl_cons, ← addAll, ih, addParsed]
          simp only [List.length_append, List.length_cons, List.length_nil]
          omega
      rw [hmap, hplatforms]
      simp
    have hmembers : (ofKind [.platform] ms).length = pvs.length := htexts.length_eq
    change (addAll sb pvs).platforms ≠ [] ↔ _
    rw [← List.length_pos_iff, hlen, ← hmembers, List.length_pos_iff, ne_eq, ofKind,
      List.filter_eq_nil_iff]
    simp
  have hlink : ∀ name, linkOf { addMembers mntpoint sb ms pvs with json := some buf } name = none ↔
      clean (components name) = [] ∨ isConfig name = true ∧ ownerName name = none ∧
        ∃ p ∈ ms, keyKind p.1 = .platform := by
    intro name
    rw [linkOf_none_iff, hsome]
  have hlistJsons : ({ addMembers mntpoint sb ms pvs with json := some buf } : PvState).jsons
      = ((ofKind [.json, .platform] ms).map toJson).reverse ++ [⟨str "bsp/run.json", run, none⟩] := by
    rw [← hjsons]
    rfl
  have hlistObjects : ({ addMembers mntpoint sb ms pvs with json := some buf } : PvState).objects
      = ((ofKind [.object] ms).map (toObject mntpoint sb.rev)).reverse := by
    rw [← List.append_nil (List.reverse _), ← hobjects]
    rfl
  rw [system1Link_none_iff, hlistJsons, hlistObjects]
  simp only [hlink, List.mem_reverse, List.mem_map, List.mem_append, List.mem_singleton]
  constructor
  · rintro (⟨_, ⟨m, hm, rfl⟩, hbad⟩ | ⟨_, ⟨m, hm, rfl⟩ | rfl, hbad⟩)
    · obtain ⟨hm, hkind⟩ := List.mem_filter.mp hm
      refine ⟨m, hm, ?_, hbad⟩
      have hobject : keyKind m.1 = .object := by simpa using hkind
      simp [hobject]
    · obtain ⟨hm, hkind⟩ := List.mem_filter.mp hm
      refine ⟨m, hm, ?_, hbad⟩
      have hjson : keyKind m.1 = .json ∨ keyKind m.1 = .platform := by simpa using hkind
      rcases hjson with hjson | hjson <;> simp [hjson]
    · have hcomp : clean (components (str "bsp/run.json")) ≠ [] := by decide
      have hconfig : isConfig (str "bsp/run.json") = false := by decide
      rcases hbad with hnil | ⟨hconfig', -⟩
      · exact absurd hnil hcomp
      · rw [hconfig] at hconfig'
        cases hconfig'
  · rintro ⟨m, hm, hkind, hbad⟩
    simp only [List.mem_cons, List.not_mem_nil, or_false] at hkind
    rcases hkind with hkind | hkind | hkind
    · exact .inr ⟨toJson m, .inl ⟨m, List.mem_filter.mpr ⟨hm, by simp [hkind]⟩, rfl⟩, hbad⟩
    · exact .inr ⟨toJson m, .inl ⟨m, List.mem_filter.mpr ⟨hm, by simp [hkind]⟩, rfl⟩, hbad⟩
    · exact .inl ⟨toObject mntpoint sb.rev m,
        ⟨m, List.mem_filter.mpr ⟨hm, by simp [hkind]⟩, rfl⟩, hbad⟩

/-! ## system1 -/

/-- The manifest names an image. -/
def HasKernel (jsmn : Jsmn) (run : CStr) : Prop :=
  scan jsmn run (str "fit") ≠ none ∨ scan jsmn run (str "linux") ≠ none

theorem kernel_none_iff (jsmn : Jsmn) (run : CStr) :
    (bspOf jsmn run).kernel = none ↔ ¬ HasKernel jsmn run := by
  simp only [bspOf, HasKernel, scan]
  cases pvJsonGetValue run (str "fit") (tokensOf jsmn run) <;> simp

/-- A system1 text that is parsed without a fault: if its manifest is accepted, no
platform faults before one is rejected, and if none is rejected, every name links. -/
def SafeSystem1 (jsmn : Jsmn) (buf : CStr) : Prop :=
  ∀ run ms, pvJsonGetKeyCount buf (str "bsp/run.json") (tokensOf jsmn buf) = 1 →
    scan jsmn buf (str "bsp/run.json") = some run → HasKernel jsmn run →
    jsmn.objectKeys run (tokensOf jsmn run) 0 ≠ none →
    keysAndValues jsmn buf (tokensOf jsmn buf) = some ms →
    ¬ FaultsFirst jsmn ms ∧
      ((∀ m ∈ ms, keyKind m.1 = .platform → ¬ PlatformRejected jsmn m.2) →
        ∀ m ∈ ms, ¬ Unlinkable ms m)

/-- **system1 faults on no other text.** -/
theorem system1Parse_safe_iff {jsmn : Jsmn} (hsound : Sound jsmn) (mntpoint : CStr) {s : PvState}
    (hs : Slots s) (hplatforms : s.platforms = []) (hjsons : s.jsons = [])
    (hobjects : s.objects = []) (buf : CStr) :
    system1Parse jsmn mntpoint s buf ≠ none ↔ SafeSystem1 jsmn buf := by
  rw [system1Parse, SafeSystem1]
  by_cases hcount : pvJsonGetKeyCount buf (str "bsp/run.json") (tokensOf jsmn buf) = 1
  · rw [if_neg (not_not.mpr hcount)]
    cases hrun : pvJsonGetValue buf (str "bsp/run.json") (tokensOf jsmn buf) with
    | none => simp [scan, hrun]
    | some run =>
      have hscan : scan jsmn buf (str "bsp/run.json") = some run := hrun
      dsimp only
      rw [system1ParseBody]
      cases hbsp : parseBsp jsmn (pvJsonsAdd s (str "bsp/run.json") run) run with
      | none =>
        -- the manifest is rejected
        rw [parseBsp_eq] at hbsp
        simp only [ne_eq, reduceCtorEq, not_false_eq_true, true_iff]
        intro run' ms _ hscan' hkernel hobject
        obtain rfl := Option.some.inj (hscan.symm.trans hscan')
        rw [if_neg (fun hnone => (kernel_none_iff jsmn run).mp hnone hkernel),
          Option.map_eq_none_iff] at hbsp
        exact absurd hbsp hobject
      | some sb =>
        have hframe := parseBsp_frame hbsp
        have hslots : Slots (pvJsonsAdd s (str "bsp/run.json") run) := hs
        have hslots' : Slots sb := slots_of_frame hslots hframe
        have hsbPlatforms : sb.platforms = [] := (congrArg PvState.platforms hframe).trans hplatforms
        have hsbJsons : sb.jsons = [⟨str "bsp/run.json", run, none⟩] := by
          rw [hframe, pvJsonsAdd, hjsons]
        have hsbObjects : sb.objects = [] := (congrArg PvState.objects hframe).trans hobjects
        have haccepted : HasKernel jsmn run ∧ jsmn.objectKeys run (tokensOf jsmn run) 0 ≠ none := by
          obtain ⟨hkernel, keys, hkeys, -⟩ := parseBsp_some hbsp
          rw [ne_eq, kernel_none_iff, not_not] at hkernel
          exact ⟨hkernel, by rw [hkeys]; simp⟩
        dsimp only
        cases hkeys : jsmn.objectKeys buf (tokensOf jsmn buf) 0 with
        | none => simp [keysAndValues, hkeys]
        | some keys =>
          obtain ⟨ms, hms⟩ := hsound.mapM hkeys
          have hmembers : keysAndValues jsmn buf (tokensOf jsmn buf) = some ms := by
            rw [keysAndValues, hkeys]
            exact hms
          dsimp only
          rw [hms]
          dsimp only
          refine Iff.trans (b := ¬ FaultsFirst jsmn ms ∧
              ((∀ m ∈ ms, keyKind m.1 = .platform → ¬ PlatformRejected jsmn m.2) →
                ∀ m ∈ ms, ¬ Unlinkable ms m)) ?_ ⟨fun hsafe run' ms' _ _ _ _ hms' => ?_, fun hsafe => ?_⟩
          rotate_left
          · obtain rfl := Option.some.inj (hmembers.symm.trans hms')
            exact hsafe
          · exact hsafe run ms hcount hscan haccepted.1 haccepted.2 hmembers
          obtain ⟨hfaults, hthrough⟩ := parseKeys_outcome hsound mntpoint ms sb
          rcases hkeys : parseKeys jsmn mntpoint ms sb with _ | _ | t
          · simp [hfaults.mp hkeys]
          · have hnot : ¬ FaultsFirst jsmn ms := by
              rw [← hfaults, hkeys]
              simp
            have hrejected : ¬ ∀ m ∈ ms, keyKind m.1 = .platform → ¬ PlatformRejected jsmn m.2 := by
              intro hall
              obtain ⟨t, ht⟩ := hthrough.mpr ⟨hnot, hall⟩
              rw [hkeys] at ht
              cases ht
            refine ⟨fun _ => ⟨hnot, fun hall => absurd hall hrejected⟩, fun _ => ?_⟩
            simp
          · obtain ⟨hnot, hall⟩ := hthrough.mp ⟨t, hkeys⟩
            obtain ⟨pvs, htexts, rfl⟩ := parseKeys_spec hslots' hkeys
            have hlink := link_addMembers mntpoint buf htexts hsbPlatforms hsbJsons hsbObjects
            dsimp only
            cases hlinked : system1LinkObjectJsonPlatforms
                { addMembers mntpoint sb ms pvs with json := some buf } with
            | none =>
              obtain ⟨m, hm, hbad⟩ := hlink.mp hlinked
              simp only [ne_eq, not_true_eq_false, false_iff, not_and, not_forall, not_not]
              exact fun _ => ⟨hall, m, hm, hbad⟩
            | some t =>
              have hgood : ¬ ∃ m ∈ ms, Unlinkable ms m := by
                rw [← hlink, hlinked]
                simp
              simp only [ne_eq, reduceCtorEq, not_false_eq_true, true_iff]
              exact ⟨hnot, fun _ m hm hbad => hgood ⟨m, hm, hbad⟩⟩
  · rw [if_pos hcount]
    simp [hcount]

/-! ## multi1 -/

namespace Multi1

/-- A text that `jsmnutil_array_count` counts the elements of. -/
def ArrayText (jsmn : Jsmn) (countBuf buf : CStr) : Prop :=
  tokensOf jsmn buf ≠ [] ∧ 0 ≤ jsmn.arrayCount countBuf (tokensOf jsmn buf) 0

/-- A text that fills in one of the platforms, or none, without a fault. -/
structure FillsSafely (jsmn : Jsmn) (names : List CStr) (buf : CStr) : Prop where
  named : scan jsmn buf (str "name") = none → names = []
  arrays : ∀ name ∈ names, scan jsmn buf (str "name") = some name →
    ∃ configs shares, scan jsmn buf (str "configs") = some configs ∧
      scan jsmn buf (str "share") = some shares ∧ ArrayText jsmn buf configs ∧
      ArrayText jsmn shares shares

theorem arrayStrs_none_iff (jsmn : Jsmn) (countBuf buf : CStr) :
    arrayStrs jsmn countBuf buf = none ↔ ¬ ArrayText jsmn countBuf buf := by
  rw [arrayStrs, ArrayText]
  split
  · rename_i hbad
    simp only [true_iff]
    rintro ⟨hne, hle⟩
    rcases hbad with hnil | hlt
    · exact hne hnil
    · omega
  · rename_i hgood
    rw [not_or] at hgood
    simp only [reduceCtorEq, false_iff, not_not]
    exact ⟨hgood.1, by omega⟩

theorem parsePlatform_safe_iff (jsmn : Jsmn) (s : PvState) (buf : CStr) :
    parsePlatform jsmn s buf ≠ none ↔ FillsSafely jsmn (s.platforms.map (·.name)) buf := by
  rw [parsePlatform]
  cases hname : pvJsonGetValue buf (str "name") (tokensOf jsmn buf) with
  | none =>
    have hscan : scan jsmn buf (str "name") = none := hname
    dsimp only
    split
    · rename_i hnil
      simp only [ne_eq, reduceCtorEq, not_false_eq_true, true_iff]
      exact ⟨fun _ => by rw [hnil]; rfl, fun name _ hsome => by rw [hscan] at hsome; cases hsome⟩
    · rename_i hne
      simp only [ne_eq, not_true_eq_false, false_iff]
      exact fun hsafe => hne (List.map_eq_nil_iff.mp (hsafe.named hscan))
  | some name =>
    have hscan : scan jsmn buf (str "name") = some name := hname
    have hnamed : scan jsmn buf (str "name") = none → s.platforms.map (·.name) = [] := by
      rw [hscan]
      intro hnone
      cases hnone
    dsimp only
    cases hget : s.platformGetByName name with
    | none =>
      simp only [ne_eq, reduceCtorEq, not_false_eq_true, true_iff]
      refine ⟨hnamed, fun name' hmem hname' => ?_⟩
      obtain rfl := Option.some.inj (hscan.symm.trans hname')
      obtain ⟨p, hp, hpname⟩ := List.mem_map.mp hmem
      exact absurd (decide_eq_true hpname) (List.find?_eq_none.mp hget p hp)
    | some this =>
      have hmem : name ∈ s.platforms.map (·.name) := by
        have hthis : this.name = name := by simpa using List.find?_some hget
        exact List.mem_map.mpr ⟨this, List.mem_of_find?_eq_some hget, hthis⟩
      have hiff : FillsSafely jsmn (s.platforms.map (·.name)) buf ↔
          ∃ configs shares, scan jsmn buf (str "configs") = some configs ∧
            scan jsmn buf (str "share") = some shares ∧ ArrayText jsmn buf configs ∧
            ArrayText jsmn shares shares := by
        constructor
        · exact fun hsafe => hsafe.arrays name hmem hscan
        · exact fun harrays => ⟨hnamed, fun _ _ _ => harrays⟩
      rw [hiff]
      have hone : ∀ countBuf buf, ArrayText jsmn countBuf buf ↔
          ∃ strs, arrayStrs jsmn countBuf buf = some strs := by
        intro countBuf buf
        rw [← not_iff_not, ← arrayStrs_none_iff, Option.eq_none_iff_forall_ne_some]
        simp
      simp only [ne_eq, ← Option.isSome_iff_ne_none, Option.isSome_iff_exists, Option.bind_eq_bind,
        Option.bind_eq_some_iff, Option.pure_def, Option.some.injEq, scan, hone]
      constructor
      · rintro ⟨t, configs, hconfigs, shares, hshares, strs, hstrs, strs', hstrs', -⟩
        exact ⟨configs, shares, hconfigs, hshares, ⟨strs, hstrs⟩, ⟨strs', hstrs'⟩⟩
      · rintro ⟨configs, shares, hconfigs, hshares, ⟨strs, hstrs⟩, ⟨strs', hstrs'⟩⟩
        exact ⟨_, configs, hconfigs, shares, hshares, strs, hstrs, strs', hstrs', rfl⟩

theorem foldlM_parseKey_safe_iff (jsmn : Jsmn) (mntpoint : CStr) (ms : List (CStr × CStr))
    (s : PvState) :
    ms.foldlM (parseKey jsmn mntpoint) s ≠ none ↔
      ∀ m ∈ ms, isSpecial m.1 = false → isPlatformKey m.1 = true →
        FillsSafely jsmn (s.platforms.map (·.name)) m.2 := by
  induction ms generalizing s with
  | nil => simp
  | cons m ms ih =>
    have hkey : parseKey jsmn mntpoint s m ≠ none ↔ (isSpecial m.1 = false →
        isPlatformKey m.1 = true → FillsSafely jsmn (s.platforms.map (·.name)) m.2) := by
      rw [parseKey, ← parsePlatform_safe_iff]
      cases isSpecial m.1 <;> cases isPlatformKey m.1 <;> simp
    rw [List.foldlM_cons, List.forall_mem_cons, ← hkey]
    cases hrun : parseKey jsmn mntpoint s m with
    | none => simp
    | some s' =>
      have hnames := (parseKey_filled hrun).1.names
      rw [← hnames, ← ih s']
      simp

/-- A multi1 text that is parsed without a fault: if it has a manifest, that is an object
with an image, some key is not special, and every platform is filled in safely. -/
def Safe (jsmn : Jsmn) (buf : CStr) : Prop :=
  ∀ value, pvJsonGetKeyCount buf (str "pantavisor.json") (tokensOf jsmn buf) = 1 →
    scan jsmn buf (str "pantavisor.json") = some value →
    HasKernel jsmn value ∧ ∃ keys names ms,
      jsmn.objectKeys value (tokensOf jsmn value) 0 = some keys ∧
      keyStrs value (tokensOf jsmn value) keys (str "platforms") = some names ∧
      keysAndValues jsmn buf (tokensOf jsmn buf) = some ms ∧
      (∃ m ∈ ms, isSpecial m.1 = false) ∧
      ∀ m ∈ ms, isSpecial m.1 = false → isPlatformKey m.1 = true → FillsSafely jsmn names m.2

theorem keyStrs_some {jsmn : Jsmn} (hsound : Sound jsmn) {buf : CStr} {keys : List Nat}
    (hkeys : jsmn.objectKeys buf (tokensOf jsmn buf) 0 = some keys) (key : CStr) :
    ∃ strs, keyStrs buf (tokensOf jsmn buf) keys key = some strs := by
  rw [keyStrs]
  cases hk : doLookupJsonKey buf (tokensOf jsmn buf) keys key with
  | none => exact ⟨[], rfl⟩
  | some k =>
    obtain ⟨value, hvalue⟩ := value_of_lookup hsound hkeys hk
    exact ⟨pvJsonArrayStrs buf (tokensOf jsmn buf) (k + 1) value.size, by simp only [hvalue]; rfl⟩

/-- **multi1 faults on no other text.** -/
theorem multi1Parse_safe_iff {jsmn : Jsmn} (hsound : Sound jsmn) (mntpoint : CStr) {s : PvState}
    (hs : s.platforms = []) (buf : CStr) :
    multi1Parse jsmn mntpoint s buf ≠ none ↔ Safe jsmn buf := by
  rw [multi1Parse, Safe]
  by_cases hcount : pvJsonGetKeyCount buf (str "pantavisor.json") (tokensOf jsmn buf) = 1
  · rw [if_neg (not_not.mpr hcount)]
    cases hvalue : pvJsonGetValue buf (str "pantavisor.json") (tokensOf jsmn buf) with
    | none => simp [scan, hvalue]
    | some value =>
      have hscan : scan jsmn buf (str "pantavisor.json") = some value := hvalue
      -- there is one manifest, and it is the one that is parsed
      have hone : ∀ p : CStr → Prop, (∀ value', pvJsonGetKeyCount buf (str "pantavisor.json")
          (tokensOf jsmn buf) = 1 → scan jsmn buf (str "pantavisor.json") = some value' → p value') ↔
          p value := by
        intro p
        constructor
        · exact fun h => h value hcount hscan
        · intro h value' _ hscan'
          rwa [← Option.some.inj (hscan.symm.trans hscan')]
      rw [hone]
      dsimp only
      rw [parsePantavisor_eq]
      by_cases hkernel : (bspOf jsmn value).kernel = none
      · rw [if_pos hkernel]
        simp [(kernel_none_iff jsmn value).mp hkernel]
      · rw [if_neg hkernel]
        have hkernel' : HasKernel jsmn value := not_not.mp ((kernel_none_iff jsmn value).not.mp hkernel)
        cases hkeys : jsmn.objectKeys value (tokensOf jsmn value) 0 with
        | none => simp
        | some keys =>
          obtain ⟨addons, haddons⟩ := keyStrs_some hsound hkeys (str "addons")
          obtain ⟨names, hnames⟩ := keyStrs_some hsound hkeys (str "platforms")
          obtain ⟨volumes, hvolumes⟩ := keyStrs_some hsound hkeys (str "volumes")
          simp only [Option.bind_eq_bind, Option.bind_some, haddons, hnames, hvolumes,
            Option.pure_def]
          cases hobject : jsmn.objectKeys buf (tokensOf jsmn buf) 0 with
          | none => simp [keysAndValues, hobject]
          | some top =>
            obtain ⟨ms, hms⟩ := hsound.mapM hobject
            have hmembers : keysAndValues jsmn buf (tokensOf jsmn buf) = some ms := by
              rw [keysAndValues, hobject]
              exact hms
            have hfold := foldlM_parseKey_safe_iff jsmn mntpoint ms
              (manifestState jsmn s value addons names volumes)
            rw [manifestState_names jsmn hs] at hfold
            simp only [Option.bind_some, hms]
            have hgoal : (HasKernel jsmn value ∧ ∃ keys' names' ms', some keys = some keys' ∧
                keyStrs value (tokensOf jsmn value) keys' (str "platforms") = some names' ∧
                keysAndValues jsmn buf (tokensOf jsmn buf) = some ms' ∧
                (∃ m ∈ ms', isSpecial m.1 = false) ∧
                ∀ m ∈ ms', isSpecial m.1 = false → isPlatformKey m.1 = true →
                  FillsSafely jsmn names' m.2) ↔
                (∃ m ∈ ms, isSpecial m.1 = false) ∧
                ∀ m ∈ ms, isSpecial m.1 = false → isPlatformKey m.1 = true →
                  FillsSafely jsmn names m.2 := by
              constructor
              · rintro ⟨-, keys', names', ms', hkeys', hnames', hms', hsafe⟩
                obtain rfl := Option.some.inj hkeys'
                obtain rfl := Option.some.inj (hnames.symm.trans hnames')
                obtain rfl := Option.some.inj (hmembers.symm.trans hms')
                exact hsafe
              · exact fun hsafe => ⟨hkernel', keys, names, ms, rfl, hnames, hmembers, hsafe⟩
            rw [hgoal, ← hfold]
            by_cases hall : (ms.all fun m => isSpecial m.1) = true
            · rw [if_pos hall]
              have hnone : ¬ ∃ m ∈ ms, isSpecial m.1 = false := by
                rintro ⟨m, hm, hspecial⟩
                rw [List.all_eq_true.mp hall m hm] at hspecial
                cases hspecial
              simp [hnone]
            · rw [if_neg hall]
              have hsome : ∃ m ∈ ms, isSpecial m.1 = false := by
                rw [Bool.not_eq_true, List.all_eq_false] at hall
                obtain ⟨m, hm, hspecial⟩ := hall
                exact ⟨m, hm, by simpa using hspecial⟩
              cases ms.foldlM (parseKey jsmn mntpoint)
                (manifestState jsmn s value addons names volumes) <;> simp [hsome]
  · rw [if_pos hcount]
    simp [hcount]

end Multi1

/-! ## `pv_parser_get_state` -/

/-- A text that is parsed without a fault, by its spec. -/
structure Safe (jsmn : Jsmn) (buf : CStr) : Prop where
  multi1 : scan jsmn buf (str "#spec") = some specMulti1 → Multi1.Safe jsmn buf
  system1 : scan jsmn buf (str "#spec") = some specSystem1 → SafeSystem1 jsmn buf

/-- **The texts that `pv_parser_get_state` is safe on.** -/
theorem safe_iff {jsmn : Jsmn} (hsound : Sound jsmn) (mntpoint : CStr) (alloc : Nat)
    (buf rev : CStr) : getState jsmn mntpoint alloc buf rev ≠ none ↔ Safe jsmn buf := by
  have hslots : Slots (pvStateNew alloc rev .system1) := rfl
  have hsystem := system1Parse_safe_iff hsound mntpoint hslots rfl rfl rfl buf
  have hmulti := Multi1.multi1Parse_safe_iff hsound mntpoint
    (s := pvStateNew alloc rev .multi1) rfl buf
  have hsafe : Safe jsmn buf ↔ (scan jsmn buf (str "#spec") = some specMulti1 →
      Multi1.Safe jsmn buf) ∧ (scan jsmn buf (str "#spec") = some specSystem1 →
      SafeSystem1 jsmn buf) := ⟨fun h => ⟨h.multi1, h.system1⟩, fun h => ⟨h.1, h.2⟩⟩
  rw [hsafe, getState, pvParserGetState]
  cases hparse : jsmn.parse buf with
  | none =>
    have hnone : ∀ key, scan jsmn buf key = none := by
      intro key
      rw [scan, tokensOf, hparse]
      rfl
    simp [hnone]
  | some toks =>
    have htoks : tokensOf jsmn buf = toks := by rw [tokensOf, hparse, Option.getD_some]
    dsimp only
    cases hspec : pvJsonGetValue buf (str "#spec") toks with
    | none =>
      have hscan : scan jsmn buf (str "#spec") = none := by rw [scan, htoks, hspec]
      simp [hscan]
    | some spec =>
      have hscan : scan jsmn buf (str "#spec") = some spec := by rw [scan, htoks, hspec]
      rw [hscan]
      simp only [Option.some.injEq]
      by_cases hone : spec = specMulti1
      · have hne : spec ≠ specSystem1 := hone ▸ specSystem1_ne.symm
        simp only [hone, specSystem1_ne.symm, false_implies, and_true, true_implies]
        exact hmulti
      · rw [if_neg hone]
        by_cases htwo : spec = specSystem1
        · rw [if_pos htwo, hsystem]
          simp [htwo, specSystem1_ne]
        · rw [if_neg htwo]
          simp [hone, htwo]

/-- Whether the tokens of a text fit together. -/
def fits (toks : List Tok) : Bool :=
  (List.range toks.length).all fun i =>
    ((tokenizer.objectKeys [] toks i).all fun keys => keys.all fun k => k + 1 < toks.length) &&
      ((tokenizer.arrayToks [] toks i).all fun es =>
        (toks[i]?.all fun t => t.size ≤ es.length) && es.all fun e => e < toks.length)

/-- The tokenizer, for texts whose tokens fit together. -/
def strictTokenizer : Jsmn where
  parse buf := (tokenizer.parse buf).filter fits
  objectKeys := tokenizer.objectKeys
  arrayToks := tokenizer.arrayToks
  arrayCount := tokenizer.arrayCount
  objectKeyCount := tokenizer.objectKeyCount

theorem strictTokenizer_sound : Sound strictTokenizer := by
  have hfits : ∀ buf, fits (tokensOf strictTokenizer buf) = true := by
    intro buf
    rw [tokensOf, strictTokenizer]
    dsimp only
    cases hparse : (tokenizer.parse buf).filter fits with
    | none => rfl
    | some toks => exact (Option.filter_eq_some_iff.mp hparse).2
  have hat : ∀ buf i, i < (tokensOf strictTokenizer buf).length →
      ((tokenizer.objectKeys [] (tokensOf strictTokenizer buf) i).all fun keys =>
        keys.all fun k => k + 1 < (tokensOf strictTokenizer buf).length) = true ∧
      ((tokenizer.arrayToks [] (tokensOf strictTokenizer buf) i).all fun es =>
        ((tokensOf strictTokenizer buf)[i]?.all fun t => t.size ≤ es.length) &&
          es.all fun e => e < (tokensOf strictTokenizer buf).length) = true := by
    intro buf i hi
    have hall := List.all_eq_true.mp (hfits buf) i (List.mem_range.mpr hi)
    rwa [Bool.and_eq_true] at hall
  constructor
  · intro buf i keys hkeys k hk
    have hkeys' : tokenizer.objectKeys [] (tokensOf strictTokenizer buf) i = some keys := hkeys
    have hi : i < (tokensOf strictTokenizer buf).length := by
      by_contra hge
      rw [tokenizer] at hkeys'
      dsimp only at hkeys'
      rw [List.getElem?_eq_none (Nat.not_lt.mp hge)] at hkeys'
      cases hkeys'
    have hall := (hat buf i hi).1
    rw [hkeys', Option.all_some, List.all_eq_true] at hall
    simpa using hall k hk
  · intro buf i t es ht hes
    have hes' : tokenizer.arrayToks [] (tokensOf strictTokenizer buf) i = some es := hes
    obtain ⟨hi, -⟩ := List.getElem?_eq_some_iff.mp ht
    have hall := (hat buf i hi).2
    rw [hes', Option.all_some, Bool.and_eq_true, ht, Option.all_some, List.all_eq_true] at hall
    exact ⟨by simpa using hall.1, fun e he => by simpa using hall.2 e he⟩

/-- A state with one platform. -/
def onePlatformText (run : CStr) : CStr :=
  str "\x7b\"#spec\":\"pantavisor-service-system@1\",\"bsp/run.json\":\x7b\"linux\":\"k\"\x7d,\"a/run.json\":" ++
    run ++ str "\x7d"

/-- With a name it is safe. -/
theorem safe_iff_named : Safe strictTokenizer (onePlatformText (str "\x7b\"name\":\"a\"\x7d")) :=
  (safe_iff strictTokenizer_sound (str "/s") 0 _ (str "1")).mp (by
    rw [onePlatformText]
    repeat rw [str_ofList]
    decide +kernel)

/-- Without one it faults. -/
theorem nameless_faults :
    ¬ ∀ (jsmn : Jsmn) (mntpoint : CStr) (alloc : Nat) (buf rev : CStr), Sound jsmn →
      getState jsmn mntpoint alloc buf rev ≠ none := by
  intro h
  have hfault : getState strictTokenizer (str "/s") 0 (onePlatformText (str "\x7b\x7d"))
      (str "1") = none := by
    rw [onePlatformText]
    repeat rw [str_ofList]
    decide +kernel
  exact h strictTokenizer (str "/s") 0 (onePlatformText (str "\x7b\x7d")) (str "1")
    strictTokenizer_sound hfault

end Pantavisor.Parser
