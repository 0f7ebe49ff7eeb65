/-
Pantavisor.Parser.Accepted — what `pv_parser_get_state` makes of a text that it accepts.

The spec decides which parser runs (`getState_cases`). For system1 the result is in
`Pantavisor.Parser.Members`. For multi1 it is the state that the manifest lists,
filled in by the members one after another (`multi1Parse_spec`): they set what the
platforms have, and neither the images nor the runlevels (`Filled`).
-/
import Pantavisor.Parser.Multi1
import Pantavisor.Parser.Members

namespace Pantavisor.Parser

open Pantavisor.Lib Pantavisor.Json Pantavisor.State

/-! ## The spec -/

/-- What `pv_json_get_value` finds in a text. -/
def scan (jsmn : Jsmn) (buf key : CStr) : Option CStr := pvJsonGetValue buf key (tokensOf jsmn buf)

/-- An accepted text says one of the two specs, and its parser has accepted it. -/
theorem getState_cases {jsmn : Jsmn} {mntpoint buf rev : CStr} {alloc : Nat} {t : PvState}
    (h : getState jsmn mntpoint alloc buf rev = some (some t)) :
    (scan jsmn buf (str "#spec") = some specMulti1 ∧
      Multi1.multi1Parse jsmn mntpoint (pvStateNew alloc rev .multi1) buf = some (some t)) ∨
    (scan jsmn buf (str "#spec") = some specSystem1 ∧
      system1Parse jsmn mntpoint (pvStateNew alloc rev .system1) buf = some (some t)) := by
  unfold getState pvParserGetState at h
  unfold scan
  split at h
  · cases h
  · rename_i toks htoks
    have htokens : tokensOf jsmn buf = toks := by rw [tokensOf, htoks, Option.getD_some]
    rw [htokens]
    split at h
    · cases h
    · rename_i spec hspec
      rw [hspec]
      split at h
      · rename_i hmulti
        exact .inl ⟨by rw [hmulti], h⟩
      · split at h
        · rename_i hsystem
          exact .inr ⟨by rw [hsystem], h⟩
        · cases h

theorem specSystem1_ne : specSystem1 ≠ specMulti1 := by decide

namespace Multi1

/-! ## The boot manifest -/

/-- The platforms that a list of names makes. -/
def namedPlatforms (names : List CStr) : List Parsed :=
  names.map fun name => (namedPlatform name, [])

theorem foldl_pvPlatformAdd (names : List CStr) (s : PvState) :
    names.foldl (fun s name => (pvPlatformAdd s name).2) s = addAll s (namedPlatforms names) := by
  induction names generalizing s with
  | nil => rfl
  | cons name names ih =>
    rw [List.foldl_cons, ih, pvPlatformAdd_eq]
    rfl

theorem foldl_pvVolumeAdd (names : List CStr) (s : PvState) :
    names.foldl pvVolumeAdd s
      = { s with volumes := s.volumes ++ names.map fun name => ⟨name, .loopimg, none⟩ } := by
  induction names generalizing s with
  | nil => simp
  | cons name names ih =>
    rw [List.foldl_cons, ih, pvVolumeAdd, List.map_cons, List.append_assoc]
    rfl

/-- What `parse_pantavisor` lists. -/
structure Lists (jsmn : Jsmn) (value : CStr) (addons names volumes : List CStr) : Prop where
  kernel : (bspOf jsmn value).kernel ≠ none
  keys : ∃ keys, jsmn.objectKeys value (tokensOf jsmn value) 0 = some keys ∧
    keyStrs value (tokensOf jsmn value) keys (str "addons") = some addons ∧
    keyStrs value (tokensOf jsmn value) keys (str "platforms") = some names ∧
    keyStrs value (tokensOf jsmn value) keys (str "volumes") = some volumes

/-- A state with the images, the addons, the platforms and the volumes of a manifest. -/
def manifestState (jsmn : Jsmn) (s : PvState) (value : CStr) (addons names volumes : List CStr) :
    PvState :=
  let s := { s with bsp := { bspOf jsmn value with modules := none }, addons := s.addons ++ addons }
  let s := addAll s (namedPlatforms names)
  { s with volumes := s.volumes ++ volumes.map fun name => ⟨name, .loopimg, none⟩ }

/-- The platforms of a manifest, by what adding them leaves alone. -/
theorem manifestState_platforms (jsmn : Jsmn) {s : PvState} (hs : s.platforms = [])
    (value : CStr) (addons names volumes : List CStr) {β : Type} (f : Platform → β)
    (hf : ∀ p a, f { p with addr := a } = f p) :
    (manifestState jsmn s value addons names volumes).platforms.map f
      = names.map fun name => f (namedPlatform name) := by
  have hall := map_addAll f hf
    { s with bsp := { bspOf jsmn value with modules := none }, addons := s.addons ++ addons }
    (namedPlatforms names)
  refine hall.trans ?_
  change s.platforms.map f ++ _ = _
  rw [hs, namedPlatforms, List.map_map]
  rfl

theorem manifestState_names (jsmn : Jsmn) {s : PvState} (hs : s.platforms = [])
    (value : CStr) (addons names volumes : List CStr) :
    (manifestState jsmn s value addons names volumes).platforms.map (·.name) = names :=
  (manifestState_platforms jsmn hs value addons names volumes (·.name) fun _ _ => rfl).trans
    (List.map_id names)

theorem parsePantavisor_eq (jsmn : Jsmn) (s : PvState) (value : CStr) :
    parsePantavisor jsmn s value =
      if (bspOf jsmn value).kernel = none then some none
      else do
        let keys ← jsmn.objectKeys value (tokensOf jsmn value) 0
        let addons ← keyStrs value (tokensOf jsmn value) keys (str "addons")
        let names ← keyStrs value (tokensOf jsmn value) keys (str "platforms")
        let volumes ← keyStrs value (tokensOf jsmn value) keys (str "volumes")
        return some (manifestState jsmn s value addons names volumes) := by
  have hcond : (((bspOf jsmn value).kernel.isNone || (bspOf jsmn value).initrd.isNone) &&
      (bspOf jsmn value).kernel.isNone) = true ↔ (bspOf jsmn value).kernel = none := by
    cases (bspOf jsmn value).kernel <;> simp
  by_cases hkernel : (bspOf jsmn value).kernel = none
  · rw [if_pos hkernel]
    exact if_pos (hcond.mpr hkernel)
  · rw [if_neg hkernel]
    refine (if_neg (hcond.not.mpr hkernel)).trans ?_
    simp only [foldl_pvPlatformAdd, foldl_pvVolumeAdd]
    rfl

theorem parsePantavisor_some {jsmn : Jsmn} {s t : PvState} {value : CStr} :
    parsePantavisor jsmn s value = some (some t) ↔
      ∃ addons names volumes, Lists jsmn value addons names volumes ∧
        t = manifestState jsmn s value addons names volumes := by
  rw [parsePantavisor_eq]
  constructor
  · intro h
    split at h
    · cases h
    · rename_i hkernel
      simp only [Option.bind_eq_bind, Option.bind_eq_some_iff, Option.pure_def,
        Option.some.injEq] at h
      obtain ⟨keys, hkeys, addons, haddons, names, hnames, volumes, hvolumes, rfl⟩ := h
      exact ⟨addons, names, volumes, ⟨hkernel, keys, hkeys, haddons, hnames, hvolumes⟩, rfl⟩
  · rintro ⟨addons, names, volumes, ⟨hkernel, keys, hkeys, haddons, hnames, hvolumes⟩, rfl⟩
    rw [if_neg hkernel, hkeys]
    simp [haddons, hnames, hvolumes]

/-! ## Platforms -/

/-- What filling in platforms leaves alone. -/
structure Filled (s s' : PvState) : Prop where
  bsp : s'.bsp = s.bsp
  names : s'.platforms.map (·.name) = s.platforms.map (·.name)
  runlevels : s'.platforms.map (·.runlevel) = s.platforms.map (·.runlevel)

theorem Filled.refl (s : PvState) : Filled s s := ⟨rfl, rfl, rfl⟩

theorem Filled.trans {s s' s'' : PvState} (h : Filled s s') (h' : Filled s' s'') : Filled s s'' :=
  ⟨h'.bsp.trans h.bsp, h'.names.trans h.names, h'.runlevels.trans h.runlevels⟩

/-- A write that keeps names and runlevels. -/
theorem filled_modifyPlatform {s : PvState} (a : Addr) {f : Platform → Platform}
    (hname : ∀ p, (f p).name = p.name) (hrunlevel : ∀ p, (f p).runlevel = p.runlevel) :
    Filled s (s.modifyPlatform a f) := by
  refine ⟨rfl, ?_, ?_⟩
  · rw [PvState.modifyPlatform, List.map_map]
    refine List.map_congr_left fun p _ => ?_
    dsimp only [Function.comp]
    split
    · exact hname p
    · rfl
  · rw [PvState.modifyPlatform, List.map_map]
    refine List.map_congr_left fun p _ => ?_
    dsimp only [Function.comp]
    split
    · exact hrunlevel p
    · rfl

/-- The platform that a text is about is installed, if the state has it. -/
def Installs (jsmn : Jsmn) (names : List CStr) (buf : CStr) : Prop :=
  ∃ name ∈ names, pvJsonGetValue buf (str "name") (tokensOf jsmn buf) = some name

/-- Whether a platform has been filled in. -/
def SomeInstalled (s : PvState) : Prop := ∃ p ∈ s.platforms, p.status = .installed

theorem someInstalled_modifyPlatform {s : PvState} {this : Platform} {f : Platform → Platform}
    (hmem : this ∈ s.platforms) (hf : ∀ p, (f p).status = .installed) :
    SomeInstalled (s.modifyPlatform this.addr f) :=
  ⟨f this, List.mem_map.mpr ⟨this, hmem, if_pos rfl⟩, hf this⟩

/-- **`parse_platform`** fills in the platform that the text is about, or nothing. -/
theorem parsePlatform_filled {jsmn : Jsmn} {s s' : PvState} {buf : CStr}
    (h : parsePlatform jsmn s buf = some s') :
    Filled s s' ∧
      (SomeInstalled s' ↔ SomeInstalled s ∨ Installs jsmn (s.platforms.map (·.name)) buf) := by
  unfold parsePlatform at h
  dsimp only at h
  split at h
  · rename_i hname
    split at h
    · obtain rfl := Option.some.inj h
      refine ⟨.refl _, ?_⟩
      simp [Installs, hname]
    · cases h
  · rename_i name hname
    split at h
    · rename_i hget
      obtain rfl := Option.some.inj h
      refine ⟨.refl _, ⟨.inl, ?_⟩⟩
      rintro (hsome | ⟨name', hmem, hname'⟩)
      · exact hsome
      · obtain rfl : name = name' := Option.some.inj (hname.symm.trans hname')
        obtain ⟨p, hp, hpname⟩ := List.mem_map.mp hmem
        have hnot := List.find?_eq_none.mp hget p hp
        exact absurd (decide_eq_true hpname) hnot
    · rename_i this hget
      simp only [Option.bind_eq_bind, Option.bind_eq_some_iff, Option.pure_def,
        Option.some.injEq] at h
      obtain ⟨_, -, _, -, configs, -, _, -, rfl⟩ := h
      have hthis := List.find?_some hget
      refine ⟨filled_modifyPlatform _ (fun _ => rfl) (fun _ => rfl), ?_⟩
      refine ⟨fun _ => .inr ⟨name, ?_, hname⟩, fun _ => ?_⟩
      · exact List.mem_map.mpr ⟨this, List.mem_of_find?_eq_some hget, of_decide_eq_true hthis⟩
      · exact someInstalled_modifyPlatform (List.mem_of_find?_eq_some hget) fun _ => rfl

/-- A member that fills in one of the platforms. -/
def FillsOne (jsmn : Jsmn) (names : List CStr) (m : CStr × CStr) : Prop :=
  isSpecial m.1 = false ∧ isPlatformKey m.1 = true ∧ Installs jsmn names m.2

theorem parseKey_filled {jsmn : Jsmn} {mntpoint : CStr} {s s' : PvState} {m : CStr × CStr}
    (h : parseKey jsmn mntpoint s m = some s') :
    Filled s s' ∧
      (SomeInstalled s' ↔ SomeInstalled s ∨ FillsOne jsmn (s.platforms.map (·.name)) m) := by
  unfold parseKey at h
  split at h
  · rename_i hspecial
    obtain rfl := Option.some.inj h
    refine ⟨.refl _, ?_⟩
    simp [FillsOne, hspecial]
  · rename_i hspecial
    split at h
    · rename_i hkey
      obtain ⟨hfilled, hinstalled⟩ := parsePlatform_filled h
      refine ⟨hfilled, hinstalled.trans ?_⟩
      simp [FillsOne, hspecial, hkey]
    · rename_i hkey
      obtain rfl := Option.some.inj h
      refine ⟨⟨rfl, rfl, rfl⟩, ?_⟩
      simp [FillsOne, hkey, SomeInstalled, pvObjectsAdd]

/-- The loop over the keys fills in the platforms that its members are about. -/
theorem foldlM_parseKey_filled {jsmn : Jsmn} {mntpoint : CStr} {ms : List (CStr × CStr)}
    {s s' : PvState} (h : ms.foldlM (parseKey jsmn mntpoint) s = some s') :
    Filled s s' ∧ (SomeInstalled s' ↔
      SomeInstalled s ∨ ∃ m ∈ ms, FillsOne jsmn (s.platforms.map (·.name)) m) := by
  induction ms generalizing s with
  | nil =>
    obtain rfl := Option.some.inj h
    exact ⟨.refl _, by simp⟩
  | cons m ms ih =>
    rw [List.foldlM_cons, Option.bind_eq_bind, Option.bind_eq_some_iff] at h
    obtain ⟨s₁, hkey, hrest⟩ := h
    obtain ⟨hfilled, hinstalled⟩ := parseKey_filled hkey
    obtain ⟨hfilled', hinstalled'⟩ := ih hrest
    refine ⟨hfilled.trans hfilled', hinstalled'.trans ?_⟩
    rw [hfilled.names, hinstalled, or_assoc, List.exists_mem_cons_iff]

/-! ## The whole text -/

/-- **What an accepted text is parsed to**: the state as it came, if there is not one
manifest, and otherwise what the members have filled in. -/
theorem multi1Parse_spec {jsmn : Jsmn} {mntpoint buf : CStr} {s t : PvState}
    (h : multi1Parse jsmn mntpoint s buf = some (some t)) :
    (pvJsonGetKeyCount buf (str "pantavisor.json") (tokensOf jsmn buf) = 1 →
        pvJsonGetValue buf (str "pantavisor.json") (tokensOf jsmn buf) = none) ∧ t = s ∨
    ∃ value addons names volumes ms s',
      pvJsonGetKeyCount buf (str "pantavisor.json") (tokensOf jsmn buf) = 1 ∧
      pvJsonGetValue buf (str "pantavisor.json") (tokensOf jsmn buf) = some value ∧
      Lists jsmn value addons names volumes ∧
      keysAndValues jsmn buf (tokensOf jsmn buf) = some ms ∧
      ms.foldlM (parseKey jsmn mntpoint) (manifestState jsmn s value addons names volumes)
        = some s' ∧
      t = pvPlatformsRemoveNotInstalled { s' with json := some buf } := by
  unfold multi1Parse at h
  dsimp only at h
  split at h
  · rename_i hcount
    exact .inl ⟨fun hone => absurd hone hcount, (Option.some.inj (Option.some.inj h)).symm⟩
  · rename_i hcount
    split at h
    · rename_i hvalue
      exact .inl ⟨fun _ => hvalue, (Option.some.inj (Option.some.inj h)).symm⟩
    · rename_i value hvalue
      split at h
      · cases h
      · cases h
      · rename_i s₀ hmanifest
        obtain ⟨addons, names, volumes, hlists, rfl⟩ := parsePantavisor_some.mp hmanifest
        simp only [Option.bind_eq_bind, Option.bind_eq_some_iff] at h
        obtain ⟨keys, hkeys, ms, hms, h⟩ := h
        split at h
        · cases h
        · simp only [Option.bind_eq_some_iff, Option.pure_def, Option.some.injEq] at h
          obtain ⟨s', hfold, rfl⟩ := h
          refine .inr ⟨value, addons, names, volumes, ms, s', not_not.mp hcount, hvalue, hlists,
            ?_, hfold, rfl⟩
          rw [keysAndValues, hkeys]
          exact hms

end Multi1

end Pantavisor.Parser
