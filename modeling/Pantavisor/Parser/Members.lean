/-
Pantavisor.Parser.Members — what `system1_parse` makes of the members of a state.

The loop over the keys adds what the kind of each key says, in the order of the
text, and every platform at the end of the list (`parseKeys_spec`). Linking finds
the owner of an item by the components of its name, or discards the item
(`linkItems_eq`). `system1Parse_spec` puts the two together: of a text that is
accepted, the result is `parsedState`.
-/
import Pantavisor.Parser.Platform
import Pantavisor.Json.Document
import Pantavisor.Lib.FileTreeTheorems

namespace Pantavisor.Parser

open Pantavisor.Lib Pantavisor.Json Pantavisor.State

/-! ## The loop over the keys -/

/-- A platform and its volumes, as its `run.json` has them. -/
abbrev Parsed := Platform × List PvVolume

/-- The platforms, added one after another. -/
def addAll (s : PvState) (pvs : List Parsed) : PvState :=
  pvs.foldl (fun s pv => addParsed s pv.1 pv.2) s

/-- The members of a kind. -/
def ofKind (kinds : List KeyKind) (ms : List (CStr × CStr)) : List (CStr × CStr) :=
  ms.filter fun m => keyKind m.1 ∈ kinds

def toJson (m : CStr × CStr) : PvJson := ⟨m.1, m.2, none⟩

def toObject (mntpoint rev : CStr) (m : CStr × CStr) : PvObject where
  name := m.1
  id := m.2
  objpath := mntpoint ++ str "/objects/" ++ m.2
  relpath := mntpoint ++ str "/trails/" ++ rev ++ str "/" ++ m.1
  plat := none

/-- A state with the members of a text added. -/
def addMembers (mntpoint : CStr) (s : PvState) (ms : List (CStr × CStr)) (pvs : List Parsed) :
    PvState :=
  { addAll s pvs with
    jsons := ((ofKind [.json, .platform] ms).map toJson).reverse ++ s.jsons
    objects := ((ofKind [.object] ms).map (toObject mntpoint s.rev)).reverse ++ s.objects }

/-- The platforms of the members. -/
def PlatformTexts (jsmn : Jsmn) (ms : List (CStr × CStr)) (pvs : List Parsed) : Prop :=
  List.Forall₂ (fun m pv => PlatformText jsmn m.2 pv.1 pv.2) (ofKind [.platform] ms) pvs

theorem slots_addAll {s : PvState} (hs : Slots s) (pvs : List Parsed) : Slots (addAll s pvs) := by
  induction pvs generalizing s with
  | nil => exact hs
  | cons pv pvs ih => exact ih (hs.addParsed pv.1 pv.2)

/-- Adding platforms leaves the lists of items alone. -/
theorem addAll_items (s : PvState) (pvs : List Parsed) (jsons : List PvJson)
    (objects : List PvObject) :
    addAll { s with jsons := jsons, objects := objects } pvs
      = { addAll s pvs with jsons := jsons, objects := objects } := by
  induction pvs generalizing s with
  | nil => rfl
  | cons pv pvs ih => exact ih (addParsed s pv.1 pv.2)

theorem map_addAll {β : Type} (f : Platform → β) (hf : ∀ p a, f { p with addr := a } = f p)
    (s : PvState) (pvs : List Parsed) :
    (addAll s pvs).platforms.map f = s.platforms.map f ++ pvs.map fun pv => f pv.1 := by
  induction pvs generalizing s with
  | nil => simp [addAll]
  | cons pv pvs ih =>
    rw [addAll, List.foldl_cons, ← addAll, ih, addParsed]
    simp [hf]

theorem rev_addAll (s : PvState) (pvs : List Parsed) : (addAll s pvs).rev = s.rev := by
  induction pvs generalizing s with
  | nil => rfl
  | cons pv pvs ih => exact ih (addParsed s pv.1 pv.2)

/-- One key, by its kind. -/
theorem parseKey_spec {jsmn : Jsmn} {mntpoint : CStr} {s t : PvState} {m : CStr × CStr}
    (hs : Slots s) (h : parseKey jsmn mntpoint s m = some (some t)) :
    ∃ pvs, PlatformTexts jsmn [m] pvs ∧ t = addMembers mntpoint s [m] pvs := by
  unfold parseKey at h
  cases hkind : keyKind m.1 with
  | special | ignored =>
    rw [hkind] at h
    refine ⟨[], by simp [PlatformTexts, ofKind, hkind], ?_⟩
    simp [addMembers, ofKind, hkind, addAll, ← Option.some.inj (Option.some.inj h)]
  | json | object =>
    rw [hkind] at h
    refine ⟨[], by simp [PlatformTexts, ofKind, hkind], ?_⟩
    rw [← Option.some.inj (Option.some.inj h)]
    simp [addMembers, ofKind, hkind, addAll, pvJsonsAdd, pvObjectsAdd, toJson, toObject]
  | platform =>
    rw [hkind] at h
    dsimp only at h
    split at h
    · cases h
    · rename_i ret s' hparse
      split at h
      · cases h
      · rename_i hret
        obtain rfl : ret = 0 := not_not.mp hret
        obtain ⟨p, vs, htext, rfl⟩ := (parsePlatform_spec hs).mp hparse
        refine ⟨[(p, vs)], by simpa [PlatformTexts, ofKind, hkind] using htext, ?_⟩
        rw [← Option.some.inj (Option.some.inj h)]
        simp [addMembers, ofKind, hkind, addAll, pvJsonsAdd, addParsed, toJson]

theorem ofKind_cons (kinds : List KeyKind) (m : CStr × CStr) (ms : List (CStr × CStr)) :
    ofKind kinds (m :: ms) = ofKind kinds [m] ++ ofKind kinds ms := by
  rw [ofKind, ofKind, ofKind, ← List.filter_append, List.singleton_append]

theorem addAll_append (s : PvState) (pvs pvs' : List Parsed) :
    addAll s (pvs ++ pvs') = addAll (addAll s pvs) pvs' := List.foldl_append

theorem addMembers_cons (mntpoint : CStr) (s : PvState) (m : CStr × CStr)
    (ms : List (CStr × CStr)) (pvs pvs' : List Parsed) :
    addMembers mntpoint (addMembers mntpoint s [m] pvs) ms pvs'
      = addMembers mntpoint s (m :: ms) (pvs ++ pvs') := by
  have hrev : (addMembers mntpoint s [m] pvs).rev = s.rev := rev_addAll s pvs
  rw [addMembers, hrev]
  simp only [addMembers, addAll_items, addAll_append, ofKind_cons _ m ms, List.map_append,
    List.reverse_append, List.append_assoc]

/-- **What the loop over the keys adds.** -/
theorem parseKeys_spec {jsmn : Jsmn} {mntpoint : CStr} {ms : List (CStr × CStr)} {s t : PvState}
    (hs : Slots s) (h : parseKeys jsmn mntpoint ms s = some (some t)) :
    ∃ pvs, PlatformTexts jsmn ms pvs ∧ t = addMembers mntpoint s ms pvs := by
  induction ms generalizing s with
  | nil =>
    refine ⟨[], .nil, ?_⟩
    rw [← Option.some.inj (Option.some.inj h)]
    rfl
  | cons m ms ih =>
    rw [parseKeys] at h
    split at h
    · cases h
    · cases h
    · rename_i s' hkey
      obtain ⟨pvs, htexts, rfl⟩ := parseKey_spec hs hkey
      have hs' : Slots (addMembers mntpoint s [m] pvs) := slots_addAll hs pvs
      obtain ⟨pvs', htexts', rfl⟩ := ih hs' h
      refine ⟨pvs ++ pvs', ?_, addMembers_cons mntpoint s m ms pvs pvs'⟩
      rw [PlatformTexts, ofKind_cons]
      exact List.rel_append htexts htexts'

/-! ## Owners -/

/-- The platform that a name belongs to: its first component, and the second one for
`_config`. -/
def ownerName (name : CStr) : Option CStr :=
  match clean (components name) with
  | [] => none
  | first :: rest => if first = str "_config" then rest.head? else some first

def isConfig (name : CStr) : Bool := (clean (components name)).head? = some (str "_config")

/-- The owner of a name among the platforms of a state. -/
def ownerAddr (s : PvState) (name : CStr) : Option Addr :=
  (ownerName name).bind fun dir => (s.platformGetByName dir).map fun p => p.addr

/-- A `_config` item of no platform. -/
def discarded (s : PvState) (name : CStr) : Bool := isConfig name && (ownerAddr s name).isNone

/-- `strtok` goes through the components. -/
theorem components_strtok (s : CStr) :
    clean (components s) =
      ((strtok s).map fun r => r.1 :: clean (components r.2)).getD [] := by
  induction s with
  | nil => rfl
  | cons c s ih =>
    by_cases hc : c = 47
    · have hskip : strtok (c :: s) = strtok s := by
        rw [strtok, strtok, List.dropWhile_cons_of_pos (by simpa using hc)]
      rw [hskip, ← ih, components, if_pos (show c = slash from hc),
        clean_cons_empty]
    · have htok : strtok (c :: s) = some ((c :: s).takeWhile (· ≠ 47),
          ((c :: s).dropWhile (· ≠ 47)).drop 1) := by
        rw [strtok, List.dropWhile_cons_of_neg (by simpa using hc)]
      rw [htok, Option.map_some, Option.getD_some]
      have hsplit := List.takeWhile_append_dropWhile (p := fun x => decide (x ≠ 47)) (l := c :: s)
      have hslash : slash ∉ (c :: s).takeWhile (· ≠ 47) := by
        intro hmem
        have hne := List.mem_takeWhile_imp hmem
        simp [slash] at hne
      have hne : (c :: s).takeWhile (· ≠ 47) ≠ [] := by
        rw [List.takeWhile_cons_of_pos (by simpa using hc)]
        simp
      have hone : ∀ ns, clean ((c :: s).takeWhile (· ≠ 47) :: ns)
          = (c :: s).takeWhile (· ≠ 47) :: clean ns := by
        intro ns
        rw [clean, List.filter_cons_of_pos (by simpa using hne), clean]
      cases hrest : (c :: s).dropWhile (· ≠ 47) with
      | nil =>
        rw [hrest, List.append_nil] at hsplit
        conv_lhs => rw [← hsplit, components_of_no_slash hslash]
        rw [hone]
        rfl
      | cons x rest =>
        have hx : x = slash := by
          have hhead := List.head_dropWhile_not (p := fun x => decide (x ≠ 47)) (l := c :: s)
            (by rw [hrest]; simp)
          simp only [hrest, List.head_cons] at hhead
          simpa [slash] using hhead
        rw [hrest, hx] at hsplit
        conv_lhs => rw [← hsplit, components_append, components_of_no_slash hslash]
        rw [List.singleton_append, hone, List.drop_one, List.tail_cons]

/-- What linking does with an item. -/
theorem linkOf_eq {s : PvState} {name : CStr} {link : Link} (h : linkOf s name = some link) :
    link = if discarded s name then .discard else .plat (ownerAddr s name) := by
  have hcomp := components_strtok name
  unfold linkOf at h
  cases htok : strtok name with
  | none =>
    rw [htok] at h
    cases h
  | some r =>
    obtain ⟨dir, rest⟩ := r
    rw [htok, Option.map_some, Option.getD_some] at hcomp
    rw [htok] at h
    dsimp only at h
    split at h
    · rename_i hconfig
      have hrest := components_strtok rest
      have hisConfig : isConfig name = true := by simp [isConfig, hcomp, hconfig]
      cases htok' : strtok rest with
      | none =>
        rw [htok', Option.map_none, Option.getD_none] at hrest
        rw [htok'] at h
        have hnone : ownerAddr s name = none := by simp [ownerAddr, ownerName, hcomp, hconfig, hrest]
        dsimp only at h
        split at h
        · rw [← Option.some.inj h]
          simp [discarded, hisConfig, hnone]
        · cases h
      | some r' =>
        obtain ⟨dir', rest'⟩ := r'
        rw [htok', Option.map_some, Option.getD_some] at hrest
        rw [htok'] at h
        have howner : ownerAddr s name = (s.platformGetByName dir').map fun p => p.addr := by
          simp [ownerAddr, ownerName, hcomp, hconfig, hrest]
        dsimp only at h
        cases hplat : s.platformGetByName dir' with
        | none =>
          rw [hplat] at h howner
          rw [← Option.some.inj h]
          simp [discarded, hisConfig, howner]
        | some p =>
          rw [hplat] at h howner
          rw [← Option.some.inj h]
          simp [discarded, howner]
    · rename_i hconfig
      have hnot : isConfig name = false := by simp [isConfig, hcomp, hconfig]
      rw [← Option.some.inj h]
      simp [discarded, hnot, ownerAddr, ownerName, hcomp, hconfig]

/-- Linking a list: what is not discarded gets its owner. -/
theorem linkItems_eq {α : Type} {s : PvState} {name : α → CStr} {set : α → Option Addr → α}
    {items items' : List α} (h : linkItems s name set items = some items') :
    items' = (items.filter fun o => !discarded s (name o)).map fun o =>
      set o (ownerAddr s (name o)) := by
  induction items generalizing items' with
  | nil =>
    rw [← Option.some.inj h]
    rfl
  | cons o rest ih =>
    rw [linkItems] at h
    cases hlink : linkOf s (name o) with
    | none =>
      rw [hlink] at h
      cases h
    | some link =>
      rw [hlink] at h
      cases hrest : linkItems s name set rest with
      | none =>
        rw [hrest] at h
        cases h
      | some rest' =>
        rw [hrest] at h
        have hone := linkOf_eq hlink
        dsimp only at h
        rw [List.filter_cons]
        cases hdisc : discarded s (name o) with
        | true =>
          rw [hdisc, if_pos rfl] at hone
          rw [hone] at h
          simpa [← ih hrest] using (Option.some.inj h).symm
        | false =>
          rw [hdisc, if_neg (by simp)] at hone
          rw [hone] at h
          simpa [← ih hrest] using (Option.some.inj h).symm

/-- A state with its items linked. -/
def linkedState (s : PvState) : PvState :=
  { s with
    objects := (s.objects.filter fun o => !discarded s o.name).map fun o =>
      { o with plat := ownerAddr s o.name }
    jsons := (s.jsons.filter fun j => !discarded s j.name).map fun j =>
      { j with plat := ownerAddr s j.name } }

theorem system1Link_eq {s t : PvState} (h : system1LinkObjectJsonPlatforms s = some t) :
    t = linkedState s := by
  simp only [system1LinkObjectJsonPlatforms, Option.bind_eq_bind, Option.bind_eq_some_iff] at h
  obtain ⟨objects, hobjects, jsons, hjsons, ht⟩ := h
  rw [← Option.some.inj ht, linkItems_eq hobjects, linkItems_eq hjsons]
  rfl

/-! ## The whole text -/

/-- A parse accepts a text if it has a state. -/
theorem accepted_getD {o : Option (Option PvState)} (h : (o.bind id).isSome) (s : PvState) :
    o = some (some ((o.bind id).getD s)) := by
  obtain ⟨t, ht⟩ := Option.isSome_iff_exists.mp h
  obtain ⟨_, rfl, rfl⟩ := Option.bind_eq_some_iff.mp ht
  rfl

theorem accepted_of_isSome {o : Option (Option PvState)} (h : (o.bind id).isSome) :
    ∃ t, o = some (some t) :=
  ⟨_, accepted_getD h (pvStateNew 0 [] .system1)⟩

theorem accepted_of_map {o : Option (Option PvState)} {β : Type} {f : PvState → β} {x : β}
    (h : (o.bind id).map f = some x) : ∃ t, o = some (some t) ∧ f t = x := by
  obtain ⟨t, ht, hx⟩ := Option.map_eq_some_iff.mp h
  obtain ⟨_, rfl, rfl⟩ := Option.bind_eq_some_iff.mp ht
  exact ⟨t, rfl, hx⟩

/-- The images that a manifest names, as `parse_bsp` looks them up. -/
def bspOf (jsmn : Jsmn) (buf : CStr) : PvBsp :=
  let value (key : CStr) := pvJsonGetValue buf key (tokensOf jsmn buf)
  let fit := value (str "fit")
  let std (key : CStr) := if fit.isSome then none else value key
  { kernel := if fit.isSome then fit else std (str "linux")
    fdt := std (str "fdt")
    initrd := std (str "initrd")
    firmware := value (str "firmware")
    modules := value (str "modules") }

/-- `parse_bsp` asks for a kernel and for an object, and adds to the manifest, the
volumes and the addons. -/
theorem parseBsp_eq (jsmn : Jsmn) (s : PvState) (buf : CStr) :
    parseBsp jsmn s buf =
      if (bspOf jsmn buf).kernel = none then none
      else (jsmn.objectKeys buf (tokensOf jsmn buf) 0).map fun keys =>
        { s with
          bsp := bspOf jsmn buf
          volumes := s.volumes ++ bspVolume (bspOf jsmn buf).firmware ++
            bspVolume (bspOf jsmn buf).modules
          addons := s.addons ++ bspAddons buf (tokensOf jsmn buf) keys } := by
  have hcond : (((bspOf jsmn buf).kernel.isNone || (bspOf jsmn buf).initrd.isNone) &&
      (bspOf jsmn buf).kernel.isNone) = true ↔ (bspOf jsmn buf).kernel = none := by
    cases (bspOf jsmn buf).kernel <;> simp
  by_cases hkernel : (bspOf jsmn buf).kernel = none
  · rw [if_pos hkernel]
    exact if_pos (hcond.mpr hkernel)
  · rw [if_neg hkernel]
    refine (if_neg (hcond.not.mpr hkernel)).trans ?_
    cases jsmn.objectKeys buf (tokensOf jsmn buf) 0 <;> rfl

/-- What a manifest that is not rejected does to the state. -/
theorem parseBsp_some {jsmn : Jsmn} {s t : PvState} {buf : CStr}
    (h : parseBsp jsmn s buf = some t) :
    (bspOf jsmn buf).kernel ≠ none ∧
      ∃ keys, jsmn.objectKeys buf (tokensOf jsmn buf) 0 = some keys ∧
        t = { s with
          bsp := bspOf jsmn buf
          volumes := s.volumes ++ bspVolume (bspOf jsmn buf).firmware ++
            bspVolume (bspOf jsmn buf).modules
          addons := s.addons ++ bspAddons buf (tokensOf jsmn buf) keys } := by
  rw [parseBsp_eq] at h
  split at h
  · cases h
  · rename_i hkernel
    obtain ⟨keys, hkeys, rfl⟩ := Option.map_eq_some_iff.mp h
    exact ⟨hkernel, keys, hkeys, rfl⟩

theorem parseBsp_frame {jsmn : Jsmn} {s t : PvState} {buf : CStr}
    (h : parseBsp jsmn s buf = some t) :
    t = { s with bsp := t.bsp, volumes := t.volumes, addons := t.addons } := by
  obtain ⟨-, keys, -, rfl⟩ := parseBsp_some h
  rfl

theorem plat_bspVolume {name : Option CStr} {v : PvVolume} (h : v ∈ bspVolume name) :
    v.plat = none := by
  cases name with
  | none => cases h
  | some name => rw [List.mem_singleton.mp h]

/-- What `system1_parse` works on before the loop over the keys. -/
structure Manifest (jsmn : Jsmn) (s : PvState) (buf : CStr) (toks : List Tok) (run : CStr)
    (sb : PvState) : Prop where
  count : pvJsonGetKeyCount buf (str "bsp/run.json") toks = 1
  value : pvJsonGetValue buf (str "bsp/run.json") toks = some run
  bsp : parseBsp jsmn (pvJsonsAdd s (str "bsp/run.json") run) run = some sb

/-- The volumes of a manifest belong to no platform. -/
theorem unowned_manifest {jsmn : Jsmn} {s sb : PvState} {buf run : CStr} {toks : List Tok}
    (h : Manifest jsmn s buf toks run sb) (hs : s.volumes = []) :
    ∀ v ∈ sb.volumes, v.plat = none := by
  obtain ⟨-, keys, -, rfl⟩ := parseBsp_some h.bsp
  intro v hv
  dsimp only [pvJsonsAdd] at hv
  rw [hs, List.nil_append] at hv
  exact (List.mem_append.mp hv).elim plat_bspVolume plat_bspVolume

/-- The state that comes of the members behind the manifest. -/
def parsedState (mntpoint buf : CStr) (sb : PvState) (ms : List (CStr × CStr))
    (pvs : List Parsed) : PvState :=
  pvStateValidate (linkedState { addMembers mntpoint sb ms pvs with json := some buf })

theorem slots_of_frame {s t : PvState} (hs : Slots s)
    (h : t = { s with bsp := t.bsp, volumes := t.volumes, addons := t.addons }) : Slots t := by
  rw [h]
  exact hs

/-- **What an accepted text is parsed to**, by what the tokenizer says of it. -/
theorem system1Parse_members {jsmn : Jsmn} {mntpoint buf : CStr} {s t : PvState} (hs : Slots s)
    (h : system1Parse jsmn mntpoint s buf = some (some t)) :
    ∃ ms run sb pvs, keysAndValues jsmn buf (tokensOf jsmn buf) = some ms ∧
      Manifest jsmn s buf (tokensOf jsmn buf) run sb ∧ PlatformTexts jsmn ms pvs ∧
      t = parsedState mntpoint buf sb ms pvs := by
  unfold system1Parse at h
  dsimp only at h
  split at h
  · cases h
  · rename_i hcount
    split at h
    · cases h
    · rename_i run hvalue
      unfold system1ParseBody at h
      split at h
      · cases h
      · rename_i sb hbsp
        split at h
        · cases h
        · rename_i keys hobject
          split at h
          · cases h
          · rename_i ms hms
            have hmembers : keysAndValues jsmn buf (tokensOf jsmn buf) = some ms := by
              rw [keysAndValues, hobject]
              exact hms
            split at h
            · cases h
            · cases h
            · rename_i s' hkeys
              have hjson : Slots (pvJsonsAdd s (str "bsp/run.json") run) := hs
              have hsb : Slots sb := slots_of_frame hjson (parseBsp_frame hbsp)
              obtain ⟨pvs, htexts, rfl⟩ := parseKeys_spec hsb hkeys
              split at h
              · cases h
              · rename_i linked hlink
                refine ⟨ms, run, sb, pvs, hmembers, ⟨not_not.mp hcount, hvalue, hbsp⟩, htexts, ?_⟩
                rw [← Option.some.inj (Option.some.inj h), system1Link_eq hlink]
                rfl

/-- The tokens and the members of a document. -/
theorem Reads.tokensOf {jsmn : Jsmn} {d : ObjectDoc} {toks : List Tok} (h : jsmn.Reads d toks) :
    tokensOf jsmn d.text = toks := by
  rw [Parser.tokensOf, h.parse, Option.getD_some]

theorem Reads.keysAndValues {jsmn : Jsmn} {d : ObjectDoc} {toks : List Tok}
    (h : jsmn.Reads d toks) : keysAndValues jsmn d.text toks = some d.pairs := by
  rw [Json.keysAndValues, h.keys]
  exact h.pairs

/-- What an accepted document is parsed to. -/
theorem system1Parse_spec {jsmn : Jsmn} {mntpoint : CStr} {d : ObjectDoc} {toks : List Tok}
    (hreads : jsmn.Reads d toks) {s t : PvState} (hs : Slots s)
    (h : system1Parse jsmn mntpoint s d.text = some (some t)) :
    ∃ run sb pvs, Manifest jsmn s d.text toks run sb ∧ PlatformTexts jsmn d.pairs pvs ∧
      t = parsedState mntpoint d.text sb d.pairs pvs := by
  obtain ⟨ms, run, sb, pvs, hms, hmanifest, htexts, ht⟩ := system1Parse_members hs h
  rw [Reads.tokensOf hreads] at hms hmanifest
  obtain rfl : d.pairs = ms := Option.some.inj ((Reads.keysAndValues hreads).symm.trans hms)
  exact ⟨run, sb, pvs, hmanifest, htexts, ht⟩

end Pantavisor.Parser
