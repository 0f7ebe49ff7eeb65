/-
Pantavisor.Parser.Partition — where the members of a state end up.

`Partitioned` says of a parsed state that its two lists are the members of the text,
each once, with its value and its owner, but for the ones that are left out. An
accepted text is partitioned exactly if it has the manifest as a member and no key
that is the beginning of `bsp/run.json` or `#spec`, which the loop over the keys takes
for these (`partitioned_iff`).
-/
import Pantavisor.Parser.Members
import Mathlib.Data.List.Infix

namespace Pantavisor.Parser

open Pantavisor.Lib Pantavisor.Json Pantavisor.State

/-! ## The lists that are asked for -/

/-- The keys that name no file of the state. -/
def ignoredName (key : CStr) : Bool :=
  key = str "#spec" || (str "/src.json").isSuffixOf key || (str "/build.json").isSuffixOf key

def isJsonName (key : CStr) : Bool := (str ".json").isSuffixOf key

/-- The members that a state has to have. -/
def listed (t : PvState) (ms : List (CStr × CStr)) : List (CStr × CStr) :=
  ms.filter fun m => !ignoredName m.1 && !discarded t m.1

/-- Every member is in one of the two lists, once, with its value and its owner, and
nothing else is. -/
structure Partitioned (t : PvState) (ms : List (CStr × CStr)) : Prop where
  jsons : t.jsons.Perm
    (((listed t ms).filter fun m => isJsonName m.1).map fun m => ⟨m.1, m.2, ownerAddr t m.1⟩)
  objects : (t.objects.map PvObject.item).Perm
    (((listed t ms).filter fun m => !isJsonName m.1).map fun m => ⟨m.1, m.2, ownerAddr t m.1⟩)

/-! ## Kinds of keys -/

theorem keyKind_special {key : CStr} :
    keyKind key = .special ↔ key <+: str "bsp/run.json" ∨ key <+: str "#spec" := by
  simp only [keyKind, Bool.or_eq_true, List.isPrefixOf_iff_prefix]
  split
  · rename_i h
    exact ⟨fun _ => h, fun _ => rfl⟩
  · rename_i h
    refine ⟨fun hk => ?_, fun h' => absurd h' h⟩
    split at hk
    · cases hk
    · split at hk
      · cases hk
      · split at hk <;> cases hk

theorem strrchr_slash_iff (key : CStr) {file : CStr} (h : (47 : UInt8) ∉ file) :
    strrchr 47 key = some (47 :: file) ↔ (47 :: file).isSuffixOf key = true := by
  rw [strrchr_eq_iff h, List.isSuffixOf_iff_suffix]

/-- The kind of a key that is none of the special ones. -/
theorem keyKind_of_not_special {key : CStr} (h : keyKind key ≠ .special) (hspec : key ≠ str "#spec") :
    (keyKind key ∈ [KeyKind.json, .platform] ↔ (isJsonName key && !ignoredName key) = true) ∧
      (keyKind key ∈ [KeyKind.object] ↔ (!isJsonName key && !ignoredName key) = true) := by
  have hrun : strrchr 47 key = some (str "/run.json") ↔ (str "/run.json").isSuffixOf key = true :=
    strrchr_slash_iff key (by decide)
  have hsrc : strrchr 47 key = some (str "/src.json") ↔ (str "/src.json").isSuffixOf key = true :=
    strrchr_slash_iff key (by decide)
  have hbuild : strrchr 47 key = some (str "/build.json") ↔
      (str "/build.json").isSuffixOf key = true := strrchr_slash_iff key (by decide)
  have hjson : strrchr 46 key = some (str ".json") ↔ isJsonName key = true := by
    rw [isJsonName, List.isSuffixOf_iff_suffix]
    exact strrchr_eq_iff (by decide)
  have hrunJson : strrchr 47 key = some (str "/run.json") → isJsonName key = true := by
    intro hext
    rw [hrun, List.isSuffixOf_iff_suffix] at hext
    rw [isJsonName, List.isSuffixOf_iff_suffix]
    exact List.IsSuffix.trans (by decide) hext
  have hignored : ignoredName key = true ↔
      strrchr 47 key = some (str "/src.json") ∨ strrchr 47 key = some (str "/build.json") := by
    simp only [ignoredName, hsrc, hbuild, hspec, decide_false, Bool.false_or, Bool.or_eq_true]
  have hskip : (key.isPrefixOf (str "bsp/run.json") || key.isPrefixOf (str "#spec")) = false := by
    by_contra hpre
    rw [Bool.not_eq_false, Bool.or_eq_true, List.isPrefixOf_iff_prefix, List.isPrefixOf_iff_prefix]
      at hpre
    exact h (keyKind_special.mpr hpre)
  simp only [keyKind, hskip, Bool.false_eq_true, if_false]
  split
  · rename_i hext
    have hno : ignoredName key = false := by
      rw [← Bool.not_eq_true, hignored, hext]
      decide
    simp [hrunJson hext, hno]
  · split
    · rename_i hext
      have hign : ignoredName key = true := hignored.mpr (by simpa using hext)
      simp [hign]
    · rename_i hext
      have hno : ignoredName key = false := by
        rw [← Bool.not_eq_true, hignored]
        simpa using hext
      split
      · rename_i hj
        simp [hjson.mp hj, hno]
      · rename_i hj
        have hnj : isJsonName key = false := by
          rw [← Bool.not_eq_true, ← hjson]
          exact hj
        simp [hnj, hno]

/-! ## What is left of a parsed state -/

/-- What an owner is found by. -/
def nameAddr (p : Platform) : CStr × Addr := (p.name, p.addr)

theorem ownerAddr_congr {s t : PvState}
    (h : s.platforms.map nameAddr = t.platforms.map nameAddr) : ownerAddr s = ownerAddr t := by
  have hfind : ∀ (s : PvState) (dir : CStr), ((s.platformGetByName dir).map fun p => p.addr)
      = ((s.platforms.map nameAddr).find? fun q => q.1 = dir).map (·.2) := by
    intro s dir
    rw [List.find?_map, Option.map_map]
    rfl
  funext name
  simp only [ownerAddr, hfind, h]

theorem map_rootFirst (ps : List Platform) : (rootFirst ps).map nameAddr = ps.map nameAddr := by
  induction ps with
  | nil => rfl
  | cons p ps ih =>
    rw [rootFirst]
    split
    · rfl
    · rw [List.map_cons, ih, List.map_cons]

/-- Validating a state whose platforms are installed keeps them in their places. -/
theorem map_pvStateValidate {s : PvState} (h : ∀ p ∈ s.platforms, p.status = .installed) :
    (pvStateValidate s).platforms.map nameAddr = s.platforms.map nameAddr := by
  have hall : (s.platforms.filter fun p => p.status = .installed) = s.platforms :=
    List.filter_eq_self.mpr fun p hp => by simpa using h p hp
  have hlevel : ∀ ps : List Platform, (ps.map fun p =>
      if p.runlevel < runlevelData then { p with runlevel := runlevelPlatform } else p).map nameAddr
      = ps.map nameAddr := by
    intro ps
    rw [List.map_map]
    refine List.map_congr_left fun p _ => ?_
    simp only [Function.comp_apply]
    split <;> rfl
  simp only [pvStateValidate, pvPlatformsDefaultRunlevel, pvPlatformsRemoveNotInstalled, hall, hlevel]
  split
  · rfl
  · exact map_rootFirst _

theorem installed_addAll {jsmn : Jsmn} {ms : List (CStr × CStr)} {pvs : List Parsed} {s : PvState}
    (htexts : PlatformTexts jsmn ms pvs) (hs : ∀ p ∈ s.platforms, p.status = .installed) :
    ∀ p ∈ (addAll s pvs).platforms, p.status = .installed := by
  have hpvs : ∀ pv ∈ pvs, pv.1.status = .installed := by
    rw [PlatformTexts] at htexts
    generalize ofKind [.platform] ms = ms' at htexts
    clear hs
    induction htexts with
    | nil => simp
    | cons htext _ ih => exact List.forall_mem_cons.mpr ⟨htext.installed, ih⟩
  clear htexts
  induction pvs generalizing s with
  | nil => exact hs
  | cons pv pvs ih =>
    rw [List.forall_mem_cons] at hpvs
    refine ih (fun p hp => ?_) hpvs.2
    rcases List.mem_append.mp hp with hp | hp
    · exact hs p hp
    · rw [List.mem_singleton.mp hp]
      exact hpvs.1

/-- The lists of a parsed state, and the owners in them. -/
theorem parsedState_lists {jsmn : Jsmn} (mntpoint buf : CStr) {sb : PvState}
    {ms : List (CStr × CStr)} {pvs : List Parsed} {run : CStr} (htexts : PlatformTexts jsmn ms pvs)
    (hplatforms : sb.platforms = []) (hjsons : sb.jsons = [⟨str "bsp/run.json", run, none⟩])
    (hobjects : sb.objects = []) :
    let t := parsedState mntpoint buf sb ms pvs
    t.jsons = (((ofKind [.json, .platform] ms).reverse ++ [(str "bsp/run.json", run)]).filter
        fun m => !discarded t m.1).map (fun m => ⟨m.1, m.2, ownerAddr t m.1⟩) ∧
      t.objects.map PvObject.item = ((ofKind [.object] ms).reverse.filter
        fun m => !discarded t m.1).map fun m => ⟨m.1, m.2, ownerAddr t m.1⟩ := by
  intro t
  have hnone : ∀ p ∈ sb.platforms, p.status = .installed := by simp [hplatforms]
  have hinstalled := installed_addAll htexts hnone
  have howner : ownerAddr t = ownerAddr (addMembers mntpoint sb ms pvs) :=
    ownerAddr_congr (map_pvStateValidate hinstalled)
  have hdisc : ∀ name, discarded t name = discarded (addMembers mntpoint sb ms pvs) name := by
    intro name
    rw [discarded, discarded, howner]
  have hall : (((ofKind [.json, .platform] ms).map toJson).reverse ++ sb.jsons)
      = ((ofKind [.json, .platform] ms).reverse ++ [(str "bsp/run.json", run)]).map toJson := by
    rw [hjsons, List.map_append, List.map_reverse]
    rfl
  constructor
  · have hlist : t.jsons = ((((ofKind [.json, .platform] ms).map toJson).reverse ++ sb.jsons).filter
        fun j => !discarded (addMembers mntpoint sb ms pvs) j.name).map fun j =>
          { j with plat := ownerAddr (addMembers mntpoint sb ms pvs) j.name } := rfl
    rw [hlist, hall, List.filter_map, List.map_map]
    simp only [hdisc, howner]
    rfl
  · have hlist : t.objects = ((((ofKind [.object] ms).map (toObject mntpoint sb.rev)).reverse ++
        sb.objects).filter fun o => !discarded (addMembers mntpoint sb ms pvs) o.name).map fun o =>
          { o with plat := ownerAddr (addMembers mntpoint sb ms pvs) o.name } := rfl
    rw [hlist, hobjects, List.append_nil, ← List.map_reverse, List.filter_map, List.map_map,
      List.map_map]
    simp only [hdisc, howner]
    rfl

/-! ## The partition -/

/-- No key is the beginning of one of the two special ones. -/
def NoBeginning (keys : List CStr) : Prop :=
  ∀ key ∈ keys, (key <+: str "bsp/run.json" → key = str "bsp/run.json") ∧
    (key <+: str "#spec" → key = str "#spec")

instance (keys : List CStr) : Decidable (NoBeginning keys) :=
  inferInstanceAs (Decidable (∀ key ∈ keys, (_ → _) ∧ (_ → _)))

/-- The only such member, if there is one. -/
theorem filter_of_count {ms : List (CStr × CStr)} {key value : CStr}
    (hcount : (ms.map (·.1)).count key = 1)
    (hvalue : (ms.find? fun m => m.1 = key).map (·.2) = some value) :
    ms.filter (fun m => m.1 = key) = [(key, value)] := by
  have hlen : (ms.filter fun m => m.1 = key).length = 1 := by
    rw [← List.countP_eq_length_filter, ← hcount, List.count, List.countP_map]
    refine List.countP_congr fun m _ => ?_
    simp
  obtain ⟨m, hm⟩ := List.length_eq_one_iff.mp hlen
  have hhead := List.head?_filter (p := fun m : CStr × CStr => decide (m.1 = key)) (l := ms)
  rw [hm, List.head?_cons] at hhead
  rw [← hhead, Option.map_some, Option.some.injEq] at hvalue
  have hmem : m ∈ ms.filter fun m => m.1 = key := by rw [hm]; exact List.mem_singleton_self m
  have hkey : m.1 = key := by simpa using (List.mem_filter.mp hmem).2
  rw [hm, ← hkey, ← hvalue]

/-- With no beginnings among the keys, the loop over the keys leaves out what it is to
leave out. -/
theorem ofKind_eq {ms : List (CStr × CStr)} (hno : NoBeginning (ms.map (·.1))) {run : CStr}
    (hrun : ms.filter (fun m => m.1 = str "bsp/run.json") = [(str "bsp/run.json", run)]) :
    (ofKind [.json, .platform] ms ++ [(str "bsp/run.json", run)]).Perm
        (ms.filter fun m => isJsonName m.1 && !ignoredName m.1) ∧
      ofKind [.object] ms = ms.filter fun m => !isJsonName m.1 && !ignoredName m.1 := by
  have hspecial : ∀ m ∈ ms, keyKind m.1 = .special →
      m.1 = str "bsp/run.json" ∨ m.1 = str "#spec" := by
    intro m hm hkind
    have hkey := hno m.1 (List.mem_map_of_mem hm)
    exact (keyKind_special.mp hkind).imp hkey.1 hkey.2
  have hbsp : keyKind (str "bsp/run.json") = .special := by decide
  have hspec : keyKind (str "#spec") = .special := by decide
  constructor
  · have hsplit := List.filter_append_perm (fun m : CStr × CStr =>
      decide (keyKind m.1 ∈ [KeyKind.json, .platform]))
      (ms.filter fun m => isJsonName m.1 && !ignoredName m.1)
    rw [List.filter_filter, List.filter_filter] at hsplit
    refine List.Perm.trans (List.Perm.of_eq ?_) hsplit
    congr 1
    · refine List.filter_congr fun m hm => ?_
      by_cases hkind : keyKind m.1 = .special
      · simp [hkind]
      · have hne : m.1 ≠ str "#spec" := fun heq => hkind (heq ▸ hspec)
        rw [Bool.eq_iff_iff, Bool.and_eq_true, decide_eq_true_eq,
          (keyKind_of_not_special hkind hne).1, and_self]
    · rw [← hrun]
      refine List.filter_congr fun m hm => ?_
      by_cases hkind : keyKind m.1 = .special
      · rcases hspecial m hm hkind with heq | heq
        · rw [heq]
          decide
        · rw [heq]
          decide
      · have hne : m.1 ≠ str "#spec" := fun heq => hkind (heq ▸ hspec)
        have hne' : m.1 ≠ str "bsp/run.json" := fun heq => hkind (heq ▸ hbsp)
        have hiff := (keyKind_of_not_special hkind hne).1
        cases hq : (isJsonName m.1 && !ignoredName m.1)
        · simp [hne']
        · rw [hq] at hiff
          simp [hne', hiff.mpr rfl]
  · refine List.filter_congr fun m hm => ?_
    by_cases hkind : keyKind m.1 = .special
    · rcases hspecial m hm hkind with heq | heq
      · rw [heq]
        decide
      · rw [heq]
        decide
    · have hne : m.1 ≠ str "#spec" := fun heq => hkind (heq ▸ hspec)
      rw [Bool.eq_iff_iff, decide_eq_true_eq, (keyKind_of_not_special hkind hne).2]

/-- A beginning of a special key is the name of a file, and is no `_config` item. -/
theorem not_ignored_of_special {key : CStr} (h : keyKind key = .special) (hne : key ≠ str "#spec") :
    ignoredName key = false ∧ isConfig key = false := by
  have hall : ∀ key ∈ (str "bsp/run.json").inits ++ (str "#spec").inits, key ≠ str "#spec" →
      ignoredName key = false ∧ isConfig key = false := by decide +kernel
  refine hall key (List.mem_append.mpr ?_) hne
  rw [List.mem_inits, List.mem_inits]
  exact keyKind_special.mp h

/-- The manifest is the value of its member, if it has one. -/
theorem Manifest.member {jsmn : Jsmn} {d : ObjectDoc} {toks : List Tok}
    (hreads : jsmn.Reads d toks) {s sb : PvState} {run : CStr}
    (h : Manifest jsmn s d.text toks run sb) (hbsp : str "bsp/run.json" ∈ d.keys) :
    d.keys.count (str "bsp/run.json") = 1 ∧ d.member (str "bsp/run.json") = some run := by
  have hcount := h.count
  rw [pvJsonGetKeyCount_parts hreads.spans, count_membersParts] at hcount
  have hpos : 0 < d.keys.count (str "bsp/run.json") := List.count_pos_iff.mpr hbsp
  have hone : d.keys.count (str "bsp/run.json") = 1 := by
    rw [ObjectDoc.keys] at hpos ⊢
    omega
  have honly : OnlyKey d (str "bsp/run.json") :=
    (pvJsonGetKeyCount_iff hreads.spans _).mp (by rw [h.count, hone])
  have hvalue := h.value
  rw [pvJsonGetValue_of_onlyKey hreads.spans honly] at hvalue
  exact ⟨hone, hvalue⟩

/-- **The state is a partition of the text** exactly if the manifest is a member and no
key is the beginning of a special one. -/
theorem partitioned_iff {jsmn : Jsmn} {mntpoint : CStr} {d : ObjectDoc} {toks : List Tok}
    (hreads : jsmn.Reads d toks) {alloc : Nat} {rev : CStr} {t : PvState}
    (h : system1Parse jsmn mntpoint (pvStateNew alloc rev .system1) d.text = some (some t)) :
    Partitioned t d.pairs ↔ str "bsp/run.json" ∈ d.keys ∧ NoBeginning d.keys := by
  have hslots : Slots (pvStateNew alloc rev .system1) := rfl
  obtain ⟨run, sb, pvs, hmanifest, htexts, rfl⟩ := system1Parse_spec hreads hslots h
  have hframe := parseBsp_frame hmanifest.bsp
  obtain ⟨hjsons, hobjects⟩ := parsedState_lists mntpoint d.text htexts
    (congrArg PvState.platforms hframe) (congrArg PvState.jsons hframe)
    (congrArg PvState.objects hframe)
  generalize parsedState mntpoint d.text sb d.pairs pvs = t at h hjsons hobjects ⊢
  constructor
  · intro hpart
    -- what the lists are of
    have hnames : ∀ name, (∃ j ∈ t.jsons, j.name = name) ∨ (∃ o ∈ t.objects.map PvObject.item,
        o.name = name) → name = str "bsp/run.json" ∨ keyKind name ≠ .special := by
      rintro name (⟨j, hj, rfl⟩ | ⟨o, ho, rfl⟩)
      · rw [hjsons, List.mem_map] at hj
        obtain ⟨m, hm, rfl⟩ := hj
        rcases List.mem_append.mp (List.mem_filter.mp hm).1 with hm | hm
        · have hkind := (List.mem_filter.mp (List.mem_reverse.mp hm)).2
          right
          intro hspecial
          simp [hspecial] at hkind
        · rw [List.mem_singleton.mp hm]
          exact .inl rfl
      · rw [hobjects, List.mem_map] at ho
        obtain ⟨m, hm, rfl⟩ := ho
        have hkind := (List.mem_filter.mp (List.mem_reverse.mp (List.mem_filter.mp hm).1)).2
        right
        intro hspecial
        simp [hspecial] at hkind
    have hbeginning : ∀ key ∈ d.keys, keyKind key = .special →
        key = str "bsp/run.json" ∨ key = str "#spec" := by
      intro key hkey hspecial
      by_contra hne
      rw [not_or] at hne
      obtain ⟨hignored, hconfig⟩ := not_ignored_of_special hspecial hne.2
      rw [ObjectDoc.keys_eq, List.mem_map] at hkey
      obtain ⟨m, hm, rfl⟩ := hkey
      have hlisted : m ∈ listed t d.pairs :=
        List.mem_filter.mpr ⟨hm, by simp [hignored, discarded, hconfig]⟩
      have hin : (∃ j ∈ t.jsons, j.name = m.1) ∨ ∃ o ∈ t.objects.map PvObject.item, o.name = m.1 := by
        cases hjson : isJsonName m.1 with
        | true =>
          refine .inl ⟨⟨m.1, m.2, ownerAddr t m.1⟩, hpart.jsons.mem_iff.mpr ?_, rfl⟩
          exact List.mem_map.mpr ⟨m, List.mem_filter.mpr ⟨hlisted, hjson⟩, rfl⟩
        | false =>
          refine .inr ⟨⟨m.1, m.2, ownerAddr t m.1⟩, hpart.objects.mem_iff.mpr ?_, rfl⟩
          exact List.mem_map.mpr ⟨m, List.mem_filter.mpr ⟨hlisted, by simp [hjson]⟩, rfl⟩
      rcases hnames m.1 hin with heq | hnot
      · exact hne.1 heq
      · exact hnot hspecial
    have hbsp : str "bsp/run.json" ∈ d.keys := by
      have hmem : (⟨str "bsp/run.json", run, ownerAddr t (str "bsp/run.json")⟩ : PvJson) ∈ t.jsons := by
        rw [hjsons]
        refine List.mem_map.mpr ⟨(str "bsp/run.json", run), List.mem_filter.mpr ⟨by simp, ?_⟩, rfl⟩
        have hconfig : isConfig (str "bsp/run.json") = false := by decide
        simp [discarded, hconfig]
      obtain ⟨m, hm, heq⟩ := List.mem_map.mp (hpart.jsons.mem_iff.mp hmem)
      have hname : m.1 = str "bsp/run.json" := congrArg PvJson.name heq
      have hmem' := (List.mem_filter.mp (List.mem_filter.mp hm).1).1
      rw [ObjectDoc.keys_eq, ← hname]
      exact List.mem_map_of_mem hmem'
    refine ⟨hbsp, fun key hkey => ⟨fun hpre => ?_, fun hpre => ?_⟩⟩
    · rcases hbeginning key hkey (keyKind_special.mpr (.inl hpre)) with heq | heq
      · exact heq
      · rw [heq] at hpre
        exact absurd hpre (by decide)
    · rcases hbeginning key hkey (keyKind_special.mpr (.inr hpre)) with heq | heq
      · rw [heq] at hpre
        exact absurd hpre (by decide)
      · exact heq
  · rintro ⟨hbsp, hno⟩
    obtain ⟨hone, hvalue⟩ := hmanifest.member hreads hbsp
    rw [ObjectDoc.member_eq] at hvalue
    rw [ObjectDoc.keys_eq] at hone hno
    obtain ⟨hperm, hobj⟩ := ofKind_eq hno (filter_of_count hone hvalue)
    refine ⟨?_, ?_⟩
    · have hall := ((List.reverse_perm (ofKind [.json, .platform] d.pairs)).append_right _).trans hperm
      rw [hjsons]
      refine ((hall.filter fun m => !discarded t m.1).map _).trans (List.Perm.of_eq ?_)
      rw [listed, List.filter_filter, List.filter_filter]
      congr 2
      funext m
      cases isJsonName m.1 <;> cases ignoredName m.1 <;> simp
    · rw [hobjects, hobj]
      refine (((List.reverse_perm _).filter fun m : CStr × CStr => !discarded t m.1).map _).trans
        (List.Perm.of_eq ?_)
      rw [listed, List.filter_filter, List.filter_filter]
      congr 2
      funext m
      cases isJsonName m.1 <;> cases ignoredName m.1 <;> simp

/-- A member with a string. -/
def stringMember (key value : CStr) : JsonMember JsonValue := ⟨[], key, [], [], .string value, []⟩

/-- A boot manifest. -/
def runMember : JsonMember JsonValue where
  pre := []
  key := str "bsp/run.json"
  gap := []
  gap' := []
  value := .object [] [stringMember (str "linux") (str "k"), stringMember (str "initrd") (str "i")]
  post := []

theorem valid_stringMember {key value : CStr} (hkey : AllUnescaped key)
    (hvalue : AllUnescaped value) :
    let m := stringMember key value
    White m.pre ∧ StringBody m.key ∧ White m.gap ∧ White m.gap' ∧ m.value.Valid ∧ White m.post := by
  refine ⟨by simp [stringMember, White], stringBody_of_unescaped hkey, by simp [stringMember, White],
    by simp [stringMember, White], ?_, by simp [stringMember, White]⟩
  rw [stringMember, JsonValue.Valid]
  exact stringBody_of_unescaped hvalue

theorem valid_runMember :
    White runMember.pre ∧ StringBody runMember.key ∧ White runMember.gap ∧ White runMember.gap' ∧
      runMember.value.Valid ∧ White runMember.post := by
  refine ⟨by decide, stringBody_of_unescaped (by decide), by decide, by decide, ?_, by decide⟩
  rw [runMember, JsonValue.Valid, membersValid_iff, List.forall_mem_cons, List.forall_mem_cons]
  exact ⟨by decide, valid_stringMember (by decide) (by decide),
    valid_stringMember (by decide) (by decide), by simp⟩

/-- The members in front of the files of a state. -/
def headMembers : List (JsonMember JsonValue) :=
  [stringMember (str "#spec") specSystem1, runMember]

theorem valid_headMembers {files : List (JsonMember JsonValue)}
    (hfiles : ∀ m ∈ files, White m.pre ∧ StringBody m.key ∧ White m.gap ∧ White m.gap' ∧
      m.value.Valid ∧ White m.post) :
    (JsonValue.object [] (headMembers ++ files)).Valid := by
  rw [JsonValue.Valid, membersValid_iff, headMembers, List.cons_append, List.cons_append,
    List.nil_append, List.forall_mem_cons, List.forall_mem_cons]
  exact ⟨by decide, valid_stringMember (by decide) (by decide), valid_runMember, hfiles⟩

/-- The run.json of a container. -/
def appMember : JsonMember JsonValue where
  pre := []
  key := str "app/run.json"
  gap := []
  gap' := []
  value := .object [] [stringMember (str "name") (str "app"), stringMember (str "type") (str "lxc")]
  post := []

theorem valid_appMember :
    White appMember.pre ∧ StringBody appMember.key ∧ White appMember.gap ∧ White appMember.gap' ∧
      appMember.value.Valid ∧ White appMember.post := by
  refine ⟨by decide, stringBody_of_unescaped (by decide), by decide, by decide, ?_, by decide⟩
  rw [appMember, JsonValue.Valid, membersValid_iff, List.forall_mem_cons, List.forall_mem_cons]
  exact ⟨by decide, valid_stringMember (by decide) (by decide),
    valid_stringMember (by decide) (by decide), by simp⟩

/-- A container with an object, a json and a configuration, a source that is ignored, and
a configuration without a container. -/
def appMembers : List (JsonMember JsonValue) :=
  [appMember, stringMember (str "app/root.squashfs") (str "5e21"),
    stringMember (str "app/src.json") (str "0c"), stringMember (str "_config/app/etc/x") (str "2e"),
    stringMember (str "_config/web/etc/x") (str "3f"), stringMember (str "bsp/k") (str "1f")]

theorem valid_appMembers : ∀ m ∈ appMembers, White m.pre ∧ StringBody m.key ∧ White m.gap ∧
    White m.gap' ∧ m.value.Valid ∧ White m.post := by
  rw [appMembers]
  simp only [List.forall_mem_cons]
  exact ⟨valid_appMember, valid_stringMember (by decide) (by decide),
    valid_stringMember (by decide) (by decide), valid_stringMember (by decide) (by decide),
    valid_stringMember (by decide) (by decide), valid_stringMember (by decide) (by decide),
    by simp⟩

/-- A state with these files. -/
def appDoc : ObjectDoc where
  pre := []
  gap := []
  members := headMembers ++ appMembers
  post := []
  white := white_nils
  valid := valid_headMembers valid_appMembers

/-- It is a partition, with two jsons and three objects. -/
theorem partitioned_iff_app :
    ∃ t, system1Parse tokenizer (str "/s") (pvStateNew 0 (str "1") .system1) appDoc.text
        = some (some t) ∧ Partitioned t appDoc.pairs ∧ t.jsons.length = 2 ∧
          t.objects.length = 3 := by
  obtain ⟨hreads, hlengths⟩ :
      tokenizer.Reads appDoc ((tokenizer.parse appDoc.text).getD []) ∧
        ((system1Parse tokenizer (str "/s") (pvStateNew 0 (str "1") .system1)
          appDoc.text).bind id).map (fun t => (t.jsons.length, t.objects.length)) = some (2, 3) := by
    decide +kernel
  obtain ⟨t, ht, hlen⟩ := accepted_of_map hlengths
  exact ⟨t, ht, (partitioned_iff hreads ht).mpr (by decide +kernel),
    congrArg Prod.fst hlen, congrArg Prod.snd hlen⟩

/-- A state whose file is called `bsp`. -/
def bspFileDoc : ObjectDoc where
  pre := []
  gap := []
  members := headMembers ++ [stringMember (str "bsp") (str "1f")]
  post := []
  white := white_nils
  valid := valid_headMembers (by
    rw [List.forall_mem_singleton]
    exact valid_stringMember (by decide) (by decide))

/-- A file with the name of the manifest's directory is lost. -/
theorem file_lost :
    ¬ ∀ (jsmn : Jsmn) (mntpoint : CStr) (d : ObjectDoc) (toks : List Tok) (alloc : Nat) (rev : CStr)
      (t : PvState), d.keys.Nodup → jsmn.Reads d toks →
      system1Parse jsmn mntpoint (pvStateNew alloc rev .system1) d.text = some (some t) →
      Partitioned t d.pairs := by
  intro h
  obtain ⟨hreads, hparse⟩ :
      tokenizer.Reads bspFileDoc ((tokenizer.parse bspFileDoc.text).getD []) ∧
        ((system1Parse tokenizer (str "/s") (pvStateNew 0 (str "1") .system1)
          bspFileDoc.text).bind id).map (·.objects) = some [] := by decide +kernel
  obtain ⟨t, ho, hobjects⟩ := accepted_of_map hparse
  have hpart := (h _ _ _ _ _ _ t (by decide) hreads ho).objects
  rw [hobjects, List.map_nil] at hpart
  have hconfig : isConfig (str "bsp") = false := by decide
  have hmem : (str "bsp", str "1f") ∈ (listed t bspFileDoc.pairs).filter fun m => !isJsonName m.1 := by
    refine List.mem_filter.mpr ⟨List.mem_filter.mpr ⟨by decide, ?_⟩, by decide⟩
    rw [discarded, hconfig, Bool.false_and]
    decide
  have hin := hpart.mem_iff.mpr (List.mem_map_of_mem hmem)
  cases hin

end Pantavisor.Parser
