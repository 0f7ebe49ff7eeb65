/-
Pantavisor.Parser.Runlevels — the runlevels of an accepted state.

A `run.json` configures a runlevel or none (`runlevel_of_text`). What is left open,
`pv_platforms_default_runlevel` fills in: the first such platform becomes root, if
none is, and the others get the runlevel that is kept for them. Only the system1
parser validates its state; `runlevels_iff` says what this means for the other one.
-/
import Pantavisor.Parser.Accepted
import Pantavisor.Parser.Partition
import Pantavisor.Json.Tokenizer

namespace Pantavisor.Parser

open Pantavisor.Lib Pantavisor.Json Pantavisor.State

/-! ## What a `run.json` configures -/

/-- The runlevel that a `run.json` configures. -/
def configuredRunlevel (jsmn : Jsmn) (buf : CStr) : Option Int := do
  let keys ← jsmn.objectKeys buf (tokensOf jsmn buf) 0
  let k ← doLookupJsonKey buf (tokensOf jsmn buf) keys (str "runlevel")
  let value ← (tokensOf jsmn buf)[k + 1]?
  runlevelOf (tokText buf value)

/-- The platform that a bundle writes to, and the runlevels of all. -/
def PlatformBundle.frame (b : PlatformBundle) : Option Addr × List (Addr × Int) :=
  (b.this, b.s.platforms.map fun p => (p.addr, p.runlevel))

theorem frame_modify {f : Platform → Platform} {b b' : PlatformBundle} {ret : Int}
    (h : b.modify f = some (ret, b')) (haddr : ∀ p, (f p).addr = p.addr)
    (hrunlevel : ∀ p, (f p).runlevel = p.runlevel) : b'.frame = b.frame := by
  obtain ⟨a, -, hb⟩ := Option.map_eq_some_iff.mp h
  obtain ⟨-, rfl⟩ := Prod.mk.inj hb
  simp only [PlatformBundle.frame, PvState.modifyPlatform, List.map_map, Prod.mk.injEq, true_and]
  refine List.map_congr_left fun p _ => ?_
  simp only [Function.comp_apply]
  split
  · rw [haddr, hrunlevel]
  · rfl

/-- The actions behind the runlevel keep what is written to and the runlevels. -/
theorem keeps_frame (jsmn : Jsmn) (c : Option Addr × List (Addr × Int)) :
    ∀ entry ∈ (system1PlatformKeyAction jsmn).drop 3, entry.action.Keeps fun b => b.frame = c := by
  have hvolume : ∀ value b b' ret, doActionForOneVolume value b = some (ret, b') →
      b'.frame = b.frame := by
    intro value b b' ret h
    obtain ⟨a, -, hb⟩ := Option.map_eq_some_iff.mp h
    obtain ⟨-, rfl⟩ := Prod.mk.inj hb
    rfl
  intro entry hentry
  simp only [system1PlatformKeyAction, List.drop_succ_cons, List.drop_zero, List.mem_cons,
    List.not_mem_nil, or_false] at hentry
  rcases hentry with rfl | rfl | rfl | rfl | rfl | rfl | rfl | rfl
  · rintro buf b _ ⟨rfl, hb⟩
    exact agree_self fun _ _ h => (frame_modify h (fun _ => rfl) (fun _ => rfl)).trans hb
  · rintro buf toks k b _ ⟨rfl, hb⟩
    refine agree_self fun _ _ h => ?_
    obtain ⟨value, -, hmodify⟩ := Option.bind_eq_some_iff.mp h
    exact (frame_modify hmodify (fun _ => rfl) (fun _ => rfl)).trans hb
  · rintro value b _ ⟨rfl, hb⟩
    exact agree_some ⟨rfl, hb⟩
  · rintro value b _ ⟨rfl, hb⟩
    exact agree_some ⟨rfl, hb⟩
  · rintro value b _ ⟨rfl, hb⟩
    exact agree_self fun _ _ h => (hvolume _ _ _ _ h).trans hb
  · rintro buf toks k b _ ⟨rfl, hb⟩
    refine agree_self fun _ _ h => ?_
    obtain ⟨value, -, hone⟩ := Option.bind_eq_some_iff.mp h
    exact (hvolume _ _ _ _ hone).trans hb
  · rintro buf toks k b _ ⟨rfl, hb⟩
    refine agree_self fun _ _ h => ?_
    rw [doActionForOneLog] at h
    split at h
    · obtain ⟨-, rfl⟩ := Prod.mk.inj (Option.some.inj h)
      exact hb
    · obtain ⟨a, -, hlog⟩ := Option.map_eq_some_iff.mp h
      obtain ⟨-, rfl⟩ := Prod.mk.inj hlog
      exact hb
  · rintro buf b _ ⟨rfl, hb⟩
    refine agree_self fun _ _ h => ?_
    obtain ⟨a, -, hstorage⟩ := Option.bind_eq_some_iff.mp h
    split at hstorage
    · obtain ⟨-, rfl⟩ := Prod.mk.inj (Option.some.inj hstorage)
      exact hb
    · obtain ⟨members, -, hb'⟩ := Option.bind_eq_some_iff.mp hstorage
      obtain ⟨-, rfl⟩ := Prod.mk.inj (Option.some.inj hb')
      exact hb

/-- The runlevel action sets the runlevel, if the text has a name for one. -/
theorem frame_doActionForRunlevel {value : CStr} {b b' : PlatformBundle} {a : Addr} {r : Int}
    {ret : Int} (hframe : b.frame = (some a, [(a, r)]))
    (h : doActionForRunlevel value b = some (ret, b')) :
    b'.frame = (some a, [(a, (runlevelOf value).getD r)]) := by
  obtain ⟨hthis, hplatforms⟩ := Prod.mk.inj hframe
  obtain ⟨a', ha', hb⟩ := Option.map_eq_some_iff.mp h
  obtain ⟨-, rfl⟩ := Prod.mk.inj hb
  obtain rfl : a = a' := Option.some.inj (hthis.symm.trans ha')
  obtain ⟨p, hp, hpa⟩ := List.map_eq_singleton_iff.mp hplatforms
  obtain ⟨haddr, hrunlevel⟩ := Prod.mk.inj hpa
  simp only [PlatformBundle.frame, PvState.modifyPlatform, hp, List.map_cons, List.map_nil, haddr,
    if_true, hrunlevel, hthis]

/-- What an entry does whose action takes a string. -/
theorem doOneJkaAction_string {σ : Type} {jsmn : Jsmn} {buf : CStr} {toks : List Tok} {k : Nat}
    {action : CStr → σ → Option (Int × σ)} {s s' : σ} {ret : Int}
    (h : doOneJkaAction jsmn buf toks k (.string action) s = some (ret, s')) :
    ∃ value, toks[k + 1]? = some value ∧ action (tokText buf value) s = some (ret, s') := by
  rw [doOneJkaAction] at h
  split at h
  · cases h
  · rename_i value hvalue
    exact ⟨value, hvalue, h⟩

/-- **The runlevel of a platform** is the one that its `run.json` configures. -/
theorem runlevel_of_text {jsmn : Jsmn} {buf : CStr} {p : Platform} {vs : List PvVolume}
    (h : PlatformText jsmn buf p vs) : p.runlevel = (configuredRunlevel jsmn buf).getD (-1) := by
  obtain ⟨b₀, q, hrun, hthis, hstate, heq⟩ := h.start
  have hlevels := congrArg Platform.runlevel heq
  have hp : p.runlevel = q.runlevel := hlevels
  have hframe₀ : b₀.frame = (some (nextAddr emptyState), [(nextAddr emptyState, q.runlevel)]) := by
    rw [PlatformBundle.frame, hthis, hstate]
    rfl
  rcases startJsonParsingWithAction_zero hrun with rfl | ⟨toks, keys, hparse, hkeys, hrun⟩
  · cases hthis
  have hconfigured : configuredRunlevel jsmn buf
      = (doLookupJsonKey buf toks keys (str "runlevel")).bind fun k =>
          (toks[k + 1]?).bind fun value => runlevelOf (tokText buf value) := by
    rw [configuredRunlevel, tokensOf, hparse, Option.getD_some, hkeys]
    rfl
  have htable : system1PlatformKeyAction jsmn
      = ⟨str "name", .string doActionForName⟩ :: ⟨str "type", .string doActionForType⟩ ::
        ⟨str "runlevel", .string doActionForRunlevel⟩ :: (system1PlatformKeyAction jsmn).drop 3 :=
    rfl
  rw [htable] at hrun
  obtain ⟨b₁, hname, hrun⟩ := keyActionLoop_cons hrun
  obtain ⟨b₂, htype, hrun⟩ := keyActionLoop_cons hrun
  obtain ⟨b₃, hlevel, hrun⟩ := keyActionLoop_cons hrun
  have hframe₂ : b₂.frame = b₁.frame := by
    rcases htype with ⟨-, rfl⟩ | ⟨k, -, htype⟩
    · rfl
    · obtain ⟨value, -, htype⟩ := doOneJkaAction_string htype
      exact frame_modify htype (fun _ => rfl) (fun _ => rfl)
  have hframe₃ : b₀.frame = b₃.frame := keyActionLoop_keeps (keeps_frame jsmn b₃.frame) rfl hrun
  rw [hframe₀] at hframe₃
  rcases hname with ⟨-, rfl⟩ | ⟨k, -, hname⟩
  · -- without a name there is nothing to write to
    rcases hlevel with ⟨-, rfl⟩ | ⟨k, -, hlevel⟩
    · rw [hframe₂] at hframe₃
      cases hframe₃
    · obtain ⟨value, -, hlevel⟩ := doOneJkaAction_string hlevel
      obtain ⟨a, ha, -⟩ := Option.map_eq_some_iff.mp hlevel
      have hnone : b₂.this = none := congrArg Prod.fst hframe₂
      rw [hnone] at ha
      cases ha
  · obtain ⟨value, -, hname⟩ := doOneJkaAction_string hname
    obtain ⟨-, rfl⟩ := Prod.mk.inj (Option.some.inj hname)
    have hframe : b₂.frame = (some (nextAddr emptyState), [(nextAddr emptyState, -1)]) := hframe₂
    rw [hp]
    rcases hlevel with ⟨hnone, rfl⟩ | ⟨k, hfound, hlevel⟩
    · rw [hframe] at hframe₃
      rw [hconfigured, hnone]
      simpa using hframe₃
    · obtain ⟨value, hvalue, hlevel⟩ := doOneJkaAction_string hlevel
      rw [frame_doActionForRunlevel hframe hlevel] at hframe₃
      rw [hconfigured, hfound]
      simpa [hvalue] using hframe₃

/-! ## Defaults -/

/-- The platforms of a state, with their default runlevels. -/
def defaulted (ps : List Platform) : List Platform :=
  (if ps.any fun p => p.runlevel = runlevelRoot then ps else rootFirst ps).map fun p =>
    if p.runlevel < runlevelData then { p with runlevel := runlevelPlatform } else p

theorem pvPlatformsDefaultRunlevel_eq (s : PvState) :
    pvPlatformsDefaultRunlevel s = { s with platforms := defaulted s.platforms } := rfl

theorem mem_rootFirst {ps : List Platform} {p : Platform} (h : p ∈ rootFirst ps) :
    p ∈ ps ∨ p.runlevel = runlevelRoot := by
  induction ps with
  | nil => exact .inl h
  | cons q ps ih =>
    rw [rootFirst] at h
    split at h
    · rcases List.mem_cons.mp h with rfl | h
      · exact .inr rfl
      · exact .inl (List.mem_cons_of_mem _ h)
    · rcases List.mem_cons.mp h with rfl | h
      · exact .inl List.mem_cons_self
      · exact (ih h).imp_left (List.mem_cons_of_mem _)

/-- Every platform has a runlevel. -/
theorem range_defaulted {ps : List Platform} (h : ∀ p ∈ ps, p.runlevel ≤ runlevelApp) :
    ∀ p ∈ defaulted ps, runlevelData ≤ p.runlevel ∧ p.runlevel ≤ runlevelApp := by
  intro p hp
  obtain ⟨q, hq, rfl⟩ := List.mem_map.mp hp
  have hle : q.runlevel ≤ runlevelApp := by
    split at hq
    · exact h q hq
    · rcases mem_rootFirst hq with hq | hq
      · exact h q hq
      · rw [hq]
        decide
  split
  · exact (by decide : runlevelData ≤ runlevelPlatform ∧ runlevelPlatform ≤ runlevelApp)
  · rename_i hge
    exact ⟨Int.not_lt.mp hge, hle⟩

theorem countP_rootFirst {ps : List Platform} (hroot : ∀ p ∈ ps, p.runlevel ≠ runlevelRoot)
    (hopen : ∃ p ∈ ps, p.runlevel = -1) :
    (rootFirst ps).countP (fun p => p.runlevel = runlevelRoot) = 1 := by
  induction ps with
  | nil =>
    obtain ⟨p, hp, -⟩ := hopen
    cases hp
  | cons q ps ih =>
    rw [List.forall_mem_cons] at hroot
    rw [rootFirst]
    split
    · have hnone : ps.countP (fun p => p.runlevel = runlevelRoot) = 0 :=
        List.countP_eq_zero.mpr fun p hp => by simpa using hroot.2 p hp
      rw [List.countP_cons, hnone]
      rfl
    · rename_i hq
      have hrest : ∃ p ∈ ps, p.runlevel = -1 := by
        obtain ⟨p, hp, hlevel⟩ := hopen
        rcases List.mem_cons.mp hp with rfl | hp
        · exact absurd hlevel hq
        · exact ⟨p, hp, hlevel⟩
      rw [List.countP_cons, ih hroot.2 hrest, if_neg (by simpa using hroot.1)]

/-- With no root and something open, one platform becomes root. -/
theorem countP_defaulted {ps : List Platform} (hroot : ∀ p ∈ ps, p.runlevel ≠ runlevelRoot)
    (hopen : ∃ p ∈ ps, p.runlevel = -1) :
    (defaulted ps).countP (fun p => p.runlevel = runlevelRoot) = 1 := by
  have hany : (ps.any fun p => p.runlevel = runlevelRoot) = false := by
    rw [List.any_eq_false]
    exact fun p hp => by simpa using hroot p hp
  rw [defaulted, hany, List.countP_map, ← countP_rootFirst hroot hopen]
  refine List.countP_congr fun p _ => ?_
  simp only [Function.comp_apply, decide_eq_true_eq]
  split
  · rename_i hlt
    constructor
    · intro hroot
      exact absurd hroot (by decide : ¬ runlevelPlatform = runlevelRoot)
    · intro hroot
      rw [hroot] at hlt
      exact absurd hlt (by decide)
  · exact Iff.rfl

/-! ## Starting -/

/-- A level of `pv_platforms_start` that did not fail: its platforms are started, and
those that were. -/
theorem startLevel_started {start : Platform → Option Int} {i : Int} {ps ps' : List Platform}
    (h : startLevel start i ps = some ps') :
    ∀ p' ∈ ps', ∃ p ∈ ps, p'.runlevel = p.runlevel ∧
      (p.runlevel = i ∨ p.status = .started → p'.status = .started) := by
  induction ps generalizing ps' with
  | nil =>
    obtain rfl := Option.some.inj h
    simp
  | cons p ps ih =>
    obtain ⟨q, qs, hq, hqs, rfl⟩ : ∃ q qs,
        (if p.runlevel ≠ i ∨ p.status = .started then some p else startPlatform start p) = some q ∧
        startLevel start i ps = some qs ∧ q :: qs = ps' := by
      rw [startLevel] at h
      split at h <;> rename_i hskip
      · simp only [Option.bind_eq_bind, Option.bind_some, Option.bind_eq_some_iff, Option.pure_def,
          Option.some.injEq] at h
        obtain ⟨qs, hqs, rfl⟩ := h
        exact ⟨p, qs, if_pos hskip, hqs, rfl⟩
      · simp only [Option.bind_eq_bind, Option.bind_eq_some_iff, Option.pure_def,
          Option.some.injEq] at h
        obtain ⟨q, hq, qs, hqs, rfl⟩ := h
        exact ⟨q, qs, (if_neg hskip).trans hq, hqs, rfl⟩
    intro p' hp'
    rcases List.mem_cons.mp hp' with rfl | hp'
    · refine ⟨p, List.mem_cons_self, ?_⟩
      split at hq
      · rename_i hskip
        obtain rfl := Option.some.inj hq
        exact ⟨rfl, fun hor => by tauto⟩
      · rw [startPlatform] at hq
        split at hq
        · cases hq
        · split at hq
          · obtain rfl := Option.some.inj hq
            exact ⟨rfl, fun _ => rfl⟩
          · cases hq
    · obtain ⟨r, hr, hlevel⟩ := ih hqs p' hp'
      exact ⟨r, List.mem_cons_of_mem _ hr, hlevel⟩

/-- **Starting from `RUNLEVEL_DATA`** gets to every platform that has a runlevel. -/
theorem pvPlatformsStart_started {start : Platform → Option Int} {s t : PvState}
    (hrange : ∀ p ∈ s.platforms, runlevelData ≤ p.runlevel ∧ p.runlevel ≤ runlevelApp)
    (h : pvPlatformsStart start s runlevelData = some t) :
    ∀ p ∈ t.platforms, p.runlevel ≠ runlevelData → p.status = .started := by
  have hlevels : [0, 1, 2, 3].filter (max runlevelData 1 ≤ ·) = [1, 2, 3] := by decide
  rw [pvPlatformsStart, hlevels] at h
  simp only [List.foldlM_cons, List.foldlM_nil, Option.bind_eq_bind, Option.bind_eq_some_iff,
    Option.pure_def, Option.some.injEq] at h
  obtain ⟨_, ⟨ps₁, h₁, ps₂, h₂, ps₃, h₃, rfl⟩, rfl⟩ := h
  intro p₃ hp₃ hdata
  obtain ⟨p₂, hp₂, hlevel₃, hstart₃⟩ := startLevel_started h₃ p₃ hp₃
  obtain ⟨p₁, hp₁, hlevel₂, hstart₂⟩ := startLevel_started h₂ p₂ hp₂
  obtain ⟨p₀, hp₀, hlevel₁, hstart₁⟩ := startLevel_started h₁ p₁ hp₁
  have hlevel : p₀.runlevel = 1 ∨ p₁.runlevel = 2 ∨ p₂.runlevel = 3 := by
    have hin := hrange p₀ hp₀
    simp only [runlevelData, runlevelApp] at hin hdata
    omega
  rcases hlevel with hone | htwo | hthree
  · exact hstart₃ (.inr (hstart₂ (.inr (hstart₁ (.inl hone)))))
  · exact hstart₃ (.inr (hstart₂ (.inl htwo)))
  · exact hstart₃ (.inl hthree)

/-! ## The platforms of an accepted state -/

/-- The platforms of a parsed state are those of its members, with their defaults. -/
theorem platforms_parsedState {jsmn : Jsmn} (mntpoint buf : CStr) {sb : PvState}
    {ms : List (CStr × CStr)} {pvs : List Parsed} (htexts : PlatformTexts jsmn ms pvs)
    (hplatforms : sb.platforms = []) :
    (parsedState mntpoint buf sb ms pvs).platforms = defaulted (addAll sb pvs).platforms := by
  have hnone : ∀ p ∈ sb.platforms, p.status = .installed := by simp [hplatforms]
  have hall : (addAll sb pvs).platforms.filter (fun p => p.status = .installed)
      = (addAll sb pvs).platforms :=
    List.filter_eq_self.mpr fun p hp => by simpa using installed_addAll htexts hnone p hp
  rw [parsedState, pvStateValidate, pvPlatformsDefaultRunlevel_eq]
  change defaulted ((addAll sb pvs).platforms.filter fun p => p.status = .installed) = _
  rw [hall]

/-- The runlevels that the members of a text configure. -/
def memberRunlevels (jsmn : Jsmn) (ms : List (CStr × CStr)) : List (Option Int) :=
  (ofKind [.platform] ms).map fun m => configuredRunlevel jsmn m.2

theorem runlevels_of_texts {jsmn : Jsmn} {ms : List (CStr × CStr)} {pvs : List Parsed}
    (htexts : PlatformTexts jsmn ms pvs) :
    pvs.map (fun pv => pv.1.runlevel) = (memberRunlevels jsmn ms).map (·.getD (-1)) := by
  rw [PlatformTexts] at htexts
  rw [memberRunlevels]
  generalize ofKind [.platform] ms = ms' at htexts ⊢
  induction htexts with
  | nil => rfl
  | cons htext _ ih => rw [List.map_cons, runlevel_of_text htext, ih, List.map_cons, List.map_cons]

theorem range_runlevelOf {value : CStr} {r : Int} (h : runlevelOf value = some r) :
    runlevelData ≤ r ∧ r ≤ runlevelApp := by
  rw [runlevelOf] at h
  split_ifs at h
  all_goals
    obtain rfl := Option.some.inj h
    decide

theorem range_configuredRunlevel {jsmn : Jsmn} {buf : CStr} {r : Int}
    (h : configuredRunlevel jsmn buf = some r) : runlevelData ≤ r ∧ r ≤ runlevelApp := by
  simp only [configuredRunlevel, Option.bind_eq_bind, Option.bind_eq_some_iff] at h
  obtain ⟨_, -, _, -, _, -, hr⟩ := h
  exact range_runlevelOf hr

theorem range_memberRunlevels {jsmn : Jsmn} {ms : List (CStr × CStr)} {r : Int}
    (h : some r ∈ memberRunlevels jsmn ms) : runlevelData ≤ r ∧ r ≤ runlevelApp := by
  obtain ⟨m, -, hr⟩ := List.mem_map.mp h
  exact range_configuredRunlevel hr

/-- The runlevels that a text configures for the platforms of its state. There is none
in a multi1 text. -/
def configuredRunlevels (jsmn : Jsmn) (buf : CStr) (t : PvState) : List (Option Int) :=
  if scan jsmn buf (str "#spec") = some specMulti1 then t.platforms.map fun _ => none
  else memberRunlevels jsmn ((keysAndValues jsmn buf (tokensOf jsmn buf)).getD [])

/-- Every platform has a runlevel, one becomes root if none is configured so, and all
but the data ones are started. -/
structure RunlevelsSet (jsmn : Jsmn) (buf : CStr) (t : PvState) : Prop where
  range : ∀ p ∈ t.platforms, runlevelData ≤ p.runlevel ∧ p.runlevel ≤ runlevelApp
  root : some runlevelRoot ∉ configuredRunlevels jsmn buf t →
    none ∈ configuredRunlevels jsmn buf t →
    t.platforms.countP (fun p => p.runlevel = runlevelRoot) = 1
  started : ∀ start t', pvPlatformsStart start t runlevelData = some t' →
    ∀ p ∈ t'.platforms, p.runlevel ≠ runlevelData → p.status = .started

/-- The runlevels of a system1 state, by those that its members configure. -/
theorem levels_system1 {jsmn : Jsmn} {mntpoint buf rev : CStr} {alloc : Nat} {t : PvState}
    (h : system1Parse jsmn mntpoint (pvStateNew alloc rev .system1) buf = some (some t)) :
    ∃ ms ps, keysAndValues jsmn buf (tokensOf jsmn buf) = some ms ∧ t.platforms = defaulted ps ∧
      ps.map (·.runlevel) = (memberRunlevels jsmn ms).map (·.getD (-1)) := by
  have hslots : Slots (pvStateNew alloc rev .system1) := rfl
  obtain ⟨ms, run, sb, pvs, hms, hmanifest, htexts, rfl⟩ := system1Parse_members hslots h
  have hplatforms : sb.platforms = [] := congrArg PvState.platforms (parseBsp_frame hmanifest.bsp)
  refine ⟨ms, (addAll sb pvs).platforms, hms, platforms_parsedState mntpoint buf htexts hplatforms,
    ?_⟩
  rw [map_addAll _ (fun _ _ => rfl), hplatforms, ← runlevels_of_texts htexts]
  rfl

/-- The runlevel of a platform is one that is configured, or open. -/
theorem mem_levels {jsmn : Jsmn} {ms : List (CStr × CStr)} {ps : List Platform}
    (h : ps.map (·.runlevel) = (memberRunlevels jsmn ms).map (·.getD (-1))) {p : Platform}
    (hp : p ∈ ps) : ∃ r ∈ memberRunlevels jsmn ms, r.getD (-1) = p.runlevel := by
  have hin := List.mem_map_of_mem (f := Platform.runlevel) hp
  rw [h] at hin
  exact List.mem_map.mp hin

theorem range_system1 {jsmn : Jsmn} {mntpoint buf rev : CStr} {alloc : Nat} {t : PvState}
    (h : system1Parse jsmn mntpoint (pvStateNew alloc rev .system1) buf = some (some t)) :
    ∀ p ∈ t.platforms, runlevelData ≤ p.runlevel ∧ p.runlevel ≤ runlevelApp := by
  obtain ⟨ms, ps, -, hplatforms, hlevels⟩ := levels_system1 h
  rw [hplatforms]
  refine range_defaulted fun p hp => ?_
  obtain ⟨r, hr, hlevel⟩ := mem_levels hlevels hp
  rw [← hlevel]
  cases r with
  | none => decide
  | some r => exact (range_memberRunlevels hr).2

/-- A system1 state has its runlevels. -/
theorem runlevelsSet_system1 {jsmn : Jsmn} {mntpoint buf rev : CStr} {alloc : Nat} {t : PvState}
    (hspec : scan jsmn buf (str "#spec") ≠ some specMulti1)
    (h : system1Parse jsmn mntpoint (pvStateNew alloc rev .system1) buf = some (some t)) :
    RunlevelsSet jsmn buf t := by
  have hrange := range_system1 h
  refine ⟨hrange, ?_, fun start t' hstart => pvPlatformsStart_started hrange hstart⟩
  obtain ⟨ms, ps, hms, hplatforms, hlevels⟩ := levels_system1 h
  rw [configuredRunlevels, if_neg hspec, hms, Option.getD_some, hplatforms]
  intro hroot hopen
  refine countP_defaulted (fun p hp heq => ?_) ?_
  · obtain ⟨r, hr, hlevel⟩ := mem_levels hlevels hp
    rw [heq] at hlevel
    cases r with
    | none => exact absurd hlevel (by decide)
    | some r =>
      obtain rfl : r = runlevelRoot := hlevel
      exact hroot hr
  · have hin := List.mem_map_of_mem (f := fun r : Option Int => r.getD (-1)) hopen
    rw [← hlevels] at hin
    exact List.mem_map.mp hin

/-! ## multi1 -/

/-- A platform of the manifest's list is filled in. -/
def LoadsPlatform (jsmn : Jsmn) (buf : CStr) : Prop :=
  ∃ value keys names ms m,
    pvJsonGetKeyCount buf (str "pantavisor.json") (tokensOf jsmn buf) = 1 ∧
    scan jsmn buf (str "pantavisor.json") = some value ∧
    jsmn.objectKeys value (tokensOf jsmn value) 0 = some keys ∧
    Multi1.keyStrs value (tokensOf jsmn value) keys (str "platforms") = some names ∧
    keysAndValues jsmn buf (tokensOf jsmn buf) = some ms ∧ m ∈ ms ∧
    Multi1.FillsOne jsmn names m

/-- The platforms of a multi1 state have no runlevel, and there are some if one is
filled in. -/
theorem platforms_multi1 {jsmn : Jsmn} {mntpoint buf rev : CStr} {alloc : Nat} {t : PvState}
    (h : Multi1.multi1Parse jsmn mntpoint (pvStateNew alloc rev .multi1) buf = some (some t)) :
    (∀ p ∈ t.platforms, p.runlevel = -1 ∧ p.status = .installed) ∧
      (t.platforms ≠ [] ↔ LoadsPlatform jsmn buf) := by
  rcases Multi1.multi1Parse_spec h with ⟨hnone, rfl⟩ |
    ⟨value, addons, names, volumes, ms, s', hcount, hvalue, hlists, hms, hfold, rfl⟩
  · refine ⟨by simp [pvStateNew], ⟨fun hne => absurd rfl hne, ?_⟩⟩
    rintro ⟨value, _, _, _, _, hcount, hvalue, -⟩
    rw [scan, hnone hcount] at hvalue
    cases hvalue
  · obtain ⟨hfilled, hinstalled⟩ := Multi1.foldlM_parseKey_filled hfold
    obtain ⟨keys, hkeys, -, hnames, -⟩ := hlists.keys
    have hnew : (pvStateNew alloc rev .multi1).platforms = [] := rfl
    have hplatNames := Multi1.manifestState_names jsmn hnew value addons names volumes
    have hplatLevels := Multi1.manifestState_platforms jsmn hnew value addons names volumes
      (·.runlevel) fun _ _ => rfl
    have hplatStatus := Multi1.manifestState_platforms jsmn hnew value addons names volumes
      (·.status) fun _ _ => rfl
    constructor
    · intro p hp
      obtain ⟨hp, hstatus⟩ := List.mem_filter.mp hp
      have hlevel := List.mem_map_of_mem (f := Platform.runlevel) hp
      have hlevels := hfilled.runlevels.trans hplatLevels
      rw [show s'.platforms.map Platform.runlevel = s'.platforms.map (·.runlevel) from rfl, hlevels]
        at hlevel
      obtain ⟨_, -, heq⟩ := List.mem_map.mp hlevel
      exact ⟨heq.symm, by simpa using hstatus⟩
    · have hnotYet : ¬ Multi1.SomeInstalled (Multi1.manifestState jsmn
          (pvStateNew alloc rev .multi1) value addons names volumes) := by
        rintro ⟨p, hp, hstatus⟩
        have hin := List.mem_map_of_mem (f := fun p : Platform => p.status) hp
        rw [hplatStatus] at hin
        obtain ⟨_, -, heq⟩ := List.mem_map.mp hin
        rw [hstatus] at heq
        cases heq
      rw [hplatNames] at hinstalled
      have hsome : (pvPlatformsRemoveNotInstalled { s' with json := some buf }).platforms ≠ [] ↔
          Multi1.SomeInstalled s' := by
        rw [pvPlatformsRemoveNotInstalled, ne_eq, List.filter_eq_nil_iff]
        simp [Multi1.SomeInstalled]
      rw [hsome, hinstalled]
      constructor
      · rintro (hinst | ⟨m, hm, hfills⟩)
        · exact absurd hinst hnotYet
        · exact ⟨value, keys, names, ms, m, hcount, hvalue, hkeys, hnames, hms, hm, hfills⟩
      · rintro ⟨value', keys', names', ms', m, -, hvalue', hkeys', hnames', hms', hm, hfills⟩
        obtain rfl := Option.some.inj (hvalue.symm.trans hvalue')
        obtain rfl := Option.some.inj (hkeys.symm.trans hkeys')
        obtain rfl := Option.some.inj (hnames.symm.trans hnames')
        obtain rfl := Option.some.inj (hms.symm.trans hms')
        exact .inr ⟨m, hm, hfills⟩

/-- **The states that have their runlevels**: all of system1, and those of multi1 that
have no platform. -/
theorem runlevels_iff {jsmn : Jsmn} {mntpoint buf rev : CStr} {alloc : Nat} {t : PvState}
    (h : getState jsmn mntpoint alloc buf rev = some (some t)) :
    RunlevelsSet jsmn buf t ↔
      (scan jsmn buf (str "#spec") = some specMulti1 → ¬ LoadsPlatform jsmn buf) := by
  rcases getState_cases h with ⟨hspec, hparse⟩ | ⟨hspec, hparse⟩
  · obtain ⟨hlevels, hsome⟩ := platforms_multi1 hparse
    constructor
    · intro hset _ hloads
      obtain ⟨p, hp⟩ := List.exists_mem_of_ne_nil _ (hsome.mpr hloads)
      have hge := (hset.range p hp).1
      rw [(hlevels p hp).1] at hge
      exact absurd hge (by decide)
    · intro hnot
      have hnil : t.platforms = [] := not_not.mp fun hne => hnot hspec (hsome.mp hne)
      refine ⟨by simp [hnil], ?_, fun start t' hstart =>
        pvPlatformsStart_started (by simp [hnil]) hstart⟩
      rw [configuredRunlevels, if_pos hspec, hnil]
      intro _ hopen
      cases hopen
  · have hne : scan jsmn buf (str "#spec") ≠ some specMulti1 := by
      rw [hspec, ne_eq, Option.some.injEq]
      exact specSystem1_ne
    exact ⟨fun _ hmulti => absurd hmulti hne, fun _ => runlevelsSet_system1 hne hparse⟩

/-- A state with a platform and no runlevel for it. -/
def openPlatformText : CStr :=
  str "\x7b\"#spec\":\"pantavisor-service-system@1\",\"bsp/run.json\":\x7b\"linux\":\"k\"\x7d,\"a/run.json\":\x7b\"name\":\"a\"\x7d\x7d"

/-- Its platform becomes root. -/
theorem runlevels_iff_openPlatform :
    ∃ t, getState tokenizer (str "/s") 0 openPlatformText (str "1") = some (some t) ∧
      t.platforms.map (·.runlevel) = [runlevelRoot] ∧ RunlevelsSet tokenizer openPlatformText t := by
  obtain ⟨hparse, hspec⟩ :
      ((getState tokenizer (str "/s") 0 openPlatformText (str "1")).bind id).map
        (fun t => t.platforms.map (·.runlevel)) = some [runlevelRoot] ∧
      scan tokenizer openPlatformText (str "#spec") ≠ some specMulti1 := by
    unfold openPlatformText
    repeat rw [str_ofList]
    decide +kernel
  obtain ⟨t, ho, hlevels⟩ := accepted_of_map hparse
  exact ⟨t, ho, hlevels, (runlevels_iff ho).mpr fun hmulti => absurd hmulti hspec⟩

/-- A state of the other spec with a platform. -/
def multiPlatformText : CStr :=
  str "\x7b\"#spec\":\"pantavisor-multi-platform@1\",\"pantavisor.json\":\x7b\"linux\":\"k\",\"platforms\":[\"a\"]\x7d,\"a.json\":\x7b\"name\":\"a\",\"configs\":[],\"share\":[]\x7d\x7d"

/-- Its platform is left without a runlevel. -/
theorem runlevel_left_open :
    ¬ ∀ (jsmn : Jsmn) (mntpoint : CStr) (alloc : Nat) (buf rev : CStr) (t : PvState),
      getState jsmn mntpoint alloc buf rev = some (some t) → RunlevelsSet jsmn buf t := by
  intro h
  have hparse : ((getState tokenizer (str "/s") 0 multiPlatformText (str "1")).bind id).map
      (fun t => t.platforms.map (·.runlevel)) = some [-1] := by
    unfold multiPlatformText
    repeat rw [str_ofList]
    decide +kernel
  obtain ⟨t, ho, hlevels⟩ := accepted_of_map hparse
  obtain ⟨p, hp, hlevel⟩ := List.map_eq_singleton_iff.mp hlevels
  have hge := ((h _ _ _ _ _ t ho).range p (by rw [hp]; exact List.mem_singleton_self p)).1
  rw [hlevel] at hge
  exact absurd hge (by decide)

end Pantavisor.Parser
