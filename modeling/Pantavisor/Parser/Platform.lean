/-
Pantavisor.Parser.Platform — what `parse_platform` adds to a state.

The actions for a `run.json` write to the one platform that the first of them adds.
So the outcome is the same in every state: the platform and the volumes that the
text has by itself (`PlatformText`), with the address that the state gives to the
platform (`PvState.addParsed`). `parsePlatform_spec` says this of every state whose
platforms have the addresses of their places (`Slots`).
-/
import Pantavisor.Parser.System1

namespace Pantavisor.Parser

open Pantavisor.Lib Pantavisor.Json Pantavisor.State

/-! ## Addresses -/

/-- The address of the next platform. -/
def nextAddr (s : PvState) : Addr := ⟨s.alloc, s.platforms.length⟩

/-- Every platform has the address of its place. -/
def Slots (s : PvState) : Prop :=
  s.platforms.map (·.addr) = (List.range s.platforms.length).map fun i => ⟨s.alloc, i⟩

theorem Slots.ne_next {s : PvState} (h : Slots s) {p : Platform} (hp : p ∈ s.platforms) :
    p.addr ≠ nextAddr s := by
  have hmem : p.addr ∈ s.platforms.map (·.addr) := List.mem_map_of_mem hp
  rw [h, List.mem_map] at hmem
  obtain ⟨i, hi, haddr⟩ := hmem
  rw [List.mem_range] at hi
  intro heq
  rw [heq, nextAddr, Addr.mk.injEq] at haddr
  omega

/-- A platform and its volumes, added to a state at the next address. -/
def addParsed (s : PvState) (p : Platform) (vs : List PvVolume) : PvState :=
  { s with
    platforms := s.platforms ++ [{ p with addr := nextAddr s }]
    volumes := s.volumes ++ vs.map fun v => { v with plat := some (nextAddr s) } }

theorem Slots.addParsed {s : PvState} (h : Slots s) (p : Platform) (vs : List PvVolume) :
    Slots (addParsed s p vs) := by
  have hlen : (s.platforms ++ [{ p with addr := nextAddr s }]).length = s.platforms.length + 1 :=
    List.length_append
  rw [Slots, Parser.addParsed, List.map_append, hlen, List.range_succ, List.map_append]
  exact congrArg (· ++ [nextAddr s]) h

/-- A write to the platform that was added. -/
theorem modifyPlatform_addParsed {s : PvState} (h : Slots s) (p : Platform) (vs : List PvVolume)
    {f : Platform → Platform} (hf : ∀ a, f { p with addr := a } = { f p with addr := a }) :
    (addParsed s p vs).modifyPlatform (nextAddr s) f = addParsed s (f p) vs := by
  have hold : (s.platforms.map fun q => if q.addr = nextAddr s then f q else q) = s.platforms := by
    conv_rhs => rw [← List.map_id s.platforms]
    exact List.map_congr_left fun q hq => if_neg (h.ne_next hq)
  simp only [PvState.modifyPlatform, addParsed, List.map_append, hold, List.map_cons, List.map_nil]
  rw [if_pos trivial, hf]

/-! ## The actions -/

/-- A state without anything in it. -/
def emptyState : PvState := pvStateNew 0 [] .system1

theorem slots_emptyState : Slots emptyState := rfl

/-- Two bundles that got the same from a `run.json`, one of which started with an
empty state and one with `s`. -/
structure SameBundle (s : PvState) (b₀ b : PlatformBundle) : Prop where
  config : b.config = b₀.config
  shares : b.shares = b₀.shares
  state : (b₀.this = none ∧ b.this = none ∧ b₀.s = emptyState ∧ b.s = s) ∨
    ∃ p vs, b₀.this = some (nextAddr emptyState) ∧ b.this = some (nextAddr s) ∧
      b₀.s = addParsed emptyState p vs ∧ b.s = addParsed s p vs

theorem SameBundle.start (s : PvState) :
    SameBundle s ⟨emptyState, none, none, none⟩ ⟨s, none, none, none⟩ :=
  ⟨rfl, rfl, .inl ⟨rfl, rfl, rfl, rfl⟩⟩

variable {s : PvState} {b₀ b : PlatformBundle}

theorem SameBundle.modify (hs : Slots s) (h : SameBundle s b₀ b) {f : Platform → Platform}
    (hf : ∀ p a, f { p with addr := a } = { f p with addr := a }) :
    Agree (SameBundle s) (b₀.modify f) (b.modify f) := by
  obtain ⟨hconfig, hshares, ⟨h₀, h₁, -, -⟩ | ⟨p, vs, h₀, h₁, hs₀, hs₁⟩⟩ := h
  · rw [PlatformBundle.modify, PlatformBundle.modify, h₀, h₁]
    trivial
  · rw [PlatformBundle.modify, PlatformBundle.modify, h₀, h₁]
    refine agree_some ⟨hconfig, hshares, .inr ⟨f p, vs, rfl, rfl, ?_, ?_⟩⟩
    · simp only [hs₀]
      exact modifyPlatform_addParsed slots_emptyState p vs (hf p)
    · simp only [hs₁]
      exact modifyPlatform_addParsed hs p vs (hf p)

/-- More volumes of the platform. -/
theorem addParsed_volumes (s : PvState) (p : Platform) (vs : List PvVolume) (new : List PvVolume) :
    { addParsed s p vs with
      volumes := (addParsed s p vs).volumes ++
        new.map (fun v => { v with plat := some (nextAddr s) }) } = addParsed s p (vs ++ new) := by
  simp [addParsed]

theorem SameBundle.volumes (h : SameBundle s b₀ b) {new : Addr → List PvVolume}
    (hnew : ∀ a a', (new a).map (fun v => { v with plat := some a' }) = new a') :
    Agree (SameBundle s)
      (b₀.this.map fun a => (0, { b₀ with s := { b₀.s with volumes := b₀.s.volumes ++ new a } }))
      (b.this.map fun a => (0, { b with s := { b.s with volumes := b.s.volumes ++ new a } })) := by
  obtain ⟨hconfig, hshares, ⟨h₀, h₁, -, -⟩ | ⟨p, vs, h₀, h₁, hs₀, hs₁⟩⟩ := h
  · rw [h₀, h₁]
    trivial
  · rw [h₀, h₁]
    refine agree_some ⟨hconfig, hshares,
      .inr ⟨p, vs ++ new (nextAddr emptyState), rfl, rfl, ?_, ?_⟩⟩
    · simp only [hs₀]
      rw [← addParsed_volumes, hnew]
    · simp only [hs₁]
      rw [← addParsed_volumes, hnew]

/-- The platform that a name makes, but for its address. -/
def namedPlatform (name : CStr) : Platform where
  addr := nextAddr emptyState
  name := name
  type := none
  config := none
  initPid := 0
  status := .none
  runlevel := -1
  mgmt := true
  updated := false

theorem pvPlatformAdd_eq (s : PvState) (name : CStr) :
    pvPlatformAdd s name = (nextAddr s, addParsed s (namedPlatform name) []) := by
  simp only [pvPlatformAdd, addParsed, namedPlatform, nextAddr, List.map_nil, List.append_nil]

/-- The name is the only action that adds a platform. -/
theorem SameBundle.name (value : CStr) (h : SameBundle s b₀ b) (hnone : b₀.this = none) :
    Agree (SameBundle s) (doActionForName value b₀) (doActionForName value b) := by
  obtain ⟨hconfig, hshares, ⟨-, -, hs₀, hs₁⟩ | ⟨p, vs, h₀, -⟩⟩ := h
  · rw [doActionForName, doActionForName, pvPlatformAdd_eq, pvPlatformAdd_eq, hs₀, hs₁]
    exact agree_some ⟨hconfig, hshares, .inr ⟨namedPlatform value, [], rfl, rfl, rfl, rfl⟩⟩
  · rw [hnone] at h₀
    cases h₀

theorem storageVolume_plat (jsmn : Jsmn) (members : List (CStr × CStr)) (a a' : Addr) :
    (members.filterMap (storageVolume jsmn a)).map (fun v => { v with plat := some a' })
      = members.filterMap (storageVolume jsmn a') := by
  rw [List.map_filterMap]
  congr 1
  funext m
  simp only [storageVolume, Option.map_map]
  rfl

/-- Every other action respects the relation. -/
theorem respects_tail (jsmn : Jsmn) (hs : Slots s) :
    ∀ entry ∈ (system1PlatformKeyAction jsmn).tail, entry.action.Respects
      fun b₀ b => SameBundle s b₀ b := by
  have hvolume : ∀ value b₀ b, SameBundle s b₀ b →
      Agree (SameBundle s) (doActionForOneVolume value b₀) (doActionForOneVolume value b) :=
    fun value _ _ h => h.volumes fun _ _ => (rfl : [_] = [(⟨value, .loopimg, some _⟩ : PvVolume)])
  intro entry hentry
  simp only [system1PlatformKeyAction, List.tail_cons, List.mem_cons, List.not_mem_nil, or_false]
    at hentry
  rcases hentry with rfl | rfl | rfl | rfl | rfl | rfl | rfl | rfl | rfl | rfl
  · exact fun _ _ _ h => h.modify hs fun _ _ => rfl
  · exact fun _ _ _ h => h.modify hs fun _ _ => rfl
  · exact fun _ _ _ h => h.modify hs fun _ _ => rfl
  · intro buf toks k b₀ b h
    rw [doActionForRolesArray, doActionForRolesArray]
    cases toks[k]? with
    | none => trivial
    | some value => exact h.modify hs fun _ _ => rfl
  · exact fun value _ _ h => agree_some ⟨rfl, h.shares, h.state⟩
  · exact fun value _ _ h => agree_some ⟨h.config, rfl, h.state⟩
  · exact hvolume
  · intro buf toks k b₀ b h
    rw [doActionForVolumes, doActionForVolumes]
    cases toks[k]? with
    | none => trivial
    | some value => exact hvolume _ _ _ h
  · intro buf toks k b₀ b h
    rw [doActionForOneLog, doActionForOneLog]
    split
    · exact agree_some h
    · rcases h.state with ⟨h₀, h₁, -, -⟩ | ⟨p, vs, h₀, h₁, -, -⟩
      · rw [h₀, h₁]
        trivial
      · rw [h₀, h₁]
        exact agree_some h
  · intro buf b₀ b h
    rw [doActionForStorage, doActionForStorage]
    rcases h.state with ⟨h₀, h₁, -, -⟩ | ⟨p, vs, h₀, h₁, -, -⟩
    · rw [h₀, h₁]
      trivial
    · rw [h₀, h₁]
      cases jsmn.objectKeys buf (tokensOf jsmn buf) 0 with
      | none => exact agree_some h
      | some keys =>
        simp only [Option.bind_eq_bind, Option.bind_some]
        cases keys.mapM (keyAndValue buf (tokensOf jsmn buf)) with
        | none => trivial
        | some members =>
          have hvolumes := h.volumes (storageVolume_plat jsmn members)
          rw [h₀, h₁] at hvolumes
          exact hvolumes

/-! ## `parse_platform` -/

/-- The platform and the volumes that a `run.json` has by itself. -/
def PlatformText (jsmn : Jsmn) (buf : CStr) (p : Platform) (vs : List PvVolume) : Prop :=
  parsePlatform jsmn emptyState buf = some (0, addParsed emptyState p vs)

/-- The end of `parse_platform`. -/
def finishPlatform (o : Option (Int × PlatformBundle)) : Option (Int × PvState) := do
  let (ret, b) ← o
  if ret ≠ 0 then return (ret, b.s)
  else
    let this ← b.this
    return (0, b.s.modifyPlatform this fun p =>
      { p with config := b.config.or p.config, status := .installed })

theorem parsePlatform_eq (jsmn : Jsmn) (s : PvState) (buf : CStr) :
    parsePlatform jsmn s buf = finishPlatform
      (startJsonParsingWithAction jsmn buf (system1PlatformKeyAction jsmn) ⟨s, none, none, none⟩) :=
  rfl

/-- The table does the same to a bundle with an empty state and to one with `s`. -/
theorem start_agree (jsmn : Jsmn) (hs : Slots s) (buf : CStr) :
    Agree (SameBundle s)
      (startJsonParsingWithAction jsmn buf (system1PlatformKeyAction jsmn)
        ⟨emptyState, none, none, none⟩)
      (startJsonParsingWithAction jsmn buf (system1PlatformKeyAction jsmn)
        ⟨s, none, none, none⟩) := by
  have hstart := SameBundle.start s
  have htail := respects_tail jsmn hs
  unfold startJsonParsingWithAction
  split
  · exact agree_some hstart
  · exact agree_some hstart
  · split
    · exact agree_some hstart
    · rename_i toks _ _ _ keys _
      have htable : system1PlatformKeyAction jsmn
          = ⟨str "name", .string doActionForName⟩ :: (system1PlatformKeyAction jsmn).tail := rfl
      rw [htable]
      cases hfound : doLookupJsonKey buf toks keys (str "name") with
      | none =>
        simp only [keyActionLoop, hfound]
        exact keyActionLoop_agree htail _ _ hstart
      | some k =>
        rw [keyActionLoop_found hfound, keyActionLoop_found hfound]
        refine Agree.andThen ?_ (keyActionLoop_agree htail)
        unfold doOneJkaAction
        split
        · trivial
        · exact hstart.name _ rfl

/-- The end of `parse_platform` with a bundle that got a platform. -/
theorem finishPlatform_some {ret : Int} {p : Platform} {vs : List PvVolume} (hs : Slots s)
    (hthis : b.this = some (nextAddr s)) (hstate : b.s = addParsed s p vs) (hret : ret = 0) :
    finishPlatform (some (ret, b)) =
      some (0, addParsed s { p with config := b.config.or p.config, status := .installed } vs) := by
  rw [finishPlatform]
  simp only [Option.bind_eq_bind, Option.bind_some, hret, ne_eq, not_true_eq_false, if_false, hthis]
  rw [hstate, modifyPlatform_addParsed hs]
  · rfl
  · exact fun _ => rfl

/-- What a text adds to one state tells what it adds to another. -/
theorem addParsed_congr {p q : Platform} {vs ws : List PvVolume}
    (h : addParsed emptyState p vs = addParsed emptyState q ws) (s : PvState) :
    addParsed s p vs = addParsed s q ws := by
  have hplatforms := congrArg PvState.platforms h
  have hvolumes := congrArg PvState.volumes h
  simp only [addParsed, List.append_cancel_left_eq, List.cons.injEq, and_true] at hplatforms hvolumes
  have hp : { p with addr := nextAddr s } = { q with addr := nextAddr s } :=
    congrArg (fun p : Platform => { p with addr := nextAddr s }) hplatforms
  have hvs := congrArg (List.map fun v : PvVolume => { v with plat := some (nextAddr s) }) hvolumes
  simp only [List.map_map] at hvs
  rw [addParsed, addParsed, hp]
  exact congrArg (fun l => { s with
    platforms := s.platforms ++ [{ q with addr := nextAddr s }], volumes := s.volumes ++ l }) hvs

/-- **What `parse_platform` does**: it adds the platform and the volumes of the text. -/
theorem parsePlatform_spec {jsmn : Jsmn} {buf : CStr} (hs : Slots s) {t : PvState} :
    parsePlatform jsmn s buf = some (0, t) ↔
      ∃ p vs, PlatformText jsmn buf p vs ∧ t = addParsed s p vs := by
  have hagree := start_agree jsmn hs buf
  simp only [PlatformText, parsePlatform_eq]
  generalize startJsonParsingWithAction jsmn buf (system1PlatformKeyAction jsmn)
    ⟨emptyState, none, none, none⟩ = o₀ at hagree ⊢
  generalize startJsonParsingWithAction jsmn buf (system1PlatformKeyAction jsmn)
    ⟨s, none, none, none⟩ = o at hagree ⊢
  rcases hagree.cases with ⟨rfl, rfl⟩ | ⟨ret, b₀, b, rfl, rfl, hsame⟩
  · simp [finishPlatform]
  · by_cases hret : ret = 0
    · rcases hsame.state with ⟨h₀, h₁, -, -⟩ | ⟨p, vs, h₀, h₁, hs₀, hs₁⟩
      · simp [finishPlatform, hret, h₀, h₁]
      · rw [finishPlatform_some hs h₁ hs₁ hret, finishPlatform_some slots_emptyState h₀ hs₀ hret,
          hsame.config]
        simp only [Option.some.injEq, Prod.mk.injEq, true_and]
        constructor
        · intro ht
          exact ⟨_, vs, rfl, ht.symm⟩
        · rintro ⟨q, ws, heq, rfl⟩
          exact addParsed_congr heq s
    · simp [finishPlatform, hret]

/-- What the table makes of a text that has a platform. -/
theorem PlatformText.start {jsmn : Jsmn} {buf : CStr} {p : Platform} {vs : List PvVolume}
    (h : PlatformText jsmn buf p vs) :
    ∃ b₀ q, startJsonParsingWithAction jsmn buf (system1PlatformKeyAction jsmn)
        ⟨emptyState, none, none, none⟩ = some (0, b₀) ∧ b₀.this = some (nextAddr emptyState) ∧
      b₀.s = addParsed emptyState q vs ∧
      { p with addr := nextAddr emptyState } =
        { q with addr := nextAddr emptyState, config := b₀.config.or q.config, status := .installed }
      := by
  have hagree := start_agree jsmn slots_emptyState buf
  rw [PlatformText, parsePlatform_eq] at h
  rcases hagree.cases with ⟨hnone, -⟩ | ⟨ret, b₀, b, hrun, -, hsame⟩
  · rw [hnone] at h
    simp [finishPlatform] at h
  · by_cases hret : ret = 0
    · rcases hsame.state with ⟨h₀, -⟩ | ⟨q, ws, h₀, -, hs₀, -⟩
      · rw [hrun] at h
        simp [finishPlatform, hret, h₀] at h
      · rw [hrun, finishPlatform_some slots_emptyState h₀ hs₀ hret, Option.some.injEq,
          Prod.mk.injEq] at h
        have hplatforms := congrArg PvState.platforms h.2
        have hvolumes := congrArg PvState.volumes h.2
        simp only [addParsed, List.append_cancel_left_eq, List.cons.injEq, and_true] at hplatforms
        refine ⟨b₀, q, by rw [hrun, hret], h₀, ?_, hplatforms.symm⟩
        rw [hs₀]
        simp only [addParsed, List.append_cancel_left_eq] at hvolumes
        simp only [addParsed, hvolumes]
    · rw [hrun] at h
      simp [finishPlatform, hret] at h

/-- A platform that was parsed is installed. -/
theorem PlatformText.installed {jsmn : Jsmn} {buf : CStr} {p : Platform} {vs : List PvVolume}
    (h : PlatformText jsmn buf p vs) : p.status = .installed := by
  obtain ⟨b₀, q, -, -, -, heq⟩ := h.start
  exact congrArg Platform.status heq

end Pantavisor.Parser
