/-
Pantavisor.Controller.Verified — nothing starts unverified.

An update is followed by the revision it has pending (`Follows`): an entry of the
state table keeps it, drops it with the update, or starts an update whose state
was accepted and could be parsed. `ContentsInv` ties the contents to the
controller at every step boundary, and says that the pending state is built from
an accepted text. A run of `_pv_run` is then a list of calls in which every mount
and every start comes after the checks of the state that is run
(`nothing_starts_unverified`).
-/
import Pantavisor.Controller.Contents
import Pantavisor.Controller.Invariant
import Pantavisor.State.StateTheorems

namespace Pantavisor.Controller

open Pantavisor.Lib Pantavisor.Bootloader
open Pantavisor.State hiding runlevelRoot runlevelPlatform pvUpdateRequiresReboot

/-! ## The update of an entry -/

/-- The update is another one, or the same one with the same revision pending; a
new one has a revision pending that is `ok`. -/
def Follows (ok : Rev → Prop) (u u' : Option PvUpdate) : Prop :=
  ∀ v, u' = some v → (∃ w, u = some w ∧ v.pending = w.pending) ∨
    u = none ∧ ∃ rev, v.pending = some rev ∧ ok rev

variable {ok : Rev → Prop}

theorem Follows.refl (u : Option PvUpdate) : Follows ok u u :=
  fun v hv => Or.inl ⟨v, hv, rfl⟩

/-- An update that stays keeps what it has pending, whatever becomes of its status. -/
theorem Follows.of_kept {u u' : Option PvUpdate}
    (h : ∀ v, u' = some v → ∃ w, u = some w ∧ v.pending = w.pending) : Follows ok u u' :=
  fun v hv => Or.inl (h v hv)

/-! ## `_pv_wait` -/

theorem follows_waitUpdate (cfg : Config) (io : WaitUpdateIo) (pv : Pv) :
    Follows ok pv.update (pvWaitUpdate cfg io pv).2.update := by
  have htest := (pvWaitTest_spec cfg io pv).update
  have hkept : ∀ v, (pvWaitTest cfg io pv).update = some v →
      ∃ w, pv.update = some w ∧ v.pending = w.pending := by
    intro v hv
    rw [htest, Option.map_eq_some_iff] at hv
    obtain ⟨w, hw, rfl⟩ := hv
    exact ⟨w, hw, rfl⟩
  have hfinish := (finishUpdate_spec cfg io.finish (pvWaitTest cfg io pv)).update
  unfold pvWaitUpdate
  split
  · exact Follows.refl _
  · dsimp only
    split
    · exact Follows.of_kept hkept
    · have hfinished : Follows ok pv.update
          (finishUpdate cfg io.finish (pvWaitTest cfg io pv)).2.update := by
        rw [hfinish]
        exact Follows.of_kept fun v hv => hkept v (Option.filter_eq_some_iff.mp hv).1
      split <;> exact hfinished

/-- An answer whose state is accepted, and parsed for the revision in it. -/
def StepResponse.Valid (ok : Rev → Prop) (res : StepResponse) : Prop :=
  ∀ rev, res.rev = some rev → res.signature = true → res.state = true → ok rev

/-- The answers of the trail are valid ones. -/
def StepsIo.Valid (ok : Rev → Prop) (io : StepsIo) : Prop :=
  ∀ res, io.inprogress = .found res ∨ io.downloading = .found res ∨ io.queued = .found res ∨
    io.new = .found res → res.Valid ok

/-- What `trail_get_new_steps` goes on with is one of the answers. -/
theorem trailFindSteps_mem {io : StepsIo} {ongoing wrong : Bool} {res : StepResponse}
    (h : trailFindSteps io ongoing = some (res, wrong)) :
    io.inprogress = .found res ∨ io.downloading = .found res ∨ io.queued = .found res ∨
      io.new = .found res := by
  have hsame : ∀ {res' : StepResponse} {wrong' : Bool},
      some (res', wrong') = some (res, wrong) → res' = res :=
    fun h => (Prod.mk.inj (Option.some.inj h)).1
  unfold trailFindSteps at h
  dsimp only at h
  split at h
  · split at h
    · rename_i found
      exact Or.inr (Or.inr (Or.inr (hsame h ▸ found)))
    · cases h
  · split at h
    · rename_i found
      exact Or.inl (hsame h ▸ found)
    · cases h
    · rename_i found
      exact Or.inr (Or.inl (hsame h ▸ found))
    · cases h
    · rename_i found
      exact Or.inr (Or.inr (Or.inl (hsame h ▸ found)))
    · cases h
    · split at h
      · rename_i found
        exact Or.inr (Or.inr (Or.inr (hsame h ▸ found)))
      · cases h

/-- An update from the trail is one whose state was accepted and parsed. -/
theorem follows_getNewSteps (cfg : Config) {io : StepsIo} (hio : io.Valid ok) (pv : Pv) :
    Follows ok pv.update (trailGetNewSteps cfg io pv).2.update := by
  unfold trailGetNewSteps
  split
  · exact Follows.refl _
  · rename_i res wrong hfind
    have hvalid := hio res (trailFindSteps_mem hfind)
    split
    · exact Follows.refl _
    · rename_i rev hrev
      dsimp only
      split
      · exact Follows.refl _
      · split
        · exact Follows.refl _
        · split
          · exact Follows.refl _
          · split
            · exact Follows.refl _
            · rename_i hsignature
              split
              · exact Follows.refl _
              · rename_i hstate
                split
                · rename_i hnone
                  intro v hv
                  rw [← Option.some.inj hv]
                  exact Or.inr ⟨hnone, rev, rfl,
                    hvalid rev hrev (by simpa using hsignature) (by simpa using hstate)⟩
                · exact Follows.refl _

theorem follows_checkForUpdates (cfg : Config) {io : UpdatesIo} (hio : io.steps.Valid ok)
    (pv : Pv) : Follows ok pv.update (pvUpdaterCheckForUpdates cfg io pv).2.update := by
  unfold pvUpdaterCheckForUpdates
  split
  · exact Follows.refl _
  · split
    · exact Follows.refl _
    · split
      · exact follows_getNewSteps cfg hio { pv with synced := true }
      · exact Follows.refl _

theorem follows_waitNetwork (cfg : Config) {io : NetworkIo} (hio : io.updates.steps.Valid ok)
    (wio : WaitUpdateIo) (pv : Pv) :
    Follows ok pv.update (pvWaitNetwork cfg io wio pv).2.update := by
  unfold pvWaitNetwork
  split
  · split
    · split <;> exact Follows.refl _
    · split <;> exact Follows.refl _
  · split
    · exact Follows.refl _
    · split
      · exact follows_waitUpdate cfg wio pv
      · have hfound := follows_checkForUpdates cfg hio pv
        obtain ⟨-, hcase⟩ := pvUpdaterCheckForUpdates_spec cfg io.updates pv
        dsimp only
        split
        · exact hfound
        · rename_i hret
          -- nothing found: the update is the one from before
          rcases hcase with ⟨-, hsame⟩ | ⟨htrue, -⟩
          · rw [← hsame]
            exact follows_waitUpdate cfg wio _
          · exact absurd htrue hret

/-- **`_pv_wait` starts no update unverified.** -/
theorem follows_wait (cfg : Config) {io : WaitIo} (hio : io.network.updates.steps.Valid ok)
    (pv : Pv) : Follows ok pv.update (pvWait cfg io pv).update := by
  have hops : Follows ok pv.update (pvWaitOps cfg io pv).2.update := by
    unfold pvWaitOps
    split
    · split
      · dsimp only
        split
        · unfold pvWaitUnclaimed
          split
          · exact Follows.refl _
          · dsimp only
            split <;> exact Follows.refl _
        · exact follows_waitNetwork cfg hio io.waitUpdate
            { pv with timerWaitDelay := io.nowRestart + cfg.updaterInterval }
      · exact Follows.refl _
    · exact follows_waitUpdate cfg io.waitUpdate pv
  unfold pvWait
  split
  · split <;> exact Follows.refl _
  · dsimp only
    split <;> exact hops

/-! ## `_pv_command` and `_pv_update` -/

/-- **`_pv_command` starts no update unverified.** -/
theorem follows_command {io : CommandIo} (pv : Pv)
    (hio : ∀ rev, (pv.cmd.bind PvCmd.runs) = some rev → io.localStep.signature = true →
      io.localStep.state = true → ok rev) :
    Follows ok pv.update (pvCommand io pv).update := by
  have hlocal : ∀ (pv₀ : Pv) (rev : Rev), pv₀.update = none →
      (pv.cmd.bind PvCmd.runs) = some rev →
      Follows ok pv₀.update (pvCommandUpdate io.localStep rev pv₀).update := by
    intro pv₀ rev hnone hrev v hv
    refine Or.inr ⟨hnone, rev, ?_⟩
    simp only [pvCommandUpdate, pvUpdateGetStepLocal] at hv
    split at hv
    · cases hv
    · rename_i hsignature
      split at hv
      · cases hv
      · rename_i hstate
        rw [← Option.some.inj hv]
        exact ⟨rfl, hio rev hrev (by simpa using hsignature) (by simpa using hstate)⟩
  unfold pvCommand
  dsimp only
  split
  · exact Follows.refl _
  · rename_i cmd hcmd
    have hcmd : pv.cmd = some cmd := hcmd
    change Follows ok pv.update (pvCommandOp io { pv with next := .wait } cmd).update
    cases cmd with
    | rebootDevice =>
        simp only [pvCommandOp]
        split <;> exact Follows.refl _
    | poweroffDevice =>
        simp only [pvCommandOp]
        split <;> exact Follows.refl _
    | localRun rev =>
        simp only [pvCommandOp]
        split
        · exact Follows.refl _
        · rename_i hnone
          exact hlocal { pv with next := .wait } rev (by simpa using hnone) (by rw [hcmd]; rfl)
    | makeFactory rev =>
        simp only [pvCommandOp]
        split
        · exact Follows.refl _
        · rename_i hnone
          simp only [Bool.or_eq_true, not_or] at hnone
          exact hlocal { pv with next := .wait } (str "0") (by simpa using hnone.1.1)
            (by rw [hcmd]; rfl)
    | _ => exact Follows.refl _

/-- `_pv_update` starts no update. -/
theorem follows_update (cfg : Config) (io : UpdateIo) {pv : Pv} {u : PvUpdate}
    (hu : pv.update = some u) (hs : u.status.Starting) :
    Follows ok pv.update (pvUpdate cfg io pv).update := by
  refine Follows.of_kept fun v hv => ⟨u, hu, ?_⟩
  rcases pvUpdate_cases cfg io hu hs with ⟨-, hinstalled⟩ | ⟨-, hnot⟩
  · obtain ⟨u', hu', -, hpending, -⟩ := hinstalled.update
    rw [← hpending, Option.some.inj (hu'.symm.trans hv)]
  · exact (hnot.update v hv).2.1

/-! ## Contents that match the controller -/

theorem rev_pvParserGetState {parse : Parser} {alloc : Nat} {text : Text} {rev : Rev} {l : Loaded}
    (h : pvParserGetState parse alloc text rev = some l) : l.state.rev = rev ∧ l.text = text := by
  obtain ⟨s, -, rfl⟩ := Option.map_eq_some_iff.mp h
  exact ⟨rfl, rfl⟩

/-- What holds of the contents at a step boundary. -/
structure ContentsInv (parse : Parser) (pv : Pv) (c : Contents) : Prop where
  state : pv.state = c.state.map fun l => l.state.rev
  pending : pv.update.bind (fun u => u.pending) = c.pending.map fun l => l.state.rev
  /-- the pending state is built from an accepted text -/
  accepted : ∀ p, c.pending = some p →
    p.text ∈ c.accepted ∧ ∃ alloc, pvParserGetState parse alloc p.text p.state.rev = some p

variable {parse : Parser} {cio : ContentIo} {pv pv' : Pv} {c : Contents}

theorem contentsInv_empty (hstate : pv.state = none) (hupdate : pv.update = none) :
    ContentsInv parse pv Contents.empty where
  state := hstate
  pending := by rw [hupdate]; rfl
  accepted _ h := by cases h

/-- An entry that leaves the state and what is pending keeps the invariant. -/
theorem ContentsInv.of_eq (h : ContentsInv parse pv c) (hstate : pv'.state = pv.state)
    (hpending : pv'.update.bind (fun u => u.pending) = pv.update.bind fun u => u.pending) :
    ContentsInv parse pv' c :=
  ⟨hstate.trans h.state, hpending.trans h.pending, h.accepted⟩

/-- The texts that lead to an update are accepted and can be parsed. -/
def Accepts (parse : Parser) (cio : ContentIo) (text : Rev → Text) (rev : Rev) : Prop :=
  cio.signatureVerify (text rev) = true ∧ (pvParserGetState parse cio.alloc (text rev) rev).isSome

/-- **The contents follow the update**: what is pending in them is what the
controller has pending, built from an accepted text. -/
theorem ContentsInv.follow (h : ContentsInv parse pv c) {text : Rev → Text}
    (hstate : pv'.state = pv.state)
    (hfollows : Follows (Accepts parse cio text) pv.update pv'.update) :
    ContentsInv parse pv' (c.follow parse cio text pv.update pv'.update) := by
  cases hu' : pv'.update with
  | none =>
      have hdropped : ContentsInv parse pv' { c with pending := none } :=
        ⟨hstate.trans h.state, by rw [hu']; rfl, fun _ hp => by cases hp⟩
      cases pv.update <;> exact hdropped
  | some v =>
      rcases hfollows v hu' with ⟨w, hw, hpending⟩ | ⟨hnone, rev, hrev, hverified, hparsed⟩
      · rw [hw]
        refine ⟨hstate.trans h.state, ?_, h.accepted⟩
        have hold := h.pending
        rw [hw, Option.bind_some] at hold
        rw [hu', Option.bind_some, hpending]
        exact hold
      · obtain ⟨l, hl⟩ := Option.isSome_iff_exists.mp hparsed
        obtain ⟨hlrev, hltext⟩ := rev_pvParserGetState hl
        have hfollowed : c.follow parse cio text none (some v)
            = { c with pending := some l, accepted := text rev :: c.accepted } := by
          simp only [Contents.follow, hrev, hl, hverified, if_true]
        rw [hnone, hfollowed]
        refine ⟨hstate.trans h.state, ?_, fun p hp => ?_⟩
        · rw [hu', Option.bind_some, hrev, Option.map_some, hlrev]
        · obtain rfl := Option.some.inj hp
          rw [hltext, hlrev]
          exact ⟨List.mem_cons_self, _, hl⟩

/-! ## `_pv_run` -/

/-- From the loaded state on, `_pv_run` sees the same signature and the same parse,
and runs the state that was loaded. -/
structure RanLoaded (io : StepIo) (c : Contents) (l : Loaded) (r : StepResult) : Prop where
  creds : r.io.run.creds = io.run.creds
  signature : r.io.run.signature = io.run.signature
  parse : r.io.run.parse = io.run.parse
  contents : ∃ s, s.rev = l.state.rev ∧
    r.contents = { c with state := some { l with state := s } }

theorem pvRunLoaded_ran (cio : ContentIo) (io : StepIo) (runlevel : Nat) (c : Contents)
    (l : Loaded) (calls : List RunCall) :
    RanLoaded io c l (pvRunLoaded cio io runlevel c l calls) := by
  unfold pvRunLoaded
  dsimp only
  split
  · exact ⟨rfl, rfl, rfl, l.state, rfl, rfl⟩
  · split
    · exact ⟨rfl, rfl, rfl, l.state, rfl, rfl⟩
    · refine ⟨rfl, rfl, rfl, _, ?_, rfl⟩
      cases hstart : pvPlatformsStart cio.start l.state runlevel with
      | none => rfl
      | some t => exact rev_pvPlatformsStart hstart

/-- The contents after a boot, where the state and the pending one are what the text
of the booted revision is parsed to. -/
theorem contentsInv_booted {pv₁ : Pv} {io : RunIo} {alloc : Nat} {text : Text}
    {loaded state : Option Loaded}
    (htrans : pvUpdateIsTransitioning pv₁.update = false) (hsignature : io.signature = true)
    (hloaded : pvParserGetState parse alloc text pv₁.bl.pvRev = loaded)
    (hparse : io.parse = loaded.isSome)
    (hstate : state.map (fun l => l.state.rev) = loaded.map fun l => l.state.rev)
    (accepted : List Text) :
    ContentsInv parse (pvRunLoad io pv₁)
      { state := state
        pending := if pv₁.update.isSome then loaded else none
        accepted := text :: accepted } := by
  -- the revision that the controller loads is the one of the parsed state
  have hrev : (if io.parse = true then some pv₁.bl.pvRev else none)
      = loaded.map fun l => l.state.rev := by
    rw [hparse]
    cases loaded with
    | none => rfl
    | some l => rw [Option.map_some, (rev_pvParserGetState hloaded).1]; rfl
  simp only [pvRunLoad, htrans, hsignature, Bool.false_eq_true, if_false, Bool.not_true]
  refine ⟨?_, ?_, fun p hp => ?_⟩
  · rw [hstate]
    exact hrev
  · cases pv₁.update with
    | none => rfl
    | some u => exact hrev
  · dsimp only at hp
    split at hp
    · rw [hp] at hloaded
      obtain ⟨hprev, hptext⟩ := rev_pvParserGetState hloaded
      rw [hptext, hprev]
      exact ⟨List.mem_cons_self, _, hloaded⟩
    · cases hp

/-- `_pv_run` keeps the contents in step with the controller. -/
theorem ContentsInv.run (h : ContentsInv parse pv c) {cfg : Config} {io : StepIo}
    {r : StepResult} (hr : pvRunContents parse cio io pv c = some r) :
    ContentsInv parse (pvRun cfg r.io.run pv) r.contents := by
  obtain ⟨-, -, hupdate, hstate, -⟩ := pvRun_spec cfg r.io.run pv
  obtain ⟨hkeeps, hresume⟩ := pvUpdateResume_spec io.run.creds pv
  -- what is pending is not changed by a resume: a resumed update has nothing pending
  have hpending : (pvUpdateResume io.run.creds pv).2.update.bind (fun u => u.pending)
      = c.pending.map fun l => l.state.rev := by
    rw [← h.pending]
    rcases hresume with hsame | ⟨hnone, rev, -, hnew⟩
    · rw [hsame]
    · rw [hnew, hnone]
      rfl
  suffices hload : ContentsInv parse (pvRunLoad r.io.run (pvUpdateResume r.io.run.creds pv).2)
      r.contents from hload.of_eq hstate (by rw [hupdate])
  unfold pvRunContents at hr
  dsimp only at hr
  generalize hpv₁ : (pvUpdateResume io.run.creds pv).2 = pv₁ at hr hpending hkeeps
  split at hr
  · rename_i htrans
    split at hr
    · rename_i p s hp hs
      split at hr
      · cases hr
      · rename_i t ht
        obtain rfl := Option.some.inj hr
        obtain ⟨hcreds, -, -, s', hs', hc'⟩ := pvRunLoaded_ran cio io
          (pvUpdateResume io.run.creds pv).1 c ⟨p.text, t⟩ []
        rw [hcreds, hpv₁, hc']
        simp only [pvRunLoad, htrans, if_true]
        refine ⟨?_, hpending, h.accepted⟩
        rw [hpending, hp]
        simp only [Option.map_some, hs', rev_pvStateTransfer ht]
    · cases hr
  · rename_i htrans
    rw [Bool.not_eq_true] at htrans
    split at hr
    · rename_i hsignature
      obtain rfl := Option.some.inj hr
      simp only [pvRunLoad, hpv₁, htrans, Bool.false_eq_true, if_false]
      rw [if_pos hsignature]
      exact ⟨hkeeps.state.trans h.state, hpending, h.accepted⟩
    · rename_i hsignature
      rw [Bool.not_eq_true, Bool.not_eq_false'] at hsignature
      split at hr
      · rename_i hloaded
        obtain rfl := Option.some.inj hr
        rw [hpv₁]
        exact contentsInv_booted htrans hsignature rfl rfl rfl c.accepted
      · rename_i l hloaded
        obtain rfl := Option.some.inj hr
        obtain ⟨hcreds, hsig, hparse, s', hs', hc'⟩ := pvRunLoaded_ran cio _
          (pvUpdateResume io.run.creds pv).1 _ l _
        rw [hcreds, hpv₁, hc']
        refine contentsInv_booted htrans (hsig.trans hsignature) rfl hparse ?_ c.accepted
        rw [hloaded, Option.map_some, Option.map_some, hs']

/-! ## The step of the process -/

/-- The answers of the trail are accepted and parsed as their state is. -/
theorem valid_withState (io : StepsIo) :
    (io.withState parse cio).Valid (Accepts parse cio fun _ => some cio.trailState) := by
  have hone : ∀ {answer : StepsResult} {res : StepResponse},
      answer.withState parse cio = .found res →
      res.Valid (Accepts parse cio fun _ => some cio.trailState) := by
    intro answer res h rev hrev hsignature hstate
    cases answer with
    | found res₀ =>
        obtain rfl := StepsResult.found.inj h
        refine ⟨hsignature, ?_⟩
        change (res₀.rev.any _) = true at hstate
        rw [show res₀.rev = some rev from hrev] at hstate
        exact hstate
    | error => cases h
    | empty => cases h
  intro res hres
  rcases hres with h | h | h | h <;> exact hone h

/-- `_pv_update` keeps the contents in step with the controller. -/
theorem ContentsInv.update (h : ContentsInv parse pv c) (hinv : Inv pv)
    (hnext : pv.next = .update) {cfg : Config} {io io' : StepIo} {c' : Contents}
    (hr : pvUpdateContents cfg io pv c = some (io', c')) :
    ContentsInv parse (pvUpdate cfg io'.update pv)
      (c'.follow parse cio cio.stateJson pv.update (pvUpdate cfg io'.update pv).update) := by
  obtain ⟨u, hu, hstarting⟩ := hinv.starting hnext
  have hstate : (pvUpdate cfg io'.update pv).state = pv.state := by
    rcases pvUpdate_cases cfg io'.update hu hstarting with ⟨-, hdone⟩ | ⟨-, hnot⟩
    · exact hdone.state
    · exact hnot.state
  have hsame : ContentsInv parse pv c' := by
    unfold pvUpdateContents at hr
    split at hr
    · rw [← (Prod.mk.inj (Option.some.inj hr)).2]
      exact h
    · split at hr
      · rename_i s p hs hp
        split at hr
        · cases hr
        · rename_i compared runlevel hcompare
          rw [← (Prod.mk.inj (Option.some.inj hr)).2]
          refine ⟨?_, h.pending, h.accepted⟩
          rw [h.state, hs, Option.map_some, Option.map_some]
          dsimp only
          split
          · rw [rev_pvStateCompareStates hcompare]
          · exact congrArg some (rev_pvStateCompareStates hcompare).symm
      · cases hr
  exact hsame.follow hstate (follows_update cfg io'.update hu hstarting)

theorem ContentsInv.rollback (h : ContentsInv parse pv c) :
    ContentsInv parse (pvRollback pv) c := by
  unfold pvRollback
  split
  · exact h.of_eq rfl rfl
  · refine h.of_eq (keeps_setStatus pv _).state ?_
    change (pvUpdateSetStatus pv .updateFailed).update.bind (fun u => u.pending) = _
    rw [update_setStatus]
    cases pv.update <;> rfl

/-- **A step of the process keeps the contents in step with the controller.** -/
theorem ContentsInv.step (h : ContentsInv parse pv c) (hinv : Inv pv) {cfg : Config}
    {io : StepIo} {r : StepResult} (hr : stepContents parse cfg io cio pv c = some r) :
    ContentsInv parse (pvRunState cfg r.io pv) r.contents := by
  unfold stepContents at hr
  unfold pvRunState
  cases hnext : pv.next with
  | run =>
      rw [hnext] at hr
      exact h.run hr
  | wait =>
      rw [hnext] at hr
      obtain rfl := Option.some.inj hr
      refine h.follow ?_ (follows_wait cfg (valid_withState _) pv)
      rcases pvWait_spec cfg _ pv with ⟨-, _, -, heq⟩ | ⟨-, _, _, heq, -⟩
      · rw [heq]
      · rw [heq]
        exact (pvWaitOps_spec cfg _ pv).1.state
  | command =>
      rw [hnext] at hr
      obtain rfl := Option.some.inj hr
      refine h.follow (pvCommand_spec _ pv).state (follows_command pv fun rev hrev hs hp => ?_)
      rw [hrev] at hs hp
      exact ⟨hs, hp⟩
  | update =>
      rw [hnext] at hr
      dsimp only at hr
      split at hr
      · cases hr
      · rename_i hupdate
        obtain rfl := Option.some.inj hr
        exact h.update hinv hnext hupdate
  | rollback =>
      rw [hnext] at hr
      obtain rfl := Option.some.inj hr
      exact h.rollback
  | _ =>
      rw [hnext] at hr
      obtain rfl := Option.some.inj hr
      exact h.of_eq rfl rfl

/-! ## The runs of the device -/

/-- The contents match the controller, where there is one. -/
def LoadedInv (parse : Parser) (d : LoadedDevice) : Prop :=
  ∀ pv, d.device.ram = some pv → ContentsInv parse pv d.contents

theorem ContentsInv.atStep (h : ContentsInv parse pv c) (env : List (CStr × CStr)) :
    ContentsInv parse (pv.atStep env) c := ⟨h.state, h.pending, h.accepted⟩

theorem LoadedInv.step (cfg : Config) {d : LoadedDevice} (h : LoadedInv parse d)
    (hinv : DeviceInv d.device) (e : LoadedEvent) :
    LoadedInv parse (d.step parse cfg e) := by
  obtain ⟨e, cio⟩ := e
  intro pv' hpv'
  cases hram : d.device.ram with
  | none =>
      cases e with
      | boot unclaimed =>
          simp only [LoadedDevice.step, LoadedDevice.event, Device.step, hram] at hpv' ⊢
          rw [← Option.some.inj hpv']
          exact contentsInv_empty rfl rfl
      | step io =>
          simp only [LoadedDevice.step, LoadedDevice.event, LoadedDevice.result, Event.stepIo, hram,
            Device.step] at hpv'
          cases hpv'
      | powerLoss io writes =>
          simp only [LoadedDevice.step, LoadedDevice.event, LoadedDevice.result, Event.stepIo, hram,
            Device.step] at hpv'
          cases hpv'
  | some pv =>
      cases e with
      | boot unclaimed =>
          simp only [LoadedDevice.step, LoadedDevice.event, Device.step, hram] at hpv' ⊢
          rw [← Option.some.inj hpv']
          exact h pv hram
      | step io =>
          simp only [LoadedDevice.step, LoadedDevice.event, LoadedDevice.result, Event.stepIo, hram,
            Device.step] at hpv' ⊢
          cases hr : stepContents parse cfg io cio (pv.atStep d.device.flash.env) d.contents with
          | none =>
              rw [hr] at hpv'
              cases hpv'
          | some r =>
              rw [hr] at hpv'
              dsimp only at hpv' ⊢
              split at hpv'
              · cases hpv'
              · rw [← Option.some.inj hpv']
                exact ((h pv hram).atStep _).step ((hinv pv hram).atStep _) hr
      | powerLoss io writes =>
          cases hr : d.result parse cfg ⟨.powerLoss io writes, cio⟩ with
          | none =>
              simp only [LoadedDevice.step, LoadedDevice.event, hr, Device.step, hram] at hpv'
              cases hpv'
          | some r =>
              simp only [LoadedDevice.step, LoadedDevice.event, hr, Device.step, hram] at hpv'
              cases hpv'

/-- The controller of the device runs as `deviceSystem`, with the contents in step
with it. -/
theorem loaded_of_reachable {cfg : Config} {d : LoadedDevice}
    (h : (loadedSystem parse cfg).Reachable d) :
    (deviceSystem cfg).Reachable d.device ∧ LoadedInv parse d := by
  induction h with
  | init hinit =>
      refine ⟨.init hinit.1, fun pv hpv => ?_⟩
      rw [hinit.1.1] at hpv
      cases hpv
  | step _ e ih =>
      exact ⟨ih.1.step _, ih.2.step cfg (deviceInv_of_reachable ih.1) e⟩

/-! ## The calls of `_pv_run` -/

/-- Every object and every json of a state passes its checks. -/
structure Checked (checks : Checks) (s : PvState) : Prop where
  objects : ∀ o ∈ s.objects, checks.trailsObject s.rev o.name o.id = true ∧
    checks.objectsObject o.id = true
  jsons : ∀ j ∈ s.jsons, checks.trailsJson s.rev j.name j.value = true

theorem validateObjects_iff (checks : Checks) (rev : Rev) (os : List PvObject) :
    validateObjects checks rev os = true ↔
      ∀ o ∈ os, checks.trailsObject rev o.name o.id = true ∧ checks.objectsObject o.id = true := by
  induction os with
  | nil => simp [validateObjects]
  | cons o os ih =>
      rw [List.forall_mem_cons, ← ih, validateObjects]
      cases checks.trailsObject rev o.name o.id <;> cases checks.objectsObject o.id <;> simp

theorem validateJsons_iff (checks : Checks) (rev : Rev) (js : List PvJson) :
    validateJsons checks rev js = true ↔
      ∀ j ∈ js, checks.trailsJson rev j.name j.value = true := by
  induction js with
  | nil => simp [validateJsons]
  | cons j js ih =>
      rw [List.forall_mem_cons, ← ih, validateJsons]
      cases checks.trailsJson rev j.name j.value <;> simp

/-- **The loops of `pv_state_validate_checksum`** check all of a state. -/
theorem pvStateValidateChecksum_iff (checks : Checks) (s : PvState) :
    pvStateValidateChecksum checks s = true ↔ Checked checks s := by
  unfold pvStateValidateChecksum
  constructor
  · intro h
    split at h
    · cases h
    · rename_i hobjects
      exact ⟨(validateObjects_iff _ _ _).mp (by simpa using hobjects),
        (validateJsons_iff _ _ _).mp h⟩
  · intro h
    rw [(validateObjects_iff _ _ _).mpr h.objects]
    exact (validateJsons_iff _ _ _).mpr h.jsons

/-- What the state that `_pv_run` runs is built from: the JSON of the booted
revision, or the pending state and the one that runs. -/
inductive BuiltFrom (parse : Parser) (cio : ContentIo) (pv : Pv) (c : Contents) (l : Loaded) :
    Prop where
  | booted (h : pvParserGetState parse cio.alloc (cio.stateJson pv.cmdline.rev) pv.cmdline.rev = some l)
  | transition (p s : Loaded) (alloc : Nat) (hpending : c.pending = some p) (hstate : c.state = some s)
      (hparsed : pvParserGetState parse alloc p.text p.state.rev = some p) (htext : l.text = p.text)
      (htransfer : pvStateTransfer p.state s.state = some l.state)

/-- The state `l` is verified when it is run after the calls `before`. -/
structure Verified (parse : Parser) (cio : ContentIo) (pv : Pv) (c : Contents)
    (before : List RunCall) (l : Loaded) : Prop where
  built : BuiltFrom parse cio pv c l
  accepted : l.text ∈ c.accepted ∨ .verify l.text true ∈ before
  validated : .validate l true ∈ before
  checked : Checked cio.checks l.state

/-- The calls that load the state `l`, whose text is accepted by them or was before. -/
def LoadCalls (c : Contents) (l : Loaded) (calls : List RunCall) : Prop :=
  calls = [] ∧ l.text ∈ c.accepted ∨ calls = [.verify l.text true]

/-- The calls of `_pv_run`, with what the controller sees of them. -/
inductive Ran (parse : Parser) (cio : ContentIo) (pv : Pv) (c : Contents) (r : StepResult) :
    Prop where
  | rejected (text : Text) (hcalls : r.calls = [.verify text false])
      (hnext : ∀ cfg, (pvRun cfg r.io.run pv).next = .rollback)
  | unparsed (text : Text) (hcalls : r.calls = [.verify text true])
  | invalid (l : Loaded) (load : List RunCall) (hload : LoadCalls c l load)
      (hcalls : r.calls = load ++ [.validate l false])
      (hnext : ∀ cfg, (pvRun cfg r.io.run pv).next = .rollback)
  | valid (l : Loaded) (load : List RunCall) (hload : LoadCalls c l load)
      (hbuilt : BuiltFrom parse cio pv c l) (hchecked : Checked cio.checks l.state)
      (hcalls : r.calls = load ++ [.validate l true, .mount l] ∨
        r.calls = load ++ [.validate l true, .mount l, .start l])

/-- A failed check ends `_pv_run` in a rollback. -/
theorem next_pvRun_of_checksum (cfg : Config) {io : RunIo} (h : io.checksum = false) (pv : Pv) :
    (pvRun cfg io pv).next = .rollback := by
  unfold pvRun
  dsimp only
  split
  · rfl
  · rw [h, Bool.not_false, Bool.or_true, if_pos rfl]

/-- A rejected signature ends `_pv_run` in a rollback. -/
theorem next_pvRun_of_signature (cfg : Config) {io : RunIo} (h : io.signature = false)
    (htrans : pvUpdateIsTransitioning (pvUpdateResume io.creds pv).2.update = false) :
    (pvRun cfg io pv).next = .rollback := by
  unfold pvRun
  dsimp only
  split
  · rfl
  · rw [htrans, h, Bool.or_false, Bool.not_false, Bool.true_or, if_pos rfl]

/-- The calls from the loaded state on. -/
theorem ran_pvRunLoaded (io : StepIo) (runlevel : Nat) {c' : Contents} {l : Loaded}
    {load : List RunCall} (hload : LoadCalls c l load) (hbuilt : BuiltFrom parse cio pv c l) :
    Ran parse cio pv c (pvRunLoaded cio io runlevel c' l load) := by
  unfold pvRunLoaded
  dsimp only
  split
  · rename_i hok
    rw [Bool.not_eq_true'] at hok
    exact .invalid l load hload (by rw [hok]) fun cfg => next_pvRun_of_checksum cfg hok pv
  · rename_i hok
    rw [Bool.not_eq_true, Bool.not_eq_false'] at hok
    have hchecked := (pvStateValidateChecksum_iff _ _).mp hok
    split
    · refine .valid l load hload hbuilt hchecked (Or.inl ?_)
      rw [hok, List.append_assoc, List.singleton_append]
    · refine .valid l load hload hbuilt hchecked (Or.inr ?_)
      rw [hok, List.append_assoc, List.singleton_append]

/-- **The calls of `_pv_run`** in a run of the device. -/
theorem pvRunContents_ran (h : ContentsInv parse pv c) (hinv : Inv pv) (hnext : pv.next = .run)
    {io : StepIo} {r : StepResult} (hr : pvRunContents parse cio io pv c = some r) :
    Ran parse cio pv c r := by
  obtain ⟨hkeeps, hresume⟩ := pvUpdateResume_spec io.run.creds pv
  unfold pvRunContents at hr
  dsimp only at hr
  split at hr
  · split at hr
    · rename_i p s hp hs
      split at hr
      · cases hr
      · rename_i t ht
        obtain rfl := Option.some.inj hr
        obtain ⟨haccepted, alloc, hparsed⟩ := h.accepted p hp
        exact ran_pvRunLoaded io _ (Or.inl ⟨rfl, haccepted⟩) 
          (.transition p s alloc hp hs hparsed rfl ht)
    · cases hr
  · rename_i htrans
    rw [Bool.not_eq_true] at htrans
    -- an update that was there is in transition, so this is the first run of a boot
    have hrev : (pvUpdateResume io.run.creds pv).2.bl.pvRev = pv.cmdline.rev := by
      rw [hkeeps.bl]
      refine (hinv.fresh (Or.inr hnext) ?_).1
      rcases hresume with hsame | ⟨hnone, -⟩
      · cases hu : pv.update with
        | none => rfl
        | some u =>
            rw [hsame, hu] at htrans
            simp [pvUpdateIsTransitioning, hinv.rerun hnext u hu] at htrans
      · exact hnone
    rw [hrev] at hr
    split at hr
    · rename_i hsignature
      obtain rfl := Option.some.inj hr
      rw [Bool.not_eq_true'] at hsignature
      exact .rejected _ (by rw [hsignature]) fun cfg => next_pvRun_of_signature cfg hsignature htrans
    · rename_i hsignature
      rw [Bool.not_eq_true, Bool.not_eq_false'] at hsignature
      split at hr
      · obtain rfl := Option.some.inj hr
        exact .unparsed _ (by rw [hsignature])
      · rename_i l hloaded
        obtain rfl := Option.some.inj hr
        refine ran_pvRunLoaded _ _ (Or.inr ?_) (.booted hloaded)
        rw [hsignature, (rev_pvParserGetState hloaded).2]

/-- The calls show a check that failed. -/
def Rejects (calls : List RunCall) : Prop :=
  (∃ text, .verify text false ∈ calls) ∨ ∃ l, .validate l false ∈ calls

/-- What loads a state mounts, starts and rejects nothing. -/
theorem LoadCalls.quiet {l : Loaded} {load : List RunCall} (h : LoadCalls c l load) (l' : Loaded) :
    .mount l' ∉ load ∧ .start l' ∉ load ∧ ¬ Rejects load := by
  rcases h with ⟨rfl, -⟩ | rfl
  · simp [Rejects]
  · simp [Rejects]

/-- What comes first in a list, and does not have `x`, is all before `x`. -/
theorem mem_before {α : Type} {x : α} {first rest before after : List α} (hx : x ∉ first)
    (h : first ++ rest = before ++ x :: after) : ∀ y ∈ first, y ∈ before := by
  induction first generalizing before with
  | nil => simp
  | cons a first ih =>
      cases before with
      | nil =>
          obtain rfl : a = x := (List.cons.inj h).1
          exact absurd List.mem_cons_self hx
      | cons b before =>
          obtain ⟨hhead, htail⟩ := List.cons.inj h
          have hlater := ih (fun hmem => hx (List.mem_cons_of_mem _ hmem)) htail
          intro y hy
          rcases List.mem_cons.mp hy with rfl | hy
          · rw [hhead]
            exact List.mem_cons_self
          · exact List.mem_cons_of_mem _ (hlater y hy)

/-- A state that is run after the calls `before` is the one that was loaded, with its
checks among `before`. -/
theorem LoadCalls.split {l l' : Loaded} {load runs before after : List RunCall} {call : RunCall}
    (h : LoadCalls c l load) (hcall : call = .mount l' ∨ call = .start l')
    (hruns : runs = [.mount l] ∨ runs = [.mount l, .start l])
    (hsplit : load ++ .validate l true :: runs = before ++ call :: after) :
    l' = l ∧ .validate l true ∈ before ∧ ∀ x ∈ load, x ∈ before := by
  obtain ⟨hmount, hstart, -⟩ := h.quiet l'
  have hfirst : call ∉ load ++ [.validate l true] := by
    rcases hcall with rfl | rfl
    · simp [hmount]
    · simp [hstart]
  have hassoc : (load ++ [.validate l true]) ++ runs = before ++ call :: after := by
    rw [List.append_assoc]
    exact hsplit
  have hbefore := mem_before hfirst hassoc
  refine ⟨?_, hbefore _ (by simp), fun x hx => hbefore x (by simp [hx])⟩
  have hmem : call ∈ runs := by
    have hall : call ∈ (load ++ [.validate l true]) ++ runs := by
      rw [hassoc]
      simp
    exact (List.mem_append.mp hall).resolve_left hfirst
  rcases hcall with rfl | rfl
  · rcases hruns with rfl | rfl <;> simpa using hmem
  · rcases hruns with rfl | rfl
    · simp at hmem
    · simpa using hmem

/-- What `_pv_run` mounts or starts is verified by the calls before. -/
theorem Ran.verified {r : StepResult} (h : Ran parse cio pv c r) {before after : List RunCall}
    {call : RunCall} {l : Loaded} (hcall : call = .mount l ∨ call = .start l)
    (hsplit : r.calls = before ++ call :: after) : Verified parse cio pv c before l := by
  have hmem : call ∈ r.calls := by rw [hsplit]; simp
  cases h with
  | rejected text hcalls _ =>
      rw [hcalls] at hmem
      rcases hcall with rfl | rfl <;> simp at hmem
  | unparsed text hcalls =>
      rw [hcalls] at hmem
      rcases hcall with rfl | rfl <;> simp at hmem
  | invalid l' load hload hcalls _ =>
      obtain ⟨hmount, hstart, -⟩ := hload.quiet l
      rw [hcalls] at hmem
      rcases hcall with rfl | rfl <;> simp_all
  | valid l' load hload hbuilt hchecked hcalls =>
      obtain ⟨runs, hruns, hcalls⟩ : ∃ runs, (runs = [.mount l'] ∨ runs = [.mount l', .start l']) ∧
          r.calls = load ++ .validate l' true :: runs := by
        rcases hcalls with h | h
        · exact ⟨_, Or.inl rfl, h⟩
        · exact ⟨_, Or.inr rfl, h⟩
      obtain ⟨rfl, hvalidated, hbefore⟩ := hload.split hcall hruns (hcalls.symm.trans hsplit)
      refine ⟨hbuilt, ?_, hvalidated, hchecked⟩
      rcases hload with ⟨-, haccepted⟩ | rfl
      · exact Or.inl haccepted
      · exact Or.inr (hbefore _ List.mem_cons_self)

/-- A check that fails keeps `_pv_run` from mounting and starting, and ends it in a
rollback. -/
theorem Ran.rollback {r : StepResult} (h : Ran parse cio pv c r) (hrejects : Rejects r.calls) :
    (∀ l, .mount l ∉ r.calls ∧ .start l ∉ r.calls) ∧
      ∀ cfg, (pvRun cfg r.io.run pv).next = .rollback := by
  cases h with
  | rejected text hcalls hnext =>
      rw [hcalls]
      exact ⟨fun l => by simp, hnext⟩
  | unparsed text hcalls => simp [hcalls, Rejects] at hrejects
  | invalid l load hload hcalls hnext =>
      refine ⟨fun l' => ?_, hnext⟩
      obtain ⟨hmount, hstart, -⟩ := hload.quiet l'
      rw [hcalls]
      exact ⟨by simp [hmount], by simp [hstart]⟩
  | valid l load hload hbuilt hchecked hcalls =>
      obtain ⟨-, -, hquiet⟩ := hload.quiet l
      refine absurd ?_ hquiet
      rcases hcalls with hcalls | hcalls
      · simpa [hcalls, Rejects] using hrejects
      · simpa [hcalls, Rejects] using hrejects

/-- The entries of the state table other than RUN make no call of `_pv_run`. -/
theorem calls_stepContents {cfg : Config} {io : StepIo} {r : StepResult}
    (hr : stepContents parse cfg io cio pv c = some r) :
    r.calls = [] ∨ pv.next = .run ∧ pvRunContents parse cio io pv c = some r := by
  unfold stepContents at hr
  split at hr
  · rename_i hnext
    exact Or.inr ⟨hnext, hr⟩
  · exact Or.inl (by rw [← Option.some.inj hr])
  · exact Or.inl (by rw [← Option.some.inj hr])
  · split at hr
    · cases hr
    · exact Or.inl (by rw [← Option.some.inj hr])
  · exact Or.inl (by rw [← Option.some.inj hr])

/-- A step with calls is one of a process at RUN. -/
theorem ran_of_reachable {cfg : Config} {d : LoadedDevice}
    (h : (loadedSystem parse cfg).Reachable d) (e : LoadedEvent) :
    d.calls parse cfg e = [] ∨ ∃ io pv r, e.event.stepIo = some io ∧ d.device.ram = some pv ∧
      d.result parse cfg e = some r ∧ d.calls parse cfg e = r.calls ∧
      pv.next = .run ∧ Ran parse e.cio (pv.atStep d.device.flash.env) d.contents r := by
  obtain ⟨hreach, hinv⟩ := loaded_of_reachable h
  unfold LoadedDevice.calls
  cases hr : d.result parse cfg e with
  | none => exact Or.inl rfl
  | some r =>
      have hresult := hr
      unfold LoadedDevice.result at hresult
      split at hresult
      · rename_i io pv hio hram
        rcases calls_stepContents hresult with hnone | ⟨hnext, hrun⟩
        · exact Or.inl hnone
        · refine Or.inr ⟨io, pv, r, hio, hram, rfl, rfl, hnext, ?_⟩
          exact pvRunContents_ran ((hinv pv hram).atStep _)
            ((deviceInv_of_reachable hreach pv hram).atStep _) hnext hrun
      · cases hresult

/-- **Nothing starts unverified.** In every run, a state that `_pv_run` mounts or
starts is built from the JSON of the booted revision, or from the pending state,
that `pv_signature_verify` accepted in this boot, and all its objects and jsons
passed `pv_state_validate_checksum` in the same `_pv_run` before the call. If a check
fails, nothing is mounted or started, and the step ends in a rollback. -/
theorem nothing_starts_unverified (parse : Parser) (cfg : Config) {d : LoadedDevice}
    (h : (loadedSystem parse cfg).Reachable d) (e : LoadedEvent) :
    (∀ before after call l, call = .mount l ∨ call = .start l →
      d.calls parse cfg e = before ++ call :: after →
      ∃ pv, d.device.ram = some pv ∧ Verified parse e.cio pv d.contents before l) ∧
    (Rejects (d.calls parse cfg e) →
      (∀ l, .mount l ∉ d.calls parse cfg e ∧ .start l ∉ d.calls parse cfg e) ∧
      ∀ io, e.event = .step io →
        ∃ pv, (d.step parse cfg e).device.ram = some pv ∧ pv.next = .rollback) := by
  rcases ran_of_reachable h e with hnone | ⟨io, pv, r, hio, hram, hr, hcalls, hnext, hran⟩
  · rw [hnone]
    refine ⟨fun before after call l _ hsplit => ?_, fun hrejects => ?_⟩
    · cases before <;> cases hsplit
    · simp [Rejects] at hrejects
  · rw [hcalls]
    constructor
    · intro before after call l hcall hsplit
      have hv := hran.verified hcall hsplit
      refine ⟨pv, hram, ?_, hv.accepted, hv.validated, hv.checked⟩
      cases hv.built with
      | booted hparsed => exact .booted hparsed
      | transition p s alloc hp hs hparsed htext ht =>
          exact .transition p s alloc hp hs hparsed htext ht
    · intro hrejects
      obtain ⟨hquiet, hrollback⟩ := hran.rollback hrejects
      refine ⟨hquiet, fun io' hstep => ?_⟩
      obtain ⟨event, cio⟩ := e
      obtain rfl : event = .step io' := hstep
      have hdown : (d.device.process cfg r.io pv).next = .rollback := by
        have hrun : d.device.process cfg r.io pv
            = pvRun cfg r.io.run (pv.atStep d.device.flash.env) := by
          simp only [Device.process, pvRunState, Pv.atStep, hnext]
        rw [hrun]
        exact hrollback cfg
      refine ⟨d.device.process cfg r.io pv, ?_, hdown⟩
      simp only [LoadedDevice.step, LoadedDevice.event, hr, Device.step, hram, hdown]
      rfl

/-- The text of a state with one container. -/
def appText : CStr := str "\x7b\"app/run.json\":\x7b\x7d,\"app/root.squashfs\":\"5e21\"\x7d"

/-- Its container, at the place that a parse gives it. -/
def appPlatform (alloc : Nat) : Platform where
  addr := ⟨alloc, 0⟩
  name := str "app"
  type := some (str "lxc")
  config := some (str "lxc.container.conf")
  initPid := -1
  status := .installed
  runlevel := runlevelRoot
  mgmt := true
  updated := false

/-- The state of the text, with its container, the volume's object and the run.json. -/
def appState (alloc : Nat) (rev : CStr) : PvState :=
  { pvStateNew alloc rev .system1 with
    platforms := [appPlatform alloc]
    objects := [⟨str "app/root.squashfs", str "5e21", str "objects/5e21",
      str "trails/app/root.squashfs", some ⟨alloc, 0⟩⟩]
    jsons := [⟨str "app/run.json", str "\x7b\x7d", some ⟨alloc, 0⟩⟩] }

/-- A parser that finds the state of that one text. -/
def appParser : Parser := fun alloc text rev =>
  if text = appText then some (appState alloc rev) else none

/-- Contents whose files are those of the state: every check finds the one name and the
one checksum that it asks for, and only `appText` is signed. -/
def ContentIo.ofApp : ContentIo where
  alloc := 0
  stateJson _ := some appText
  trailState := []
  signatureVerify text := decide (text = some appText)
  checks :=
    { trailsObject _ name id := decide (name = str "app/root.squashfs" ∧ id = str "5e21")
      objectsObject id := decide (id = str "5e21")
      trailsJson _ name value := decide (name = str "app/run.json" ∧ value = str "\x7b\x7d") }
  start p := if p.name = str "app" then some 42 else none

/-- A device that has booted revision 1 and is about to run it. -/
def bootedDevice : LoadedDevice :=
  (loadedSystem appParser Config.unattended).run
    ⟨⟨⟨[(str "pv_rev", str "1")], false⟩, none⟩, Contents.empty⟩
    [⟨.boot false, ContentIo.ofApp⟩, ⟨.step StepIo.ok, ContentIo.ofApp⟩]

/-- What it runs. -/
def bootedState : Loaded := ⟨some appText, appState 0 (str "1")⟩

/-- The first run of a boot makes all four calls, with the container, its object and its
json in the state. -/
theorem nothing_starts_unverified_booted :
    bootedDevice.calls appParser Config.unattended ⟨.step StepIo.ok, ContentIo.ofApp⟩
        = [.verify (some appText) true, .validate bootedState true, .mount bootedState,
          .start bootedState] ∧
      ∃ pv, bootedDevice.device.ram = some pv ∧
        Verified appParser ContentIo.ofApp pv bootedDevice.contents
          [.verify (some appText) true, .validate bootedState true, .mount bootedState]
          bootedState := by
  have hreach : (loadedSystem appParser Config.unattended).Reachable bootedDevice := by
    refine System.Reachable.run (.init ?_) _
    exact ⟨⟨rfl, rfl⟩, rfl⟩
  have hcalls : bootedDevice.calls appParser Config.unattended ⟨.step StepIo.ok, ContentIo.ofApp⟩
      = [.verify (some appText) true, .validate bootedState true, .mount bootedState,
        .start bootedState] := by decide +kernel
  exact ⟨hcalls, (nothing_starts_unverified appParser Config.unattended hreach
    ⟨.step StepIo.ok, ContentIo.ofApp⟩).1 _ [] _ bootedState (Or.inr rfl) hcalls⟩

end Pantavisor.Controller
