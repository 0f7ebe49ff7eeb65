/-
Pantavisor.Controller.MachineTheorems — what each function of the controller
can do, once, and the invariant of the process.

`Keeps` is the frame that most functions share. `finishUpdate_eq` gives the
writes, the result and the state of `pv_update_finish`; the lemmas behind it
do the same for the entries of the state table. `Inv` holds of the process at
every step boundary (`pvRunState_inv`), and `pvRunState_writes` says which
writes a step can make to the boot environment: an install, a failed update,
a commit, or none.
-/
import Pantavisor.Controller.Machine

namespace Pantavisor.Controller

open Pantavisor.Lib Pantavisor.Bootloader

/-- The keys of the environment that the controller uses. -/
def keyRev : CStr := str "pv_rev"

def keyTry : CStr := str "pv_try"

theorem keyRev_ne_keyTry : keyRev ≠ keyTry := by decide

/-! ## The boot loader module over the controller's environment -/

/-- The writes of a commit. -/
def commitWrites (io : CommitIo Bool) (rev : Rev) : List (KeyOp CStr CStr) :=
  if io.setRev then .set keyRev rev :: (if io.unsetTry then [.unset keyTry] else []) else []

/-- A list of writes, one after the other. -/
def NvEnv.writeAll (nv : NvEnv) (ops : List (KeyOp CStr CStr)) : NvEnv := ops.foldl NvEnv.write nv

theorem NvEnv.writes_writeAll (ops : List (KeyOp CStr CStr)) (nv : NvEnv) :
    (nv.writeAll ops).writes = nv.writes ++ ops := by
  induction ops generalizing nv with
  | nil => simp [NvEnv.writeAll]
  | cons op ops ih =>
      have hrec := ih (nv.write op)
      simp only [NvEnv.writeAll, List.foldl_cons] at hrec ⊢
      rw [hrec]
      simp [NvEnv.write]

/-- A commit over the controller's environment: the writes that succeed, and 0
exactly when both do. -/
theorem setCommited_envOps (io : CommitIo Bool) (bl : PvBootloader) (nv : NvEnv) (rev : Rev) :
    ∃ bl', Id.run (pvBootloaderSetCommited envOps io bl nv rev)
      = (if io.setRev && io.unsetTry then 0 else 1, bl', nv.writeAll (commitWrites io rev)) := by
  obtain ⟨setRev, unsetTry, flush⟩ := io
  cases setRev <;> cases unsetTry <;> exact ⟨_, rfl⟩

/-- A failed update over the controller's environment. -/
theorem setFailed_envOps (io : Bool) (bl : PvBootloader) (nv : NvEnv) :
    Id.run (pvBootloaderSetFailed envOps io bl nv)
      = (if io then 0 else -1, { bl with pvTry := none },
          nv.writeAll (if io then [.unset keyTry] else [])) := by
  cases io <;> rfl

/-- An installed revision over the controller's environment. -/
theorem setInstalled_envOps (io : Bool) (bl : PvBootloader) (nv : NvEnv) (rev : Rev) :
    Id.run (pvBootloaderSetInstalled envOps io bl nv rev)
      = (if io then 0 else -1, { bl with pvTry := some rev },
          nv.writeAll (if io then [.set keyTry rev] else [])) := by
  cases io <;> rfl

/-! ## The frame -/

/-- What most functions leave alone: everything but the update, the reports and
`synced`. -/
structure Keeps (pv pv' : Pv) : Prop where
  cmdline : pv'.cmdline = pv.cmdline
  bl : pv'.bl = pv.bl
  nv : pv'.nv = pv.nv
  next : pv'.next = pv.next
  state : pv'.state = pv.state
  cmd : pv'.cmd = pv.cmd
  remoteMode : pv'.remoteMode = pv.remoteMode
  unclaimed : pv'.unclaimed = pv.unclaimed
  timerCommit : pv'.timerCommit = pv.timerCommit

theorem Keeps.refl (pv : Pv) : Keeps pv pv := ⟨rfl, rfl, rfl, rfl, rfl, rfl, rfl, rfl, rfl⟩

theorem Keeps.trans {a b c : Pv} (h : Keeps a b) (h' : Keeps b c) : Keeps a c where
  cmdline := h'.cmdline.trans h.cmdline
  bl := h'.bl.trans h.bl
  nv := h'.nv.trans h.nv
  next := h'.next.trans h.next
  state := h'.state.trans h.state
  cmd := h'.cmd.trans h.cmd
  remoteMode := h'.remoteMode.trans h.remoteMode
  unclaimed := h'.unclaimed.trans h.unclaimed
  timerCommit := h'.timerCommit.trans h.timerCommit

theorem keeps_report (pv : Pv) (u : PvUpdate) (status : UpdateState) :
    Keeps pv (pv.report u status) := ⟨rfl, rfl, rfl, rfl, rfl, rfl, rfl, rfl, rfl⟩

theorem keeps_update (pv : Pv) (u : Option PvUpdate) : Keeps pv { pv with update := u } :=
  ⟨rfl, rfl, rfl, rfl, rfl, rfl, rfl, rfl, rfl⟩

theorem keeps_setStatus (pv : Pv) (status : UpdateState) :
    Keeps pv (pvUpdateSetStatus pv status) := by
  rw [pvUpdateSetStatus]
  split
  · exact Keeps.refl pv
  · exact (keeps_report _ _ _).trans (keeps_update _ _)

/-- Setting the status changes the status. -/
theorem update_setStatus (pv : Pv) (status : UpdateState) :
    (pvUpdateSetStatus pv status).update
      = pv.update.map fun u => { u with status := status } := by
  cases h : pv.update <;> simp [pvUpdateSetStatus, h]

theorem keeps_test (pv : Pv) : Keeps pv (pvUpdateTest pv) := by
  rw [pvUpdateTest]
  split
  · exact Keeps.refl pv
  · split
    · exact keeps_setStatus _ _
    · exact keeps_setStatus _ _
    · exact Keeps.refl pv

/-! ## Finish -/

/-- The writes of `pv_update_finish`. -/
def finishWrites (io : FinishIo Bool) (pv : Pv) : List (KeyOp CStr CStr) :=
  match pv.update with
  | none => []
  | some u =>
    match u.status with
    | .updateFailed => if io.setFailed then [.unset keyTry] else []
    | .updateTestingReboot => commitWrites io.setCommited pv.stateRev
    | _ => []

/-- The update that `pv_update_finish` leaves: one that waits for its next
download, or one whose commit failed. -/
def finishLeaves (cfg : Config) (io : FinishIo Bool) (u : PvUpdate) : Bool :=
  match u.status with
  | .updateRetryDownload => !decide (u.retries > cfg.revisionRetries)
  | .updateTestingReboot => !(io.setCommited.setRev && io.setCommited.unsetTry)
  | _ => false

/-- What `pv_update_finish` does: its writes, what it leaves of the update, and
the error it returns exactly when a commit fails. -/
structure Finished (cfg : Config) (io : FinishIo Bool) (pv : Pv) (ret : Int) (pv' : Pv) :
    Prop where
  cmdline : pv'.cmdline = pv.cmdline
  next : pv'.next = pv.next
  state : pv'.state = pv.state
  nv : pv'.nv = pv.nv.writeAll (finishWrites io pv)
  update : pv'.update = pv.update.filter (finishLeaves cfg io)
  ret : ret < 0 ↔ ∃ u, pv.update = some u ∧ u.status = .updateTestingReboot ∧
    finishLeaves cfg io u = true

/-- A finish that reports a status and removes the update. -/
theorem finished_remove {cfg : Config} {io : FinishIo Bool} {pv : Pv} {u : PvUpdate}
    (hu : pv.update = some u) (hleaves : finishLeaves cfg io u = false) (bl : PvBootloader)
    (status : UpdateState) :
    Finished cfg io pv 0 { pvUpdateRemove (pvUpdateSetStatus { pv with bl := bl } status) with
      nv := pv.nv.writeAll (finishWrites io pv) } := by
  have hk := keeps_setStatus { pv with bl := bl } status
  exact {
    cmdline := hk.cmdline
    next := hk.next
    state := hk.state
    nv := rfl
    update := by simp [pvUpdateRemove, hu, Option.filter_some, hleaves]
    ret := by simp [hu, hleaves] }

/-- **What `pv_update_finish` does**, whatever the update is at. -/
theorem finishUpdate_spec (cfg : Config) (io : FinishIo Bool) (pv : Pv) :
    Finished cfg io pv (finishUpdate cfg io pv).1 (finishUpdate cfg io pv).2 := by
  cases hu : pv.update with
  | none =>
      have heq : finishUpdate cfg io pv = (0, pv) := by
        unfold finishUpdate pvUpdateFinish
        rw [hu]
        rfl
      rw [heq]
      constructor <;> simp [finishWrites, hu, NvEnv.writeAll]
  | some u =>
      -- no write: the update is removed with a report
      have hquiet : ∀ status, finishWrites io pv = [] → finishLeaves cfg io u = false →
          finishUpdate cfg io pv = (0, pvUpdateRemove (pvUpdateSetStatus pv status)) →
          Finished cfg io pv (finishUpdate cfg io pv).1 (finishUpdate cfg io pv).2 := by
        intro status hw hl heq
        have hk := keeps_setStatus pv status
        have hfin := finished_remove hu hl pv.bl status
        rw [heq]
        exact { hfin with nv := by rw [hw]; exact hk.nv }
      cases hs : u.status with
      | updateFailed =>
          have hw : finishWrites io pv = if io.setFailed then [.unset keyTry] else [] := by
            simp [finishWrites, hu, hs]
          have heq : finishUpdate cfg io pv = (0,
              { pvUpdateRemove (pvUpdateSetStatus { pv with bl := { pv.bl with pvTry := none } }
                .updateFailed) with nv := pv.nv.writeAll (finishWrites io pv) }) := by
            simp [finishUpdate, pvUpdateFinish, hu, hs, setFailed_envOps, hw]
          rw [heq]
          exact finished_remove hu (by simp [finishLeaves, hs]) _ _
      | updateTestingReboot =>
          have hw : finishWrites io pv = commitWrites io.setCommited pv.stateRev := by
            simp [finishWrites, hu, hs]
          obtain ⟨bl', hcommit⟩ := setCommited_envOps io.setCommited pv.bl pv.nv pv.stateRev
          cases hok : io.setCommited.setRev && io.setCommited.unsetTry with
          | true =>
              have heq : finishUpdate cfg io pv = (0,
                  { pvUpdateRemove (pvUpdateSetStatus { pv with bl := bl' } .updateDone) with
                      nv := pv.nv.writeAll (finishWrites io pv) }) := by
                simp only [finishUpdate, pvUpdateFinish, hu, hs, hw, Id.run_bind, hcommit, hok]
                rfl
              rw [heq]
              exact finished_remove hu (by simp [finishLeaves, hs, hok]) _ _
          | false =>
              have heq : finishUpdate cfg io pv = (-1,
                  { pv with bl := bl', nv := pv.nv.writeAll (finishWrites io pv) }) := by
                simp only [finishUpdate, pvUpdateFinish, hu, hs, hw, Id.run_bind, hcommit, hok]
                rfl
              have hl : finishLeaves cfg io u = true := by simp [finishLeaves, hs, hok]
              rw [heq]
              exact { cmdline := rfl
                      next := rfl
                      state := rfl
                      nv := rfl
                      update := by simp [hu, Option.filter_some, hl]
                      ret := by simp [hu, hs, hl] }
      | updateRetryDownload =>
          have hw : finishWrites io pv = [] := by simp [finishWrites, hu, hs]
          by_cases hmax : u.retries > cfg.revisionRetries
          · exact hquiet .updateNoDownload hw (by simp [finishLeaves, hs, hmax])
              (by simp [finishUpdate, pvUpdateFinish, hu, hs, hmax, (keeps_setStatus pv _).nv,
                pvUpdateRemove])
          · have hl : finishLeaves cfg io u = true := by simp [finishLeaves, hs, hmax]
            have heq : finishUpdate cfg io pv = (0, pv) := by
              simp only [finishUpdate, pvUpdateFinish, hu, hs, hmax, if_false]
              rfl
            rw [heq]
            exact { cmdline := rfl
                    next := rfl
                    state := rfl
                    nv := by simp [hw, NvEnv.writeAll]
                    update := by simp [hu, Option.filter_some, hl]
                    ret := by simp [hu, hs] }
      | updateNoDownload =>
          have heq : finishUpdate cfg io pv = (0, pvUpdateRemove pv) := by
            simp [finishUpdate, pvUpdateFinish, hu, hs, pvUpdateRemove]
          rw [heq]
          exact { cmdline := rfl
                  next := rfl
                  state := rfl
                  nv := by simp [finishWrites, hu, hs, NvEnv.writeAll, pvUpdateRemove]
                  update := by simp [hu, Option.filter_some, finishLeaves, hs, pvUpdateRemove]
                  ret := by simp [hu, hs] }
      | _ =>
          refine hquiet (match u.status with | .updateTestingNonreboot => .updateUpdated | s => s)
            (by simp [finishWrites, hu, hs]) (by simp [finishLeaves, hs]) ?_
          simp [finishUpdate, pvUpdateFinish, hu, hs, (keeps_setStatus pv _).nv, pvUpdateRemove]

/-! ## The wait entry -/

/-- The status of an update in a boot that tries it. -/
def UpdateState.Trial (s : UpdateState) : Prop := s = .updateTry ∨ s = .updateTestingReboot

/-- The status of an update that `_pv_update` is about to work on. -/
def UpdateState.Starting (s : UpdateState) : Prop :=
  s = .updateInit ∨ s = .updateQueued ∨ s = .updateRetryDownload

instance (s : UpdateState) : Decidable s.Trial := inferInstanceAs (Decidable (_ ∨ _))

instance (s : UpdateState) : Decidable s.Starting := inferInstanceAs (Decidable (_ ∨ _))

/-- The status behind `pv_update_test`. -/
def UpdateState.tested : UpdateState → UpdateState
  | .updateTry => .updateTestingReboot
  | .updateTransition => .updateTestingNonreboot
  | s => s

theorem UpdateState.trial_of_tested {s : UpdateState} (h : s.tested.Trial) : s.Trial := by
  cases s <;> simp_all [UpdateState.tested, UpdateState.Trial]

theorem UpdateState.tested_ne_transition (s : UpdateState) : s.tested ≠ .updateTransition := by
  cases s <;> simp [UpdateState.tested]

/-- An update that starts is not tested. -/
theorem UpdateState.Starting.tested {s : UpdateState} (h : s.Starting) : s.tested = s := by
  rcases h with rfl | rfl | rfl <;> rfl

theorem UpdateState.Starting.not_trial {s : UpdateState} (h : s.Starting) : ¬ s.Trial := by
  rcases h with rfl | rfl | rfl <;> simp [UpdateState.Trial]

/-- What `pvWaitTest` leaves alone, and the status it leaves. -/
structure Tested (pv pv' : Pv) : Prop where
  cmdline : pv'.cmdline = pv.cmdline
  nv : pv'.nv = pv.nv
  state : pv'.state = pv.state
  update : pv'.update = pv.update.map fun u => { u with status := u.status.tested }

theorem update_test (pv : Pv) :
    (pvUpdateTest pv).update = pv.update.map fun u => { u with status := u.status.tested } := by
  cases hu : pv.update with
  | none => simp [pvUpdateTest, hu]
  | some u =>
      cases hs : u.status <;>
        simp [pvUpdateTest, hu, hs, update_setStatus, UpdateState.tested] <;> rw [← hs]

/-- An update that is not tried is not changed by a test. -/
theorem map_tested_of_not_trying {u : Option PvUpdate} (h : pvUpdateIsTrying u = false) :
    u.map (fun u => { u with status := u.status.tested }) = u := by
  cases u with
  | none => rfl
  | some u => cases hs : u.status <;> simp_all [pvUpdateIsTrying, UpdateState.tested] <;> rw [← hs]

theorem pvWaitTest_spec (cfg : Config) (io : WaitUpdateIo) (pv : Pv) :
    Tested pv (pvWaitTest cfg io pv) := by
  rw [pvWaitTest]
  split
  · have hk := keeps_test { pv with timerCommit := io.nowStart + cfg.commitDelay }
    exact ⟨hk.cmdline, hk.nv, hk.state, update_test _⟩
  · rename_i htry
    exact ⟨rfl, rfl, rfl, (map_tested_of_not_trying (by simpa using htry)).symm⟩

/-- The update that the wait goes on with: the one there is, tested or not, or
one to start. -/
def Waited (u : Option PvUpdate) (u' : PvUpdate) : Prop :=
  u'.status.Starting ∨ u = some u' ∨
    ∃ u₀, u = some u₀ ∧ u' = { u₀ with status := u₀.status.tested }

theorem Waited.trial {u : Option PvUpdate} {u' : PvUpdate} (h : Waited u u')
    (ht : u'.status.Trial) : ∃ u₀, u = some u₀ ∧ u₀.status.Trial := by
  rcases h with h | h | ⟨u₀, h, rfl⟩
  · exact absurd ht h.not_trial
  · exact ⟨u', h, ht⟩
  · exact ⟨u₀, h, UpdateState.trial_of_tested ht⟩

theorem Waited.transition {u : Option PvUpdate} {u' : PvUpdate} (h : Waited u u')
    (ht : u'.status = .updateTransition) : u = some u' := by
  rcases h with h | h | ⟨u₀, -, rfl⟩
  · rw [ht] at h
    simp [UpdateState.Starting] at h
  · exact h
  · exact absurd ht (UpdateState.tested_ne_transition _)

/-- What the update part of `_pv_wait` leaves of the process. -/
structure WaitSpec (pv : Pv) (r : PvStateT × Pv) : Prop where
  cmdline : r.2.cmdline = pv.cmdline
  state : r.2.state = pv.state
  next : r.1 = .wait ∨ r.1 = .rollback ∨ r.1 = .factoryUpload ∨ r.1 = .update
  update : ∀ u', r.2.update = some u' → Waited pv.update u'
  starting : r.1 = .update → ∃ u, r.2.update = some u ∧ u.status.Starting

theorem pvWaitUpdate_spec (cfg : Config) (io : WaitUpdateIo) (pv : Pv) :
    WaitSpec pv (pvWaitUpdate cfg io pv) := by
  have ht := pvWaitTest_spec cfg io pv
  have hback : ∀ u', (pvWaitTest cfg io pv).update = some u' → Waited pv.update u' := by
    intro u' hu'
    rw [ht.update, Option.map_eq_some_iff] at hu'
    obtain ⟨u, hu, rfl⟩ := hu'
    exact Or.inr (Or.inr ⟨u, hu, rfl⟩)
  rw [pvWaitUpdate]
  split
  · exact ⟨rfl, rfl, Or.inl rfl, fun u' hu' => Or.inr (Or.inl hu'), fun h => by cases h⟩
  · dsimp only
    split
    · exact ⟨ht.cmdline, ht.state, Or.inl rfl, hback, fun h => by cases h⟩
    · have hf := finishUpdate_spec cfg io.finish (pvWaitTest cfg io pv)
      have hleft : ∀ u', (finishUpdate cfg io.finish (pvWaitTest cfg io pv)).2.update = some u' →
          Waited pv.update u' := by
        intro u' hu'
        rw [hf.update, Option.filter_eq_some_iff] at hu'
        exact hback u' hu'.1
      have hc := hf.cmdline.trans ht.cmdline
      have hs := hf.state.trans ht.state
      split
      · exact ⟨hc, hs, Or.inr (Or.inl rfl), hleft, fun h => by cases h⟩
      · exact ⟨hc, hs, Or.inl rfl, hleft, fun h => by cases h⟩

/-- `trail_get_new_steps` keeps an ongoing update; when it starts one, there was
none. -/
theorem trailGetNewSteps_spec (cfg : Config) (io : StepsIo) (pv : Pv) :
    Keeps pv (trailGetNewSteps cfg io pv).2 ∧
      ((trailGetNewSteps cfg io pv).1 = false ∧
          (trailGetNewSteps cfg io pv).2.update = pv.update ∨
        (trailGetNewSteps cfg io pv).1 = true ∧
          ∃ u, (trailGetNewSteps cfg io pv).2.update = some u ∧ u.status = .updateQueued) := by
  unfold trailGetNewSteps
  dsimp only
  repeat' split
  all_goals first
    | exact ⟨Keeps.refl pv, Or.inl ⟨rfl, rfl⟩⟩
    | exact ⟨keeps_report _ _ _, Or.inl ⟨rfl, rfl⟩⟩
    | exact ⟨(keeps_report _ _ _).trans (keeps_report _ _ _), Or.inl ⟨rfl, rfl⟩⟩
    | exact ⟨(keeps_report _ _ _).trans (keeps_update _ _), Or.inr ⟨rfl, _, rfl, rfl⟩⟩

/-- A check for updates finds an update to start, or leaves the one there is. -/
theorem pvUpdaterCheckForUpdates_spec (cfg : Config) (io : UpdatesIo) (pv : Pv) :
    Keeps pv (pvUpdaterCheckForUpdates cfg io pv).2 ∧
      ((pvUpdaterCheckForUpdates cfg io pv).1 = false ∧
          (pvUpdaterCheckForUpdates cfg io pv).2.update = pv.update ∨
        (pvUpdaterCheckForUpdates cfg io pv).1 = true ∧
          ∃ u, (pvUpdaterCheckForUpdates cfg io pv).2.update = some u ∧ u.status.Starting) := by
  rw [pvUpdaterCheckForUpdates]
  split
  · exact ⟨Keeps.refl pv, Or.inl ⟨rfl, rfl⟩⟩
  · split
    · rename_i hretry
      cases hu : pv.update with
      | none => simp [hu] at hretry
      | some u =>
          have hs : u.status = .updateRetryDownload := by simpa [hu] using hretry
          exact ⟨Keeps.refl pv, Or.inr ⟨rfl, u, rfl, Or.inr (Or.inr hs)⟩⟩
    · split
      · obtain ⟨hk, hcase⟩ := trailGetNewSteps_spec cfg io.steps { pv with synced := true }
        have hk' : Keeps pv (trailGetNewSteps cfg io.steps { pv with synced := true }).2 :=
          ⟨hk.cmdline, hk.bl, hk.nv, hk.next, hk.state, hk.cmd, hk.remoteMode, hk.unclaimed,
            hk.timerCommit⟩
        refine ⟨hk', ?_⟩
        rcases hcase with ⟨hret, hupd⟩ | ⟨hret, u, hu, hs⟩
        · exact Or.inl ⟨hret, hupd⟩
        · exact Or.inr ⟨hret, u, hu, Or.inr (Or.inl hs)⟩
      · exact ⟨Keeps.refl pv, Or.inl ⟨rfl, rfl⟩⟩

/-- `pv_wait_network` stops early, or goes on to `pv_wait_update` online with
the update as it was. -/
theorem pvWaitNetwork_cases (cfg : Config) (io : NetworkIo) (wio : WaitUpdateIo) (pv : Pv) :
    (WaitSpec pv (pvWaitNetwork cfg io wio pv) ∧ (pvWaitNetwork cfg io wio pv).2.nv = pv.nv) ∨
      ∃ pv₁, Keeps pv pv₁ ∧ pv₁.update = pv.update ∧
        pvWaitNetwork cfg io wio pv = pvWaitUpdate cfg wio pv₁ ∧
        io.phAuth = true ∧ io.trailAuth = true ∧ io.factoryMetaDone = true := by
  have hsame : ∀ next : PvStateT, next = .wait ∨ next = .rollback ∨ next = .factoryUpload →
      WaitSpec pv (next, pv) ∧ pv.nv = pv.nv := by
    intro next hnext
    refine ⟨⟨rfl, rfl, by tauto, fun u' hu' => Or.inr (Or.inl hu'), fun h => ?_⟩, rfl⟩
    dsimp only at h
    rcases hnext with h' | h' | h' <;> rw [h'] at h <;> cases h
  unfold pvWaitNetwork
  split
  · left
    split
    · split
      · exact hsame _ (by simp)
      · exact hsame _ (by simp)
    · split
      · exact hsame _ (by simp)
      · exact hsame _ (by simp)
  · rename_i hauth
    simp only [Bool.or_eq_true, Bool.not_eq_true', not_or, Bool.not_eq_false] at hauth
    split
    · exact Or.inl (hsame _ (by simp))
    · rename_i hdone
      simp only [Bool.not_eq_true', Bool.not_eq_false] at hdone
      split
      · exact Or.inr ⟨pv, Keeps.refl pv, rfl, rfl, hauth.1, hauth.2, hdone⟩
      · obtain ⟨hk, hcase⟩ := pvUpdaterCheckForUpdates_spec cfg io.updates pv
        dsimp only
        rcases hcase with ⟨hret, hupd⟩ | ⟨hret, u, hu, hs⟩
        · rw [if_neg (by rw [hret]; exact Bool.false_ne_true)]
          exact Or.inr ⟨_, hk, hupd, rfl, hauth.1, hauth.2, hdone⟩
        · rw [if_pos hret]
          refine Or.inl ⟨⟨hk.cmdline, hk.state, by simp, fun u' hu' => ?_, fun _ => ⟨u, hu, hs⟩⟩,
            hk.nv⟩
          exact Or.inl (Option.some.inj (hu.symm.trans hu') ▸ hs)

/-- `_pv_wait` gets to `pv_update_finish` in the process `pv₁`: the update is as
`pv_update_test` left it, its commit delay is over if it is tested, and if the
device is in network operations it is online. -/
structure FinishPoint (io : WaitIo) (pv pv₁ : Pv) : Prop where
  cmdline : pv₁.cmdline = pv.cmdline
  nv : pv₁.nv = pv.nv
  state : pv₁.state = pv.state
  update : pv₁.update = pv.update.map fun u => { u with status := u.status.tested }
  expired : pvUpdateIsTesting pv₁.update = true → pv₁.timerCommit ≤ io.waitUpdate.nowCheck
  online : pv.networkMode = true → pv.timerWaitDelay ≤ io.nowDelay ∧ pv.unclaimed = false ∧
    io.network.phAuth = true ∧ io.network.trailAuth = true ∧ io.network.factoryMetaDone = true

/-- `pv_wait_update` writes nothing or ends in `pv_update_finish`. -/
theorem pvWaitUpdate_cases (cfg : Config) (io : WaitUpdateIo) (pv : Pv) :
    (pvWaitUpdate cfg io pv).2.nv = pv.nv ∨
      (pvWaitUpdate cfg io pv).2 = (finishUpdate cfg io.finish (pvWaitTest cfg io pv)).2 ∧
        (pvUpdateIsTesting (pvWaitTest cfg io pv).update = true →
          (pvWaitTest cfg io pv).timerCommit ≤ io.nowCheck) := by
  rw [pvWaitUpdate]
  split
  · exact Or.inl rfl
  · dsimp only
    split
    · exact Or.inl (pvWaitTest_spec cfg io pv).nv
    · rename_i hready
      refine Or.inr ⟨by split <;> rfl, fun htesting => ?_⟩
      rw [htesting, Bool.true_and, decide_eq_true_eq] at hready
      omega

/-- **The update part of `_pv_wait`**: what it leaves, and the only point at
which it writes the boot environment. -/
theorem pvWaitOps_spec (cfg : Config) (io : WaitIo) (pv : Pv) :
    WaitSpec pv (pvWaitOps cfg io pv) ∧ ((pvWaitOps cfg io pv).2.nv = pv.nv ∨
      ∃ pv₁, FinishPoint io pv pv₁ ∧
        (pvWaitOps cfg io pv).2 = (finishUpdate cfg io.waitUpdate.finish pv₁).2) := by
  -- `pv_wait_update` in a process that differs in its timers and reports at most
  have hend : ∀ pv₀ : Pv, pv₀.cmdline = pv.cmdline → pv₀.nv = pv.nv → pv₀.state = pv.state →
      pv₀.update = pv.update →
      (pv.networkMode = true → pv.timerWaitDelay ≤ io.nowDelay ∧ pv.unclaimed = false ∧
        io.network.phAuth = true ∧ io.network.trailAuth = true ∧
        io.network.factoryMetaDone = true) →
      WaitSpec pv (pvWaitUpdate cfg io.waitUpdate pv₀) ∧
        ((pvWaitUpdate cfg io.waitUpdate pv₀).2.nv = pv.nv ∨ ∃ pv₁, FinishPoint io pv pv₁ ∧
          (pvWaitUpdate cfg io.waitUpdate pv₀).2
            = (finishUpdate cfg io.waitUpdate.finish pv₁).2) := by
    intro pv₀ hc hn hs hu honline
    have hspec := pvWaitUpdate_spec cfg io.waitUpdate pv₀
    have ht := pvWaitTest_spec cfg io.waitUpdate pv₀
    refine ⟨⟨hspec.cmdline.trans hc, hspec.state.trans hs, hspec.next, fun u' hu' => ?_,
      hspec.starting⟩, ?_⟩
    · rw [← hu]
      exact hspec.update u' hu'
    · rcases pvWaitUpdate_cases cfg io.waitUpdate pv₀ with hquiet | ⟨heq, hready⟩
      · exact Or.inl (hquiet.trans hn)
      · exact Or.inr ⟨pvWaitTest cfg io.waitUpdate pv₀,
          ⟨ht.cmdline.trans hc, ht.nv.trans hn, ht.state.trans hs, by rw [ht.update, hu], hready,
            honline⟩, heq⟩
  unfold pvWaitOps
  split
  · split
    · rename_i hdelay
      dsimp only
      split
      · rw [pvWaitUnclaimed]
        split
        · exact ⟨⟨rfl, rfl, Or.inl rfl, fun u' hu' => Or.inr (Or.inl hu'), fun h => by cases h⟩,
            Or.inl rfl⟩
        · have hown : ∀ pv' : Pv, pv'.cmdline = pv.cmdline → pv'.state = pv.state →
              pv'.update = pv.update → pv'.nv = pv.nv →
              WaitSpec pv (.factoryUpload, pv') ∧ (pv'.nv = pv.nv ∨ ∃ pv₁, FinishPoint io pv pv₁ ∧
                pv' = (finishUpdate cfg io.waitUpdate.finish pv₁).2) := by
            intro pv' hc hs hu hn
            exact ⟨⟨hc, hs, by simp, fun u' hu' => Or.inr (Or.inl (hu ▸ hu')), fun h => by cases h⟩,
              Or.inl hn⟩
          split
          · exact hown _ rfl rfl rfl rfl
          · exact hown _ rfl rfl rfl rfl
      · rename_i hclaimed
        rcases pvWaitNetwork_cases cfg io.network io.waitUpdate
          { pv with timerWaitDelay := io.nowRestart + cfg.updaterInterval } with
          ⟨hspec, hnv⟩ | ⟨pv₁, hk, hu, heq, hauth⟩
        · exact ⟨⟨hspec.cmdline, hspec.state, hspec.next, hspec.update, hspec.starting⟩, Or.inl hnv⟩
        · rw [heq]
          exact hend pv₁ hk.cmdline hk.nv hk.state hu
            fun _ => ⟨hdelay, by simpa using hclaimed, hauth⟩
    · exact ⟨⟨rfl, rfl, Or.inl rfl, fun u' hu' => Or.inr (Or.inl hu'), fun h => by cases h⟩,
        Or.inl rfl⟩
  · rename_i hmode
    exact hend pv rfl rfl rfl rfl fun h => absurd h hmode

/-! ## The update entry -/

/-- The statuses of an update that starts and is downloaded. -/
def UpdateState.Fetching (s : UpdateState) : Prop :=
  s.Starting ∨ s = .updateNoDownload ∨ s = .updateDownloadProgress ∨ s = .updateDownloaded

theorem UpdateState.Fetching.ne_failed {s : UpdateState} (h : s.Fetching) : s ≠ .updateFailed := by
  rcases h with (rfl | rfl | rfl) | rfl | rfl | rfl <;> simp

/-- What a step of the download leaves of the update `u`: the same update at
another status. -/
structure Downloading (pv : Pv) (u : PvUpdate) (pv' : Pv) (status : UpdateState) : Prop where
  keeps : Keeps pv pv'
  update : ∃ u', pv'.update = some u' ∧ u'.rev = u.rev ∧ u'.pending = u.pending ∧
    u'.status = status

theorem Downloading.refl {pv : Pv} {u : PvUpdate} (hu : pv.update = some u) :
    Downloading pv u pv u.status := ⟨Keeps.refl pv, u, hu, rfl, rfl, rfl⟩

/-- A status that is set in the course of the download. -/
theorem Downloading.setStatus {pv pv' : Pv} {u : PvUpdate} {s : UpdateState}
    (h : Downloading pv u pv' s) (status : UpdateState) :
    Downloading pv u (pvUpdateSetStatus pv' status) status := by
  obtain ⟨hk, u', hu', hrev, hpend, -⟩ := h
  exact ⟨hk.trans (keeps_setStatus pv' status), { u' with status := status },
    by rw [update_setStatus, hu', Option.map_some], hrev, hpend, rfl⟩

theorem pvUpdateCheckDownloadRetry_spec (cfg : Config) (io : DownloadIo) {pv : Pv}
    {u : PvUpdate} (hu : pv.update = some u) :
    Downloading pv u (pvUpdateCheckDownloadRetry cfg io pv u).2 u.status := by
  unfold pvUpdateCheckDownloadRetry
  dsimp only
  split
  · split
    · exact ⟨keeps_update pv _, _, rfl, rfl, rfl, rfl⟩
    · exact ⟨keeps_update pv _, _, rfl, rfl, rfl, rfl⟩
  · exact Downloading.refl hu

theorem trailDownloadObjects_spec (io : DownloadIo) {pv pv' : Pv} {u : PvUpdate}
    {s : UpdateState} (h : Downloading pv u pv' s) :
    ∃ status, Downloading pv u (trailDownloadObjects io pv').2 status ∧ status.Fetching := by
  have hretry : UpdateState.Fetching .updateRetryDownload := Or.inl (Or.inr (Or.inr rfl))
  unfold trailDownloadObjects
  split
  · exact ⟨_, h.setStatus _, hretry⟩
  · split
    · exact ⟨_, h.setStatus _, Or.inr (Or.inl rfl)⟩
    · dsimp only
      split
      · exact ⟨_, (h.setStatus _).setStatus _, hretry⟩
      · exact ⟨_, (h.setStatus _).setStatus _, Or.inr (Or.inr (Or.inl rfl))⟩

/-- `pv_update_download` of an update that starts. -/
theorem pvUpdateDownload_spec (cfg : Config) (io : DownloadIo) {pv : Pv} {u : PvUpdate}
    (hu : pv.update = some u) (hs : u.status.Starting) :
    ∃ status, Downloading pv u (pvUpdateDownload cfg io pv).2 status ∧ status.Fetching := by
  have hsame : Downloading pv u pv u.status := Downloading.refl hu
  have hstart : u.status.Fetching := Or.inl hs
  cases hst : pv.state with
  | none =>
      simp only [pvUpdateDownload, hst]
      exact ⟨_, hsame, hstart⟩
  | some rev =>
      simp only [pvUpdateDownload, hst, hu]
      split
      · exact ⟨_, hsame, hstart⟩
      · split
        · exact ⟨_, hsame, hstart⟩
        · split
          · exact ⟨_, hsame, hstart⟩
          · have hretry := pvUpdateCheckDownloadRetry_spec cfg io hu
            split
            · exact ⟨_, hretry, hstart⟩
            · obtain ⟨status, hobjects, hfetching⟩ := trailDownloadObjects_spec io hretry
              split
              · exact ⟨_, hobjects, hfetching⟩
              · exact ⟨_, hobjects.setStatus _, Or.inr (Or.inr (Or.inr rfl))⟩

/-- What `_pv_update` leaves of the update `u` before it finishes or starts it. -/
structure Transferred (pv : Pv) (u : PvUpdate) (r : Bool × Pv) : Prop where
  cmdline : r.2.cmdline = pv.cmdline
  state : r.2.state = pv.state
  update : ∃ u', r.2.update = some u' ∧ u'.rev = u.rev ∧ u'.pending = u.pending ∧
    (r.1 = true → u'.status = .updateInstalled) ∧
    (r.1 = false → u'.status.Fetching ∨ u'.status = .updateFailed)
  installed : r.1 = true → pv.state.isSome ∧ ∃ rev, u.pending = some rev ∧
    r.2.nv = pv.nv.writeAll [.set keyTry rev]
  failed : r.1 = false → r.2.nv = pv.nv

/-- `pv_update_install` once the download is through. -/
theorem pvUpdateInstall_spec (io : InstallIo) {pv pv' : Pv} {u : PvUpdate} {s : UpdateState}
    (hd : Downloading pv u pv' s) (hs : s.Fetching) :
    Transferred pv u (pvUpdateInstall io pv') := by
  obtain ⟨hk, u', hu', hrev, hpend, hstatus⟩ := hd
  have hquiet : Transferred pv u (false, pv') :=
    ⟨hk.cmdline, hk.state, ⟨u', hu', hrev, hpend, (fun h => by cases h), fun _ => Or.inl (hstatus ▸ hs)⟩,
      (fun h => by cases h), fun _ => hk.nv⟩
  unfold pvUpdateInstall
  split
  · rename_i rev u₁ hst hu₁
    have huu : u₁ = u' := Option.some.inj (hu₁.symm.trans hu')
    subst huu
    cases hp : u₁.pending with
    | none => exact hquiet
    | some prev =>
        dsimp only
        split
        · have hset := keeps_setStatus pv' .updateFailed
          exact ⟨hset.cmdline.trans hk.cmdline, hset.state.trans hk.state,
            ⟨{ u₁ with status := .updateFailed }, by simp [update_setStatus, hu'], hrev, hpend,
              (fun h => by cases h), fun _ => Or.inr rfl⟩,
            (fun h => by cases h), fun _ => hset.nv.trans hk.nv⟩
        · split
          · exact hquiet
          · rw [setInstalled_envOps]
            cases io.setInstalled with
            | false =>
                exact ⟨hk.cmdline, hk.state, ⟨u₁, hu', hrev, hpend, (fun h => by cases h),
                  fun _ => Or.inl (hstatus ▸ hs)⟩, (fun h => by cases h), fun _ => hk.nv⟩
            | true =>
                have hset := keeps_setStatus { pv' with
                  bl := { pv'.bl with pvTry := some prev },
                  nv := pv'.nv.writeAll [.set keyTry prev] } .updateInstalled
                refine ⟨hset.cmdline.trans hk.cmdline, hset.state.trans hk.state,
                  ⟨{ u₁ with status := .updateInstalled, runlevel := io.runlevel },
                    by simp [update_setStatus, hu'], hrev, hpend, fun _ => rfl,
                    (fun h => by cases h)⟩,
                  fun _ => ⟨by rw [← hk.state, hst]; rfl, prev, by rw [← hpend, hp], ?_⟩,
                  (fun h => by cases h)⟩
                rw [← hk.nv]
                exact hset.nv
  · exact hquiet

/-- **The transfer of an update that starts**: all of it, with the one write of
the install, or none of the writes. -/
theorem pvUpdateTransfer_spec (cfg : Config) (io : UpdateIo) {pv : Pv} {u : PvUpdate}
    (hu : pv.update = some u) (hs : u.status.Starting) :
    Transferred pv u (pvUpdateTransfer cfg io pv) := by
  obtain ⟨status, hd, hfetching⟩ := pvUpdateDownload_spec cfg io.download hu hs
  unfold pvUpdateTransfer
  dsimp only
  split
  · obtain ⟨hk, u', hu', hrev, hpend, hstatus⟩ := hd
    exact ⟨hk.cmdline, hk.state, ⟨u', hu', hrev, hpend, (fun h => by cases h),
      fun _ => Or.inl (hstatus ▸ hfetching)⟩, (fun h => by cases h), fun _ => hk.nv⟩
  · exact pvUpdateInstall_spec io.install hd hfetching

/-- `_pv_update` with the install done: a reboot, or a transition. -/
structure Installed (pv : Pv) (u : PvUpdate) (pv' : Pv) : Prop where
  cmdline : pv'.cmdline = pv.cmdline
  state : pv'.state = pv.state
  loaded : pv.state.isSome
  nv : ∃ rev, u.pending = some rev ∧ pv'.nv = pv.nv.writeAll [.set keyTry rev]
  update : ∃ u', pv'.update = some u' ∧ u'.rev = u.rev ∧ u'.pending = u.pending ∧
    (pv'.next = .reboot ∧ u'.status = .updateReboot ∨
      (pv'.next = .rollback ∨ pv'.next = .run) ∧ u'.status = .updateTransition)

/-- `_pv_update` with a transfer that failed: the update is finished. -/
structure NotInstalled (io : FinishIo Bool) (pv : Pv) (u : PvUpdate) (pv' : Pv) : Prop where
  cmdline : pv'.cmdline = pv.cmdline
  state : pv'.state = pv.state
  next : pv'.next = .wait
  nv : pv'.nv = pv.nv ∨ pv'.nv = pv.nv.writeAll [.unset keyTry]
  update : ∀ u', pv'.update = some u' → u'.rev = u.rev ∧ u'.pending = u.pending ∧
    u'.status = .updateRetryDownload

/-- A finish leaves an update that was not downloaded only for a retry. -/
theorem finishLeaves_of_fetching {cfg : Config} {io : FinishIo Bool} {u : PvUpdate}
    (hs : u.status.Fetching ∨ u.status = .updateFailed) (h : finishLeaves cfg io u = true) :
    u.status = .updateRetryDownload := by
  unfold finishLeaves at h
  split at h
  · rename_i hst
    exact hst
  · rename_i hst
    rcases hs with ((hs | hs | hs) | hs | hs | hs) | hs <;> rw [hs] at hst <;> cases hst
  · cases h

/-- The writes of a finish of an update that is not tested. -/
theorem finishWrites_of_fetching {io : FinishIo Bool} {pv : Pv} {u : PvUpdate}
    (hu : pv.update = some u) (hs : u.status.Fetching ∨ u.status = .updateFailed) :
    finishWrites io pv
      = if u.status = .updateFailed ∧ io.setFailed = true then [.unset keyTry] else [] := by
  rcases hs with hs | hs
  · rw [if_neg (fun h => hs.ne_failed h.1)]
    rcases hs with (hs | hs | hs) | hs | hs | hs <;> simp only [finishWrites, hu, hs]
  · simp only [finishWrites, hu, hs, true_and]

/-- **What `_pv_update` does** of an update that starts. -/
theorem pvUpdate_cases (cfg : Config) (io : UpdateIo) {pv : Pv} {u : PvUpdate}
    (hu : pv.update = some u) (hs : u.status.Starting) :
    ((pvUpdateTransfer cfg io pv).1 = true ∧ Installed pv u (pvUpdate cfg io pv)) ∨
      ((pvUpdateTransfer cfg io pv).1 = false ∧
        NotInstalled io.finish pv u (pvUpdate cfg io pv)) := by
  have ht := pvUpdateTransfer_spec cfg io hu hs
  obtain ⟨u₁, hu₁, hrev, hpend, hok, hfailed⟩ := ht.update
  cases hret : (pvUpdateTransfer cfg io pv).1 with
  | false =>
      have hst := hfailed hret
      have hf := finishUpdate_spec cfg io.finish (pvUpdateTransfer cfg io pv).2
      have heq : pvUpdate cfg io pv
          = { (finishUpdate cfg io.finish (pvUpdateTransfer cfg io pv).2).2 with next := .wait } := by
        simp only [pvUpdate, hret, Bool.not_false, if_true]
      rw [heq]
      refine Or.inr ⟨rfl, hf.cmdline.trans ht.cmdline, hf.state.trans ht.state, rfl, ?_, ?_⟩
      · dsimp only
        rw [hf.nv, ht.failed hret, finishWrites_of_fetching hu₁ hst]
        split
        · exact Or.inr rfl
        · exact Or.inl rfl
      · intro u' hu'
        dsimp only at hu'
        rw [hf.update, hu₁, Option.filter_eq_some_iff] at hu'
        obtain ⟨hsame, hleaves⟩ := hu'
        obtain rfl := Option.some.inj hsame
        exact ⟨hrev, hpend, finishLeaves_of_fetching hst hleaves⟩
  | true =>
      obtain ⟨hloaded, rev, hprev, hnv⟩ := ht.installed hret
      refine Or.inl ⟨rfl, ?_⟩
      -- the status that decides between reboot and transition keeps the rest
      have hset : ∀ (v : PvUpdate) (status : UpdateState) (next : PvStateT),
          v.rev = u.rev → v.pending = u.pending →
          (next = .reboot ∧ status = .updateReboot ∨
            (next = .rollback ∨ next = .run) ∧ status = .updateTransition) →
          Installed pv u { pvUpdateSetStatus
            { (pvUpdateTransfer cfg io pv).2 with update := some v } status with next := next } := by
        intro v status next hv hvp hnext
        have hk := keeps_setStatus { (pvUpdateTransfer cfg io pv).2 with update := some v } status
        exact ⟨hk.cmdline.trans ht.cmdline, hk.state.trans ht.state, hloaded,
          ⟨rev, hprev, hk.nv.trans hnv⟩, { v with status := status },
          by simp [update_setStatus], hv, hvp, hnext⟩
      unfold pvUpdate pvUpdateRequiresReboot
      simp only [hret, hu₁, Bool.not_true, Bool.false_eq_true, if_false]
      split
      · exact hset _ _ _ hrev hpend (Or.inl ⟨rfl, rfl⟩)
      · have hsame : { (pvUpdateTransfer cfg io pv).2 with update := some u₁ }
            = (pvUpdateTransfer cfg io pv).2 := by rw [← hu₁]
        have hset₁ := fun next => hset u₁ .updateTransition next hrev hpend
        rw [hsame] at hset₁
        simp only [Bool.false_eq_true, if_false]
        split
        · exact hset₁ _ (Or.inr ⟨Or.inl rfl, rfl⟩)
        · exact hset₁ _ (Or.inr ⟨Or.inr rfl, rfl⟩)

end Pantavisor.Controller
