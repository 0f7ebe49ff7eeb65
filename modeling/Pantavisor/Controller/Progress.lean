/-
Pantavisor.Controller.Progress — which revision the progress of a report is
stored for.

`trail_remote_set_status` sends a status to the endpoint of the update and
stores it as the progress of the update's pending state. The two are set in
different places. `Pv.Right` is what all of them keep: the pending state of the
update is of the revision that the update is about. Only one step breaks it
(`Device.loadsFallback`): after a failed try, `pv_update_resume` makes an update
for the revision that failed and `_pv_run` points its pending state to the
revision fallen back to.
-/
import Pantavisor.Controller.Rollback

namespace Pantavisor.Controller

open Pantavisor.Lib Pantavisor.Bootloader

/-! ## Updates and reports of one revision -/

/-- What is stored for a report is stored for the revision it is about. -/
def Report.Right (r : Report) : Prop := ∀ rev, r.stored = some rev → rev = r.rev

/-- The pending state of an update is of the revision it is about. -/
def PvUpdate.Right (u : PvUpdate) : Prop := ∀ rev, u.pending = some rev → rev = u.rev

/-- Both, for all that the process has. -/
structure Pv.Right (pv : Pv) : Prop where
  update : ∀ u, pv.update = some u → u.Right
  reports : ∀ r ∈ pv.reports, r.Right

theorem pvUpdateNew_right (creds : Bool) (rev : Rev) (isLocal : Bool) :
    (pvUpdateNew creds rev isLocal).Right := by
  intro rev h
  cases h

/-- Only the update and the reports matter. -/
theorem Pv.Right.of_eq {pv pv' : Pv} (h : pv.Right) (hu : pv'.update = pv.update)
    (hr : pv'.reports = pv.reports) : pv'.Right :=
  ⟨hu ▸ h.update, hr ▸ h.reports⟩

theorem Pv.Right.report {pv : Pv} (h : pv.Right) {u : PvUpdate} (hu : u.Right)
    (status : UpdateState) : (pv.report u status).Right := by
  refine ⟨h.update, fun r hr => ?_⟩
  rcases List.mem_append.mp hr with hr | hr
  · exact h.reports r hr
  · rw [List.mem_singleton.mp hr]
    exact hu

theorem Pv.Right.setUpdate {pv : Pv} (h : pv.Right) {u : PvUpdate} (hu : u.Right) :
    ({ pv with update := some u } : Pv).Right :=
  ⟨fun _ hu' => Option.some.inj hu' ▸ hu, h.reports⟩

theorem Pv.Right.setStatus {pv : Pv} (h : pv.Right) (status : UpdateState) :
    (pvUpdateSetStatus pv status).Right := by
  cases hu : pv.update with
  | none => simpa [pvUpdateSetStatus, hu] using h
  | some u =>
      have hright := h.update u hu
      simp only [pvUpdateSetStatus, hu]
      exact (h.report hright status).setUpdate hright

/-! ## One step -/

/-- `pv_update_finish` reports for the update that it finishes. -/
theorem reports_finish (cfg : Config) (io : FinishIo Bool) (pv : Pv) {r : Report}
    (h : r ∈ (finishUpdate cfg io pv).2.reports) :
    r ∈ pv.reports ∨ ∃ u, pv.update = some u ∧ r.rev = u.rev ∧ r.stored = u.pending := by
  cases hu : pv.update with
  | none => exact .inl (by simpa [finishUpdate, pvUpdateFinish, hu] using h)
  | some u =>
      have hset : ∀ (pv₁ : Pv) (status : UpdateState), pv₁.update = some u →
          pv₁.reports = pv.reports → r ∈ (pvUpdateSetStatus pv₁ status).reports →
          r ∈ pv.reports ∨ ∃ u', some u = some u' ∧ r.rev = u'.rev ∧ r.stored = u'.pending := by
        intro pv₁ status hu₁ hr₁ hr
        simp only [pvUpdateSetStatus, hu₁, Pv.report, hr₁, List.mem_append, List.mem_singleton] at hr
        rcases hr with hr | rfl
        · exact .inl hr
        · exact .inr ⟨u, rfl, rfl, rfl⟩
      unfold finishUpdate pvUpdateFinish at h
      rw [hu] at h
      dsimp only at h
      cases hs : u.status with
      | updateFailed =>
          rw [hs] at h
          simp only [Id.run_bind, Id.run_pure, setFailed_envOps] at h
          exact hset { pv with bl := { pv.bl with pvTry := none }, update := some u } .updateFailed
            rfl rfl h
      | updateRetryDownload =>
          rw [hs] at h
          dsimp only at h
          split at h
          · exact hset pv _ hu rfl h
          · exact .inl h
      | updateNoDownload =>
          rw [hs] at h
          exact .inl h
      | updateTestingReboot =>
          rw [hs] at h
          obtain ⟨bl', hcommit⟩ := setCommited_envOps io.setCommited pv.bl pv.nv pv.stateRev
          simp only [Id.run_bind, hcommit] at h
          split at h
          · rw [if_neg (by decide)] at h
            exact hset { pv with bl := bl', update := some u } .updateDone rfl rfl h
          · rw [if_pos (by decide)] at h
            exact .inl h
      | _ =>
          rw [hs] at h
          exact hset pv _ hu rfl h

theorem Pv.Right.finish {pv : Pv} (h : pv.Right) (cfg : Config) (io : FinishIo Bool) :
    (finishUpdate cfg io pv).2.Right := by
  refine ⟨fun u hu => ?_, fun r hr => ?_⟩
  · rw [(finishUpdate_spec cfg io pv).update] at hu
    exact h.update u (Option.filter_eq_some_iff.mp hu).1
  · rcases reports_finish cfg io pv hr with hr | ⟨u, hu, hrev, hstored⟩
    · exact h.reports r hr
    · intro rev hr'
      rw [hrev]
      exact h.update u hu rev (hstored ▸ hr')

theorem Pv.Right.test {pv : Pv} (h : pv.Right) : (pvUpdateTest pv).Right := by
  unfold pvUpdateTest
  split
  · exact h
  · split
    · exact h.setStatus _
    · exact h.setStatus _
    · exact h

theorem Pv.Right.waitUpdate {pv : Pv} (h : pv.Right) (cfg : Config) (io : WaitUpdateIo) :
    (pvWaitUpdate cfg io pv).2.Right := by
  have htest : (pvWaitTest cfg io pv).Right := by
    unfold pvWaitTest
    split
    · exact Pv.Right.test (show ({ pv with timerCommit := _ } : Pv).Right from h.of_eq rfl rfl)
    · exact h
  unfold pvWaitUpdate
  split
  · exact h
  · dsimp only
    split
    · exact htest
    · split <;> exact htest.finish cfg io.finish

/-- A step found on the server is reported as itself. -/
theorem Pv.Right.getNewSteps {pv : Pv} (h : pv.Right) (cfg : Config) (io : StepsIo) :
    (trailGetNewSteps cfg io pv).2.Right := by
  unfold trailGetNewSteps
  split
  · exact h
  · split
    · exact h
    · rename_i res wrong _ _ rev _
      have hnew := pvUpdateNew_right res.creds rev false
      have hqueued : ({ pvUpdateNew res.creds rev false with
          retries := res.retries, status := .updateQueued } : PvUpdate).Right := hnew
      dsimp only
      split
      · exact h.report hnew _
      · split
        · exact h.report hnew _
        · split
          · exact h.report hnew _
          · split
            · exact (h.report hqueued _).report hqueued _
            · split
              · exact (h.report hqueued _).report hqueued _
              · split
                · refine (h.report hqueued _).setUpdate ?_
                  exact fun _ h' => (Option.some.inj h').symm
                · exact h.report hqueued _

theorem Pv.Right.checkForUpdates {pv : Pv} (h : pv.Right) (cfg : Config) (io : UpdatesIo) :
    (pvUpdaterCheckForUpdates cfg io pv).2.Right := by
  unfold pvUpdaterCheckForUpdates
  split
  · exact h
  · split
    · exact h
    · split
      · exact (h.of_eq rfl rfl : Pv.Right { pv with synced := true }).getNewSteps cfg io.steps
      · exact h

theorem Pv.Right.waitNetwork {pv : Pv} (h : pv.Right) (cfg : Config) (io : NetworkIo)
    (wio : WaitUpdateIo) : (pvWaitNetwork cfg io wio pv).2.Right := by
  unfold pvWaitNetwork
  split
  · split
    · split <;> exact h
    · split <;> exact h
  · split
    · exact h
    · split
      · exact h.waitUpdate cfg wio
      · have hfound := h.checkForUpdates cfg io.updates
        dsimp only
        split
        · exact hfound
        · exact hfound.waitUpdate cfg wio

theorem Pv.Right.wait {pv : Pv} (h : pv.Right) (cfg : Config) (io : WaitIo) :
    (pvWait cfg io pv).Right := by
  have hops : (pvWaitOps cfg io pv).2.Right := by
    have hdelay : ∀ t, ({ pv with timerWaitDelay := t } : Pv).Right := fun _ => h.of_eq rfl rfl
    unfold pvWaitOps
    split
    · split
      · dsimp only
        split
        · unfold pvWaitUnclaimed
          split
          · exact hdelay _
          · dsimp only
            split
            · exact h.of_eq rfl rfl
            · exact hdelay _
        · exact (hdelay _).waitNetwork cfg io.network io.waitUpdate
      · exact h
    · exact h.waitUpdate cfg io.waitUpdate
  unfold pvWait
  split
  · split <;> exact h.of_eq rfl rfl
  · dsimp only
    split <;> exact hops.of_eq rfl rfl

theorem Pv.Right.command {pv : Pv} (h : pv.Right) (io : CommandIo) : (pvCommand io pv).Right := by
  have hupdate : ∀ {pv : Pv} (rev : Rev), pv.Right → (pvCommandUpdate io.localStep rev pv).Right := by
    intro pv rev h
    have hnew := pvUpdateNew_right io.localStep.creds rev true
    unfold pvCommandUpdate pvUpdateGetStepLocal
    dsimp only
    split
    · exact ⟨fun _ hu => (Option.some_ne_none _ hu.symm).elim, (h.report hnew _).reports⟩
    · split
      · exact ⟨fun _ hu => (Option.some_ne_none _ hu.symm).elim, (h.report hnew _).reports⟩
      · refine (h.setUpdate (u := { pvUpdateNew io.localStep.creds rev true with
          pending := some rev }) ?_).of_eq rfl rfl
        exact fun _ h' => (Option.some.inj h').symm
  have hwait : ({ pv with next := .wait } : Pv).Right := h.of_eq rfl rfl
  unfold pvCommand
  dsimp only
  split
  · exact hwait
  · rename_i cmd _
    refine Pv.Right.of_eq
      (show (pvCommandOp io { pv with next := .wait } cmd).Right from ?_) rfl rfl
    unfold pvCommandOp
    split
    · split
      · exact hwait
      · exact hwait.of_eq rfl rfl
    · split
      · exact hwait
      · exact hwait.of_eq rfl rfl
    · split
      · exact hwait
      · exact hupdate _ hwait
    · split
      · exact hwait
      · exact hupdate _ hwait
    all_goals exact hwait

theorem Pv.Right.download {pv : Pv} (h : pv.Right) (cfg : Config) (io : DownloadIo) :
    (pvUpdateDownload cfg io pv).2.Right := by
  have hobjects : ∀ {pv : Pv}, pv.Right → (trailDownloadObjects io pv).2.Right := by
    intro pv h
    unfold trailDownloadObjects
    split
    · exact h.setStatus _
    · split
      · exact h.setStatus _
      · dsimp only
        split
        · exact (h.setStatus _).setStatus _
        · exact (h.setStatus _).setStatus _
  have hretry : ∀ {u : PvUpdate}, u.Right → (pvUpdateCheckDownloadRetry cfg io pv u).2.Right := by
    intro u hu
    unfold pvUpdateCheckDownloadRetry
    split
    · dsimp only
      split <;> exact h.setUpdate hu
    · exact h
  unfold pvUpdateDownload
  split
  · rename_i rev u hst hu
    have hright := h.update u hu
    split
    · exact h
    · split
      · exact h
      · split
        · exact h
        · dsimp only
          split
          · exact hretry hright
          · split
            · exact hobjects (hretry hright)
            · exact (hobjects (hretry hright)).setStatus _
  · exact h

theorem Pv.Right.install {pv : Pv} (h : pv.Right) (io : InstallIo) :
    (pvUpdateInstall io pv).2.Right := by
  unfold pvUpdateInstall
  split
  · split
    · exact h
    · split
      · exact h.setStatus _
      · split
        · exact h
        · dsimp only
          have hbl : ∀ (bl : PvBootloader) (nv : NvEnv), ({ pv with bl := bl, nv := nv } : Pv).Right :=
            fun _ _ => h.of_eq rfl rfl
          split
          · exact hbl _ _
          · refine ⟨fun u' hu' => ?_, ((hbl _ _).setStatus _).reports⟩
            obtain ⟨u, hu, rfl⟩ := Option.map_eq_some_iff.mp hu'
            exact ((hbl _ _).setStatus _).update u hu
  · exact h

theorem Pv.Right.updateEntry {pv : Pv} (h : pv.Right) (cfg : Config) (io : UpdateIo) :
    (pvUpdate cfg io pv).Right := by
  have htransfer : (pvUpdateTransfer cfg io pv).2.Right := by
    unfold pvUpdateTransfer
    dsimp only
    split
    · exact h.download cfg io.download
    · exact (h.download cfg io.download).install io.install
  have hreboot : ∀ {pv : Pv}, pv.Right → (pvUpdateRequiresReboot pv).2.Right := by
    intro pv h
    unfold pvUpdateRequiresReboot
    split
    · exact h
    · rename_i u hu
      split
      · exact ((h.setUpdate (u := { u with runlevel := runlevelRoot }) (h.update u hu)).setStatus _)
      · exact h.setStatus _
  unfold pvUpdate
  dsimp only
  split
  · exact (htransfer.finish cfg io.finish).of_eq rfl rfl
  · split
    · exact (hreboot htransfer).of_eq rfl rfl
    · split <;> exact (hreboot htransfer).of_eq rfl rfl

/-! ## `_pv_run` -/

/-- The step loads the revision fallen back to with an update for the revision
whose try failed. -/
def Device.loadsFallback (d : Device) : Event → Bool
  | .step io =>
    d.ram.any fun pv =>
      decide (pv.next = .run) && pv.update.isNone && pv.bl.updateInProgress &&
        !pv.bl.tryingUpdate && io.run.signature && io.run.parse
  | _ => false

theorem Pv.Right.resume {pv : Pv} (h : pv.Right) (creds : Bool) :
    (pvUpdateResume creds pv).2.Right := by
  unfold pvUpdateResume
  split
  · exact h
  · split
    · dsimp only
      split <;> exact (h.setUpdate (pvUpdateNew_right _ _ _)).setStatus _
    · exact h

/-- What `_pv_run` reports is right, and the update it leaves is, unless it
loads the revision fallen back to. -/
theorem Pv.Right.run {pv : Pv} (h : pv.Right) (hinv : Inv pv) (hnext : pv.next = .run)
    (cfg : Config) (io : RunIo) :
    (∀ r ∈ (pvRun cfg io pv).reports, r.Right) ∧
      (¬ (pv.update = none ∧ pv.bl.updateInProgress = true ∧ pv.bl.tryingUpdate = false ∧
          io.signature = true ∧ io.parse = true) → (pvRun cfg io pv).Right) := by
  have hresume := h.resume io.creds
  have hload : (pvRunLoad io (pvUpdateResume io.creds pv).2).reports
      = (pvUpdateResume io.creds pv).2.reports := by
    unfold pvRunLoad
    split
    · rfl
    · split <;> rfl
  have hreports : (pvRun cfg io pv).reports = (pvUpdateResume io.creds pv).2.reports := by
    unfold pvRun
    dsimp only
    split
    · exact hload
    · split
      · exact hload
      · split <;> exact hload
  have hright : ∀ r ∈ (pvRun cfg io pv).reports, r.Right := by
    rw [hreports]
    exact hresume.reports
  refine ⟨hright, fun hno => ⟨fun u hu => ?_, hright⟩⟩
  rw [(pvRun_spec cfg io pv).2.2.1] at hu
  -- the update that is resumed, and the one whose pending state is loaded
  obtain ⟨hk, hcase⟩ := pvUpdateResume_spec io.creds pv
  unfold pvRunLoad at hu
  split at hu
  · exact hresume.update u hu
  · rename_i htrans
    split at hu
    · exact hresume.update u hu
    · rename_i hsig
      obtain ⟨u₀, hu₀, rfl⟩ := Option.map_eq_some_iff.mp hu
      rcases hcase with hsame | ⟨hnone, rev, hrev, hnew⟩
      · -- a second `_pv_run` is one of a transition
        rw [hu₀] at hsame
        rw [hu₀] at htrans
        exact absurd (by simp [pvUpdateIsTransitioning, hinv.rerun hnext u₀ hsame.symm]) htrans
      · obtain rfl := Option.some.inj (hu₀.symm.trans hnew)
        intro rev' hrev'
        dsimp only at hrev'
        split at hrev'
        · rename_i hparse
          by_contra hne
          have hnotSame : rev ≠ pv.bl.pvRev := by
            rintro rfl
            rw [hk.bl] at hrev'
            exact hne (by simpa [resumed, pvUpdateNew] using (Option.some.inj hrev').symm)
          have hprogress : pv.bl.updateInProgress = true := by
            by_contra hoff
            have hupd : (pvUpdateResume io.creds pv).2.update = none := by
              simp [pvUpdateResume, hnone, hoff]
            rw [hupd] at hu₀
            cases hu₀
          exact hno ⟨hnone, hprogress, by simp [PvBootloader.tryingUpdate, hrev, hnotSame],
            by simpa using hsig, hparse⟩
        · cases hrev'

/-! ## Runs -/

/-- What is reported in a step of the device; of a step that loses power, what
it may have reported. -/
def Device.reported (cfg : Config) (d : Device) : Event → List Report
  | .boot _ => []
  | .step io | .powerLoss io _ =>
    match d.ram with
    | none => []
    | some pv => (d.process cfg io pv).reports

/-- Every report of the step stores the progress for its own revision. -/
def ReportsRight (cfg : Config) (d : Device) (e : Event) : Prop :=
  ∀ r ∈ d.reported cfg e, r.Right

/-- A step of the process reports right, and keeps that, unless it loads the
revision fallen back to. -/
theorem pvRunState_right (cfg : Config) (io : StepIo) {pv : Pv} (h : pv.Right) (hinv : Inv pv) :
    (∀ r ∈ (pvRunState cfg io pv).reports, r.Right) ∧
      (¬ (pv.next = .run ∧ pv.update = none ∧ pv.bl.updateInProgress = true ∧
          pv.bl.tryingUpdate = false ∧ io.run.signature = true ∧ io.run.parse = true) →
        (pvRunState cfg io pv).Right) := by
  have both : ∀ {pv' : Pv} {P : Prop}, pv'.Right → (∀ r ∈ pv'.reports, r.Right) ∧ (P → pv'.Right) :=
    fun h' => ⟨h'.reports, fun _ => h'⟩
  have hsame : ∀ next, ({ pv with next := next } : Pv).Right := fun _ => h.of_eq rfl rfl
  cases hnext : pv.next with
  | run =>
      have hrun := h.run hinv hnext cfg io.run
      simp only [pvRunState, hnext, true_and]
      exact hrun
  | wait => simpa only [pvRunState, hnext] using both (h.wait cfg io.wait)
  | command => simpa only [pvRunState, hnext] using both (h.command io.command)
  | update => simpa only [pvRunState, hnext] using both (h.updateEntry cfg io.update)
  | rollback =>
      have hroll : (pvRollback pv).Right := by
        unfold pvRollback
        split
        · exact hsame _
        · exact (h.setStatus _).of_eq rfl rfl
      simpa only [pvRunState, hnext] using both hroll
  | _ => simpa only [pvRunState, hnext] using both (hsame _)

/-- The update of the process is right, and the invariant of the process. -/
def ProgressInv (d : Device) : Prop :=
  DeviceInv d ∧ ∀ pv, d.ram = some pv → ∀ u, pv.update = some u → u.Right

theorem ProgressInv.step (cfg : Config) {d : Device} (h : ProgressInv d) (e : Event)
    (hno : d.loadsFallback e = false) :
    ProgressInv (d.step cfg e) ∧ ReportsRight cfg d e := by
  refine ⟨⟨h.1.step cfg e, ?_⟩, ?_⟩
  · cases hram : d.ram with
    | none =>
        cases e with
        | boot unclaimed =>
            intro pv hpv u hu
            simp only [Device.step, hram, Device.bootStep, Option.some.injEq] at hpv
            rw [← hpv] at hu
            cases hu
        | step io => exact fun pv hpv => by simp [Device.step, hram] at hpv
        | powerLoss io writes => exact fun pv hpv => by simp [Device.step, hram] at hpv
    | some pv₀ =>
        cases e with
        | boot unclaimed => simpa only [Device.step, hram] using h.2
        | step io =>
            intro pv hpv u hu
            have hstart : (pv₀.atStep d.flash.env).Right :=
              ⟨h.2 pv₀ hram, fun r hr => by cases hr⟩
            have hstep := (pvRunState_right cfg io hstart ((h.1 pv₀ hram).atStep _)).2
            simp only [Device.step, hram] at hpv
            split at hpv
            · cases hpv
            · obtain rfl := Option.some.inj hpv
              refine (hstep fun hall => ?_).update u hu
              obtain ⟨hn, hnone, hp, ht, hs, hparse⟩ := hall
              simp [Device.loadsFallback, hram] at hno
              have hn' : pv₀.next = .run := hn
              have hnone' : pv₀.update = none := hnone
              have := hno hn' (by simp [hnone']) hp ht hs
              rw [hparse] at this
              cases this
        | powerLoss io writes => exact fun pv hpv => by simp [Device.step, hram] at hpv
  · intro r hr
    cases hram : d.ram with
    | none => cases e <;> simp [Device.reported, hram] at hr
    | some pv₀ =>
        have hstart : (pv₀.atStep d.flash.env).Right := ⟨h.2 pv₀ hram, fun r hr => by cases hr⟩
        cases e with
        | boot unclaimed => cases hr
        | step io =>
            simp only [Device.reported, hram] at hr
            exact (pvRunState_right cfg io hstart ((h.1 pv₀ hram).atStep _)).1 r hr
        | powerLoss io writes =>
            simp only [Device.reported, hram] at hr
            exact (pvRunState_right cfg io hstart ((h.1 pv₀ hram).atStep _)).1 r hr

/-- **Progress goes to the right revision** in every run in which no boot loads
the revision fallen back to with the update of a failed try. -/
theorem progress_right_of_no_fallback (cfg : Config) {d : Device} (hinit : (deviceSystem cfg).init d)
    {es : List Event}
    (hno : (deviceSystem cfg).Along (fun d e => d.loadsFallback e = false) d es) :
    (deviceSystem cfg).Along (ReportsRight cfg) d es := by
  have hstart : ProgressInv d := by
    refine ⟨?_, fun pv hpv => ?_⟩
    · exact deviceInv_of_reachable (System.Reachable.init hinit)
    · rw [hinit.1] at hpv
      cases hpv
  exact (System.along_of_invariant (fun s l hs hl => hs.step cfg l hl) hstart hno).1

/-- A device that boots to try revision 2. -/
def tryingDevice : Device := ⟨⟨[(str "pv_rev", str "1"), (str "pv_try", str "2")], false⟩, none⟩

/-- A try that is committed reports right. -/
theorem progress_right_of_no_fallback_committed :
    (deviceSystem .unattended).Along (ReportsRight .unattended) tryingDevice
      [.boot false, .step .ok, .step .ok, .step .ok] :=
  progress_right_of_no_fallback .unattended (by exact ⟨rfl, rfl⟩)
    ⟨by decide +kernel, by decide +kernel, by decide +kernel, by decide +kernel, trivial⟩

/-- The device behind the boot that follows a failed try of revision 2. -/
def fallenBack : Device :=
  (deviceSystem .unattended).run tryingDevice
    [.boot false, .step .ok, .step .noStart, .step .ok, .step .ok, .boot false, .step .ok, .step .ok]

/-- Its next step records the revision fallen back to as failed: it reports
revision 2 and stores that for revision 1. -/
theorem fallback_recorded_as_failed :
    ¬ ∀ (cfg : Config) (d : Device) (e : Event), (deviceSystem cfg).Reachable d →
      ReportsRight cfg d e :=
  fun h =>
    have hreach : (deviceSystem .unattended).Reachable fallenBack :=
      (System.Reachable.init (by exact ⟨rfl, rfl⟩)).run _
    have hreport : (⟨str "2", some (str "1"), .updateFailed⟩ : Report) ∈
        fallenBack.reported .unattended (.step .ok) := by decide +kernel
    absurd (h .unattended fallenBack (.step .ok) hreach _ hreport (str "1") rfl) (by decide)

end Pantavisor.Controller
