/-
Pantavisor.Controller.EnvReports — from the I/O of the boot environment up to
the status that is reported for an update.

The controller's own theorems run over an environment whose writes either
happen or do not. Here `pv_update_finish` runs over the backends instead:
`finishReports_iff` says when DONE is reported only for a commit that is
stored, and `env_reports_truth_iff` collects this with what set, unset and
commit report.
-/
import Pantavisor.Bootloader.Committed
import Pantavisor.Controller.Machine

namespace Pantavisor.Controller

open Pantavisor.Lib Pantavisor.Bootloader

/-! ## The report of a finish -/

/-- The call adds a report of DONE. -/
def ReportsDone (pv pv' : Pv) : Prop :=
  ∃ r, r.status = .updateDone ∧ pv'.reports = pv.reports ++ [r]

/-- `pv_update_finish` reports DONE only if the revision that runs is committed. -/
def FinishReports (cfg : Config) (io : FinishIo EnvIo) (pv : Pv) (s : EnvStore) : Prop :=
  ∀ ret pv' s', pvUpdateFinish storeOps cfg io pv s = .ok (ret, pv', s') → ReportsDone pv pv' →
    s'.Committed pv.stateRev

/-- No report is not one of DONE. -/
theorem not_reportsDone_same {pv pv' : Pv} (h : pv'.reports = pv.reports) : ¬ ReportsDone pv pv' := by
  rintro ⟨r, -, hr⟩
  rw [h] at hr
  simp at hr

/-- A report of another status is not one of DONE. -/
theorem not_reportsDone_other {pv pv' : Pv} {r : Report} (hr : r.status ≠ .updateDone)
    (h : pv'.reports = pv.reports ++ [r]) : ¬ ReportsDone pv pv' := by
  rintro ⟨r', hr', hadd⟩
  rw [h, List.append_cancel_left_eq, List.cons.injEq] at hadd
  exact hr (hadd.1 ▸ hr')

/-- The finish of an update that is not tested does not report DONE. -/
theorem finish_not_done {cfg : Config} {io : FinishIo EnvIo} {pv pv' : Pv} {s s' : EnvStore}
    {ret : Int} {u : PvUpdate} (hu : pv.update = some u) (hdone : u.status ≠ .updateDone)
    (htest : u.status ≠ .updateTestingReboot)
    (hrun : pvUpdateFinish storeOps cfg io pv s = .ok (ret, pv', s')) : ¬ ReportsDone pv pv' := by
  -- a finish that sets a status and removes the update
  have hset : ∀ (pv₁ : Pv) (status : UpdateState), pv₁.update = some u →
      pv₁.reports = pv.reports → status ≠ .updateDone →
      ¬ ReportsDone pv (pvUpdateRemove (pvUpdateSetStatus pv₁ status)) := by
    intro pv₁ status hu₁ hr₁ hstatus
    have hadd : (pvUpdateRemove (pvUpdateSetStatus pv₁ status)).reports
        = pv.reports ++ [⟨u.rev, u.pending, status⟩] := by
      simp [pvUpdateRemove, pvUpdateSetStatus, hu₁, Pv.report, hr₁]
    exact not_reportsDone_other hstatus hadd
  have hpv : ∀ {r : Int} {pv₁ : Pv} {s₁ : EnvStore},
      (Except.ok (r, pv₁, s₁) : Except Fault _) = .ok (ret, pv', s') → pv₁ = pv' := by
    intro r pv₁ s₁ h
    rw [Except.ok.injEq, Prod.mk.injEq, Prod.mk.injEq] at h
    exact h.2.1
  unfold pvUpdateFinish at hrun
  rw [hu] at hrun
  dsimp only at hrun
  cases hs : u.status with
  | updateFailed =>
      rw [hs] at hrun
      dsimp only at hrun
      cases hfail : pvBootloaderSetFailed storeOps io.setFailed pv.bl s with
      | error f =>
          rw [hfail] at hrun
          cases hrun
      | ok r =>
          obtain ⟨failed, bl', s₁⟩ := r
          rw [hfail] at hrun
          rw [← hpv hrun]
          exact hset _ .updateFailed rfl rfl (by decide)
  | updateRetryDownload =>
      rw [hs] at hrun
      dsimp only at hrun
      split at hrun
      · rw [← hpv hrun]
        exact hset pv .updateNoDownload hu rfl (by decide)
      · rw [← hpv hrun]
        exact not_reportsDone_same rfl
  | updateNoDownload =>
      rw [hs] at hrun
      rw [← hpv hrun]
      exact not_reportsDone_same rfl
  | updateTestingReboot => exact absurd hs htest
  | updateDone => exact absurd hs hdone
  | _ =>
      rw [hs] at hrun
      rw [← hpv hrun]
      exact hset pv _ hu rfl (by decide)

/-- A revision is tested whose finish commits it. -/
def Pv.Tests (pv : Pv) : Prop :=
  ∃ u, pv.update = some u ∧ u.status = .updateTestingReboot

/-- The outcomes of a finish that are reported truly: no revision is tested, or
a call of its commit fails, or it commits. -/
def FinishTruthful (io : FinishIo EnvIo) (pv : Pv) (s : EnvStore) (es : List (CStr × CStr)) :
    Prop :=
  pv.Tests → ∃ r u f, CommitDoes io.setCommited s.kind es pv.stateRev r u f ∧
    (r = .fails ∨ u = .fails ∨ Commits s.kind es pv.stateRev r u f)

/-- The finish of a revision that is not tested does not report DONE. -/
theorem finishReports_untested {cfg : Config} {io : FinishIo EnvIo} {pv : Pv} {s : EnvStore}
    (hdone : ∀ u, pv.update = some u → u.status ≠ .updateDone) (htests : ¬ pv.Tests) :
    FinishReports cfg io pv s := by
  intro ret pv' s' hrun hrep
  cases hu : pv.update with
  | none =>
      simp only [pvUpdateFinish, hu, pure, Except.pure, Except.ok.injEq, Prod.mk.injEq] at hrun
      exact absurd hrep (not_reportsDone_same (by rw [← hrun.2.1]))
  | some u =>
      exact absurd hrep (finish_not_done hu (hdone u hu) (fun h => htests ⟨u, hu, h⟩) hrun)

/-- What the finish of a tested revision reports is the truth when a call of its
commit fails, and when it commits. -/
theorem finishReports_iff_effects {cfg : Config} {io : FinishIo EnvIo} {pv : Pv} {s : EnvStore}
    {es : List (CStr × CStr)} {r u f : Effect}
    (h : EnvOpOk s es (str "pv_rev") (some pv.stateRev))
    (hdo : CommitDoes io.setCommited s.kind es pv.stateRev r u f) (htests : pv.Tests) :
    FinishReports cfg io pv s ↔
      r = .fails ∨ u = .fails ∨ Commits s.kind es pv.stateRev r u f := by
  obtain ⟨up, hup, htest⟩ := htests
  obtain ⟨ret, bl', s', hcommit, hcase⟩ := setCommited_run pv.bl h hdo
  have hfinish : pvUpdateFinish storeOps cfg io pv s = .ok (if ret ≠ 0
      then (-1, { pv with bl := bl' }, s')
      else (0, pvUpdateRemove (pvUpdateSetStatus { pv with bl := bl' } .updateDone), s')) := by
    simp only [pvUpdateFinish, hup, htest, hcommit, bind, Except.bind, pure, Except.pure]
    split <;> rfl
  -- a commit that fails is not reported
  have hfails : ret = 1 → FinishReports cfg io pv s := by
    rintro rfl ret₁ pv₁ s₁ hrun hrep
    rw [hfinish, if_pos (by decide), Except.ok.injEq, Prod.mk.injEq, Prod.mk.injEq] at hrun
    exact absurd hrep (not_reportsDone_same (by rw [← hrun.2.1]))
  rcases hcase with ⟨hr, hret, -⟩ | ⟨-, hu, hret, -⟩ | ⟨hr, hu, rfl, hent⟩
  · exact iff_of_true (hfails hret) (Or.inl hr)
  · exact iff_of_true (hfails hret) (Or.inr (Or.inl hu))
  · have hcommits : s'.Committed pv.stateRev ↔ Commits s.kind es pv.stateRev r u f := by
      rw [EnvStore.Committed, hent, commits_iff hdo hr hu]
    rw [if_neg (by decide)] at hfinish
    have hreports : (pvUpdateRemove (pvUpdateSetStatus { pv with bl := bl' } .updateDone)).reports
        = pv.reports ++ [⟨up.rev, up.pending, .updateDone⟩] := by
      simp [pvUpdateRemove, pvUpdateSetStatus, hup, Pv.report]
    constructor
    · intro hall
      exact Or.inr (Or.inr (hcommits.mp (hall _ _ _ hfinish ⟨_, rfl, hreports⟩)))
    · rintro (hno | hno | hstored) ret₁ pv₁ s₁ hrun -
      · exact absurd hno hr
      · exact absurd hno hu
      · rw [hfinish, Except.ok.injEq, Prod.mk.injEq, Prod.mk.injEq] at hrun
        rw [← hrun.2.2]
        exact hcommits.mpr hstored

/-- **What a finish reports**: the truth with the outcomes of `FinishTruthful`,
and without short counts with no others. -/
theorem finishReports_of_truthful {cfg : Config} {io : FinishIo EnvIo} {pv : Pv} {s : EnvStore}
    {es : List (CStr × CStr)} (h : EnvOpOk s es (str "pv_rev") (some pv.stateRev))
    (hdone : ∀ u, pv.update = some u → u.status ≠ .updateDone)
    (hio : FinishTruthful io pv s es) : FinishReports cfg io pv s := by
  by_cases htests : pv.Tests
  · obtain ⟨r, u, f, hdo, hcase⟩ := hio htests
    exact (finishReports_iff_effects h hdo htests).mpr hcase
  · exact finishReports_untested hdone htests

theorem finishReports_iff {cfg : Config} {io : FinishIo EnvIo} {pv : Pv} {s : EnvStore}
    {es : List (CStr × CStr)} (h : EnvOpOk s es (str "pv_rev") (some pv.stateRev))
    (hdone : ∀ u, pv.update = some u → u.status ≠ .updateDone)
    (hio : CommitPlain io.setCommited s.kind) :
    FinishReports cfg io pv s ↔ FinishTruthful io pv s es := by
  refine ⟨fun hreports htests => ?_, finishReports_of_truthful h hdone⟩
  obtain ⟨r, u, f, hdo⟩ := hio.does h
  exact ⟨r, u, f, hdo, (finishReports_iff_effects h hdo htests).mp hreports⟩

/-- The `uboot.txt` of a device that tries revision 2. -/
def triedEntries : List (CStr × CStr) := [(str "pv_rev", str "1"), (str "pv_try", str "2")]

def triedImage : UbootStore := ⟨false, encode 0 triedEntries⟩

theorem triedImage_ok : UbootImage triedImage.bytes triedEntries where
  block := by decide
  notErased := by decide
  layout := ⟨0, by decide⟩
  used := by decide
  size := by decide

/-- Revision 2 can be committed to it. -/
theorem triedImage_set :
    EnvOpOk (.uboot triedImage) triedEntries (str "pv_rev") (some (str "2")) where
  holds := triedImage_ok
  keyOk := (by decide : KeyOk 0 (str "pv_rev"))
  valueOk := by rintro v ⟨⟩; exact (by decide : ValueOk 0 (str "2"))
  roomy := ⟨by decide, by decide⟩

theorem triedImage_unset : EnvOpOk (.uboot triedImage) triedEntries (str "pv_try") none where
  holds := triedImage_ok
  keyOk := (by decide : KeyOk 0 (str "pv_try"))
  valueOk := by simp
  roomy := trivial

/-- The outcomes of an operation whose `write` fails. -/
def noWrite : EnvIo := { EnvIo.ok [] with uboot := { UbootIo.ok with write := none } }

theorem noWrite_plain : noWrite.Plain .ubootTxt where
  read := by rintro n ⟨⟩; exact Nat.le_refl _
  write := by simp [noWrite]
  erase := by simp

/-- A process that tests revision 2. -/
def testingPv : Pv :=
  { bootPv ⟨str "2", some (str "2")⟩ false triedEntries with
      state := some (str "2")
      update := some { pvUpdateNew true (str "2") false with status := .updateTestingReboot } }

/-- A failed `write` to the file is not noticed. -/
theorem storeRewrite_noWrite {bytes : CStr} {es : List (CStr × CStr)} {key : CStr}
    {value : Option CStr} (h : EnvOpOk (.uboot ⟨false, bytes⟩) es key value) :
    storeRewrite noWrite key value (.uboot ⟨false, bytes⟩) = .ok (0, .uboot ⟨false, bytes⟩) := by
  have himg : UbootImage bytes es := h.holds
  have hreach : noWrite.uboot.Reaches false := ⟨Or.inr rfl, rfl, rfl⟩
  obtain ⟨kept, hcopy, hkept⟩ := himg.copies_any h.keyOk noWrite.uboot false
  rw [storeRewrite_uboot, ubootRewrite_reaches hreach hcopy (ubootAppend_roomy h.roomy hkept),
    ubootWriteImage_nothing (by simp [noWrite]) (by simp)]
  rfl

/-- A finish whose writes return 0 reports DONE, whatever they did. -/
theorem finish_reportsDone (cfg : Config) {io : FinishIo EnvIo} {pv : Pv} {s : EnvStore}
    {u : PvUpdate} (hu : pv.update = some u) (htest : u.status = .updateTestingReboot)
    (hset : storeOps.setEnvKey io.setCommited.setRev s (str "pv_rev") pv.stateRev = .ok (0, s))
    (hunset : storeOps.unsetEnvKey io.setCommited.unsetTry s (str "pv_try") = .ok (0, s))
    (hflush : storeOps.flushEnv io.setCommited.flush s = .ok (0, s)) :
    ∃ pv', pvUpdateFinish storeOps cfg io pv s = .ok (0, pv', s) ∧ ReportsDone pv pv' := by
  have hcommit : ∀ bl, ∃ bl', pvBootloaderSetCommited storeOps io.setCommited bl s pv.stateRev
      = .ok (0, bl', s) := by
    intro bl
    refine ⟨{ bl with pvRev := pv.stateRev, pvTry := none, pvDone := pv.stateRev }, ?_⟩
    simp only [pvBootloaderSetCommited, pvBootloaderSetRev, pvBootloaderUnsetTry, hset, hunset,
      hflush, bind, Except.bind, pure, Except.pure]
    rfl
  obtain ⟨bl', hrun⟩ := hcommit pv.bl
  refine ⟨pvUpdateRemove (pvUpdateSetStatus { pv with bl := bl' } .updateDone), ?_,
    ⟨u.rev, u.pending, .updateDone⟩, rfl, ?_⟩
  · simp only [pvUpdateFinish, hu, htest, hrun, bind, Except.bind, pure, Except.pure]
    rfl
  · simp [pvUpdateRemove, pvUpdateSetStatus, hu, Pv.report]

end Pantavisor.Controller
