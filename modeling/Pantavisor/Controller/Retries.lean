/-
Pantavisor.Controller.Retries — how often an update is downloaded.

`pv_update_check_download_retry` counts, and is the only function that does: every call of
`trail_download_objects` has one count before it, and the count that gets past the maximum
has none behind it, but a `pv_update_finish` that removes the update (`retriesBounded`). No count
gets past a maximum that is the greatest `int` (`retries_unbounded`).
-/
import Pantavisor.Controller.Verdict

namespace Pantavisor.Controller

open Pantavisor.Lib Pantavisor.Bootloader

/-! ## What is counted -/

/-- The process in which `pv_update_download` calls `trail_download_objects`. -/
def Pv.downloadPoint (cfg : Config) (io : DownloadIo) (pv : Pv) : Option Pv :=
  match pv.state, pv.update with
  | some _, some u =>
    if u.pending = none ∨ u.isLocal = true ∨ io.remoteInit = false then none
    else if (pvUpdateCheckDownloadRetry cfg io pv u).1 ≠ 0 then none
    else some (pvUpdateCheckDownloadRetry cfg io pv u).2
  | _, _ => none

/-- The same for a step of the process. -/
def Pv.calls (cfg : Config) (io : StepIo) (pv : Pv) : Option Pv :=
  if pv.next = .update then pv.downloadPoint cfg io.update.download else none

/-- The call of `trail_download_objects`, and what `pv_update_download` does behind it. -/
def downloadFrom (io : DownloadIo) (pv : Pv) : Bool × Pv :=
  let (ok, pv) := trailDownloadObjects io pv
  if !ok then (false, pv) else (true, pvUpdateSetStatus pv .updateDownloaded)

/-- A step calls `trail_download_objects` just where `calls` says so: there the download of
`_pv_update` goes on with the call, and elsewhere it reports nothing, as the call does. -/
structure CallsAt (cfg : Config) (io : StepIo) (pv : Pv) : Prop where
  made : ∀ pv₁, pv.calls cfg io = some pv₁ → pv.next = .update ∧
    pvUpdateDownload cfg io.update.download pv = downloadFrom io.update.download pv₁ ∧
    pv₁.reports.length < (trailDownloadObjects io.update.download pv₁).2.reports.length
  notMade : pv.calls cfg io = none → pv.next = .update →
    (pvUpdateDownload cfg io.update.download pv).2.reports = pv.reports

/-- The number that the retry report of a step carries, if there is one:
`trail_download_objects` is the only function that reports one. -/
def Pv.retryReport (cfg : Config) (io : StepIo) (pv : Pv) : Option Int :=
  (pv.calls cfg io).bind fun pv₁ =>
    ((trailDownloadObjects io.update.download pv₁).2.update.filter
      fun u => u.status = .updateRetryDownload).map (·.retries)

/-- The steps that a process makes with the update it has, up to the one that removes it, each
with the process as the step finds it. -/
def life (cfg : Config) : Device → List StepIo → List (Pv × StepIo)
  | _, [] => []
  | d, io :: ios =>
    match d.ram with
    | none => []
    | some pv =>
      if pv.update = none then []
      else (pv.atStep d.flash.env, io) :: life cfg (d.step cfg (.step io)) ios

/-- A step gives the process an update from the trail, with so many retries recorded. -/
def Creates (cfg : Config) (d : Device) (io : StepIo) (recorded : Int) : Prop :=
  (∃ pv, d.ram = some pv ∧ pv.update = none) ∧
    ∃ pv u, (d.step cfg (.step io)).ram = some pv ∧ pv.update = some u ∧
      u.status = .updateQueued ∧ u.retries = recorded

/-- The count gets past the maximum in a step. -/
def Pv.Passes (cfg : Config) (io : StepIo) (pv : Pv) : Prop :=
  pv.next = .update ∧ ∃ u, (pvUpdateTransfer cfg io.update pv).2.update = some u ∧
    cfg.revisionRetries < u.retries

/-- The retries of an update are bounded. -/
structure Bounded (cfg : Config) (recorded : Int) (steps : List (Pv × StepIo)) : Prop where
  /-- where `trail_download_objects` is called -/
  callsAt : ∀ s ∈ steps, CallsAt cfg s.2 s.1
  /-- it is called no more often than this -/
  calls : ((steps.filter fun s => (s.1.calls cfg s.2).isSome).length : Int)
    ≤ max 0 (cfg.revisionRetries - recorded)
  /-- the numbers of the retry reports increase -/
  reports : (steps.filterMap fun s => s.1.retryReport cfg s.2).Pairwise (· < ·)
  /-- between steps the count is not past the maximum -/
  between : ∀ s ∈ steps, ∀ u, s.1.update = some u → u.retries ≤ cfg.revisionRetries
  /-- where it gets past it, what follows is a `pv_update_finish` that removes the update -/
  removed : ∀ s ∈ steps, s.1.Passes cfg s.2 →
    (pvUpdateTransfer cfg s.2.update s.1).1 = false ∧
      (finishUpdate cfg s.2.update.finish (pvUpdateTransfer cfg s.2.update s.1).2).2.update = none

/-! ## Steps that do not count -/

section Kept

variable (cfg : Config) {pv : Pv} {u u' : PvUpdate}

theorem trailGetNewSteps_update (io : StepsIo) (hu : pv.update = some u) :
    (trailGetNewSteps cfg io pv).2.update = some u := by
  unfold trailGetNewSteps
  dsimp only
  repeat' split
  all_goals first
    | exact hu
    | (rename_i hnone; exact absurd (hnone.symm.trans hu) (by simp))

theorem pvUpdaterCheckForUpdates_update (io : UpdatesIo) (hu : pv.update = some u) :
    (pvUpdaterCheckForUpdates cfg io pv).2.update = some u := by
  unfold pvUpdaterCheckForUpdates
  split
  · exact hu
  · split
    · exact hu
    · split
      · have hsynced : ({ pv with synced := true } : Pv).update = some u := hu
        exact trailGetNewSteps_update cfg io.steps hsynced
      · exact hu

/-- A finish keeps the count of an update that it leaves. -/
theorem finishUpdate_retries (io : FinishIo Bool) (hu : pv.update = some u)
    (hu' : (finishUpdate cfg io pv).2.update = some u') : u' = u ∧ finishLeaves cfg io u = true := by
  rw [(finishUpdate_spec cfg io pv).update, hu, Option.filter_some] at hu'
  split at hu'
  · exact ⟨(Option.some.inj hu').symm, ‹_›⟩
  · cases hu'

theorem pvWaitUpdate_retries (io : WaitUpdateIo) (hu : pv.update = some u)
    (hu' : (pvWaitUpdate cfg io pv).2.update = some u') : u'.retries = u.retries := by
  have htest : (pvWaitTest cfg io pv).update = some { u with status := u.status.tested } := by
    rw [(pvWaitTest_spec cfg io pv).update, hu, Option.map_some]
  unfold pvWaitUpdate at hu'
  split at hu'
  · rw [hu] at hu'
    rw [← Option.some.inj hu']
  · dsimp only at hu'
    split at hu'
    · rw [htest] at hu'
      rw [← Option.some.inj hu']
    · have hleft : (finishUpdate cfg io.finish (pvWaitTest cfg io pv)).2.update = some u' := by
        split at hu' <;> exact hu'
      rw [(finishUpdate_retries cfg io.finish htest hleft).1]

theorem pvWaitNetwork_retries (io : NetworkIo) (wio : WaitUpdateIo) (hu : pv.update = some u)
    (hu' : (pvWaitNetwork cfg io wio pv).2.update = some u') : u'.retries = u.retries := by
  have hsame : pv.update = some u' → u'.retries = u.retries := by
    intro h
    rw [Option.some.inj (hu.symm.trans h)]
  have hchecked := pvUpdaterCheckForUpdates_update cfg io.updates hu
  unfold pvWaitNetwork at hu'
  split at hu'
  · repeat' split at hu'
    all_goals exact hsame hu'
  · split at hu'
    · exact hsame hu'
    · split at hu'
      · exact pvWaitUpdate_retries cfg wio hu hu'
      · dsimp only at hu'
        split at hu'
        · rw [Option.some.inj (hchecked.symm.trans hu')]
        · exact pvWaitUpdate_retries cfg wio hchecked hu'

theorem pvWait_retries (io : WaitIo) (hu : pv.update = some u)
    (hu' : (pvWait cfg io pv).update = some u') : u'.retries = u.retries := by
  rcases pvWait_spec cfg io pv with ⟨-, next, -, heq⟩ | ⟨-, cmd, next, heq, -⟩
  · rw [heq] at hu'
    rw [Option.some.inj (hu.symm.trans hu')]
  · rw [heq] at hu'
    have hops : (pvWaitOps cfg io pv).2.update = some u' := hu'
    unfold pvWaitOps at hops
    split at hops
    · split at hops
      · dsimp only at hops
        split at hops
        · unfold pvWaitUnclaimed at hops
          have hkept : pv.update = some u' := by
            repeat' split at hops
            all_goals exact hops
          rw [Option.some.inj (hu.symm.trans hkept)]
        · have hdelayed : ({ pv with timerWaitDelay := io.nowRestart + cfg.updaterInterval } :
              Pv).update = some u := hu
          exact pvWaitNetwork_retries cfg io.network io.waitUpdate hdelayed hops
      · rw [Option.some.inj (hu.symm.trans hops)]
    · exact pvWaitUpdate_retries cfg io.waitUpdate hu hops

theorem pvRun_retries (io : RunIo) (hu : pv.update = some u)
    (hu' : (pvRun cfg io pv).update = some u') : u'.retries = u.retries := by
  have hresume : (pvUpdateResume io.creds pv).2.update = some u := by
    rw [pvUpdateResume, hu]
    exact hu
  rw [(pvRun_spec cfg io pv).2.2.1] at hu'
  unfold pvRunLoad at hu'
  split at hu'
  · rw [Option.some.inj (hresume.symm.trans hu')]
  · split at hu'
    · rw [Option.some.inj (hresume.symm.trans hu')]
    · obtain ⟨u₀, hu₀, rfl⟩ := Option.map_eq_some_iff.mp hu'
      rw [Option.some.inj (hresume.symm.trans hu₀)]

/-- **Only `_pv_update` counts.** -/
theorem pvRunState_retries (io : StepIo) (hnext : pv.next ≠ .update) (hu : pv.update = some u)
    (hu' : (pvRunState cfg io pv).update = some u') : u'.retries = u.retries := by
  have hsame : pv.update = some u' → u'.retries = u.retries := by
    intro h
    rw [Option.some.inj (hu.symm.trans h)]
  unfold pvRunState at hu'
  cases hn : pv.next <;> rw [hn] at hu' <;> dsimp only at hu'
  case run => exact pvRun_retries cfg io.run hu hu'
  case wait => exact pvWait_retries cfg io.wait hu hu'
  case command =>
    rcases (pvCommand_spec io.command pv).update with ⟨h, -⟩ | ⟨h, -⟩
    · exact hsame (h.symm.trans hu')
    · rw [hu] at h
      cases h
  case update => exact absurd hn hnext
  case rollback =>
    unfold pvRollback at hu'
    split at hu'
    · exact hsame hu'
    · have hset := update_setStatus pv .updateFailed
      rw [hu, Option.map_some] at hset
      rw [← Option.some.inj (hset.symm.trans hu')]
  all_goals exact hsame hu'

end Kept

/-! ## The step that counts -/

section Counted

variable (cfg : Config) {pv : Pv} {u u' : PvUpdate}

theorem setStatus_retries (status : UpdateState) (hu : pv.update = some u) :
    ∃ u', (pvUpdateSetStatus pv status).update = some u' ∧ u'.retries = u.retries := by
  refine ⟨{ u with status := status }, ?_, rfl⟩
  rw [update_setStatus, hu, Option.map_some]

theorem reports_setStatus (status : UpdateState) (hu : pv.update = some u) :
    (pvUpdateSetStatus pv status).reports = pv.reports ++ [⟨u.rev, u.pending, status⟩] := by
  rw [pvUpdateSetStatus, hu]
  rfl

/-- Each way through `trail_download_objects` reports something. -/
theorem trailDownloadObjects_reports (io : DownloadIo) (hu : pv.update = some u) :
    pv.reports.length < (trailDownloadObjects io pv).2.reports.length := by
  have hset : ∀ status, pv.reports.length < (pvUpdateSetStatus pv status).reports.length := by
    intro status
    rw [reports_setStatus status hu, List.length_append]
    exact Nat.lt_succ_self _
  have hset' : ∀ status, pv.reports.length
      < (pvUpdateSetStatus (pvUpdateSetStatus pv .updateDownloadProgress) status).reports.length := by
    intro status
    obtain ⟨u₁, hu₁, -⟩ := setStatus_retries .updateDownloadProgress hu
    rw [reports_setStatus status hu₁, List.length_append]
    exact Nat.lt_of_lt_of_le (hset _) (Nat.le_add_right _ _)
  unfold trailDownloadObjects
  split
  · exact hset _
  · split
    · exact hset _
    · dsimp only
      split
      · exact hset' _
      · exact hset' _

theorem trailDownloadObjects_retries (io : DownloadIo) (hu : pv.update = some u) :
    ∃ u', (trailDownloadObjects io pv).2.update = some u' ∧ u'.retries = u.retries := by
  unfold trailDownloadObjects
  split
  · exact setStatus_retries _ hu
  · split
    · exact setStatus_retries _ hu
    · obtain ⟨u₁, hu₁, hcount⟩ := setStatus_retries .updateDownloadProgress hu
      dsimp only
      split
      · obtain ⟨u₂, hu₂, hcount'⟩ := setStatus_retries .updateRetryDownload hu₁
        exact ⟨u₂, hu₂, hcount'.trans hcount⟩
      · obtain ⟨u₂, hu₂, hcount'⟩ := setStatus_retries .updateDownloadProgress hu₁
        exact ⟨u₂, hu₂, hcount'.trans hcount⟩

/-- Each count that is not past a maximum has one behind it. -/
theorem nextRetry_eq {n : Int} (hint : -2147483648 ≤ n) (hmax : n ≤ cfg.revisionRetries)
    (hcfg : cfg.revisionRetries < 2147483647) : nextRetry n = n + 1 := by
  rw [nextRetry]
  exact Int.bmod_eq_of_le (by omega) (by omega)

/-- A check waits, gives up past the maximum, or goes on below it. -/
theorem pvUpdateCheckDownloadRetry_cases (io : DownloadIo) (hu : pv.update = some u) :
    ((pvUpdateCheckDownloadRetry cfg io pv u).1 ≠ 0 ∧
        (pvUpdateCheckDownloadRetry cfg io pv u).2.update = some u) ∨
      ((pvUpdateCheckDownloadRetry cfg io pv u).1 ≠ 0 ∧
        cfg.revisionRetries < nextRetry u.retries ∧
        (pvUpdateCheckDownloadRetry cfg io pv u).2.update
          = some { u with retries := nextRetry u.retries }) ∨
      ((pvUpdateCheckDownloadRetry cfg io pv u).1 = 0 ∧
        nextRetry u.retries ≤ cfg.revisionRetries ∧
        ∃ u₁, (pvUpdateCheckDownloadRetry cfg io pv u).2.update = some u₁ ∧
          u₁.retries = nextRetry u.retries) := by
  unfold pvUpdateCheckDownloadRetry
  dsimp only
  split
  · split
    · exact .inr (.inl ⟨by simp, ‹_›, rfl⟩)
    · exact .inr (.inr ⟨rfl, Int.not_lt.mp ‹_›, _, rfl, rfl⟩)
  · exact .inl ⟨by simp, hu⟩

/-- What the check leaves has an update, and no report more. -/
theorem pvUpdateCheckDownloadRetry_kept (io : DownloadIo) (hu : pv.update = some u) :
    (pvUpdateCheckDownloadRetry cfg io pv u).2.reports = pv.reports ∧
      ∃ u₁, (pvUpdateCheckDownloadRetry cfg io pv u).2.update = some u₁ := by
  unfold pvUpdateCheckDownloadRetry
  dsimp only
  split
  · split
    · exact ⟨rfl, _, rfl⟩
    · exact ⟨rfl, _, rfl⟩
  · exact ⟨rfl, _, hu⟩

/-- From its point on `pv_update_download` is the call and what follows; a download without one
reports nothing. -/
theorem pvUpdateDownload_at (io : DownloadIo) (pv : Pv) :
    (∀ pv₁, pv.downloadPoint cfg io = some pv₁ → pvUpdateDownload cfg io pv = downloadFrom io pv₁ ∧
      pv₁.reports.length < (trailDownloadObjects io pv₁).2.reports.length) ∧
    (pv.downloadPoint cfg io = none → (pvUpdateDownload cfg io pv).2.reports = pv.reports) := by
  unfold Pv.downloadPoint pvUpdateDownload
  cases hst : pv.state with
  | none => exact ⟨(fun _ h => by cases h), fun _ => rfl⟩
  | some rev =>
    cases hu : pv.update with
    | none => exact ⟨(fun _ h => by cases h), fun _ => rfl⟩
    | some u =>
      dsimp only
      by_cases hpending : u.pending = none
      · rw [if_pos hpending, if_pos (.inl hpending)]
        exact ⟨(fun _ h => by cases h), fun _ => rfl⟩
      rw [if_neg hpending]
      by_cases hlocal : u.isLocal = true
      · rw [if_pos hlocal, if_pos (.inr (.inl hlocal))]
        exact ⟨(fun _ h => by cases h), fun _ => rfl⟩
      rw [if_neg hlocal]
      cases hinit : io.remoteInit with
      | false =>
        rw [if_pos (.inr (.inr rfl)), if_pos (show (!false) = true from rfl)]
        exact ⟨(fun _ h => by cases h), fun _ => rfl⟩
      | true =>
        have hguard : ¬ (u.pending = none ∨ u.isLocal = true ∨ true = false) :=
          not_or.mpr ⟨hpending, not_or.mpr ⟨hlocal, by decide⟩⟩
        obtain ⟨hreports, u₁, hu₁⟩ := pvUpdateCheckDownloadRetry_kept cfg io hu
        rw [if_neg hguard, if_neg (show ¬ (!true) = true by decide)]
        by_cases hret : (pvUpdateCheckDownloadRetry cfg io pv u).1 ≠ 0
        · rw [if_pos hret, if_pos hret]
          exact ⟨(fun _ h => by cases h), fun _ => hreports⟩
        · rw [if_neg hret, if_neg hret]
          refine ⟨fun pv₁ h => ?_, fun h => by cases h⟩
          rw [← Option.some.inj h]
          exact ⟨rfl, trailDownloadObjects_reports io hu₁⟩

/-- **Where a step calls `trail_download_objects`.** -/
theorem callsAt (io : StepIo) (pv : Pv) : CallsAt cfg io pv := by
  obtain ⟨hmade, hnot⟩ := pvUpdateDownload_at cfg io.update.download pv
  refine ⟨fun pv₁ h => ?_, fun h hnext => ?_⟩
  · rw [Pv.calls] at h
    split at h
    · exact ⟨‹_›, hmade pv₁ h⟩
    · cases h
  · rw [Pv.calls, if_pos hnext] at h
    exact hnot h

/-- What `pv_update_download` counts: nothing, or one without a call, which is then the end of
it, or one with a call. -/
theorem pvUpdateDownload_counts (io : DownloadIo) (hu : pv.update = some u) :
    (pv.downloadPoint cfg io = none ∧ (pvUpdateDownload cfg io pv).2.update = some u) ∨
      (pv.downloadPoint cfg io = none ∧ cfg.revisionRetries < nextRetry u.retries ∧
        (pvUpdateDownload cfg io pv).1 = false ∧
        (pvUpdateDownload cfg io pv).2.update = some { u with retries := nextRetry u.retries }) ∨
      ∃ pv₁ u₁ u', pv.downloadPoint cfg io = some pv₁ ∧ pv₁.update = some u₁ ∧
        u₁.retries = nextRetry u.retries ∧ nextRetry u.retries ≤ cfg.revisionRetries ∧
        (pvUpdateDownload cfg io pv).2.update = some u' ∧ u'.retries = u₁.retries := by
  unfold Pv.downloadPoint pvUpdateDownload
  cases hst : pv.state with
  | none => exact .inl ⟨rfl, hu⟩
  | some rev =>
    simp only [hu]
    by_cases hpending : u.pending = none
    · rw [if_pos hpending, if_pos (.inl hpending)]
      exact .inl ⟨rfl, hu⟩
    rw [if_neg hpending]
    by_cases hlocal : u.isLocal = true
    · rw [if_pos hlocal, if_pos (.inr (.inl hlocal))]
      exact .inl ⟨rfl, hu⟩
    rw [if_neg hlocal]
    cases hinit : io.remoteInit with
    | false =>
      rw [if_pos (.inr (.inr rfl)), if_pos (show (!false) = true from rfl)]
      exact .inl ⟨rfl, hu⟩
    | true =>
      have hguard : ¬ (u.pending = none ∨ u.isLocal = true ∨ true = false) :=
        not_or.mpr ⟨hpending, not_or.mpr ⟨hlocal, by decide⟩⟩
      rw [if_neg hguard, if_neg (show ¬ (!true) = true by decide)]
      rcases pvUpdateCheckDownloadRetry_cases cfg io hu with
        ⟨hret, hsame⟩ | ⟨hret, hpast, hmore⟩ | ⟨hret, hmax, u₁, hu₁, hcount⟩
      · rw [if_pos hret, if_pos hret]
        exact .inl ⟨rfl, hsame⟩
      · rw [if_pos hret, if_pos hret]
        exact .inr (.inl ⟨rfl, hpast, rfl, hmore⟩)
      · rw [if_neg (not_not.mpr hret), if_neg (not_not.mpr hret)]
        obtain ⟨u₂, hu₂, hcount₂⟩ := trailDownloadObjects_retries io hu₁
        refine .inr (.inr ⟨(pvUpdateCheckDownloadRetry cfg io pv u).2, u₁, ?_⟩)
        split
        · exact ⟨u₂, rfl, hu₁, hcount, hmax, hu₂, hcount₂⟩
        · obtain ⟨u₃, hu₃, hcount₃⟩ := setStatus_retries .updateDownloaded hu₂
          exact ⟨u₃, rfl, hu₁, hcount, hmax, hu₃, hcount₃.trans hcount₂⟩

theorem pvUpdateInstall_retries (io : InstallIo) (hu : pv.update = some u)
    (hu' : (pvUpdateInstall io pv).2.update = some u') : u'.retries = u.retries := by
  have hsame : pv.update = some u' → u'.retries = u.retries := by
    intro h
    rw [Option.some.inj (hu.symm.trans h)]
  have hset : ∀ (pv₁ : Pv) (status : UpdateState), pv₁.update = some u →
      (pvUpdateSetStatus pv₁ status).update = some u' → u'.retries = u.retries := by
    intro pv₁ status hu₁ h
    obtain ⟨u₁, h₁, hcount⟩ := setStatus_retries status hu₁
    rw [← hcount, Option.some.inj (h.symm.trans h₁)]
  unfold pvUpdateInstall at hu'
  split at hu'
  · rename_i rev u₀ hst hu₀
    obtain rfl := Option.some.inj (hu.symm.trans hu₀)
    cases hp : u.pending with
    | none =>
      rw [hp] at hu'
      exact hsame hu'
    | some prev =>
      simp only [hp] at hu'
      split at hu'
      · exact hset pv _ hu hu'
      · split at hu'
        · exact hsame hu'
        · rw [setInstalled_envOps] at hu'
          cases hio : io.setInstalled with
          | false =>
            simp only [hio, Bool.false_eq_true, if_false] at hu'
            exact hsame hu'
          | true =>
            simp only [hio, if_true, ne_eq, not_true_eq_false, if_false] at hu'
            obtain ⟨u₁, hu₁, rfl⟩ := Option.map_eq_some_iff.mp hu'
            obtain ⟨u₂, hu₂, hcount⟩ : ∃ u₂, (pvUpdateSetStatus { pv with
                bl := { pv.bl with pvTry := some prev }
                nv := pv.nv.writeAll [.set keyTry prev] } .updateInstalled).update = some u₂ ∧
                u₂.retries = u.retries :=
              setStatus_retries .updateInstalled hu
            rw [← hcount, Option.some.inj (hu₁.symm.trans hu₂)]
  · exact hsame hu'

theorem pvUpdateRequiresReboot_retries (hu : pv.update = some u) :
    ∃ u', (pvUpdateRequiresReboot pv).2.update = some u' ∧ u'.retries = u.retries := by
  unfold pvUpdateRequiresReboot
  rw [hu]
  dsimp only
  split
  · have hroot : ({ pv with update := some { u with runlevel := runlevelRoot } } : Pv).update
        = some { u with runlevel := runlevelRoot } := rfl
    obtain ⟨u', hu', hcount⟩ := setStatus_retries .updateReboot hroot
    exact ⟨u', hu', hcount⟩
  · exact setStatus_retries .updateTransition hu

/-- A finish removes an update whose count is past the maximum, before anything else happened
to it. -/
theorem finishLeaves_past (io : FinishIo Bool) (hs : u.status.Starting)
    (hpast : cfg.revisionRetries < u.retries) : finishLeaves cfg io u = false := by
  rcases hs with h | h | h <;> simp [finishLeaves, h, hpast]

/-- What a transfer leaves of the count. -/
theorem pvUpdateTransfer_counts (io : UpdateIo) (hu : pv.update = some u)
    (hu' : (pvUpdateTransfer cfg io pv).2.update = some u') :
    (pv.downloadPoint cfg io.download = none ∧ u'.retries = u.retries) ∨
      (pv.downloadPoint cfg io.download = none ∧ cfg.revisionRetries < nextRetry u.retries ∧
        (pvUpdateTransfer cfg io pv).1 = false ∧ u' = { u with retries := nextRetry u.retries }) ∨
      ∃ pv₁ u₁, pv.downloadPoint cfg io.download = some pv₁ ∧ pv₁.update = some u₁ ∧
        u₁.retries = nextRetry u.retries ∧ nextRetry u.retries ≤ cfg.revisionRetries ∧
        u'.retries = nextRetry u.retries := by
  have hinstall : ∀ u₂, (pvUpdateDownload cfg io.download pv).2.update = some u₂ →
      u'.retries = u₂.retries := by
    intro u₂ hu₂
    unfold pvUpdateTransfer at hu'
    dsimp only at hu'
    split at hu'
    · rw [Option.some.inj (hu'.symm.trans hu₂)]
    · exact pvUpdateInstall_retries io.install hu₂ hu'
  rcases pvUpdateDownload_counts cfg io.download hu with
    ⟨hnone, hsame⟩ | ⟨hnone, hpast, hfalse, hmore⟩ |
    ⟨pv₁, u₁, u₂, hcall, hu₁, hcount, hmax, hu₂, hkept⟩
  · exact .inl ⟨hnone, hinstall u hsame⟩
  · have htransfer : pvUpdateTransfer cfg io pv
        = (false, (pvUpdateDownload cfg io.download pv).2) := by
      simp only [pvUpdateTransfer, hfalse, Bool.not_false, if_true]
    rw [htransfer] at hu' ⊢
    exact .inr (.inl ⟨hnone, hpast, rfl, Option.some.inj (hu'.symm.trans hmore)⟩)
  · exact .inr (.inr ⟨pv₁, u₁, hcall, hu₁, hcount, hmax,
      (hinstall u₂ hu₂).trans (hkept.trans hcount)⟩)

/-- What a step makes of the count of an update: it stays and nothing is reported, or one is
added and a retry report has the new number, and the new number is one that is allowed. -/
structure Counts (io : StepIo) (pv : Pv) (u : PvUpdate) : Prop where
  kept : pv.calls cfg io = none →
    ∀ u', (pvRunState cfg io pv).update = some u' → u'.retries = u.retries
  called : (pv.calls cfg io).isSome → nextRetry u.retries ≤ cfg.revisionRetries ∧
    ∀ u', (pvRunState cfg io pv).update = some u' → u'.retries = nextRetry u.retries
  reported : ∀ r, pv.retryReport cfg io = some r → r = nextRetry u.retries
  removed : pv.Passes cfg io →
    (pvUpdateTransfer cfg io.update pv).1 = false ∧
      (finishUpdate cfg io.update.finish (pvUpdateTransfer cfg io.update pv).2).2.update = none

/-- `_pv_update` keeps the count that its transfer leaves. -/
theorem pvUpdate_left {u₀ : PvUpdate} (io : UpdateIo)
    (hu₀ : (pvUpdateTransfer cfg io pv).2.update = some u₀)
    (hu' : (pvUpdate cfg io pv).update = some u') :
    u'.retries = u₀.retries ∧
      ((pvUpdateTransfer cfg io pv).1 = false → finishLeaves cfg io.finish u₀ = true) := by
  unfold pvUpdate at hu'
  cases hret : (pvUpdateTransfer cfg io pv).1 with
  | false =>
    simp only [hret, Bool.not_false, if_true] at hu'
    obtain ⟨rfl, hleaves⟩ := finishUpdate_retries cfg io.finish hu₀ hu'
    exact ⟨rfl, fun _ => hleaves⟩
  | true =>
    simp only [hret, Bool.not_true, Bool.false_eq_true, if_false] at hu'
    obtain ⟨u₂, hu₂, hcount⟩ := pvUpdateRequiresReboot_retries hu₀
    have hlast : (pvUpdateRequiresReboot (pvUpdateTransfer cfg io pv).2).2.update = some u' := by
      repeat' split at hu'
      all_goals exact hu'
    rw [← hcount, Option.some.inj (hlast.symm.trans hu₂)]
    exact ⟨rfl, fun h => by cases h⟩

theorem reported_of_calls {io : StepIo} {pv₁ : Pv} {u₁ : PvUpdate}
    (hcall : pv.calls cfg io = some pv₁) (hu₁ : pv₁.update = some u₁) {r : Int}
    (hr : pv.retryReport cfg io = some r) : r = u₁.retries := by
  obtain ⟨u₂, hu₂, hcount⟩ := trailDownloadObjects_retries io.update.download hu₁
  rw [Pv.retryReport, hcall, Option.bind_some, hu₂, Option.filter_some] at hr
  split at hr
  · rw [← hcount, ← Option.some.inj hr]
  · cases hr

/-- **What `_pv_update` counts.** -/
theorem pvUpdate_counts (io : StepIo) (hnext : pv.next = .update) (hu : pv.update = some u)
    (hs : u.status.Starting) (hmax : u.retries ≤ cfg.revisionRetries) : Counts cfg io pv u := by
  have hcalls : pv.calls cfg io = pv.downloadPoint cfg io.update.download := if_pos hnext
  have hrun : pvRunState cfg io pv = pvUpdate cfg io.update pv := by
    rw [pvRunState, hnext]
  obtain ⟨u₀, hu₀, -⟩ := (pvUpdateTransfer_spec cfg io.update hu hs).update
  have hleft : ∀ u', (pvRunState cfg io pv).update = some u' → u'.retries = u₀.retries ∧
      ((pvUpdateTransfer cfg io.update pv).1 = false →
        finishLeaves cfg io.update.finish u₀ = true) := by
    intro u' hu'
    rw [hrun] at hu'
    exact pvUpdate_left cfg io.update hu₀ hu'
  have hquiet : pv.calls cfg io = none → ∀ r, pv.retryReport cfg io = some r →
      r = nextRetry u.retries := by
    intro hnone r hr
    rw [Pv.retryReport, hnone] at hr
    cases hr
  -- a count that is not past the maximum does not pass it
  have hbelow : u₀.retries ≤ cfg.revisionRetries → ¬ pv.Passes cfg io := by
    rintro h ⟨-, u₁, hu₁, hpast⟩
    rw [← Option.some.inj (hu₀.symm.trans hu₁)] at hpast
    omega
  rcases pvUpdateTransfer_counts cfg io.update hu hu₀ with
    ⟨hnone, hsame⟩ | ⟨hnone, hpast, hfalse, rfl⟩ | ⟨pv₁, u₁, hcall, hu₁, hcount, hle, hmore⟩
  · rw [← hcalls] at hnone
    have hnot : ¬ (pv.calls cfg io).isSome := by simp [hnone]
    exact ⟨fun _ u' hu' => (hleft u' hu').1.trans hsame, fun h => absurd h hnot, hquiet hnone,
      fun h => absurd h (hbelow (by omega))⟩
  · rw [← hcalls] at hnone
    have hnot : ¬ (pv.calls cfg io).isSome := by simp [hnone]
    have hgone := finishLeaves_past cfg io.update.finish
      (u := { u with retries := nextRetry u.retries }) hs hpast
    refine ⟨fun _ u' hu' => ?_, fun h => absurd h hnot, hquiet hnone, fun _ => ⟨hfalse, ?_⟩⟩
    · rw [(hleft u' hu').2 hfalse] at hgone
      cases hgone
    · rw [(finishUpdate_spec cfg io.update.finish _).update, hu₀, Option.filter_some, hgone]
      rfl
  · rw [← hcalls] at hcall
    have hnot : pv.calls cfg io ≠ none := by simp [hcall]
    refine ⟨fun h => absurd h hnot, fun _ => ⟨hle, fun u' hu' => ?_⟩, fun r hr => ?_,
      fun h => absurd h (hbelow (by omega))⟩
    · exact (hleft u' hu').1.trans hmore
    · rw [reported_of_calls cfg hcall hu₁ hr, hcount]

/-- **The count of a step.** -/
theorem pvRunState_counts (io : StepIo) (hinv : Inv pv) (hu : pv.update = some u)
    (hmax : u.retries ≤ cfg.revisionRetries) : Counts cfg io pv u := by
  by_cases hnext : pv.next = .update
  · obtain ⟨u₁, hu₁, hs⟩ := hinv.starting hnext
    obtain rfl := Option.some.inj (hu.symm.trans hu₁)
    exact pvUpdate_counts cfg io hnext hu hs hmax
  · have hnone : pv.calls cfg io = none := if_neg hnext
    refine ⟨fun _ u' hu' => pvRunState_retries cfg io hnext hu hu', fun h => ?_, fun r hr => ?_,
      fun h => absurd h.1 hnext⟩
    · rw [hnone] at h
      cases h
    · rw [Pv.retryReport, hnone] at hr
      cases hr

end Counted

/-! ## The life of an update -/

/-- What is left of a life at a count of `u.retries`. -/
structure Rest (cfg : Config) (count : Int) (steps : List (Pv × StepIo)) : Prop where
  calls : ((steps.filter fun s => (s.1.calls cfg s.2).isSome).length : Int)
    ≤ cfg.revisionRetries - count
  reports : (steps.filterMap fun s => s.1.retryReport cfg s.2).Pairwise (· < ·)
  above : ∀ r ∈ steps.filterMap (fun s => s.1.retryReport cfg s.2), count < r
  between : ∀ s ∈ steps, ∀ u, s.1.update = some u → u.retries ≤ cfg.revisionRetries
  removed : ∀ s ∈ steps, s.1.Passes cfg s.2 →
    (pvUpdateTransfer cfg s.2.update s.1).1 = false ∧
      (finishUpdate cfg s.2.update.finish (pvUpdateTransfer cfg s.2.update s.1).2).2.update = none

section Life

variable {cfg : Config}

theorem Rest.nil {count : Int} (hmax : count ≤ cfg.revisionRetries) : Rest cfg count [] := by
  refine ⟨?_, .nil, ?_, ?_, ?_⟩
  · simpa using hmax
  all_goals simp

/-- A step before the rest, which is at the count that the step leaves. -/
theorem Rest.cons {pv : Pv} {io : StepIo} {u : PvUpdate} {steps : List (Pv × StepIo)}
    (hu : pv.update = some u) (hmax : u.retries ≤ cfg.revisionRetries)
    (hnext : nextRetry u.retries = u.retries + 1)
    (hcounts : Counts cfg io pv u) {count : Int}
    (hcount : count = if (pv.calls cfg io).isSome then u.retries + 1 else u.retries)
    (hrest : Rest cfg count steps) : Rest cfg u.retries ((pv, io) :: steps) := by
  have hle : u.retries ≤ count := by
    rw [hcount]
    split <;> omega
  have hreports : ∀ r, pv.retryReport cfg io = some r → count = u.retries + 1 := by
    intro r hr
    cases hcall : pv.calls cfg io with
    | none =>
      rw [Pv.retryReport, hcall] at hr
      cases hr
    | some pv₁ => rw [hcount, hcall, Option.isSome_some, if_pos rfl]
  have habove := hrest.above
  refine { calls := ?_, reports := ?_, above := ?_, between := ?_, removed := ?_ }
  · have hcalls := hrest.calls
    rw [List.filter_cons]
    split at hcount
    · rename_i hcall
      rw [if_pos hcall, List.length_cons]
      omega
    · rename_i hcall
      rw [if_neg hcall]
      omega
  · rw [List.filterMap_cons]
    split
    · exact hrest.reports
    · rename_i r hr
      refine List.pairwise_cons.mpr ⟨fun r' hr' => ?_, hrest.reports⟩
      rw [hcounts.reported r hr, hnext, ← hreports r hr]
      exact habove r' hr'
  · rw [List.filterMap_cons]
    split
    · intro r hr
      have := habove r hr
      omega
    · rename_i r₀ hr₀
      intro r hr
      rcases List.mem_cons.mp hr with rfl | hr
      · rw [hcounts.reported r hr₀, hnext]
        omega
      · have := habove r hr
        omega
  · intro s hs u' hu'
    rcases List.mem_cons.mp hs with rfl | hs
    · rwa [← Option.some.inj (hu.symm.trans hu')]
    · exact hrest.between s hs u' hu'
  · intro s hs hpasses
    rcases List.mem_cons.mp hs with rfl | hs
    · exact hcounts.removed hpasses
    · exact hrest.removed s hs hpasses

/-- From an update at a count that is not past the maximum, at any point of a run. -/
theorem rest_of_life (hcfg : cfg.revisionRetries < 2147483647) (ios : List StepIo) {d : Device}
    (hinv : DeviceInv d) {pv : Pv} {u : PvUpdate} (hram : d.ram = some pv)
    (hu : pv.update = some u) (hint : -2147483648 ≤ u.retries)
    (hmax : u.retries ≤ cfg.revisionRetries) :
    Rest cfg u.retries (life cfg d ios) := by
  induction ios generalizing d pv u with
  | nil => exact Rest.nil hmax
  | cons io ios ih =>
    have hupdate : ¬ pv.update = none := by
      rw [hu]
      exact Option.some_ne_none u
    have hcounts := pvRunState_counts cfg io ((hinv pv hram).atStep d.flash.env) hu hmax
    have hone := nextRetry_eq cfg hint hmax hcfg
    rw [life, hram]
    dsimp only
    rw [if_neg hupdate]
    let count := if ((pv.atStep d.flash.env).calls cfg io).isSome then u.retries + 1 else u.retries
    -- the count is one that is allowed, also where the update ends with this step
    have hallowed : count ≤ cfg.revisionRetries := by
      by_cases hcall : ((pv.atStep d.flash.env).calls cfg io).isSome
      · exact (if_pos hcall).trans_le (hone ▸ (hcounts.called hcall).1)
      · exact (if_neg hcall).trans_le hmax
    have hrange : -2147483648 ≤ count := by
      by_cases hcall : ((pv.atStep d.flash.env).calls cfg io).isSome
      · exact (Int.le_add_one hint).trans_eq (if_pos hcall).symm
      · exact hint.trans_eq (if_neg hcall).symm
    refine Rest.cons hu hmax hone hcounts rfl ?_
    cases hram' : (d.step cfg (.step io)).ram with
    | none =>
      have hend : life cfg (d.step cfg (.step io)) ios = [] := by
        cases ios <;> simp [life, hram']
      rw [hend]
      exact Rest.nil hallowed
    | some pv' =>
      cases hu' : pv'.update with
      | none =>
        have hend : life cfg (d.step cfg (.step io)) ios = [] := by
          cases ios <;> simp [life, hram', hu']
        rw [hend]
        exact Rest.nil hallowed
      | some u' =>
        have hprocess : (pvRunState cfg io (pv.atStep d.flash.env)).update = some u' := by
          rw [Device.step, hram] at hram'
          dsimp only at hram'
          split at hram'
          · cases hram'
          · rw [← hu', ← Option.some.inj hram']
            rfl
        have hcount : u'.retries = count := by
          by_cases hcall : ((pv.atStep d.flash.env).calls cfg io).isSome
          · exact ((hcounts.called hcall).2 u' hprocess).trans (hone.trans (if_pos hcall).symm)
          · have hnone := Option.not_isSome_iff_eq_none.mp hcall
            exact (hcounts.kept hnone u' hprocess).trans (if_neg hcall).symm
        rw [← hcount] at hallowed hrange
        have hrest := ih (hinv.step cfg (.step io)) hram' hu' hrange hallowed
        rw [hcount] at hrest
        exact hrest

end Life

/-! ## The update from the trail -/

section Created

variable (cfg : Config) {pv : Pv}

/-- An update that is queued is at a count that is not past the maximum. -/
def Pv.Fits (pv : Pv) : Prop :=
  ∀ u, pv.update = some u → u.status = .updateQueued → u.retries ≤ cfg.revisionRetries

theorem Pv.Fits.none (hu : pv.update = none) : pv.Fits cfg := by
  intro u hsome
  rw [hu] at hsome
  cases hsome

/-- An update check refuses a count that is past the maximum. -/
theorem trailGetNewSteps_fits (io : StepsIo) (h : pv.Fits cfg) :
    (trailGetNewSteps cfg io pv).2.Fits cfg := by
  unfold trailGetNewSteps
  dsimp only
  repeat' split
  all_goals try exact h
  rename_i hretries _ _ _ _
  intro u hu _
  rw [← Option.some.inj hu]
  exact Int.not_lt.mp hretries

theorem pvUpdaterCheckForUpdates_fits (io : UpdatesIo) (h : pv.Fits cfg) :
    (pvUpdaterCheckForUpdates cfg io pv).2.Fits cfg := by
  unfold pvUpdaterCheckForUpdates
  split
  · exact h
  · split
    · exact h
    · split
      · have hsynced : ({ pv with synced := true } : Pv).Fits cfg := h
        exact trailGetNewSteps_fits cfg io.steps hsynced
      · exact h

theorem pvWaitUpdate_fits (io : WaitUpdateIo) (h : pv.Fits cfg) :
    (pvWaitUpdate cfg io pv).2.Fits cfg := by
  have htest : (pvWaitTest cfg io pv).Fits cfg := by
    intro u' hu' hqueued
    rw [(pvWaitTest_spec cfg io pv).update] at hu'
    obtain ⟨u, hu, rfl⟩ := Option.map_eq_some_iff.mp hu'
    have hstatus : u.status = .updateQueued := by
      cases hs : u.status <;> simp_all [UpdateState.tested]
    exact h u hu hstatus
  have hleft : (finishUpdate cfg io.finish (pvWaitTest cfg io pv)).2.Fits cfg := by
    intro u' hu' hqueued
    rw [(finishUpdate_spec cfg io.finish _).update, Option.filter_eq_some_iff] at hu'
    exact htest u' hu'.1 hqueued
  unfold pvWaitUpdate
  split
  · exact h
  · dsimp only
    split
    · exact htest
    · split <;> exact hleft

theorem pvWaitNetwork_fits (io : NetworkIo) (wio : WaitUpdateIo) (h : pv.Fits cfg) :
    (pvWaitNetwork cfg io wio pv).2.Fits cfg := by
  have hchecked := pvUpdaterCheckForUpdates_fits cfg io.updates h
  unfold pvWaitNetwork
  split
  · repeat' split
    all_goals exact h
  · split
    · exact h
    · split
      · exact pvWaitUpdate_fits cfg wio h
      · dsimp only
        split
        · exact hchecked
        · exact pvWaitUpdate_fits cfg wio hchecked

theorem pvWaitOps_fits (io : WaitIo) (h : pv.Fits cfg) : (pvWaitOps cfg io pv).2.Fits cfg := by
  unfold pvWaitOps
  split
  · split
    · dsimp only
      split
      · unfold pvWaitUnclaimed
        repeat' split
        all_goals exact h
      · exact pvWaitNetwork_fits cfg io.network io.waitUpdate
          (fun u hu hqueued => h u hu hqueued)
    · exact h
  · exact pvWaitUpdate_fits cfg io.waitUpdate h

/-- A queued update that a step makes is at a count that is not past the maximum. -/
theorem pvRunState_fits (io : StepIo) (hinv : Inv pv) (hu : pv.update = none) :
    (pvRunState cfg io pv).Fits cfg := by
  have h : pv.Fits cfg := Pv.Fits.none cfg hu
  unfold pvRunState
  cases hn : pv.next <;> dsimp only
  case run =>
    intro u' hu' hqueued
    rw [(pvRun_spec cfg io.run pv).2.2.1] at hu'
    obtain ⟨u₀, hu₀, hstatus⟩ := (pvRunLoad_spec io.run _).2.2.1 u' hu'
    rcases (pvUpdateResume_spec io.run.creds pv).2 with hsame | ⟨-, rev, -, hresumed⟩
    · rw [hsame, hu] at hu₀
      cases hu₀
    · rw [hresumed] at hu₀
      rw [hstatus, ← Option.some.inj hu₀, resumed] at hqueued
      dsimp only at hqueued
      split at hqueued <;> cases hqueued
  case wait =>
    rcases pvWait_spec cfg io.wait pv with ⟨-, next, -, heq⟩ | ⟨-, cmd, next, heq, -⟩
    · rw [heq]
      exact h
    · rw [heq]
      exact pvWaitOps_fits cfg io.wait h
  case command =>
    intro u' hu' hqueued
    rcases (pvCommand_spec io.command pv).update with ⟨hsame, -⟩ | ⟨-, -, hinit⟩
    · exact h u' (hsame.symm.trans hu') hqueued
    · rw [hinit u' hu'] at hqueued
      cases hqueued
  case update =>
    obtain ⟨u, hsome, -⟩ := hinv.starting hn
    rw [hu] at hsome
    cases hsome
  case rollback =>
    unfold pvRollback
    split
    · exact h
    · refine Pv.Fits.none cfg ?_
      have hset := update_setStatus pv .updateFailed
      rw [hu] at hset
      exact hset
  all_goals exact h

end Created

/-- **Download retries are bounded**: over the whole life of an update that the trail gives a
process, in every run, if there is a count past the maximum. The recorded count is an `int`. -/
theorem retriesBounded {cfg : Config} (hcfg : cfg.revisionRetries < 2147483647) {d : Device}
    (hreach : (deviceSystem cfg).Reachable d) (io : StepIo) {recorded : Int}
    (hint : -2147483648 ≤ recorded) (hcreates : Creates cfg d io recorded) (ios : List StepIo) :
    Bounded cfg recorded (life cfg (d.step cfg (.step io)) ios) := by
  have hinv : DeviceInv d := deviceInv_of_reachable hreach
  obtain ⟨⟨pv, hram, hnone⟩, pv', u, hram', hu, hqueued, rfl⟩ := hcreates
  have hprocess : (d.process cfg io pv).update = some u := by
    rw [Device.step, hram] at hram'
    dsimp only at hram'
    split at hram'
    · cases hram'
    · rw [← hu, ← Option.some.inj hram']
  have hmax : u.retries ≤ cfg.revisionRetries :=
    pvRunState_fits cfg io ((hinv pv hram).atStep d.flash.env) hnone u hprocess hqueued
  have hrest := rest_of_life hcfg ios (hinv.step cfg (.step io)) hram' hu hint hmax
  refine ⟨fun s _ => callsAt cfg s.2 s.1, ?_, hrest.reports, hrest.between, hrest.removed⟩
  exact Int.le_trans hrest.calls (Int.le_max_right 0 _)

/-- A device on revision 1 that the server controls, and that waits. -/
def attendedDevice : Device :=
  (deviceSystem .attended).run committedDevice [.boot false, .step .ok, .step .ok]

/-- A step in which the metadata of the objects cannot be had. -/
def StepIo.noMeta : StepIo :=
  { StepIo.found with
    update := { StepIo.ok.update with
      download := { StepIo.ok.update.download with getMeta := false } } }

/-- An update whose download fails again and again. -/
theorem retriesBounded_noMeta :
    Bounded .attended 0
      (life .attended (attendedDevice.step .attended (.step .found))
        [.noMeta, .noMeta, .noMeta, .noMeta]) := by
  have hreach : (deviceSystem .attended).Reachable attendedDevice :=
    (System.Reachable.init (by exact ⟨rfl, rfl⟩)).run _
  have hcreates : Creates .attended attendedDevice .found 0 :=
    ⟨⟨_, rfl, by decide +kernel⟩, _, _, rfl, rfl, by decide +kernel, by decide +kernel⟩
  exact retriesBounded (by decide) hreach .found (by decide) hcreates _

/-- The first of its steps calls `trail_download_objects`. -/
example : (life .attended (attendedDevice.step .attended (.step .found))
    [.noMeta, .noMeta, .noMeta, .noMeta]).map (fun s => (s.1.calls .attended s.2).isSome)
      = [true, false, true, false] := by decide +kernel

/-- The greatest `int` as the maximum. -/
def Config.tireless : Config := { Config.attended with revisionRetries := 2147483647 }

/-- A step in which the server has revision 2, with as many retries. -/
def StepIo.foundOften : StepIo :=
  { StepIo.ok with
    wait := { StepIo.ok.wait with
      network := { StepIo.ok.wait.network with
        updates := { StepIo.ok.wait.network.updates with
          steps := ⟨.empty, .empty, .empty,
            .found ⟨some (str "2"), true, 2147483647, true, true, true⟩⟩ } } } }

/-- **No count is past the greatest `int`**: behind it comes a negative one, with which
`trail_download_objects` is called where no call is left. -/
theorem retries_unbounded :
    ∃ d, (deviceSystem .tireless).Reachable d ∧ Creates .tireless d .foundOften 2147483647 ∧
      ¬ Bounded .tireless 2147483647
        (life .tireless (d.step .tireless (.step .foundOften)) [.noMeta]) := by
  refine ⟨(deviceSystem .tireless).run committedDevice [.boot false, .step .ok, .step .ok],
    (System.Reachable.init (by exact ⟨rfl, rfl⟩)).run _,
    ⟨⟨_, rfl, by decide +kernel⟩, _, _, rfl, rfl, by decide +kernel, by decide +kernel⟩,
    fun h => ?_⟩
  exact absurd h.calls (by decide +kernel)

end Pantavisor.Controller
