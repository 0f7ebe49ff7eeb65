/-
Pantavisor.Controller.Verdict — what the server was last told of an update when it
is removed.

`pv_update_finish` gives every update that ends a verdict, if its status is one that
an update ends with. Its default branch repeats the status there is. An update comes
to that branch only from `_pv_update`: when a download stops before it begins, the
update is still queued, and when an installation stops behind the links, it is still
downloaded (or queued, for an update that needs no download). `UpdateSettled` leaves
out exactly these.

In the wait entry an update is at a status that ends in a verdict (`Standing`), which
is the invariant that the rest comes from.
-/
import Pantavisor.Controller.Progress

namespace Pantavisor.Controller

open Pantavisor.Lib Pantavisor.Bootloader

/-! ## The status that the server is told -/

/-- The statuses of a step on the server. -/
inductive ServerStatus where
  | queued
  | inprogress
  | updated
  | done
  | wontgo
  | testing
  | downloading
  | error
  deriving DecidableEq, Repr

/-- What `trail_remote_set_status` writes for a status. -/
def serverStatus : UpdateState → ServerStatus
  | .updateQueued => .queued
  | .updateDownloaded => .inprogress
  | .updateInstalled => .inprogress
  | .updateTry => .inprogress
  | .updateTransition => .inprogress
  | .updateReboot => .inprogress
  | .updateUpdated => .updated
  | .updateDone => .done
  | .updateNoDownload => .wontgo
  | .updateNoSignature => .wontgo
  | .updateNoParse => .wontgo
  | .updateRetryDownload => .queued
  | .updateTestingReboot => .testing
  | .updateTestingNonreboot => .testing
  | .updateDownloadProgress => .downloading
  | .updateInit => .error
  | .updateFailed => .error

/-- A step is over. -/
def ServerStatus.Terminal (s : ServerStatus) : Prop :=
  s = .done ∨ s = .updated ∨ s = .error ∨ s = .wontgo

instance (s : ServerStatus) : Decidable s.Terminal := inferInstanceAs (Decidable (_ ∨ _))

/-- The last report for a revision is of a step that is over. -/
def Settled (rev : Rev) (reports : List Report) : Prop :=
  ∃ before r after, reports = before ++ r :: after ∧ r.rev = rev ∧
    (∀ r' ∈ after, r'.rev ≠ rev) ∧ (serverStatus r.status).Terminal

/-- If the step removes the update, it is settled. -/
def KeepsVerdict (cfg : Config) (d : Device) (e : Event) : Prop :=
  ∀ io pv u, e = .step io → d.ram = some pv → pv.update = some u →
    (d.process cfg io pv).update = none → Settled u.rev (d.process cfg io pv).reports

theorem Settled.last {rev : Rev} {reports : List Report} {stored : Option Rev}
    {status : UpdateState} (h : (serverStatus status).Terminal) :
    Settled rev (reports ++ [⟨rev, stored, status⟩]) :=
  ⟨reports, _, [], rfl, rfl, by simp, h⟩

theorem not_settled_last {rev : Rev} {reports : List Report} {stored : Option Rev}
    {status : UpdateState} (h : ¬ (serverStatus status).Terminal) :
    ¬ Settled rev (reports ++ [⟨rev, stored, status⟩]) := by
  rintro ⟨before, r, after, heq, hrev, hafter, hterminal⟩
  rcases List.eq_nil_or_concat after with rfl | ⟨after', last, rfl⟩
  · have hr := (List.append_inj' heq rfl).2
    simp only [List.cons.injEq, and_true] at hr
    subst hr
    exact h hterminal
  · rw [List.concat_eq_append, ← List.cons_append, ← List.append_assoc] at heq
    have hlast := (List.append_inj' heq rfl).2
    simp only [List.cons.injEq, and_true] at hlast
    exact hafter last (by simp) (by rw [← hlast])

/-! ## Finishing an update -/

/-- The status that `pv_update_finish` reports for an update that it removes. -/
def verdictOf : UpdateState → UpdateState
  | .updateRetryDownload => .updateNoDownload
  | .updateTestingReboot => .updateDone
  | .updateTestingNonreboot => .updateUpdated
  | s => s

/-- An update that is finished goes with a report of its verdict, unless it was
reported before. -/
theorem finish_reports {cfg : Config} {io : FinishIo Bool} {pv : Pv} {u : PvUpdate}
    (hu : pv.update = some u) (hgone : (finishUpdate cfg io pv).2.update = none) :
    (finishUpdate cfg io pv).2.reports =
      if u.status = .updateNoDownload then pv.reports
      else pv.reports ++ [⟨u.rev, u.pending, verdictOf u.status⟩] := by
  have hset : ∀ (pv₁ : Pv) (status : UpdateState), pv₁.update = some u →
      (pvUpdateSetStatus pv₁ status).reports = pv₁.reports ++ [⟨u.rev, u.pending, status⟩] := by
    intro pv₁ status hu₁
    simp only [pvUpdateSetStatus, hu₁, Pv.report]
  unfold finishUpdate pvUpdateFinish at hgone ⊢
  rw [hu] at hgone ⊢
  dsimp only at hgone ⊢
  cases hs : u.status with
  | updateFailed =>
      simp only [Id.run_bind, Id.run_pure, setFailed_envOps]
      exact hset { pv with bl := { pv.bl with pvTry := none }, update := some u } .updateFailed rfl
  | updateRetryDownload =>
      rw [hs] at hgone
      dsimp only at hgone ⊢
      split at hgone
      · rename_i hmax
        rw [if_pos hmax]
        exact hset pv _ hu
      · exact absurd (hu.symm.trans hgone) (by simp)
  | updateNoDownload => rfl
  | updateTestingReboot =>
      rw [hs] at hgone
      obtain ⟨bl', hcommit⟩ := setCommited_envOps io.setCommited pv.bl pv.nv pv.stateRev
      simp only [Id.run_bind, hcommit] at hgone ⊢
      split at hgone
      · rename_i hok
        rw [if_pos hok, if_neg (by decide)]
        exact hset { pv with bl := bl', update := some u } .updateDone rfl
      · rw [if_pos (by decide)] at hgone
        exact absurd (show some u = none from hgone) (by simp)
  | _ => exact hset pv _ hu

/-- The statuses of an update in the wait entry: each of them ends in a verdict. -/
def UpdateState.Standing (s : UpdateState) : Prop :=
  s = .updateTry ∨ s = .updateTransition ∨ s = .updateTestingReboot ∨
    s = .updateTestingNonreboot ∨ s = .updateFailed ∨ s = .updateRetryDownload

instance (s : UpdateState) : Decidable s.Standing := inferInstanceAs (Decidable (_ ∨ _))

theorem UpdateState.Standing.tested {s : UpdateState} (h : s.Standing) : s.tested.Standing := by
  rcases h with rfl | rfl | rfl | rfl | rfl | rfl <;> decide

theorem UpdateState.Standing.verdict {s : UpdateState} (h : s.Standing) :
    s.tested ≠ .updateNoDownload ∧ (serverStatus (verdictOf s.tested)).Terminal := by
  rcases h with rfl | rfl | rfl | rfl | rfl | rfl <;> decide

/-! ## The wait entry -/

/-- What the wait entry does with the update: it keeps it, tests it, finishes it, or
finds a new one when there is none. -/
inductive WaitLeaves (cfg : Config) (io : FinishIo Bool) (pv : Pv) (r : PvStateT × Pv) : Prop
  | kept (update : r.2.update = pv.update)
      (next : r.1 = .update → ∃ u, pv.update = some u ∧ u.status = .updateRetryDownload)
  | tested (update : r.2.update = pv.update.map fun u => { u with status := u.status.tested })
      (next : r.1 ≠ .update)
  | finished (pv₁ : Pv)
      (update : pv₁.update = pv.update.map fun u => { u with status := u.status.tested })
      (left : r.2 = (finishUpdate cfg io pv₁).2) (next : r.1 ≠ .update)
  | queued (u : PvUpdate) (new : pv.update = none) (update : r.2.update = some u)
      (status : u.status = .updateQueued) (pending : u.pending.isSome) (next : r.1 = .update)

theorem pvWaitUpdate_leaves (cfg : Config) (io : WaitUpdateIo) (pv : Pv) :
    WaitLeaves cfg io.finish pv (pvWaitUpdate cfg io pv) := by
  have ht := (pvWaitTest_spec cfg io pv).update
  unfold pvWaitUpdate
  split
  · exact .kept rfl (fun h => by cases h)
  · dsimp only
    split
    · exact .tested ht (by simp)
    · split
      · exact .finished _ ht rfl (by simp)
      · exact .finished _ ht rfl (by simp)

/-- A wait that begins in a process with the same update. -/
theorem WaitLeaves.of_update {cfg : Config} {io : FinishIo Bool} {pv pv₀ : Pv}
    {r : PvStateT × Pv} (h : WaitLeaves cfg io pv₀ r) (hu : pv₀.update = pv.update) :
    WaitLeaves cfg io pv r := by
  cases h with
  | kept update next => exact .kept (update.trans hu) (hu ▸ next)
  | tested update next => exact .tested (hu ▸ update) next
  | finished pv₁ update left next => exact .finished pv₁ (hu ▸ update) left next
  | queued u new update status pending next =>
      exact .queued u (hu ▸ new) update status pending next

theorem trailGetNewSteps_leaves (cfg : Config) (io : StepsIo) (pv : Pv) :
    (trailGetNewSteps cfg io pv).1 = false ∧ (trailGetNewSteps cfg io pv).2.update = pv.update ∨
      pv.update = none ∧ ∃ u, (trailGetNewSteps cfg io pv).2.update = some u ∧
        u.status = .updateQueued ∧ u.pending.isSome := by
  unfold trailGetNewSteps
  split
  · exact .inl ⟨rfl, rfl⟩
  · split
    · exact .inl ⟨rfl, rfl⟩
    · dsimp only
      split
      · exact .inl ⟨rfl, rfl⟩
      · split
        · exact .inl ⟨rfl, rfl⟩
        · split
          · exact .inl ⟨rfl, rfl⟩
          · split
            · exact .inl ⟨rfl, rfl⟩
            · split
              · exact .inl ⟨rfl, rfl⟩
              · split
                · rename_i hnone
                  exact .inr ⟨hnone, _, rfl, rfl, rfl⟩
                · exact .inl ⟨rfl, rfl⟩

theorem pvUpdaterCheckForUpdates_leaves (cfg : Config) (io : UpdatesIo) (pv : Pv) :
    (pvUpdaterCheckForUpdates cfg io pv).2.update = pv.update ∧
        ((pvUpdaterCheckForUpdates cfg io pv).1 = true →
          ∃ u, pv.update = some u ∧ u.status = .updateRetryDownload) ∨
      pv.update = none ∧ ∃ u, (pvUpdaterCheckForUpdates cfg io pv).2.update = some u ∧
        u.status = .updateQueued ∧ u.pending.isSome := by
  unfold pvUpdaterCheckForUpdates
  split
  · exact .inl ⟨rfl, fun h => by cases h⟩
  · split
    · rename_i hretry
      refine .inl ⟨rfl, fun _ => ?_⟩
      cases hu : pv.update with
      | none => simp [hu] at hretry
      | some u => exact ⟨u, rfl, by simpa [hu] using hretry⟩
    · split
      · rcases trailGetNewSteps_leaves cfg io.steps { pv with synced := true } with
          ⟨hret, hupd⟩ | hnew
        · exact .inl ⟨hupd, fun h => by rw [hret] at h; cases h⟩
        · exact .inr hnew
      · exact .inl ⟨rfl, fun h => by cases h⟩

theorem pvWaitNetwork_leaves (cfg : Config) (io : NetworkIo) (wio : WaitUpdateIo) (pv : Pv) :
    WaitLeaves cfg wio.finish pv (pvWaitNetwork cfg io wio pv) := by
  unfold pvWaitNetwork
  split
  · split
    · split
      · exact .kept rfl (fun h => by cases h)
      · exact .kept rfl (fun h => by cases h)
    · split
      · exact .kept rfl (fun h => by cases h)
      · exact .kept rfl (fun h => by cases h)
  · split
    · exact .kept rfl (fun h => by cases h)
    · split
      · exact pvWaitUpdate_leaves cfg wio pv
      · dsimp only
        rcases pvUpdaterCheckForUpdates_leaves cfg io.updates pv with
          ⟨hupd, hret⟩ | ⟨hnone, u, hu, hs, hp⟩
        · split
          · rename_i hfound
            exact .kept hupd (fun _ => hret hfound)
          · exact (pvWaitUpdate_leaves cfg wio _).of_update hupd
        · split
          · exact .queued u hnone hu hs hp rfl
          · rename_i hnot
            -- a new update is always found
            rcases (pvUpdaterCheckForUpdates_spec cfg io.updates pv).2 with ⟨-, hsame⟩ | ⟨hfound, -⟩
            · rw [hu, hnone] at hsame
              cases hsame
            · exact absurd hfound hnot

theorem pvWaitOps_leaves (cfg : Config) (io : WaitIo) (pv : Pv) :
    WaitLeaves cfg io.waitUpdate.finish pv (pvWaitOps cfg io pv) := by
  unfold pvWaitOps
  split
  · split
    · dsimp only
      split
      · unfold pvWaitUnclaimed
        split
        · exact .kept rfl (fun h => by cases h)
        · refine .kept ?_ (fun h => by cases h)
          dsimp only
          split <;> rfl
      · exact (pvWaitNetwork_leaves cfg io.network io.waitUpdate
          { pv with timerWaitDelay := io.nowRestart + cfg.updaterInterval }).of_update rfl
    · exact .kept rfl (fun h => by cases h)
  · exact pvWaitUpdate_leaves cfg io.waitUpdate pv

/-! ## The update entry -/

/-- An update that starts has a pending state; one that was never sent for is local,
and one that is downloaded again is not. -/
def PvUpdate.Sound (u : PvUpdate) : Prop :=
  u.pending.isSome ∧ (u.status = .updateInit → u.isLocal = true) ∧
    (u.status = .updateRetryDownload → u.isLocal = false)

/-- The download begins. -/
def PvUpdate.begun (cfg : Config) (io : DownloadIo) (u : PvUpdate) : Bool :=
  io.remoteInit && decide (u.retryTimer ≤ io.nowCheck) &&
    decide (nextRetry u.retries ≤ cfg.revisionRetries)

/-- The download goes through, or there is none. -/
def PvUpdate.fetched (cfg : Config) (io : DownloadIo) (u : PvUpdate) : Bool :=
  u.isLocal || (u.begun cfg io && io.getMeta && io.checkSize && io.download)

/-- The status of an update that was fetched. -/
def PvUpdate.fetchedStatus (u : PvUpdate) : UpdateState :=
  if u.isLocal then u.status else .updateDownloaded

/-- The update as `_pv_update` hands it to `pv_update_finish`. -/
structure Handed (pv pv₁ : Pv) (u : PvUpdate) (status : UpdateState) : Prop where
  reports : ∃ new, pv₁.reports = pv.reports ++ new ∧
    (status = .updateNoDownload → ∃ before stored, new = before ++ [⟨u.rev, stored, status⟩])
  update : ∃ u₁, pv₁.update = some u₁ ∧ u₁.rev = u.rev ∧ u₁.status = status ∧
    u₁.pending = u.pending ∧ u₁.isLocal = u.isLocal

theorem Handed.refl {pv : Pv} {u : PvUpdate} (hu : pv.update = some u)
    (hs : u.status ≠ .updateNoDownload) : Handed pv pv u u.status :=
  ⟨⟨[], by simp, fun h => absurd h hs⟩, u, hu, rfl, rfl, rfl, rfl⟩

theorem Handed.setStatus {pv pv₁ : Pv} {u : PvUpdate} {s : UpdateState} (h : Handed pv pv₁ u s)
    (status : UpdateState) : Handed pv (pvUpdateSetStatus pv₁ status) u status := by
  obtain ⟨⟨new, hnew, -⟩, u₁, hu₁, hrev, -, hpend, hlocal⟩ := h
  refine ⟨⟨new ++ [⟨u.rev, u₁.pending, status⟩], ?_, fun _ => ⟨new, _, rfl⟩⟩,
    { u₁ with status := status }, ?_, hrev, rfl, hpend, hlocal⟩
  · simp only [pvUpdateSetStatus, hu₁, Pv.report, hnew, hrev, List.append_assoc]
  · rw [update_setStatus, hu₁, Option.map_some]

theorem Handed.of_update {pv pv₁ pv₂ : Pv} {u : PvUpdate} {s : UpdateState}
    (h : Handed pv pv₁ u s) (hr : pv₂.reports = pv₁.reports) (hu : pv₂.update = pv₁.update) :
    Handed pv pv₂ u s := ⟨hr ▸ h.reports, hu ▸ h.update⟩

/-- The download of the objects breaks off, or has all of them. -/
theorem trailDownloadObjects_handed (io : DownloadIo) {pv pv₁ : Pv} {u : PvUpdate}
    {s : UpdateState} (h : Handed pv pv₁ u s) :
    ((io.getMeta && io.checkSize && io.download) = false ∧ (trailDownloadObjects io pv₁).1 = false ∧
      ∃ status, (status = .updateRetryDownload ∨ status = .updateNoDownload) ∧
        Handed pv (trailDownloadObjects io pv₁).2 u status) ∨
    ((io.getMeta && io.checkSize && io.download) = true ∧ (trailDownloadObjects io pv₁).1 = true ∧
      (trailDownloadObjects io pv₁).2.state = pv₁.state ∧
      Handed pv (trailDownloadObjects io pv₁).2 u .updateDownloadProgress) := by
  unfold trailDownloadObjects
  cases hmeta : io.getMeta with
  | false => exact .inl ⟨rfl, rfl, _, .inl rfl, h.setStatus _⟩
  | true =>
      cases hsize : io.checkSize with
      | false => exact .inl ⟨rfl, rfl, _, .inr rfl, h.setStatus _⟩
      | true =>
          cases hload : io.download with
          | false => exact .inl ⟨rfl, rfl, _, .inl rfl, (h.setStatus _).setStatus _⟩
          | true =>
              exact .inr ⟨rfl, rfl, ((keeps_setStatus pv₁ _).trans (keeps_setStatus _ _)).state,
                (h.setStatus _).setStatus _⟩

/-- How far the download of an update gets: it does not begin, it breaks off, or the
update is fetched. -/
theorem pvUpdateDownload_handed (cfg : Config) (io : DownloadIo) {pv : Pv} {u : PvUpdate}
    (hu : pv.update = some u) (hstate : pv.state.isSome) (hs : u.status.Starting)
    (hsound : u.Sound) :
    (u.isLocal = false ∧ u.begun cfg io = false ∧ (pvUpdateDownload cfg io pv).1 = false ∧
      Handed pv (pvUpdateDownload cfg io pv).2 u u.status) ∨
    (u.isLocal = false ∧ u.begun cfg io = true ∧ u.fetched cfg io = false ∧
      (pvUpdateDownload cfg io pv).1 = false ∧
      ∃ status, (status = .updateRetryDownload ∨ status = .updateNoDownload) ∧
        Handed pv (pvUpdateDownload cfg io pv).2 u status) ∨
    (u.fetched cfg io = true ∧ (pvUpdateDownload cfg io pv).1 = true ∧
      (pvUpdateDownload cfg io pv).2.state = pv.state ∧
      Handed pv (pvUpdateDownload cfg io pv).2 u u.fetchedStatus) := by
  obtain ⟨rev, hrev⟩ := Option.isSome_iff_exists.mp hstate
  obtain ⟨pend, hpend⟩ := Option.isSome_iff_exists.mp hsound.1
  have hno : u.status ≠ .updateNoDownload := by
    rcases hs with h | h | h <;> rw [h] <;> decide
  have hsame := Handed.refl hu hno
  cases hlocal : u.isLocal with
  | true =>
      have hdown : pvUpdateDownload cfg io pv = (true, pv) := by
        simp [pvUpdateDownload, hrev, hu, hpend, hlocal]
      rw [hdown]
      exact .inr (.inr ⟨by simp [PvUpdate.fetched, hlocal], rfl, rfl,
        by simpa [PvUpdate.fetchedStatus, hlocal] using hsame⟩)
  | false =>
      -- the download sets nothing but a counter and a timer before it begins
      have hcounted : ∀ (retries retryTimer : Int), Handed pv
          { pv with update := some { u with retries := retries, retryTimer := retryTimer } } u
          u.status := fun _ _ => ⟨⟨[], by simp, fun h => absurd h hno⟩, _, rfl, rfl, rfl, rfl, rfl⟩
      cases hinit : io.remoteInit with
      | false =>
          have hdown : pvUpdateDownload cfg io pv = (false, pv) := by
            simp [pvUpdateDownload, hrev, hu, hpend, hlocal, hinit]
          rw [hdown]
          exact .inl ⟨rfl, by simp [PvUpdate.begun, hinit], rfl, hsame⟩
      | true =>
          by_cases htimer : u.retryTimer ≤ io.nowCheck
          · by_cases hmax : nextRetry u.retries > cfg.revisionRetries
            · have hdown : pvUpdateDownload cfg io pv
                  = (false, { pv with update := some { u with retries := nextRetry u.retries } }) := by
                simp [pvUpdateDownload, hrev, hu, hpend, hlocal, hinit, pvUpdateCheckDownloadRetry,
                  htimer, hmax]
              rw [hdown]
              have hbegun : u.begun cfg io = false := by
                rw [PvUpdate.begun, decide_eq_false (Int.not_le.mpr hmax), Bool.and_false]
              exact .inl ⟨rfl, hbegun, rfl, hcounted _ _⟩
            · have hbegun : u.begun cfg io = true := by
                simp [PvUpdate.begun, hinit, htimer, Int.not_lt.mp hmax]
              have hdown : pvUpdateDownload cfg io pv =
                  (let r := trailDownloadObjects io { pv with update := some { u with
                      retries := nextRetry u.retries, retryTimer := io.nowStart + cfg.storageWait } }
                   if !r.1 then (false, r.2) else (true, pvUpdateSetStatus r.2 .updateDownloaded)) := by
                simp [pvUpdateDownload, hrev, hu, hpend, hlocal, hinit, pvUpdateCheckDownloadRetry,
                  htimer, hmax]
              rw [hdown]
              have hstart := hcounted (nextRetry u.retries) (io.nowStart + cfg.storageWait)
              have hfetched : u.fetched cfg io = (io.getMeta && io.checkSize && io.download) := by
                simp [PvUpdate.fetched, hlocal, hbegun]
              rw [hfetched]
              rcases trailDownloadObjects_handed io hstart with
                ⟨hload, hret, hbreaks⟩ | ⟨hload, hret, hkept, hdone⟩
              · refine .inr (.inl ⟨rfl, hbegun, hload, ?_⟩)
                simp only [hret, Bool.not_false, if_true]
                exact ⟨trivial, hbreaks⟩
              · have hstatus : u.fetchedStatus = .updateDownloaded := by
                  simp [PvUpdate.fetchedStatus, hlocal]
                rw [hstatus]
                refine .inr (.inr ⟨hload, ?_⟩)
                simp only [hret, Bool.not_true, Bool.false_eq_true, if_false]
                exact ⟨trivial, (keeps_setStatus _ _).state.trans hkept, hdone.setStatus _⟩
          · have hdown : pvUpdateDownload cfg io pv = (false, pv) := by
              simp [pvUpdateDownload, hrev, hu, hpend, hlocal, hinit, pvUpdateCheckDownloadRetry,
                htimer]
            rw [hdown]
            exact .inl ⟨rfl, by simp [PvUpdate.begun, htimer], rfl, hsame⟩

/-- What the installation of a fetched update hands on, if it fails. -/
theorem pvUpdateInstall_handed (io : InstallIo) {pv pv₁ : Pv} {u : PvUpdate} {s : UpdateState}
    (h : Handed pv pv₁ u s) (hstate : pv₁.state.isSome) (hpend : u.pending.isSome) :
    (io.linkObjects = false ∧ (pvUpdateInstall io pv₁).1 = false ∧
      Handed pv (pvUpdateInstall io pv₁).2 u .updateFailed) ∨
    (io.linkObjects = true ∧ (io.openJson && io.expandJsons && io.setInstalled) = false ∧
      (pvUpdateInstall io pv₁).1 = false ∧ Handed pv (pvUpdateInstall io pv₁).2 u s) ∨
    (io.linkObjects = true ∧ (io.openJson && io.expandJsons && io.setInstalled) = true ∧
      (pvUpdateInstall io pv₁).1 = true ∧ (pvUpdateInstall io pv₁).2.update.isSome) := by
  obtain ⟨rev, hrev⟩ := Option.isSome_iff_exists.mp hstate
  obtain ⟨u₁, hu₁, -, -, hpend₁, -⟩ := h.update
  obtain ⟨pend, hpend⟩ := Option.isSome_iff_exists.mp hpend
  rw [hpend] at hpend₁
  cases hlink : io.linkObjects with
  | false =>
      have hinst : pvUpdateInstall io pv₁ = (false, pvUpdateSetStatus pv₁ .updateFailed) := by
        simp [pvUpdateInstall, hrev, hu₁, hpend₁, hlink]
      rw [hinst]
      exact .inl ⟨rfl, rfl, h.setStatus _⟩
  | true =>
      cases hjsons : io.openJson && io.expandJsons with
      | false =>
          have hstop : (!io.openJson || !io.expandJsons) = true := by
            rw [← Bool.not_and, hjsons]
            rfl
          have hinst : pvUpdateInstall io pv₁ = (false, pv₁) := by
            simp [pvUpdateInstall, hrev, hu₁, hpend₁, hlink, hstop]
          rw [hinst]
          exact .inr (.inl ⟨rfl, by simp, rfl, h⟩)
      | true =>
          have hgo : (!io.openJson || !io.expandJsons) = false := by
            rw [← Bool.not_and, hjsons]
            rfl
          cases hset : io.setInstalled with
          | false =>
              have hinst : pvUpdateInstall io pv₁ = (false, { pv₁ with
                  bl := { pv₁.bl with pvTry := some pend }, nv := pv₁.nv.writeAll [] }) := by
                simp [pvUpdateInstall, hrev, hu₁, hpend₁, hlink, hgo, setInstalled_envOps, hset]
              rw [hinst]
              exact .inr (.inl ⟨rfl, by simp, rfl, h.of_update rfl rfl⟩)
          | true =>
              refine .inr (.inr ⟨rfl, by simp, ?_⟩)
              simp [pvUpdateInstall, hrev, hu₁, hpend₁, hlink, hgo, setInstalled_envOps, hset,
                update_setStatus]

/-- What `pv_update_finish` makes of it: an update that is removed is settled if its
status ends in a verdict. -/
theorem Handed.finish {cfg : Config} {io : FinishIo Bool} {pv pv₁ : Pv} {u : PvUpdate}
    {s : UpdateState} (h : Handed pv pv₁ u s)
    (hgone : (finishUpdate cfg io pv₁).2.update = none) :
    Settled u.rev (finishUpdate cfg io pv₁).2.reports ↔ (serverStatus (verdictOf s)).Terminal := by
  obtain ⟨⟨new, hnew, hdropped⟩, u₁, hu₁, hrev, rfl, -, -⟩ := h
  rw [finish_reports hu₁ hgone]
  split
  · rename_i hs
    obtain ⟨before, stored, hlast⟩ := hdropped hs
    rw [hnew, hlast, ← List.append_assoc]
    refine ⟨fun _ => by rw [hs]; decide, fun _ => Settled.last (by rw [hs]; decide)⟩
  · rw [hrev]
    constructor
    · intro hsettled
      by_contra hterminal
      exact not_settled_last hterminal hsettled
    · exact Settled.last

/-- An update that is not waiting for a retry or committed is removed. -/
theorem Handed.removed {cfg : Config} {io : FinishIo Bool} {pv pv₁ : Pv} {u : PvUpdate}
    {s : UpdateState} (h : Handed pv pv₁ u s) (hretry : s ≠ .updateRetryDownload)
    (htesting : s ≠ .updateTestingReboot) : (finishUpdate cfg io pv₁).2.update = none := by
  obtain ⟨-, u₁, hu₁, -, rfl, -, -⟩ := h
  rw [(finishUpdate_spec cfg io pv₁).update, hu₁, Option.filter_some, if_neg]
  unfold finishLeaves
  cases hs : u₁.status <;> simp_all

/-- **When the server has the last word**: a download of a queued update begins, and
the installation of a fetched one stops at the links at the latest, goes through, or
is one of an update that the server knows nothing of. -/
def UpdateSettled (cfg : Config) (io : UpdateIo) (u : PvUpdate) : Prop :=
  (u.status = .updateQueued → u.isLocal = true ∨ u.begun cfg io.download = true) ∧
  (u.fetched cfg io.download = true →
    (u.isLocal = true ∧ u.status = .updateInit) ∨ io.install.linkObjects = false ∨
      (io.install.openJson && io.install.expandJsons && io.install.setInstalled) = true)

instance (cfg : Config) (io : UpdateIo) (u : PvUpdate) : Decidable (UpdateSettled cfg io u) :=
  inferInstanceAs (Decidable (_ ∧ _))

/-- An update that is handed on with a status that ends in no verdict breaks the
property, and with another one it keeps it. -/
theorem pvUpdate_handed {cfg : Config} {io : UpdateIo} {pv : Pv} {u : PvUpdate}
    {s : UpdateState} (hfail : (pvUpdateTransfer cfg io pv).1 = false)
    (h : Handed pv (pvUpdateTransfer cfg io pv).2 u s) (htesting : s ≠ .updateTestingReboot) :
    ((pvUpdate cfg io pv).update = none → Settled u.rev (pvUpdate cfg io pv).reports) ↔
      (serverStatus (verdictOf s)).Terminal := by
  have heq : pvUpdate cfg io pv
      = { (finishUpdate cfg io.finish (pvUpdateTransfer cfg io pv).2).2 with next := .wait } := by
    simp only [pvUpdate, hfail, Bool.not_false, if_true]
  rw [heq]
  dsimp only
  by_cases hretry : s = .updateRetryDownload
  · subst hretry
    exact ⟨fun _ => by decide, fun hterminal hgone => (h.finish hgone).mpr hterminal⟩
  · have hgone : (finishUpdate cfg io.finish (pvUpdateTransfer cfg io pv).2).2.update = none :=
      h.removed hretry htesting
    exact ⟨fun hsettled => (h.finish hgone).mp (hsettled hgone), fun hterminal _ =>
      (h.finish hgone).mpr hterminal⟩

/-- What comes of the transfer of an update: it is handed on, and only one that is
not local for a retry, or it goes through. -/
theorem pvUpdateTransfer_handed (cfg : Config) (io : UpdateIo) {pv : Pv} {u : PvUpdate}
    (hu : pv.update = some u) (hstate : pv.state.isSome) (hs : u.status.Starting)
    (hsound : u.Sound) :
    ((pvUpdateTransfer cfg io pv).1 = false ∧ ∃ s, Handed pv (pvUpdateTransfer cfg io pv).2 u s ∧
        s ≠ .updateTestingReboot ∧ (s = .updateRetryDownload → u.isLocal = false) ∧
        ((serverStatus (verdictOf s)).Terminal ↔ UpdateSettled cfg io u)) ∨
      ((pvUpdateTransfer cfg io pv).1 = true ∧ (pvUpdateTransfer cfg io pv).2.update.isSome ∧
        UpdateSettled cfg io u) := by
  have hstarting : u.status ≠ .updateTestingReboot := by
    rcases hs with h | h | h <;> rw [h] <;> decide
  rcases pvUpdateDownload_handed cfg io.download hu hstate hs hsound with
    ⟨hlocal, hbegun, hret, hd⟩ | ⟨hlocal, hbegun, hfetched, hret, s, hor, hd⟩ |
      ⟨hfetched, hret, hst, hd⟩
  · -- the download does not begin
    have hnot : u.fetched cfg io.download = false := by simp [PvUpdate.fetched, hlocal, hbegun]
    simp only [pvUpdateTransfer, hret, Bool.not_false, if_true]
    refine .inl ⟨trivial, u.status, hd, hstarting, fun _ => hlocal, ?_⟩
    constructor
    · intro hterminal
      refine ⟨fun hq => ?_, fun h => by rw [hnot] at h; cases h⟩
      rw [hq] at hterminal
      exact absurd hterminal (by decide)
    · rintro ⟨hq, -⟩
      rcases hs with h | h | h
      · rw [h]; decide
      · rcases hq h with h' | h'
        · rw [hlocal] at h'; cases h'
        · rw [hbegun] at h'; cases h'
      · rw [h]; decide
  · -- it breaks off
    simp only [pvUpdateTransfer, hret, Bool.not_false, if_true]
    refine .inl ⟨trivial, s, hd, ?_, fun _ => hlocal, ?_⟩
    · rcases hor with h | h <;> rw [h] <;> decide
    · refine ⟨fun _ => ⟨fun _ => .inr hbegun, fun h => by rw [hfetched] at h; cases h⟩, fun _ => ?_⟩
      rcases hor with h | h <;> rw [h] <;> decide
  · -- the update is fetched, and installed
    have hqueued : u.status = .updateQueued →
        u.isLocal = true ∨ u.begun cfg io.download = true := by
      intro _
      simp only [PvUpdate.fetched, Bool.or_eq_true, Bool.and_eq_true] at hfetched
      exact hfetched.imp_right fun h => h.1.1.1
    simp only [pvUpdateTransfer, hret, Bool.not_true, Bool.false_eq_true, if_false]
    rcases pvUpdateInstall_handed io.install hd (by rw [hst]; exact hstate) hsound.1 with
      ⟨hlink, hfail, hh⟩ | ⟨hlink, hrest, hfail, hh⟩ | ⟨hlink, hrest, hok, hsome⟩
    · exact .inl ⟨hfail, _, hh, by decide, (fun h => by cases h),
        fun _ => ⟨hqueued, fun _ => .inr (.inl hlink)⟩, fun _ => by decide⟩
    · refine .inl ⟨hfail, _, hh, ?_, ?_, ?_⟩
      · unfold PvUpdate.fetchedStatus
        split
        · exact hstarting
        · decide
      · unfold PvUpdate.fetchedStatus
        split
        · exact fun h => hsound.2.2 h
        · exact fun h => by cases h
      · constructor
        · intro hterminal
          refine ⟨hqueued, fun _ => .inl ?_⟩
          unfold PvUpdate.fetchedStatus at hterminal
          split at hterminal
          · rename_i hlocal
            rcases hs with h | h | h
            · exact ⟨hlocal, h⟩
            · rw [h] at hterminal
              exact absurd hterminal (by decide)
            · rw [hsound.2.2 h] at hlocal
              cases hlocal
          · exact absurd hterminal (by decide)
        · rintro ⟨-, hinstall⟩
          rcases hinstall hfetched with ⟨hlocal, hinit⟩ | h | h
          · simp only [PvUpdate.fetchedStatus, hlocal, if_true, hinit]
            decide
          · rw [hlink] at h; cases h
          · rw [hrest] at h; cases h
    · exact .inr ⟨hok, hsome, hqueued, fun _ => .inr (.inr hrest)⟩

/-- **The update entry settles what it removes** exactly if the update is one that
gets far enough, or not too far. -/
theorem pvUpdate_settled_iff (cfg : Config) (io : UpdateIo) {pv : Pv} {u : PvUpdate}
    (hu : pv.update = some u) (hstate : pv.state.isSome) (hs : u.status.Starting)
    (hsound : u.Sound) :
    ((pvUpdate cfg io pv).update = none → Settled u.rev (pvUpdate cfg io pv).reports) ↔
      UpdateSettled cfg io u := by
  rcases pvUpdateTransfer_handed cfg io hu hstate hs hsound with
    ⟨hfail, s, hh, htesting, -, hiff⟩ | ⟨hok, hsome, hsettled⟩
  · exact (pvUpdate_handed hfail hh htesting).trans hiff
  · -- an update that goes on is not removed
    refine ⟨fun _ => hsettled, fun _ hgone => ?_⟩
    rcases pvUpdate_cases cfg io hu hs with ⟨-, hspec⟩ | ⟨hfail, -⟩
    · obtain ⟨u', hu', -⟩ := hspec.update
      rw [hgone] at hu'
      cases hu'
    · rw [hok] at hfail
      cases hfail

/-! ## The invariant -/

/-- An update that the process waits with ends in a verdict, and one to start is
sound. -/
structure VerdictInv (pv : Pv) : Prop where
  standing : pv.next = .wait ∨ pv.next = .command ∨ pv.next = .factoryUpload →
    ∀ u, pv.update = some u → u.status.Standing
  sound : ∀ u, pv.update = some u → u.status.Starting → u.Sound

/-- A test makes no update one to start. -/
theorem UpdateState.tested_of_starting {s : UpdateState} (h : s.tested.Starting) : s.tested = s := by
  cases s with
  | updateTry => exact absurd h (by decide)
  | updateTransition => exact absurd h (by decide)
  | _ => rfl

/-- The same update, and a next state in which it need not stand. -/
theorem VerdictInv.on {pv pv' : Pv} (h : VerdictInv pv) (hu : pv'.update = pv.update)
    (hnext : pv'.next ≠ .wait ∧ pv'.next ≠ .command ∧ pv'.next ≠ .factoryUpload) :
    VerdictInv pv' :=
  ⟨fun hn => absurd hn (by tauto), hu ▸ h.sound⟩

/-- An update at a status that no update starts with. -/
theorem VerdictInv.of_standing {pv : Pv}
    (h : ∀ u, pv.update = some u → u.status.Standing ∧ ¬ u.status.Starting) : VerdictInv pv :=
  ⟨fun _ u hu => (h u hu).1, fun u hu hs => absurd hs (h u hu).2⟩

theorem pvRun_verdict (cfg : Config) (io : RunIo) {pv : Pv} (h : Inv pv) (hnext : pv.next = .run) :
    VerdictInv (pvRun cfg io pv) := by
  refine VerdictInv.of_standing fun u hu => ?_
  rw [(pvRun_spec cfg io pv).2.2.1] at hu
  obtain ⟨u₀, hu₀, hstatus⟩ := (pvRunLoad_spec io (pvUpdateResume io.creds pv).2).2.2.1 u hu
  rw [hstatus]
  rcases (pvUpdateResume_spec io.creds pv).2 with hsame | ⟨-, rev, -, hnew⟩
  · rw [hu₀] at hsame
    rw [h.rerun hnext u₀ hsame.symm]
    decide
  · obtain rfl := Option.some.inj (hu₀.symm.trans hnew)
    simp only [resumed]
    split <;> decide

/-- The update that the wait entry leaves stands, if it does not start. -/
theorem WaitLeaves.verdict {cfg : Config} {io : FinishIo Bool} {pv : Pv} {r : PvStateT × Pv}
    (h : WaitLeaves cfg io pv r) (hv : VerdictInv pv) (hnext : pv.next = .wait) :
    (r.1 ≠ .update → ∀ u, r.2.update = some u → u.status.Standing) ∧
      ∀ u, r.2.update = some u → u.status.Starting → u.Sound := by
  have hstanding := hv.standing (.inl hnext)
  have htested : ∀ u u₀, pv.update = some u₀ → { u₀ with status := u₀.status.tested } = u →
      u.status.Standing ∧ (u.status.Starting → u.Sound) := by
    rintro u u₀ hu₀ rfl
    refine ⟨(hstanding u₀ hu₀).tested, fun hs => ?_⟩
    have hsame : u₀.status.tested = u₀.status := UpdateState.tested_of_starting hs
    dsimp only at hs
    rw [hsame] at hs ⊢
    exact hv.sound u₀ hu₀ hs
  cases h with
  | kept update next => exact ⟨fun _ => update ▸ hstanding, update ▸ hv.sound⟩
  | tested update next =>
      have hleft : ∀ u, r.2.update = some u → u.status.Standing ∧ (u.status.Starting → u.Sound) := by
        intro u hu
        obtain ⟨u₀, hu₀, heq⟩ := Option.map_eq_some_iff.mp (update ▸ hu)
        exact htested u u₀ hu₀ heq
      exact ⟨fun _ u hu => (hleft u hu).1, fun u hu => (hleft u hu).2⟩
  | finished pv₁ update left next =>
      have hleft : ∀ u, r.2.update = some u → u.status.Standing ∧ (u.status.Starting → u.Sound) := by
        intro u hu
        rw [left, (finishUpdate_spec cfg io pv₁).update, update] at hu
        obtain ⟨u₀, hu₀, heq⟩ := Option.map_eq_some_iff.mp (Option.filter_eq_some_iff.mp hu).1
        exact htested u u₀ hu₀ heq
      exact ⟨fun _ u hu => (hleft u hu).1, fun u hu => (hleft u hu).2⟩
  | queued u new update status pending next =>
      refine ⟨fun hne => absurd next hne, fun u' hu' _ => ?_⟩
      obtain rfl := Option.some.inj (update.symm.trans hu')
      exact ⟨pending, fun h => (by rw [status] at h; cases h), fun h => (by rw [status] at h; cases h)⟩

theorem pvWait_verdict (cfg : Config) (io : WaitIo) {pv : Pv} (h : VerdictInv pv)
    (hnext : pv.next = .wait) : VerdictInv (pvWait cfg io pv) := by
  rcases pvWait_spec cfg io pv with ⟨-, next, hor, heq⟩ | ⟨-, cmd, next, heq, hcase⟩
  · rw [heq]
    exact h.on rfl (by rcases hor with rfl | rfl <;> simp)
  · rw [heq]
    obtain ⟨hstanding, hsound⟩ := (pvWaitOps_leaves cfg io pv).verdict h hnext
    refine ⟨fun hn => hstanding fun hup => ?_, hsound⟩
    rcases hcase with h' | ⟨h', -⟩
    · rw [hup] at h'
      subst h'
      simp at hn
    · rw [hup] at h'
      cases h'

/-- What a command does with the update: nothing, or it starts a local one. -/
theorem pvCommand_leaves (io : CommandIo) (pv : Pv) :
    (pvCommand io pv).update = pv.update ∧ (pvCommand io pv).next ≠ .update ∨
      pv.update = none ∧ ∀ u, (pvCommand io pv).update = some u →
        (pvCommand io pv).next = .update ∧ u.pending.isSome ∧ u.isLocal = true ∧
          u.status = .updateInit := by
  have hstart : ∀ (pv₀ : Pv) (rev : Rev) (u : PvUpdate),
      (pvCommandUpdate io.localStep rev pv₀).update = some u →
      (pvCommandUpdate io.localStep rev pv₀).next = .update ∧ u.pending.isSome ∧
        u.isLocal = true ∧ u.status = .updateInit := by
    intro pv₀ rev u hu
    unfold pvCommandUpdate pvUpdateGetStepLocal at hu ⊢
    dsimp only at hu ⊢
    split at hu
    · cases hu
    · split at hu
      · cases hu
      · rename_i hsig hst
        obtain rfl := Option.some.inj hu
        rw [if_neg hsig, if_neg hst]
        exact ⟨rfl, rfl, by simp [pvUpdateNew], rfl⟩
  unfold pvCommand
  dsimp only
  split
  · exact .inl ⟨rfl, by simp⟩
  · rename_i cmd _
    cases cmd with
    | rebootDevice =>
        refine .inl ?_
        simp only [pvCommandOp]
        split <;> exact ⟨rfl, by simp⟩
    | poweroffDevice =>
        refine .inl ?_
        simp only [pvCommandOp]
        split <;> exact ⟨rfl, by simp⟩
    | localRun rev =>
        simp only [pvCommandOp]
        split
        · exact .inl ⟨rfl, by simp⟩
        · rename_i hnone
          exact .inr ⟨by simpa using hnone, hstart _ rev⟩
    | makeFactory rev =>
        simp only [pvCommandOp]
        split
        · exact .inl ⟨rfl, by simp⟩
        · rename_i hnone
          simp only [Bool.or_eq_true, not_or] at hnone
          exact .inr ⟨by simpa using hnone.1.1, hstart _ _⟩
    | _ => exact .inl ⟨rfl, by simp [pvCommandOp]⟩

theorem pvCommand_verdict (io : CommandIo) {pv : Pv} (h : VerdictInv pv)
    (hnext : pv.next = .command) : VerdictInv (pvCommand io pv) := by
  rcases pvCommand_leaves io pv with ⟨hsame, -⟩ | ⟨-, hnew⟩
  · exact ⟨fun _ => hsame ▸ h.standing (.inr (.inl hnext)), hsame ▸ h.sound⟩
  · refine ⟨fun hn u hu => ?_, fun u hu _ => ?_⟩
    · rw [(hnew u hu).1] at hn
      simp at hn
    · obtain ⟨-, hpend, hlocal, hinit⟩ := hnew u hu
      exact ⟨hpend, fun _ => hlocal, fun h' => (by rw [hinit] at h'; cases h')⟩

theorem pvUpdate_verdict (cfg : Config) (io : UpdateIo) {pv : Pv} (h : Inv pv)
    (hv : VerdictInv pv) (hnext : pv.next = .update) : VerdictInv (pvUpdate cfg io pv) := by
  obtain ⟨u, hu, hs⟩ := h.starting hnext
  have hsound := hv.sound u hu hs
  have hloaded := h.loaded (.inr (.inr (.inl hnext)))
  rcases pvUpdate_cases cfg io hu hs with ⟨-, hspec⟩ | ⟨hfail, hspec⟩
  · obtain ⟨u', hu', -, -, hcase⟩ := hspec.update
    refine ⟨fun hn => ?_, fun v hv' hs' => ?_⟩
    · rcases hcase with ⟨h', -⟩ | ⟨h' | h', -⟩ <;> rw [h'] at hn <;> simp at hn
    · obtain rfl := Option.some.inj (hu'.symm.trans hv')
      rcases hcase with ⟨-, h'⟩ | ⟨-, h'⟩ <;> rw [h'] at hs' <;> exact absurd hs' (by decide)
  · rcases pvUpdateTransfer_handed cfg io hu hloaded hs hsound with
      ⟨-, s, hh, -, hretry, -⟩ | ⟨hok, -⟩
    · have hleft : ∀ v, (pvUpdate cfg io pv).update = some v →
          v.status = .updateRetryDownload ∧ v.Sound := by
        intro v hv'
        obtain ⟨-, hpend, hst⟩ := hspec.update v hv'
        refine ⟨hst, hpend ▸ hsound.1, fun h' => (by rw [hst] at h'; cases h'), fun _ => ?_⟩
        -- the update that is left is the one handed on
        obtain ⟨u₁, hu₁, -, hst₁, -, hlocal⟩ := hh.update
        have hfin : (pvUpdate cfg io pv).update
            = (finishUpdate cfg io.finish (pvUpdateTransfer cfg io pv).2).2.update := by
          simp only [pvUpdate, hfail, Bool.not_false, if_true]
        rw [hfin, (finishUpdate_spec cfg io.finish _).update, hu₁] at hv'
        obtain rfl := Option.some.inj (Option.filter_eq_some_iff.mp hv').1
        rw [hlocal]
        exact hretry (hst₁.symm.trans hst)
      refine ⟨fun _ v hv' => ?_, fun v hv' _ => (hleft v hv').2⟩
      rw [(hleft v hv').1]
      decide
    · rw [hok] at hfail
      cases hfail

/-- **A step of the process keeps the invariant**, with any outcome of every call. -/
theorem pvRunState_verdict (cfg : Config) (io : StepIo) {pv : Pv} (h : Inv pv)
    (hv : VerdictInv pv) : VerdictInv (pvRunState cfg io pv) := by
  unfold pvRunState
  cases hnext : pv.next with
  | init =>
      have hnone := h.init hnext
      exact ⟨fun _ u hu => (by rw [show pv.update = some u from hu] at hnone; cases hnone),
        fun u hu => (by rw [show pv.update = some u from hu] at hnone; cases hnone)⟩
  | run => exact pvRun_verdict cfg io.run h hnext
  | wait => exact pvWait_verdict cfg io.wait hv hnext
  | command => exact pvCommand_verdict io.command hv hnext
  | update => exact pvUpdate_verdict cfg io.update h hv hnext
  | rollback =>
      dsimp only [pvRollback]
      split
      · exact hv.on rfl (by simp)
      · refine VerdictInv.of_standing fun u hu => ?_
        dsimp only at hu
        rw [update_setStatus, Option.map_eq_some_iff] at hu
        obtain ⟨u₀, -, rfl⟩ := hu
        exact (by decide : UpdateState.updateFailed.Standing ∧ ¬ UpdateState.updateFailed.Starting)
  | factoryUpload => exact ⟨fun _ => hv.standing (.inr (.inr hnext)), hv.sound⟩
  | _ => exact hv.on rfl (by simp)

/-- Outside of the update entry, an update is only removed with its verdict. -/
theorem pvRunState_settled (cfg : Config) (io : StepIo) {pv : Pv} {u : PvUpdate}
    (hv : VerdictInv pv) (hne : pv.next ≠ .update) (hu : pv.update = some u)
    (hgone : (pvRunState cfg io pv).update = none) :
    Settled u.rev (pvRunState cfg io pv).reports := by
  have hkept : pv.update ≠ none := by simp [hu]
  unfold pvRunState at hgone ⊢
  cases hnext : pv.next with
  | update => exact absurd hnext hne
  | run =>
      rw [hnext] at hgone
      dsimp only at hgone
      rw [(pvRun_spec cfg io.run pv).2.2.1] at hgone
      have hresumed : (pvUpdateResume io.run.creds pv).2.update = some u := by
        simp [pvUpdateResume, hu]
      unfold pvRunLoad at hgone
      split at hgone
      · exact absurd (hresumed.symm.trans hgone) (by simp)
      · split at hgone
        · exact absurd (hresumed.symm.trans hgone) (by simp)
        · simp [hresumed] at hgone
  | wait =>
      rw [hnext] at hgone
      dsimp only at hgone ⊢
      rcases pvWait_spec cfg io.wait pv with ⟨-, next, -, heq⟩ | ⟨-, cmd, next, heq, -⟩
      · rw [heq] at hgone
        exact absurd hgone hkept
      · rw [heq] at hgone ⊢
        dsimp only at hgone ⊢
        cases pvWaitOps_leaves cfg io.wait pv with
        | kept update next => exact absurd (update ▸ hgone) hkept
        | tested update next => simp [update, hu] at hgone
        | finished pv₁ update left next =>
            rw [left] at hgone ⊢
            rw [hu, Option.map_some] at update
            obtain ⟨hreported, hterminal⟩ := (hv.standing (.inl hnext) u hu).verdict
            rw [finish_reports update hgone, if_neg hreported]
            exact Settled.last hterminal
        | queued u' new update status pending next => exact absurd new hkept
  | command =>
      rw [hnext] at hgone
      rcases pvCommand_leaves io.command pv with ⟨hsame, -⟩ | ⟨hnone, -⟩
      · exact absurd (hsame ▸ hgone) hkept
      · exact absurd hnone hkept
  | rollback =>
      rw [hnext] at hgone
      dsimp only [pvRollback] at hgone
      split at hgone
      · exact absurd hgone hkept
      · simp [update_setStatus, hu] at hgone
  | _ =>
      rw [hnext] at hgone
      exact absurd hgone hkept

/-! ## Runs -/

/-- The update entry is only gone through with an update that is settled by it. -/
def Settles (cfg : Config) (d : Device) (e : Event) : Prop :=
  ∀ io pv u, e = .step io → d.ram = some pv → pv.next = .update → pv.update = some u →
    UpdateSettled cfg io.update u

theorem settles_step {cfg : Config} {d : Device} {io : StepIo}
    (h : d.ram.all (fun pv => pv.next ≠ .update ||
      pv.update.all fun u => decide (UpdateSettled cfg io.update u)) = true) :
    Settles cfg d (.step io) := by
  rintro _ pv u ⟨⟩ hpv hnext hu
  simpa [hpv, hnext, hu] using h

/-- The invariant of the process, with that of its update. -/
def DeviceVerdictInv (d : Device) : Prop :=
  ∀ pv, d.ram = some pv → Inv pv ∧ VerdictInv pv

theorem DeviceVerdictInv.step (cfg : Config) {d : Device} (h : DeviceVerdictInv d) (e : Event) :
    DeviceVerdictInv (d.step cfg e) := by
  have hinv : DeviceInv d := fun pv hpv => (h pv hpv).1
  refine fun pv hpv => ⟨hinv.step cfg e pv hpv, ?_⟩
  cases e with
  | boot unclaimed =>
      simp only [Device.step] at hpv
      split at hpv
      · exact (h pv hpv).2
      · obtain rfl := Option.some.inj hpv
        exact VerdictInv.of_standing fun u hu => by cases hu
  | step io =>
      simp only [Device.step] at hpv
      split at hpv
      · exact (h pv hpv).2
      · rename_i pv₀ hpv₀
        dsimp only at hpv
        split at hpv
        · cases hpv
        · obtain rfl := Option.some.inj hpv
          obtain ⟨hi, hv⟩ := h pv₀ hpv₀
          exact pvRunState_verdict cfg io (hi.atStep _) ⟨hv.standing, hv.sound⟩
  | powerLoss io writes =>
      simp only [Device.step] at hpv
      split at hpv
      · exact (h pv hpv).2
      · cases hpv

/-- A step keeps the verdict exactly if an update that it starts is settled. -/
theorem keepsVerdict_iff_settles (cfg : Config) {d : Device} (h : DeviceVerdictInv d) (e : Event) :
    KeepsVerdict cfg d e ↔ Settles cfg d e := by
  have hentry : ∀ io pv u, d.ram = some pv → pv.next = .update → pv.update = some u →
      (((d.process cfg io pv).update = none → Settled u.rev (d.process cfg io pv).reports) ↔
        UpdateSettled cfg io.update u) := by
    intro io pv u hpv hnext hu
    obtain ⟨hi, hv⟩ := h pv hpv
    obtain ⟨u', hu', hs⟩ := hi.starting hnext
    obtain rfl := Option.some.inj (hu.symm.trans hu')
    have hprocess : d.process cfg io pv = pvUpdate cfg io.update (pv.atStep d.flash.env) := by
      simp only [Device.process, pvRunState, Pv.atStep, hnext]
    rw [hprocess]
    exact pvUpdate_settled_iff cfg io.update hu (hi.loaded (.inr (.inr (.inl hnext)))) hs
      (hv.sound u hu hs)
  constructor
  · intro hkeeps io pv u he hpv hnext hu
    exact (hentry io pv u hpv hnext hu).mp (hkeeps io pv u he hpv hu)
  · intro hsettles io pv u he hpv hu
    by_cases hnext : pv.next = .update
    · exact (hentry io pv u hpv hnext hu).mpr (hsettles io pv u he hpv hnext hu)
    · intro hgone
      obtain ⟨-, hv⟩ := h pv hpv
      have hv' : VerdictInv (pv.atStep d.flash.env) := ⟨hv.standing, hv.sound⟩
      exact pvRunState_settled cfg io hv' hnext hu hgone

/-- **No update is dropped without a verdict** along a run exactly if every update
that is started is settled. -/
theorem no_update_dropped_iff (cfg : Config) {d : Device} (hinit : (deviceSystem cfg).init d)
    (es : List Event) :
    (deviceSystem cfg).Along (KeepsVerdict cfg) d es ↔
      (deviceSystem cfg).Along (Settles cfg) d es :=
  System.along_iff_of_invariant (fun _ e h => h.step cfg e)
    (fun _ e h => keepsVerdict_iff_settles cfg h e)
    (fun pv hpv => by rw [hinit.1] at hpv; cases hpv)

/-- A device on revision 1. -/
def committedDevice : Device := ⟨⟨[(str "pv_rev", str "1")], false⟩, none⟩

/-- A local update that transitions is committed with a verdict. -/
theorem no_update_dropped_iff_local :
    (deviceSystem .unattended).Along (KeepsVerdict .unattended) committedDevice
      [.boot false, .step .ok, .step .ok, .step (.localRun (str "2")), .step .ok, .step .ok,
        .step .ok, .step .ok] :=
  (no_update_dropped_iff .unattended (by exact ⟨rfl, rfl⟩) _).mpr
    ⟨(fun _ _ _ h => by cases h), settles_step (by decide +kernel), settles_step (by decide +kernel),
      settles_step (by decide +kernel), settles_step (by decide +kernel),
      settles_step (by decide +kernel), settles_step (by decide +kernel),
      settles_step (by decide +kernel), trivial⟩

/-- A step in which the server has revision 2. -/
def StepIo.found : StepIo :=
  { StepIo.ok with
    wait := { StepIo.ok.wait with
      network := { StepIo.ok.wait.network with
        updates := { StepIo.ok.wait.network.updates with
          steps := ⟨.empty, .empty, .empty, .found ⟨some (str "2"), true, 0, true, true, true⟩⟩ } } } }

/-- A step in which the connection to the server cannot be set up. -/
def StepIo.noRemote : StepIo :=
  { StepIo.ok with
    update := { StepIo.ok.update with
      download := { StepIo.ok.update.download with remoteInit := false } } }

/-- The configuration of a device that the server controls. -/
def Config.attended : Config := { Config.unattended with controlRemote := true, revisionRetries := 10 }

/-- The device with the update it found on the server. -/
def foundUpdate : Device :=
  (deviceSystem .attended).run committedDevice
    [.boot false, .step .ok, .step .ok, .step .found]

/-- If the connection fails when the download is to begin, the update is removed, and
the server is told that it is queued. -/
theorem update_dropped_queued :
    ¬ ∀ (cfg : Config) (d : Device) (e : Event), (deviceSystem cfg).Reachable d →
      KeepsVerdict cfg d e := by
  intro h
  have hreach : (deviceSystem .attended).Reachable foundUpdate :=
    (System.Reachable.init (by exact ⟨rfl, rfl⟩)).run _
  have hdropped : ∃ pv u, foundUpdate.ram = some pv ∧ pv.update = some u ∧ u.rev = str "2" ∧
      (foundUpdate.process .attended .noRemote pv).update = none ∧
      (foundUpdate.process .attended .noRemote pv).reports
        = [⟨str "2", some (str "2"), .updateQueued⟩] :=
    ⟨_, _, rfl, rfl, by decide +kernel, by decide +kernel, by decide +kernel⟩
  obtain ⟨pv, u, hpv, hu, hrev, hgone, hreports⟩ := hdropped
  have hsettled := h .attended foundUpdate (.step .noRemote) hreach .noRemote pv u rfl hpv hu hgone
  rw [hreports, hrev] at hsettled
  have hqueued : ¬ (serverStatus .updateQueued).Terminal := by decide
  exact @not_settled_last (str "2") [] _ _ hqueued hsettled

end Pantavisor.Controller
