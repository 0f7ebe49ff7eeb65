/-
Pantavisor.Controller.Update — the update module (`updater.c`) as it changes
the state of the controller.

`Pv` is `struct pantavisor` as far as updates go, with the copies that the boot
loader module keeps. What a function does outside the process is recorded in
it: `reports` lists the calls of `trail_remote_set_status`, and `nv` is the
stored environment with the writes that reached it. Every outcome of a call
outside the model is an argument: a record named after the function that makes
the calls.

A revision's contents are left out here: `state` and `pending` are the names of
the revisions loaded and to be loaded. The progress that a report stores and
sends is its status and its two revisions.
-/
import Pantavisor.Bootloader.Bootloader
import Pantavisor.Lib.KeyedList

namespace Pantavisor.Controller

open Pantavisor.Lib Pantavisor.Bootloader

/-- The name of a revision. -/
abbrev Rev := CStr

/-- `enum update_state` -/
inductive UpdateState where
  | updateInit
  | updateQueued
  | updateDownloaded
  | updateInstalled
  | updateTry
  | updateTransition
  | updateReboot
  | updateUpdated
  | updateDone
  | updateFailed
  | updateNoDownload
  | updateNoSignature
  | updateNoParse
  | updateRetryDownload
  | updateTestingReboot
  | updateTestingNonreboot
  | updateDownloadProgress
  deriving DecidableEq, Repr

/-- `pv_state_t` -/
inductive PvStateT where
  | init
  | run
  | wait
  | command
  | update
  | rollback
  | reboot
  | poweroff
  | error
  | exit
  | factoryUpload
  deriving DecidableEq, Repr

/-- `struct pv_update`; `rev` is the revision that `endpoint` is made of, and
`pending` the one of the pending state. -/
structure PvUpdate where
  status : UpdateState
  rev : Rev
  pending : Option Rev
  retries : Int
  retryTimer : Int
  runlevel : Nat
  isLocal : Bool
  deriving DecidableEq, Repr

/-- What a call of `trail_remote_set_status` reports: the revision it sends the
status for and the one whose progress it stores it as. -/
structure Report where
  rev : Rev
  stored : Option Rev
  status : UpdateState
  deriving DecidableEq, Repr

/-- `struct pv_cmd`: the operation, with the payload where one is used. -/
inductive PvCmd where
  | updateMetadata
  | rebootDevice
  | poweroffDevice
  | tryOnce
  | localRun (rev : Rev)
  | makeFactory (rev : Rev)
  | runGc
  | unknown
  deriving DecidableEq, Repr

/-- The `pv_rev` and `pv_try` of `/proc/cmdline`. -/
structure Cmdline where
  rev : Rev
  tryRev : Option Rev
  deriving DecidableEq, Repr

/-- The stored environment and the writes of the current step that reached it. -/
structure NvEnv where
  env : List (CStr × CStr)
  writes : List (KeyOp CStr CStr)
  deriving DecidableEq, Repr

/-- `struct pantavisor` and the static data of the modules. -/
structure Pv where
  cmdline : Cmdline
  bl : PvBootloader
  nv : NvEnv
  reports : List Report
  next : PvStateT
  state : Option Rev
  update : Option PvUpdate
  cmd : Option PvCmd
  remoteMode : Bool
  unclaimed : Bool
  synced : Bool
  timerWaitDelay : Int
  timerCommit : Int
  rollbackTimer : Int
  deriving DecidableEq, Repr

/-- The configuration that the controller reads. -/
structure Config where
  controlRemote : Bool
  updaterInterval : Int
  commitDelay : Int
  networkTimeout : Int
  storageWait : Int
  revisionRetries : Int
  deriving DecidableEq, Repr

/-! ## The environment of the controller -/

/-- A write that reaches the stored environment. -/
def NvEnv.write (nv : NvEnv) (op : KeyOp CStr CStr) : NvEnv where
  env := op.apply nv.env
  writes := nv.writes ++ [op]

/-- Environment operations that update a map when they succeed and do nothing
when they fail. -/
def envOps : BlOps Id Bool NvEnv where
  setEnvKey ok nv key value := pure (if ok then (0, nv.write (.set key value)) else (-1, nv))
  unsetEnvKey ok nv key := pure (if ok then (0, nv.write (.unset key)) else (-1, nv))
  getEnvKey _ nv key := denote nv.env key
  flushEnv _ nv := pure (0, nv)

/-! ## Status -/

/-- `trail_remote_set_status` of an update that is not `pv->update`. -/
def Pv.report (pv : Pv) (u : PvUpdate) (status : UpdateState) : Pv :=
  { pv with reports := pv.reports ++ [⟨u.rev, u.pending, status⟩] }

/-- `pv_update_set_status` -/
def pvUpdateSetStatus (pv : Pv) (status : UpdateState) : Pv :=
  match pv.update with
  | none => pv
  | some u => { pv.report u status with update := some { u with status := status } }

/-- `pv_update_remove` -/
def pvUpdateRemove (pv : Pv) : Pv := { pv with update := none }

/-- `pv_update_new`; `creds` says whether there is a device id. -/
def pvUpdateNew (creds : Bool) (rev : Rev) (isLocal : Bool) : PvUpdate where
  status := .updateInit
  rev := rev
  pending := none
  retries := 0
  retryTimer := 0
  runlevel := 0
  isLocal := !creds || isLocal

/-- `pv_update_is_transitioning` -/
def pvUpdateIsTransitioning (u : Option PvUpdate) : Bool :=
  u.any fun u => u.status = .updateTransition

/-- `pv_update_is_trying` -/
def pvUpdateIsTrying (u : Option PvUpdate) : Bool :=
  u.any fun u => u.status = .updateTransition || u.status = .updateTry

/-- `pv_update_is_testing` -/
def pvUpdateIsTesting (u : Option PvUpdate) : Bool :=
  u.any fun u => u.status = .updateTestingReboot || u.status = .updateTestingNonreboot

/-- `pv_update_test` -/
def pvUpdateTest (pv : Pv) : Pv :=
  match pv.update with
  | none => pv
  | some u =>
    match u.status with
    | .updateTry => pvUpdateSetStatus pv .updateTestingReboot
    | .updateTransition => pvUpdateSetStatus pv .updateTestingNonreboot
    | _ => pv

/-! ## Finishing -/

/-- The outcomes of the environment writes of `pv_update_finish`. -/
structure FinishIo (ι : Type) where
  setFailed : ι
  setCommited : CommitIo ι
  deriving DecidableEq, Repr

/-- `pv->state->rev`, where the state is known to be loaded. -/
def Pv.stateRev (pv : Pv) : Rev := pv.state.getD []

/-- `pv_update_finish`, over any backend. -/
def pvUpdateFinish {m : Type → Type} [Monad m] {ι σ : Type} (ops : BlOps m ι σ)
    (cfg : Config) (io : FinishIo ι) (pv : Pv) (s : σ) : m (Int × Pv × σ) :=
  match pv.update with
  | none => return (0, pv, s)
  | some u =>
    match u.status with
    | .updateFailed => do
      -- the result is not looked at
      let (_, bl, s) ← pvBootloaderSetFailed ops io.setFailed pv.bl s
      return (0, pvUpdateRemove (pvUpdateSetStatus { pv with bl := bl } .updateFailed), s)
    | .updateRetryDownload =>
      if u.retries > cfg.revisionRetries then
        return (0, pvUpdateRemove (pvUpdateSetStatus pv .updateNoDownload), s)
      else return (0, pv, s)
    | .updateNoDownload => return (0, pvUpdateRemove pv, s)
    | .updateTestingReboot => do
      let (ret, bl, s) ← pvBootloaderSetCommited ops io.setCommited pv.bl s pv.stateRev
      if ret ≠ 0 then return (-1, { pv with bl := bl }, s)
      return (0, pvUpdateRemove (pvUpdateSetStatus { pv with bl := bl } .updateDone), s)
    | .updateTestingNonreboot =>
      return (0, pvUpdateRemove (pvUpdateSetStatus pv .updateUpdated), s)
    | status => return (0, pvUpdateRemove (pvUpdateSetStatus pv status), s)

/-- `pv_update_finish` in the controller. -/
def finishUpdate (cfg : Config) (io : FinishIo Bool) (pv : Pv) : Int × Pv :=
  let (ret, pv', nv) := Id.run (pvUpdateFinish envOps cfg io pv pv.nv)
  (ret, { pv' with nv := nv })

/-! ## Resuming after a boot -/

/-- `pv_update_resume`, with the runlevel it returns. -/
def pvUpdateResume (creds : Bool) (pv : Pv) : Nat × Pv :=
  match pv.update with
  | some u => (u.runlevel, pv)
  | none =>
    if pv.bl.updateInProgress then
      let u := pvUpdateNew creds (pv.bl.pvTry.getD []) false
      if pv.bl.tryingUpdate then
        (0, pvUpdateSetStatus { pv with update := some u } .updateTry)
      else (0, pvUpdateSetStatus { pv with update := some u } .updateFailed)
    else (0, pv)

/-! ## Download and install -/

/-- The outcomes of the calls of `pv_update_download`. -/
structure DownloadIo where
  remoteInit : Bool
  nowCheck : Int
  nowStart : Int
  getMeta : Bool
  checkSize : Bool
  download : Bool
  deriving DecidableEq, Repr

/-- What `retries++` leaves: behind the greatest `int` comes the least one. -/
def nextRetry (retries : Int) : Int := (retries + 1).bmod 4294967296

/-- `pv_update_check_download_retry`: 0 to go on, 1 to wait, -1 to give up. -/
def pvUpdateCheckDownloadRetry (cfg : Config) (io : DownloadIo) (pv : Pv) (u : PvUpdate) :
    Int × Pv :=
  if u.retryTimer ≤ io.nowCheck then
    let u := { u with retries := nextRetry u.retries }
    if u.retries > cfg.revisionRetries then (-1, { pv with update := some u })
    else
      (0, { pv with update := some { u with retryTimer := io.nowStart + cfg.storageWait } })
  else (1, pv)

/-- `trail_download_objects`, with whether it succeeds. -/
def trailDownloadObjects (io : DownloadIo) (pv : Pv) : Bool × Pv :=
  if !io.getMeta then (false, pvUpdateSetStatus pv .updateRetryDownload)
  else if !io.checkSize then (false, pvUpdateSetStatus pv .updateNoDownload)
  else
    let pv := pvUpdateSetStatus pv .updateDownloadProgress
    if !io.download then (false, pvUpdateSetStatus pv .updateRetryDownload)
    else (true, pvUpdateSetStatus pv .updateDownloadProgress)

/-- `pv_update_download`, with whether it returns 0. -/
def pvUpdateDownload (cfg : Config) (io : DownloadIo) (pv : Pv) : Bool × Pv :=
  match pv.state, pv.update with
  | some _, some u =>
    if u.pending = none then (false, pv)
    else if u.isLocal then (true, pv)
    else if !io.remoteInit then (false, pv)
    else
      let (ret, pv) := pvUpdateCheckDownloadRetry cfg io pv u
      if ret ≠ 0 then (false, pv)
      else
        let (ok, pv) := trailDownloadObjects io pv
        if !ok then (false, pv) else (true, pvUpdateSetStatus pv .updateDownloaded)
  | _, _ => (false, pv)

/-- The outcomes of the calls of `pv_update_install`, and the runlevel that
`pv_state_compare_states` returns. -/
structure InstallIo where
  linkObjects : Bool
  openJson : Bool
  expandJsons : Bool
  setInstalled : Bool
  runlevel : Nat
  deriving DecidableEq, Repr

/-- `pv_update_install`, with whether it returns 0 or more. -/
def pvUpdateInstall (io : InstallIo) (pv : Pv) : Bool × Pv :=
  match pv.state, pv.update with
  | some _, some u =>
    match u.pending with
    | none => (false, pv)
    | some rev =>
      if !io.linkObjects then (false, pvUpdateSetStatus pv .updateFailed)
      else if !io.openJson || !io.expandJsons then (false, pv)
      else
        let (ret, bl, nv) :=
          Id.run (pvBootloaderSetInstalled envOps io.setInstalled pv.bl pv.nv rev)
        let pv := { pv with bl := bl, nv := nv }
        if ret ≠ 0 then (false, pv)
        else
          let pv := pvUpdateSetStatus pv .updateInstalled
          (true, { pv with update := pv.update.map fun u => { u with runlevel := io.runlevel } })
  | _, _ => (false, pv)

/-- `RUNLEVEL_ROOT` and `RUNLEVEL_PLATFORM` -/
def runlevelRoot : Nat := 1

def runlevelPlatform : Nat := 2

/-- `pv_update_requires_reboot` -/
def pvUpdateRequiresReboot (pv : Pv) : Bool × Pv :=
  match pv.update with
  | none => (false, pv)
  | some u =>
    if u.runlevel ≤ runlevelPlatform then
      (true, pvUpdateSetStatus { pv with update := some { u with runlevel := runlevelRoot } }
        .updateReboot)
    else (false, pvUpdateSetStatus pv .updateTransition)

/-! ## New updates -/

/-- Leading digits as a number, as far as `atoi` takes them. -/
def digitsValue : Int → CStr → Int
  | acc, [] => acc
  | acc, c :: rest =>
    if 48 ≤ c ∧ c ≤ 57 then digitsValue (acc * 10 + (c.toNat - 48 : Nat)) rest else acc

/-- `atoi` -/
def atoi (s : CStr) : Int :=
  match s.dropWhile fun c => c = 32 || (9 ≤ c && c ≤ 13) with
  | [] => 0
  | c :: rest =>
    if c = 45 then -digitsValue 0 rest
    else if c = 43 then digitsValue 0 rest
    else digitsValue 0 (c :: rest)

/-- What an endpoint of the trail answers: `rev` is `none` if the response has
none, and `parsed` whether the rest of it can be read. -/
structure StepResponse where
  rev : Option Rev
  parsed : Bool
  retries : Int
  creds : Bool
  signature : Bool
  state : Bool
  deriving DecidableEq, Repr

/-- The result of a request: an error, no steps, or some. -/
inductive StepsResult where
  | error
  | empty
  | found (res : StepResponse)
  deriving DecidableEq, Repr

/-- The answers of the four endpoints, in the order they are asked. -/
structure StepsIo where
  inprogress : StepsResult
  downloading : StepsResult
  queued : StepsResult
  new : StepsResult
  deriving DecidableEq, Repr

/-- The response that `trail_get_new_steps` goes on with and whether its
revision is a wrong one, or `none` if it stops at an error or finds nothing. -/
def trailFindSteps (io : StepsIo) (ongoing : Bool) : Option (StepResponse × Bool) :=
  let newUpdate := match io.new with
    | .found res => some (res, false)
    | _ => none
  if ongoing then newUpdate
  else
    match io.inprogress, io.downloading, io.queued with
    | .found res, _, _ => some (res, true)
    | .error, _, _ => none
    | .empty, .found res, _ => some (res, false)
    | .empty, .error, _ => none
    | .empty, .empty, .found res => some (res, false)
    | .empty, .empty, .error => none
    | .empty, .empty, .empty => newUpdate

/-- `trail_get_new_steps`, with whether it returns 1. -/
def trailGetNewSteps (cfg : Config) (io : StepsIo) (pv : Pv) : Bool × Pv :=
  match trailFindSteps io pv.update.isSome with
  | none => (false, pv)
  | some (res, wrong) =>
    match res.rev with
    | none => (false, pv)
    | some rev =>
      let u := pvUpdateNew res.creds rev false
      let stale := decide (atoi rev < atoi pv.stateRev)
      if !stale && !res.parsed then (false, pv.report u .updateNoParse)
      else if stale || wrong then (false, pv.report u .updateFailed)
      else if res.retries > cfg.revisionRetries then (false, pv.report u .updateNoDownload)
      else
        let u := { u with retries := res.retries, status := .updateQueued }
        let pv := pv.report u .updateQueued
        if !res.signature then (false, pv.report u .updateNoSignature)
        else if !res.state then (false, pv.report u .updateNoParse)
        else
          match pv.update with
          | none => (true, { pv with update := some { u with pending := some rev } })
          | some _ => (false, pv)

/-- The outcomes of the calls of `pv_updater_check_for_updates`. -/
structure UpdatesIo where
  remoteInit : Bool
  auth : Bool
  /-- the result of `trail_is_available` -/
  trail : Int
  steps : StepsIo
  deriving DecidableEq, Repr

/-- `pv_updater_check_for_updates`, with whether it returns more than 0. The
first boot of a trail returns no more than 0. -/
def pvUpdaterCheckForUpdates (cfg : Config) (io : UpdatesIo) (pv : Pv) : Bool × Pv :=
  if !io.remoteInit || !io.auth then (false, pv)
  else if pv.update.any fun u => u.status = .updateRetryDownload then (true, pv)
  else if io.trail > 0 then trailGetNewSteps cfg io.steps { pv with synced := true }
  else (false, pv)

/-- The outcomes of the calls of `pv_update_get_step_local`. -/
structure LocalStepIo where
  creds : Bool
  signature : Bool
  state : Bool
  deriving DecidableEq, Repr

/-- `pv_update_get_step_local`, with the update it returns. -/
def pvUpdateGetStepLocal (io : LocalStepIo) (rev : Rev) (pv : Pv) : Option PvUpdate × Pv :=
  let u := pvUpdateNew io.creds rev true
  if !io.signature then (none, pv.report u .updateNoSignature)
  else if !io.state then (none, pv.report u .updateNoParse)
  else (some { u with pending := some rev }, pv)

end Pantavisor.Controller
