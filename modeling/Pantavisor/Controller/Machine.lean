/-
Pantavisor.Controller.Machine — the state machine of the controller
(`pantavisor.c`) and the device it runs on.

`pvRunState` is `_pv_run_state`: the entry of `state_table` for the state the
controller is in. A `StepIo` has the outcome of every call that any entry
makes, and each entry reads its own part.

A `Device` is the stored boot environment, with what the boot loader knows of
the revision it tries, and the running process, if the device is on. A step
writes the environment at certain points, and a power loss may come after any
number of these writes.
-/
import Pantavisor.Controller.Update
import Pantavisor.Lib.Run

namespace Pantavisor.Controller

open Pantavisor.Lib Pantavisor.Bootloader

/-! ## The entries of the state table -/

/-- The outcomes of the calls of `_pv_run`. -/
structure RunIo where
  creds : Bool
  signature : Bool
  parse : Bool
  checksum : Bool
  mount : Bool
  makeConfig : Bool
  start : Bool
  nowDelay : Int
  nowCommit : Int
  nowRollback : Int
  deriving DecidableEq, Repr

/-- `/` -/
def slash : UInt8 := 47

/-- `pv_storage_is_revision_local` -/
def isRevisionLocal (rev : Rev) : Bool :=
  (str "locals/").isPrefixOf rev && rev.count slash = 1

/-- The loading of the state in `_pv_run`. -/
def pvRunLoad (io : RunIo) (pv : Pv) : Pv :=
  if pvUpdateIsTransitioning pv.update then
    -- `pv_state_transfer`
    { pv with state := pv.update.bind (·.pending) }
  else if !io.signature then pv
  else
    let state := if io.parse then some pv.bl.pvRev else none
    { pv with state := state, update := pv.update.map fun u => { u with pending := state } }

/-- `_pv_run` -/
def pvRun (cfg : Config) (io : RunIo) (pv : Pv) : Pv :=
  let pv := (pvUpdateResume io.creds pv).2
  let verified := pvUpdateIsTransitioning pv.update || io.signature
  let pv := pvRunLoad io pv
  match pv.state with
  | none => { pv with next := .rollback }
  | some rev =>
    if !verified || !io.checksum then { pv with next := .rollback }
    else
      let pv := { pv with remoteMode := cfg.controlRemote && !isRevisionLocal rev }
      if !io.mount || !io.makeConfig || !io.start then { pv with next := .rollback }
      else
        { pv with
            timerWaitDelay := io.nowDelay
            timerCommit := io.nowCommit
            rollbackTimer := io.nowRollback + cfg.networkTimeout
            next := .wait }

/-- The outcomes of the calls of `pv_wait_update`. -/
structure WaitUpdateIo where
  nowStart : Int
  nowCheck : Int
  finish : FinishIo Bool
  deriving DecidableEq, Repr

/-- The first part of `pv_wait_update`: an update that is tried is now tested. -/
def pvWaitTest (cfg : Config) (io : WaitUpdateIo) (pv : Pv) : Pv :=
  if pvUpdateIsTrying pv.update then
    pvUpdateTest { pv with timerCommit := io.nowStart + cfg.commitDelay }
  else pv

/-- `pv_wait_update` -/
def pvWaitUpdate (cfg : Config) (io : WaitUpdateIo) (pv : Pv) : PvStateT × Pv :=
  if pv.update = none then (.wait, pv)
  else
    let pv := pvWaitTest cfg io pv
    if pvUpdateIsTesting pv.update && decide (io.nowCheck < pv.timerCommit) then (.wait, pv)
    else
      let (ret, pv) := finishUpdate cfg io.finish pv
      if ret < 0 then (.rollback, pv) else (.wait, pv)

/-- The outcomes of the calls of `pv_wait_network`. -/
structure NetworkIo where
  phAuth : Bool
  trailAuth : Bool
  nowRollback : Int
  factoryMetaDone : Bool
  metaUpdate : Bool
  updates : UpdatesIo
  deriving DecidableEq, Repr

/-- `pv_wait_network` -/
def pvWaitNetwork (cfg : Config) (io : NetworkIo) (wio : WaitUpdateIo) (pv : Pv) :
    PvStateT × Pv :=
  if !io.phAuth || !io.trailAuth then
    if pvUpdateIsTrying pv.update then
      if pv.rollbackTimer ≤ io.nowRollback then (.rollback, pv) else (.wait, pv)
    else if pvUpdateIsTesting pv.update then (.rollback, pv)
    else (.wait, pv)
  else if !io.factoryMetaDone then (.factoryUpload, pv)
  else if !io.metaUpdate then pvWaitUpdate cfg wio pv
  else
    let (found, pv) := pvUpdaterCheckForUpdates cfg io.updates pv
    if found then (.update, pv) else pvWaitUpdate cfg wio pv

/-- The outcomes of the calls of `pv_wait_unclaimed`. -/
structure UnclaimedIo where
  needRegister : Bool
  register : Bool
  owned : Bool
  deriving DecidableEq, Repr

/-- `pv_wait_unclaimed` -/
def pvWaitUnclaimed (io : UnclaimedIo) (pv : Pv) : PvStateT × Pv :=
  if io.needRegister && !io.register then (.wait, pv)
  else (.factoryUpload, if io.owned then { pv with unclaimed := false } else pv)

/-- The outcomes of the calls of `_pv_wait`. -/
structure WaitIo where
  exited : Bool
  nowDelay : Int
  nowRestart : Int
  unclaimed : UnclaimedIo
  network : NetworkIo
  waitUpdate : WaitUpdateIo
  cmd : Option PvCmd
  deriving DecidableEq, Repr

/-- Whether `_pv_wait` goes into network operations. -/
def Pv.networkMode (pv : Pv) : Bool :=
  pv.remoteMode && (!pv.unclaimed || pv.update.isNone)

/-- The update part of `_pv_wait`, between the check for exited platforms and
the wait for a command. -/
def pvWaitOps (cfg : Config) (io : WaitIo) (pv : Pv) : PvStateT × Pv :=
  if pv.networkMode then
    -- `pv_wait_delay_timedout`
    if pv.timerWaitDelay ≤ io.nowDelay then
      let pv := { pv with timerWaitDelay := io.nowRestart + cfg.updaterInterval }
      if pv.unclaimed then pvWaitUnclaimed io.unclaimed pv
      else pvWaitNetwork cfg io.network io.waitUpdate pv
    else (.wait, pv)
  else pvWaitUpdate cfg io.waitUpdate pv

/-- `_pv_wait` -/
def pvWait (cfg : Config) (io : WaitIo) (pv : Pv) : Pv :=
  if io.exited then
    if pvUpdateIsTrying pv.update || pvUpdateIsTesting pv.update then
      { pv with next := .rollback }
    else { pv with next := .reboot }
  else
    let (next, pv) := pvWaitOps cfg io pv
    if next ≠ .wait then { pv with next := next }
    else { pv with cmd := io.cmd, next := if io.cmd.isSome then .command else .wait }

/-- The outcomes of the calls of `_pv_command`. -/
structure CommandIo where
  localStep : LocalStepIo
  updateFactory : Bool
  deriving DecidableEq, Repr

/-- The start of a local update by a command. -/
def pvCommandUpdate (io : LocalStepIo) (rev : Rev) (pv : Pv) : Pv :=
  let (u, pv) := pvUpdateGetStepLocal io rev pv
  { pv with update := u, next := if u.isSome then .update else .wait }

/-- The branches of `_pv_command`, with WAIT as the next state unless one says
otherwise. -/
def pvCommandOp (io : CommandIo) (pv : Pv) : PvCmd → Pv
  | .rebootDevice => if pv.update.isSome then pv else { pv with next := .reboot }
  | .poweroffDevice => if pv.update.isSome then pv else { pv with next := .poweroff }
  | .localRun rev => if pv.update.isSome then pv else pvCommandUpdate io.localStep rev pv
  | .makeFactory _ =>
    -- the payload only says which revision is copied to revision 0
    if pv.update.isSome || !pv.unclaimed || !io.updateFactory then pv
    else pvCommandUpdate io.localStep (str "0") pv
  | .updateMetadata | .tryOnce | .runGc | .unknown => pv

/-- `_pv_command` -/
def pvCommand (io : CommandIo) (pv : Pv) : Pv :=
  let pv := { pv with next := .wait }
  match pv.cmd with
  | none => pv
  | some cmd => { pvCommandOp io pv cmd with cmd := none }

/-- The outcomes of the calls of `_pv_update`. -/
structure UpdateIo where
  download : DownloadIo
  install : InstallIo
  finish : FinishIo Bool
  stop : Bool
  deriving DecidableEq, Repr

/-- `pv_update_download(pv) || pv_update_install(pv)`, with whether both succeed. -/
def pvUpdateTransfer (cfg : Config) (io : UpdateIo) (pv : Pv) : Bool × Pv :=
  let (ok, pv) := pvUpdateDownload cfg io.download pv
  if !ok then (false, pv) else pvUpdateInstall io.install pv

/-- `_pv_update` -/
def pvUpdate (cfg : Config) (io : UpdateIo) (pv : Pv) : Pv :=
  let (ok, pv) := pvUpdateTransfer cfg io pv
  if !ok then { (finishUpdate cfg io.finish pv).2 with next := .wait }
  else
    let (reboot, pv) := pvUpdateRequiresReboot pv
    if reboot then { pv with next := .reboot }
    else if !io.stop then { pv with next := .rollback }
    else { pv with next := .run }

/-- `_pv_rollback` -/
def pvRollback (pv : Pv) : Pv :=
  if pv.state = some (str "0") then { pv with next := .error }
  else { pvUpdateSetStatus pv .updateFailed with next := .reboot }

/-- The outcome of every call that one step may make. -/
structure StepIo where
  init : Bool
  run : RunIo
  wait : WaitIo
  command : CommandIo
  update : UpdateIo
  factoryMeta : Bool
  deriving DecidableEq, Repr

/-- A step with no news, whose calls all succeed, with the clock at 0. -/
def StepIo.ok : StepIo where
  init := true
  run := { creds := true, signature := true, parse := true, checksum := true, mount := true,
           makeConfig := true, start := true, nowDelay := 0, nowCommit := 0, nowRollback := 0 }
  wait :=
    { exited := false, nowDelay := 0, nowRestart := 0, cmd := none
      unclaimed := { needRegister := false, register := true, owned := true }
      network :=
        { phAuth := true, trailAuth := true, nowRollback := 0, factoryMetaDone := true,
          metaUpdate := true
          updates := { remoteInit := true, auth := true, trail := 1,
                       steps := ⟨.empty, .empty, .empty, .empty⟩ } }
      waitUpdate := { nowStart := 0, nowCheck := 0, finish := ⟨true, ⟨true, true, true⟩⟩ } }
  command := { localStep := ⟨true, true, true⟩, updateFactory := true }
  update :=
    { download := { remoteInit := true, nowCheck := 0, nowStart := 0, getMeta := true,
                    checkSize := true, download := true }
      install := { linkObjects := true, openJson := true, expandJsons := true,
                   setInstalled := true, runlevel := 3 }
      finish := ⟨true, ⟨true, true, true⟩⟩
      stop := true }
  factoryMeta := true

/-- A step whose calls succeed, with a command to run a local revision. -/
def StepIo.localRun (rev : Rev) : StepIo :=
  { StepIo.ok with wait := { StepIo.ok.wait with cmd := some (.localRun rev) } }

/-- A configuration without remote control and without delays. -/
def Config.unattended : Config where
  controlRemote := false
  updaterInterval := 0
  commitDelay := 0
  networkTimeout := 0
  storageWait := 0
  revisionRetries := 0

/-- `_pv_run_state`, the step of the loop in `pv_start`. The shutdown of REBOOT
and POWEROFF does not return, and EXIT ends the process. -/
def pvRunState (cfg : Config) (io : StepIo) (pv : Pv) : Pv :=
  match pv.next with
  | .init => { pv with next := if io.init then .run else .exit }
  | .run => pvRun cfg io.run pv
  | .wait => pvWait cfg io.wait pv
  | .command => pvCommand io.command pv
  | .update => pvUpdate cfg io.update pv
  | .rollback => pvRollback pv
  | .reboot | .poweroff | .exit => { pv with next := .exit }
  | .error => { pv with next := .reboot }
  | .factoryUpload => { pv with next := if io.factoryMeta then .wait else .factoryUpload }

/-! ## The device -/

/-- The stored environment, and whether the boot loader has tried the `pv_try`
in it. -/
structure Flash where
  env : List (CStr × CStr)
  tried : Bool
  deriving DecidableEq, Repr

/-- A write: a new `pv_try` is one not yet tried. -/
def Flash.write (f : Flash) (op : KeyOp CStr CStr) : Flash where
  env := op.apply f.env
  tried := if op.key = str "pv_try" then false else f.tried

/-- The stored `pv_rev`, and revision 0 when none is stored. -/
def Flash.rev (f : Flash) : Rev := (denote f.env (str "pv_rev")).getD (str "0")

/-- The stored `pv_try`; an empty value counts as none, as in
`pv_bootloader_update_in_progress`. -/
def Flash.tryRev (f : Flash) : Option Rev :=
  (denote f.env (str "pv_try")).filter (· ≠ [])

/-- The revision that the boot loader boots. -/
def Flash.bootRev (f : Flash) : Rev :=
  if f.tried then f.rev else f.tryRev.getD f.rev

/-- A device: its stored environment, and the process if it is on. -/
structure Device where
  flash : Flash
  ram : Option Pv
  deriving DecidableEq, Repr

/-- The command line of a boot. -/
def Cmdline.tokens (c : Cmdline) : List CStr :=
  (str "pv_rev=" ++ c.rev) :: (c.tryRev.map fun t => str "pv_try=" ++ t).toList

/-- The process at the start of a boot. -/
def bootPv (cmdline : Cmdline) (unclaimed : Bool) (env : List (CStr × CStr)) : Pv where
  cmdline := cmdline
  bl := pvBlEarlyInit envOps true ⟨env, []⟩ cmdline.tokens
  nv := ⟨env, []⟩
  reports := []
  next := .init
  state := none
  update := none
  cmd := none
  remoteMode := false
  unclaimed := unclaimed
  synced := false
  timerWaitDelay := 0
  timerCommit := 0
  rollbackTimer := 0

/-- A step of the device: a boot when it is off, a step of the process, or a
step that loses power after `writes` of the writes it makes. -/
inductive Event where
  | boot (unclaimed : Bool)
  | step (io : StepIo)
  | powerLoss (io : StepIo) (writes : Nat)
  deriving DecidableEq, Repr

/-- The process as a step finds it: nothing written and nothing reported yet. -/
def Pv.atStep (pv : Pv) (env : List (CStr × CStr)) : Pv :=
  { pv with nv := ⟨env, []⟩, reports := [] }

/-- What a step of the process leaves, before it is stored. -/
def Device.process (cfg : Config) (d : Device) (io : StepIo) (pv : Pv) : Pv :=
  pvRunState cfg io (pv.atStep d.flash.env)

/-- The boot loader boots the revision to try once, and else the stored one. -/
def Device.bootStep (d : Device) (unclaimed : Bool) : Device where
  flash := { d.flash with tried := d.flash.tried || d.flash.tryRev.isSome }
  ram := some (bootPv ⟨d.flash.bootRev, d.flash.tryRev⟩ unclaimed d.flash.env)

/-- What a step of the device does. -/
def Device.step (cfg : Config) (d : Device) : Event → Device
  | .boot unclaimed =>
    match d.ram with
    | some _ => d
    | none => d.bootStep unclaimed
  | .step io =>
    match d.ram with
    | none => d
    | some pv =>
      let pv' := d.process cfg io pv
      { flash := pv'.nv.writes.foldl Flash.write d.flash
        ram := if pv'.next = .exit then none else some pv' }
  | .powerLoss io writes =>
    match d.ram with
    | none => d
    | some pv =>
      { flash := ((d.process cfg io pv).nv.writes.take writes).foldl Flash.write d.flash
        ram := none }

/-- Every run of the device, from any stored environment. -/
def deviceSystem (cfg : Config) : System Device Event where
  init d := d.ram = none ∧ d.flash.tried = false
  step := Device.step cfg

end Pantavisor.Controller
