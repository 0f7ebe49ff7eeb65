/-
Pantavisor.Storage.Device — the device with its storage.

The controller steps as in `deviceSystem`, and a step that works on the storage
does so on a file system: an update installs the pending revision, and a command
makes a revision the factory one. What these calls find decides what the
controller sees of them (`stepStorage`). All else that changes the storage is a
step of its own, with any result.
-/
import Pantavisor.Controller.Machine
import Pantavisor.Storage.Install

namespace Pantavisor.Storage

open Pantavisor.Lib Pantavisor.Json Pantavisor.State Pantavisor.Controller

/-- What a step gets from outside when it works on the storage: the contents of
the pending state, and the outcomes of the calls. -/
structure StorageIo where
  pending : PvState
  install : InstallCalls
  factory : FactoryIo
  deriving DecidableEq, Repr

/-- The revision that `pv_update_download` and `pv_update_install` work on. -/
def pendingRev (pv : Pv) : Option Rev :=
  match pv.state, pv.update with
  | some _, some u => u.pending
  | _, _ => none

/-- The directory that `pv_update_download` makes. -/
def downloadDir (fs : Fs) (rev : Rev) : Fs := fs.mkdirP (trailsPath rev (str ".pv"))

/-- A call of `pv_update_install`: the outcomes that the controller sees of it,
whether it returns 0, and the storage behind it. -/
structure InstallResult where
  io : StepIo
  ok : Bool
  fs : Fs

/-- `pv_update_install`, if `pv_update_download` gets to it, with its cleanup. -/
def pvUpdateInstallFs (jsmn : Jsmn) (cfg : Config) (io : StepIo) (sio : StorageIo) (pv : Pv)
    (fs : Fs) (rev : Rev) : Option InstallResult :=
  let (downloaded, pv) := pvUpdateDownload cfg io.update.download pv
  if !downloaded then none
  else
    match installFiles jsmn sio.install (downloadDir fs rev) { sio.pending with rev := rev } with
    | none => none
    | some files =>
      let install := { io.update.install with
        linkObjects := files.linkObjects
        openJson := files.openJson
        expandJsons := files.expandJsons }
      let (ok, _) := pvUpdateInstall install pv
      some
        { io := { io with update := { io.update with install := install } }
          ok := ok
          fs := if ok then files.fs else pvStorageRmRev files.fs rev }

/-- What a step of the controller does to the storage, and the outcomes that it
sees. -/
def stepStorage (jsmn : Jsmn) (cfg : Config) (io : StepIo) (sio : StorageIo) (pv : Pv) (fs : Fs) :
    StepIo × Fs :=
  match pv.next with
  | .update =>
    match pendingRev pv with
    | none => (io, fs)
    | some rev =>
      match pvUpdateInstallFs jsmn cfg io sio pv fs rev with
      | none => (io, downloadDir fs rev)
      | some r => (r.io, r.fs)
  | .command =>
    match pv.cmd with
    | some (.makeFactory rev) =>
      if pv.update.isSome || !pv.unclaimed then (io, fs)
      else
        let rev := if rev.length > 0 then rev else pv.stateRev
        let (ret, fs) := pvStorageUpdateFactory sio.factory fs rev
        ({ io with command := { io.command with updateFactory := decide (ret ≥ 0) } }, fs)
    | _ => (io, fs)
  | _ => (io, fs)

/-- A device with its storage. -/
structure StoredDevice where
  device : Device
  fs : Fs

/-- A step of the controller, or one that leaves any storage: a download, a
collection of garbage, a request on the control socket, or what a power loss
leaves of a step. -/
inductive StorageEvent where
  | device (e : Event) (sio : StorageIo)
  | storage (fs : Fs)

/-- What a step of the device does. -/
def StoredDevice.step (jsmn : Jsmn) (cfg : Config) (d : StoredDevice) :
    StorageEvent → StoredDevice
  | .storage fs => { d with fs := fs }
  | .device (.step io) sio =>
    match d.device.ram with
    | none => d
    | some pv =>
      let (io, fs) := stepStorage jsmn cfg io sio (pv.atStep d.device.flash.env) d.fs
      ⟨d.device.step cfg (.step io), fs⟩
  | .device e _ => { d with device := d.device.step cfg e }

/-- A run of the device, from any stored environment and any storage. -/
def storageSystem (jsmn : Jsmn) (cfg : Config) : System StoredDevice StorageEvent where
  init d := d.device.ram = none ∧ d.device.flash.tried = false
  step := StoredDevice.step jsmn cfg

end Pantavisor.Storage
