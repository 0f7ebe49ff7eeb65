/-
Pantavisor.Controller.Contents — the controller with the contents of the states
it runs.

`Pv` knows a state by its revision. Here the process also holds what is in
`pv->state` and in the pending state of its update, with the text that each was
built from. The texts, and what the checks find in them and on the disk, come
from outside; what they mean for the controller is computed (`stepContents`).

`accepted` lists the texts that `pv_signature_verify` accepted since the boot. A
call whose text leads to no state and no update is left out of it.
-/
import Pantavisor.Controller.Machine
import Pantavisor.State.State

namespace Pantavisor.Controller

open Pantavisor.Lib Pantavisor.Bootloader
open Pantavisor.State hiding runlevelRoot runlevelPlatform pvUpdateRequiresReboot

/-- A state JSON; `none` for the NULL of a file that is not there. -/
abbrev Text := Option CStr

/-- A parser of state JSONs, for a revision. The number is the one of the parse, by
which it allocates. -/
abbrev Parser := Nat → Text → Rev → Option PvState

/-- A state, with the text that it was built from. -/
structure Loaded where
  text : Text
  state : PvState
  deriving DecidableEq, Repr

/-- `pv_parser_get_state`. It is `pv_state_new` that sets the revision. -/
def pvParserGetState (parse : Parser) (alloc : Nat) (text : Text) (rev : Rev) : Option Loaded :=
  (parse alloc text rev).map fun s => ⟨text, { s with rev := rev }⟩

/-- What `pv->state` and the pending state hold, and the texts accepted since the
boot. -/
structure Contents where
  state : Option Loaded
  pending : Option Loaded
  accepted : List Text
  deriving DecidableEq, Repr

/-- A process that has loaded nothing. -/
def Contents.empty : Contents := ⟨none, none, []⟩

/-- What the checks of `pv_state_validate_checksum` find on the disk. -/
structure Checks where
  /-- `pv_storage_validate_trails_object_checksum` -/
  trailsObject : Rev → CStr → CStr → Bool
  /-- `pv_storage_validate_objects_object_checksum` -/
  objectsObject : CStr → Bool
  /-- `pv_storage_validate_trails_json_value` -/
  trailsJson : Rev → CStr → CStr → Bool

/-- What a step gets from outside of the contents it works on. -/
structure ContentIo where
  /-- the number of the parse, if there is one -/
  alloc : Nat
  /-- `pv_storage_get_state_json` -/
  stateJson : Rev → Text
  /-- the state in the answer of the trail -/
  trailState : CStr
  /-- `pv_signature_verify` -/
  signatureVerify : Text → Bool
  checks : Checks
  /-- the pid that the container plugin gives for a platform, if it starts -/
  start : Platform → Option Int

/-! ## Checking a state -/

/-- The loop over the objects of `pv_state_validate_checksum`. -/
def validateObjects (checks : Checks) (rev : Rev) : List PvObject → Bool
  | [] => true
  | o :: os =>
    if !checks.trailsObject rev o.name o.id then false
    else if !checks.objectsObject o.id then false
    else validateObjects checks rev os

/-- The loop over the jsons of `pv_state_validate_checksum`. -/
def validateJsons (checks : Checks) (rev : Rev) : List PvJson → Bool
  | [] => true
  | j :: js =>
    if !checks.trailsJson rev j.name j.value then false
    else validateJsons checks rev js

/-- `pv_state_validate_checksum` -/
def pvStateValidateChecksum (checks : Checks) (s : PvState) : Bool :=
  if !validateObjects checks s.rev s.objects then false
  else validateJsons checks s.rev s.jsons

/-! ## `_pv_run` -/

/-- A call of `_pv_run`, with the state that `pv->state` is at the call. -/
inductive RunCall where
  /-- `pv_signature_verify` -/
  | verify (text : Text) (ok : Bool)
  /-- `pv_state_validate_checksum` -/
  | validate (l : Loaded) (ok : Bool)
  /-- `pv_volumes_mount` -/
  | mount (l : Loaded)
  /-- `pv_platforms_start` -/
  | start (l : Loaded)
  deriving DecidableEq, Repr

/-- What a step does to the contents, with the outcomes that the controller sees
and the calls it makes in `_pv_run`. -/
structure StepResult where
  io : StepIo
  contents : Contents
  calls : List RunCall

/-- `_pv_run` from the loaded state on. A start that fails leaves the state as it
was: nothing is run after it in this boot. -/
def pvRunLoaded (cio : ContentIo) (io : StepIo) (runlevel : Nat) (c : Contents) (l : Loaded)
    (calls : List RunCall) : StepResult :=
  let ok := pvStateValidateChecksum cio.checks l.state
  let c := { c with state := some l }
  let io := { io with run := { io.run with checksum := ok } }
  let calls := calls ++ [.validate l ok]
  if !ok then ⟨io, c, calls⟩
  else if !io.run.mount || !io.run.makeConfig then ⟨io, c, calls ++ [.mount l]⟩
  else
    let started := pvPlatformsStart cio.start l.state runlevel
    { io := { io with run := { io.run with start := started.isSome } }
      contents := { c with state := some { l with state := started.getD l.state } }
      calls := calls ++ [.mount l, .start l] }

/-- `_pv_run` on the contents; `none` for a fault. -/
def pvRunContents (parse : Parser) (cio : ContentIo) (io : StepIo) (pv : Pv) (c : Contents) :
    Option StepResult :=
  let (runlevel, pv) := pvUpdateResume io.run.creds pv
  if pvUpdateIsTransitioning pv.update then
    match c.pending, c.state with
    | some p, some s =>
      match pvStateTransfer p.state s.state with
      | none => none
      | some t => some (pvRunLoaded cio io runlevel c ⟨p.text, t⟩ [])
    | _, _ => none
  else
    let text := cio.stateJson pv.bl.pvRev
    let ok := cio.signatureVerify text
    let io := { io with run := { io.run with signature := ok } }
    let calls := [RunCall.verify text ok]
    if !ok then some ⟨io, c, calls⟩
    else
      let loaded := pvParserGetState parse cio.alloc text pv.bl.pvRev
      let c : Contents :=
        { state := loaded
          pending := if pv.update.isSome then loaded else none
          accepted := text :: c.accepted }
      let io := { io with run := { io.run with parse := loaded.isSome } }
      match loaded with
      | none => some ⟨io, c, calls⟩
      | some l => some (pvRunLoaded cio io runlevel c l calls)

/-! ## The other entries -/

/-- What the trail answers, as far as it depends on the state in the answer. -/
def StepsResult.withState (parse : Parser) (cio : ContentIo) : StepsResult → StepsResult
  | .found res =>
    .found { res with
      signature := cio.signatureVerify (some cio.trailState)
      state := res.rev.any fun rev =>
        (pvParserGetState parse cio.alloc (some cio.trailState) rev).isSome }
  | res => res

/-- The answers of the four endpoints. -/
def StepsIo.withState (parse : Parser) (cio : ContentIo) (io : StepsIo) : StepsIo where
  inprogress := io.inprogress.withState parse cio
  downloading := io.downloading.withState parse cio
  queued := io.queued.withState parse cio
  new := io.new.withState parse cio

/-- The outcomes of `pv_update_get_step_local` for a revision. -/
def LocalStepIo.withState (parse : Parser) (cio : ContentIo) (rev : Rev) (io : LocalStepIo) :
    LocalStepIo :=
  { io with
    signature := cio.signatureVerify (cio.stateJson rev)
    state := (pvParserGetState parse cio.alloc (cio.stateJson rev) rev).isSome }

/-- The revision that a command runs. -/
def PvCmd.runs : PvCmd → Option Rev
  | .localRun rev => some rev
  | .makeFactory _ => some (str "0")
  | _ => none

/-- The contents follow the update of the controller: the pending state goes with
its update, and a new one is built from `text`. -/
def Contents.follow (parse : Parser) (cio : ContentIo) (text : Rev → Text) (c : Contents) :
    Option PvUpdate → Option PvUpdate → Contents
  | _, none => { c with pending := none }
  | some _, some _ => c
  | none, some u =>
    match u.pending with
    | none => { c with pending := none }
    | some rev =>
      { c with
        pending := pvParserGetState parse cio.alloc (text rev) rev
        accepted := if cio.signatureVerify (text rev) then text rev :: c.accepted
          else c.accepted }

/-- `_pv_update` on the contents: a comparison once the update is installed, and a
stop if it runs without reboot. -/
def pvUpdateContents (cfg : Config) (io : StepIo) (pv : Pv) (c : Contents) :
    Option (StepIo × Contents) :=
  if !(pvUpdateTransfer cfg io.update pv).1 then some (io, c)
  else
    match c.state, c.pending with
    | some s, some p =>
      match pvStateCompareStates p.state s.state with
      | none => none
      | some (compared, runlevel) =>
        let install := { io.update.install with runlevel := runlevel.toNat }
        let state :=
          if State.pvUpdateRequiresReboot runlevel then compared
          else (pvPlatformsStop compared runlevel).1
        some ({ io with update := { io.update with install := install } },
          { c with state := some { s with state := state } })
    | _, _ => none

/-- What a step of the process does to the contents; `none` for a fault. -/
def stepContents (parse : Parser) (cfg : Config) (io : StepIo) (cio : ContentIo) (pv : Pv)
    (c : Contents) : Option StepResult :=
  match pv.next with
  | .run => pvRunContents parse cio io pv c
  | .wait =>
    let steps := io.wait.network.updates.steps.withState parse cio
    let updates := { io.wait.network.updates with steps := steps }
    let io := { io with wait := { io.wait with
      network := { io.wait.network with updates := updates } } }
    let text := fun _ => some cio.trailState
    some ⟨io, c.follow parse cio text pv.update (pvWait cfg io.wait pv).update, []⟩
  | .command =>
    let rev := (pv.cmd.bind PvCmd.runs).getD []
    let io := { io with command := { io.command with
      localStep := io.command.localStep.withState parse cio rev } }
    some ⟨io, c.follow parse cio cio.stateJson pv.update (pvCommand io.command pv).update, []⟩
  | .update =>
    match pvUpdateContents cfg io pv c with
    | none => none
    | some (io, c) =>
      some ⟨io, c.follow parse cio cio.stateJson pv.update (pvUpdate cfg io.update pv).update, []⟩
  | _ => some ⟨io, c, []⟩

/-! ## The device -/

/-- A device, with the contents that its process has loaded. -/
structure LoadedDevice where
  device : Device
  contents : Contents

/-- A step of the device, with what it finds of the contents. -/
structure LoadedEvent where
  event : Event
  cio : ContentIo

/-- The outcomes of the calls of a step of the process. -/
def Event.stepIo : Event → Option StepIo
  | .boot _ => none
  | .step io | .powerLoss io _ => some io

/-- What a step of the process does if it keeps power; `none` where it faults or
there is none. -/
def LoadedDevice.result (parse : Parser) (cfg : Config) (d : LoadedDevice) (e : LoadedEvent) :
    Option StepResult :=
  match e.event.stepIo, d.device.ram with
  | some io, some pv => stepContents parse cfg io e.cio (pv.atStep d.device.flash.env) d.contents
  | _, _ => none

/-- The calls of `_pv_run` in a step. One that loses power makes the first few of
them. -/
def LoadedDevice.calls (parse : Parser) (cfg : Config) (d : LoadedDevice) (e : LoadedEvent) :
    List RunCall :=
  match d.result parse cfg e with
  | none => []
  | some r => r.calls

/-- What the controller of the device steps by: with the outcomes that the contents
give, and down after its writes if it faults. -/
def LoadedDevice.event (parse : Parser) (cfg : Config) (d : LoadedDevice) (e : LoadedEvent) :
    Event :=
  match e.event, d.result parse cfg e with
  | .step _, some r => .step r.io
  | .powerLoss _ writes, some r => .powerLoss r.io writes
  | .step io, none =>
    match d.device.ram with
    | none => .step io
    | some pv => .powerLoss io (d.device.process cfg io pv).nv.writes.length
  | event, _ => event

/-- What a step of the device does. -/
def LoadedDevice.step (parse : Parser) (cfg : Config) (d : LoadedDevice) (e : LoadedEvent) :
    LoadedDevice where
  device := d.device.step cfg (d.event parse cfg e)
  contents :=
    match e.event, d.result parse cfg e with
    | .step _, some r => r.contents
    | .boot _, _ => if d.device.ram.isSome then d.contents else Contents.empty
    | _, _ => Contents.empty

/-- Every run of the device, from any stored environment. -/
def loadedSystem (parse : Parser) (cfg : Config) : System LoadedDevice LoadedEvent where
  init d := (deviceSystem cfg).init d.device ∧ d.contents = Contents.empty
  step := LoadedDevice.step parse cfg

end Pantavisor.Controller
