/-
Pantavisor.Platforms.Platforms — starting and stopping the platforms of a state
(`platforms.c`).

Both go through the platforms level by level. Starting writes down the pid that the
container plugin gives, and ends at the first platform that does not start. Stopping
has a lenient part, and sends SIGKILL where the number of processes that exited is
not the number of those it has told to.

`start` is what the plugin makes of a platform, and of which call it is. A platform
whose type no plugin is loaded for is a fault, in both directions, and so is one that
is started without a config or with paths that do not fit their buffers.
-/
import Pantavisor.Lib.Sweep
import Pantavisor.State.State

namespace Pantavisor.Platforms

open Pantavisor.Lib Pantavisor.State

/-! ## The levels -/

/-- `for (int i = runlevel; i <= MAX_RUNLEVEL; i++)` -/
def levelsUp (runlevel : Int) : List Int :=
  (List.range (maxRunlevel + 1 - runlevel).toNat).map fun k : Nat => runlevel + k

/-- `for (int i = MAX_RUNLEVEL; i >= runlevel; i--)` -/
def levelsDown (runlevel : Int) : List Int :=
  (List.range (maxRunlevel + 1 - runlevel).toNat).map fun k : Nat => maxRunlevel - k

/-! ## Starting -/

/-- `_pv_platforms_get_ctrl`: `lxc` is the one plugin. -/
def hasCtrl (type : Option CStr) : Bool := type = some (str "lxc")

/-- What `ctrl->start` gives: whether there is a container, and the pid it writes. -/
structure Container where
  data : Bool
  pid : Int
  deriving DecidableEq, Repr

/-- How a loop of `pv_platforms_start` or `pv_platforms_stop` ends. -/
inductive Ret where
  | ok
  | error
  /-- a dereference of NULL, or a store behind a buffer -/
  | fault
  deriving DecidableEq, Repr

/-- The calls of a plugin so far, and how the last one went. -/
structure Calls where
  made : List Platform
  ret : Ret
  deriving DecidableEq, Repr

/-- Where the configs of the platforms are, for the state that is started. -/
structure ConfDir where
  mntpoint : CStr
  rev : CStr
  spec : StateSpec
  deriving DecidableEq, Repr

/-- `prefix` -/
def ConfDir.prefixOf (d : ConfDir) (p : Platform) : CStr :=
  if d.spec = .system1 then p.name ++ str "/" else []

/-- `conf_path` -/
def ConfDir.confPath (d : ConfDir) (p : Platform) (config : CStr) : CStr :=
  d.mntpoint ++ str "/trails/" ++ d.rev ++ str "/" ++ d.prefixOf p ++ config

/-- A platform that `pv_platforms_start_platform` comes to call a plugin for. The
buffers have 32 bytes and `PATH_MAX`. -/
def startable (d : ConfDir) (p : Platform) : Bool :=
  match p.config with
  | none => false
  | some config =>
    decide ((d.prefixOf p).length < 32) && decide ((d.confPath p config).length < 4096) &&
      hasCtrl p.type

/-- `pv_platforms_start_platform` -/
def pvPlatformsStartPlatform (d : ConfDir) (start : Nat → Platform → Container) (w : Calls)
    (p : Platform) : Platform × Calls × Bool :=
  if !startable d p then (p, { w with ret := .fault }, false)
  else
    let c := start w.made.length p
    let made := w.made ++ [p]
    if !c.data then (p, ⟨made, .error⟩, false)
    else if 0 < c.pid then ({ p with initPid := c.pid, status := .started }, ⟨made, .ok⟩, true)
    else ({ p with initPid := c.pid }, ⟨made, .error⟩, false)

/-- The levels at which `pv_platforms_start` starts platforms: data is skipped. -/
def startLevels (runlevel : Int) : List Int := (levelsUp runlevel).filter (runlevelData < ·)

/-- What a loop leaves: the platforms, and the calls it made. -/
structure PlatformsRun where
  platforms : List Platform
  calls : List Platform
  ret : Ret
  deriving DecidableEq, Repr

/-- The loops of `pv_platforms_start`. -/
def pvPlatformsStart (d : ConfDir) (start : Nat → Platform → Container) (ps : List Platform)
    (runlevel : Int) : PlatformsRun :=
  let r := sweep (fun i p => !(decide (p.runlevel = i) && decide (p.status ≠ .started)))
    (pvPlatformsStartPlatform d start) (startLevels runlevel) ps ⟨[], .ok⟩
  ⟨r.1, r.2.1.made, r.2.1.ret⟩

/-! ## Stopping -/

/-- A platform that a call for `runlevel` goes past: not an app, or an updated one, if
it is for the apps. -/
def unlessKept (runlevel : Int) (p : Platform) : Bool :=
  !(decide (runlevel = runlevelApp) && decide (p.runlevel = runlevelApp) && !p.updated)

/-- A platform that is told to stop. -/
def stops (runlevel : Int) (p : Platform) : Bool :=
  unlessKept runlevel p && (decide (p.status = .started) && decide (0 < p.initPid))

/-- The call of `ctrl->stop`. -/
def stopContainer (w : Calls) (p : Platform) : Platform × Calls × Bool :=
  if hasCtrl p.type then ({ p with status := .stopped }, { w with made := w.made ++ [p] }, true)
  else (p, { w with ret := .fault }, false)

/-- The loops of `pv_platforms_stop` that tell the platforms to stop. -/
def stopContainers (ps : List Platform) (runlevel : Int) : PlatformsRun :=
  let r := sweep (fun i p => !(decide (p.runlevel = i) && stops runlevel p)) stopContainer
    (levelsDown runlevel) ps ⟨[], .ok⟩
  ⟨r.1, r.2.1.made, r.2.1.ret⟩

/-! ## Signals -/

/-- A platform with the `logger_pid` of each of its loggers, 0 until one is forked. -/
structure Plat where
  plat : Platform
  loggers : List Nat
  deriving DecidableEq, Repr

inductive Signal where
  | term
  | kill
  deriving DecidableEq, Repr

/-- The calls of `kill` so far: how many with signal 0, and the signals sent. -/
structure Kills where
  probes : Nat
  sent : List (Int × Signal)
  deriving DecidableEq, Repr

/-- `kill(pid, 0)`: process 0 is the group of the caller, which is there. -/
def probe (alive : Nat → Bool) (w : Kills) (pid : Int) : Bool := pid = 0 || alive w.probes

/-- A loop that counts the processes that are gone. -/
def countExited (alive : Nat → Bool) : List Int → Kills → Nat × Kills
  | [], w => (0, w)
  | pid :: pids, w =>
    let r := countExited alive pids { w with probes := w.probes + 1 }
    (if probe alive w pid then r.1 else r.1 + 1, r.2)

/-- The wait for `num` processes to be gone, for a number of rounds. -/
def waitExited (alive : Nat → Bool) (num : Nat) (pids : List Int) : Nat → Nat → Kills → Nat × Kills
  | 0, exited, w => (exited, w)
  | rounds + 1, _, w =>
    let r := countExited alive pids w
    if r.1 = num then r else waitExited alive num pids rounds r.1 r.2

/-- A loop that sends SIGKILL to the processes that are not gone. -/
def forceKill (alive : Nat → Bool) : List Int → Kills → Kills
  | [], w => w
  | pid :: pids, w =>
    let w' := { w with probes := w.probes + 1 }
    if probe alive w pid then
      forceKill alive pids { w' with sent := w'.sent ++ [(pid, .kill)] }
    else forceKill alive pids w'

/-- `pv_platform_stop_loggers` -/
def pvPlatformStopLoggers (alive : Nat → Bool) (w : Kills) (p : Plat) : Kills :=
  let pids := p.loggers.map fun pid : Nat => (pid : Int)
  let started := pids.filter (0 < ·)
  let w := { w with sent := w.sent ++ started.map fun pid => (pid, .term) }
  let r := waitExited alive started.length pids 5 0 w
  if r.1 = started.length then r.2 else forceKill alive pids r.2

/-- The pids that `pv_platforms_check_exited` and `pv_platforms_force_kill` look at. -/
def pidsInRange (ps : List Platform) (runlevel : Int) : List Int :=
  (byLevel (levelsDown runlevel) (·.runlevel) (ps.filter (unlessKept runlevel))).map (·.initPid)

/-- What `pv_platforms_stop` leaves and sends. -/
structure StopRun where
  platforms : List Platform
  calls : List Platform
  ret : Ret
  sent : List (Int × Signal)
  deriving DecidableEq, Repr

/-- `pv_platforms_stop` -/
def pvPlatformsStop (alive : Nat → Bool) (ps : List Plat) (runlevel : Int) : StopRun :=
  let w := ps.foldl (pvPlatformStopLoggers alive) ⟨0, []⟩
  let r := stopContainers (ps.map (·.plat)) runlevel
  if r.ret ≠ .ok then ⟨r.platforms, r.calls, r.ret, w.sent⟩
  else
    let pids := pidsInRange r.platforms runlevel
    let x := waitExited alive r.calls.length pids 5 0 w
    let w := if x.1 = r.calls.length then x.2 else forceKill alive pids x.2
    ⟨r.platforms, r.calls, .ok, w.sent⟩

end Pantavisor.Platforms
