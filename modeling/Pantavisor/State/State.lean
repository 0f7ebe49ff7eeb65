/-
Pantavisor.State.State — a device state and what a transition without reboot
does with it (`state.c`, and what it uses of `platforms.c`, `objects.c`,
`jsons.c` and `volumes.c`).

A `struct pv_state` holds its platforms by value, each with the address
`pv_platform_add` allocated for it, and the `plat` pointer of an item is such
an address or NULL. A platform that moves from one state to another keeps its
address, so "the one that was running" can be told from "one like it". A
dereference goes through the list of the state that the item is in; one of
NULL, or of an address that is not there, is a fault.
-/
import Pantavisor.Lib.CString

namespace Pantavisor.State

open Pantavisor.Lib

/-! ## Data -/

/-- `plat_status_t` -/
inductive PlatStatus where
  | none
  | installed
  | started
  | stopped
  deriving DecidableEq, Repr

/-- `RUNLEVEL_DATA`, `RUNLEVEL_ROOT`, `RUNLEVEL_PLATFORM`, `RUNLEVEL_APP` -/
def runlevelData : Int := 0
def runlevelRoot : Int := 1
def runlevelPlatform : Int := 2
def runlevelApp : Int := 3

/-- `MAX_RUNLEVEL` -/
def maxRunlevel : Int := 3

/-- Where a platform was allocated: by which parse, and as which of it. -/
structure Addr where
  alloc : Nat
  slot : Nat
  deriving DecidableEq, Repr

/-- `struct pv_platform` -/
structure Platform where
  addr : Addr
  name : CStr
  type : Option CStr
  /-- the one entry that `configs` gets -/
  config : Option CStr
  initPid : Int
  status : PlatStatus
  runlevel : Int
  mgmt : Bool
  updated : Bool
  deriving DecidableEq, Repr

/-- `struct pv_object` -/
structure PvObject where
  name : CStr
  id : CStr
  objpath : CStr
  relpath : CStr
  plat : Option Addr
  deriving DecidableEq, Repr

/-- `struct pv_json` -/
structure PvJson where
  name : CStr
  value : CStr
  plat : Option Addr
  deriving DecidableEq, Repr

/-- `pv_volume_t` -/
inductive VolumeType where
  | loopimg
  | permanent
  | revision
  | boot
  deriving DecidableEq, Repr

/-- `struct pv_volume` -/
structure PvVolume where
  name : CStr
  type : VolumeType
  plat : Option Addr
  deriving DecidableEq, Repr

/-- `struct pv_bsp`. `img` is a union: `kernel` is also `img.ut.fit`. -/
structure PvBsp where
  kernel : Option CStr
  fdt : Option CStr
  initrd : Option CStr
  firmware : Option CStr
  modules : Option CStr
  deriving DecidableEq, Repr

/-- `state_spec_t` -/
inductive StateSpec where
  | multi1
  | system1
  | unknown
  deriving DecidableEq, Repr

/-- `struct pv_state`. `alloc` numbers the parse that allocated it. -/
structure PvState where
  alloc : Nat
  rev : CStr
  spec : StateSpec
  bsp : PvBsp
  platforms : List Platform
  volumes : List PvVolume
  addons : List CStr
  objects : List PvObject
  jsons : List PvJson
  json : Option CStr
  deriving DecidableEq, Repr

/-- `pv_state_new` -/
def pvStateNew (alloc : Nat) (rev : CStr) (spec : StateSpec) : PvState where
  alloc := alloc
  rev := rev
  spec := spec
  bsp := ⟨none, none, none, none, none⟩
  platforms := []
  volumes := []
  addons := []
  objects := []
  jsons := []
  json := none

/-! ## The lists -/

/-- `pv_platform_get_by_name` -/
def PvState.platformGetByName (s : PvState) (name : CStr) : Option Platform :=
  s.platforms.find? fun p => p.name = name

/-- `*p` of a pointer to a platform of `s`. -/
def PvState.platformAt (s : PvState) (a : Addr) : Option Platform :=
  s.platforms.find? fun p => p.addr = a

/-- A write through a pointer to a platform of `s`. -/
def PvState.modifyPlatform (s : PvState) (a : Addr) (f : Platform → Platform) : PvState :=
  { s with platforms := s.platforms.map fun p => if p.addr = a then f p else p }

/-- What `pv_state_compare_states` reads of an object or of a json: its name,
its id or value, and its platform. -/
structure Item where
  name : CStr
  value : CStr
  plat : Option Addr
  deriving DecidableEq, Repr

def PvObject.item (o : PvObject) : Item := ⟨o.name, o.id, o.plat⟩

def PvJson.item (j : PvJson) : Item := ⟨j.name, j.value, j.plat⟩

/-- The objects of a state, as items. -/
def PvState.objectItems (s : PvState) : List Item := s.objects.map PvObject.item

/-- The jsons of a state, as items. -/
def PvState.jsonItems (s : PvState) : List Item := s.jsons.map PvJson.item

/-- `pv_objects_get_by_name`, `pv_jsons_get_by_name` -/
def getByName (items : List Item) (name : CStr) : Option Item :=
  items.find? fun o => o.name = name

/-! ## Comparing two states -/

/-- How a loop of `pv_state_compare_states` ends. -/
inductive Scan where
  /-- the loop is through: `current` with its flags, and the runlevel so far -/
  | next (current : PvState) (runlevel : Int)
  /-- `return 0` -/
  | reboot (current : PvState)
  /-- a dereference of NULL -/
  | fault
  deriving DecidableEq, Repr

/-- The next loop, when this one got through. -/
def Scan.andThen : Scan → (PvState → Int → Scan) → Scan
  | .next current runlevel, f => f current runlevel
  | .reboot current, _ => .reboot current
  | .fault, _ => .fault

/-- `p->updated = true` -/
def PvState.setUpdated (s : PvState) (a : Addr) : PvState :=
  s.modifyPlatform a fun p => { p with updated := true }

/-- The loop over the platforms of `current`: deleted ones, and ones with
another runlevel. -/
def comparePlatforms (pending : PvState) : List Platform → PvState → Int → Scan
  | [], current, runlevel => .next current runlevel
  | p :: ps, current, runlevel =>
    match pending.platformGetByName p.name with
    | some q =>
      if q.runlevel ≠ p.runlevel then .reboot current
      else comparePlatforms pending ps current runlevel
    | none => comparePlatforms pending ps (current.setUpdated p.addr) (min p.runlevel runlevel)

/-- The loop over the objects (or jsons) of `pending`: new and changed ones. It
is the platform in `current` of the old item that gets the flag, and the
platform in `pending` of the new one that gives the runlevel. -/
def compareChanged (pending : PvState) (currentItems : List Item) :
    List Item → PvState → Int → Scan
  | [], current, runlevel => .next current runlevel
  | o :: os, current, runlevel =>
    match getByName currentItems o.name with
    | none =>
      match o.plat with
      | none => .reboot current
      | some a =>
        match pending.platformAt a with
        | none => .fault
        | some q => compareChanged pending currentItems os current (min q.runlevel runlevel)
    | some c =>
      if o.value = c.value then compareChanged pending currentItems os current runlevel
      else
        match o.plat with
        | none => .reboot current
        | some a =>
          match c.plat, pending.platformAt a with
          | some b, some q =>
            compareChanged pending currentItems os (current.setUpdated b) (min q.runlevel runlevel)
          | _, _ => .fault

/-- The loop over the objects (or jsons) of `current`: deleted ones. -/
def compareDeleted (pendingItems : List Item) : List Item → PvState → Int → Scan
  | [], current, runlevel => .next current runlevel
  | o :: os, current, runlevel =>
    match getByName pendingItems o.name with
    | some _ => compareDeleted pendingItems os current runlevel
    | none =>
      match o.plat with
      | none => .reboot current
      | some a =>
        match current.platformAt a with
        | none => .fault
        | some p =>
          compareDeleted pendingItems os (current.setUpdated a) (min p.runlevel runlevel)

/-- The five loops. -/
def compareLoops (pending current : PvState) : Scan :=
  (comparePlatforms pending current.platforms current maxRunlevel).andThen fun s r =>
  (compareChanged pending current.objectItems pending.objectItems s r).andThen fun s r =>
  (compareDeleted pending.objectItems current.objectItems s r).andThen fun s r =>
  (compareChanged pending current.jsonItems pending.jsonItems s r).andThen fun s r =>
  compareDeleted pending.jsonItems current.jsonItems s r

/-- `pv_state_compare_states`: `current` with its `updated` flags, and the
runlevel; `none` for a fault. -/
def pvStateCompareStates (pending current : PvState) : Option (PvState × Int) :=
  match compareLoops pending current with
  | .next s runlevel => some (s, runlevel)
  | .reboot s => some (s, runlevelData)
  | .fault => none

/-- `pv_update_requires_reboot` -/
def pvUpdateRequiresReboot (runlevel : Int) : Bool := decide (runlevel ≤ runlevelPlatform)

/-! ## Stopping platforms -/

/-- What `pv_platforms_stop` does to one platform when its loop is at level `i`. -/
def stopPlatform (runlevel i : Int) (p : Platform) : Platform :=
  if p.runlevel ≠ i then p
  else if runlevel = runlevelApp ∧ p.runlevel = runlevelApp ∧ ¬ p.updated then p
  else if p.status = .started ∧ 0 < p.initPid then { p with status := .stopped }
  else p

/-- The levels `pv_platforms_stop` goes through, from `MAX_RUNLEVEL` down. -/
def stopLevels (runlevel : Int) : List Int := [3, 2, 1, 0].filter (runlevel ≤ ·)

/-- `pv_platforms_stop`, for a `runlevel` from `RUNLEVEL_DATA` on: the state it
leaves and the number of platforms it stopped. -/
def pvPlatformsStop (s : PvState) (runlevel : Int) : PvState × Nat :=
  let platforms := (stopLevels runlevel).foldl (fun ps i => ps.map (stopPlatform runlevel i))
    s.platforms
  ({ s with platforms := platforms },
    platforms.countP (·.status = .stopped) - s.platforms.countP (·.status = .stopped))

/-! ## Starting platforms -/

/-- `pv_platforms_start_platform`: what the container plugin gives for `p` is the
pid it started, if any. -/
def startPlatform (start : Platform → Option Int) (p : Platform) : Option Platform :=
  match start p with
  | none => none
  | some pid =>
    if 0 < pid then some { p with initPid := pid, status := .started } else none

/-- One level of the loop of `pv_platforms_start`. -/
def startLevel (start : Platform → Option Int) (i : Int) : List Platform → Option (List Platform)
  | [] => some []
  | p :: ps => do
    let p ← if p.runlevel ≠ i ∨ p.status = .started then some p else startPlatform start p
    let ps ← startLevel start i ps
    return p :: ps

/-- `pv_platforms_start`, with `none` for -1. Platforms with runlevel data are
skipped. -/
def pvPlatformsStart (start : Platform → Option Int) (s : PvState) (runlevel : Int) :
    Option PvState := do
  let platforms ← ([0, 1, 2, 3].filter (max runlevel 1 ≤ ·)).foldlM
    (fun ps i => startLevel start i ps) s.platforms
  return { s with platforms := platforms }

/-! ## Transferring a state -/

/-- Whether `pv_state_remove_platforms` keeps an item of `out`; `none` when its
platform is not there. -/
def keepsItem (out : PvState) : Option Addr → Option Bool
  | none => some true
  | some a => (out.platformAt a).map fun p => decide (p.status = .started)

/-- One removing pass over a list of `out`. -/
def removeItems {α : Type} (out : PvState) (plat : α → Option Addr) (items : List α) :
    Option (List α) :=
  items.filterM fun o => keepsItem out (plat o)

/-- `pv_state_remove_platforms` -/
def pvStateRemovePlatforms (out : PvState) : Option PvState := do
  let jsons ← removeItems out PvJson.plat out.jsons
  let objects ← removeItems out PvObject.plat out.objects
  let volumes ← removeItems out PvVolume.plat out.volumes
  return { out with
    jsons := jsons
    objects := objects
    volumes := volumes
    platforms := out.platforms.filter fun p => p.status = .started }

/-- Whether `pv_state_transfer_platforms` moves an item of `in` to `out`. -/
def movesItem (inp out : PvState) : Option Addr → Option Bool
  | none => some false
  | some a => (inp.platformAt a).map fun p => (out.platformGetByName p.name).isNone

/-- One moving pass over a list of `in`: what goes to `out`. -/
def moveItems {α : Type} (inp out : PvState) (plat : α → Option Addr) (items : List α) :
    Option (List α) :=
  items.filterM fun o => movesItem inp out (plat o)

/-- The last pass, over the platforms of `in`: a platform that was moved is in
`out` for the ones after it. -/
def movePlatforms : List Platform → PvState → PvState
  | [], out => out
  | p :: ps, out =>
    if (out.platformGetByName p.name).isSome then movePlatforms ps out
    else movePlatforms ps { out with platforms := out.platforms ++ [p] }

/-- `pv_state_transfer_platforms`: what `out` becomes. -/
def pvStateTransferPlatforms (inp out : PvState) : Option PvState := do
  let jsons ← moveItems inp out PvJson.plat inp.jsons
  let objects ← moveItems inp out PvObject.plat inp.objects
  let volumes ← moveItems inp out PvVolume.plat inp.volumes
  return movePlatforms inp.platforms { out with
    jsons := out.jsons ++ jsons
    objects := out.objects ++ objects
    volumes := out.volumes ++ volumes }

/-- `pv_state_transfer`: the running state after it; `none` for a fault. -/
def pvStateTransfer (inp out : PvState) : Option PvState := do
  let out ← pvStateRemovePlatforms out
  let out ← pvStateTransferPlatforms inp out
  return { out with rev := inp.rev }

end Pantavisor.State
