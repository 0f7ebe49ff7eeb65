/-
Pantavisor.Parser.System1 — the parser of `pantavisor-service-system@1` states
(`parser_system1.c`), with what it uses of `state.c`, `platforms.c`, `objects.c`
and `jsons.c`.

A state is an object of named files. `bsp/run.json` is the boot manifest, a key
that ends in `/run.json` defines a platform, and every other key is a JSON file or
an object. What belongs to a platform is found by the first directory of its name
when all is read. The loggers of a platform are left out.

A result is `none` for a fault, `some none` for a text that is rejected, and
otherwise the state.
-/
import Pantavisor.Json.Actions
import Pantavisor.State.State

namespace Pantavisor.Parser

open Pantavisor.Lib Pantavisor.Json Pantavisor.State

/-! ## The boot manifest -/

/-- The tokens of a text that is parsed without looking at the result. -/
def tokensOf (jsmn : Jsmn) (buf : CStr) : List Tok := (jsmn.parse buf).getD []

/-- A volume of the boot manifest. -/
def bspVolume (name : Option CStr) : List PvVolume :=
  (name.map fun name => ⟨name, .loopimg, none⟩).toList

/-- The loop for the addons: the elements of the first key that starts so. -/
def bspAddons (buf : CStr) (toks : List Tok) (keys : List Nat) : List CStr :=
  match doLookupJsonKey buf toks keys (str "addons") with
  | none => []
  | some k =>
    match toks[k + 1]? with
    | none => []
    | some value => pvJsonArrayStrs buf toks (k + 1) value.size

/-- `parse_bsp`, with `none` where it returns 0. A `fit` image is in the place of
`linux`. -/
def parseBsp (jsmn : Jsmn) (s : PvState) (buf : CStr) : Option PvState :=
  let toks := tokensOf jsmn buf
  let fit := pvJsonGetValue buf (str "fit") toks
  let std (key : CStr) := if fit.isSome then none else pvJsonGetValue buf key toks
  let bsp : PvBsp :=
    { kernel := if fit.isSome then fit else std (str "linux")
      fdt := std (str "fdt")
      initrd := std (str "initrd")
      firmware := pvJsonGetValue buf (str "firmware") toks
      modules := pvJsonGetValue buf (str "modules") toks }
  -- `img.ut.fit` is `img.std.kernel`, so that a kernel without initrd passes
  if (bsp.kernel.isNone || bsp.initrd.isNone) && bsp.kernel.isNone then none
  else
    match jsmn.objectKeys buf toks 0 with
    | none => none
    | some keys =>
      some { s with
        bsp := bsp
        volumes := s.volumes ++ bspVolume bsp.firmware ++ bspVolume bsp.modules
        addons := s.addons ++ bspAddons buf toks keys }

/-! ## Platforms -/

/-- `pv_platform_add`, with the platform it adds. -/
def pvPlatformAdd (s : PvState) (name : CStr) : Addr × PvState :=
  let addr := ⟨s.alloc, s.platforms.length⟩
  (addr, { s with platforms := s.platforms ++ [
    { addr := addr
      name := name
      type := none
      config := none
      initPid := 0
      status := .none
      runlevel := -1
      mgmt := true
      updated := false }] })

/-- What the actions of `parse_platform` work on. `this` is `none` until it is
set, and a read of it is a fault. -/
structure PlatformBundle where
  s : PvState
  this : Option Addr
  config : Option CStr
  shares : Option CStr

/-- A write to the platform, which has to be there. -/
def PlatformBundle.modify (b : PlatformBundle) (f : Platform → Platform) :
    Option (Int × PlatformBundle) :=
  b.this.map fun a => (0, { b with s := b.s.modifyPlatform a f })

/-- `do_action_for_name` -/
def doActionForName (value : CStr) (b : PlatformBundle) : Option (Int × PlatformBundle) :=
  let (addr, s) := pvPlatformAdd b.s value
  some (0, { b with s := s, this := some addr })

/-- `do_action_for_type` -/
def doActionForType (value : CStr) (b : PlatformBundle) : Option (Int × PlatformBundle) :=
  b.modify fun p => { p with type := some value }

/-- The runlevel of a name. -/
def runlevelOf (value : CStr) : Option Int :=
  if value = str "data" then some runlevelData
  else if value = str "root" then some runlevelRoot
  else if value = str "app" then some runlevelApp
  else if value = str "platform" then some runlevelPlatform
  else none

/-- `do_action_for_runlevel` -/
def doActionForRunlevel (value : CStr) (b : PlatformBundle) : Option (Int × PlatformBundle) :=
  b.modify fun p => { p with runlevel := (runlevelOf value).getD p.runlevel }

/-- `do_action_for_roles_object` -/
def doActionForRolesObject (_buf : CStr) (b : PlatformBundle) : Option (Int × PlatformBundle) :=
  b.modify fun p => { p with mgmt := false }

/-- `do_action_for_roles_array` -/
def doActionForRolesArray (buf : CStr) (toks : List Tok) (k : Nat) (b : PlatformBundle) :
    Option (Int × PlatformBundle) := do
  let value ← toks[k]?
  b.modify fun p => { p with mgmt := p.mgmt || decide (tokText buf value = str "mgmt") }

/-- `do_action_for_one_volume`, for the name of the volume. -/
def doActionForOneVolume (value : CStr) (b : PlatformBundle) : Option (Int × PlatformBundle) :=
  b.this.map fun a =>
    (0, { b with s := { b.s with volumes := b.s.volumes ++ [⟨value, .loopimg, some a⟩] } })

/-- `do_action_for_one_volume` in an array. -/
def doActionForVolumes (buf : CStr) (toks : List Tok) (k : Nat) (b : PlatformBundle) :
    Option (Int × PlatformBundle) := do
  let value ← toks[k]?
  doActionForOneVolume (tokText buf value) b

/-- `do_action_for_one_log`, without the logger it makes. -/
def doActionForOneLog (jsmn : Jsmn) (buf : CStr) (toks : List Tok) (k : Nat)
    (b : PlatformBundle) : Option (Int × PlatformBundle) :=
  if jsmn.objectKeyCount buf toks k = 0 || (jsmn.objectKeys buf toks k).isNone then some (-1, b)
  else b.this.map fun _ => (0, b)

/-- The type of a volume by its persistence. -/
def persistenceType (pt : CStr) : VolumeType :=
  if pt = str "permanent" then .permanent
  else if pt = str "revision" then .revision
  else .boot

/-- A round of the loop of `parse_storage`: the volume of a key, if its value has a
persistence. -/
def storageVolume (jsmn : Jsmn) (a : Addr) (m : CStr × CStr) : Option PvVolume :=
  (pvJsonGetValue m.2 (str "persistence") (tokensOf jsmn m.2)).map fun pt =>
    ⟨m.1, persistenceType pt, some a⟩

/-- `do_action_for_storage`, with `parse_storage`, whose result is not looked at. -/
def doActionForStorage (jsmn : Jsmn) (buf : CStr) (b : PlatformBundle) :
    Option (Int × PlatformBundle) := do
  let a ← b.this
  match jsmn.objectKeys buf (tokensOf jsmn buf) 0 with
  | none => return (0, b)
  | some keys =>
    let members ← keys.mapM (keyAndValue buf (tokensOf jsmn buf))
    return (0, { b with s := { b.s with
      volumes := b.s.volumes ++ members.filterMap (storageVolume jsmn a) } })

/-- `system1_platform_key_action` -/
def system1PlatformKeyAction (jsmn : Jsmn) : List (JsonKeyAction PlatformBundle) :=
  [⟨str "name", .string doActionForName⟩,
    ⟨str "type", .string doActionForType⟩,
    ⟨str "runlevel", .string doActionForRunlevel⟩,
    ⟨str "roles", .object doActionForRolesObject⟩,
    ⟨str "roles", .array doActionForRolesArray⟩,
    ⟨str "config", .string fun value b => some (0, { b with config := some value })⟩,
    ⟨str "share", .string fun value b => some (0, { b with shares := some value })⟩,
    ⟨str "root-volume", .string doActionForOneVolume⟩,
    ⟨str "volumes", .array doActionForVolumes⟩,
    ⟨str "logs", .array (doActionForOneLog jsmn)⟩,
    ⟨str "storage", .object (doActionForStorage jsmn)⟩]

/-- `parse_platform`, with what it returns. -/
def parsePlatform (jsmn : Jsmn) (s : PvState) (buf : CStr) : Option (Int × PvState) := do
  let (ret, b) ← startJsonParsingWithAction jsmn buf (system1PlatformKeyAction jsmn)
    ⟨s, none, none, none⟩
  if ret ≠ 0 then return (ret, b.s)
  else
    let this ← b.this
    return (0, b.s.modifyPlatform this fun p =>
      { p with config := b.config.or p.config, status := .installed })

/-! ## Linking -/

/-- `strtok(s, "/")` and the string for the next call. -/
def strtok (s : CStr) : Option (CStr × CStr) :=
  match s.dropWhile (· = 47) with
  | [] => none
  | c :: rest =>
    some ((c :: rest).takeWhile (· ≠ 47), ((c :: rest).dropWhile (· ≠ 47)).drop 1)

/-- What `system1_link_object_json_platforms` does with an item. -/
inductive Link where
  | discard
  | plat (a : Option Addr)
  deriving DecidableEq, Repr

/-- The platform of an item, by its name. A `strcmp` with NULL is a fault. -/
def linkOf (s : PvState) (name : CStr) : Option Link :=
  match strtok name with
  | none => none
  | some (dir, rest) =>
    if dir = str "_config" then
      match strtok rest with
      | none => if s.platforms = [] then some .discard else none
      | some (dir, _) =>
        match s.platformGetByName dir with
        | none => some .discard
        | some p => some (.plat (some p.addr))
    else some (.plat ((s.platformGetByName dir).map fun p => p.addr))

/-- One of the two loops of `system1_link_object_json_platforms`. -/
def linkItems {α : Type} (s : PvState) (name : α → CStr) (set : α → Option Addr → α) :
    List α → Option (List α)
  | [] => some []
  | o :: rest =>
    match linkOf s (name o) with
    | none => none
    | some link =>
      match linkItems s name set rest with
      | none => none
      | some rest =>
        match link with
        | .discard => some rest
        | .plat a => some (set o a :: rest)

/-- `system1_link_object_json_platforms` -/
def system1LinkObjectJsonPlatforms (s : PvState) : Option PvState := do
  let objects ← linkItems s PvObject.name (fun o a => { o with plat := a }) s.objects
  let jsons ← linkItems s PvJson.name (fun j a => { j with plat := a }) s.jsons
  return { s with objects := objects, jsons := jsons }

/-! ## Validating -/

/-- `pv_platforms_remove_not_installed` -/
def pvPlatformsRemoveNotInstalled (s : PvState) : PvState :=
  { s with platforms := s.platforms.filter fun p => p.status = .installed }

/-- The first platform without a runlevel becomes a root one. -/
def rootFirst : List Platform → List Platform
  | [] => []
  | p :: ps => if p.runlevel = -1 then { p with runlevel := runlevelRoot } :: ps else p :: rootFirst ps

/-- `pv_platforms_default_runlevel` -/
def pvPlatformsDefaultRunlevel (s : PvState) : PvState :=
  let rooted := s.platforms.any fun p => p.runlevel = runlevelRoot
  let platforms := if rooted then s.platforms else rootFirst s.platforms
  { s with platforms := platforms.map fun p =>
      if p.runlevel < runlevelData then { p with runlevel := runlevelPlatform } else p }

/-- `pv_state_validate`, without the loggers. -/
def pvStateValidate (s : PvState) : PvState :=
  pvPlatformsDefaultRunlevel (pvPlatformsRemoveNotInstalled s)

/-! ## The state -/

/-- `pv_jsons_add` -/
def pvJsonsAdd (s : PvState) (name value : CStr) : PvState :=
  { s with jsons := ⟨name, value, none⟩ :: s.jsons }

/-- `pv_objects_add` -/
def pvObjectsAdd (mntpoint : CStr) (s : PvState) (name id : CStr) : PvState :=
  { s with objects :=
      { name := name
        id := id
        objpath := mntpoint ++ str "/objects/" ++ id
        relpath := mntpoint ++ str "/trails/" ++ s.rev ++ str "/" ++ name
        plat := none } :: s.objects }

/-- What a key of the state is. -/
inductive KeyKind where
  /-- `bsp/run.json` and `#spec`; a key that one of them starts with is skipped too -/
  | special
  | platform
  | ignored
  | json
  | object
  deriving DecidableEq, Repr

/-- The kind of a key. -/
def keyKind (key : CStr) : KeyKind :=
  if key.isPrefixOf (str "bsp/run.json") || key.isPrefixOf (str "#spec") then .special
  else
    let ext := strrchr 47 key
    if ext = some (str "/run.json") then .platform
    else if ext = some (str "/src.json") || ext = some (str "/build.json") then .ignored
    else if strrchr 46 key = some (str ".json") then .json
    else .object

/-- A round of the loop over the keys; `some none` where a platform is rejected. -/
def parseKey (jsmn : Jsmn) (mntpoint : CStr) (s : PvState) (m : CStr × CStr) :
    Option (Option PvState) :=
  match keyKind m.1 with
  | .special | .ignored => some (some s)
  | .platform =>
    match parsePlatform jsmn s m.2 with
    | none => none
    | some (ret, s) => if ret ≠ 0 then some none else some (some (pvJsonsAdd s m.1 m.2))
  | .json => some (some (pvJsonsAdd s m.1 m.2))
  | .object => some (some (pvObjectsAdd mntpoint s m.1 m.2))

/-- The loop over the keys. -/
def parseKeys (jsmn : Jsmn) (mntpoint : CStr) : List (CStr × CStr) → PvState →
    Option (Option PvState)
  | [], s => some (some s)
  | m :: rest, s =>
    match parseKey jsmn mntpoint s m with
    | none => none
    | some none => some none
    | some (some s) => parseKeys jsmn mntpoint rest s

/-- `system1_parse`, from the boot manifest on. -/
def system1ParseBody (jsmn : Jsmn) (mntpoint : CStr) (s : PvState) (buf : CStr)
    (toks : List Tok) (bspRun : CStr) : Option (Option PvState) :=
  match parseBsp jsmn (pvJsonsAdd s (str "bsp/run.json") bspRun) bspRun with
  | none => some none
  | some s =>
    match jsmn.objectKeys buf toks 0 with
    | none => some none
    | some keys =>
      match keys.mapM (keyAndValue buf toks) with
      | none => none
      | some members =>
        match parseKeys jsmn mntpoint members s with
        | none => none
        | some none => some none
        | some (some s) =>
          match system1LinkObjectJsonPlatforms { s with json := some buf } with
          | none => none
          | some s => some (some (pvStateValidate s))

/-- `system1_parse` -/
def system1Parse (jsmn : Jsmn) (mntpoint : CStr) (s : PvState) (buf : CStr) :
    Option (Option PvState) :=
  let toks := tokensOf jsmn buf
  if pvJsonGetKeyCount buf (str "bsp/run.json") toks ≠ 1 then some none
  else
    match pvJsonGetValue buf (str "bsp/run.json") toks with
    | none => some none
    | some bspRun => system1ParseBody jsmn mntpoint s buf toks bspRun

/-! ## `pv_parser_get_state` -/

/-- `pantavisor-multi-platform@1` and `pantavisor-service-system@1` -/
def specMulti1 : CStr := str "pantavisor-multi-platform@1"
def specSystem1 : CStr := str "pantavisor-service-system@1"

/-- `pv_parser_get_state`, where `alloc` numbers the call. The parser of the other
spec is an argument. -/
def pvParserGetState (jsmn : Jsmn) (mntpoint : CStr)
    (multi1Parse : PvState → CStr → Option (Option PvState)) (alloc : Nat) (buf rev : CStr) :
    Option (Option PvState) :=
  match jsmn.parse buf with
  | none => some none
  | some toks =>
    match pvJsonGetValue buf (str "#spec") toks with
    | none => some none
    | some spec =>
      if spec = specMulti1 then multi1Parse (pvStateNew alloc rev .multi1) buf
      else if spec = specSystem1 then
        system1Parse jsmn mntpoint (pvStateNew alloc rev .system1) buf
      else some none

end Pantavisor.Parser
