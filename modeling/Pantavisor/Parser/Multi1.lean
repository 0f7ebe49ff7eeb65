/-
Pantavisor.Parser.Multi1 — the parser of `pantavisor-multi-platform@1` states
(`parser_multi1.c`), and `pv_parser_get_state` with both parsers.

`pantavisor.json` is the boot manifest and lists the platforms by name. A key that
ends in `.json` fills in the platform that its `name` says, and every other key is an
object. Nothing is linked, and `pv_state_validate` is not called.

As for the other parser, a result is `none` for a fault. Freeing twice is one too.
-/
import Pantavisor.Parser.System1

namespace Pantavisor.Parser

open Pantavisor.Lib Pantavisor.Json Pantavisor.State

namespace Multi1

/-! ## The boot manifest -/

/-- One of the three loops of `parse_pantavisor`: the elements of the first key that
starts so. -/
def keyStrs (buf : CStr) (toks : List Tok) (keys : List Nat) (key : CStr) : Option (List CStr) :=
  match doLookupJsonKey buf toks keys key with
  | none => some []
  | some k => (toks[k + 1]?).map fun value => pvJsonArrayStrs buf toks (k + 1) value.size

/-- `pv_volume_add`, for an image that belongs to no platform. -/
def pvVolumeAdd (s : PvState) (name : CStr) : PvState :=
  { s with volumes := s.volumes ++ [⟨name, .loopimg, none⟩] }

/-- `parse_pantavisor`, with `some none` where it returns 0. -/
def parsePantavisor (jsmn : Jsmn) (s : PvState) (value : CStr) : Option (Option PvState) :=
  let toks := tokensOf jsmn value
  let fit := pvJsonGetValue value (str "fit") toks
  let std (key : CStr) := if fit.isSome then none else pvJsonGetValue value key toks
  let bsp : PvBsp :=
    { kernel := if fit.isSome then fit else std (str "linux")
      fdt := std (str "fdt")
      initrd := std (str "initrd")
      firmware := pvJsonGetValue value (str "firmware") toks
      modules := none }
  -- `img.ut.fit` is `img.std.kernel`, so that a kernel without initrd passes
  if (bsp.kernel.isNone || bsp.initrd.isNone) && bsp.kernel.isNone then some none
  else do
    let keys ← jsmn.objectKeys value toks 0
    let addons ← keyStrs value toks keys (str "addons")
    let platforms ← keyStrs value toks keys (str "platforms")
    let volumes ← keyStrs value toks keys (str "volumes")
    let s := { s with bsp := bsp, addons := s.addons ++ addons }
    let s := platforms.foldl (fun s name => (pvPlatformAdd s name).2) s
    return some (volumes.foldl pvVolumeAdd s)

/-! ## Platforms -/

/-- The strings of an array that is a text of its own. Their number is what
`jsmnutil_array_count` says of the first token, which is called with `countBuf`. -/
def arrayStrs (jsmn : Jsmn) (countBuf buf : CStr) : Option (List CStr) :=
  let toks := tokensOf jsmn buf
  let size := jsmn.arrayCount countBuf toks 0
  if toks = [] ∨ size < 0 then none else some (pvJsonArrayStrs buf toks 0 size)

/-- `parse_platform`. A `strcmp` or a `strlen` of NULL is a fault. The flags of
`share` and the `exec` are left out, and of the `configs` all but the first. -/
def parsePlatform (jsmn : Jsmn) (s : PvState) (buf : CStr) : Option PvState :=
  let toks := tokensOf jsmn buf
  match pvJsonGetValue buf (str "name") toks with
  | none => if s.platforms = [] then some s else none
  | some name =>
    match s.platformGetByName name with
    | none => some s
    | some this => do
      let configs ← pvJsonGetValue buf (str "configs") toks
      let shares ← pvJsonGetValue buf (str "share") toks
      let configs ← arrayStrs jsmn buf configs
      let _ ← arrayStrs jsmn shares shares
      return s.modifyPlatform this.addr fun p =>
        { p with
          type := pvJsonGetValue buf (str "type") toks
          config := configs.head?
          status := .installed }

/-! ## The state -/

/-- A key that is skipped: `pantavisor.json`, `#spec`, and what one of them starts
with. -/
def isSpecial (key : CStr) : Bool :=
  key.isPrefixOf (str "pantavisor.json") || key.isPrefixOf (str "#spec")

/-- A key that is taken for a platform. -/
def isPlatformKey (key : CStr) : Bool := strrchr 46 key = some (str ".json")

/-- A round of the loop over the keys. -/
def parseKey (jsmn : Jsmn) (mntpoint : CStr) (s : PvState) (m : CStr × CStr) : Option PvState :=
  if isSpecial m.1 then some s
  else if isPlatformKey m.1 then parsePlatform jsmn s m.2
  else some (pvObjectsAdd mntpoint s m.1 m.2)

/-- `multi1_parse` -/
def multi1Parse (jsmn : Jsmn) (mntpoint : CStr) (s : PvState) (buf : CStr) :
    Option (Option PvState) :=
  let toks := tokensOf jsmn buf
  if pvJsonGetKeyCount buf (str "pantavisor.json") toks ≠ 1 then some (some s)
  else
    match pvJsonGetValue buf (str "pantavisor.json") toks with
    | none => some (some s)
    | some value =>
      match parsePantavisor jsmn s value with
      | none => none
      -- the state is freed here, and by `pv_parser_get_state` again
      | some none => none
      | some (some s) => do
        let keys ← jsmn.objectKeys buf toks 0
        let members ← keys.mapM (keyAndValue buf toks)
        -- `value` is freed, and only a key that is not skipped sets it anew
        if members.all fun m => isSpecial m.1 then none
        else
          let s ← members.foldlM (parseKey jsmn mntpoint) s
          return some (pvPlatformsRemoveNotInstalled { s with json := some buf })

end Multi1

/-- `pv_parser_get_state`, with the parsers of both specs. -/
def getState (jsmn : Jsmn) (mntpoint : CStr) (alloc : Nat) (buf rev : CStr) :
    Option (Option PvState) :=
  pvParserGetState jsmn mntpoint (Multi1.multi1Parse jsmn mntpoint) alloc buf rev

end Pantavisor.Parser
