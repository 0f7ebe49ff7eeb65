/-
Pantavisor.Storage.Storage — the functions of `storage.c` and `updater.c` that
change the storage.

The tree of an `Fs` is the storage from its mount point on: `trails` with a
directory for each revision, `objects` with the object pool, `logs` and
`disks`. A path is built as the source prints it, from the name of a revision
and that of a file in it, whatever these are.

The outcome of every `open`, `read`, `write` and `link` is an argument; calls
whose result nobody looks at, and `mkdir`, fail only where the tree makes them.
-/
import Pantavisor.Json.Jsmn
import Pantavisor.Lib.FileTree

namespace Pantavisor.Storage

open Pantavisor.Lib Pantavisor.Json

/-! ## Paths -/

/-- `%s/trails/%s` -/
def revPath (rev : CStr) : List Name := str "trails" :: components rev

/-- `%s/trails/%s/%s` -/
def trailsPath (rev name : CStr) : List Name := revPath rev ++ components name

/-- `%s/trails/%s/.pvr` -/
def pvrPath (rev : CStr) : List Name := trailsPath rev (str ".pvr")

/-- `PATH_TRAILS` -/
def jsonPath (rev : CStr) : List Name := trailsPath rev (str ".pvr/json")

/-- `PATH_OBJECTS` -/
def objectPath (id : CStr) : List Name := str "objects" :: components id

/-! ## Reading and writing -/

/-- The outcome of a `write`: all bytes taken, or at most so many. An error
takes none. -/
abbrev WriteIo := Option Nat

/-- The bytes that a `write` takes. -/
def WriteIo.taken (io : WriteIo) (s : CStr) : CStr :=
  match io with
  | none => s
  | some n => s.take n

/-- A round of `pv_fops_copy_and_close`: the bytes that `read` gives, or `none`
for an error, and what `write` takes of them. -/
structure CopyStep where
  read : Option Nat
  write : WriteIo
  deriving DecidableEq, Repr

/-- The loop of `pv_fops_copy_and_close`: the bytes that are written and what the
last `read` returns. Behind the end of the list every call works in full. -/
def copyLoop : List CopyStep → CStr → CStr × Int
  | [], src => (src, 0)
  | step :: steps, src =>
    match step.read with
    | none => ([], -1)
    | some n =>
      if src = [] then ([], 0)
      else
        let size := max 1 (min n 4096)
        let (out, ret) := copyLoop steps (src.drop size)
        (step.write.taken (src.take size) ++ out, ret)

/-- `pv_storage_get_state_json` -/
def pvStorageGetStateJson (fs : Fs) (rev : CStr) : Option CStr := fs.readFile (jsonPath rev)

/-! ## Revisions -/

/-- `pv_storage_rm_rev` -/
def pvStorageRmRev (fs : Fs) (rev : CStr) : Fs :=
  let fs := fs.removeIn (str "trails" :: components rev)
  let fs := fs.removeIn (str "logs" :: components rev)
  fs.removeIn (str "disks" :: str "rev" :: components rev)

/-- The outcomes of the calls of `pv_storage_update_factory`. -/
structure FactoryIo where
  openFactory : Bool
  openRevision : Bool
  copy : List CopyStep
  deriving DecidableEq, Repr

/-- `pv_storage_update_factory` -/
def pvStorageUpdateFactory (io : FactoryIo) (fs : Fs) (rev : CStr) : Int × Fs :=
  -- first, remove revision 0 that is going to be substituted
  let fs := pvStorageRmRev fs (str "0")
  -- now, create revision 0
  let fs := fs.mkdirP (pvrPath (str "0"))
  -- finally, copy revision json to revision 0
  match if io.openFactory then fs.openCreate (jsonPath (str "0")) true else none with
  | none => (-1, fs)
  | some (inode, fs) =>
    match if io.openRevision then fs.readFile (jsonPath rev) else none with
    | none => (-1, fs)
    | some src =>
      let (out, ret) := copyLoop io.copy src
      let fs := fs.writeAt inode out
      if ret < 0 then (-1, fs) else (0, fs)

/-! ## Expanded JSON files -/

/-- The key of a JSON file. -/
def isJsonKey (key : CStr) : Bool := strrchr 46 key = some (str ".json")

/-- The outcomes of the `open` and the `write` of one file. -/
structure ExpandStep where
  opened : Bool
  write : WriteIo
  deriving DecidableEq, Repr

/-- The loop of `pv_storage_meta_expand_jsons`, with whether it gets to the end.
Behind the end of the list of outcomes every call works. -/
def expandLoop (rev : CStr) : List (CStr × CStr) → List ExpandStep → Fs → Bool × Fs
  | [], _, fs => (true, fs)
  | (key, value) :: rest, io, fs =>
    if !isJsonKey key then expandLoop rev rest io fs
    else
      let path := trailsPath rev key
      if fs.stat path then (false, fs)
      else
        let fs := if fs.stat path.dropLast then fs else fs.mkdirP path.dropLast
        let step := io.headD ⟨true, none⟩
        match if step.opened then fs.openCreate path false else none with
        | none => (false, fs)
        | some (inode, fs) =>
          expandLoop rev rest io.tail (fs.writeAt inode (step.write.taken value))

/-- `pv_storage_meta_expand_jsons`: `none` where it reads the keys of a text that
is no object. A loop that stops early returns the number of tokens. -/
def pvStorageMetaExpandJsons (jsmn : Jsmn) (io : List ExpandStep) (fs : Fs) (rev json : CStr) :
    Option (Int × Fs) :=
  match jsmn.parse json with
  | none => some (-1, fs)
  | some toks =>
    match keysAndValues jsmn json toks with
    | none => none
    | some members =>
      let (done, fs) := expandLoop rev members io fs
      some (if done then 1 else toks.length, fs)

end Pantavisor.Storage
