/-
Pantavisor.Storage.Pool — the two ways into the object pool: downloads
(`trail_download_object`) and requests on the control socket.

An object comes to the pool through a temporary file next to its place, which is
renamed when its digest has been checked. A download checks it against the
`sha256sum` that the server sends along, a request against the name of the
object. The digest is a parameter, and both comparisons are exact here;
`Storage.Checksum` has what they really do.
-/
import Pantavisor.Storage.Checksum
import Pantavisor.Storage.Storage

namespace Pantavisor.Storage

open Pantavisor.Lib

/-- The digest of some contents is the one that a checksum stands for. -/
def digestIs (sha256 : CStr → List UInt8) (checksum contents : CStr) : Bool :=
  hexDecode checksum = some (sha256 contents)

/-- A new state of the storage, with the object that was renamed to its place
and what it held then. -/
abbrev PoolResult := Fs × Option (CStr × CStr)

/-- What both ways do behind the check of a temporary file: it is renamed to the
place of the object, or removed. -/
def renameChecked (checked renamed : Bool) (fs : Fs) (tmp : List Name) (inode : Nat) (id : CStr) :
    PoolResult :=
  if !checked then ((fs.remove tmp).getD fs, none)
  else
    match if renamed then fs.rename tmp (objectPath id) else none with
    | none => (fs, none)
    | some fs' => (fs', some (id, fs.data inode))

/-! ## Downloads -/

/-- `MMC_TMP_OBJ_FMT` of an object -/
def tmpPath (id : CStr) : List Name := objectPath (id ++ str ".tmp")

/-- What `trail_download_get_meta` takes from the answer of the server. -/
structure ObjectMeta where
  sha256 : Option CStr
  geturl : Option CStr
  deriving DecidableEq, Repr

/-- The outcomes of the calls of `trail_download_object`: `received` is what is
written to the temporary file, and `interrupted` says that nothing comes behind
that. -/
structure DownloadCalls where
  openTmp : Bool
  received : CStr
  interrupted : Bool
  response : Bool
  rename : Bool
  deriving DecidableEq, Repr

/-- `trail_download_object`. For the kernel of a `BL_UBOOT_PVK` device the
temporary file is closed again and the download goes to no file at all, so that
nothing is read back either. -/
def trailDownloadObject (sha256 : CStr → List UInt8) (io : DownloadCalls) (isKernelPvk : Bool)
    (data : ObjectMeta) (fs : Fs) (id : CStr) : PoolResult :=
  if !isKernelPvk && fs.stat (objectPath id) then (fs, none)
  else
    match data.geturl with
    | none => (fs, none)
    | some url =>
      if !(str "https://").isPrefixOf url then (fs, none)
      else
        match if io.openTmp then fs.openCreate (tmpPath id) false else none with
        | none => (fs, none)
        | some (inode, fs) =>
          let fs := if isKernelPvk then fs else fs.writeAt inode io.received
          if io.interrupted then (fs, none)
          else if !io.response then ((fs.remove (tmpPath id)).getD fs, none)
          else
            match data.sha256 with
            -- `strlen(NULL)`
            | none => (fs, none)
            | some checksum =>
              let read := if isKernelPvk then [] else fs.data inode
              renameChecked (digestIs sha256 checksum read) io.rename fs (tmpPath id) inode id

/-! ## Requests -/

/-- `PATH_OBJECTS_TMP` -/
def newPath (id : CStr) : List Name := objectPath (id ++ str ".new")

/-- The outcomes of the calls of a `PUT`: `received` is what is written before an
error, an interruption or the end. -/
structure PutCalls where
  openNew : Bool
  received : CStr
  interrupted : Bool
  complete : Bool
  openCheck : Bool
  rename : Bool
  deriving DecidableEq, Repr

/-- `PUT /objects/<name>` in `pv_ctrl_read_parse_request`. -/
def pvCtrlPutObject (sha256 : CStr → List UInt8) (io : PutCalls) (fs : Fs) (name : CStr) :
    PoolResult :=
  if name.length ≠ 64 then (fs, none)
  else
    -- `pv_ctrl_process_put_file`
    match if io.openNew then fs.openExcl (newPath name) else .error .other with
    | .error .eexist => (fs, none)
    | .error .other => ((fs.remove (newPath name)).getD fs, none)
    | .ok (inode, fs) =>
      let fs := fs.writeAt inode io.received
      if io.interrupted then (fs, none)
      else if !io.complete then ((fs.remove (newPath name)).getD fs, none)
      -- `pv_ctrl_validate_object_checksum`
      else
        renameChecked (io.openCheck && digestIs sha256 name (fs.data inode)) io.rename fs
          (newPath name) inode name

/-! ## Runs -/

/-- A download of an object, with what the server sends, or a request. -/
inductive PoolEvent where
  | download (io : DownloadCalls) (isKernelPvk : Bool) (data : ObjectMeta) (id : CStr)
  | put (io : PutCalls) (name : CStr)
  deriving DecidableEq, Repr

/-- The storage, and the objects that have been renamed to their places, each
with what it held then. -/
structure PoolState where
  fs : Fs
  renamed : List (CStr × CStr)

/-- What an event does to the storage. -/
def PoolEvent.result (sha256 : CStr → List UInt8) (fs : Fs) : PoolEvent → PoolResult
  | .download io isKernelPvk data id => trailDownloadObject sha256 io isKernelPvk data fs id
  | .put io name => pvCtrlPutObject sha256 io fs name

/-- What an event does. -/
def PoolState.step (sha256 : CStr → List UInt8) (s : PoolState) (e : PoolEvent) : PoolState :=
  let (fs, object) := e.result sha256 s.fs
  ⟨fs, s.renamed ++ object.toList⟩

end Pantavisor.Storage
