/-
Pantavisor.Metadata.Usermeta — the user metadata and its files (`metadata.c`,
`storage.c`).

The entries come from the answers of the cloud and from the control socket, and
each that is new or has another value is written to a file of its name. An answer
marks the entries it has, and the sweep behind it clears the marks and removes what
has none. The next start reads the files.
-/
import Pantavisor.Json.Unescape
import Pantavisor.Lib.FileTree
import Pantavisor.Lib.Run
import Pantavisor.Metadata.Devmeta

namespace Pantavisor.Metadata

open Pantavisor.Lib Pantavisor.Json

/-! ## Paths -/

/-- `.` -/
def period : UInt8 := 46

/-- `PATH_USER_META` -/
def pathUserMeta : List Name := components (str "/pv/user-meta")

/-- `PATH_USERMETA_KEY` -/
def pathUsermetaKey (key : CStr) : List Name := components (str "/pv/user-meta/" ++ key)

/-- `PATH_USERMETA_PLAT` -/
def pathUsermetaPlat (name : CStr) : List Name := components (str "/pv/user-meta." ++ name)

/-- `PATH_USERMETA_PLAT_KEY` -/
def pathUsermetaPlatKey (name key : CStr) : List Name :=
  components (str "/pv/user-meta." ++ name ++ str "/" ++ key)

/-- A name that is longer than `NAME_MAX`. The kernel refuses a path with one. -/
def tooLong (path : List Name) : Bool := path.any fun n => 255 < n.length

/-- What is before the first period of a key and what is behind it. -/
def platOfKey (key : CStr) : Option (CStr × CStr) :=
  if period ∈ key then some (key.takeWhile (· ≠ period), (key.dropWhile (· ≠ period)).tail) else none

/-! ## Files -/

/-- `dir_exist` -/
def dirExist (fs : Fs) (dir : List Name) : Bool := (fs.find dir).any Tree.isDir

/-- `pv_storage_init_plat_usermeta` -/
def pvStorageInitPlatUsermeta (fs : Fs) (name : CStr) : Fs :=
  let path := pathUsermetaPlat name
  if dirExist fs path || tooLong path then fs else fs.mkdirP path

/-- `pv_storage_save_file` -/
def pvStorageSaveFile (fs : Fs) (path : List Name) (content : CStr) : Fs :=
  if tooLong path then fs
  else
    match fs.openCreate path true with
    | none => fs
    | some (fd, fs) => fs.writeAt fd content

/-- `pv_storage_save_usermeta` -/
def pvStorageSaveUsermeta (fs : Fs) (key value : CStr) : Fs :=
  let fs := pvStorageSaveFile fs (pathUsermetaKey key) value
  match platOfKey key with
  | none => fs
  | some (pname, pkey) =>
    pvStorageSaveFile (pvStorageInitPlatUsermeta fs pname) (pathUsermetaPlatKey pname pkey) value

/-- `remove`, whatever it returns. -/
def removeFile (fs : Fs) (path : List Name) : Fs :=
  if tooLong path then fs else (fs.remove path).getD fs

/-- `pv_storage_rm_usermeta` -/
def pvStorageRmUsermeta (fs : Fs) (key : CStr) : Fs :=
  let fs := removeFile fs (pathUsermetaKey key)
  match platOfKey key with
  | none => fs
  | some (pname, pkey) => removeFile fs (pathUsermetaPlatKey pname pkey)

/-- What `pv_storage_load_file` reads of a file: `size` is an `unsigned int`, and the
content is a string. -/
def loadContent (maxSize : Nat) (data : CStr) : Option CStr :=
  let size := data.length % 2 ^ 32
  if maxSize ≠ 0 ∧ maxSize < size then none else some (cstrAt (data.take size) 0)

/-- `pv_storage_load_file` -/
def pvStorageLoadFile (fs : Fs) (path : List Name) (maxSize : Nat) : Option CStr :=
  match fs.find path with
  | some (.file i) => loadContent maxSize (fs.data i)
  -- what cannot be opened or read leaves the buffer as it was allocated
  | _ => some []

/-! ## Entries -/

/-- The user metadata of `struct pv_metadata`, and the file system. -/
structure PvUsermeta where
  usermeta : List PvMeta
  fs : Fs

/-- `pv_metadata_add_usermeta`, with `none` for NULL. -/
def pvMetadataAddUsermeta (m : PvUsermeta) (key : CStr) : Option CStr → Int × PvUsermeta
  | none => (-1, m)
  | some value =>
    let (ret, usermeta) := pvMetadataAdd m.usermeta key value
    let usermeta :=
      if 0 ≤ ret then modifyByKey key (fun curr => { curr with updated := true }) usermeta
      else usermeta
    if ret > 0 then (0, ⟨usermeta, pvStorageSaveUsermeta m.fs key value⟩)
    else (-1, ⟨usermeta, m.fs⟩)

/-- `pv_metadata_rm_usermeta` -/
def pvMetadataRmUsermeta (m : PvUsermeta) (key : CStr) : Int × PvUsermeta :=
  match pvMetadataGetByKey m.usermeta key with
  | none => (-1, m)
  | some curr =>
    (0, ⟨m.usermeta.eraseP fun curr => curr.key = key, pvStorageRmUsermeta m.fs curr.key⟩)

/-! ## Answers -/

/-- A key of the object and its value, NULL for the primitive `null`. -/
def usermetaMember (um : CStr) (tokv : List Tok) (k : Nat) : Option (CStr × Option CStr) := do
  let key ← tokv[k]?
  let value ← tokv[k + 1]?
  let text := tokText um value
  return (tokText um key, if value.type ≠ .primitive ∨ text ≠ str "null" then some text else none)

variable (jsmn : Jsmn)

/-- The text of the value that is found for `user-meta`. -/
def usermetaText (buf : CStr) : Option CStr :=
  -- without tokens nothing is found
  pvJsonGetValue buf (str "user-meta") ((jsmn.parse buf).getD [])

/-- The keys and values of an object. `none` where the text has no tokens or is no
object: the loop then goes over NULL. -/
def usermetaMembers (um : CStr) : Option (List (CStr × Option CStr)) := do
  let tokv ← jsmn.parse um
  let keys ← jsmn.objectKeys um tokv 0
  keys.mapM (usermetaMember um tokv)

/-- The loop of `pv_usermeta_parse`. -/
def addMembers (m : PvUsermeta) (members : List (CStr × Option CStr)) : PvUsermeta :=
  members.foldl
    (fun m (key, value) => if value.isSome then (pvMetadataAddUsermeta m key value).2 else m) m

/-- `pv_usermeta_parse`; `none` is a fault. -/
def pvUsermetaParse (m : PvUsermeta) (buf : CStr) : Option PvUsermeta :=
  match usermetaText jsmn buf with
  | none => some m
  | some um => (usermetaMembers jsmn um).map (addMembers m)

/-- The loop of `usermeta_clear` over the rest of the entries. The first entry with a
key is not behind the one that is looked at. -/
def usermetaClearFrom (m : PvUsermeta) : List PvMeta → PvUsermeta
  | [] => m
  | curr :: rest =>
    if curr.updated then
      usermetaClearFrom { m with usermeta := m.usermeta ++ [{ curr with updated := false }] } rest
    else
      usermetaClearFrom (pvMetadataRmUsermeta { m with usermeta := m.usermeta ++ [curr] } curr.key).2
        rest

/-- `usermeta_clear` -/
def usermetaClear (m : PvUsermeta) : PvUsermeta := usermetaClearFrom ⟨[], m.fs⟩ m.usermeta

/-- `pv_metadata_parse_usermeta` -/
def pvMetadataParseUsermeta (m : PvUsermeta) (buf : CStr) : Option PvUsermeta :=
  (pvUsermetaParse jsmn m (pvStrUnescapeToAscii buf lineFeedCode lineFeed)).map usermetaClear

/-! ## The next start -/

/-- `METADATA_MAX_SIZE` -/
def metadataMaxSize : Nat := 4096

/-- A round of the loop of `pv_metadata_load_usermeta`. -/
def loadUsermetaFile (m : PvUsermeta) (name : Name) : PvUsermeta :=
  if str ".." <+: name ∨ str "." <+: name then m
  else
    match pvStorageLoadFile m.fs (pathUsermetaKey name) metadataMaxSize with
    | none => m
    | some value => (pvMetadataAddUsermeta m name (some value)).2

/-- `pv_metadata_load_usermeta` -/
def pvMetadataLoadUsermeta (m : PvUsermeta) : PvUsermeta :=
  match m.fs.scandir pathUserMeta with
  | none => m
  | some files => files.foldl loadUsermetaFile m

/-- `pv_metadata_init`, for the user metadata. -/
def pvMetadataInit (fs : Fs) : PvUsermeta := pvMetadataLoadUsermeta ⟨[], fs⟩

/-! ## The control socket -/

/-- `pv_ctrl_get_file_name`, behind `ENDPOINT_USER_META` and the slash. -/
def pvCtrlGetFileName (path : CStr) : CStr := cstrAt path ((str "/user-meta").length + 1)

/-- `pv_ctrl_get_body`: what a read of so many bytes gives. -/
def pvCtrlGetBody (sent : CStr) (contentLength : Nat) : Option CStr :=
  if 4096 ≤ contentLength ∨ sent.take contentLength = [] then none
  else some (cstrAt (sent.take contentLength) 0)

/-! ## Runs -/

/-- What happens to the user metadata: an answer with status 200 and its body, a
request of the control socket for the path of a key, and the end of the program. -/
inductive UsermetaEvent where
  | answer (body : CStr)
  | put (path sent : CStr) (contentLength : Nat)
  | delete (path : CStr)
  | restart
  deriving DecidableEq

/-- What an event leaves. A fault ends the program, and the next start is another. -/
def stepUsermeta (m : PvUsermeta) : UsermetaEvent → PvUsermeta
  | .answer body =>
    match pvMetadataParseUsermeta jsmn m (cstrAt body 0) with
    | none => pvMetadataInit m.fs
    | some m => m
  | .put path sent contentLength =>
    (pvMetadataAddUsermeta m (pvCtrlGetFileName path) (pvCtrlGetBody sent contentLength)).2
  | .delete path => (pvMetadataRmUsermeta m (pvCtrlGetFileName path)).2
  | .restart => pvMetadataInit m.fs

/-- The user metadata from the first start on, on any file system. -/
def usermetaSystem : System PvUsermeta UsermetaEvent where
  init m := ∃ fs, m = pvMetadataInit fs
  step := stepUsermeta jsmn

end Pantavisor.Metadata
