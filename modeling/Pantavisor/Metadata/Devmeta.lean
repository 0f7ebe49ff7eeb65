/-
Pantavisor.Metadata.Devmeta — the device metadata and its upload
(`metadata.c`).

An entry is marked `updated` when it is added or gets another value. The upload
writes the marked entries into a buffer, leaves out those that do not fit or
have an empty key or value, and when the server has taken the payload clears
the marks of all entries.

A function gives `none` where the C code is undefined: `pv_json_format` counts its
room in an `int`.
-/
import Pantavisor.Json.FormatBuffer
import Pantavisor.Lib.Run

namespace Pantavisor.Metadata

open Pantavisor.Lib Pantavisor.Json

/-- `struct pv_meta` -/
structure PvMeta where
  key : CStr
  value : CStr
  updated : Bool
  deriving DecidableEq

/-- `struct pv_metadata`, without the user metadata. -/
structure PvMetadata where
  devmeta : List PvMeta
  devmetaUploaded : Bool
  deriving DecidableEq

/-! ## Adding entries -/

/-- `pv_metadata_get_by_key` -/
def pvMetadataGetByKey (head : List PvMeta) (key : CStr) : Option PvMeta :=
  head.find? fun curr => curr.key = key

/-- A write to the entry that `pv_metadata_get_by_key` gives. -/
def modifyByKey (key : CStr) (f : PvMeta → PvMeta) : List PvMeta → List PvMeta
  | [] => []
  | curr :: rest => if curr.key = key then f curr :: rest else curr :: modifyByKey key f rest

/-- `pv_metadata_add` -/
def pvMetadataAdd (head : List PvMeta) (key value : CStr) : Int × List PvMeta :=
  match pvMetadataGetByKey head key with
  | some curr =>
    if curr.value = value then (0, head)
    else (1, modifyByKey key (fun curr => { curr with value := value }) head)
  | none => (1, ⟨key, value, false⟩ :: head)

/-- `pv_metadata_add_devmeta` -/
def pvMetadataAddDevmeta (m : PvMetadata) (key value : CStr) : PvMetadata :=
  let (ret, devmeta) := pvMetadataAdd m.devmeta key value
  if ret > 0 then
    { devmeta := modifyByKey key (fun curr => { curr with updated := true }) devmeta
      devmetaUploaded := false }
  else m

/-- The keys of `pv_devmeta_readkeys`. -/
def pvDevmetaReadkeys : List CStr :=
  [str "pantavisor.arch", str "pantavisor.version", str "pantavisor.dtmodel",
    str "pantavisor.cpumodel", str "pantavisor.revision", str "pantavisor.mode",
    str "pantahub.online", str "pantahub.claimed"]

/-- `pv_metadata_init_devmeta`, for a buffer of `size` bytes, `none` without one.
`readings` is what each reader leaves in it; without room they read nothing. -/
def pvMetadataInitDevmeta (size : Option Int) (readings : List CStr) (m : PvMetadata) :
    PvMetadata :=
  match size with
  | none => m
  | some size =>
    let m :=
      if size ≤ 0 then m
      else (pvDevmetaReadkeys.zip readings).foldl
        (fun m (key, buf) => pvMetadataAddDevmeta m key buf) m
    { m with devmetaUploaded := false }

/-! ## The upload -/

/-- The buffer: `json` is its text and `avail` is `json_avail`. -/
structure JsonBuf where
  json : CStr
  avail : Int
  deriving DecidableEq

/-- A write of a fragment, if there is room for it. -/
def JsonBuf.write (b : JsonBuf) (frag : CStr) (fragLen : Nat) : JsonBuf :=
  if b.avail > fragLen then ⟨b.json ++ frag, b.avail - fragLen⟩ else b

/-- A round of the loop over the entries. -/
def writeMeta (b : JsonBuf) (info : PvMeta) : Option JsonBuf :=
  if !info.updated then some b
  else
    match pvJsonFormatIn info.key (intOfSize info.key.length),
      pvJsonFormatIn info.value (intOfSize info.value.length) with
    | some (some key), some (some val) =>
      if info.value.head? ≠ some openBrace then
        some (b.write (str "\"" ++ key ++ str "\":\"" ++ val ++ str "\",")
          (key.length + val.length + 2 * 2 + 1 + 1))
      else
        some (b.write (str "\"" ++ info.key ++ str "\":" ++ info.value ++ str ",")
          (info.key.length + info.value.length + 1 * 2 + 1 + 1))
    | some _, some _ => some b
    | _, _ => none

/-- The text that is sent: the last byte of the buffer becomes a brace. -/
def devmetaJson (size : Int) (devmeta : List PvMeta) : Option CStr :=
  (devmeta.foldlM writeMeta ⟨str "\x7b", size - 1⟩).map fun b => b.json.dropLast ++ [closeBrace]

/-- `pv_metadata_upload_devmeta`, with the payload it sends. `accepted` is whether
`pv_ph_upload_metadata` returns 0. -/
def pvMetadataUploadDevmeta (size : Option Int) (accepted : Bool) (m : PvMetadata) :
    Option (Option CStr × PvMetadata) :=
  match size with
  | none => some (none, m)
  | some size =>
    if m.devmetaUploaded then some (none, m)
    else
      (devmetaJson size m.devmeta).map fun json =>
        if accepted then
          (some json, { devmeta := m.devmeta.map fun info => { info with updated := false }
                        devmetaUploaded := true })
        else (some json, m)

/-! ## Runs -/

/-- A call, with what it gets from outside: whether there is a buffer for it, what
the readers read, and the answer of the server. -/
inductive Call where
  | addDevmeta (key value : CStr)
  | initDevmeta (buffer : Bool) (readings : List CStr)
  | uploadDevmeta (buffer accepted : Bool)
  deriving DecidableEq

variable (size : Int)

/-- What a call sends and leaves, where buffers have `size` bytes. -/
def callResult (m : PvMetadata) : Call → Option (Option CStr × PvMetadata)
  | .addDevmeta key value => some (none, pvMetadataAddDevmeta m key value)
  | .initDevmeta buffer readings =>
    some (none, pvMetadataInitDevmeta (if buffer then some size else none) readings m)
  | .uploadDevmeta buffer accepted =>
    pvMetadataUploadDevmeta (if buffer then some size else none) accepted m

/-- What a call leaves. -/
def stepCall (m : PvMetadata) (call : Call) : PvMetadata :=
  ((callResult size m call).getD (none, m)).2

/-- The payload that a call sends. -/
def sentBy (m : PvMetadata) (call : Call) : Option CStr :=
  ((callResult size m call).getD (none, m)).1

/-- The calls, from any list of entries. -/
def metadataSystem : System PvMetadata Call where
  init _ := True
  step := stepCall size

end Pantavisor.Metadata
