/-
Pantavisor.Storage.Install — the installation of a revision: what
`pv_update_install` does to the storage.

A `PvState` is installed from the object pool, its boot files are linked to
their names in `.pv`, its text becomes the state json, and its JSON files are
expanded. `installFiles` is all of it up to the boot environment;
`pvUpdateInstall` of the controller has the rest.
-/
import Pantavisor.State.State
import Pantavisor.Storage.Storage

namespace Pantavisor.Storage

open Pantavisor.Lib Pantavisor.Json Pantavisor.State

/-! ## Objects -/

/-- The outcomes of the calls that `trail_link_objects` makes for an object. -/
structure ObjectIo where
  openSource : Bool
  openTarget : Bool
  copy : List CopyStep
  link : Bool
  deriving DecidableEq, Repr

/-- Every call works. -/
def ObjectIo.ok : ObjectIo := ⟨true, true, [], true⟩

/-- The object of a bind volume. The directories in front of the name end in `/`,
so that the last dot of the path is that of the name. -/
def isBind (name : CStr) : Bool := strrchr 46 name = some (str ".bind")

/-- The copy of a bind volume. Nobody looks at the result. -/
def copyBind (io : ObjectIo) (source target : List Name) (fs : Fs) : Fs :=
  let content := if io.openSource then fs.readFile source else none
  match if io.openTarget then fs.openCreate target false else none with
  | none => fs
  | some (inode, fs) =>
    match content with
    | none => fs
    | some content => fs.writeAt inode (copyLoop io.copy content).1

/-- The loop of `trail_link_objects`, with whether it gets to the end. Behind the
end of the list of outcomes every call works. -/
def linkObjects (rev : CStr) : List PvObject → List ObjectIo → Fs → Bool × Fs
  | [], _, fs => (true, fs)
  | o :: rest, io, fs =>
    let step := io.headD ObjectIo.ok
    let relpath := trailsPath rev o.name
    let fs := fs.mkdirP relpath.dropLast
    if isBind o.name then
      linkObjects rev rest io.tail (copyBind step (objectPath o.id) relpath fs)
    else
      match if step.link then fs.link (objectPath o.id) relpath else .error .other with
      | .ok fs => linkObjects rev rest io.tail fs
      | .error .eexist => linkObjects rev rest io.tail fs
      | .error .other => (false, fs)

/-! ## Boot files -/

/-- `%d` of a number that is not negative -/
def decimal (n : Nat) : CStr := (Nat.toDigits 10 n).map fun c => c.toNat.toUInt8

/-- `prefix` of `pv_storage_meta_link_boot` -/
def bootPrefix : StateSpec → CStr
  | .system1 => str "bsp/"
  | .multi1 | .unknown => []

/-- The addons, with the names that they are linked to. -/
def addonLinks (s : PvState) : List (CStr × CStr) :=
  s.addons.zipIdx.map fun (a, i) =>
    (bootPrefix s.spec ++ a, str ".pv/pv-initrd.img." ++ decimal i)

/-- The other boot files. A `%s` of NULL is printed as `(null)`. -/
def bootLinks (s : PvState) : List (CStr × CStr) :=
  let source (name : Option CStr) := bootPrefix s.spec ++ name.getD (str "(null)")
  match s.bsp.initrd with
  | some _ =>
    [(source s.bsp.initrd, str ".pv/pv-initrd.img"), (source s.bsp.kernel, str ".pv/pv-kernel.img")]
      ++ match s.bsp.fdt with
        | some _ => [(source s.bsp.fdt, str ".pv/pv-fdt.dtb")]
        | none => []
  -- `img.ut.fit` is where `img.std.kernel` is
  | none => [(source s.bsp.kernel, str ".pv/pantavisor.fit")]

/-- A run of `remove(dst)` and `link(src, dst)`, with whether it gets to the end,
and the outcomes that are left. -/
def linkNames (rev : CStr) : List (CStr × CStr) → List Bool → Fs → Bool × List Bool × Fs
  | [], io, fs => (true, io, fs)
  | (source, target) :: rest, io, fs =>
    let fs := (fs.remove (trailsPath rev target)).getD fs
    match
      if io.headD true then fs.link (trailsPath rev source) (trailsPath rev target)
      else .error .other
    with
    | .ok fs => linkNames rev rest io.tail fs
    | .error _ => (false, io.tail, fs)

/-- `pv_storage_meta_link_boot`, with whether it returns 0. -/
def pvStorageMetaLinkBoot (io : List Bool) (fs : Fs) (s : PvState) : Bool × Fs :=
  let (ok, io, fs) := linkNames s.rev (addonLinks s) io fs
  if !ok then (false, fs)
  else
    let fs := fs.mkdirP (trailsPath s.rev (str ".pv/"))
    let (ok, _, fs) := linkNames s.rev (bootLinks s) io fs
    (ok, fs)

/-- `trail_link_objects`, with whether it returns 0. -/
def trailLinkObjects (io : List ObjectIo) (boot : List Bool) (fs : Fs) (s : PvState) : Bool × Fs :=
  let (ok, fs) := linkObjects s.rev s.objects io fs
  if !ok then (false, fs) else pvStorageMetaLinkBoot boot fs s

/-! ## The installation -/

/-- The outcomes of the calls of `pv_update_install` on the storage. -/
structure InstallCalls where
  objects : List ObjectIo
  boot : List Bool
  openJson : Bool
  writeJson : WriteIo
  renameJson : Bool
  expand : List ExpandStep
  deriving DecidableEq, Repr

/-- Every call works. -/
def InstallCalls.ok : InstallCalls where
  objects := []
  boot := []
  openJson := true
  writeJson := none
  renameJson := true
  expand := []

/-- Which parts of the installation worked, and what they leave. -/
structure InstallFiles where
  linkObjects : Bool
  openJson : Bool
  expandJsons : Bool
  fs : Fs

/-- The new state json: `json.new`, with what was there cut off, becomes `json`. -/
def installJson (io : InstallCalls) (fs : Fs) (rev json : CStr) : Bool × Fs :=
  let pathNew := trailsPath rev (str ".pvr/json.new")
  match if io.openJson then fs.openCreate pathNew true else none with
  | none => (false, fs)
  | some (inode, fs) =>
    let fs := fs.writeAt inode (io.writeJson.taken json)
    (true, if io.renameJson then (fs.rename pathNew (jsonPath rev)).getD fs else fs)

/-- `pv_update_install` up to `pv_bootloader_set_installed`, without the cleanup.
`none` for a state without a text, or with one that is no object. -/
def installFiles (jsmn : Jsmn) (io : InstallCalls) (fs : Fs) (s : PvState) : Option InstallFiles :=
  let fs := fs.mkdirP (pvrPath s.rev)
  let (linked, fs) := trailLinkObjects io.objects io.boot fs s
  if !linked then some ⟨false, true, true, fs⟩
  else
    match s.json with
    | none => none
    | some json =>
      let (opened, fs) := installJson io fs s.rev json
      if !opened then some ⟨true, false, true, fs⟩
      else
        match pvStorageMetaExpandJsons jsmn io.expand fs s.rev json with
        | none => none
        | some (ret, fs) => some ⟨true, true, ret ≠ 0, fs⟩

end Pantavisor.Storage
