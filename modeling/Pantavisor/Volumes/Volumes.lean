/-
Pantavisor.Volumes.Volumes — mounting and unmounting the volumes of a state
(`volumes.c`, `loop.c`).

Both go through the volumes level by level, and go past those of a platform that is
started. Mounting writes the mount point and the loop device into the volume, and
unmounting reads them: for a volume that was not mounted it finds NULL, which the
kernel refuses.

A pointer to a platform is that platform here. The kernel has mount points, each as
often as something is mounted there, and attached loop devices, each with the number
of the call that attached it.
-/
import Pantavisor.Platforms.Platforms

namespace Pantavisor.Volumes

open Pantavisor.Lib Pantavisor.State Pantavisor.Platforms

/-! ## Volumes -/

/-- What mounting writes: `src`, `dest`, and `loop_fd` unless it is -1. -/
structure Mount where
  src : CStr
  dest : CStr
  loop : Option Nat
  deriving DecidableEq, Repr

/-- `struct pv_volume`. `addr` tells two allocations apart, and `mount` is there from
the first `pv_volumes_mount_volume` on that comes through. -/
structure Volume where
  addr : Nat
  name : CStr
  type : VolumeType
  plat : Option Platform
  mount : Option Mount
  deriving DecidableEq, Repr

/-- The level that a volume is of: without a platform it is the root one. -/
def Volume.level (v : Volume) : Int := v.plat.elim runlevelRoot (·.runlevel)

/-- A volume that the loops do not go past. -/
def Volume.idle (v : Volume) : Bool := v.plat.all (·.status ≠ .started)

/-- What the loops over the volumes skip at level `i`. -/
def skips (i : Int) (v : Volume) : Bool := !(decide (v.level = i) && v.idle)

/-! ## The kernel -/

/-- What becomes of a mount. A loop device may be attached and not mounted. -/
inductive Outcome where
  | mounted
  | failed
  | attached
  deriving DecidableEq, Repr

/-- Mount points and loop devices, and the number of the next call. -/
structure Kernel where
  call : Nat
  mounts : List CStr
  loops : List Nat
  deriving DecidableEq, Repr

/-- What mounting finds: what becomes of each call, the paths that are there, and
the release of the kernel. -/
structure MountIo where
  outcome : Nat → Outcome
  there : CStr → Bool
  release : Option CStr

/-- Where a loop over the volumes is. -/
structure Visit where
  kernel : Kernel
  visited : List Volume
  ret : Ret
  deriving DecidableEq, Repr

/-! ## Mounting -/

/-- How a volume is mounted. -/
inductive Via where
  /-- a bind mount or a tmpfs -/
  | plain
  /-- `mount_loop` -/
  | loop
  /-- a dereference of NULL -/
  | fault
  deriving DecidableEq, Repr

/-- What the type of a volume, and the end of its name, make of it. -/
def Volume.via (v : Volume) : Via :=
  match v.type with
  | .loopimg =>
    -- `fstype = strrchr(v->name, '.'); fstype++`
    match strrchr 0x2e v.name with
    | none => .fault
    | some dot =>
      if dot.drop 1 = str "bind" ∨ dot.drop 1 = str "data" then .plain else .loop
  | .permanent | .revision => if v.plat.isSome then .plain else .fault
  | .boot => .plain

/-- `path`, where `mntpoint` is the mount point of the storage. -/
def Volume.path (mntpoint : CStr) (s : PvState) (v : Volume) : CStr :=
  let owner := v.plat.elim [] fun p => p.name ++ str "/"
  match v.type with
  | .permanent => mntpoint ++ str "/disks/perm/" ++ owner ++ v.name
  | .revision => mntpoint ++ str "/disks/rev/" ++ s.rev ++ str "/" ++ owner ++ v.name
  | .loopimg | .boot =>
    if s.spec = .system1 then
      mntpoint ++ str "/trails/" ++ s.rev ++ str "/" ++
        v.plat.elim (str "bsp/") (fun p => p.name ++ str "/") ++ v.name
    else mntpoint ++ str "/trails/" ++ s.rev ++ str "/" ++ v.name

/-- `mntpoint`, where the volume goes. -/
def Volume.mntpoint (s : PvState) (v : Volume) : CStr :=
  if s.spec = .system1 then
    str "/volumes/" ++ v.plat.elim [] (fun p => p.name ++ str "/") ++ v.name
  else str "/volumes/" ++ v.name

/-- How `pv_volumes_mount_volume` ends. -/
def mountRet (spec : StateSpec) (o : Outcome) (v : Volume) : Ret :=
  if spec = .unknown then .error
  else if v.via = .fault then .fault
  else if o = .mounted then .ok
  else .error

/-- `pv_volumes_mount_volume` -/
def pvVolumesMountVolume (io : MountIo) (mntpoint : CStr) (s : PvState) (w : Visit) (v : Volume) :
    Volume × Visit × Bool :=
  let k := w.kernel
  let o := io.outcome k.call
  let loop := if v.via = .loop then some k.call else none
  match mountRet s.spec o v with
  | .ok =>
    ({ v with mount := some ⟨v.path mntpoint s, v.mntpoint s, loop⟩ },
      { w with
        kernel := ⟨k.call + 1, v.mntpoint s :: k.mounts, loop.toList ++ k.loops⟩
        visited := w.visited ++ [v] },
      true)
  | .error =>
    -- `mount_loop` gives a device back only by `unmount_loop`
    let left := if s.spec ≠ .unknown ∧ o = .attached then loop.toList else []
    (v, { w with kernel := ⟨k.call + 1, k.mounts, left ++ k.loops⟩, ret := .error }, false)
  | .fault => (v, { w with ret := .fault }, false)

/-- `FW_PATH` -/
def fwPath : CStr := str "/lib/firmware"

/-- The path of an image of the bsp: a bare name is one of a volume. -/
def bspPath (image : CStr) : CStr := if 0x2f ∈ image then image else str "/volumes/" ++ image

/-- `mount_bind` -/
def mountBind (io : MountIo) (k : Kernel) (dest : CStr) : Kernel × Bool :=
  if io.outcome k.call = .mounted then (⟨k.call + 1, dest :: k.mounts, k.loops⟩, true)
  else ({ k with call := k.call + 1 }, false)

/-- The firmware, if it is there. -/
def mountFirmware (io : MountIo) (s : PvState) (k : Kernel) : Kernel × Bool :=
  match s.bsp.firmware with
  | none => (k, true)
  | some image => if io.there (bspPath image) then mountBind io k fwPath else (k, true)

/-- The modules, if they are there. -/
def mountModules (io : MountIo) (s : PvState) (k : Kernel) : Kernel × Bool :=
  match s.bsp.modules, io.release with
  | some image, some release =>
    if io.there (bspPath image) then mountBind io k (str "/lib/modules/" ++ release) else (k, true)
  | _, _ => (k, true)

/-- `pv_volumes_mount_firmware_modules` -/
def pvVolumesMountFirmwareModules (io : MountIo) (s : PvState) (k : Kernel) : Kernel × Bool :=
  let r := mountFirmware io s k
  if r.2 then mountModules io s r.1 else r

/-- What `pv_volumes_mount` leaves. -/
structure MountRun where
  volumes : List Volume
  kernel : Kernel
  ret : Ret
  deriving DecidableEq, Repr

/-- The loops of `pv_volumes_mount`. -/
def mountVolumes (io : MountIo) (mntpoint : CStr) (s : PvState) (vs : List Volume)
    (runlevel : Int) (k : Kernel) : List Volume × Visit × Bool :=
  sweep skips (pvVolumesMountVolume io mntpoint s) (levelsUp runlevel) vs ⟨k, [], .ok⟩

/-- `pv_volumes_mount` -/
def pvVolumesMount (io : MountIo) (mntpoint : CStr) (s : PvState) (vs : List Volume)
    (runlevel : Int) (k : Kernel) : MountRun :=
  let r := mountVolumes io mntpoint s vs runlevel k
  if r.2.2 then
    if runlevel ≤ runlevelRoot then
      let b := pvVolumesMountFirmwareModules io s r.2.1.kernel
      ⟨r.1, b.1, if b.2 then .ok else .error⟩
    else ⟨r.1, r.2.1.kernel, .ok⟩
  else ⟨r.1, r.2.1.kernel, r.2.1.ret⟩

/-! ## Unmounting -/

/-- `umount` and `unmount_loop` of one volume. `umount(NULL)` is refused. -/
def pvVolumesUnmountVolume (w : Visit) (v : Volume) : Volume × Visit × Bool :=
  let k := w.kernel
  let w := { w with visited := w.visited ++ [v] }
  match v.mount with
  | none => (v, { w with ret := .error }, false)
  | some m =>
    if m.dest ∈ k.mounts then
      let k := { k with mounts := k.mounts.erase m.dest }
      match m.loop with
      | none => (v, { w with kernel := k }, true)
      | some fd =>
        -- `LOOP_CLR_FD`
        if fd ∈ k.loops then
          (v, { w with kernel := { k with loops := k.loops.erase fd } }, true)
        else (v, { w with kernel := k, ret := .error }, false)
    else (v, { w with ret := .error }, false)

/-- `pv_volumes_unmount`. It writes nothing into the volumes. -/
def pvVolumesUnmount (vs : List Volume) (runlevel : Int) (k : Kernel) : Visit :=
  (sweep skips pvVolumesUnmountVolume (levelsDown runlevel) vs ⟨k, [], .ok⟩).2.1

/-- A volume after `pv_platforms_stop(pv, 0)`. -/
def Volume.stopped (v : Volume) : Volume :=
  { v with plat := v.plat.map fun p => stopPlatform runlevelData p.runlevel p }

/-- `pv_shutdown`: all platforms are stopped, and all volumes unmounted. -/
def shutdownVolumes (vs : List Volume) (k : Kernel) : Visit :=
  pvVolumesUnmount (vs.map Volume.stopped) runlevelData k

end Pantavisor.Volumes
