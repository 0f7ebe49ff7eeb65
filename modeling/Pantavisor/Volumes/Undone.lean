/-
Pantavisor.Volumes.Undone — a mount that fails, and the shutdown behind it.

Mounting goes up the levels and ends at the first volume that fails; unmounting goes
down and ends at the first volume that it finds without a mount point. So a mount is
undone exactly if no volume but the last one that unmounting gets to is without one,
and if no loop device is attached for a volume that was not mounted.

Mount points and loop devices are kept by how often they are there, so "undone" is
a permutation of what there was.
-/
import Pantavisor.Volumes.Volumes
import Pantavisor.Platforms.Order
import Mathlib.Data.List.Perm.Subperm

namespace Pantavisor.Volumes

open Pantavisor.Lib Pantavisor.State Pantavisor.Platforms

/-! ## What volumes hold -/

/-- What volumes hold of something that a mount has. -/
def held {β : Type} (f : Mount → List β) (vs : List Volume) : List β :=
  vs.flatMap fun v => v.mount.toList.flatMap f

/-- Where volumes are mounted. -/
def points (vs : List Volume) : List CStr := held (fun m => [m.dest]) vs

/-- The loop devices of volumes. -/
def devices (vs : List Volume) : List Nat := held (fun m => m.loop.toList) vs

section Held

variable {β : Type} (f : Mount → List β)

@[simp] theorem held_nil : held f [] = [] := rfl

@[simp] theorem held_cons (v : Volume) (vs : List Volume) :
    held f (v :: vs) = v.mount.toList.flatMap f ++ held f vs := rfl

@[simp] theorem held_append (vs us : List Volume) : held f (vs ++ us) = held f vs ++ held f us :=
  List.flatMap_append

theorem held_perm {vs us : List Volume} (h : vs.Perm us) : (held f vs).Perm (held f us) :=
  h.flatMap_right _

theorem held_congr {vs us : List Volume} (h : vs.map (·.mount) = us.map (·.mount)) :
    held f vs = held f us := by
  have hmap : ∀ ws : List Volume,
      held f ws = (ws.map (·.mount)).flatMap fun m => m.toList.flatMap f := by
    intro ws
    rw [held, List.flatMap_map]
  rw [hmap, hmap, h]

theorem held_fresh {vs : List Volume} (h : ∀ v ∈ vs, v.mount = none) : held f vs = [] := by
  rw [held, List.flatMap_eq_nil_iff]
  intro v hv
  rw [h v hv]
  rfl

end Held

/-! ## Orders -/

/-- The volumes that `pv_volumes_mount` is to mount, in its order. -/
def mountOrder (vs : List Volume) (runlevel : Int) : List Volume :=
  byLevel (levelsUp runlevel) Volume.level (vs.filter Volume.idle)

/-- The volumes in the order of `pv_volumes_unmount`. -/
def unmountOrder (vs : List Volume) : List Volume :=
  byLevel (levelsDown runlevelData) Volume.level vs

theorem mem_mountOrder {vs : List Volume} {runlevel : Int} {v : Volume} :
    v ∈ mountOrder vs runlevel ↔
      (runlevel ≤ v.level ∧ v.level ≤ maxRunlevel) ∧ v ∈ vs ∧ v.idle := by
  rw [mountOrder, mem_byLevel, mem_levelsUp, List.mem_filter]

theorem nodup_levelsUp (runlevel : Int) : (levelsUp runlevel).Nodup :=
  (pairwise_levelsUp runlevel).imp fun h => by omega

theorem nodup_mountOrder {vs : List Volume} (h : vs.Nodup) (runlevel : Int) :
    (mountOrder vs runlevel).Nodup :=
  (byLevel_perm (nodup_levelsUp runlevel) _ _).nodup_iff.mpr ((h.filter _).filter _)

/-- Volumes of the levels that there are. -/
def Leveled (vs : List Volume) : Prop := ∀ v ∈ vs, 0 ≤ v.level ∧ v.level ≤ maxRunlevel

theorem unmountOrder_perm {vs : List Volume} (h : Leveled vs) : (unmountOrder vs).Perm vs := by
  refine (byLevel_perm (nodup_levelsDown runlevelData) _ _).trans (List.Perm.of_eq ?_)
  rw [List.filter_eq_self]
  exact fun v hv => decide_eq_true (mem_levelsDown.mpr (h v hv))

/-! ## Mounting -/

/-- The loop device that a volume leaves attached that is not mounted. -/
def leftBy (spec : StateSpec) (o : Outcome) (call : Nat) (v : Volume) : List Nat :=
  if spec ≠ .unknown ∧ o = .attached ∧ v.via = .loop then [call] else []

/-- A mount of one volume: it is mounted, or there is an error, or a fault. -/
theorem pvVolumesMountVolume_ok {io : MountIo} (mntpoint : CStr) {s : PvState} {w : Visit}
    {v : Volume} (h : mountRet s.spec (io.outcome w.kernel.call) v = .ok) :
    ∃ m : Mount, pvVolumesMountVolume io mntpoint s w v =
      ({ v with mount := some m },
        { w with
          kernel := ⟨w.kernel.call + 1, m.dest :: w.kernel.mounts,
            m.loop.toList ++ w.kernel.loops⟩
          visited := w.visited ++ [v] }, true) := by
  refine ⟨⟨v.path mntpoint s, v.mntpoint s,
    if v.via = .loop then some w.kernel.call else none⟩, ?_⟩
  rw [pvVolumesMountVolume]
  dsimp only
  rw [h]

theorem pvVolumesMountVolume_error {io : MountIo} (mntpoint : CStr) {s : PvState} {w : Visit}
    {v : Volume} (h : mountRet s.spec (io.outcome w.kernel.call) v = .error) :
    pvVolumesMountVolume io mntpoint s w v =
      (v, { w with
        kernel := ⟨w.kernel.call + 1, w.kernel.mounts,
          leftBy s.spec (io.outcome w.kernel.call) w.kernel.call v ++ w.kernel.loops⟩
        ret := .error }, false) := by
  rw [pvVolumesMountVolume]
  dsimp only
  rw [h, leftBy]
  by_cases hspec : s.spec = .unknown
  · simp [hspec]
  · by_cases hio : io.outcome w.kernel.call = .attached
    · by_cases hvia : v.via = .loop <;> simp [hspec, hio, hvia]
    · simp [hio]

/-- Mounting fails at volume `n` of the order, or behind the last one. -/
structure FailsAt (io : MountIo) (spec : StateSpec) (order : List Volume) (call n : Nat) :
    Prop where
  before : ∀ j < n, ∀ v, order[j]? = some v → mountRet spec (io.outcome (call + j)) v = .ok
  bound : n ≤ order.length
  here : ∀ v, order[n]? = some v → mountRet spec (io.outcome (call + n)) v = .error

theorem FailsAt.cons {io : MountIo} {spec : StateSpec} {v : Volume} {order : List Volume}
    {call n : Nat} (h : FailsAt io spec (v :: order) call (n + 1)) :
    FailsAt io spec order (call + 1) n where
  before j hj u hu := by
    have hok := h.before (j + 1) (by omega) u (by simpa using hu)
    rwa [← Nat.add_assoc, Nat.add_right_comm] at hok
  bound := by simpa using h.bound
  here u hu := by
    have herr := h.here u (by simpa using hu)
    rwa [← Nat.add_assoc, Nat.add_right_comm] at herr

/-- A pass that does not fault ends somewhere. -/
theorem exists_failsAt {io : MountIo} (mntpoint : CStr) {s : PvState} {xs : List Volume} {w : Visit}
    (h : (passAll (pvVolumesMountVolume io mntpoint s) xs w).2.2 = true ∨
      (passAll (pvVolumesMountVolume io mntpoint s) xs w).2.1.ret ≠ .fault) :
    ∃ n, FailsAt io s.spec xs w.kernel.call n := by
  induction xs generalizing w with
  | nil => exact ⟨0, fun j hj => absurd hj (by omega), Nat.le_refl 0, fun v hv => by cases hv⟩
  | cons x xs ih =>
    cases hret : mountRet s.spec (io.outcome w.kernel.call) x with
    | ok =>
      obtain ⟨m, hok⟩ := pvVolumesMountVolume_ok mntpoint hret
      rw [passAll_cons, hok, if_pos rfl] at h
      obtain ⟨n, hn⟩ := ih h
      refine ⟨n + 1, fun j hj v hv => ?_, by simpa using hn.bound, fun v hv => ?_⟩
      · cases j with
        | zero =>
          obtain rfl := Option.some.inj hv
          exact hret
        | succ j =>
          rw [← Nat.add_assoc, Nat.add_right_comm]
          exact hn.before j (by omega) v (by simpa using hv)
      · rw [← Nat.add_assoc, Nat.add_right_comm]
        exact hn.here v (by simpa using hv)
    | error =>
      refine ⟨0, fun j hj => absurd hj (by omega), Nat.zero_le _, fun v hv => ?_⟩
      obtain rfl := Option.some.inj hv
      exact hret
    | fault =>
      rw [passAll_cons, pvVolumesMountVolume] at h
      simp [hret] at h

/-- What volume `n` of the order leaves attached. -/
def leftAt (io : MountIo) (spec : StateSpec) (order : List Volume) (call n : Nat) : List Nat :=
  order[n]?.elim [] (leftBy spec (io.outcome (call + n)) (call + n))

/-- The mounts of one pass: the first `n` volumes are mounted, the rest is as it was. -/
theorem passAll_mount {io : MountIo} (mntpoint : CStr) {s : PvState} {xs : List Volume} {n : Nat}
    {w : Visit} (h : FailsAt io s.spec xs w.kernel.call n) :
    ∃ ys, (passAll (pvVolumesMountVolume io mntpoint s) xs w).1 = ys ++ xs.drop n ∧
      List.Forall₂ (fun x y => ∃ m, y = { x with mount := some m }) (xs.take n) ys ∧
      let k := (passAll (pvVolumesMountVolume io mntpoint s) xs w).2.1.kernel
      k.mounts.Perm (points ys ++ w.kernel.mounts) ∧
      k.loops.Perm (devices ys ++ (leftAt io s.spec xs w.kernel.call n ++ w.kernel.loops)) := by
  induction n generalizing xs w with
  | zero =>
    refine ⟨[], ?_⟩
    cases xs with
    | nil => exact ⟨rfl, .nil, .refl _, .refl _⟩
    | cons x xs =>
      have herr := pvVolumesMountVolume_error mntpoint (h.here x rfl)
      rw [passAll_cons, herr, if_neg Bool.false_ne_true]
      exact ⟨rfl, .nil, .refl _, .refl _⟩
  | succ n ih =>
    cases xs with
    | nil => exact absurd h.bound (by simp)
    | cons x xs =>
      obtain ⟨m, hok⟩ := pvVolumesMountVolume_ok mntpoint (h.before 0 (by omega) x rfl)
      rw [passAll_cons, hok, if_pos rfl]
      dsimp only
      generalize hw : ({ w with
        kernel := ⟨w.kernel.call + 1, m.dest :: w.kernel.mounts, m.loop.toList ++ w.kernel.loops⟩
        visited := w.visited ++ [x] } : Visit) = w₁
      have hcall : w₁.kernel.call = w.kernel.call + 1 := by rw [← hw]
      have hmounts : w₁.kernel.mounts = m.dest :: w.kernel.mounts := by rw [← hw]
      have hloops : w₁.kernel.loops = m.loop.toList ++ w.kernel.loops := by rw [← hw]
      obtain ⟨ys, hys, hall, hpoints, hdevices⟩ := ih (w := w₁) (hcall ▸ h.cons)
      refine ⟨{ x with mount := some m } :: ys, ?_, .cons ⟨m, rfl⟩ hall, ?_, ?_⟩
      · rw [hys]
        rfl
      · refine hpoints.trans ?_
        rw [hmounts]
        exact List.perm_middle
      · refine hdevices.trans ?_
        have hleft : leftAt io s.spec xs w₁.kernel.call n
            = leftAt io s.spec (x :: xs) w.kernel.call (n + 1) := by
          rw [leftAt, leftAt, hcall, List.getElem?_cons_succ, Nat.add_assoc, Nat.add_comm 1 n]
        rw [hloops, hleft]
        have hswap := List.perm_append_comm_assoc
          (leftAt io s.spec (x :: xs) w.kernel.call (n + 1)) m.loop.toList w.kernel.loops
        refine ((hswap.append_left (devices ys)).trans ?_)
        refine (List.perm_append_comm_assoc _ _ _).trans (List.Perm.of_eq ?_)
        simp [devices]

theorem level_mount (io : MountIo) (mntpoint : CStr) (s : PvState) (w : Visit) (v : Volume) :
    (pvVolumesMountVolume io mntpoint s w v).1.level = v.level := by
  rw [pvVolumesMountVolume]
  dsimp only
  cases mountRet s.spec (io.outcome w.kernel.call) v <;> rfl

theorem perm_filter_not {vs done : List Volume} (hnodup : vs.Nodup) (hdone : done.Nodup)
    (hsub : ∀ v ∈ done, v ∈ vs) : vs.Perm (done ++ vs.filter (· ∉ done)) := by
  have hsplit := (List.filter_append_perm (fun v => decide (v ∈ done)) vs).symm
  have hfirst : (vs.filter fun v => decide (v ∈ done)).Perm done :=
    (List.perm_ext_iff_of_nodup (hnodup.filter _) hdone).mpr fun v => by
      simpa using hsub v
  refine hsplit.trans ((hfirst.append_right _).trans (List.Perm.of_eq ?_))
  simp only [decide_not]

/-- What the loops of `pv_volumes_mount` leave: the volumes before the one that fails are
mounted, and the others are as they were. -/
theorem mountVolumes_spec {io : MountIo} (mntpoint : CStr) {s : PvState} {vs : List Volume}
    {runlevel : Int} {k : Kernel} {n : Nat} (hnodup : vs.Nodup)
    (hat : FailsAt io s.spec (mountOrder vs runlevel) k.call n) :
    let r := mountVolumes io mntpoint s vs runlevel k
    let done := (mountOrder vs runlevel).take n
    r.1.length = vs.length ∧
      (∀ z ∈ vs.zip r.1, (z.1 ∈ done → ∃ m, z.2 = { z.1 with mount := some m }) ∧
        (z.1 ∉ done → z.2 = z.1)) ∧
      ∃ ys, r.1.Perm (ys ++ vs.filter (· ∉ done)) ∧
        r.2.1.kernel.mounts.Perm (points ys ++ k.mounts) ∧
        r.2.1.kernel.loops.Perm
          (devices ys ++ (leftAt io s.spec (mountOrder vs runlevel) k.call n ++ k.loops)) := by
  obtain ⟨hlength, hkept, hpass⟩ := sweep_spec Volume.idle (level_mount io mntpoint s)
    (nodup_levelsUp runlevel) vs ⟨k, [], .ok⟩
  have hr : sweep (fun i v => !(decide (Volume.level v = i) && v.idle))
      (pvVolumesMountVolume io mntpoint s) (levelsUp runlevel) vs ⟨k, [], .ok⟩
        = mountVolumes io mntpoint s vs runlevel k := rfl
  rw [hr] at hlength hkept hpass
  generalize mountVolumes io mntpoint s vs runlevel k = r at hlength hkept hpass
  have hfst := map_fst_swept (levelsUp runlevel) Volume.level Volume.idle hlength
  obtain ⟨ys, hys, hall, hpoints, hdevices⟩ := passAll_mount (w := ⟨k, [], .ok⟩) mntpoint hat
  rw [hfst, ← mountOrder] at hpass
  rw [hpass] at hys hpoints hdevices
  have hlen : ys.length = n := by
    rw [← hall.length_eq, List.length_take, Nat.min_eq_left hat.bound]
  obtain ⟨hpairs, hperm⟩ := swept_take (nodup_levelsUp runlevel) hnodup hlength
    (fun z hz => (hkept z hz).2) (by rw [hfst]; exact hys) hlen
  rw [← mountOrder] at hpairs hperm
  refine ⟨hlength, fun z hz => ⟨fun hin => ?_, (hpairs z hz).2⟩, ys, hperm, hpoints, hdevices⟩
  exact (List.forall₂_iff_zip.mp hall).2 ((hpairs z hz).1 hin)

/-- Firmware and modules are no volumes, and have no loop device. -/
theorem mountFirmwareModules_binds (io : MountIo) (s : PvState) (k : Kernel) :
    ∃ binds, (pvVolumesMountFirmwareModules io s k).1.mounts = binds ++ k.mounts ∧
      (pvVolumesMountFirmwareModules io s k).1.loops = k.loops := by
  have hbind : ∀ (k : Kernel) (dest : CStr), ∃ binds,
      (mountBind io k dest).1.mounts = binds ++ k.mounts ∧
        (mountBind io k dest).1.loops = k.loops := by
    intro k dest
    rw [mountBind]
    split
    · exact ⟨[dest], rfl, rfl⟩
    · exact ⟨[], rfl, rfl⟩
  have hfirmware : ∃ binds, (mountFirmware io s k).1.mounts = binds ++ k.mounts ∧
      (mountFirmware io s k).1.loops = k.loops := by
    rw [mountFirmware]
    split
    · exact ⟨[], rfl, rfl⟩
    · split
      · exact hbind _ _
      · exact ⟨[], rfl, rfl⟩
  have hmodules : ∀ k : Kernel, ∃ binds, (mountModules io s k).1.mounts = binds ++ k.mounts ∧
      (mountModules io s k).1.loops = k.loops := by
    intro k
    rw [mountModules]
    split
    · split
      · exact hbind _ _
      · exact ⟨[], rfl, rfl⟩
    · exact ⟨[], rfl, rfl⟩
  rw [pvVolumesMountFirmwareModules]
  split
  · obtain ⟨binds, hmounts, hloops⟩ := hfirmware
    obtain ⟨binds', hmounts', hloops'⟩ := hmodules (mountFirmware io s k).1
    exact ⟨binds' ++ binds, by rw [hmounts', hmounts, List.append_assoc], hloops'.trans hloops⟩
  · exact hfirmware

/-- What `pv_volumes_mount` leaves, is what its loops leave and no further loop device. -/
theorem pvVolumesMount_eq (io : MountIo) (mntpoint : CStr) (s : PvState) (vs : List Volume)
    (runlevel : Int) (k : Kernel) :
    let r := mountVolumes io mntpoint s vs runlevel k
    let m := pvVolumesMount io mntpoint s vs runlevel k
    m.volumes = r.1 ∧ (∃ binds, m.kernel.mounts = binds ++ r.2.1.kernel.mounts) ∧
      m.kernel.loops = r.2.1.kernel.loops := by
  dsimp only
  rw [pvVolumesMount]
  dsimp only
  split
  · split
    · obtain ⟨binds, hmounts, hloops⟩ := mountFirmwareModules_binds io s
        (mountVolumes io mntpoint s vs runlevel k).2.1.kernel
      exact ⟨rfl, ⟨binds, hmounts⟩, hloops⟩
    · exact ⟨rfl, ⟨[], rfl⟩, rfl⟩
  · exact ⟨rfl, ⟨[], rfl⟩, rfl⟩

/-! ## Unmounting -/

@[simp] theorem level_stopped (v : Volume) : v.stopped.level = v.level := by
  rw [Volume.stopped, Volume.level, Volume.level]
  cases v.plat with
  | none => rfl
  | some p =>
    dsimp only [Option.map_some, Option.elim_some]
    rw [stopPlatform]
    split
    · rfl
    · split
      · rfl
      · split <;> rfl

/-- Once all platforms are stopped, no volume is gone past. -/
theorem idle_stopped {v : Volume} (h : ∀ p ∈ v.plat, PidOk p) : v.stopped.idle = true := by
  rw [Volume.stopped, Volume.idle]
  cases hplat : v.plat with
  | none => rfl
  | some p =>
    rw [Option.map_some, Option.all_some, stopPlatform, if_neg (not_not.mpr rfl),
      if_neg fun h => absurd h.1 (by decide)]
    split
    · rfl
    · rename_i hnot
      refine decide_eq_true fun hstarted => hnot ⟨hstarted, ?_⟩
      exact ((h p hplat).2 hstarted).1

theorem held_stopped {β : Type} (f : Mount → List β) (vs : List Volume) :
    held f (vs.map Volume.stopped) = held f vs :=
  held_congr f (by rw [List.map_map]; rfl)

/-- The part of a pass over mounted volumes. -/
theorem passAll_unmount {pre : List Volume} (rest : List Volume) {w : Visit}
    (hmounted : ∀ v ∈ pre, v.mount.isSome) (hpoints : (points pre).Subperm w.kernel.mounts)
    (hdevices : (devices pre).Subperm w.kernel.loops) :
    ∃ k, (passAll pvVolumesUnmountVolume (pre ++ rest) w).2.1
        = (passAll pvVolumesUnmountVolume rest
            { w with kernel := k, visited := w.visited ++ pre }).2.1 ∧
      w.kernel.mounts.Perm (points pre ++ k.mounts) ∧
      w.kernel.loops.Perm (devices pre ++ k.loops) := by
  induction pre generalizing w with
  | nil => exact ⟨w.kernel, by rw [List.append_nil]; rfl, .refl _, .refl _⟩
  | cons v pre ih =>
    rw [List.forall_mem_cons] at hmounted
    obtain ⟨m, hm⟩ := Option.isSome_iff_exists.mp hmounted.1
    have hpointsv : points (v :: pre) = m.dest :: points pre := by
      rw [points, held_cons, hm]
      rfl
    have hdevicesv : devices (v :: pre) = m.loop.toList ++ devices pre := by
      rw [devices, held_cons, hm, Option.toList_some, List.flatMap_singleton]
      rfl
    rw [hpointsv] at hpoints
    rw [hdevicesv] at hdevices
    have hdest : m.dest ∈ w.kernel.mounts := hpoints.subset (List.mem_cons_self ..)
    have hmounts := List.perm_cons_erase hdest
    have hpoints' : (points pre).Subperm (w.kernel.mounts.erase m.dest) :=
      (List.subperm_cons m.dest).mp (hpoints.trans hmounts.subperm)
    -- what the step leaves
    obtain ⟨loops, hstep, hloops, hdevices'⟩ : ∃ loops,
        pvVolumesUnmountVolume w v = (v, { w with
          kernel := ⟨w.kernel.call, w.kernel.mounts.erase m.dest, loops⟩
          visited := w.visited ++ [v] }, true) ∧
        w.kernel.loops.Perm (m.loop.toList ++ loops) ∧ (devices pre).Subperm loops := by
      rw [pvVolumesUnmountVolume]
      simp only [hm, if_pos hdest]
      cases hloop : m.loop with
      | none =>
        rw [hloop] at hdevices
        exact ⟨_, rfl, .refl _, hdevices⟩
      | some fd =>
        rw [hloop] at hdevices
        have hfd : fd ∈ w.kernel.loops := hdevices.subset (List.mem_cons_self ..)
        have hperm := List.perm_cons_erase hfd
        refine ⟨w.kernel.loops.erase fd, ?_, hperm, ?_⟩
        · simp only [if_pos hfd]
        · exact (List.subperm_cons fd).mp (hdevices.trans hperm.subperm)
    obtain ⟨k, hrun, hmounts', hloops'⟩ := ih (w := ⟨⟨w.kernel.call,
      w.kernel.mounts.erase m.dest, loops⟩, w.visited ++ [v], w.ret⟩) hmounted.2 hpoints' hdevices'
    refine ⟨k, ?_, ?_, ?_⟩
    · rw [List.cons_append, passAll_cons, hstep, if_pos rfl]
      refine hrun.trans ?_
      rw [List.append_assoc, List.singleton_append]
    · rw [hpointsv]
      exact hmounts.trans (hmounts'.cons _)
    · rw [hdevicesv, List.append_assoc]
      exact hloops.trans (hloops'.append_left _)

/-- A pass unmounts what it finds mounted, and ends at the first volume that is not. -/
theorem unmount_cases {L : List Volume} {w : Visit} (hpoints : (points L).Subperm w.kernel.mounts)
    (hdevices : (devices L).Subperm w.kernel.loops) :
    ∃ pre rest, L = pre ++ rest ∧ (∀ v ∈ pre, v.mount.isSome) ∧ (∀ v ∈ rest.head?, v.mount = none) ∧
      let u := (passAll pvVolumesUnmountVolume L w).2.1
      u.visited = w.visited ++ (pre ++ rest.take 1) ∧
        w.kernel.mounts.Perm (points pre ++ u.kernel.mounts) ∧
        w.kernel.loops.Perm (devices pre ++ u.kernel.loops) := by
  generalize hpre : L.takeWhile (·.mount.isSome) = pre
  generalize hrest : L.dropWhile (·.mount.isSome) = rest
  have hL : L = pre ++ rest := by rw [← hpre, ← hrest, List.takeWhile_append_dropWhile]
  have hmounted : ∀ v ∈ pre, v.mount.isSome := by
    rw [← hpre]
    exact fun v hv => List.mem_takeWhile_imp (p := fun v : Volume => v.mount.isSome) hv
  have hhead : ∀ v ∈ rest.head?, v.mount = none := by
    intro v hv
    have hnot := List.head?_dropWhile_not (p := fun v : Volume => v.mount.isSome) (l := L)
    rw [hrest, Option.mem_def.mp hv] at hnot
    simpa using hnot
  rw [hL, points, held_append] at hpoints
  rw [hL, devices, held_append] at hdevices
  obtain ⟨k, hrun, hmounts, hloops⟩ := passAll_unmount rest hmounted
    ((List.sublist_append_left _ _).subperm.trans hpoints)
    ((List.sublist_append_left _ _).subperm.trans hdevices)
  refine ⟨pre, rest, hL, hmounted, hhead, ?_⟩
  rw [hL, hrun]
  cases rest with
  | nil => exact ⟨by simp, hmounts, hloops⟩
  | cons v rest =>
    have hnone : v.mount = none := hhead v rfl
    have hlast : (passAll pvVolumesUnmountVolume (v :: rest)
        { w with kernel := k, visited := w.visited ++ pre }).2.1
          = ⟨k, w.visited ++ pre ++ [v], .error⟩ := by
      rw [passAll_cons, pvVolumesUnmountVolume]
      simp only [hnone]
      rfl
    rw [hlast]
    exact ⟨by simp, hmounts, hloops⟩

/-! ## Undone -/

/-- What mounting starts from. What it is to mount is not mounted yet, and what the volumes
hold is there. -/
structure Ready (vs : List Volume) (runlevel : Int) (k : Kernel) : Prop where
  distinct : (vs.map (·.addr)).Nodup
  leveled : Leveled vs
  plats : ∀ v ∈ vs, ∀ p ∈ v.plat, PidOk p
  fresh : ∀ v ∈ mountOrder vs runlevel, v.mount = none
  points : (points vs).Subperm k.mounts
  devices : (devices vs).Subperm k.loops

/-- A mount that failed is undone: unmounting gets to every volume, it unmounts those that
are mounted and nothing else, and no loop device is left of any of them. -/
structure Undone (vs : List Volume) (k : Kernel) (m : MountRun) (u : Visit) : Prop where
  visited : ∀ v ∈ m.volumes, v.stopped ∈ u.visited
  unmounted : m.kernel.mounts.Perm (points m.volumes ++ u.kernel.mounts)
  detached : k.loops.Perm (devices vs ++ u.kernel.loops)

/-- The shutdown is one pass over all volumes. -/
theorem shutdownVolumes_eq {vs : List Volume} (hplats : ∀ v ∈ vs, ∀ p ∈ v.plat, PidOk p)
    (k : Kernel) :
    shutdownVolumes vs k =
      (passAll pvVolumesUnmountVolume ((unmountOrder vs).map Volume.stopped) ⟨k, [], .ok⟩).2.1 := by
  have hlevel : ∀ w v, (pvVolumesUnmountVolume w v).1.level = v.level := by
    intro w v
    rw [pvVolumesUnmountVolume]
    dsimp only
    split
    · rfl
    · split
      · split
        · rfl
        · split <;> rfl
      · rfl
  obtain ⟨hlength, -, hpass⟩ := sweep_spec Volume.idle hlevel (nodup_levelsDown runlevelData)
    (vs.map Volume.stopped) ⟨k, [], .ok⟩
  have hidle : (vs.map Volume.stopped).filter Volume.idle = vs.map Volume.stopped := by
    rw [List.filter_eq_self, List.forall_mem_map]
    exact fun v hv => idle_stopped (hplats v hv)
  rw [map_fst_swept _ _ _ hlength, hidle, byLevel_map] at hpass
  simp only [level_stopped] at hpass
  exact (congrArg (·.2.1) hpass).symm

/-- A volume before and after the mount that fails. -/
theorem mem_zip_mount {io : MountIo} (mntpoint : CStr) {s : PvState} {vs : List Volume}
    {runlevel : Int} {k : Kernel} {n : Nat} (hnodup : vs.Nodup)
    (hat : FailsAt io s.spec (mountOrder vs runlevel) k.call n) {z : Volume × Volume}
    (hz : z ∈ vs.zip (mountVolumes io mntpoint s vs runlevel k).1) :
    z.2.addr = z.1.addr ∧ z.2.plat = z.1.plat ∧
      (z.2.mount.isSome ↔ z.1.mount.isSome ∨ z.1 ∈ (mountOrder vs runlevel).take n) := by
  obtain ⟨-, hpairs, -⟩ := mountVolumes_spec mntpoint hnodup hat
  by_cases hin : z.1 ∈ (mountOrder vs runlevel).take n
  · obtain ⟨m, hm⟩ := (hpairs z hz).1 hin
    rw [hm]
    exact ⟨rfl, rfl, by simp [hin]⟩
  · rw [(hpairs z hz).2 hin]
    exact ⟨rfl, rfl, by simp [hin]⟩

/-- The volumes to unmount, each as it was before the mount and as it is after. -/
theorem unmountOrder_zip {vs us : List Volume} (hlength : us.length = vs.length)
    (hlevel : ∀ z ∈ vs.zip us, z.2.level = z.1.level) :
    ∃ O : List (Volume × Volume), (∀ z ∈ O, z ∈ vs.zip us) ∧
      O.map Prod.fst = unmountOrder vs ∧ O.map Prod.snd = unmountOrder us := by
  refine ⟨byLevel (levelsDown runlevelData) (fun z => z.1.level) (vs.zip us),
    fun z hz => (mem_byLevel.mp hz).2, ?_, ?_⟩
  · rw [← byLevel_map, List.map_fst_zip (Nat.le_of_eq hlength.symm)]
    rfl
  · have hcongr : byLevel (levelsDown runlevelData) (fun z => z.1.level) (vs.zip us)
        = byLevel (levelsDown runlevelData) (fun z => z.2.level) (vs.zip us) := by
      refine List.flatMap_congr fun i _ => List.filter_congr fun z hz => ?_
      simp only [hlevel z hz]
    rw [hcongr, ← byLevel_map, List.map_snd_zip (Nat.le_of_eq hlength)]
    rfl

/-- A pass gets through a list, exactly if all but its last element are mounted. -/
theorem visited_iff {L pre rest : List Volume} (hL : L = pre ++ rest) (hnodup : L.Nodup)
    (hpre : ∀ v ∈ pre, v.mount.isSome) (hrest : ∀ v ∈ rest.head?, v.mount = none) :
    ((∀ v ∈ L, v ∈ pre ++ rest.take 1) ↔ ∀ v ∈ L.dropLast, v.mount.isSome) ∧
      ((∀ v ∈ L, v ∈ pre ++ rest.take 1) → rest.take 1 = rest ∧ ∀ v ∈ rest, v.mount = none) := by
  subst hL
  rcases rest with _ | ⟨x, _ | ⟨y, rest⟩⟩
  · rw [List.append_nil]
    exact ⟨⟨fun _ v hv => hpre v ((List.dropLast_sublist pre).subset hv), fun _ v hv => by simpa using hv⟩,
      fun _ => ⟨rfl, fun v hv => by cases hv⟩⟩
  · rw [List.dropLast_concat]
    exact ⟨⟨fun _ => hpre, fun _ v hv => hv⟩,
      fun _ => ⟨rfl, fun v hv => hrest v (List.mem_singleton.mp hv ▸ rfl)⟩⟩
  · have hmissed : ¬ ∀ v ∈ pre ++ x :: y :: rest, v ∈ pre ++ (x :: y :: rest).take 1 := by
      intro h
      have hy := h y (by simp)
      rw [List.nodup_append] at hnodup
      rcases List.mem_append.mp hy with hy | hy
      · exact hnodup.2.2 y hy y (by simp) rfl
      · have hyx : y = x := List.mem_singleton.mp hy
        exact (List.nodup_cons.mp hnodup.2.1).1 (hyx ▸ List.mem_cons_self ..)
    have hx : ¬ ∀ v ∈ (pre ++ x :: y :: rest).dropLast, v.mount.isSome := by
      intro h
      have hsome := h x (by simp)
      rw [hrest x rfl] at hsome
      cases hsome
    exact ⟨iff_of_false hmissed hx, fun h => absurd h hmissed⟩

theorem failsAt_of_error {io : MountIo} {mntpoint : CStr} {s : PvState} {vs : List Volume}
    {runlevel : Int} {k : Kernel}
    (h : (pvVolumesMount io mntpoint s vs runlevel k).ret = .error) :
    ∃ n, FailsAt io s.spec (mountOrder vs runlevel) k.call n := by
  obtain ⟨hlength, -, hpass⟩ := sweep_spec Volume.idle (level_mount io mntpoint s)
    (nodup_levelsUp runlevel) vs ⟨k, [], .ok⟩
  have hr : sweep (fun i v => !(decide (Volume.level v = i) && v.idle))
      (pvVolumesMountVolume io mntpoint s) (levelsUp runlevel) vs ⟨k, [], .ok⟩
        = mountVolumes io mntpoint s vs runlevel k := rfl
  rw [hr] at hlength hpass
  rw [map_fst_swept _ _ _ hlength, ← mountOrder] at hpass
  refine exists_failsAt (w := ⟨k, [], .ok⟩) mntpoint ?_
  rw [hpass]
  rw [pvVolumesMount] at h
  dsimp only at h
  by_cases hok : (mountVolumes io mntpoint s vs runlevel k).2.2 = true
  · exact .inl hok
  · rw [if_neg hok] at h
    exact .inr fun hfault => by rw [hfault] at h; cases h

/-- A platform as it is loaded. -/
def loadedPlat (slot : Nat) (name : CStr) (runlevel : Int) : Platform :=
  ⟨⟨0, slot⟩, name, some (str "lxc"), some (str "lxc.container.conf"), 0, .installed, runlevel,
    true, false⟩

/-- An image of a platform as it is loaded. -/
def loadedImage (addr : Nat) (name : CStr) (p : Platform) : Volume :=
  ⟨addr, name, .loopimg, some p, none⟩

/-- The image of a root platform and the one of an app. -/
def osAndApp : List Volume :=
  [loadedImage 0 (str "os.squashfs") (loadedPlat 0 (str "os") runlevelRoot),
    loadedImage 1 (str "app.squashfs") (loadedPlat 1 (str "app") runlevelApp)]

/-- Two images of a root platform. -/
def osTwice : List Volume :=
  [loadedImage 0 (str "os.squashfs") (loadedPlat 0 (str "os") runlevelRoot),
    loadedImage 1 (str "lib.squashfs") (loadedPlat 0 (str "os") runlevelRoot)]

/-- The second call fails. -/
def failsSecond : MountIo := ⟨fun n => if n = 1 then .failed else .mounted, fun _ => false, none⟩

/-- A state of which the mount reads the spec and the revision. -/
def mountedState : PvState := pvStateNew 0 (str "1") .system1

theorem ready_loaded {vs : List Volume} (hdistinct : (vs.map (·.addr)).Nodup)
    (hvs : ∀ v ∈ vs, ∃ addr name slot plat, ∃ runlevel : Int, 0 ≤ runlevel ∧ runlevel ≤ 3 ∧
      v = loadedImage addr name (loadedPlat slot plat runlevel)) :
    Ready vs runlevelData ⟨0, [], []⟩ := by
  have hmount : ∀ v ∈ vs, v.mount = none := by
    intro v hv
    obtain ⟨addr, name, slot, plat, runlevel, -, -, rfl⟩ := hvs v hv
    rfl
  refine ⟨hdistinct, fun v hv => ?_, fun v hv p hp => ?_,
    fun v hv => hmount v (mem_mountOrder.mp hv).2.1, ?_, ?_⟩
  · obtain ⟨addr, name, slot, plat, runlevel, hlow, hhigh, rfl⟩ := hvs v hv
    exact ⟨hlow, hhigh⟩
  · obtain ⟨addr, name, slot, plat, runlevel, -, -, rfl⟩ := hvs v hv
    obtain rfl := Option.some.inj hp
    exact ⟨Int.le_refl 0, fun hstarted => by cases hstarted⟩
  · rw [points, held_fresh _ hmount]
  · rw [devices, held_fresh _ hmount]

theorem ready_osAndApp : Ready osAndApp runlevelData ⟨0, [], []⟩ := by
  refine ready_loaded (by decide) ?_
  rw [osAndApp, List.forall_mem_cons, List.forall_mem_singleton]
  exact ⟨⟨_, _, _, _, _, by decide, by decide, rfl⟩, ⟨_, _, _, _, _, by decide, by decide, rfl⟩⟩

theorem ready_osTwice : Ready osTwice runlevelData ⟨0, [], []⟩ := by
  refine ready_loaded (by decide) ?_
  rw [osTwice, List.forall_mem_cons, List.forall_mem_singleton]
  exact ⟨⟨_, _, _, _, _, by decide, by decide, rfl⟩, ⟨_, _, _, _, _, by decide, by decide, rfl⟩⟩

end Pantavisor.Volumes
