/-
Pantavisor.Controller.Commit — when the committed revision changes.

`pv_rev` is what the boot loader falls back to, so a revision that gets there
without having been tested can not be rolled back. `commit_safety` lists
everything that is true at a step that changes it, in any run of the device.
-/
import Pantavisor.Controller.Invariant

namespace Pantavisor.Controller

open Pantavisor.Lib Pantavisor.Bootloader

/-- The circumstances in which the process `pv` commits with the outcomes `io`. -/
structure Commits (cfg : Config) (d : Device) (pv : Pv) (io : StepIo) : Prop where
  /-- in `_pv_wait`, with every platform running -/
  wait : pv.next = .wait
  alive : io.wait.exited = false
  /-- in a boot that tries the revision it runs -/
  tryBoot : pv.cmdline.tryRev = some pv.cmdline.rev
  running : pv.state = some pv.cmdline.rev
  /-- by `pv_update_finish`, of an update that is tested and past its delay -/
  finish : ∃ pv₁ u cmd next, pv₁.update = some u ∧ u.status = .updateTestingReboot ∧
    pv₁.timerCommit ≤ io.wait.waitUpdate.nowCheck ∧ pv₁.state = pv.state ∧
    d.process cfg io pv
      = { (finishUpdate cfg io.wait.waitUpdate.finish pv₁).2 with cmd := cmd, next := next }
  /-- after the network operations of this iteration, if the device has any -/
  online : pv.networkMode = true → pv.timerWaitDelay ≤ io.wait.nowDelay ∧ pv.unclaimed = false ∧
    io.wait.network.phAuth = true ∧ io.wait.network.trailAuth = true ∧
    io.wait.network.factoryMetaDone = true

/-- A commit point of a process at a step boundary. -/
theorem CommitPoint.commits {cfg : Config} {d : Device} {io : StepIo} {pv pv₁ : Pv} (h : Inv pv)
    (hnext : pv.next = .wait) (hpoint : CommitPoint cfg io (pv.atStep d.flash.env) pv₁) :
    Commits cfg d pv io := by
  obtain ⟨htry, hrun, -⟩ := hpoint.running (h.atStep d.flash.env) hnext
  obtain ⟨u, hu, hst⟩ := hpoint.testing
  obtain ⟨cmd, next, heq⟩ := hpoint.finish
  have htesting : pvUpdateIsTesting pv₁.update = true := by simp [pvUpdateIsTesting, hu, hst]
  exact { wait := hnext
          alive := hpoint.exited
          tryBoot := htry
          running := hrun
          finish := ⟨pv₁, u, cmd, next, hu, hst, hpoint.expired htesting, hpoint.state, heq⟩
          online := hpoint.online }

/-- A write of `pv_rev` is one of a commit, and of the revision that runs. -/
theorem commits_of_stores {cfg : Config} {d : Device} (h : DeviceInv d) {e : Event}
    {op : KeyOp CStr CStr} (hop : op ∈ d.stores cfg e) (hkey : op.key = keyRev) :
    ∃ pv io, d.ram = some pv ∧ (e = .step io ∨ ∃ writes, e = .powerLoss io writes) ∧
      Commits cfg d pv io ∧ op = .set keyRev pv.cmdline.rev := by
  obtain ⟨pv, io, hram, he, hmem⟩ := Device.mem_stores hop
  refine ⟨pv, io, hram, he, ?_⟩
  rcases Device.mem_process_writes (h pv hram) hmem with
    ⟨-, u, rev, -, -, rfl⟩ | rfl | ⟨hnext, pv₁, hpoint, hcommit⟩
  · exact absurd hkey.symm keyRev_ne_keyTry
  · exact absurd hkey.symm keyRev_ne_keyTry
  · rcases mem_commitWrites hcommit with rfl | rfl
    · obtain ⟨-, -, hrev⟩ := hpoint.running ((h pv hram).atStep d.flash.env) hnext
      exact ⟨hpoint.commits (h pv hram) hnext, by rw [hrev]; rfl⟩
    · exact absurd hkey.symm keyRev_ne_keyTry

/-- **Commit safety**: in any run, a step that changes the stored `pv_rev` is a
commit of the revision that runs, in a boot that tries it. -/
theorem commit_safety (cfg : Config) {d : Device} (h : (deviceSystem cfg).Reachable d) (e : Event)
    (hne : denote (d.step cfg e).flash.env keyRev ≠ denote d.flash.env keyRev) :
    ∃ pv io, d.ram = some pv ∧ (e = .step io ∨ ∃ writes, e = .powerLoss io writes) ∧
      Commits cfg d pv io ∧
      denote (d.step cfg e).flash.env keyRev = some pv.cmdline.rev := by
  rw [Device.env_step, denote_foldl] at hne ⊢
  rcases valueAfter_cases keyRev (denote d.flash.env keyRev) (d.stores cfg e) with
    ⟨hsame, -⟩ | ⟨op, hop, hkey, hval⟩
  · exact absurd hsame hne
  · obtain ⟨pv, io, hram, he, hcommits, rfl⟩ := commits_of_stores (deviceInv_of_reachable h) hop hkey
    exact ⟨pv, io, hram, he, hcommits, hval⟩

/-- A device that boots revision 2 for the first time, after an update of
revision 1, and waits for its end. -/
def triedDevice : Device :=
  (deviceSystem .unattended).run
    { flash := ⟨[(str "pv_rev", str "1"), (str "pv_try", str "2")], false⟩, ram := none }
    [.boot false, .step .ok, .step .ok]

/-- The next wait commits revision 2. -/
theorem commit_safety_tried :
    ∃ pv io, triedDevice.ram = some pv ∧
      (Event.step .ok = .step io ∨ ∃ writes, Event.step .ok = .powerLoss io writes) ∧
      Commits .unattended triedDevice pv io ∧
      denote (triedDevice.step .unattended (.step .ok)).flash.env keyRev
        = some pv.cmdline.rev :=
  commit_safety .unattended ((System.Reachable.init (by exact ⟨rfl, rfl⟩)).run _) (.step .ok)
    (by decide +kernel)

end Pantavisor.Controller
