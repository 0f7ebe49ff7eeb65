/-
Pantavisor.Controller.Attempt — what an update that is not installed leaves of
the boot environment.

An attempt starts in `_pv_update` with an update that was not there before and
ends when `pv_update_finish` removes it. The failure branch of
`pv_update_finish` unsets `pv_try`, for an update that set it as for one that
never got that far; what it unsets then is the `pv_try` of an earlier update.
`attempt_keeps_env_iff` has the attempts that keep the environment.
-/
import Pantavisor.Controller.Commit

namespace Pantavisor.Controller

open Pantavisor.Lib Pantavisor.Bootloader

/-! ## One step of an attempt -/

/-- The step calls `pv_bootloader_set_installed`. -/
def Pv.callsInstalled (cfg : Config) (io : UpdateIo) (pv : Pv) : Bool :=
  decide (pv.next = .update) && (pvUpdateDownload cfg io.download pv).1 && io.install.linkObjects &&
    io.install.openJson && io.install.expandJsons

/-- The step fails in `trail_link_objects`. -/
def Pv.linkFails (cfg : Config) (io : UpdateIo) (pv : Pv) : Bool :=
  decide (pv.next = .update) && (pvUpdateDownload cfg io.download pv).1 && !io.install.linkObjects

/-- The entries that a device goes down by. -/
def PvStateT.Down (s : PvStateT) : Prop :=
  s = .rollback ∨ s = .error ∨ s = .reboot ∨ s = .poweroff ∨ s = .exit

/-- The process in the course of an attempt: an update that has not been
downloaded yet, or the way down. -/
def Pv.Attempting (pv : Pv) : Prop :=
  ∃ u, pv.update = some u ∧ (pv.next.Live ∧ u.status.Starting ∨ pv.next.Down)

/-- A download that succeeds is one of a pending update. -/
theorem pvUpdateDownload_ok {cfg : Config} {io : DownloadIo} {pv : Pv}
    (h : (pvUpdateDownload cfg io pv).1 = true) :
    pv.state.isSome ∧ ∃ u, pv.update = some u ∧ u.pending.isSome := by
  unfold pvUpdateDownload at h
  split at h
  · rename_i rev u hst hu
    split at h
    · cases h
    · rename_i hpending
      exact ⟨by rw [hst]; rfl, u, hu, Option.isSome_iff_ne_none.mpr hpending⟩
  · cases h

/-- The transfer of an update that does not get to `pv_bootloader_set_installed`
fails, as FAILED exactly if it fails in `trail_link_objects`. -/
theorem pvUpdateTransfer_fails {cfg : Config} {io : UpdateIo} {pv : Pv} {u u' : PvUpdate}
    (hnext : pv.next = .update) (hu : pv.update = some u) (hs : u.status.Starting)
    (hno : pv.callsInstalled cfg io = false)
    (hu' : (pvUpdateTransfer cfg io pv).2.update = some u') :
    (pvUpdateTransfer cfg io pv).1 = false ∧
      (u'.status = .updateFailed ↔ pv.linkFails cfg io = true) := by
  obtain ⟨status, hd, hfetching⟩ := pvUpdateDownload_spec cfg io.download hu hs
  obtain ⟨hk, u₁, hu₁, -, hpend, hstatus⟩ := hd
  have hquiet : u₁ = u' → (u'.status = .updateFailed ↔ False) := by
    rintro rfl
    rw [hstatus]
    exact iff_of_false hfetching.ne_failed id
  simp only [Pv.callsInstalled, Pv.linkFails, hnext, decide_true, Bool.true_and] at hno ⊢
  unfold pvUpdateTransfer at hu' ⊢
  dsimp only at hu' ⊢
  cases hok : (pvUpdateDownload cfg io.download pv).1 with
  | false =>
      rw [hok, Bool.not_false, if_pos rfl] at hu'
      simpa [hok] using hquiet (Option.some.inj (hu₁.symm.trans hu'))
  | true =>
      obtain ⟨hloaded, u₀, hu₀, hsome⟩ := pvUpdateDownload_ok hok
      obtain ⟨rev, hst⟩ := Option.isSome_iff_exists.mp (hk.state ▸ hloaded)
      obtain rfl := Option.some.inj (hu₀.symm.trans hu)
      obtain ⟨prev, hprev⟩ := Option.isSome_iff_exists.mp (hpend ▸ hsome)
      rw [hok, Bool.not_true, if_neg Bool.false_ne_true] at hu'
      rw [hok, Bool.true_and] at hno
      simp only [Bool.not_true, Bool.false_eq_true, if_false, Bool.true_and]
      simp only [pvUpdateInstall, hst, hu₁, hprev] at hu' ⊢
      cases hlink : io.install.linkObjects with
      | false =>
          simp only [hlink, Bool.not_false, if_true] at hu' ⊢
          rw [update_setStatus, hu₁, Option.map_some] at hu'
          rw [← Option.some.inj hu']
          simp
      | true =>
          have hjson : (!io.install.openJson || !io.install.expandJsons) = true := by
            rw [hlink, Bool.true_and, Bool.and_eq_false_iff] at hno
            rcases hno with h | h <;> simp [h]
          simp only [hlink, Bool.not_true, Bool.false_eq_true, if_false, hjson, if_true] at hu' ⊢
          exact ⟨trivial, hquiet (Option.some.inj (hu₁.symm.trans hu'))⟩

/-- What a step of an attempt stores and leaves of the update. -/
structure AttemptStep (cfg : Config) (io : StepIo) (pv pv' : Pv) : Prop where
  nv : pv'.nv = if pv.linkFails cfg io.update && io.update.finish.setFailed
    then pv.nv.writeAll [.unset keyTry] else pv.nv
  update : pv'.update = none ∨ pv'.Attempting ∧ pv.linkFails cfg io.update = false

/-- A step that does not get to `_pv_update` and stores nothing. -/
theorem AttemptStep.quiet {cfg : Config} {io : StepIo} {pv pv' : Pv} (hnext : pv.next ≠ .update)
    (hnv : pv'.nv = pv.nv) (hupdate : pv'.update = none ∨ pv'.Attempting) :
    AttemptStep cfg io pv pv' := by
  have hlink : pv.linkFails cfg io.update = false := by simp [Pv.linkFails, hnext]
  exact ⟨by simp [hlink, hnv], hupdate.imp_right fun h => ⟨h, hlink⟩⟩

theorem pvWait_attempt (cfg : Config) (io : StepIo) {pv : Pv} (hnext : pv.next = .wait)
    {u : PvUpdate} (hu : pv.update = some u) (hs : u.status.Starting) :
    AttemptStep cfg io pv (pvWait cfg io.wait pv) := by
  have hne : pv.next ≠ .update := by simp [hnext]
  rcases pvWait_spec cfg io.wait pv with ⟨-, next, hdown, heq⟩ | ⟨-, cmd, next, heq, hcase⟩
  · rw [heq]
    exact .quiet hne rfl (Or.inr ⟨u, hu, Or.inr (by rcases hdown with h | h <;> simp [PvStateT.Down, h])⟩)
  · obtain ⟨hspec, hwrites⟩ := pvWaitOps_spec cfg io.wait pv
    rw [heq]
    refine .quiet hne ?_ ?_
    · rcases hwrites with hnv | ⟨pv₁, hpoint, heq₁⟩
      · exact hnv
      · have hu₁ := hpoint.update
        rw [hu, Option.map_some, hs.tested] at hu₁
        have hw : finishWrites io.wait.waitUpdate.finish pv₁ = [] := by
          rw [finishWrites_of_fetching hu₁ (Or.inl (Or.inl hs)),
            if_neg fun h => UpdateState.Fetching.ne_failed (Or.inl hs) h.1]
        dsimp only
        rw [heq₁, (finishUpdate_spec cfg io.wait.waitUpdate.finish pv₁).nv, hw, hpoint.nv]
        rfl
    · cases hu' : (pvWaitOps cfg io.wait pv).2.update with
      | none => exact Or.inl rfl
      | some u' =>
          have hs' : u'.status.Starting := by
            rcases hspec.update u' hu' with h | h | ⟨u₀, h, rfl⟩
            · exact h
            · rwa [← Option.some.inj (hu.symm.trans h)]
            · rw [← Option.some.inj (hu.symm.trans h), hs.tested]
              exact hs
          have hlive : next.Live ∨ next.Down := by
            rcases hcase with h | ⟨-, h | h⟩
            · rcases hspec.next with h' | h' | h' | h' <;> rw [h'] at h <;>
                simp [← h, PvStateT.Live, PvStateT.Down]
            · simp [h, PvStateT.Live]
            · simp [h, PvStateT.Live]
          exact Or.inr ⟨u', hu', hlive.imp_left fun h => ⟨h, hs'⟩⟩

theorem pvUpdate_attempt (cfg : Config) (io : StepIo) {pv : Pv} (hnext : pv.next = .update)
    {u : PvUpdate} (hu : pv.update = some u) (hs : u.status.Starting)
    (hno : pv.callsInstalled cfg io.update = false) :
    AttemptStep cfg io pv (pvUpdate cfg io.update pv) := by
  have ht := pvUpdateTransfer_spec cfg io.update hu hs
  obtain ⟨u₁, hu₁, -, -, -, hstatus⟩ := ht.update
  obtain ⟨hret, hfailed⟩ := pvUpdateTransfer_fails hnext hu hs hno hu₁
  have hf := finishUpdate_spec cfg io.update.finish (pvUpdateTransfer cfg io.update pv).2
  have heq : pvUpdate cfg io.update pv = { (finishUpdate cfg io.update.finish
      (pvUpdateTransfer cfg io.update pv).2).2 with next := .wait } := by
    simp only [pvUpdate, hret, Bool.not_false, if_true]
  rw [heq]
  refine ⟨?_, ?_⟩
  · dsimp only
    rw [hf.nv, ht.failed hret, finishWrites_of_fetching hu₁ (hstatus hret)]
    simp only [hfailed, Bool.and_eq_true]
    split
    · rfl
    · rfl
  · dsimp only
    rw [hf.update, hu₁, Option.filter_some]
    split
    · rename_i hleaves
      have hretry := finishLeaves_of_fetching (hstatus hret) hleaves
      refine Or.inr ⟨⟨u₁, rfl, Or.inl ⟨Or.inl rfl, by simp [hretry, UpdateState.Starting]⟩⟩, ?_⟩
      by_contra hlink
      rw [Bool.not_eq_false] at hlink
      rw [hfailed.mpr hlink] at hretry
      cases hretry
    · exact Or.inl rfl

/-- **A step of an attempt** that does not call `pv_bootloader_set_installed`
stores nothing, unless it fails in `trail_link_objects`: then it ends the
attempt and unsets `pv_try`. -/
theorem pvRunState_attempt (cfg : Config) (io : StepIo) {pv : Pv} (h : pv.Attempting)
    (hno : pv.callsInstalled cfg io.update = false) :
    AttemptStep cfg io pv (pvRunState cfg io pv) := by
  obtain ⟨u, hu, hcase⟩ := h
  have hdown : ∀ next : PvStateT, next.Down → pv.next ≠ .update →
      AttemptStep cfg io pv { pv with next := next } :=
    fun next hd hne => .quiet hne rfl (Or.inr ⟨u, hu, Or.inr hd⟩)
  unfold pvRunState
  rcases hcase with ⟨hlive, hs⟩ | hd
  · rcases hlive with hnext | hnext | hnext | hnext <;> rw [hnext]
    · exact pvWait_attempt cfg io hnext hu hs
    · have hspec := pvCommand_spec io.command pv
      rcases hspec.update with ⟨hsame, -⟩ | ⟨hnone, -⟩
      · refine .quiet (by simp [hnext]) hspec.nv (Or.inr ⟨u, hsame.trans hu, ?_⟩)
        rcases hspec.next with h | h | h | h <;> simp [h, PvStateT.Live, PvStateT.Down, hs]
      · rw [hu] at hnone
        cases hnone
    · exact pvUpdate_attempt cfg io hnext hu hs hno
    · refine .quiet (by simp [hnext]) rfl (Or.inr ⟨u, hu, Or.inl ⟨?_, hs⟩⟩)
      dsimp only
      split <;> simp [PvStateT.Live]
  · rcases hd with hnext | hnext | hnext | hnext | hnext <;> rw [hnext]
    · dsimp only
      unfold pvRollback
      split
      · exact hdown .error (by simp [PvStateT.Down]) (by simp [hnext])
      · exact .quiet (by simp [hnext]) (keeps_setStatus pv .updateFailed).nv
          (Or.inr ⟨{ u with status := .updateFailed }, by simp [update_setStatus, hu],
            Or.inr (by simp [PvStateT.Down])⟩)
    · exact hdown .reboot (by simp [PvStateT.Down]) (by simp [hnext])
    · exact hdown .exit (by simp [PvStateT.Down]) (by simp [hnext])
    · exact hdown .exit (by simp [PvStateT.Down]) (by simp [hnext])
    · exact hdown .exit (by simp [PvStateT.Down]) (by simp [hnext])

/-! ## The run of an attempt -/

/-- A step of a device in the course of an attempt that does not call
`pv_bootloader_set_installed`. -/
def AttemptEvent (cfg : Config) (d : Device) (e : Event) : Prop :=
  ∃ io pv, e = .step io ∧ d.ram = some pv ∧ pv.update.isSome ∧
    (pv.atStep d.flash.env).callsInstalled cfg io.update = false

/-- A step that fails in `trail_link_objects` with a `pv_try` stored, and
unsets it. -/
def ClearsTry (cfg : Config) (d : Device) (e : Event) : Prop :=
  ∃ io pv, e = .step io ∧ d.ram = some pv ∧
    (pv.atStep d.flash.env).linkFails cfg io.update = true ∧
    io.update.finish.setFailed = true ∧ (denote d.flash.env keyTry).isSome

/-- An update attempt: from a process without an update, the step that starts
one, and the steps up to the one that removes it. -/
structure Attempt (cfg : Config) (d : Device) (start : StepIo) (es : List Event) : Prop where
  idle : ∃ pv, d.ram = some pv ∧ pv.update = none
  started : ∃ pv, (d.step cfg (.step start)).ram = some pv ∧ pv.next = .update
  ongoing : (deviceSystem cfg).Along (AttemptEvent cfg) (d.step cfg (.step start)) es
  finished : ∃ pv, ((deviceSystem cfg).run (d.step cfg (.step start)) es).ram = some pv ∧
    pv.update = none

/-- The values of `pv_try` and `pv_rev` are the same. -/
def SameEnv (f f' : Flash) : Prop :=
  denote f'.env keyTry = denote f.env keyTry ∧ denote f'.env keyRev = denote f.env keyRev

/-- The step of a running process. -/
theorem Device.step_on (cfg : Config) {d : Device} {pv : Pv} (hram : d.ram = some pv)
    (io : StepIo) :
    (d.step cfg (.step io)).flash.env
        = (d.process cfg io pv).nv.writes.foldl KeyOp.apply d.flash.env ∧
      ∀ pv', (d.step cfg (.step io)).ram = some pv' → pv' = d.process cfg io pv := by
  refine ⟨by rw [Device.env_step, Device.stores, hram], fun pv' hpv' => ?_⟩
  simp only [Device.step, hram] at hpv'
  split at hpv'
  · cases hpv'
  · exact (Option.some.inj hpv').symm

/-- The stored environment behind a step of an attempt. -/
theorem AttemptStep.env {cfg : Config} {io : StepIo} {d : Device} {pv : Pv}
    (hram : d.ram = some pv)
    (h : AttemptStep cfg io (pv.atStep d.flash.env) (d.process cfg io pv)) :
    (d.step cfg (.step io)).flash.env
      = if (pv.atStep d.flash.env).linkFails cfg io.update && io.update.finish.setFailed
        then unsetKey d.flash.env keyTry else d.flash.env := by
  rw [(Device.step_on cfg hram io).1, h.nv]
  split
  · rw [NvEnv.writes_writeAll]
    rfl
  · rfl

/-- From the middle of an attempt to its end. -/
theorem attempt_run (cfg : Config) (es : List Event) {d : Device} {pv₀ : Pv}
    (hram : d.ram = some pv₀) (hatt : pv₀.Attempting)
    (halong : (deviceSystem cfg).Along (AttemptEvent cfg) d es)
    (hend : ∃ pv, ((deviceSystem cfg).run d es).ram = some pv ∧ pv.update = none) :
    SameEnv d.flash ((deviceSystem cfg).run d es).flash ↔
      (deviceSystem cfg).Along (fun d e => ¬ ClearsTry cfg d e) d es := by
  induction es generalizing d pv₀ with
  | nil =>
      obtain ⟨pv, hpv, hnone⟩ := hend
      obtain ⟨u, hu, -⟩ := hatt
      rw [← Option.some.inj (hram.symm.trans hpv), hu] at hnone
      cases hnone
  | cons e es ih =>
      obtain ⟨⟨io, pv, rfl, hpv, -, hno⟩, hrest⟩ := halong
      obtain rfl := Option.some.inj (hram.symm.trans hpv)
      have hatt₀ : (pv₀.atStep d.flash.env).Attempting := hatt
      have hstep := pvRunState_attempt cfg io hatt₀ hno
      have henv := AttemptStep.env hram hstep
      have hproc := (Device.step_on cfg hram io).2
      have hclears : ClearsTry cfg d (.step io) ↔
          (pv₀.atStep d.flash.env).linkFails cfg io.update = true ∧
            io.update.finish.setFailed = true ∧ (denote d.flash.env keyTry).isSome := by
        constructor
        · rintro ⟨io', pv, heq, hpv, h⟩
          cases heq
          rwa [← Option.some.inj (hram.symm.trans hpv)] at h
        · exact fun h => ⟨io, pv₀, rfl, hram, h⟩
      rw [System.Along]
      rcases hstep.update with hnone | ⟨hatt', hlink⟩
      · -- the update is removed: no step of the attempt can follow
        cases es with
        | cons e' es =>
            obtain ⟨⟨io', pv', -, hpv', hsome, -⟩, -⟩ := hrest
            rw [hproc pv' hpv', Device.process, hnone] at hsome
            cases hsome
        | nil =>
            have hone : SameEnv d.flash (d.step cfg (.step io)).flash ↔
                ¬ ClearsTry cfg d (.step io) := by
              rw [SameEnv, henv, hclears]
              cases (pv₀.atStep d.flash.env).linkFails cfg io.update with
              | false => simp
              | true =>
                  cases io.update.finish.setFailed with
                  | false => simp
                  | true =>
                      simp only [Bool.and_self, if_true, denote_unsetKey, Function.update_self,
                        Function.update_of_ne keyRev_ne_keyTry, and_true, true_and]
                      cases denote d.flash.env keyTry <;> simp
            exact ⟨fun h => ⟨hone.mp h, trivial⟩, fun h => hone.mpr h.1⟩
      · have hkeep : (d.step cfg (.step io)).flash.env = d.flash.env := by
          rw [henv, hlink]
          rfl
        have hon : (d.step cfg (.step io)).ram = some (d.process cfg io pv₀) := by
          cases es with
          | nil =>
              obtain ⟨pv, hpv, -⟩ := hend
              rw [← hproc pv hpv]
              exact hpv
          | cons e' es =>
              obtain ⟨⟨io', pv', -, hpv', -⟩, -⟩ := hrest
              rw [← hproc pv' hpv']
              exact hpv'
        have hih := ih hon hatt' hrest hend
        have hnot : ¬ ClearsTry cfg d (.step io) := by
          rw [hclears, hlink]
          simp
        rw [SameEnv, hkeep] at hih
        exact hih.trans ⟨fun h => ⟨hnot, h⟩, fun h => h.2⟩

/-- **An attempt that installs nothing keeps the environment** exactly when no
step of it fails in `trail_link_objects` and unsets the `pv_try` it finds
stored. -/
theorem attempt_keeps_env_iff (cfg : Config) {d : Device} (h : (deviceSystem cfg).Reachable d)
    {start : StepIo} {es : List Event} (hatt : Attempt cfg d start es) :
    SameEnv d.flash ((deviceSystem cfg).run (d.step cfg (.step start)) es).flash ↔
      (deviceSystem cfg).Along (fun d e => ¬ ClearsTry cfg d e) (d.step cfg (.step start)) es := by
  obtain ⟨pv, hram, hidle⟩ := hatt.idle
  obtain ⟨pv₁, hram₁, hnext⟩ := hatt.started
  have hinv := deviceInv_of_reachable h
  obtain ⟨u, hu, hs⟩ := (deviceInv_of_reachable (h.step (.step start)) pv₁ hram₁).starting hnext
  have hkeep : (d.step cfg (.step start)).flash.env = d.flash.env := by
    rw [(Device.step_on cfg hram start).1, Device.process,
      pvRunState_idle cfg start ((hinv pv hram).atStep d.flash.env) hidle]
    rfl
  have hrun := attempt_run cfg es hram₁
    ⟨u, hu, Or.inl ⟨by simp [hnext, PvStateT.Live], hs⟩⟩ hatt.ongoing hatt.finished
  rw [SameEnv, hkeep] at hrun
  exact hrun

/-- A step whose calls succeed but for `trail_link_objects`. -/
def StepIo.noLink : StepIo :=
  { StepIo.ok with update := { StepIo.ok.update with
      install := { StepIo.ok.update.install with linkObjects := false } } }

/-- The steps of a boot until the device waits, gets a command to run a local
revision, and is about to start it. -/
def commandEvents (rev : Rev) : List Event :=
  [.boot false, .step .ok, .step .ok, .step (.localRun rev)]

/-- A device with revision 1 that has a command to run a local revision. -/
def commandedDevice : Device :=
  (deviceSystem .unattended).run ⟨⟨[(str "pv_rev", str "1")], false⟩, none⟩
    (commandEvents (str "locals/2"))

/-- That device once it runs the local revision, with a command to run another
one. -/
def transitionedDevice : Device :=
  (deviceSystem .unattended).run commandedDevice
    [.step .ok, .step .ok, .step .ok, .step .ok, .step (.localRun (str "locals/3"))]

/-- The attempt of a device with a command to run a local revision, when its
objects can not be linked. -/
theorem attempt_noLink {d : Device} {pv pv₁ pv₂ : Pv} (hram : d.ram = some pv)
    (hidle : pv.update = none) (hram₁ : (d.step .unattended (.step .ok)).ram = some pv₁)
    (hnext : pv₁.next = .update) (hsome : pv₁.update.isSome)
    (hram₂ : ((d.step .unattended (.step .ok)).step .unattended (.step .noLink)).ram = some pv₂)
    (hend : pv₂.update = none) : Attempt .unattended d .ok [.step .noLink] where
  idle := ⟨pv, hram, hidle⟩
  started := ⟨pv₁, hram₁, hnext⟩
  ongoing := ⟨⟨.noLink, pv₁, rfl, hram₁, hsome, by
    simp [Pv.callsInstalled, StepIo.noLink]⟩, trivial⟩
  finished := ⟨pv₂, hram₂, hend⟩

/-- The first attempt of a device keeps its environment. -/
theorem attempt_keeps_env_iff_first :
    SameEnv commandedDevice.flash ((deviceSystem .unattended).run
        (commandedDevice.step .unattended (.step .ok)) [.step .noLink]).flash ↔
      (deviceSystem .unattended).Along (fun d e => ¬ ClearsTry .unattended d e)
        (commandedDevice.step .unattended (.step .ok)) [.step .noLink] :=
  attempt_keeps_env_iff .unattended ((System.Reachable.init (by exact ⟨rfl, rfl⟩)).run _)
    (attempt_noLink (Option.some_get (by decide +kernel)).symm (by decide +kernel)
      (Option.some_get (by decide +kernel)).symm (by decide +kernel) (by decide +kernel)
      (Option.some_get (by decide +kernel)).symm (by decide +kernel))

/-- An attempt after a transition unsets the `pv_try` of the revision that
runs. -/
theorem attempt_loses_transition :
    ¬ ∀ (cfg : Config) (d : Device) (start : StepIo) (es : List Event),
      (deviceSystem cfg).Reachable d → Attempt cfg d start es →
      SameEnv d.flash ((deviceSystem cfg).run (d.step cfg (.step start)) es).flash :=
  fun h =>
    have hreach : (deviceSystem .unattended).Reachable transitionedDevice :=
      ((System.Reachable.init (by exact ⟨rfl, rfl⟩)).run _).run _
    have hsame := h .unattended transitionedDevice .ok [.step .noLink] hreach
      (attempt_noLink (Option.some_get (by decide +kernel)).symm (by decide +kernel)
        (Option.some_get (by decide +kernel)).symm (by decide +kernel) (by decide +kernel)
        (Option.some_get (by decide +kernel)).symm (by decide +kernel))
    absurd hsame.1 (by decide +kernel)

end Pantavisor.Controller
