/-
Pantavisor.Controller.Rollback — what a rollback keeps from booting.

`_pv_rollback` reports the update as failed and reboots; it leaves the boot
environment to the next boot, which clears `pv_try` in `pv_update_finish`.
That is too late for an update that did not come from a reboot: its `pv_try`
is stored and not tried, so the next boot is one of the revision just
reported as failed. `rollback_sticks_iff` has the stored environments in which
the failure does stick.
-/
import Pantavisor.Controller.Commit

namespace Pantavisor.Controller

open Pantavisor.Lib Pantavisor.Bootloader

/-! ## A revision that stays out -/

/-- The device is in a boot of `rev`, or has it loaded. -/
def Device.Runs (d : Device) (rev : Rev) : Prop :=
  ∃ pv, d.ram = some pv ∧ (pv.cmdline.rev = rev ∨ pv.state = some rev)

/-- No step of the run installs `rev`. -/
def NoInstall (cfg : Config) (rev : Rev) : Device → List Event → Prop :=
  (deviceSystem cfg).Along fun d e => KeyOp.set keyTry rev ∉ d.stores cfg e

/-- From here on `rev` is neither run nor committed, unless it is installed. -/
def StaysOut (cfg : Config) (rev : Rev) (d : Device) : Prop :=
  ∀ es, NoInstall cfg rev d es →
    ¬ ((deviceSystem cfg).run d es).Runs rev ∧
      ∀ e, KeyOp.set keyRev rev ∉ ((deviceSystem cfg).run d es).stores cfg e

/-- The boot loader boots `rev` neither as the stored revision nor for a try. -/
def Flash.Excludes (f : Flash) (rev : Rev) : Prop :=
  f.rev ≠ rev ∧ (f.tryRev = some rev → f.tried = true)

instance (f : Flash) (rev : Rev) : Decidable (f.Excludes rev) :=
  inferInstanceAs (Decidable (_ ∧ _))

/-- A write that brings `rev` into neither key. -/
def Harmless (rev : Rev) (op : KeyOp CStr CStr) : Prop :=
  op = .unset keyTry ∨ ∃ rev', rev' ≠ rev ∧ (op = .set keyTry rev' ∨ op = .set keyRev rev')

theorem Flash.Excludes.bootRev {f : Flash} {rev : Rev} (h : f.Excludes rev) : f.bootRev ≠ rev := by
  unfold Flash.bootRev
  split
  · exact h.1
  · rename_i htried
    cases ht : f.tryRev with
    | none => exact h.1
    | some t =>
        intro heq
        rw [Option.getD_some] at heq
        exact htried (h.2 (by rw [ht, heq]))

theorem Flash.Excludes.write {f : Flash} {rev : Rev} (h : f.Excludes rev)
    {op : KeyOp CStr CStr} (hop : Harmless rev op) : (f.write op).Excludes rev := by
  have hne : str "pv_rev" ≠ str "pv_try" := by decide
  rcases hop with rfl | ⟨rev', hrev', rfl | rfl⟩
  · refine ⟨?_, fun htry => ?_⟩
    · simpa [Flash.rev, Flash.write, denote_apply, KeyOp.key, KeyOp.result, keyTry, hne] using h.1
    · simp [Flash.tryRev, Flash.write, denote_apply, KeyOp.key, KeyOp.result, keyTry] at htry
  · refine ⟨?_, fun htry => ?_⟩
    · simpa [Flash.rev, Flash.write, denote_apply, KeyOp.key, KeyOp.result, keyTry, hne] using h.1
    · simp only [Flash.tryRev, Flash.write, denote_apply, KeyOp.key, KeyOp.result, keyTry,
        Function.update_self, Option.filter_eq_some_iff] at htry
      exact absurd (Option.some.inj htry.1) hrev'
  · refine ⟨?_, fun htry => ?_⟩
    · simpa [Flash.rev, Flash.write, denote_apply, KeyOp.key, KeyOp.result, keyRev] using hrev'
    · have hsame : f.tryRev = some rev := by
        simpa [Flash.tryRev, Flash.write, denote_apply, KeyOp.key, KeyOp.result, keyRev, hne.symm]
          using htry
      simpa [Flash.write, KeyOp.key, keyRev, hne] using h.2 hsame

theorem Flash.Excludes.foldl {rev : Rev} {ops : List (KeyOp CStr CStr)}
    (hops : ∀ op ∈ ops, Harmless rev op) {f : Flash} (h : f.Excludes rev) :
    (ops.foldl Flash.write f).Excludes rev := by
  induction ops generalizing f with
  | nil => exact h
  | cons op ops ih =>
      exact ih (fun op' hop' => hops op' (List.mem_cons_of_mem _ hop'))
        (h.write (hops op List.mem_cons_self))

/-! ## The invariant -/

/-- Neither the stored environment nor the process leads to `rev`. -/
structure Out (rev : Rev) (d : Device) : Prop where
  flash : d.flash.Excludes rev
  inv : DeviceInv d
  runs : ¬ d.Runs rev
  transition : ∀ pv, d.ram = some pv → ∀ u, pv.update = some u → u.status = .updateTransition →
    u.pending ≠ some rev

/-- What a device stores that has `rev` out and does not install it. -/
theorem Out.stores {cfg : Config} {rev : Rev} {d : Device} (h : Out rev d) {e : Event}
    (hno : KeyOp.set keyTry rev ∉ d.stores cfg e) : ∀ op ∈ d.stores cfg e, Harmless rev op := by
  intro op hop
  obtain ⟨pv, io, hram, -, hmem⟩ := Device.mem_stores hop
  have hinv := h.inv pv hram
  rcases Device.mem_process_writes hinv hmem with
    ⟨-, u, r, -, -, rfl⟩ | rfl | ⟨hnext, pv₁, hpoint, hcommit⟩
  · exact Or.inr ⟨r, fun heq => hno (heq ▸ hop), Or.inl rfl⟩
  · exact Or.inl rfl
  · rcases mem_commitWrites hcommit with rfl | rfl
    · obtain ⟨-, hstate, hrev⟩ := hpoint.running (hinv.atStep d.flash.env) hnext
      exact Or.inr ⟨_, fun heq => h.runs ⟨pv, hram, Or.inl (hrev.symm.trans heq)⟩, Or.inr rfl⟩
    · exact Or.inl rfl

/-- A step of a device that does not install `rev` keeps it out. -/
theorem Out.step {cfg : Config} {rev : Rev} {d : Device} (h : Out rev d) {e : Event}
    (hno : KeyOp.set keyTry rev ∉ d.stores cfg e) : Out rev (d.step cfg e) := by
  have hinv := h.inv.step cfg e
  have hops := h.stores hno
  cases e with
  | boot unclaimed =>
      cases hr : d.ram with
      | some pv =>
          have hsame : d.step cfg (.boot unclaimed) = d := by simp [Device.step, hr]
          rw [hsame]
          exact h
      | none =>
          have heq : d.step cfg (.boot unclaimed) = d.bootStep unclaimed := by
            simp [Device.step, hr]
          rw [heq] at hinv ⊢
          refine ⟨⟨h.flash.1, fun htry => ?_⟩, hinv, ?_, ?_⟩
          · simp [Device.bootStep, h.flash.2 htry]
          · rintro ⟨pv, hpv, hor⟩
            rw [← Option.some.inj hpv] at hor
            rcases hor with hor | hor
            · exact h.flash.bootRev hor
            · cases hor
          · intro pv hpv u hu
            rw [← Option.some.inj hpv] at hu
            cases hu
  | powerLoss io writes =>
      cases hr : d.ram with
      | none =>
          have hsame : d.step cfg (.powerLoss io writes) = d := by simp [Device.step, hr]
          rw [hsame]
          exact h
      | some pv =>
          have heq : d.step cfg (.powerLoss io writes)
              = ⟨(d.stores cfg (.powerLoss io writes)).foldl Flash.write d.flash, none⟩ := by
            simp [Device.step, Device.stores, hr]
          rw [heq]
          refine ⟨h.flash.foldl hops, ?_, ?_, ?_⟩
          · intro pv' hpv'
            cases hpv'
          · rintro ⟨pv', hpv', -⟩
            cases hpv'
          · intro pv' hpv'
            cases hpv'
  | step io =>
      cases hr : d.ram with
      | none =>
          have hsame : d.step cfg (.step io) = d := by simp [Device.step, hr]
          rw [hsame]
          exact h
      | some pv =>
          have hflash : (d.step cfg (.step io)).flash
              = (d.stores cfg (.step io)).foldl Flash.write d.flash := by
            simp [Device.step, Device.stores, hr]
          have hram : ∀ pv', (d.step cfg (.step io)).ram = some pv' →
              pv' = d.process cfg io pv := by
            intro pv' hpv'
            simp only [Device.step, hr] at hpv'
            split at hpv'
            · cases hpv'
            · exact (Option.some.inj hpv').symm
          have hpvInv := (h.inv pv hr).atStep d.flash.env
          refine ⟨hflash ▸ h.flash.foldl hops, hinv, ?_, ?_⟩
          · rintro ⟨pv', hpv', hor⟩
            rw [hram pv' hpv', Device.process] at hor
            rcases hor with hor | hor
            · rw [pvRunState_cmdline cfg io hpvInv] at hor
              exact h.runs ⟨pv, hr, Or.inl hor⟩
            · rcases pvRunState_state cfg io hpvInv hor with hs | hc | ⟨u, hu, hst, hpend⟩
              · exact h.runs ⟨pv, hr, Or.inr hs⟩
              · exact h.runs ⟨pv, hr, Or.inl hc.symm⟩
              · exact h.transition pv hr u hu hst hpend
          · intro pv' hpv' u hu hst hpend
            rw [hram pv' hpv', Device.process] at hu
            rcases pvRunState_transition cfg io hpvInv hu hst with hold | ⟨r, hr', hnv⟩
            · exact h.transition pv hr u hold hst hpend
            · -- an update that is installed in this step is another one
              have hrev : r = rev := Option.some.inj (hr'.symm.trans hpend)
              refine hno ?_
              simp only [Device.stores, hr, Device.process, hnv, NvEnv.writes_writeAll, hrev]
              exact List.mem_append_right _ List.mem_cons_self

/-- What is out stays out. -/
theorem Out.staysOut {cfg : Config} {rev : Rev} {d : Device} (h : Out rev d) :
    StaysOut cfg rev d := by
  intro es hno
  have hstep : ∀ (d : Device) (e : Event), Out rev d → KeyOp.set keyTry rev ∉ d.stores cfg e →
      Out rev ((deviceSystem cfg).step d e) ∧ True := fun d e h hno => ⟨h.step hno, trivial⟩
  obtain ⟨-, hend⟩ := System.along_of_invariant hstep h hno
  refine ⟨hend.runs, fun e hmem => ?_⟩
  obtain ⟨pv, io, hram, -, hcommits, heq⟩ := commits_of_stores hend.inv hmem rfl
  have hrev : rev = pv.cmdline.rev := by
    injection heq
  exact hend.runs ⟨pv, hram, Or.inl hrev.symm⟩

/-- A device that is off and excludes `rev` has it out. -/
theorem Out.of_off {rev : Rev} {d : Device} (hoff : d.ram = none) (h : d.flash.Excludes rev) :
    Out rev d where
  flash := h
  inv pv hpv := by rw [hoff] at hpv; cases hpv
  runs := by rintro ⟨pv, hpv, -⟩; rw [hoff] at hpv; cases hpv
  transition pv hpv := by rw [hoff] at hpv; cases hpv

/-- A device that is off and does not exclude `rev` runs it in its next boot or
in the one after that. -/
theorem not_staysOut {cfg : Config} {rev : Rev} {d : Device} (hoff : d.ram = none)
    (h : ¬ d.flash.Excludes rev) : ¬ StaysOut cfg rev d := by
  intro hout
  have hboot : ∀ d : Device, d.ram = none → d.flash.bootRev = rev →
      (d.step cfg (.boot false)).Runs rev := by
    intro d hoff heq
    exact ⟨bootPv ⟨d.flash.bootRev, d.flash.tryRev⟩ false d.flash.env,
      by simp [Device.step, hoff, Device.bootStep], Or.inl heq⟩
  by_cases hfirst : d.flash.bootRev = rev
  · exact (hout [.boot false] ⟨List.not_mem_nil, trivial⟩).1 (hboot d hoff hfirst)
  · -- the other revision is tried first, and loses power before it writes
    have htried : d.flash.tried = false := by
      by_contra htried
      simp only [Bool.not_eq_false] at htried
      refine h ⟨fun heq => hfirst ?_, fun _ => htried⟩
      rw [Flash.bootRev, if_pos htried, heq]
    have htry : d.flash.tryRev.isSome := by
      by_contra hnone
      rw [Option.not_isSome_iff_eq_none] at hnone
      refine h ⟨fun heq => hfirst ?_, fun hsome => by rw [hnone] at hsome; cases hsome⟩
      rw [Flash.bootRev, hnone, htried]
      exact heq
    have hrev : d.flash.rev = rev := by
      by_contra hne
      refine h ⟨hne, fun hsome => absurd ?_ hfirst⟩
      rw [Flash.bootRev, hsome, htried]
      rfl
    have hno : NoInstall cfg rev d [.boot false, .powerLoss .ok 0, .boot false] := by
      refine ⟨List.not_mem_nil, ?_, List.not_mem_nil, trivial⟩
      simp [deviceSystem, Device.step, Device.stores, hoff, Device.bootStep]
    have hlost : ((deviceSystem cfg).run d [.boot false, .powerLoss .ok 0])
        = ⟨{ d.flash with tried := true }, none⟩ := by
      simp [deviceSystem, Device.step, hoff, Device.bootStep, htried, htry]
    have hruns := hboot ((deviceSystem cfg).run d [.boot false, .powerLoss .ok 0])
      (by rw [hlost]) (by rw [hlost]; exact hrev)
    exact (hout _ hno).1 hruns

/-! ## The rollback -/

/-- The process behind `_pv_rollback`. -/
def Pv.rolledBack (pv : Pv) (env : List (CStr × CStr)) : Pv :=
  { pvUpdateSetStatus (pv.atStep env) .updateFailed with next := .reboot }

/-- `_pv_rollback` of an update: the report, and nothing stored. -/
theorem rollback_step (cfg : Config) {d : Device} {pv : Pv} (hram : d.ram = some pv)
    (hnext : pv.next = .rollback) (hstate : pv.state ≠ some (str "0")) (io : StepIo) :
    d.step cfg (.step io) = ⟨d.flash, some (pv.rolledBack d.flash.env)⟩ := by
  have hproc : d.process cfg io pv = pv.rolledBack d.flash.env := by
    have hn : (pv.atStep d.flash.env).next = .rollback := hnext
    have hs : (pv.atStep d.flash.env).state ≠ some (str "0") := hstate
    simp only [Device.process, pvRunState, hn, pvRollback, if_neg hs, Pv.rolledBack]
  have hnv : (pv.rolledBack d.flash.env).nv = ⟨d.flash.env, []⟩ :=
    (keeps_setStatus (pv.atStep d.flash.env) .updateFailed).nv
  simp only [Device.step, hram, hproc, hnv]
  rfl

/-- The reboot after a rollback turns the device off with the environment as it
was. -/
theorem reboot_off {cfg : Config} {d : Device} {pv : Pv} (hram : d.ram = some pv)
    (hnext : pv.next = .reboot) {e : Event} (hoff : (d.step cfg e).ram = none) :
    d.step cfg e = ⟨d.flash, none⟩ := by
  have hnv : ∀ io, (d.process cfg io pv).nv.writes = [] := by
    intro io
    have hn : (pv.atStep d.flash.env).next = .reboot := hnext
    simp only [Device.process, pvRunState, hn]
    rfl
  cases e with
  | boot unclaimed => simp [Device.step, hram] at hoff
  | step io => simp_all [Device.step]
  | powerLoss io writes => simp [Device.step, hram, hnv]

/-- **A rollback sticks** exactly when the stored environment excludes the
revision: the update is reported as failed in any case, but a `pv_try` that was
not tried yet, and a `pv_rev` written by a commit that failed later, still
bring it back. -/
theorem rollback_sticks_iff (cfg : Config) {d : Device} {pv : Pv} (hram : d.ram = some pv)
    (hnext : pv.next = .rollback) (hstate : pv.state ≠ some (str "0")) {u : PvUpdate}
    (hu : pv.update = some u) (io : StepIo) {e : Event}
    (hoff : ((d.step cfg (.step io)).step cfg e).ram = none) :
    (∃ pv', (d.step cfg (.step io)).ram = some pv' ∧
        (⟨u.rev, u.pending, .updateFailed⟩ : Report) ∈ pv'.reports) ∧
      (StaysOut cfg u.rev ((d.step cfg (.step io)).step cfg e) ↔
        d.flash.rev ≠ u.rev ∧ (d.flash.tryRev = some u.rev → d.flash.tried = true)) := by
  have hstep := rollback_step cfg hram hnext hstate io
  refine ⟨⟨_, by rw [hstep], ?_⟩, ?_⟩
  · have hu' : (pv.atStep d.flash.env).update = some u := hu
    simp [Pv.rolledBack, pvUpdateSetStatus, hu', Pv.report]
  · rw [reboot_off (by rw [hstep]) rfl hoff, hstep]
    dsimp only
    constructor
    · intro hout
      by_contra hex
      exact not_staysOut (d := ⟨d.flash, none⟩) rfl hex hout
    · exact fun hex => (Out.of_off (d := ⟨d.flash, none⟩) rfl hex).staysOut

/-- A step whose calls succeed but for the start of the platforms. -/
def StepIo.noStart : StepIo := { StepIo.ok with run := { StepIo.ok.run with start := false } }

/-- A device whose try of revision 2 fails to start. -/
def failedTry : Device :=
  (deviceSystem .unattended).run
    ⟨⟨[(str "pv_rev", str "1"), (str "pv_try", str "2")], false⟩, none⟩
    [.boot false, .step .ok, .step .noStart]

/-- The failure of a try boot sticks, with revision 1 stored and revision 2
tried. -/
theorem rollback_sticks_iff_failedTry :
    ∃ pv u, failedTry.ram = some pv ∧ pv.update = some u ∧ u.rev = str "2" ∧
      (∃ pv', (failedTry.step .unattended (.step .ok)).ram = some pv' ∧
        (⟨u.rev, u.pending, .updateFailed⟩ : Report) ∈ pv'.reports) ∧
      (StaysOut .unattended u.rev
          ((failedTry.step .unattended (.step .ok)).step .unattended (.step .ok)) ↔
        failedTry.flash.rev ≠ u.rev ∧
          (failedTry.flash.tryRev = some u.rev → failedTry.flash.tried = true)) :=
  let pv := failedTry.ram.get (by decide +kernel)
  let u := pv.update.get (by decide +kernel)
  have hram : failedTry.ram = some pv := (Option.some_get _).symm
  have hu : pv.update = some u := (Option.some_get _).symm
  ⟨pv, u, hram, hu, by decide +kernel,
    rollback_sticks_iff .unattended hram (by decide +kernel) (by decide +kernel) hu .ok
      (by decide +kernel)⟩

/-- A device with revision 1 that goes over to a local revision without a reboot
and can not start it. -/
def failedTransition : Device :=
  (deviceSystem .unattended).run ⟨⟨[(str "pv_rev", str "1")], false⟩, none⟩
    [.boot false, .step .ok, .step .ok, .step (.localRun (str "locals/2")), .step .ok, .step .ok,
      .step .noStart]

/-- The failure of that transition does not stick: the next boot tries the
revision that was reported as failed. -/
theorem rollback_runs_failed_transition :
    ¬ ∀ (cfg : Config) (d : Device) (pv : Pv) (u : PvUpdate) (io : StepIo) (e : Event),
      (deviceSystem cfg).Reachable d → d.ram = some pv → pv.next = .rollback →
      pv.state ≠ some (str "0") → pv.update = some u →
      ((d.step cfg (.step io)).step cfg e).ram = none →
      StaysOut cfg u.rev ((d.step cfg (.step io)).step cfg e) :=
  fun h =>
    let pv := failedTransition.ram.get (by decide +kernel)
    let u := pv.update.get (by decide +kernel)
    have hreach : (deviceSystem .unattended).Reachable failedTransition :=
      (System.Reachable.init (by exact ⟨rfl, rfl⟩)).run _
    have hout := h .unattended failedTransition pv u .ok (.step .ok) hreach
      (Option.some_get _).symm (by decide +kernel) (by decide +kernel) (Option.some_get _).symm
      (by decide +kernel)
    not_staysOut (by decide +kernel) (by decide +kernel) hout

end Pantavisor.Controller
