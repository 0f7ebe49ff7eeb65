/-
Pantavisor.Controller.Invariant — the invariant of the process and the writes
of its steps.

`Inv` holds of the process at every step boundary (`pvRunState_inv`), from its
start (`bootPv_inv`) on. `pvRunState_writes` says which writes a step from `Inv`
makes to the boot environment: none, an install, a failed update or a commit.
`DeviceInv` is the invariant of the device, and ties the command line of the
process to what is stored.
-/
import Pantavisor.Controller.MachineTheorems

namespace Pantavisor.Controller

open Pantavisor.Lib Pantavisor.Bootloader

/-! ## The process -/

/-- The entries that read `pv->state` without a check. -/
def PvStateT.Live (s : PvStateT) : Prop :=
  s = .wait ∨ s = .command ∨ s = .update ∨ s = .factoryUpload

/-- What holds of the process at a step boundary. -/
structure Inv (pv : Pv) : Prop where
  /-- nothing is loaded before the first `_pv_run` of a boot -/
  init : pv.next = .init → pv.update = none
  fresh : pv.next = .init ∨ pv.next = .run → pv.update = none →
    pv.bl.pvRev = pv.cmdline.rev ∧ pv.bl.pvTry = pv.cmdline.tryRev ∧ pv.state = none
  /-- a second `_pv_run` is one of a transition -/
  rerun : pv.next = .run → ∀ u, pv.update = some u → u.status = .updateTransition
  loaded : pv.next.Live → pv.state.isSome
  starting : pv.next = .update → ∃ u, pv.update = some u ∧ u.status.Starting
  /-- a boot that tries an update is one of `pv_try`, and runs it -/
  trying : ∀ u, pv.update = some u → u.status.Trial →
    pv.cmdline.tryRev = some pv.cmdline.rev ∧ ∀ rev, pv.state = some rev → rev = pv.cmdline.rev

/-- The copies that `pv_bl_early_init` makes are those of the command line. -/
theorem parseCmdline_tokens (c : Cmdline) (bl : PvBootloader) :
    parseCmdline bl c.tokens
      = { bl with pvRev := c.rev, pvTry := match c.tryRev with | some t => some t | none => bl.pvTry } := by
  have hrev : ∀ r : Rev, (str "pv_rev=").isPrefixOf (str "pv_rev=" ++ r) = true :=
    fun r => List.isPrefixOf_iff_prefix.mpr (List.prefix_append _ _)
  have htry : ∀ t : Rev, (str "pv_try=").isPrefixOf (str "pv_try=" ++ t) = true :=
    fun t => List.isPrefixOf_iff_prefix.mpr (List.prefix_append _ _)
  have hne : ∀ t : Rev, (str "pv_rev=").isPrefixOf (str "pv_try=" ++ t) = false := fun t => rfl
  have hdrop : ∀ r : Rev, (str "pv_rev=" ++ r).drop 7 = r := fun r => List.drop_left' rfl
  have hdrop' : ∀ t : Rev, (str "pv_try=" ++ t).drop 7 = t := fun t => List.drop_left' rfl
  cases ht : c.tryRev with
  | none => simp [Cmdline.tokens, ht, parseCmdline, hrev, hdrop]
  | some t => simp [Cmdline.tokens, ht, parseCmdline, hrev, hdrop, hne, htry, hdrop']

theorem bootPv_inv (c : Cmdline) (unclaimed : Bool) (env : List (CStr × CStr)) :
    Inv (bootPv c unclaimed env) where
  init _ := rfl
  fresh _ _ := by
    refine ⟨?_, ?_, rfl⟩
    · simp [bootPv, pvBlEarlyInit, parseCmdline_tokens]
    · simp only [bootPv, pvBlEarlyInit, parseCmdline_tokens]
      cases c.tryRev <;> rfl
  rerun h := by cases h
  loaded h := by rcases h with h | h | h | h <;> cases h
  starting h := by cases h
  trying u h := by cases h

/-! ## `_pv_run` -/

/-- What `_pv_run` does: no write, and a state that is loaded or a rollback. -/
structure RunSpec (pv pv' : Pv) : Prop where
  cmdline : pv'.cmdline = pv.cmdline
  nv : pv'.nv = pv.nv
  next : pv'.next = .rollback ∨ pv'.next = .wait ∧ pv'.state.isSome
  trying : ∀ u, pv'.update = some u → u.status.Trial →
    pv.cmdline.tryRev = some pv.cmdline.rev ∧ ∀ rev, pv'.state = some rev → rev = pv.cmdline.rev

/-- The update that a boot resumes. -/
def resumed (creds : Bool) (bl : PvBootloader) (rev : Rev) : PvUpdate :=
  { pvUpdateNew creds rev false with
      status := if rev = bl.pvRev then .updateTry else .updateFailed }

/-- `pv_update_resume` keeps an update, and makes one of `pv_try` if there is
none. -/
theorem pvUpdateResume_spec (creds : Bool) (pv : Pv) :
    Keeps pv (pvUpdateResume creds pv).2 ∧
      ((pvUpdateResume creds pv).2.update = pv.update ∨
        pv.update = none ∧ ∃ rev, pv.bl.pvTry = some rev ∧
          (pvUpdateResume creds pv).2.update = some (resumed creds pv.bl rev)) := by
  unfold pvUpdateResume
  cases hu : pv.update with
  | some u => exact ⟨Keeps.refl pv, Or.inl hu⟩
  | none =>
      dsimp only
      split
      · rename_i hprogress
        obtain ⟨rev, hrev⟩ : ∃ rev, pv.bl.pvTry = some rev := by
          cases ht : pv.bl.pvTry with
          | none => simp [PvBootloader.updateInProgress, ht] at hprogress
          | some rev => exact ⟨rev, rfl⟩
        have htry : pv.bl.tryingUpdate = decide (rev = pv.bl.pvRev) := by
          simp [PvBootloader.tryingUpdate, hprogress, hrev]
        have hkeeps := fun status => (keeps_update pv (some (pvUpdateNew creds rev false))).trans
          (keeps_setStatus _ status)
        rw [htry, hrev, Option.getD_some]
        split
        · rename_i heq
          exact ⟨hkeeps _, Or.inr ⟨rfl, rev, rfl, by
            simp [update_setStatus, resumed, of_decide_eq_true heq]⟩⟩
        · rename_i hne
          exact ⟨hkeeps _, Or.inr ⟨rfl, rev, rfl, by
            simp only [update_setStatus, resumed, Option.map_some, if_neg (by simpa using hne)]⟩⟩
      · exact ⟨Keeps.refl pv, Or.inl hu⟩

/-- The loading of the state keeps the update at its status. -/
theorem pvRunLoad_spec (io : RunIo) (pv : Pv) :
    (pvRunLoad io pv).cmdline = pv.cmdline ∧ (pvRunLoad io pv).nv = pv.nv ∧
      (∀ u, (pvRunLoad io pv).update = some u → ∃ u₀, pv.update = some u₀ ∧ u.status = u₀.status) ∧
      (pvUpdateIsTransitioning pv.update = false → ∀ rev, (pvRunLoad io pv).state = some rev →
        pv.state = some rev ∨ rev = pv.bl.pvRev) := by
  unfold pvRunLoad
  split
  · rename_i htrans
    exact ⟨rfl, rfl, fun u hu => ⟨u, hu, rfl⟩, fun h => by rw [h] at htrans; cases htrans⟩
  · split
    · exact ⟨rfl, rfl, fun u hu => ⟨u, hu, rfl⟩, fun _ rev h => Or.inl h⟩
    · refine ⟨rfl, rfl, fun u hu => ?_, fun _ rev h => Or.inr ?_⟩
      · obtain ⟨u₀, hu₀, rfl⟩ := Option.map_eq_some_iff.mp hu
        exact ⟨u₀, hu₀, rfl⟩
      · dsimp only at h
        split at h
        · exact (Option.some.inj h).symm
        · cases h

/-- What `_pv_run` leaves, once the state is loaded. -/
theorem pvRun_spec (cfg : Config) (io : RunIo) (pv : Pv) :
    let loaded := pvRunLoad io (pvUpdateResume io.creds pv).2
    (pvRun cfg io pv).cmdline = loaded.cmdline ∧ (pvRun cfg io pv).nv = loaded.nv ∧
      (pvRun cfg io pv).update = loaded.update ∧ (pvRun cfg io pv).state = loaded.state ∧
      ((pvRun cfg io pv).next = .rollback ∨
        (pvRun cfg io pv).next = .wait ∧ (pvRun cfg io pv).state.isSome) := by
  unfold pvRun
  dsimp only
  split
  · exact ⟨rfl, rfl, rfl, rfl, Or.inl rfl⟩
  · rename_i rev hst
    split
    · exact ⟨rfl, rfl, rfl, rfl, Or.inl rfl⟩
    · split
      · exact ⟨rfl, rfl, rfl, rfl, Or.inl rfl⟩
      · exact ⟨rfl, rfl, rfl, rfl, Or.inr ⟨rfl, by simp [hst]⟩⟩

/-- **What `_pv_run` does** when the process is at it. -/
theorem pvRun_runSpec (cfg : Config) (io : RunIo) {pv : Pv} (h : Inv pv) (hnext : pv.next = .run) :
    RunSpec pv (pvRun cfg io pv) := by
  obtain ⟨hc, hn, hu, hs, hnext'⟩ := pvRun_spec cfg io pv
  obtain ⟨hk, hresume⟩ := pvUpdateResume_spec io.creds pv
  obtain ⟨hlc, hln, hlu, hls⟩ := pvRunLoad_spec io (pvUpdateResume io.creds pv).2
  refine ⟨hc.trans (hlc.trans hk.cmdline), hn.trans (hln.trans hk.nv), hnext', ?_⟩
  intro u hu' htrial
  rw [hu] at hu'
  obtain ⟨u₀, hu₀, hstatus⟩ := hlu u hu'
  rw [hstatus] at htrial
  rcases hresume with hsame | ⟨hnone, rev, hrev, hnew⟩
  · -- an update that was there is in transition
    rw [hu₀] at hsame
    rw [h.rerun hnext u₀ hsame.symm] at htrial
    simp [UpdateState.Trial] at htrial
  · obtain rfl := Option.some.inj (hu₀.symm.trans hnew)
    obtain ⟨hpvRev, hpvTry, hstate⟩ := h.fresh (Or.inr hnext) hnone
    have hrevEq : rev = pv.bl.pvRev := by
      by_contra hne
      simp [resumed, hne, UpdateState.Trial] at htrial
    refine ⟨by rw [← hpvTry, hrev, hrevEq, hpvRev], fun r hr => ?_⟩
    rw [hs] at hr
    have hnot : pvUpdateIsTransitioning (pvUpdateResume io.creds pv).2.update = false := by
      rw [hnew]
      simp [pvUpdateIsTransitioning, resumed, hrevEq]
    rcases hls hnot r hr with hr' | hr'
    · rw [hk.state, hstate] at hr'
      cases hr'
    · rw [hr', hk.bl, hpvRev]

/-! ## `_pv_wait` and `_pv_command` -/

/-- What `_pv_wait` does: it tears down, or goes on with what the update part
leaves. -/
theorem pvWait_spec (cfg : Config) (io : WaitIo) (pv : Pv) :
    (io.exited = true ∧ ∃ next, (next = .rollback ∨ next = .reboot) ∧
        pvWait cfg io pv = { pv with next := next }) ∨
      (io.exited = false ∧ ∃ cmd next,
        pvWait cfg io pv = { (pvWaitOps cfg io pv).2 with cmd := cmd, next := next } ∧
        ((pvWaitOps cfg io pv).1 = next ∨
          (pvWaitOps cfg io pv).1 = .wait ∧ (next = .command ∨ next = .wait))) := by
  unfold pvWait
  split
  · rename_i hex
    split
    · exact Or.inl ⟨hex, _, Or.inl rfl, rfl⟩
    · exact Or.inl ⟨hex, _, Or.inr rfl, rfl⟩
  · rename_i hex
    simp only [Bool.not_eq_true] at hex
    dsimp only
    split
    · exact Or.inr ⟨hex, (pvWaitOps cfg io pv).2.cmd, _, rfl, Or.inl rfl⟩
    · rename_i hwait
      refine Or.inr ⟨hex, io.cmd, _, rfl, Or.inr ⟨not_not.mp hwait, ?_⟩⟩
      split
      · exact Or.inl rfl
      · exact Or.inr rfl

/-- What `_pv_command` does: no write, and a new update only if there is none. -/
structure CommandSpec (pv pv' : Pv) : Prop where
  cmdline : pv'.cmdline = pv.cmdline
  nv : pv'.nv = pv.nv
  state : pv'.state = pv.state
  next : pv'.next = .wait ∨ pv'.next = .reboot ∨ pv'.next = .poweroff ∨ pv'.next = .update
  update : pv'.update = pv.update ∧ pv'.next ≠ .update ∨
    pv.update = none ∧ (pv'.next = .update → ∃ u, pv'.update = some u) ∧
      ∀ u, pv'.update = some u → u.status = .updateInit

/-- A local update is one to start, or none. -/
theorem pvUpdateGetStepLocal_spec (io : LocalStepIo) (rev : Rev) (pv : Pv) :
    Keeps pv (pvUpdateGetStepLocal io rev pv).2 ∧
      ∀ u, (pvUpdateGetStepLocal io rev pv).1 = some u → u.status = .updateInit := by
  unfold pvUpdateGetStepLocal
  dsimp only
  split
  · exact ⟨keeps_report _ _ _, fun u h => by cases h⟩
  · split
    · exact ⟨keeps_report _ _ _, fun u h => by cases h⟩
    · exact ⟨Keeps.refl pv, fun u h => by rw [← Option.some.inj h]; rfl⟩

theorem pvCommandUpdate_spec (io : LocalStepIo) (rev : Rev) {pv : Pv} (hu : pv.update = none) :
    CommandSpec pv (pvCommandUpdate io rev pv) := by
  obtain ⟨hk, hinit⟩ := pvUpdateGetStepLocal_spec io rev pv
  refine ⟨hk.cmdline, hk.nv, hk.state, ?_, Or.inr ⟨hu, fun h => ?_, hinit⟩⟩
  · simp only [pvCommandUpdate]
    split <;> simp
  · simp only [pvCommandUpdate] at h ⊢
    split at h
    · rename_i hsome
      exact Option.isSome_iff_exists.mp hsome
    · cases h

/-- Every branch of `_pv_command`, with WAIT set as the next state. -/
theorem pvCommandOp_spec (io : CommandIo) {pv : Pv} (hwait : pv.next = .wait) (cmd : PvCmd) :
    CommandSpec pv (pvCommandOp io pv cmd) := by
  have hstay : CommandSpec pv pv :=
    ⟨rfl, rfl, rfl, Or.inl hwait, Or.inl ⟨rfl, by simp [hwait]⟩⟩
  cases cmd with
  | rebootDevice =>
      simp only [pvCommandOp]
      split
      · exact hstay
      · exact ⟨rfl, rfl, rfl, by simp, Or.inl ⟨rfl, by simp⟩⟩
  | poweroffDevice =>
      simp only [pvCommandOp]
      split
      · exact hstay
      · exact ⟨rfl, rfl, rfl, by simp, Or.inl ⟨rfl, by simp⟩⟩
  | localRun rev =>
      simp only [pvCommandOp]
      split
      · exact hstay
      · rename_i hu
        exact pvCommandUpdate_spec io.localStep rev (by simpa using hu)
  | makeFactory rev =>
      simp only [pvCommandOp]
      split
      · exact hstay
      · rename_i hu
        simp only [Bool.or_eq_true, not_or] at hu
        exact pvCommandUpdate_spec io.localStep _ (by simpa using hu.1.1)
  | _ => exact hstay

theorem pvCommand_spec (io : CommandIo) (pv : Pv) : CommandSpec pv (pvCommand io pv) := by
  unfold pvCommand
  dsimp only
  split
  · exact ⟨rfl, rfl, rfl, Or.inl rfl, Or.inl ⟨rfl, by simp⟩⟩
  · rename_i cmd _
    have h : CommandSpec { pv with next := .wait } _ := pvCommandOp_spec io rfl cmd
    exact ⟨h.cmdline, h.nv, h.state, h.next, h.update⟩

/-! ## The step of the process -/

/-- An `Inv` for a process that is not about to run a state. -/
theorem Inv.intro {pv : Pv} (hinit : pv.next ≠ .init) (hrun : pv.next ≠ .run)
    (hloaded : pv.next.Live → pv.state.isSome)
    (hstarting : pv.next = .update → ∃ u, pv.update = some u ∧ u.status.Starting)
    (htrying : ∀ u, pv.update = some u → u.status.Trial →
      pv.cmdline.tryRev = some pv.cmdline.rev ∧
        ∀ rev, pv.state = some rev → rev = pv.cmdline.rev) : Inv pv where
  init h := absurd h hinit
  fresh h := absurd h (by tauto)
  rerun h := absurd h hrun
  loaded := hloaded
  starting := hstarting
  trying := htrying

/-- An `Inv` for a process on its way down, with nothing else changed. -/
theorem Inv.down {pv : Pv} (h : Inv pv) {next : PvStateT}
    (hnext : next ≠ .init ∧ next ≠ .run ∧ next ≠ .update ∧ ¬ next.Live) :
    Inv { pv with next := next } :=
  Inv.intro hnext.1 hnext.2.1 (fun hl => absurd hl hnext.2.2.2)
    (fun hl => absurd hl hnext.2.2.1) h.trying

theorem pvWait_inv (cfg : Config) (io : WaitIo) {pv : Pv} (h : Inv pv) (hnext : pv.next = .wait) :
    Inv (pvWait cfg io pv) := by
  rcases pvWait_spec cfg io pv with ⟨-, next, hor, heq⟩ | ⟨-, cmd, next, heq, hcase⟩
  · rw [heq]
    rcases hor with rfl | rfl <;> exact h.down (by simp [PvStateT.Live])
  · rw [heq]
    have hspec := (pvWaitOps_spec cfg io pv).1
    have hloaded := h.loaded (Or.inl hnext)
    have hone : next ≠ .init ∧ next ≠ .run := by
      rcases hcase with h' | ⟨-, h' | h'⟩
      · rw [← h']
        rcases hspec.next with hn | hn | hn | hn <;> simp [hn]
      · simp [h']
      · simp [h']
    refine Inv.intro hone.1 hone.2 (fun _ => by rw [← hspec.state] at hloaded; exact hloaded)
      (fun hup => ?_) (fun u hu ht => ?_)
    · dsimp only at hup
      subst hup
      rcases hcase with h' | ⟨-, h' | h'⟩
      · exact hspec.starting h'
      · cases h'
      · cases h'
    · obtain ⟨u₀, hu₀, ht₀⟩ := (hspec.update u hu).trial ht
      obtain ⟨hc, hs⟩ := h.trying u₀ hu₀ ht₀
      dsimp only
      rw [hspec.cmdline, hspec.state]
      exact ⟨hc, hs⟩

theorem pvCommand_inv (io : CommandIo) {pv : Pv} (h : Inv pv) (hnext : pv.next = .command) :
    Inv (pvCommand io pv) := by
  have hspec := pvCommand_spec io pv
  have hloaded := h.loaded (Or.inr (Or.inl hnext))
  refine Inv.intro ?_ ?_ (fun _ => by rw [hspec.state]; exact hloaded) (fun hup => ?_)
    (fun u hu ht => ?_)
  · rcases hspec.next with h' | h' | h' | h' <;> rw [h'] <;> simp
  · rcases hspec.next with h' | h' | h' | h' <;> rw [h'] <;> simp
  · rcases hspec.update with ⟨-, hne⟩ | ⟨-, hsome, hinit⟩
    · exact absurd hup hne
    · obtain ⟨u, hu⟩ := hsome hup
      exact ⟨u, hu, Or.inl (hinit u hu)⟩
  · rcases hspec.update with ⟨hsame, -⟩ | ⟨-, -, hinit⟩
    · rw [hspec.cmdline, hspec.state]
      exact h.trying u (hsame ▸ hu) ht
    · exact absurd ht (UpdateState.Starting.not_trial (Or.inl (hinit u hu)))

theorem pvUpdate_inv (cfg : Config) (io : UpdateIo) {pv : Pv} (h : Inv pv)
    (hnext : pv.next = .update) : Inv (pvUpdate cfg io pv) := by
  obtain ⟨u, hu, hs⟩ := h.starting hnext
  have hloaded := h.loaded (Or.inr (Or.inr (Or.inl hnext)))
  rcases pvUpdate_cases cfg io hu hs with ⟨-, hspec⟩ | ⟨-, hspec⟩
  · obtain ⟨u', hu', -, -, hcase⟩ := hspec.update
    have hnot : ¬ u'.status.Trial := by
      rcases hcase with ⟨-, hst⟩ | ⟨-, hst⟩ <;> simp [hst, UpdateState.Trial]
    have htrying : ∀ v, (pvUpdate cfg io pv).update = some v → ¬ v.status.Trial := by
      intro v hv
      rwa [← Option.some.inj (hu'.symm.trans hv)]
    refine { init := fun hn => ?_, fresh := fun _ hn => ?_, rerun := fun hn v hv => ?_,
             loaded := fun hn => ?_, starting := fun hn => ?_,
             trying := fun v hv ht => absurd ht (htrying v hv) }
    · rcases hcase with ⟨h', -⟩ | ⟨h' | h', -⟩ <;> rw [h'] at hn <;> cases hn
    · rw [hu'] at hn
      cases hn
    · obtain rfl := Option.some.inj (hu'.symm.trans hv)
      rcases hcase with ⟨h', -⟩ | ⟨-, hst⟩
      · rw [h'] at hn
        cases hn
      · exact hst
    · rw [hspec.state]
      exact hloaded
    · rcases hcase with ⟨h', -⟩ | ⟨h' | h', -⟩ <;> rw [h'] at hn <;> cases hn
  · have hn := hspec.next
    exact Inv.intro (by simp [hn]) (by simp [hn]) (fun _ => by rw [hspec.state]; exact hloaded)
      (fun hup => by rw [hn] at hup; cases hup)
      (fun u' hu' ht => by
        rw [(hspec.update u' hu').2.2] at ht
        simp [UpdateState.Trial] at ht)

theorem pvRun_inv (cfg : Config) (io : RunIo) {pv : Pv} (h : Inv pv) (hnext : pv.next = .run) :
    Inv (pvRun cfg io pv) := by
  have hspec := pvRun_runSpec cfg io h hnext
  refine Inv.intro ?_ ?_ (fun hl => ?_) (fun hup => ?_) (fun u hu ht => ?_)
  · rcases hspec.next with hn | ⟨hn, -⟩ <;> simp [hn]
  · rcases hspec.next with hn | ⟨hn, -⟩ <;> simp [hn]
  · rcases hspec.next with hn | ⟨-, hs⟩
    · rw [hn] at hl
      simp [PvStateT.Live] at hl
    · exact hs
  · rcases hspec.next with hn | ⟨hn, -⟩ <;> rw [hn] at hup <;> cases hup
  · rw [hspec.cmdline]
    exact hspec.trying u hu ht

theorem pvRollback_inv {pv : Pv} (h : Inv pv) : Inv (pvRollback pv) := by
  unfold pvRollback
  split
  · exact h.down (by simp [PvStateT.Live])
  · refine Inv.intro (by simp) (by simp) (fun hl => by simp [PvStateT.Live] at hl)
      (fun hup => by cases hup) (fun u hu ht => ?_)
    dsimp only at hu
    rw [update_setStatus, Option.map_eq_some_iff] at hu
    obtain ⟨u₀, -, rfl⟩ := hu
    simp [UpdateState.Trial] at ht

/-- **A step of the process keeps the invariant**, with any outcome of every call. -/
theorem pvRunState_inv (cfg : Config) (io : StepIo) {pv : Pv} (h : Inv pv) :
    Inv (pvRunState cfg io pv) := by
  unfold pvRunState
  cases hnext : pv.next with
  | init =>
      have hnone := h.init hnext
      have hfresh := h.fresh (Or.inl hnext)
      dsimp only
      split
      · exact { init := fun h' => by cases h'
                fresh := fun _ hu => hfresh hu
                rerun := fun _ u hu => by rw [hnone] at hu; cases hu
                loaded := fun h' => by simp [PvStateT.Live] at h'
                starting := fun h' => by cases h'
                trying := h.trying }
      · exact h.down (by simp [PvStateT.Live])
  | run => exact pvRun_inv cfg io.run h hnext
  | wait => exact pvWait_inv cfg io.wait h hnext
  | command => exact pvCommand_inv io.command h hnext
  | update => exact pvUpdate_inv cfg io.update h hnext
  | rollback => exact pvRollback_inv h
  | error => exact h.down (by simp [PvStateT.Live])
  | reboot => exact h.down (by simp [PvStateT.Live])
  | poweroff => exact h.down (by simp [PvStateT.Live])
  | exit => exact h.down (by simp [PvStateT.Live])
  | factoryUpload =>
      have hloaded := h.loaded (Or.inr (Or.inr (Or.inr hnext)))
      dsimp only
      split
      · exact Inv.intro (by simp) (by simp) (fun _ => hloaded) (fun h' => by cases h') h.trying
      · exact Inv.intro (by simp) (by simp) (fun _ => hloaded) (fun h' => by cases h') h.trying

/-! ## The frame of a step -/

/-- The command line of a boot does not change. -/
theorem pvRunState_cmdline (cfg : Config) (io : StepIo) {pv : Pv} (h : Inv pv) :
    (pvRunState cfg io pv).cmdline = pv.cmdline := by
  unfold pvRunState
  cases hnext : pv.next with
  | run => exact (pvRun_runSpec cfg io.run h hnext).cmdline
  | wait =>
      dsimp only
      rcases pvWait_spec cfg io.wait pv with ⟨-, next, -, heq⟩ | ⟨-, cmd, next, heq, -⟩
      · rw [heq]
      · rw [heq]
        exact (pvWaitOps_spec cfg io.wait pv).1.cmdline
  | command => exact (pvCommand_spec io.command pv).cmdline
  | update =>
      obtain ⟨u, hu, hs⟩ := h.starting hnext
      rcases pvUpdate_cases cfg io.update hu hs with ⟨-, hspec⟩ | ⟨-, hspec⟩
      · exact hspec.cmdline
      · exact hspec.cmdline
  | rollback =>
      dsimp only
      unfold pvRollback
      split
      · rfl
      · exact (keeps_setStatus pv .updateFailed).cmdline
  | _ => rfl

/-- A state that a step loads is the one of this boot or of a transition. -/
theorem pvRunState_state (cfg : Config) (io : StepIo) {pv : Pv} (h : Inv pv) {rev : Rev}
    (hrev : (pvRunState cfg io pv).state = some rev) :
    pv.state = some rev ∨ rev = pv.cmdline.rev ∨
      ∃ u, pv.update = some u ∧ u.status = .updateTransition ∧ u.pending = some rev := by
  unfold pvRunState at hrev
  cases hnext : pv.next with
  | run =>
      rw [hnext] at hrev
      obtain ⟨-, -, -, hs, -⟩ := pvRun_spec cfg io.run pv
      obtain ⟨hk, hresume⟩ := pvUpdateResume_spec io.run.creds pv
      dsimp only at hrev
      rw [hs] at hrev
      by_cases htrans : pvUpdateIsTransitioning (pvUpdateResume io.run.creds pv).2.update = true
      · -- `pv_state_transfer` of an update that was there
        rw [pvRunLoad, if_pos htrans] at hrev
        obtain ⟨u, hu, hpend⟩ := Option.bind_eq_some_iff.mp hrev
        have hstatus : u.status = .updateTransition := by
          simpa [pvUpdateIsTransitioning, hu] using htrans
        rcases hresume with hsame | ⟨-, r, -, hnew⟩
        · exact Or.inr (Or.inr ⟨u, hsame ▸ hu, hstatus, hpend⟩)
        · rw [← Option.some.inj (hnew.symm.trans hu)] at hstatus
          by_cases heq : r = pv.bl.pvRev <;> simp [resumed, heq] at hstatus
      · obtain ⟨-, -, -, hload⟩ := pvRunLoad_spec io.run (pvUpdateResume io.run.creds pv).2
        rw [hk.state, hk.bl] at hload
        rcases hload (by simpa using htrans) rev hrev with hr | hr
        · exact Or.inl hr
        · cases hu : pv.update with
          | none => exact Or.inr (Or.inl (hr.trans (h.fresh (Or.inr hnext) hu).1))
          | some u =>
              have hst := h.rerun hnext u hu
              rcases hresume with hsame | ⟨hnone, -⟩
              · rw [hsame, hu] at htrans
                simp [pvUpdateIsTransitioning, hst] at htrans
              · rw [hu] at hnone
                cases hnone
  | wait =>
      rw [hnext] at hrev
      dsimp only at hrev
      rcases pvWait_spec cfg io.wait pv with ⟨-, next, -, heq⟩ | ⟨-, cmd, next, heq, -⟩
      · rw [heq] at hrev
        exact Or.inl hrev
      · rw [heq] at hrev
        exact Or.inl ((pvWaitOps_spec cfg io.wait pv).1.state ▸ hrev)
  | command =>
      rw [hnext] at hrev
      exact Or.inl ((pvCommand_spec io.command pv).state ▸ hrev)
  | update =>
      rw [hnext] at hrev
      obtain ⟨u, hu, hs⟩ := h.starting hnext
      rcases pvUpdate_cases cfg io.update hu hs with ⟨-, hspec⟩ | ⟨-, hspec⟩
      · exact Or.inl (hspec.state ▸ hrev)
      · exact Or.inl (hspec.state ▸ hrev)
  | rollback =>
      rw [hnext] at hrev
      dsimp only [pvRollback] at hrev
      split at hrev
      · exact Or.inl hrev
      · exact Or.inl ((keeps_setStatus pv .updateFailed).state ▸ hrev)
  | _ =>
      rw [hnext] at hrev
      exact Or.inl hrev

/-- An update in transition was there before, or is installed in this step. -/
theorem pvRunState_transition (cfg : Config) (io : StepIo) {pv : Pv} (h : Inv pv) {u' : PvUpdate}
    (hu' : (pvRunState cfg io pv).update = some u') (hst : u'.status = .updateTransition) :
    pv.update = some u' ∨
      ∃ rev, u'.pending = some rev ∧ (pvRunState cfg io pv).nv = pv.nv.writeAll [.set keyTry rev] := by
  unfold pvRunState at hu' ⊢
  cases hnext : pv.next with
  | run =>
      rw [hnext] at hu'
      obtain ⟨-, -, hu, -, -⟩ := pvRun_spec cfg io.run pv
      obtain ⟨-, hresume⟩ := pvUpdateResume_spec io.run.creds pv
      dsimp only at hu'
      rw [hu] at hu'
      obtain ⟨-, -, hload, -⟩ := pvRunLoad_spec io.run (pvUpdateResume io.run.creds pv).2
      obtain ⟨u₀, hu₀, hst₀⟩ := hload u' hu'
      have htrans : pvUpdateIsTransitioning (pvUpdateResume io.run.creds pv).2.update = true := by
        simp [pvUpdateIsTransitioning, hu₀, ← hst₀, hst]
      rw [pvRunLoad, if_pos htrans] at hu'
      rcases hresume with hsame | ⟨-, r, -, hnew⟩
      · exact Or.inl (hsame ▸ hu')
      · rw [← Option.some.inj (hnew.symm.trans hu')] at hst
        by_cases heq : r = pv.bl.pvRev <;> simp [resumed, heq] at hst
  | wait =>
      rw [hnext] at hu'
      dsimp only at hu'
      rcases pvWait_spec cfg io.wait pv with ⟨-, next, -, heq⟩ | ⟨-, cmd, next, heq, -⟩
      · rw [heq] at hu'
        exact Or.inl hu'
      · rw [heq] at hu'
        exact Or.inl (((pvWaitOps_spec cfg io.wait pv).1.update u' hu').transition hst)
  | command =>
      rw [hnext] at hu'
      rcases (pvCommand_spec io.command pv).update with ⟨hsame, -⟩ | ⟨-, -, hinit⟩
      · exact Or.inl (hsame ▸ hu')
      · rw [hinit u' hu'] at hst
        cases hst
  | update =>
      rw [hnext] at hu'
      obtain ⟨u, hu, hs⟩ := h.starting hnext
      rcases pvUpdate_cases cfg io.update hu hs with ⟨-, hspec⟩ | ⟨-, hspec⟩
      · obtain ⟨v, hv, -, hpend, -⟩ := hspec.update
        obtain ⟨rev, hrev, hnv⟩ := hspec.nv
        rw [Option.some.inj (hu'.symm.trans hv)]
        exact Or.inr ⟨rev, hpend.trans hrev, hnv⟩
      · rw [(hspec.update u' hu').2.2] at hst
        cases hst
  | rollback =>
      rw [hnext] at hu'
      dsimp only [pvRollback] at hu'
      split at hu'
      · exact Or.inl hu'
      · dsimp only at hu'
        rw [update_setStatus, Option.map_eq_some_iff] at hu'
        obtain ⟨u₀, -, rfl⟩ := hu'
        cases hst
  | _ =>
      rw [hnext] at hu'
      exact Or.inl hu'

/-! ## The writes of a step -/

/-- A finish of `_pv_wait` that commits: the update it finds is one that a
reboot tests, at the end of its commit delay. -/
structure CommitPoint (cfg : Config) (io : StepIo) (pv pv₁ : Pv) : Prop
    extends FinishPoint io.wait pv pv₁ where
  exited : io.wait.exited = false
  testing : ∃ u, pv₁.update = some u ∧ u.status = .updateTestingReboot
  finish : ∃ cmd next, pvRunState cfg io pv
    = { (finishUpdate cfg io.wait.waitUpdate.finish pv₁).2 with cmd := cmd, next := next }

/-- **The writes of a step**: none, an install, a failed update, or a commit. -/
theorem pvRunState_writes (cfg : Config) (io : StepIo) {pv : Pv} (h : Inv pv) :
    (pvRunState cfg io pv).nv = pv.nv ∨
      (pv.next = .update ∧ ∃ u rev, pv.update = some u ∧ u.pending = some rev ∧
        (pvRunState cfg io pv).nv = pv.nv.writeAll [.set keyTry rev]) ∨
      (pv.update.isSome ∧ (pvRunState cfg io pv).nv = pv.nv.writeAll [.unset keyTry]) ∨
      (pv.next = .wait ∧ ∃ pv₁, CommitPoint cfg io pv pv₁ ∧
        (pvRunState cfg io pv).nv
          = pv.nv.writeAll (commitWrites io.wait.waitUpdate.finish.setCommited pv₁.stateRev)) := by
  unfold pvRunState
  cases hnext : pv.next with
  | run => exact Or.inl (pvRun_runSpec cfg io.run h hnext).nv
  | command => exact Or.inl (pvCommand_spec io.command pv).nv
  | rollback =>
      refine Or.inl ?_
      dsimp only
      unfold pvRollback
      split
      · rfl
      · exact (keeps_setStatus pv .updateFailed).nv
  | update =>
      obtain ⟨u, hu, hs⟩ := h.starting hnext
      rcases pvUpdate_cases cfg io.update hu hs with ⟨-, hspec⟩ | ⟨-, hspec⟩
      · obtain ⟨rev, hrev, hnv⟩ := hspec.nv
        exact Or.inr (Or.inl ⟨rfl, u, rev, hu, hrev, hnv⟩)
      · rcases hspec.nv with hnv | hnv
        · exact Or.inl hnv
        · exact Or.inr (Or.inr (Or.inl ⟨by rw [hu]; rfl, hnv⟩))
  | wait =>
      dsimp only
      rcases pvWait_spec cfg io.wait pv with ⟨-, next, -, heq⟩ | ⟨hex, cmd, next, heq, -⟩
      · rw [heq]
        exact Or.inl rfl
      · rw [heq]
        dsimp only
        rcases (pvWaitOps_spec cfg io.wait pv).2 with hnv | ⟨pv₁, hpoint, heq₁⟩
        · exact Or.inl hnv
        · have hf := (finishUpdate_spec cfg io.wait.waitUpdate.finish pv₁).nv
          rw [heq₁, hf, hpoint.nv]
          cases hu : pv₁.update with
          | none => exact Or.inl (by simp [finishWrites, hu, NvEnv.writeAll])
          | some u =>
              have hsome : pv.update.isSome := by
                have hu' := hpoint.update
                rw [hu] at hu'
                cases hupd : pv.update with
                | none => rw [hupd] at hu'; cases hu'
                | some u₀ => rfl
              cases hst : u.status with
              | updateFailed =>
                  simp only [finishWrites, hu, hst]
                  split
                  · exact Or.inr (Or.inr (Or.inl ⟨hsome, rfl⟩))
                  · exact Or.inl rfl
              | updateTestingReboot =>
                  refine Or.inr (Or.inr (Or.inr ⟨rfl, pv₁,
                    ⟨hpoint, hex, ⟨u, hu, hst⟩, cmd, next, ?_⟩, ?_⟩))
                  · simp only [pvRunState, hnext, heq, heq₁]
                  · simp only [finishWrites, hu, hst]
              | _ =>
                  refine Or.inl ?_
                  simp only [finishWrites, hu, hst]
                  rfl
  | _ => exact Or.inl rfl

/-- A process without an update writes nothing. -/
theorem pvRunState_idle (cfg : Config) (io : StepIo) {pv : Pv} (h : Inv pv)
    (hu : pv.update = none) : (pvRunState cfg io pv).nv = pv.nv := by
  rcases pvRunState_writes cfg io h with hnv | ⟨-, u, _, hu', -⟩ | ⟨hsome, -⟩ | ⟨-, pv₁, hpoint, -⟩
  · exact hnv
  · rw [hu] at hu'
    cases hu'
  · rw [hu] at hsome
    cases hsome
  · obtain ⟨u, hu₁, -⟩ := hpoint.testing
    rw [hpoint.update, hu] at hu₁
    cases hu₁

/-! ## The device -/

/-- Every process that runs satisfies `Inv`. -/
def DeviceInv (d : Device) : Prop := ∀ pv, d.ram = some pv → Inv pv

theorem Inv.atStep {pv : Pv} (h : Inv pv) (env : List (CStr × CStr)) : Inv (pv.atStep env) :=
  ⟨h.init, h.fresh, h.rerun, h.loaded, h.starting, h.trying⟩

theorem DeviceInv.step (cfg : Config) {d : Device} (h : DeviceInv d) (e : Event) :
    DeviceInv (d.step cfg e) := by
  intro pv hpv
  cases e with
  | boot unclaimed =>
      simp only [Device.step] at hpv
      split at hpv
      · exact h pv hpv
      · rw [← Option.some.inj hpv]
        exact bootPv_inv _ _ _
  | step io =>
      simp only [Device.step] at hpv
      split at hpv
      · exact h pv hpv
      · rename_i pv₀ hpv₀
        dsimp only at hpv
        split at hpv
        · cases hpv
        · rw [← Option.some.inj hpv]
          exact pvRunState_inv cfg io ((h pv₀ hpv₀).atStep _)
  | powerLoss io writes =>
      simp only [Device.step] at hpv
      split at hpv
      · exact h pv hpv
      · cases hpv

/-- The invariant holds in every run of the device. -/
theorem deviceInv_of_reachable {cfg : Config} {d : Device} (h : (deviceSystem cfg).Reachable d) :
    DeviceInv d :=
  h.induct (fun d hd pv hpv => by rw [hd.1] at hpv; cases hpv) (fun _ e h => h.step cfg e)

/-- The writes of a step of the device that reach the stored environment. -/
def Device.stores (cfg : Config) (d : Device) : Event → List (KeyOp CStr CStr)
  | .boot _ => []
  | .step io => match d.ram with
    | none => []
    | some pv => (d.process cfg io pv).nv.writes
  | .powerLoss io writes => match d.ram with
    | none => []
    | some pv => (d.process cfg io pv).nv.writes.take writes

/-- The stored environment behind a list of writes. -/
theorem Flash.env_foldl (f : Flash) (ops : List (KeyOp CStr CStr)) :
    (ops.foldl Flash.write f).env = ops.foldl KeyOp.apply f.env := by
  induction ops generalizing f with
  | nil => rfl
  | cons op ops ih => exact ih (f.write op)

/-- A step changes the stored environment by what it stores. -/
theorem Device.env_step (cfg : Config) (d : Device) (e : Event) :
    (d.step cfg e).flash.env = (d.stores cfg e).foldl KeyOp.apply d.flash.env := by
  cases e with
  | boot unclaimed =>
      cases hr : d.ram <;> simp [Device.step, Device.stores, Device.bootStep, hr]
  | step io =>
      cases hr : d.ram <;> simp [Device.step, Device.stores, hr, Flash.env_foldl]
  | powerLoss io writes =>
      cases hr : d.ram <;> simp [Device.step, Device.stores, hr, Flash.env_foldl]

/-- What is stored comes from a step of the process. -/
theorem Device.mem_stores {cfg : Config} {d : Device} {e : Event} {op : KeyOp CStr CStr}
    (h : op ∈ d.stores cfg e) :
    ∃ pv io, d.ram = some pv ∧ (e = .step io ∨ ∃ writes, e = .powerLoss io writes) ∧
      op ∈ (d.process cfg io pv).nv.writes := by
  cases e with
  | boot unclaimed => cases h
  | step io =>
      cases hr : d.ram with
      | none => simp [Device.stores, hr] at h
      | some pv => exact ⟨pv, io, rfl, Or.inl rfl, by simpa [Device.stores, hr] using h⟩
  | powerLoss io writes =>
      cases hr : d.ram with
      | none => simp [Device.stores, hr] at h
      | some pv =>
          have hmem : op ∈ (d.process cfg io pv).nv.writes.take writes := by
            simpa [Device.stores, hr] using h
          exact ⟨pv, io, rfl, Or.inr ⟨writes, rfl⟩, List.mem_of_mem_take hmem⟩

/-- **Every write of a process**: the install of the update it works on, the
end of a failed update, or one of a commit. -/
theorem Device.mem_process_writes {cfg : Config} {d : Device} {io : StepIo} {pv : Pv}
    (h : Inv pv) {op : KeyOp CStr CStr} (hop : op ∈ (d.process cfg io pv).nv.writes) :
    (pv.next = .update ∧ ∃ u rev, pv.update = some u ∧ u.pending = some rev ∧
        op = .set keyTry rev) ∨
      op = .unset keyTry ∨
      (pv.next = .wait ∧ ∃ pv₁, CommitPoint cfg io (pv.atStep d.flash.env) pv₁ ∧
        op ∈ commitWrites io.wait.waitUpdate.finish.setCommited pv₁.stateRev) := by
  have hwrites : ∀ ops, (d.process cfg io pv).nv
      = (pv.atStep d.flash.env).nv.writeAll ops → op ∈ ops := by
    intro ops heq
    rw [heq, NvEnv.writes_writeAll] at hop
    exact hop
  rcases pvRunState_writes cfg io (h.atStep d.flash.env) with
    hnv | ⟨hnext, u, rev, hu, hrev, hnv⟩ | ⟨-, hnv⟩ | ⟨hnext, pv₁, hpoint, hnv⟩
  · have hnil := hwrites [] hnv
    cases hnil
  · exact Or.inl ⟨hnext, u, rev, hu, hrev, List.mem_singleton.mp (hwrites _ hnv)⟩
  · exact Or.inr (Or.inl (List.mem_singleton.mp (hwrites _ hnv)))
  · exact Or.inr (Or.inr ⟨hnext, pv₁, hpoint, hwrites _ hnv⟩)

/-- The writes of a commit: the revision, and the end of the try. -/
theorem mem_commitWrites {io : CommitIo Bool} {rev : Rev} {op : KeyOp CStr CStr}
    (h : op ∈ commitWrites io rev) : op = .set keyRev rev ∨ op = .unset keyTry := by
  unfold commitWrites at h
  split at h
  · rcases List.mem_cons.mp h with h | h
    · exact Or.inl h
    · split at h
      · exact Or.inr (List.mem_singleton.mp h)
      · cases h
  · cases h

/-- A process at a commit runs the revision that this boot tries. -/
theorem CommitPoint.running {cfg : Config} {io : StepIo} {pv pv₁ : Pv} (h : Inv pv)
    (hnext : pv.next = .wait) (hpoint : CommitPoint cfg io pv pv₁) :
    pv.cmdline.tryRev = some pv.cmdline.rev ∧ pv.state = some pv.cmdline.rev ∧
      pv₁.stateRev = pv.cmdline.rev := by
  obtain ⟨u₁, hu₁, hst₁⟩ := hpoint.testing
  rw [hpoint.update, Option.map_eq_some_iff] at hu₁
  obtain ⟨u, hu, rfl⟩ := hu₁
  have htrial : u.status.Trial := UpdateState.trial_of_tested (Or.inr hst₁)
  obtain ⟨htry, hrev⟩ := h.trying u hu htrial
  obtain ⟨rev, hs⟩ := Option.isSome_iff_exists.mp (h.loaded (Or.inl hnext))
  have heq := hrev rev hs
  subst heq
  exact ⟨htry, hs, by rw [Pv.stateRev, hpoint.state, hs, Option.getD_some]⟩

end Pantavisor.Controller
