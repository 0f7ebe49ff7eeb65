/-
Pantavisor.Controller.Deferral — how long uploaded objects are kept from the collector
(`pv_storage_gc_defer_run_threshold` and `pv_storage_gc_run_threshold` in `storage.c`).

An upload sets `loading_objects` and starts a timer; the flag goes when the timer has run out,
but `_pv_run` clears it at any time, and the timer alone keeps nobody. So the deferral holds as
long as no `_pv_run` comes in it (`deferralRespected`).
-/
import Pantavisor.Controller.Attempt

namespace Pantavisor.Controller

open Pantavisor.Lib Pantavisor.Bootloader

/-! ## The collector -/

/-- `loading_objects` and the timeout of `threshold_timer`. Times are in nanoseconds:
`timer_current_state` compares the seconds and then the nanoseconds. -/
structure Gc where
  loadingObjects : Bool
  thresholdTimer : Int
  deriving DecidableEq, Repr

/-- The two when the process starts. -/
def Gc.boot : Gc := ⟨false, 0⟩

/-- Where a timer of so many seconds ends. -/
def timerEnd (now seconds : Int) : Int := now + 1000000000 * seconds

/-- `pv_storage_gc_defer_run_threshold` -/
def pvStorageGcDeferRunThreshold (defertime now : Int) (gc : Gc) : Gc :=
  let gc := { gc with thresholdTimer := timerEnd now defertime }
  if gc.loadingObjects then gc else { gc with loadingObjects := true }

/-- `pv_storage_gc_run_threshold`, with whether it runs the collector. `storage` is
`real_free_percentage`, if it could be had. -/
def pvStorageGcRunThreshold (threshold now : Int) (storage : Option Int) (gc : Gc) : Gc × Bool :=
  let gc := if gc.loadingObjects ∧ gc.thresholdTimer ≤ now then { gc with loadingObjects := false }
    else gc
  if threshold = 0 ∨ gc.loadingObjects then (gc, false)
  else (gc, storage.any fun free => free < threshold)

/-! ## Where the process comes to it -/

/-- `_pv_run` gets to where it clears `loading_objects`: if all calls behind that worked, it
would go on to WAIT. -/
def Pv.clearsLoading (cfg : Config) (io : RunIo) (pv : Pv) : Bool :=
  (pvRun cfg { io with mount := true, makeConfig := true, start := true } pv).next = .wait

/-- `_pv_wait` gets to the collector and to the control socket: without a command it would stay
in WAIT. -/
def Pv.polls (cfg : Config) (io : WaitIo) (pv : Pv) : Bool :=
  (pvWait cfg { io with cmd := none } pv).next = .wait

/-- An object that the control socket accepts, behind so many nanoseconds, with the configured
defer time. -/
structure Upload where
  elapsed : Nat
  defertime : Int
  deriving DecidableEq, Repr

/-- What a step finds in the way of the collector: the nanoseconds to where it comes to it, the
configured threshold, the storage, and an upload behind it. -/
structure GcIo where
  elapsed : Nat
  threshold : Int
  storage : Option Int
  upload : Option Upload
  deriving DecidableEq, Repr

/-- A device with the collector of its process, the monotonic clock, and the last accepted upload
with its defer time. -/
structure Deferring where
  device : Device
  gc : Gc
  clock : Int
  last : Option (Int × Int)
  deriving DecidableEq, Repr

/-- The time at which a step comes to the collector. -/
def Deferring.now (s : Deferring) (g : GcIo) : Int := s.clock + g.elapsed

/-- The upload of a step. The control socket takes one request, and it is this or a command. -/
def GcIo.accepted (io : StepIo) (g : GcIo) : Option Upload :=
  if io.wait.cmd.isSome then none else g.upload

/-- A step of the process that `pv` is in, with whether it collects. -/
def Deferring.gcStep (cfg : Config) (s : Deferring) (io : StepIo) (g : GcIo) (pv : Pv) :
    Deferring × Bool :=
  let now := s.now g
  let s := { s with device := s.device.step cfg (.step io), clock := now }
  match pv.next with
  | .run =>
    if pv.clearsLoading cfg io.run then ({ s with gc := { s.gc with loadingObjects := false } }, false)
    else (s, false)
  | .wait =>
    if pv.polls cfg io.wait then
      let (gc, collected) := pvStorageGcRunThreshold g.threshold now g.storage s.gc
      match g.accepted io with
      | none => ({ s with gc := gc }, collected)
      | some u =>
        let now := now + u.elapsed
        ({ s with
            gc := { pvStorageGcDeferRunThreshold u.defertime now gc with loadingObjects := true }
            clock := now
            last := some (now, u.defertime) }, collected)
    else (s, false)
  | _ => (s, false)

/-- A step of the device; one that is off stays so. -/
def Deferring.step (cfg : Config) (s : Deferring) (e : StepIo × GcIo) : Deferring × Bool :=
  match s.device.ram with
  | none => (s, false)
  | some pv => s.gcStep cfg e.1 e.2 (pv.atStep s.device.flash.env)

/-- The runs of one process, from the start of it. -/
def deferringSystem (cfg : Config) : System Deferring (StepIo × GcIo) where
  init s := s.gc = .boot ∧ s.last = none
  step s e := (s.step cfg e).1

/-! ## What is to hold -/

/-- The defer time of the last upload is over at a time. -/
def Deferring.Over (s : Deferring) (now : Int) : Prop :=
  ∀ t defertime, s.last = some (t, defertime) → timerEnd t defertime ≤ now

/-- A step that collects does so when the defer time is over. -/
def Respects (cfg : Config) (s : Deferring) (e : StepIo × GcIo) : Prop :=
  (s.step cfg e).2 = true → s.Over (s.now e.2)

/-- A step that clears `loading_objects` in `_pv_run` does so when the defer time is over. -/
def ClearsInTime (cfg : Config) (s : Deferring) (e : StepIo × GcIo) : Prop :=
  ∀ pv, s.device.ram = some pv → pv.next = .run →
    (pv.atStep s.device.flash.env).clearsLoading cfg e.1.run = true → s.Over (s.now e.2)

/-! ## The proof -/

/-- Between steps the flag is set, or the defer time is over. -/
structure Deferring.Inv (s : Deferring) : Prop where
  timer : ∀ t defertime, s.last = some (t, defertime) → s.gc.thresholdTimer = timerEnd t defertime
  flag : s.gc.loadingObjects = true ∨ s.Over s.clock

/-- The collector runs only without the flag, which goes when the timer has run out. -/
theorem pvStorageGcRunThreshold_spec (threshold now : Int) (storage : Option Int) (gc : Gc) :
    (pvStorageGcRunThreshold threshold now storage gc).1.thresholdTimer = gc.thresholdTimer ∧
      (gc.loadingObjects = true → gc.thresholdTimer ≤ now ∨
        (pvStorageGcRunThreshold threshold now storage gc).1.loadingObjects = true ∧
          (pvStorageGcRunThreshold threshold now storage gc).2 = false) := by
  unfold pvStorageGcRunThreshold
  dsimp only
  by_cases hfin : gc.loadingObjects = true ∧ gc.thresholdTimer ≤ now
  · rw [if_pos hfin]
    refine ⟨?_, fun _ => .inl hfin.2⟩
    split <;> rfl
  · rw [if_neg hfin]
    refine ⟨?_, fun hflag => .inr ?_⟩
    · split <;> rfl
    · rw [if_pos (.inr hflag)]
      exact ⟨hflag, rfl⟩

section Steps

variable {cfg : Config} {s : Deferring}

theorem Deferring.Over.later {now later : Int} (h : s.Over now) (hle : now ≤ later) :
    s.Over later := fun t defertime hlast => Int.le_trans (h t defertime hlast) hle

theorem now_ge (g : GcIo) : s.clock ≤ s.now g := by
  rw [Deferring.now]
  omega

/-- A step that leaves the collector alone, but for the flag when the defer time is over. -/
theorem inv_of_quiet (h : s.Inv) {s' : Deferring} (htimer : s'.gc.thresholdTimer = s.gc.thresholdTimer)
    (hlast : s'.last = s.last) (hclock : s.clock ≤ s'.clock)
    (hflag : s'.gc.loadingObjects = s.gc.loadingObjects ∨ s.Over s'.clock) : s'.Inv := by
  have hover : ∀ now, s.Over now → s'.Over now := fun now hnow t defertime hs' =>
    hnow t defertime (hlast ▸ hs')
  refine ⟨fun t defertime hs' => ?_, ?_⟩
  · rw [htimer]
    exact h.timer t defertime (hlast ▸ hs')
  · rcases hflag with hsame | hnow
    · rw [hsame]
      exact h.flag.imp_right fun hs => hover _ (hs.later hclock)
    · exact .inr (hover _ hnow)

/-- The timer of the last upload has run out exactly if its defer time is over. -/
theorem over_of_timer (h : s.Inv) {now : Int} (htimer : s.gc.thresholdTimer ≤ now) : s.Over now :=
  fun t defertime hlast => h.timer t defertime hlast ▸ htimer

/-- The collector in `_pv_wait`, with an upload behind it or without. -/
theorem gcStep_wait (h : s.Inv) (io : StepIo) (g : GcIo) {pv : Pv} (hnext : pv.next = .wait) :
    (s.gcStep cfg io g pv).1.Inv ∧ ((s.gcStep cfg io g pv).2 = true → s.Over (s.now g)) := by
  have hnow := now_ge (s := s) g
  obtain ⟨htimer, hflag⟩ := pvStorageGcRunThreshold_spec g.threshold (s.now g) g.storage s.gc
  have hover : s.gc.loadingObjects = false → s.Over (s.now g) := fun hclear =>
    (h.flag.resolve_left (by rw [hclear]; decide)).later hnow
  have hran : (pvStorageGcRunThreshold g.threshold (s.now g) g.storage s.gc).2 = true →
      s.Over (s.now g) := by
    intro hran
    cases hloading : s.gc.loadingObjects with
    | false => exact hover hloading
    | true =>
      rcases hflag hloading with hfin | ⟨-, hquiet⟩
      · exact over_of_timer h hfin
      · rw [hran] at hquiet
        cases hquiet
  have hset : (pvStorageGcRunThreshold g.threshold (s.now g) g.storage s.gc).1.loadingObjects
      = s.gc.loadingObjects ∨ s.Over (s.now g) := by
    cases hloading : s.gc.loadingObjects with
    | false => exact .inr (hover hloading)
    | true =>
      rcases hflag hloading with hfin | ⟨hkept, -⟩
      · exact .inr (over_of_timer h hfin)
      · exact .inl hkept
  unfold Deferring.gcStep
  rw [hnext]
  dsimp only
  split
  · cases hup : g.accepted io with
    | none => exact ⟨inv_of_quiet h htimer rfl hnow hset, hran⟩
    | some u =>
      refine ⟨⟨fun t defertime hlast => ?_, .inl rfl⟩, hran⟩
      obtain ⟨rfl, rfl⟩ := Prod.mk.inj (Option.some.inj hlast)
      dsimp only
      unfold pvStorageGcDeferRunThreshold
      dsimp only
      split <;> rfl
  · exact ⟨inv_of_quiet h rfl rfl hnow (.inl rfl), fun hno => by cases hno⟩

/-- **A step** keeps the deferral if it does not clear the flag too early. -/
theorem step_respects (h : s.Inv) {e : StepIo × GcIo} (hclears : ClearsInTime cfg s e) :
    (s.step cfg e).1.Inv ∧ Respects cfg s e := by
  rw [Respects]
  unfold Deferring.step
  cases hram : s.device.ram with
  | none => exact ⟨h, fun hno => by cases hno⟩
  | some pv =>
    dsimp only
    have hnow := now_ge (s := s) e.2
    have hkeep : ({ s with device := s.device.step cfg (.step e.1), clock := s.now e.2 } :
        Deferring).Inv := inv_of_quiet h rfl rfl hnow (.inl rfl)
    cases hnext : pv.next with
    | wait => exact gcStep_wait h e.1 e.2 hnext
    | run =>
      have hnext' : (pv.atStep s.device.flash.env).next = .run := hnext
      simp only [Deferring.gcStep, hnext']
      split
      · rename_i hclear
        exact ⟨inv_of_quiet h rfl rfl hnow (.inr (hclears pv hram hnext hclear)),
          fun hno => by cases hno⟩
      · exact ⟨hkeep, fun hno => by cases hno⟩
    | _ =>
      have hnext' := hnext
      simp only [Deferring.gcStep, Pv.atStep, hnext']
      exact ⟨hkeep, fun hno => by cases hno⟩

end Steps

/-- **Collection respects the deferral** in every run in which no `_pv_run` clears the flag before
the defer time of the last upload is over. -/
theorem deferralRespected (cfg : Config) {s : Deferring} (hinit : (deferringSystem cfg).init s)
    {es : List (StepIo × GcIo)}
    (hclears : (deferringSystem cfg).Along (ClearsInTime cfg) s es) :
    (deferringSystem cfg).Along (Respects cfg) s es := by
  have hinv : s.Inv := by
    refine ⟨fun t defertime hlast => ?_, .inr fun t defertime hlast => ?_⟩ <;>
      · rw [hinit.2] at hlast
        cases hlast
  have hstep : ∀ (s : Deferring) (e : StepIo × GcIo), s.Inv → ClearsInTime cfg s e →
      ((deferringSystem cfg).step s e).Inv ∧ Respects cfg s e :=
    fun s e h hclear => step_respects h hclear
  exact (System.along_of_invariant hstep hinv hclears).1

/-- A device that was just booted on revision 1. -/
def deferringDevice : Deferring where
  device := (deviceSystem .unattended).run ⟨⟨[(str "pv_rev", str "1")], false⟩, none⟩ [.boot false]
  gc := .boot
  clock := 0
  last := none

/-- A step behind a second, with a storage of which a tenth is free, below the threshold. -/
def GcIo.low : GcIo := ⟨1000000000, 30, some 10, none⟩

/-- The same with an object that is uploaded, which is to be kept for ten minutes. -/
def GcIo.uploaded : GcIo := { GcIo.low with upload := some ⟨0, 600⟩ }

/-- An upload, and a step ten minutes later. -/
def waitedRun : List (StepIo × GcIo) :=
  [(.ok, .low), (.ok, .low), (.ok, .uploaded), (.ok, { GcIo.low with elapsed := 600000000000 })]

/-- The collector that runs behind them. -/
theorem deferralRespected_waited :
    (deferringSystem .unattended).Along (Respects .unattended) deferringDevice waitedRun := by
  have hnone : ∀ s : Deferring, s.last = none → ∀ e, ClearsInTime .unattended s e := by
    intro s hlast e pv _ _ _ t defertime hs
    rw [hlast] at hs
    cases hs
  have hwait : ∀ s : Deferring, (s.device.ram.map (·.next)) = some .wait →
      ∀ e, ClearsInTime .unattended s e := by
    intro s hs e pv hram hrun
    rw [hram, Option.map_some, hrun] at hs
    cases hs
  exact deferralRespected .unattended ⟨rfl, rfl⟩
    ⟨hnone _ rfl _, hnone _ (by decide +kernel) _, hwait _ (by decide +kernel) _,
      hwait _ (by decide +kernel) _, trivial⟩

/-- An upload, and a local revision that runs without a reboot. -/
def transitionedRun : List (StepIo × GcIo) :=
  [(.ok, .low), (.ok, .low), (.ok, .uploaded), (.localRun (str "locals/2"), .low), (.ok, .low),
    (.ok, .low), (.ok, .low), (.ok, .low)]

/-- Behind the transition the collector runs in the time of the upload. -/
theorem transition_ends_deferral :
    ¬ ∀ (cfg : Config) (s : Deferring) (es : List (StepIo × GcIo)),
      (deferringSystem cfg).init s → (deferringSystem cfg).Along (Respects cfg) s es := by
  intro h
  obtain ⟨-, -, -, -, -, -, -, hlast, -⟩ := h .unattended deferringDevice transitionedRun ⟨rfl, rfl⟩
  have hover := hlast (by decide +kernel) 3000000000 600 (by decide +kernel)
  exact absurd hover (by decide +kernel)

end Pantavisor.Controller
