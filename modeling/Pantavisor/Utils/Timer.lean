/-
Pantavisor.Utils.Timer — the timers (`utils/timer.c`).

A timer holds the time at which it is due, and `timer_current_state` gives what is
left until then, or what has passed since. A relative timer is due at a sum whose
nanoseconds nobody carries into its seconds, and where a difference has to borrow a
second its nanoseconds are taken the wrong way round. `timer_exact_iff` says for
which times the state is the right one all the same.

The seconds are a `time_t` of 64 bits; `none` is an overflow. Nanoseconds below a
second add up to a `long`.

The clock that is read is that of the type a timer holds. `timer_start` does not
store the type it is given: a timer in zeroed memory is read on `CLOCK_MONOTONIC`
also when it was started as an absolute one. Every caller starts a relative timer.
-/
import Mathlib.Algebra.Group.Int.Defs
import Mathlib.Algebra.Group.Nat.Defs

namespace Pantavisor.Utils

/-! ## Timers -/

/-- `struct timespec` -/
structure Timespec where
  sec : Int
  nsec : Int
  deriving DecidableEq, Repr

/-- `timer_type_t` -/
inductive TimerType where
  | relativ
  | absolute
  deriving DecidableEq, Repr

/-- `struct timer` -/
structure Timer where
  type : TimerType
  timeout : Timespec
  deriving DecidableEq, Repr

/-- `struct timer_state` -/
structure TimerState where
  fin : Bool
  sec : Int
  nsec : Int
  deriving DecidableEq, Repr

/-- The range of a `time_t`. -/
def FitsTime (n : Int) : Prop := -(2 ^ 63) ≤ n ∧ n < 2 ^ 63

instance (n : Int) : Decidable (FitsTime n) := inferInstanceAs (Decidable (_ ∧ _))

/-- The result of an operation on `time_t`. -/
def timeT (n : Int) : Option Int := if FitsTime n then some n else none

/-- `timer_current_state`, where the clock of the type that the timer holds shows `now`. -/
def timerCurrentState (t : Timer) (now : Timespec) : Option TimerState :=
  let fin := decide (t.timeout.sec < now.sec) ||
    decide (now.sec = t.timeout.sec) && decide (t.timeout.nsec ≤ now.nsec)
  if fin then
    if now.nsec < t.timeout.nsec then do
      let sec ← timeT (now.sec - t.timeout.sec)
      return ⟨fin, ← timeT (sec - 1), t.timeout.nsec - now.nsec⟩
    else do
      return ⟨fin, ← timeT (now.sec - t.timeout.sec), now.nsec - t.timeout.nsec⟩
  else
    if t.timeout.nsec < now.nsec then do
      let sec ← timeT (t.timeout.sec - now.sec)
      return ⟨fin, ← timeT (sec - 1), now.nsec - t.timeout.nsec⟩
    else do
      return ⟨fin, ← timeT (t.timeout.sec - now.sec), t.timeout.nsec - now.nsec⟩

/-- `timer_start`, where the same clock shows `now`. The type is not stored. -/
def timerStart (t : Timer) (now : Timespec) (sec nsec : Int) : TimerType → Option Timer
  | .relativ => do return { t with timeout := ⟨← timeT (now.sec + sec), now.nsec + nsec⟩ }
  | .absolute => some { t with timeout := ⟨sec, nsec⟩ }

/-! ## What the header promises -/

/-- Nanoseconds that are less than a second. -/
def Timespec.Normal (t : Timespec) : Prop := 0 ≤ t.nsec ∧ t.nsec < 1000000000

instance (t : Timespec) : Decidable t.Normal := inferInstanceAs (Decidable (_ ∧ _))

/-- A time in nanoseconds. -/
def Timespec.total (t : Timespec) : Int := t.sec * 1000000000 + t.nsec

/-- When a timer is due, on the clock that it is read on. -/
def due (start duration : Timespec) : TimerType → Int
  | .relativ => start.total + duration.total
  | .absolute => duration.total

/-- The state of a timer that is due at a time. -/
structure TimerState.Exact (st : TimerState) (due now : Int) : Prop where
  fin : st.fin = true ↔ due ≤ now
  sec : 0 ≤ st.sec
  nsec : 0 ≤ st.nsec ∧ st.nsec < 1000000000
  diff : st.sec * 1000000000 + st.nsec = (now - due).natAbs

/-- The timer, started and asked, shows its exact state. -/
def TimerExact (t : Timer) (type : TimerType) (start duration now : Timespec) : Prop :=
  ∃ t' st, timerStart t start duration.sec duration.nsec type = some t' ∧
    timerCurrentState t' now = some st ∧ st.Exact (due start duration type) now.total

/-! ## When it holds -/

/-- The fields of the timeout. -/
def timeoutOf (start duration : Timespec) : TimerType → Timespec
  | .relativ => ⟨start.sec + duration.sec, start.nsec + duration.nsec⟩
  | .absolute => duration

/-- The timeout, compared field by field, has been reached. -/
def Reached (timeout now : Timespec) : Prop :=
  timeout.sec < now.sec ∨ now.sec = timeout.sec ∧ timeout.nsec ≤ now.nsec

instance (timeout now : Timespec) : Decidable (Reached timeout now) :=
  inferInstanceAs (Decidable (_ ∨ _))

/-- No second has to be borrowed or carried, or what is borrowed comes out the same
either way round. -/
def NoBorrow (timeout now : Timespec) : Prop :=
  if Reached timeout now then
    timeout.nsec ≤ now.nsec ∨ timeout.nsec - now.nsec = 500000000
  else
    now.nsec - timeout.nsec = 500000000 ∨
      now.nsec ≤ timeout.nsec ∧ timeout.nsec - now.nsec < 1000000000

instance (timeout now : Timespec) : Decidable (NoBorrow timeout now) := by
  unfold NoBorrow
  infer_instance

/-- The seconds do not overflow. -/
def SecondsFit (start duration now : Timespec) (type : TimerType) : Prop :=
  (type = .relativ → FitsTime (start.sec + duration.sec)) ∧
    (now.sec - (timeoutOf start duration type).sec).natAbs < 2 ^ 63

instance (start duration now : Timespec) (type : TimerType) :
    Decidable (SecondsFit start duration now type) := inferInstanceAs (Decidable (_ ∧ _))

theorem timerStart_eq (t : Timer) (start duration : Timespec) (type : TimerType) :
    timerStart t start duration.sec duration.nsec type =
      if type = .relativ → FitsTime (start.sec + duration.sec) then
        some { t with timeout := timeoutOf start duration type }
      else none := by
  cases type with
  | relativ =>
    by_cases h : FitsTime (start.sec + duration.sec) <;>
      simp [timerStart, timeoutOf, timeT, h]
  | absolute => simp [timerStart, timeoutOf]

theorem timeT_of_nonneg {n : Int} (h : 0 ≤ n) :
    timeT n = if n.natAbs < 2 ^ 63 then some n else none := by
  rw [timeT]
  by_cases hfits : n.natAbs < 2 ^ 63
  · rw [if_pos hfits, if_pos ⟨by omega, by omega⟩]
  · rw [if_neg hfits, if_neg fun h' => hfits (by have := h'.2; omega)]

/-- A second is borrowed from a difference that has one. -/
theorem timeT_borrow {α : Type} {n : Int} (h : 1 ≤ n) (f : Int → α) :
    (do let sec ← timeT n; return f (← timeT (sec - 1)))
      = if n.natAbs < 2 ^ 63 then some (f (n - 1)) else none := by
  rw [timeT_of_nonneg (by omega)]
  by_cases hfits : n.natAbs < 2 ^ 63
  · rw [if_pos hfits, if_pos hfits, Option.bind_eq_bind, Option.bind_some,
      timeT_of_nonneg (by omega), if_pos (by omega)]
    rfl
  · rw [if_neg hfits, if_neg hfits]
    rfl

/-- The state, if nothing overflows: the nanoseconds are a distance, whatever is
borrowed from the seconds. -/
def stateAt (timeout now : Timespec) : TimerState :=
  if Reached timeout now then
    ⟨true, if now.nsec < timeout.nsec then now.sec - timeout.sec - 1 else now.sec - timeout.sec,
      (now.nsec - timeout.nsec).natAbs⟩
  else
    ⟨false, if timeout.nsec < now.nsec then timeout.sec - now.sec - 1 else timeout.sec - now.sec,
      (now.nsec - timeout.nsec).natAbs⟩

theorem timerCurrentState_eq (t : Timer) (now : Timespec) :
    timerCurrentState t now = if (now.sec - t.timeout.sec).natAbs < 2 ^ 63 then
      some (stateAt t.timeout now) else none := by
  obtain ⟨type, ⟨sec, nsec⟩⟩ := t
  obtain ⟨nowSec, nowNsec⟩ := now
  have hfin : (decide (sec < nowSec) || decide (nowSec = sec) && decide (nsec ≤ nowNsec))
      = decide (Reached ⟨sec, nsec⟩ ⟨nowSec, nowNsec⟩) := by
    rw [← Bool.decide_and, ← Bool.decide_or]
    rfl
  have hswap : (nowSec - sec).natAbs = (sec - nowSec).natAbs := by omega
  rw [timerCurrentState, stateAt]
  dsimp only
  rw [hfin]
  by_cases hreached : Reached ⟨sec, nsec⟩ ⟨nowSec, nowNsec⟩
  · rw [decide_eq_true hreached, if_pos rfl, if_pos hreached]
    have hle : sec ≤ nowSec ∧ (sec = nowSec → nsec ≤ nowNsec) := by
      rcases hreached with h | h <;> simp only at h <;> omega
    by_cases hless : nowNsec < nsec
    · have habs : ((nowNsec - nsec).natAbs : Int) = nsec - nowNsec := by omega
      have hsec : sec ≠ nowSec := fun heq => absurd (hle.2 heq) (by omega)
      rw [if_pos hless, if_pos hless, habs]
      exact timeT_borrow (n := nowSec - sec) (by omega) fun sec =>
        TimerState.mk true sec (nsec - nowNsec)
    · have habs : ((nowNsec - nsec).natAbs : Int) = nowNsec - nsec := by omega
      rw [if_neg hless, if_neg hless, habs, timeT_of_nonneg (by omega)]
      split <;> rfl
  · rw [decide_eq_false hreached, if_neg Bool.false_ne_true, if_neg hreached, hswap]
    have hle : nowSec ≤ sec ∧ (sec = nowSec → nowNsec < nsec) := by
      simp only [Reached, not_or, not_and] at hreached
      omega
    by_cases hless : nsec < nowNsec
    · have habs : ((nowNsec - nsec).natAbs : Int) = nowNsec - nsec := by omega
      have hsec : sec ≠ nowSec := fun heq => absurd (hle.2 heq) (by omega)
      rw [if_pos hless, if_pos hless, habs]
      exact timeT_borrow (n := sec - nowSec) (by omega) fun sec =>
        TimerState.mk false sec (nowNsec - nsec)
    · have habs : ((nowNsec - nsec).natAbs : Int) = nsec - nowNsec := by omega
      rw [if_neg hless, if_neg hless, habs, timeT_of_nonneg (by omega)]
      split <;> rfl

/-- What the state at a timeout shows, against the difference of the totals. -/
theorem exact_stateAt_iff {timeout now : Timespec} (htimeout : 0 ≤ timeout.nsec)
    (hnow : now.Normal) :
    (stateAt timeout now).Exact timeout.total now.total ↔ NoBorrow timeout now := by
  obtain ⟨sec, nsec⟩ := timeout
  obtain ⟨nowSec, nowNsec⟩ := now
  obtain ⟨hlow, hhigh⟩ := hnow
  dsimp only at htimeout hlow hhigh
  by_cases hreached : Reached ⟨sec, nsec⟩ ⟨nowSec, nowNsec⟩
  · have hle : sec ≤ nowSec ∧ (sec = nowSec → nsec ≤ nowNsec) := by
      rcases hreached with h | h <;> simp only at h <;> omega
    rw [stateAt, NoBorrow, if_pos hreached, if_pos hreached]
    dsimp only
    by_cases hless : nowNsec < nsec
    · rw [if_pos hless]
      constructor
      · intro h
        have hdiff := h.diff
        simp only [Timespec.total] at hdiff
        exact .inr (by omega)
      · intro h
        have hhalf : nsec - nowNsec = 500000000 := h.resolve_left (by omega)
        refine ⟨?_, ?_, ?_, ?_⟩ <;> simp only [Timespec.total, true_iff] <;> omega
    · rw [if_neg hless]
      refine iff_of_true ?_ (.inl (by omega))
      refine ⟨?_, ?_, ?_, ?_⟩ <;> simp only [Timespec.total, true_iff] <;> omega
  · have hle : nowSec ≤ sec ∧ (sec = nowSec → nowNsec < nsec) := by
      simp only [Reached, not_or, not_and] at hreached
      omega
    rw [stateAt, NoBorrow, if_neg hreached, if_neg hreached]
    dsimp only
    by_cases hless : nsec < nowNsec
    · rw [if_pos hless]
      constructor
      · intro h
        have hdiff := h.diff
        simp only [Timespec.total] at hdiff
        exact .inl (by omega)
      · intro h
        have hhalf : nowNsec - nsec = 500000000 := h.resolve_right (by omega)
        refine ⟨?_, ?_, ?_, ?_⟩ <;>
          simp only [Timespec.total, Bool.false_eq_true, false_iff] <;> omega
    · rw [if_neg hless]
      constructor
      · intro h
        have hnsec := h.nsec
        dsimp only at hnsec
        exact .inr (by omega)
      · intro h
        have hnsec : nsec - nowNsec < 1000000000 := by omega
        refine ⟨?_, ?_, ?_, ?_⟩ <;>
          simp only [Timespec.total, Bool.false_eq_true, false_iff] <;> omega

theorem due_eq (start duration : Timespec) (type : TimerType) :
    due start duration type = (timeoutOf start duration type).total := by
  cases type with
  | relativ =>
    simp only [due, timeoutOf, Timespec.total]
    omega
  | absolute => rfl

/-- **Timer arithmetic is exact** if and only if the seconds do not overflow and no
second has to be borrowed or carried. -/
theorem timer_exact_iff (t : Timer) (type : TimerType) {start duration now : Timespec}
    (hstart : start.Normal) (hduration : duration.Normal) (hnow : now.Normal) :
    TimerExact t type start duration now ↔
      SecondsFit start duration now type ∧ NoBorrow (timeoutOf start duration type) now := by
  have htimeout : 0 ≤ (timeoutOf start duration type).nsec := by
    cases type with
    | relativ => exact Int.add_nonneg hstart.1 hduration.1
    | absolute => exact hduration.1
  rw [TimerExact, timerStart_eq, SecondsFit, due_eq]
  constructor
  · rintro ⟨t', st, hstarted, hstate, hexact⟩
    split at hstarted
    · rename_i hfits
      obtain rfl := Option.some.inj hstarted
      rw [timerCurrentState_eq] at hstate
      split at hstate
      · rename_i hdiff
        obtain rfl := Option.some.inj hstate
        exact ⟨⟨hfits, hdiff⟩, (exact_stateAt_iff htimeout hnow).mp hexact⟩
      · cases hstate
    · cases hstarted
  · rintro ⟨⟨hfits, hdiff⟩, hborrow⟩
    refine ⟨_, _, if_pos hfits, ?_, (exact_stateAt_iff htimeout hnow).mpr hborrow⟩
    rw [timerCurrentState_eq, if_pos hdiff]

/-- A second and a half behind the start, asked half a second later. -/
theorem timer_exact_iff_half :
    TimerExact ⟨.relativ, ⟨0, 0⟩⟩ .relativ ⟨10, 0⟩ ⟨1, 500000000⟩ ⟨12, 0⟩ :=
  (timer_exact_iff _ _ (by decide) (by decide) (by decide)).mpr (by decide)

/-- A timer of one second, asked 1.2 s behind its start: it shows that 0.8 s have passed. -/
theorem timer_shows_complement :
    ¬ ∀ (t : Timer) (type : TimerType) (start duration now : Timespec), start.Normal →
      duration.Normal → now.Normal → TimerExact t type start duration now := by
  intro h
  obtain ⟨t', st, hstarted, hstate, hexact⟩ := h ⟨.relativ, ⟨0, 0⟩⟩ .relativ
    ⟨10, 900000000⟩ ⟨1, 0⟩ ⟨12, 100000000⟩ (by decide) (by decide) (by decide)
  obtain rfl : (⟨.relativ, ⟨11, 900000000⟩⟩ : Timer) = t' :=
    Option.some.inj ((by decide :
      timerStart ⟨.relativ, ⟨0, 0⟩⟩ ⟨10, 900000000⟩ 1 0 .relativ
        = some ⟨.relativ, ⟨11, 900000000⟩⟩).symm.trans hstarted)
  obtain rfl : (⟨true, 0, 800000000⟩ : TimerState) = st :=
    Option.some.inj ((by decide :
      timerCurrentState ⟨.relativ, ⟨11, 900000000⟩⟩ ⟨12, 100000000⟩
        = some ⟨true, 0, 800000000⟩).symm.trans hstate)
  exact absurd hexact.diff (by decide)

end Pantavisor.Utils
