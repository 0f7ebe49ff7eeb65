/-
Pantavisor.Platforms.Order — in which order platforms are started and stopped.

`StartsInOrder` and `StopsInOrder` say what becomes of each platform, as the list of
the platforms that there is something to do for, by level, each with what it is in
the end. A start that fails is the last one. Neither is met by a loop that crashes: a
platform without a config or of an unknown type cannot be started, and one that is
started without a pid is not stopped.
-/
import Pantavisor.Platforms.Platforms
import Mathlib.Data.List.Sort

namespace Pantavisor.Platforms

open Pantavisor.Lib Pantavisor.State

/-! ## The levels -/

@[simp] theorem mem_levelsUp {runlevel i : Int} :
    i ∈ levelsUp runlevel ↔ runlevel ≤ i ∧ i ≤ maxRunlevel := by
  simp only [levelsUp, List.mem_map, List.mem_range, maxRunlevel]
  constructor
  · rintro ⟨k, hk, rfl⟩
    omega
  · intro h
    exact ⟨(i - runlevel).toNat, by omega, by omega⟩

@[simp] theorem mem_levelsDown {runlevel i : Int} :
    i ∈ levelsDown runlevel ↔ runlevel ≤ i ∧ i ≤ maxRunlevel := by
  simp only [levelsDown, List.mem_map, List.mem_range, maxRunlevel]
  constructor
  · rintro ⟨k, hk, rfl⟩
    omega
  · intro h
    exact ⟨(3 - i).toNat, by omega, by omega⟩

theorem pairwise_levelsUp (runlevel : Int) : (levelsUp runlevel).Pairwise (· < ·) := by
  rw [levelsUp, List.pairwise_map]
  exact List.pairwise_lt_range.imp fun h => by omega

theorem pairwise_levelsDown (runlevel : Int) : (levelsDown runlevel).Pairwise (· > ·) := by
  rw [levelsDown, List.pairwise_map]
  exact List.pairwise_lt_range.imp fun h => by omega

theorem nodup_startLevels (runlevel : Int) : (startLevels runlevel).Nodup :=
  ((pairwise_levelsUp runlevel).filter _).imp fun h => by omega

theorem nodup_levelsDown (runlevel : Int) : (levelsDown runlevel).Nodup :=
  (pairwise_levelsDown runlevel).imp fun h => by omega

@[simp] theorem mem_startLevels {runlevel i : Int} :
    i ∈ startLevels runlevel ↔ (runlevel ≤ i ∧ i ≤ maxRunlevel) ∧ runlevelData < i := by
  simp [startLevels]

/-! ## The order -/

/-- The platforms that there is something to do for, each as it was and as it is left:
those of the levels that `picks` picks. -/
structure InOrder (levels : Int → Prop) (picks : Platform → Bool) (before : Int → Int → Prop)
    (ps ps' : List Platform) (todo : List (Platform × Platform)) : Prop where
  length : ps'.length = ps.length
  mem : ∀ q, q ∈ todo ↔ q ∈ ps.zip ps' ∧ picks q.1 ∧ levels q.1.runlevel
  sorted : todo.Pairwise fun q q' => before q.1.runlevel q'.1.runlevel
  /-- within one runlevel, what the list has, in its order -/
  within : ∀ i, levels i → (todo.filter fun q => q.1.runlevel = i)
    = ((ps.zip ps').filter fun q => picks q.1).filter fun q => q.1.runlevel = i
  others : ∀ q ∈ ps.zip ps', ¬ (picks q.1 ∧ levels q.1.runlevel) → q.2 = q.1

variable {act : Calls → Platform → Platform × Calls × Bool}

/-- What a sweep over the platforms does, it does in the order of the levels. -/
theorem inOrder_swept (before : Int → Int → Prop) (picks : Platform → Bool) {levels : List Int}
    (hnodup : levels.Nodup) (hrefl : ∀ i, before i i) (hbefore : levels.Pairwise before)
    (hrunlevel : ∀ w p, (act w p).1.runlevel = p.runlevel) (ps : List Platform) (w : Calls) :
    let r := sweep (fun i p => !(decide (p.runlevel = i) && picks p)) act levels ps w
    InOrder (· ∈ levels) picks before ps r.1 (swept levels (·.runlevel) picks ps r.1) ∧
      passAll act ((swept levels (·.runlevel) picks ps r.1).map Prod.fst) w
        = ((swept levels (·.runlevel) picks ps r.1).map Prod.snd, r.2) := by
  obtain ⟨hlength, hkept, hpass⟩ := sweep_spec picks hrunlevel hnodup ps w
  refine ⟨⟨hlength, fun q => ?_, ?_, fun i hi => ?_, fun q hq hnot => ?_⟩, hpass⟩
  · rw [swept, mem_byLevel, List.mem_filter]
    tauto
  · exact pairwise_byLevel hrefl hbefore _ _
  · exact filter_byLevel hnodup _ _ hi
  · exact (hkept q hq).2 fun h => hnot ⟨h.2, h.1⟩

/-! ## Starting -/

/-- A platform before and after a start with what the plugin made of it. -/
def Starts (c : Container) (q : Platform × Platform) : Prop :=
  c.data ∧ 0 < c.pid ∧ hasCtrl q.1.type ∧
    q.2 = { q.1 with initPid := c.pid, status := PlatStatus.started }

/-- A platform before and after a start that fails. It may get a pid that is none. -/
def StartFails (c : Container) (q : Platform × Platform) : Prop :=
  c.data = false ∧ q.2 = q.1 ∨ c.data ∧ c.pid ≤ 0 ∧ q.2 = { q.1 with initPid := c.pid }

/-- A platform that no plugin can be called for. -/
def Unstartable (d : ConfDir) (q : Platform × Platform) : Prop :=
  startable d q.1 = false ∧ q.2 = q.1

/-- A run of `pv_platforms_start` in order: it is through, or at the first platform that
does not start. -/
def StartsInOrder (start : Nat → Platform → Container) (ps : List Platform) (runlevel : Int)
    (r : PlatformsRun) : Prop :=
  ∃ started rest,
    InOrder (fun i => (runlevel ≤ i ∧ i ≤ maxRunlevel) ∧ runlevelData < i)
      (fun p => decide (p.status ≠ .started)) (· ≤ ·) ps r.platforms (started ++ rest) ∧
    (∀ k q, started[k]? = some q → Starts (start k q.1) q) ∧
    ((r.ret = .ok ∧ rest = [] ∧ r.calls = started.map Prod.fst) ∨
      ∃ q untouched, rest = q :: untouched ∧ (∀ q' ∈ untouched, q'.2 = q'.1) ∧
        r.ret = .error ∧ StartFails (start started.length q.1) q ∧
        r.calls = started.map Prod.fst ++ [q.1])

/-- The platforms that there are to start, by level. -/
def toStart (ps : List Platform) (runlevel : Int) : List Platform :=
  byLevel (startLevels runlevel) (·.runlevel) (ps.filter fun p => decide (p.status ≠ .started))

/-- What a plugin gives for a platform that comes up. -/
def Container.up (c : Container) : Bool := c.data && decide (0 < c.pid)

/-- The platforms that are come to, from call `n` on, can be started: all before them
came up. -/
def EachStartable (d : ConfDir) (start : Nat → Platform → Container) (n : Nat)
    (ps : List Platform) : Prop :=
  ∀ k (_ : k < ps.length), (∀ j (_ : j < k), (start (n + j) ps[j]).up) → startable d ps[k]

section Starting

variable {d : ConfDir} {start : Nat → Platform → Container}

theorem hasCtrl_of_startable {p : Platform} (h : startable d p = true) :
    hasCtrl p.type = true := by
  rw [startable] at h
  split at h
  · cases h
  · exact (Bool.and_eq_true _ _ ▸ h).2

theorem Container.up_iff (c : Container) : c.up = true ↔ c.data = true ∧ 0 < c.pid := by
  rw [Container.up, Bool.and_eq_true, decide_eq_true_eq]

/-- A start that fails is of a platform that does not come up. -/
theorem StartFails.not_up {c : Container} {q : Platform × Platform} (h : StartFails c q) :
    ¬ c.up = true := by
  rw [Container.up_iff]
  rintro ⟨hdata, hpid⟩
  rcases h with ⟨hnone, -⟩ | ⟨-, hnot, -⟩
  · rw [hdata] at hnone
    cases hnone
  · exact absurd hpid (Int.not_lt.mpr hnot)

instance (n : Nat) (ps : List Platform) : Decidable (EachStartable d start n ps) := by
  unfold EachStartable
  infer_instance

/-- One start: the platform is started, or there is an error, or a fault. -/
theorem pvPlatformsStartPlatform_cases (w : Calls) (p : Platform) :
    let r := pvPlatformsStartPlatform d start w p
    let c := start w.made.length p
    (r.2.2 = true ∧ Starts c (p, r.1) ∧ startable d p ∧ r.2.1 = ⟨w.made ++ [p], .ok⟩) ∨
      (r.2.2 = false ∧ StartFails c (p, r.1) ∧ startable d p ∧
        r.2.1 = ⟨w.made ++ [p], .error⟩) ∨
      (r.2.2 = false ∧ Unstartable d (p, r.1) ∧ r.2.1 = ⟨w.made, .fault⟩) := by
  simp only [pvPlatformsStartPlatform]
  split
  · rename_i hfault
    exact .inr (.inr ⟨rfl, ⟨by simpa using hfault, rfl⟩, rfl⟩)
  · rename_i hstartable
    rw [Bool.not_eq_true', Bool.not_eq_false] at hstartable
    split
    · rename_i hdata
      exact .inr (.inl ⟨rfl, .inl ⟨by simpa using hdata, rfl⟩, hstartable, rfl⟩)
    · rename_i hdata
      have hdata : (start w.made.length p).data = true := by simpa using hdata
      split
      · rename_i hpid
        exact .inl ⟨rfl, ⟨hdata, hpid, hasCtrl_of_startable hstartable, rfl⟩, hstartable, rfl⟩
      · rename_i hpid
        exact .inr (.inl ⟨rfl, .inr ⟨hdata, Int.not_lt.mp hpid, rfl⟩, hstartable, rfl⟩)

theorem runlevel_start (w : Calls) (p : Platform) :
    (pvPlatformsStartPlatform d start w p).1.runlevel = p.runlevel := by
  rcases @pvPlatformsStartPlatform_cases d start w p with
    ⟨-, ⟨-, -, -, h⟩, -⟩ | ⟨-, ⟨-, h⟩ | ⟨-, -, h⟩, -⟩ | ⟨-, ⟨-, h⟩, -⟩
  · exact (congrArg Platform.runlevel h).trans rfl
  · exact (congrArg Platform.runlevel h).trans rfl
  · exact (congrArg Platform.runlevel h).trans rfl
  · exact (congrArg Platform.runlevel h).trans rfl

/-- A pass that ends at an element leaves what is behind it. -/
theorem untouched_of_map_eq {todo : List (Platform × Platform)}
    (h : todo.map Prod.fst = todo.map Prod.snd) : ∀ q ∈ todo, q.2 = q.1 :=
  fun q hq => (List.map_inj_left.mp h q hq).symm

/-- The starts of one pass. -/
theorem passAll_start {todo : List (Platform × Platform)} {w w' : Calls} {ok : Bool}
    (h : passAll (pvPlatformsStartPlatform d start) (todo.map Prod.fst) w
      = (todo.map Prod.snd, w', ok)) (hw : w.ret = .ok) :
    ∃ started rest, todo = started ++ rest ∧
      (∀ k q, started[k]? = some q → Starts (start (w.made.length + k) q.1) q) ∧
      ((w'.ret = .ok ∧ rest = [] ∧ w'.made = w.made ++ started.map Prod.fst) ∨
        ∃ q untouched, rest = q :: untouched ∧ (∀ q' ∈ untouched, q'.2 = q'.1) ∧
          ((w'.ret = .error ∧ StartFails (start (w.made.length + started.length) q.1) q ∧
              w'.made = w.made ++ (started.map Prod.fst ++ [q.1])) ∨
            (w'.ret = .fault ∧ Unstartable d q ∧ w'.made = w.made ++ started.map Prod.fst))) := by
  induction todo generalizing w with
  | nil =>
    obtain ⟨-, hw'⟩ := Prod.mk.inj h
    obtain ⟨rfl, -⟩ := Prod.mk.inj hw'
    exact ⟨[], [], rfl, by simp, .inl ⟨hw, rfl, by simp⟩⟩
  | cons q todo ih =>
    obtain ⟨p, p'⟩ := q
    rw [List.map_cons, passAll_cons, List.map_cons] at h
    have hcases := @pvPlatformsStartPlatform_cases d start w p
    generalize pvPlatformsStartPlatform d start w p = r at h hcases
    obtain ⟨p₁, w₁, ok₁⟩ := r
    dsimp only at h hcases
    rcases hcases with ⟨rfl, hstarts, -, rfl⟩ | ⟨rfl, hfails, -, rfl⟩ | ⟨rfl, hfails, rfl⟩
    · rw [if_pos rfl] at h
      obtain ⟨hlist, hrest⟩ := Prod.mk.inj h
      obtain ⟨rfl, htail⟩ := List.cons.inj hlist
      obtain ⟨started, rest, rfl, hall, hend⟩ := ih (Prod.ext htail hrest) rfl
      simp only [List.length_append, List.length_cons, List.length_nil, Nat.zero_add,
        List.append_assoc, List.cons_append, List.nil_append] at hall hend
      refine ⟨(p, p₁) :: started, rest, rfl, fun k q hk => ?_, ?_⟩
      · cases k with
        | zero =>
          obtain rfl := Option.some.inj hk
          exact hstarts
        | succ k =>
          rw [← Nat.add_assoc, Nat.add_right_comm]
          exact hall k q (by simpa using hk)
      · have hcount : w.made.length + (started.length + 1) = w.made.length + 1 + started.length := by
          omega
        simpa [hcount] using hend
    · rw [if_neg Bool.false_ne_true] at h
      obtain ⟨hlist, hrest⟩ := Prod.mk.inj h
      obtain ⟨rfl, htail⟩ := List.cons.inj hlist
      obtain ⟨rfl, -⟩ := Prod.mk.inj hrest
      refine ⟨[], _, rfl, by simp, .inr ⟨_, _, rfl, untouched_of_map_eq htail, .inl ⟨rfl, ?_, rfl⟩⟩⟩
      exact hfails
    · rw [if_neg Bool.false_ne_true] at h
      obtain ⟨hlist, hrest⟩ := Prod.mk.inj h
      obtain ⟨rfl, htail⟩ := List.cons.inj hlist
      obtain ⟨rfl, -⟩ := Prod.mk.inj hrest
      refine ⟨[], _, rfl, by simp, .inr ⟨_, _, rfl, untouched_of_map_eq htail, .inr ⟨rfl, ?_, ?_⟩⟩⟩
      · exact hfails
      · exact (List.append_nil _).symm

theorem eachStartable_cons {n : Nat} {p : Platform} {ps : List Platform}
    (hp : startable d p = true) :
    EachStartable d start n (p :: ps) ↔
      ((start n p).up = true → EachStartable d start (n + 1) ps) := by
  constructor
  · intro h hup k hk hbefore
    refine h (k + 1) (by simpa using hk) fun j hj => ?_
    cases j with
    | zero => exact hup
    | succ j =>
      rw [← Nat.add_assoc, Nat.add_right_comm]
      exact hbefore j (Nat.lt_of_succ_lt_succ hj)
  · intro h k hk hbefore
    cases k with
    | zero => exact hp
    | succ k =>
      refine h (hbefore 0 (Nat.zero_lt_succ k)) k (by simpa using hk) fun j hj => ?_
      rw [Nat.add_right_comm, Nat.add_assoc]
      exact hbefore (j + 1) (Nat.succ_lt_succ hj)

/-- A pass crashes at the first platform that cannot be started, unless one before it
does not come up. -/
theorem passAll_start_ret (ps : List Platform) {w : Calls} (hw : w.ret = .ok) :
    let r := (passAll (pvPlatformsStartPlatform d start) ps w).2
    (r.2 = true ↔ r.1.ret = .ok) ∧
      (r.1.ret ≠ .fault ↔ EachStartable d start w.made.length ps) := by
  induction ps generalizing w with
  | nil =>
    simp only [pass_nil, hw, true_iff, ne_eq, reduceCtorEq, not_false_eq_true]
    exact ⟨trivial, fun k hk => absurd hk (Nat.not_lt_zero k)⟩
  | cons p ps ih =>
    rw [passAll_cons]
    have hcases := @pvPlatformsStartPlatform_cases d start w p
    generalize pvPlatformsStartPlatform d start w p = r at hcases ⊢
    obtain ⟨p₁, w₁, ok₁⟩ := r
    dsimp only at hcases ⊢
    rcases hcases with ⟨rfl, hstarts, hp, rfl⟩ | ⟨rfl, hfails, hp, rfl⟩ | ⟨rfl, ⟨hp, -⟩, rfl⟩
    · rw [if_pos rfl]
      obtain ⟨hok, hfault⟩ := @ih ⟨w.made ++ [p], .ok⟩ rfl
      refine ⟨hok, hfault.trans ?_⟩
      have hup : (start w.made.length p).up = true := (Container.up_iff _).mpr ⟨hstarts.1, hstarts.2.1⟩
      rw [eachStartable_cons hp, List.length_append]
      exact ⟨fun h _ => h, fun h => h hup⟩
    · rw [if_neg Bool.false_ne_true]
      refine ⟨by simp, ?_⟩
      exact ⟨fun _ => (eachStartable_cons hp).mpr fun hup => absurd hup hfails.not_up,
        fun _ => by simp⟩
    · rw [if_neg Bool.false_ne_true]
      refine ⟨by simp, ?_⟩
      simp only [ne_eq, not_true_eq_false, false_iff]
      intro h
      have hp' := h 0 (Nat.zero_lt_succ _) fun j hj => absurd hj (Nat.not_lt_zero j)
      rw [List.getElem_cons_zero, hp] at hp'
      cases hp'

variable (d start) (ps : List Platform) (runlevel : Int)

/-- What `pv_platforms_start` does, up to the first platform that fails or crashes it. -/
theorem pvPlatformsStart_spec :
    let r := pvPlatformsStart d start ps runlevel
    ∃ started rest,
      InOrder (fun i => (runlevel ≤ i ∧ i ≤ maxRunlevel) ∧ runlevelData < i)
        (fun p => decide (p.status ≠ .started)) (· ≤ ·) ps r.platforms (started ++ rest) ∧
      (∀ k q, started[k]? = some q → Starts (start k q.1) q) ∧
      ((r.ret = .ok ∧ rest = [] ∧ r.calls = started.map Prod.fst) ∨
        ∃ q untouched, rest = q :: untouched ∧ (∀ q' ∈ untouched, q'.2 = q'.1) ∧
          ((r.ret = .error ∧ StartFails (start started.length q.1) q ∧
              r.calls = started.map Prod.fst ++ [q.1]) ∨
            (r.ret = .fault ∧ Unstartable d q ∧ r.calls = started.map Prod.fst))) := by
  obtain ⟨horder, hpass⟩ := inOrder_swept (· ≤ ·) (fun p => decide (p.status ≠ .started))
    (nodup_startLevels runlevel)
    (fun i => Int.le_refl i) (((pairwise_levelsUp runlevel).filter _).imp fun h => Int.le_of_lt h)
    (@runlevel_start d start) ps ⟨[], .ok⟩
  obtain ⟨started, rest, htodo, hall, hend⟩ := passAll_start hpass rfl
  rw [htodo] at horder
  simp only [mem_startLevels] at horder
  simp only [List.length_nil, Nat.zero_add, List.nil_append] at hall hend
  exact ⟨started, rest, horder, hall, hend⟩

/-- How the loops of `pv_platforms_start` end. -/
theorem pvPlatformsStart_ret :
    let r := sweep (fun i p => !(decide (p.runlevel = i) && decide (p.status ≠ .started)))
      (pvPlatformsStartPlatform d start) (startLevels runlevel) ps ⟨[], .ok⟩
    (r.2.2 = true ↔ (pvPlatformsStart d start ps runlevel).ret = .ok) ∧
      ((pvPlatformsStart d start ps runlevel).ret ≠ .fault ↔
        EachStartable d start 0 (toStart ps runlevel)) := by
  obtain ⟨hlength, -, hpass⟩ := sweep_spec (fun p : Platform => decide (p.status ≠ .started))
    (@runlevel_start d start) (nodup_startLevels runlevel) ps ⟨[], .ok⟩
  rw [map_fst_swept _ _ _ hlength] at hpass
  have hret := @passAll_start_ret d start (toStart ps runlevel) ⟨[], .ok⟩ rfl
  rw [toStart, hpass] at hret
  exact hret

/-- **`pv_platforms_start` starts in order** exactly if every platform that it comes to
can be started. -/
theorem startsInOrder_iff :
    StartsInOrder start ps runlevel (pvPlatformsStart d start ps runlevel) ↔
      EachStartable d start 0 (toStart ps runlevel) := by
  rw [← (pvPlatformsStart_ret d start ps runlevel).2]
  constructor
  · rintro ⟨started, rest, -, -, ⟨hret, -⟩ | ⟨q, untouched, -, -, hret, -⟩⟩
    · rw [hret]
      decide
    · rw [hret]
      decide
  · intro hret
    obtain ⟨started, rest, horder, hall, hend⟩ := pvPlatformsStart_spec d start ps runlevel
    refine ⟨started, rest, horder, hall, ?_⟩
    rcases hend with hthrough | ⟨q, untouched, hrest, hsame, hfails | ⟨hfault, -⟩⟩
    · exact .inl hthrough
    · exact .inr ⟨q, untouched, hrest, hsame, hfails⟩
    · exact absurd hfault hret

end Starting

/-! ## Stopping -/

/-- A platform that is to be stopped, if it is of one of the levels. -/
def toStop (runlevel : Int) (p : Platform) : Bool :=
  unlessKept runlevel p && decide (p.status = .started)

/-- A run of the loops of `pv_platforms_stop` in order: it stops what is to be stopped. -/
def StopsInOrder (ps : List Platform) (runlevel : Int) (r : PlatformsRun) : Prop :=
  ∃ stopped,
    InOrder (fun i => runlevel ≤ i ∧ i ≤ maxRunlevel) (toStop runlevel) (· ≥ ·) ps r.platforms
      stopped ∧
    (∀ q ∈ stopped, q.2 = { q.1 with status := PlatStatus.stopped }) ∧
    r.calls = stopped.map Prod.fst ∧ r.ret = .ok

/-- What a platform that is started has: `pv_platforms_start` gave it. -/
def Recorded (p : Platform) : Prop := p.status = .started → 0 < p.initPid ∧ hasCtrl p.type

instance (p : Platform) : Decidable (Recorded p) := by unfold Recorded; infer_instance

/-- The stops of one pass. -/
theorem passAll_stop {todo : List (Platform × Platform)} {w w' : Calls} {ok : Bool}
    (h : passAll stopContainer (todo.map Prod.fst) w = (todo.map Prod.snd, w', ok))
    (hw : w.ret = .ok) :
    ∃ stopped rest, todo = stopped ++ rest ∧
      (∀ q ∈ stopped, hasCtrl q.1.type = true ∧
        q.2 = { q.1 with status := PlatStatus.stopped }) ∧
      w'.made = w.made ++ stopped.map Prod.fst ∧
      ((w'.ret = .ok ∧ rest = []) ∨
        (w'.ret = .fault ∧ (∀ q ∈ rest, q.2 = q.1) ∧ ∃ q ∈ rest, hasCtrl q.1.type = false)) := by
  induction todo generalizing w with
  | nil =>
    obtain ⟨-, hw'⟩ := Prod.mk.inj h
    obtain ⟨rfl, -⟩ := Prod.mk.inj hw'
    exact ⟨[], [], rfl, by simp, by simp, .inl ⟨hw, rfl⟩⟩
  | cons q todo ih =>
    obtain ⟨p, p'⟩ := q
    rw [List.map_cons, passAll_cons, List.map_cons, stopContainer] at h
    by_cases hctrl : hasCtrl p.type = true
    · rw [if_pos hctrl, if_pos rfl] at h
      obtain ⟨hlist, hrest⟩ := Prod.mk.inj h
      obtain ⟨hp', htail⟩ := List.cons.inj hlist
      obtain ⟨stopped, rest, rfl, hall, hmade, hend⟩ := ih (Prod.ext htail hrest) hw
      refine ⟨(p, p') :: stopped, rest, rfl, ?_, by simpa using hmade, hend⟩
      rw [List.forall_mem_cons]
      exact ⟨⟨hctrl, hp'.symm⟩, hall⟩
    · rw [if_neg hctrl, if_neg Bool.false_ne_true] at h
      obtain ⟨hlist, hrest⟩ := Prod.mk.inj h
      obtain ⟨hp', htail⟩ := List.cons.inj hlist
      obtain ⟨rfl, -⟩ := Prod.mk.inj hrest
      refine ⟨[], _, rfl, by simp, (List.append_nil _).symm, .inr ⟨rfl, ?_, ?_⟩⟩
      · rw [List.forall_mem_cons]
        exact ⟨hp'.symm, untouched_of_map_eq htail⟩
      · exact ⟨_, List.mem_cons_self .., by simpa using hctrl⟩

theorem runlevel_stop (w : Calls) (p : Platform) : (stopContainer w p).1.runlevel = p.runlevel := by
  rw [stopContainer]
  split <;> rfl

theorem toStop_iff {runlevel : Int} {p : Platform} :
    toStop runlevel p = true ↔
      p.status = .started ∧ (runlevel = runlevelApp → p.runlevel = runlevelApp → p.updated) := by
  simp only [toStop, unlessKept, Bool.and_eq_true, Bool.not_eq_true', Bool.and_eq_false_iff,
    decide_eq_false_iff_not, decide_eq_true_eq, Bool.not_eq_false']
  tauto

/-- What is told to stop is what is to be stopped, where that has a pid. -/
theorem stops_eq (runlevel : Int) (p : Platform) :
    stops runlevel p = (toStop runlevel p && decide (0 < p.initPid)) := by
  rw [stops, toStop, Bool.and_assoc]

/-- What `pv_platforms_stop` does, up to the first platform that it crashes at. -/
theorem stopContainers_spec (ps : List Platform) (runlevel : Int) :
    let r := stopContainers ps runlevel
    ∃ stopped rest,
      InOrder (fun i => runlevel ≤ i ∧ i ≤ maxRunlevel) (stops runlevel) (· ≥ ·) ps r.platforms
        (stopped ++ rest) ∧
      (∀ q ∈ stopped, hasCtrl q.1.type = true ∧
        q.2 = { q.1 with status := PlatStatus.stopped }) ∧
      r.calls = stopped.map Prod.fst ∧
      ((r.ret = .ok ∧ rest = []) ∨
        (r.ret = .fault ∧ (∀ q ∈ rest, q.2 = q.1) ∧ ∃ q ∈ rest, hasCtrl q.1.type = false)) := by
  obtain ⟨horder, hpass⟩ := inOrder_swept (· ≥ ·) (stops runlevel) (nodup_levelsDown runlevel)
    (fun i => Int.le_refl i) ((pairwise_levelsDown runlevel).imp fun h => Int.le_of_lt h)
    runlevel_stop ps ⟨[], .ok⟩
  obtain ⟨stopped, rest, htodo, hall, hmade, hend⟩ := passAll_stop hpass rfl
  rw [htodo] at horder
  simp only [mem_levelsDown] at horder
  exact ⟨stopped, rest, horder, hall, hmade, hend⟩

/-- The stop comes through if all that it tells to stop are of a known type. -/
theorem stopContainers_ok {ps : List Platform} {runlevel : Int}
    (h : ∀ p ∈ ps, runlevel ≤ p.runlevel ∧ p.runlevel ≤ maxRunlevel → stops runlevel p = true →
      hasCtrl p.type = true) : (stopContainers ps runlevel).ret = .ok := by
  obtain ⟨stopped, rest, horder, -, -, hend⟩ := stopContainers_spec ps runlevel
  rcases hend with ⟨hret, -⟩ | ⟨-, -, q, hq, hctrl⟩
  · exact hret
  · obtain ⟨hzip, hstops, hlevel⟩ := (horder.mem q).mp (List.mem_append_right _ hq)
    rw [h q.1 (List.of_mem_zip hzip).1 hlevel hstops] at hctrl
    cases hctrl

/-- An order depends on what is picked in its levels only. -/
theorem InOrder.congr {levels : Int → Prop} {picks picks' : Platform → Bool}
    {before : Int → Int → Prop} {ps ps' : List Platform} {todo : List (Platform × Platform)}
    (h : InOrder levels picks before ps ps' todo)
    (heq : ∀ p ∈ ps, levels p.runlevel → picks' p = picks p) :
    InOrder levels picks' before ps ps' todo := by
  have hmem : ∀ q ∈ ps.zip ps', q.1 ∈ ps := fun q hq => (List.of_mem_zip hq).1
  refine ⟨h.length, fun q => (h.mem q).trans ?_, h.sorted, fun i hi => (h.within i hi).trans ?_,
    fun q hq hnot => h.others q hq fun hpicks => hnot ?_⟩
  · constructor
    · rintro ⟨hq, hpicks, hlevel⟩
      exact ⟨hq, heq _ (hmem q hq) hlevel ▸ hpicks, hlevel⟩
    · rintro ⟨hq, hpicks, hlevel⟩
      exact ⟨hq, heq _ (hmem q hq) hlevel ▸ hpicks, hlevel⟩
  · rw [List.filter_filter, List.filter_filter]
    refine List.filter_congr fun q hq => ?_
    by_cases hlevel : q.1.runlevel = i
    · rw [heq _ (hmem q hq) (hlevel ▸ hi)]
    · rw [decide_eq_false hlevel, Bool.false_and, Bool.false_and]
  · exact ⟨heq _ (hmem q hq) hpicks.2 ▸ hpicks.1, hpicks.2⟩

/-- A platform of the list with what it is in the end. -/
theorem exists_mem_zip {ps ps' : List Platform} (h : ps'.length = ps.length) {p : Platform}
    (hp : p ∈ ps) : ∃ p', (p, p') ∈ ps.zip ps' := by
  rw [← List.map_fst_zip (Nat.le_of_eq h.symm)] at hp
  obtain ⟨q, hq, rfl⟩ := List.mem_map.mp hp
  exact ⟨q.2, hq⟩

/-- **`pv_platforms_stop` stops in order** exactly if every platform that is to be stopped
has what a start gives it. -/
theorem stopsInOrder_iff (ps : List Platform) (runlevel : Int) :
    StopsInOrder ps runlevel (stopContainers ps runlevel) ↔
      ∀ p ∈ ps, runlevel ≤ p.runlevel ∧ p.runlevel ≤ maxRunlevel → toStop runlevel p →
        Recorded p := by
  constructor
  · rintro ⟨stopped, hclaim, hstopped, hcalls, hret⟩ p hp hlevel hstop -
    obtain ⟨stopped', rest, horder, hall, -, hend⟩ := stopContainers_spec ps runlevel
    obtain ⟨p', hzip⟩ := exists_mem_zip horder.length hp
    have hp' := hstopped _ ((hclaim.mem _).mpr ⟨hzip, hstop, hlevel⟩)
    dsimp only at hp'
    rcases hend with ⟨-, rfl⟩ | ⟨hfault, -⟩
    · -- it was not left as it was, so it was told to stop
      have hpicked : stops runlevel p = true := by
        by_contra hnot
        have hsame : p' = p := horder.others _ hzip fun h => hnot h.1
        have hstatus := congrArg Platform.status (hsame.symm.trans hp')
        rw [(toStop_iff.mp hstop).1] at hstatus
        cases hstatus
      have hmem := (horder.mem _).mpr ⟨hzip, hpicked, hlevel⟩
      rw [List.append_nil] at hmem
      rw [stops_eq, Bool.and_eq_true, decide_eq_true_eq] at hpicked
      exact ⟨hpicked.2, (hall _ hmem).1⟩
    · rw [hret] at hfault
      cases hfault
  · intro hrecorded
    have hstarted : ∀ p ∈ ps, runlevel ≤ p.runlevel ∧ p.runlevel ≤ maxRunlevel →
        toStop runlevel p = true → 0 < p.initPid ∧ hasCtrl p.type = true := fun p hp hlevel hstop =>
      hrecorded p hp hlevel hstop (toStop_iff.mp hstop).1
    have hpicks : ∀ p ∈ ps, runlevel ≤ p.runlevel ∧ p.runlevel ≤ maxRunlevel →
        toStop runlevel p = stops runlevel p := by
      intro p hp hlevel
      rw [stops_eq]
      cases hstop : toStop runlevel p with
      | false => rfl
      | true => rw [decide_eq_true (hstarted p hp hlevel hstop).1, Bool.true_and]
    have hok : (stopContainers ps runlevel).ret = .ok :=
      stopContainers_ok fun p hp hlevel hstops =>
        (hstarted p hp hlevel ((hpicks p hp hlevel).trans hstops)).2
    obtain ⟨stopped, rest, horder, hall, hcalls, hend⟩ := stopContainers_spec ps runlevel
    rcases hend with ⟨-, rfl⟩ | ⟨hfault, -⟩
    · rw [List.append_nil] at horder
      exact ⟨stopped, horder.congr hpicks, fun q hq => (hall q hq).2, hcalls, hok⟩
    · rw [hok] at hfault
      cases hfault

/-! ## Pids -/

/-- A pid that no start wrote is 0. -/
def PidOk (p : Platform) : Prop := 0 ≤ p.initPid ∧ Recorded p

/-- What there is to do for a platform is done in the order, or nothing is. -/
theorem InOrder.cases {levels : Int → Prop} {picks : Platform → Bool} {before : Int → Int → Prop}
    {ps ps' : List Platform} {todo : List (Platform × Platform)}
    (h : InOrder levels picks before ps ps' todo) {p' : Platform} (hp' : p' ∈ ps') :
    p' ∈ ps ∨ ∃ p ∈ ps, picks p ∧ (p, p') ∈ todo := by
  obtain ⟨k, hk, rfl⟩ := List.mem_iff_getElem.mp hp'
  have hk' : k < ps.length := h.length ▸ hk
  have hzip : (ps[k], ps'[k]) ∈ ps.zip ps' :=
    List.mem_iff_getElem.mpr ⟨k, by rw [List.length_zip]; omega, by simp⟩
  by_cases hpicks : picks ps[k] ∧ levels ps[k].runlevel
  · exact .inr ⟨_, List.getElem_mem hk', hpicks.1, (h.mem _).mpr ⟨hzip, hpicks⟩⟩
  · have hsame : ps'[k] = ps[k] := h.others _ hzip hpicks
    exact .inl (hsame ▸ List.getElem_mem hk')

/-- The pids that `pv_platforms_start` writes: the lxc plugin gives no container without
one. -/
theorem pidOk_start {d : ConfDir} {start : Nat → Platform → Container}
    (hstart : ∀ n p, (start n p).data → 0 < (start n p).pid) {ps : List Platform} {runlevel : Int}
    (h : ∀ p ∈ ps, PidOk p) : ∀ p ∈ (pvPlatformsStart d start ps runlevel).platforms, PidOk p := by
  obtain ⟨started, rest, horder, hall, hend⟩ := pvPlatformsStart_spec d start ps runlevel
  intro p' hp'
  rcases horder.cases hp' with hold | ⟨p, hp, hpicks, hq⟩
  · exact h p' hold
  · have hsame : p' = p → PidOk p' := fun heq => heq ▸ h p hp
    rcases List.mem_append.mp hq with hq | hq
    · obtain ⟨k, hk⟩ := List.mem_iff_getElem?.mp hq
      obtain ⟨-, hpid, hctrl, heq⟩ := hall k _ hk
      dsimp only at hpid hctrl heq
      subst heq
      exact ⟨Int.le_of_lt hpid, fun _ => ⟨hpid, hctrl⟩⟩
    · rcases hend with ⟨-, rfl, -⟩ | ⟨q, untouched, rfl, hrest, hfails⟩
      · cases hq
      · rcases List.mem_cons.mp hq with rfl | hq
        · rcases hfails with ⟨-, ⟨-, hsame'⟩ | ⟨hdata, hpid, -⟩, -⟩ | ⟨-, ⟨-, hsame'⟩, -⟩
          · exact hsame hsame'
          · exact absurd (hstart _ _ hdata) (Int.not_lt.mpr hpid)
          · exact hsame hsame'
        · exact hsame (hrest _ hq)

theorem pidOk_stop {ps : List Platform} {runlevel : Int} (h : ∀ p ∈ ps, PidOk p) :
    ∀ p ∈ (stopContainers ps runlevel).platforms, PidOk p := by
  obtain ⟨stopped, rest, horder, hall, -, hend⟩ := stopContainers_spec ps runlevel
  intro p' hp'
  rcases horder.cases hp' with hold | ⟨p, hp, -, hq⟩
  · exact h p' hold
  · rcases List.mem_append.mp hq with hq | hq
    · have heq := (hall _ hq).2
      dsimp only at heq
      subst heq
      exact ⟨(h p hp).1, fun hstarted => by cases hstarted⟩
    · rcases hend with ⟨-, rfl⟩ | ⟨-, hrest, -⟩
      · cases hq
      · have hsame : p' = p := hrest _ hq
        exact hsame ▸ h p hp

/-! ## Start and stop order -/

/-- **Platforms are started and stopped in order**, for every list and every runlevel and
whatever becomes of each start and of each process: the start exactly if every platform
that it comes to can be started, the stop exactly if every one that is to be stopped has a
pid and a type that is known. -/
theorem start_stop_in_order_iff (d : ConfDir) (start : Nat → Platform → Container)
    (alive : Nat → Bool) (ps : List Plat) (runlevel : Int) :
    let plats := ps.map (·.plat)
    (StartsInOrder start plats runlevel (pvPlatformsStart d start plats runlevel) ↔
      EachStartable d start 0 (toStart plats runlevel)) ∧
    let r := pvPlatformsStop alive ps runlevel
    (StopsInOrder plats runlevel ⟨r.platforms, r.calls, r.ret⟩ ↔
      ∀ p ∈ plats, runlevel ≤ p.runlevel ∧ p.runlevel ≤ maxRunlevel → toStop runlevel p →
        Recorded p) := by
  refine ⟨startsInOrder_iff d start _ runlevel, ?_⟩
  have hstops := stopsInOrder_iff (ps.map (·.plat)) runlevel
  rw [pvPlatformsStop]
  generalize stopContainers (ps.map (·.plat)) runlevel = r at hstops ⊢
  dsimp only
  split
  · exact hstops
  · rename_i hret
    rw [← not_not.mp hret]
    exact hstops

/-- An app of a type, and the root platform. -/
def appAndRoot (type : CStr) : List Platform :=
  [⟨⟨0, 0⟩, str "app", some type, some (str "lxc.container.conf"), 0, .installed, runlevelApp,
      true, true⟩,
    ⟨⟨0, 1⟩, str "os", some (str "lxc"), some (str "lxc.container.conf"), 0, .installed,
      runlevelRoot, true, false⟩]

/-- The configs of the first revision. -/
def firstDir : ConfDir := ⟨str "/storage", str "0", .system1⟩

/-- A plugin that starts everything, as process 100. -/
def startsAll : Nat → Platform → Container := fun _ _ => ⟨true, 100⟩

/-- An app of a type that is not known crashes the start. -/
theorem start_of_docker :
    ¬ ∀ d start alive (ps : List Plat) runlevel,
      StartsInOrder start (ps.map (·.plat)) runlevel
        (pvPlatformsStart d start (ps.map (·.plat)) runlevel) ∧
      let r := pvPlatformsStop alive ps runlevel
      StopsInOrder (ps.map (·.plat)) runlevel ⟨r.platforms, r.calls, r.ret⟩ := by
  intro h
  have hstarts := (h firstDir startsAll (fun _ => false)
    ((appAndRoot (str "docker")).map (⟨·, []⟩)) runlevelData).1
  exact absurd ((startsInOrder_iff _ _ _ _).mp hstarts) (by decide)

/-- With a type that is known the root platform is started first, and both are stopped. -/
theorem start_stop_of_lxc :
    let r := pvPlatformsStart firstDir startsAll (appAndRoot (str "lxc")) runlevelData
    let x := pvPlatformsStop (fun _ => false) (r.platforms.map (⟨·, []⟩)) runlevelData
    StartsInOrder startsAll (appAndRoot (str "lxc")) runlevelData r ∧
      r.calls.map (·.name) = [str "os", str "app"] ∧
      StopsInOrder r.platforms runlevelData ⟨x.platforms, x.calls, x.ret⟩ ∧
      x.calls.map (·.name) = [str "app", str "os"] :=
  ⟨(start_stop_in_order_iff firstDir startsAll (fun _ => false)
      ((appAndRoot (str "lxc")).map (⟨·, []⟩)) runlevelData).1.mpr (by decide), by decide,
    (start_stop_in_order_iff firstDir startsAll (fun _ => false)
      ((pvPlatformsStart firstDir startsAll (appAndRoot (str "lxc")) runlevelData).platforms.map
        (⟨·, []⟩)) runlevelData).2.mpr (by decide), by decide⟩

/-! ## The state -/

/-- Where the configs of a state are. -/
def confDir (mntpoint : CStr) (s : PvState) : ConfDir := ⟨mntpoint, s.rev, s.spec⟩

/-- The pid that a plugin gives for a platform, if it starts one. -/
def pidOf (d : ConfDir) (start : Platform → Container) (p : Platform) : Option Int :=
  if !startable d p || !(start p).data then none else some (start p).pid

section OfState

variable (d : ConfDir) (start : Platform → Container)

theorem startPlatform_eq (w : Calls) (p : Platform) :
    startPlatform (pidOf d start) p =
      if (pvPlatformsStartPlatform d (fun _ => start) w p).2.2 then
        some (pvPlatformsStartPlatform d (fun _ => start) w p).1
      else none := by
  rw [startPlatform, pidOf, pvPlatformsStartPlatform]
  cases hstartable : startable d p
  · simp
  · cases hdata : (start p).data
    · simp [hdata]
    · by_cases hpid : 0 < (start p).pid <;> simp [hdata, hpid]

theorem startLevel_eq (i : Int) (ps : List Platform) (w : Calls) :
    startLevel (pidOf d start) i ps =
      let r := pass (fun p => !(decide (p.runlevel = i) && decide (p.status ≠ .started)))
        (pvPlatformsStartPlatform d fun _ => start) ps w
      if r.2.2 then some r.1 else none := by
  induction ps generalizing w with
  | nil => rfl
  | cons p ps ih =>
    rw [startLevel, Lib.pass]
    by_cases hskip : p.runlevel ≠ i ∨ p.status = .started
    · have hskip' : (!(decide (p.runlevel = i) && decide (p.status ≠ .started))) = true := by
        rcases hskip with h | h <;> simp [h]
      rw [if_pos hskip, if_pos hskip', ih w]
      dsimp only
      split <;> rfl
    · have hskip' : ¬ (!(decide (p.runlevel = i) && decide (p.status ≠ .started))) = true := by
        rw [not_or, not_not] at hskip
        simp [hskip.1, hskip.2]
      rw [if_neg hskip, if_neg hskip', startPlatform_eq d start w]
      dsimp only
      by_cases hok : (pvPlatformsStartPlatform d (fun _ => start) w p).2.2 = true
      · rw [if_pos hok, if_pos hok, Option.bind_eq_bind, Option.bind_some,
          ih (pvPlatformsStartPlatform d (fun _ => start) w p).2.1]
        dsimp only
        split <;> rfl
      · rw [if_neg hok, if_neg hok, if_neg hok]
        rfl

/-- The start of a state is the one of its platforms. -/
theorem pvPlatformsStart_eq (s : PvState) (runlevel : Int) :
    State.pvPlatformsStart (pidOf d start) s runlevel =
      let r := pvPlatformsStart d (fun _ => start) s.platforms runlevel
      if r.ret = .ok then some { s with platforms := r.platforms } else none := by
  have hlevels : [0, 1, 2, 3].filter (max runlevel 1 ≤ ·) = startLevels runlevel := by
    refine (List.Pairwise.filter _ (by decide)).eq_of_mem_iff
      ((pairwise_levelsUp runlevel).filter _) fun i => ?_
    refine Iff.trans ?_ mem_startLevels.symm
    simp only [List.mem_filter, List.mem_cons, List.not_mem_nil, maxRunlevel, runlevelData,
      decide_eq_true_eq, or_false]
    omega
  have hfold : ∀ (levels : List Int) (ps : List Platform) (w : Calls),
      levels.foldlM (fun ps i => startLevel (pidOf d start) i ps) ps =
        let r := sweep (fun i p => !(decide (p.runlevel = i) && decide (p.status ≠ .started)))
          (pvPlatformsStartPlatform d fun _ => start) levels ps w
        if r.2.2 then some r.1 else none := by
    intro levels
    induction levels with
    | nil => exact fun ps w => rfl
    | cons i is ih =>
      intro ps w
      rw [List.foldlM_cons, startLevel_eq d start i ps w, sweep]
      dsimp only
      split
      · rw [Option.bind_eq_bind, Option.bind_some, ih]
      · rfl
  have hok := (pvPlatformsStart_ret d (fun _ => start) s.platforms runlevel).1
  rw [State.pvPlatformsStart, hlevels, hfold _ _ ⟨[], .ok⟩]
  dsimp only at hok ⊢
  by_cases hret : (pvPlatformsStart d (fun _ => start) s.platforms runlevel).ret = .ok
  · rw [if_pos hret, if_pos (hok.mpr hret)]
    rfl
  · rw [if_neg hret, if_neg fun h => hret (hok.mp h)]
    rfl

end OfState

theorem recorded_stopPlatform {runlevel i : Int} {p : Platform} (h : Recorded p) :
    Recorded (stopPlatform runlevel i p) := by
  rw [stopPlatform]
  split
  · exact h
  · split
    · exact h
    · split
      · intro hstarted
        cases hstarted
      · exact h

/-- One level of the loop. -/
theorem stopLevel_eq {ps : List Platform} (h : ∀ p ∈ ps, Recorded p) (runlevel i : Int)
    (w : Calls) :
    let r := pass (fun p => !(decide (p.runlevel = i) && stops runlevel p)) stopContainer ps w
    r.1 = ps.map (stopPlatform runlevel i) ∧ r.2.2 = true := by
  refine pass_map (fun p hskip => ?_) (fun p hp hnot w => ?_) w
  · rw [stopPlatform]
    split
    · rfl
    · rename_i hlevel
      split
      · rfl
      · rename_i hkept
        refine if_neg fun hstarted => ?_
        simp only [not_not.mp hlevel, decide_true, Bool.true_and, Bool.not_eq_true'] at hskip
        have hstops : stops runlevel p = true := by
          have hunless : unlessKept runlevel p = true := by
            simpa [unlessKept, imp_iff_not_or, or_assoc] using hkept
          rw [stops, hunless, decide_eq_true hstarted.1, decide_eq_true hstarted.2]
          rfl
        rw [hstops] at hskip
        cases hskip
  · simp only [Bool.not_eq_true', Bool.not_eq_false, Bool.and_eq_true, decide_eq_true_eq] at hnot
    obtain ⟨hlevel, hstops⟩ := hnot
    obtain ⟨hstarted, hkept⟩ := toStop_iff.mp (Bool.and_eq_true _ _ ▸ stops_eq runlevel p ▸ hstops).1
    obtain ⟨hpid, hctrl⟩ := h p hp hstarted
    rw [stopContainer, if_pos hctrl, stopPlatform, if_neg (not_not.mpr hlevel), if_neg,
      if_pos ⟨hstarted, hpid⟩]
    · exact ⟨rfl, rfl⟩
    · exact fun happ => happ.2.2 (hkept happ.1 happ.2.1)

/-- The stop of a state is the one of its platforms. -/
theorem pvPlatformsStop_eq {s : PvState} (h : ∀ p ∈ s.platforms, Recorded p) {runlevel : Int}
    (hrunlevel : 0 ≤ runlevel) :
    (State.pvPlatformsStop s runlevel).1
      = { s with platforms := (stopContainers s.platforms runlevel).platforms } := by
  have hlevels : stopLevels runlevel = levelsDown runlevel := by
    refine (List.Pairwise.filter _ (by decide)).eq_of_mem_iff (pairwise_levelsDown runlevel)
      fun i => ?_
    rw [mem_levelsDown]
    simp only [List.mem_filter, List.mem_cons, List.not_mem_nil, maxRunlevel, decide_eq_true_eq,
      or_false]
    omega
  have hfold : ∀ (levels : List Int) (ps : List Platform) (w : Calls), (∀ p ∈ ps, Recorded p) →
      (sweep (fun i p => !(decide (p.runlevel = i) && stops runlevel p)) stopContainer levels ps w).1
        = levels.foldl (fun ps i => ps.map (stopPlatform runlevel i)) ps := by
    intro levels
    induction levels with
    | nil => exact fun ps w _ => rfl
    | cons i is ih =>
      intro ps w hps
      obtain ⟨hmap, hok⟩ := stopLevel_eq hps runlevel i w
      rw [sweep, if_pos hok, hmap, List.foldl_cons]
      refine ih _ _ ?_
      rw [List.forall_mem_map]
      exact fun p hp => recorded_stopPlatform (hps p hp)
  rw [State.pvPlatformsStop, hlevels, stopContainers]
  dsimp only
  rw [hfold _ _ _ h]

/-- **The start and the stop of a state are in order**: the start of one that comes up, and
the stop of one whose platforms were started by `pv_platforms_start`. -/
theorem state_starts_and_stops_in_order (mntpoint : CStr) (start : Platform → Container)
    (s : PvState) (runlevel : Int) :
    (∀ t, State.pvPlatformsStart (pidOf (confDir mntpoint s) start) s runlevel = some t →
      ∃ calls, StartsInOrder (fun _ => start) s.platforms runlevel ⟨t.platforms, calls, .ok⟩) ∧
    (0 ≤ runlevel → (∀ p ∈ s.platforms, Recorded p) →
      ∃ calls, StopsInOrder s.platforms runlevel
        ⟨(State.pvPlatformsStop s runlevel).1.platforms, calls, .ok⟩) := by
  constructor
  · intro t h
    rw [pvPlatformsStart_eq] at h
    have hstarts := startsInOrder_iff (confDir mntpoint s) (fun _ => start) s.platforms runlevel
    have hret := (pvPlatformsStart_ret (confDir mntpoint s) (fun _ => start) s.platforms runlevel).2
    generalize pvPlatformsStart _ _ s.platforms runlevel = r at h hstarts hret
    obtain ⟨platforms, calls, ret⟩ := r
    dsimp only at h hret
    split at h
    · rename_i hok
      subst hok
      obtain rfl := Option.some.inj h
      exact ⟨calls, hstarts.mpr (hret.mp (by decide))⟩
    · cases h
  · intro hrunlevel hrecorded
    have hstops := (stopsInOrder_iff s.platforms runlevel).mpr fun p hp _ _ => hrecorded p hp
    rw [pvPlatformsStop_eq hrecorded hrunlevel]
    generalize stopContainers s.platforms runlevel = r at hstops ⊢
    obtain ⟨platforms, calls, ret⟩ := r
    obtain ⟨stopped, horder, hall, hcalls, rfl⟩ := hstops
    exact ⟨calls, stopped, horder, hall, hcalls, rfl⟩

end Pantavisor.Platforms
