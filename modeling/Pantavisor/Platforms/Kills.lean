/-
Pantavisor.Platforms.Kills — to which processes `pv_platforms_stop` sends SIGKILL.

Both forced parts go over everything they cover, and not over what was started: a
`kill` of process 0 finds the group of the caller, and SIGKILL to it ends the device.
A forced part is only entered if the number of processes that are gone is not the
number of those that were told to stop. So a part is safe, whatever the processes
do, exactly if it covers only processes that were started, or none (`AllOrNone`).
-/
import Pantavisor.Platforms.Order
import Pantavisor.State.StateTheorems

namespace Pantavisor.Platforms

open Pantavisor.Lib Pantavisor.State

/-! ## Waiting and killing -/

@[simp] theorem sent_countExited (alive : Nat → Bool) (pids : List Int) (w : Kills) :
    (countExited alive pids w).2.sent = w.sent := by
  induction pids generalizing w with
  | nil => rfl
  | cons pid pids ih => rw [countExited]; exact ih _

@[simp] theorem sent_waitExited (alive : Nat → Bool) (num : Nat) (pids : List Int)
    (rounds exited : Nat) (w : Kills) :
    (waitExited alive num pids rounds exited w).2.sent = w.sent := by
  induction rounds generalizing exited w with
  | zero => rfl
  | succ rounds ih =>
    simp only [waitExited]
    split
    · exact sent_countExited alive pids w
    · rw [ih, sent_countExited]

/-- If every round counts the same, so does the last one. -/
theorem waitExited_const {alive : Nat → Bool} {pids : List Int} {c : Nat}
    (h : ∀ w, (countExited alive pids w).1 = c) (num rounds exited : Nat) (w : Kills) :
    (waitExited alive num pids (rounds + 1) exited w).1 = c := by
  induction rounds generalizing exited w with
  | zero =>
    simp only [waitExited]
    split <;> exact h w
  | succ rounds ih =>
    simp only [waitExited]
    split
    · exact h w
    · exact ih (countExited alive pids w).1 _

theorem countExited_zero (alive : Nat → Bool) {pids : List Int} (h : ∀ pid ∈ pids, pid = 0)
    (w : Kills) : (countExited alive pids w).1 = 0 := by
  induction pids generalizing w with
  | nil => rfl
  | cons pid pids ih =>
    rw [List.forall_mem_cons] at h
    rw [countExited, probe, h.1]
    exact ih h.2 _

theorem countExited_alive (pids : List Int) (w : Kills) :
    (countExited (fun _ => true) pids w).1 = 0 := by
  induction pids generalizing w with
  | nil => rfl
  | cons pid pids ih =>
    rw [countExited, probe, Bool.or_true, if_pos rfl]
    exact ih _

theorem countExited_gone (pids : List Int) (w : Kills) :
    (countExited (fun _ => false) pids w).1 = pids.countP (· ≠ 0) := by
  induction pids generalizing w with
  | nil => rfl
  | cons pid pids ih =>
    rw [countExited, probe, Bool.or_false, List.countP_cons]
    dsimp only
    rw [ih]
    by_cases hpid : pid = 0 <;> simp [hpid]

/-- A forced part sends SIGKILL to processes it covers. -/
theorem mem_forceKill {alive : Nat → Bool} {pids : List Int} {w : Kills} {x : Int × Signal}
    (h : x ∈ (forceKill alive pids w).sent) : x ∈ w.sent ∨ ∃ pid ∈ pids, x = (pid, .kill) := by
  induction pids generalizing w with
  | nil => exact .inl h
  | cons pid pids ih =>
    rw [forceKill] at h
    dsimp only at h
    split at h
    · rcases ih h with hx | ⟨pid', hpid', rfl⟩
      · rcases List.mem_append.mp hx with hx | hx
        · exact .inl hx
        · exact .inr ⟨pid, List.mem_cons_self .., List.mem_singleton.mp hx⟩
      · exact .inr ⟨pid', List.mem_cons_of_mem _ hpid', rfl⟩
    · rcases ih h with hx | ⟨pid', hpid', rfl⟩
      · exact .inl hx
      · exact .inr ⟨pid', List.mem_cons_of_mem _ hpid', rfl⟩

theorem sent_forceKill {alive : Nat → Bool} {pids : List Int} {w : Kills} {x : Int × Signal}
    (h : x ∈ w.sent) : x ∈ (forceKill alive pids w).sent := by
  induction pids generalizing w with
  | nil => exact h
  | cons pid pids ih =>
    rw [forceKill]
    dsimp only
    split
    · exact ih (List.mem_append_left _ h)
    · exact ih h

/-- Process 0 is always there. -/
theorem zero_mem_forceKill (alive : Nat → Bool) {pids : List Int} (h : 0 ∈ pids) (w : Kills) :
    (0, .kill) ∈ (forceKill alive pids w).sent := by
  induction pids generalizing w with
  | nil => cases h
  | cons pid pids ih =>
    rcases List.mem_cons.mp h with rfl | h
    · rw [forceKill, if_pos (show probe alive w 0 = true from rfl)]
      exact sent_forceKill (List.mem_append_right _ (List.mem_singleton.mpr rfl))
    · simp only [forceKill]
      split <;> exact ih h _

/-! ## Pids -/

/-- Processes that were started, or none that was. -/
def AllOrNone (pids : List Int) : Prop := (∀ pid ∈ pids, 0 < pid) ∨ ∀ pid ∈ pids, pid = 0

instance (pids : List Int) : Decidable (AllOrNone pids) := inferInstanceAs (Decidable (_ ∨ _))

theorem not_allOrNone {pids : List Int} (hpos : ∀ pid ∈ pids, 0 ≤ pid) (h : ¬ AllOrNone pids) :
    0 ∈ pids ∧ ∃ pid ∈ pids, 0 < pid := by
  rw [AllOrNone, not_or] at h
  simp only [not_forall, Int.not_lt] at h
  obtain ⟨⟨pid, hpid, hle⟩, pid', hpid', hne⟩ := h
  have hzero : pid = 0 := by
    have := hpos pid hpid
    omega
  refine ⟨hzero ▸ hpid, pid', hpid', ?_⟩
  have := hpos pid' hpid'
  omega

/-! ## Loggers -/

/-- The pids of the loggers of a platform. -/
def Plat.pids (p : Plat) : List Int := p.loggers.map fun pid : Nat => (pid : Int)

theorem pvPlatformStopLoggers_eq (alive : Nat → Bool) (w : Kills) (p : Plat) :
    pvPlatformStopLoggers alive w p =
      let started := p.pids.filter (0 < ·)
      let w := { w with sent := w.sent ++ started.map fun pid => (pid, Signal.term) }
      let r := waitExited alive started.length p.pids 5 0 w
      if r.1 = started.length then r.2 else forceKill alive p.pids r.2 := rfl

theorem sent_stopLoggers (alive : Nat → Bool) {w : Kills} {p : Plat} {x : Int × Signal}
    (h : x ∈ w.sent) : x ∈ (pvPlatformStopLoggers alive w p).sent := by
  rw [pvPlatformStopLoggers_eq]
  dsimp only
  split
  · rw [sent_waitExited]
    exact List.mem_append_left _ h
  · refine sent_forceKill ?_
    rw [sent_waitExited]
    exact List.mem_append_left _ h

theorem sent_foldl_stopLoggers (alive : Nat → Bool) {ps : List Plat} {w : Kills}
    {x : Int × Signal} (h : x ∈ w.sent) :
    x ∈ (ps.foldl (pvPlatformStopLoggers alive) w).sent := by
  induction ps generalizing w with
  | nil => exact h
  | cons p ps ih => exact ih (sent_stopLoggers alive h)

/-- Loggers that are all started, or none of them, get no SIGKILL but to a started one. -/
theorem kill_stopLoggers {alive : Nat → Bool} {w : Kills} {p : Plat} (hp : AllOrNone p.pids)
    {pid : Int} (h : (pid, .kill) ∈ (pvPlatformStopLoggers alive w p).sent) :
    (pid, .kill) ∈ w.sent ∨ 0 < pid ∧ pid ∈ p.pids := by
  have hterm : (pid, Signal.kill) ∈
      w.sent ++ (p.pids.filter (0 < ·)).map (fun pid => (pid, Signal.term)) →
        (pid, Signal.kill) ∈ w.sent := by
    intro h
    rcases List.mem_append.mp h with h | h
    · exact h
    · obtain ⟨pid', -, heq⟩ := List.mem_map.mp h
      cases heq
  rw [pvPlatformStopLoggers_eq] at h
  dsimp only at h
  split at h
  · rw [sent_waitExited] at h
    exact .inl (hterm h)
  · rename_i hforced
    rcases hp with hall | hnone
    · rcases mem_forceKill h with h | ⟨pid', hpid', heq⟩
      · rw [sent_waitExited] at h
        exact .inl (hterm h)
      · obtain ⟨rfl, -⟩ := Prod.mk.inj heq
        exact .inr ⟨hall _ hpid', hpid'⟩
    · -- none is started, and none is gone
      have hstarted : p.pids.filter (0 < ·) = [] := by
        rw [List.filter_eq_nil_iff]
        intro pid hpid
        rw [hnone pid hpid]
        decide
      rw [hstarted] at hforced
      exact absurd (waitExited_const (fun w => countExited_zero alive hnone w) _ 4 0 _) hforced

theorem kill_foldl_stopLoggers {alive : Nat → Bool} {ps : List Plat} {w : Kills}
    (hps : ∀ p ∈ ps, AllOrNone p.pids) {pid : Int}
    (h : (pid, .kill) ∈ (ps.foldl (pvPlatformStopLoggers alive) w).sent) :
    (pid, .kill) ∈ w.sent ∨ 0 < pid ∧ ∃ p ∈ ps, pid ∈ p.pids := by
  induction ps generalizing w with
  | nil => exact .inl h
  | cons p ps ih =>
    rw [List.forall_mem_cons] at hps
    rcases ih hps.2 h with h | ⟨hpos, p', hp', hpid⟩
    · rcases kill_stopLoggers hps.1 h with h | ⟨hpos, hpid⟩
      · exact .inl h
      · exact .inr ⟨hpos, p, List.mem_cons_self .., hpid⟩
    · exact .inr ⟨hpos, p', List.mem_cons_of_mem _ hp', hpid⟩

/-- Of loggers that are started in part, one that goes on takes process 0 with it. -/
theorem zero_stopLoggers {p : Plat} (hp : ¬ AllOrNone p.pids) (w : Kills) :
    (0, .kill) ∈ (pvPlatformStopLoggers (fun _ => true) w p).sent := by
  have hpos : ∀ pid ∈ p.pids, 0 ≤ pid := by
    intro pid hpid
    obtain ⟨n, -, hn⟩ := List.mem_map.mp hpid
    exact hn ▸ Int.natCast_nonneg n
  obtain ⟨hzero, pid, hpid, hpos⟩ := not_allOrNone hpos hp
  rw [pvPlatformStopLoggers_eq]
  dsimp only
  rw [if_neg]
  · exact zero_mem_forceKill _ hzero _
  · rw [waitExited_const (fun w => countExited_alive p.pids w) _ 4]
    intro hlen
    rw [eq_comm, List.length_eq_zero_iff, List.filter_eq_nil_iff] at hlen
    exact hlen pid hpid (decide_eq_true hpos)

theorem zero_foldl_stopLoggers {ps : List Plat} {p : Plat} (hmem : p ∈ ps)
    (hp : ¬ AllOrNone p.pids) (w : Kills) :
    (0, .kill) ∈ (ps.foldl (pvPlatformStopLoggers fun _ => true) w).sent := by
  obtain ⟨before, after, rfl⟩ := List.append_of_mem hmem
  rw [List.foldl_append, List.foldl_cons]
  exact sent_foldl_stopLoggers _ (zero_stopLoggers hp _)

/-! ## Platforms -/

/-- A platform but for its status. -/
def unstated (p : Platform) : Platform := { p with status := .none }

theorem pidsInRange_unstated (ps : List Platform) (runlevel : Int) :
    pidsInRange (ps.map unstated) runlevel = pidsInRange ps runlevel := by
  simp only [pidsInRange, byLevel, List.filter_map, List.map_flatMap, List.map_map]
  rfl

/-- A stop changes no pid. -/
theorem pidsInRange_stopContainers (ps : List Platform) (runlevel : Int) :
    pidsInRange (stopContainers ps runlevel).platforms runlevel = pidsInRange ps runlevel := by
  obtain ⟨stopped, rest, horder, hall, -, hend⟩ := stopContainers_spec ps runlevel
  have hzip : ∀ z ∈ ps.zip (stopContainers ps runlevel).platforms,
      unstated z.2 = unstated z.1 := by
    intro z hz
    by_cases hpicks : stops runlevel z.1 ∧ runlevel ≤ z.1.runlevel ∧ z.1.runlevel ≤ maxRunlevel
    · rcases List.mem_append.mp ((horder.mem z).mpr ⟨hz, hpicks⟩) with hz | hz
      · rw [(hall z hz).2]
        rfl
      · rcases hend with ⟨-, rfl⟩ | ⟨-, hrest, -⟩
        · cases hz
        · rw [hrest z hz]
    · rw [horder.others z hz hpicks]
  have hmap : (stopContainers ps runlevel).platforms.map unstated = ps.map unstated := by
    have hlength := horder.length
    have h := List.map_congr_left hzip
    rw [show (fun z : Platform × Platform => unstated z.2) = unstated ∘ Prod.snd from rfl,
      show (fun z : Platform × Platform => unstated z.1) = unstated ∘ Prod.fst from rfl,
      ← List.map_map, ← List.map_map, List.map_snd_zip (by omega),
      List.map_fst_zip (by omega)] at h
    exact h
  rw [← pidsInRange_unstated, hmap, pidsInRange_unstated]

theorem mem_pidsInRange {ps : List Platform} {runlevel pid : Int} :
    pid ∈ pidsInRange ps runlevel ↔ ∃ p ∈ ps, (runlevel ≤ p.runlevel ∧ p.runlevel ≤ maxRunlevel) ∧
      unlessKept runlevel p ∧ p.initPid = pid := by
  simp only [pidsInRange, List.mem_map, mem_byLevel, mem_levelsDown, List.mem_filter]
  constructor
  · rintro ⟨p, ⟨hlevel, hp, hkept⟩, rfl⟩
    exact ⟨p, hp, hlevel, hkept, rfl⟩
  · rintro ⟨p, hp, hlevel, hkept, rfl⟩
    exact ⟨p, ⟨hlevel, hp, hkept⟩, rfl⟩

/-- If no platform of the range is started, none is told to stop. -/
theorem calls_of_none {ps : List Platform} {runlevel : Int}
    (h : ∀ pid ∈ pidsInRange ps runlevel, pid = 0) : (stopContainers ps runlevel).calls = [] := by
  obtain ⟨stopped, rest, horder, -, hcalls, -⟩ := stopContainers_spec ps runlevel
  rw [hcalls, List.map_eq_nil_iff, List.eq_nil_iff_forall_not_mem]
  intro q hq
  obtain ⟨hzip, hstops, hlevel⟩ := (horder.mem q).mp (List.mem_append_left _ hq)
  rw [stops, Bool.and_eq_true, Bool.and_eq_true, decide_eq_true_eq, decide_eq_true_eq] at hstops
  have hzero := h _ (mem_pidsInRange.mpr ⟨q.1, (List.of_mem_zip hzip).1, hlevel, hstops.1, rfl⟩)
  have hpos := hstops.2.2
  omega

/-! ## Reachable platforms -/

/-- The platforms of a device, from their load on. The container plugin gives no
container without a process. -/
inductive Reached : List Platform → Prop where
  | loaded {ps : List Platform} (h : ∀ p ∈ ps, p.initPid = 0 ∧ p.status ≠ .started) : Reached ps
  | started {ps : List Platform} (h : Reached ps) {start : Nat → Platform → Container}
      (hstart : ∀ n p, (start n p).data → 0 < (start n p).pid) (d : ConfDir) (runlevel : Int) :
      Reached (pvPlatformsStart d start ps runlevel).platforms
  | stopped {ps : List Platform} (h : Reached ps) (runlevel : Int) :
      Reached (stopContainers ps runlevel).platforms
  | compared {pending current s : PvState} (h : Reached current.platforms) {runlevel : Int}
      (hcompare : pvStateCompareStates pending current = some (s, runlevel)) : Reached s.platforms
  | transferred {inp out s : PvState} (hinp : Reached inp.platforms) (hout : Reached out.platforms)
      (htransfer : pvStateTransfer inp out = some s) : Reached s.platforms

theorem pidOk_setUpdated {s : PvState} {a : Addr} (h : ∀ p ∈ s.platforms, PidOk p) :
    ∀ p ∈ (s.setUpdated a).platforms, PidOk p := by
  intro p' hp'
  obtain ⟨p, hp, rfl⟩ := List.mem_map.mp hp'
  split
  · exact h p hp
  · exact h p hp

theorem Reached.pidOk {ps : List Platform} (h : Reached ps) : ∀ p ∈ ps, PidOk p := by
  induction h with
  | loaded h =>
    intro p hp
    exact ⟨Int.le_of_eq (h p hp).1.symm, fun hstarted => absurd hstarted (h p hp).2⟩
  | started h hstart d runlevel ih => exact pidOk_start hstart ih
  | stopped h runlevel ih => exact pidOk_stop ih
  | compared h hcompare ih =>
    exact all_pvStateCompareStates (P := fun s => ∀ p ∈ s.platforms, PidOk p)
      (fun _ _ => pidOk_setUpdated) hcompare ih
  | transferred hinp hout htransfer ihinp ihout =>
    intro p hp
    exact (mem_pvStateTransfer htransfer hp).elim (ihinp p) (ihout p)

/-! ## Kill signals -/

theorem pvPlatformsStop_sent (alive : Nat → Bool) {ps : List Plat}
    (h : Reached (ps.map (·.plat))) (runlevel : Int) :
    (pvPlatformsStop alive ps runlevel).sent =
      let pids := pidsInRange (ps.map (·.plat)) runlevel
      let num := (stopContainers (ps.map (·.plat)) runlevel).calls.length
      let x := waitExited alive num pids 5 0 (ps.foldl (pvPlatformStopLoggers alive) ⟨0, []⟩)
      (if x.1 = num then x.2 else forceKill alive pids x.2).sent := by
  have hret : (stopContainers (ps.map (·.plat)) runlevel).ret = .ok :=
    stopContainers_ok fun p hp _ hstops => by
      rw [stops_eq, Bool.and_eq_true] at hstops
      exact ((h.pidOk p hp).2 (toStop_iff.mp hstops.1).1).2
  rw [pvPlatformsStop]
  dsimp only
  rw [if_neg (not_not.mpr hret), pidsInRange_stopContainers]

/-- **SIGKILL goes to started processes only**, whatever the processes do, exactly if of
each platform's loggers, and of the platforms that are stopped, all are started or none. -/
theorem kills_only_started_iff {ps : List Plat} (h : Reached (ps.map (·.plat))) (runlevel : Int) :
    (∀ alive pid, (pid, Signal.kill) ∈ (pvPlatformsStop alive ps runlevel).sent →
      0 < pid ∧ ((∃ p ∈ ps, pid ∈ p.pids) ∨ pid ∈ pidsInRange (ps.map (·.plat)) runlevel)) ↔
    (∀ p ∈ ps, AllOrNone p.pids) ∧ AllOrNone (pidsInRange (ps.map (·.plat)) runlevel) := by
  constructor
  · intro hsafe
    refine ⟨fun p hp => ?_, ?_⟩
    · -- a logger that goes on
      by_contra hnot
      have hzero := zero_foldl_stopLoggers hp hnot ⟨0, []⟩
      refine absurd (hsafe (fun _ => true) 0 ?_).1 (by decide)
      rw [pvPlatformsStop_sent _ h]
      dsimp only
      split
      · rw [sent_waitExited]
        exact hzero
      · refine sent_forceKill ?_
        rw [sent_waitExited]
        exact hzero
    · by_contra hnot
      have hpos : ∀ pid ∈ pidsInRange (ps.map (·.plat)) runlevel, 0 ≤ pid := by
        intro pid hpid
        obtain ⟨p, hp, -, -, rfl⟩ := mem_pidsInRange.mp hpid
        exact (h.pidOk p hp).1
      obtain ⟨hzero, pid, hpid, hpid0⟩ := not_allOrNone hpos hnot
      have hkill : ∀ alive, (∀ w, (waitExited alive
          (stopContainers (ps.map (·.plat)) runlevel).calls.length
          (pidsInRange (ps.map (·.plat)) runlevel) 5 0 w).1
            ≠ (stopContainers (ps.map (·.plat)) runlevel).calls.length) → False := by
        intro alive hforced
        refine absurd (hsafe alive 0 ?_).1 (by decide)
        rw [pvPlatformsStop_sent _ h]
        dsimp only
        rw [if_neg (hforced _)]
        exact zero_mem_forceKill alive hzero _
      by_cases hcalls : (stopContainers (ps.map (·.plat)) runlevel).calls.length = 0
      · -- one was stopped before, and is gone
        refine hkill (fun _ => false) fun w => ?_
        rw [waitExited_const (fun w => countExited_gone _ w), hcalls, ← Nat.pos_iff_ne_zero,
          List.countP_pos_iff]
        exact ⟨pid, hpid, by simpa using Int.ne_of_gt hpid0⟩
      · -- one that is told to stop goes on
        refine hkill (fun _ => true) fun w => ?_
        rw [waitExited_const (fun w => countExited_alive _ w)]
        exact fun heq => hcalls heq.symm
  · rintro ⟨hloggers, hplats⟩ alive pid hpid
    have hlenient : (pid, Signal.kill) ∈ (ps.foldl (pvPlatformStopLoggers alive) ⟨0, []⟩).sent →
        0 < pid ∧ ((∃ p ∈ ps, pid ∈ p.pids) ∨
          pid ∈ pidsInRange (ps.map (·.plat)) runlevel) := by
      intro hsent
      rcases kill_foldl_stopLoggers hloggers hsent with hnil | ⟨hpos, hlogger⟩
      · cases hnil
      · exact ⟨hpos, .inl hlogger⟩
    rw [pvPlatformsStop_sent _ h] at hpid
    dsimp only at hpid
    split at hpid
    · rw [sent_waitExited] at hpid
      exact hlenient hpid
    · rename_i hforced
      rcases hplats with hall | hnone
      · rcases mem_forceKill hpid with hpid | ⟨pid', hpid', heq⟩
        · rw [sent_waitExited] at hpid
          exact hlenient hpid
        · obtain ⟨rfl, -⟩ := Prod.mk.inj heq
          exact ⟨hall _ hpid', .inr hpid'⟩
      · -- none is told to stop, and none is gone
        rw [calls_of_none hnone] at hforced
        exact absurd (waitExited_const (fun w => countExited_zero alive hnone w) _ 4 0 _) hforced

/-- A platform that keeps data, and one that is an app. -/
def dataAndApp : List Platform :=
  [⟨⟨0, 0⟩, str "data", some (str "lxc"), some (str "lxc.container.conf"), 0, .installed,
      runlevelData, true, false⟩,
    ⟨⟨0, 1⟩, str "app", some (str "lxc"), some (str "lxc.container.conf"), 0, .installed,
      runlevelApp, true, false⟩]

theorem pid_startsAll (n : Nat) (p : Platform) (_ : (startsAll n p).data) :
    0 < (startsAll n p).pid :=
  show (0 : Int) < 100 by decide

/-- The two after a start, without loggers. -/
def dataAndAppStarted : List Plat :=
  (pvPlatformsStart firstDir startsAll dataAndApp runlevelData).platforms.map (⟨·, []⟩)

theorem reached_dataAndApp : Reached (dataAndAppStarted.map (·.plat)) := by
  have hloaded : Reached dataAndApp := .loaded (by decide)
  rw [dataAndAppStarted, List.map_map]
  exact List.map_id _ ▸ hloaded.started pid_startsAll firstDir runlevelData

/-- The app that does not stop takes process 0 with it: a data platform has no other. -/
theorem kill_of_group :
    ¬ ∀ ps : List Plat, Reached (ps.map (·.plat)) → ∀ runlevel alive pid,
      (pid, Signal.kill) ∈ (pvPlatformsStop alive ps runlevel).sent →
        0 < pid ∧ ((∃ p ∈ ps, pid ∈ p.pids) ∨ pid ∈ pidsInRange (ps.map (·.plat)) runlevel) := by
  intro h
  exact absurd (h dataAndAppStarted reached_dataAndApp runlevelData (fun _ => true) 0
    (by decide)).1 (by decide)

/-- The condition is met if only the app is to be stopped. -/
theorem kills_of_root : Reached (dataAndAppStarted.map (·.plat)) ∧ ∀ alive pid,
    (pid, Signal.kill) ∈ (pvPlatformsStop alive dataAndAppStarted runlevelRoot).sent →
      0 < pid ∧ ((∃ p ∈ dataAndAppStarted, pid ∈ p.pids) ∨
        pid ∈ pidsInRange (dataAndAppStarted.map (·.plat)) runlevelRoot) :=
  ⟨reached_dataAndApp, (kills_only_started_iff reached_dataAndApp runlevelRoot).mpr (by decide)⟩

end Pantavisor.Platforms
