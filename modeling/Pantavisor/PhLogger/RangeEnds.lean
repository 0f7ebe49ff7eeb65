/-
Pantavisor.PhLogger.RangeEnds — the range service comes to its end.

When the calls for the logs work, each round of the range service takes a position in some
file further, or it goes on to the previous revision. So it is done after as many rounds
as there are bytes in the files and revisions below the one that it is at, whatever the log
service and the push service do in between.
-/
import Mathlib
import Pantavisor.PhLogger.RangeService

namespace Pantavisor.PhLogger

open Pantavisor.Lib Pantavisor.Config

/-! ## What the property says -/

/-- The bytes that are left to push. A position behind the end is read from the start. -/
def LogFile.left (f : LogFile) : Nat :=
  if f.content.length < f.xattr.getD 0 then f.content.length + 1
  else f.content.length - f.xattr.getD 0

/-- The same, for the file at a path. -/
def LogDir.leftAt (dir : LogDir) (path : CStr) : Nat :=
  match dir path with
  | some f => f.left
  | none => 0

/-- A call in which everything works. -/
structure PushCalls.Works (c : PushCalls) : Prop where
  buffers : c.largeBuff = true ∧ c.logBuff = true
  getXattr : c.getXattr = true
  setXattr : c.setXattr = true
  opened : c.opened = true
  seeked : c.seeked = true
  fstat : c.fstat = true
  killed : c.killed = none
  pushed : c.pushed = true
  killedAfter : c.killedAfter = false

/-- Everything works for a revision, and `find` lists files that are there. -/
def RevisionCalls.Works (dir : LogDir) (c : RevisionCalls) : Prop :=
  c.killed = false ∧ ∃ found, c.found = some found ∧
    ∀ e ∈ found, e.2.connected = true ∧ e.2.push.Works ∧ dir e.1 ≠ none

/-- The range service works and is not stopped. -/
def WorkingStep (s : LogServices) : ServiceStep → Prop
  | .log _ _ _ => True
  | .push _ => True
  | .range c => ∀ r, s.rangeService = .on r → c.Works (s.logs (intText r.currentRev))
  | .toggle push _ _ => push = true
  | .run _ => False

/-- The step is a round of the range service. -/
def ServiceStep.isRange : ServiceStep → Bool
  | .range _ => true
  | _ => false

/-- The list has the files of the other revisions. -/
structure Covers (files : List (CStr × CStr)) (s : LogServices) : Prop where
  listed : ∀ rev path, rev ≠ s.running → s.logs rev path ≠ none → (rev, path) ∈ files
  other : ∀ e ∈ files, e.1 ≠ s.running

/-- The rounds that the range service is from its end. -/
def roundsLeft (files : List (CStr × CStr)) (s : LogServices) (r : RangeService) : Nat :=
  (r.currentRev + 1).toNat + (files.map fun e => LogDir.leftAt (s.logs e.1) e.2).sum

/-! ## A call -/

variable {origin : LogOrigin} {size readPos : Nat} {setOk : Bool} {buf : CStr}
  {before : Option Nat} {l : PushLoop}

variable (readPos buf before) in
/-- The loop stays in the buffer, and so do the positions that it writes. -/
structure Bounded (l : PushLoop) : Prop where
  bytes : (l.offset : Int) + l.bytesRead ≤ buf.length
  offset : l.offset ≤ buf.length
  pos : l.frags ≠ [] → l.pos = readPos + l.offset ∧ 0 < l.offset
  xattr : l.xattr = before ∨ ∃ n, l.xattr = some n ∧ readPos ≤ n ∧ n ≤ readPos + buf.length

theorem Bounded.round (hnul : NulFree buf) (hsize : buf.length ≤ size) (hpos : 0 < l.bytesRead)
    (h : Bounded readPos buf before l) :
    Bounded readPos buf before (pushRound origin size setOk readPos buf l) := by
  have hbytes := h.bytes
  rcases pushRound_cases origin setOk readPos hnul hsize hbytes hpos with
    ⟨seg, rest, heq, -, hround⟩ | ⟨hoff, -, -, hne, hround⟩ | hround
  · have hlens := congrArg List.length heq
    simp only [List.length_drop, List.length_append, List.length_cons] at hlens
    rw [hround]
    by_cases hnil : seg = []
    · subst hnil
      rw [List.length_nil] at hlens
      rw [pushText_nil]
      refine ⟨?_, ?_, fun _ => ⟨rfl, ?_⟩, ?_⟩
      · simp only [List.length_nil]
        omega
      · simp only [List.length_nil]
        omega
      · simp only [List.length_nil]
        omega
      · simp only [List.length_nil]
        split
        · exact .inr ⟨_, rfl, by omega, by omega⟩
        · exact h.xattr
    · rw [pushText_some hnil]
      refine ⟨?_, ?_, fun _ => ⟨rfl, ?_⟩, h.xattr⟩
      · simp only
        omega
      · simp only
        omega
      · simp only
        omega
  · have hlen := List.length_pos_iff.mpr hne
    rw [hround, pushText_some hne]
    exact ⟨by simp, le_refl _, fun _ => ⟨rfl, hlen⟩, h.xattr⟩
  · rw [hround]
    exact ⟨by simp only; have := h.offset; omega, h.offset, h.pos, h.xattr⟩

theorem pushLoop_bounded (hnul : NulFree buf) (hsize : buf.length ≤ size) (rounds : Nat) :
    ∀ {l : PushLoop}, Bounded readPos buf before l →
      Bounded readPos buf before (pushLoop origin size setOk readPos buf rounds l) := by
  induction rounds with
  | zero => exact fun h => h
  | succ rounds ih =>
    intro l h
    rw [pushLoop]
    split
    · next hpos => exact ih (h.round hnul hsize hpos)
    · exact h

variable {f : LogFile} {c : PushCalls} {pos : Nat}

theorem left_of_le {content : CStr} {accepted : List CStr} (h : pos ≤ content.length) :
    LogFile.left ⟨content, some pos, accepted⟩ = content.length - pos :=
  if_neg (Nat.not_lt.mpr h)

/-- A call that works takes the position further, or it has nothing to push. -/
theorem pushRead_works (hc : c.Works) (hpos : f.xattr.getD 0 = pos) :
    ((pushRead origin size c f pos (some pos)).1 = 0 ∧
        (pushRead origin size c f pos (some pos)).2.left ≤ f.left) ∨
      ((pushRead origin size c f pos (some pos)).1 = 1 ∧
        (pushRead origin size c f pos (some pos)).2.left < f.left) := by
  rw [pushRead]
  simp only [hc.opened, hc.seeked, hc.killed, hc.fstat, hc.setXattr, Bool.not_true,
    Bool.false_eq_true, if_false, Bool.true_and, decide_eq_true_eq]
  generalize hread : (if f.content.length < pos then 0 else pos) = readPos
  generalize hbuf : noNul (((f.content.drop readPos).take size).take c.read) = buf
  have hnul : NulFree buf := hbuf ▸ noNul_nulFree _
  have hlen : buf.length ≤ size ∧ buf.length ≤ f.content.length - readPos := by
    rw [← hbuf, noNul, List.length_map]
    simp only [List.length_take, List.length_drop]
    omega
  have hstart : Bounded readPos buf (some pos) ⟨0, buf.length, pos, [], some pos⟩ :=
    ⟨by simp, Nat.zero_le _, fun h => absurd rfl h, .inl rfl⟩
  have hend : Bounded readPos buf (some pos) (pushLoop origin size true readPos buf buf.length
      ⟨0, buf.length, pos, [], some pos⟩) := pushLoop_bounded hnul hlen.1 buf.length hstart
  generalize pushLoop origin size true readPos buf buf.length ⟨0, buf.length, pos, [], some pos⟩ = l
    at hend ⊢
  have hfleft : f.left = if f.content.length < pos then f.content.length + 1
      else f.content.length - pos := by rw [LogFile.left, hpos]
  rw [pushFrags]
  split
  · refine .inl ⟨rfl, ?_⟩
    rcases hend.xattr with hx | ⟨n, hx, hlow, hhigh⟩
    · rw [hx, hfleft, LogFile.left, Option.getD_some]
    · rw [hx, hfleft, left_of_le (by split at hread <;> omega)]
      split at hread <;> split <;> omega
  · next hfrags =>
    obtain ⟨hlpos, hoff⟩ := hend.pos hfrags
    have hin := hend.offset
    simp only [hc.pushed, hc.killedAfter, Bool.not_false, Bool.and_true, if_true]
    refine .inr ⟨trivial, ?_⟩
    rw [hlpos, hfleft, hc.setXattr, if_pos rfl, left_of_le (by split at hread <;> omega)]
    split at hread <;> split <;> omega

variable (origin size f) in
theorem push_works (hc : c.Works) :
    ((phLoggerPushFromFile origin size c f).1 = 0 ∧
        (phLoggerPushFromFile origin size c f).2.left ≤ f.left) ∨
      ((phLoggerPushFromFile origin size c f).1 = 1 ∧
        (phLoggerPushFromFile origin size c f).2.left < f.left) := by
  rw [phLoggerPushFromFile]
  simp only [hc.buffers, hc.getXattr, hc.setXattr, Bool.not_true, Bool.or_self,
    Bool.false_eq_true, if_false, if_true]
  cases hx : f.xattr with
  | some pos => exact pushRead_works hc (by rw [hx]; rfl)
  | none => exact pushRead_works hc (by rw [hx]; rfl)

/-! ## A revision -/

variable {rev path : CStr} {skips : List CStr} {dir : LogDir} {calls : RevisionCalls}

variable (size rev) in
theorem parseInfo_works {c : FileOutcome} (hconnected : c.connected = true)
    (hworks : c.push.Works) (hfile : dir path ≠ none) :
    ∃ ret, (phLoggerPushFromFileParseInfo size rev path c dir).1 = some ret ∧
      (∀ path', (phLoggerPushFromFileParseInfo size rev path c dir).2.leftAt path'
        ≤ dir.leftAt path') ∧
      (ret = 0 ∨ (ret = 1 ∧ ∃ path', (phLoggerPushFromFileParseInfo size rev path c dir).2.leftAt
        path' < dir.leftAt path')) := by
  obtain ⟨f, hf⟩ := Option.ne_none_iff_exists'.mp hfile
  have hkilled : c.killed = false := by
    rw [FileOutcome.killed, hworks.killed, hworks.killedAfter]
    rfl
  simp only [phLoggerPushFromFileParseInfo, hconnected, hf, hkilled, Bool.not_true,
    Bool.false_eq_true, if_false]
  have hsame : LogDir.leftAt dir path = f.left := by rw [LogDir.leftAt, hf]
  have hpath : ∀ f' : LogFile,
      LogDir.leftAt (Function.update dir path (some f')) path = f'.left := by
    intro f'
    rw [LogDir.leftAt, Function.update_self]
  have hother : ∀ (f' : LogFile) (path' : CStr), path' ≠ path →
      LogDir.leftAt (Function.update dir path (some f')) path' = LogDir.leftAt dir path' := by
    intro f' path' hne
    rw [LogDir.leftAt, LogDir.leftAt, Function.update_of_ne hne]
  have hall : ∀ f' : LogFile, f'.left ≤ f.left → ∀ path',
      LogDir.leftAt (Function.update dir path (some f')) path' ≤ LogDir.leftAt dir path' := by
    intro f' hle path'
    by_cases hne : path' = path
    · rw [hne, hpath, hsame]
      exact hle
    · rw [hother f' path' hne]
  have hpush := push_works (logOrigin rev path) size f hworks
  rcases hpush with ⟨hret, hle⟩ | ⟨hret, hlt⟩
  · exact ⟨_, rfl, hall _ hle, .inl hret⟩
  · exact ⟨_, rfl, hall _ hlt.le, .inr ⟨hret, path, by rw [hpath, hsame]; exact hlt⟩⟩

variable (size rev skips) in
theorem pushFound_works (found : List (CStr × FileOutcome)) :
    ∀ (result : Int) {dir : LogDir},
      (∀ e ∈ found, e.2.connected = true ∧ e.2.push.Works ∧ dir e.1 ≠ none) →
      ∃ ret, (pushFound size rev skips found result dir).1 = some ret ∧
        (∀ path, (pushFound size rev skips found result dir).2.leftAt path ≤ dir.leftAt path) ∧
        (ret = result ∨ (ret = 1 ∧ ∃ path,
          (pushFound size rev skips found result dir).2.leftAt path < dir.leftAt path)) := by
  induction found with
  | nil => exact fun _ _ _ => ⟨_, rfl, fun _ => Nat.le_refl _, .inl rfl⟩
  | cons e found ih =>
    obtain ⟨path, c⟩ := e
    intro result dir hworks
    have hrest : ∀ e ∈ found, e.2.connected = true ∧ e.2.push.Works ∧ dir e.1 ≠ none :=
      fun e he => hworks e (List.mem_cons_of_mem _ he)
    obtain ⟨hconnected, hpush, hfile⟩ := hworks (path, c) List.mem_cons_self
    rw [pushFound]
    split
    · exact ih _ hrest
    have hfirst := parseInfo_works size rev hconnected hpush hfile
    have hnone : ∀ path', (phLoggerPushFromFileParseInfo size rev path c dir).2 path' = none ↔
        dir path' = none := parseInfo_none path c
    cases hcall : phLoggerPushFromFileParseInfo size rev path c dir with
    | mk ret dir' =>
      rw [hcall] at hfirst hnone
      obtain ⟨ret, rfl, hle, hret⟩ := hfirst
      have hrest' : ∀ e ∈ found, e.2.connected = true ∧ e.2.push.Works ∧ dir' e.1 ≠ none :=
        fun e he => ⟨(hrest e he).1, (hrest e he).2.1,
          fun h => (hrest e he).2.2 ((hnone e.1).mp h)⟩
      rcases hret with rfl | ⟨rfl, path', hlt⟩
      · obtain ⟨ret, hret, hle', hlater⟩ := ih _ hrest'
        refine ⟨ret, hret, fun path => (hle' path).trans (hle path), ?_⟩
        rcases hlater with hlater | ⟨hone, path', hlt⟩
        · exact .inl hlater
        · exact .inr ⟨hone, path', Nat.lt_of_lt_of_le hlt (hle path')⟩
      · obtain ⟨ret, hret, hle', hlater⟩ := ih _ hrest'
        refine ⟨ret, hret, fun path => (hle' path).trans (hle path), .inr ⟨?_, path', ?_⟩⟩
        · rcases hlater with hlater | ⟨hone, -⟩
          · exact hlater
          · exact hone
        · exact Nat.lt_of_le_of_lt (hle' path') hlt

variable (size rev) in
theorem revision_works (h : calls.Works dir) :
    (∀ path, (phLoggerPushRevision size rev calls dir).2.leftAt path ≤ dir.leftAt path) ∧
      ((phLoggerPushRevision size rev calls dir).1 = some 0 ∨
        ((phLoggerPushRevision size rev calls dir).1 = some 1 ∧ ∃ path,
          (phLoggerPushRevision size rev calls dir).2.leftAt path < dir.leftAt path)) := by
  obtain ⟨hkilled, found, hfound, hworks⟩ := h
  simp only [phLoggerPushRevision, hfound, hkilled, Bool.false_eq_true, if_false]
  obtain ⟨ret, hret, hle, hlater⟩ := pushFound_works size rev
    (if calls.skipsOpened then LogDir.skipList dir else []) found 0 hworks
  refine ⟨hle, ?_⟩
  rcases hlater with rfl | ⟨rfl, hlt⟩
  · exact .inl hret
  · exact .inr ⟨hret, hlt⟩

/-! ## Rounds -/

variable {maxSize : Nat} {s : LogServices} {r : RangeService} {files : List (CStr × CStr)}

variable (files) in
/-- The sum over the files, when the files of a revision shrink. -/
theorem sum_update_le {dir : LogDir} (h : ∀ path, dir.leftAt path ≤ (s.logs rev).leftAt path) :
    (files.map fun e => LogDir.leftAt (Function.update s.logs rev dir e.1) e.2).sum
      ≤ (files.map fun e => LogDir.leftAt (s.logs e.1) e.2).sum := by
  refine List.sum_le_sum fun e _ => ?_
  by_cases he : e.1 = rev
  · rw [he, Function.update_self]
    exact h e.2
  · rw [Function.update_of_ne he]

theorem sum_update_lt {dir : LogDir} (h : ∀ path, dir.leftAt path ≤ (s.logs rev).leftAt path)
    (hmem : (rev, path) ∈ files) (hlt : dir.leftAt path < (s.logs rev).leftAt path) :
    (files.map fun e => LogDir.leftAt (Function.update s.logs rev dir e.1) e.2).sum
      < (files.map fun e => LogDir.leftAt (s.logs e.1) e.2).sum := by
  refine List.sum_lt_sum _ _ (fun e _ => ?_) ⟨(rev, path), hmem, ?_⟩
  · by_cases he : e.1 = rev
    · rw [he, Function.update_self]
      exact h e.2
    · rw [Function.update_of_ne he]
  · rw [Function.update_self]
    exact hlt

/-- The files of the running revision are not in the sum. -/
theorem sum_update_running (hcovers : Covers files s) (dir : LogDir) :
    (files.map fun e => LogDir.leftAt (Function.update s.logs s.running dir e.1) e.2).sum
      = (files.map fun e => LogDir.leftAt (s.logs e.1) e.2).sum := by
  congr 1
  refine List.map_congr_left fun e he => ?_
  rw [Function.update_of_ne (hcovers.other e he)]

variable (size files) in
/-- A round that works brings the service nearer to its end. -/
theorem range_round (hon : s.rangeService = .on r) (hnonneg : 0 ≤ r.currentRev)
    (hlt : r.currentRev < 2 ^ 31) (hcovers : Covers files s)
    (hworks : calls.Works (s.logs (intText r.currentRev))) :
    ∃ r', (rangeServiceRound size calls s).rangeService = .on r' ∧
      r'.currentRev ≤ r.currentRev ∧
      roundsLeft files (rangeServiceRound size calls s) r' < roundsLeft files s r := by
  obtain ⟨m, hm⟩ : ∃ m : Nat, r.currentRev = m := ⟨r.currentRev.toNat, by omega⟩
  have htext : intText r.currentRev = digitText m := by rw [hm]; rfl
  simp only [rangeServiceRound, hon, if_neg (show ¬ r.currentRev < 0 by omega), htext]
  rw [htext] at hworks
  split
  · refine ⟨_, rfl, ?_, ?_⟩
    · simp only
      omega
    · simp only [roundsLeft]
      omega
  next havoid =>
  obtain ⟨hle, hcase⟩ := revision_works size (digitText m) hworks
  rcases hcase with hzero | ⟨hone, path, hless⟩
  · have hsum := sum_update_le files hle
    simp only [hzero, if_pos]
    refine ⟨_, rfl, ?_, ?_⟩
    · simp only
      omega
    · simp only [roundsLeft]
      omega
  · have hother : digitText m ≠ s.running := 
      digitText_ne_running (by omega) (by rw [← hm]; exact havoid)
    have hfile : s.logs (digitText m) path ≠ none := by
      intro hnone
      have hleft : LogDir.leftAt (s.logs (digitText m)) path = 0 := by rw [LogDir.leftAt, hnone]
      omega
    have hsum := sum_update_lt hle (hcovers.listed _ _ hother hfile) hless
    simp only [hone, if_neg (show ¬ (1 : Int) = 0 by decide),
      if_neg (show ¬ (1 : Int) < 0 by decide)]
    refine ⟨_, rfl, Int.le_refl _, ?_⟩
    simp only [roundsLeft]
    omega

theorem Covers.of {s' : LogServices} (h : Covers files s) (hrunning : s'.running = s.running)
    (hlogs : ∀ rev path, rev ≠ s.running → s'.logs rev path ≠ none → s.logs rev path ≠ none) :
    Covers files s' := by
  refine ⟨fun rev path hrev hfile => ?_, fun e he => ?_⟩
  · rw [hrunning] at hrev
    exact h.listed rev path hrev (hlogs rev path hrev hfile)
  · rw [hrunning]
    exact h.other e he

theorem running_rangeServiceRound (c : RevisionCalls) :
    (rangeServiceRound size c s).running = s.running := by
  rw [rangeServiceRound]
  split
  · split
    · rfl
    split <;> rfl
  · rfl

variable (size maxSize) in
/-- A step that works keeps the service going, and a round brings it nearer to its end. -/
theorem working_step {l : ServiceStep} (hon : s.rangeService = .on r)
    (hlt : r.currentRev < 2 ^ 31) (hcovers : Covers files s) (hworks : WorkingStep s l) :
    ∃ r', (stepServices size maxSize s l).rangeService = .on r' ∧
      r'.currentRev ≤ r.currentRev ∧ Covers files (stepServices size maxSize s l) ∧
      (r.currentRev < 0 ∨ roundsLeft files (stepServices size maxSize s l) r'
        + [l].countP ServiceStep.isRange ≤ roundsLeft files s r) := by
  cases l with
  | log path text truncates =>
    refine ⟨r, hon, Int.le_refl _, hcovers.of rfl fun rev path hrev hfile => ?_, .inr ?_⟩
    · simp only [stepServices] at hfile
      rwa [Function.update_of_ne hrev] at hfile
    · simp only [roundsLeft, stepServices]
      rw [sum_update_running hcovers]
      exact Nat.le_refl _
  | push c =>
    simp only [stepServices]
    cases hservice : s.pushService with
    | off | gone =>
      have hsame : pushServiceRound size c s = s := by rw [pushServiceRound, hservice]
      rw [hsame]
      exact ⟨r, hon, Int.le_refl _, hcovers, .inr (Nat.le_refl _)⟩
    | on sleepSecs =>
      simp only [pushServiceRound, hservice]
      refine ⟨r, hon, Int.le_refl _, hcovers.of rfl fun rev path hrev hfile => ?_, .inr ?_⟩
      · simp only at hfile
        rwa [Function.update_of_ne hrev] at hfile
      · simp only [roundsLeft]
        rw [sum_update_running hcovers]
        exact Nat.le_refl _
  | range c =>
    have hcovers' : Covers files (rangeServiceRound size c s) :=
      hcovers.of (running_rangeServiceRound c) fun rev path _ hfile hnone =>
        hfile ((none_rangeServiceRound c rev path).mpr hnone)
    by_cases hneg : r.currentRev < 0
    · refine ⟨r, ?_, Int.le_refl _, hcovers', .inl hneg⟩
      simp only [stepServices, rangeServiceRound, hon, if_pos hneg]
    · obtain ⟨r', hon', hle, hless⟩ := range_round size files hon
        (by omega) hlt hcovers (hworks r hon)
      exact ⟨r', hon', hle, hcovers', .inr hless⟩
  | toggle push online c =>
    have hpush : push = true := hworks
    simp only [stepServices, phLoggerToggle, hpush, if_true]
    split
    · refine ⟨r, ?_, Int.le_refl _, hcovers.of rfl fun _ _ _ hfile => hfile, .inr (Nat.le_refl _)⟩
      simp only [phLoggerStartCloud, hon]
    · exact ⟨r, hon, Int.le_refl _, hcovers, .inr (Nat.le_refl _)⟩
  | run rev => exact hworks.elim

theorem range_run {size : LogSize} {steps : List ServiceStep} :
    ∀ {s : LogServices} {r : RangeService}, s.rangeService = .on r → r.currentRev < 2 ^ 31 →
      Covers files s → (servicesSystem size maxSize).Along WorkingStep s steps →
      ∃ r', ((servicesSystem size maxSize).run s steps).rangeService = .on r' ∧
        r'.currentRev ≤ r.currentRev ∧
        (r'.currentRev < 0 ∨ roundsLeft files ((servicesSystem size maxSize).run s steps) r'
          + steps.countP ServiceStep.isRange ≤ roundsLeft files s r) := by
  induction steps with
  | nil => exact fun hon _ _ _ => ⟨_, hon, Int.le_refl _, .inr (Nat.le_refl _)⟩
  | cons l steps ih =>
    intro s r hon hlt hcovers halong
    obtain ⟨r₁, hon₁, hle₁, hcovers₁, hcase₁⟩ :=
      working_step size maxSize hon hlt hcovers halong.1
    obtain ⟨r₂, hon₂, hle₂, hcase₂⟩ := ih hon₁ (by omega) hcovers₁ halong.2
    refine ⟨r₂, hon₂, Int.le_trans hle₂ hle₁, ?_⟩
    rcases hcase₁ with hneg | hless
    · exact .inl (by omega)
    rcases hcase₂ with hneg | hless₂
    · exact .inl hneg
    · have hcount : (l :: steps).countP ServiceStep.isRange
          = [l].countP ServiceStep.isRange + steps.countP ServiceStep.isRange := by
        rw [← List.countP_append]
        rfl
      refine .inr ?_
      rw [hcount, System.run_cons]
      have hstep : (servicesSystem size maxSize).step s l = stepServices size maxSize s l := rfl
      rw [hstep]
      omega

/-- **The range service comes to its end**, in a run in which its rounds work and in which it
has enough of them. -/
theorem range_service_ends {size : LogSize} {maxSize : Nat} {s : LogServices} {r : RangeService}
    {files : List (CStr × CStr)} {steps : List ServiceStep} (hon : s.rangeService = .on r)
    (hlt : r.currentRev < 2 ^ 31) (hcovers : Covers files s)
    (hworks : (servicesSystem size maxSize).Along WorkingStep s steps)
    (hrounds : roundsLeft files s r ≤ steps.countP ServiceStep.isRange) :
    ∃ r', ((servicesSystem size maxSize).run s steps).rangeService = .on r' ∧
      r'.currentRev < 0 := by
  obtain ⟨r', hon', -, hcase⟩ := range_run hon hlt hcovers hworks
  refine ⟨r', hon', ?_⟩
  rcases hcase with hneg | hless
  · exact hneg
  · rw [roundsLeft] at hless
    omega

/-- A revision with one log file, behind the running one. -/
def oneLog : LogServices where
  names := [str "1"]
  logs rev path :=
    if rev = str "1" ∧ path = str "app/x.log" then some ⟨str "a\n", none, []⟩ else none
  running := str "2"
  pushService := .off
  rangeService := .on ⟨1, 0⟩

/-- The round that pushes the line, one that finds nothing left, and revision 0. -/
theorem range_service_ends_one :
    ∃ r', ((servicesSystem oneKib 4096).run oneLog [.range oneFound, .range oneFound,
      .range ⟨true, some [], false⟩, .range ⟨true, some [], false⟩]).rangeService = .on r' ∧
        r'.currentRev < 0 := by
  have hworks : goodCall.Works := ⟨⟨rfl, rfl⟩, rfl, rfl, rfl, rfl, rfl, rfl, rfl, rfl⟩
  have hempty : ∀ dir : LogDir, RevisionCalls.Works dir ⟨true, some [], false⟩ :=
    fun dir => ⟨rfl, [], rfl, fun e he => by cases he⟩
  have hone : ∀ s : LogServices, s.logs (str "1") (str "app/x.log") ≠ none →
      s.rangeService = .on ⟨1, 0⟩ →
      ∀ r, s.rangeService = .on r → oneFound.Works (s.logs (intText r.currentRev)) := by
    intro s hfile hon r hr
    obtain rfl := Service.on.inj (hon.symm.trans hr)
    refine ⟨rfl, _, rfl, fun e he => ?_⟩
    obtain rfl := List.mem_singleton.mp he
    exact ⟨rfl, hworks, hfile⟩
  refine range_service_ends (r := ⟨1, 0⟩) (s := oneLog) rfl (by decide) ?_
    ⟨hone _ (by decide +kernel) rfl, hone _ (by decide +kernel) (by decide +kernel),
      fun _ _ => hempty _, fun _ _ => hempty _, trivial⟩
    (show roundsLeft [(str "1", str "app/x.log")] oneLog ⟨1, 0⟩ ≤ _ by decide +kernel)
  refine ⟨fun rev path _ hfile => ?_, fun e he => ?_⟩
  · rw [oneLog] at hfile
    simp only [ne_eq, ite_eq_right_iff, reduceCtorEq, imp_false, not_not] at hfile
    rw [hfile.1, hfile.2]
    exact List.mem_singleton.mpr rfl
  · obtain rfl := List.mem_singleton.mp he
    decide

end Pantavisor.PhLogger
