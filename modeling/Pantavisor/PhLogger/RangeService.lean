/-
Pantavisor.PhLogger.RangeService — the range service leaves no logs behind.

In every run, in which the services are killed, pushes are refused and calls fail in any
way, each revision that the range service has gone past has all its lines sent. The device
may run other revisions in between, and the log service and the push service work on the
running one. What this takes is that `find` lists the files and that a file that was
opened can be read (`HonestStep`), and that the lines fit into the buffer with none of
them empty (`Steady`).
-/
import Pantavisor.PhLogger.LeftBehind
import Pantavisor.PhLogger.Services

namespace Pantavisor.PhLogger

open Pantavisor.Lib Pantavisor.Config

/-! ## What the property says -/

/-- `find` leaves such a file out. -/
def Gz (path : CStr) : Prop := str ".gz" <:+: (path.reverse.takeWhile (· ≠ 47)).reverse

/-- A file that was opened can be read up to the length of the buffer. -/
structure FileOutcome.Honest (size : Nat) (c : FileOutcome) : Prop where
  seeked : c.push.seeked = true
  read : size ≤ c.push.read

/-- `find` works, and lists all files. -/
def RevisionCalls.Honest (size : Nat) (dir : LogDir) (c : RevisionCalls) : Prop :=
  ∃ found, c.found = some found ∧ (∀ e ∈ found, e.2.Honest size) ∧
    ∀ path, dir path ≠ none → ¬ Gz path → path ∈ found.map Prod.fst

/-- What the services rely on: `find`, and that no file is truncated. -/
def HonestStep (size maxSize : Nat) (s : LogServices) : ServiceStep → Prop
  | .log path _ truncates =>
    truncates = true → ∀ f, s.logs s.running path = some f → f.content.length < maxSize
  | .range c => ∀ r, s.rangeService = .on r → c.Honest size (s.logs (intText r.currentRev))
  | .toggle _ _ c => c.finds = true
  | _ => True

/-- The revisions that the range service is past have all their lines sent. -/
def PassedSent (size : Nat) (s : LogServices) : Prop :=
  ∀ r, s.rangeService = .on r → ∀ n : Nat, r.currentRev < n → n < 2 ^ 31 →
    wrapInt (atoi s.running) ≠ n → ∀ path f, s.logs (digitText n) path = some f → ¬ Gz path →
      path ∉ LogDir.skipList (s.logs (digitText n)) → Steady size f.content →
      AllSent (logOrigin (digitText n) path) f

/-! ## A revision -/

variable {size : Nat} {rev path : CStr} {skips : List CStr} {dir : LogDir} {c : FileOutcome}
  {P Q : CStr → LogFile → Prop}

variable (size rev P) in
/-- Each call keeps `P`. -/
def CallsKeep : Prop :=
  ∀ path f c, P path f → P path (phLoggerPushFromFile (logOrigin rev path) size c f).2

variable (size rev P Q) in
/-- A call that returns 0 has `Q` done. -/
def CallsDone : Prop :=
  ∀ path f (c : FileOutcome), P path f → c.Honest size → c.killed = false →
    (phLoggerPushFromFile (logOrigin rev path) size c.push f).1 = 0 →
    Q path (phLoggerPushFromFile (logOrigin rev path) size c.push f).2

theorem parseInfo_keeps (hkeep : CallsKeep size rev P)
    (h : ∀ path f, dir path = some f → P path f) (path : CStr) (c : FileOutcome) :
    ∀ path' f, (phLoggerPushFromFileParseInfo size rev path c dir).2 path' = some f →
      P path' f := by
  rw [phLoggerPushFromFileParseInfo]
  split
  · exact h
  split
  · exact h
  · next f hf =>
    intro path' f' hf'
    simp only at hf'
    by_cases hpath : path' = path
    · subst hpath
      rw [Function.update_self] at hf'
      obtain rfl := Option.some.inj hf'
      exact hkeep _ _ _ (h _ _ hf)
    · rw [Function.update_of_ne hpath] at hf'
      exact h _ _ hf'

theorem parseInfo_none (path : CStr) (c : FileOutcome) (path' : CStr) :
    (phLoggerPushFromFileParseInfo size rev path c dir).2 path' = none ↔ dir path' = none := by
  rw [phLoggerPushFromFileParseInfo]
  split
  · exact Iff.rfl
  split
  · exact Iff.rfl
  · next f hf =>
    by_cases hpath : path' = path
    · subst hpath
      simp [hf]
    · simp [Function.update_of_ne hpath]

/-- A call for a file that returns 0 has pushed it. -/
theorem parseInfo_zero (hdone : CallsDone size rev P Q)
    (h : ∀ path f, dir path = some f → P path f) (hhonest : c.Honest size)
    (hzero : (phLoggerPushFromFileParseInfo size rev path c dir).1 = some 0) :
    ∀ f, (phLoggerPushFromFileParseInfo size rev path c dir).2 path = some f → Q path f := by
  rw [phLoggerPushFromFileParseInfo] at hzero ⊢
  split at hzero
  · simp at hzero
  next hconnected =>
  rw [if_neg hconnected]
  cases hf : dir path with
  | none =>
    rw [hf] at hzero
    simp at hzero
  | some f =>
    rw [hf] at hzero
    simp only at hzero ⊢
    cases hkilled : c.killed with
    | true =>
      rw [hkilled] at hzero
      simp at hzero
    | false =>
      rw [hkilled] at hzero
      simp only [Bool.false_eq_true, if_false] at hzero
      intro f' hf'
      rw [Function.update_self] at hf'
      obtain rfl := Option.some.inj hf'
      exact hdone _ _ _ (h _ _ hf) hhonest hkilled (Option.some.inj hzero)

theorem pushFound_keeps (hkeep : CallsKeep size rev P) (found : List (CStr × FileOutcome)) :
    ∀ {result : Int} {dir : LogDir}, (∀ path f, dir path = some f → P path f) →
      ∀ path f, (pushFound size rev skips found result dir).2 path = some f → P path f := by
  induction found with
  | nil => exact fun h => h
  | cons e found ih =>
    obtain ⟨path, c⟩ := e
    intro result dir h
    have hnext := parseInfo_keeps hkeep h path c
    rw [pushFound]
    split
    · exact ih h
    cases hcall : phLoggerPushFromFileParseInfo size rev path c dir with
    | mk ret dir' =>
      rw [hcall] at hnext
      cases ret with
      | none => exact hnext
      | some ret =>
        simp only
        split
        · exact ih hnext
        split
        · exact hnext
        · exact ih hnext

theorem pushFound_none (found : List (CStr × FileOutcome)) :
    ∀ {result : Int} {dir : LogDir} (path : CStr),
      (pushFound size rev skips found result dir).2 path = none ↔ dir path = none := by
  induction found with
  | nil => exact fun _ => Iff.rfl
  | cons e found ih =>
    obtain ⟨path, c⟩ := e
    intro result dir path'
    have hnext : (phLoggerPushFromFileParseInfo size rev path c dir).2 path' = none ↔
        dir path' = none := parseInfo_none path c path'
    rw [pushFound]
    split
    · exact ih path'
    cases hcall : phLoggerPushFromFileParseInfo size rev path c dir with
    | mk ret dir' =>
      rw [hcall] at hnext
      cases ret with
      | none => exact hnext
      | some ret =>
        simp only
        split
        · exact (ih path').trans hnext
        split
        · exact hnext
        · exact (ih path').trans hnext

/-- A loop that returns 0 has pushed every file that it was given. -/
theorem pushFound_zero (hQ : CallsKeep size rev Q) (hP : CallsKeep size rev P)
    (hdone : CallsDone size rev P Q)
    (found : List (CStr × FileOutcome)) :
    ∀ {result : Int} {dir : LogDir}, (∀ e ∈ found, e.2.Honest size) →
      (∀ path f, dir path = some f → P path f) →
      (pushFound size rev skips found result dir).1 = some 0 →
      result = 0 ∧ ∀ path ∈ found.map Prod.fst, path ∉ skips →
        ∀ f, (pushFound size rev skips found result dir).2 path = some f → Q path f := by
  induction found with
  | nil =>
    intro result dir _ _ hzero
    exact ⟨Option.some.inj hzero, fun path hpath => by simp at hpath⟩
  | cons e found ih =>
    obtain ⟨path, c⟩ := e
    intro result dir hhonest h hzero
    have hrest : ∀ e ∈ found, e.2.Honest size := fun e he => hhonest e (List.mem_cons_of_mem _ he)
    have hfirst : c.Honest size := hhonest (path, c) List.mem_cons_self
    rw [pushFound] at hzero ⊢
    split at hzero
    · next hskip =>
      rw [if_pos hskip]
      obtain ⟨hresult, hall⟩ := ih hrest h hzero
      refine ⟨hresult, fun path' hpath' hskip' => ?_⟩
      rcases List.mem_cons.mp hpath' with rfl | hpath'
      · exact absurd hskip hskip'
      · exact hall path' hpath' hskip'
    next hskip =>
    rw [if_neg hskip]
    have hkeep := parseInfo_keeps hP h path c
    have hpushed : (phLoggerPushFromFileParseInfo size rev path c dir).1 = some 0 →
        ∀ f, (phLoggerPushFromFileParseInfo size rev path c dir).2 path = some f → Q path f :=
      parseInfo_zero hdone h hfirst
    cases hcall : phLoggerPushFromFileParseInfo size rev path c dir with
    | mk ret dir' =>
      rw [hcall] at hzero hkeep hpushed
      cases ret with
      | none => simp at hzero
      | some ret =>
        simp only at hzero ⊢
        split at hzero
        · exact absurd (ih hrest hkeep hzero).1 (by decide)
        next hpos =>
        split at hzero
        · next hneg =>
          have := Option.some.inj hzero
          omega
        next hneg =>
        rw [if_neg hpos, if_neg hneg]
        obtain ⟨hresult, hall⟩ := ih hrest hkeep hzero
        refine ⟨hresult, fun path' hpath' hskip' => ?_⟩
        rcases List.mem_cons.mp hpath' with rfl | hpath'
        · -- pushed first, and kept by the calls that follow
          have hzero' : ret = 0 := by omega
          have hstart : ∀ path f, dir' path = some f → path = path' → Q path f := by
            rintro path f hf rfl
            exact hpushed (by rw [hzero']) f hf
          exact fun f hf => pushFound_keeps (P := fun path f => path = path' → Q path f)
            (fun path f c hQf heq => hQ path f c (hQf heq)) found hstart path' f hf rfl
        · exact hall path' hpath' hskip'

variable {calls : RevisionCalls}

theorem revision_keeps (hkeep : CallsKeep size rev P)
    (h : ∀ path f, dir path = some f → P path f) :
    ∀ path f, (phLoggerPushRevision size rev calls dir).2 path = some f → P path f := by
  rw [phLoggerPushRevision]
  split
  · exact h
  · exact pushFound_keeps hkeep _ h

theorem revision_none (path : CStr) :
    (phLoggerPushRevision size rev calls dir).2 path = none ↔ dir path = none := by
  rw [phLoggerPushRevision]
  split
  · exact Iff.rfl
  · exact pushFound_none _ path

/-- The files are the same, but for what was pushed of them. -/
theorem revision_content {f' : LogFile}
    (h : (phLoggerPushRevision size rev calls dir).2 path = some f') :
    ∃ f, dir path = some f ∧ f'.content = f.content := by
  refine revision_keeps (P := fun path f' => ∃ f, dir path = some f ∧ f'.content = f.content)
    ?_ (fun path f hf => ⟨f, hf, rfl⟩) path f' h
  rintro path f' c ⟨f, hf, hcontent⟩
  exact ⟨f, hf, content_push.trans hcontent⟩

theorem revision_skipList :
    LogDir.skipList (phLoggerPushRevision size rev calls dir).2 = LogDir.skipList dir := by
  rw [LogDir.skipList, LogDir.skipList]
  cases hf : (phLoggerPushRevision size rev calls dir).2 phLoggerSkipFile with
  | none => rw [(revision_none _).mp hf]
  | some f =>
    obtain ⟨f', hf', hcontent⟩ := revision_content hf
    rw [hf']
    simp only [hcontent]

/-- What is kept of a file of a revision: it is right up to its position. -/
def FileInv (size : Nat) (rev path : CStr) (f : LogFile) : Prop :=
  Steady size f.content → LogInv (logOrigin rev path) size f

theorem fileInv_keeps : CallsKeep size rev (FileInv size rev) := by
  intro path f c h hsteady
  rw [content_push] at hsteady
  exact (h hsteady).step (s := .push c) hsteady.1.pushSafe

theorem allSent_keeps :
    CallsKeep size rev fun path f => Steady size f.content → AllSent (logOrigin rev path) f := by
  intro path f c h hsteady
  rw [content_push] at hsteady
  exact (h hsteady).push

/-- A revision of which nothing is left to push has all its lines sent. -/
theorem revision_sent (h : ∀ path f, dir path = some f → FileInv size rev path f)
    (hhonest : calls.Honest size dir)
    (hzero : (phLoggerPushRevision size rev calls dir).1 = some 0) {f : LogFile}
    (hf : (phLoggerPushRevision size rev calls dir).2 path = some f) (hgz : ¬ Gz path)
    (hskip : path ∉ LogDir.skipList dir) (hsteady : Steady size f.content) :
    AllSent (logOrigin rev path) f := by
  obtain ⟨found, hfound, hread, hlisted⟩ := hhonest
  have hlist : path ∈ found.map Prod.fst := by
    refine hlisted path (fun hnone => ?_) hgz
    rw [(revision_none path).mpr hnone] at hf
    cases hf
  rw [phLoggerPushRevision, hfound] at hzero hf
  simp only at hzero hf
  have hdone : CallsDone size rev (FileInv size rev) fun path f =>
      Steady size f.content → AllSent (logOrigin rev path) f := by
    intro path f c hinv hc hkilled hret hst
    rw [content_push] at hst
    rw [FileOutcome.killed, Bool.or_eq_false_iff, Option.isSome_eq_false_iff,
      Option.isNone_iff_eq_none] at hkilled
    exact pushed_all hst (hinv hst) hc.seeked hc.read hkilled.1 hret
  have hresult : (pushFound size rev (if calls.skipsOpened then LogDir.skipList dir else []) found 0
      dir).1 = some 0 := by
    split at hzero
    · cases hzero
    · exact hzero
  refine (pushFound_zero allSent_keeps fileInv_keeps hdone found hread h hresult).2 path hlist ?_
    f hf hsteady
  split
  · exact hskip
  · simp

/-! ## The names of revisions -/

theorem atoi_digitText (n : Nat) : atoi (digitText n) = n := by
  simpa [intText] using @atoi_intText (n : Int) [] (by simp)

theorem wrapInt_digitText {n : Nat} (h : n < 2 ^ 31) : wrapInt (atoi (digitText n)) = n := by
  rw [atoi_digitText]
  exact wrapInt_eq (by omega)

theorem digitText_inj {m n : Nat} (h : digitText m = digitText n) : m = n := by
  have := congrArg atoi h
  rw [atoi_digitText, atoi_digitText] at this
  exact Int.ofNat.inj this

theorem digitText_no_slash (n : Nat) : (digitText n).takeWhile (· ≠ 47) = digitText n := by
  rw [List.takeWhile_eq_self_iff]
  intro c hc
  have hdigit := isDigit_of_mem_digitText hc
  rw [decide_eq_true_eq]
  rintro rfl
  exact absurd hdigit (by decide)

/-- No name has a larger number. -/
theorem le_getMaxRevision {names : List CStr} {name : CStr} (h : name ∈ names) :
    wrapInt (atoi name) ≤ phLoggerGetMaxRevision true names := by
  have hfold : ∀ (names : List CStr) (start : Int),
      start ≤ names.foldl (fun maxRevision name =>
        if wrapInt (atoi name) > maxRevision then wrapInt (atoi name) else maxRevision) start ∧
      ∀ name ∈ names, wrapInt (atoi name) ≤ names.foldl (fun maxRevision name =>
        if wrapInt (atoi name) > maxRevision then wrapInt (atoi name) else maxRevision) start := by
    intro names
    induction names with
    | nil => exact fun start => ⟨Int.le_refl _, by simp⟩
    | cons first names ih =>
      intro start
      rw [List.foldl_cons]
      obtain ⟨hle, hall⟩ :=
        ih (if wrapInt (atoi first) > start then wrapInt (atoi first) else start)
      have hmax : start ≤ (if wrapInt (atoi first) > start then wrapInt (atoi first) else start) ∧
          wrapInt (atoi first)
            ≤ (if wrapInt (atoi first) > start then wrapInt (atoi first) else start) := by
        split <;> omega
      refine ⟨Int.le_trans hmax.1 hle, fun name hname => ?_⟩
      rcases List.mem_cons.mp hname with rfl | hname
      · exact Int.le_trans hmax.2 hle
      · exact hall name hname
  rw [phLoggerGetMaxRevision, if_pos rfl]
  exact (hfold names 0).2 name h

/-! ## Runs -/

variable {maxSize : Nat} {s : LogServices}

/-- What every step keeps. -/
structure ServicesInv (size : Nat) (s : LogServices) : Prop where
  files : ∀ rev path f, s.logs rev path = some f → FileInv size rev path f
  named : ∀ rev path, s.logs rev path ≠ none → rev.takeWhile (· ≠ 47) ∈ s.names
  passed : PassedSent size s

/-- The files of a revision are pushed. -/
theorem files_push (h : ServicesInv size s) (rev : CStr) (calls : RevisionCalls) :
    ∀ rev' path f, Function.update s.logs rev (phLoggerPushRevision size rev calls (s.logs rev)).2
      rev' path = some f → FileInv size rev' path f := by
  intro rev' path f hf
  by_cases hrev : rev' = rev
  · subst hrev
    rw [Function.update_self] at hf
    exact revision_keeps fileInv_keeps (h.files rev') path f hf
  · rw [Function.update_of_ne hrev] at hf
    exact h.files rev' path f hf

theorem named_push (h : ServicesInv size s) (rev : CStr) (calls : RevisionCalls) :
    ∀ rev' path, Function.update s.logs rev (phLoggerPushRevision size rev calls (s.logs rev)).2
      rev' path ≠ none → rev'.takeWhile (· ≠ 47) ∈ s.names := by
  intro rev' path hf
  by_cases hrev : rev' = rev
  · subst hrev
    rw [Function.update_self, Ne, revision_none] at hf
    exact h.named rev' path hf
  · rw [Function.update_of_ne hrev] at hf
    exact h.named rev' path hf

/-- The name of another revision is not that of the running one. -/
theorem digitText_ne_running {n : Nat} (hn : n < 2 ^ 31) (h : wrapInt (atoi s.running) ≠ n) :
    digitText n ≠ s.running := fun heq => h (heq ▸ wrapInt_digitText hn)

theorem inv_pushServiceRound (h : ServicesInv size s) (c : RevisionCalls) :
    ServicesInv size (pushServiceRound size c s) := by
  rw [pushServiceRound]
  split
  · refine ⟨files_push h _ c, named_push h _ c, ?_⟩
    intro r hr n hlt hn hne path f hf
    have hname := digitText_ne_running hn hne
    simp only [Function.update_of_ne hname] at hf ⊢
    exact h.passed r hr n hlt hn hne path f hf
  · exact h

theorem inv_rangeServiceRound (h : ServicesInv size s) {c : RevisionCalls}
    (hhonest : ∀ r, s.rangeService = .on r → c.Honest size (s.logs (intText r.currentRev))) :
    ServicesInv size (rangeServiceRound size c s) := by
  rw [rangeServiceRound]
  cases hon : s.rangeService with
  | off | gone => exact h
  | on r =>
    simp only
    split
    · exact h
    next hnonneg =>
    split
    · next havoid =>
      refine ⟨h.files, h.named, ?_⟩
      rintro r' hr' n hlt hn hne path f hf
      obtain rfl := Service.on.inj hr'
      simp only at hlt
      have hpast : r.currentRev < n := by
        rw [havoid] at hne
        omega
      exact h.passed r hon n hpast hn hne path f hf
    next havoid =>
    obtain ⟨m, hm⟩ : ∃ m : Nat, r.currentRev = m := ⟨r.currentRev.toNat, by omega⟩
    have htext : intText r.currentRev = digitText m := by rw [hm]; rfl
    have hhonest := hhonest r hon
    rw [htext] at hhonest ⊢
    refine ⟨files_push h _ c, named_push h _ c, ?_⟩
    -- the other revisions are as before
    have hother : ∀ n : Nat, m < n → n < 2 ^ 31 → wrapInt (atoi s.running) ≠ n → ∀ path f,
        Function.update s.logs (digitText m)
          (phLoggerPushRevision size (digitText m) c (s.logs (digitText m))).2 (digitText n) path
            = some f → ¬ Gz path →
        path ∉ LogDir.skipList (Function.update s.logs (digitText m)
          (phLoggerPushRevision size (digitText m) c (s.logs (digitText m))).2 (digitText n)) →
        Steady size f.content → AllSent (logOrigin (digitText n) path) f := by
      intro n hlt hn hne path f hf
      have hname : digitText n ≠ digitText m := fun heq => by
        have := digitText_inj heq
        omega
      rw [Function.update_of_ne hname] at hf ⊢
      exact h.passed r hon n (by omega) hn hne path f hf
    intro r' hr' n hlt hn hne path f hf
    simp only at hr' hf hne ⊢
    split at hr'
    · cases hr'
    next result hresult =>
    split at hr'
    · next hzero =>
      obtain rfl := Service.on.inj hr'
      simp only at hlt
      rcases Nat.lt_or_eq_of_le (show m ≤ n by omega) with hlt | rfl
      · exact hother n hlt hn hne path f hf
      · intro hgz hskip hsteady
        rw [Function.update_self] at hf hskip
        rw [revision_skipList] at hskip
        rw [hzero] at hresult
        exact revision_sent (h.files _) hhonest hresult hf hgz hskip hsteady
    · split at hr'
      · obtain rfl := Service.on.inj hr'
        exact hother n (by simp only at hlt; omega) hn hne path f hf
      · obtain rfl := Service.on.inj hr'
        exact hother n (by simp only at hlt; omega) hn hne path f hf

/-- A round makes no files, and removes none. -/
theorem none_rangeServiceRound (c : RevisionCalls) (rev path : CStr) :
    (rangeServiceRound size c s).logs rev path = none ↔ s.logs rev path = none := by
  rw [rangeServiceRound]
  split
  · split
    · exact Iff.rfl
    split
    · exact Iff.rfl
    · next r _ _ _ =>
      by_cases hrev : rev = intText r.currentRev
      · simp only [hrev, Function.update_self]
        exact revision_none path
      · simp only [Function.update_of_ne hrev]
  · exact Iff.rfl

theorem inv_log (h : ServicesInv size s) {path text : CStr} {truncates : Bool}
    (hhonest : truncates = true → ∀ f, s.logs s.running path = some f →
      f.content.length < maxSize) :
    ServicesInv size (stepServices size maxSize s (.log path text truncates)) := by
  refine ⟨?_, ?_, ?_⟩
  · intro rev path' f hf
    simp only [stepServices] at hf
    by_cases hrev : rev = s.running
    · subst hrev
      rw [Function.update_self] at hf
      by_cases hpath : path' = path
      · subst hpath
        rw [Function.update_self] at hf
        obtain rfl := Option.some.inj hf
        cases hold : s.logs s.running path' with
        | none =>
          intro _
          exact takenTo_zero
        | some f =>
          have hkept : ¬ (maxSize ≤ f.content.length ∧ truncates = true) := fun ⟨hle, htrunc⟩ => by
            have := hhonest htrunc f hold
            omega
          rw [writeLog, if_neg hkept]
          intro hsteady
          have hinv := h.files _ _ _ hold hsteady.start
          exact hinv.step (s := .append text) trivial
      · rw [Function.update_of_ne hpath] at hf
        exact h.files _ _ _ hf
    · rw [Function.update_of_ne hrev] at hf
      exact h.files _ _ _ hf
  · intro rev path' hf
    simp only [stepServices] at hf ⊢
    by_cases hrev : rev = s.running
    · rw [hrev]
      exact List.mem_cons_self
    · rw [Function.update_of_ne hrev] at hf
      exact List.mem_cons_of_mem _ (h.named _ _ hf)
  · intro r hr n hlt hn hne path' f hf
    have hname : digitText n ≠ s.running := digitText_ne_running hn hne
    simp only [stepServices] at hf ⊢
    rw [Function.update_of_ne hname] at hf ⊢
    exact h.passed r hr n hlt hn hne path' f hf

theorem inv_toggle (h : ServicesInv size s) {c : StartCalls} (hfinds : c.finds = true)
    (push online : Bool) : ServicesInv size (phLoggerToggle push online c s) := by
  have hoff : ServicesInv size (phLoggerStopCloud s) :=
    ⟨h.files, h.named, fun r hr => by cases hr⟩
  rw [phLoggerToggle]
  split
  · split
    · refine ⟨h.files, h.named, ?_⟩
      intro r hr n hlt hn hne path f hf
      simp only [phLoggerStartCloud, hfinds] at hr hf hne ⊢
      cases hservice : s.rangeService with
      | off =>
        -- it starts at the largest name that there is
        rw [hservice] at hr
        simp only at hr
        split at hr
        · obtain rfl := Service.on.inj hr
          have hname := h.named (digitText n) path (by rw [hf]; simp)
          rw [digitText_no_slash] at hname
          have hmax := le_getMaxRevision hname
          rw [wrapInt_digitText hn] at hmax
          simp only at hlt
          omega
        · cases hr
      | gone =>
        rw [hservice] at hr
        cases hr
      | on r' =>
        rw [hservice] at hr
        obtain rfl := Service.on.inj hr
        exact h.passed r' hservice n hlt hn hne path f hf
    · exact h
  · exact hoff

theorem ServicesInv.step {l : ServiceStep} (h : ServicesInv size s)
    (hhonest : HonestStep size maxSize s l) : ServicesInv size (stepServices size maxSize s l) := by
  cases l with
  | log path text truncates => exact inv_log h hhonest
  | push c => exact inv_pushServiceRound h c
  | range c => exact inv_rangeServiceRound h hhonest
  | toggle push online c => exact inv_toggle h hhonest push online
  | run rev => exact ⟨h.files, h.named, fun r hr => by cases hr⟩

/-- **The range service leaves no logs behind**: in a run in which `find` lists the files, the
revisions that it is past have all their lines sent. -/
theorem passed_revisions_sent {size : LogSize} {maxSize : Nat} {s : LogServices} {steps : List ServiceStep}
    (hinit : (servicesSystem size maxSize).init s)
    (hhonest : (servicesSystem size maxSize).Along (HonestStep size maxSize) s steps) :
    PassedSent size ((servicesSystem size maxSize).run s steps) := by
  have hstart : ServicesInv size s := by
    obtain ⟨hempty, -, hoff⟩ := hinit
    refine ⟨fun rev path f hf => ?_, fun rev path hf => absurd (hempty rev path) hf, ?_⟩
    · rw [hempty] at hf
      cases hf
    · intro r hr
      rw [hoff] at hr
      cases hr
  have hstep : ∀ s l, ServicesInv size s → HonestStep size maxSize s l →
      ServicesInv size ((servicesSystem size maxSize).step s l) ∧ True :=
    fun _ _ h hl => ⟨h.step hl, trivial⟩
  exact (System.along_of_invariant hstep hstart hhonest).2.passed

/-- A round for one file. -/
def oneFound : RevisionCalls := ⟨true, some [(str "app/x.log", ⟨true, goodCall⟩)], false⟩

/-- A line is logged, another revision runs, and the range service pushes the line and
goes on. -/
theorem passed_revisions_sent_one :
    PassedSent oneKib ((servicesSystem oneKib 4096).run ⟨[], fun _ _ => none, str "1", .off, .off⟩
      [.log (str "app/x.log") (str "a\n") false, .run (str "2"),
        .toggle true true ⟨true, true, true⟩, .range oneFound, .range oneFound]) := by
  have hhonest : ∀ s : LogServices, s.rangeService = .on ⟨1, 0⟩ →
      (∀ path, s.logs (str "1") path ≠ none → path = str "app/x.log") →
      ∀ r, s.rangeService = .on r → oneFound.Honest oneKib (s.logs (intText r.currentRev)) := by
    intro s hon hfiles r hr
    obtain rfl := Service.on.inj (hon.symm.trans hr)
    refine ⟨_, rfl, fun e he => ?_, fun path hfile _ => ?_⟩
    · obtain rfl := List.mem_singleton.mp he
      exact ⟨rfl, Nat.le_refl _⟩
    · rw [hfiles path hfile]
      exact List.mem_singleton.mpr rfl
  have hfiles : ∀ path, ((servicesSystem oneKib 4096).run
      ⟨[], fun _ _ => none, str "1", .off, .off⟩
      [.log (str "app/x.log") (str "a\n") false, .run (str "2"),
        .toggle true true ⟨true, true, true⟩]).logs (str "1") path ≠ none →
      path = str "app/x.log" := by
    intro path hfile
    by_contra hne
    refine hfile ?_
    change (Function.update (fun _ : CStr => (fun _ => none : LogDir)) (str "1")
      (Function.update (fun _ => none : LogDir) (str "app/x.log") (some ⟨str "a\n", none, []⟩))
      (str "1") : LogDir) path = none
    rw [Function.update_self, Function.update_of_ne hne]
  exact passed_revisions_sent ⟨fun _ _ => rfl, rfl, rfl⟩
    ⟨fun h => absurd h (by decide), trivial, rfl, hhonest _ (by decide +kernel) hfiles,
      hhonest _ (by decide +kernel) fun path hfile =>
        hfiles path fun hnone => hfile ((none_rangeServiceRound oneFound _ _).mpr hnone),
      trivial⟩

end Pantavisor.PhLogger
