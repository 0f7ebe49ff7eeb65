/-
Pantavisor.PhLogger.Services — the services that push the logs
(`ph_logger_start_push_service`, `ph_logger_start_range_service`).

The push service pushes the logs of the running revision over and over. The range
service goes through the other revisions, from the largest one down, and pushes the logs
of a revision until nothing of them is left. Then it goes on to the previous one, and
it stops behind revision 0.

What `find` lists, what a call comes to and where a service is killed are in the steps.
The files of the running revision are written by the log service in the meantime.
-/
import Mathlib.Logic.Function.Basic
import Pantavisor.Config.ConfigParser
import Pantavisor.Lib.Decimal
import Pantavisor.PhLogger.PushFile

namespace Pantavisor.PhLogger

open Pantavisor.Lib Pantavisor.Config

/-! ## A revision -/

/-- The log files of a revision, by their paths in its directory. -/
abbrev LogDir := CStr → Option LogFile

/-- `PH_LOGGER_LOGDIR` -/
def phLoggerLogdir : CStr := str "/pv/logs"

/-- `PH_LOGGER_SKIP_FILE` -/
def phLoggerSkipFile : CStr := str ".ph_logger_skip_list"

/-- `ph_logger_add_skip_prefix`, for a line that is not in the list. -/
def addSkipPrefix (skipList : List CStr) (line : CStr) : List CStr :=
  if line ∈ skipList ∨ line = [] then skipList else line :: skipList

/-- `ph_logger_add_skip_prefixes`: a line ends at a NUL too. -/
def phLoggerAddSkipPrefixes (content : CStr) : List CStr :=
  ((content.splitOn newline).map fun line => line.takeWhile (· ≠ 0)).foldl addSkipPrefix []

/-- What the fragments of a file say of it: the platform is the first part of its path, and
the source is the rest. -/
def logOrigin (rev path : CStr) : LogOrigin :=
  match path.idxOf? 47 with
  | some slashAt => ⟨path.drop slashAt, (path.take slashAt).take 63, rev⟩
  | none =>
    ⟨phLoggerLogdir ++ str "/" ++ rev ++ str "/" ++ path, str "pantavisor-UNKNOWN", rev⟩

/-- The outcomes of the calls for a file. -/
structure FileOutcome where
  /-- `ph_logger_get_connection` -/
  connected : Bool
  push : PushCalls

/-- The service is killed in the call. -/
def FileOutcome.killed (c : FileOutcome) : Bool := c.push.killed.isSome || c.push.killedAfter

/-- `ph_logger_push_from_file_parse_info`. A service that is killed returns nothing. -/
def phLoggerPushFromFileParseInfo (size : Nat) (rev path : CStr) (c : FileOutcome)
    (dir : LogDir) : Option Int × LogDir :=
  if !c.connected then (some (-1), dir)
  else
    match dir path with
    | none => (some (-1), dir)
    | some f =>
      let r := phLoggerPushFromFile (logOrigin rev path) size c.push f
      (if c.killed then none else some r.1, Function.update dir path (some r.2))

/-- The loop over the files that `find` lists. -/
def pushFound (size : Nat) (rev : CStr) (skipList : List CStr) :
    List (CStr × FileOutcome) → Int → LogDir → Option Int × LogDir
  | [], result, dir => (some result, dir)
  | (path, c) :: found, result, dir =>
    if path ∈ skipList then pushFound size rev skipList found result dir
    else
      match phLoggerPushFromFileParseInfo size rev path c dir with
      | (none, dir) => (none, dir)
      | (some ret, dir) =>
        if ret > 0 then pushFound size rev skipList found 1 dir
        else if ret < 0 then (some ret, dir)
        else pushFound size rev skipList found result dir

/-- The outcomes of the calls for a revision. -/
structure RevisionCalls where
  /-- `fopen` of the skip list -/
  skipsOpened : Bool
  /-- what `find` lists, if `popen` works -/
  found : Option (List (CStr × FileOutcome))
  /-- the service is killed behind the files of `found` -/
  killed : Bool

/-- What the skip list of a revision says. -/
def LogDir.skipList (dir : LogDir) : List CStr :=
  match dir phLoggerSkipFile with
  | some f => phLoggerAddSkipPrefixes f.content
  | none => []

/-- `ph_logger_push_revision` -/
def phLoggerPushRevision (size : Nat) (rev : CStr) (c : RevisionCalls) (dir : LogDir) :
    Option Int × LogDir :=
  match c.found with
  | none => (some 0, dir)
  | some found =>
    let r := pushFound size rev (if c.skipsOpened then LogDir.skipList dir else []) found 0 dir
    (if c.killed then none else r.1, r.2)

/-! ## The services -/

/-- A service: it has no process, or its process is gone, or it runs. -/
inductive Service (σ : Type) where
  | off
  | gone
  | on (s : σ)
  deriving DecidableEq

/-- The variables of the range service. -/
structure RangeService where
  currentRev : Int
  sleepSecs : Int
  deriving DecidableEq

/-- The log files, and the services that push them. -/
structure LogServices where
  /-- the directories in `PH_LOGGER_LOGDIR` -/
  names : List CStr
  logs : CStr → LogDir
  /-- the running revision -/
  running : CStr
  pushService : Service Int
  rangeService : Service RangeService

/-- The next sleep after nothing was pushed, or after an error. -/
def longerSleep (sleepSecs : Int) : Int := if sleepSecs + 1 > 10 then 10 else sleepSecs + 1

/-- The next sleep after something was pushed. -/
def shorterSleep (sleepSecs : Int) : Int := if sleepSecs - 1 < 0 then 0 else sleepSecs - 1

/-- `ph_logger_get_max_revision`. A name without a number is 0 here and -1 in the source, and
neither is larger than a maximum. -/
def phLoggerGetMaxRevision (finds : Bool) (names : List CStr) : Int :=
  if finds then
    names.foldl (fun maxRevision name =>
      if wrapInt (atoi name) > maxRevision then wrapInt (atoi name) else maxRevision) 0
  else 0

/-- A round of the push service. -/
def pushServiceRound (size : Nat) (c : RevisionCalls) (s : LogServices) : LogServices :=
  match s.pushService with
  | .on sleepSecs =>
    let pushed := phLoggerPushRevision size s.running c (s.logs s.running)
    { s with
      logs := Function.update s.logs s.running pushed.2
      pushService := match pushed.1 with
        | none => .gone
        | some result =>
          .on (if result ≤ 0 then longerSleep sleepSecs else shorterSleep sleepSecs) }
  | _ => s

/-- A round of the range service. -/
def rangeServiceRound (size : Nat) (c : RevisionCalls) (s : LogServices) : LogServices :=
  match s.rangeService with
  | .on r =>
    if r.currentRev < 0 then s
    else if wrapInt (atoi s.running) = r.currentRev then
      { s with rangeService := .on { r with currentRev := r.currentRev - 1 } }
    else
      let rev := intText r.currentRev
      let pushed := phLoggerPushRevision size rev c (s.logs rev)
      { s with
        logs := Function.update s.logs rev pushed.2
        rangeService := match pushed.1 with
          | none => .gone
          | some result =>
            if result = 0 then .on ⟨r.currentRev - 1, shorterSleep r.sleepSecs⟩
            else if result < 0 then .on ⟨r.currentRev, longerSleep r.sleepSecs⟩
            else .on ⟨r.currentRev, shorterSleep r.sleepSecs⟩ }
  | _ => s

/-- The outcomes of `ph_logger_start_cloud`. -/
structure StartCalls where
  pushForked : Bool
  rangeForked : Bool
  /-- `find` of the range service works -/
  finds : Bool

/-- `ph_logger_start_cloud` -/
def phLoggerStartCloud (c : StartCalls) (s : LogServices) : LogServices :=
  { s with
    pushService := match s.pushService with
      | .off => if c.pushForked then .on 0 else .off
      | service => service
    rangeService := match s.rangeService with
      | .off =>
        if c.rangeForked then .on ⟨phLoggerGetMaxRevision c.finds s.names, 0⟩ else .off
      | service => service }

/-- `ph_logger_stop_cloud` -/
def phLoggerStopCloud (s : LogServices) : LogServices :=
  { s with pushService := .off, rangeService := .off }

/-- `ph_logger_toggle`, as far as it is about the cloud: `push` says that the logs are pushed
and that the device is in remote mode. -/
def phLoggerToggle (push online : Bool) (c : StartCalls) (s : LogServices) : LogServices :=
  if push then if online then phLoggerStartCloud c s else s
  else phLoggerStopCloud s

/-- What the log service makes of a file when it writes to it: one that is too long is
truncated. -/
def writeLog (maxSize : Nat) (truncates : Bool) (text : CStr) : Option LogFile → LogFile
  | none => ⟨text, none, []⟩
  | some f =>
    if maxSize ≤ f.content.length ∧ truncates then { f with content := text }
    else { f with content := f.content ++ text }

/-- A step: the log service writes to a file, a service has a round, the services are started
or stopped, or they are stopped and another revision runs. -/
inductive ServiceStep where
  | log (path text : CStr) (truncates : Bool)
  | push (c : RevisionCalls)
  | range (c : RevisionCalls)
  | toggle (push online : Bool) (c : StartCalls)
  | run (rev : CStr)

/-- What a step does. A revision has its directory below the first part of its name. -/
def stepServices (size maxSize : Nat) (s : LogServices) : ServiceStep → LogServices
  | .log path text truncates =>
    { s with
      names := s.running.takeWhile (· ≠ 47) :: s.names
      logs := Function.update s.logs s.running
        (Function.update (s.logs s.running) path
          (some (writeLog maxSize truncates text (s.logs s.running path)))) }
  | .push c => pushServiceRound size c s
  | .range c => rangeServiceRound size c s
  | .toggle push online c => phLoggerToggle push online c s
  | .run rev => { phLoggerStopCloud s with running := rev }

/-- The steps, on a device that has not logged anything. -/
def servicesSystem (size : LogSize) (maxSize : Nat) : System LogServices ServiceStep where
  init s := (∀ rev path, s.logs rev path = none) ∧ s.pushService = .off ∧ s.rangeService = .off
  step := stepServices size maxSize

end Pantavisor.PhLogger
