/-
Pantavisor.PhLogger.PushFile — pushing a log file to the cloud
(`ph_logger_push_from_file`).

A call reads one buffer from the position in the extended attribute of the file,
makes a fragment of each line, and sends the fragments as one array. A position is
written to the attribute when the array was accepted, and also in the loop, when it
comes to an empty line.

A service that is killed in the loop leaves what was written by then. A later
service starts from the attribute again, so that is all a restart is.

`pv_json_format` counts its room in an `int`. A `LogSize` is the size of a buffer for which
that is enough, whatever is taken out of it (`LogSize.format`).
-/
import Pantavisor.Json.FormatBuffer
import Pantavisor.Lib.Run

namespace Pantavisor.PhLogger

open Pantavisor.Lib Pantavisor.Json

def newline : UInt8 := 10

/-- `pv_str_replace_char` of the NULs of a buffer. -/
def noNul (buf : CStr) : CStr := buf.map fun c => if c = 0 then 32 else c

/-- `strnchr`, with the index of the character. -/
def strnchr (src : CStr) (ch : UInt8) (len : Int) : Option Nat :=
  ((src.take len.toNat).takeWhile (· ≠ 0)).idxOf? ch

/-- Where a line comes from, as its fragment says it. -/
structure LogOrigin where
  source : CStr
  platform : CStr
  rev : CStr

/-- `PH_LOGGER_JSON_FORMAT`, with the times at 0 and the level at `INFO`. -/
def jsonFrag (origin : LogOrigin) (formattedJson : CStr) : CStr :=
  str "\x7b \"tsec\": 0, \"tnano\": 0,\"lvl\": \"INFO\", \"src\": \"" ++ origin.source ++
    str "\",\"plat\":\"" ++ origin.platform ++ str "\",\"rev\": \"" ++ origin.rev ++
    str "\" , \"msg\": \"" ++ formattedJson ++ str "\" \x7d"

/-- The fragments with commas between them. -/
def joinFrags : List CStr → CStr
  | [] => []
  | [frag] => frag
  | frag :: rest => frag ++ str "," ++ joinFrags rest

/-- `json_frag_array` -/
def jsonFragArray (frags : List CStr) : CStr := str "[" ++ joinFrags frags ++ str "]"

/-! ## The loop -/

/-- The variables of the loop, and the attribute. -/
structure PushLoop where
  offset : Nat
  bytesRead : Int
  pos : Nat
  frags : List CStr
  xattr : Option Nat
  deriving DecidableEq

/-- What is done with the text of a line or of a whole buffer: a fragment, or for an
empty line a write of the attribute, which may fail. -/
def pushText (origin : LogOrigin) (setOk : Bool) (readPos : Nat) (jsonHolder : CStr)
    (l : PushLoop) : PushLoop :=
  match pvJsonFormat jsonHolder with
  | some formattedJson =>
    { l with frags := l.frags ++ [jsonFrag origin formattedJson], pos := readPos + l.offset }
  | none =>
    { l with
      pos := readPos + l.offset
      xattr := if setOk then some (readPos + l.offset) else l.xattr }

/-- A round of the loop. -/
def pushRound (origin : LogOrigin) (size : Nat) (setOk : Bool) (readPos : Nat) (buf : CStr)
    (l : PushLoop) : PushLoop :=
  let src := buf.drop l.offset
  match strnchr src newline l.bytesRead with
  | some k =>
    let len := k + 1
    pushText origin setOk readPos (src.take (len - 1))
      { l with offset := l.offset + len, bytesRead := l.bytesRead - (l.offset + len : Nat) }
  | none =>
    if l.bytesRead = size then
      pushText origin setOk readPos (src.take l.bytesRead.toNat)
        { l with offset := l.offset + l.bytesRead.toNat, bytesRead := 0 }
    else { l with bytesRead := 0 }

/-- The loop, for a number of rounds. -/
def pushLoop (origin : LogOrigin) (size : Nat) (setOk : Bool) (readPos : Nat) (buf : CStr) :
    Nat → PushLoop → PushLoop
  | 0, l => l
  | rounds + 1, l =>
    if l.bytesRead > 0 then
      pushLoop origin size setOk readPos buf rounds (pushRound origin size setOk readPos buf l)
    else l

/-! ## The call -/

/-- A log file, and what of it the cloud has accepted. -/
structure LogFile where
  content : CStr
  /-- the position in the attribute -/
  xattr : Option Nat
  /-- the arrays that were accepted -/
  accepted : List CStr
  deriving DecidableEq

/-- The outcomes of what a call does. -/
structure PushCalls where
  /-- `pv_log_get_buffer`, for each of the two buffers -/
  largeBuff : Bool
  logBuff : Bool
  /-- `pv_fops_get_file_xattr` -/
  getXattr : Bool
  /-- `pv_fops_set_file_xattr` -/
  setXattr : Bool
  opened : Bool
  seeked : Bool
  fstat : Bool
  /-- how much `pv_fops_read_nointr` gets at most -/
  read : Nat
  /-- the number of rounds after which the service is killed in the loop -/
  killed : Option Nat
  /-- `ph_logger_push_logs_endpoint` -/
  pushed : Bool
  /-- the service is killed between the answer and the write of the attribute -/
  killedAfter : Bool
  deriving DecidableEq

/-- The end of a call, from the end of the loop on. -/
def pushFrags (c : PushCalls) (f : LogFile) (l : PushLoop) : Int × LogFile :=
  if l.frags = [] then (0, { f with xattr := l.xattr })
  else if c.pushed then
    (1, { f with
      xattr := if c.setXattr && !c.killedAfter then some l.pos else l.xattr
      accepted := f.accepted ++ [jsonFragArray l.frags] })
  else (-1, { f with xattr := l.xattr })

/-- The rest of a call, from `open` on: `pos` is the position that the attribute
gives, and `xattr` what is in it by now. -/
def pushRead (origin : LogOrigin) (size : Nat) (c : PushCalls) (f : LogFile) (pos : Nat)
    (xattr : Option Nat) : Int × LogFile :=
  if !c.opened then (-1, { f with xattr := xattr })
  else if !c.seeked then (0, { f with xattr := xattr })
  else
    let readPos := if c.fstat && decide (f.content.length < pos) then 0 else pos
    let buf := noNul (((f.content.drop readPos).take size).take c.read)
    let l : PushLoop := ⟨0, buf.length, pos, [], xattr⟩
    match c.killed with
    | some rounds =>
      (0, { f with xattr := (pushLoop origin size c.setXattr readPos buf rounds l).xattr })
    | none => pushFrags c f (pushLoop origin size c.setXattr readPos buf buf.length l)

/-- `ph_logger_push_from_file`. A call that is killed returns nothing, and 0 stands for
that. -/
def phLoggerPushFromFile (origin : LogOrigin) (size : Nat) (c : PushCalls) (f : LogFile) :
    Int × LogFile :=
  if !c.largeBuff || !c.logBuff then (-1, f)
  else
    match (if c.getXattr then f.xattr else none) with
    | some pos => pushRead origin size c f pos f.xattr
    | none => pushRead origin size c f 0 (if c.setXattr then some 0 else f.xattr)

/-- A step: the file grows, or a call. -/
inductive LogStep where
  | append (text : CStr)
  | push (c : PushCalls)
  deriving DecidableEq

/-- What a step leaves. -/
def stepLog (origin : LogOrigin) (size : Nat) (f : LogFile) : LogStep → LogFile
  | .append text => { f with content := f.content ++ text }
  | .push c => (phLoggerPushFromFile origin size c f).2

/-- The size of the log buffers. -/
structure LogSize where
  size : Nat
  counted : size * 6 + 1 < 2 ^ 31

instance : Coe LogSize Nat := ⟨LogSize.size⟩

/-- A text out of a buffer is formatted as `pv_json_format` does it, inside of its block. -/
theorem LogSize.format (size : LogSize) {content : CStr} {readPos read offset n : Nat} :
    let buf := noNul (((content.drop readPos).take size).take read)
    let text := (buf.drop offset).take n
    pvJsonFormatIn text (intOfSize text.length) = some (pvJsonFormat text) := by
  intro buf text
  have hbuf : buf.length ≤ size := by
    simp only [buf, noNul, List.length_map, List.length_take]
    omega
  have htext : text.length ≤ buf.length := by
    simp only [text, List.length_take, List.length_drop]
    omega
  have hcounted := size.counted
  exact pvJsonFormatIn_length (by omega)

/-- The steps, from any content that was never pushed. -/
def logSystem (origin : LogOrigin) (size : LogSize) : System LogFile LogStep where
  init f := f.xattr = none ∧ f.accepted = []
  step := stepLog origin size

end Pantavisor.PhLogger
