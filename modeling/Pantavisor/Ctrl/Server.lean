/-
Pantavisor.Ctrl.Server — a request on the control socket from its first byte to its answer
(`pv_ctrl_read_parse_request` in `ctrl.c`).

The header is read byte by byte up to its end, so that the body is left to the branch
(`readHeader_complete`). A branch goes to the end on its own or leaves a result, and only that is
answered behind the branches: a request gets one answer, unless it is of the old kind or is not a
GET of a progress file (`answered_once`).

`phr_parse_request` is a parameter, and so are the strings of the lists, which are built elsewhere.
Writing to the socket does not fail here: the code only logs it.
-/
import Pantavisor.Ctrl.Answers
import Pantavisor.Ctrl.Match
import Pantavisor.Ctrl.StepPut
import Pantavisor.Metadata.Usermeta
import Pantavisor.Storage.Pool

namespace Pantavisor.Ctrl

open Pantavisor.Lib Pantavisor.Json Pantavisor.Metadata Pantavisor.Storage

/-! ## The header -/

/-- How the loop of `pv_ctrl_read_parse_request_header` ends. -/
inductive HeaderEnd where
  | complete
  | ended
  | full
  deriving DecidableEq, Repr

/-- What the loop reads: how it ends, the buffer, and what is left on the socket. -/
structure HeaderRead where
  how : HeaderEnd
  buf : CStr
  left : CStr
  deriving DecidableEq, Repr

def headerEnd : CStr := crlf ++ crlf

/-- The loop of `pv_ctrl_read_parse_request_header`, with what is in the buffer. -/
def readHeader (buf : CStr) : CStr → HeaderRead
  | [] => ⟨if buf.length < httpReqBufferSize then .ended else .full, buf, []⟩
  | c :: socket =>
    if buf.length < httpReqBufferSize then
      if 3 < buf.length ∧ headerEnd.isSuffixOf (buf ++ [c]) then ⟨.complete, buf ++ [c], socket⟩
      else readHeader (buf ++ [c]) socket
    else ⟨.full, buf, c :: socket⟩

/-- What `phr_parse_request` is given: the buffer up to the index and one byte more. Behind a
full buffer that is a byte of something else. -/
def HeaderRead.text (past : UInt8) (h : HeaderRead) : CStr :=
  match h.how with
  | .complete => h.buf
  | .ended => h.buf ++ [0]
  | .full => h.buf ++ [past]

/-! ## What is around a request -/

/-- What is written to the socket of a request: the two lines without a body, an error, and what
a list or a file has. -/
inductive Answer where
  | ok
  | cont
  | error (code : HttpStatus) (message : CStr)
  | content (body : CStr)
  deriving DecidableEq

/-- The bytes of an answer. -/
def Answer.bytes : Answer → CStr
  | .ok => str "HTTP/1.1 200 OK" ++ headerEnd
  | .cont => str "HTTP/1.1 100 Continue" ++ headerEnd
  | .error code message => pvCtrlWriteResponse code message
  | .content body => str "HTTP/1.1 200 OK" ++ headerEnd ++ body

/-- What the daemon is built with. -/
structure CtrlEnv where
  sha256 : CStr → List UInt8
  jsmn : Jsmn
  /-- `phr_parse_request` -/
  phr : CStr → Option (RequestLine × CStr × List Header)
  /-- what a key of the user metadata does to the storage where a path of it is astray -/
  astray : CStr → Option CStr → Fs → Fs

/-- What the requests work on. `fs` is the storage, but for the directory of it that is mounted
on `/pv/user-meta`; `usermeta.fs` is what is around that. -/
structure CtrlWorld where
  fs : Fs
  usermeta : PvUsermeta
  loadingObjects : Bool

/-- A connection: what comes in, and the outcomes of the calls. -/
structure Connection where
  bytes : CStr
  /-- the end of what comes in is an error -/
  broken : Bool
  pv : CtrlState
  /-- the strings of the lists -/
  lists : Endpoint → CStr
  /-- the byte behind the buffer of the header -/
  past : UInt8
  /-- what the `read` of a short body returns, if there is as much -/
  body : Int
  put : PutCalls
  /-- a new object can be read back -/
  reads : Bool
  renames : Bool
  /-- what each `sendfile` returns, if there is as much -/
  sends : List Int

/-- Where a branch ends: at `out`, or with a result that is answered behind the branches. A
temporary file is removed at `out`. -/
structure Branch where
  res : Option Int
  answers : List Answer
  world : CtrlWorld
  cmd : Option CtrlCmd
  tmp : Option (List Name)

/-- What a request leaves: what was written to its socket, and the command for the main loop. -/
structure Served where
  answers : List Answer
  world : CtrlWorld
  cmd : Option CtrlCmd

/-- A branch that goes to `out` with these answers. -/
def Branch.out (answers : List Answer) (w : CtrlWorld) : Branch := ⟨none, answers, w, none, none⟩

/-- A branch that leaves the result as it was. -/
def Branch.pass (w : CtrlWorld) : Branch := ⟨some (-1), [], w, none, none⟩

/-- What is behind the branches. -/
def Branch.finish (b : Branch) : Served :=
  let last : List Answer :=
    match b.res with
    | none => []
    | some res => [if res < 0 then .error .error (str "Unknown request") else .ok]
  let fs :=
    match b.tmp with
    | none => b.world.fs
    | some path => (b.world.fs.remove path).getD b.world.fs
  ⟨b.answers ++ last, { b.world with fs := fs }, b.cmd⟩

/-! ## Commands and lists -/

/-- The message of `pv_ctrl_check_command`, if it does not let a command pass. -/
def pvCtrlCheckMessage (pv : CtrlState) (cmd : CtrlCmd) : Option CStr :=
  if !pv.remoteMode && cmd.op = .updateMetadata then
    some (str "Cannot do this operation while on local mode")
  else if pv.update && (cmd.op = .rebootDevice || cmd.op = .poweroffDevice ||
      cmd.op = .localRun || cmd.op = .makeFactory) then
    some (str "Cannot do this operation while update is ongoing")
  else if !pv.unclaimed && cmd.op = .makeFactory then
    some (str "Cannot do this operation if device is already claimed")
  else none

/-- `/commands` -/
def commandsBranch (env : CtrlEnv) (c : Connection) (w : CtrlWorld) (r : HttpRequest) : Branch :=
  if sameUpToLength r.method (str "POST") then
    match (pvCtrlProcessCmd r.body r.contentLength).bind (pvCtrlParseCommand env.jsmn) with
    | none => .out [.error .badReq (str "Command has bad format")] w
    | some cmd =>
      match pvCtrlCheckMessage c.pv cmd with
      | some message => .out [.error .conflict message] w
      | none => ⟨some 0, [], w, some cmd, none⟩
  else .pass w

/-- The branches of the lists, with `pv_ctrl_process_get_string` -/
def listBranch (c : Connection) (w : CtrlWorld) (r : HttpRequest) : Branch :=
  if sameUpToLength r.method (str "GET") then .out [.content (c.lists r.endpoint)] w else .pass w

/-! ## Files -/

/-- The loop of `pv_ctrl_process_get_file`. Behind the end of a file nothing is sent. -/
def sendLoop : List Int → CStr → CStr
  | [], _ => []
  | sent :: sends, file =>
    let part := file.take sent.toNat
    if part = [] then [] else part ++ sendLoop sends (file.drop part.length)

/-- `pv_ctrl_process_get_file`. A directory is opened too, but nothing of it is sent. -/
def pvCtrlProcessGetFile (sends : List Int) (fs : Fs) (path : List Name) : Answer :=
  match fs.find path with
  | none => .error .notFound (str "Resource does not exist")
  | some (.file i) => .content (sendLoop sends (fs.data i))
  | some _ => .content []

/-- What the loop of `pv_ctrl_process_put_file` says where it breaks off. -/
def putLoopMessage : List (Int × Int) → Nat → CStr → Option CStr
  | [], contentLength, _ => if contentLength = 0 then none else some (str "Cannot read from socket")
  | (readCount, writeCount) :: transfers, contentLength, socket =>
    if contentLength = 0 then none
    else
      let req := received contentLength socket readCount
      if req = [] then some (str "Cannot read from socket")
      else if writeCount ≤ 0 then some (str "Cannot write into file")
      else putLoopMessage transfers (contentLength - req.length) (socket.drop req.length)

/-- The message of `pv_ctrl_process_put_file`, if it fails. -/
def PutRequest.message (r : PutRequest) (calls : PutCalls) (fs : Fs) : Option CStr :=
  match calls.openFile (r.start fs) r.path with
  | .error _ => some (str "Cannot create file")
  | .ok _ => putLoopMessage calls.transfers r.contentLength r.socket

/-- A PUT of a file in a branch. -/
def putBranch (calls : PutCalls) (w : CtrlWorld) (r : PutRequest) : Branch :=
  let (ret, fs) := r.run calls w.fs
  let error := (r.message calls w.fs).map (Answer.error .error)
  ⟨if ret < 0 then none else some ret, .cont :: error.toList, { w with fs := fs }, none, none⟩

/-- `pv_ctrl_validate_object_checksum`, where `reads` says that the new file can be read. What
`rename` returns is not looked at. -/
def pvCtrlValidateObjectChecksum (sha256 : CStr → List UInt8) (reads renames : Bool) (fs : Fs)
    (sha : CStr) : Int × Fs :=
  if pvStorageValidateFileChecksum sha256 (if reads then fs.readFile (newPath sha) else none) sha
      = some 0 then
    (0, (if renames then fs.rename (newPath sha) (objectPath sha) else none).getD fs)
  else (-1, (fs.remove (newPath sha)).getD fs)

/-- A PUT of an object with a name that has the right length. -/
def objectPut (env : CtrlEnv) (c : Connection) (w : CtrlWorld) (r : HttpRequest) (socket : CStr)
    (name : CStr) : Branch :=
  let b := putBranch c.put w ⟨none, newPath name, r.contentLength, socket⟩
  match b.res with
  | none => b
  | some _ =>
    let (res, fs) := pvCtrlValidateObjectChecksum env.sha256 c.reads c.renames b.world.fs name
    if res < 0 then
      .out (b.answers ++ [.error .badReq (str "Object has bad checksum")]) { w with fs := fs }
    else ⟨some res, b.answers, { w with fs := fs, loadingObjects := true }, none, none⟩

/-- An object -/
def objectBranch (env : CtrlEnv) (c : Connection) (w : CtrlWorld) (r : HttpRequest) (socket : CStr)
    (name : CStr) : Branch :=
  let b : Branch :=
    if name.length ≠ 64 then .out [.error .badReq (str "Request has bad object name")] w
    else if sameUpToLength r.method (str "PUT") then objectPut env c w r socket name
    else if sameUpToLength r.method (str "GET") then
      .out [pvCtrlProcessGetFile c.sends w.fs (objectPath name)] w
    else .pass w
  { b with tmp := some (newPath name) }

/-- The progress of a step -/
def progressBranch (c : Connection) (w : CtrlWorld) (r : HttpRequest) (name : CStr) : Branch :=
  if sameUpToLength r.method (str "GET") then
    .out [pvCtrlProcessGetFile c.sends w.fs (trailsPath name (str ".pv/progress"))] w
  else .out [] w

/-- What a PUT of a commit message is about: `PATH_TRAILS_PV_PARENT` and
`PATH_TRAILS_COMMITMSG`. -/
def commitmsgRequest (name : CStr) (contentLength : Nat) (socket : CStr) : PutRequest :=
  ⟨some (trailsPath name (str ".pv")), trailsPath name (str ".pv/commitmsg"), contentLength, socket⟩

/-- The commit message of a step -/
def commitmsgBranch (c : Connection) (w : CtrlWorld) (r : HttpRequest) (socket : CStr)
    (name : CStr) : Branch :=
  if sameUpToLength r.method (str "PUT") then
    putBranch c.put w (commitmsgRequest name r.contentLength socket)
  else .pass w

/-- A step -/
def stepBranch (c : Connection) (w : CtrlWorld) (r : HttpRequest) (socket : CStr) (name : CStr) :
    Branch :=
  if sameUpToLength r.method (str "PUT") then
    if pvStorageIsRevisionLocal name then
      putBranch c.put w (stepRequest name r.contentLength socket)
    else .pass w
  else if sameUpToLength r.method (str "GET") then
    .out [pvCtrlProcessGetFile c.sends w.fs (jsonPath name)] w
  else .pass w

/-! ## User metadata -/

/-- `pv_ctrl_get_body`, where `body` is what the call of `read` gets. -/
def pvCtrlGetBody (body : CStr) (contentLength : Nat) : Option CStr :=
  if httpReqBufferSize ≤ contentLength then none
  else if body.take contentLength = [] then none
  else some (cstrAt (body.take contentLength) 0)

/-- A key has a parent directory in one of its paths, so that it may lead into the storage. -/
def Astray (metakey : CStr) : Prop :=
  dotdot ∈ pathUsermetaKey metakey ∨
    ∃ plat ∈ platOfKey metakey, dotdot ∈ pathUsermetaPlatKey plat.1 plat.2

instance (metakey : CStr) : Decidable (Astray metakey) := inferInstanceAs (Decidable (_ ∨ _))

/-- The storage behind a change of a key, which has saved or removed its files if it returns 0. -/
def storageBehind (env : CtrlEnv) (w : CtrlWorld) (metakey : CStr) (value : Option CStr)
    (res : Int) : Fs :=
  if res = 0 ∧ Astray metakey then env.astray metakey value w.fs else w.fs

/-- A key of the user metadata -/
def userMetaBranch (env : CtrlEnv) (w : CtrlWorld) (r : HttpRequest) (metakey : CStr) : Branch :=
  if sameUpToLength r.method (str "PUT") then
    let value := pvCtrlGetBody r.body r.contentLength
    let (res, m) := pvMetadataAddUsermeta w.usermeta metakey value
    ⟨some res, [], { w with usermeta := m, fs := storageBehind env w metakey value res }, none,
      none⟩
  else if sameUpToLength r.method (str "DELETE") then
    let (res, m) := pvMetadataRmUsermeta w.usermeta metakey
    ⟨some res, [], { w with usermeta := m, fs := storageBehind env w metakey none res }, none,
      none⟩
  else .pass w

/-! ## A request -/

/-- The name that the branch of a path takes from it. `none` is a write behind its block. -/
def HttpRequest.name (r : HttpRequest) : Option CStr :=
  r.endpoint.around.bind fun (endpoint, suffix) =>
    (r.line.fileName endpoint suffix).bind Block.text

/-- The branches of `pv_ctrl_read_parse_request`, where `socket` is what is left of the request. -/
def serveHttp (env : CtrlEnv) (c : Connection) (w : CtrlWorld) (r : HttpRequest) (socket : CStr) :
    Option Branch :=
  if r.contentLength = 0 then some (.out [.error .badReq (str "Request has empty body")] w)
  else
    match r.endpoint with
    | .commands => some (commandsBranch env c w r)
    | .objectList | .stepList | .userMetaList | .deviceMetaList | .buildinfo =>
      some (listBranch c w r)
    | .object => r.name.map (objectBranch env c w r socket)
    | .progress => r.name.map (progressBranch c w r)
    | .commitmsg => r.name.map (commitmsgBranch c w r socket)
    | .step => r.name.map (stepBranch c w r socket)
    | .userMeta => r.name.map (userMetaBranch env w r)
    | .unknown => some (.pass w)

/-- What comes in: nothing before an error, a command of the old kind, or the header of a request
with what is behind it. -/
inductive Arrived where
  | nothing
  | legacy (body : CStr)
  | unparsed
  | http (r : HttpRequest) (socket : CStr)

/-- A request with the text of its header. -/
def arrivedHeader (env : CtrlEnv) (c : Connection) (h : HeaderRead) : Arrived :=
  match env.phr (h.text c.past) with
  | none => .unparsed
  | some (line, method, headers) =>
    let contentLength := pvCtrlGetValueHeaderInt headers contentLengthName
    .http ⟨line, method, headers, received contentLength h.left c.body⟩ h.left

/-- The part of `pv_ctrl_read_parse_request` that reads from the socket. Where there is nothing
the first byte stays zero. -/
def arrived (env : CtrlEnv) (c : Connection) : Arrived :=
  match c.bytes with
  | [] => if c.broken then .nothing else arrivedHeader env c (readHeader [0] [])
  | first :: socket =>
    if first = 3 then .legacy (received 4095 socket c.body)
    else arrivedHeader env c (readHeader [first] socket)

/-- `pv_ctrl_read_parse_request`; `none` is a write behind a block. -/
def pvCtrlReadParseRequest (env : CtrlEnv) (w : CtrlWorld) (c : Connection) : Option Served :=
  match arrived env c with
  | .nothing => some ⟨[], w, none⟩
  | .legacy body => some ⟨[], w, (pvCtrlProcessCmd body 4095).bind (pvCtrlParseCommand env.jsmn)⟩
  | .unparsed => some ⟨[.error .badReq (str "Request has bad format")], w, none⟩
  | .http r socket => (serveHttp env c w r socket).map Branch.finish

/-! ## The header is all that is taken -/

/-- A header ends where it has its first empty line, not counting one at the very start, and has
room in the buffer. -/
structure HeaderText (head : CStr) : Prop where
  ends : headerEnd <:+ head
  long : 4 < head.length
  fits : head.length ≤ httpReqBufferSize
  first : ∀ p, p <+: head → p ≠ head → 4 < p.length → ¬ headerEnd <:+ p

/-- No header has ended in a text. -/
def Unended (s : CStr) : Prop := ∀ p, p <+: s → 4 < p.length → ¬ headerEnd <:+ p

theorem Unended.snoc {buf : CStr} (h : Unended buf) {c : UInt8}
    (hc : ¬ (3 < buf.length ∧ headerEnd.isSuffixOf (buf ++ [c]) = true)) :
    Unended (buf ++ [c]) := by
  intro p hp hlong hends
  rcases List.prefix_concat_iff.mp hp with rfl | hp
  · rw [List.length_append, List.length_singleton] at hlong
    exact hc ⟨by omega, List.isSuffixOf_iff_suffix.mpr hends⟩
  · exact h p hp hlong hends

/-- **What the loop reads**, by induction on what is on the socket: no header has ended in the
buffer before. -/
theorem readHeader_cases {buf : CStr} (socket : CStr) (hopen : Unended buf)
    (hfits : buf.length ≤ httpReqBufferSize) :
    (∃ head body, HeaderText head ∧ head ++ body = buf ++ socket ∧
      readHeader buf socket = ⟨.complete, head, body⟩) ∨
    ((readHeader buf socket).how = .ended ∧ (buf ++ socket).length < httpReqBufferSize ∧
      Unended (buf ++ socket)) ∨
    ((readHeader buf socket).how = .full ∧ httpReqBufferSize ≤ (buf ++ socket).length ∧
      Unended ((buf ++ socket).take httpReqBufferSize)) := by
  induction socket generalizing buf with
  | nil =>
    rw [readHeader, List.append_nil]
    by_cases hroom : buf.length < httpReqBufferSize
    · exact .inr (.inl ⟨if_pos hroom, hroom, hopen⟩)
    · refine .inr (.inr ⟨if_neg hroom, by omega, ?_⟩)
      rwa [List.take_of_length_le hfits]
  | cons c socket ih =>
    have hstep : buf ++ c :: socket = buf ++ [c] ++ socket := by simp
    rw [readHeader]
    by_cases hroom : buf.length < httpReqBufferSize
    · rw [if_pos hroom]
      by_cases hend : 3 < buf.length ∧ headerEnd.isSuffixOf (buf ++ [c]) = true
      · rw [if_pos hend]
        refine .inl ⟨buf ++ [c], socket, ⟨List.isSuffixOf_iff_suffix.mp hend.2, ?_, ?_, ?_⟩,
          hstep.symm, rfl⟩
        · rw [List.length_append, List.length_singleton]
          omega
        · rw [List.length_append, List.length_singleton]
          omega
        · intro p hp hne
          exact hopen p ((List.prefix_concat_iff.mp hp).resolve_left hne)
      · rw [if_neg hend, hstep]
        refine ih (hopen.snoc hend) ?_
        rw [List.length_append, List.length_singleton]
        omega
    · rw [if_neg hroom]
      refine .inr (.inr ⟨rfl, ?_, ?_⟩)
      · rw [List.length_append]
        omega
      · rwa [List.take_left' (by omega)]

theorem unended_singleton (c : UInt8) : Unended [c] := by
  intro p hp hlong
  have hle := hp.length_le
  rw [List.length_singleton] at hle
  omega

/-- Two headers at the start of one text are the same. -/
theorem HeaderText.unique {head head' s : CStr} (h : HeaderText head) (h' : HeaderText head')
    (hs : head <+: s) (hs' : head' <+: s) : head = head' := by
  rcases List.prefix_or_prefix_of_prefix hs hs' with hle | hle
  · by_contra hne
    exact h'.first head hle hne h.long h.ends
  · by_contra hne
    exact h.first head' hle (Ne.symm hne) h'.long h'.ends

/-- **The header is all that is taken**: the loop ends well just with the header that what comes
in begins with, and leaves the rest; and it goes on to the end of the buffer, so that a byte
behind it is handed to the parser, just if there is no header in as much. -/
theorem header_framed (c : UInt8) (socket : CStr) :
    (∀ head body, readHeader [c] socket = ⟨.complete, head, body⟩ ↔
      HeaderText head ∧ head ++ body = c :: socket) ∧
    ((readHeader [c] socket).how = .full ↔
      httpReqBufferSize ≤ (c :: socket).length ∧ ∀ head, head <+: c :: socket →
        ¬ HeaderText head) := by
  have hcases := readHeader_cases socket (unended_singleton c) (by simp [httpReqBufferSize])
  rw [List.singleton_append] at hcases
  have hnone : ∀ {s : CStr} {head : CStr}, Unended s → head <+: s → ¬ HeaderText head :=
    fun hopen hp hhead => hopen _ hp hhead.long hhead.ends
  rcases hcases with ⟨head, body, hhead, hsplit, hread⟩ | ⟨hhow, hshort, hopen⟩ |
      ⟨hhow, hlong, hopen⟩
  · refine ⟨fun head' body' => ?_, ?_⟩
    · rw [hread]
      constructor
      · intro h
        cases h
        exact ⟨hhead, hsplit⟩
      · rintro ⟨hhead', hsplit'⟩
        obtain rfl := hhead.unique hhead' ⟨body, hsplit⟩ ⟨body', hsplit'⟩
        rw [List.append_cancel_left (hsplit.trans hsplit'.symm)]
    · rw [hread]
      exact iff_of_false (by simp) fun h => h.2 head ⟨body, hsplit⟩ hhead
  · refine ⟨fun head body => ?_, ?_⟩
    · refine iff_of_false (fun h => ?_) fun h => hnone hopen ⟨body, h.2⟩ h.1
      rw [h] at hhow
      cases hhow
    · rw [hhow]
      exact iff_of_false (by decide) fun h => by omega
  · have hprefix : ∀ {head : CStr}, head <+: c :: socket → ¬ HeaderText head := by
      intro head hp hhead
      have hfits := hhead.fits
      refine hnone hopen ?_ hhead
      rw [List.prefix_take_iff]
      exact ⟨hp, hfits⟩
    refine ⟨fun head body => ?_, ?_⟩
    · refine iff_of_false (fun h => ?_) fun h => hprefix ⟨body, h.2⟩ h.1
      rw [h] at hhow
      cases hhow
    · exact iff_of_true hhow ⟨hlong, fun head hp => hprefix hp⟩

/-! ## Names that do not fit -/

/-- The two paths whose name has a length of -1. -/
def Overlapping (path : CStr) : Prop :=
  path = str "/steps/progress" ∨ path = str "/steps/commitmsg"

/-- A path is a list before it is one of its members. -/
theorem around_path_ne {mem : CStr} {len : Nat} {endpoint : CStr}
    (h : (endpointOf mem len).around = some (endpoint, [])) : endpoint.length ≠ len := by
  intro hlen
  have hlist : pvStrMatches endpoint mem len = true := by
    rw [pvStrMatches, Bool.and_eq_true]
    exact ⟨decide_eq_true hlen, pvStrStartswith_iff.mpr (around_tests h).1⟩
  have hbefore : ∀ {p : Prop} [Decidable p] {e e' e'' : Endpoint}, (if p then e else e') = e'' →
      e ≠ e'' → ¬ p ∧ e' = e'' := by
    intro p _ e e' e'' hif hne
    split at hif
    · exact absurd hif hne
    · exact ⟨‹_›, hif⟩
  cases hendpoint : endpointOf mem len with
  | object =>
    rw [hendpoint] at h
    cases h
    have hsecond := (hbefore hendpoint (by simp)).2
    exact (hbefore hsecond (by simp)).1 hlist
  | step =>
    rw [hendpoint] at h
    cases h
    have hsecond := (hbefore hendpoint (by simp)).2
    have hthird := (hbefore hsecond (by simp)).2
    have hfourth := (hbefore hthird (by simp)).2
    exact (hbefore hfourth (by simp)).1 hlist
  | userMeta =>
    rw [hendpoint] at h
    cases h
    have hsecond := (hbefore hendpoint (by simp)).2
    have hthird := (hbefore hsecond (by simp)).2
    have hfourth := (hbefore hthird (by simp)).2
    have hfifth := (hbefore hfourth (by simp)).2
    have hsixth := (hbefore hfifth (by simp)).2
    have hseventh := (hbefore hsixth (by simp)).2
    have heighth := (hbefore hseventh (by simp)).2
    exact (hbefore heighth (by simp)).1 hlist
  | progress | commitmsg =>
    rw [hendpoint] at h
    exact absurd (Prod.mk.inj (Option.some.inj h)).2 (by decide)
  | _ => rw [hendpoint] at h; cases h

/-- The name behind a byte that is not looked at. -/
theorem fileName_of_path (r : RequestLine) {endpoint suffix name : CStr} {c : UInt8}
    (h : r.path = endpoint ++ c :: name ++ suffix) :
    (r.fileName endpoint suffix).bind Block.text = some name := by
  have hlen : r.path.length = endpoint.length + 1 + name.length + suffix.length := by
    rw [h]
    simp only [List.length_append, List.length_cons]
    omega
  have hfits := r.fits
  have hname : NulFree name := by
    intro hmem
    refine r.plain.1 ?_
    rw [h]
    simp [hmem]
  have hmem : r.mem = (endpoint ++ [c]) ++ (name ++ (suffix ++ 32 :: r.rest)) := by
    rw [RequestLine.mem, h]
    simp
  have hstart : endpoint.length + 1 = (endpoint ++ [c]).length := by simp
  have hstop : subSize r.path.length suffix.length = (endpoint ++ [c] ++ name).length := by
    rw [subSize_eq (by omega) (by omega), hlen]
    simp only [List.length_append, List.length_singleton]
    omega
  rw [RequestLine.fileName, hmem, hstart, hstop]
  refine pvCtrlGetFileName_text hname ?_
  simp only [List.length_append, List.length_singleton]
  omega

/-- A length of -1 has no room in its block. -/
theorem pvCtrlGetFileName_wraps (mem : CStr) : pvCtrlGetFileName mem 7 6 = none := by
  have hlen : intOfSize (subSize 6 7) = -1 := by decide +kernel
  have hsize : sizeOfInt (-1) = 2 ^ 64 - 1 := by decide +kernel
  have hblock : sizeOfInt (-1 + 1) = 0 := by decide +kernel
  rw [pvCtrlGetFileName]
  simp only [hlen, hsize, hblock]
  rfl

theorem around_of_overlapping {r : HttpRequest} (h : Overlapping r.line.path) :
    ∃ suffix, r.endpoint.around = some (str "/steps", suffix) ∧
      r.line.path = str "/steps" ++ suffix ∧ subSize r.line.path.length suffix.length = 6 := by
  rw [HttpRequest.endpoint, RequestLine.mem]
  rcases h with h | h
  · rw [h]
    exact ⟨str "/progress", rfl, rfl, by decide +kernel⟩
  · rw [h]
    exact ⟨str "/commitmsg", rfl, rfl, by decide +kernel⟩

theorem name_eq_none_iff {r : HttpRequest} {around : CStr × CStr}
    (h : r.endpoint.around = some around) : r.name = none ↔ Overlapping r.line.path := by
  obtain ⟨endpoint, suffix⟩ := around
  have hname : r.name = (r.line.fileName endpoint suffix).bind Block.text := by
    rw [HttpRequest.name, h, Option.bind_some]
  constructor
  · intro hnone
    obtain ⟨middle, hpath⟩ := path_of_tests r.line h
    cases middle with
    | cons c name =>
      rw [hname, fileName_of_path r.line hpath] at hnone
      cases hnone
    | nil =>
      rw [List.append_nil] at hpath
      by_cases hsuffix : suffix = []
      · subst hsuffix
        rw [List.append_nil] at hpath
        exact absurd (congrArg List.length hpath).symm (around_path_ne h)
      · cases hendpoint : r.endpoint with
        | progress =>
          rw [hendpoint] at h
          cases h
          exact .inl (hpath.trans (by decide))
        | commitmsg =>
          rw [hendpoint] at h
          cases h
          exact .inr (hpath.trans (by decide))
        | object | step | userMeta =>
          rw [hendpoint] at h
          exact absurd (Prod.mk.inj (Option.some.inj h)).2.symm hsuffix
        | _ =>
          rw [hendpoint] at h
          cases h
  · intro hover
    obtain ⟨suffix', haround, -, hsize⟩ := around_of_overlapping hover
    obtain ⟨rfl, rfl⟩ := Prod.mk.inj (Option.some.inj (h.symm.trans haround))
    rw [hname, RequestLine.fileName, hsize, show (str "/steps").length + 1 = 7 by decide,
      pvCtrlGetFileName_wraps, Option.bind_none]

/-! ## One answer -/

/-- An answer that is not only to go on, and has room for its message. -/
def Answer.final : Answer → Bool
  | .cont => false
  | .error _ message => message.length ≤ 64
  | _ => true

/-- One answer, which a PUT of a file has a line before. -/
def Answered (answers : List Answer) : Prop :=
  ∃ a : Answer, a.final = true ∧ (answers = [a] ∨ answers = [.cont, a])

/-- What a branch has answered where it ends. -/
def Branch.Proper (b : Branch) : Prop :=
  match b.res with
  | none => Answered b.answers
  | some _ => b.answers = [] ∨ b.answers = [.cont]

theorem answered_finish {b : Branch} (h : b.Proper) : Answered b.finish.answers := by
  rw [Branch.Proper] at h
  rw [Branch.finish]
  cases hres : b.res with
  | none =>
    rw [hres] at h
    simpa using h
  | some res =>
    rw [hres] at h
    refine ⟨if res < 0 then .error .error (str "Unknown request") else .ok, ?_, ?_⟩
    · split <;> rfl
    · rcases h with h | h
      · exact .inl (by rw [h]; rfl)
      · exact .inr (by rw [h]; rfl)

theorem proper_out {a : Answer} (h : a.final = true) (w : CtrlWorld) : (Branch.out [a] w).Proper :=
  ⟨a, h, .inl rfl⟩

theorem proper_pass (w : CtrlWorld) : (Branch.pass w).Proper := .inl rfl

theorem final_getFile (sends : List Int) (fs : Fs) (path : List Name) :
    (pvCtrlProcessGetFile sends fs path).final = true := by
  unfold pvCtrlProcessGetFile
  split <;> rfl

theorem putLoopMessage_short {transfers : List (Int × Int)} {n : Nat} {socket m : CStr}
    (h : putLoopMessage transfers n socket = some m) : m.length ≤ 64 := by
  have hread : (str "Cannot read from socket").length ≤ 64 := by decide
  have hwrite : (str "Cannot write into file").length ≤ 64 := by decide
  induction transfers generalizing n socket with
  | nil =>
    rw [putLoopMessage] at h
    split at h
    · cases h
    · exact Option.some.inj h ▸ hread
  | cons t transfers ih =>
    obtain ⟨readCount, writeCount⟩ := t
    rw [putLoopMessage] at h
    split at h
    · cases h
    · dsimp only at h
      split at h
      · exact Option.some.inj h ▸ hread
      · split at h
        · exact Option.some.inj h ▸ hwrite
        · exact ih h

/-- The message says whether the loop breaks off. -/
theorem putLoopMessage_none (inode : Nat) (transfers : List (Int × Int)) (n : Nat) (socket : CStr)
    (fs : Fs) :
    putLoopMessage transfers n socket = none ↔ (putLoop inode transfers n socket fs).1 = true := by
  induction transfers generalizing n socket fs with
  | nil =>
    rw [putLoopMessage, putLoop]
    by_cases hn : n = 0 <;> simp [hn]
  | cons t transfers ih =>
    obtain ⟨readCount, writeCount⟩ := t
    rw [putLoopMessage, putLoop]
    by_cases hn : n = 0
    · simp [hn]
    · rw [if_neg hn, if_neg hn]
      dsimp only
      by_cases hread : received n socket readCount = []
      · simp [hread]
      · rw [if_neg hread]
        by_cases hwrite : writeCount ≤ 0
        · simp [hwrite]
        · rw [if_neg hwrite, if_neg (not_or.mpr ⟨hread, hwrite⟩)]
          exact ih _ _ _

/-- A PUT of a file fails with a message. -/
theorem run_message (r : PutRequest) (calls : PutCalls) (fs : Fs) :
    (r.message calls fs = none ∧ (r.run calls fs).1 = 0) ∨
      ((∃ m, r.message calls fs = some m ∧ m.length ≤ 64) ∧ (r.run calls fs).1 = -1) := by
  rw [PutRequest.message, PutRequest.run, pvCtrlProcessPutFile]
  cases hopen : calls.openFile (r.start fs) r.path with
  | error e =>
    refine .inr ⟨⟨_, rfl, by decide⟩, ?_⟩
    dsimp only
    split <;> rfl
  | ok o =>
    obtain ⟨inode, fs'⟩ := o
    dsimp only
    have hloop := putLoopMessage_none inode calls.transfers r.contentLength r.socket fs'
    cases hrun : putLoop inode calls.transfers r.contentLength r.socket fs' with
    | mk ends fs'' =>
      rw [hrun] at hloop
      cases ends with
      | true => exact .inl ⟨hloop.mpr rfl, rfl⟩
      | false =>
        refine .inr ⟨?_, rfl⟩
        obtain ⟨m, hm⟩ := Option.ne_none_iff_exists'.mp fun h => Bool.false_ne_true (hloop.mp h)
        exact ⟨m, hm, putLoopMessage_short hm⟩

/-- How a PUT of a file ends in its branch. -/
theorem putBranch_cases (calls : PutCalls) (w : CtrlWorld) (r : PutRequest) :
    ((putBranch calls w r).res = some 0 ∧ (putBranch calls w r).answers = [.cont]) ∨
      ((putBranch calls w r).res = none ∧ ∃ m, m.length ≤ 64 ∧
        (putBranch calls w r).answers = [.cont, .error .error m]) := by
  rcases run_message r calls w.fs with ⟨hmessage, hret⟩ | ⟨⟨m, hmessage, hshort⟩, hret⟩
  · left
    rw [putBranch, hmessage]
    dsimp only
    rw [hret]
    exact ⟨rfl, rfl⟩
  · right
    rw [putBranch, hmessage]
    dsimp only
    rw [hret]
    exact ⟨rfl, m, hshort, rfl⟩

theorem proper_put (calls : PutCalls) (w : CtrlWorld) (r : PutRequest) :
    (putBranch calls w r).Proper := by
  rw [Branch.Proper]
  rcases putBranch_cases calls w r with ⟨hres, hanswers⟩ | ⟨hres, m, hshort, hanswers⟩
  · rw [hres]
    exact .inr hanswers
  · rw [hres]
    exact ⟨.error .error m, decide_eq_true hshort, .inr hanswers⟩

section Branches

variable (env : CtrlEnv) (c : Connection) (w : CtrlWorld) (r : HttpRequest) (socket : CStr)

theorem checkMessage_short {pv : CtrlState} {cmd : CtrlCmd} {m : CStr}
    (h : pvCtrlCheckMessage pv cmd = some m) : m.length ≤ 64 := by
  rw [pvCtrlCheckMessage] at h
  split at h
  · exact Option.some.inj h ▸ by decide
  · split at h
    · exact Option.some.inj h ▸ by decide
    · split at h
      · exact Option.some.inj h ▸ by decide
      · cases h

theorem proper_commands : (commandsBranch env c w r).Proper := by
  unfold commandsBranch
  split
  · split
    · exact proper_out rfl w
    · split
      · rename_i message hmessage
        have hshort := checkMessage_short hmessage
        exact proper_out (show (Answer.error _ message).final = true from decide_eq_true hshort) w
      · exact .inl rfl
  · exact proper_pass w

theorem proper_list : (listBranch c w r).Proper := by
  unfold listBranch
  split
  · exact proper_out rfl w
  · exact proper_pass w

theorem proper_objectPut (name : CStr) : (objectPut env c w r socket name).Proper := by
  unfold objectPut
  have hput := proper_put c.put w ⟨none, newPath name, r.contentLength, socket⟩
  have hcases := putBranch_cases c.put w ⟨none, newPath name, r.contentLength, socket⟩
  generalize putBranch c.put w ⟨none, newPath name, r.contentLength, socket⟩ = b at hput hcases
  dsimp only
  rcases hcases with ⟨hres, hanswers⟩ | ⟨hres, -⟩
  · rw [hres, hanswers]
    dsimp only
    split
    · exact ⟨_, rfl, .inr rfl⟩
    · exact .inr rfl
  · rw [hres]
    exact hput

theorem proper_object (name : CStr) : (objectBranch env c w r socket name).Proper := by
  have htmp : ∀ (b : Branch) (tmp : Option (List Name)), b.Proper → { b with tmp := tmp }.Proper :=
    fun _ _ h => h
  unfold objectBranch
  refine htmp _ _ ?_
  split
  · exact proper_out rfl w
  · split
    · exact proper_objectPut env c w r socket name
    · split
      · exact proper_out (final_getFile _ _ _) w
      · exact proper_pass w

theorem proper_commitmsg (name : CStr) : (commitmsgBranch c w r socket name).Proper := by
  unfold commitmsgBranch
  split
  · exact proper_put _ _ _
  · exact proper_pass w

theorem proper_step (name : CStr) : (stepBranch c w r socket name).Proper := by
  unfold stepBranch
  split
  · split
    · exact proper_put _ _ _
    · exact proper_pass w
  · split
    · exact proper_out (final_getFile _ _ _) w
    · exact proper_pass w

theorem proper_userMeta (metakey : CStr) : (userMetaBranch env w r metakey).Proper := by
  unfold userMetaBranch
  split
  · exact .inl rfl
  · split
    · exact .inl rfl
    · exact proper_pass w

/-- The progress of a step is asked for with another method than GET. -/
def HttpRequest.Unanswered (r : HttpRequest) : Prop :=
  r.contentLength ≠ 0 ∧ r.endpoint = .progress ∧ sameUpToLength r.method (str "GET") = false

/-- **Each branch** but that of the progress ends with an answer or for one. -/
theorem proper_serveHttp {b : Branch} (h : serveHttp env c w r socket = some b) :
    b.Proper ∨ r.Unanswered := by
  unfold serveHttp at h
  split at h
  · rw [← Option.some.inj h]
    exact .inl (proper_out rfl w)
  · rename_i hlength
    split at h
    · exact .inl (Option.some.inj h ▸ proper_commands env c w r)
    · exact .inl (Option.some.inj h ▸ proper_list c w r)
    · exact .inl (Option.some.inj h ▸ proper_list c w r)
    · exact .inl (Option.some.inj h ▸ proper_list c w r)
    · exact .inl (Option.some.inj h ▸ proper_list c w r)
    · exact .inl (Option.some.inj h ▸ proper_list c w r)
    · obtain ⟨name, -, rfl⟩ := Option.map_eq_some_iff.mp h
      exact .inl (proper_object env c w r socket name)
    · rename_i hendpoint
      obtain ⟨name, -, rfl⟩ := Option.map_eq_some_iff.mp h
      unfold progressBranch
      split
      · exact .inl (proper_out (final_getFile _ _ _) w)
      · rename_i hmethod
        exact .inr ⟨hlength, hendpoint, Bool.not_eq_true _ ▸ hmethod⟩
    · obtain ⟨name, -, rfl⟩ := Option.map_eq_some_iff.mp h
      exact .inl (proper_commitmsg c w r socket name)
    · obtain ⟨name, -, rfl⟩ := Option.map_eq_some_iff.mp h
      exact .inl (proper_step c w r socket name)
    · obtain ⟨name, -, rfl⟩ := Option.map_eq_some_iff.mp h
      exact .inl (proper_userMeta env w r name)
    · exact .inl (Option.some.inj h ▸ proper_pass w)

end Branches

/-! ## The command of a request -/

theorem checkMessage_eq_none {pv : CtrlState} {cmd : CtrlCmd} :
    pvCtrlCheckMessage pv cmd = none ↔ pvCtrlCheckCommand pv cmd = true := by
  rw [pvCtrlCheckMessage, pvCtrlCheckCommand]
  split
  · simp
  · split
    · simp
    · split <;> simp

/-- The text of the command of a request, without the methods of the other branches. -/
theorem commandText_http (r : HttpRequest) :
    (CtrlRequest.http r).commandText
      = if r.contentLength ≠ 0 ∧ r.endpoint = .commands ∧
          sameUpToLength r.method (str "POST") = true then
          pvCtrlProcessCmd r.body r.contentLength else none := by
  rw [CtrlRequest.commandText]
  by_cases hendpoint : r.endpoint = .commands
  · have hreach : r.Reaches ↔ r.contentLength ≠ 0 := by
      refine and_iff_left_of_imp fun _ hobject => ?_
      rw [hendpoint] at hobject
      cases hobject
    have haccepted : r.accepted = some (str "POST") ↔
        r.contentLength ≠ 0 ∧ sameUpToLength r.method (str "POST") = true := by
      rw [HttpRequest.accepted, hendpoint, Endpoint.methods]
      by_cases hlength : r.contentLength ≠ 0
      · rw [if_pos (hreach.mpr hlength), List.find?_singleton]
        split <;> simp [*]
      · rw [if_neg (mt hreach.mp hlength)]
        simp [hlength]
    simp only [hendpoint, true_and, haccepted]
  · rw [if_neg fun h => hendpoint h.1, if_neg fun h => hendpoint h.2.1]

/-- What is executed of a request without a command. -/
theorem executed_none {jsmn : Jsmn} {pv : CtrlState} {r : HttpRequest}
    (h : ¬ (r.contentLength ≠ 0 ∧ r.endpoint = .commands ∧
      sameUpToLength r.method (str "POST") = true)) :
    (CtrlRequest.http r).executed jsmn pv = none := by
  simp only [CtrlRequest.executed, commandText_http, if_neg h, Option.bind_none, Option.filter_none]

section Commands

variable (env : CtrlEnv) (c : Connection) (w : CtrlWorld) (r : HttpRequest) (socket : CStr)

theorem cmd_commandsBranch (hlength : r.contentLength ≠ 0) (hendpoint : r.endpoint = .commands) :
    (commandsBranch env c w r).cmd = (CtrlRequest.http r).executed env.jsmn c.pv := by
  unfold commandsBranch
  by_cases hmethod : sameUpToLength r.method (str "POST") = true
  · rw [if_pos hmethod]
    have hall : r.contentLength ≠ 0 ∧ r.endpoint = .commands ∧
        sameUpToLength r.method (str "POST") = true := ⟨hlength, hendpoint, hmethod⟩
    simp only [CtrlRequest.executed, commandText_http, if_pos hall]
    cases hcmd : (pvCtrlProcessCmd r.body r.contentLength).bind (pvCtrlParseCommand env.jsmn) with
    | none => rfl
    | some cmd =>
      dsimp only
      cases hmessage : pvCtrlCheckMessage c.pv cmd with
      | none => rw [Option.filter_some, if_pos (checkMessage_eq_none.mp hmessage)]
      | some message =>
        rw [Option.filter_some, if_neg fun h => ?_]
        · rfl
        · rw [checkMessage_eq_none.mpr h] at hmessage
          cases hmessage
  · rw [if_neg hmethod, executed_none fun h => hmethod h.2.2]
    rfl

/-- A branch that has a command says nothing before its end. -/
theorem told_commandsBranch (h : (commandsBranch env c w r).cmd.isSome = true) :
    (commandsBranch env c w r).finish.answers = [.ok] := by
  unfold commandsBranch at h ⊢
  split
  · rename_i hmethod
    rw [if_pos hmethod] at h
    split
    · rename_i hcmd
      rw [hcmd] at h
      cases h
    · rename_i hcmd
      rw [hcmd] at h
      split
      · rename_i hmessage
        dsimp only at h
        rw [hmessage] at h
        cases h
      · rfl
  · rename_i hmethod
    rw [if_neg hmethod] at h
    cases h

theorem cmd_objectBranch (name : CStr) : (objectBranch env c w r socket name).cmd = none := by
  unfold objectBranch
  split
  · rfl
  · split
    · unfold objectPut
      dsimp only
      split
      · rfl
      · split <;> rfl
    · split <;> rfl

/-- **The command of a branch** is the one that is executed. -/
theorem cmd_serveHttp {b : Branch} (h : serveHttp env c w r socket = some b) :
    b.cmd = (CtrlRequest.http r).executed env.jsmn c.pv := by
  unfold serveHttp at h
  split at h
  · rename_i hlength
    rw [← Option.some.inj h, executed_none fun h => h.1 hlength]
    rfl
  · rename_i hlength
    have hother : r.endpoint ≠ .commands → b.cmd = none →
        b.cmd = (CtrlRequest.http r).executed env.jsmn c.pv := by
      intro hendpoint hnone
      rw [hnone, executed_none fun h => hendpoint h.2.1]
    have hlist : (listBranch c w r).cmd = none := by
      unfold listBranch
      split <;> rfl
    split at h
    · rename_i hendpoint
      exact Option.some.inj h ▸ cmd_commandsBranch env c w r hlength hendpoint
    · exact hother (by simp [*]) (Option.some.inj h ▸ hlist)
    · exact hother (by simp [*]) (Option.some.inj h ▸ hlist)
    · exact hother (by simp [*]) (Option.some.inj h ▸ hlist)
    · exact hother (by simp [*]) (Option.some.inj h ▸ hlist)
    · exact hother (by simp [*]) (Option.some.inj h ▸ hlist)
    · obtain ⟨name, -, rfl⟩ := Option.map_eq_some_iff.mp h
      exact hother (by simp [*]) (cmd_objectBranch env c w r socket name)
    · obtain ⟨name, -, rfl⟩ := Option.map_eq_some_iff.mp h
      refine hother (by simp [*]) ?_
      unfold progressBranch
      split <;> rfl
    · obtain ⟨name, -, rfl⟩ := Option.map_eq_some_iff.mp h
      refine hother (by simp [*]) ?_
      unfold commitmsgBranch
      split <;> rfl
    · obtain ⟨name, -, rfl⟩ := Option.map_eq_some_iff.mp h
      refine hother (by simp [*]) ?_
      unfold stepBranch
      split
      · split <;> rfl
      · split <;> rfl
    · obtain ⟨name, -, rfl⟩ := Option.map_eq_some_iff.mp h
      refine hother (by simp [*]) ?_
      unfold userMetaBranch
      split
      · rfl
      · split <;> rfl
    · exact hother (by simp [*]) (Option.some.inj h ▸ rfl)

/-- A command is only handed on. -/
theorem rest_commandsBranch :
    (commandsBranch env c w r).world = w ∧ (commandsBranch env c w r).tmp = none := by
  unfold commandsBranch
  by_cases hmethod : sameUpToLength r.method (str "POST") = true
  · rw [if_pos hmethod]
    cases hcmd : (pvCtrlProcessCmd r.body r.contentLength).bind (pvCtrlParseCommand env.jsmn) with
    | none => exact ⟨rfl, rfl⟩
    | some cmd =>
      dsimp only
      cases hmessage : pvCtrlCheckMessage c.pv cmd with
      | none => exact ⟨rfl, rfl⟩
      | some message => exact ⟨rfl, rfl⟩
  · rw [if_neg hmethod]
    exact ⟨rfl, rfl⟩

/-- A method that is not accepted is none that the branch compares with. -/
theorem other_method (hnone : r.accepted = none) (hreach : r.Reaches) {name : CStr}
    (hname : name ∈ r.endpoint.methods) : ¬ sameUpToLength r.method name = true := by
  rw [HttpRequest.accepted, if_pos hreach] at hnone
  exact List.find?_eq_none.mp hnone name hname

/-- What is behind a branch that changed nothing, for which only an object has something to
remove. -/
def Untouched (b : Branch) : Prop :=
  b.cmd = none ∧ b.world = w ∧
    (b.tmp = none ∨ r.endpoint = .object ∧ ∃ name, r.name = some name ∧ b.tmp = some (newPath name))

/-- The branch of an object, when its method is not accepted or the name is none of an object. -/
theorem untouched_objectBranch (hlength : r.contentLength ≠ 0) (hendpoint : r.endpoint = .object)
    (hother : r.accepted = none) {name : CStr} (hname : r.name = some name) :
    Untouched w r (objectBranch env c w r socket name) := by
  refine ⟨cmd_objectBranch env c w r socket name, ?_, .inr ⟨hendpoint, name, hname, rfl⟩⟩
  unfold objectBranch
  by_cases hlong : name.length ≠ 64
  · rw [if_pos hlong]
    rfl
  · have htext : (r.line.fileName (str "/objects") []).bind Block.text = some name := by
      rwa [HttpRequest.name, hendpoint, Endpoint.around, Option.bind_some] at hname
    have hreach : r.Reaches :=
      ⟨hlength, fun _ => by rw [htext]; exact congrArg some (not_not.mp hlong)⟩
    rw [if_neg hlong,
      if_neg (other_method r hother hreach (by simp [hendpoint, Endpoint.methods])),
      if_neg (other_method r hother hreach (by simp [hendpoint, Endpoint.methods]))]
    rfl

theorem untouched_serveHttp {b : Branch} (h : serveHttp env c w r socket = some b)
    (hnone : (CtrlRequest.http r).effect env.jsmn c.pv = none) : Untouched w r b := by
  have hcmd := cmd_serveHttp env c w r socket h
  unfold serveHttp at h
  split at h
  · rename_i hlength
    rw [executed_none fun h => h.1 hlength] at hcmd
    obtain rfl := Option.some.inj h
    exact ⟨hcmd, rfl, .inl rfl⟩
  · rename_i hlength
    have hreach : r.endpoint ≠ .object → r.Reaches := fun hne => ⟨hlength, fun heq => absurd heq hne⟩
    -- behind the commands the effect is the work of the branch
    have haccepted : r.endpoint ≠ .commands → r.accepted = none := by
      intro hendpoint
      cases hfound : r.accepted with
      | none => rfl
      | some name =>
        rw [CtrlRequest.effect, hfound, Option.bind_some, if_neg hendpoint] at hnone
        cases hnone
    have hlist : r.endpoint ≠ .object → r.endpoint ≠ .commands → str "GET" ∈ r.endpoint.methods →
        Untouched w r (listBranch c w r) := by
      intro hobject hendpoint hget
      rw [listBranch, if_neg (other_method r (haccepted hendpoint) (hreach hobject) hget)]
      exact ⟨rfl, rfl, .inl rfl⟩
    split at h
    · rename_i hendpoint
      obtain rfl := Option.some.inj h
      have hexecuted : (CtrlRequest.http r).executed env.jsmn c.pv = none := by
        cases hfound : r.accepted with
        | none =>
          refine executed_none fun hall => other_method r hfound (hreach (by simp [hendpoint]))
            (by rw [hendpoint]; simp [Endpoint.methods]) hall.2.2
        | some name =>
          rw [CtrlRequest.effect, hfound, Option.bind_some, if_pos hendpoint] at hnone
          exact Option.map_eq_none_iff.mp hnone
      obtain ⟨hworld, htmp⟩ := rest_commandsBranch env c w r
      exact ⟨hcmd.trans hexecuted, hworld, .inl htmp⟩
    · rename_i hendpoint
      obtain rfl := Option.some.inj h
      exact hlist (by simp [hendpoint]) (by simp [hendpoint]) (by simp [hendpoint, Endpoint.methods])
    · rename_i hendpoint
      obtain rfl := Option.some.inj h
      exact hlist (by simp [hendpoint]) (by simp [hendpoint]) (by simp [hendpoint, Endpoint.methods])
    · rename_i hendpoint
      obtain rfl := Option.some.inj h
      exact hlist (by simp [hendpoint]) (by simp [hendpoint]) (by simp [hendpoint, Endpoint.methods])
    · rename_i hendpoint
      obtain rfl := Option.some.inj h
      exact hlist (by simp [hendpoint]) (by simp [hendpoint]) (by simp [hendpoint, Endpoint.methods])
    · rename_i hendpoint
      obtain rfl := Option.some.inj h
      exact hlist (by simp [hendpoint]) (by simp [hendpoint]) (by simp [hendpoint, Endpoint.methods])
    · rename_i hendpoint
      obtain ⟨name, hname, rfl⟩ := Option.map_eq_some_iff.mp h
      exact untouched_objectBranch env c w r socket hlength hendpoint
        (haccepted (by simp [hendpoint])) hname
    · rename_i hendpoint
      obtain ⟨name, -, rfl⟩ := Option.map_eq_some_iff.mp h
      rw [progressBranch, if_neg (other_method r (haccepted (by simp [hendpoint]))
        (hreach (by simp [hendpoint])) (by simp [hendpoint, Endpoint.methods]))]
      exact ⟨rfl, rfl, .inl rfl⟩
    · rename_i hendpoint
      obtain ⟨name, -, rfl⟩ := Option.map_eq_some_iff.mp h
      rw [commitmsgBranch, if_neg (other_method r (haccepted (by simp [hendpoint]))
        (hreach (by simp [hendpoint])) (by simp [hendpoint, Endpoint.methods]))]
      exact ⟨rfl, rfl, .inl rfl⟩
    · rename_i hendpoint
      obtain ⟨name, -, rfl⟩ := Option.map_eq_some_iff.mp h
      have hother := haccepted (by simp [hendpoint])
      have hstep := hreach (by simp [hendpoint])
      rw [stepBranch, if_neg (other_method r hother hstep (by simp [hendpoint, Endpoint.methods])),
        if_neg (other_method r hother hstep (by simp [hendpoint, Endpoint.methods]))]
      exact ⟨rfl, rfl, .inl rfl⟩
    · rename_i hendpoint
      obtain ⟨name, -, rfl⟩ := Option.map_eq_some_iff.mp h
      have hother := haccepted (by simp [hendpoint])
      have hmeta := hreach (by simp [hendpoint])
      rw [userMetaBranch,
        if_neg (other_method r hother hmeta (by simp [hendpoint, Endpoint.methods])),
        if_neg (other_method r hother hmeta (by simp [hendpoint, Endpoint.methods]))]
      exact ⟨rfl, rfl, .inl rfl⟩
    · obtain rfl := Option.some.inj h
      exact ⟨rfl, rfl, .inl rfl⟩

/-- **A request without an effect** has no command run and leaves everything as it was, but for
the new file of an object, which is removed at the end of every request for one. -/
theorem serveHttp_no_effect {b : Branch} (h : serveHttp env c w r socket = some b)
    (hnone : (CtrlRequest.http r).effect env.jsmn c.pv = none) :
    b.finish.cmd = none ∧ (b.finish.world = w ∨ r.endpoint = .object ∧ ∃ name, r.name = some name ∧
      b.finish.world = { w with fs := (w.fs.remove (newPath name)).getD w.fs }) := by
  obtain ⟨hcmd, rfl, htmp⟩ := untouched_serveHttp env c w r socket h hnone
  refine ⟨hcmd, htmp.imp (fun htmp => ?_) fun ⟨hobject, name, hname, htmp⟩ =>
    ⟨hobject, name, hname, ?_⟩⟩
  · rw [Branch.finish, htmp]
  · rw [Branch.finish, htmp]

theorem told_serveHttp {b : Branch} (h : serveHttp env c w r socket = some b)
    (hsome : b.cmd.isSome = true) : b.finish.answers = [.ok] := by
  by_cases hall : r.contentLength ≠ 0 ∧ r.endpoint = .commands ∧
      sameUpToLength r.method (str "POST") = true
  · unfold serveHttp at h
    rw [if_neg hall.1, hall.2.1] at h
    obtain rfl := Option.some.inj h
    exact told_commandsBranch env c w r hsome
  · rw [cmd_serveHttp env c w r socket h, executed_none hall] at hsome
    cases hsome

theorem serveHttp_unanswered {b : Branch} (h : serveHttp env c w r socket = some b)
    (hunanswered : r.Unanswered) : b = .out [] w := by
  obtain ⟨hlength, hendpoint, hmethod⟩ := hunanswered
  unfold serveHttp at h
  rw [if_neg hlength, hendpoint] at h
  obtain ⟨name, -, rfl⟩ := Option.map_eq_some_iff.mp h
  rw [progressBranch, if_neg (by rw [hmethod]; decide)]

end Commands

/-! ## Each request -/

/-- What gets no answer: nothing, a command of the old kind, or the wrong method for a progress. -/
def Arrived.Silent : Arrived → Prop
  | .nothing => True
  | .legacy _ => True
  | .unparsed => False
  | .http r _ => r.Unanswered

/-- A request with a command or one with a branch. -/
def Arrived.request : Arrived → Option CtrlRequest
  | .legacy body => some (.legacy body)
  | .http r _ => some (.http r)
  | _ => none

/-- A request writes behind a block: there is a body, and the name has a length of -1. -/
def Arrived.Overflows : Arrived → Prop
  | .http r _ => r.contentLength ≠ 0 ∧ Overlapping r.line.path
  | _ => False

/-- A request is answered once or is silent, and its command is the one that is executed, which
the client is told if it is told anything. -/
structure ServedOnce (env : CtrlEnv) (c : Connection) (s : Served) : Prop where
  silent : (arrived env c).Silent → s.answers = []
  answered : ¬ (arrived env c).Silent → Answered s.answers
  executed : s.cmd = (arrived env c).request.bind fun r => r.executed env.jsmn c.pv
  told : s.cmd.isSome = true → ¬ (arrived env c).Silent → s.answers = [.ok]

theorem serveHttp_eq_none_iff (env : CtrlEnv) (c : Connection) (w : CtrlWorld) (r : HttpRequest)
    (socket : CStr) :
    serveHttp env c w r socket = none ↔ r.contentLength ≠ 0 ∧ Overlapping r.line.path := by
  have hnames : ∀ {around : CStr × CStr} {serve : CStr → Branch}, r.contentLength ≠ 0 →
      r.endpoint.around = some around → (r.name.map serve = none ↔
        r.contentLength ≠ 0 ∧ Overlapping r.line.path) := by
    intro around serve hlength haround
    rw [Option.map_eq_none_iff, name_eq_none_iff haround]
    exact (and_iff_right hlength).symm
  have hplain : ∀ {b : Branch}, r.endpoint.around = none →
      (some b = none ↔ r.contentLength ≠ 0 ∧ Overlapping r.line.path) := by
    intro b haround
    refine iff_of_false (by simp) fun h => ?_
    obtain ⟨suffix, hsuffix, -⟩ := around_of_overlapping h.2
    rw [haround] at hsuffix
    cases hsuffix
  unfold serveHttp
  by_cases hlength : r.contentLength = 0
  · rw [if_pos hlength]
    exact iff_of_false (by simp) fun h => h.1 hlength
  · rw [if_neg hlength]
    cases hendpoint : r.endpoint with
    | object | progress | commitmsg | step | userMeta =>
      exact hnames hlength (by rw [hendpoint]; rfl)
    | _ => exact hplain (by rw [hendpoint]; rfl)

/-- **Each request is answered once**, or overflows a block. -/
theorem answered_once (env : CtrlEnv) (w : CtrlWorld) (c : Connection) :
    (pvCtrlReadParseRequest env w c = none ↔ (arrived env c).Overflows) ∧
      ∀ s, pvCtrlReadParseRequest env w c = some s → ServedOnce env c s := by
  unfold pvCtrlReadParseRequest
  cases harrived : arrived env c with
  | nothing =>
    refine ⟨iff_of_false (by simp) id, fun s hs => ?_⟩
    cases hs
    refine ⟨fun _ => rfl, fun h => absurd (by rw [harrived]; trivial) h, by rw [harrived]; rfl,
      fun h => absurd h (by simp)⟩
  | legacy body =>
    refine ⟨iff_of_false (by simp) id, fun s hs => ?_⟩
    cases hs
    have hsilent : (arrived env c).Silent := by
      rw [harrived]
      trivial
    exact ⟨fun _ => rfl, fun h => absurd hsilent h, by rw [harrived]; rfl,
      fun _ h => absurd hsilent h⟩
  | unparsed =>
    refine ⟨iff_of_false (by simp) id, fun s hs => ?_⟩
    cases hs
    refine ⟨fun h => ?_, fun _ => ⟨_, rfl, .inl rfl⟩, by rw [harrived]; rfl,
      fun h => absurd h (by simp)⟩
    rw [harrived] at h
    exact h.elim
  | http r socket =>
    refine ⟨Option.map_eq_none_iff.trans (serveHttp_eq_none_iff env c w r socket), fun s hs => ?_⟩
    obtain ⟨b, hb, rfl⟩ := Option.map_eq_some_iff.mp hs
    have hcmd := cmd_serveHttp env c w r socket hb
    have hsilent : (arrived env c).Silent ↔ r.Unanswered := by
      rw [harrived]
      rfl
    have hexecuted : b.finish.cmd = (arrived env c).request.bind fun r => r.executed env.jsmn c.pv := by
      rw [harrived]
      exact hcmd
    refine ⟨fun h => ?_, fun h => ?_, hexecuted, fun hsome _ => ?_⟩
    · rw [serveHttp_unanswered env c w r socket hb (hsilent.mp h)]
      rfl
    · rcases proper_serveHttp env c w r socket hb with hproper | hunanswered
      · exact answered_finish hproper
      · exact absurd (hsilent.mpr hunanswered) h
    · exact told_serveHttp env c w r socket hb hsome

/-- **Each error arrives**: a client that reads what a request is answered gets the status and the
whole body of an error, whatever the request is. -/
theorem error_arrives (env : CtrlEnv) (w : CtrlWorld) (c : Connection) {s : Served}
    (h : pvCtrlReadParseRequest env w c = some s) {code : HttpStatus} {message : CStr}
    (herror : .error code message ∈ s.answers) :
    readResponse (Answer.error code message).bytes
      = some (str "HTTP/1.1 " ++ pvCtrlStringHttpStatusCode code ++ str " ", errorBody message,
          [0]) := by
  have hserved := (answered_once env w c).2 s h
  by_cases hsilent : (arrived env c).Silent
  · rw [hserved.silent hsilent] at herror
    cases herror
  · obtain ⟨a, hfinal, hanswers⟩ := hserved.answered hsilent
    have hmessage : message.length ≤ 64 := by
      have ha : a = .error code message := by
        rcases hanswers with h | h
        · rw [h] at herror
          exact (List.mem_singleton.mp herror).symm
        · rw [h] at herror
          rcases List.mem_cons.mp herror with h | h
          · cases h
          · exact (List.mem_singleton.mp h).symm
      rw [ha] at hfinal
      exact of_decide_eq_true hfinal
    exact readResponse_error code message (pvCtrlWriteResponse_short code hmessage)

/-- What is no request is told so. -/
theorem bad_format_arrives :
    readResponse (Answer.error .badReq (str "Request has bad format")).bytes
      = some (str "HTTP/1.1 400 Bad Request ", errorBody (str "Request has bad format"), [0]) :=
  error_arrives ⟨fun _ => [], tokenizer, fun _ => none, fun _ _ fs => fs⟩
    ⟨⟨.dir [], fun _ => []⟩, ⟨[], ⟨.dir [], fun _ => []⟩⟩, false⟩
    ⟨str "GET", false, ⟨true, false, true⟩, fun _ => [], 0, 0, ⟨true, id, []⟩, true, true, []⟩
    rfl (List.mem_singleton.mpr rfl)

end Pantavisor.Ctrl
