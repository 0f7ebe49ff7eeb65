/-
Pantavisor.Ctrl.Match — how a control request is matched: the operation of a command, the method
and the header that has the length (`ctrl.h`, `ctrl.c`).

Each of them is compared with `strncmp`, up to the length of what came in. So a string that a
name begins with is taken for the name (`matchedExactly_iff`), the empty one for the first
operation and for any header.

The request is what `phr_parse_request` has found in it; it is not in the repository. A header
that continues the line before it has an empty name.
-/
import Pantavisor.Config.ConfigParser
import Pantavisor.Ctrl.Request
import Pantavisor.Json.Tokenizer

namespace Pantavisor.Ctrl

open Pantavisor.Lib Pantavisor.Json Pantavisor.Config

/-! ## Commands -/

/-- `pv_cmd_operation_t`, but for 0 -/
inductive CmdOp where
  | updateMetadata
  | rebootDevice
  | poweroffDevice
  | tryOnce
  | localRun
  | makeFactory
  | runGc
  deriving DecidableEq, Repr

/-- `pv_ctrl_string_cmd_operation` -/
def CmdOp.name : CmdOp → CStr
  | .updateMetadata => str "UPDATE_METADATA"
  | .rebootDevice => str "REBOOT_DEVICE"
  | .poweroffDevice => str "POWEROFF_DEVICE"
  | .tryOnce => str "TRY_ONCE"
  | .localRun => str "LOCAL_RUN"
  | .makeFactory => str "MAKE_FACTORY"
  | .runGc => str "RUN_GC"

/-- The operations in the order of their numbers. -/
def cmdOps : List CmdOp :=
  [.updateMetadata, .rebootDevice, .poweroffDevice, .tryOnce, .localRun, .makeFactory, .runGc]

/-- `strncmp` of an input with a name, up to the length of the input. -/
def sameUpToLength (input name : CStr) : Bool := input.isPrefixOf name

/-- `pv_ctrl_int_cmd_operation` -/
def pvCtrlIntCmdOperation (opString : CStr) : Option CmdOp :=
  cmdOps.find? fun op => sameUpToLength opString op.name

/-- `struct pv_cmd` -/
structure CtrlCmd where
  op : CmdOp
  payload : CStr
  deriving DecidableEq

/-- `pv_ctrl_parse_command`. Where the text has no tokens there is no value in it. -/
def pvCtrlParseCommand (jsmn : Jsmn) (buf : CStr) : Option CtrlCmd := do
  let toks := (jsmn.parse buf).getD []
  let opString ← pvJsonGetValue buf (str "op") toks
  let op ← pvCtrlIntCmdOperation opString
  let payload ← pvJsonGetValue buf (str "payload") toks
  return ⟨op, payload⟩

/-- `pv_ctrl_process_cmd` up to the parsing: the text of a command, where `body` is what the
call of `read` gets. -/
def pvCtrlProcessCmd (body : CStr) (contentLength : Nat) : Option CStr :=
  if 4096 ≤ contentLength then none
  else if body.take contentLength = [] then none
  else some (cstrAt (body.take contentLength) 0)

/-- What the check of a command looks at. -/
structure CtrlState where
  remoteMode : Bool
  update : Bool
  unclaimed : Bool
  deriving DecidableEq

/-- `pv_ctrl_check_command` -/
def pvCtrlCheckCommand (pv : CtrlState) (cmd : CtrlCmd) : Bool :=
  if !pv.remoteMode && cmd.op = .updateMetadata then false
  else if pv.update && (cmd.op = .rebootDevice || cmd.op = .poweroffDevice ||
      cmd.op = .localRun || cmd.op = .makeFactory) then false
  else if !pv.unclaimed && cmd.op = .makeFactory then false
  else true

/-! ## Requests -/

/-- `struct phr_header` -/
structure Header where
  name : CStr
  value : CStr
  deriving DecidableEq

/-- A request as it was parsed, and what a `read` of its body gets. -/
structure HttpRequest where
  line : RequestLine
  method : CStr
  headers : List Header
  body : CStr

/-- The header that `pv_ctrl_get_value_header_int` takes the value of -/
def headerInt (headers : List Header) (name : CStr) : Option Header :=
  headers.find? fun h => sameUpToLength h.name name

/-- `pv_ctrl_get_value_header_int` -/
def pvCtrlGetValueHeaderInt (headers : List Header) (name : CStr) : Nat :=
  sizeOfInt (((headerInt headers name).map fun h => wrapInt (atoi h.value)).getD (-1))

def contentLengthName : CStr := str "Content-Length"

def HttpRequest.contentLength (r : HttpRequest) : Nat :=
  pvCtrlGetValueHeaderInt r.headers contentLengthName

def HttpRequest.endpoint (r : HttpRequest) : Endpoint := endpointOf r.line.mem r.line.path.length

/-- The methods that a branch compares with, one behind the other. -/
def Endpoint.methods : Endpoint → List CStr
  | .commands => [str "POST"]
  | .objectList => [str "GET"]
  | .object => [str "PUT", str "GET"]
  | .stepList => [str "GET"]
  | .progress => [str "GET"]
  | .commitmsg => [str "PUT"]
  | .step => [str "PUT", str "GET"]
  | .userMetaList => [str "GET"]
  | .deviceMetaList => [str "GET"]
  | .buildinfo => [str "GET"]
  | .userMeta => [str "PUT", str "DELETE"]
  | .unknown => []

/-- A request gets to the methods: there is a length that is not 0, and the name of an object
has 64 bytes. -/
def HttpRequest.Reaches (r : HttpRequest) : Prop :=
  r.contentLength ≠ 0 ∧
    (r.endpoint = .object →
      ((r.line.fileName (str "/objects") []).bind Block.text).map List.length = some 64)

instance (r : HttpRequest) : Decidable r.Reaches := inferInstanceAs (Decidable (_ ∧ _))

/-- The method of the branch that `pv_ctrl_read_parse_request` goes on with -/
def HttpRequest.accepted (r : HttpRequest) : Option CStr :=
  if r.Reaches then r.endpoint.methods.find? fun name => sameUpToLength r.method name else none

/-- A request on the control socket: one of the old kind begins with a byte 3 and has nothing
but a command. -/
inductive CtrlRequest where
  | legacy (body : CStr)
  | http (r : HttpRequest)

/-- The text of the command of a request that has one. -/
def CtrlRequest.commandText : CtrlRequest → Option CStr
  | .legacy body => pvCtrlProcessCmd body 4095
  | .http r =>
    if r.endpoint = .commands ∧ r.accepted = some (str "POST") then
      pvCtrlProcessCmd r.body r.contentLength
    else none

/-- The command that is returned to the main loop. -/
def CtrlRequest.executed (jsmn : Jsmn) (pv : CtrlState) (r : CtrlRequest) : Option CtrlCmd :=
  let cmd := r.commandText.bind (pvCtrlParseCommand jsmn)
  match r with
  | .legacy _ => cmd
  | .http _ => cmd.filter (pvCtrlCheckCommand pv)

/-- What a request has the daemon do: a command, or the work of a branch for its method. What
every request for an object does at its end, to remove the new file of that name, is not
counted. -/
inductive Effect where
  | command (cmd : CtrlCmd)
  | work (endpoint : Endpoint) (method : CStr)

/-- `pv_ctrl_read_parse_request`, up to the work of its branches -/
def CtrlRequest.effect (jsmn : Jsmn) (pv : CtrlState) (r : CtrlRequest) : Option Effect :=
  match r with
  | .legacy _ => (r.executed jsmn pv).map .command
  | .http h =>
    h.accepted.bind fun name =>
      if h.endpoint = .commands then (r.executed jsmn pv).map .command
      else some (.work h.endpoint name)

/-! ## What has to match -/

/-- The `op` of the command in a text. -/
def opOf (jsmn : Jsmn) (text : CStr) : Option CStr :=
  pvJsonGetValue text (str "op") ((jsmn.parse text).getD [])

/-- The `payload` of the command in a text. -/
def payloadOf (jsmn : Jsmn) (text : CStr) : Option CStr :=
  pvJsonGetValue text (str "payload") ((jsmn.parse text).getD [])

/-- A command is executed only if its `op` is the name of its operation. -/
def OpsExact (jsmn : Jsmn) (r : CtrlRequest) : Prop :=
  ∀ pv cmd, r.executed jsmn pv = some cmd →
    ∃ text, r.commandText = some text ∧ opOf jsmn text = some cmd.op.name

/-- The length is taken from a header with its name, and a branch does its work only for a
method with its name. -/
def NamesExact (jsmn : Jsmn) (r : HttpRequest) : Prop :=
  (∀ h, headerInt r.headers contentLengthName = some h → h.name = contentLengthName) ∧
    (∀ name, r.accepted = some name → r.method = name) ∧
    (r.method ∉ r.endpoint.methods → ∀ pv, (CtrlRequest.http r).effect jsmn pv = none)

/-- A request is matched exactly. -/
def MatchedExactly (jsmn : Jsmn) (r : CtrlRequest) : Prop :=
  OpsExact jsmn r ∧ ∀ h, r = .http h → NamesExact jsmn h

/-- A string that a name begins with, but not the name. -/
def BeginOf (input name : CStr) : Prop := input <+: name ∧ input ≠ name

instance (input name : CStr) : Decidable (BeginOf input name) :=
  inferInstanceAs (Decidable (_ ∧ _))

/-- No string of a request that is compared is only the beginning of a name. -/
structure Unambiguous (jsmn : Jsmn) (r : CtrlRequest) : Prop where
  /-- the operation of a command with a payload -/
  op : ∀ text op, r.commandText = some text → opOf jsmn text = some op →
    (payloadOf jsmn text).isSome → ∀ o : CmdOp, ¬ BeginOf op o.name
  /-- a header before the first one with the length -/
  header : ∀ h, r = .http h → ∀ before hd behind, h.headers = before ++ hd :: behind →
    BeginOf hd.name contentLengthName → contentLengthName ∈ before.map Header.name
  /-- the method of a request that gets to be compared -/
  method : ∀ h, r = .http h → h.Reaches → ∀ name ∈ h.endpoint.methods, ¬ BeginOf h.method name

/-! ## Operations -/

theorem mem_cmdOps (op : CmdOp) : op ∈ cmdOps := by
  cases op <;> decide

/-- No name of an operation begins another. -/
theorem cmdOp_of_beginning {o o' : CmdOp} (h : o.name <+: o'.name) : o = o' := by
  have hall : ∀ a ∈ cmdOps, ∀ b ∈ cmdOps, a.name.isPrefixOf b.name = true → a = b := by decide
  exact hall o (mem_cmdOps o) o' (mem_cmdOps o') (List.isPrefixOf_iff_prefix.mpr h)

/-- **An operation is found** for the strings that its name begins with, where no name before it
does. -/
theorem pvCtrlIntCmdOperation_eq_some {s : CStr} {op : CmdOp}
    (h : pvCtrlIntCmdOperation s = some op) : s <+: op.name := by
  have hsame : sameUpToLength s op.name = true := by
    rw [pvCtrlIntCmdOperation] at h
    simpa using List.find?_some h
  exact List.isPrefixOf_iff_prefix.mp hsame

theorem pvCtrlIntCmdOperation_isSome {s : CStr} {op : CmdOp} (h : s <+: op.name) :
    ∃ op', pvCtrlIntCmdOperation s = some op' := by
  refine Option.isSome_iff_exists.mp (List.find?_isSome.mpr ⟨op, mem_cmdOps op, ?_⟩)
  exact List.isPrefixOf_iff_prefix.mpr h

/-- A full name is taken for its operation. -/
theorem pvCtrlIntCmdOperation_name (op : CmdOp) : pvCtrlIntCmdOperation op.name = some op := by
  cases op <;> decide

/-- There is a state in which every command is let through. -/
theorem checked_somewhere (cmd : CtrlCmd) : pvCtrlCheckCommand ⟨true, false, true⟩ cmd = true := by
  simp [pvCtrlCheckCommand]

theorem pvCtrlParseCommand_eq_some_iff {jsmn : Jsmn} {text : CStr} {cmd : CtrlCmd} :
    pvCtrlParseCommand jsmn text = some cmd ↔
      ∃ op, opOf jsmn text = some op ∧ pvCtrlIntCmdOperation op = some cmd.op ∧
        payloadOf jsmn text = some cmd.payload := by
  obtain ⟨op, payload⟩ := cmd
  rw [pvCtrlParseCommand, opOf, payloadOf]
  cases pvJsonGetValue text (str "op") ((jsmn.parse text).getD []) with
  | none => simp
  | some s =>
    cases hop : pvCtrlIntCmdOperation s with
    | none => simp [hop]
    | some o =>
      cases pvJsonGetValue text (str "payload") ((jsmn.parse text).getD []) with
      | none => simp
      | some p => simp [hop]

theorem opsExact_iff {jsmn : Jsmn} {r : CtrlRequest} :
    OpsExact jsmn r ↔ ∀ text op, r.commandText = some text → opOf jsmn text = some op →
      (payloadOf jsmn text).isSome → ∀ o : CmdOp, ¬ BeginOf op o.name := by
  constructor
  · intro h text op htext hop hpayload o hbegin
    obtain ⟨o', ho'⟩ := pvCtrlIntCmdOperation_isSome hbegin.1
    obtain ⟨payload, hpayload⟩ := Option.isSome_iff_exists.mp hpayload
    have hcmd : pvCtrlParseCommand jsmn text = some ⟨o', payload⟩ :=
      pvCtrlParseCommand_eq_some_iff.mpr ⟨op, hop, ho', hpayload⟩
    have hexec : r.executed jsmn ⟨true, false, true⟩ = some ⟨o', payload⟩ := by
      cases r with
      | legacy body =>
        show (CtrlRequest.legacy body).commandText.bind _ = _
        rw [htext]
        exact hcmd
      | http r =>
        show ((CtrlRequest.http r).commandText.bind _).filter _ = _
        rw [htext]
        exact Option.filter_eq_some_iff.mpr ⟨hcmd, checked_somewhere _⟩
    obtain ⟨text', htext', hop'⟩ := h _ _ hexec
    obtain rfl := Option.some.inj (htext.symm.trans htext')
    obtain rfl := Option.some.inj (hop.symm.trans hop')
    -- a full name is not the beginning of another one
    exact hbegin.2 (congrArg CmdOp.name (cmdOp_of_beginning hbegin.1))
  · intro h pv cmd hexec
    have hparsed : r.commandText.bind (pvCtrlParseCommand jsmn) = some cmd := by
      cases r with
      | legacy body => exact hexec
      | http r => exact (Option.filter_eq_some_iff.mp hexec).1
    obtain ⟨text, htext, hcmd⟩ := Option.bind_eq_some_iff.mp hparsed
    obtain ⟨op, hop, hfound, hpayload⟩ := pvCtrlParseCommand_eq_some_iff.mp hcmd
    have hnot := h text op htext hop (by rw [hpayload]; rfl) cmd.op
    refine ⟨text, htext, ?_⟩
    rw [hop]
    exact congrArg some (by_contra fun hne => hnot ⟨pvCtrlIntCmdOperation_eq_some hfound, hne⟩)

/-! ## Names -/

theorem headerExact_iff {headers : List Header} {name : CStr} :
    (∀ h, headerInt headers name = some h → h.name = name) ↔
      ∀ before hd behind, headers = before ++ hd :: behind → BeginOf hd.name name →
        name ∈ before.map Header.name := by
  constructor
  · intro h before hd behind hsplit hbegin
    by_contra hnone
    -- the first header that is taken is this one or one before it
    have hfirst : ∃ h', headerInt (before ++ [hd]) name = some h' := by
      refine Option.isSome_iff_exists.mp (List.find?_isSome.mpr ⟨hd, by simp, ?_⟩)
      exact List.isPrefixOf_iff_prefix.mpr hbegin.1
    obtain ⟨h', hfound⟩ := hfirst
    have hfull : headerInt headers name = some h' := by
      rw [hsplit, List.append_cons, headerInt, List.find?_append, ← headerInt, hfound,
        Option.some_or]
    have hname := h h' hfull
    rcases List.mem_append.mp (List.mem_of_find?_eq_some hfound) with hmem | hmem
    · exact hnone (List.mem_map.mpr ⟨h', hmem, hname⟩)
    · obtain rfl := List.mem_singleton.mp hmem
      exact hbegin.2 hname
  · intro h hd hfound
    by_contra hne
    obtain ⟨htaken, before, behind, hsplit, hbefore⟩ := List.find?_eq_some_iff_append.mp hfound
    have hmem := h before hd behind hsplit ⟨List.isPrefixOf_iff_prefix.mp htaken, hne⟩
    obtain ⟨h', hh', hname⟩ := List.mem_map.mp hmem
    have hnot := hbefore h' hh'
    have htrue : sameUpToLength h'.name name = true := by
      rw [hname]
      exact List.isPrefixOf_iff_prefix.mpr (List.prefix_refl name)
    rw [htrue] at hnot
    cases hnot

theorem methods_apart {e : Endpoint} {a b : CStr} (ha : a ∈ e.methods) (hb : b ∈ e.methods)
    (h : a <+: b) : a = b := by
  have hall : ∀ a ∈ e.methods, ∀ b ∈ e.methods, a.isPrefixOf b = true → a = b := by
    cases e <;> decide
  exact hall a ha b hb (List.isPrefixOf_iff_prefix.mpr h)

theorem methodExact_iff {r : HttpRequest} :
    (∀ name, r.accepted = some name → r.method = name) ↔
      (r.Reaches → ∀ name ∈ r.endpoint.methods, ¬ BeginOf r.method name) := by
  constructor
  · intro h hreach name hname hbegin
    obtain ⟨name', hfound⟩ : ∃ name', r.accepted = some name' := by
      rw [HttpRequest.accepted, if_pos hreach]
      refine Option.isSome_iff_exists.mp (List.find?_isSome.mpr ⟨name, hname, ?_⟩)
      exact List.isPrefixOf_iff_prefix.mpr hbegin.1
    have hsame := h name' hfound
    rw [HttpRequest.accepted, if_pos hreach] at hfound
    exact hbegin.2 (methods_apart (hsame ▸ List.mem_of_find?_eq_some hfound) hname hbegin.1)
  · intro h name hfound
    rw [HttpRequest.accepted] at hfound
    split at hfound
    · rename_i hreach
      by_contra hne
      exact h hreach name (List.mem_of_find?_eq_some hfound)
        ⟨List.isPrefixOf_iff_prefix.mp (List.find?_some hfound), hne⟩
    · cases hfound

/-- A method that is not accepted has no effect. -/
theorem effect_of_not_accepted {jsmn : Jsmn} {pv : CtrlState} {r : HttpRequest}
    (h : r.accepted = none) : (CtrlRequest.http r).effect jsmn pv = none := by
  rw [CtrlRequest.effect, h]
  rfl

/-- **A request is matched exactly** just if no string of it that is compared is only the
beginning of a name. -/
theorem matchedExactly_iff (jsmn : Jsmn) (r : CtrlRequest) :
    MatchedExactly jsmn r ↔ Unambiguous jsmn r := by
  constructor
  · rintro ⟨hops, hnames⟩
    exact ⟨opsExact_iff.mp hops, fun h hr => headerExact_iff.mp (hnames h hr).1,
      fun h hr => methodExact_iff.mp (hnames h hr).2.1⟩
  · intro h
    refine ⟨opsExact_iff.mpr h.op, fun hr heq => ?_⟩
    have hmethod := methodExact_iff.mpr (h.method hr heq)
    refine ⟨headerExact_iff.mpr (h.header hr heq), hmethod, fun hnot pv =>
      effect_of_not_accepted ?_⟩
    cases haccepted : hr.accepted with
    | none => rfl
    | some name =>
      have hname : name ∈ hr.endpoint.methods := by
        rw [HttpRequest.accepted] at haccepted
        split at haccepted
        · exact List.mem_of_find?_eq_some haccepted
        · cases haccepted
      exact absurd (hmethod name haccepted ▸ hname) hnot

/-- The letter R is taken for the name of the operation that restarts the device. -/
theorem one_letter_reboots :
    ¬ MatchedExactly tokenizer (.legacy (str "\x7b\"op\":\"R\",\"payload\":\"\"\x7d")) := by
  intro h
  have hexec : (CtrlRequest.legacy (str "\x7b\"op\":\"R\",\"payload\":\"\"\x7d")).executed
      tokenizer ⟨true, false, true⟩ = some ⟨.rebootDevice, []⟩ := by decide +kernel
  obtain ⟨text, htext, hop⟩ := h.1 _ _ hexec
  have htext' : (CtrlRequest.legacy (str "\x7b\"op\":\"R\",\"payload\":\"\"\x7d")).commandText
      = some (str "\x7b\"op\":\"R\",\"payload\":\"\"\x7d") := by decide +kernel
  obtain rfl := Option.some.inj (htext'.symm.trans htext)
  exact absurd hop (by decide +kernel)

end Pantavisor.Ctrl
