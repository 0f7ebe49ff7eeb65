/-
Pantavisor.PhLogger.Record — a message on its way from `pvlogger` to `ph_logger`.

`pv_log` cuts a message into records: `ph_logger_write_handler_v1` puts the level, the
platform and the source in front of each, as strings with their terminators, and as much
of the message as there is room for. `ph_logger` reads a record into one of its log
buffers, and `ph_logger_read_handler_v1` finds the parts again.

A length that is negative, or that leads out of a buffer, is a fault here (`none`). The
room that is left is a signed number, and `written` is a running total when it is taken
off after each of the three strings, so the level is taken off three times and the
platform twice (`availLen`).
-/
import Pantavisor.Lib.Decimal
import Mathlib.Data.List.Forall2

namespace Pantavisor.PhLogger

open Pantavisor.Lib

/-! ## Buffers -/

/-- `memcpy` of some bytes to an offset of a buffer. -/
def copyAt (buffer : CStr) (offset : Nat) (data : CStr) : Option CStr :=
  if offset + data.length ≤ buffer.length then
    some (buffer.take offset ++ data ++ buffer.drop (offset + data.length))
  else none

/-- `snprintf` of a text to an offset of a buffer, with what room the caller says there is:
a negative `int` is a length without bound. -/
def snprintfAt (buffer : CStr) (offset : Nat) (avail : Int) (text : CStr) : Option CStr :=
  if avail < 0 then none
  else if avail = 0 then some buffer
  else copyAt buffer offset (text.take (avail.toNat - 1) ++ [0])

/-- `strlen` at an offset of a buffer. -/
def strlenAt (buffer : CStr) (offset : Nat) : Option Nat :=
  if (0 : UInt8) ∈ buffer.drop offset then some (cstrAt buffer offset).length else none

/-! ## A record -/

/-- `struct ph_logger_msg` -/
structure PhLoggerMsg where
  version : Int
  len : Int
  buffer : CStr
  deriving DecidableEq

/-- `PH_LOGGER_V1` -/
def phLoggerV1 : Int := 0

/-- `PH_LOGGER_MAX_HANDLERS` -/
def phLoggerMaxHandlers : Int := 1

/-- `sizeof(struct ph_logger_msg)` -/
def msgSize : Nat := 8

/-- The size of both of `pv_log`'s buffers: `PV_LOG_BUF_SIZE` and half of it. -/
def bufSize : Nat := 4096 + 4096 / 2

/-- The room in the buffer of a record. -/
def recordSize : Nat := bufSize - msgSize

/-- `ph_logger_write_handler_v1`: how much was copied, and the record. -/
def phLoggerWriteHandlerV1 (msg : PhLoggerMsg) (buf : CStr) (level : Int) (platform source : CStr)
    (dataLen : Int) : Option (Int × PhLoggerMsg) := do
  let availLen := msg.len
  let text := intText level ++ [0]
  let buffer ← snprintfAt msg.buffer 0 availLen text
  let written := text.length
  let availLen := availLen - written
  let text := platform ++ [0]
  let buffer ← snprintfAt buffer written availLen text
  let written := written + text.length
  let availLen := availLen - written
  let text := source ++ [0]
  let buffer ← snprintfAt buffer written availLen text
  let written := written + text.length
  let availLen := availLen - written
  let toCopy := if dataLen ≤ availLen then dataLen else availLen
  if toCopy < 0 ∨ buf.length < toCopy then none
  else
    let buffer ← copyAt buffer written (buf.take toCopy.toNat)
    some (toCopy, { msg with len := written + toCopy, buffer := buffer })

/-- `ph_logger_write_bytes` -/
def phLoggerWriteBytes (msg : PhLoggerMsg) (buf : CStr) (level : Int) (platform source : CStr)
    (dataLen : Int) : Option (Int × PhLoggerMsg) :=
  if msg.version < phLoggerV1 ∨ phLoggerMaxHandlers ≤ msg.version then some (0, msg)
  else phLoggerWriteHandlerV1 msg buf level platform source dataLen

/-! ## The sender -/

/-- What `pvctl_write` is given of the buffer: `len` bytes behind the two numbers. -/
def PhLoggerMsg.sent (msg : PhLoggerMsg) : PhLoggerMsg :=
  { msg with buffer := msg.buffer.take msg.len.toNat }

/-- The loop of `pv_log`, for a number of rounds: the records, and what is left of the
message. `buffer` is what the record buffer holds before. -/
def pvLogLoop (level : Int) (platform source : CStr) :
    Nat → CStr → CStr → Option (List PhLoggerMsg × CStr)
  | 0, _, rest => some ([], rest)
  | rounds + 1, buffer, rest =>
    if rest.length = 0 then some ([], rest)
    else
      (phLoggerWriteBytes ⟨phLoggerV1, recordSize, buffer⟩ rest level platform source
        rest.length).bind fun r =>
        if r.1 = 0 then some ([r.2.sent], rest)
        else
          (pvLogLoop level platform source rounds r.2.buffer (rest.drop r.1.toNat)).map fun t =>
            (r.2.sent :: t.1, t.2)

/-- `pv_log`. A round takes at least one byte of what `vsnprintf` made, or it is the last. -/
def pvLog (buffer : CStr) (level : Int) (platform source msg : CStr) :
    Option (List PhLoggerMsg × CStr) :=
  let formatted := cstrAt (msg.take (bufSize - 1)) 0 ++ [0]
  pvLogLoop level platform source formatted.length buffer formatted

/-! ## The receiver -/

/-- A log buffer after `ph_logger_read_write` read a record into it. `logBuf` is what it
had behind the first two numbers. -/
def PhLoggerMsg.received (logBuf : CStr) (msg : PhLoggerMsg) : PhLoggerMsg :=
  { msg with buffer := msg.buffer.take logBuf.length ++ logBuf.drop msg.buffer.length }

/-- What `ph_logger_read_handler_v1` finds. -/
structure LogRecord where
  level : Int
  platform : CStr
  source : CStr
  data : CStr
  deriving DecidableEq

/-- `ph_logger_read_handler_v1` -/
def phLoggerReadHandlerV1 (msg : PhLoggerMsg) : Option LogRecord := do
  let len ← strlenAt msg.buffer 0
  let level := atoi (cstrAt msg.buffer 0)
  let platform := len + 1
  let len ← strlenAt msg.buffer platform
  let source := platform + len + 1
  let len ← strlenAt msg.buffer source
  let data := source + len + 1
  let len := msg.len - data
  if len < 0 ∨ msg.buffer.length < data + len then none
  else
    some ⟨level, cstrAt msg.buffer platform, cstrAt msg.buffer source,
      (msg.buffer.drop data).take len.toNat⟩

/-- `ph_logger_read_bytes`. Nothing is read from a record of another version. -/
def phLoggerReadBytes (msg : PhLoggerMsg) : Option LogRecord :=
  if msg.version < phLoggerV1 ∨ phLoggerMaxHandlers ≤ msg.version then none
  else phLoggerReadHandlerV1 msg

/-! ## The round trip -/

/-- The header of a record. -/
def header (level : Int) (platform source : CStr) : CStr :=
  intText level ++ [0] ++ platform ++ [0] ++ source ++ [0]

/-- The room that `ph_logger_write_handler_v1` finds behind the header in a buffer. -/
def availLen (size : Nat) (level : Int) (platform source : CStr) : Int :=
  size - 3 * ((intText level).length + 1) - 2 * (platform.length + 1) - (source.length + 1)

/-- A message is sent in records that are read as what they say, and its parts make up the
message with its terminator. `size` is that of the log buffers. -/
def RoundTrip (buffer : CStr) (level : Int) (platform source msg : CStr) (size : Nat) : Prop :=
  ∃ records parts, pvLog buffer level platform source msg = some (records, []) ∧
    List.Forall₂ (fun r part => ∀ logBuf : CStr, logBuf.length = size - msgSize →
      phLoggerReadBytes (r.received logBuf) = some ⟨level, platform, source, part⟩) records parts ∧
    parts.flatten = msg ++ [0]

/-! ## Writing into a buffer -/

theorem copyAt_append {pre rest data : CStr} (h : data.length ≤ rest.length) :
    copyAt (pre ++ rest) pre.length data = some (pre ++ data ++ rest.drop data.length) := by
  rw [copyAt, if_pos (by simpa using h), List.take_left, List.drop_append]
  simp

/-- A text that there is room for is written with a terminator behind it. -/
theorem snprintfAt_append {pre rest text : CStr} {avail : Int} (hroom : text.length < avail)
    (havail : avail ≤ rest.length) :
    ∃ rest', snprintfAt (pre ++ rest) pre.length avail text = some (pre ++ text ++ rest') ∧
      rest'.length + text.length = rest.length := by
  have htake : text.take (avail.toNat - 1) = text := List.take_of_length_le (by omega)
  refine ⟨0 :: rest.drop (text.length + 1), ?_, ?_⟩
  · rw [snprintfAt, if_neg (by omega), if_neg (by omega), htake,
      copyAt_append (by simp only [List.length_append, List.length_singleton]; omega)]
    simp
  · simp only [List.length_cons, List.length_drop]
    omega

variable {size : Nat} {level : Int} {platform source : CStr}

theorem room_left (size : Nat) (level : Int) (platform source : CStr) :
    (size : Int) - ((intText level ++ [0]).length : Nat)
      - ((intText level ++ [0]).length + (platform ++ [0]).length : Nat)
      - ((intText level ++ [0]).length + (platform ++ [0]).length + (source ++ [0]).length : Nat)
        = availLen size level platform source := by
  simp only [availLen, List.length_append, List.length_singleton]
  omega

/-- What is copied is what there is, or what there is room for. -/
theorem writeHandler_copied {buffer buf : CStr} {dataLen : Int} {r : Int × PhLoggerMsg}
    (h : phLoggerWriteHandlerV1 ⟨phLoggerV1, size, buffer⟩ buf level platform source dataLen
      = some r) :
    r.1 ≤ availLen size level platform source ∧ 0 ≤ r.1 := by
  simp only [phLoggerWriteHandlerV1, Option.bind_eq_bind, Option.bind_eq_some_iff] at h
  obtain ⟨b₁, -, b₂, -, b₃, -, h⟩ := h
  rw [← Int.min_def, room_left] at h
  split at h
  · cases h
  · rename_i hok
    obtain ⟨b, -, hr⟩ := Option.bind_eq_some_iff.mp h
    cases hr
    exact ⟨Int.min_le_right .., by omega⟩

/-- A record that there is room for. -/
theorem writeHandler_spec {buffer buf : CStr} (hbuffer : buffer.length = size)
    (hroom : 1 ≤ availLen size level platform source) :
    let n := min buf.length (availLen size level platform source).toNat
    ∃ rest', phLoggerWriteHandlerV1 ⟨phLoggerV1, size, buffer⟩ buf level platform source buf.length
      = some ((n : Int), ⟨phLoggerV1, ((header level platform source).length + n : Nat),
          header level platform source ++ buf.take n ++ rest'⟩) ∧
      (header level platform source).length + n + rest'.length = size := by
  intro n
  have hroom' := hroom
  simp only [availLen] at hroom'
  obtain ⟨rest₁, h₁, hlen₁⟩ := @snprintfAt_append [] buffer (intText level ++ [0]) size
    (by simp only [List.length_append, List.length_singleton]; omega) (by omega)
  obtain ⟨rest₂, h₂, hlen₂⟩ := @snprintfAt_append (intText level ++ [0]) rest₁ (platform ++ [0])
    (size - ((intText level ++ [0]).length : Nat))
    (by simp only [List.length_append, List.length_singleton] at *; omega) (by omega)
  obtain ⟨rest₃, h₃, hlen₃⟩ := @snprintfAt_append (intText level ++ [0] ++ (platform ++ [0])) rest₂
    (source ++ [0])
    (size - ((intText level ++ [0]).length : Nat)
      - ((intText level ++ [0]).length + (platform ++ [0]).length : Nat))
    (by simp only [List.length_append, List.length_singleton] at *; omega)
    (by simp only [List.length_append, List.length_singleton] at *; omega)
  have hheader : intText level ++ [0] ++ (platform ++ [0]) ++ (source ++ [0])
      = header level platform source := by simp [header]
  have hlength : (intText level ++ [0]).length + (platform ++ [0]).length + (source ++ [0]).length
      = (header level platform source).length := by
    simp only [header, List.length_append]
    omega
  have hn : min (buf.length : Int) (availLen size level platform source) = n := by
    simp only [n]
    omega
  have htaken : (buf.take n).length = n := by simp [n]
  have hfits : n ≤ rest₃.length := by
    have hle : (n : Int) ≤ availLen size level platform source := by omega
    simp only [availLen, List.length_append, List.length_singleton] at hle hlen₁ hlen₂ hlen₃
    omega
  rw [List.nil_append, List.nil_append, List.length_nil] at h₁
  rw [List.length_append, hheader] at h₃
  refine ⟨rest₃.drop n, ?_, ?_⟩
  · simp only [phLoggerWriteHandlerV1, Option.bind_eq_bind]
    rw [h₁, Option.bind_some, h₂, Option.bind_some, h₃, Option.bind_some, ← Int.min_def, room_left,
      hn, if_neg (by omega), hlength, Int.toNat_natCast, copyAt_append (by rw [htaken]; exact hfits),
      htaken]
    rfl
  · rw [List.length_drop]
    omega

/-! ## Reading a record -/

theorem strlenAt_append {pre s rest : CStr} (h : NulFree s) :
    strlenAt (pre ++ (s ++ 0 :: rest)) pre.length = some s.length := by
  rw [strlenAt, List.drop_left, if_pos (by simp), cstrAt_append h]

theorem version_handled : ¬ (phLoggerV1 < phLoggerV1 ∨ phLoggerMaxHandlers ≤ phLoggerV1) := by
  decide

/-- A record is read as what it says, whatever is behind it in the buffer. -/
theorem read_header (hplatform : NulFree platform) (hsource : NulFree source) (part rest : CStr) :
    phLoggerReadBytes ⟨phLoggerV1, ((header level platform source).length + part.length : Nat),
      header level platform source ++ part ++ rest⟩ = some ⟨level, platform, source, part⟩ := by
  have hbuffer₁ : header level platform source ++ part ++ rest
      = [] ++ (intText level ++ 0 :: (platform ++ 0 :: (source ++ 0 :: (part ++ rest)))) := by
    simp [header]
  have hbuffer₂ : header level platform source ++ part ++ rest
      = (intText level ++ [0]) ++ (platform ++ 0 :: (source ++ 0 :: (part ++ rest))) := by
    simp [header]
  have hbuffer₃ : header level platform source ++ part ++ rest
      = (intText level ++ [0] ++ platform ++ [0]) ++ (source ++ 0 :: (part ++ rest)) := by
    simp [header]
  have hlen₂ : (intText level).length + 1 = (intText level ++ [0]).length := by simp
  have hlen₃ : (intText level ++ [0]).length + platform.length + 1
      = (intText level ++ [0] ++ platform ++ [0]).length := by simp; omega
  have hlen₄ : (intText level ++ [0] ++ platform ++ [0]).length + source.length + 1
      = (header level platform source).length := by simp [header]; omega
  have hcstr₁ : cstrAt (header level platform source ++ part ++ rest) 0 = intText level := by
    rw [hbuffer₁]
    exact cstrAt_append (intText_noNul level)
  have hstrlen₁ : strlenAt (header level platform source ++ part ++ rest) 0
      = some (intText level).length := by
    rw [hbuffer₁]
    exact strlenAt_append (intText_noNul level)
  have hcstr₂ : cstrAt (header level platform source ++ part ++ rest) (intText level ++ [0]).length
      = platform := by
    rw [hbuffer₂]
    exact cstrAt_append hplatform
  have hstrlen₂ : strlenAt (header level platform source ++ part ++ rest)
      (intText level ++ [0]).length = some platform.length := by
    rw [hbuffer₂]
    exact strlenAt_append hplatform
  have hcstr₃ : cstrAt (header level platform source ++ part ++ rest)
      (intText level ++ [0] ++ platform ++ [0]).length = source := by
    rw [hbuffer₃]
    exact cstrAt_append hsource
  have hstrlen₃ : strlenAt (header level platform source ++ part ++ rest)
      (intText level ++ [0] ++ platform ++ [0]).length = some source.length := by
    rw [hbuffer₃]
    exact strlenAt_append hsource
  have hlevel : atoi (intText level) = level := by
    simpa using @atoi_intText level [] (by simp)
  have hdata : (((header level platform source).length + part.length : Nat) : Int)
      - ((header level platform source).length : Nat) = (part.length : Nat) := by omega
  rw [phLoggerReadBytes, if_neg version_handled, phLoggerReadHandlerV1]
  simp only [Option.bind_eq_bind]
  rw [hstrlen₁, Option.bind_some, hlen₂, hstrlen₂, Option.bind_some, hlen₃, hstrlen₃,
    Option.bind_some, hlen₄, hdata, hcstr₁, hlevel, hcstr₂, hcstr₃,
    if_neg (by simp only [List.length_append]; omega), List.append_assoc, List.drop_left,
    Int.toNat_natCast, List.take_left]

/-- Nothing is read from a record that says more than the buffer has. -/
theorem len_of_read {msg : PhLoggerMsg} {d : LogRecord} (h : phLoggerReadBytes msg = some d) :
    msg.len ≤ msg.buffer.length := by
  rw [phLoggerReadBytes] at h
  split at h
  · cases h
  · simp only [phLoggerReadHandlerV1, Option.bind_eq_bind, Option.bind_eq_some_iff] at h
    obtain ⟨n₁, -, n₂, -, n₃, -, h⟩ := h
    split at h
    · cases h
    · omega

/-- A record with a part of a message. -/
def recordOf (level : Int) (platform source part : CStr) : PhLoggerMsg :=
  ⟨phLoggerV1, ((header level platform source).length + part.length : Nat),
    header level platform source ++ part⟩

/-- A record is read in `ph_logger`, if it fits into the log buffer. -/
theorem read_received_iff (hplatform : NulFree platform) (hsource : NulFree source)
    (part logBuf : CStr) :
    phLoggerReadBytes ((recordOf level platform source part).received logBuf)
        = some ⟨level, platform, source, part⟩ ↔
      (header level platform source).length + part.length ≤ logBuf.length := by
  constructor
  · intro h
    by_contra hlong
    have hlen := len_of_read h
    simp only [PhLoggerMsg.received, recordOf, List.length_append, List.length_take,
      List.length_drop] at hlen
    omega
  · intro h
    rw [PhLoggerMsg.received, recordOf]
    dsimp only
    rw [List.take_of_length_le (by simpa using h)]
    exact read_header hplatform hsource part _

/-! ## The loop of the sender -/

/-- A round that there is room for. -/
theorem pvLogLoop_succ {buffer rest : CStr} (hbuffer : buffer.length = recordSize)
    (hroom : 1 ≤ availLen recordSize level platform source) (hrest : rest ≠ []) (rounds : Nat) :
    let n := min rest.length (availLen recordSize level platform source).toNat
    ∃ buffer' : CStr, buffer'.length = recordSize ∧
      pvLogLoop level platform source (rounds + 1) buffer rest
        = (pvLogLoop level platform source rounds buffer' (rest.drop n)).map fun t =>
            (recordOf level platform source (rest.take n) :: t.1, t.2) := by
  intro n
  have hpos := List.length_pos_of_ne_nil hrest
  obtain ⟨rest', hwrite, hlen⟩ := @writeHandler_spec _ _ _ _ buffer rest hbuffer hroom
  have htaken : (rest.take n).length = n := by simp [n]
  refine ⟨header level platform source ++ rest.take n ++ rest', ?_, ?_⟩
  · rw [List.length_append, List.length_append, htaken]
    exact hlen
  · rw [pvLogLoop, if_neg (by omega), phLoggerWriteBytes, if_neg version_handled, hwrite,
      Option.bind_some, if_neg (by omega), Int.toNat_natCast]
    have hsent : (⟨phLoggerV1, ((header level platform source).length + n : Nat),
        header level platform source ++ rest.take n ++ rest'⟩ : PhLoggerMsg).sent
          = recordOf level platform source (rest.take n) := by
      rw [PhLoggerMsg.sent, recordOf, htaken, Int.toNat_natCast,
        List.take_left' (by rw [List.length_append, htaken])]
    rw [hsent]

/-- The whole message is sent, in parts that are as long as there is room for. -/
theorem pvLogLoop_sends (hroom : 1 ≤ availLen recordSize level platform source) (rounds : Nat) :
    ∀ {buffer rest : CStr}, buffer.length = recordSize → rest.length ≤ rounds →
    ∃ parts : List CStr, pvLogLoop level platform source rounds buffer rest
        = some (parts.map (recordOf level platform source), []) ∧
      parts.flatten = rest ∧
      (∀ part ∈ parts,
        part.length ≤ min rest.length (availLen recordSize level platform source).toNat) ∧
      (rest ≠ [] → rest.take
        (min rest.length (availLen recordSize level platform source).toNat) ∈ parts) := by
  induction rounds with
  | zero =>
    intro buffer rest hbuffer hrest
    obtain rfl := List.length_eq_zero_iff.mp (Nat.le_zero.mp hrest)
    exact ⟨[], rfl, rfl, by simp, fun h => absurd rfl h⟩
  | succ rounds ih =>
    intro buffer rest hbuffer hrest
    by_cases hnil : rest = []
    · subst hnil
      exact ⟨[], rfl, rfl, by simp, fun h => absurd rfl h⟩
    · obtain ⟨buffer', hbuffer', hloop⟩ := pvLogLoop_succ hbuffer hroom hnil rounds
      have hpos := List.length_pos_of_ne_nil hnil
      obtain ⟨parts, hparts, hflat, hshort, -⟩ := @ih buffer'
        (rest.drop (min rest.length (availLen recordSize level platform source).toNat)) hbuffer'
        (by rw [List.length_drop]; omega)
      rw [hparts] at hloop
      refine ⟨_ :: parts, hloop, ?_, ?_, fun _ => ?_⟩
      · rw [List.flatten_cons, hflat, List.take_append_drop]
      · intro part hpart
        rcases List.mem_cons.mp hpart with rfl | hpart
        · rw [List.length_take]
          omega
        · have := hshort part hpart
          rw [List.length_drop] at this
          omega
      · exact List.mem_cons_self ..

/-- If there is no room, the loop ends with what it had. -/
theorem pvLogLoop_stops {buffer rest rest' : CStr} {records : List PhLoggerMsg}
    (hroom : availLen recordSize level platform source ≤ 0) (hrest : rest ≠ []) (rounds : Nat)
    (h : pvLogLoop level platform source (rounds + 1) buffer rest = some (records, rest')) :
    rest' = rest := by
  rw [pvLogLoop, if_neg (by simpa using hrest)] at h
  obtain ⟨r, hr, h⟩ := Option.bind_eq_some_iff.mp h
  rw [phLoggerWriteBytes, if_neg version_handled] at hr
  obtain ⟨hle, hnonneg⟩ := writeHandler_copied hr
  rw [if_pos (by omega)] at h
  exact (congrArg Prod.snd (Option.some.inj h)).symm

/-! ## The round trip -/

variable {buffer msg : CStr} {logSize : Nat}

theorem formatted_eq (hmsg : msg.length < bufSize) (hnul : NulFree msg) :
    cstrAt (msg.take (bufSize - 1)) 0 ++ [0] = msg ++ [0] := by
  rw [List.take_of_length_le (by omega), cstrAt_zero hnul]

/-- A message that is sent whole had room behind the header. -/
theorem RoundTrip.room (hmsg : msg.length < bufSize) (hnul : NulFree msg)
    (h : RoundTrip buffer level platform source msg logSize) :
    1 ≤ availLen recordSize level platform source := by
  obtain ⟨records, parts, hlog, -⟩ := h
  by_contra hroom
  rw [pvLog, formatted_eq hmsg hnul, List.length_append, List.length_singleton] at hlog
  have hstops := pvLogLoop_stops (by omega) (by simp) _ hlog
  simp at hstops

/-- Where there is room, `pv_log` sends the whole message. -/
theorem pvLog_sends (hbuffer : buffer.length = recordSize) (hmsg : msg.length < bufSize)
    (hnul : NulFree msg) (hroom : 1 ≤ availLen recordSize level platform source) :
    ∃ parts : List CStr, pvLog buffer level platform source msg
        = some (parts.map (recordOf level platform source), []) ∧
      parts.flatten = msg ++ [0] ∧
      (∀ part ∈ parts,
        part.length ≤ min (msg.length + 1) (availLen recordSize level platform source).toNat) ∧
      ∃ part ∈ parts,
        part.length = min (msg.length + 1) (availLen recordSize level platform source).toNat := by
  obtain ⟨parts, hlog, hflat, hshort, hfirst⟩ := pvLogLoop_sends hroom (msg ++ [0]).length hbuffer
    (Nat.le_refl _)
  rw [List.length_append, List.length_singleton] at hshort hfirst
  refine ⟨parts, ?_, hflat, hshort, _, hfirst (by simp), ?_⟩
  · rw [pvLog, formatted_eq hmsg hnul]
    exact hlog
  · rw [List.length_take, List.length_append, List.length_singleton]
    omega

/-- Every record that is read fits into the log buffer. -/
theorem fits_of_read {records : List PhLoggerMsg} {parts : List CStr} {room : Nat}
    (h : List.Forall₂ (fun r part => ∀ logBuf : CStr, logBuf.length = room →
      phLoggerReadBytes (r.received logBuf) = some ⟨level, platform, source, part⟩) records parts)
    {part : CStr} (hpart : recordOf level platform source part ∈ records) :
    (header level platform source).length + part.length ≤ room := by
  have hread := (List.forall₂_and_left records parts).mp (h.imp fun r d hd =>
    ⟨len_of_read (hd (List.replicate room 0) List.length_replicate), hd⟩)
  have hlen := hread.1 _ hpart
  simp only [PhLoggerMsg.received, recordOf, List.length_append, List.length_take,
    List.length_drop, List.length_replicate] at hlen
  omega

/-- **The round trip of a message** succeeds exactly if there is room behind the header by the
sender's count, and the records fit into the log buffers. -/
theorem record_round_trip_iff (hbuffer : buffer.length = recordSize)
    (hplatform : NulFree platform) (hsource : NulFree source) (hnul : NulFree msg)
    (hmsg : msg.length < bufSize) :
    RoundTrip buffer level platform source msg logSize ↔
      1 ≤ availLen recordSize level platform source ∧
      msgSize + (header level platform source).length
        + min (msg.length + 1) (availLen recordSize level platform source).toNat ≤ logSize := by
  constructor
  · intro h
    have hroom := h.room hmsg hnul
    obtain ⟨parts, hlog, -, -, part, hpart, hlen⟩ := pvLog_sends hbuffer hmsg hnul hroom
    obtain ⟨records, parts', hlog', hread, -⟩ := h
    obtain rfl : parts.map (recordOf level platform source) = records :=
      congrArg Prod.fst (Option.some.inj (hlog.symm.trans hlog'))
    have hfits := fits_of_read hread (List.mem_map_of_mem hpart)
    have hheader : 0 < (header level platform source).length := by
      simp only [header, List.length_append, List.length_singleton]
      omega
    exact ⟨hroom, by omega⟩
  · rintro ⟨hroom, hfits⟩
    obtain ⟨parts, hlog, hflat, hshort, -⟩ := pvLog_sends hbuffer hmsg hnul hroom
    refine ⟨_, parts, hlog, ?_, hflat⟩
    rw [List.forall₂_map_left_iff, List.forall₂_same]
    intro part hpart logBuf hlogBuf
    have hpart := hshort part hpart
    rw [read_received_iff hplatform hsource]
    omega

/-- The header of a platform with a long name is half of a record, and nothing is sent. -/
theorem long_name_not_sent :
    (header 3 (List.replicate 3056 97) (str "/var/log/messages")).length < recordSize ∧
      ¬ RoundTrip (List.replicate recordSize 0) 3 (List.replicate 3056 97)
        (str "/var/log/messages") (str "ready") (2 * (128 * 1024)) := by
  constructor
  · rw [header]
    simp only [List.length_append, List.length_replicate, List.length_singleton]
    decide
  · intro h
    have hroom := h.room (by decide) (by decide)
    rw [availLen, List.length_replicate] at hroom
    exact absurd hroom (by decide)

/-- Usual names leave room. -/
theorem short_name_sent :
    RoundTrip (List.replicate recordSize 0) 3 (str "pv") (str "/var/log/messages") (str "ready")
      (2 * (128 * 1024)) :=
  (record_round_trip_iff List.length_replicate (by decide) (by decide) (by decide)
    (by decide)).mpr (by decide)

end Pantavisor.PhLogger
