/-
Pantavisor.PhLogger.Receive — a record on the log control socket.

Every container can write to the socket. `ph_logger_read_write` reads what a client sent
into one of its log buffers, which is not cleared, and hands it to the handlers of the
version that it names. They go through the buffer as a `struct ph_logger_msg`: the level,
the platform and the source are strings with their terminators, the data is behind them,
and the length of the data comes from the length that the record declares.

The handlers are readers here, so a record is handled safely if nothing is undefined and
if they keep to the bytes that were received (`HandledSafely`). They check neither the
level nor the terminators nor the length, and `Proper` says which records do no harm.
-/
import Mathlib.Algebra.Group.Int.Defs
import Mathlib.Algebra.Group.Nat.Defs
import Pantavisor.Lib.Reader
import Pantavisor.PhLogger.Record

namespace Pantavisor.PhLogger.Receive

open Pantavisor.Lib Pantavisor.PhLogger

/-! ## The handlers -/

/-- An `int` in the byte order of the machine. -/
def intOf (bytes : CStr) : Int := Int.bmod (bytes.foldr (fun c n => c.toNat + 256 * n) 0) (2 ^ 32)

/-- An `int` of the record. -/
def readInt (offset : Nat) : Reader Int := do
  let b ← Reader.bytes offset 4
  pure (intOf b)

/-- `sscanf` with `%d`. It is undefined for a number that is no `int`. -/
def scanInt (offset : Nat) : Reader Int := do
  let s ← Reader.string offset
  if -2 ^ 31 ≤ atoi s ∧ atoi s < 2 ^ 31 then pure (atoi s) else Reader.fault

/-- `level_names` -/
def levelNames : List CStr := [str "FATAL", str "ERROR", str "WARN", str "INFO", str "DEBUG"]

/-- `level_names[level].name` -/
def levelName (level : Int) : Reader CStr :=
  match levelNames[level.toNat]? with
  | some name => if level < 0 then Reader.fault else pure name
  | none => Reader.fault

/-- What `ph_logger_read_handler_v1` finds: the level, where the platform and the source
are, and the length it leaves in the record. -/
structure LogParts where
  level : Int
  platform : Nat
  source : Nat
  len : Int

/-- `ph_logger_read_handler_v1`, without a buffer for the data. -/
def phLoggerReadHandlerV1 : Reader LogParts := do
  let level ← scanInt msgSize
  let buffer ← Reader.string msgSize
  let platform := msgSize + buffer.length + 1
  let platformText ← Reader.string platform
  let source := platform + platformText.length + 1
  let sourceText ← Reader.string source
  let bytesRead : Int := (buffer.length + 1) + (platformText.length + 1) + (sourceText.length + 1)
  let len ← readInt 4
  pure ⟨level, platform, source, Int.bmod (len - bytesRead) (2 ^ 32)⟩

/-- A version that there are handlers for. -/
def Handled (version : Int) : Prop := ¬ (version < phLoggerV1 ∨ phLoggerMaxHandlers ≤ version)

instance (version : Int) : Decidable (Handled version) := inferInstanceAs (Decidable (¬ _))

/-- `ph_logger_read_bytes`. Without a handler, what it should set stays uninitialised. -/
def phLoggerReadBytes : Reader LogParts := do
  let version ← readInt 0
  if Handled version then phLoggerReadHandlerV1 else Reader.fault

/-- The outcomes of the calls that write a log file. -/
structure FileCalls where
  mkdirP : Bool
  /-- what the file has when it is opened -/
  logFile : Option CStr
  fstat : Bool
  ftruncate : Bool

/-- A log file that was written. -/
structure LogWrite where
  pathname : CStr
  content : CStr
  deriving DecidableEq

/-- `MAX_SIZE` -/
def maxSize : Nat := 2 * 1024 * 1024

/-- `PATH_MAX` -/
def pathMax : Nat := 4096

/-- `ph_logger_write_to_file_handler_v1`: what was logged, or `none` for a record that was
dropped. -/
def phLoggerWriteToFileHandlerV1 (calls : FileCalls) (logDir rev : CStr) :
    Reader (Option LogWrite) := do
  let parts ← phLoggerReadBytes
  let sourceText ← Reader.string parts.source
  let data := parts.source + sourceText.length + 1
  let platformText ← Reader.string parts.platform
  let pathname := (logDir ++ str "/" ++ rev ++ str "/" ++ platformText ++ str "/" ++
    sourceText).take (pathMax - 1)
  if calls.mkdirP then
    match calls.logFile with
    | some old => do
      let old := if calls.fstat ∧ maxSize ≤ old.length ∧ calls.ftruncate then [] else old
      let name ← levelName parts.level
      let text ← Reader.upTo data parts.len
      pure (some ⟨pathname, old ++ name ++ str " -- " ++ text ++ str "\n"⟩)
    | none => pure none
  else pure none

/-- `ph_logger_write_to_log_file` -/
def phLoggerWriteToLogFile (calls : FileCalls) (revision : CStr) : Reader (Option LogWrite) := do
  let version ← readInt 0
  if Handled version then phLoggerWriteToFileHandlerV1 calls (str "/pv/logs") revision
  else pure none

/-- What `ph_logger_read_write` does with what a client `sent`. `logBuf` is the log buffer as
the last record left it. -/
def phLoggerReadWrite (calls : FileCalls) (revision logBuf sent : CStr) :
    Option (Option LogWrite × Nat) :=
  let received := sent.take logBuf.length
  if 0 < received.length then phLoggerWriteToLogFile calls revision (overwrite logBuf received)
  else some (none, 0)

/-! ## Safety -/

/-- A record is dropped or logged, nothing undefined happens, and only bytes that were
received are read. -/
def HandledSafely (logBuf sent : CStr) : Prop :=
  ∀ calls revision, ∃ written extent,
    phLoggerReadWrite calls revision logBuf sent = some (written, extent) ∧
      extent ≤ (sent.take logBuf.length).length

/-- The three strings of a record, with what is behind them. -/
structure Strings (record level platform source data : CStr) : Prop where
  level_nulFree : NulFree level
  platform_nulFree : NulFree platform
  source_nulFree : NulFree source
  text : record.drop msgSize = level ++ 0 :: (platform ++ 0 :: (source ++ 0 :: data))

/-- The length that is left of a declared length behind the three strings. -/
def lenLeft (len : Int) (level platform source : CStr) : Int :=
  Int.bmod (len - ((level.length + 1) + (platform.length + 1) + (source.length + 1))) (2 ^ 32)

/-- The data can be printed: it ends with a terminator, or its length is in the record. -/
def DataEnds (len : Int) (level platform source data : CStr) : Prop :=
  (0 : UInt8) ∈ data ∨
    0 ≤ lenLeft len level platform source ∧ lenLeft len level platform source ≤ data.length

/-- What the handlers take for granted about a record: it has its version, and if that has
handlers, there are three terminated strings, the first of which is the number of a level,
and the data ends with a terminator or it is there as far as its length goes. -/
def Proper (record : CStr) : Prop :=
  4 ≤ record.length ∧ (Handled (intOf (record.take 4)) →
    ∃ level platform source data, Strings record level platform source data ∧
      0 ≤ atoi level ∧ atoi level < levelNames.length ∧
      DataEnds (intOf ((record.drop 4).take 4)) level platform source data)

variable {data : CStr}

/-! ## The handlers are steady -/

theorem steady_readInt (offset : Nat) : (readInt offset).Steady :=
  (Reader.steady_bytes offset 4).bind fun _ => Reader.steady_pure _

theorem steady_scanInt (offset : Nat) : (scanInt offset).Steady := by
  refine (Reader.steady_string offset).bind fun s => ?_
  split
  · exact Reader.steady_pure _
  · exact Reader.steady_fault

theorem steady_levelName (level : Int) : (levelName level).Steady := by
  unfold levelName
  split
  · split
    · exact Reader.steady_fault
    · exact Reader.steady_pure _
  · exact Reader.steady_fault

theorem steady_phLoggerReadHandlerV1 : phLoggerReadHandlerV1.Steady :=
  (steady_scanInt _).bind fun _ => (Reader.steady_string _).bind fun _ =>
    (Reader.steady_string _).bind fun _ => (Reader.steady_string _).bind fun _ =>
      (steady_readInt _).bind fun _ => Reader.steady_pure _

theorem steady_phLoggerReadBytes : phLoggerReadBytes.Steady := by
  refine (steady_readInt 0).bind fun version => ?_
  split
  · exact steady_phLoggerReadHandlerV1
  · exact Reader.steady_fault

theorem steady_phLoggerWriteToFileHandlerV1 (calls : FileCalls) (logDir rev : CStr) :
    (phLoggerWriteToFileHandlerV1 calls logDir rev).Steady := by
  refine steady_phLoggerReadBytes.bind fun parts => (Reader.steady_string _).bind fun source =>
    (Reader.steady_string _).bind fun platform => ?_
  split
  · split
    · exact (steady_levelName _).bind fun _ => (Reader.steady_upTo _ _).bind fun _ =>
        Reader.steady_pure _
    · exact Reader.steady_pure _
  · exact Reader.steady_pure _

theorem steady_phLoggerWriteToLogFile (calls : FileCalls) (revision : CStr) :
    (phLoggerWriteToLogFile calls revision).Steady := by
  refine (steady_readInt 0).bind fun version => ?_
  split
  · exact steady_phLoggerWriteToFileHandlerV1 calls _ revision
  · exact Reader.steady_pure _

/-! ## What they read -/

theorem yields_readInt {offset : Nat} {n : Int} :
    (readInt offset).Yields data n ↔
      n = intOf ((data.drop offset).take 4) ∧ offset + 4 ≤ data.length := by
  simp only [readInt, Reader.yields_bind, Reader.yields_bytes, Reader.yields_pure]
  constructor
  · rintro ⟨b, ⟨rfl, hle⟩, rfl⟩
    exact ⟨rfl, hle⟩
  · rintro ⟨rfl, hle⟩
    exact ⟨_, ⟨rfl, hle⟩, rfl⟩

theorem yields_scanInt {offset : Nat} {level : Int} {s rest : CStr} (hs : NulFree s)
    (hrest : data.drop offset = s ++ 0 :: rest) :
    (scanInt offset).Yields data level ↔ level = atoi s ∧ -2 ^ 31 ≤ atoi s ∧ atoi s < 2 ^ 31 := by
  have hstring : (Reader.string offset).Yields data s := Reader.yields_string.mpr ⟨hs, rest, hrest⟩
  simp only [scanInt, Reader.yields_bind]
  constructor
  · rintro ⟨t, ht, h⟩
    obtain rfl := ht.unique hstring
    split at h
    · exact ⟨Reader.yields_pure.mp h, ‹_›⟩
    · exact absurd h Reader.yields_fault
  · rintro ⟨rfl, hrange⟩
    exact ⟨s, hstring, by rw [if_pos hrange]; exact Reader.yields_pure.mpr rfl⟩

theorem yields_levelName {level : Int} :
    (∃ name, (levelName level).Yields data name) ↔
      0 ≤ level ∧ level < levelNames.length := by
  unfold levelName
  constructor
  · rintro ⟨name, h⟩
    split at h
    · rename_i hname
      obtain ⟨hlt, -⟩ := List.getElem?_eq_some_iff.mp hname
      split at h
      · exact absurd h Reader.yields_fault
      · omega
    · exact absurd h Reader.yields_fault
  · rintro ⟨hnonneg, hlt⟩
    have hname : levelNames[level.toNat]? = some (levelNames.get ⟨level.toNat, by omega⟩) :=
      List.getElem?_eq_getElem _
    rw [hname]
    simp only [if_neg (show ¬ level < 0 by omega)]
    exact ⟨_, Reader.yields_pure.mpr rfl⟩

namespace Strings

variable {level platform source rest : CStr}

theorem platform_at (h : Strings data level platform source rest) :
    data.drop (msgSize + level.length + 1) = platform ++ 0 :: (source ++ 0 :: rest) :=
  Reader.drop_string h.text

theorem source_at (h : Strings data level platform source rest) :
    data.drop (msgSize + level.length + 1 + platform.length + 1) = source ++ 0 :: rest :=
  Reader.drop_string h.platform_at

theorem rest_at (h : Strings data level platform source rest) :
    data.drop (msgSize + level.length + 1 + platform.length + 1 + source.length + 1) = rest :=
  Reader.drop_string h.source_at

theorem length (h : Strings data level platform source rest) :
    msgSize + level.length + 1 + platform.length + 1 + source.length + 1 ≤ data.length := by
  have hlen := congrArg List.length h.text
  simp only [List.length_drop, List.length_append, List.length_cons] at hlen
  omega

/-- Where the parts of a record are. -/
def parts (level platform source : CStr) (len : Int) : LogParts :=
  ⟨atoi level, msgSize + level.length + 1, msgSize + level.length + 1 + platform.length + 1,
    lenLeft len level platform source⟩

theorem yields_readHandler (h : Strings data level platform source rest) {found : LogParts} :
    phLoggerReadHandlerV1.Yields data found ↔
      found = parts level platform source (intOf ((data.drop 4).take 4)) ∧
        -2 ^ 31 ≤ atoi level ∧ atoi level < 2 ^ 31 := by
  have hlevel : (Reader.string msgSize).Yields data level :=
    Reader.yields_string.mpr ⟨h.level_nulFree, _, h.text⟩
  have hplatform := Reader.yields_string.mpr ⟨h.platform_nulFree, _, h.platform_at⟩
  have hsource := Reader.yields_string.mpr ⟨h.source_nulFree, _, h.source_at⟩
  have hlen : (readInt 4).Yields data (intOf ((data.drop 4).take 4)) :=
    yields_readInt.mpr ⟨rfl, by have := h.length; simp only [msgSize] at this; omega⟩
  simp only [phLoggerReadHandlerV1, Reader.yields_bind, yields_scanInt h.level_nulFree h.text,
    Reader.yields_pure]
  constructor
  · rintro ⟨n, ⟨rfl, hrange⟩, s, hs, p, hp, t, ht, len, hlen', rfl⟩
    obtain rfl := hs.unique hlevel
    obtain rfl := hp.unique hplatform
    obtain rfl := ht.unique hsource
    obtain rfl := hlen'.unique hlen
    exact ⟨rfl, hrange⟩
  · rintro ⟨rfl, hrange⟩
    exact ⟨_, ⟨rfl, hrange⟩, _, hlevel, _, hplatform, _, hsource, _, hlen, rfl⟩

end Strings

/-- The handler finds the parts of a record with three strings only. -/
theorem strings_of_yields {found : LogParts} (h : phLoggerReadHandlerV1.Yields data found) :
    ∃ level platform source rest, Strings data level platform source rest := by
  simp only [phLoggerReadHandlerV1, Reader.yields_bind] at h
  obtain ⟨-, -, level, hlevel, platform, hplatform, source, hsource, -⟩ := h
  obtain ⟨hlevel, r₁, h₁⟩ := Reader.yields_string.mp hlevel
  obtain ⟨hplatform, r₂, h₂⟩ := Reader.yields_string.mp hplatform
  obtain ⟨hsource, r₃, h₃⟩ := Reader.yields_string.mp hsource
  have hr₁ := (Reader.drop_string h₁).symm.trans h₂
  have hr₂ := (Reader.drop_string h₂).symm.trans h₃
  exact ⟨level, platform, source, r₃, hlevel, hplatform, hsource, by rw [h₁, hr₁, hr₂]⟩

/-- Without a handler there are no parts, with one there are those that it finds. -/
theorem yields_readBytes {found : LogParts} :
    phLoggerReadBytes.Yields data found ↔
      4 ≤ data.length ∧ Handled (intOf (data.take 4)) ∧ phLoggerReadHandlerV1.Yields data found := by
  simp only [phLoggerReadBytes, Reader.yields_bind, yields_readInt, List.drop_zero, Nat.zero_add]
  constructor
  · rintro ⟨version, ⟨rfl, hlen⟩, h⟩
    split at h
    · exact ⟨hlen, ‹_›, h⟩
    · exact absurd h Reader.yields_fault
  · rintro ⟨hlen, hversion, h⟩
    exact ⟨_, ⟨rfl, hlen⟩, by rwa [if_pos hversion]⟩

/-- A record with its three strings is logged if its level has a name and its data ends. -/
theorem Strings.yields_logged {level platform source rest : CStr}
    (h : Strings data level platform source rest) (hversion : Handled (intOf (data.take 4)))
    (calls : FileCalls) (logDir rev : CStr) :
    (∃ written, (phLoggerWriteToFileHandlerV1 calls logDir rev).Yields data written) ↔
      (-2 ^ 31 ≤ atoi level ∧ atoi level < 2 ^ 31) ∧
        (calls.mkdirP → calls.logFile.isSome →
          (0 ≤ atoi level ∧ atoi level < levelNames.length) ∧
            DataEnds (intOf ((data.drop 4).take 4)) level platform source rest) := by
  have hlength : 4 ≤ data.length := by have := h.length; simp only [msgSize] at this; omega
  have hsource := Reader.yields_string.mpr ⟨h.source_nulFree, _, h.source_at⟩
  have hplatform := Reader.yields_string.mpr ⟨h.platform_nulFree, _, h.platform_at⟩
  have hends : ∀ len, (∃ text, (Reader.upTo (msgSize + level.length + 1 + platform.length + 1 +
      source.length + 1) (lenLeft len level platform source)).Yields data text) ↔
        DataEnds len level platform source rest := by
    intro len
    rw [Reader.yields_upTo h.length, h.rest_at]
    rfl
  simp only [phLoggerWriteToFileHandlerV1, Reader.exists_yields_bind]
  constructor
  · rintro ⟨found, hfound, s, hs, p, hp, hw⟩
    obtain ⟨rfl, hrange⟩ := h.yields_readHandler.mp (yields_readBytes.mp hfound).2.2
    obtain rfl := hs.unique hsource
    refine ⟨hrange, fun hmkdir hfile => ?_⟩
    obtain ⟨old, hold⟩ := Option.isSome_iff_exists.mp hfile
    rw [if_pos hmkdir, hold] at hw
    simp only [Reader.exists_yields_bind] at hw
    obtain ⟨name, hname, text, htext, -⟩ := hw
    exact ⟨yields_levelName.mp ⟨name, hname⟩, (hends _).mp ⟨text, htext⟩⟩
  · rintro ⟨hrange, hlogged⟩
    have hfound := yields_readBytes.mpr ⟨hlength, hversion, h.yields_readHandler.mpr ⟨rfl, hrange⟩⟩
    refine ⟨_, hfound, _, hsource, _, hplatform, ?_⟩
    by_cases hmkdir : calls.mkdirP
    · rw [if_pos hmkdir]
      cases hold : calls.logFile with
      | none => exact Reader.exists_yields_pure _
      | some old =>
        obtain ⟨hlevel, hdata⟩ := hlogged hmkdir (by rw [hold]; rfl)
        obtain ⟨name, hname⟩ := yields_levelName.mpr hlevel
        obtain ⟨text, htext⟩ := (hends _).mpr hdata
        simp only [Reader.exists_yields_bind]
        exact ⟨name, hname, text, htext, Reader.exists_yields_pure _⟩
    · rw [if_neg hmkdir]
      exact Reader.exists_yields_pure _

/-- What is received is handled without a fault, whatever the calls do, if it is proper. -/
theorem yields_iff_proper (revision : CStr) :
    (∀ calls, ∃ written, (phLoggerWriteToLogFile calls revision).Yields data written) ↔
      Proper data := by
  simp only [phLoggerWriteToLogFile, Reader.yields_bind, yields_readInt, List.drop_zero,
    Nat.zero_add, Proper]
  constructor
  · intro hall
    -- the outcomes with which a record gets to the end of the handler
    obtain ⟨written, version, ⟨rfl, hlen⟩, h⟩ := hall ⟨true, some [], false, false⟩
    refine ⟨hlen, fun hversion => ?_⟩
    rw [if_pos hversion] at h
    have hfound := h
    simp only [phLoggerWriteToFileHandlerV1, Reader.yields_bind] at hfound
    obtain ⟨found, hfound, -⟩ := hfound
    obtain ⟨level, platform, source, rest, hstrings⟩ :=
      strings_of_yields (yields_readBytes.mp hfound).2.2
    obtain ⟨-, hlogged⟩ := (hstrings.yields_logged hversion _ _ _).mp ⟨written, h⟩
    obtain ⟨⟨hlow, hhigh⟩, hdata⟩ := hlogged rfl rfl
    exact ⟨level, platform, source, rest, hstrings, hlow, hhigh, hdata⟩
  · rintro ⟨hlen, hproper⟩ calls
    by_cases hversion : Handled (intOf (data.take 4))
    · obtain ⟨level, platform, source, rest, hstrings, hlow, hhigh, hdata⟩ := hproper hversion
      have hnames : levelNames.length = 5 := rfl
      obtain ⟨written, hwritten⟩ := (hstrings.yields_logged hversion calls _ _).mpr
        ⟨⟨by omega, by omega⟩, fun _ _ => ⟨⟨hlow, hhigh⟩, hdata⟩⟩
      exact ⟨written, _, ⟨rfl, hlen⟩, by rw [if_pos hversion]; exact hwritten⟩
    · exact ⟨none, _, ⟨rfl, hlen⟩, by rw [if_neg hversion]; exact Reader.yields_pure.mpr rfl⟩

/-! ## Main results -/

/-- What was received comes first in the log buffer. -/
theorem take_received (logBuf sent : CStr) :
    (overwrite logBuf (sent.take logBuf.length)).take (sent.take logBuf.length).length
      = sent.take logBuf.length := List.take_left

/-- What is received is handled safely if it is proper. -/
theorem handledSafely_of_received {logBuf sent : CStr} (h : sent.take logBuf.length ≠ []) :
    HandledSafely logBuf sent ↔ Proper (sent.take logBuf.length) := by
  have hpos : 0 < (sent.take logBuf.length).length := List.length_pos_of_ne_nil h
  have hwithin : ∀ calls revision, (∃ written extent,
      phLoggerReadWrite calls revision logBuf sent = some (written, extent) ∧
        extent ≤ (sent.take logBuf.length).length) ↔
      ∃ written, (phLoggerWriteToLogFile calls revision).Yields
        (sent.take logBuf.length) written := by
    intro calls revision
    have hsteady : (phLoggerWriteToLogFile calls revision).Within
        (overwrite logBuf (sent.take logBuf.length)) (sent.take logBuf.length).length ↔ _ :=
      (steady_phLoggerWriteToLogFile calls revision).within_iff
    rw [take_received] at hsteady
    rw [← hsteady]
    simp only [phLoggerReadWrite, if_pos hpos]
    rfl
  unfold HandledSafely
  simp only [hwithin]
  exact ⟨fun h => (yields_iff_proper []).mp fun calls => h calls [],
    fun h calls revision => (yields_iff_proper revision).mpr h calls⟩

/-- **A record is handled safely if nothing of it is received or it is proper.** -/
theorem handledSafely_iff (logBuf sent : CStr) :
    HandledSafely logBuf sent ↔
      sent.take logBuf.length = [] ∨ Proper (sent.take logBuf.length) := by
  by_cases hempty : sent.take logBuf.length = []
  · refine ⟨fun _ => .inl hempty, fun _ calls revision => ⟨none, 0, ?_, Nat.zero_le _⟩⟩
    rw [phLoggerReadWrite, hempty]
    rfl
  · rw [or_iff_right hempty]
    exact handledSafely_of_received hempty

/-- A record whose level is 7, and that is right otherwise. -/
def levelSeven : CStr :=
  [0, 0, 0, 0, 14, 0, 0, 0] ++ str "7" ++ [0] ++ str "lxc" ++ [0] ++ str "syslog" ++ [0] ++ str "x"

/-- The name of the level is looked for behind the table. -/
theorem level_behind_table : ¬ HandledSafely (List.replicate 2048 0) levelSeven := by
  have hreceived : levelSeven.take (List.replicate 2048 (0 : UInt8)).length = levelSeven := by
    rw [List.length_replicate]
    exact List.take_of_length_le (by decide)
  rw [handledSafely_of_received (by rw [hreceived]; decide), hreceived]
  rintro ⟨-, hproper⟩
  obtain ⟨level, platform, source, data, hstrings, -, hhigh, -⟩ := hproper (by decide)
  obtain rfl : level = str "7" := by
    have h : (level ++ 0 :: (platform ++ 0 :: (source ++ 0 :: data))).takeWhile (· != 0) = level :=
      takeWhile_ne_append hstrings.level_nulFree
    rw [← h, ← hstrings.text]
    decide
  exact absurd hhigh (by decide)

end Pantavisor.PhLogger.Receive
