/-
Pantavisor.Updater.ProgressObjects — the buffer of the progress of each object
(`trail_remote_set_status`, `trail_download_object_progress` and `trail_download_object` in
`updater.c`).

`progress_objects` holds the objects that were downloaded, with commas between them. A
report of an object that is being downloaded puts it behind them and takes it away again. The
two go by different lengths: what a finished object may have at most is 511 bytes, and a report
has what is left of the buffer. What is longer is cut, and a comma goes into a full buffer all
the same (`progressKept`).
-/
import Mathlib.Data.List.Induction
import Pantavisor.Lib.Block
import Pantavisor.Lib.Decimal
import Pantavisor.Lib.JsonEnds
import Pantavisor.Lib.Run

namespace Pantavisor.Updater

open Pantavisor.Lib

/-! ## The text of an object -/

/-- `struct object_update` -/
structure ObjectUpdate where
  objectName : CStr
  objectId : CStr
  totalSize : Nat
  startTime : Nat
  currentTime : Nat
  totalDownloaded : Nat
  deriving DecidableEq, Repr

/-- What the format of `object_update_json` makes of it. -/
def ObjectUpdate.text (u : ObjectUpdate) : CStr :=
  str "\x7b\"object_name\":\"" ++ u.objectName ++ str "\""
    ++ str ",\"object_id\":\"" ++ u.objectId ++ str "\""
    ++ str ",\"total_size\":" ++ digitText u.totalSize
    ++ str ",\"start_time\":" ++ digitText u.startTime
    ++ str ",\"current_time\":" ++ digitText u.currentTime
    ++ str ",\"total_downloaded\":" ++ digitText u.totalDownloaded
    ++ str "\x7d"

/-- `object_update_json` -/
def objectUpdateJson (u : ObjectUpdate) (buflen : Nat) : CStr := u.text.take (buflen - 1)

/-- Bytes that were downloaded. -/
def ObjectUpdate.add (u : ObjectUpdate) (chunkSize : Int) : ObjectUpdate :=
  { u with totalDownloaded := wrapSize (u.totalDownloaded + sizeOfInt chunkSize) }

/-! ## The buffer -/

/-- `PATH_MAX` -/
def pathMax : Nat := 4096

/-- `progress_objects` and `progress_size` -/
structure ProgressBuffer where
  objects : Block
  size : Nat
  deriving DecidableEq, Repr

/-- What `pv_update_new` makes. -/
def ProgressBuffer.new : ProgressBuffer := ⟨Block.calloc pathMax, pathMax⟩

/-- `strcat` of the comma, where there are objects already, with the length behind it. -/
def addComma (objects : Block) (len : Nat) : Option (Block × Nat) :=
  if len ≠ 0 then (objects.store len [comma, 0]).map (·, len + 1) else some (objects, len)

/-- The part of a report that puts the message behind the objects, with the length that the
buffer is cut to behind the report. -/
def ProgressBuffer.appendMsg (b : ProgressBuffer) (len : Nat) :
    Option CStr → Option (Block × Nat)
  | none => some (b.objects, len)
  | some msg => do
    let (objects, len) ← addComma b.objects len
    -- `snprintf` stores nothing where there is no room
    let objects ← if len < b.size then objects.store len (msg.take (b.size - len - 1) ++ [0])
      else some objects
    some (objects, if 0 < len then len - 1 else len)

/-- What a report does: the total and the objects that it posts, the buffer from which they
were, and the buffer that it leaves. -/
structure Reported where
  total : CStr
  posted : CStr
  shown : Block
  left : Block
  deriving DecidableEq, Repr

/-- `trail_remote_set_status` for `UPDATE_DOWNLOAD_PROGRESS`. Without objects, or without memory
for the request, only the total is posted. -/
def ProgressBuffer.report (b : ProgressBuffer) (total : ObjectUpdate) (alloc : Bool)
    (msg : Option CStr) : Option Reported := do
  let totalJson := objectUpdateJson total 512
  let buff ← b.objects.text
  if buff.length = 0 ∨ alloc = false then some ⟨totalJson, [], b.objects, b.objects⟩
  else
    let (shown, len) ← b.appendMsg buff.length msg
    let posted ← shown.text
    let left ← shown.store len [0]
    some ⟨totalJson, posted, shown, left⟩

/-- The end of `trail_download_object`: a finished object is put behind the others, in a buffer
that is made larger where it has to be. `progress_size` is an `int`. -/
def ProgressBuffer.record (b : ProgressBuffer) (u : ObjectUpdate) (realloc : Bool) :
    Option ProgressBuffer := do
  let data ← b.objects.text
  let thisObjJson := objectUpdateJson u 512
  let toWrite := thisObjJson.length + if data.length ≠ 0 then 1 else 0
  let remaining : Int := b.size - data.length - 1
  let room ←
    if (toWrite : Int) > remaining then
      if realloc then
        if 2 * b.size < 2 ^ 31 then
          some (some ⟨b.objects.realloc (2 * b.size), 2 * b.size⟩)
        else none
      else some none
    else some (some b)
  match room with
  | none => some b
  | some c =>
    let (objects, len) ← addComma c.objects data.length
    (objects.store len (thisObjJson ++ [0])).map fun objects => { c with objects := objects }

/-! ## The downloads -/

/-- What the downloads of an update work on: the buffer, the total, and the object that is being
downloaded. `finished` has the objects that were, as they were then; the code keeps no such
list. -/
structure Downloads where
  buffer : ProgressBuffer
  total : ObjectUpdate
  current : Option ObjectUpdate
  finished : List ObjectUpdate
  deriving DecidableEq, Repr

/-- What happens in the course of the downloads. -/
inductive DownloadEvent where
  /-- `trail_download_objects` begins -/
  | begin (totalSize now : Nat) (alloc : Bool)
  /-- `trail_download_object` begins to download -/
  | start (name id : CStr) (size now : Nat)
  /-- `trail_download_object_progress`, which `thttp` calls -/
  | chunk (written chunkSize : Int) (fin msgAlloc alloc : Bool) (now : Nat)
  /-- the object is there and is the right one -/
  | finish (now : Nat) (realloc : Bool)
  /-- the report behind an object, downloaded or not -/
  | report (now : Nat) (alloc : Bool)
  /-- the object is not to be had -/
  | retry
  deriving DecidableEq, Repr

/-- A new update. -/
def Downloads.new : Downloads where
  buffer := .new
  total := ⟨[], [], 0, 0, 0, 0⟩
  current := none
  finished := []

/-- A report, and what it leaves. -/
def Downloads.reports (d : Downloads) (alloc : Bool) (msg : Option CStr) :
    Option (Downloads × Option Reported) :=
  (d.buffer.report d.total alloc msg).map fun r =>
    ({ d with buffer := { d.buffer with objects := r.left } }, some r)

/-- What an event does, with the report that is made. -/
def Downloads.step (d : Downloads) : DownloadEvent → Option (Downloads × Option Reported)
  | .begin totalSize now alloc =>
    { d with total := ⟨str "total", str "none", totalSize, now, now, 0⟩ }.reports alloc none
  | .start name id size now => some ({ d with current := some ⟨name, id, size, now, now, 0⟩ }, none)
  | .chunk written chunkSize fin msgAlloc alloc now =>
    match d.current with
    | none => some (d, none)
    | some u =>
      let added := { d with current := some (u.add chunkSize), total := d.total.add chunkSize }
      if fin ∧ chunkSize = written then some (added, none)
      else if msgAlloc = false then some (d, none)
      else if written ≠ chunkSize then some (d, none)
      else
        let u := { u.add chunkSize with currentTime := now }
        { added with current := some u }.reports alloc (some (objectUpdateJson u 1024))
  | .finish now realloc =>
    match d.current with
    | none => some (d, none)
    | some u =>
      let u := { u with currentTime := now }
      (d.buffer.record u realloc).map fun b =>
        ({ d with buffer := b, current := none, finished := d.finished ++ [u] }, none)
  | .report now alloc => { d with total := { d.total with currentTime := now } }.reports alloc none
  | .retry =>
    some ({ d with current := none, total := { d.total with totalDownloaded := 0 } }, none)

/-- The downloads of an update, in any order of events. -/
def downloadSystem : System (Option Downloads) DownloadEvent where
  init d := d = some .new
  step d e := d.bind fun d => (d.step e).map (·.1)

/-! ## What the buffer is to hold -/

/-- A member of the object of an update. -/
def updateMember (key : String) (value : JsonValue) : JsonMember JsonValue :=
  ⟨[], str key, [], [], value, []⟩

/-- An update as a JSON object. -/
def ObjectUpdate.json (u : ObjectUpdate) : JsonValue :=
  .object []
    [updateMember "object_name" (.string u.objectName),
      updateMember "object_id" (.string u.objectId),
      updateMember "total_size" (.scalar (digitText u.totalSize)),
      updateMember "start_time" (.scalar (digitText u.startTime)),
      updateMember "current_time" (.scalar (digitText u.currentTime)),
      updateMember "total_downloaded" (.scalar (digitText u.totalDownloaded))]

/-- The text with a comma between two objects. -/
def sequenceText (us : List ObjectUpdate) : CStr :=
  JsonValue.itemsText (us.map fun u => ⟨[], u.json, []⟩)

/-- The buffer holds these objects, complete and with a comma between two of them, and their
text and its terminator are in it. -/
structure Holds (objects : Block) (size : Nat) (us : List ObjectUpdate) : Prop where
  block : objects.length = size
  text : objects.text = some (sequenceText us)
  valid : ∀ u ∈ us, u.json.Valid

/-- The object that an update is about. -/
def ObjectUpdate.object (u : ObjectUpdate) : CStr × CStr := (u.objectName, u.objectId)

/-- The buffer holds every finished object exactly once. -/
structure Downloads.Formed (d : Downloads) : Prop where
  holds : Holds d.buffer.objects d.buffer.size d.finished
  once : (d.finished.map ObjectUpdate.object).Nodup

/-- A report is made from a buffer that is well formed too, with the current object in it or
without, and leaves what it found. -/
structure Reported.Clean (r : Reported) (d d' : Downloads) : Prop where
  shown : Holds r.shown d.buffer.size d.finished ∨
    ∃ u, d'.current = some u ∧ Holds r.shown d.buffer.size (d.finished ++ [u])
  left : r.left.length = d.buffer.objects.length ∧ r.left.text = d.buffer.objects.text

/-- An event is defined, leaves a well-formed buffer, and so does its report in between. -/
def Keeps (d : Option Downloads) (e : DownloadEvent) : Prop :=
  ∃ d₀ d' r, d = some d₀ ∧ d₀.step e = some (d', r) ∧ d'.Formed ∧
    ∀ r₀, r = some r₀ → r₀.Clean d₀ d'

/-! ## When it does -/

/-- The names can stand between quotes. -/
def ObjectUpdate.Plain (u : ObjectUpdate) : Prop := StringBody u.objectName ∧ StringBody u.objectId

/-- A message fits behind the objects, if there are any. -/
def ProgressBuffer.HasRoom (b : ProgressBuffer) (msg : CStr) : Prop :=
  ∀ buff, b.objects.text = some buff → buff ≠ [] → buff.length + 1 + msg.length < b.size

/-- A buffer that is to grow can. -/
def ProgressBuffer.CanGrow (b : ProgressBuffer) (realloc : Bool) (text : CStr) : Prop :=
  b.HasRoom text ∨ realloc = true ∧ 2 * b.size < 2 ^ 31

/-- An event of the kind that the code takes care of: an object whose text is not cut, in the
buffer as it is or, at the end of its download, in a larger one, and no object that was finished
before. -/
def Downloads.Fits (d : Downloads) : DownloadEvent → Prop
  | .chunk written chunkSize fin msgAlloc alloc now =>
    fin = false → written = chunkSize → msgAlloc = true → alloc = true →
      d.buffer.objects.text ≠ some [] → ∀ u ∈ d.current,
        let u := { u.add chunkSize with currentTime := now }
        u.Plain ∧ u.text.length < 1024 ∧ d.buffer.HasRoom u.text
  | .finish now realloc => ∀ u ∈ d.current,
      let u := { u with currentTime := now }
      u.Plain ∧ u.text.length < 512 ∧ d.buffer.CanGrow realloc u.text ∧
        u.object ∉ d.finished.map ObjectUpdate.object
  | _ => True

def FitsAt (d : Option Downloads) (e : DownloadEvent) : Prop := ∀ d₀, d = some d₀ → d₀.Fits e

/-! ## Texts -/

/-- A number begins with a zero only if it is zero. -/
theorem digitText_head {n : Nat} (h : 0 < n) : (digitText n).head? ≠ some 48 := by
  induction n using Nat.strongRecOn with
  | ind n ih =>
    by_cases hlt : n < 10
    · rw [digitText, Nat.toDigits_of_lt_base hlt]
      have hdigits : ∀ m < 10, 0 < m →
          ([Nat.digitChar m].map fun c => c.toNat.toUInt8).head? ≠ some 48 := by decide
      exact hdigits n hlt h
    · have happ : digitText n = digitText (n / 10) ++ [(Nat.digitChar (n % 10)).toNat.toUInt8] := by
        rw [digitText, Nat.toDigits_of_base_le (by decide) (by omega), List.map_append]
        rfl
      rw [happ, List.head?_append_of_ne_nil _ (digitText_ne_nil _)]
      exact ih (n / 10) (by omega) (by omega)

theorem scalarText_digitText (n : Nat) : ScalarText (digitText n) := by
  refine .inr (.inr (.inr ⟨[], digitText n, [], [], by simp, .inl rfl, ⟨⟨digitText_ne_nil n, ?_⟩,
    fun hhead => ?_⟩, .inl rfl, .inl rfl⟩))
  · intro c hc
    have hdigit := isDigit_of_mem_digitText hc
    simpa [isDigit] using hdigit
  · by_cases hpos : 0 < n
    · exact absurd hhead (digitText_head hpos)
    · obtain rfl : n = 0 := by omega
      decide

theorem ObjectUpdate.text_json (u : ObjectUpdate) : u.json.text = u.text := by
  have hname : str "\x7b\"object_name\":\"" = openBrace :: (quoted (str "object_name") ++
    [Lib.colon, quote]) := by decide
  have hid : str ",\"object_id\":\""
      = comma :: (quoted (str "object_id") ++ [Lib.colon, quote]) := by decide
  have hsize : str ",\"total_size\":"
      = comma :: (quoted (str "total_size") ++ [Lib.colon]) := by decide
  have hstart : str ",\"start_time\":"
      = comma :: (quoted (str "start_time") ++ [Lib.colon]) := by decide
  have hcurrent : str ",\"current_time\":"
      = comma :: (quoted (str "current_time") ++ [Lib.colon]) := by decide
  have hdownloaded : str ",\"total_downloaded\":"
      = comma :: (quoted (str "total_downloaded") ++ [Lib.colon]) := by decide
  have hclose : str "\x7d" = [closeBrace] := by decide
  have hquote : str "\"" = [quote] := by decide
  rw [ObjectUpdate.text, hname, hid, hsize, hstart, hcurrent, hdownloaded, hclose, hquote]
  simp [ObjectUpdate.json, updateMember, JsonValue.text, JsonValue.membersText, separator, quoted]

/-- Names that can stand between quotes are enough for a JSON object. -/
theorem ObjectUpdate.Plain.valid {u : ObjectUpdate} (h : u.Plain) : u.json.Valid := by
  have hwhite : White [] := fun c hc => by cases hc
  have hkey : ∀ key ∈ ["object_name", "object_id", "total_size", "start_time", "current_time",
      "total_downloaded"], StringBody (str key) :=
    fun key hkey => stringBody_of_unescaped (by revert key; decide)
  refine ⟨hwhite, (membersValid_iff _).mpr fun m hm => ?_⟩
  simp only [List.mem_cons, List.not_mem_nil, or_false] at hm
  rcases hm with rfl | rfl | rfl | rfl | rfl | rfl
  · exact ⟨hwhite, hkey _ (by decide), hwhite, hwhite, h.1, hwhite⟩
  · exact ⟨hwhite, hkey _ (by decide), hwhite, hwhite, h.2, hwhite⟩
  all_goals
    exact ⟨hwhite, hkey _ (by decide), hwhite, hwhite, scalarText_digitText _, hwhite⟩

theorem sequenceText_append (us : List ObjectUpdate) (u : ObjectUpdate) :
    sequenceText (us ++ [u])
      = sequenceText us ++ (if us = [] then [] else [comma]) ++ u.text := by
  induction us with
  | nil => simp [sequenceText, JsonValue.itemsText, separator, u.text_json]
  | cons v us ih =>
    simp only [sequenceText, List.cons_append, List.map_cons, JsonValue.itemsText,
      reduceCtorEq, if_false] at ih ⊢
    cases us with
    | nil => simp [JsonValue.itemsText, separator, u.text_json]
    | cons w us =>
      rw [if_neg (List.cons_ne_nil _ _)] at ih
      simp only [List.cons_append, List.map_cons, separator, List.isEmpty_cons] at ih ⊢
      rw [ih]
      simp

theorem sequenceText_nil : sequenceText [] = [] := rfl

/-- No object has an empty text. -/
theorem sequenceText_eq_nil_iff (us : List ObjectUpdate) : sequenceText us = [] ↔ us = [] := by
  induction us using List.reverseRecOn with
  | nil => simp [sequenceText_nil]
  | append_singleton us u _ =>
    have hne : u.text ≠ [] := by
      rw [← u.text_json]
      simp [ObjectUpdate.json, JsonValue.text]
    simp [sequenceText_append, hne]

theorem ObjectUpdate.Plain.noNul {u : ObjectUpdate} (h : u.Plain) : NulFree u.text := by
  rw [← u.text_json]
  exact u.json.noNul h.valid

/-! ## Objects that are put into the buffer -/

/-- How much a comma takes. -/
def commaLength (us : List ObjectUpdate) : Nat := if us = [] then 0 else 1

section Holds

variable {objects : Block} {size : Nat} {us : List ObjectUpdate} {u : ObjectUpdate}

theorem Holds.length_lt (h : Holds objects size us) : (sequenceText us).length < size := by
  obtain ⟨-, rest, heq⟩ := Block.text_eq_some_iff.mp h.text
  rw [← h.block, heq]
  simp

/-- The comma, if there is to be one. -/
theorem Holds.addComma (h : Holds objects size us)
    (hfit : (sequenceText us).length + commaLength us < size) :
    ∃ c, addComma objects (sequenceText us).length
        = some (c, (sequenceText us).length + commaLength us) ∧ c.length = size ∧
      c.text = some (sequenceText us ++ if us = [] then [] else [comma]) := by
  rw [commaLength] at hfit ⊢
  by_cases hus : us = []
  · subst hus
    exact ⟨objects, rfl, h.block, by simpa using h.text⟩
  · rw [if_neg hus] at hfit
    have hlen : (sequenceText us).length ≠ 0 := by
      rwa [ne_eq, List.length_eq_zero_iff, sequenceText_eq_nil_iff]
    obtain ⟨c, hc, hlength, htext⟩ :=
      Block.store_append h.text (t := [comma]) (by decide) (by rw [h.block]; exact hfit)
    refine ⟨c, ?_, hlength.trans h.block, ?_⟩
    · rw [Updater.addComma, if_pos hlen]
      rw [List.singleton_append] at hc
      rw [hc, if_neg hus]
      rfl
    · rw [htext, if_neg hus]

/-- An object that is put behind the others, where it fits. -/
theorem Holds.add (h : Holds objects size us) (hu : u.Plain)
    (hfit : (sequenceText us).length + commaLength us + u.text.length < size) :
    ∃ c c', Updater.addComma objects (sequenceText us).length
        = some (c, (sequenceText us).length + commaLength us) ∧
      c.store ((sequenceText us).length + commaLength us) (u.text ++ [0]) = some c' ∧
      Holds c' size (us ++ [u]) := by
  obtain ⟨c, hcomma, hlength, htext⟩ := h.addComma (by omega)
  have hlen : (sequenceText us ++ if us = [] then [] else [comma]).length
      = (sequenceText us).length + commaLength us := by
    rw [commaLength]
    split <;> simp
  obtain ⟨c', hc', hlength', htext'⟩ :=
    Block.store_append htext hu.noNul (by rw [hlen, hlength]; exact hfit)
  rw [hlen] at hc'
  refine ⟨c, c', hcomma, hc', hlength'.trans hlength, ?_, fun v hv => ?_⟩
  · rw [htext', sequenceText_append]
  · rcases List.mem_append.mp hv with hv | hv
    · exact h.valid v hv
    · obtain rfl := List.mem_singleton.mp hv
      exact hu.valid

end Holds

/-! ## Reports -/

/-- A text that is not cut. -/
theorem objectUpdateJson_eq {u : ObjectUpdate} {buflen : Nat} (h : u.text.length < buflen) :
    objectUpdateJson u buflen = u.text := List.take_of_length_le (by omega)

section Report

variable {b : ProgressBuffer} {us : List ObjectUpdate} {u : ObjectUpdate}

/-- What a report comes to: a buffer that it shows, and what it found. -/
def ReportShows (b : ProgressBuffer) (us : List ObjectUpdate) (r : Option Reported) : Prop :=
  ∃ r₀, r = some r₀ ∧ Holds r₀.shown b.size us ∧ r₀.left.length = b.objects.length ∧
    r₀.left.text = b.objects.text

/-- A report of the total alone. -/
theorem report_total (h : Holds b.objects b.size us) (total : ObjectUpdate) {alloc : Bool}
    (hbare : us = [] ∨ alloc = false) (msg : Option CStr) :
    ReportShows b us (b.report total alloc msg) := by
  have hcond : (sequenceText us).length = 0 ∨ alloc = false := by
    rwa [List.length_eq_zero_iff, sequenceText_eq_nil_iff]
  refine ⟨⟨objectUpdateJson total 512, [], b.objects, b.objects⟩, ?_, h, rfl, rfl⟩
  simp only [ProgressBuffer.report, h.text, Option.bind_eq_bind, Option.bind_some, if_pos hcond]

/-- The terminator that is put where it was, or over the comma. -/
theorem left_of_shown {shown : Block} {t : CStr} (h : Holds b.objects b.size us)
    (hlength : shown.length = b.size) (hshown : shown.text = some (sequenceText us ++ t)) :
    ∃ left, shown.store (sequenceText us).length [0] = some left ∧
      left.length = b.objects.length ∧ left.text = b.objects.text := by
  have htext : (shown.store (sequenceText us).length [0]).bind Block.text
      = some (sequenceText us) := by
    cases t with
    | nil =>
      rw [List.append_nil] at hshown
      obtain ⟨left, hleft, -, htext⟩ := Block.store_append hshown (t := []) (by simp [NulFree])
        (by rw [hlength]; exact h.length_lt)
      rw [List.nil_append] at hleft
      rw [hleft, Option.bind_some, htext, List.append_nil]
    | cons c t => exact Block.text_store_zero hshown
  cases hstore : shown.store (sequenceText us).length [0] with
  | none =>
    rw [hstore] at htext
    cases htext
  | some left =>
    rw [hstore, Option.bind_some] at htext
    exact ⟨left, rfl, (Block.length_store hstore).trans (hlength.trans h.block.symm),
      htext.trans h.text.symm⟩

/-- A report without a message shows the objects. -/
theorem report_none (h : Holds b.objects b.size us) (total : ObjectUpdate) (alloc : Bool) :
    ReportShows b us (b.report total alloc none) := by
  by_cases hbare : us = [] ∨ alloc = false
  · exact report_total h total hbare none
  · have hcond : ¬ ((sequenceText us).length = 0 ∨ alloc = false) := by
      rwa [List.length_eq_zero_iff, sequenceText_eq_nil_iff]
    obtain ⟨left, hleft, hlength, htext⟩ := left_of_shown (t := []) h h.block
      (by rw [List.append_nil, h.text])
    refine ⟨⟨objectUpdateJson total 512, sequenceText us, b.objects, left⟩, ?_, h, hlength, htext⟩
    simp only [ProgressBuffer.report, ProgressBuffer.appendMsg, h.text, Option.bind_eq_bind,
      Option.bind_some, if_neg hcond, hleft]

/-- A report with a message shows it behind the objects, where it fits. -/
theorem report_some (h : Holds b.objects b.size us) (total : ObjectUpdate) {alloc : Bool}
    (hfull : ¬ (us = [] ∨ alloc = false)) (hu : u.Plain)
    (hfit : (sequenceText us).length + 1 + u.text.length < b.size) :
    ReportShows b (us ++ [u]) (b.report total alloc (some u.text)) := by
  have hcond : ¬ ((sequenceText us).length = 0 ∨ alloc = false) := by
    rwa [List.length_eq_zero_iff, sequenceText_eq_nil_iff]
  have hcomma : commaLength us = 1 := if_neg fun hus => hfull (.inl hus)
  obtain ⟨c, c', hc, hc', hholds⟩ := h.add hu (by rw [hcomma]; exact hfit)
  rw [hcomma] at hc hc'
  have hshown : c'.text = some (sequenceText us ++ comma :: u.text) := by
    rw [hholds.text, sequenceText_append, if_neg fun hus => hfull (.inl hus), List.append_assoc]
    rfl
  obtain ⟨left, hleft, hlength, htext⟩ := left_of_shown h hholds.block hshown
  refine ⟨⟨objectUpdateJson total 512, sequenceText (us ++ [u]), c', left⟩, ?_, hholds, hlength,
    htext⟩
  have htake : u.text.take (b.size - ((sequenceText us).length + 1) - 1) = u.text :=
    List.take_of_length_le (by omega)
  have hroom : (sequenceText us).length + 1 < b.size := by omega
  have happend : b.appendMsg (sequenceText us).length (some u.text)
      = some (c', (sequenceText us).length) := by
    simp only [ProgressBuffer.appendMsg, hc, Option.bind_eq_bind, Option.bind_some, if_pos hroom,
      htake, hc', Nat.zero_lt_succ, if_true, Nat.add_sub_cancel]
  simp only [ProgressBuffer.report, h.text, Option.bind_eq_bind, Option.bind_some, if_neg hcond,
    happend, hholds.text, hleft]

/-- A larger buffer holds what the smaller one did. -/
theorem holds_realloc (h : Holds b.objects b.size us) {size : Nat} (hsize : b.size ≤ size) :
    Holds (b.objects.realloc size) size us := by
  obtain ⟨hnul, rest, heq⟩ := Block.text_eq_some_iff.mp h.text
  refine ⟨Block.length_realloc _ _, ?_, h.valid⟩
  rw [Block.realloc, List.take_of_length_le (by rw [h.block]; exact hsize), heq,
    List.append_assoc, List.cons_append]
  exact Block.text_append_zero hnul _

/-- **A finished object is put behind the others**, if its text is not cut and the buffer can
grow where it has to. -/
theorem record_holds (h : Holds b.objects b.size us) (hsize : pathMax ≤ b.size) (hu : u.Plain)
    (hlen : u.text.length < 512) {realloc : Bool} (hgrow : b.CanGrow realloc u.text) :
    ∃ b', b.record u realloc = some b' ∧ Holds b'.objects b'.size (us ++ [u]) ∧
      b.size ≤ b'.size := by
  have hlt := h.length_lt
  have hmax : 4096 ≤ b.size := hsize
  have hcomma : (if (sequenceText us).length ≠ 0 then 1 else 0) = commaLength us := by
    simp only [ne_eq, List.length_eq_zero_iff, sequenceText_eq_nil_iff, commaLength, ite_not]
  -- both ways the object is put into a buffer `c` in which it fits
  have hput : ∀ c : ProgressBuffer, Holds c.objects c.size us →
      (sequenceText us).length + commaLength us + u.text.length < c.size →
      ∃ c', ((addComma c.objects (sequenceText us).length).bind fun r =>
          (r.1.store r.2 (u.text ++ [0])).map fun objects => { c with objects := objects })
          = some { c with objects := c' } ∧ Holds c' c.size (us ++ [u]) := by
    intro c hc hfit
    obtain ⟨c₁, c', hadd, hstore, hholds⟩ := hc.add hu hfit
    exact ⟨c', by rw [hadd, Option.bind_some, hstore, Option.map_some], hholds⟩
  by_cases hroom : (u.text.length + commaLength us : Nat) > (b.size - (sequenceText us).length - 1 : Int)
  · have hno : ¬ b.HasRoom u.text := by
      intro hroom'
      by_cases hus : us = []
      · rw [hus, sequenceText_nil, commaLength, if_pos rfl] at hroom
        simp only [List.length_nil] at hroom
        omega
      · have hne : sequenceText us ≠ [] := by rwa [ne_eq, sequenceText_eq_nil_iff]
        have := hroom' _ h.text hne
        rw [commaLength, if_neg hus] at hroom
        omega
    obtain ⟨halloc, hint⟩ := hgrow.resolve_left hno
    have hone : commaLength us ≤ 1 := by
      rw [commaLength]
      split <;> omega
    obtain ⟨c', hc', hholds⟩ := hput ⟨b.objects.realloc (2 * b.size), 2 * b.size⟩
      (holds_realloc h (by omega)) (by dsimp only; omega)
    refine ⟨⟨c', 2 * b.size⟩, ?_, hholds, Nat.le_mul_of_pos_left _ (by decide)⟩
    simp only [ProgressBuffer.record, h.text, Option.bind_eq_bind, Option.bind_some,
      objectUpdateJson_eq hlen, hcomma, if_pos hroom, halloc, if_true, if_pos hint]
    exact hc'
  · obtain ⟨c', hc', hholds⟩ := hput b h (by omega)
    refine ⟨⟨c', b.size⟩, ?_, hholds, Nat.le_refl _⟩
    simp only [ProgressBuffer.record, h.text, Option.bind_eq_bind, Option.bind_some,
      objectUpdateJson_eq hlen, hcomma, if_neg hroom]
    exact hc'

end Report

/-! ## The run -/

/-- The downloads between two events. -/
structure Downloads.Inv (d : Downloads) : Prop extends d.Formed where
  size : pathMax ≤ d.buffer.size

theorem inv_new : Downloads.new.Inv where
  holds := by
    refine ⟨by simp [Downloads.new, ProgressBuffer.new, Block.calloc], ?_, fun u hu => by cases hu⟩
    rfl
  once := List.nodup_nil
  size := Nat.le_refl _

/-- What an event comes to that leaves the list of finished objects alone. -/
theorem reports_keeps {d d₀ : Downloads} (h : d₀.Inv) (hbuffer : d.buffer = d₀.buffer)
    (hfinished : d.finished = d₀.finished) {us : List ObjectUpdate} {alloc : Bool}
    {msg : Option CStr} (hshows : ReportShows d.buffer us (d.buffer.report d.total alloc msg))
    (hus : us = d₀.finished ∨ ∃ u, d.current = some u ∧ us = d₀.finished ++ [u]) :
    ∃ d' r, d.reports alloc msg = some (d', r) ∧ d'.Inv ∧ ∀ r₀, r = some r₀ → r₀.Clean d₀ d' := by
  obtain ⟨r, hr, hshown, hlength, htext⟩ := hshows
  rw [hbuffer] at hshown hlength htext
  refine ⟨{ d with buffer := { d.buffer with objects := r.left } }, some r, ?_, ?_, ?_⟩
  · rw [Downloads.reports, hr, Option.map_some]
  · refine ⟨⟨⟨?_, ?_, ?_⟩, ?_⟩, ?_⟩
    · exact hlength.trans (hbuffer ▸ h.holds.block)
    · exact htext.trans (hfinished ▸ h.holds.text)
    · exact hfinished ▸ h.holds.valid
    · exact hfinished ▸ h.once
    · exact hbuffer ▸ h.size
  · rintro r₀ ⟨⟩
    refine ⟨?_, hlength, htext⟩
    rcases hus with rfl | ⟨u, hu, rfl⟩
    · exact .inl hshown
    · exact .inr ⟨u, hu, hshown⟩

/-- What an event keeps, with the invariant. -/
def KeepsInv (d : Downloads) (e : DownloadEvent) : Prop :=
  ∃ d' r, d.step e = some (d', r) ∧ d'.Inv ∧ ∀ r₀, r = some r₀ → r₀.Clean d d'

/-- An event without a report that leaves the buffer. -/
theorem KeepsInv.quiet {d d' : Downloads} {e : DownloadEvent} (h : d.Inv)
    (hstep : d.step e = some (d', none)) (hbuffer : d'.buffer = d.buffer)
    (hfinished : d'.finished = d.finished) : KeepsInv d e := by
  refine ⟨d', none, hstep, ⟨⟨?_, ?_⟩, ?_⟩, fun r₀ hr => by cases hr⟩
  · rw [hbuffer, hfinished]
    exact h.holds
  · rw [hfinished]
    exact h.once
  · rw [hbuffer]
    exact h.size

/-- The progress of the current object. -/
theorem chunk_keeps {d : Downloads} (h : d.Inv) {written chunkSize : Int}
    {fin msgAlloc alloc : Bool} {now : Nat}
    (hfits : d.Fits (.chunk written chunkSize fin msgAlloc alloc now)) :
    KeepsInv d (.chunk written chunkSize fin msgAlloc alloc now) := by
  cases hcurrent : d.current with
  | none => exact .quiet h (by simp only [Downloads.step, hcurrent]) rfl rfl
  | some u =>
    by_cases hfin : fin = true ∧ chunkSize = written
    · have hstep : d.step (.chunk written chunkSize fin msgAlloc alloc now) = some
          ({ d with current := some (u.add chunkSize), total := d.total.add chunkSize }, none) := by
        simp only [Downloads.step, hcurrent, if_pos hfin]
      exact .quiet h hstep rfl rfl
    by_cases hmsg : msgAlloc = false
    · exact .quiet h (by simp only [Downloads.step, hcurrent, if_neg hfin, if_pos hmsg]) rfl rfl
    by_cases hwritten : written ≠ chunkSize
    · exact .quiet h (by simp only [Downloads.step, hcurrent, if_neg hfin, if_neg hmsg,
        if_pos hwritten]) rfl rfl
    let u' := { u.add chunkSize with currentTime := now }
    let d' := { d with current := some u', total := d.total.add chunkSize }
    have hstep : d.step (.chunk written chunkSize fin msgAlloc alloc now)
        = d'.reports alloc (some (objectUpdateJson u' 1024)) := by
      simp only [Downloads.step, hcurrent, if_neg hfin, if_neg hmsg, if_neg hwritten, d', u']
    rw [KeepsInv, hstep]
    have hheld := h.holds
    by_cases hbare : d.finished = [] ∨ alloc = false
    · have hshows := report_total hheld d'.total hbare (some (objectUpdateJson u' 1024))
      exact reports_keeps (d := d') h rfl rfl hshows (.inl rfl)
    · have hobjects : d.buffer.objects.text ≠ some [] := by
        rw [hheld.text, ne_eq, Option.some_inj, sequenceText_eq_nil_iff]
        exact fun hus => hbare (.inl hus)
      obtain ⟨hplain, hlen, hroom⟩ := hfits
        (by cases fin with
          | false => rfl
          | true => exact absurd ⟨rfl, (not_ne_iff.mp hwritten).symm⟩ hfin)
        (not_ne_iff.mp hwritten) (Bool.of_not_eq_false hmsg)
        (Bool.of_not_eq_false fun h => hbare (.inr h)) hobjects u hcurrent
      have hne : sequenceText d.finished ≠ [] := fun hnil => hobjects (by rw [hheld.text, hnil])
      have hshows := report_some hheld d'.total hbare hplain (hroom _ hheld.text hne)
      rw [objectUpdateJson_eq hlen]
      exact reports_keeps (d := d') h rfl rfl hshows (.inr ⟨u', rfl, rfl⟩)

/-- **One event** from a well-formed buffer, of the kind that the code takes care of. -/
theorem step_keeps {d : Downloads} (h : d.Inv) {e : DownloadEvent} (hfits : d.Fits e) :
    KeepsInv d e := by
  cases e with
  | begin totalSize now alloc =>
    let d' := { d with total := ⟨str "total", str "none", totalSize, now, now, 0⟩ }
    exact reports_keeps (d := d') h rfl rfl (report_none h.holds d'.total alloc) (.inl rfl)
  | report now alloc =>
    let d' := { d with total := { d.total with currentTime := now } }
    exact reports_keeps (d := d') h rfl rfl (report_none h.holds d'.total alloc) (.inl rfl)
  | start name id size now => exact .quiet h rfl rfl rfl
  | retry => exact .quiet h rfl rfl rfl
  | chunk written chunkSize fin msgAlloc alloc now => exact chunk_keeps h hfits
  | finish now realloc =>
    cases hcurrent : d.current with
    | none => exact .quiet h (by simp only [Downloads.step, hcurrent]) rfl rfl
    | some u =>
      obtain ⟨hplain, hlen, hgrow, hnew⟩ := hfits u hcurrent
      obtain ⟨b, hb, hholds, hsize⟩ := record_holds h.holds h.size hplain hlen hgrow
      refine ⟨{ d with
          buffer := b
          current := none
          finished := d.finished ++ [{ u with currentTime := now }] }, none, ?_, ?_,
        fun r₀ hr => by cases hr⟩
      · simp only [Downloads.step, hcurrent, hb, Option.map_some]
      · refine ⟨⟨hholds, ?_⟩, Nat.le_trans h.size hsize⟩
        rw [List.map_append, List.nodup_append]
        refine ⟨h.once, by simp, fun a ha b hb => ?_⟩
        obtain rfl := List.mem_singleton.mp hb
        exact fun hab => hnew (hab ▸ ha)

/-- **The progress buffer stays well formed** in every order of downloads and reports whose
objects are not cut and have room. -/
theorem progressKept {es : List DownloadEvent}
    (h : downloadSystem.Along FitsAt (some .new) es) :
    downloadSystem.Along Keeps (some .new) es := by
  have hstep : ∀ (d : Option Downloads) (e : DownloadEvent), (∃ d₀, d = some d₀ ∧ d₀.Inv) →
      FitsAt d e → (∃ d₀, downloadSystem.step d e = some d₀ ∧ d₀.Inv) ∧ Keeps d e := by
    rintro _ e ⟨d, rfl, hinv⟩ hfits
    obtain ⟨d', r, hd', hinv', hclean⟩ := step_keeps hinv (hfits d rfl)
    refine ⟨⟨d', ?_, hinv'⟩, d, d', r, rfl, hd', hinv'.toFormed, hclean⟩
    simp only [downloadSystem, Option.bind_some, hd', Option.map_some]
  exact (System.along_of_invariant hstep ⟨.new, rfl, inv_new⟩ h).1

/-- The downloads of an update with two objects, and a report of the second one behind the first. -/
def twoDownloads : List DownloadEvent :=
  [.begin 16 1 true, .start (str "bsp/kernel.img") (str "4f53") 8 1, .finish 3 false,
    .report 3 true, .start (str "app/root.squashfs") (str "5e21") 8 4,
    .chunk 4 4 false true true 5, .finish 6 false, .report 6 true]

/-- What the condition on an event looks at. -/
structure Seen where
  current : Option ObjectUpdate
  size : Nat
  len : Option Nat
  finished : List (CStr × CStr)
  deriving DecidableEq

def Downloads.seen (d : Downloads) : Seen where
  current := d.current
  size := d.buffer.size
  len := d.buffer.objects.text.map List.length
  finished := d.finished.map ObjectUpdate.object

theorem hasRoom_of_seen {d : Downloads} {len : Nat} (hlen : d.seen.len = some len) {msg : CStr}
    (hroom : len + 1 + msg.length < d.seen.size) : d.buffer.HasRoom msg := by
  intro buff hbuff _
  have hbuffer : d.buffer.objects.text.map List.length = some len := hlen
  have hsize : len + 1 + msg.length < d.buffer.size := hroom
  rw [hbuff, Option.map_some, Option.some_inj] at hbuffer
  omega

/-- The end of a download whose object is short, new and has room. -/
theorem fitsAt_finish {s : Option Downloads} {u : ObjectUpdate} {size len now : Nat}
    {finished : List (CStr × CStr)} {realloc : Bool}
    (hseen : s.map Downloads.seen = some ⟨some u, size, some len, finished⟩) (hplain : u.Plain)
    (hlen : ({ u with currentTime := now } : ObjectUpdate).text.length < 512)
    (hroom : len + 1 + ({ u with currentTime := now } : ObjectUpdate).text.length < size)
    (hnew : u.object ∉ finished) : FitsAt s (.finish now realloc) := by
  rintro d rfl
  have hd : d.seen = ⟨some u, size, some len, finished⟩ := Option.some.inj hseen
  have hcurrent : d.current = some u := congrArg Seen.current hd
  have hfinished : d.finished.map ObjectUpdate.object = finished := congrArg Seen.finished hd
  intro v hv
  obtain rfl := Option.some.inj (hcurrent.symm.trans hv)
  exact ⟨hplain, hlen, .inl (hasRoom_of_seen (by rw [hd]) (by rw [hd]; exact hroom)),
    hfinished ▸ hnew⟩

/-- The buffer is kept, also where the report of the second object goes behind the first. -/
theorem progressKept_two :
    downloadSystem.Along Keeps (some .new) twoDownloads ∧
      ((downloadSystem.run (some .new) (twoDownloads.take 5)).bind fun d =>
          (d.step (.chunk 4 4 false true true 5)).bind fun e => e.2.bind fun r => r.shown.text)
        = some (sequenceText [⟨str "bsp/kernel.img", str "4f53", 8, 1, 3, 0⟩,
            ⟨str "app/root.squashfs", str "5e21", 8, 4, 5, 4⟩]) := by
  have hplain : ∀ {name id : CStr} {size start now done : Nat}, AllUnescaped name →
      AllUnescaped id → (⟨name, id, size, start, now, done⟩ : ObjectUpdate).Plain :=
    fun hname hid => ⟨stringBody_of_unescaped hname, stringBody_of_unescaped hid⟩
  have hfirst : FitsAt (downloadSystem.run (some .new) (twoDownloads.take 2))
      (.finish 3 false) := by
    have hseen : (downloadSystem.run (some .new) (twoDownloads.take 2)).map Downloads.seen
        = some ⟨some ⟨str "bsp/kernel.img", str "4f53", 8, 1, 1, 0⟩, 4096, some 0, []⟩ := by
      decide +kernel
    exact fitsAt_finish hseen (hplain (by decide) (by decide)) (by decide +kernel)
      (by decide +kernel) (by decide +kernel)
  have hchunk : FitsAt (downloadSystem.run (some .new) (twoDownloads.take 5))
      (.chunk 4 4 false true true 5) := by
    rintro d hd - - - - -
    have hseen : (downloadSystem.run (some .new) (twoDownloads.take 5)).map Downloads.seen
        = some ⟨some ⟨str "app/root.squashfs", str "5e21", 8, 4, 4, 0⟩, 4096, some 119,
            [(str "bsp/kernel.img", str "4f53")]⟩ := by decide +kernel
    rw [hd, Option.map_some, Option.some_inj] at hseen
    have hcurrent : d.current = some ⟨str "app/root.squashfs", str "5e21", 8, 4, 4, 0⟩ :=
      congrArg Seen.current hseen
    intro v hv
    obtain rfl := Option.some.inj (hcurrent.symm.trans hv)
    exact ⟨hplain (by decide) (by decide), by decide +kernel,
      hasRoom_of_seen (by rw [hseen]) (by rw [hseen]; decide +kernel)⟩
  have hsecond : FitsAt (downloadSystem.run (some .new) (twoDownloads.take 6))
      (.finish 6 false) := by
    have hseen : (downloadSystem.run (some .new) (twoDownloads.take 6)).map Downloads.seen
        = some ⟨some ⟨str "app/root.squashfs", str "5e21", 8, 4, 5, 4⟩, 4096, some 119,
            [(str "bsp/kernel.img", str "4f53")]⟩ := by decide +kernel
    exact fitsAt_finish hseen (hplain (by decide) (by decide)) (by decide +kernel)
      (by decide +kernel) (by decide +kernel)
  exact ⟨progressKept ⟨fun _ _ => trivial, fun _ _ => trivial, hfirst, fun _ _ => trivial,
    fun _ _ => trivial, hchunk, hsecond, fun _ _ => trivial, trivial⟩, by decide +kernel⟩

/-- An object whose name is a long path. -/
def longDownload : List DownloadEvent :=
  [.start ((List.replicate 250 (str "d/")).flatten ++ str "f") (str "4f53") 8 1, .finish 3 false]

/-- The text of an object with a long name is cut. -/
theorem long_name_cut :
    ¬ ∀ es : List DownloadEvent, downloadSystem.Along Keeps (some .new) es := by
  intro h
  obtain ⟨-, ⟨d₀, d', r, hd₀, hstep, hformed, -⟩, -⟩ := h longDownload
  have hlengths : (downloadSystem.run (some .new) longDownload).map (fun d =>
      (d.buffer.objects.text.map List.length, (sequenceText d.finished).length))
        = some (some 511, 606) := by decide +kernel
  have hrun : downloadSystem.run (some .new) longDownload = some d' := by
    rw [longDownload, System.run_cons, hd₀, System.run_cons, System.run_nil]
    simp only [downloadSystem, Option.bind_some, hstep, Option.map_some]
  rw [hrun, Option.map_some, hformed.holds.text] at hlengths
  obtain ⟨hcut, hwhole⟩ := Prod.mk.inj (Option.some.inj hlengths)
  rw [Option.map_some, hwhole] at hcut
  cases hcut

end Pantavisor.Updater
