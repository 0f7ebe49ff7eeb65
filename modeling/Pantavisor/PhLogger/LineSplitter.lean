/-
Pantavisor.PhLogger.LineSplitter — `pvlogger` cuts a container's log into records
(`pvlogger_flush`).

A call is given some bytes of the log file, with a terminator behind them. Up to the next
line feed, or the next carriage return if there is no line feed, they are put behind what
is in `logger_cmd` already; there the record ends, and the byte that ends it is skipped.
What does not fit ends the record too: then nothing needs to be skipped, but where the line
feed was found farther on, one byte is (`Fits`).

Nothing else goes missing, in whatever pieces the log comes, and the buffer is never
written behind its end (`flushRound_spec`).
-/
import Pantavisor.Lib.Lines
import Pantavisor.PhLogger.Record

namespace Pantavisor.PvLogger

open Pantavisor.Lib Pantavisor.PhLogger

/-! ## The calls -/

def newline : UInt8 := 10

def carriageReturn : UInt8 := 13

/-- The levels of the records. -/
def info : Int := 3

def debug : Int := 4

/-- `PV_LOG_BUF_SIZE` -/
def pvLogBufSize : Nat := 4096

/-- `logger_cmd` and `logger_pos`, and what `pv_log` was called with. -/
structure Logger where
  loggerCmd : CStr
  loggerPos : Nat
  logged : List (Int × CStr)
  deriving DecidableEq

namespace Logger

/-- `pv_log` -/
def pvLog (l : Logger) (level : Int) (msg : CStr) : Logger :=
  { l with logged := l.logged ++ [(level, msg)] }

/-- `memset` of the buffer, and the position at its start. -/
def clear (l : Logger) : Logger :=
  { l with loggerCmd := List.replicate pvLogBufSize 0, loggerPos := 0 }

/-- The room behind the position, or in a buffer that is logged because it has none. -/
def availBuflen (l : Logger) : Nat :=
  if pvLogBufSize - 1 - l.loggerPos = 0 then pvLogBufSize - 1 else pvLogBufSize - 1 - l.loggerPos

/-- A full buffer is logged first. -/
def makeRoom (l : Logger) : Logger :=
  if pvLogBufSize - 1 - l.loggerPos = 0 then
    (l.pvLog info ((cstrAt l.loggerCmd 0).take (pvLogBufSize - 1))).clear
  else l

end Logger

/-- `strchr` for the end of a record. -/
def newLineAt (buf : CStr) : Option Nat :=
  match (cstrAt buf 0).idxOf? newline with
  | some k => some k
  | none => (cstrAt buf 0).idxOf? carriageReturn

/-- A round of the loop of `pvlogger_flush`, and what is left of the bytes. -/
def flushRound (l : Logger) (buf : CStr) : Option (Logger × CStr) :=
  let avail := l.availBuflen
  let l := l.makeRoom
  let found := newLineAt buf
  let toWrite := found.getD buf.length
  let written := if toWrite > avail then avail else toWrite
  (snprintfAt l.loggerCmd l.loggerPos (avail + 1 : Nat) ((cstrAt buf 0).take written)).map
    fun cmd =>
      let l := { l with loggerCmd := cmd, loggerPos := l.loggerPos + written }
      if found.isSome then ((l.pvLog info (cstrAt l.loggerCmd 0)).clear, buf.drop (written + 1))
      else (l, buf.drop written)

/-- The loop, for a number of rounds. Each takes a byte at least. -/
def flushLoop : Nat → Logger → CStr → Option Logger
  | 0, l, _ => some l
  | rounds + 1, l, buf =>
    if buf.length > 0 then (flushRound l buf).bind fun r => flushLoop rounds r.1 r.2 else some l

/-- `pvlogger_flush`, with the outcome of `set_logger_xattr`. -/
def pvloggerFlush (l : Logger) (buf : CStr) (ret : Int) : Option Logger :=
  (flushLoop buf.length l buf).map fun l =>
    if ret < 0 then
      l.pvLog debug (str "Setting xattr failed, return code is " ++ intText ret ++ str " ")
    else l

/-- Successive calls. -/
def flushAll : Logger → List (CStr × Int) → Option Logger
  | l, [] => some l
  | l, call :: calls => (pvloggerFlush l call.1 call.2).bind fun l => flushAll l calls

/-- The logger as `start_pvlogger` leaves it. -/
def Logger.start : Logger := ⟨List.replicate pvLogBufSize 0, 0, []⟩

/-! ## What is lost -/

/-- A byte that ends a record. -/
def isEol (c : UInt8) : Bool := c == newline || c == carriageReturn

/-- The records of the log, and what is still in the buffer. -/
def Logger.text (l : Logger) : CStr :=
  ((l.logged.filter fun r => r.1 = info).map (·.2)).flatten ++ cstrAt l.loggerCmd 0

/-- The records and the buffer are the log without some line feeds and carriage returns. -/
def LosesNothing (calls : List (CStr × Int)) : Prop :=
  ∃ l, flushAll .start calls = some l ∧ Thinned isEol (calls.map (·.1)).flatten l.text

/-- What is in front of the end of a record fits behind the position, or the byte that does
not fit is a carriage return. -/
def Fits (l : Logger) (buf : CStr) : Prop :=
  ∀ k, newLineAt buf = some k → k ≤ l.availBuflen ∨ buf[l.availBuflen]? = some carriageReturn

/-- Every round of a call fits. -/
def RoundsFit : Nat → Logger → CStr → Prop
  | 0, _, _ => True
  | rounds + 1, l, buf =>
    buf = [] ∨ (Fits l buf ∧ ∀ r, flushRound l buf = some r → RoundsFit rounds r.1 r.2)

/-- Every round of every call fits. -/
def CallsFit : Logger → List (CStr × Int) → Prop
  | _, [] => True
  | l, call :: calls =>
    RoundsFit call.1.length l call.1 ∧
      ∀ l', pvloggerFlush l call.1 call.2 = some l' → CallsFit l' calls

/-! ## A round -/

/-- The buffer has what was written up to the position, and zeros. -/
def Logger.Holds (l : Logger) (t : CStr) : Prop :=
  NulFree t ∧ t.length = l.loggerPos ∧ t.length < pvLogBufSize ∧
    l.loggerCmd = t ++ List.replicate (pvLogBufSize - t.length) 0

namespace Logger

variable {l : Logger} {t : CStr}

theorem holds_start : start.Holds [] := by
  refine ⟨by decide, rfl, by decide, rfl⟩

theorem holds_clear : l.clear.Holds [] := by
  refine ⟨by decide, rfl, (by decide : 0 < pvLogBufSize), rfl⟩

theorem Holds.cstr (h : l.Holds t) : cstrAt l.loggerCmd 0 = t := by
  obtain ⟨hnul, -, hlen, hcmd⟩ := h
  obtain ⟨n, hn⟩ : ∃ n, pvLogBufSize - t.length = n + 1 := ⟨pvLogBufSize - t.length - 1, by omega⟩
  rw [hcmd, hn, List.replicate_succ]
  exact @cstrAt_append [] t _ hnul

/-- A text that there is room for is put behind what the buffer has. -/
theorem Holds.snprintf (h : l.Holds t) {s : CStr} {avail : Nat} (hs : NulFree s)
    (hroom : t.length + s.length < pvLogBufSize) (havail : s.length ≤ avail) :
    ∃ cmd, snprintfAt l.loggerCmd l.loggerPos (avail + 1 : Nat) s = some cmd ∧
      Holds { l with loggerCmd := cmd, loggerPos := l.loggerPos + s.length } (t ++ s) := by
  obtain ⟨hnul, hpos, hlen, hcmd⟩ := h
  have htake : s.take (((avail + 1 : Nat) : Int).toNat - 1) = s :=
    List.take_of_length_le (by omega)
  have hfits : (s ++ [0]).length ≤ (List.replicate (pvLogBufSize - t.length) (0 : UInt8)).length := by
    simp only [List.length_append, List.length_singleton, List.length_replicate]
    omega
  refine ⟨t ++ s ++ List.replicate (pvLogBufSize - (t ++ s).length) 0, ?_, ?_⟩
  · rw [snprintfAt, if_neg (by omega), if_neg (by omega), htake, hcmd, ← hpos, copyAt_append hfits,
      List.drop_replicate]
    simp only [List.length_append, List.length_singleton]
    obtain ⟨n, hn⟩ : ∃ n, pvLogBufSize - (t.length + s.length) = n + 1 :=
      ⟨pvLogBufSize - (t.length + s.length) - 1, by omega⟩
    have hrest : pvLogBufSize - t.length - (s.length + 1) = n := by omega
    rw [hn, hrest, List.replicate_succ]
    simp
  · refine ⟨?_, ?_, ?_, rfl⟩
    · rw [NulFree, List.mem_append]
      exact fun hm => hm.elim hnul hs
    · rw [List.length_append, hpos]
    · rw [List.length_append]
      exact hroom

theorem availBuflen_pos (l : Logger) : 0 < l.availBuflen := by
  unfold availBuflen
  split
  · decide
  · omega

theorem Holds.text_eq (h : l.Holds t) :
    l.text = ((l.logged.filter fun r => r.1 = info).map (·.2)).flatten ++ t := by
  rw [text, h.cstr]

theorem text_pvLog_clear (h : l.Holds t) : ((l.pvLog info t).clear).text = l.text := by
  rw [text, text, h.cstr, holds_clear.cstr]
  simp [pvLog, clear]

/-- A full buffer is logged, and there is room then. -/
theorem Holds.makeRoom (h : l.Holds t) :
    ∃ t', l.makeRoom.Holds t' ∧ l.makeRoom.text = l.text ∧ t' <:+ t ∧
      t'.length + l.availBuflen + 1 = pvLogBufSize := by
  obtain ⟨-, hpos, hlen, -⟩ := id h
  unfold Logger.makeRoom Logger.availBuflen
  split
  · rename_i hfull
    have htake : (cstrAt l.loggerCmd 0).take (pvLogBufSize - 1) = t := by
      rw [h.cstr, List.take_of_length_le (by omega)]
    refine ⟨[], holds_clear, ?_, List.nil_suffix, rfl⟩
    rw [htake, text_pvLog_clear h]
  · exact ⟨t, h, rfl, List.suffix_refl t, by omega⟩

end Logger

variable {l : Logger} {t buf : CStr}

/-- What ends a record, and no line feed in front of it. -/
theorem newLineAt_spec (hbuf : NulFree buf) {k : Nat} (h : newLineAt buf = some k) :
    (∃ c, buf[k]? = some c ∧ isEol c = true) ∧ newline ∉ buf.take k := by
  have hnot : ∀ {n : Nat}, (∀ (j : Nat) (hj : j < n), ∀ hlt : j < buf.length, buf[j] ≠ newline) →
      newline ∉ buf.take n := by
    intro n hall hmem
    obtain ⟨j, hj, heq⟩ := List.mem_take_iff_getElem.mp hmem
    exact hall j (by omega) (by omega) heq
  unfold newLineAt at h
  rw [cstrAt_zero hbuf] at h
  split at h
  · rename_i j hj
    cases h
    obtain ⟨hlt, heq, hbefore⟩ := List.idxOf?_eq_some_iff.mp hj
    exact ⟨⟨newline, by rw [List.getElem?_eq_getElem hlt, heq], by decide⟩,
      hnot fun i hi _ => hbefore i hi⟩
  · rename_i hnone
    obtain ⟨hlt, heq, -⟩ := List.idxOf?_eq_some_iff.mp h
    refine ⟨⟨carriageReturn, by rw [List.getElem?_eq_getElem hlt, heq], by decide⟩, fun hm => ?_⟩
    exact List.idxOf?_eq_none_iff.mp hnone (List.mem_of_mem_take hm)

theorem newline_not_mem (hbuf : NulFree buf) (h : newLineAt buf = none) : newline ∉ buf := by
  unfold newLineAt at h
  rw [cstrAt_zero hbuf] at h
  split at h
  · cases h
  · exact List.idxOf?_eq_none_iff.mp ‹_›

/-- A round puts some bytes of the log into the text, skips at most one, and takes one at
least. What it skips ends a record if the round fits, and only then. The buffer has the end
of what was taken, from behind the last line feed on or later. -/
theorem flushRound_spec (h : l.Holds t) (hbuf : NulFree buf) (hne : buf ≠ []) :
    ∃ l' t' kept gone rest, flushRound l buf = some (l', rest) ∧ l'.Holds t' ∧
      buf = kept ++ gone ++ rest ∧ rest.length < buf.length ∧ l'.text = l.text ++ kept ∧
      (Thinned isEol gone [] ↔ Fits l buf) ∧
      (t' <:+ t ++ kept ++ gone ∧ (newline ∉ t → newline ∉ t')) := by
  obtain ⟨t₁, hholds, htext, hsuffix, hroom⟩ := h.makeRoom
  have hpos := l.availBuflen_pos
  have hlength : 0 < buf.length := List.length_pos_of_ne_nil hne
  -- what is written, for any number of bytes that fits
  have hwrite : ∀ written, written ≤ l.availBuflen → written ≤ buf.length →
      ∃ cmd, snprintfAt l.makeRoom.loggerCmd l.makeRoom.loggerPos (l.availBuflen + 1 : Nat)
          ((cstrAt buf 0).take written) = some cmd ∧
        let l' : Logger := { l.makeRoom with
          loggerCmd := cmd, loggerPos := l.makeRoom.loggerPos + written }
        l'.Holds (t₁ ++ buf.take written) ∧ l'.text = l.text ++ buf.take written := by
    intro written hle hle'
    have hlen : (buf.take written).length = written := by
      rw [List.length_take, Nat.min_eq_left hle']
    obtain ⟨cmd, hcmd, hholds'⟩ := hholds.snprintf (s := buf.take written)
      (fun hm => hbuf (List.mem_of_mem_take hm)) (by omega) (by omega : _ ≤ l.availBuflen)
    rw [hlen] at hholds'
    refine ⟨cmd, by rw [cstrAt_zero hbuf]; exact hcmd, hholds', ?_⟩
    rw [hholds'.text_eq, ← htext, hholds.text_eq, List.append_assoc]
  cases hfound : newLineAt buf with
  | none =>
    obtain ⟨cmd, hcmd, hholds', htext'⟩ := hwrite (min buf.length l.availBuflen) (by omega) (by omega)
    refine ⟨_, _, buf.take (min buf.length l.availBuflen), [],
      buf.drop (min buf.length l.availBuflen), ?_, hholds', ?_, ?_, htext', ?_, ?_⟩
    · have hmin : (if buf.length > l.availBuflen then l.availBuflen else buf.length)
          = min buf.length l.availBuflen := by
        rw [Nat.min_def]
        split <;> split <;> omega
      simp only [flushRound, hfound, Option.getD_none, hmin, hcmd, Option.map_some,
        Option.isSome_none, Bool.false_eq_true, if_false]
    · simp
    · rw [List.length_drop]
      omega
    · exact iff_of_true .nil fun k hk => by simp [hfound] at hk
    · obtain ⟨front, rfl⟩ := hsuffix
      refine ⟨⟨front, by simp⟩, fun ht hm => ?_⟩
      rcases List.mem_append.mp hm with hm | hm
      · exact ht (List.mem_append_right _ hm)
      · exact newline_not_mem hbuf hfound (List.mem_of_mem_take hm)
  | some k =>
    obtain ⟨⟨c, hc, heol⟩, hbefore⟩ := newLineAt_spec hbuf hfound
    have hk : k < buf.length := (List.getElem?_eq_some_iff.mp hc).1
    obtain ⟨cmd, hcmd, hholds', htext'⟩ := hwrite (min k l.availBuflen) (by omega) (by omega)
    have hlt : min k l.availBuflen < buf.length := by omega
    let l' : Logger := { l.makeRoom with
      loggerCmd := cmd, loggerPos := l.makeRoom.loggerPos + min k l.availBuflen }
    refine ⟨(l'.pvLog info (cstrAt l'.loggerCmd 0)).clear, [], buf.take (min k l.availBuflen),
      [buf[min k l.availBuflen]], buf.drop (min k l.availBuflen + 1), ?_, Logger.holds_clear,
      ?_, ?_, ?_, ?_, List.nil_suffix, fun _ => List.not_mem_nil⟩
    · have hmin : (if k > l.availBuflen then l.availBuflen else k) = min k l.availBuflen := by
        rw [Nat.min_def]
        split <;> split <;> omega
      simp only [flushRound, hfound, Option.getD_some, hmin, hcmd, Option.map_some,
        Option.isSome_some, if_true]
      rfl
    · rw [List.append_assoc, List.singleton_append, List.getElem_cons_drop hlt,
        List.take_append_drop]
    · rw [List.length_drop]
      omega
    · rw [hholds'.cstr, Logger.text_pvLog_clear hholds', htext']
    · rw [thinned_singleton]
      by_cases hle : k ≤ l.availBuflen
      · -- the end of the record itself is skipped
        obtain rfl : buf[k] = c := by
          rw [List.getElem?_eq_getElem hk] at hc
          exact Option.some.inj hc
        simp only [Nat.min_eq_left hle]
        exact iff_of_true heol fun j hj => .inl (by rw [hfound] at hj; cases hj; exact hle)
      · -- a byte in front of it is
        have havail : min k l.availBuflen = l.availBuflen := by omega
        have hnot : buf[l.availBuflen] ≠ newline := by
          intro heq
          exact hbefore (List.mem_take_iff_getElem.mpr ⟨l.availBuflen, by omega, heq⟩)
        have hfits : Fits l buf ↔ buf[l.availBuflen]? = some carriageReturn := by
          constructor
          · intro hall
            exact (hall k hfound).resolve_left hle
          · exact fun hcr _ _ => .inr hcr
        simp only [havail, hfits, List.getElem?_eq_getElem (by omega : l.availBuflen < buf.length)]
        simp only [isEol, Bool.or_eq_true, beq_iff_eq, hnot, false_or, Option.some.injEq]

/-! ## A run -/

/-- The rounds of a call: by induction on their number, the text grows by what is left of
the bytes, and only ends of records are missing if all rounds fit. -/
theorem flushLoop_spec {rounds : Nat} (h : l.Holds t) (hbuf : NulFree buf)
    (hle : buf.length ≤ rounds) :
    ∃ l' t' kept, flushLoop rounds l buf = some l' ∧ l'.Holds t' ∧ kept.Sublist buf ∧
      l'.text = l.text ++ kept ∧ (Thinned isEol buf kept ↔ RoundsFit rounds l buf) := by
  induction rounds generalizing l t buf with
  | zero =>
    obtain rfl : buf = [] := List.eq_nil_of_length_eq_zero (by omega)
    exact ⟨l, t, [], rfl, h, List.Sublist.refl _, by simp, iff_of_true .nil trivial⟩
  | succ rounds ih =>
    by_cases hne : buf = []
    · subst hne
      exact ⟨l, t, [], rfl, h, List.Sublist.refl _, by simp, iff_of_true .nil (.inl rfl)⟩
    · obtain ⟨l₁, t₁, kept₁, gone, rest, hround, h₁, heq, hlt, htext₁, hfits, -⟩ :=
        flushRound_spec h hbuf hne
      have hrest : NulFree rest := fun hm => hbuf (by rw [heq]; simp [hm])
      obtain ⟨l₂, t₂, kept₂, hloop, h₂, hsub, htext₂, hthin⟩ := ih h₁ hrest (by omega)
      have hgone : (kept₁ ++ []).Sublist (kept₁ ++ gone) :=
        (List.Sublist.refl kept₁).append (List.nil_sublist gone)
      refine ⟨l₂, t₂, kept₁ ++ [] ++ kept₂, ?_, h₂, ?_, ?_, ?_⟩
      · rw [flushLoop, if_pos (List.length_pos_of_ne_nil hne), hround]
        exact hloop
      · rw [heq]
        exact hgone.append hsub
      · rw [htext₂, htext₁]
        simp
      · have hrounds : RoundsFit (rounds + 1) l buf ↔ Fits l buf ∧ RoundsFit rounds l₁ rest := by
          simp only [RoundsFit, hne, false_or, hround, Option.some.injEq, forall_eq']
        rw [hrounds, heq, Thinned.append_iff hgone hsub,
          Thinned.append_iff (List.Sublist.refl kept₁) (List.nil_sublist gone), ← heq, hfits, hthin,
          and_iff_right (Thinned.refl kept₁)]

/-- A call. What it says about the attribute is no record of the log. -/
theorem pvloggerFlush_spec (h : l.Holds t) (hbuf : NulFree buf) (ret : Int) :
    ∃ l' t' kept, pvloggerFlush l buf ret = some l' ∧ l'.Holds t' ∧ kept.Sublist buf ∧
      l'.text = l.text ++ kept ∧ (Thinned isEol buf kept ↔ RoundsFit buf.length l buf) := by
  obtain ⟨l₁, t₁, kept, hloop, h₁, hsub, htext, hthin⟩ := flushLoop_spec h hbuf (Nat.le_refl _)
  rw [pvloggerFlush, hloop, Option.map_some]
  split
  · refine ⟨_, t₁, kept, rfl, h₁, hsub, ?_, hthin⟩
    rw [← htext]
    simp [Logger.text, Logger.pvLog, info, debug]
  · exact ⟨l₁, t₁, kept, rfl, h₁, hsub, htext, hthin⟩

/-- Successive calls: the text is what is left of the log. -/
theorem flushAll_spec {calls : List (CStr × Int)} (h : l.Holds t)
    (hcalls : ∀ call ∈ calls, NulFree call.1) :
    ∃ l' kept, flushAll l calls = some l' ∧ kept.Sublist (calls.map (·.1)).flatten ∧
      l'.text = l.text ++ kept ∧
        (Thinned isEol (calls.map (·.1)).flatten kept ↔ CallsFit l calls) := by
  induction calls generalizing l t with
  | nil => exact ⟨l, [], rfl, List.Sublist.refl _, by simp, iff_of_true .nil trivial⟩
  | cons call calls ih =>
    obtain ⟨hcall, hcalls⟩ := List.forall_mem_cons.mp hcalls
    obtain ⟨l₁, t₁, kept₁, hflush, h₁, hsub₁, htext₁, hthin₁⟩ :=
      pvloggerFlush_spec h hcall call.2
    obtain ⟨l₂, kept₂, hall, hsub₂, htext₂, hthin₂⟩ := ih h₁ hcalls
    refine ⟨l₂, kept₁ ++ kept₂, ?_, hsub₁.append hsub₂, ?_, ?_⟩
    · rw [flushAll, hflush]
      exact hall
    · rw [htext₂, htext₁, List.append_assoc]
    · have hfit : CallsFit l (call :: calls) ↔
          RoundsFit call.1.length l call.1 ∧ CallsFit l₁ calls := by
        simp only [CallsFit, hflush, Option.some.injEq, forall_eq']
      rw [hfit, List.map_cons, List.flatten_cons, Thinned.append_iff hsub₁ hsub₂, hthin₁, hthin₂]

/-! ## Short lines -/

/-- Between two line feeds there is less than a buffer. -/
def ShortLines (log : CStr) : Prop :=
  ∀ line, newline ∉ line → line <:+: log → line.length < pvLogBufSize

theorem ShortLines.of_suffix {log tail : CStr} (h : ShortLines log) (htail : tail <:+ log) :
    ShortLines tail :=
  fun line hline hin => h line hline (hin.trans htail.isInfix)

/-- A line that is not longer than the buffer fits behind its own beginning. -/
theorem fits_of_short {more : CStr} (h : l.Holds t) (ht : newline ∉ t) (hbuf : NulFree buf)
    (hshort : ShortLines (t ++ buf ++ more)) : Fits l buf := by
  intro k hk
  obtain ⟨⟨c, hc, -⟩, hbefore⟩ := newLineAt_spec hbuf hk
  have hlt : k < buf.length := (List.getElem?_eq_some_iff.mp hc).1
  have hlen : (t ++ buf.take k).length < pvLogBufSize := by
    refine hshort _ ?_ ⟨[], buf.drop k ++ more, ?_⟩
    · rw [List.mem_append]
      exact fun hm => hm.elim ht hbefore
    · rw [List.nil_append, List.append_assoc, ← List.append_assoc (buf.take k),
        List.take_append_drop, List.append_assoc]
  obtain ⟨-, hpos, -, -⟩ := h
  rw [List.length_append, List.length_take, Nat.min_eq_left (by omega), hpos] at hlen
  refine .inl ?_
  unfold Logger.availBuflen
  split <;> omega

/-- By induction on the rounds: what is in the buffer is the end of what was taken, without
a line feed, so every line fits. -/
theorem roundsFit_of_short {rounds : Nat} {more : CStr} (h : l.Holds t) (ht : newline ∉ t)
    (hbuf : NulFree buf) (hle : buf.length ≤ rounds) (hshort : ShortLines (t ++ buf ++ more)) :
    RoundsFit rounds l buf ∧ ∀ l', flushLoop rounds l buf = some l' →
      ∃ t', l'.Holds t' ∧ newline ∉ t' ∧ t' <:+ t ++ buf := by
  induction rounds generalizing l t buf with
  | zero =>
    refine ⟨trivial, fun l' hl' => ?_⟩
    cases hl'
    exact ⟨t, h, ht, by simp [List.eq_nil_of_length_eq_zero (by omega : buf.length = 0)]⟩
  | succ rounds ih =>
    by_cases hne : buf = []
    · subst hne
      refine ⟨.inl rfl, fun l' hl' => ?_⟩
      cases hl'
      exact ⟨t, h, ht, by simp⟩
    · obtain ⟨l₁, t₁, kept, gone, rest, hround, h₁, heq, hlt, -, -, hsuffix, hnew⟩ :=
        flushRound_spec h hbuf hne
      have hrest : NulFree rest := fun hm => hbuf (by rw [heq]; simp [hm])
      have hcat : t ++ kept ++ gone ++ rest = t ++ buf := by simp [heq]
      have htail : t₁ ++ rest <:+ t ++ buf := by
        rw [← hcat]
        exact List.suffix_append_self_iff.mpr hsuffix
      have hshort₁ : ShortLines (t₁ ++ rest ++ more) :=
        hshort.of_suffix (List.suffix_append_self_iff.mpr htail)
      obtain ⟨hrounds, hend⟩ := ih h₁ (hnew ht) hrest (by omega) hshort₁
      refine ⟨.inr ⟨fits_of_short h ht hbuf hshort, fun r hr => ?_⟩, fun l' hl' => ?_⟩
      · rw [hround] at hr
        cases hr
        exact hrounds
      · rw [flushLoop, if_pos (List.length_pos_of_ne_nil hne), hround] at hl'
        obtain ⟨t', h', ht', hsuf⟩ := hend l' hl'
        exact ⟨t', h', ht', hsuf.trans htail⟩

theorem callsFit_of_short {calls : List (CStr × Int)} (h : l.Holds t) (ht : newline ∉ t)
    (hcalls : ∀ call ∈ calls, NulFree call.1)
    (hshort : ShortLines (t ++ (calls.map (·.1)).flatten)) : CallsFit l calls := by
  induction calls generalizing l t with
  | nil => trivial
  | cons call calls ih =>
    obtain ⟨hcall, hcalls⟩ := List.forall_mem_cons.mp hcalls
    rw [List.map_cons, List.flatten_cons, ← List.append_assoc] at hshort
    obtain ⟨hrounds, hend⟩ := roundsFit_of_short h ht hcall (Nat.le_refl _) hshort
    refine ⟨hrounds, fun l' hl' => ?_⟩
    obtain ⟨l₁, hloop, rfl⟩ := Option.map_eq_some_iff.mp hl'
    obtain ⟨t₁, h₁, ht₁, hsuf⟩ := hend l₁ hloop
    have hholds : Logger.Holds (if call.2 < 0 then l₁.pvLog debug
        (str "Setting xattr failed, return code is " ++ intText call.2 ++ str " ") else l₁) t₁ := by
      split
      · exact h₁
      · exact h₁
    exact ih hholds ht₁ hcalls (hshort.of_suffix (List.suffix_append_self_iff.mpr hsuf))

/-! ## Main results -/

/-- The text of the first calls is what is left of the log. -/
theorem flushAll_start {calls : List (CStr × Int)} (hcalls : ∀ call ∈ calls, NulFree call.1) :
    ∃ l, flushAll .start calls = some l ∧
      (Thinned isEol (calls.map (·.1)).flatten l.text ↔ CallsFit .start calls) := by
  obtain ⟨l, kept, hall, -, htext, hthin⟩ := flushAll_spec Logger.holds_start hcalls
  have hstart : Logger.start.text = [] := by
    rw [Logger.holds_start.text_eq]
    rfl
  rw [hstart, List.nil_append] at htext
  exact ⟨l, hall, htext ▸ hthin⟩

/-- **The splitter loses no byte if every round of every call fits.** -/
theorem losesNothing_iff {calls : List (CStr × Int)} (hcalls : ∀ call ∈ calls, NulFree call.1) :
    LosesNothing calls ↔ CallsFit .start calls := by
  obtain ⟨l, hall, hthin⟩ := flushAll_start hcalls
  rw [LosesNothing, hall, ← hthin]
  constructor
  · rintro ⟨l', hl', h⟩
    cases hl'
    exact h
  · exact fun h => ⟨l, rfl, h⟩

/-- Two lines in three pieces. -/
theorem losesNothing_pieces :
    LosesNothing [(str "rea", 0), (str "dy\nst", 0), (str "art\n", -1)] := by
  refine (losesNothing_iff (by decide)).mpr (callsFit_of_short Logger.holds_start
    List.not_mem_nil (by decide) fun line _ hin => ?_)
  have hlen : line.length ≤ 12 := hin.length_le
  have hsize : pvLogBufSize = 4096 := rfl
  omega

/-- A line of a length. -/
def lineOf (n : Nat) : CStr := List.replicate n 97 ++ [newline]

theorem lineOf_ends (n : Nat) : NulFree (lineOf n) ∧ newLineAt (lineOf n) = some n := by
  have hnul : NulFree (lineOf n) := by
    intro hm
    rcases List.mem_append.mp hm with hm | hm
    · exact absurd (List.eq_of_mem_replicate hm) (by decide)
    · exact absurd hm (by decide)
  have hlen : (List.replicate n (97 : UInt8)).length = n := List.length_replicate
  have hidx : (lineOf n).idxOf? newline = some n := by
    refine List.idxOf?_eq_some_iff.mpr ⟨?_, ?_, fun j hj => ?_⟩
    · rw [lineOf, List.length_append, hlen]
      exact Nat.lt_succ_self n
    · simp only [lineOf, List.getElem_append_right (Nat.le_of_eq hlen), hlen, Nat.sub_self,
        List.getElem_cons_zero]
    · rw [← hlen] at hj
      simp only [lineOf, List.getElem_append_left hj, List.getElem_replicate]
      decide
  exact ⟨hnul, by rw [newLineAt, cstrAt_zero hnul, hidx]⟩

/-- A byte behind the room is none that ends a record. -/
theorem not_fits_lineOf {n : Nat} (hn : l.availBuflen < n) : ¬ Fits l (lineOf n) := by
  intro hfits
  have hlen : (List.replicate n (97 : UInt8)).length = n := List.length_replicate
  rcases hfits n (lineOf_ends n).2 with hle | hcr
  · omega
  · rw [lineOf, List.getElem?_append_left (by omega), List.getElem?_replicate, if_pos hn] at hcr
    exact absurd hcr (by decide)

/-- A line that is longer than the room in an empty buffer loses a byte. -/
theorem line_loses {n : Nat} (hn : Logger.start.availBuflen < n) :
    ¬ LosesNothing [(lineOf n, 0)] := by
  rintro ⟨l, hl, hthin⟩
  have hcalls : ∀ call ∈ [(lineOf n, (0 : Int))], NulFree call.1 := by
    rw [List.forall_mem_singleton]
    exact (lineOf_ends n).1
  obtain ⟨l', hl', hiff⟩ := flushAll_start hcalls
  obtain rfl : l' = l := Option.some.inj (hl'.symm.trans hl)
  obtain ⟨hrounds, -⟩ := hiff.mp hthin
  have hlen : (lineOf n).length = n + 1 := by
    rw [lineOf, List.length_append, List.length_replicate, List.length_singleton]
  simp only [hlen, RoundsFit] at hrounds
  rcases hrounds with hempty | ⟨hfits, -⟩
  · rw [hempty] at hlen
    cases hlen
  · exact not_fits_lineOf hn hfits

/-- The last byte of a line of the size of the buffer is skipped in the place of the line
feed. -/
theorem long_line_loses : ¬ LosesNothing [(lineOf 4096, 0)] := line_loses (by decide)

end Pantavisor.PvLogger
