/-
Pantavisor.PhLogger.Delivery — which lines the position in the attribute of a log
file has passed.

What was taken of the file up to that position was taken by whole lines and by full
buffers, and what was taken was accepted. An empty line breaks this: its position is
written at once, and the lines before it in the same buffer are not sent yet. Where
the array with them is then refused, or the service is killed, they are never sent.

`LateEmptyLine` says of what a call reads that its loop comes to such a line. The
loop subtracts the whole offset from `bytes_read` in each round, so it does not come
to all lines of the buffer, and the sum of the ends of the lines tells how far.
-/
import Pantavisor.PhLogger.PushFile
import Pantavisor.Lib.Lines

namespace Pantavisor.PhLogger

open Pantavisor.Lib Pantavisor.Json

/-! ## What the property says -/

/-- The text is a fragment of an array that was accepted. -/
def TextSent (origin : LogOrigin) (accepted : List CStr) (text : CStr) : Prop :=
  ∃ frags formattedJson, pvJsonFormat text = some formattedJson ∧
    jsonFrag origin formattedJson ∈ frags ∧ jsonFragArray frags ∈ accepted

/-- No complete line that is not empty ends before the position in the attribute
unless it was sent; a line shorter than the buffer in one piece. -/
def PositionRight (origin : LogOrigin) (size : Nat) (f : LogFile) : Prop :=
  ∀ p pre line rest, f.xattr = some p → f.content = pre ++ (line ++ newline :: rest) →
    LineStart newline pre → newline ∉ line → line ≠ [] → pre.length + line.length ≤ p →
    Delivered size (TextSent origin f.accepted) (noNul line)

/-- What a call reads: nothing if it does not get there. -/
def readData (size : Nat) (c : PushCalls) (f : LogFile) : CStr :=
  if c.largeBuff && c.logBuff && c.opened && c.seeked then
    let pos := if c.getXattr then f.xattr.getD 0 else 0
    let readPos := if c.fstat && decide (f.content.length < pos) then 0 else pos
    noNul (((f.content.drop readPos).take size).take c.read)
  else []

/-- The sum of the ends of lines that start at `off`. -/
def endsSum (off : Nat) : List CStr → Nat
  | [] => 0
  | line :: rest => off + line.length + 1 + endsSum (off + line.length + 1) rest

/-- The loop comes, in its first rounds, to an empty line behind one that is not. -/
def LateEmptyLine (rounds : Nat) (data : CStr) : Prop :=
  ∃ lines rest, lines.length < rounds ∧ (∀ line ∈ lines, newline ∉ line) ∧
    (∃ line ∈ lines, line ≠ []) ∧
    data = lines.flatMap (fun line => line ++ [newline]) ++ newline :: rest ∧
    endsSum 0 lines < data.length

/-- A call that is right: what it takes is accepted, or it writes no position before. -/
def PushSafe (size : Nat) (f : LogFile) : LogStep → Prop
  | .append _ => True
  | .push c =>
    (c.killed = none ∧ c.pushed) ∨ c.setXattr = false ∨
      ¬ LateEmptyLine (c.killed.getD (readData size c f).length) (readData size c f)

/-! ## Reading a line -/

theorem newline_mem_noNul {s : CStr} : newline ∈ noNul s ↔ newline ∈ s := by
  simp only [noNul, List.mem_map]
  constructor
  · rintro ⟨c, hc, heq⟩
    split at heq
    · exact absurd heq (by decide)
    · exact heq ▸ hc
  · exact fun h => ⟨newline, h, by decide⟩

theorem noNul_nulFree (s : CStr) : NulFree (noNul s) := by
  intro h
  obtain ⟨c, -, heq⟩ := List.mem_map.mp h
  split at heq
  · exact absurd heq (by decide)
  · next hc => exact hc heq

theorem idxOf?_some {ch : UInt8} {s : CStr} {k : Nat} (h : s.idxOf? ch = some k) :
    ∃ rest, s = s.take k ++ ch :: rest ∧ ch ∉ s.take k ∧ k < s.length := by
  induction s generalizing k with
  | nil => simp at h
  | cons c rest ih =>
    rw [List.idxOf?_cons] at h
    split at h
    · next hc =>
      obtain rfl := Option.some.inj h
      obtain rfl := eq_of_beq hc
      exact ⟨rest, by simp, by simp, by simp⟩
    · next hc =>
      obtain ⟨j, hj, rfl⟩ := Option.map_eq_some_iff.mp h
      obtain ⟨rest', heq, hnot, hlt⟩ := ih hj
      refine ⟨rest', ?_, ?_, by simpa using hlt⟩
      · simpa using heq
      · have hne : ch ≠ c := fun h => hc (by simp [h])
        simpa [hne] using hnot

/-- In a buffer without NUL, what `strnchr` finds is the first such character. -/
theorem strnchr_some {src : CStr} {ch : UInt8} {len : Int} {k : Nat} (hnul : NulFree src)
    (h : strnchr src ch len = some k) :
    ∃ rest, src = src.take k ++ ch :: rest ∧ ch ∉ src.take k ∧ k < src.length ∧
      (k : Int) < len := by
  have htake : (src.take len.toNat).takeWhile (· ≠ 0) = src.take len.toNat := by
    rw [List.takeWhile_eq_self_iff]
    intro c hc
    simpa using fun h0 : c = 0 => hnul (h0 ▸ List.mem_of_mem_take hc)
  rw [strnchr, htake] at h
  obtain ⟨rest, heq, hnot, hlt⟩ := idxOf?_some h
  rw [List.length_take] at hlt
  have hk : (src.take len.toNat).take k = src.take k := by
    rw [List.take_take, Nat.min_eq_left (by omega)]
  rw [hk] at heq hnot
  refine ⟨rest ++ src.drop len.toNat, ?_, hnot, by omega, by omega⟩
  calc src = src.take len.toNat ++ src.drop len.toNat := (List.take_append_drop _ _).symm
    _ = src.take k ++ ch :: (rest ++ src.drop len.toNat) := by rw [heq]; simp

theorem strnchr_none {src : CStr} {ch : UInt8} {len : Int} (hnul : NulFree src)
    (h : strnchr src ch len = none) : ch ∉ src.take len.toNat := by
  have htake : (src.take len.toNat).takeWhile (· ≠ 0) = src.take len.toNat := by
    rw [List.takeWhile_eq_self_iff]
    intro c hc
    simpa using fun h0 : c = 0 => hnul (h0 ▸ List.mem_of_mem_take hc)
  rw [strnchr, htake] at h
  simpa using h

/-! ## The loop -/

/-- The text was accepted before, or is one of the fragments. -/
def SentBy (origin : LogOrigin) (accepted : List CStr) (frags : List CStr) (text : CStr) : Prop :=
  TextSent origin accepted text ∨
    ∃ formattedJson, pvJsonFormat text = some formattedJson ∧ jsonFrag origin formattedJson ∈ frags

section Loop

variable (origin : LogOrigin) (size : Nat) (setOk : Bool) (readPos : Nat) (buf content : CStr)
  (accepted : List CStr) (before : Option Nat)

/-- The first `n` bytes of the file were taken, with those fragments. -/
def TakenTo (frags : List CStr) (n : Nat) : Prop :=
  n ≤ content.length ∧
    ∃ pieces, Taken newline size (SentBy origin accepted frags) (content.take n) pieces

/-- The attribute is as before the loop, or at a position up to which all was taken. -/
def XattrTaken (frags : List CStr) (now : Option Nat) : Prop :=
  now = before ∨ ∃ n, now = some n ∧ TakenTo origin size content accepted frags n

/-- What the loop keeps. -/
structure LoopInv (l : PushLoop) : Prop where
  bytes : (l.offset : Int) + l.bytesRead ≤ buf.length
  taken : TakenTo origin size content accepted l.frags (readPos + l.offset)
  pos : l.frags ≠ [] → l.pos = readPos + l.offset
  xattr : XattrTaken origin size content accepted before l.frags l.xattr

/-- What it keeps as long as it finds lines: `lines` are those it found. -/
structure LinesInv (l : PushLoop) (lines : List CStr) : Prop where
  noNewline : ∀ line ∈ lines, newline ∉ line
  text : buf = lines.flatMap (fun line => line ++ [newline]) ++ buf.drop l.offset
  bytes : l.bytesRead = buf.length - (endsSum 0 lines : Int)
  frags : l.frags ≠ [] → ∃ line ∈ lines, line ≠ []
  xattr : XattrTaken origin size content accepted before [] l.xattr

variable {origin size setOk readPos buf content accepted before}

theorem SentBy.mono {frags frags' : List CStr} (h : ∀ frag ∈ frags, frag ∈ frags') {text : CStr}
    (hsent : SentBy origin accepted frags text) : SentBy origin accepted frags' text := by
  rcases hsent with hsent | ⟨formattedJson, hformat, hfrag⟩
  · exact .inl hsent
  · exact .inr ⟨formattedJson, hformat, h _ hfrag⟩

theorem TakenTo.mono {frags frags' : List CStr} (h : ∀ frag ∈ frags, frag ∈ frags') {n : Nat}
    (htaken : TakenTo origin size content accepted frags n) :
    TakenTo origin size content accepted frags' n := by
  obtain ⟨hle, pieces, htaken⟩ := htaken
  exact ⟨hle, pieces, htaken.mono fun _ => SentBy.mono h⟩

theorem XattrTaken.mono {frags frags' : List CStr} (h : ∀ frag ∈ frags, frag ∈ frags')
    {now : Option Nat} (hx : XattrTaken origin size content accepted before frags now) :
    XattrTaken origin size content accepted before frags' now := by
  rcases hx with hx | ⟨n, hn, htaken⟩
  · exact .inl hx
  · exact .inr ⟨n, hn, htaken.mono h⟩

/-- A line behind what was taken. -/
theorem TakenTo.line {frags : List CStr} {n : Nat} {seg rest : CStr}
    (h : TakenTo origin size content accepted frags n)
    (hdrop : content.drop n = seg ++ newline :: rest) (hseg : newline ∉ seg)
    (hsent : seg ≠ [] → SentBy origin accepted frags seg) :
    TakenTo origin size content accepted frags (n + (seg.length + 1)) := by
  obtain ⟨hle, pieces, htaken⟩ := h
  have hlen := congrArg List.length hdrop
  simp only [List.length_drop, List.length_append, List.length_cons] at hlen
  have htake : content.take (n + (seg.length + 1)) = content.take n ++ (seg ++ [newline]) := by
    rw [List.take_add, hdrop, List.take_length_add_append]
    simp
  exact ⟨by omega, [], by rw [htake]; exact htaken.line hseg hsent⟩

/-- A full buffer behind what was taken. -/
theorem TakenTo.piece {frags : List CStr} {n : Nat} {seg rest : CStr}
    (h : TakenTo origin size content accepted frags n)
    (hdrop : content.drop n = seg ++ rest) (hseg : newline ∉ seg) (hlen : seg.length = size)
    (hsent : SentBy origin accepted frags seg) :
    TakenTo origin size content accepted frags (n + seg.length) := by
  obtain ⟨hle, pieces, htaken⟩ := h
  have hlens := congrArg List.length hdrop
  simp only [List.length_drop, List.length_append] at hlens
  have htake : content.take (n + seg.length) = content.take n ++ seg := by
    rw [List.take_add, hdrop, List.take_left]
  exact ⟨by omega, pieces ++ [seg], by rw [htake]; exact htaken.piece hseg hlen hsent⟩

/-! ### One round -/

variable (origin setOk readPos) in
/-- What a round finds: a line, the whole of a full buffer, or neither. -/
theorem pushRound_cases {l : PushLoop} (hnul : NulFree buf) (hsize : buf.length ≤ size)
    (hbytes : (l.offset : Int) + l.bytesRead ≤ buf.length) (hpos : 0 < l.bytesRead) :
    (∃ seg rest, buf.drop l.offset = seg ++ newline :: rest ∧ newline ∉ seg ∧
      pushRound origin size setOk readPos buf l = pushText origin setOk readPos seg
        { l with offset := l.offset + (seg.length + 1)
                 bytesRead := l.bytesRead - (l.offset + (seg.length + 1) : Nat) }) ∨
    (l.offset = 0 ∧ newline ∉ buf ∧ buf.length = size ∧ buf ≠ [] ∧
      pushRound origin size setOk readPos buf l = pushText origin setOk readPos buf
        { l with offset := buf.length, bytesRead := 0 }) ∨
    pushRound origin size setOk readPos buf l = { l with bytesRead := 0 } := by
  have hnul' : NulFree (buf.drop l.offset) := fun h => hnul (List.mem_of_mem_drop h)
  rw [pushRound]
  cases hfind : strnchr (buf.drop l.offset) newline l.bytesRead with
  | some k =>
    obtain ⟨rest, heq, hnot, hlt, -⟩ := strnchr_some hnul' hfind
    have hlen : ((buf.drop l.offset).take k).length = k := by
      rw [List.length_take, Nat.min_eq_left hlt.le]
    refine .inl ⟨_, rest, heq, hnot, ?_⟩
    simp only [Nat.add_sub_cancel, hlen]
  | none =>
    have hnot := strnchr_none hnul' hfind
    by_cases hfull : l.bytesRead = size
    · -- a full buffer is read from its start
      have hoff : l.offset = 0 := by omega
      have hbuf : buf.length = size := by omega
      have hall : (buf.drop l.offset).take l.bytesRead.toNat = buf := by
        rw [hoff, List.drop_zero, hfull, Int.toNat_natCast, List.take_of_length_le hsize]
      have hto : l.offset + l.bytesRead.toNat = buf.length := by omega
      rw [hall] at hnot
      refine .inr (.inl ⟨hoff, hnot, hbuf, ?_, ?_⟩)
      · intro hnil
        rw [hnil, List.length_nil] at hbytes
        omega
      · simp only [if_pos hfull, hall, hto]
    · exact .inr (.inr (by simp only [if_neg hfull]))

theorem pushText_some {text : CStr} {l : PushLoop} (h : text ≠ []) :
    pushText origin setOk readPos text l =
      { l with frags := l.frags ++ [jsonFrag origin (text.flatMap formatChar)]
               pos := readPos + l.offset } := by
  have hformat : pvJsonFormat text = some (text.flatMap formatChar) :=
    if_pos (List.length_pos_iff.mpr h)
  rw [pushText, hformat]

theorem pushText_nil {l : PushLoop} :
    pushText origin setOk readPos [] l =
      { l with pos := readPos + l.offset
               xattr := if setOk then some (readPos + l.offset) else l.xattr } := rfl

theorem sentBy_new {frags : List CStr} {text : CStr} (h : text ≠ []) :
    SentBy origin accepted (frags ++ [jsonFrag origin (text.flatMap formatChar)]) text :=
  .inr ⟨_, if_pos (List.length_pos_iff.mpr h), by simp⟩

theorem endsSum_snoc (off : Nat) (lines : List CStr) (line : CStr) :
    endsSum off (lines ++ [line]) = endsSum off lines
      + (off + (lines.flatMap fun line => line ++ [newline]).length + line.length + 1) := by
  induction lines generalizing off with
  | nil => simp [endsSum]
  | cons first rest ih =>
    rw [List.cons_append, endsSum, ih, endsSum]
    simp only [List.flatMap_cons, List.length_append, List.length_cons, List.length_nil]
    omega

variable {l : PushLoop} {tail : CStr}

/-- What the buffer goes on with is what the file goes on with. -/
theorem drop_content (hbuf : content.drop readPos = buf ++ tail) {off : Nat}
    (hoff : off ≤ buf.length) : content.drop (readPos + off) = buf.drop off ++ tail := by
  rw [← List.drop_drop, hbuf, List.drop_append_of_le_length hoff]

theorem LoopInv.round (hnul : NulFree buf) (hsize : buf.length ≤ size)
    (hbuf : content.drop readPos = buf ++ tail) (hpos : 0 < l.bytesRead)
    (h : LoopInv origin size readPos buf content accepted before l) :
    LoopInv origin size readPos buf content accepted before
      (pushRound origin size setOk readPos buf l) := by
  have hbytes := h.bytes
  have hdrop : content.drop (readPos + l.offset) = buf.drop l.offset ++ tail :=
    drop_content hbuf (by omega)
  rcases pushRound_cases origin setOk readPos hnul hsize hbytes hpos with
    ⟨seg, rest, heq, hseg, hround⟩ | ⟨hoff, hnot, hlen, hne, hround⟩ | hround
  · rw [hround]
    rw [heq, List.append_assoc, List.cons_append] at hdrop
    by_cases hnil : seg = []
    · subst hnil
      have htaken := h.taken.line hdrop hseg (fun hne => absurd rfl hne)
      rw [pushText_nil]
      refine ⟨by simp only; omega, htaken, fun _ => rfl, ?_⟩
      simp only
      split
      · exact .inr ⟨_, rfl, htaken⟩
      · exact h.xattr
    · have hfrags : ∀ frag ∈ l.frags,
          frag ∈ l.frags ++ [jsonFrag origin (seg.flatMap formatChar)] := by
        intro frag hfrag
        simp [hfrag]
      have htaken := (h.taken.mono hfrags).line hdrop hseg fun _ => sentBy_new hnil
      rw [Nat.add_assoc] at htaken
      rw [pushText_some hnil]
      exact ⟨by simp only; omega, htaken, fun _ => rfl, h.xattr.mono hfrags⟩
  · have hfrags : ∀ frag ∈ l.frags,
        frag ∈ l.frags ++ [jsonFrag origin (buf.flatMap formatChar)] := by
      intro frag hfrag
      simp [hfrag]
    rw [hround, pushText_some hne]
    rw [hoff, List.drop_zero] at hdrop
    refine ⟨by simp, ?_, fun _ => rfl, h.xattr.mono hfrags⟩
    have htaken := (h.taken.mono hfrags).piece (by rw [hoff]; exact hdrop) hnot hlen
      (sentBy_new hne)
    simpa [hoff] using htaken
  · rw [hround]
    exact ⟨by simp only; omega, h.taken, h.pos, h.xattr⟩

variable (setOk) in
theorem pushLoop_inv (hnul : NulFree buf) (hsize : buf.length ≤ size)
    (hbuf : content.drop readPos = buf ++ tail) (rounds : Nat) :
    ∀ {l : PushLoop}, LoopInv origin size readPos buf content accepted before l →
      LoopInv origin size readPos buf content accepted before
        (pushLoop origin size setOk readPos buf rounds l) := by
  induction rounds with
  | zero => exact fun h => h
  | succ rounds ih =>
    intro l h
    rw [pushLoop]
    split
    · next hpos => exact ih (h.round hnul hsize hbuf hpos)
    · exact h

/-- A round that finds no late empty line writes only positions up to which all was
accepted before. -/
theorem LinesInv.round {lines : List CStr} {rounds : Nat} (hnul : NulFree buf)
    (hsize : buf.length ≤ size) (hbuf : content.drop readPos = buf ++ tail)
    (hpos : 0 < l.bytesRead) (hlate : setOk = false ∨ ¬ LateEmptyLine rounds buf)
    (hlt : lines.length < rounds)
    (hinv : LoopInv origin size readPos buf content accepted before l)
    (h : LinesInv origin size buf content accepted before l lines) :
    XattrTaken origin size content accepted before []
        (pushRound origin size setOk readPos buf l).xattr ∧
      (0 < (pushRound origin size setOk readPos buf l).bytesRead → ∃ line,
        LinesInv origin size buf content accepted before
          (pushRound origin size setOk readPos buf l) (lines ++ [line])) := by
  have hbytes := hinv.bytes
  have hdrop : content.drop (readPos + l.offset) = buf.drop l.offset ++ tail :=
    drop_content hbuf (by omega)
  rcases pushRound_cases origin setOk readPos hnul hsize hbytes hpos with
    ⟨seg, rest, heq, hseg, hround⟩ | ⟨hoff, hnot, hlen, hne, hround⟩ | hround
  · have hflat : (lines.flatMap fun line => line ++ [newline]).length = l.offset := by
      have hlens := congrArg List.length h.text
      rw [List.length_append, List.length_drop] at hlens
      omega
    have hrest : buf.drop (l.offset + (seg.length + 1)) = rest := by
      rw [← List.drop_drop, heq, List.drop_length_add_append]
      rfl
    have hsnoc := endsSum_snoc 0 lines seg
    have hnewline : ∀ line ∈ lines ++ [seg], newline ∉ line := by
      intro line hline
      rcases List.mem_append.mp hline with hline | hline
      · exact h.noNewline line hline
      · exact List.mem_singleton.mp hline ▸ hseg
    have htext : buf = (lines ++ [seg]).flatMap (fun line => line ++ [newline])
        ++ buf.drop (l.offset + (seg.length + 1)) := by
      rw [hrest]
      conv => lhs; rw [h.text, heq]
      simp
    have hcount : l.bytesRead - (l.offset + (seg.length + 1) : Nat)
        = buf.length - (endsSum 0 (lines ++ [seg]) : Int) := by
      rw [h.bytes, hsnoc, hflat]
      omega
    by_cases hnil : seg = []
    · subst hnil
      have hxattr : XattrTaken origin size content accepted before []
          (if setOk then some (readPos + (l.offset + (([] : CStr).length + 1))) else l.xattr) := by
        cases setOk with
        | false => exact h.xattr
        | true =>
          -- nothing may be pending where the position is written at once
          have hfrags : l.frags = [] := by
            by_contra hfrags
            refine (hlate.resolve_left (by decide)) ⟨lines, rest, hlt, h.noNewline,
              h.frags hfrags, ?_, ?_⟩
            · conv => lhs; rw [h.text, heq]
              simp
            · have := h.bytes
              omega
          have htaken := hinv.taken
          rw [hfrags] at htaken
          rw [heq, List.append_assoc, List.cons_append] at hdrop
          exact .inr ⟨_, rfl, htaken.line hdrop hseg (fun hne => absurd rfl hne)⟩
      rw [hround, pushText_nil]
      refine ⟨hxattr, fun _ => ⟨[], hnewline, htext, hcount, fun hfrags => ?_, hxattr⟩⟩
      obtain ⟨line, hline, hne⟩ := h.frags hfrags
      exact ⟨line, by simp [hline], hne⟩
    · rw [hround, pushText_some hnil]
      exact ⟨h.xattr, fun _ => ⟨seg, hnewline, htext, hcount,
        fun _ => ⟨seg, by simp, hnil⟩, h.xattr⟩⟩
  · rw [hround, pushText_some hne]
    exact ⟨h.xattr, fun hb => absurd hb (by simp)⟩
  · rw [hround]
    exact ⟨h.xattr, fun hb => absurd hb (by simp)⟩

theorem pushLoop_lines {rounds : Nat} (hnul : NulFree buf) (hsize : buf.length ≤ size)
    (hbuf : content.drop readPos = buf ++ tail)
    (hlate : setOk = false ∨ ¬ LateEmptyLine rounds buf) (k : Nat) :
    ∀ {l : PushLoop}, LoopInv origin size readPos buf content accepted before l →
      XattrTaken origin size content accepted before [] l.xattr →
      (0 < l.bytesRead → ∃ lines, lines.length + k ≤ rounds ∧
        LinesInv origin size buf content accepted before l lines) →
      XattrTaken origin size content accepted before []
        (pushLoop origin size setOk readPos buf k l).xattr := by
  induction k with
  | zero => exact fun _ hx _ => hx
  | succ k ih =>
    intro l hinv hx hlines
    rw [pushLoop]
    split
    · next hpos =>
      obtain ⟨lines, hlen, hl⟩ := hlines hpos
      obtain ⟨hx', hnext⟩ := hl.round hnul hsize hbuf hpos hlate (by omega) hinv
      refine ih (hinv.round hnul hsize hbuf hpos) hx' fun hpos' => ?_
      obtain ⟨line, hline⟩ := hnext hpos'
      exact ⟨lines ++ [line], by simp only [List.length_append, List.length_singleton]; omega,
        hline⟩
    · exact hx

end Loop

/-! ## Calls -/

variable {origin : LogOrigin} {size : Nat} {f : LogFile} {c : PushCalls}

/-- What holds between calls: all up to the position was accepted. -/
def LogInv (origin : LogOrigin) (size : Nat) (f : LogFile) : Prop :=
  TakenTo origin size (noNul f.content) f.accepted [] (f.xattr.getD 0)

theorem takenTo_zero {content : CStr} {accepted frags : List CStr} :
    TakenTo origin size content accepted frags 0 :=
  ⟨Nat.zero_le _, [], by rw [List.take_zero]; exact .nil⟩

/-- What is written to the attribute is right where it was right before. -/
theorem XattrTaken.getD {content : CStr} {accepted : List CStr} {before now : Option Nat}
    (h : XattrTaken origin size content accepted before [] now)
    (hbefore : TakenTo origin size content accepted [] (before.getD 0)) :
    TakenTo origin size content accepted [] (now.getD 0) := by
  rcases h with rfl | ⟨n, rfl, htaken⟩
  · exact hbefore
  · exact htaken

/-- An accepted array turns fragments into texts that were sent. -/
theorem TakenTo.accept {content : CStr} {accepted frags : List CStr} {n : Nat}
    (h : TakenTo origin size content accepted frags n) :
    TakenTo origin size content (accepted ++ [jsonFragArray frags]) [] n := by
  obtain ⟨hle, pieces, htaken⟩ := h
  refine ⟨hle, pieces, htaken.mono fun text hsent => .inl ?_⟩
  rcases hsent with ⟨frags', formattedJson, hformat, hfrag, harray⟩ | ⟨formattedJson, hformat, hfrag⟩
  · exact ⟨frags', formattedJson, hformat, hfrag, by simp [harray]⟩
  · exact ⟨frags, formattedJson, hformat, hfrag, by simp⟩

/-- The call from `open` on keeps the invariant, if the file was right so far. -/
theorem pushRead_inv {pos : Nat} {xattr : Option Nat}
    (hpos : TakenTo origin size (noNul f.content) f.accepted [] pos)
    (hxattr : TakenTo origin size (noNul f.content) f.accepted [] (xattr.getD 0))
    (hsafe : c.opened = true → c.seeked = true →
      let data := noNul (((f.content.drop pos).take size).take c.read)
      (c.killed = none ∧ c.pushed) ∨ c.setXattr = false ∨
        ¬ LateEmptyLine (c.killed.getD data.length) data) :
    LogInv origin size (pushRead origin size c f pos xattr).2 := by
  rw [pushRead]
  split
  · exact hxattr
  split
  · exact hxattr
  next hopened hseeked =>
  simp only [Bool.not_eq_true', Bool.not_eq_false] at hopened hseeked
  have hnotrunc : (c.fstat && decide (f.content.length < pos)) = false := by
    have hle := hpos.1
    rw [noNul, List.length_map] at hle
    simp [Nat.not_lt.mpr hle]
  have hsafe := hsafe hopened hseeked
  simp only [hnotrunc, Bool.false_eq_true, if_false] at hsafe ⊢
  generalize hdata : noNul (((f.content.drop pos).take size).take c.read) = buf at hsafe ⊢
  have hnul : NulFree buf := hdata ▸ noNul_nulFree _
  have hsize : buf.length ≤ size := by
    rw [← hdata, noNul, List.length_map]
    simp only [List.length_take]
    omega
  obtain ⟨tail, hbuf⟩ : ∃ tail, (noNul f.content).drop pos = buf ++ tail := by
    have hread : buf <+: (noNul f.content).drop pos := by
      rw [← hdata, noNul, noNul, List.map_take, List.map_take, List.map_drop]
      exact (List.take_prefix _ _).trans (List.take_prefix _ _)
    obtain ⟨tail, htail⟩ := hread
    exact ⟨tail, htail.symm⟩
  have hinv : LoopInv origin size pos buf (noNul f.content) f.accepted xattr
      ⟨0, buf.length, pos, [], xattr⟩ :=
    ⟨by simp, hpos, fun h => absurd rfl h, .inl rfl⟩
  have hlines : LinesInv origin size buf (noNul f.content) f.accepted xattr
      ⟨0, buf.length, pos, [], xattr⟩ [] :=
    ⟨by simp, by simp, by simp [endsSum], fun h => absurd rfl h, .inl rfl⟩
  -- without a late empty line the attribute is right whatever is pending
  have hearly : ∀ rounds, (c.setXattr = false ∨ ¬ LateEmptyLine rounds buf) →
      TakenTo origin size (noNul f.content) f.accepted []
        ((pushLoop origin size c.setXattr pos buf rounds
          ⟨0, buf.length, pos, [], xattr⟩).xattr.getD 0) := fun rounds hlate =>
    (pushLoop_lines hnul hsize hbuf hlate rounds hinv (.inl rfl)
      (fun _ => ⟨[], by simp, hlines⟩)).getD hxattr
  cases hkilled : c.killed with
  | some rounds =>
    rw [hkilled, Option.getD_some] at hsafe
    exact hearly rounds (hsafe.resolve_left (by simp))
  | none =>
    rw [hkilled, Option.getD_none] at hsafe
    have hend := pushLoop_inv c.setXattr hnul hsize hbuf buf.length hinv
    simp only
    generalize hl : pushLoop origin size c.setXattr pos buf buf.length
      ⟨0, buf.length, pos, [], xattr⟩ = l at hend
    rw [pushFrags]
    split
    · next hfrags =>
      have hx := hend.xattr
      rw [hfrags] at hx
      exact hx.getD hxattr
    · next hfrags =>
      split
      · -- the array is accepted, and all that was taken with it
        rw [LogInv]
        simp only
        split
        · rw [Option.getD_some, hend.pos hfrags]
          exact hend.taken.accept
        · rcases hend.xattr with hx | ⟨n, hx, htaken⟩
          · rw [hx]
            have hall : ∀ frag ∈ [], frag ∈ l.frags := by simp
            exact (hxattr.mono hall).accept
          · rw [hx]
            exact htaken.accept
      · next hpushed =>
        rw [LogInv]
        simp only
        rw [← hl]
        exact hearly buf.length (hsafe.resolve_left (by simp [hpushed]))

theorem LogInv.step {s : LogStep} (h : LogInv origin size f) (hsafe : PushSafe size f s) :
    LogInv origin size (stepLog origin size f s) := by
  cases s with
  | append text =>
    obtain ⟨hle, pieces, htaken⟩ := h
    have hcontent : noNul (f.content ++ text) = noNul f.content ++ noNul text := List.map_append
    refine ⟨?_, pieces, ?_⟩
    · simp only [stepLog, hcontent, List.length_append]
      omega
    · simp only [stepLog, hcontent]
      rw [List.take_append_of_le_length hle]
      exact htaken
  | push c =>
    rw [stepLog, phLoggerPushFromFile]
    split
    · exact h
    · next hbuffers =>
      simp only [Bool.or_eq_true, Bool.not_eq_true', not_or, Bool.not_eq_false] at hbuffers
      have hdata : ∀ pos, (if c.getXattr then f.xattr.getD 0 else 0) = pos →
          pos ≤ f.content.length → c.opened = true → c.seeked = true →
          readData size c f = noNul (((f.content.drop pos).take size).take c.read) := by
        rintro pos rfl hle hopened hseeked
        simp [readData, hbuffers, hopened, hseeked, Nat.not_lt.mpr hle]
      have hle : ∀ {pos}, TakenTo origin size (noNul f.content) f.accepted [] pos →
          pos ≤ f.content.length := by
        intro pos hpos
        simpa [noNul] using hpos.1
      split
      · next pos hpos =>
        have hget : c.getXattr = true ∧ f.xattr = some pos := by
          split at hpos
          · next hget => exact ⟨hget, hpos⟩
          · simp at hpos
        have htaken : TakenTo origin size (noNul f.content) f.accepted [] pos := by
          rw [LogInv, hget.2] at h
          exact h
        refine pushRead_inv htaken h fun hopened hseeked => ?_
        rw [← hdata pos (by simp [hget]) (hle htaken) hopened hseeked]
        exact hsafe
      · next hpos =>
        have hzero : (if c.getXattr then f.xattr.getD 0 else 0) = 0 := by
          split at hpos
          · simp [hpos]
          · next hget => simp [hget]
        refine pushRead_inv takenTo_zero ?_ fun hopened hseeked => ?_
        · split
          · exact takenTo_zero
          · exact h
        · rw [← hdata 0 hzero (Nat.zero_le _) hopened hseeked]
          exact hsafe

theorem LogInv.right (h : LogInv origin size f) : PositionRight origin size f := by
  intro p pre line rest hxattr hcontent hpre hline hne hle
  obtain ⟨-, pieces, htaken⟩ := h
  rw [hxattr, Option.getD_some] at htaken
  have htext : noNul f.content = noNul pre ++ (noNul line ++ newline :: noNul rest) := by
    rw [hcontent, noNul, List.map_append, List.map_append, List.map_cons]
    rfl
  have hstart : LineStart newline (noNul pre) := by
    rcases hpre with rfl | ⟨pre', rfl⟩
    · exact .inl rfl
    · exact .inr ⟨noNul pre', by rw [noNul, List.map_append]; rfl⟩
  have hsent := htaken.mono (Q := TextSent origin f.accepted) fun text hsent => by
    rcases hsent with hsent | ⟨_, _, hfrag⟩
    · exact hsent
    · simp at hfrag
  refine hsent.delivered htext hstart (fun hm => hline (newline_mem_noNul.mp hm)) ?_ ?_
  · simpa [noNul] using hne
  · simpa [noNul] using hle

/-! ## Runs -/

/-- **Every line before the position in the attribute was sent**, in a run whose calls
send what they take or come to no late empty line. -/
theorem lines_pushed_before_position {origin : LogOrigin} {size : LogSize} {f : LogFile}
    {steps : List LogStep} (hinit : (logSystem origin size).init f)
    (hsafe : (logSystem origin size).Along (PushSafe size) f steps) :
    PositionRight origin size ((logSystem origin size).run f steps) := by
  have hstart : LogInv origin size f := by
    rw [LogInv, hinit.1]
    exact takenTo_zero
  have hstep : ∀ f l, LogInv origin size f → PushSafe size f l →
      LogInv origin size ((logSystem origin size).step f l) ∧ True :=
    fun _ _ h hs => ⟨h.step hs, trivial⟩
  exact (System.along_of_invariant hstep hstart hsafe).2.right

/-- A call in which everything works. -/
def goodCall : PushCalls where
  largeBuff := true
  logBuff := true
  getXattr := true
  setXattr := true
  opened := true
  seeked := true
  fstat := true
  read := 1024
  killed := none
  pushed := true
  killedAfter := false

/-- Small buffers. -/
def oneKib : LogSize := ⟨1024, by decide⟩

theorem lines_pushed_before_position_one :
    PositionRight ⟨str "/x.log", str "app", str "1"⟩ oneKib
      ((logSystem ⟨str "/x.log", str "app", str "1"⟩ oneKib).run ⟨str "a\n\n", none, []⟩
        [.push goodCall]) :=
  lines_pushed_before_position ⟨rfl, rfl⟩ ⟨.inl ⟨rfl, rfl⟩, trivial⟩

/-- The line before an empty one is lost when the push is refused. -/
theorem line_lost_before_empty_line :
    ¬ ∀ (origin : LogOrigin) (size : LogSize) (f : LogFile) (steps : List LogStep),
      (logSystem origin size).init f →
      PositionRight origin size ((logSystem origin size).run f steps) := by
  intro hall
  have hright := hall ⟨str "/x.log", str "app", str "1"⟩ oneKib ⟨str "a\n\n", none, []⟩
    [.push { goodCall with pushed := false }] ⟨rfl, rfl⟩
  have hend : (logSystem ⟨str "/x.log", str "app", str "1"⟩ oneKib).run ⟨str "a\n\n", none, []⟩
      [.push { goodCall with pushed := false }] = ⟨str "a\n\n", some 3, []⟩ := by
    decide +kernel
  rw [hend] at hright
  obtain ⟨hshort, -⟩ := hright 3 [] (str "a") (str "\n") rfl (by decide) (.inl rfl) (by decide)
    (by decide) (by decide)
  obtain ⟨_, _, _, _, haccepted⟩ := hshort (by decide)
  simp at haccepted

end Pantavisor.PhLogger
