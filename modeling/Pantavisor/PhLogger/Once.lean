/-
Pantavisor.PhLogger.Once — every line of a log file is sent once, and in order.

`Delivery` says that no line is left out. Here the arrays that were accepted are exactly
the lines up to the position in the attribute, each once and in the order of the file,
as `cut` makes them: a line that does not fit into the buffer is cut from its start.

For that the attribute has to be read and written, and the service must not be killed
between the answer and the write of the attribute: after each of these a line is sent
again. An empty line inside of a file matters here too, for it can take the position past
lines that are not sent yet.
-/
import Pantavisor.PhLogger.Delivery

namespace Pantavisor.PhLogger

open Pantavisor.Lib Pantavisor.Json

/-! ## What the property says -/

/-- The fragment of a line. -/
def lineFrag (origin : LogOrigin) (text : CStr) : CStr := jsonFrag origin (text.flatMap formatChar)

/-- No empty line, but for the first one. -/
def NoBlank (content : CStr) : Prop := ¬ [newline, newline] <:+: content

instance (content : CStr) : Decidable (NoBlank content) := inferInstanceAs (Decidable (¬ _))

/-- The arrays that were accepted are the lines up to the position. -/
def SentOnce (origin : LogOrigin) (size : Nat) (f : LogFile) : Prop :=
  ∃ groups : List (List CStr),
    f.accepted = groups.map (fun texts => jsonFragArray (texts.map (lineFrag origin))) ∧
    cut newline size ((noNul f.content).take (f.xattr.getD 0)) = (groups.flatten, [])

/-- A call with an attribute that works, and that takes the position past no line that it
does not send. -/
def PushOnce (f : LogFile) : LogStep → Prop
  | .append _ => True
  | .push c =>
    c.getXattr = true ∧ c.setXattr = true ∧ c.killedAfter = false ∧
      ((c.killed = none ∧ c.pushed = true) ∨ NoBlank f.content)

theorem noNul_cons_newline {s t : CStr} (h : noNul s = newline :: t) :
    ∃ s', s = newline :: s' ∧ noNul s' = t := by
  cases s with
  | nil => simp [noNul] at h
  | cons c s =>
    rw [noNul, List.map_cons] at h
    obtain ⟨hc, ht⟩ := List.cons.inj h
    split at hc
    · exact absurd hc (by decide)
    · exact ⟨s, by rw [hc], ht⟩

theorem NoBlank.noNul {content : CStr} (h : NoBlank content) : NoBlank (noNul content) := by
  rintro ⟨pre, rest, heq⟩
  rw [List.append_assoc] at heq
  obtain ⟨pre', tail, rfl, -, htail⟩ := List.map_eq_append_iff.mp heq.symm
  obtain ⟨tail', rfl, htail'⟩ := noNul_cons_newline htail
  obtain ⟨rest', rfl, -⟩ := noNul_cons_newline htail'
  exact h ⟨pre', rest', by simp⟩

/-! ## The loop -/

/-- The first `n` bytes of the file are cut into `segs`. -/
def CutAt (size : Nat) (content : CStr) (n : Nat) (segs : List CStr) : Prop :=
  n ≤ content.length ∧ cut newline size (content.take n) = (segs, [])

variable {origin : LogOrigin} {size readPos n : Nat} {buf content tail seg rest : CStr}
  {segs new : List CStr} {before : Option Nat} {l : PushLoop}

theorem CutAt.line (h : CutAt size content n segs)
    (hdrop : content.drop n = seg ++ newline :: rest) (hseg : newline ∉ seg)
    (hlen : seg.length < size) :
    CutAt size content (n + (seg.length + 1)) (if seg = [] then segs else segs ++ [seg]) := by
  have hlens := congrArg List.length hdrop
  simp only [List.length_drop, List.length_append, List.length_cons] at hlens
  have htake : content.take (n + (seg.length + 1)) = content.take n ++ (seg ++ [newline]) := by
    rw [List.take_add, hdrop, List.take_length_add_append]
    simp
  exact ⟨by omega, by rw [htake]; exact cut_line h.2 hseg hlen⟩

theorem CutAt.piece (h : CutAt size content n segs) (hdrop : content.drop n = seg ++ rest)
    (hseg : newline ∉ seg) (hlen : seg.length = size) (hne : seg ≠ []) :
    CutAt size content (n + seg.length) (segs ++ [seg]) := by
  have hle := h.1
  have hlens := congrArg List.length hdrop
  simp only [List.length_drop, List.length_append] at hlens
  have htake : content.take (n + seg.length) = content.take n ++ seg := by
    rw [List.take_add, hdrop, List.take_left]
  exact ⟨by omega, by rw [htake]; exact cut_piece h.2 hseg hlen hne⟩

variable (origin size readPos buf content segs before) in
/-- What the loop keeps: `new` are the lines it made fragments of. -/
structure OnceLoop (l : PushLoop) (new : List CStr) : Prop where
  bytes : (l.offset : Int) + l.bytesRead ≤ buf.length
  cut : CutAt size content (readPos + l.offset) (segs ++ new)
  frags : l.frags = new.map (lineFrag origin)
  pos : new ≠ [] → l.pos = readPos + l.offset
  /-- a line ends where the loop goes on -/
  lineEnd : 0 < l.bytesRead → new ≠ [] → ∃ init, buf.take l.offset = init ++ [newline]
  /-- a position was written with some of the lines, and with none if no line is empty -/
  xattr : l.xattr = before ∨ ∃ n early, l.xattr = some n ∧ CutAt size content n (segs ++ early) ∧
    early <+: new ∧ (NoBlank content → early = [])

/-- The first `n + k` elements are the first `n` and the first `k` of the rest. -/
theorem take_line (hdrop : buf.drop n = seg ++ newline :: rest) :
    buf.take (n + (seg.length + 1)) = buf.take n ++ seg ++ [newline] := by
  rw [List.take_add, hdrop, List.take_length_add_append, List.append_assoc]
  simp

/-- An empty line behind a line of the buffer. -/
theorem not_noBlank (hbuf : content.drop readPos = buf ++ tail) {init : CStr}
    (hinit : buf.take n = init ++ [newline]) (hdrop : buf.drop n = newline :: rest) :
    ¬ NoBlank content := by
  refine not_not_intro ⟨content.take readPos ++ init, rest ++ tail, ?_⟩
  have hsplit : init ++ [newline] ++ newline :: rest = buf := by
    rw [← hinit, ← hdrop, List.take_append_drop]
  calc content.take readPos ++ init ++ [newline, newline] ++ (rest ++ tail)
      = content.take readPos ++ ((init ++ [newline] ++ newline :: rest) ++ tail) := by simp
    _ = content := by rw [hsplit, ← hbuf, List.take_append_drop]

theorem OnceLoop.round (hnul : NulFree buf) (hsize : buf.length ≤ size)
    (hbuf : content.drop readPos = buf ++ tail) (hpos : 0 < l.bytesRead)
    (h : OnceLoop origin size readPos buf content segs before l new) :
    ∃ new', OnceLoop origin size readPos buf content segs before
      (pushRound origin size true readPos buf l) new' := by
  have hbytes := h.bytes
  have hdrop : content.drop (readPos + l.offset) = buf.drop l.offset ++ tail :=
    drop_content hbuf (by omega)
  rcases pushRound_cases origin true readPos hnul hsize hbytes hpos with
    ⟨seg, rest, heq, hseg, hround⟩ | ⟨hoff, hnot, hlen, hne, hround⟩ | hround
  · rw [hround]
    rw [heq, List.append_assoc, List.cons_append] at hdrop
    have hlens := congrArg List.length heq
    simp only [List.length_drop, List.length_append, List.length_cons] at hlens
    have hcut := h.cut.line hdrop hseg (by omega)
    have hend : ∃ init, buf.take (l.offset + (seg.length + 1)) = init ++ [newline] :=
      ⟨_, take_line heq⟩
    rw [Nat.add_assoc] at hcut
    by_cases hnil : seg = []
    · subst hnil
      rw [if_pos rfl] at hcut
      rw [pushText_nil]
      refine ⟨new, by simp only; omega, hcut, h.frags, fun _ => rfl, fun _ _ => hend, .inr ?_⟩
      refine ⟨_, new, rfl, hcut, List.prefix_rfl, fun hblank => ?_⟩
      by_contra hnew
      obtain ⟨init, hinit⟩ := h.lineEnd hpos hnew
      exact not_noBlank hbuf hinit (by simpa using heq) hblank
    · rw [if_neg hnil, List.append_assoc] at hcut
      rw [pushText_some hnil]
      refine ⟨new ++ [seg], by simp only; omega, hcut, ?_, fun _ => rfl, fun _ _ => hend, ?_⟩
      · simp only [h.frags, List.map_append, List.map_cons, List.map_nil, lineFrag]
      · rcases h.xattr with hx | ⟨n, early, hx, hcut, hprefix, hblank⟩
        · exact .inl hx
        · exact .inr ⟨n, early, hx, hcut, hprefix.trans (List.prefix_append _ _), hblank⟩
  · rw [hround, pushText_some hne]
    rw [hoff, List.drop_zero] at hdrop
    have hcut := h.cut.piece (by rw [hoff]; exact hdrop) hnot hlen hne
    rw [hoff, Nat.add_zero, List.append_assoc] at hcut
    refine ⟨new ++ [buf], by simp, hcut, ?_, fun _ => rfl, fun hb => absurd hb (by simp), ?_⟩
    · simp only [h.frags, List.map_append, List.map_cons, List.map_nil, lineFrag]
    · rcases h.xattr with hx | ⟨n, early, hx, hcut, hprefix, hblank⟩
      · exact .inl hx
      · exact .inr ⟨n, early, hx, hcut, hprefix.trans (List.prefix_append _ _), hblank⟩
  · rw [hround]
    exact ⟨new, by simp only; omega, h.cut, h.frags, h.pos, fun hb => absurd hb (by simp), h.xattr⟩

theorem pushLoop_once (hnul : NulFree buf) (hsize : buf.length ≤ size)
    (hbuf : content.drop readPos = buf ++ tail) (rounds : Nat) :
    ∀ {l : PushLoop} {new : List CStr},
      OnceLoop origin size readPos buf content segs before l new →
      ∃ new', OnceLoop origin size readPos buf content segs before
        (pushLoop origin size true readPos buf rounds l) new' := by
  induction rounds with
  | zero => exact fun h => ⟨_, h⟩
  | succ rounds ih =>
    intro l new h
    rw [pushLoop]
    split
    · next hpos =>
      obtain ⟨new', h'⟩ := h.round hnul hsize hbuf hpos
      exact ih h'
    · exact ⟨new, h⟩

/-! ## Calls -/

/-- What holds between calls. -/
structure OnceInv (origin : LogOrigin) (size : Nat) (f : LogFile) : Prop where
  within : f.xattr.getD 0 ≤ f.content.length
  once : SentOnce origin size f

variable {f : LogFile} {c : PushCalls} {pos : Nat} {groups : List (List CStr)}

/-- A file that is cut at its position. -/
theorem OnceInv.of_cut (groups : List (List CStr))
    (haccepted : f.accepted = groups.map fun texts => jsonFragArray (texts.map (lineFrag origin)))
    (hcut : CutAt size (noNul f.content) (f.xattr.getD 0) groups.flatten) :
    OnceInv origin size f :=
  ⟨by simpa [noNul] using hcut.1, groups, haccepted, hcut.2⟩

/-- The call from `open` on. -/
theorem pushRead_once
    (haccepted : f.accepted = groups.map fun texts => jsonFragArray (texts.map (lineFrag origin)))
    (hcut : CutAt size (noNul f.content) pos groups.flatten) (hset : c.setXattr = true)
    (hafter : c.killedAfter = false)
    (hsafe : (c.killed = none ∧ c.pushed = true) ∨ NoBlank f.content) :
    OnceInv origin size (pushRead origin size c f pos (some pos)).2 := by
  have hsame : OnceInv origin size { f with xattr := some pos } := .of_cut groups haccepted hcut
  rw [pushRead]
  split
  · exact hsame
  split
  · exact hsame
  have hnotrunc : (c.fstat && decide (f.content.length < pos)) = false := by
    have hle := hcut.1
    rw [noNul, List.length_map] at hle
    simp [Nat.not_lt.mpr hle]
  simp only [hnotrunc, Bool.false_eq_true, if_false, hset]
  generalize hdata : noNul (((f.content.drop pos).take size).take c.read) = buf
  have hnul : NulFree buf := hdata ▸ noNul_nulFree _
  have hsize : buf.length ≤ size := by
    rw [← hdata, noNul, List.length_map]
    simp only [List.length_take]
    omega
  obtain ⟨tail, hbuf⟩ : ∃ tail, (noNul f.content).drop pos = buf ++ tail := by
    have hread : buf <+: (noNul f.content).drop pos := by
      rw [← hdata, noNul, noNul, List.map_take, List.map_take, List.map_drop]
      exact (List.take_prefix _ _).trans (List.take_prefix _ _)
    obtain ⟨tail, htail⟩ := hread
    exact ⟨tail, htail.symm⟩
  have hstart : OnceLoop origin size pos buf (noNul f.content) groups.flatten (some pos)
      ⟨0, buf.length, pos, [], some pos⟩ [] :=
    ⟨by simp, by simpa using hcut, rfl, fun h => absurd rfl h, fun _ h => absurd rfl h, .inl rfl⟩
  -- a position that was written with no line of the call
  have hearly : ∀ {l : PushLoop} {new : List CStr},
      OnceLoop origin size pos buf (noNul f.content) groups.flatten (some pos) l new →
      (new = [] ∨ NoBlank f.content) → OnceInv origin size { f with xattr := l.xattr } := by
    intro l new hl hnone
    refine .of_cut groups haccepted ?_
    simp only
    rcases hl.xattr with hx | ⟨n, early, hx, hcutn, hprefix, hblank⟩
    · rw [hx]
      exact hcut
    · have hnil : early = [] := by
        rcases hnone with rfl | hno
        · exact List.prefix_nil.mp hprefix
        · exact hblank hno.noNul
      rw [hx, Option.getD_some]
      rwa [hnil, List.append_nil] at hcutn
  cases hkilled : c.killed with
  | some rounds =>
    obtain ⟨new, hend⟩ := pushLoop_once hnul hsize hbuf rounds hstart
    refine hearly hend (.inr (hsafe.resolve_left ?_))
    simp [hkilled]
  | none =>
    obtain ⟨new, hend⟩ := pushLoop_once hnul hsize hbuf buf.length hstart
    simp only
    generalize hl : pushLoop origin size true pos buf buf.length
      ⟨0, buf.length, pos, [], some pos⟩ = l at hend
    rw [pushFrags]
    split
    · next hfrags =>
      have hnew : new = [] := by
        rw [hend.frags] at hfrags
        exact List.map_eq_nil_iff.mp hfrags
      exact hearly hend (.inl hnew)
    · next hfrags =>
      have hnew : new ≠ [] := by
        rintro rfl
        exact hfrags hend.frags
      split
      · refine .of_cut (groups ++ [new]) ?_ ?_
        · simp only [haccepted, hend.frags, List.map_append, List.map_cons, List.map_nil]
        · simp only [hset, hafter, Bool.not_false, Bool.and_true, if_true, Option.getD_some]
          rw [hend.pos hnew, List.flatten_append]
          simpa using hend.cut
      · next hpushed =>
        refine hearly hend (.inr (hsafe.resolve_left ?_))
        simp [hpushed]

theorem OnceInv.step {s : LogStep} (h : OnceInv origin size f) (hsafe : PushOnce f s) :
    OnceInv origin size (stepLog origin size f s) := by
  obtain ⟨hle, groups, haccepted, hcut⟩ := h
  have hcutAt : CutAt size (noNul f.content) (f.xattr.getD 0) groups.flatten :=
    ⟨by simpa [noNul] using hle, hcut⟩
  cases s with
  | append text =>
    refine .of_cut groups haccepted ⟨?_, ?_⟩
    · simp only [stepLog, noNul, List.length_map, List.length_append]
      omega
    · have hcontent : noNul (f.content ++ text) = noNul f.content ++ noNul text := List.map_append
      simp only [stepLog, hcontent]
      rw [List.take_append_of_le_length hcutAt.1]
      exact hcut
  | push c =>
    obtain ⟨hget, hset, hafter, hsafe⟩ := hsafe
    rw [stepLog, phLoggerPushFromFile]
    split
    · exact .of_cut groups haccepted hcutAt
    · cases hx : f.xattr with
      | some pos =>
        rw [hx] at hcutAt
        exact pushRead_once haccepted hcutAt hset hafter hsafe
      | none =>
        rw [hx] at hcutAt
        exact pushRead_once haccepted hcutAt hset hafter hsafe

/-! ## Runs -/

/-- **Every line up to the position was sent once, and in order**, in a run with an
attribute that works. -/
theorem lines_pushed_once {origin : LogOrigin} {size : LogSize} {f : LogFile} {steps : List LogStep}
    (hinit : (logSystem origin size).init f)
    (hsafe : (logSystem origin size).Along PushOnce f steps) :
    SentOnce origin size ((logSystem origin size).run f steps) := by
  have hstart : OnceInv origin size f := by
    refine .of_cut [] hinit.2 ?_
    rw [hinit.1]
    exact ⟨Nat.zero_le _, rfl⟩
  have hstep : ∀ f s, OnceInv origin size f → PushOnce f s →
      OnceInv origin size ((logSystem origin size).step f s) ∧ True :=
    fun _ _ h hs => ⟨h.step hs, trivial⟩
  exact (System.along_of_invariant hstep hstart hsafe).2.once

/-- What was accepted, put together, is the file up to the position without its newlines. -/
theorem SentOnce.text {origin : LogOrigin} {size : Nat} {f : LogFile}
    (h : SentOnce origin size f) :
    ∃ groups : List (List CStr),
      f.accepted = groups.map (fun texts => jsonFragArray (texts.map (lineFrag origin))) ∧
      groups.flatten.flatten
        = ((noNul f.content).take (f.xattr.getD 0)).filter (· ≠ newline) := by
  obtain ⟨groups, haccepted, hcut⟩ := h
  have htext : (cut newline size ((noNul f.content).take (f.xattr.getD 0))).1.flatten ++ _ = _ :=
    cut_flatten _
  rw [hcut, List.append_nil] at htext
  exact ⟨groups, haccepted, htext⟩

/-- A line, a push that is refused, a line, and a push. -/
theorem lines_pushed_once_two :
    SentOnce ⟨str "/x.log", str "app", str "1"⟩ oneKib
      ((logSystem ⟨str "/x.log", str "app", str "1"⟩ oneKib).run ⟨str "a\n", none, []⟩
        [.push { goodCall with pushed := false }, .append (str "b\n"), .push goodCall]) := by
  refine lines_pushed_once ⟨rfl, rfl⟩
    ⟨⟨rfl, rfl, rfl, .inr ?_⟩, trivial, ⟨rfl, rfl, rfl, .inl ⟨rfl, rfl⟩⟩, trivial⟩
  decide +kernel

/-- A line is sent twice where the attribute is not written behind the answer. -/
theorem line_sent_twice :
    ¬ SentOnce ⟨str "/x.log", str "app", str "1"⟩ oneKib
      ((logSystem ⟨str "/x.log", str "app", str "1"⟩ oneKib).run ⟨str "a\n", none, []⟩
        [.push { goodCall with killedAfter := true }, .push goodCall]) := by
  have hempty : ∀ {texts : List CStr}, jsonFragArray [lineFrag ⟨str "/x.log", str "app", str "1"⟩
      (str "a")] = jsonFragArray (texts.map (lineFrag ⟨str "/x.log", str "app", str "1"⟩)) →
      texts ≠ [] := by
    rintro texts harray rfl
    exact absurd harray (by decide +kernel)
  have hend : (logSystem ⟨str "/x.log", str "app", str "1"⟩ oneKib).run ⟨str "a\n", none, []⟩
      [.push { goodCall with killedAfter := true }, .push goodCall]
      = ⟨str "a\n", some 2, [jsonFragArray [lineFrag ⟨str "/x.log", str "app", str "1"⟩ (str "a")],
        jsonFragArray [lineFrag ⟨str "/x.log", str "app", str "1"⟩ (str "a")]]⟩ := by
    decide +kernel
  rw [hend]
  rintro ⟨groups, haccepted, hcut⟩
  have hpieces : groups.flatten = [str "a"] := by
    have hcut' : cut newline oneKib.size ((noNul (str "a\n")).take 2) = ([str "a"], []) := by
      decide +kernel
    rw [Option.getD_some, hcut'] at hcut
    exact (Prod.ext_iff.mp hcut).1.symm
  -- an array for each of the two calls, and one line for both of them
  have hgroups : groups.length = 2 := by simpa using (congrArg List.length haccepted).symm
  obtain ⟨first, second, rfl⟩ := List.length_eq_two.mp hgroups
  obtain ⟨hfirst, hrest⟩ := List.cons.inj haccepted
  have hlen := congrArg List.length hpieces
  have hpos := List.length_pos_iff.mpr (hempty hfirst)
  have hpos' := List.length_pos_iff.mpr (hempty (List.cons.inj hrest).1)
  simp only [List.flatten_cons, List.flatten_nil, List.length_append, List.length_nil,
    List.length_singleton] at hlen
  omega

end Pantavisor.PhLogger
