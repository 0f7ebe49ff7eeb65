/-
Pantavisor.PhLogger.LeftBehind — what a call of `ph_logger_push_from_file` leaves behind
when it returns 0.

The range service takes a 0 for the end of a file and goes on. In a file whose lines all
fit into the buffer, with no empty line but the first, that is right: every line was sent
(`pushed_all`). Behind two empty lines it is not right, because the loop takes the whole
offset off what is left to look at, in each round.
-/
import Pantavisor.PhLogger.Once

namespace Pantavisor.PhLogger

open Pantavisor.Lib Pantavisor.Json

/-! ## What the property says -/

/-- No empty line but the first, and lines that fit into the buffer with two newlines. -/
def Steady (size : Nat) (content : CStr) : Prop :=
  NoBlank content ∧ ∀ pre line rest, content = pre ++ (line ++ newline :: rest) →
    newline ∉ line → line.length + 2 ≤ size

/-- Each line was sent. An unfinished one at the end is none yet. -/
def AllSent (origin : LogOrigin) (f : LogFile) : Prop :=
  ∀ pre line rest, f.content = pre ++ (line ++ newline :: rest) → LineStart newline pre →
    newline ∉ line → line ≠ [] → TextSent origin f.accepted (noNul line)

theorem Steady.start {size : Nat} {content text : CStr} (h : Steady size (content ++ text)) :
    Steady size content := by
  refine ⟨fun hblank => h.1 (hblank.trans (List.prefix_append _ _).isInfix), ?_⟩
  intro pre line rest heq
  exact h.2 pre line (rest ++ text) (by rw [heq]; simp)

theorem Steady.noNul {size : Nat} {content : CStr} (h : Steady size content) :
    Steady size (noNul content) := by
  refine ⟨h.1.noNul, fun pre line rest heq hline => ?_⟩
  obtain ⟨pre', tail, rfl, -, htail⟩ := List.map_eq_append_iff.mp heq
  obtain ⟨line', tail', rfl, rfl, htail'⟩ := List.map_eq_append_iff.mp htail
  obtain ⟨rest', rfl, -⟩ := noNul_cons_newline htail'
  have hline' : newline ∉ line' := fun hm => hline (newline_mem_noNul.mpr hm)
  simpa using h.2 pre' line' rest' rfl hline'

theorem TextSent.mono {origin : LogOrigin} {accepted more : List CStr} {text : CStr}
    (h : TextSent origin accepted text) : TextSent origin (accepted ++ more) text := by
  obtain ⟨frags, formattedJson, hformat, hfrag, haccepted⟩ := h
  exact ⟨frags, formattedJson, hformat, hfrag, by simp [haccepted]⟩

/-! ## Without empty lines -/

/-- Where no line is empty, the loop comes to no late empty line. -/
theorem NoBlank.not_late {rounds : Nat} {data : CStr} (h : NoBlank data) :
    ¬ LateEmptyLine rounds data := by
  rintro ⟨lines, rest, -, -, ⟨line, hline, -⟩, hdata, -⟩
  rcases List.eq_nil_or_concat lines with rfl | ⟨init, last, rfl⟩
  · cases hline
  · refine h ⟨(init.flatMap fun line => line ++ [newline]) ++ last, rest, ?_⟩
    rw [hdata, List.concat_eq_append]
    simp

theorem readData_within (size : Nat) (c : PushCalls) (f : LogFile) :
    readData size c f <:+: noNul f.content := by
  rw [readData]
  split
  · simp only [noNul, List.map_take, List.map_drop]
    exact ((List.take_prefix _ _).isInfix.trans (List.take_prefix _ _).isInfix).trans
      (List.drop_suffix _ _).isInfix
  · exact List.nil_infix

/-- Any call is safe for such a file. -/
theorem NoBlank.pushSafe {size : Nat} {f : LogFile} {c : PushCalls} (h : NoBlank f.content) :
    PushSafe size f (.push c) := by
  refine .inr (.inr (NoBlank.not_late fun hblank => ?_))
  exact h.noNul (hblank.trans (readData_within size c f))

/-! ## The first two rounds -/

variable {origin : LogOrigin} {size readPos : Nat} {setOk : Bool} {buf seg rest : CStr}
  {l : PushLoop}

theorem pushText_keeps (text : CStr) (h : l.frags ≠ []) :
    (pushText origin setOk readPos text l).frags ≠ [] := by
  rw [pushText]
  split
  · simp
  · exact h

theorem pushRound_keeps (h : l.frags ≠ []) :
    (pushRound origin size setOk readPos buf l).frags ≠ [] := by
  simp only [pushRound]
  split
  · exact pushText_keeps _ h
  · split
    · exact pushText_keeps _ h
    · exact h

theorem pushLoop_keeps (rounds : Nat) :
    ∀ {l : PushLoop}, l.frags ≠ [] →
      (pushLoop origin size setOk readPos buf rounds l).frags ≠ [] := by
  induction rounds with
  | zero => exact fun h => h
  | succ rounds ih =>
    intro l h
    rw [pushLoop]
    split
    · exact ih (pushRound_keeps h)
    · exact h

/-- `strnchr` finds the first such character. -/
theorem strnchr_first {src : CStr} {ch : UInt8} {len : Int} (hnul : NulFree src)
    (hsrc : src = seg ++ ch :: rest) (hseg : ch ∉ seg) (hlen : (seg.length : Int) < len) :
    strnchr src ch len = some seg.length := by
  obtain ⟨n, rfl⟩ : ∃ n : Nat, len = ((seg.length + (n + 1) : Nat) : Int) :=
    ⟨(len - seg.length - 1).toNat, by omega⟩
  cases hfind : strnchr src ch ((seg.length + (n + 1) : Nat) : Int) with
  | none =>
    refine absurd ?_ (strnchr_none hnul hfind)
    rw [hsrc, Int.toNat_natCast, List.take_length_add_append]
    simp
  | some k =>
    obtain ⟨rest', heq, hnot, hlt, -⟩ := strnchr_some hnul hfind
    have hsame := congrArg (List.idxOf ch) (heq.symm.trans hsrc)
    rw [List.idxOf_append_of_notMem hnot, List.idxOf_append_of_notMem hseg,
      List.idxOf_cons_self, List.idxOf_cons_self, List.length_take, Nat.min_eq_left hlt.le] at hsame
    rw [show k = seg.length from hsame]

/-- A round that finds a line with a text makes a fragment. -/
theorem pushRound_frag (hnul : NulFree buf) (hdrop : buf.drop l.offset = seg ++ newline :: rest)
    (hseg : newline ∉ seg) (hne : seg ≠ []) (hlen : (seg.length : Int) < l.bytesRead) :
    (pushRound origin size setOk readPos buf l).frags ≠ [] := by
  have hnul' : NulFree (buf.drop l.offset) := fun h => hnul (List.mem_of_mem_drop h)
  have htake : (buf.drop l.offset).take seg.length = seg := by rw [hdrop, List.take_left]
  simp only [pushRound, strnchr_first hnul' hdrop hseg hlen, Nat.add_sub_cancel, htake]
  rw [pushText_some hne]
  simp

variable (origin size readPos setOk) in
/-- A round that finds an empty line goes on behind it. -/
theorem pushRound_empty (hdrop : buf.drop l.offset = newline :: rest) (hnul : NulFree buf)
    (hlen : 0 < l.bytesRead) :
    (pushRound origin size setOk readPos buf l).offset = l.offset + 1 ∧
      (pushRound origin size setOk readPos buf l).bytesRead
        = l.bytesRead - (l.offset + 1 : Nat) := by
  have hnul' : NulFree (buf.drop l.offset) := fun h => hnul (List.mem_of_mem_drop h)
  have hfind : strnchr (buf.drop l.offset) newline l.bytesRead = some 0 :=
    strnchr_first hnul' (show _ = ([] : CStr) ++ newline :: rest from hdrop) List.not_mem_nil hlen
  simp only [pushRound, hfind]
  exact ⟨rfl, rfl⟩

/-- A loop that makes no fragment of a full buffer has found nothing but an empty line. -/
theorem pushLoop_no_frag {content : CStr} {pos rounds : Nat} {bytesRead : Int}
    {xattr : Option Nat} (hsteady : Steady size content)
    (hbuf : buf = (content.drop pos).take size) (hnul : NulFree buf) (hrounds : rounds = buf.length)
    (hbytes : bytesRead = buf.length)
    (hfrags : (pushLoop origin size setOk readPos buf rounds
      ⟨0, bytesRead, pos, [], xattr⟩).frags = [])
    (hdrop : content.drop pos = seg ++ newline :: rest) (hseg : newline ∉ seg) :
    seg = [] ∧ newline ∉ rest := by
  have hcontent : content = content.take pos ++ (seg ++ newline :: rest) := by
    rw [← hdrop, List.take_append_drop]
  have hfits := hsteady.2 _ _ _ hcontent hseg
  obtain ⟨k, hk⟩ : ∃ k, size = seg.length + (k + 1) := ⟨size - seg.length - 1, by omega⟩
  have hstart : buf = seg ++ newline :: rest.take k := by
    rw [hbuf, hdrop, hk, List.take_length_add_append, List.take_succ_cons]
  have hlen := congrArg List.length hstart
  rw [List.length_append, List.length_cons] at hlen
  obtain ⟨m, hm⟩ : ∃ m, rounds = m + 1 := ⟨rounds - 1, by omega⟩
  rw [hm, pushLoop, if_pos (show bytesRead > 0 by omega)] at hfrags
  have hnil : seg = [] := by
    by_contra hne
    refine pushLoop_keeps m ?_ hfrags
    exact pushRound_frag hnul hstart hseg hne (show (seg.length : Int) < bytesRead by omega)
  subst hnil
  refine ⟨rfl, fun hmem => ?_⟩
  -- another line is in the buffer with both newlines, and the second round comes to it
  obtain ⟨seg, rest', rfl, hseg'⟩ := List.eq_append_cons_of_mem hmem
  have hne : seg ≠ [] := by
    rintro rfl
    exact hsteady.1 ⟨content.take pos, rest', by rw [List.append_assoc]; exact hcontent.symm⟩
  have hcontent' : content = (content.take pos ++ [newline]) ++ (seg ++ newline :: rest') := by
    rw [List.append_assoc]
    exact hcontent
  have hfits' := hsteady.2 _ _ _ hcontent' hseg'
  obtain ⟨j, rfl⟩ : ∃ j, k = seg.length + (j + 1) := by
    rw [List.length_nil] at hk
    exact ⟨k - seg.length - 1, by omega⟩
  rw [List.take_length_add_append, List.take_succ_cons] at hstart hlen
  rw [List.length_append, List.length_cons, List.length_nil] at hlen
  obtain ⟨hoffset, hmore⟩ := pushRound_empty origin size readPos setOk
    (show buf.drop (PushLoop.mk 0 bytesRead pos [] xattr).offset = _ from hstart) hnul
    (show 0 < bytesRead by omega)
  obtain ⟨i, rfl⟩ : ∃ i, m = i + 1 := ⟨m - 1, by omega⟩
  rw [pushLoop] at hfrags
  generalize pushRound origin size setOk readPos buf ⟨0, bytesRead, pos, [], xattr⟩ = l at *
  simp only at hoffset hmore
  have hsecond : buf.drop l.offset = seg ++ newline :: rest'.take j := by
    rw [hoffset, hstart]
    rfl
  rw [if_pos (by omega)] at hfrags
  exact pushLoop_keeps i (pushRound_frag hnul hsecond hseg' hne (by omega)) hfrags

/-! ## A call -/

variable {f : LogFile} {c : PushCalls} {pos : Nat} {xattr : Option Nat}

/-- A call that returns 0 has found nothing but an empty line, where it reads the file. -/
theorem pushRead_zero (hsteady : Steady size f.content) (hle : pos ≤ f.content.length)
    (hseeked : c.seeked = true) (hread : size ≤ c.read) (hkilled : c.killed = none)
    (hzero : (pushRead origin size c f pos xattr).1 = 0) :
    (pushRead origin size c f pos xattr).2.accepted = f.accepted ∧
      ∀ seg rest, (noNul f.content).drop pos = seg ++ newline :: rest → newline ∉ seg →
        seg = [] ∧ newline ∉ rest := by
  have hnotrunc : (c.fstat && decide (f.content.length < pos)) = false := by
    simp [Nat.not_lt.mpr hle]
  rw [pushRead] at hzero ⊢
  split at hzero
  · cases hzero
  next hopened =>
  rw [if_neg hopened]
  simp only [hseeked, hnotrunc, hkilled, Bool.not_true, Bool.false_eq_true, if_false] at hzero ⊢
  generalize hbuf : noNul (((f.content.drop pos).take size).take c.read) = buf at hzero ⊢
  have hnul : NulFree buf := hbuf ▸ noNul_nulFree _
  have hbuf' : buf = ((noNul f.content).drop pos).take size := by
    rw [← hbuf, List.take_take, Nat.min_eq_right hread, noNul, noNul, List.map_take, List.map_drop]
  rw [pushFrags] at hzero ⊢
  split at hzero
  · next hfrags =>
    rw [if_pos hfrags]
    exact ⟨rfl, fun seg rest => pushLoop_no_frag hsteady.noNul hbuf' hnul rfl rfl hfrags⟩
  · split at hzero
    · cases hzero
    · cases hzero

/-- What was taken up to a position behind which no line ends was all sent. -/
theorem allSent_of_rest {accepted : List CStr} (hsteady : Steady size f.content)
    (htaken : TakenTo origin size (noNul f.content) accepted [] pos)
    (hrest : ∀ seg rest, (noNul f.content).drop pos = seg ++ newline :: rest → newline ∉ seg →
      seg = [] ∧ newline ∉ rest) :
    AllSent origin { f with accepted := accepted } := by
  intro pre line rest hcontent hpre hline hne
  simp only at hcontent ⊢
  have htext : noNul f.content = noNul pre ++ (noNul line ++ newline :: noNul rest) := by
    rw [hcontent, noNul, List.map_append, List.map_append, List.map_cons]
    rfl
  have hstart : LineStart newline (noNul pre) := by
    rcases hpre with rfl | ⟨pre', rfl⟩
    · exact .inl rfl
    · exact .inr ⟨noNul pre', by rw [noNul, List.map_append]; rfl⟩
  have hends : (noNul pre).length + (noNul line).length ≤ pos := by
    by_contra hlt
    have hdrop : (noNul f.content).drop pos
        = (noNul pre ++ noNul line).drop pos ++ newline :: noNul rest := by
      rw [htext, ← List.append_assoc, List.drop_append_of_le_length]
      rw [List.length_append]
      omega
    obtain ⟨seg, rest', heq, hseg⟩ := List.eq_append_cons_of_mem
      (show newline ∈ (noNul f.content).drop pos by rw [hdrop]; simp)
    obtain ⟨rfl, hrest'⟩ := hrest seg rest' heq hseg
    -- there are two newlines behind the position
    have hlong : (noNul pre ++ noNul line).drop pos ≠ [] := by
      rw [Ne, List.drop_eq_nil_iff, List.length_append]
      omega
    obtain ⟨c, tail, htail⟩ := List.exists_cons_of_ne_nil hlong
    rw [hdrop, htail, List.nil_append, List.cons_append] at heq
    refine hrest' ?_
    rw [← (List.cons.inj heq).2]
    simp
  obtain ⟨-, pieces, htaken⟩ := htaken
  have hsent : Taken newline size (TextSent origin accepted) _ _ := htaken.mono fun text hsent => by
    rcases hsent with hsent | ⟨_, _, hfrag⟩
    · exact hsent
    · simp at hfrag
  have hshort := hsteady.2 pre line rest hcontent hline
  refine (hsent.delivered htext hstart (fun hm => hline (newline_mem_noNul.mp hm)) ?_ hends).1 ?_
  · simpa [noNul] using hne
  · rw [noNul, List.length_map]
    omega

theorem pushFrags_grows : (pushFrags c f l).2.content = f.content ∧
    ∃ more, (pushFrags c f l).2.accepted = f.accepted ++ more := by
  rw [pushFrags]
  split
  · exact ⟨rfl, [], (List.append_nil _).symm⟩
  · split
    · exact ⟨rfl, _, rfl⟩
    · exact ⟨rfl, [], (List.append_nil _).symm⟩

/-- A call leaves the text as it is, and what was accepted stays accepted. -/
theorem pushRead_grows : (pushRead origin size c f pos xattr).2.content = f.content ∧
    ∃ more, (pushRead origin size c f pos xattr).2.accepted = f.accepted ++ more := by
  rw [pushRead]
  split
  · exact ⟨rfl, [], (List.append_nil _).symm⟩
  split
  · exact ⟨rfl, [], (List.append_nil _).symm⟩
  cases c.killed with
  | some rounds => exact ⟨rfl, [], (List.append_nil _).symm⟩
  | none => exact pushFrags_grows

theorem push_grows : (phLoggerPushFromFile origin size c f).2.content = f.content ∧
    ∃ more, (phLoggerPushFromFile origin size c f).2.accepted = f.accepted ++ more := by
  rw [phLoggerPushFromFile]
  split
  · exact ⟨rfl, [], (List.append_nil _).symm⟩
  · split
    · exact pushRead_grows
    · exact pushRead_grows

theorem content_push : (phLoggerPushFromFile origin size c f).2.content = f.content :=
  push_grows.1

/-- What was sent stays sent. -/
theorem AllSent.push (h : AllSent origin f) :
    AllSent origin (phLoggerPushFromFile origin size c f).2 := by
  intro pre line rest hcontent hpre hline hne
  obtain ⟨more, hmore⟩ : ∃ more, (phLoggerPushFromFile origin size c f).2.accepted
      = f.accepted ++ more := push_grows.2
  rw [content_push] at hcontent
  rw [hmore]
  exact (h pre line rest hcontent hpre hline hne).mono

/-- **A call that returns 0 has left no line behind**, if it could read the file. -/
theorem pushed_all (hsteady : Steady size f.content) (hinv : LogInv origin size f)
    (hseeked : c.seeked = true) (hread : size ≤ c.read) (hkilled : c.killed = none)
    (hzero : (phLoggerPushFromFile origin size c f).1 = 0) :
    AllSent origin (phLoggerPushFromFile origin size c f).2 := by
  have hfrom : ∀ {pos : Nat} {xattr : Option Nat},
      TakenTo origin size (noNul f.content) f.accepted [] pos →
      (pushRead origin size c f pos xattr).1 = 0 →
      AllSent origin (pushRead origin size c f pos xattr).2 := by
    intro pos xattr htaken hzero
    have hle : pos ≤ f.content.length := by simpa [noNul] using htaken.1
    obtain ⟨haccepted, hrest⟩ := pushRead_zero hsteady hle hseeked hread hkilled hzero
    have hall := allSent_of_rest hsteady htaken hrest
    intro pre line rest hcontent
    rw [pushRead_grows.1] at hcontent
    rw [haccepted]
    exact hall pre line rest hcontent
  rw [phLoggerPushFromFile] at hzero ⊢
  split at hzero
  · cases hzero
  next hbuffers =>
  rw [if_neg hbuffers]
  cases hpos : (if c.getXattr then f.xattr else none) with
  | some pos =>
    rw [hpos] at hzero
    refine hfrom ?_ hzero
    have hxattr : f.xattr = some pos := by
      split at hpos
      · exact hpos
      · cases hpos
    rw [LogInv, hxattr] at hinv
    exact hinv
  | none =>
    rw [hpos] at hzero
    exact hfrom takenTo_zero hzero

/-- Behind two empty lines, a line is left by a call that returns 0. -/
theorem line_left_behind :
    phLoggerPushFromFile ⟨str "/x.log", str "app", str "1"⟩ 1024 goodCall
      ⟨str "\n\na\n", none, []⟩ = (0, ⟨str "\n\na\n", some 2, []⟩) := by
  decide +kernel

end Pantavisor.PhLogger
