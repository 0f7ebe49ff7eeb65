/-
Pantavisor.Ctrl.PutFile — a PUT on the control socket (`pv_ctrl_process_put_file` in
`ctrl.c`, and the `mkdir_p` that the branch of the steps makes before it).

The body goes from the socket to a new file, in pieces of at most 4096 bytes. A call may
transfer less than it was asked to. The loop counts what it read, so a short write leaves a
hole at which nothing fails. An error removes the file by its path; for an `open` that
finds the file there `errno` is to tell that apart, but it is looked at behind the response,
which has its own calls.
-/
import Pantavisor.Lib.FileTreeGrow

namespace Pantavisor.Ctrl

open Pantavisor.Lib

/-- The outcomes of the calls of a PUT. -/
structure PutCalls where
  /-- false where `open` fails for want of a resource -/
  opens : Bool
  /-- `errno` behind `pv_ctrl_write_response`, from what it was before -/
  errnoAfter : Fs.Errno → Fs.Errno
  /-- the counts that each `read` and the `write` behind it return, if there is as much; an
  error or the end of the socket is not positive -/
  transfers : List (Int × Int)

/-- A PUT of a file. -/
structure PutRequest where
  /-- what the branch hands to `mkdir_p` -/
  parent : Option (List Name)
  path : List Name
  contentLength : Nat
  /-- what the client sends behind the header -/
  socket : CStr
  deriving DecidableEq, Repr

/-! ## The code -/

/-- `open` with `O_CREAT` and `O_EXCL`. -/
def PutCalls.openFile (calls : PutCalls) (fs : Fs) (path : List Name) :
    Except Fs.Errno (Nat × Fs) :=
  if calls.opens then fs.openExcl path else .error .other

/-- What a `read` of the loop gets. -/
def received (contentLength : Nat) (socket : CStr) (count : Int) : CStr :=
  socket.take (min count.toNat (min contentLength 4096))

/-- The loop of `pv_ctrl_process_put_file`, and whether it gets to the end of the body. -/
def putLoop (inode : Nat) : List (Int × Int) → Nat → CStr → Fs → Bool × Fs
  | [], contentLength, _, fs => (contentLength = 0, fs)
  | (readCount, writeCount) :: transfers, contentLength, socket, fs =>
    if contentLength = 0 then (true, fs)
    else
      let req := received contentLength socket readCount
      if req = [] ∨ writeCount ≤ 0 then (false, fs)
      else
        putLoop inode transfers (contentLength - req.length) (socket.drop req.length)
          (fs.setData inode (fs.data inode ++ req.take writeCount.toNat))

/-- `pv_ctrl_process_put_file` -/
def pvCtrlProcessPutFile (calls : PutCalls) (contentLength : Nat) (path : List Name)
    (socket : CStr) (fs : Fs) : Int × Fs :=
  match calls.openFile fs path with
  | .error e =>
    if calls.errnoAfter e = .eexist then (-1, fs) else (-1, (fs.remove path).getD fs)
  | .ok (inode, fs) =>
    match putLoop inode calls.transfers contentLength socket fs with
    | (true, fs) => (0, fs)
    | (false, fs) => (-1, (fs.remove path).getD fs)

/-- The directories of the file, in a branch that makes them. -/
def PutRequest.start (r : PutRequest) (fs : Fs) : Fs :=
  match r.parent with
  | none => fs
  | some parent => fs.mkdirP parent

/-- The part of a request that is about its file. -/
def PutRequest.run (r : PutRequest) (calls : PutCalls) (fs : Fs) : Int × Fs :=
  pvCtrlProcessPutFile calls r.contentLength r.path r.socket (r.start fs)

/-! ## The loop -/

/-- What is written to the file. -/
def written : List (Int × Int) → Nat → CStr → CStr
  | [], _, _ => []
  | (readCount, writeCount) :: transfers, contentLength, socket =>
    let req := received contentLength socket readCount
    if contentLength = 0 ∨ req = [] ∨ writeCount ≤ 0 then []
    else
      req.take writeCount.toNat ++
        written transfers (contentLength - req.length) (socket.drop req.length)

/-- A `read` or a `write` fails before the end of the body. -/
def CallFails : List (Int × Int) → Nat → CStr → Prop
  | [], contentLength, _ => contentLength ≠ 0
  | (readCount, writeCount) :: transfers, contentLength, socket =>
    let req := received contentLength socket readCount
    contentLength ≠ 0 ∧ (req = [] ∨ writeCount ≤ 0 ∨
      CallFails transfers (contentLength - req.length) (socket.drop req.length))

/-- Each `write` writes what was read. -/
def FullWrites : List (Int × Int) → Nat → CStr → Prop
  | [], _, _ => True
  | (readCount, writeCount) :: transfers, contentLength, socket =>
    let req := received contentLength socket readCount
    contentLength = 0 ∨ (req.length : Int) ≤ writeCount ∧
      FullWrites transfers (contentLength - req.length) (socket.drop req.length)

theorem length_received (n : Nat) (socket : CStr) (count : Int) :
    (received n socket count).length ≤ n := by
  rw [received, List.length_take]
  omega

theorem received_eq_take (n : Nat) (socket : CStr) (count : Int) :
    received n socket count = socket.take (received n socket count).length := by
  rw [received, List.length_take, ← List.take_eq_take_min]

theorem setData_setData (fs : Fs) (i : Nat) (a b : CStr) :
    (fs.setData i a).setData i b = fs.setData i b := by
  simp only [Fs.setData, Fs.mk.injEq, true_and]
  funext j
  split <;> rfl

/-- The loop adds what it writes to the file. -/
theorem putLoop_snd (inode : Nat) (transfers : List (Int × Int)) (n : Nat) (socket : CStr)
    (fs : Fs) (s : CStr) :
    (putLoop inode transfers n socket (fs.setData inode s)).2
      = fs.setData inode (s ++ written transfers n socket) := by
  induction transfers generalizing n socket s with
  | nil => rw [putLoop, written, List.append_nil]
  | cons t transfers ih =>
    obtain ⟨readCount, writeCount⟩ := t
    rw [putLoop, written]
    by_cases hn : n = 0
    · rw [if_pos hn, if_pos (.inl hn), List.append_nil]
    · rw [if_neg hn]
      by_cases hfail : received n socket readCount = [] ∨ writeCount ≤ 0
      · simp only [if_pos hfail, if_pos (Or.inr hfail : n = 0 ∨ _), List.append_nil]
      · simp only [if_neg hfail, if_neg (not_or.mpr ⟨hn, hfail⟩)]
        have hdata : (fs.setData inode s).data inode = s := by simp [Fs.data_setData]
        rw [hdata, setData_setData, ih, List.append_assoc]

theorem putLoop_fst (inode : Nat) (transfers : List (Int × Int)) (n : Nat) (socket : CStr)
    (fs : Fs) : (putLoop inode transfers n socket fs).1 = false ↔ CallFails transfers n socket := by
  induction transfers generalizing n socket fs with
  | nil => simp [putLoop, CallFails]
  | cons t transfers ih =>
    obtain ⟨readCount, writeCount⟩ := t
    rw [putLoop, CallFails]
    by_cases hn : n = 0
    · simp [hn]
    · rw [if_neg hn]
      by_cases hfail : received n socket readCount = [] ∨ writeCount ≤ 0
      · simp only [if_pos hfail, true_iff]
        exact ⟨hn, hfail.imp_right .inl⟩
      · simp only [if_neg hfail, ih]
        rw [not_or] at hfail
        constructor
        · exact fun h => ⟨hn, .inr (.inr h)⟩
        · rintro ⟨-, h | h | h⟩
          · exact absurd h hfail.1
          · exact absurd h hfail.2
          · exact h

/-- No more is written than the body is long. -/
theorem length_written_le (transfers : List (Int × Int)) (n : Nat) (socket : CStr) :
    (written transfers n socket).length ≤ n := by
  induction transfers generalizing n socket with
  | nil => exact Nat.zero_le _
  | cons t transfers ih =>
    rw [written]
    split
    · exact Nat.zero_le _
    · have hlen := length_received n socket t.1
      have hrest := ih (n - (received n socket t.1).length)
        (socket.drop (received n socket t.1).length)
      rw [List.length_append, List.length_take]
      omega

/-- The file gets as long as the body just if every write was full. -/
theorem length_written_iff {transfers : List (Int × Int)} {n : Nat} {socket : CStr}
    (h : ¬ CallFails transfers n socket) :
    (written transfers n socket).length = n ↔ FullWrites transfers n socket := by
  induction transfers generalizing n socket with
  | nil =>
    have hn : n = 0 := Decidable.not_not.mp h
    simp [written, FullWrites, hn]
  | cons t transfers ih =>
    obtain ⟨readCount, writeCount⟩ := t
    rw [written, FullWrites]
    by_cases hn : n = 0
    · simp [hn]
    · rw [CallFails, not_and] at h
      have hgoes := h hn
      rw [not_or, not_or] at hgoes
      obtain ⟨hreq, hwrite, hrest⟩ := hgoes
      rw [if_neg (by simp [hn, hreq, hwrite]), or_iff_right hn, ← ih hrest, List.length_append,
        List.length_take]
      have hlen := length_received n socket readCount
      have hle := length_written_le transfers (n - (received n socket readCount).length)
        (socket.drop (received n socket readCount).length)
      omega

/-- With full writes the file is the start of what the client sends. -/
theorem written_of_full {transfers : List (Int × Int)} {n : Nat} {socket : CStr}
    (h : ¬ CallFails transfers n socket) (hfull : FullWrites transfers n socket) :
    written transfers n socket = socket.take n := by
  induction transfers generalizing n socket with
  | nil =>
    have hn : n = 0 := Decidable.not_not.mp h
    rw [hn]
    rfl
  | cons t transfers ih =>
    obtain ⟨readCount, writeCount⟩ := t
    rw [written]
    by_cases hn : n = 0
    · simp [hn]
    · rw [CallFails, not_and] at h
      have hgoes := h hn
      rw [not_or, not_or] at hgoes
      obtain ⟨hreq, hwrite, hrest⟩ := hgoes
      rw [FullWrites] at hfull
      obtain ⟨hcount, hfull⟩ := hfull.resolve_left hn
      have hlen := length_received n socket readCount
      rw [if_neg (by simp [hn, hreq, hwrite]), List.take_of_length_le (by omega),
        ih hrest hfull]
      conv_lhs => arg 1; rw [received_eq_take]
      rw [← List.take_add, Nat.add_sub_cancel' hlen]

/-! ## The file -/

variable {calls : PutCalls} {fs : Fs} {path : List Name}

/-- A file that is opened is new. -/
theorem openFile_ok {o : Nat × Fs} (h : calls.openFile fs path = .ok o) :
    ∃ d n, fs.entry path = some (d, n) ∧ fs.root.get (d ++ [n]) = none ∧
      path.getLast? ≠ some [] ∧ o = (fs.root.fresh, fs.create (d ++ [n]) []) := by
  unfold PutCalls.openFile Fs.openExcl at h
  split at h
  · split at h
    · cases h
    · rename_i d n hentry
      split at h
      · cases h
      · rename_i hnone
        split at h
        · cases h
        · rename_i hlast
          exact ⟨d, n, hentry, hnone, hlast, (Except.ok.inj h).symm⟩
  · cases h

/-- A place where a path has its entry is in a directory. -/
theorem entry_dir {d : Path} {n : Name} (h : fs.entry path = some (d, n)) : fs.DirAt d :=
  (Fs.entry_kept (fun _ h => h) (fun _ _ h _ => h) h).2

/-- **A removal** takes away what was at the place of its path, and nothing else. -/
theorem remove_some {fs' : Fs} (h : fs.remove path = some fs') :
    ∃ d n, fs.entry path = some (d, n) ∧ fs.held (d ++ [n]) ≠ none ∧
      ∀ p, fs'.held p = if p = d ++ [n] then none else fs.held p := by
  unfold Fs.remove at h
  split at h
  · cases h
  · rename_i d n hentry
    -- below a place that is removed there was nothing
    have hremoved : ∀ t, fs.root.get (d ++ [n]) = some t → (∀ q, q ≠ [] → t.get q = none) →
        fs' = fs.setRoot (d ++ [n]) none →
        ∃ d' n', some (d, n) = some (d', n') ∧ fs.held (d' ++ [n']) ≠ none ∧
          ∀ p, fs'.held p = if p = d' ++ [n'] then none else fs.held p := by
      rintro t ht hbelow rfl
      refine ⟨d, n, rfl, by rw [Fs.held, ht]; simp, fun p => ?_⟩
      by_cases hpre : d ++ [n] <+: p
      · obtain ⟨q, rfl⟩ := hpre
        have hgone : (fs.setRoot (d ++ [n]) none).held (d ++ [n] ++ q) = none := by
          rw [Fs.held, Fs.setRoot, Tree.get_append, Tree.get_set_none (by simp)]
          rfl
        rw [hgone]
        by_cases hq : q = []
        · rw [if_pos (by rw [hq, List.append_nil])]
        · rw [if_neg (by simpa using hq), Fs.held, Tree.get_append, ht, Option.bind_some,
            hbelow q hq]
          rfl
      · rw [Fs.held_setRoot_off (entry_dir hentry) hpre,
          if_neg (by rintro rfl; exact hpre (List.prefix_refl _))]
    rw [hentry]
    split at h
    · cases h
    · rename_i ht
      refine hremoved _ ht (fun q hq => ?_) (Option.some.inj h).symm
      obtain ⟨m, q, rfl⟩ := List.exists_cons_of_ne_nil hq
      rfl
    · cases h
    · rename_i u _ hdir ht
      split at h
      · cases h
      · refine hremoved _ ht (fun q hq => ?_) (Option.some.inj h).symm
        obtain ⟨m, q, rfl⟩ := List.exists_cons_of_ne_nil hq
        cases u with
        | dir es => exact absurd rfl (hdir es)
        | file i => rfl
        | symlink l => rfl

/-! ## The request -/

/-- What is at each place is the same. -/
def Same (fs fs' : Fs) : Prop := ∀ p, fs'.held p = fs.held p

/-- A PUT that succeeds has stored all of the body, which the client has sent, and one that
fails has changed nothing. -/
structure StoresOrNothing (r : PutRequest) (calls : PutCalls) (fs : Fs) : Prop where
  stored : (r.run calls fs).1 = 0 → ∃ body d n, body.length = r.contentLength ∧
    body <+: r.socket ∧ (r.start fs).entry r.path = some (d, n) ∧
    (r.run calls fs).2.held (d ++ [n]) = some (.file body)
  nothing : (r.run calls fs).1 ≠ 0 → Same fs (r.run calls fs).2

/-- `mkdir_p` has nothing to make, or cannot make anything. -/
def PutRequest.MakesNothing (r : PutRequest) (fs : Fs) : Prop := Same fs (r.start fs)

/-- `mkdir_p` makes one directory, at this place. -/
def PutRequest.MakesOnly (r : PutRequest) (fs : Fs) (p : Path) : Prop :=
  fs.held p = none ∧ ∀ q, q ≠ p → (r.start fs).held q = fs.held q

/-- The outcomes that a PUT is right with. `refused`: nothing was made for an `open` that
fails, and behind it `errno` still says that the file is there, or there is nothing to
remove; or what is removed is the one directory that was made. `broken`: nothing was made
for a file that is given up. `full`: each write of a body that is read to its end is full. -/
structure GoodOutcomes (r : PutRequest) (calls : PutCalls) (fs : Fs) : Prop where
  refused : ∀ e, calls.openFile (r.start fs) r.path = .error e →
    r.MakesNothing fs ∧ (calls.errnoAfter e = .eexist ∨ (r.start fs).remove r.path = none) ∨
      calls.errnoAfter e ≠ .eexist ∧ (r.start fs).remove r.path ≠ none ∧
        ∃ d n, (r.start fs).entry r.path = some (d, n) ∧ r.MakesOnly fs (d ++ [n])
  broken : ∀ o, calls.openFile (r.start fs) r.path = .ok o →
    CallFails calls.transfers r.contentLength r.socket → r.MakesNothing fs
  full : ∀ o, calls.openFile (r.start fs) r.path = .ok o →
    ¬ CallFails calls.transfers r.contentLength r.socket →
      FullWrites calls.transfers r.contentLength r.socket

/-- When a refused PUT leaves the storage as it was. -/
theorem refused_iff (r : PutRequest) (calls : PutCalls) (fs : Fs) (e : Fs.Errno) :
    Same fs (if calls.errnoAfter e = .eexist then r.start fs
        else ((r.start fs).remove r.path).getD (r.start fs)) ↔
      r.MakesNothing fs ∧ (calls.errnoAfter e = .eexist ∨ (r.start fs).remove r.path = none) ∨
        calls.errnoAfter e ≠ .eexist ∧ (r.start fs).remove r.path ≠ none ∧
          ∃ d n, (r.start fs).entry r.path = some (d, n) ∧ r.MakesOnly fs (d ++ [n]) := by
  by_cases herrno : calls.errnoAfter e = .eexist
  · rw [if_pos herrno]
    exact ⟨fun h => .inl ⟨h, .inl herrno⟩, fun h => (h.resolve_right fun h => h.1 herrno).1⟩
  · rw [if_neg herrno]
    cases hremove : (r.start fs).remove r.path with
    | none =>
      rw [Option.getD_none]
      exact ⟨fun h => .inl ⟨h, .inr rfl⟩, fun h => (h.resolve_right fun h => h.2.1 rfl).1⟩
    | some fs' =>
      obtain ⟨d, n, hentry, -, hheld⟩ := remove_some hremove
      rw [Option.getD_some]
      constructor
      · intro h
        refine .inr ⟨herrno, by simp, d, n, hentry, ?_, fun q hq => ?_⟩
        · rw [← h, hheld, if_pos rfl]
        · rw [← h, hheld, if_neg hq]
      · rintro (⟨-, h | h⟩ | ⟨-, -, d', n', hentry', hnone, hsame⟩)
        · exact absurd h herrno
        · cases h
        · obtain ⟨rfl, rfl⟩ := Prod.mk.inj (Option.some.inj (hentry.symm.trans hentry'))
          intro p
          rw [hheld]
          by_cases hp : p = d ++ [n]
          · rw [if_pos hp, hp, hnone]
          · rw [if_neg hp, hsame p hp]

/-- Where the branch makes no directories, a refused PUT is right with the `errno` of a file
that is there, or with nothing at the path. -/
theorem goodOutcomes_plain {r : PutRequest} (h : r.parent = none) :
    GoodOutcomes r calls fs ↔
      (∀ e, calls.openFile fs r.path = .error e →
        calls.errnoAfter e = .eexist ∨ fs.remove r.path = none) ∧
      ∀ o, calls.openFile fs r.path = .ok o →
        CallFails calls.transfers r.contentLength r.socket ∨
          FullWrites calls.transfers r.contentLength r.socket := by
  have hstart : r.start fs = fs := by rw [PutRequest.start, h]
  have hnothing : r.MakesNothing fs := by
    rw [PutRequest.MakesNothing, hstart]
    exact fun _ => rfl
  constructor
  · intro hgood
    constructor
    · intro e he
      rcases hgood.refused e (by rwa [hstart]) with ⟨-, hleft⟩ | ⟨-, hremove, d, n, hentry, hnone, -⟩
      · rwa [hstart] at hleft
      · -- nothing was made that could be taken back
        obtain ⟨fs', hfs'⟩ := Option.ne_none_iff_exists'.mp hremove
        obtain ⟨d', n', hentry', hthere, -⟩ := remove_some hfs'
        obtain ⟨rfl, rfl⟩ := Prod.mk.inj (Option.some.inj (hentry.symm.trans hentry'))
        rw [hstart] at hthere
        exact absurd hnone hthere
    · intro o ho
      exact or_iff_not_imp_left.mpr (hgood.full o (by rwa [hstart]))
  · rintro ⟨hrefused, hfull⟩
    refine ⟨fun e he => ?_, fun o _ _ => hnothing, fun o ho hends => ?_⟩
    · rw [hstart] at he ⊢
      exact .inl ⟨hnothing, hrefused e he⟩
    · rw [hstart] at ho
      exact (hfull o ho).resolve_left hends

/-! ## What a request does -/

variable {r : PutRequest}

theorem run_refused {e : Fs.Errno} (h : calls.openFile (r.start fs) r.path = .error e) :
    r.run calls fs = (-1, if calls.errnoAfter e = .eexist then r.start fs
      else ((r.start fs).remove r.path).getD (r.start fs)) := by
  rw [PutRequest.run, pvCtrlProcessPutFile, h]
  dsimp only
  split <;> rfl

/-- A file that is given up is removed. -/
theorem run_broken {o : Nat × Fs} (h : calls.openFile (r.start fs) r.path = .ok o)
    (hfails : CallFails calls.transfers r.contentLength r.socket) :
    (r.run calls fs).1 = -1 ∧ Same (r.start fs) (r.run calls fs).2 := by
  obtain ⟨d, n, hentry, hnone, hlast, rfl⟩ := openFile_ok h
  have hfst := (putLoop_fst (r.start fs).root.fresh calls.transfers r.contentLength r.socket
    ((r.start fs).create (d ++ [n]) [])).mpr hfails
  have hsnd := putLoop_snd (r.start fs).root.fresh calls.transfers r.contentLength r.socket
    ((r.start fs).setRoot (d ++ [n]) (some (.file (r.start fs).root.fresh))) []
  rw [PutRequest.run, pvCtrlProcessPutFile, h]
  dsimp only
  split
  · rename_i hloop
    rw [hloop] at hfst
    cases hfst
  · rename_i fs' hloop
    have hfs' : fs' = (r.start fs).create (d ++ [n])
        (written calls.transfers r.contentLength r.socket) := by
      have hres := congrArg Prod.snd hloop
      exact hres.symm.trans hsnd
    rw [hfs', Fs.remove_create hentry hnone hlast, Option.getD_some]
    exact ⟨rfl, Fs.held_setData_fresh _ _⟩

/-- A body that is read to its end makes a file of what was written. -/
theorem run_creates {o : Nat × Fs} (h : calls.openFile (r.start fs) r.path = .ok o)
    (hends : ¬ CallFails calls.transfers r.contentLength r.socket) :
    ∃ d n, (r.start fs).entry r.path = some (d, n) ∧
      r.run calls fs = (0, (r.start fs).create (d ++ [n])
        (written calls.transfers r.contentLength r.socket)) := by
  obtain ⟨d, n, hentry, hnone, -, rfl⟩ := openFile_ok h
  have hfst := (not_congr (putLoop_fst (r.start fs).root.fresh calls.transfers r.contentLength
    r.socket ((r.start fs).create (d ++ [n]) []))).mpr hends
  have hsnd := putLoop_snd (r.start fs).root.fresh calls.transfers r.contentLength r.socket
    ((r.start fs).setRoot (d ++ [n]) (some (.file (r.start fs).root.fresh))) []
  refine ⟨d, n, hentry, ?_⟩
  rw [PutRequest.run, pvCtrlProcessPutFile, h]
  dsimp only
  split
  · rename_i fs' hloop
    have hfs' : fs' = (r.start fs).create (d ++ [n])
        (written calls.transfers r.contentLength r.socket) := by
      have hres := congrArg Prod.snd hloop
      exact hres.symm.trans hsnd
    rw [hfs']
  · rename_i hloop
    exact absurd (congrArg Prod.fst hloop) hfst

/-- A body that is read to its end is stored as far as the writes went. -/
theorem run_ends {o : Nat × Fs} (h : calls.openFile (r.start fs) r.path = .ok o)
    (hends : ¬ CallFails calls.transfers r.contentLength r.socket) :
    (r.run calls fs).1 = 0 ∧ ∃ d n, (r.start fs).entry r.path = some (d, n) ∧
      (r.run calls fs).2.held (d ++ [n])
        = some (.file (written calls.transfers r.contentLength r.socket)) := by
  obtain ⟨d, n, hentry, hrun⟩ := run_creates h hends
  obtain ⟨hget, hdata⟩ := Fs.get_create n (entry_dir hentry)
    (written calls.transfers r.contentLength r.socket)
  rw [hrun]
  refine ⟨rfl, d, n, hentry, ?_⟩
  rw [Fs.held, hget, Option.map_some, Fs.heldOf, hdata]

/-- A removal changes nothing but the place of its path. -/
theorem remove_changed {p : Path} (hne : ((fs.remove path).getD fs).held p ≠ fs.held p) :
    ∃ d n, fs.entry path = some (d, n) ∧ d ++ [n] <+: p := by
  cases hremove : fs.remove path with
  | none =>
    rw [hremove, Option.getD_none] at hne
    exact absurd rfl hne
  | some fs' =>
    rw [hremove, Option.getD_some] at hne
    obtain ⟨d, n, hentry, -, hheld⟩ := remove_some hremove
    refine ⟨d, n, hentry, by_contra fun hoff => hne ?_⟩
    rw [hheld, if_neg (by rintro rfl; exact hoff (List.prefix_refl _))]

/-- **What a PUT changes**, behind its directories, is the place of its path. -/
theorem run_changed {p : Path} (hne : (r.run calls fs).2.held p ≠ (r.start fs).held p) :
    ∃ d n, (r.start fs).entry r.path = some (d, n) ∧ d ++ [n] <+: p := by
  cases hopen : calls.openFile (r.start fs) r.path with
  | error e =>
    rw [run_refused hopen] at hne
    dsimp only at hne
    split at hne
    · exact absurd rfl hne
    · exact remove_changed hne
  | ok o =>
    by_cases hfails : CallFails calls.transfers r.contentLength r.socket
    · exact absurd ((run_broken hopen hfails).2 p) hne
    · obtain ⟨d, n, hentry, hrun⟩ := run_creates hopen hfails
      refine ⟨d, n, hentry, by_contra fun hoff => hne ?_⟩
      rw [hrun, Fs.held_create_off (entry_dir hentry) hoff]

/-- **A PUT stores the body or nothing** just if the outcomes are good ones. -/
theorem storesOrNothing_iff (r : PutRequest) (calls : PutCalls) (fs : Fs) :
    StoresOrNothing r calls fs ↔ GoodOutcomes r calls fs := by
  constructor
  · intro h
    refine ⟨fun e he => ?_, fun o ho hfails => ?_, fun o ho hends => ?_⟩
    · have hrun := run_refused he
      have hsame := h.nothing (by rw [hrun]; simp)
      rw [hrun] at hsame
      exact (refused_iff r calls fs e).mp hsame
    · obtain ⟨hret, hsame⟩ := run_broken ho hfails
      have hnothing := h.nothing (by rw [hret]; decide)
      exact fun p => (hsame p).symm.trans (hnothing p)
    · obtain ⟨hret, d, n, hentry, hheld⟩ := run_ends ho hends
      obtain ⟨body, d', n', hlen, -, hentry', hbody⟩ := h.stored hret
      obtain ⟨rfl, rfl⟩ := Prod.mk.inj (Option.some.inj (hentry.symm.trans hentry'))
      have heq := Fs.Held.file.inj (Option.some.inj (hheld.symm.trans hbody))
      exact (length_written_iff hends).mp (by rw [heq, hlen])
  · intro h
    cases hopen : calls.openFile (r.start fs) r.path with
    | error e =>
      have hrun := run_refused hopen
      constructor
      · intro hret
        rw [hrun] at hret
        exact absurd hret (by simp)
      · intro _
        rw [hrun]
        exact (refused_iff r calls fs e).mpr (h.refused e hopen)
    | ok o =>
      by_cases hfails : CallFails calls.transfers r.contentLength r.socket
      · obtain ⟨hret, hsame⟩ := run_broken hopen hfails
        constructor
        · intro hzero
          rw [hret] at hzero
          exact absurd hzero (by decide)
        · exact fun _ p => (hsame p).trans (h.broken o hopen hfails p)
      · obtain ⟨hret, d, n, hentry, hheld⟩ := run_ends hopen hfails
        have hfull := h.full o hopen hfails
        have hbody := written_of_full hfails hfull
        constructor
        · intro _
          refine ⟨r.socket.take r.contentLength, d, n, ?_, List.take_prefix .., hentry, ?_⟩
          · rw [← hbody]
            exact (length_written_iff hfails).mpr hfull
          · rw [← hbody, hheld]
        · exact fun hne => absurd hret hne

/-- Half of the body is a success, if that is what `write` writes; and a file that was there
is gone, if the response to that leaves another `errno`. -/
theorem short_write_and_lost_errno :
    ¬ StoresOrNothing ⟨none, [str "commitmsg"], 2, str "ab"⟩ ⟨true, id, [(2, 1)]⟩
        ⟨.dir [], fun _ => []⟩ ∧
      ¬ StoresOrNothing ⟨none, [str "commitmsg"], 2, str "ab"⟩ ⟨true, fun _ => .other, []⟩
        ⟨.dir [(str "commitmsg", .file 0)], fun _ => str "old"⟩ := by
  constructor
  · intro h
    obtain ⟨body, d, n, hlen, -, hentry, hheld⟩ := h.stored rfl
    obtain ⟨rfl, rfl⟩ := Prod.mk.inj (Option.some.inj hentry)
    obtain rfl := Fs.Held.file.inj (Option.some.inj hheld)
    exact absurd hlen (by decide)
  · intro h
    exact absurd (h.nothing (by decide) [str "commitmsg"]) (by decide)

end Pantavisor.Ctrl
