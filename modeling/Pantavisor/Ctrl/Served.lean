/-
Pantavisor.Ctrl.Served — what the requests on the control socket do to the storage.

Names come from the client as they are, so that a request may work anywhere in the storage. But
it works there only on what has a few names: a temporary file, a commit message, the JSON of a
step, and the place of an object, which gets there by its check (`Change`). Only a key of the user
metadata has no name of its own: with a parent directory in its path it may replace or remove any
file of the storage, so that the runs here have no such keys (`Connection.Inside`). A run of
requests changes no more than one of them (`run_change`). So an object in the pool stays there and
passes its check (`objects_served`), and a file that is there is only changed into an object whose
name leads to it (`files_stay`).
-/
import Pantavisor.Ctrl.Server
import Pantavisor.Lib.FileTreeAround
import Pantavisor.Lib.FileTreeChanged
import Pantavisor.Lib.Run
import Pantavisor.Storage.PoolDigests

namespace Pantavisor.Ctrl

open Pantavisor.Lib Pantavisor.Lib.Fs Pantavisor.Json Pantavisor.Storage

/-! ## Runs -/

/-- Requests, one after another. Where one writes behind a block the storage stays as it is. -/
def ctrlSystem (env : CtrlEnv) : System CtrlWorld Connection where
  init _ := True
  step w c := ((pvCtrlReadParseRequest env w c).map Served.world).getD w

def dotNew : CStr := str ".new"

/-- Some contents pass the check of an object with this name. -/
def Checked (sha256 : CStr → List UInt8) (name contents : CStr) : Prop :=
  pvStorageValidateFileChecksum sha256 (some contents) name = some 0

/-- No path of a key that a connection changes has a parent directory. -/
def Connection.Inside (env : CtrlEnv) (c : Connection) : Prop :=
  ∀ r socket, arrived env c = .http r socket → r.endpoint = .userMeta →
    ∀ metakey ∈ r.name, ¬ Astray metakey

/-- The names of the files that are put into a step. -/
def StepFile (n : Name) : Prop := n = str "commitmsg" ∨ n = str "json"

/-- `open` fails only for a file that is there, and that is what is found behind the response. -/
structure GoodPut (calls : PutCalls) : Prop where
  opens : calls.opens = true
  errno : calls.errnoAfter .eexist = .eexist

/-- What may be at a place behind some requests. -/
inductive Change (sha256 : CStr → List UInt8) (good : Prop) (fs fs' : Fs) (p : Path) : Prop where
  | same (h : fs'.held p = fs.held p)
  /-- a directory on the way to a file of a step -/
  | made (before : fs.held p = none) (after : fs'.held p = some .dir)
  | temp (d : Path) (m : Name) (h : d ++ [m ++ dotNew] <+: p)
  | put (d : Path) (n : Name) (hn : StepFile n) (h : d ++ [n] <+: p)
      (new : good → fs.held p = none)
  | object (d : Path) (n name s : CStr) (hlength : name.length = 64)
      (hn : n ∈ objectPath name) (h : p = d ++ [n]) (after : fs'.held p = some (.file s))
      (checked : Checked sha256 name s)

section Change

variable {sha256 : CStr → List UInt8} {good : Prop} {fs fs' : Fs} {p : Path}

theorem Change.trans {a b c : Fs} (h : Change sha256 good a b p) (h' : Change sha256 good b c p) :
    Change sha256 good a c p := by
  cases h with
  | temp d m h => exact .temp d m h
  | same h =>
    cases h' with
    | same h' => exact .same (h'.trans h)
    | made before after => exact .made (h.symm.trans before) after
    | temp d m h' => exact .temp d m h'
    | put d n hn h' new => exact .put d n hn h' fun hgood => h.symm.trans (new hgood)
    | object d n name s hlength hn h' after checked =>
      exact .object d n name s hlength hn h' after checked
  | made before after =>
    cases h' with
    | same h' => exact .made before (h'.trans after)
    | made before' after' => exact .made before after'
    | temp d m h' => exact .temp d m h'
    | put d n hn h' new => exact .put d n hn h' fun _ => before
    | object d n name s hlength hn h' after checked =>
      exact .object d n name s hlength hn h' after checked
  | put d n hn h new =>
    cases h' with
    | object d n name s hlength hn h' after checked =>
      exact .object d n name s hlength hn h' after checked
    | _ => exact .put d n hn h new
  | object d n name s hlength hn h after checked =>
    cases h' with
    | same h' => exact .object d n name s hlength hn h (h'.trans after) checked
    | made before' after' => rw [before'] at after; cases after
    | temp d m h' => exact .temp d m h'
    | put d n hn h' new =>
      -- where the file is new it is not the object
      refine .put d n hn h' fun hgood => ?_
      rw [new hgood] at after
      cases after
    | object d n name s hlength hn h' after checked =>
      exact .object d n name s hlength hn h' after checked

theorem Change.weaken {good' : Prop} (h : Change sha256 good fs fs' p) (hgood : good' → good) :
    Change sha256 good' fs fs' p := by
  cases h with
  | same h => exact .same h
  | made before after => exact .made before after
  | temp d m h => exact .temp d m h
  | put d n hn h new => exact .put d n hn h fun h' => new (hgood h')
  | object d n name s hlength hn h after checked =>
    exact .object d n name s hlength hn h after checked

/-! ## The calls -/

/-- The path of an upload ends in the name of a temporary file. -/
theorem newPath_last (name : CStr) :
    ∃ ms m, newPath name = ms ++ [m ++ dotNew] ∧ Proper (m ++ dotNew) := by
  obtain ⟨ms, m, h⟩ := components_append_no_slash name (show slash ∉ dotNew by decide)
  exact ⟨str "objects" :: ms, m, congrArg (str "objects" :: ·) h, Temp.proper ⟨m, .inr rfl⟩⟩

theorem change_remove (name : CStr) (fs : Fs) (p : Path) :
    Change sha256 good fs ((fs.remove (newPath name)).getD fs) p := by
  by_cases hsame : ((fs.remove (newPath name)).getD fs).held p = fs.held p
  · exact .same hsame
  · obtain ⟨d, n, hentry, hbelow⟩ := remove_changed hsame
    obtain ⟨ms, m, hpath, hproper⟩ := newPath_last name
    rw [hpath] at hentry
    obtain ⟨rfl, -, -⟩ := entry_last hproper hentry
    exact .temp d m hbelow

/-- What a PUT changes has the name of its file. -/
theorem run_named {r : PutRequest} {calls : PutCalls} {ns : List Name} {n : Name}
    (hpath : r.path = ns ++ [n]) (hn : Proper n) (fs : Fs) (p : Path) :
    (r.run calls fs).2.held p = fs.held p ∨
      fs.held p = none ∧ (r.run calls fs).2.held p = some .dir ∨
      ∃ d, d ++ [n] <+: p ∧ (GoodPut calls → fs.held p = none) := by
  have hwide : Widens fs (r.start fs) := by
    unfold PutRequest.start
    split
    · exact Widens.refl fs
    · exact widens_mkdirP _ fs
  by_cases hstart : (r.run calls fs).2.held p = (r.start fs).held p
  · rw [hstart]
    by_cases hsame : (r.start fs).held p = fs.held p
    · exact .inl hsame
    · exact .inr (.inl (hwide p hsame))
  · obtain ⟨d, m, hentry, hbelow⟩ := run_changed hstart
    have hentry' := hentry
    rw [hpath] at hentry'
    obtain ⟨rfl, -, -⟩ := entry_last hn hentry'
    refine .inr (.inr ⟨d, hbelow, fun hgood => ?_⟩)
    have hnone : (r.start fs).held p = none := by
      cases hopen : calls.openFile (r.start fs) r.path with
      | ok o =>
        obtain ⟨d', m', hentry', hget, -⟩ := openFile_ok hopen
        obtain ⟨rfl, rfl⟩ := Prod.mk.inj (Option.some.inj (hentry.symm.trans hentry'))
        obtain ⟨q, rfl⟩ := hbelow
        rw [held_none_iff, Tree.get_append, hget]
        rfl
      | error e =>
        -- the file is there, and is left alone
        refine absurd ?_ hstart
        have heexist : e = .eexist := by
          rw [PutCalls.openFile, if_pos hgood.opens, openExcl, hentry] at hopen
          dsimp only at hopen
          split at hopen
          · exact (Except.error.inj hopen).symm
          · rw [if_neg (by rw [hpath]; simpa using hn.1)] at hopen
            cases hopen
        rw [run_refused hopen, if_pos (by rw [heexist]; exact hgood.errno)]
    by_contra hsome
    exact hsome (hwide p (by rw [hnone]; exact Ne.symm hsome)).1

theorem change_step {r : PutRequest} {calls : PutCalls} {ns : List Name} {n : Name}
    (hpath : r.path = ns ++ [n]) (hn : Proper n) (hfile : StepFile n) (fs : Fs) (p : Path) :
    Change sha256 (GoodPut calls) fs (r.run calls fs).2 p := by
  rcases run_named hpath hn fs p with h | ⟨before, after⟩ | ⟨d, h, new⟩
  · exact .same h
  · exact .made before after
  · exact .put d n hfile h new

theorem change_upload (name : CStr) (contentLength : Nat) (socket : CStr) (calls : PutCalls)
    (fs : Fs) (p : Path) :
    Change sha256 good fs
      ((PutRequest.mk none (newPath name) contentLength socket).run calls fs).2 p := by
  obtain ⟨ms, m, hpath, hproper⟩ := newPath_last name
  rcases run_named (r := ⟨none, newPath name, contentLength, socket⟩) hpath hproper fs p with
    h | ⟨before, after⟩ | ⟨d, h, -⟩
  · exact .same h
  · exact .made before after
  · exact .temp d m h

/-- **The check of an object** removes the temporary file, or renames what passes it. -/
theorem change_validate (reads renames : Bool) {name : CStr} (hlength : name.length = 64)
    (fs : Fs) (p : Path) :
    Change sha256 good fs (pvCtrlValidateObjectChecksum sha256 reads renames fs name).2 p := by
  unfold pvCtrlValidateObjectChecksum
  by_cases hchecked : pvStorageValidateFileChecksum sha256
      (if reads then fs.readFile (newPath name) else none) name = some 0
  · rw [if_pos hchecked]
    cases hrename : if renames then fs.rename (newPath name) (objectPath name) else none with
    | none => exact .same rfl
    | some fs' =>
      rw [Option.getD_some]
      have hrename' : fs.rename (newPath name) (objectPath name) = some fs' := by
        split at hrename
        · exact hrename
        · cases hrename
      by_cases hsame : fs'.held p = fs.held p
      · exact .same hsame
      · obtain ⟨d, n, i, hold, hfile, h⟩ := rename_changed hrename' hsame
        obtain ⟨ms, m, hpath, hproper⟩ := newPath_last name
        rw [hpath] at hold
        obtain ⟨rfl, -, -⟩ := entry_last hproper hold
        rcases h with h | ⟨d', n', hnew, hp, after⟩
        · exact .temp d m h
        · refine .object d' n' name _ hlength (mem_of_entry hnew) hp after ?_
          -- the file that was read is the one that is renamed
          have hread := readFile_of_entry hproper hold hfile
          rw [← hpath] at hread
          rw [hread] at hchecked
          split at hchecked
          · exact hchecked
          · rw [pvStorageValidateFileChecksum] at hchecked
            exact absurd hchecked (by decide)
  · rw [if_neg hchecked]
    exact change_remove name fs p

/-! ## The branches -/

variable {env : CtrlEnv} {c : Connection} {w : CtrlWorld} {r : HttpRequest} {socket : CStr}

theorem change_objectPut {name : CStr} (hlength : name.length = 64) (p : Path) :
    Change env.sha256 good w.fs (objectPut env c w r socket name).world.fs p := by
  have hupload : Change env.sha256 good w.fs
      (putBranch c.put w ⟨none, newPath name, r.contentLength, socket⟩).world.fs p :=
    change_upload name r.contentLength socket c.put w.fs p
  have hvalidate : Change env.sha256 good
      (putBranch c.put w ⟨none, newPath name, r.contentLength, socket⟩).world.fs
      (pvCtrlValidateObjectChecksum env.sha256 c.reads c.renames
        (putBranch c.put w ⟨none, newPath name, r.contentLength, socket⟩).world.fs name).2 p :=
    change_validate c.reads c.renames hlength _ p
  unfold objectPut
  dsimp only
  split
  · exact hupload
  · split
    · exact hupload.trans hvalidate
    · exact hupload.trans hvalidate

theorem change_object (name : CStr) (p : Path) :
    Change env.sha256 good w.fs (objectBranch env c w r socket name).finish.world.fs p := by
  have hremoved : ∀ b : Branch, Change env.sha256 good w.fs b.world.fs p →
      Change env.sha256 good w.fs { b with tmp := some (newPath name) }.finish.world.fs p :=
    fun b h => h.trans (change_remove name b.world.fs p)
  unfold objectBranch
  refine hremoved _ ?_
  split
  · exact .same rfl
  · rename_i hlength
    split
    · exact change_objectPut (not_not.mp hlength) p
    · split <;> exact .same rfl

/-- A branch without a temporary file, and what it changes on its own. -/
def Branch.Keeps (b : Branch) (w : CtrlWorld) : Prop := b.tmp = none ∧ b.world.fs = w.fs

theorem Branch.Keeps.same {b : Branch} (h : b.Keeps w) (p : Path) :
    Change sha256 good w.fs b.finish.world.fs p := by
  refine .same ?_
  rw [Branch.finish]
  dsimp only
  rw [h.1, h.2]

theorem keeps_commands : (commandsBranch env c w r).Keeps w := by
  unfold commandsBranch
  split
  · split
    · exact ⟨rfl, rfl⟩
    · split <;> exact ⟨rfl, rfl⟩
  · exact ⟨rfl, rfl⟩

theorem keeps_list : (listBranch c w r).Keeps w := by
  unfold listBranch
  split <;> exact ⟨rfl, rfl⟩

theorem keeps_userMeta {metakey : CStr} (hmetakey : ¬ Astray metakey) :
    (userMetaBranch env w r metakey).Keeps w := by
  have hbehind : ∀ value res, storageBehind env w metakey value res = w.fs := by
    intro value res
    exact if_neg fun h => hmetakey h.2
  unfold userMetaBranch
  split
  · exact ⟨rfl, hbehind _ _⟩
  · split
    · exact ⟨rfl, hbehind _ _⟩
    · exact ⟨rfl, rfl⟩

theorem change_putBranch {q : PutRequest} (ns : List Name) {n : Name} (hpath : q.path = ns ++ [n])
    (hn : Proper n) (hfile : StepFile n) (p : Path) :
    Change sha256 (GoodPut c.put) w.fs (putBranch c.put w q).finish.world.fs p :=
  change_step hpath hn hfile w.fs p

theorem change_commitmsg (name : CStr) (p : Path) :
    Change sha256 (GoodPut c.put) w.fs (commitmsgBranch c w r socket name).finish.world.fs p := by
  unfold commitmsgBranch
  split
  · refine change_putBranch (revPath name ++ [str ".pv"]) ?_ (by decide) (.inl rfl) p
    exact (List.append_assoc (revPath name) [str ".pv"] [str "commitmsg"]).symm
  · exact .same rfl

theorem change_stepBranch (name : CStr) (p : Path) :
    Change sha256 (GoodPut c.put) w.fs (stepBranch c w r socket name).finish.world.fs p := by
  unfold stepBranch
  split
  · split
    · refine change_putBranch (revPath name ++ [str ".pvr"]) ?_ (by decide) (.inr rfl) p
      exact (List.append_assoc (revPath name) [str ".pvr"] [str "json"]).symm
    · exact .same rfl
  · split <;> exact .same rfl

/-- **What a request changes.** -/
theorem change_request {env : CtrlEnv} (w : CtrlWorld) {c : Connection} (hinside : c.Inside env)
    (p : Path) :
    Change env.sha256 (GoodPut c.put) w.fs ((ctrlSystem env).step w c).fs p := by
  show Change _ _ _ (((pvCtrlReadParseRequest env w c).map Served.world).getD w).fs p
  cases hserved : pvCtrlReadParseRequest env w c with
  | none => exact .same rfl
  | some s =>
    show Change _ _ _ s.world.fs p
    unfold pvCtrlReadParseRequest at hserved
    split at hserved
    · rw [← Option.some.inj hserved]
      exact .same rfl
    · rw [← Option.some.inj hserved]
      exact .same rfl
    · rw [← Option.some.inj hserved]
      exact .same rfl
    · rename_i r socket harrived
      obtain ⟨b, hb, rfl⟩ := Option.map_eq_some_iff.mp hserved
      unfold serveHttp at hb
      split at hb
      · rw [← Option.some.inj hb]
        exact .same rfl
      · split at hb
        · exact Option.some.inj hb ▸ keeps_commands.same p
        · exact Option.some.inj hb ▸ keeps_list.same p
        · exact Option.some.inj hb ▸ keeps_list.same p
        · exact Option.some.inj hb ▸ keeps_list.same p
        · exact Option.some.inj hb ▸ keeps_list.same p
        · exact Option.some.inj hb ▸ keeps_list.same p
        · obtain ⟨name, -, rfl⟩ := Option.map_eq_some_iff.mp hb
          exact change_object name p
        · obtain ⟨name, -, rfl⟩ := Option.map_eq_some_iff.mp hb
          unfold progressBranch
          split <;> exact .same rfl
        · obtain ⟨name, -, rfl⟩ := Option.map_eq_some_iff.mp hb
          exact change_commitmsg name p
        · obtain ⟨name, -, rfl⟩ := Option.map_eq_some_iff.mp hb
          exact change_stepBranch name p
        · rename_i hendpoint
          obtain ⟨name, hname, rfl⟩ := Option.map_eq_some_iff.mp hb
          exact (keeps_userMeta (hinside r socket harrived hendpoint name hname)).same p
        · rw [← Option.some.inj hb]
          exact .same rfl

/-- **What a run of requests changes**, by induction on it. -/
theorem run_change {env : CtrlEnv} (w : CtrlWorld) {cs : List Connection}
    (hinside : ∀ c ∈ cs, c.Inside env) (p : Path) :
    Change env.sha256 (∀ c ∈ cs, GoodPut c.put) w.fs ((ctrlSystem env).run w cs).fs p := by
  induction cs generalizing w with
  | nil => exact .same rfl
  | cons c cs ih =>
    rw [System.run_cons]
    have hfirst := change_request w (hinside c List.mem_cons_self) p
    refine Change.trans (hfirst.weaken fun h => h c List.mem_cons_self) ?_
    refine (ih _ fun c hc => hinside c (List.mem_cons_of_mem _ hc)).weaken ?_
    exact fun h c hc => h c (List.mem_cons_of_mem _ hc)

end Change

/-! ## The pool -/

/-- The name of an object is the digest of 32 bytes. -/
def IsSha (id : CStr) : Prop := ∃ bytes, hexDecode id = some bytes ∧ bytes.length = 32

/-- The place of an object in the pool. -/
def poolPlace (id : CStr) : Path := [str "objects", id]

theorem IsSha.length {id : CStr} (h : IsSha id) : id.length = 64 := by
  obtain ⟨bytes, hbytes, hlength⟩ := h
  rw [length_hexDecode hbytes, hlength]

/-- The name of an object is not that of another file. -/
theorem IsSha.apart {id : CStr} (h : IsSha id) :
    id ≠ str "objects" ∧ (∀ m, id ≠ m ++ dotNew) ∧ ¬ StepFile id := by
  have hlength := h.length
  obtain ⟨bytes, hbytes, -⟩ := h
  refine ⟨fun heq => ?_, fun m heq => ?_, ?_⟩
  · rw [heq] at hlength
    exact absurd hlength (by decide)
  · have hdot : 46 ∈ id := by
      rw [heq]
      exact List.mem_append_right m (by decide)
    exact hexDecode_digits hbytes 46 hdot (by decide)
  · rintro (rfl | rfl)
    · exact absurd hlength (by decide)
    · exact absurd hlength (by decide)

/-- The last name on a way to an object. -/
theorem prefix_poolPlace {id : CStr} {d : Path} {n : Name} (h : d ++ [n] <+: poolPlace id) :
    n = str "objects" ∨ n = id := by
  have hmem : n ∈ poolPlace id := h.subset (by simp)
  simpa [poolPlace] using hmem

/-- **A place in the pool** stays as it is, or gets an object that passes its check, or a
directory where nothing was. -/
theorem change_poolPlace {sha256 : CStr → List UInt8} {good : Prop} {fs fs' : Fs} {id : CStr}
    (hid : IsSha id) (h : Change sha256 good fs fs' (poolPlace id)) :
    fs'.held (poolPlace id) = fs.held (poolPlace id) ∨
      (fs.held (poolPlace id) = none ∧ fs'.held (poolPlace id) = some .dir) ∨
      ∃ s, fs'.held (poolPlace id) = some (.file s) ∧ Checked sha256 id s := by
  obtain ⟨hobjects, hnew, hstep⟩ := hid.apart
  cases h with
  | same h => exact .inl h
  | made before after => exact .inr (.inl ⟨before, after⟩)
  | temp d m h =>
    rcases prefix_poolPlace h with hm | hm
    · have hend : dotNew <:+ str "objects" := hm ▸ List.suffix_append m dotNew
      exact absurd hend (by decide)
    · exact absurd hm.symm (hnew m)
  | put d n hn h new =>
    rcases prefix_poolPlace h with rfl | rfl
    · rcases hn with hn | hn
      · exact absurd hn (by decide)
      · exact absurd hn (by decide)
    · exact absurd hn hstep
  | object d n name s hlength hn h after checked =>
    obtain ⟨-, hlast⟩ := List.append_inj' (show [str "objects"] ++ [id] = d ++ [n] from h) rfl
    obtain rfl := List.singleton_inj.mp hlast
    rcases List.mem_cons.mp hn with heq | hmem
    · exact absurd heq hobjects
    · have hname := (length_component hmem).2 (by rw [hlength, hid.length])
      exact .inr (.inr ⟨s, after, hname ▸ checked⟩)

/-- **The pool is served right**, whatever is requested: an object that is there stays there, and
one that is there afterwards is one from before or passes its check. -/
theorem objects_served (env : CtrlEnv) (w : CtrlWorld) (cs : List Connection)
    (hinside : ∀ c ∈ cs, c.Inside env) {id : CStr} (hid : IsSha id) :
    (∀ s, w.fs.held (poolPlace id) = some (.file s) →
      ∃ s', ((ctrlSystem env).run w cs).fs.held (poolPlace id) = some (.file s') ∧
        (s' = s ∨ Checked env.sha256 id s')) ∧
    (∀ s, ((ctrlSystem env).run w cs).fs.held (poolPlace id) = some (.file s) →
      w.fs.held (poolPlace id) = some (.file s) ∨ Checked env.sha256 id s) := by
  have hplace := change_poolPlace hid (run_change w hinside (poolPlace id))
  refine ⟨fun s hs => ?_, fun s hs => ?_⟩
  · rcases hplace with h | ⟨before, -⟩ | ⟨s', after, checked⟩
    · exact ⟨s, h.trans hs, .inl rfl⟩
    · rw [before] at hs
      cases hs
    · exact ⟨s', after, .inr checked⟩
  · rcases hplace with h | ⟨-, after⟩ | ⟨s', after, checked⟩
    · exact .inl (h.symm.trans hs)
    · rw [after] at hs
      cases hs
    · rw [hs] at after
      exact .inr (Held.file.inj (Option.some.inj after) ▸ checked)

def keyLine : RequestLine := ⟨str "/user-meta/k", [], by decide, by decide⟩

/-- What comes in is a PUT of the key `k`. -/
def keyEnv : CtrlEnv where
  sha256 _ := List.replicate 32 0
  jsmn := tokenizer
  phr _ := some (keyLine, str "PUT", [⟨contentLengthName, str "1"⟩])
  astray _ _ fs := fs

def keyPut : Connection where
  bytes := str "PUT /user-meta/k"
  broken := false
  pv := ⟨true, false, true⟩
  lists _ := []
  past := 0
  body := 1
  put := ⟨true, id, []⟩
  reads := true
  renames := true
  sends := []

/-- The key is the name of a file. -/
theorem keyPut_inside : keyPut.Inside keyEnv := by
  intro r socket harrived _ metakey hname
  have hline : r.line = keyLine := by
    have harrived' : arrivedHeader keyEnv keyPut (readHeader [80] (str "UT /user-meta/k"))
        = .http r socket := harrived
    rw [← (Arrived.http.inj harrived').1]
  have hkey : r.name = some (str "k") := by
    rw [HttpRequest.name, HttpRequest.endpoint, hline]
    decide +kernel
  rw [← Option.some.inj (hkey.symm.trans hname)]
  decide

/-- A storage with the object that has a digest of zeros. -/
def zerosWorld : CtrlWorld where
  fs := ⟨.dir [(str "objects", .dir [(List.replicate 64 48, .file 0)])], fun _ => str "x"⟩
  usermeta := ⟨[], ⟨.dir [], fun _ => []⟩⟩
  loadingObjects := false

/-- It is served behind a change of the user metadata. -/
theorem zeros_served :
    IsSha (List.replicate 64 48) ∧ keyPut.Inside keyEnv ∧
      ∃ s, ((ctrlSystem keyEnv).run zerosWorld [keyPut]).fs.held (poolPlace (List.replicate 64 48))
          = some (.file s) ∧ (s = str "x" ∨ Checked keyEnv.sha256 (List.replicate 64 48) s) := by
  have hid : IsSha (List.replicate 64 48) := ⟨List.replicate 32 0, by decide +kernel, rfl⟩
  refine ⟨hid, keyPut_inside, ?_⟩
  exact (objects_served keyEnv zerosWorld [keyPut]
    (fun c hc => List.mem_singleton.mp hc ▸ keyPut_inside) hid).1 _ rfl

/-! ## Files that are there -/

/-- **A file stays** as it is, where each upload finds out whether a file is there: but for
temporary files and what is behind one, only an object with a name that leads there replaces it. -/
theorem files_stay (env : CtrlEnv) (w : CtrlWorld) (cs : List Connection)
    (hinside : ∀ c ∈ cs, c.Inside env) (hgood : ∀ c ∈ cs, GoodPut c.put) {p : Path} {s : CStr}
    (hs : w.fs.held p = some (.file s)) (htemp : ∀ n ∈ p, ¬ dotNew <:+ n) :
    ((ctrlSystem env).run w cs).fs.held p = some (.file s) ∨
      ∃ d n name s', p = d ++ [n] ∧ n ∈ objectPath name ∧ name.length = 64 ∧
        ((ctrlSystem env).run w cs).fs.held p = some (.file s') ∧ Checked env.sha256 name s' := by
  cases run_change w hinside p with
  | same h => exact .inl (h.trans hs)
  | made before after =>
    rw [before] at hs
    cases hs
  | temp d m h =>
    exact absurd (List.suffix_append m dotNew) (htemp _ (h.subset (by simp)))
  | put d n hn h new =>
    rw [new hgood] at hs
    cases hs
  | object d n name s' hlength hn h after checked =>
    exact .inr ⟨d, n, name, s', h, hn, hlength, after, checked⟩

/-- The JSON of a step behind a change of the user metadata. -/
theorem json_stays :
    GoodPut keyPut.put ∧ keyPut.Inside keyEnv ∧ ∃ s,
      ((ctrlSystem keyEnv).run
        { zerosWorld with fs := ⟨.dir [(str "json", .file 0)], fun _ => str "x"⟩ } [keyPut]).fs.held
          [str "json"] = some (.file s) := by
  have hput : GoodPut keyPut.put := ⟨rfl, rfl⟩
  refine ⟨hput, keyPut_inside, ?_⟩
  rcases files_stay keyEnv
    { zerosWorld with fs := ⟨.dir [(str "json", .file 0)], fun _ => str "x"⟩ } [keyPut]
    (fun c hc => List.mem_singleton.mp hc ▸ keyPut_inside)
    (fun c hc => List.mem_singleton.mp hc ▸ hput) rfl (p := [str "json"]) (by decide) with
    h | ⟨d, n, name, s', -, -, -, h, -⟩
  · exact ⟨_, h⟩
  · exact ⟨_, h⟩

end Pantavisor.Ctrl
