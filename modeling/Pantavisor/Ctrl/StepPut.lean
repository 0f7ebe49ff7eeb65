/-
Pantavisor.Ctrl.StepPut — a PUT of a local step on the control socket (the branch of the
steps in `ctrl.c`, `pv_storage_is_revision_local` in `storage.c`).

The name of the step is cut out of the path of the request, and is printed as it is into the
path of a directory and of a file in it. The only test is that it begins with `locals/` and
has no second slash, so that the component behind the slash may be empty, a dot or two dots:
the file is then not in a directory of its own (`confined_iff`).
-/
import Pantavisor.Ctrl.PutFile
import Pantavisor.Ctrl.Request
import Pantavisor.Storage.Storage

namespace Pantavisor.Ctrl

open Pantavisor.Lib Pantavisor.Storage

/-! ## The code -/

/-- What a string has from its first such byte on, as `strchr` finds it. -/
def strchr (c : UInt8) (s : CStr) : Option CStr :=
  if c ∈ s then some (s.dropWhile (· ≠ c)) else none

/-- `pv_storage_is_revision_local`. Two pointers into the name are equal just if the rests of
the name at them are. -/
def pvStorageIsRevisionLocal (rev : CStr) : Bool :=
  let first := strchr slash rev
  let last := strrchr slash rev
  if !(str "locals/").isPrefixOf rev then false
  else first.isSome && first = last

/-- The name that the branch of the steps takes. -/
def RequestLine.stepName (r : RequestLine) : Option CStr :=
  if endpointOf r.mem r.path.length = .step then
    (r.fileName (str "/steps") []).bind Block.text
  else none

/-- What a PUT of a local step is about: `PATH_TRAILS_PVR_PARENT` and `PATH_TRAILS`. -/
def stepRequest (name : CStr) (contentLength : Nat) (socket : CStr) : PutRequest :=
  ⟨some (pvrPath name), jsonPath name, contentLength, socket⟩

/-- The branch of the steps of `pv_ctrl_read_parse_request`, for a PUT. -/
def RequestLine.putStep (r : RequestLine) (contentLength : Nat) (socket : CStr)
    (calls : PutCalls) (fs : Fs) : Fs :=
  match r.stepName with
  | none => fs
  | some name =>
    if pvStorageIsRevisionLocal name then
      ((stepRequest name contentLength socket).run calls fs).2
    else fs

/-! ## Local steps -/

def localsSlash : CStr := str "locals/"

/-- A local name: `locals/` and one component. -/
structure LocalName (name component : CStr) : Prop where
  name : name = localsSlash ++ component
  single : slash ∉ component
  proper : Proper component

/-- `trails/locals/<component>` -/
def localPlace (component : CStr) : Path := [str "trails", str "locals", component]

/-- A PUT to the path of a request stays in the directory of its step: the name is let
through just if it is local, and what is changed then lies in the directory, or is a
directory made on the way to it. A place is found by its names, of which none is that of a
link. -/
structure Confined (r : RequestLine) : Prop where
  accepts : ∀ name, r.stepName = some name →
    (pvStorageIsRevisionLocal name = true ↔ ∃ component, LocalName name component)
  stays : ∀ name, r.stepName = some name → ∀ contentLength socket calls fs,
    fs.DirAt [] → fs.NoLink (clean (jsonPath name)) →
      ∀ p, (r.putStep contentLength socket calls fs).held p ≠ fs.held p →
        ∃ component, LocalName name component ∧ (localPlace component <+: p ∨
          p <+: localPlace component ∧ fs.held p = none ∧
            (r.putStep contentLength socket calls fs).held p = some .dir)

/-! ## The name -/

theorem strrchr_tail {c d : UInt8} {s t : CStr} (h : strrchr c s = some (d :: t)) : c ∉ t := by
  unfold strrchr at h
  split at h
  · obtain ⟨-, rfl⟩ := List.cons.inj (Option.some.inj h)
    intro hmem
    have htaken := List.mem_takeWhile_imp (List.mem_reverse.mp hmem)
    simp at htaken
  · cases h

/-- A name is let through if it is `locals/` and something without a slash. -/
theorem pvStorageIsRevisionLocal_iff {name : CStr} :
    pvStorageIsRevisionLocal name = true ↔
      ∃ component, name = localsSlash ++ component ∧ slash ∉ component := by
  have hfirst : ∀ component, strchr slash (localsSlash ++ component) = some (slash :: component) := by
    intro component
    rw [strchr, if_pos (List.mem_append_left _ (by decide))]
    rfl
  constructor
  · intro h
    unfold pvStorageIsRevisionLocal at h
    dsimp only at h
    split at h
    · cases h
    · rename_i hstart
      rw [Bool.not_eq_true', Bool.not_eq_false, List.isPrefixOf_iff_prefix] at hstart
      obtain ⟨component, hname⟩ := hstart
      obtain rfl : localsSlash ++ component = name := hname
      rw [hfirst, Bool.and_eq_true, decide_eq_true_eq] at h
      exact ⟨component, rfl, strrchr_tail h.2.symm⟩
  · rintro ⟨component, rfl, hsingle⟩
    have hlast : strrchr slash (localsSlash ++ component) = some (slash :: component) :=
      (strrchr_eq_iff hsingle).mpr ⟨str "locals", rfl⟩
    have hstart : (str "locals/").isPrefixOf (localsSlash ++ component) = true :=
      List.isPrefixOf_iff_prefix.mpr (List.prefix_append _ _)
    unfold pvStorageIsRevisionLocal
    dsimp only
    rw [hstart, hfirst, hlast]
    simp

/-! ## The paths -/

section Paths

variable {component : CStr}

theorem pvrPath_locals (h : slash ∉ component) :
    pvrPath (localsSlash ++ component)
      = [str "trails", str "locals", component, str ".pvr"] := by
  have hlocals : localsSlash ++ component = str "locals" ++ Lib.slash :: component := rfl
  rw [pvrPath, trailsPath, revPath, hlocals, components_append,
    components_of_no_slash (show Lib.slash ∉ component from h)]
  rfl

theorem jsonPath_locals (h : slash ∉ component) :
    jsonPath (localsSlash ++ component)
      = [str "trails", str "locals", component, str ".pvr", str "json"] := by
  have hlocals : localsSlash ++ component = str "locals" ++ Lib.slash :: component := rfl
  rw [jsonPath, trailsPath, revPath, hlocals, components_append,
    components_of_no_slash (show Lib.slash ∉ component from h)]
  rfl

theorem proper_local (h : Proper component) :
    ∀ n ∈ [str "trails", str "locals", component, str ".pvr", str "json"], Proper n := by
  have hfixed : ∀ n ∈ [str "trails", str "locals", str ".pvr", str "json"], Proper n := by decide
  intro n hn
  by_cases hc : n = component
  · exact hc ▸ h
  · refine hfixed n ?_
    simpa [hc] using hn

end Paths

/-! ## What is changed -/

/-- What a PUT of a step changes is at the path of its file, or is a directory made on the way
to that of the step. -/
theorem stepRequest_changed {component : CStr} (hsingle : slash ∉ component)
    (hproper : Proper component) {contentLength : Nat} {socket : CStr} {calls : PutCalls}
    {fs : Fs} (hroot : fs.DirAt [])
    (hlink : fs.NoLink (clean (jsonPath (localsSlash ++ component)))) {p : Path}
    (hne : ((stepRequest (localsSlash ++ component) contentLength socket).run calls fs).2.held p
      ≠ fs.held p) :
    localPlace component <+: p ∨ p <+: localPlace component ∧ fs.held p = none ∧
      ((stepRequest (localsSlash ++ component) contentLength socket).run calls fs).2.held p
        = some .dir := by
  have hnames := proper_local hproper
  have hpvr : clean (pvrPath (localsSlash ++ component)) = localPlace component ++ [str ".pvr"] := by
    rw [pvrPath_locals hsingle]
    exact clean_proper fun n hn => hnames n (List.mem_of_mem_take (i := 4) hn)
  have hjson : clean (jsonPath (localsSlash ++ component))
      = localPlace component ++ [str ".pvr", str "json"] := by
    rw [jsonPath_locals hsingle]
    exact clean_proper hnames
  have hplainJson : Plain (jsonPath (localsSlash ++ component)) := by
    rw [jsonPath_locals hsingle]
    exact fun n hn => .inr (hnames n hn)
  have hplainPvr : Plain (pvrPath (localsSlash ++ component)) := by
    rw [pvrPath_locals hsingle]
    exact fun n hn => .inr (hnames n (List.mem_of_mem_take (i := 4) hn))
  have hgrow : Fs.Grows (clean (pvrPath (localsSlash ++ component))) fs
      (fs.mkdirP (pvrPath (localsSlash ++ component))) := by
    refine Fs.grows_mkdirP hroot hplainPvr fun q hq => hlink q (hq.trans ?_)
    rw [hpvr, hjson]
    exact ⟨[str "json"], by simp⟩
  by_cases hsame : ((stepRequest (localsSlash ++ component) contentLength socket).run calls fs).2.held p
      = (fs.mkdirP (pvrPath (localsSlash ++ component))).held p
  · rw [hsame] at hne ⊢
    obtain ⟨hon, hbefore, hafter⟩ := hgrow.changed hne
    rw [hpvr] at hon
    rcases List.prefix_concat_iff.mp hon with rfl | h
    · exact .inl (List.prefix_append _ _)
    · exact .inr ⟨h, hbefore, hafter⟩
  · obtain ⟨d, n, hentry, hbelow⟩ := run_changed (r := stepRequest _ contentLength socket) hsame
    have hplace := (Fs.entry_some hplainJson (hgrow.noLink hlink) hentry).1
    rw [hplace, hjson] at hbelow
    exact .inl ((List.prefix_append _ _).trans hbelow)

/-- **A PUT stays in the directory of its step** just if the component behind `locals/` is not
empty, a dot or two dots. -/
theorem confined_iff (r : RequestLine) :
    Confined r ↔ ∀ component, r.stepName = some (localsSlash ++ component) → Proper component ∨
      slash ∈ component := by
  constructor
  · intro h component hname
    by_contra hbad
    rw [not_or] at hbad
    obtain ⟨component', hlocal⟩ := (h.accepts _ hname).mp
      (pvStorageIsRevisionLocal_iff.mpr ⟨component, rfl, hbad.2⟩)
    exact hbad.1 (List.append_cancel_left hlocal.name ▸ hlocal.proper)
  · intro h
    have haccepts : ∀ name, r.stepName = some name → pvStorageIsRevisionLocal name = true →
        ∃ component, LocalName name component := by
      intro name hname hlocal
      obtain ⟨component, rfl, hsingle⟩ := pvStorageIsRevisionLocal_iff.mp hlocal
      exact ⟨component, rfl, hsingle, (h component hname).resolve_right hsingle⟩
    refine ⟨fun name hname => ⟨haccepts name hname, ?_⟩, ?_⟩
    · rintro ⟨component, hlocal⟩
      exact pvStorageIsRevisionLocal_iff.mpr ⟨component, hlocal.name, hlocal.single⟩
    · intro name hname contentLength socket calls fs hroot hlink p hne
      simp only [RequestLine.putStep, hname] at hne ⊢
      split at hne
      · rename_i hlocal
        obtain ⟨component, hlocalName⟩ := haccepts name hname hlocal
        obtain rfl := hlocalName.name
        rw [if_pos hlocal]
        exact ⟨component, hlocalName, stepRequest_changed hlocalName.single hlocalName.proper
          hroot hlink hne⟩
      · exact absurd rfl hne

/-- Two dots are let through: the file of the step is then `trails/.pvr/json`. -/
theorem dots_leave_locals :
    ∃ r : RequestLine, r.path = str "/steps/locals/.." ∧ ¬ Confined r ∧
      (r.putStep 2 (str "{}") ⟨true, id, [(2, 2)]⟩ ⟨.dir [], fun _ => []⟩).held
        [str "trails", str ".pvr", str "json"] = some (.file (str "{}")) := by
  refine ⟨⟨str "/steps/locals/..", str "HTTP/1.1\r\n\r\n", by decide, by decide⟩, rfl, ?_,
    by decide +kernel⟩
  intro h
  obtain ⟨component, hlocal⟩ := (h.accepts (localsSlash ++ str "..") (by decide +kernel)).mp
    (by decide +kernel)
  have hcomponent := List.append_cancel_left hlocal.name
  exact absurd (hcomponent ▸ hlocal.proper) (by decide)

end Pantavisor.Ctrl
