/-
Pantavisor.Storage.Expand — the JSON files of a revision.

`pv_storage_meta_expand_jsons` writes the value of every key that ends in
`.json` to the file of that name. It reports success in all its ends but one,
the number of tokens being taken for it: where a file is there already, and
where one cannot be opened. `expandLoop_files` says when the files are right
behind the loop, if it started with none of them, and `expand_rerun_iff` when
they are behind a call that finds what an interrupted one has left.
-/
import Pantavisor.Lib.FileTreeGrow
import Pantavisor.Storage.Storage
import Pantavisor.Json.Tokenizer

namespace Pantavisor.Storage

open Pantavisor.Lib Pantavisor.Json

/-! ## The names of JSON files -/

theorem components_ne_nil (s : CStr) : components s ≠ [] := by
  cases s with
  | nil => simp [components]
  | cons c s =>
      rw [components]
      split
      · simp
      · split <;> simp

/-- What stands behind the last `/` is part of the last component. -/
theorem components_append_no_slash (a : CStr) {s : CStr} (h : slash ∉ s) :
    ∃ init n, components (a ++ s) = init ++ [n ++ s] := by
  induction a with
  | nil => exact ⟨[], [], by rw [List.nil_append, components_of_no_slash h]; rfl⟩
  | cons c a ih =>
      obtain ⟨init, n, hcomp⟩ := ih
      rw [List.cons_append, components, hcomp]
      split
      · exact ⟨[] :: init, n, rfl⟩
      · cases init with
        | nil => exact ⟨[], c :: n, rfl⟩
        | cons m init => exact ⟨(c :: m) :: init, n, rfl⟩

/-- The last component of the key of a JSON file is a name. -/
theorem components_json {key : CStr} (h : isJsonKey key = true) :
    ∃ init n, components key = init ++ [n] ∧ Proper n := by
  obtain ⟨a, rfl⟩ := strrchr_suffix (of_decide_eq_true h)
  obtain ⟨init, n, hcomp⟩ := components_append_no_slash a (s := str ".json") (by decide)
  refine ⟨init, n ++ str ".json", hcomp, ?_⟩
  have hlen : 5 ≤ (n ++ str ".json").length := by simp [str]
  refine ⟨?_, ?_, ?_⟩ <;> intro heq <;> rw [heq] at hlen
  · simp at hlen
  · simp [dot, str] at hlen
  · simp [dotdot, str] at hlen

/-! ## The directory of a revision -/

/-- Where a file of a revision is. -/
def place (rev name : CStr) : Path := clean (trailsPath rev name)

/-- A directory for the revision, with no links in it. -/
structure RevDir (fs : Fs) (rev : CStr) : Prop where
  plain : Plain (components rev)
  dir : fs.DirAt (clean (revPath rev))
  noLink : ∀ q l, fs.root.get (clean (revPath rev) ++ q) ≠ some (.symlink l)

theorem RevDir.root {fs : Fs} {rev : CStr} (h : RevDir fs rev) : fs.DirAt [] :=
  h.dir.above List.nil_prefix

theorem plain_revPath {rev : CStr} (h : Plain (components rev)) : Plain (revPath rev) := by
  intro n hn
  rcases List.mem_cons.mp hn with rfl | hn
  · exact .inr (by decide)
  · exact h n hn

theorem RevDir.noLink_below {fs : Fs} {rev : CStr} (h : RevDir fs rev) (q : Path) :
    fs.NoLink (clean (revPath rev) ++ q) := by
  intro r hr l hl
  rcases List.prefix_or_prefix_of_prefix hr (List.prefix_append _ q) with hle | ⟨s, rfl⟩
  · exact Fs.noLink_dir h.dir r hle l hl
  · exact h.noLink s l hl

theorem RevDir.extends {fs fs' : Fs} {rev : CStr} (h : RevDir fs rev) (he : fs.Extends fs') :
    RevDir fs' rev :=
  ⟨h.plain, he.dir _ h.dir, fun q l hl => h.noLink q l (he.link _ l hl)⟩

/-- No file is above another, and every name is one of components. -/
structure Apart (names : List CStr) : Prop where
  plain : ∀ n ∈ names, Plain (components n)
  apart : names.Pairwise fun a b =>
    ¬ clean (components a) <+: clean (components b) ∧ ¬ clean (components b) <+: clean (components a)

theorem place_eq (rev name : CStr) :
    place rev name = clean (revPath rev) ++ clean (components name) := clean_append _ _

theorem place_le_iff {rev a b : CStr} :
    place rev a <+: place rev b ↔ clean (components a) <+: clean (components b) := by
  rw [place_eq, place_eq, List.prefix_append_right_inj]

/-! ## The loop -/

/-- The JSON files among the members of a state. -/
def jsonMembers (members : List (CStr × CStr)) : List (CStr × CStr) :=
  members.filter fun m => isJsonKey m.1

/-- Only the keys of JSON files matter. -/
theorem expandLoop_jsonMembers (rev : CStr) (members : List (CStr × CStr)) (io : List ExpandStep)
    (fs : Fs) : expandLoop rev members io fs = expandLoop rev (jsonMembers members) io fs := by
  induction members generalizing io fs with
  | nil => rfl
  | cons m members ih =>
      obtain ⟨key, value⟩ := m
      cases hk : isJsonKey key with
      | false =>
          rw [jsonMembers, List.filter_cons_of_neg (by simp [hk]), expandLoop, hk]
          exact ih io fs
      | true =>
          rw [jsonMembers, List.filter_cons_of_pos (by simp [hk]), expandLoop, expandLoop, hk]
          simp only [Bool.not_true, Bool.false_eq_true, if_false]
          split
          · rfl
          · split
            · rfl
            · exact ih _ _

/-- The file is created and written in full. -/
def ExpandStep.Good (fs : Fs) (rev : CStr) (m : CStr × CStr) (step : ExpandStep) : Prop :=
  step.opened = true ∧ step.write.taken m.2 = m.2 ∧
    fs.Clear (clean (trailsPath rev m.1).dropLast)

/-- The outcomes of the files, in order. -/
def GoodSteps (fs : Fs) (rev : CStr) : List (CStr × CStr) → List ExpandStep → Prop
  | [], _ => True
  | m :: ms, io => (io.headD ⟨true, none⟩).Good fs rev m ∧ GoodSteps fs rev ms io.tail

/-- The file of every member holds its value. -/
def Expanded (fs : Fs) (rev : CStr) (ms : List (CStr × CStr)) : Prop :=
  ∀ m ∈ ms, fs.readFile (trailsPath rev m.1) = some m.2

instance (fs : Fs) (rev : CStr) (ms : List (CStr × CStr)) : Decidable (Expanded fs rev ms) :=
  inferInstanceAs (Decidable (∀ m ∈ ms, _))

/-- The path of a file: its directory and its name. -/
theorem trailsPath_concat {rev name : CStr} {init : List Name} {n : Name}
    (hcomp : components name = init ++ [n]) (hrev : Plain (components rev)) (hinit : Plain init)
    (hn : Proper n) :
    ∃ ns n, trailsPath rev name = ns ++ [n] ∧ Plain ns ∧ Proper n ∧
      (trailsPath rev name).dropLast = ns ∧ place rev name = clean ns ++ [n] ∧
      clean (revPath rev) <+: clean ns := by
  have hpath : trailsPath rev name = revPath rev ++ init ++ [n] := by
    rw [trailsPath, hcomp, List.append_assoc]
  refine ⟨revPath rev ++ init, n, hpath, (plain_revPath hrev).append hinit, hn, ?_, ?_, ?_⟩
  · rw [hpath, List.dropLast_concat]
  · rw [place, hpath, clean_append, clean_cons_proper hn, clean_nil]
  · rw [clean_append]
    exact List.prefix_append _ _

/-- That of a JSON file. -/
theorem trailsPath_json {rev key : CStr} (hkey : isJsonKey key = true)
    (hrev : Plain (components rev)) (hplain : Plain (components key)) :
    ∃ ns n, trailsPath rev key = ns ++ [n] ∧ Plain ns ∧ Proper n ∧
      (trailsPath rev key).dropLast = ns ∧ place rev key = clean ns ++ [n] ∧
      clean (revPath rev) <+: clean ns := by
  obtain ⟨init, n, hcomp, hn⟩ := components_json hkey
  rw [hcomp] at hplain
  exact trailsPath_concat hcomp hrev hplain.left hn

/-- What the creation of a file does to the others that are still to be created. -/
structure Created (fs fs' : Fs) (rev : CStr) (m : CStr × CStr) (io : ExpandStep) : Prop where
  ext : fs.Extends fs'
  file : fs'.readFile (trailsPath rev m.1) = some (io.write.taken m.2)
  inode : ∃ i, fs'.root.get (place rev m.1) = some (.file i) ∧
    fs'.data i = io.write.taken m.2
  absent : ∀ p, ¬ p <+: place rev m.1 → ¬ place rev m.1 <+: p → fs.root.get p = none →
    fs'.root.get p = none
  clear : ∀ p, ¬ place rev m.1 <+: p → (fs'.Clear p ↔ fs.Clear p)

/-- One round of the loop, for a file that is not there: it stops with the file
still missing, or goes on with the file created. -/
theorem expandLoop_cons {fs : Fs} {rev : CStr} (hrev : RevDir fs rev) {m : CStr × CStr}
    (hkey : isJsonKey m.1 = true) (hplain : Plain (components m.1))
    (hnone : fs.root.get (place rev m.1) = none) (ms : List (CStr × CStr)) (io : List ExpandStep) :
    (¬ ((io.headD ⟨true, none⟩).opened = true ∧ fs.Clear (clean (trailsPath rev m.1).dropLast)) ∧
      (expandLoop rev (m :: ms) io fs).2.readFile (trailsPath rev m.1) = none ∧
      fs.Extends (expandLoop rev (m :: ms) io fs).2) ∨
    ((io.headD ⟨true, none⟩).opened = true ∧ fs.Clear (clean (trailsPath rev m.1).dropLast) ∧
      ∃ fs', Created fs fs' rev m (io.headD ⟨true, none⟩) ∧
        expandLoop rev (m :: ms) io fs = expandLoop rev ms io.tail fs') := by
  obtain ⟨key, value⟩ := m
  obtain ⟨ns, n, hpath, hns, hn, hdrop, hplace, hbelow⟩ := trailsPath_json hkey hrev.plain hplain
  obtain ⟨below, hbelow⟩ := hbelow
  have hroot := hrev.root
  have hcl : clean (ns ++ [n]) = clean ns ++ [n] := by rw [← hpath, ← hplace, place]
  have hplainPath : Plain (ns ++ [n]) := hns.append fun m hm => .inr (List.mem_singleton.mp hm ▸ hn)
  have hnolink : fs.NoLink (clean ns ++ [n]) := by
    rw [← hbelow, List.append_assoc]
    exact hrev.noLink_below _
  dsimp only at hkey hnone hplain ⊢
  rw [hplace] at hnone
  have hstat : fs.stat (ns ++ [n]) = false := by
    cases hf : fs.find (ns ++ [n]) with
    | none => rw [Fs.stat, hf]; rfl
    | some t =>
        have := Fs.find_plain hplainPath (by rwa [hcl]) hf
        rw [hcl, hnone] at this
        cases this
  -- the directory of the file is made
  have hgrow : Fs.Grows (clean ns) fs (if fs.stat ns then fs else fs.mkdirP ns) := by
    split
    · exact Fs.Grows.refl _ _
    · exact Fs.grows_mkdirP hroot hns (fun q hq => hnolink q (hq.trans (List.prefix_append _ _)))
  have hdir : fs.Clear (clean ns) →
      (if fs.stat ns then fs else fs.mkdirP ns).DirAt (clean ns) := by
    intro hclear
    split
    · rename_i hst
      obtain ⟨t, ht⟩ := Option.isSome_iff_exists.mp hst
      have hget := Fs.find_plain hns hclear.noLink ht
      rcases hclear _ (List.prefix_refl _) with h | h
      · rw [hget] at h
        cases h
      · exact h
    · exact Fs.mkdirP_clear hroot hns hclear
  rw [expandLoop, hkey, hpath]
  simp only [Bool.not_true, Bool.false_eq_true, if_false, hstat, List.dropLast_concat]
  generalize (if fs.stat ns then fs else fs.mkdirP ns) = fs₁ at hgrow hdir
  have hnone₁ : fs₁.root.get (clean ns ++ [n]) = none := by
    rw [hgrow.same _ (fun h => absurd h.length_le (by simp)), hnone]
  have hnolink₁ : fs₁.NoLink (clean ns ++ [n]) := hgrow.noLink hnolink
  have hmissing : fs₁.readFile (ns ++ [n]) = none := by
    have hf : fs₁.find (ns ++ [n]) = none := by
      cases hf : fs₁.find (ns ++ [n]) with
      | none => rfl
      | some t =>
          have := Fs.find_plain hplainPath (by rwa [hcl]) hf
          rw [hcl, hnone₁] at this
          cases this
    simp only [Fs.readFile, hf]
  -- a directory that is there now could be made
  have hclear : fs₁.DirAt (clean ns) → fs.Clear (clean ns) := by
    intro hd q hq
    obtain ⟨es, hes⟩ := hd.above hq
    cases hg : fs.root.get q with
    | none => exact .inl rfl
    | some t =>
        cases t with
        | dir ds => exact .inr ⟨ds, hg⟩
        | file i => rw [hgrow.kept q _ hg rfl] at hes; cases hes
        | symlink l => rw [hgrow.kept q _ hg rfl] at hes; cases hes
  cases hopened : (io.headD ⟨true, none⟩).opened with
  | false => exact .inl ⟨fun h => by simp at h, by simpa using hmissing, by simpa using hgrow.extends⟩
  | true =>
      simp only [if_true]
      by_cases hc : fs.Clear (clean ns)
      · refine .inr ⟨trivial, hc, ?_⟩
        obtain ⟨i, fs₂, hopen, hwrite⟩ := Fs.openCreate_write hns hn (hdir hc) hnone₁ false
        rw [hopen]
        dsimp only
        rw [hwrite]
        obtain ⟨hfile, hdata⟩ := Fs.get_create n (hdir hc)
          ((io.headD ⟨true, none⟩).write.taken value)
        refine ⟨_, ⟨hgrow.extends.trans (Fs.extends_create (hdir hc) hnone₁ _), ?_, ?_, ?_, ?_⟩, rfl⟩
        · rw [hpath, Fs.readFile_entry hns hn hfile, hdata]
        · exact ⟨_, by rw [hplace]; exact hfile, hdata⟩
        · intro p hp hp' hpn
          rw [hplace] at hp hp'
          rw [Fs.get_create_disjoint hp' hp,
            hgrow.same p (fun h => hp (h.trans (List.prefix_append _ _))), hpn]
        · intro p hp
          rw [hplace] at hp
          have hext := hgrow.extends.trans (Fs.extends_create (hdir hc) hnone₁
            ((io.headD ⟨true, none⟩).write.taken value))
          constructor
          · intro h q hq
            cases hg : fs.root.get q with
            | none => exact .inl rfl
            | some t =>
                cases t with
                | dir ds => exact .inr ⟨ds, hg⟩
                | file j =>
                    rcases h q hq with h' | ⟨es, h'⟩ <;>
                      · rw [(hext.file q j hg).1] at h'; cases h'
                | symlink l =>
                    -- links stay, as no file is created at one
                    have hkept := hgrow.kept q _ hg rfl
                    have hne : ¬ q <+: clean ns ++ [n] := fun hqn => hnolink q hqn l hg
                    rcases h q hq with h' | ⟨es, h'⟩ <;>
                      · rw [Fs.get_create_disjoint (fun hq' => hp (hq'.trans hq)) hne, hkept] at h'
                        cases h'
          · intro h q hq
            have hpq : ¬ clean ns ++ [n] <+: q := fun h' => hp (h'.trans hq)
            by_cases hqn : q <+: clean ns ++ [n]
            · rcases List.prefix_concat_iff.mp hqn with rfl | hqn
              · exact absurd (List.prefix_refl _) hpq
              · exact .inr ((Fs.extends_create (hdir hc) hnone₁ _).dir q ((hdir hc).above hqn))
            · rw [Fs.get_create_disjoint hpq hqn,
                hgrow.same q (fun h' => hqn (h'.trans (List.prefix_append _ _)))]
              rcases h q hq with h' | h'
              · exact .inl h'
              · exact .inr (hext.dir q h')
      · refine .inl ⟨fun h => hc h.2, ?_⟩
        cases hopen : fs₁.openCreate (ns ++ [n]) false with
        | none => exact ⟨hmissing, hgrow.extends⟩
        | some r =>
            exact absurd (hclear (Fs.openCreate_parent (hgrow.dir _ hroot) hns hn hnolink₁ hopen)) hc

/-- The steps only ask for what is in the way of their own files. -/
theorem goodSteps_congr {fs fs' : Fs} {rev : CStr} {ms : List (CStr × CStr)}
    {io : List ExpandStep} (h : ∀ m ∈ ms, (fs'.Clear (clean (trailsPath rev m.1).dropLast) ↔
      fs.Clear (clean (trailsPath rev m.1).dropLast))) :
    GoodSteps fs' rev ms io ↔ GoodSteps fs rev ms io := by
  induction ms generalizing io with
  | nil => exact Iff.rfl
  | cons m ms ih =>
      rw [GoodSteps, GoodSteps, ih fun m' hm' => h m' (List.mem_cons_of_mem _ hm'),
        ExpandStep.Good, ExpandStep.Good, h m (List.mem_cons_self ..)]

theorem Apart.tail {n : CStr} {names : List CStr} (h : Apart (n :: names)) : Apart names :=
  ⟨fun m hm => h.plain m (List.mem_cons_of_mem _ hm), h.apart.of_cons⟩

/-- **The loop over files that are not there** makes all of them what they should
be exactly when each is opened and written in full. It changes no other file. -/
theorem expandLoop_files {rev : CStr} {ms : List (CStr × CStr)} (hkeys : ∀ m ∈ ms, isJsonKey m.1 = true)
    (hapart : Apart (ms.map (·.1))) {fs : Fs} (hrev : RevDir fs rev)
    (hnone : ∀ m ∈ ms, fs.root.get (place rev m.1) = none) (io : List ExpandStep) :
    fs.Extends (expandLoop rev ms io fs).2 ∧
      (Expanded (expandLoop rev ms io fs).2 rev ms ↔ GoodSteps fs rev ms io) := by
  induction ms generalizing fs io with
  | nil => exact ⟨Fs.Extends.refl fs, iff_of_true (fun m hm => by cases hm) trivial⟩
  | cons m ms ih =>
      have hself := List.mem_cons_self (a := m) (l := ms)
      have hothers := List.pairwise_cons.mp hapart.apart |>.1
      rcases expandLoop_cons hrev (hkeys m hself) (hapart.plain _ (List.mem_cons_self ..))
        (hnone m hself) ms io with ⟨hno, hmissing, hext⟩ | ⟨hopened, hclear, fs', hfs', heq⟩
      · refine ⟨hext, iff_of_false (fun h => ?_) (fun h => hno ⟨h.1.1, h.1.2.2⟩)⟩
        rw [h m hself] at hmissing
        cases hmissing
      · have hother : ∀ m' ∈ ms, ¬ place rev m'.1 <+: place rev m.1 ∧
            ¬ place rev m.1 <+: place rev m'.1 := by
          intro m' hm'
          have := hothers m'.1 (List.mem_map_of_mem hm')
          rw [place_le_iff, place_le_iff]
          exact ⟨this.2, this.1⟩
        obtain ⟨hext, hiff⟩ := ih (fun m' hm' => hkeys m' (List.mem_cons_of_mem _ hm')) hapart.tail
          (hrev.extends hfs'.ext) (fun m' hm' => hfs'.absent _ (hother m' hm').1 (hother m' hm').2
            (hnone m' (List.mem_cons_of_mem _ hm'))) io.tail
        have hsteps : GoodSteps fs' rev ms io.tail ↔ GoodSteps fs rev ms io.tail := by
          refine goodSteps_congr fun m' hm' => hfs'.clear _ fun hle => (hother m' hm').2 ?_
          obtain ⟨ns, n, -, -, -, hdrop, hplace, -⟩ := trailsPath_json
            (hkeys m' (List.mem_cons_of_mem _ hm')) hrev.plain
            (hapart.plain _ (List.mem_cons_of_mem _ (List.mem_map_of_mem hm')))
          rw [hdrop] at hle
          rw [hplace]
          exact hle.trans (List.prefix_append _ _)
        rw [heq]
        refine ⟨hfs'.ext.trans hext, ?_⟩
        -- the head's file keeps what the write took
        have hhead : (expandLoop rev ms io.tail fs').2.readFile (trailsPath rev m.1)
            = some ((io.headD ⟨true, none⟩).write.taken m.2) := by
          obtain ⟨i, hi, hdata⟩ := hfs'.inode
          obtain ⟨hi', hdata'⟩ := hext.file _ i hi
          obtain ⟨ns, n, hpath, hns, hn, -, hplace, -⟩ := trailsPath_json (hkeys m hself) hrev.plain
            (hapart.plain _ (List.mem_cons_self ..))
          rw [hplace] at hi'
          rw [hpath, Fs.readFile_entry hns hn hi', hdata', hdata]
        constructor
        · intro h
          refine ⟨⟨hopened, ?_, hclear⟩, hsteps.mp (hiff.mp fun m' hm' =>
            h m' (List.mem_cons_of_mem _ hm'))⟩
          exact Option.some.inj (hhead.symm.trans (h m hself))
        · rintro ⟨hgood, hrest⟩ m' hm'
          rcases List.mem_cons.mp hm' with rfl | hm'
          · rw [hhead, hgood.2.1]
          · exact hiff.mpr (hsteps.mpr hrest) m' hm'

/-! ## A call behind an interrupted one -/

/-- What an interrupted call has left: some files complete, at most one partly
written, and none of the others. -/
def Interrupted (fs : Fs) (rev : CStr) (ms : List (CStr × CStr)) : Prop :=
  ∃ complete part others, ms = complete ++ part ++ others ∧ part.length ≤ 1 ∧
    Expanded fs rev complete ∧
    (∀ m ∈ part, ∃ n, fs.readFile (trailsPath rev m.1) = some (m.2.take n)) ∧
    ∀ m ∈ others, fs.root.get (place rev m.1) = none

/-- The files are right whenever the call reports success. -/
def ExpandsRight (jsmn : Jsmn) (io : List ExpandStep) (fs : Fs) (rev json : CStr)
    (ms : List (CStr × CStr)) : Prop :=
  ∀ ret fs', pvStorageMetaExpandJsons jsmn io fs rev json = some (ret, fs') → ret ≠ 0 →
    Expanded fs' rev ms

/-- **The files behind a call that reports success** are right exactly when they
all were before it, or the first was not there and every one can be created and
is written in full. -/
theorem expand_rerun_iff (jsmn : Jsmn) (io : List ExpandStep) {fs : Fs} {rev json : CStr}
    {toks : List Tok} {members : List (CStr × CStr)} (hrev : RevDir fs rev)
    (hparse : jsmn.parse json = some toks) (hmembers : keysAndValues jsmn json toks = some members)
    (hapart : Apart ((jsonMembers members).map (·.1)))
    (hleft : Interrupted fs rev (jsonMembers members)) :
    ExpandsRight jsmn io fs rev json (jsonMembers members) ↔
      Expanded fs rev (jsonMembers members) ∨
        (∀ m ∈ (jsonMembers members).head?, fs.stat (trailsPath rev m.1) = false) ∧
          GoodSteps fs rev (jsonMembers members) io := by
  have hkeys : ∀ m ∈ jsonMembers members, isJsonKey m.1 = true :=
    fun m hm => (List.mem_filter.mp hm).2
  have hcall : pvStorageMetaExpandJsons jsmn io fs rev json
      = some (if (expandLoop rev (jsonMembers members) io fs).1 then (1 : Int) else toks.length,
          (expandLoop rev (jsonMembers members) io fs).2) := by
    rw [← expandLoop_jsonMembers]
    simp only [pvStorageMetaExpandJsons, hparse, hmembers]
  cases hms : jsonMembers members with
  | nil =>
      refine iff_of_true ?_ (.inl fun m hm => by cases hm)
      intro ret fs' _ _ m hm
      cases hm
  | cons m ms =>
      rw [hms] at hkeys hcall hapart hleft
      have hself := List.mem_cons_self (a := m) (l := ms)
      -- every end of the call is taken for success
      have hret : ((if (expandLoop rev (m :: ms) io fs).1 then 1 else toks.length : Int)) ≠ 0 := by
        split
        · simp
        · have hlen : toks ≠ [] := by
            rintro rfl
            have hmem : m ∈ jsonMembers members := by rw [hms]; exact hself
            obtain ⟨keys, hobj, hmap⟩ := Option.bind_eq_some_iff.mp hmembers
            cases keys with
            | nil =>
                simp only [List.mapM_nil, Option.pure_def, Option.some.injEq] at hmap
                rw [← hmap] at hmem
                cases hmem
            | cons k keys =>
                rw [List.mapM_cons] at hmap
                obtain ⟨kv, hkv, -⟩ := Option.bind_eq_some_iff.mp hmap
                simp [keyAndValue] at hkv
          simpa using hlen
      have hright : ExpandsRight jsmn io fs rev json (m :: ms) ↔
          Expanded (expandLoop rev (m :: ms) io fs).2 rev (m :: ms) := by
        constructor
        · exact fun h => h _ _ hcall hret
        · intro h ret fs' hrun _
          rw [hcall] at hrun
          rw [← (Prod.mk.inj (Option.some.inj hrun)).2]
          exact h
      rw [hright]
      obtain ⟨ns, n, hpath, hns, hn, -, hplace, -⟩ := trailsPath_json (hkeys m hself) hrev.plain
        (hapart.plain _ (List.mem_cons_self ..))
      cases hstat : fs.stat (trailsPath rev m.1) with
      | true =>
          have hstop : expandLoop rev (m :: ms) io fs = (false, fs) := by
            obtain ⟨key, value⟩ := m
            rw [expandLoop, hkeys _ hself]
            simp only [Bool.not_true, Bool.false_eq_true, if_false]
            rw [if_pos hstat]
          rw [hstop]
          simp [hstat]
      | false =>
          have hgone : fs.readFile (trailsPath rev m.1) = none := by
            cases hf : fs.find (trailsPath rev m.1) with
            | none => simp only [Fs.readFile, hf]
            | some t => rw [Fs.stat, hf] at hstat; cases hstat
          -- then none of the files is there
          have hnone : ∀ m' ∈ m :: ms, fs.root.get (place rev m'.1) = none := by
            obtain ⟨complete, part, others, hsplit, -, hcomplete, hpart, hothers⟩ := hleft
            cases complete with
            | cons c complete =>
                have hc : c = m := (List.cons.inj hsplit).1.symm
                have := hcomplete c (List.mem_cons_self ..)
                rw [hc, hgone] at this
                cases this
            | nil =>
                cases part with
                | cons c part =>
                    have hc : c = m := (List.cons.inj hsplit).1.symm
                    obtain ⟨n, hn⟩ := hpart c (List.mem_cons_self ..)
                    rw [hc, hgone] at hn
                    cases hn
                | nil =>
                    rw [hsplit]
                    exact hothers
          rw [(expandLoop_files hkeys hapart hrev hnone io).2]
          simp only [List.head?_cons, Option.mem_def, Option.some.injEq, forall_eq', hstat, true_and]
          refine ⟨.inr, fun h => h.elim (fun h => ?_) id⟩
          rw [h m hself] at hgone
          cases hgone

/-- A storage with one revision and the files in it, all with the same text. -/
def oneRevision (files : List (Name × Tree)) (text : CStr) : Fs where
  root := .dir [(str "trails", .dir [(str "1", .dir files)])]
  data _ := text

theorem oneRevision_revDir {files : List (Name × Tree)}
    (h : ∀ q l, (Tree.dir files).get q ≠ some (.symlink l)) (text : CStr) :
    RevDir (oneRevision files text) (str "1") :=
  ⟨by decide, ⟨files, rfl⟩, fun q l hl => h q l hl⟩

theorem nil_noLink (q : Path) (l : List Name) : (Tree.dir []).get q ≠ some (.symlink l) := by
  cases q <;> simp [Tree.get_cons]

theorem file_noLink (n : Name) (i : Nat) (q : Path) (l : List Name) :
    (Tree.dir [(n, .file i)]).get q ≠ some (.symlink l) := by
  match q with
  | [] => simp
  | m :: q =>
    rw [Tree.get_cons, Tree.child_dir]
    by_cases hm : m = n
    · rw [hm, lookup_cons_self, Option.bind_some]
      cases q <;> simp [Tree.get_cons, Tree.child]
    · rw [lookup_cons_ne hm]
      simp

/-- A state with two JSON files. -/
def twoJsons : CStr := str "\x7b\"a.json\":1,\"b.json\":2\x7d"

/-- Into an empty directory it is expanded right. -/
theorem expand_rerun_iff_empty :
    ∃ members, ExpandsRight tokenizer [] (oneRevision [] []) (str "1") twoJsons
        (jsonMembers members) ↔
      Expanded (oneRevision [] []) (str "1") (jsonMembers members) ∨
        (∀ m ∈ (jsonMembers members).head?,
          (oneRevision [] []).stat (trailsPath (str "1") m.1) = false) ∧
          GoodSteps (oneRevision [] []) (str "1") (jsonMembers members) [] := by
  obtain ⟨toks, hparse, members, hmembers, hplain, hapart, hothers⟩ :
      ∃ toks ∈ tokenizer.parse twoJsons, ∃ members ∈ keysAndValues tokenizer twoJsons toks,
        (∀ n ∈ (jsonMembers members).map (·.1), Plain (components n)) ∧
        ((jsonMembers members).map (·.1)).Pairwise (fun a b =>
          ¬ clean (components a) <+: clean (components b) ∧
            ¬ clean (components b) <+: clean (components a)) ∧
        ∀ m ∈ jsonMembers members, (oneRevision [] []).root.get (place (str "1") m.1) = none := by
    decide +kernel
  exact ⟨members, expand_rerun_iff tokenizer [] (oneRevision_revDir nil_noLink []) hparse hmembers
    ⟨hplain, hapart⟩ ⟨[], [], jsonMembers members, rfl, by decide, fun m hm => (by cases hm),
      fun m hm => (by cases hm), hothers⟩⟩

/-- A call that was interrupted behind the first of them. -/
def interruptedFs : Fs := oneRevision [(str "a.json", .file 0)] (str "1")

/-- What the next call makes of it. -/
def interruptedResult : Int × Fs :=
  (pvStorageMetaExpandJsons tokenizer [] interruptedFs (str "1") twoJsons).get (by decide +kernel)

theorem interruptedResult_eq :
    pvStorageMetaExpandJsons tokenizer [] interruptedFs (str "1") twoJsons
      = some interruptedResult := (Option.some_get _).symm

/-- Behind that interruption they are not: the call reports success and the
second file is not there. -/
theorem expand_rerun_stops :
    ¬ ∀ (jsmn : Jsmn) (io : List ExpandStep) (fs : Fs) (rev json : CStr) (toks : List Tok)
      (members : List (CStr × CStr)), RevDir fs rev → jsmn.parse json = some toks →
      keysAndValues jsmn json toks = some members → Apart ((jsonMembers members).map (·.1)) →
      Interrupted fs rev (jsonMembers members) →
      ExpandsRight jsmn io fs rev json (jsonMembers members) := by
  intro h
  obtain ⟨toks, hparse, members, hmembers, hsplit, hplain, hapart, hcomplete, hothers⟩ :
      ∃ toks ∈ tokenizer.parse twoJsons, ∃ members ∈ keysAndValues tokenizer twoJsons toks,
        jsonMembers members = [(str "a.json", str "1")] ++ [] ++ [(str "b.json", str "2")] ∧
        (∀ n ∈ (jsonMembers members).map (·.1), Plain (components n)) ∧
        ((jsonMembers members).map (·.1)).Pairwise (fun a b =>
          ¬ clean (components a) <+: clean (components b) ∧
            ¬ clean (components b) <+: clean (components a)) ∧
        Expanded interruptedFs (str "1") [(str "a.json", str "1")] ∧
        ∀ m ∈ [(str "b.json", str "2")],
          interruptedFs.root.get (place (str "1") m.1) = none := by
    decide +kernel
  have hright := h tokenizer [] interruptedFs (str "1") twoJsons toks members
    (oneRevision_revDir (file_noLink _ 0) _) hparse hmembers ⟨hplain, hapart⟩
    ⟨[(str "a.json", str "1")], [], [(str "b.json", str "2")], hsplit, by decide, hcomplete,
      fun m hm => (by cases hm), hothers⟩
  have hmiss : interruptedResult.1 ≠ 0 ∧
      interruptedResult.2.readFile (trailsPath (str "1") (str "b.json")) ≠ some (str "2") := by
    decide +kernel
  exact hmiss.2 (hright interruptedResult.1 interruptedResult.2 interruptedResult_eq hmiss.1
    (str "b.json", str "2") (by rw [hsplit]; simp))

end Pantavisor.Storage
