/-
Pantavisor.Lib.FileTreeKept — properties that every call keeps.

A call changes the tree by one update after another: an entry is removed, an
empty directory or a file gets a name in a directory, or a file is written. A
property that is `Kept` by these is kept by every call, whatever its path is.

`Proven` is such a property: the file system has a root, its names are those of
entries, each directory has a name once, and no link is on the `way`.
-/
import Pantavisor.Lib.FileTreeGrow
import Pantavisor.Lib.FileTreeLinks

namespace Pantavisor.Lib

namespace Fs

variable {fs fs' : Fs}

/-! ## Names -/

/-- The name of an entry. -/
def Entry (n : Name) : Prop := Proper n ∧ slash ∉ n

instance (n : Name) : Decidable (Entry n) := inferInstanceAs (Decidable (_ ∧ _))

/-- Components of a path as it is written. -/
def Written (ns : List Name) : Prop := ∀ n ∈ ns, slash ∉ n

instance (ns : List Name) : Decidable (Written ns) := inferInstanceAs (Decidable (∀ n ∈ ns, _))

theorem written_components (s : CStr) : Written (components s) := by
  induction s with
  | nil => simp [Written, components]
  | cons c s ih =>
      rw [components]
      split
      · exact List.forall_mem_cons.mpr ⟨by simp, ih⟩
      · rename_i hc
        split
        · exact List.forall_mem_singleton.mpr (by simpa using Ne.symm hc)
        · rename_i n ns hns
          rw [hns, Written, List.forall_mem_cons] at ih
          refine List.forall_mem_cons.mpr ⟨?_, ih.2⟩
          rw [List.mem_cons, not_or]
          exact ⟨Ne.symm hc, ih.1⟩

theorem Written.append {ns ms : List Name} (h : Written ns) (h' : Written ms) :
    Written (ns ++ ms) := fun n hn => (List.mem_append.mp hn).elim (h n) (h' n)

theorem Written.cons {n : Name} {ns : List Name} (hn : slash ∉ n) (h : Written ns) :
    Written (n :: ns) := List.forall_mem_cons.mpr ⟨hn, h⟩

/-! ## Where a call works -/

/-- The targets of links can be written. -/
def TargetsWritten (fs : Fs) : Prop := ∀ q l, fs.root.get q = some (.symlink l) → Written l

/-- A walk to what is not there ends at the name of an entry in a directory. -/
theorem walkNames_new {next : Path → List Name → Option Path} (htargets : TargetsWritten fs)
    (hnext : ∀ cur ns r, fs.DirAt cur → Written ns → next cur ns = some r → fs.root.get r = none →
      ∃ d n, r = d ++ [n] ∧ Entry n ∧ fs.DirAt d)
    {cur : Path} {ns : List Name} {r : Path} (hcur : fs.DirAt cur) (hns : Written ns)
    (h : fs.walkNames next cur ns = some r) (hr : fs.root.get r = none) :
    ∃ d n, r = d ++ [n] ∧ Entry n ∧ fs.DirAt d := by
  induction ns generalizing cur with
  | nil =>
      obtain ⟨es, hes⟩ := hcur
      rw [walkNames] at h
      rw [← Option.some.inj h, hes] at hr
      cases hr
  | cons n ns ih =>
      obtain ⟨hn, hrest⟩ := List.forall_mem_cons.mp hns
      rw [walkNames] at h
      split at h
      · exact ih hcur hrest h
      · rename_i hplain
        split at h
        · split at h
          · cases h
          · exact ih (hcur.above (List.dropLast_prefix cur)) hrest h
        · rename_i hdots
          rw [not_or] at hplain
          split at h
          · rename_i es hes
            exact ih ⟨es, hes⟩ hrest h
          · rename_i target htarget
            exact hnext _ _ _ hcur ((htargets _ _ htarget).append hrest) h hr
          all_goals
            split at h
            · exact ⟨cur, n, (Option.some.inj h).symm, ⟨⟨hplain.1, hplain.2, hdots⟩, hn⟩, hcur⟩
            · cases h

theorem walk_new {ns : List Name} {r : Path} (hroot : fs.DirAt []) (htargets : TargetsWritten fs)
    (hns : Written ns) (h : fs.walk ns = some r) (hr : fs.root.get r = none) :
    ∃ d n, r = d ++ [n] ∧ Entry n ∧ fs.DirAt d := by
  have hlinks : ∀ k cur ns r, fs.DirAt cur → Written ns → fs.walkLinks k cur ns = some r →
      fs.root.get r = none → ∃ d n, r = d ++ [n] ∧ Entry n ∧ fs.DirAt d := by
    intro k
    induction k with
    | zero =>
        intro cur ns r hcur hns h hr
        exact walkNames_new htargets (fun _ _ _ _ _ h => by cases h) hcur hns h hr
    | succ k ih =>
        intro cur ns r hcur hns h hr
        exact walkNames_new htargets ih hcur hns h hr
  exact hlinks 40 [] ns r hroot hns h hr

/-- What a call creates is the name of an entry in a directory. -/
theorem entry_new {ns : List Name} {d : Path} {n : Name} (hns : Written ns)
    (h : fs.entry ns = some (d, n)) : Entry n ∧ fs.DirAt d := by
  unfold entry at h
  split at h
  · cases h
  · rename_i m above habove
    have hm : m ≠ [] := by
      have hhead := List.head_dropWhile_not (p := fun x : Name => x.isEmpty) (l := ns.reverse)
        (by rw [habove]; simp)
      simpa [habove] using hhead
    have hslash : slash ∉ m := by
      have hmem : m ∈ ns.reverse.dropWhile (·.isEmpty) := by rw [habove]; simp
      exact hns m (List.mem_reverse.mp ((List.dropWhile_sublist _).subset hmem))
    split at h
    · cases h
    · rename_i hdots
      rw [not_or] at hdots
      obtain ⟨r, -, h⟩ := Option.bind_eq_some_iff.mp h
      split at h
      · rename_i hdir
        obtain ⟨rfl, rfl⟩ := Prod.mk.inj (Option.some.inj h)
        refine ⟨⟨⟨hm, hdots.1, hdots.2⟩, hslash⟩, ?_⟩
        cases hg : fs.root.get r with
        | none => simp [hg] at hdir
        | some t =>
            cases t with
            | dir es => exact ⟨es, hg⟩
            | file i => simp [hg, Tree.isDir] at hdir
            | symlink l => simp [hg, Tree.isDir] at hdir
      · cases h

/-! ## Updates -/

/-- A property that no update changes. -/
structure Kept (P : Fs → Prop) : Prop where
  root : ∀ {fs}, P fs → fs.DirAt []
  targets : ∀ {fs}, P fs → TargetsWritten fs
  remove : ∀ {fs} d n, P fs → P (fs.setRoot (d ++ [n]) none)
  mkdir : ∀ {fs d n}, P fs → Entry n → fs.DirAt d → fs.root.get (d ++ [n]) = none →
    P (fs.setRoot (d ++ [n]) (some (.dir [])))
  file : ∀ {fs d n} i, P fs → Entry n → fs.DirAt d → P (fs.setRoot (d ++ [n]) (some (.file i)))
  data : ∀ {fs} i c, P fs → P (fs.setData i c)

variable {P : Fs → Prop}

namespace Kept

/-! ## The calls -/

theorem mkdirFrom (hk : Kept P) {done ns : List Name} (hns : Written (done ++ ns)) (h : P fs) :
    P (fs.mkdirFrom done ns) := by
  induction ns generalizing fs done with
  | nil => exact h
  | cons n ns ih =>
      rw [List.append_cons] at hns
      rw [Fs.mkdirFrom]
      split
      · exact h
      · rename_i fs' hmkdir
        refine ih hns ?_
        unfold Fs.mkdir at hmkdir
        split at hmkdir
        · exact Option.some.inj hmkdir ▸ h
        · split at hmkdir
          · cases hmkdir
          · rename_i d m hentry
            obtain ⟨hm, hd⟩ := entry_new (fun m hm => hns m (List.mem_append_left _ hm)) hentry
            split at hmkdir
            · exact Option.some.inj hmkdir ▸ h
            · rename_i hnone
              exact Option.some.inj hmkdir ▸ hk.mkdir h hm hd hnone

theorem mkdirP (hk : Kept P) {ns : List Name} (hns : Written ns) (h : P fs) : P (fs.mkdirP ns) :=
  hk.mkdirFrom hns h

theorem openCreate (hk : Kept P) {ns : List Name} {trunc : Bool} {i : Nat} (hns : Written ns)
    (h : P fs) (hopen : fs.openCreate ns trunc = some (i, fs')) : P fs' := by
  unfold Fs.openCreate at hopen
  split at hopen
  · cases hopen
  · rename_i r hr
    split at hopen
    · obtain ⟨-, rfl⟩ := Prod.mk.inj (Option.some.inj hopen)
      split
      · exact hk.data _ _ h
      · exact h
    · cases hopen
    · rename_i hnone
      obtain ⟨-, rfl⟩ := Prod.mk.inj (Option.some.inj hopen)
      obtain ⟨d, n, rfl, hn, hd⟩ := walk_new (hk.root h) (hk.targets h) hns hr hnone
      exact hk.data _ _ (hk.file _ h hn hd)

theorem openExcl (hk : Kept P) {ns : List Name} {i : Nat} (hns : Written ns) (h : P fs)
    (hopen : fs.openExcl ns = .ok (i, fs')) : P fs' := by
  unfold Fs.openExcl at hopen
  split at hopen
  · cases hopen
  · rename_i d n hentry
    obtain ⟨hn, hd⟩ := entry_new hns hentry
    split at hopen
    · cases hopen
    · split at hopen
      · cases hopen
      · obtain ⟨-, rfl⟩ := Prod.mk.inj (Except.ok.inj hopen)
        exact hk.data _ _ (hk.file _ h hn hd)

theorem link (hk : Kept P) {old new : List Name} (hnew : Written new) (h : P fs)
    (hlink : fs.link old new = .ok fs') : P fs' := by
  unfold Fs.link at hlink
  split at hlink
  · rename_i i d n _ hentry
    obtain ⟨hn, hd⟩ := entry_new hnew hentry
    split at hlink
    · cases hlink
    · split at hlink
      · cases hlink
      · exact Except.ok.inj hlink ▸ hk.file _ h hn hd
  · cases hlink

theorem rename (hk : Kept P) {old new : List Name} (hnew : Written new) (h : P fs)
    (hrename : fs.rename old new = some fs') : P fs' := by
  unfold Fs.rename at hrename
  split at hrename
  · rename_i d n d' n' _ hentry
    obtain ⟨hn, hd⟩ := entry_new hnew hentry
    split at hrename
    · cases hrename
    · split at hrename
      · exact Option.some.inj hrename ▸ h
      · exact Option.some.inj hrename ▸ hk.remove _ _ (hk.file _ h hn hd)
    · exact Option.some.inj hrename ▸ hk.remove _ _ (hk.file _ h hn hd)
    · cases hrename
  · cases hrename

theorem removeOne (hk : Kept P) {ns : List Name} (h : P fs) (hremove : fs.remove ns = some fs') :
    P fs' := by
  unfold Fs.remove at hremove
  split at hremove
  · cases hremove
  · split at hremove
    · cases hremove
    · exact Option.some.inj hremove ▸ hk.remove _ _ h
    · cases hremove
    · split at hremove
      · cases hremove
      · exact Option.some.inj hremove ▸ hk.remove _ _ h

/-- Where the result of `remove` is not looked at. -/
theorem removeAny (hk : Kept P) (ns : List Name) (h : P fs) : P ((fs.remove ns).getD fs) := by
  cases hremove : fs.remove ns with
  | none => exact h
  | some fs' => exact hk.removeOne h hremove

theorem removeNames (hk : Kept P) {removeDir : Fs → List Name → Fs}
    (hdir : ∀ fs ns, P fs → P (removeDir fs ns)) (ns : List Name) (names : List Name) (h : P fs) :
    P (Fs.removeNames removeDir ns fs names) := by
  induction names generalizing fs with
  | nil => exact h
  | cons n names ih =>
      rw [Fs.removeNames]
      split
      · rename_i fs' hremove
        exact ih (hk.removeOne h hremove)
      · exact ih (hdir _ _ h)

theorem removeDeep (hk : Kept P) (k : Nat) (ns : List Name) (h : P fs) :
    P (Fs.removeDeep k fs ns) := by
  induction k generalizing fs ns with
  | zero => exact h
  | succ k ih =>
      rw [Fs.removeDeep]
      split
      · exact h
      · rename_i names _
        exact hk.removeAny _ (hk.removeNames (fun fs ns h => ih ns h) ns names.reverse h)

theorem removeIn (hk : Kept P) (ns : List Name) (h : P fs) : P (fs.removeIn ns) :=
  hk.removeDeep _ ns h

theorem writeAt (hk : Kept P) (i : Nat) (c : CStr) (h : P fs) : P (fs.writeAt i c) :=
  hk.data i _ h

end Kept

/-! ## Proper file systems -/

/-- A file system with a root, with the names of entries, each of them once in its
directory, and without links on the `way`. -/
structure Proven (way : Path → Prop) (fs : Fs) : Prop where
  root : fs.DirAt []
  names : ∀ q, fs.root.get q ≠ none → ∀ n ∈ q, Entry n
  keyed : fs.root.keyed = true
  targets : TargetsWritten fs
  noLink : ∀ q l, way q → fs.root.get q ≠ some (.symlink l)

variable {way : Path → Prop}

/-- A removal. -/
theorem Proven.setNone (h : Proven way fs) {p : Path} (hp : p ≠ []) :
    Proven way (fs.setRoot p none) := by
  have hnode := node_setNone hp fs
  have hlink : ∀ {q l}, (fs.setRoot p none).root.get q = some (.symlink l) →
      fs.root.get q = some (.symlink l) := by
    intro q l hl
    have hq := hnode q
    rw [node_eq_symlink.mpr hl] at hq
    split at hq
    · cases hq
    · exact node_eq_symlink.mp hq.symm
  refine ⟨?_, fun q hq => ?_, Tree.keyed_set h.keyed p (by simp),
    fun q l hl => h.targets q l (hlink hl), fun q l hq hl => h.noLink q l hq (hlink hl)⟩
  · have hkept := hnode []
    rw [if_neg (by simpa using hp), node_eq_dir.mpr h.root] at hkept
    exact node_eq_dir.mp hkept
  · refine h.names q fun hnone => hq ?_
    rw [← node_eq_none, hnode, node_eq_none.mpr hnone, ite_self]

/-- A new entry that is no link. -/
theorem Proven.setNew (h : Proven way fs) {d : Path} {n : Name} {t : Tree} (hn : Entry n)
    (hd : fs.DirAt d) (hkeyed : t.keyed = true) (ht : ∀ r v, t.get r = some v → r = [])
    (hlink : ∀ l, t ≠ .symlink l) : Proven way (fs.setRoot (d ++ [n]) (some t)) := by
  have hnew : ∀ {q v}, (Tree.set (d ++ [n]) (some t) fs.root).get q = some v →
      (∃ w, fs.root.get q = some w ∧ (w = v ∨ w.isDir = true ∧ v.isDir = true)) ∨
        q = d ++ [n] ∧ v = t := by
    intro q v hv
    rcases Tree.get_of_set hv with h' | ⟨c, r, hc, hq, hr⟩
    · exact .inl h'
    · obtain rfl := Option.some.inj hc
      obtain rfl := ht r v hr
      exact .inr ⟨by rw [hq, List.append_nil], (Option.some.inj hr).symm⟩
  have hold : ∀ {q l}, (fs.setRoot (d ++ [n]) (some t)).root.get q = some (.symlink l) →
      fs.root.get q = some (.symlink l) := by
    intro q l hl
    rcases hnew hl with ⟨w, hw, rfl | ⟨-, hd⟩⟩ | ⟨-, hv⟩
    · exact hw
    · cases hd
    · exact absurd hv.symm (hlink l)
  refine ⟨?_, fun q hq => ?_, Tree.keyed_set h.keyed _ fun c hc => Option.some.inj hc ▸ hkeyed,
    fun q l hl => h.targets q l (hold hl), fun q l hq hl => h.noLink q l hq (hold hl)⟩
  · obtain ⟨es, hes⟩ := h.root
    obtain ⟨ds, hds, -⟩ := Tree.get_set_above (q := d ++ [n]) (by simp) hes (some t)
    exact ⟨ds, hds⟩
  · obtain ⟨v, hv⟩ := Option.ne_none_iff_exists'.mp hq
    rcases hnew hv with ⟨w, hw, -⟩ | ⟨rfl, -⟩
    · exact h.names q (by simp [hw])
    · intro m hm
      rcases List.mem_append.mp hm with hm | hm
      · obtain ⟨es, hes⟩ := hd
        exact h.names d (by simp [hes]) m hm
      · rw [List.mem_singleton.mp hm]
        exact hn

/-- **Every call** keeps a file system proper. -/
theorem proven_kept (way : Path → Prop) : Kept (Proven way) where
  root h := h.root
  targets h := h.targets
  remove d n h := h.setNone (by simp)
  mkdir h hn hd _ := by
    refine h.setNew hn hd rfl (fun r v hr => ?_) fun l => by simp
    cases r with
    | nil => rfl
    | cons m r => cases hr
  file i h hn hd := by
    refine h.setNew hn hd rfl (fun r v hr => ?_) fun l => by simp
    cases r with
    | nil => rfl
    | cons m r => cases hr
  data _ _ h := ⟨h.root, h.names, h.keyed, h.targets, h.noLink⟩

/-- The names in a directory are proper. -/
theorem Proven.named (h : Proven way fs) (q : Path) : fs.Named q := by
  intro r es hes e he
  refine (h.names (q ++ r ++ [e.1]) ?_ e.1 (by simp)).1
  obtain ⟨c, hc⟩ : ∃ c, es.lookup e.1 = some c := by
    rw [← Option.isSome_iff_exists, List.lookup_isSome_iff]
    exact ⟨e, he, by simp⟩
  rw [Tree.get_append, hes, Option.bind_some, Tree.get_cons, Tree.child_dir, hc]
  simp

/-- A file system is looked at place by place. -/
theorem proven_of_places (hroot : fs.DirAt []) (hkeyed : fs.root.keyed = true)
    (hnames : ∀ e ∈ fs.root.places, ∀ n ∈ e.1, Entry n)
    (hlinks : ∀ e ∈ fs.root.places, ∀ l, e.2 = .symlink l → Written l ∧ ¬ way e.1) :
    Proven way fs where
  root := hroot
  names q hq := by
    obtain ⟨n, hn⟩ := Option.ne_none_iff_exists'.mp (node_eq_none.not.mpr hq)
    exact hnames (q, n) (mem_places hn)
  keyed := hkeyed
  targets q l hl := (hlinks _ (mem_places (node_eq_symlink.mpr hl)) l rfl).1
  noLink q l hq hl := (hlinks _ (mem_places (node_eq_symlink.mpr hl)) l rfl).2 hq

/-! ## Directories that are removed -/

/-- The file system without a directory. -/
def removeDir (fs : Fs) (p : Path) : Fs :=
  if (fs.root.get p).any Tree.isDir then fs.setRoot p none else fs

def removeDirs (fs : Fs) (ps : List Path) : Fs := ps.foldl removeDir fs

theorem any_isDir {p : Path} : (fs.root.get p).any Tree.isDir = true ↔ fs.node p = some .dir := by
  rw [node]
  cases fs.root.get p with
  | none => simp
  | some t => cases t <;> simp [Tree.isDir, Tree.node]

theorem node_removeDir {p : Path} (hp : p ≠ []) (fs : Fs) (q : Path) :
    (fs.removeDir p).node q = if fs.node p = some .dir ∧ p <+: q then none else fs.node q := by
  rw [removeDir]
  by_cases hdir : fs.node p = some .dir
  · simp only [if_pos (any_isDir.mpr hdir), node_setNone hp, hdir, true_and]
  · rw [if_neg (any_isDir.not.mpr hdir), if_neg (fun h => hdir h.1)]

theorem data_removeDir (fs : Fs) (p : Path) : (fs.removeDir p).data = fs.data := by
  rw [removeDir]
  split <;> rfl

/-- **All at once**: which directories are there can be looked at before the first
of them is removed. -/
theorem node_removeDirs {ps : List Path} (hps : ∀ p ∈ ps, p ≠ []) (fs : Fs) (q : Path) :
    (fs.removeDirs ps).node q =
      if ∃ p ∈ ps, fs.node p = some .dir ∧ p <+: q then none else fs.node q := by
  induction ps generalizing fs with
  | nil => simp [removeDirs]
  | cons p ps ih =>
      obtain ⟨hp, hrest⟩ := List.forall_mem_cons.mp hps
      change ((fs.removeDir p).removeDirs ps).node q = _
      have hnode := node_removeDir hp fs
      rw [ih hrest, hnode q]
      by_cases hfirst : fs.node p = some .dir ∧ p <+: q
      · rw [if_pos hfirst, ite_self, if_pos ⟨p, by simp, hfirst⟩]
      · rw [if_neg hfirst]
        -- a directory that is gone by then was below `p`, and so would `q` be
        have hlater : ∀ r, r <+: q → ((fs.removeDir p).node r = some .dir ↔ fs.node r = some .dir) := by
          intro r hr
          rw [hnode r, if_neg fun h => hfirst ⟨h.1, h.2.trans hr⟩]
        refine if_congr ?_ rfl rfl
        constructor
        · rintro ⟨r, hr, hdir, hle⟩
          exact ⟨r, List.mem_cons_of_mem _ hr, (hlater r hle).mp hdir, hle⟩
        · rintro ⟨r, hr, hdir, hle⟩
          rcases List.mem_cons.mp hr with rfl | hr
          · exact absurd ⟨hdir, hle⟩ hfirst
          · exact ⟨r, hr, (hlater r hle).mpr hdir, hle⟩

theorem data_removeDirs (fs : Fs) (ps : List Path) : (fs.removeDirs ps).data = fs.data := by
  induction ps generalizing fs with
  | nil => rfl
  | cons p ps ih => exact (ih _).trans (data_removeDir fs p)

/-- Where no place is a directory nothing is removed. -/
theorem removeDirs_of_not_dir {ps : List Path} (h : ∀ p ∈ ps, fs.node p ≠ some .dir) :
    fs.removeDirs ps = fs := by
  induction ps with
  | nil => rfl
  | cons p ps ih =>
      obtain ⟨hp, hrest⟩ := List.forall_mem_cons.mp h
      change (fs.removeDir p).removeDirs ps = fs
      rw [removeDir, if_neg (any_isDir.not.mpr hp), ih hrest]

theorem Proven.removeDirs (h : Proven way fs) {ps : List Path} (hps : ∀ p ∈ ps, p ≠ []) :
    Proven way (fs.removeDirs ps) := by
  induction ps generalizing fs with
  | nil => exact h
  | cons p ps ih =>
      obtain ⟨hp, hrest⟩ := List.forall_mem_cons.mp hps
      refine ih ?_ hrest
      rw [removeDir]
      split
      · exact h.setNone hp
      · exact h

/-- All that is taken is gone, and all else is as it was. -/
structure Cleared (taken : Path → Prop) (fs fs' : Fs) : Prop where
  gone : ∀ q, taken q → fs'.node q = none
  kept : ∀ q, ¬ taken q → fs'.node q = fs.node q
  data : fs'.data = fs.data

variable {taken taken' : Path → Prop}

theorem Cleared.none (fs : Fs) : Cleared (fun _ => False) fs fs :=
  ⟨fun _ h => h.elim, fun _ _ => rfl, rfl⟩

theorem Cleared.trans {fs₁ fs₂ fs₃ : Fs} (h : Cleared taken fs₁ fs₂)
    (h' : Cleared taken' fs₂ fs₃) : Cleared (fun q => taken q ∨ taken' q) fs₁ fs₃ where
  gone q hq := by
    by_cases hq' : taken' q
    · exact h'.gone q hq'
    · rw [h'.kept q hq', h.gone q (hq.resolve_right hq')]
  kept q hq := by
    rw [not_or] at hq
    rw [h'.kept q hq.2, h.kept q hq.1]
  data := h'.data.trans h.data

/-- What is said to be taken only matters where something is. -/
theorem Cleared.congr (h : Cleared taken fs fs')
    (heq : ∀ q, fs.node q ≠ Option.none → (taken q ↔ taken' q)) : Cleared taken' fs fs' where
  gone q hq := by
    by_cases hnone : fs.node q = Option.none
    · by_cases hq' : taken q
      · exact h.gone q hq'
      · rw [h.kept q hq', hnone]
    · exact h.gone q ((heq q hnone).mpr hq)
  kept q hq := by
    by_cases hnone : fs.node q = Option.none
    · by_cases hq' : taken q
      · rw [h.gone q hq', hnone]
      · exact h.kept q hq'
    · exact h.kept q fun hq' => hq ((heq q hnone).mp hq')
  data := h.data

/-- What is there afterwards was there before, and was not taken. -/
theorem Cleared.node_some (h : Cleared taken fs fs') {q : Path} {n : Node} :
    fs'.node q = some n ↔ fs.node q = some n ∧ ¬ taken q := by
  by_cases hq : taken q
  · rw [h.gone q hq]
    simp [hq]
  · rw [h.kept q hq]
    simp [hq]

theorem cleared_removeDirs {ps : List Path} (hps : ∀ p ∈ ps, p ≠ []) (fs : Fs) :
    Cleared (fun q => ∃ p ∈ ps, fs.node p = some .dir ∧ p <+: q) fs (fs.removeDirs ps) where
  gone q hq := by rw [node_removeDirs hps, if_pos hq]
  kept q hq := by rw [node_removeDirs hps, if_neg hq]
  data := data_removeDirs fs ps

/-- A file that is removed. -/
theorem cleared_setNone {p : Path} {i : Nat} (hp : p ≠ []) (h : fs.node p = some (.file i)) :
    Cleared (fun q => q = p) fs (fs.setRoot p none) := by
  have hall : Cleared (fun q => p <+: q) fs (fs.setRoot p none) :=
    ⟨fun q hq => by rw [node_setNone hp, if_pos hq], fun q hq => by rw [node_setNone hp, if_neg hq],
      rfl⟩
  refine hall.congr fun q hq => ?_
  constructor
  · rintro ⟨r, rfl⟩
    cases r with
    | nil => rw [List.append_nil]
    | cons n r =>
        refine absurd ?_ hq
        rw [node_eq_none, Tree.get_append, node_eq_file.mp h]
        rfl
  · rintro rfl
    exact List.prefix_refl q

/-- `remove_in` of a plain path on the way removes the directory there. -/
theorem Proven.removeIn_eq (h : Proven way fs) {ns : List Name} {p : Path} (hns : Plain ns)
    (hp : clean ns = p) (hpne : p ≠ []) (hway : ∀ q, q <+: p → way q) :
    fs.removeIn ns = fs.removeDir p := by
  have hlink : fs.NoLink p := fun q hq l => h.noLink q l (hway q hq)
  rw [removeDir]
  split
  · rename_i hdir
    exact removeIn_plain hns hp hpne (node_eq_dir.mp (any_isDir.mp hdir)) (h.named p)
  · rename_i hdir
    refine removeIn_absent hns (by rwa [hp]) ?_
    rw [hp]
    exact fun hat => hdir (any_isDir.mpr (node_eq_dir.mpr hat))

end Fs

end Pantavisor.Lib
