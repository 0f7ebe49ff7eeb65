/-
Pantavisor.Lib.FileTreeFence — calls that work below one place, and what they
keep elsewhere.

`Keeps a` says that all at `a` is as it was: the tree there, and what its files
hold. A call below `p` keeps `a` if neither place is above the other, but for
two ways out: a link on the way, and a file that is written in place and has
another link in `a`. A file system is `Fenced` if there is neither, and each
call gives such a file system again and keeps `a`; `Spares` is the two
together, so that a run of calls is a chain of `Spares.trans`.
-/
import Pantavisor.Lib.FileTreeGrow

namespace Pantavisor.Lib

namespace Fs

variable {fs fs' : Fs} {a p : Path}

/-! ## Keeping a place -/

/-- All at a place is as it was. -/
structure Keeps (a : Path) (fs fs' : Fs) : Prop where
  tree : fs'.root.get a = fs.root.get a
  data : ∀ s i, fs.root.get (a ++ s) = some (.file i) → fs'.data i = fs.data i

theorem Keeps.refl (a : Path) (fs : Fs) : Keeps a fs fs := ⟨rfl, fun _ _ _ => rfl⟩

theorem Keeps.get (h : Keeps a fs fs') (s : Path) :
    fs'.root.get (a ++ s) = fs.root.get (a ++ s) := by
  rw [Tree.get_append, h.tree, ← Tree.get_append]

theorem Keeps.trans {fs₁ fs₂ fs₃ : Fs} (h : Keeps a fs₁ fs₂) (h' : Keeps a fs₂ fs₃) :
    Keeps a fs₁ fs₃ where
  tree := h'.tree.trans h.tree
  data s i hi := (h'.data s i ((h.get s).trans hi)).trans (h.data s i hi)

theorem Keeps.held (h : Keeps a fs fs') (s : Path) : fs'.held (a ++ s) = fs.held (a ++ s) := by
  rw [Fs.held, Fs.held, h.get s]
  cases hg : fs.root.get (a ++ s) with
  | none => rfl
  | some t =>
      cases t with
      | file i => simp [heldOf, h.data s i hg]
      | symlink l => rfl
      | dir es => rfl

theorem Keeps.below (h : Keeps a fs fs') (q : Path) : Keeps (a ++ q) fs fs' where
  tree := h.get q
  data r i hi := h.data (q ++ r) i (by rwa [← List.append_assoc])

/-- Two places neither of which is above the other. -/
def Beside (a p : Path) : Prop := ¬ a <+: p ∧ ¬ p <+: a

theorem Beside.below (h : Beside a p) {t : Path} (ht : p <+: t) : Beside a t := by
  refine ⟨fun hat => ?_, fun hta => h.2 (ht.trans hta)⟩
  rcases List.prefix_or_prefix_of_prefix hat ht with h' | h'
  · exact h.1 h'
  · exact h.2 h'

/-- An update elsewhere. -/
theorem keeps_setRoot {t : Path} (h : Beside a t) (u : Option Tree) (fs : Fs) :
    Keeps a fs (fs.setRoot t u) :=
  ⟨Tree.get_set_disjoint h.2 h.1 u fs.root, fun _ _ _ => rfl⟩

/-- A file that is no file of `a` is written. -/
theorem keeps_setData {i : Nat} (h : ∀ s, fs.root.get (a ++ s) ≠ some (.file i)) (c : CStr) :
    Keeps a fs (fs.setData i c) := by
  refine ⟨rfl, fun s j hj => ?_⟩
  rw [data_setData, if_neg]
  rintro rfl
  exact h s hj

/-! ## Fences -/

/-- No link is on the `way`, and no file to be `written` is one of `a`. -/
structure Fenced (a : Path) (way written : Path → Prop) (fs : Fs) : Prop where
  root : fs.DirAt []
  names : ∀ q, fs.root.get q ≠ none → ∀ n ∈ q, Proper n
  noLink : ∀ q l, way q → fs.root.get q ≠ some (.symlink l)
  apart : ∀ t i s, written t → fs.root.get t = some (.file i) →
    fs.root.get (a ++ s) ≠ some (.file i)

theorem fenced_of_orderly {written : Path → Prop} (horderly : fs.root.orderly = true)
    (hroot : fs.DirAt []) (way : Path → Prop)
    (hw : ∀ t i, written t → fs.root.get t ≠ some (.file i)) : Fenced a way written fs where
  root := hroot
  names q hq := by
    obtain ⟨v, hv⟩ := Option.ne_none_iff_exists'.mp hq
    exact Tree.proper_of_orderly horderly hv
  noLink q l _ := Tree.not_symlink_of_orderly horderly q l
  apart t i _ ht hi := absurd hi (hw t i ht)

/-- A call that keeps `a`, and the fence. -/
def Spares (a : Path) (way written : Path → Prop) (fs fs' : Fs) : Prop :=
  Fenced a way written fs → Fenced a way written fs' ∧ Keeps a fs fs'

variable {way written : Path → Prop}

theorem Spares.refl (fs : Fs) : Spares a way written fs fs := fun h => ⟨h, Keeps.refl a fs⟩

theorem Spares.trans {fs₁ fs₂ fs₃ : Fs} (h : Spares a way written fs₁ fs₂)
    (h' : Spares a way written fs₂ fs₃) : Spares a way written fs₁ fs₃ := fun hf =>
  have h₁ := h hf
  have h₂ := h' h₁.1
  ⟨h₂.1, h₁.2.trans h₂.2⟩

/-- The names of a directory. -/
theorem Fenced.named (h : Fenced a way written fs) (q : Path) : fs.Named q := by
  intro r es hes e he
  refine h.names (q ++ r ++ [e.1]) ?_ e.1 (by simp)
  obtain ⟨c, hc⟩ : ∃ c, es.lookup e.1 = some c := by
    rw [← Option.isSome_iff_exists, List.lookup_isSome_iff]
    exact ⟨e, he, by simp⟩
  rw [Tree.get_append, hes, Option.bind_some, Tree.get_cons, Tree.child_dir, hc]
  simp

/-- A removal. -/
theorem spares_setNone {t : Path} (hat : Beside a t) (ht : t ≠ []) (fs : Fs) :
    Spares a way written fs (fs.setRoot t none) := by
  intro h
  have hleaf : ∀ {q v}, (Tree.set t none fs.root).get q = some v → ∃ w, fs.root.get q = some w ∧
      (w = v ∨ w.isDir = true ∧ v.isDir = true) := by
    intro q v hv
    rcases Tree.get_of_set hv with h' | ⟨c, -, hc, -⟩
    · exact h'
    · cases hc
  have hfile : ∀ {q v}, v.isDir = false → (Tree.set t none fs.root).get q = some v →
      fs.root.get q = some v := by
    intro q v hd hv
    rcases Tree.leaf_of_set hd hv with h' | ⟨c, -, hc, -⟩
    · exact h'
    · cases hc
  refine ⟨⟨?_, fun q hq => ?_, fun q l hq hl => ?_, fun w i s hw hi hs => ?_⟩,
    keeps_setRoot hat none fs⟩
  · obtain ⟨es, hes⟩ := h.root
    obtain ⟨n, t, rfl⟩ := List.exists_cons_of_ne_nil ht
    obtain ⟨ds, hds, -⟩ := Tree.get_set_above (q := n :: t) (by simp) hes none
    exact ⟨ds, hds⟩
  · obtain ⟨v, hv⟩ := Option.ne_none_iff_exists'.mp hq
    obtain ⟨w, hw, -⟩ := hleaf hv
    exact h.names q (by simp [hw])
  · exact h.noLink q l hq (hfile rfl hl)
  · exact h.apart w i s hw (hfile rfl hi) (hfile rfl hs)

/-- A new link of a file, where none is to be written. -/
theorem spares_setFile {d : Path} {n : Name} {i : Nat} (had : Beside a (d ++ [n]))
    (hn : Proper n) (hd : fs.DirAt d)
    (hw : ¬ written (d ++ [n]) ∨ ∀ s, fs.root.get (a ++ s) ≠ some (.file i)) :
    Spares a way written fs (fs.setRoot (d ++ [n]) (some (.file i))) := by
  intro h
  have hkeeps := keeps_setRoot had (some (.file i)) fs
  have hnew : ∀ {q v}, (Tree.set (d ++ [n]) (some (.file i)) fs.root).get q = some v →
      (∃ w, fs.root.get q = some w ∧ (w = v ∨ w.isDir = true ∧ v.isDir = true)) ∨
        q = d ++ [n] ∧ v = .file i := by
    intro q v hv
    rcases Tree.get_of_set hv with h' | ⟨c, r, hc, hq, hr⟩
    · exact .inl h'
    · rw [← Option.some.inj hc] at hr
      cases r with
      | nil => exact .inr ⟨by rw [hq, List.append_nil], (Option.some.inj hr).symm⟩
      | cons m r => cases hr
  refine ⟨⟨?_, fun q hq => ?_, fun q l hq hl => ?_, fun t j s ht hj hs => ?_⟩, hkeeps⟩
  · obtain ⟨es, hes⟩ := h.root
    obtain ⟨ds, hds, -⟩ := Tree.get_set_above (q := d ++ [n]) (by simp) hes (some (.file i))
    exact ⟨ds, hds⟩
  · obtain ⟨v, hv⟩ := Option.ne_none_iff_exists'.mp hq
    rcases hnew hv with ⟨w, hw, -⟩ | ⟨rfl, -⟩
    · exact h.names q (by simp [hw])
    · intro m hm
      rcases List.mem_append.mp hm with hm | hm
      · obtain ⟨es, hes⟩ := hd
        exact h.names d (by simp [hes]) m hm
      · rw [List.mem_singleton.mp hm]
        exact hn
  · rcases hnew hl with ⟨w, hw, rfl | ⟨-, hd⟩⟩ | ⟨-, hv⟩
    · exact h.noLink q l hq hw
    · cases hd
    · cases hv
  · rw [hkeeps.get s] at hs
    rcases hnew hj with ⟨w, hw', rfl | ⟨-, hd⟩⟩ | ⟨rfl, hij⟩
    · exact h.apart t j s ht hw' hs
    · cases hd
    · rw [Tree.file.inj hij] at hs
      rcases hw with hw | hw
      · exact hw ht
      · exact hw s hs

/-- A change inside of `a`, of a place where nothing is to be written: a removal, or a
file that is not written elsewhere. -/
theorem fenced_setBelow {d : Path} {n : Name} {u : Option Tree} (h : Fenced a way written fs)
    (hn : Proper n) (hd : fs.DirAt d) (hwritten : ∀ t, written t → ¬ d ++ [n] <+: t)
    (hu : u = none ∨ ∃ i, u = some (.file i) ∧ ∀ t, fs.root.get t ≠ some (.file i)) :
    Fenced a way written (fs.setRoot (d ++ [n]) u) := by
  have hnew : ∀ {q v}, (Tree.set (d ++ [n]) u fs.root).get q = some v →
      (∃ w, fs.root.get q = some w ∧ (w = v ∨ w.isDir = true ∧ v.isDir = true)) ∨
        q = d ++ [n] ∧ ∃ i, v = .file i ∧ ∀ t, fs.root.get t ≠ some (.file i) := by
    intro q v hv
    rcases Tree.get_of_set hv with h' | ⟨c, r, hc, hq, hr⟩
    · exact .inl h'
    · rcases hu with hu | ⟨i, hu, hi⟩
      · rw [hu] at hc
        cases hc
      · obtain rfl := Option.some.inj (hu.symm.trans hc)
        cases r with
        | nil => exact .inr ⟨by rw [hq, List.append_nil], i, (Option.some.inj hr).symm, hi⟩
        | cons m r => cases hr
  refine ⟨?_, fun q hq => ?_, fun q l hq hl => ?_, fun t j s ht hj hs => ?_⟩
  · obtain ⟨es, hes⟩ := h.root
    obtain ⟨ds, hds, -⟩ := Tree.get_set_above (q := d ++ [n]) (by simp) hes u
    exact ⟨ds, hds⟩
  · obtain ⟨v, hv⟩ := Option.ne_none_iff_exists'.mp hq
    rcases hnew hv with ⟨w, hw, -⟩ | ⟨rfl, -⟩
    · exact h.names q (by simp [hw])
    · intro m hm
      rcases List.mem_append.mp hm with hm | hm
      · obtain ⟨es, hes⟩ := hd
        exact h.names d (by simp [hes]) m hm
      · rw [List.mem_singleton.mp hm]
        exact hn
  · rcases hnew hl with ⟨w, hw, rfl | ⟨-, hd⟩⟩ | ⟨-, i, hv, -⟩
    · exact h.noLink q l hq hw
    · cases hd
    · cases hv
  · have hold : fs.root.get t = some (.file j) := by
      rcases hnew hj with ⟨w, hw, rfl | ⟨-, hd⟩⟩ | ⟨rfl, -⟩
      · exact hw
      · cases hd
      · exact absurd (List.prefix_refl _) (hwritten _ ht)
    rcases hnew hs with ⟨w, hw, rfl | ⟨-, hd⟩⟩ | ⟨-, i, hij, hi⟩
    · exact h.apart t j s ht hold hw
    · cases hd
    · exact hi t (Tree.file.inj hij ▸ hold)

/-- A file that is written in place. -/
theorem spares_setData {i : Nat} (h : ∀ s, fs.root.get (a ++ s) ≠ some (.file i)) (c : CStr) :
    Spares a way written fs (fs.setData i c) := fun hf =>
  ⟨⟨hf.root, hf.names, hf.noLink, hf.apart⟩, keeps_setData h c⟩

/-! ## The calls -/

theorem mem_clean {ns : List Name} (hns : Plain ns) {n : Name} (h : n ∈ clean ns) : Proper n := by
  obtain ⟨hmem, hne⟩ := List.mem_filter.mp h
  rcases hns n hmem with rfl | hn
  · simp at hne
  · exact hn

/-- A path that a call may take: plain, on the way, and not that of `a`. -/
structure Admits (a : Path) (way : Path → Prop) (ns : List Name) : Prop where
  plain : Plain ns
  way : ∀ q, q <+: clean ns → way q
  off : ¬ a <+: clean ns

theorem Fenced.noLinkAt (h : Fenced a way written fs) {ns : List Name} (hns : Admits a way ns) :
    fs.NoLink (clean ns) := fun q hq l => h.noLink q l (hns.way q hq)

theorem spares_mkdirP {ns : List Name} (hns : Admits a way ns) :
    Spares a way written fs (fs.mkdirP ns) := by
  intro h
  have hgrow := grows_mkdirP h.root hns.plain (h.noLinkAt hns)
  refine ⟨⟨hgrow.dir _ h.root, fun q hq => ?_, fun q l hq hl => ?_, fun t i s ht hi hs => ?_⟩,
    hgrow.same a hns.off, fun s i _ => by rw [hgrow.data]⟩
  · by_cases hpre : q <+: clean ns
    · exact fun n hn => mem_clean hns.plain (hpre.subset hn)
    · rw [hgrow.same q hpre] at hq
      exact h.names q hq
  · exact h.noLink q l hq (hgrow.new q _ hl rfl)
  · exact h.apart t i s ht (hgrow.new t _ hi rfl) (hgrow.new _ _ hs rfl)

/-- `link` of a path where nothing is written. -/
theorem spares_link {old new : List Name} (hnew : Admits a way new) (hoff : ¬ clean new <+: a)
    (hw : ¬ written (clean new)) (hlink : fs.link old new = .ok fs') :
    Spares a way written fs fs' := by
  intro h
  unfold link at hlink
  split at hlink
  · rename_i i d n _ hentry
    split at hlink
    · cases hlink
    · split at hlink
      · cases hlink
      · obtain ⟨hdn, hd⟩ := entry_some hnew.plain (h.noLinkAt hnew) hentry
        cases hlink
        refine spares_setFile ?_ ?_ hd (.inl ?_) h
        · rw [hdn]
          exact ⟨hnew.off, hoff⟩
        · exact mem_clean hnew.plain (by rw [← hdn]; simp)
        · rwa [hdn]
  · cases hlink

theorem spares_remove {ns : List Name} (hns : Admits a way ns) (hoff : ¬ clean ns <+: a)
    (hremove : fs.remove ns = some fs') : Spares a way written fs fs' := by
  intro h
  unfold remove at hremove
  split at hremove
  · cases hremove
  · rename_i d n hentry
    obtain ⟨hdn, -⟩ := entry_some hns.plain (h.noLinkAt hns) hentry
    have hset : Spares a way written fs (fs.setRoot (d ++ [n]) none) :=
      spares_setNone (by rw [hdn]; exact ⟨hns.off, hoff⟩) (by simp) fs
    split at hremove
    · cases hremove
    · cases hremove
      exact hset h
    · cases hremove
    · split at hremove
      · cases hremove
      · cases hremove
        exact hset h

/-- `open` of a path where a file may be written, and the file is not one of
`a`. -/
theorem spares_openCreate {ns : List Name} {trunc : Bool} {i : Nat} (hns : Admits a way ns)
    (hoff : ¬ clean ns <+: a) (hw : written (clean ns) ∨ ∀ j, fs.root.get (clean ns) ≠ some (.file j))
    (hopen : fs.openCreate ns trunc = some (i, fs')) (h : Fenced a way written fs) :
    Fenced a way written fs' ∧ Keeps a fs fs' ∧ ∀ s, fs'.root.get (a ++ s) ≠ some (.file i) := by
  unfold openCreate at hopen
  split at hopen
  · cases hopen
  · rename_i t ht
    have hclean := walk_noLink hns.plain (h.noLinkAt hns) ht
    split at hopen
    · rename_i j hj
      obtain ⟨rfl, rfl⟩ := Prod.mk.inj (Option.some.inj hopen)
      rcases hw with hw | hw
      · have hapart : ∀ s, fs.root.get (a ++ s) ≠ some (.file j) := by
          rw [hclean] at hj
          exact fun s => h.apart _ j s hw hj
        cases trunc with
        | false => exact ⟨h, Keeps.refl a fs, hapart⟩
        | true =>
            obtain ⟨hf, hk⟩ := spares_setData hapart [] h
            exact ⟨hf, hk, hapart⟩
      · rw [hclean] at hj
        exact absurd hj (hw j)
    · cases hopen
    · rename_i hnone
      obtain ⟨rfl, rfl⟩ := Prod.mk.inj (Option.some.inj hopen)
      have hfresh : ∀ s, fs.root.get (a ++ s) ≠ some (.file fs.root.fresh) := by
        intro s hs
        exact absurd (Tree.lt_fresh_of_get hs) (lt_irrefl _)
      rcases List.eq_nil_or_concat' t with rfl | ⟨d, n, rfl⟩
      · cases hnone
      · have hd : fs.DirAt d := by
          have hparent := (walk_parent h.root ht).resolve_left (by simp)
          rwa [List.dropLast_concat] at hparent
        have hn : Proper n := mem_clean hns.plain (by rw [← hclean]; simp)
        have hdis : Beside a (d ++ [n]) := by
          rw [hclean]
          exact ⟨hns.off, hoff⟩
        have hsets : Spares a way written fs
            (fs.setRoot (d ++ [n]) (some (.file fs.root.fresh))) :=
          spares_setFile hdis hn hd (.inr hfresh)
        obtain ⟨hf, hk⟩ := hsets h
        have hfresh' : ∀ s, (fs.setRoot (d ++ [n]) (some (.file fs.root.fresh))).root.get (a ++ s)
            ≠ some (.file fs.root.fresh) := by
          intro s
          rw [hk.get s]
          exact hfresh s
        obtain ⟨hf', hk'⟩ := spares_setData hfresh' [] hf
        exact ⟨hf', hk.trans hk', hfresh'⟩

/-- `open` of a path where no file is to be. -/
theorem spares_openExcl {ns : List Name} {i : Nat} (hns : Admits a way ns)
    (hoff : ¬ clean ns <+: a) (hopen : fs.openExcl ns = .ok (i, fs')) (h : Fenced a way written fs) :
    Fenced a way written fs' ∧ Keeps a fs fs' ∧ ∀ s, fs'.root.get (a ++ s) ≠ some (.file i) := by
  unfold openExcl at hopen
  split at hopen
  · cases hopen
  · rename_i d n hentry
    obtain ⟨hdn, hd⟩ := entry_some hns.plain (h.noLinkAt hns) hentry
    split at hopen
    · cases hopen
    · split at hopen
      · cases hopen
      · obtain ⟨rfl, rfl⟩ := Prod.mk.inj (Except.ok.inj hopen)
        have hfresh : ∀ s, fs.root.get (a ++ s) ≠ some (.file fs.root.fresh) := fun s hs =>
          absurd (Tree.lt_fresh_of_get hs) (lt_irrefl _)
        obtain ⟨hf, hk⟩ := spares_setFile (by rw [hdn]; exact ⟨hns.off, hoff⟩)
          (mem_clean hns.plain (by rw [← hdn]; simp)) hd (.inr hfresh) h
        have hfresh' : ∀ s, (fs.setRoot (d ++ [n]) (some (.file fs.root.fresh))).root.get (a ++ s)
            ≠ some (.file fs.root.fresh) := fun s hs => hfresh s (by rwa [← hk.get s])
        obtain ⟨hf', hk'⟩ := spares_setData hfresh' [] hf
        exact ⟨hf', hk.trans hk', hfresh'⟩

/-- `rename` of a file that may be written. -/
theorem spares_rename {old new : List Name} (hold : Admits a way old) (hnew : Admits a way new)
    (hoff : ¬ clean old <+: a) (hoff' : ¬ clean new <+: a) (hw : written (clean old))
    (hrename : fs.rename old new = some fs') : Spares a way written fs fs' := by
  intro h
  have hset : ∀ {d d' : Path} {n n' : Name} {i : Nat}, fs.entry old = some (d, n) →
      fs.entry new = some (d', n') → fs.root.get (d ++ [n]) = some (.file i) →
      Fenced a way written ((fs.setRoot (d' ++ [n']) (some (.file i))).setRoot (d ++ [n]) none) ∧
        Keeps a fs ((fs.setRoot (d' ++ [n']) (some (.file i))).setRoot (d ++ [n]) none) := by
    intro d d' n n' i hentry hentry' hi
    obtain ⟨hdn, -⟩ := entry_some hold.plain (h.noLinkAt hold) hentry
    obtain ⟨hdn', hd'⟩ := entry_some hnew.plain (h.noLinkAt hnew) hentry'
    have hfirst : Spares a way written fs (fs.setRoot (d' ++ [n']) (some (.file i))) := by
      refine spares_setFile (by rw [hdn']; exact ⟨hnew.off, hoff'⟩)
        (mem_clean hnew.plain (by rw [← hdn']; simp)) hd' (.inr fun s => ?_)
      rw [hdn] at hi
      exact h.apart _ i s hw hi
    exact hfirst.trans (spares_setNone (by rw [hdn]; exact ⟨hold.off, hoff⟩) (by simp) _) h
  unfold rename at hrename
  split at hrename
  · rename_i d n d' n' hentry hentry'
    split at hrename
    · cases hrename
    · rename_i i j hi hj
      split at hrename
      · cases hrename
        exact Spares.refl fs h
      · cases hrename
        exact hset hentry hentry' hi
    · rename_i hi _ _
      cases hrename
      exact hset hentry hentry' hi
    · cases hrename
  · cases hrename

/-- `remove_in` of a path. -/
theorem spares_removeIn {ns : List Name} (hns : Admits a way ns) (hoff : ¬ clean ns <+: a)
    (hne : clean ns ≠ []) : Spares a way written fs (fs.removeIn ns) := by
  intro h
  by_cases hdir : fs.DirAt (clean ns)
  · rw [removeIn_eq hns.plain rfl hne (h.noLinkAt hns) (.inr hdir) (h.named _)]
    exact spares_setNone ⟨hns.off, hoff⟩ hne fs h
  · rw [removeIn_absent hns.plain (h.noLinkAt hns) hdir]
    exact Spares.refl fs h

end Fs

end Pantavisor.Lib
