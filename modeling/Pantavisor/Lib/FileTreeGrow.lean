/-
Pantavisor.Lib.FileTreeGrow — calls that add to a file system.

`Grows p` is what `mkdir_p` of a path does: directories are added on the way to
`p`, and all else stays. `mkdirP_clear` says when the directory is there
behind it, and `Place` collects what a file needs to be created.
-/
import Pantavisor.Lib.FileTreeTheorems

namespace Pantavisor.Lib

namespace Fs

variable {fs fs' : Fs}

/-! ## Where a walk ends -/

/-- A walk ends at a place whose directory is there. -/
theorem walkNames_parent {next : Path → List Name → Option Path}
    (hnext : ∀ cur ns r, fs.DirAt cur → next cur ns = some r → r = [] ∨ fs.DirAt r.dropLast)
    {cur : Path} {ns : List Name} {r : Path} (hcur : fs.DirAt cur)
    (h : fs.walkNames next cur ns = some r) : r = [] ∨ fs.DirAt r.dropLast := by
  have hup : ∀ {p : Path}, fs.DirAt p → p = [] ∨ fs.DirAt p.dropLast := by
    intro p hp
    rcases List.eq_nil_or_concat' p with rfl | ⟨q, n, rfl⟩
    · exact .inl rfl
    · obtain ⟨es, hes⟩ := hp
      obtain ⟨ds, hds, -⟩ := Tree.dir_of_get_snoc hes
      exact .inr ⟨ds, by rwa [List.dropLast_concat]⟩
  induction ns generalizing cur with
  | nil =>
      rw [walkNames] at h
      rw [← Option.some.inj h]
      exact hup hcur
  | cons n ns ih =>
      rw [walkNames] at h
      split at h
      · exact ih hcur h
      · split at h
        · split at h
          · cases h
          · rename_i hne
            exact ih ((hup hcur).resolve_left hne) h
        · split at h
          · rename_i es hes
            exact ih ⟨es, hes⟩ h
          · exact hnext _ _ _ hcur h
          all_goals
            split at h
            · rw [← Option.some.inj h, List.dropLast_concat]
              exact .inr hcur
            · cases h

theorem walk_parent {ns : List Name} {r : Path} (hroot : fs.DirAt []) (h : fs.walk ns = some r) :
    r = [] ∨ fs.DirAt r.dropLast := by
  have hlinks : ∀ k cur ns r, fs.DirAt cur → fs.walkLinks k cur ns = some r →
      r = [] ∨ fs.DirAt r.dropLast := by
    intro k
    induction k with
    | zero =>
        intro cur ns r hcur h
        exact walkNames_parent (fun _ _ _ _ h => by cases h) hcur h
    | succ k ih =>
        intro cur ns r hcur h
        exact walkNames_parent ih hcur h
  exact hlinks 40 [] ns r hroot h

/-- A path that ends in a name leads to a place of that name, unless a link has
it. -/
theorem walk_last {ns : List Name} {n : Name} {r : Path} (hn : Proper n)
    (hlink : ∀ d l, fs.root.get (d ++ [n]) ≠ some (.symlink l)) (h : fs.walk (ns ++ [n]) = some r) :
    ∃ d, r = d ++ [n] := by
  have hnames : ∀ {next : Path → List Name → Option Path},
      (∀ cur ms r, next cur (ms ++ [n]) = some r → ∃ d, r = d ++ [n]) →
      ∀ {cur : Path} {ms : List Name} {r : Path}, fs.walkNames next cur (ms ++ [n]) = some r →
        ∃ d, r = d ++ [n] := by
    intro next hnext cur ms r h
    induction ms generalizing cur with
    | nil =>
        rw [List.nil_append, walkNames, if_neg (not_or.mpr ⟨hn.1, hn.2.1⟩), if_neg hn.2.2] at h
        split at h
        · exact ⟨cur, (Option.some.inj h).symm⟩
        · rename_i l hl
          exact absurd hl (hlink cur l)
        all_goals exact ⟨cur, (Option.some.inj h).symm⟩
    | cons m ms ih =>
        rw [List.cons_append, walkNames] at h
        split at h
        · exact ih h
        · split at h
          · split at h
            · cases h
            · exact ih h
          · split at h
            · exact ih h
            · rename_i l _
              rw [← List.append_assoc] at h
              exact hnext _ _ _ h
            all_goals
              rw [if_neg (by simp)] at h
              cases h
  have hlinks : ∀ k cur ms r, fs.walkLinks k cur (ms ++ [n]) = some r → ∃ d, r = d ++ [n] := by
    intro k
    induction k with
    | zero =>
        intro cur ms r h
        exact hnames (fun _ _ _ h => by cases h) h
    | succ k ih =>
        intro cur ms r h
        exact hnames ih h
  exact hlinks 40 [] ns r h

/-- A name in a directory that a path leads to. -/
theorem walk_snoc {ns : List Name} {n : Name} {d : Path} (hn : Proper n)
    (hlink : ∀ l, fs.root.get (d ++ [n]) ≠ some (.symlink l)) (hd : fs.DirAt d)
    (h : fs.walk ns = some d) : fs.walk (ns ++ [n]) = some (d ++ [n]) := by
  have hnames : ∀ {next : Path → List Name → Option Path},
      (∀ cur ms, next cur ms = some d → next cur (ms ++ [n]) = some (d ++ [n])) →
      ∀ {cur : Path} {ms : List Name}, fs.walkNames next cur ms = some d →
        fs.walkNames next cur (ms ++ [n]) = some (d ++ [n]) := by
    intro next hnext cur ms h
    induction ms generalizing cur with
    | nil =>
        rw [walkNames] at h
        obtain rfl := Option.some.inj h
        rw [List.nil_append, walkNames, if_neg (not_or.mpr ⟨hn.1, hn.2.1⟩), if_neg hn.2.2]
        split
        · rfl
        · rename_i l hl
          exact absurd hl (hlink l)
        all_goals rfl
    | cons m ms ih =>
        rw [walkNames] at h
        rw [List.cons_append, walkNames]
        split at h
        · rename_i hm
          rw [if_pos hm]
          exact ih h
        · rename_i hm
          rw [if_neg hm]
          split at h
          · rename_i hup
            rw [if_pos hup]
            split at h
            · cases h
            · rename_i hcur
              rw [if_neg hcur]
              exact ih h
          · rename_i hup
            rw [if_neg hup]
            split at h
            · exact ih h
            · rw [← List.append_assoc]
              exact hnext _ _ h
            all_goals
              -- a file, or nothing: no directory is there
              rename_i hfile
              split at h
              · obtain ⟨es, hes⟩ := hd
                rw [← Option.some.inj h, hfile] at hes
                cases hes
              · cases h
  have hlinks : ∀ k cur ms, fs.walkLinks k cur ms = some d →
      fs.walkLinks k cur (ms ++ [n]) = some (d ++ [n]) := by
    intro k
    induction k with
    | zero =>
        intro cur ms h
        exact hnames (fun _ _ h => by cases h) h
    | succ k ih =>
        intro cur ms h
        exact hnames ih h
  exact hlinks 40 [] ns h

/-- What files hold does not matter for a walk. -/
theorem walk_setData (fs : Fs) (i : Nat) (s : CStr) (ns : List Name) :
    (fs.setData i s).walk ns = fs.walk ns := by
  have hnames : ∀ (next : Path → List Name → Option Path) (cur : Path) (ns : List Name),
      (fs.setData i s).walkNames next cur ns = fs.walkNames next cur ns := by
    intro next cur ns
    induction ns generalizing cur with
    | nil => rfl
    | cons n ns ih =>
        rw [walkNames, walkNames, root_setData, ih, ih, ih]
  have hlinks : ∀ k, (fs.setData i s).walkLinks k = fs.walkLinks k := by
    intro k
    induction k with
    | zero => exact funext fun cur => funext fun ns => hnames _ cur ns
    | succ k ih =>
        rw [walkLinks, walkLinks, ih]
        exact funext fun cur => funext fun ns => hnames _ cur ns
  exact congrFun (congrFun (hlinks 40) []) ns

/-- The entry of a path that ends in a name. -/
theorem entry_last {ns : List Name} {n m : Name} {d : Path} (hn : Proper n)
    (h : fs.entry (ns ++ [n]) = some (d, m)) : m = n ∧ fs.DirAt d ∧ fs.walk ns = some d := by
  have hne : n.isEmpty = false := by simpa using hn.1
  simp only [entry, List.reverse_append, List.reverse_cons, List.reverse_nil, List.nil_append,
    List.singleton_append, List.dropWhile_cons, hne, Bool.false_eq_true, if_false,
    List.reverse_reverse] at h
  rw [if_neg (by simp [hn.2.1, hn.2.2])] at h
  obtain ⟨r, hr, h⟩ := Option.bind_eq_some_iff.mp h
  split at h
  · rename_i hdir
    obtain ⟨rfl, rfl⟩ := Prod.mk.inj (Option.some.inj h)
    refine ⟨rfl, ?_, hr⟩
    cases hg : fs.root.get r with
    | none => simp [hg] at hdir
    | some t =>
        cases t with
        | dir es => exact ⟨es, hg⟩
        | file i => simp [hg, Tree.isDir] at hdir
        | symlink l => simp [hg, Tree.isDir] at hdir
  · cases h

/-- The entry of a plain path without links is the last component of the path. -/
theorem entry_some {ns : List Name} {d : Path} {n : Name} (hns : Plain ns)
    (hlink : fs.NoLink (clean ns)) (h : fs.entry ns = some (d, n)) :
    d ++ [n] = clean ns ∧ fs.DirAt d := by
  unfold entry at h
  split at h
  · cases h
  · rename_i m above habove
    split at h
    · cases h
    · obtain ⟨r, hr, h⟩ := Option.bind_eq_some_iff.mp h
      split at h
      · rename_i hdir
        obtain ⟨rfl, rfl⟩ := Prod.mk.inj (Option.some.inj h)
        -- what stands behind the component is empty
        obtain ⟨es, hsplit, hes⟩ : ∃ es, ns = above.reverse ++ m :: es ∧ clean es = [] := by
          refine ⟨(ns.reverse.takeWhile (·.isEmpty)).reverse, ?_, ?_⟩
          · have hrev := List.takeWhile_append_dropWhile (p := (·.isEmpty)) (l := ns.reverse)
            rw [habove] at hrev
            simpa using (congrArg List.reverse hrev).symm
          · rw [clean, List.filter_eq_nil_iff]
            intro e he
            simpa using List.mem_takeWhile_imp (List.mem_reverse.mp he)
        have hm : m ≠ [] := by
          have hhead := List.head_dropWhile_not (p := fun x : Name => x.isEmpty) (l := ns.reverse)
            (by rw [habove]; simp)
          simpa [habove] using hhead
        have hclean : clean ns = clean above.reverse ++ [m] := by
          rw [hsplit, clean_append]
          congr 1
          simp only [clean, List.filter_cons] at hes ⊢
          simp [hm, hes]
        have hplain : Plain above.reverse := by
          rw [hsplit] at hns
          exact hns.left
        have hrc := walk_noLink hplain (by
          intro q hq
          exact hlink q (hq.trans (by rw [hclean]; exact List.prefix_append _ _))) hr
        refine ⟨by rw [hclean, hrc], ?_⟩
        cases hg : fs.root.get r with
        | none => simp [hg] at hdir
        | some t =>
            cases t with
            | dir ds => exact ⟨ds, hg⟩
            | file i => simp [hg, Tree.isDir] at hdir
            | symlink l => simp [hg, Tree.isDir] at hdir
      · cases h

/-- The links of `fs` that are left in `fs'`, and no others. -/
def SameLinks (fs fs' : Fs) : Prop :=
  ∀ q, fs'.root.get q ≠ none → ∀ l, fs.root.get q = some (.symlink l) ↔
    fs'.root.get q = some (.symlink l)

/-- Where both walks of a path end, and there is something, they end at the same
place. -/
theorem walkNames_agree (h : SameLinks fs fs') {next next' : Path → List Name → Option Path}
    (hnext : ∀ cur ns r r', next cur ns = some r → next' cur ns = some r' →
      fs'.root.get r' ≠ none → r = r') {cur : Path} {ns : List Name} {r r' : Path}
    (hr : fs.walkNames next cur ns = some r) (hr' : fs'.walkNames next' cur ns = some r')
    (hthere : fs'.root.get r' ≠ none) : r = r' := by
  induction ns generalizing cur with
  | nil =>
      rw [walkNames] at hr hr'
      exact Option.some.inj (hr.symm.trans hr')
  | cons n ns ih =>
      rw [walkNames] at hr hr'
      split at hr
      · rename_i hn
        rw [if_pos hn] at hr'
        exact ih hr hr'
      · rename_i hn
        rw [if_neg hn] at hr'
        split at hr
        · rename_i hn
          rw [if_pos hn] at hr'
          split at hr
          · cases hr
          · rename_i hcur
            rw [if_neg hcur] at hr'
            exact ih hr hr'
        · rename_i hn
          rw [if_neg hn] at hr'
          -- a path that ends here ends at the entry
          have hend : ns = [] → ∀ {q}, fs.walkNames next (cur ++ [n]) ns = some q →
              q = cur ++ [n] := by
            rintro rfl q hq
            exact (Option.some.inj hq).symm
          have hend' : ns = [] → ∀ {q}, fs'.walkNames next' (cur ++ [n]) ns = some q →
              q = cur ++ [n] := by
            rintro rfl q hq
            exact (Option.some.inj hq).symm
          have hstop : ∀ {q : Path}, (if ns = [] then some (cur ++ [n]) else none) = some q →
              ns = [] ∧ q = cur ++ [n] := by
            intro q hq
            split at hq
            · rename_i hns
              exact ⟨hns, (Option.some.inj hq).symm⟩
            · cases hq
          split at hr <;> rename_i hg <;> split at hr' <;> rename_i hg'
          · exact ih hr hr'
          · rw [(h _ (by simp [hg']) _).mpr hg'] at hg
            cases hg
          · obtain ⟨hns, rfl⟩ := hstop hr'
            exact hend hns hr
          · obtain ⟨hns, rfl⟩ := hstop hr'
            exact hend hns hr
          · rw [(h _ (by simp [hg']) _).mp hg] at hg'
            cases hg'
          · have heq := (h _ (by simp [hg']) _).mp hg
            rw [heq] at hg'
            rw [Tree.symlink.inj (Option.some.inj hg')] at hr
            exact hnext _ _ _ _ hr hr' hthere
          · rw [(h _ (by simp [hg']) _).mp hg] at hg'
            cases hg'
          · obtain ⟨-, rfl⟩ := hstop hr'
            exact absurd hg' hthere
          · obtain ⟨hns, rfl⟩ := hstop hr
            exact (hend' hns hr').symm
          · rw [(h _ (by simp [hg']) _).mpr hg'] at hg
            cases hg
          · exact (hstop hr).2.trans (hstop hr').2.symm
          · exact (hstop hr).2.trans (hstop hr').2.symm
          · obtain ⟨hns, rfl⟩ := hstop hr
            exact (hend' hns hr').symm
          · rw [(h _ (by simp [hg']) _).mpr hg'] at hg
            cases hg
          · exact (hstop hr).2.trans (hstop hr').2.symm
          · exact (hstop hr).2.trans (hstop hr').2.symm

theorem walk_agree (h : SameLinks fs fs') {ns : List Name} {r r' : Path}
    (hr : fs.walk ns = some r) (hr' : fs'.walk ns = some r') (hthere : fs'.root.get r' ≠ none) :
    r = r' := by
  have hlinks : ∀ k cur ns r r', fs.walkLinks k cur ns = some r → fs'.walkLinks k cur ns = some r' →
      fs'.root.get r' ≠ none → r = r' := by
    intro k
    induction k with
    | zero =>
        intro cur ns r r' hr hr' hthere
        exact walkNames_agree h (fun _ _ _ _ h => by cases h) hr hr' hthere
    | succ k ih =>
        intro cur ns r r' hr hr' hthere
        exact walkNames_agree h ih hr hr' hthere
  exact hlinks 40 [] ns r r' hr hr' hthere

/-- Where directories, files and links stay, a walk to one of them does. -/
theorem walk_kept (hdir : ∀ q, fs.DirAt q → fs'.DirAt q)
    (hleaf : ∀ q t, fs.root.get q = some t → t.isDir = false → fs'.root.get q = some t)
    {ns : List Name} {r : Path} (h : fs.walk ns = some r) (hthere : fs.root.get r ≠ none) :
    fs'.walk ns = some r := by
  have hnames : ∀ {next next' : Path → List Name → Option Path},
      (∀ cur ns r, next cur ns = some r → fs.root.get r ≠ none → next' cur ns = some r) →
      ∀ {ns cur r}, fs.walkNames next cur ns = some r → fs.root.get r ≠ none →
        fs'.walkNames next' cur ns = some r := by
    intro next next' hnext ns
    induction ns with
    | nil =>
        intro cur r h _
        exact h
    | cons n ns ih =>
        intro cur r h hthere
        rw [walkNames] at h ⊢
        split at h
        · rename_i hn
          rw [if_pos hn]
          exact ih h hthere
        · rename_i hn
          rw [if_neg hn]
          split at h
          · rename_i hn
            rw [if_pos hn]
            split at h
            · cases h
            · rename_i hcur
              rw [if_neg hcur]
              exact ih h hthere
          · rename_i hn
            rw [if_neg hn]
            split at h <;> rename_i hg
            · obtain ⟨es, hes⟩ := hdir _ ⟨_, hg⟩
              rw [hes]
              exact ih h hthere
            · rw [hleaf _ _ hg rfl]
              exact hnext _ _ _ h hthere
            · rw [hleaf _ _ hg rfl]
              exact h
            · split at h
              · obtain rfl := Option.some.inj h
                exact absurd hg hthere
              · cases h
  have hlinks : ∀ k cur ns r, fs.walkLinks k cur ns = some r → fs.root.get r ≠ none →
      fs'.walkLinks k cur ns = some r := by
    intro k
    induction k with
    | zero =>
        intro cur ns r h hthere
        exact hnames (fun _ _ _ h => by cases h) h hthere
    | succ k ih =>
        intro cur ns r h hthere
        exact hnames ih h hthere
  exact hlinks 40 [] ns r h hthere

/-- The same for the entry of a path. -/
theorem entry_kept (hdir : ∀ q, fs.DirAt q → fs'.DirAt q)
    (hleaf : ∀ q t, fs.root.get q = some t → t.isDir = false → fs'.root.get q = some t)
    {ns : List Name} {d : Path} {n : Name} (h : fs.entry ns = some (d, n)) :
    fs'.entry ns = some (d, n) ∧ fs.DirAt d := by
  unfold entry at h ⊢
  split at h
  · cases h
  · rename_i m above habove
    split at h
    · cases h
    · rename_i hm
      rw [if_neg hm]
      obtain ⟨r, hr, h⟩ := Option.bind_eq_some_iff.mp h
      split at h
      · rename_i hisdir
        obtain ⟨rfl, rfl⟩ := Prod.mk.inj (Option.some.inj h)
        have hd : fs.DirAt r := by
          cases hg : fs.root.get r with
          | none => simp [hg] at hisdir
          | some t =>
              cases t with
              | dir es => exact ⟨es, hg⟩
              | file i => simp [hg, Tree.isDir] at hisdir
              | symlink l => simp [hg, Tree.isDir] at hisdir
        obtain ⟨es, hes⟩ := hdir r hd
        obtain ⟨ds, hds⟩ := hd
        rw [walk_kept hdir hleaf hr (by simp [hds]), Option.bind_some, hes]
        exact ⟨rfl, ds, hds⟩
      · cases h

/-! ## Directories that are made -/

/-- Directories are added on the way to `p`; all else stays. -/
structure Grows (p : Path) (fs fs' : Fs) : Prop where
  same : ∀ q, ¬ q <+: p → fs'.root.get q = fs.root.get q
  dir : ∀ q, fs.DirAt q → fs'.DirAt q
  kept : ∀ q t, fs.root.get q = some t → t.isDir = false → fs'.root.get q = some t
  new : ∀ q t, fs'.root.get q = some t → t.isDir = false → fs.root.get q = some t
  data : fs'.data = fs.data

theorem Grows.refl (p : Path) (fs : Fs) : Grows p fs fs :=
  ⟨fun _ _ => rfl, fun _ h => h, fun _ _ h _ => h, fun _ _ h _ => h, rfl⟩

theorem Grows.trans {p : Path} {a b c : Fs} (h : Grows p a b) (h' : Grows p b c) : Grows p a c where
  same q hq := (h'.same q hq).trans (h.same q hq)
  dir q hq := h'.dir q (h.dir q hq)
  kept q t hq ht := h'.kept q t (h.kept q t hq ht) ht
  new q t hq ht := h.new q t (h'.new q t hq ht) ht
  data := h'.data.trans h.data

theorem Grows.noLink {p q : Path} (h : Grows p fs fs') (hq : fs.NoLink q) : fs'.NoLink q :=
  fun r hr l hl => hq r hr l (h.new r _ hl rfl)

/-- Where directories were added, a place that holds something else is one of them. -/
theorem Grows.changed {p q : Path} (h : Grows p fs fs') (hne : fs'.held q ≠ fs.held q) :
    q <+: p ∧ fs.held q = none ∧ fs'.held q = some .dir := by
  have hdata : fs'.heldOf = fs.heldOf := by
    funext t
    cases t <;> simp [heldOf, h.data]
  have hsame : fs'.root.get q ≠ fs.root.get q := by
    intro heq
    rw [held, held, heq, hdata] at hne
    exact hne rfl
  refine ⟨by_contra fun hoff => hsame (h.same q hoff), ?_⟩
  cases hbefore : fs.root.get q with
  | none =>
      cases hafter : fs'.root.get q with
      | none => exact absurd (hafter.trans hbefore.symm) hsame
      | some t =>
          cases t with
          | dir es => exact ⟨by rw [held, hbefore]; rfl, by rw [held, hafter]; rfl⟩
          | file i => rw [h.new q _ hafter rfl] at hbefore; cases hbefore
          | symlink l => rw [h.new q _ hafter rfl] at hbefore; cases hbefore
  | some t =>
      cases t with
      | dir es =>
          obtain ⟨ds, hds⟩ := h.dir q ⟨es, hbefore⟩
          rw [held, held, hbefore, hds] at hne
          exact absurd rfl hne
      | file i => exact absurd ((h.kept q _ hbefore rfl).trans hbefore.symm) hsame
      | symlink l => exact absurd ((h.kept q _ hbefore rfl).trans hbefore.symm) hsame

/-- A new directory. -/
theorem grows_setDir {p q : Path} {n : Name} {es : List (Name × Tree)}
    (hp : q ++ [n] <+: p) (hes : fs.root.get q = some (.dir es))
    (hnone : fs.root.get (q ++ [n]) = none) :
    Grows p fs (fs.setRoot (q ++ [n]) (some (.dir []))) := by
  have hself := Tree.get_set_self hes n (some (.dir []))
  -- below the new directory there is nothing, and was nothing
  have hbelow : ∀ m s, (Tree.set (q ++ [n]) (some (.dir [])) fs.root).get (q ++ [n] ++ m :: s) = none := by
    intro m s
    rw [Tree.get_append, hself]
    rfl
  have hbefore : ∀ s, fs.root.get (q ++ [n] ++ s) = none := by
    intro s
    rw [Tree.get_append, hnone]
    rfl
  have hcases : ∀ r, (∃ s, r = q ++ [n] ++ s) ∨
      (∃ ds, fs.root.get r = some (.dir ds) ∧
        ∃ ds', (Tree.set (q ++ [n]) (some (.dir [])) fs.root).get r = some (.dir ds') ∧ r <+: q) ∨
      (Tree.set (q ++ [n]) (some (.dir [])) fs.root).get r = fs.root.get r := by
    intro r
    by_cases hb : q ++ [n] <+: r
    · obtain ⟨s, rfl⟩ := hb
      exact .inl ⟨s, rfl⟩
    · by_cases ha : r <+: q ++ [n]
      · have hrq : r <+: q := by
          rcases List.prefix_concat_iff.mp ha with rfl | h
          · exact absurd (List.prefix_refl _) hb
          · exact h
        obtain ⟨ds, hds⟩ := DirAt.above ⟨es, hes⟩ hrq
        obtain ⟨s, rfl⟩ := hrq
        obtain ⟨ds', hds', -⟩ := Tree.get_set_above (q := s ++ [n]) (by simp) hds (some (.dir []))
        rw [← List.append_assoc] at hds'
        exact .inr (.inl ⟨ds, hds, ds', hds', List.prefix_append _ _⟩)
      · exact .inr (.inr (Tree.get_set_disjoint hb ha _ _))
  refine ⟨fun r hr => ?_, fun r hr => ?_, fun r t hr ht => ?_, fun r t hr ht => ?_, rfl⟩
  · rcases hcases r with ⟨s, rfl⟩ | ⟨ds, -, -, -, hrq⟩ | h
    · cases s with
      | nil => exact absurd (by rwa [List.append_nil]) hr
      | cons m s => exact (hbelow m s).trans (hbefore _).symm
    · exact absurd ((hrq.trans (List.prefix_append _ _)).trans hp) hr
    · exact h
  · obtain ⟨ds, hds⟩ := hr
    rcases hcases r with ⟨s, rfl⟩ | ⟨-, -, ds', hds', -⟩ | h
    · rw [hbefore] at hds
      cases hds
    · exact ⟨ds', hds'⟩
    · exact ⟨ds, h.trans hds⟩
  · rcases hcases r with ⟨s, rfl⟩ | ⟨ds, hds, -⟩ | h
    · rw [hbefore] at hr
      cases hr
    · rw [hds] at hr
      rw [← Option.some.inj hr] at ht
      cases ht
    · exact h.trans hr
  · rcases hcases r with ⟨s, rfl⟩ | ⟨-, -, ds', hds', -⟩ | h
    · cases s with
      | nil =>
          rw [List.append_nil] at hr
          rw [← Option.some.inj (hself.symm.trans hr)] at ht
          cases ht
      | cons m s =>
          rw [root_setRoot, hbelow] at hr
          cases hr
    · rw [root_setRoot, hds'] at hr
      rw [← Option.some.inj hr] at ht
      cases ht
    · exact h.symm.trans hr

theorem grows_mkdir {ns : List Name} {p : Path} (hns : Plain ns)
    (hp : clean ns <+: p) (hlink : fs.NoLink (clean ns)) (h : fs.mkdir ns = some fs') :
    Grows p fs fs' := by
  unfold mkdir at h
  split at h
  · rw [← Option.some.inj h]
    exact Grows.refl p fs
  · split at h
    · cases h
    · rename_i d n hentry
      split at h
      · rw [← Option.some.inj h]
        exact Grows.refl p fs
      · rename_i hnone
        rw [← Option.some.inj h]
        obtain ⟨hdn, es, hes⟩ := entry_some hns hlink hentry
        exact grows_setDir (hdn ▸ hp) hes hnone

theorem grows_mkdirFrom {done ns : List Name} {p : Path} (hroot : fs.DirAt [])
    (hns : Plain (done ++ ns)) (hp : clean (done ++ ns) <+: p)
    (hlink : fs.NoLink (clean (done ++ ns))) : Grows p fs (fs.mkdirFrom done ns) := by
  induction ns generalizing done fs with
  | nil => exact Grows.refl p fs
  | cons n ns ih =>
      rw [mkdirFrom]
      split
      · exact Grows.refl p fs
      · rename_i fs₁ h₁
        have hsplit : done ++ n :: ns = done ++ [n] ++ ns := by simp
        rw [hsplit] at hns hp hlink
        have hle : clean (done ++ [n]) <+: clean (done ++ [n] ++ ns) := by
          rw [clean_append (done ++ [n])]
          exact List.prefix_append _ _
        have hgrow := grows_mkdir hns.left (hle.trans hp)
          (fun q hq => hlink q (hq.trans hle)) h₁
        exact hgrow.trans (ih (hgrow.dir _ hroot) hns hp (hgrow.noLink hlink))

/-- **What `mkdir_p` does** on a plain path without links. -/
theorem grows_mkdirP {ns : List Name} (hroot : fs.DirAt []) (hns : Plain ns)
    (hlink : fs.NoLink (clean ns)) : Grows (clean ns) fs (fs.mkdirP ns) :=
  grows_mkdirFrom hroot (show Plain ([] ++ ns) from hns) (List.prefix_refl _) hlink

/-- Nothing is in the way to a directory. -/
def Clear (fs : Fs) (p : Path) : Prop := ∀ q, q <+: p → fs.root.get q = none ∨ fs.DirAt q

theorem Clear.noLink {p : Path} (h : fs.Clear p) : fs.NoLink p := by
  intro q hq l hl
  rcases h q hq with h | ⟨es, h⟩ <;> · rw [h] at hl; cases hl

theorem Clear.le {p q : Path} (h : fs.Clear p) (hq : q <+: p) : fs.Clear q :=
  fun r hr => h r (hr.trans hq)

theorem Grows.clear {p q : Path} (h : Grows p fs fs') (hq : fs.Clear q) : fs'.Clear q := by
  intro r hr
  cases hg : fs'.root.get r with
  | none => exact .inl rfl
  | some t =>
      cases t with
      | dir es => exact .inr ⟨es, hg⟩
      | file i =>
          rcases hq r hr with h' | ⟨es, h'⟩ <;>
            · rw [h.new r _ hg rfl] at h'; cases h'
      | symlink l =>
          rcases hq r hr with h' | ⟨es, h'⟩ <;>
            · rw [h.new r _ hg rfl] at h'; cases h'

theorem mkdirFrom_clear {done ns : List Name} (hroot : fs.DirAt []) (hns : Plain (done ++ ns))
    (hdone : fs.DirAt (clean done)) (hclear : fs.Clear (clean (done ++ ns))) :
    (fs.mkdirFrom done ns).DirAt (clean (done ++ ns)) := by
  induction ns generalizing done fs with
  | nil => simpa [mkdirFrom] using hdone
  | cons n ns ih =>
      have hsplit : done ++ n :: ns = done ++ [n] ++ ns := by simp
      rw [hsplit] at hns hclear ⊢
      have hle : clean (done ++ [n]) <+: clean (done ++ [n] ++ ns) := by
        rw [clean_append (done ++ [n])]
        exact List.prefix_append _ _
      rw [mkdirFrom]
      rcases hns.left n (by simp) with rfl | hn
      · have hsame : clean (done ++ [[]]) = clean done := by rw [clean_append]; simp
        rw [mkdir_there hns.left (by rwa [hsame])]
        exact ih hroot hns (by rwa [hsame]) hclear
      · have hcl : clean (done ++ [n]) = clean done ++ [n] := by
          rw [clean_append, clean_cons_proper hn, clean_nil]
        rcases hclear _ hle with hnone | hdir
        · rw [hcl] at hnone
          have hmk := mkdir_new hns.left.left hn hdone hnone
          rw [hmk]
          have hgrow := grows_mkdir hns.left (p := clean (done ++ [n])) (List.prefix_refl _)
            (hclear.le hle).noLink hmk
          obtain ⟨es, hes⟩ := hdone
          refine ih (hgrow.dir _ hroot) hns ?_ (hgrow.clear hclear)
          rw [hcl]
          exact ⟨[], Tree.get_set_self hes n _⟩
        · rw [mkdir_there hns.left hdir]
          exact ih hroot hns hdir hclear

/-- The directory is there behind `mkdir_p`, where nothing was in the way. -/
theorem mkdirP_clear {ns : List Name} (hroot : fs.DirAt []) (hns : Plain ns)
    (hclear : fs.Clear (clean ns)) : (fs.mkdirP ns).DirAt (clean ns) :=
  mkdirFrom_clear hroot (show Plain ([] ++ ns) from hns) hroot hclear

/-! ## Files that are created -/

/-- Files and directories stay, the files with what they hold, and there is no
new link. -/
structure Extends (fs fs' : Fs) : Prop where
  file : ∀ q i, fs.root.get q = some (.file i) →
    fs'.root.get q = some (.file i) ∧ fs'.data i = fs.data i
  dir : ∀ q, fs.DirAt q → fs'.DirAt q
  link : ∀ q l, fs'.root.get q = some (.symlink l) → fs.root.get q = some (.symlink l)

theorem Extends.refl (fs : Fs) : Extends fs fs := ⟨fun _ _ h => ⟨h, rfl⟩, fun _ h => h, fun _ _ h => h⟩

theorem Extends.trans {a b c : Fs} (h : Extends a b) (h' : Extends b c) : Extends a c where
  file q i hq :=
    have h₁ := h.file q i hq
    have h₂ := h'.file q i h₁.1
    ⟨h₂.1, h₂.2.trans h₁.2⟩
  dir q hq := h'.dir q (h.dir q hq)
  link q l hq := h.link q l (h'.link q l hq)

theorem Grows.extends {p : Path} (h : Grows p fs fs') : Extends fs fs' where
  file q i hq := ⟨h.kept q _ hq rfl, by rw [h.data]⟩
  dir := h.dir
  link q l hq := h.new q _ hq rfl

/-- A file that is created with what is written to it. -/
def create (fs : Fs) (p : Path) (s : CStr) : Fs :=
  (fs.setRoot p (some (.file fs.root.fresh))).setData fs.root.fresh s

theorem get_create {d : Path} (n : Name) (hd : fs.DirAt d) (s : CStr) :
    (fs.create (d ++ [n]) s).root.get (d ++ [n]) = some (.file fs.root.fresh) ∧
      (fs.create (d ++ [n]) s).data fs.root.fresh = s := by
  obtain ⟨es, hes⟩ := hd
  exact ⟨Tree.get_set_self hes n _, by simp [create, data_setData]⟩

theorem get_create_disjoint {p q : Path} (hpq : ¬ p <+: q) (hqp : ¬ q <+: p) (s : CStr) :
    (fs.create p s).root.get q = fs.root.get q := Tree.get_set_disjoint hpq hqp _ _

theorem extends_create {d : Path} {n : Name} (hd : fs.DirAt d)
    (hnone : fs.root.get (d ++ [n]) = none) (s : CStr) :
    Extends fs (fs.create (d ++ [n]) s) := by
  have hself := (get_create n hd s).1
  have hbefore : ∀ r, fs.root.get (d ++ [n] ++ r) = none := by
    intro r
    rw [Tree.get_append, hnone]
    rfl
  have habove : ∀ q, q <+: d → ∃ es', (fs.create (d ++ [n]) s).root.get q = some (.dir es') := by
    rintro q ⟨r, rfl⟩
    obtain ⟨ds, hds⟩ := hd.above (List.prefix_append q r)
    obtain ⟨es', hes', -⟩ := Tree.get_set_above (q := r ++ [n]) (by simp) hds
      (some (.file fs.root.fresh))
    exact ⟨es', by rw [List.append_assoc]; exact hes'⟩
  have hcases : ∀ q, d ++ [n] <+: q ∨ q <+: d ∨
      (fs.create (d ++ [n]) s).root.get q = fs.root.get q := by
    intro q
    by_cases hb : d ++ [n] <+: q
    · exact .inl hb
    · by_cases ha : q <+: d ++ [n]
      · rcases List.prefix_concat_iff.mp ha with rfl | h
        · exact .inl (List.prefix_refl _)
        · exact .inr (.inl h)
      · exact .inr (.inr (get_create_disjoint hb ha s))
  refine ⟨fun q i hq => ?_, fun q hq => ?_, fun q l hq => ?_⟩
  · have hne : i ≠ fs.root.fresh := (Tree.lt_fresh_of_get hq).ne
    refine ⟨?_, by simp [create, data_setData, hne]⟩
    rcases hcases q with ⟨r, rfl⟩ | hqd | h
    · rw [hbefore] at hq
      cases hq
    · obtain ⟨es, hes⟩ := hd.above hqd
      rw [hes] at hq
      cases hq
    · exact h.trans hq
  · obtain ⟨es, hes⟩ := hq
    rcases hcases q with ⟨r, rfl⟩ | hqd | h
    · rw [hbefore] at hes
      cases hes
    · exact habove q hqd
    · exact ⟨es, h.trans hes⟩
  · rcases hcases q with ⟨r, rfl⟩ | hqd | h
    · rw [Tree.get_append, hself, Option.bind_some] at hq
      cases r <;> cases hq
    · obtain ⟨es', hes'⟩ := habove q hqd
      rw [hes'] at hq
      cases hq
    · exact h.symm.trans hq

/-- A file that was created is removed again: only its inode held something. -/
theorem remove_create {ns : List Name} {d : Path} {n : Name} (h : fs.entry ns = some (d, n))
    (hnone : fs.root.get (d ++ [n]) = none) (hlast : ns.getLast? ≠ some []) (s : CStr) :
    (fs.create (d ++ [n]) s).remove ns = some (fs.setData fs.root.fresh s) := by
  have hleaf : ∀ q t, fs.root.get q = some t → t.isDir = false →
      (fs.create (d ++ [n]) s).root.get q = some t := by
    intro q t hq ht
    refine Tree.get_set_leaf ht hq ?_ _
    rintro ⟨r, rfl⟩
    rw [Tree.get_append, hnone] at hq
    cases hq
  have hd := (entry_kept (fun _ h => h) (fun _ _ h _ => h) h).2
  have hentry := (entry_kept (extends_create hd hnone s).dir hleaf h).1
  have hroot : (fs.create (d ++ [n]) s).root.set (d ++ [n]) none = fs.root := by
    have hbelow := Tree.set_none_below (p := d ++ [n]) (by simp) [] (some (.file fs.root.fresh))
      fs.root
    rw [List.append_nil] at hbelow
    exact hbelow.trans (Tree.set_none_absent (by simp) hnone)
  rw [remove, hentry]
  dsimp only
  rw [(get_create n hd s).1]
  dsimp only
  rw [if_neg hlast, setRoot, hroot]
  rfl

/-- What no file has as its inode is not seen. -/
theorem held_setData_fresh (fs : Fs) (s : CStr) (p : Path) :
    (fs.setData fs.root.fresh s).held p = fs.held p := by
  rw [held, held]
  show (fs.root.get p).map _ = _
  cases hg : fs.root.get p with
  | none => rfl
  | some t =>
      cases t with
      | dir es => rfl
      | symlink l => rfl
      | file i =>
          have hne : i ≠ fs.root.fresh := (Tree.lt_fresh_of_get hg).ne
          simp [heldOf, data_setData, hne]

/-- What is new behind a creation is the file. -/
theorem get_of_create {d q : Path} {n : Name} {s : CStr} {t : Tree} (hd : fs.DirAt d)
    (hq : (fs.create (d ++ [n]) s).root.get q = some t) (ht : t.isDir = false)
    (hne : ¬ d ++ [n] <+: q) : fs.root.get q = some t := by
  by_cases ha : q <+: d ++ [n]
  · have hqd : q <+: d := by
      rcases List.prefix_concat_iff.mp ha with rfl | h
      · exact absurd (List.prefix_refl _) hne
      · exact h
    obtain ⟨ds, hds⟩ := hd.above hqd
    obtain ⟨r, rfl⟩ := hqd
    obtain ⟨es', hes', -⟩ := Tree.get_set_above (q := r ++ [n]) (by simp) hds
      (some (.file fs.root.fresh))
    rw [← List.append_assoc] at hes'
    rw [← Option.some.inj (hes'.symm.trans hq)] at ht
    cases ht
  · rwa [get_create_disjoint hne ha] at hq

/-- Where one place was changed, all holds what it held, but for the place and what is below. -/
theorem held_setRoot_off {d p : Path} {n : Name} (hd : fs.DirAt d) (hoff : ¬ d ++ [n] <+: p)
    (u : Option Tree) : (fs.setRoot (d ++ [n]) u).held p = fs.held p := by
  by_cases habove : p <+: d ++ [n]
  · have hp : p <+: d := by
      rcases List.prefix_concat_iff.mp habove with rfl | h
      · exact absurd (List.prefix_refl _) hoff
      · exact h
    obtain ⟨ds, hds⟩ := hd.above hp
    obtain ⟨q, rfl⟩ := hp
    obtain ⟨ds', hds', -⟩ := Tree.get_set_above (q := q ++ [n]) (by simp) hds u
    rw [← List.append_assoc] at hds'
    rw [held, held, root_setRoot, hds', hds]
    rfl
  · rw [held, held, root_setRoot, Tree.get_set_disjoint hoff habove]
    rfl

/-- The same behind a creation. -/
theorem held_create_off {d p : Path} {n : Name} (hd : fs.DirAt d) (hoff : ¬ d ++ [n] <+: p)
    (s : CStr) : (fs.create (d ++ [n]) s).held p = fs.held p := by
  rw [← held_setRoot_off hd hoff (some (.file fs.root.fresh))]
  rw [held, held]
  show ((fs.setRoot (d ++ [n]) (some (.file fs.root.fresh))).root.get p).map _ = _
  cases hg : (fs.setRoot (d ++ [n]) (some (.file fs.root.fresh))).root.get p with
  | none => rfl
  | some t =>
      cases t with
      | dir es => rfl
      | symlink l => rfl
      | file i =>
          have hne : i ≠ fs.root.fresh :=
            (Tree.lt_fresh_of_get (get_of_create (s := s) hd hg rfl hoff)).ne
          simp [heldOf, create, data_setData, hne]

/-- `open` with `O_CREAT` of a file that is not there, and `write`. -/
theorem openCreate_write {ns : List Name} {n : Name} (hns : Plain ns) (hn : Proper n)
    (h : fs.DirAt (clean ns)) (hnone : fs.root.get (clean ns ++ [n]) = none) (trunc : Bool) :
    ∃ i fs₁, fs.openCreate (ns ++ [n]) trunc = some (i, fs₁) ∧
      ∀ s, fs₁.writeAt i s = fs.create (clean ns ++ [n]) s := by
  refine ⟨_, _, openCreate_new hns hn h hnone trunc, fun s => ?_⟩
  have hover : overwrite ([] : CStr) s = s := overwrite_same_length (by simp)
  have hnew : ((fs.setRoot (clean ns ++ [n]) (some (.file fs.root.fresh))).setData fs.root.fresh
      []).data fs.root.fresh = [] := by simp [data_setData]
  rw [writeAt, hnew, hover, create, setData, setData, setData]
  congr 1
  funext j
  by_cases hj : j = fs.root.fresh <;> simp [hj]

/-- Where `open` of a plain path succeeds, nothing is in the way to it. -/
theorem openCreate_parent {ns : List Name} {n : Name} {trunc : Bool} {r : Nat × Fs}
    (hroot : fs.DirAt []) (hns : Plain ns) (hn : Proper n) (hlink : fs.NoLink (clean ns ++ [n]))
    (h : fs.openCreate (ns ++ [n]) trunc = some r) : fs.DirAt (clean ns) := by
  have hcl : clean (ns ++ [n]) = clean ns ++ [n] := by
    rw [clean_append, clean_cons_proper hn, clean_nil]
  have hplain : Plain (ns ++ [n]) := hns.append fun m hm => .inr (List.mem_singleton.mp hm ▸ hn)
  unfold openCreate at h
  cases hw : fs.walk (ns ++ [n]) with
  | none => rw [hw] at h; cases h
  | some q =>
      have hq := walk_noLink hplain (by rwa [hcl]) hw
      rcases walk_parent hroot hw with rfl | hdir
      · rw [hcl] at hq
        exact absurd hq (by simp)
      · rwa [hq, hcl, List.dropLast_concat] at hdir

end Fs

end Pantavisor.Lib
