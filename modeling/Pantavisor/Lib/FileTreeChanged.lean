/-
Pantavisor.Lib.FileTreeChanged — where a call changes what a file system holds.

A path that is made of parts from outside may lead anywhere, through links and parent directories.
But a call that does not follow the last component works on an entry with just that name. So what
it changes can be told by names, whatever the directories are: `mkdir_p` only adds directories
(`widens_mkdirP`), and a file that is renamed changes its old place and, if it gets there, the
new one (`rename_changed`).
-/
import Pantavisor.Lib.FileTreeKept

namespace Pantavisor.Lib

/-! ## The last name of a path -/

/-- A component is no longer than its path, and as long only if it is all of it. -/
theorem length_component {s : CStr} {n : Name} (h : n ∈ components s) :
    n.length ≤ s.length ∧ (n.length = s.length → n = s) := by
  induction s generalizing n with
  | nil =>
    obtain rfl := List.mem_singleton.mp h
    exact ⟨Nat.le_refl _, fun _ => rfl⟩
  | cons c s ih =>
    have hbelow : ∀ {m : Name}, m ∈ components s →
        m.length ≤ (c :: s).length ∧ (m.length = (c :: s).length → m = c :: s) := by
      intro m hm
      have hle := (ih hm).1
      rw [List.length_cons]
      exact ⟨by omega, fun heq => by omega⟩
    rw [components] at h
    split at h
    · rcases List.mem_cons.mp h with rfl | h
      · exact ⟨Nat.zero_le _, fun heq => absurd heq (by simp)⟩
      · exact hbelow h
    · split at h
      · rename_i hnil
        cases s with
        | nil => cases hnil
        | cons c' s =>
          rw [components] at hnil
          split at hnil
          · cases hnil
          · split at hnil <;> cases hnil
      · rename_i m ms hms
        rcases List.mem_cons.mp h with rfl | h
        · obtain ⟨hle, heq⟩ := ih (hms ▸ List.mem_cons_self)
          rw [List.length_cons, List.length_cons]
          exact ⟨by omega, fun h => by rw [heq (by omega)]⟩
        · exact hbelow (hms ▸ List.mem_cons_of_mem _ h)

namespace Fs

variable {fs fs' : Fs}

/-- The name of an entry is a component of its path. -/
theorem mem_of_entry {ns : List Name} {d : Path} {n : Name} (h : fs.entry ns = some (d, n)) :
    n ∈ ns := by
  unfold entry at h
  split at h
  · cases h
  · rename_i m above habove
    have hmem : m ∈ ns := by
      refine List.mem_reverse.mp ((List.dropWhile_sublist (·.isEmpty)).subset ?_)
      rw [habove]
      exact List.mem_cons_self
    split at h
    · cases h
    · obtain ⟨r, -, h⟩ := Option.bind_eq_some_iff.mp h
      split at h
      · obtain ⟨-, rfl⟩ := Prod.mk.inj (Option.some.inj h)
        exact hmem
      · cases h

/-- What can be read through the path of an entry that is a file. -/
theorem readFile_of_entry {ns : List Name} {n m : Name} {d : Path} {i : Nat} (hn : Proper n)
    (h : fs.entry (ns ++ [n]) = some (d, m)) (hfile : fs.root.get (d ++ [n]) = some (.file i)) :
    fs.readFile (ns ++ [n]) = some (fs.data i) := by
  obtain ⟨-, hd, hwalk⟩ := entry_last hn h
  have hto := walk_snoc hn (fun l hl => by rw [hfile] at hl; cases hl) hd hwalk
  rw [readFile, find, hto, Option.bind_some, hfile]

/-! ## Directories -/

/-- Only directories are new. -/
def Widens (fs fs' : Fs) : Prop :=
  ∀ p, fs'.held p ≠ fs.held p → fs.held p = none ∧ fs'.held p = some .dir

theorem Widens.refl (fs : Fs) : Widens fs fs := fun _ h => absurd rfl h

theorem Widens.trans {a b c : Fs} (h : Widens a b) (h' : Widens b c) : Widens a c := by
  intro p hne
  by_cases hsame : c.held p = b.held p
  · rw [hsame] at hne ⊢
    exact h p hne
  · obtain ⟨hbefore, hafter⟩ := h' p hsame
    refine ⟨by_contra fun hnone => ?_, hafter⟩
    have hadded := (h p (by rw [hbefore]; exact Ne.symm hnone)).2
    rw [hbefore] at hadded
    cases hadded

theorem widens_mkdir {ns : List Name} (h : fs.mkdir ns = some fs') : Widens fs fs' := by
  unfold mkdir at h
  split at h
  · rw [← Option.some.inj h]
    exact Widens.refl fs
  · split at h
    · cases h
    · rename_i d n hentry
      split at h
      · rw [← Option.some.inj h]
        exact Widens.refl fs
      · rename_i hnone
        rw [← Option.some.inj h]
        obtain ⟨es, hes⟩ := (entry_kept (fun _ h => h) (fun _ _ h _ => h) hentry).2
        intro p hne
        exact ((grows_setDir (List.prefix_refl _) hes hnone).changed hne).2

/-- **`mkdir_p` only adds directories**, wherever its path leads. -/
theorem widens_mkdirP (ns : List Name) (fs : Fs) : Widens fs (fs.mkdirP ns) := by
  have hfrom : ∀ (ns done : List Name) (fs : Fs), Widens fs (fs.mkdirFrom done ns) := by
    intro ns
    induction ns with
    | nil => exact fun _ fs => Widens.refl fs
    | cons n ns ih =>
      intro done fs
      rw [mkdirFrom]
      split
      · exact Widens.refl fs
      · rename_i h
        exact (widens_mkdir h).trans (ih _ _)
  exact hfrom ns [] fs

/-! ## Files -/

/-- All but what is removed holds what it held. -/
theorem held_setNone_off {q p : Path} (hq : q ≠ []) (hoff : ¬ q <+: p) (fs : Fs) :
    (fs.setRoot q none).held p = fs.held p := by
  have hnode := node_setNone hq fs p
  rw [if_neg hoff] at hnode
  cases hafter : fs.root.get p with
  | none =>
    rw [held, node_eq_none.mp (hnode.trans (node_eq_none.mpr hafter)), held, hafter]
    rfl
  | some t =>
    cases t with
    | file i =>
      rw [held, node_eq_file.mp (hnode.trans (node_eq_file.mpr hafter)), held, hafter]
      rfl
    | symlink l =>
      rw [held, node_eq_symlink.mp (hnode.trans (node_eq_symlink.mpr hafter)), held, hafter]
      rfl
    | dir es =>
      obtain ⟨ds, hds⟩ := node_eq_dir.mp (hnode.trans (node_eq_dir.mpr ⟨es, hafter⟩))
      rw [held, hds, held, hafter]
      rfl

/-- **What a `rename` changes**: the old place of the file, or its new one, which then holds
the file. -/
theorem rename_changed {old new : List Name} (h : fs.rename old new = some fs') {p : Path}
    (hne : fs'.held p ≠ fs.held p) :
    ∃ d n i, fs.entry old = some (d, n) ∧ fs.root.get (d ++ [n]) = some (.file i) ∧
      (d ++ [n] <+: p ∨ ∃ d' n', fs.entry new = some (d', n') ∧ p = d' ++ [n'] ∧
        fs'.held p = some (.file (fs.data i))) := by
  have hmoved : ∀ {d d' : Path} {n n' : Name} {i : Nat}, fs.entry new = some (d', n') →
      (∀ es, fs.root.get (d' ++ [n']) ≠ some (.dir es)) →
      fs' = (fs.setRoot (d' ++ [n']) (some (.file i))).setRoot (d ++ [n]) none →
      d ++ [n] <+: p ∨ ∃ d' n', fs.entry new = some (d', n') ∧ p = d' ++ [n'] ∧
        fs'.held p = some (.file (fs.data i)) := by
    intro d d' n n' i hnew hnot hfs'
    by_cases hold : d ++ [n] <+: p
    · exact .inl hold
    · rw [hfs', held_setNone_off (by simp) hold] at hne ⊢
      obtain ⟨es, hes⟩ := (entry_kept (fun _ h => h) (fun _ _ h _ => h) hnew).2
      have hself := Tree.get_set_self hes n' (some (.file i))
      by_cases htarget : d' ++ [n'] <+: p
      · obtain ⟨q, rfl⟩ := htarget
        cases q with
        | nil =>
          rw [List.append_nil]
          refine .inr ⟨d', n', hnew, rfl, ?_⟩
          rw [held, root_setRoot, hself]
          rfl
        | cons m q =>
          -- below a file there is nothing, and was nothing
          have hafter : (fs.setRoot (d' ++ [n']) (some (.file i))).root.get
              (d' ++ [n'] ++ m :: q) = none := by
            rw [root_setRoot, Tree.get_append, hself]
            rfl
          have hbefore : fs.root.get (d' ++ [n'] ++ m :: q) = none := by
            rw [Tree.get_append]
            cases hget : fs.root.get (d' ++ [n']) with
            | none => rfl
            | some t =>
              cases t with
              | dir es => exact absurd hget (hnot es)
              | file j => rfl
              | symlink l => rfl
          rw [held, hafter, held, hbefore] at hne
          exact absurd rfl hne
      · exact absurd (held_setRoot_off ⟨es, hes⟩ htarget _) hne
  unfold rename at h
  split at h
  · rename_i d n d' n' hold hnew
    split at h
    · cases h
    · rename_i i j hi hj
      split at h
      · rw [← Option.some.inj h] at hne
        exact absurd rfl hne
      · exact ⟨d, n, i, hold, hi, hmoved hnew (fun es hes => by rw [hj] at hes; cases hes)
          (Option.some.inj h).symm⟩
    · rename_i i hi hdir _
      exact ⟨d, n, i, hold, hi, hmoved hnew hdir
        (Option.some.inj h).symm⟩
    · cases h
  · cases h

end Fs

end Pantavisor.Lib
