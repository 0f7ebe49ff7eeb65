/-
Pantavisor.Lib.FileTreeTheorems — what the calls on a file system change and
what they leave alone.

The tree comes first: `get_set_disjoint`, `get_set_parent` and `set_none_below`
say what an update does to every place. Then the paths: one without dots whose
directories are there leads to the place it says. The calls follow from the
two, and `removeIn_plain` removes a directory with all that is in it.
-/
import Pantavisor.Lib.FileTree
import Mathlib.Data.List.Induction

namespace Pantavisor.Lib

/-! ## Components -/

theorem components_append (a b : CStr) :
    components (a ++ slash :: b) = components a ++ components b := by
  induction a with
  | nil => simp [components]
  | cons c a ih =>
      rw [List.cons_append, components, components]
      split
      · rw [ih]
        rfl
      · rw [ih]
        cases hc : components a with
        | nil =>
            -- the components of a path are never none
            cases a with
            | nil => cases hc
            | cons d a =>
                rw [components] at hc
                split at hc
                · cases hc
                · split at hc <;> cases hc
        | cons n ns => rfl

theorem components_of_no_slash {s : CStr} (h : slash ∉ s) : components s = [s] := by
  induction s with
  | nil => rfl
  | cons c s ih =>
      rw [List.mem_cons, not_or] at h
      rw [components, if_neg (fun hc => h.1 hc.symm), ih h.2]

@[simp] theorem clean_nil : clean [] = [] := rfl

@[simp] theorem clean_cons_empty (ns : List Name) : clean ([] :: ns) = clean ns := rfl

theorem clean_append (ns ms : List Name) : clean (ns ++ ms) = clean ns ++ clean ms :=
  List.filter_append ..

theorem clean_cons_proper {n : Name} (h : Proper n) (ns : List Name) :
    clean (n :: ns) = n :: clean ns := by
  have hn : n ≠ [] := h.1
  simp [clean, hn]

/-- A path of proper names is the place that it leads to. -/
theorem clean_proper {ns : List Name} (h : ∀ n ∈ ns, Proper n) : clean ns = ns :=
  List.filter_eq_self.mpr fun n hn => by simpa using (h n hn).1

/-- Places under different names are not under each other. -/
theorem not_prefix_of_head_ne {a b : Name} (h : a ≠ b) (p q : Path) : ¬ a :: p <+: b :: q :=
  fun hle => h (List.cons_prefix_cons.mp hle).1

/-- A path as `components` gives it: empty components and proper names. -/
def Plain (ns : List Name) : Prop := ∀ n ∈ ns, n = [] ∨ Proper n

instance (ns : List Name) : Decidable (Plain ns) := inferInstanceAs (Decidable (∀ n ∈ ns, _))

theorem Plain.append {ns ms : List Name} (h : Plain ns) (h' : Plain ms) : Plain (ns ++ ms) := by
  intro n hn
  rcases List.mem_append.mp hn with hn | hn
  · exact h n hn
  · exact h' n hn

theorem Plain.cons {n : Name} {ns : List Name} (hn : Proper n) (h : Plain ns) :
    Plain (n :: ns) := by
  intro m hm
  rcases List.mem_cons.mp hm with rfl | hm
  · exact .inr hn
  · exact h m hm

theorem Plain.left {ns ms : List Name} (h : Plain (ns ++ ms)) : Plain ns :=
  fun n hn => h n (List.mem_append_left _ hn)

theorem Plain.tail {n : Name} {ns : List Name} (h : Plain (n :: ns)) : Plain ns :=
  fun m hm => h m (List.mem_cons_of_mem _ hm)

theorem Plain.dropLast {ns : List Name} (h : Plain ns) : Plain ns.dropLast :=
  fun n hn => h n (List.dropLast_subset ns hn)

/-! ## Entries -/

theorem lookup_cons_ne {m k : Name} (h : m ≠ k) (u : Tree) (es : List (Name × Tree)) :
    List.lookup m ((k, u) :: es) = es.lookup m := by
  have hmk : (m == k) = false := by simpa using h
  rw [List.lookup_cons, hmk]

theorem lookup_cons_self (m : Name) (u : Tree) (es : List (Name × Tree)) :
    List.lookup m ((m, u) :: es) = some u := by
  rw [List.lookup_cons, beq_self_eq_true]

@[simp] theorem lookup_putEntry (es : List (Name × Tree)) (n m : Name) (t : Tree) :
    (putEntry es n t).lookup m = if m = n then some t else es.lookup m := by
  induction es with
  | nil =>
      by_cases h : m = n
      · rw [if_pos h, h]
        exact lookup_cons_self n t []
      · rw [if_neg h]
        exact lookup_cons_ne h t []
  | cons e es ih =>
      obtain ⟨k, u⟩ := e
      rw [putEntry]
      by_cases hk : k = n
      · subst hk
        rw [if_pos rfl]
        by_cases hm : m = k
        · rw [if_pos hm, hm, lookup_cons_self]
        · rw [if_neg hm, lookup_cons_ne hm, lookup_cons_ne hm]
      · rw [if_neg hk]
        by_cases hm : m = k
        · subst hm
          rw [if_neg hk, lookup_cons_self, lookup_cons_self]
        · rw [lookup_cons_ne hm, lookup_cons_ne hm, ih]

theorem lookup_filter_name (es : List (Name × Tree)) (n m : Name) :
    (es.filter (·.1 ≠ n)).lookup m = if m = n then none else es.lookup m := by
  induction es with
  | nil => simp
  | cons e es ih =>
      obtain ⟨k, u⟩ := e
      by_cases hk : k = n
      · subst hk
        rw [List.filter_cons_of_neg (by simp), ih]
        by_cases hm : m = k
        · rw [if_pos hm, if_pos hm]
        · rw [if_neg hm, if_neg hm, lookup_cons_ne hm]
      · rw [List.filter_cons_of_pos (by simpa using hk)]
        by_cases hm : m = k
        · subst hm
          rw [if_neg hk, lookup_cons_self, lookup_cons_self]
        · rw [lookup_cons_ne hm, lookup_cons_ne hm, ih]

@[simp] theorem lookup_setEntry (es : List (Name × Tree)) (n m : Name) (u : Option Tree) :
    (setEntry es n u).lookup m = if m = n then u else es.lookup m := by
  cases u with
  | some t => exact lookup_putEntry es n m t
  | none => exact lookup_filter_name es n m

theorem putEntry_putEntry (es : List (Name × Tree)) (n : Name) (t u : Tree) :
    putEntry (putEntry es n t) n u = putEntry es n u := by
  induction es with
  | nil => simp [putEntry]
  | cons e es ih =>
      obtain ⟨k, v⟩ := e
      by_cases hk : k = n <;> simp [putEntry, hk, ih]

theorem setEntry_none_putEntry (es : List (Name × Tree)) (n : Name) (t : Tree) :
    setEntry (putEntry es n t) n none = setEntry es n none := by
  simp only [setEntry]
  induction es with
  | nil => simp [putEntry]
  | cons e es ih =>
      obtain ⟨k, v⟩ := e
      by_cases hk : k = n
      · simp [putEntry, hk]
      · simp only [putEntry, hk, if_false, List.filter_cons, ih]

theorem setEntry_none_setEntry (es : List (Name × Tree)) (n : Name) (u : Option Tree) :
    setEntry (setEntry es n u) n none = setEntry es n none := by
  cases u with
  | some t => exact setEntry_none_putEntry es n t
  | none => simp [setEntry]

theorem mem_setEntry {es : List (Name × Tree)} {n : Name} {u : Option Tree} {e : Name × Tree}
    (h : e ∈ setEntry es n u) : e.1 = n ∨ e ∈ es := by
  cases u with
  | none => exact .inr (List.mem_filter.mp h).1
  | some t =>
      simp only [setEntry] at h
      induction es with
      | nil => exact .inl (by rw [List.mem_singleton.mp h])
      | cons d es ih =>
          obtain ⟨k, v⟩ := d
          rw [putEntry] at h
          split at h
          · rcases List.mem_cons.mp h with rfl | h
            · exact .inl rfl
            · exact .inr (List.mem_cons_of_mem _ h)
          · rcases List.mem_cons.mp h with rfl | h
            · exact .inr (List.mem_cons_self ..)
            · exact (ih h).imp_right (List.mem_cons_of_mem _)

/-! ## Trees -/

namespace Tree

@[simp] theorem get_nil (t : Tree) : t.get [] = some t := rfl

theorem get_cons (t : Tree) (n : Name) (p : Path) :
    t.get (n :: p) = (t.child n).bind (·.get p) := rfl

/-- What is behind a name is in a directory. -/
theorem get_cons_some {t u : Tree} {n : Name} {p : Path} (h : t.get (n :: p) = some u) :
    ∃ es c, t = dir es ∧ es.lookup n = some c ∧ c.get p = some u := by
  rw [get_cons] at h
  obtain ⟨c, hc, hcu⟩ := Option.bind_eq_some_iff.mp h
  cases t with
  | dir es => exact ⟨es, c, rfl, hc, hcu⟩
  | file i => cases hc
  | symlink l => cases hc

theorem get_append (t : Tree) (p q : Path) : t.get (p ++ q) = (t.get p).bind (·.get q) := by
  induction p generalizing t with
  | nil => rfl
  | cons n p ih =>
      rw [List.cons_append, get_cons, get_cons]
      cases t.child n with
      | none => rfl
      | some c => exact ih c

@[simp] theorem child_dir (es : List (Name × Tree)) (n : Name) :
    (dir es).child n = es.lookup n := rfl

theorem get_snoc {t : Tree} {p : Path} {es : List (Name × Tree)} (h : t.get p = some (dir es))
    (n : Name) : t.get (p ++ [n]) = es.lookup n := by
  rw [get_append, h, Option.bind_some, get_cons, child_dir]
  cases es.lookup n <;> rfl

/-- What is below a place is in a directory. -/
theorem dir_of_get_snoc {t u : Tree} {p : Path} {n : Name} (h : t.get (p ++ [n]) = some u) :
    ∃ es, t.get p = some (dir es) ∧ es.lookup n = some u := by
  rw [get_append] at h
  obtain ⟨v, hv, h⟩ := Option.bind_eq_some_iff.mp h
  cases v with
  | dir es =>
      rw [get_cons, child_dir] at h
      obtain ⟨c, hc, hcu⟩ := Option.bind_eq_some_iff.mp h
      exact ⟨es, hv, hc.trans hcu⟩
  | file i => cases h
  | symlink l => cases h

/-- What is above a place is a directory. -/
theorem dir_of_get_append {t u : Tree} {p q : Path} (h : t.get (p ++ q) = some u) (hq : q ≠ []) :
    ∃ es, t.get p = some (dir es) := by
  match q, hq with
  | n :: q, _ =>
    rw [List.append_cons, get_append] at h
    obtain ⟨v, hv, -⟩ := Option.bind_eq_some_iff.mp h
    obtain ⟨es, hes, -⟩ := dir_of_get_snoc hv
    exact ⟨es, hes⟩

@[simp] theorem set_single (n : Name) (u : Option Tree) (es : List (Name × Tree)) :
    set [n] u (dir es) = dir (setEntry es n u) := rfl

theorem set_cons {p : Path} (hp : p ≠ []) (n : Name) (u : Option Tree) (es : List (Name × Tree)) :
    set (n :: p) u (dir es) =
      match es.lookup n with
      | some c => dir (putEntry es n (set p u c))
      | none => dir es := by
  cases p with
  | nil => exact absurd rfl hp
  | cons m p => rfl

theorem set_of_not_dir {p : Path} (hp : p ≠ []) (u : Option Tree) {t : Tree}
    (ht : ∀ es, t ≠ dir es) : set p u t = t := by
  cases t with
  | dir es => exact absurd rfl (ht es)
  | file i => match p, hp with
    | [n], _ => rfl
    | n :: m :: p, _ => rfl
  | symlink l => match p, hp with
    | [n], _ => rfl
    | n :: m :: p, _ => rfl

/-- **An update leaves every place alone** that is neither above nor below. -/
theorem get_set_disjoint {p q : Path} (hpq : ¬ p <+: q) (hqp : ¬ q <+: p) (u : Option Tree)
    (t : Tree) : (set p u t).get q = t.get q := by
  induction p generalizing q t with
  | nil => exact absurd (List.nil_prefix) hpq
  | cons n p ih =>
      match q with
      | [] => exact absurd (List.nil_prefix) hqp
      | m :: q =>
        cases t with
        | file i => rw [set_of_not_dir (by simp) u (by simp)]
        | symlink l => rw [set_of_not_dir (by simp) u (by simp)]
        | dir es =>
            by_cases hp : p = []
            · subst hp
              have hmn : m ≠ n := by
                rintro rfl
                exact hpq ⟨q, rfl⟩
              rw [set_single, get_cons, get_cons, child_dir, child_dir, lookup_setEntry,
                if_neg hmn]
            · rw [set_cons hp]
              cases hc : es.lookup n with
              | none => rfl
              | some c =>
                  dsimp only
                  rw [get_cons, get_cons, child_dir, child_dir, lookup_putEntry]
                  by_cases hmn : m = n
                  · subst hmn
                    rw [if_pos rfl, hc]
                    exact ih (fun h => hpq (List.prefix_cons_inj m |>.mpr h))
                      (fun h => hqp (List.prefix_cons_inj m |>.mpr h)) c
                  · rw [if_neg hmn]

/-- The directory of an updated place. -/
theorem get_set_parent {t : Tree} {p : Path} {es : List (Name × Tree)}
    (h : t.get p = some (dir es)) (n : Name) (u : Option Tree) :
    (set (p ++ [n]) u t).get p = some (dir (setEntry es n u)) := by
  induction p generalizing t with
  | nil =>
      cases Option.some.inj h
      rfl
  | cons m p ih =>
      obtain ⟨ds, c, rfl, hc, h⟩ := get_cons_some h
      rw [List.cons_append, set_cons (by simp), hc]
      dsimp only
      rw [get_cons, child_dir, lookup_putEntry, if_pos rfl, Option.bind_some]
      exact ih h

/-- An updated place. -/
theorem get_set_self {t : Tree} {p : Path} {es : List (Name × Tree)}
    (h : t.get p = some (dir es)) (n : Name) (u : Option Tree) :
    (set (p ++ [n]) u t).get (p ++ [n]) = u := by
  rw [get_snoc (get_set_parent h n u), lookup_setEntry, if_pos rfl]

/-- An entry set to what it is. -/
theorem putEntry_self {es : List (Name × Tree)} {n : Name} {c : Tree} (h : es.lookup n = some c) :
    putEntry es n c = es := by
  induction es with
  | nil => cases h
  | cons e es ih =>
      obtain ⟨k, v⟩ := e
      rw [putEntry]
      by_cases hk : k = n
      · subst hk
        rw [lookup_cons_self] at h
        rw [if_pos rfl, Option.some.inj h]
      · rw [lookup_cons_ne (fun hn => hk hn.symm)] at h
        rw [if_neg hk, ih h]

/-- A removal of what is not there does nothing. -/
theorem set_none_absent {t : Tree} {p : Path} (hp : p ≠ []) (h : t.get p = none) :
    set p none t = t := by
  induction p generalizing t with
  | nil => exact absurd rfl hp
  | cons n p ih =>
      cases t with
      | file i => exact set_of_not_dir (by simp) none (by simp)
      | symlink l => exact set_of_not_dir (by simp) none (by simp)
      | dir es =>
          rw [get_cons, child_dir] at h
          cases hc : es.lookup n with
          | none =>
              by_cases hp' : p = []
              · subst hp'
                rw [set_single, setEntry, List.filter_eq_self.mpr]
                intro e he
                have hne := List.lookup_eq_none_iff.mp hc e he
                have hne' : n ≠ e.1 := by simpa using hne
                simpa using fun heq : e.1 = n => hne' heq.symm
              · rw [set_cons hp', hc]
          | some c =>
              rw [hc, Option.bind_some] at h
              have hp' : p ≠ [] := by
                rintro rfl
                cases h
              rw [set_cons hp', hc]
              dsimp only
              rw [ih hp' h, putEntry_self hc]

/-- A place above an update stays a directory. -/
theorem get_set_above {t : Tree} {p q : Path} {es : List (Name × Tree)} (hq : q ≠ [])
    (h : t.get p = some (dir es)) (u : Option Tree) :
    ∃ es', (set (p ++ q) u t).get p = some (dir es') ∧
      ∀ e ∈ es', (∃ n, q.head? = some n ∧ e.1 = n) ∨ e ∈ es := by
  match q, hq with
  | [n], _ =>
    refine ⟨_, get_set_parent h n u, fun e he => ?_⟩
    exact (mem_setEntry he).imp_left fun hn => ⟨n, rfl, hn⟩
  | n :: m :: q, _ =>
    induction p generalizing t with
    | nil =>
        cases Option.some.inj h
        rw [List.nil_append, set_cons (by simp)]
        split
        · refine ⟨_, rfl, fun e he => ?_⟩
          exact (mem_setEntry (u := some _) he).imp_left fun hn => ⟨n, rfl, hn⟩
        · exact ⟨es, rfl, fun e he => .inr he⟩
    | cons k p ih =>
        obtain ⟨ds, c, rfl, hc, h⟩ := get_cons_some h
        rw [List.cons_append, set_cons (by simp), hc]
        dsimp only
        rw [get_cons, child_dir, lookup_putEntry, if_pos rfl, Option.bind_some]
        exact ih h

/-- A removal makes up for all updates below. -/
theorem set_none_below {p : Path} (hp : p ≠ []) (q : Path) (u : Option Tree) (t : Tree) :
    set p none (set (p ++ q) u t) = set p none t := by
  induction p generalizing t with
  | nil => exact absurd rfl hp
  | cons n p ih =>
      cases t with
      | file i => rw [set_of_not_dir (p := n :: p ++ q) (by simp) u (by simp)]
      | symlink l => rw [set_of_not_dir (p := n :: p ++ q) (by simp) u (by simp)]
      | dir es =>
          by_cases hp' : p = []
          · subst hp'
            rw [List.cons_append, List.nil_append, set_single]
            by_cases hq : q = []
            · subst hq
              rw [set_single, set_single, setEntry_none_setEntry]
            · rw [set_cons hq]
              split
              · rw [set_single, setEntry_none_putEntry]
              · rfl
          · rw [List.cons_append, set_cons (by simp [hp']), set_cons hp']
            cases hc : es.lookup n with
            | none => dsimp only; rw [set_cons hp', hc]
            | some c =>
                dsimp only
                rw [set_cons hp', lookup_putEntry, if_pos rfl]
                dsimp only
                rw [putEntry_putEntry, ih hp']

/-- A removed place. -/
theorem get_set_none {p : Path} (hp : p ≠ []) (t : Tree) : (set p none t).get p = none := by
  by_cases hnone : t.get p = none
  · rw [set_none_absent hp hnone, hnone]
  · obtain ⟨d, n, rfl⟩ := List.eq_nil_or_concat' p |>.resolve_left hp
    obtain ⟨v, hv⟩ := Option.ne_none_iff_exists'.mp hnone
    obtain ⟨ds, hds, -⟩ := dir_of_get_snoc hv
    exact get_set_self hds n none

/-- An update below a place is one of what is there. -/
theorem get_set_append {t c : Tree} {p q : Path} (hq : q ≠ []) (h : t.get p = some c)
    (u : Option Tree) : (set (p ++ q) u t).get p = some (set q u c) := by
  induction p generalizing t with
  | nil =>
      cases Option.some.inj h
      rfl
  | cons n p ih =>
      obtain ⟨ds, d, rfl, hd, h⟩ := get_cons_some h
      rw [List.cons_append, set_cons (by simp [hq]), hd]
      dsimp only
      rw [get_cons, child_dir, lookup_putEntry, if_pos rfl, Option.bind_some]
      exact ih h

/-- What is in a tree behind an update was there before, or comes with the
update; the directories above it have changed. -/
theorem get_of_set {p q : Path} {u : Option Tree} {t v : Tree} (h : (set p u t).get q = some v) :
    (∃ w, t.get q = some w ∧ (w = v ∨ w.isDir = true ∧ v.isDir = true)) ∨
      ∃ c r, u = some c ∧ q = p ++ r ∧ c.get r = some v := by
  induction p generalizing q t with
  | nil =>
      cases u with
      | none => exact .inl ⟨v, h, .inl rfl⟩
      | some c => exact .inr ⟨c, q, rfl, rfl, h⟩
  | cons n p ih =>
      cases t with
      | file i =>
          rw [set_of_not_dir (by simp) u (by simp)] at h
          exact .inl ⟨v, h, .inl rfl⟩
      | symlink l =>
          rw [set_of_not_dir (by simp) u (by simp)] at h
          exact .inl ⟨v, h, .inl rfl⟩
      | dir es =>
          match q with
          | [] =>
            refine .inl ⟨dir es, rfl, .inr ⟨rfl, ?_⟩⟩
            rw [get_nil] at h
            rw [← Option.some.inj h]
            exact isDir_set_cons n p u es
          | m :: q =>
            obtain ⟨ds, c, hds, hc, hcv⟩ := get_cons_some h
            by_cases hp : p = []
            · subst hp
              rw [set_single, Tree.dir.injEq] at hds
              rw [← hds, lookup_setEntry] at hc
              split at hc
              · rename_i hmn
                exact .inr ⟨c, q, hc, by rw [hmn]; rfl, hcv⟩
              · refine .inl ⟨v, ?_, .inl rfl⟩
                rw [get_cons, child_dir, hc, Option.bind_some, hcv]
            · rw [set_cons hp] at hds
              cases hn : es.lookup n with
              | none =>
                  rw [hn] at hds
                  refine .inl ⟨v, ?_, .inl rfl⟩
                  rw [get_cons, child_dir, Tree.dir.inj hds, hc, Option.bind_some, hcv]
              | some e =>
                  rw [hn] at hds
                  rw [← Tree.dir.inj hds, lookup_putEntry] at hc
                  split at hc
                  · rename_i hmn
                    rw [← Option.some.inj hc] at hcv
                    rcases ih hcv with ⟨w, hw, hcase⟩ | ⟨d, r, hd, hr, hdr⟩
                    · exact .inl ⟨w, by rw [get_cons, child_dir, hmn, hn]; exact hw, hcase⟩
                    · exact .inr ⟨d, r, hd, by rw [hmn, hr]; rfl, hdr⟩
                  · refine .inl ⟨v, ?_, .inl rfl⟩
                    rw [get_cons, child_dir, hc, Option.bind_some, hcv]
where
  isDir_set_cons (n : Name) (p : Path) (u : Option Tree) (es : List (Name × Tree)) :
      (set (n :: p) u (dir es)).isDir = true := by
    by_cases hp : p = []
    · subst hp
      rfl
    · rw [set_cons hp]
      cases es.lookup n <;> rfl

/-- The same for what is no directory. -/
theorem leaf_of_set {p q : Path} {u : Option Tree} {t v : Tree} (hv : v.isDir = false)
    (h : (set p u t).get q = some v) :
    t.get q = some v ∨ ∃ c r, u = some c ∧ q = p ++ r ∧ c.get r = some v := by
  rcases get_of_set h with ⟨w, hw, rfl | ⟨-, hd⟩⟩ | h
  · exact .inl hw
  · rw [hv] at hd
    cases hd
  · exact .inr h

/-- Below what is no directory nothing can be updated. -/
theorem set_below_leaf {t v : Tree} {p q : Path} (hq : q ≠ []) (hv : v.isDir = false)
    (h : t.get p = some v) (u : Option Tree) : set (p ++ q) u t = t := by
  induction p generalizing t with
  | nil =>
      obtain rfl := Option.some.inj h
      exact set_of_not_dir hq u fun es hes => by rw [hes] at hv; cases hv
  | cons n p ih =>
      obtain ⟨es, c, rfl, hc, hcv⟩ := get_cons_some h
      rw [List.cons_append, set_cons (by simp [hq]), hc]
      dsimp only
      rw [ih hcv, putEntry_self hc]

/-- A file or a link stays where it is, unless the update is at it or above. -/
theorem get_set_leaf {t v : Tree} {p q : Path} (hv : v.isDir = false) (h : t.get q = some v)
    (hpq : ¬ p <+: q) (u : Option Tree) : (set p u t).get q = some v := by
  by_cases hqp : q <+: p
  · obtain ⟨r, rfl⟩ := hqp
    have hr : r ≠ [] := by
      rintro rfl
      rw [List.append_nil] at hpq
      exact hpq (List.prefix_refl q)
    rw [set_below_leaf hr hv h, h]
  · rw [get_set_disjoint hpq hqp, h]

/-! ## Depth and inode numbers -/

theorem depth_of_lookup {es : List (Name × Tree)} {n : Name} {t : Tree}
    (h : es.lookup n = some t) : t.depth ≤ depths es := by
  induction es with
  | nil => cases h
  | cons e es ih =>
      obtain ⟨m, u⟩ := e
      rw [List.lookup_cons] at h
      rw [depths]
      split at h
      · rw [← Option.some.inj h]
        exact le_max_left _ _
      · exact (ih h).trans (le_max_right _ _)

theorem depth_get {t u : Tree} {p : Path} (h : t.get p = some u) : u.depth ≤ t.depth := by
  induction p generalizing t with
  | nil =>
      cases Option.some.inj h
      exact le_refl _
  | cons n p ih =>
      obtain ⟨es, c, rfl, hc, h⟩ := get_cons_some h
      rw [depth]
      exact (ih h).trans ((depth_of_lookup hc).trans (Nat.le_succ _))

theorem fresh_of_lookup {es : List (Name × Tree)} {n : Name} {t : Tree}
    (h : es.lookup n = some t) : t.fresh ≤ freshes es := by
  induction es with
  | nil => cases h
  | cons e es ih =>
      obtain ⟨m, u⟩ := e
      rw [List.lookup_cons] at h
      rw [freshes]
      split at h
      · rw [← Option.some.inj h]
        exact le_max_left _ _
      · exact (ih h).trans (le_max_right _ _)

/-- No file has the fresh inode number. -/
theorem lt_fresh_of_get {t : Tree} {p : Path} {i : Nat} (h : t.get p = some (file i)) :
    i < t.fresh := by
  induction p generalizing t with
  | nil =>
      cases Option.some.inj h
      exact Nat.lt_succ_self i
  | cons n p ih =>
      obtain ⟨es, c, rfl, hc, h⟩ := get_cons_some h
      exact (ih h).trans_le (fresh_of_lookup hc)

end Tree

/-! ## Orderly trees -/

namespace Tree

theorem orderly_of_mem {es : List (Name × Tree)} (h : orderlys es = true) {e : Name × Tree}
    (he : e ∈ es) : Proper e.1 ∧ e.2.orderly = true := by
  induction es with
  | nil => cases he
  | cons d es ih =>
      obtain ⟨n, t⟩ := d
      simp only [orderlys, Bool.and_eq_true, decide_eq_true_eq] at h
      rcases List.mem_cons.mp he with rfl | he
      · exact h.1
      · exact ih h.2 he

/-- All that is in an orderly tree is orderly. -/
theorem orderly_of_get {t u : Tree} {p : Path} (h : t.orderly = true) (hu : t.get p = some u) :
    u.orderly = true := by
  induction p generalizing t with
  | nil =>
      rw [← Option.some.inj hu]
      exact h
  | cons n p ih =>
      obtain ⟨es, c, rfl, hc, hcu⟩ := get_cons_some hu
      obtain ⟨l₁, l₂, rfl, -⟩ := List.lookup_eq_some_iff.mp hc
      exact ih (orderly_of_mem h (e := (n, c)) (by simp)).2 hcu

theorem proper_of_orderly {t u : Tree} {p : Path} (h : t.orderly = true) (hu : t.get p = some u) :
    ∀ n ∈ p, Proper n := by
  induction p generalizing t with
  | nil => simp
  | cons m p ih =>
      obtain ⟨es, c, rfl, hc, hcu⟩ := get_cons_some hu
      obtain ⟨l₁, l₂, rfl, -⟩ := List.lookup_eq_some_iff.mp hc
      have hmem := orderly_of_mem h (e := (m, c)) (by simp)
      intro n hn
      rcases List.mem_cons.mp hn with rfl | hn
      · exact hmem.1
      · exact ih hmem.2 hcu n hn

theorem not_symlink_of_orderly {t : Tree} (h : t.orderly = true) (p : Path) (l : List Name) :
    t.get p ≠ some (.symlink l) := by
  intro hl
  have := orderly_of_get h hl
  cases this

end Tree

/-! ## Paths -/

namespace Fs

variable {fs : Fs}

@[simp] theorem root_setRoot (fs : Fs) (p : Path) (t : Option Tree) :
    (fs.setRoot p t).root = fs.root.set p t := rfl

@[simp] theorem data_setRoot (fs : Fs) (p : Path) (t : Option Tree) :
    (fs.setRoot p t).data = fs.data := rfl

@[simp] theorem root_setData (fs : Fs) (i : Nat) (s : CStr) : (fs.setData i s).root = fs.root := rfl

theorem data_setData (fs : Fs) (i j : Nat) (s : CStr) :
    (fs.setData i s).data j = if j = i then s else fs.data j := rfl

/-- The place is a directory. -/
def DirAt (fs : Fs) (p : Path) : Prop := ∃ es, fs.root.get p = some (.dir es)

/-- What is above a directory is one. -/
theorem DirAt.above {p q : Path} (h : fs.DirAt p) (hq : q <+: p) : fs.DirAt q := by
  obtain ⟨r, rfl⟩ := hq
  obtain ⟨es, hes⟩ := h
  by_cases hr : r = []
  · rw [hr, List.append_nil] at hes
    exact ⟨es, hes⟩
  · exact Tree.dir_of_get_append hes hr

/-- A plain path to a directory leads to it. -/
theorem walkNames_dir (next : Path → List Name → Option Path) {cur : Path} {ns : List Name}
    (hns : Plain ns) (h : fs.DirAt (cur ++ clean ns)) :
    fs.walkNames next cur ns = some (cur ++ clean ns) := by
  induction ns generalizing cur with
  | nil => simp [walkNames]
  | cons n ns ih =>
      rw [walkNames]
      rcases hns n (List.mem_cons_self ..) with rfl | hn
      · rw [if_pos (.inl rfl)]
        exact ih hns.tail h
      · rw [if_neg (by simp [hn.1, hn.2.1]), if_neg hn.2.2]
        rw [clean_cons_proper hn, List.append_cons cur n (clean ns)] at h ⊢
        obtain ⟨ds, hds⟩ := h.above (List.prefix_append _ _)
        rw [hds]
        exact ih hns.tail h

/-- A plain path into a directory leads to the entry it names, there or not. -/
theorem walkNames_entry (next : Path → List Name → Option Path) {cur : Path} {ns : List Name}
    {n : Name} (hns : Plain ns) (hn : Proper n) (h : fs.DirAt (cur ++ clean ns))
    (hlink : ∀ l, fs.root.get (cur ++ clean ns ++ [n]) ≠ some (.symlink l)) :
    fs.walkNames next cur (ns ++ [n]) = some (cur ++ clean ns ++ [n]) := by
  induction ns generalizing cur with
  | nil =>
      rw [clean_nil, List.append_nil] at hlink
      rw [List.nil_append, walkNames, if_neg (by simp [hn.1, hn.2.1]), if_neg hn.2.2, clean_nil,
        List.append_nil]
      cases ht : fs.root.get (cur ++ [n]) with
      | none => rfl
      | some t =>
          cases t with
          | dir es => rfl
          | file i => rfl
          | symlink l => exact absurd ht (hlink l)
  | cons m ns ih =>
      rw [List.cons_append, walkNames]
      rcases hns m (List.mem_cons_self ..) with rfl | hm
      · rw [if_pos (.inl rfl)]
        exact ih hns.tail h hlink
      · rw [if_neg (by simp [hm.1, hm.2.1]), if_neg hm.2.2]
        rw [clean_cons_proper hm, List.append_cons cur m (clean ns)] at h hlink ⊢
        obtain ⟨ds, hds⟩ := h.above (List.prefix_append _ _)
        rw [hds]
        exact ih hns.tail h hlink

/-- There is no link on the way to the place. -/
def NoLink (fs : Fs) (p : Path) : Prop := ∀ q, q <+: p → ∀ l, fs.root.get q ≠ some (.symlink l)

/-- A plain path without links leads nowhere else. -/
theorem walkNames_noLink (next : Path → List Name → Option Path) {cur : Path} {ns : List Name}
    {r : Path} (hns : Plain ns) (hlink : fs.NoLink (cur ++ clean ns))
    (h : fs.walkNames next cur ns = some r) : r = cur ++ clean ns := by
  induction ns generalizing cur with
  | nil => simpa [walkNames] using h.symm
  | cons n ns ih =>
      rw [walkNames] at h
      rcases hns n (List.mem_cons_self ..) with rfl | hn
      · rw [if_pos (.inl rfl)] at h
        exact ih hns.tail hlink h
      · rw [if_neg (by simp [hn.1, hn.2.1]), if_neg hn.2.2] at h
        rw [clean_cons_proper hn, List.append_cons cur n (clean ns)] at hlink ⊢
        split at h
        · exact ih hns.tail hlink h
        · rename_i l hl
          exact absurd hl (hlink _ (List.prefix_append _ _) l)
        all_goals
          split at h
          · rename_i hnil
            rw [hnil, clean_nil, List.append_nil]
            exact (Option.some.inj h).symm
          · cases h

theorem walk_dir {ns : List Name} (hns : Plain ns) (h : fs.DirAt (clean ns)) :
    fs.walk ns = some (clean ns) :=
  walkNames_dir _ hns (show fs.DirAt ([] ++ clean ns) from h)

theorem walk_entry {ns : List Name} {n : Name} (hns : Plain ns) (hn : Proper n)
    (h : fs.DirAt (clean ns)) (hlink : ∀ l, fs.root.get (clean ns ++ [n]) ≠ some (.symlink l)) :
    fs.walk (ns ++ [n]) = some (clean ns ++ [n]) :=
  walkNames_entry _ hns hn (show fs.DirAt ([] ++ clean ns) from h) hlink

theorem walk_noLink {ns : List Name} {r : Path} (hns : Plain ns) (hlink : fs.NoLink (clean ns))
    (h : fs.walk ns = some r) : r = clean ns :=
  walkNames_noLink _ hns (show fs.NoLink ([] ++ clean ns) from hlink) h

/-- The entry that a plain path names. -/
theorem entry_proper {ns : List Name} {n : Name} (hns : Plain ns) (hn : Proper n)
    (h : fs.DirAt (clean ns)) : fs.entry (ns ++ [n]) = some (clean ns, n) := by
  have hne : n.isEmpty = false := by simpa using hn.1
  obtain ⟨es, hes⟩ := h
  simp only [entry, List.reverse_append, List.reverse_cons, List.reverse_nil, List.nil_append,
    List.singleton_append, List.dropWhile_cons, hne, Bool.false_eq_true, if_false,
    List.reverse_reverse]
  rw [if_neg (by simp [hn.2.1, hn.2.2]), walk_dir hns ⟨es, hes⟩, Option.bind_some, hes]
  rfl

/-- A `/` at the end names the same entry. -/
theorem entry_append_empty (fs : Fs) (ns : List Name) : fs.entry (ns ++ [[]]) = fs.entry ns := by
  simp [entry]

/-- The entry that a plain path names, wherever its empty components are. -/
theorem entry_plain {ns : List Name} {q : Path} {n : Name} (hns : Plain ns)
    (hq : clean ns = q ++ [n]) (h : fs.DirAt q) : fs.entry ns = some (q, n) := by
  induction ns using List.reverseRecOn with
  | nil => simp at hq
  | append_singleton ns m ih =>
      rcases hns m (by simp) with rfl | hm
      · rw [entry_append_empty]
        exact ih hns.left (by simpa [clean_append] using hq)
      · rw [clean_append, clean_cons_proper hm, clean_nil] at hq
        obtain ⟨hqs, hmn⟩ := List.append_inj' hq rfl
        obtain rfl := (List.cons.inj hmn).1
        rw [← hqs] at h ⊢
        exact entry_proper hns.left hm h

/-- There is no link above a directory. -/
theorem noLink_dir {p : Path} (h : fs.DirAt p) : fs.NoLink p := by
  rintro q ⟨s, rfl⟩ l hl
  obtain ⟨es, hes⟩ := h
  rw [Tree.get_append, hl, Option.bind_some] at hes
  cases s <;> cases hes

theorem noLink_of_orderly (h : fs.root.orderly = true) (p : Path) : fs.NoLink p :=
  fun q _ l => Tree.not_symlink_of_orderly h q l

theorem noLink_entry {p : Path} {n : Name} (h : fs.DirAt p)
    (hn : ∀ l, fs.root.get (p ++ [n]) ≠ some (.symlink l)) : fs.NoLink (p ++ [n]) := by
  intro q hq l hl
  rcases List.prefix_concat_iff.mp hq with rfl | hq
  · exact hn l hl
  · exact noLink_dir h q hq l hl

/-! ## Removing a directory -/

/-- The names in a directory, and in all below it, are names of entries. -/
def Named (fs : Fs) (p : Path) : Prop :=
  ∀ q es, fs.root.get (p ++ q) = some (.dir es) → ∀ e ∈ es, Proper e.1

theorem named_of_orderly (h : fs.root.orderly = true) (p : Path) : fs.Named p := by
  intro q es hes e he
  exact (Tree.orderly_of_mem (Tree.orderly_of_get h hes) he).1

theorem Named.below {p : Path} (h : fs.Named p) (n : Name) : fs.Named (p ++ [n]) := by
  intro q es hes
  rw [← List.append_cons] at hes
  exact h (n :: q) es hes

/-- Removals keep the names. -/
theorem Named.remove {p : Path} (h : fs.Named p) (n : Name) {es : List (Name × Tree)}
    (hes : fs.root.get p = some (.dir es)) : (fs.setRoot (p ++ [n]) none).Named p := by
  intro q ds hds e he
  have hpar := Tree.get_set_parent hes n none
  cases q with
  | nil =>
      rw [List.append_nil] at hds
      have heq := Option.some.inj (hpar.symm.trans hds)
      rw [Tree.dir.injEq] at heq
      rw [← heq] at he
      exact h [] es (by rwa [List.append_nil]) e (List.mem_filter.mp he).1
  | cons m q =>
      by_cases hmn : m = n
      · subst hmn
        rw [List.append_cons p m q] at hds
        have hself := Tree.get_set_self hes m none
        have hnone : (Tree.set (p ++ [m]) none fs.root).get (p ++ [m] ++ q) = none := by
          rw [Tree.get_append, hself]
          rfl
        exact absurd (hnone.symm.trans hds) (Option.some_ne_none _).symm
      · refine h (m :: q) ds ?_ e he
        rw [← hds]
        refine (Tree.get_set_disjoint ?_ ?_ none fs.root).symm
        · rw [List.prefix_append_right_inj, List.cons_prefix_cons]
          exact fun hc => hmn hc.1.symm
        · rw [List.prefix_append_right_inj, List.cons_prefix_cons]
          exact fun hc => hmn hc.1

theorem mem_insertName {n m : Name} {ms : List Name} :
    m ∈ insertName n ms ↔ m = n ∨ m ∈ ms := by
  induction ms with
  | nil => simp [insertName]
  | cons k ms ih =>
      rw [insertName]
      split
      · simp
      · rw [List.mem_cons, ih, List.mem_cons]
        tauto

theorem mem_names {es : List (Name × Tree)} {m : Name} :
    m ∈ es.foldr (fun e => insertName e.1) [] ↔ ∃ e ∈ es, e.1 = m := by
  induction es with
  | nil => simp
  | cons e es ih =>
      rw [List.foldr_cons, mem_insertName, ih]
      simp [eq_comm]

/-- What a removal of entries of a directory leaves. -/
structure Removed (fs : Fs) (p : Path) (es : List (Name × Tree)) (names : List Name) (fs' : Fs) :
    Prop where
  get : fs'.root.get p = some (.dir (es.filter fun e => e.1 ∉ names))
  set : fs'.root.set p none = fs.root.set p none
  data : fs'.data = fs.data
  named : fs'.Named p

/-- One entry of a directory is removed, as a file or as a directory. -/
theorem removed_name {k : Nat} {ns : List Name} {p : Path} {es : List (Name × Tree)} {n : Name}
    (hns : Plain ns) (hp : clean ns = p) (hpne : p ≠ [])
    (hes : fs.root.get p = some (.dir es)) (hnamed : fs.Named p) (hn : Proper n)
    (hdeep : ∀ t, es.lookup n = some t → t.isDir = true →
      removeDeep k fs (ns ++ [[], n]) = fs.setRoot (p ++ [n]) none) :
    ∃ fs', Removed fs p es [n] fs' ∧ ∀ rest removeDir, removeDir = removeDeep k →
      removeNames removeDir ns fs (n :: rest) = removeNames removeDir ns fs' rest := by
  have hset : Removed fs p es [n] (fs.setRoot (p ++ [n]) none) := by
    refine ⟨?_, Tree.set_none_below hpne _ none _, rfl, hnamed.remove n hes⟩
    refine (Tree.get_set_parent hes n none).trans ?_
    simp [setEntry]
  have hentry : fs.entry (ns ++ [[], n]) = some (p, n) := by
    have hplain : Plain (ns ++ [[]]) := hns.append (by decide)
    have hclean : clean (ns ++ [[]]) = p := by rw [clean_append, hp]; simp
    have hdir : fs.DirAt (clean (ns ++ [[]])) := by rw [hclean]; exact ⟨es, hes⟩
    have hproper := entry_proper hplain hn hdir
    rw [hclean, List.append_assoc] at hproper
    exact hproper
  have hlast : (ns ++ [[], n]).getLast? ≠ some [] := by
    rw [List.getLast?_append]
    simpa using hn.1
  have hget := Tree.get_snoc hes n
  cases hl : es.lookup n with
  | none =>
      rw [hl] at hget
      have hnot : ∀ e ∈ es, e.1 ≠ n := by
        intro e he hen
        have := List.lookup_eq_none_iff.mp hl e he
        simp [hen] at this
      refine ⟨fs, ⟨?_, rfl, rfl, hnamed⟩, ?_⟩
      · rw [hes, List.filter_eq_self.mpr]
        intro e he
        simpa using hnot e he
      · rintro rest _ rfl
        have hfind : removeDeep k fs (ns ++ [[], n]) = fs := by
          cases k with
          | zero => rfl
          | succ k =>
              have hwalk : fs.find (ns ++ [[], n] ++ [[]]) = none := by
                have hplain : Plain (ns ++ [[], n] ++ [[]]) := by
                  refine (hns.append ?_).append (by decide)
                  intro m hm
                  rcases List.mem_cons.mp hm with rfl | hm
                  · exact .inl rfl
                  · exact .inr (List.mem_singleton.mp hm ▸ hn)
                have hcl : clean (ns ++ [[], n] ++ [[]]) = p ++ [n] := by
                  rw [clean_append, clean_append, hp, clean_cons_empty, clean_cons_proper hn]
                  simp
                rw [find]
                cases hw : fs.walk (ns ++ [[], n] ++ [[]]) with
                | none => rfl
                | some r =>
                    have hnolink : fs.NoLink (p ++ [n]) :=
                      noLink_entry ⟨es, hes⟩ fun l => by rw [hget]; simp
                    have hr := walk_noLink hplain (by rw [hcl]; exact hnolink) hw
                    rw [hr, hcl, Option.bind_some, hget]
              simp only [removeDeep, scandir, hwalk]
        simp only [removeNames, remove, hentry, hget, hfind]
  | some t =>
      rw [hl] at hget
      refine ⟨fs.setRoot (p ++ [n]) none, hset, ?_⟩
      rintro rest _ rfl
      cases t with
      | file i => simp only [removeNames, remove, hentry, hget, if_neg hlast]
      | symlink l => simp only [removeNames, remove, hentry, hget, if_neg hlast]
      | dir ds =>
          cases ds with
          | nil => simp only [removeNames, remove, hentry, hget]
          | cons d ds => simp only [removeNames, remove, hentry, hget, hdeep _ hl rfl]

theorem Removed.trans {p : Path} {es : List (Name × Tree)} {n : Name} {names : List Name}
    {a b c : Fs} (h : Removed a p es [n] b)
    (h' : Removed b p (es.filter fun e => e.1 ∉ [n]) names c) : Removed a p es (n :: names) c where
  get := by
    rw [h'.get, List.filter_filter]
    congr 3
    funext e
    simp [Bool.and_comm]
  set := h'.set.trans h.set
  data := h'.data.trans h.data
  named := h'.named

theorem depths_filter (f : Name × Tree → Bool) (es : List (Name × Tree)) :
    Tree.depths (es.filter f) ≤ Tree.depths es := by
  induction es with
  | nil => exact le_refl _
  | cons e es ih =>
      obtain ⟨n, t⟩ := e
      rw [List.filter_cons]
      split
      · exact Nat.max_le.mpr ⟨le_max_left _ _, ih.trans (le_max_right _ _)⟩
      · exact ih.trans (le_max_right _ _)

/-- The loop over the names of a directory, where each directory in it can be
removed. -/
theorem removed_names {k : Nat} {ns : List Name} {p : Path} (hns : Plain ns) (hp : clean ns = p)
    (hpne : p ≠ [])
    (hdeep : ∀ (fs : Fs) (n : Name) (ds : List (Name × Tree)), Proper n →
      fs.root.get (p ++ [n]) = some (.dir ds) → fs.Named (p ++ [n]) → Tree.depths ds + 1 ≤ k →
      removeDeep k fs (ns ++ [[], n]) = fs.setRoot (p ++ [n]) none) :
    ∀ (names : List Name) (fs : Fs) (es : List (Name × Tree)), (∀ n ∈ names, Proper n) →
      fs.root.get p = some (.dir es) → fs.Named p → Tree.depths es ≤ k →
      Removed fs p es names (removeNames (removeDeep k) ns fs names) := by
  intro names
  induction names with
  | nil =>
      intro fs es _ hes hnamed _
      exact ⟨by simpa [removeNames] using hes, rfl, rfl, hnamed⟩
  | cons n names ih =>
      intro fs es hprop hes hnamed hdepth
      have hn := hprop n (List.mem_cons_self ..)
      obtain ⟨fs', hfs', hstep⟩ := removed_name hns hp hpne hes hnamed hn (k := k) (by
        intro t hl hdir
        cases t with
        | dir ds =>
            refine hdeep fs n ds hn ((Tree.get_snoc hes n).trans hl) (hnamed.below n) ?_
            exact (Tree.depth_of_lookup hl).trans hdepth
        | file i => cases hdir
        | symlink l => cases hdir)
      rw [hstep names _ rfl]
      refine hfs'.trans (ih fs' _ (fun m hm => hprop m (List.mem_cons_of_mem _ hm)) hfs'.get
        hfs'.named ?_)
      exact (depths_filter _ es).trans hdepth

/-- `remove_in` of a directory takes it away, with all that is in it. -/
theorem removeDeep_plain {k : Nat} {fs : Fs} {ns : List Name} {p : Path}
    {es : List (Name × Tree)} (hns : Plain ns) (hp : clean ns = p) (hpne : p ≠ [])
    (hes : fs.root.get p = some (.dir es)) (hnamed : fs.Named p) (hdepth : Tree.depths es + 1 ≤ k) :
    removeDeep k fs ns = fs.setRoot p none := by
  induction k generalizing fs ns p es with
  | zero => omega
  | succ k ih =>
      have hplain : Plain (ns ++ [[]]) := hns.append (by decide)
      have hclean : clean (ns ++ [[]]) = p := by rw [clean_append, hp]; simp
      have hwalk : fs.walk (ns ++ [[]]) = some p := by
        have hdir : fs.DirAt (clean (ns ++ [[]])) := by rw [hclean]; exact ⟨es, hes⟩
        rw [walk_dir hplain hdir, hclean]
      have hscan : fs.scandir (ns ++ [[]]) = some (es.foldr (fun e => insertName e.1) []) := by
        simp [scandir, find, hwalk, hes]
      have hproper : ∀ n ∈ (es.foldr (fun e => insertName e.1) []).reverse, Proper n := by
        intro n hn
        obtain ⟨e, he, rfl⟩ := mem_names.mp (List.mem_reverse.mp hn)
        exact hnamed [] es (by rwa [List.append_nil]) e he
      have hloop := removed_names (k := k) hns hp hpne (by
        intro fs n ds hn hds hnamed' hd
        refine ih (hns.append ?_) ?_ (by simp) hds hnamed' hd
        · intro m hm
          rcases List.mem_cons.mp hm with rfl | hm
          · exact .inl rfl
          · exact .inr (List.mem_singleton.mp hm ▸ hn)
        · rw [clean_append, hp, clean_cons_empty, clean_cons_proper hn, clean_nil])
        _ fs es hproper hes hnamed (by omega)
      -- the directory is empty now
      have hempty : es.filter (fun e => e.1 ∉ (es.foldr (fun e => insertName e.1) []).reverse) = [] := by
        rw [List.filter_eq_nil_iff]
        intro e he
        simpa using mem_names.mpr ⟨e, he, rfl⟩
      have hget := hloop.get
      rw [hempty] at hget
      obtain ⟨q, n, hqn⟩ := List.eq_nil_or_concat' p |>.resolve_left hpne
      have hdirq : DirAt (removeNames (removeDeep k) ns fs
          (es.foldr (fun e => insertName e.1) []).reverse) q := by
        rw [hqn] at hget
        obtain ⟨ds, hds, -⟩ := Tree.dir_of_get_snoc hget
        exact ⟨ds, hds⟩
      have hentry := entry_plain hplain (hclean.trans hqn) hdirq
      rw [hqn] at hget
      simp only [removeDeep, hscan, remove, hentry, hget, Option.getD_some]
      rw [← hqn, setRoot, setRoot, hloop.set, hloop.data]

/-- **A directory is removed** by `remove_in` with all that is in it. -/
theorem removeIn_plain {fs : Fs} {ns : List Name} {p : Path} (hns : Plain ns) (hp : clean ns = p)
    (hpne : p ≠ []) (h : fs.DirAt p) (hnamed : fs.Named p) :
    fs.removeIn ns = fs.setRoot p none := by
  obtain ⟨es, hes⟩ := h
  exact removeDeep_plain hns hp hpne hes hnamed
    ((Tree.depth_get hes).trans (Nat.le_succ _))

/-- What is no directory is not removed. -/
theorem removeIn_absent {fs : Fs} {ns : List Name} (hns : Plain ns) (hlink : fs.NoLink (clean ns))
    (h : ¬ fs.DirAt (clean ns)) : fs.removeIn ns = fs := by
  have hplain : Plain (ns ++ [[]]) := hns.append (by decide)
  have hclean : clean (ns ++ [[]]) = clean ns := by rw [clean_append]; simp
  have hscan : fs.scandir (ns ++ [[]]) = none := by
    unfold scandir
    split
    · rename_i es hfind
      obtain ⟨r, hr, hes⟩ := Option.bind_eq_some_iff.mp hfind
      rw [walk_noLink hplain (by rwa [hclean]) hr, hclean] at hes
      exact absurd ⟨es, hes⟩ h
    · rfl
  simp only [removeIn, removeDeep, hscan]

/-- `remove_in` of a place that is a directory or not there. -/
theorem removeIn_eq {fs : Fs} {ns : List Name} {p : Path} (hns : Plain ns) (hp : clean ns = p)
    (hpne : p ≠ []) (hlink : fs.NoLink p) (h : fs.root.get p = none ∨ fs.DirAt p)
    (hnamed : fs.Named p) : fs.removeIn ns = fs.setRoot p none := by
  rcases h with h | h
  · have hdir : ¬ fs.DirAt (clean ns) := by
      rintro ⟨es, hes⟩
      rw [hp, h] at hes
      cases hes
    rw [removeIn_absent hns (by rwa [hp]) hdir, setRoot, Tree.set_none_absent hpne h]
  · exact removeIn_plain hns hp hpne h hnamed

/-! ## The other calls -/

/-- What a plain path without links leads to. -/
theorem find_plain {ns : List Name} {t : Tree} (hns : Plain ns) (hlink : fs.NoLink (clean ns))
    (h : fs.find ns = some t) : fs.root.get (clean ns) = some t := by
  obtain ⟨r, hr, h⟩ := Option.bind_eq_some_iff.mp h
  rwa [walk_noLink hns hlink hr] at h

theorem find_dir {ns : List Name} {es : List (Name × Tree)} (hns : Plain ns)
    (h : fs.root.get (clean ns) = some (.dir es)) : fs.find ns = some (.dir es) := by
  rw [find, walk_dir hns ⟨es, h⟩, Option.bind_some, h]

theorem find_entry {ns : List Name} {n : Name} (hns : Plain ns) (hn : Proper n)
    (h : fs.DirAt (clean ns)) (hlink : ∀ l, fs.root.get (clean ns ++ [n]) ≠ some (.symlink l)) :
    fs.find (ns ++ [n]) = fs.root.get (clean ns ++ [n]) := by
  rw [find, walk_entry hns hn h hlink, Option.bind_some]

/-- `mkdir` of a directory that is there. -/
theorem mkdir_there {ns : List Name} (hns : Plain ns) (h : fs.DirAt (clean ns)) :
    fs.mkdir ns = some fs := by
  obtain ⟨es, hes⟩ := h
  rw [mkdir, if_pos (by rw [stat, find_dir hns hes]; rfl)]

/-- `mkdir` of a directory that is not. -/
theorem mkdir_new {ns : List Name} {n : Name} (hns : Plain ns) (hn : Proper n)
    (h : fs.DirAt (clean ns)) (hnone : fs.root.get (clean ns ++ [n]) = none) :
    fs.mkdir (ns ++ [n]) = some (fs.setRoot (clean ns ++ [n]) (some (.dir []))) := by
  have hfind := find_entry hns hn h (by simp [hnone])
  rw [mkdir, stat, hfind, hnone, entry_proper hns hn h]
  simp [hnone]

/-- `open` of a file that is not there. -/
theorem openCreate_new {ns : List Name} {n : Name} (hns : Plain ns) (hn : Proper n)
    (h : fs.DirAt (clean ns)) (hnone : fs.root.get (clean ns ++ [n]) = none) (trunc : Bool) :
    fs.openCreate (ns ++ [n]) trunc = some (fs.root.fresh,
      (fs.setRoot (clean ns ++ [n]) (some (.file fs.root.fresh))).setData fs.root.fresh []) := by
  rw [openCreate, walk_entry hns hn h (by simp [hnone])]
  simp [hnone]

/-- `open` of a file that is there. -/
theorem openCreate_there {ns : List Name} {n : Name} {i : Nat} (hns : Plain ns) (hn : Proper n)
    (h : fs.DirAt (clean ns)) (hfile : fs.root.get (clean ns ++ [n]) = some (.file i))
    (trunc : Bool) :
    fs.openCreate (ns ++ [n]) trunc = some (i, if trunc then fs.setData i [] else fs) := by
  rw [openCreate, walk_entry hns hn h (by simp [hfile])]
  simp [hfile]

theorem readFile_entry {ns : List Name} {n : Name} {i : Nat} (hns : Plain ns) (hn : Proper n)
    (hfile : fs.root.get (clean ns ++ [n]) = some (.file i)) :
    fs.readFile (ns ++ [n]) = some (fs.data i) := by
  obtain ⟨es, hes, -⟩ := Tree.dir_of_get_snoc hfile
  rw [readFile, find_entry hns hn ⟨es, hes⟩ (by simp [hfile]), hfile]

end Fs

end Pantavisor.Lib
