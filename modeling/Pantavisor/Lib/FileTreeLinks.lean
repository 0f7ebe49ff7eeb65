/-
Pantavisor.Lib.FileTreeLinks — the links of a file, and what a place holds.

`Tree.links` counts the names of an inode. Two places of one inode are two links
(`two_le_links`), and in a tree whose directories have each name once an inode
with a single place has one link (`links_le_one`).

`Fs.node` is what is at a place apart from what is below it, so that a removal
is one equation for every place of the tree (`node_setNone`).
-/
import Pantavisor.Lib.FileTreeTheorems

namespace Pantavisor.Lib

namespace Tree

/-! ## Directories that have each name once -/

mutual

/-- Each directory of the tree has each of its names once. -/
def keyed : Tree → Bool
  | file _ => true
  | symlink _ => true
  | dir es => keyeds es

def keyeds : List (Name × Tree) → Bool
  | [] => true
  | (n, t) :: es => t.keyed && (es.lookup n).isNone && keyeds es

end

theorem keyeds_cons {n : Name} {t : Tree} {es : List (Name × Tree)} :
    keyeds ((n, t) :: es) = true ↔ t.keyed = true ∧ es.lookup n = none ∧ keyeds es = true := by
  rw [keyeds, Bool.and_eq_true, Bool.and_eq_true, Option.isNone_iff_eq_none, and_assoc]

theorem keyed_of_lookup {es : List (Name × Tree)} (h : keyeds es = true) {n : Name} {t : Tree}
    (ht : es.lookup n = some t) : t.keyed = true := by
  induction es with
  | nil => cases ht
  | cons e es ih =>
      obtain ⟨m, u⟩ := e
      obtain ⟨hu, -, hes⟩ := keyeds_cons.mp h
      by_cases hm : m = n
      · rw [hm, lookup_cons_self] at ht
        exact Option.some.inj ht ▸ hu
      · rw [lookup_cons_ne (Ne.symm hm)] at ht
        exact ih hes ht

/-- Setting an entry keeps the names apart. -/
theorem keyeds_putEntry {es : List (Name × Tree)} (h : keyeds es = true) (n : Name) {t : Tree}
    (ht : t.keyed = true) : keyeds (putEntry es n t) = true := by
  induction es with
  | nil => exact keyeds_cons.mpr ⟨ht, rfl, rfl⟩
  | cons e es ih =>
      obtain ⟨m, u⟩ := e
      obtain ⟨hu, hm, hes⟩ := keyeds_cons.mp h
      rw [putEntry]
      split
      · rename_i hmn
        exact keyeds_cons.mpr ⟨ht, hmn ▸ hm, hes⟩
      · rename_i hmn
        refine keyeds_cons.mpr ⟨hu, ?_, ih hes⟩
        rw [lookup_putEntry, if_neg hmn, hm]

theorem keyeds_filter {es : List (Name × Tree)} (h : keyeds es = true) (n : Name) :
    keyeds (es.filter (·.1 ≠ n)) = true := by
  induction es with
  | nil => rfl
  | cons e es ih =>
      obtain ⟨m, u⟩ := e
      obtain ⟨hu, hm, hes⟩ := keyeds_cons.mp h
      by_cases hmn : m = n
      · rw [List.filter_cons_of_neg (by simpa using hmn)]
        exact ih hes
      · rw [List.filter_cons_of_pos (by simpa using hmn)]
        refine keyeds_cons.mpr ⟨hu, ?_, ih hes⟩
        rw [lookup_filter_name, if_neg hmn, hm]

theorem keyed_set {t : Tree} (h : t.keyed = true) (p : Path) {u : Option Tree}
    (hu : ∀ c ∈ u, c.keyed = true) : (set p u t).keyed = true := by
  induction p generalizing t with
  | nil =>
      cases u with
      | none => exact h
      | some c => exact hu c rfl
  | cons n p ih =>
      cases t with
      | file i => rwa [set_of_not_dir (List.cons_ne_nil n p) u (by simp)]
      | symlink l => rwa [set_of_not_dir (List.cons_ne_nil n p) u (by simp)]
      | dir es =>
          by_cases hp : p = []
          · subst hp
            change keyeds (setEntry es n u) = true
            cases u with
            | none => exact keyeds_filter h n
            | some c => exact keyeds_putEntry h n (hu c rfl)
          · rw [set_cons hp]
            split
            · rename_i c hc
              exact keyeds_putEntry h n (ih (keyed_of_lookup h hc))
            · exact h

/-! ## Links -/

theorem links_of_lookup {es : List (Name × Tree)} {n : Name} {t : Tree}
    (h : es.lookup n = some t) (i : Nat) : t.links i ≤ linkss i es := by
  induction es with
  | nil => cases h
  | cons e es ih =>
      obtain ⟨m, u⟩ := e
      rw [linkss]
      by_cases hm : m = n
      · rw [hm, lookup_cons_self] at h
        rw [Option.some.inj h]
        exact Nat.le_add_right _ _
      · rw [lookup_cons_ne (Ne.symm hm)] at h
        exact (ih h).trans (Nat.le_add_left _ _)

theorem links_of_lookups {es : List (Name × Tree)} {n m : Name} {t u : Tree} (hne : n ≠ m)
    (ht : es.lookup n = some t) (hu : es.lookup m = some u) (i : Nat) :
    t.links i + u.links i ≤ linkss i es := by
  induction es with
  | nil => cases ht
  | cons e es ih =>
      obtain ⟨k, v⟩ := e
      rw [linkss]
      by_cases hk : k = n
      · subst hk
        rw [lookup_cons_self] at ht
        rw [lookup_cons_ne (Ne.symm hne)] at hu
        rw [Option.some.inj ht]
        exact Nat.add_le_add_left (links_of_lookup hu i) _
      · rw [lookup_cons_ne (Ne.symm hk)] at ht
        by_cases hk' : k = m
        · subst hk'
          rw [lookup_cons_self] at hu
          rw [Option.some.inj hu, Nat.add_comm]
          exact Nat.add_le_add_left (links_of_lookup ht i) _
        · rw [lookup_cons_ne (Ne.symm hk')] at hu
          exact (ih ht hu).trans (Nat.le_add_left _ _)

theorem one_le_links {t : Tree} {p : Path} {i : Nat} (h : t.get p = some (file i)) :
    1 ≤ t.links i := by
  induction p generalizing t with
  | nil =>
      obtain rfl := Option.some.inj h
      simp [links]
  | cons n p ih =>
      obtain ⟨es, c, rfl, hc, hp⟩ := get_cons_some h
      exact (ih hp).trans (links_of_lookup hc i)

/-- **Two places** of one inode are two links. -/
theorem two_le_links {t : Tree} {p q : Path} {i : Nat} (hp : t.get p = some (file i))
    (hq : t.get q = some (file i)) (hne : p ≠ q) : 2 ≤ t.links i := by
  induction p generalizing t q with
  | nil =>
      obtain rfl := Option.some.inj hp
      cases q with
      | nil => exact absurd rfl hne
      | cons m q =>
          obtain ⟨es, c, hes, -, -⟩ := get_cons_some hq
          cases hes
  | cons n p ih =>
      obtain ⟨es, c, rfl, hc, hcp⟩ := get_cons_some hp
      cases q with
      | nil => cases hq
      | cons m q =>
          obtain ⟨ds, d, hds, hd, hdq⟩ := get_cons_some hq
          obtain rfl := dir.inj hds
          by_cases hnm : n = m
          · subst hnm
            obtain rfl := Option.some.inj (hc.symm.trans hd)
            have hpq : p ≠ q := fun h => hne (by rw [h])
            exact (ih hcp hdq hpq).trans (links_of_lookup hc i)
          · have hsum := links_of_lookups hnm hc hd i
            have hone := one_le_links hcp
            have hone' := one_le_links hdq
            exact (Nat.add_le_add hone hone').trans hsum

mutual

/-- An inode with a link has a place. -/
theorem get_of_links {i : Nat} : ∀ {t : Tree}, t.keyed = true → 1 ≤ t.links i →
    ∃ p, t.get p = some (file i)
  | file j, _, h => by
      by_cases hj : j = i
      · exact ⟨[], by rw [hj]; rfl⟩
      · simp [links, hj] at h
  | symlink l, _, h => by simp [links] at h
  | dir es, hkeyed, h => by
      obtain ⟨n, c, p, hc, hp⟩ := lookup_of_linkss hkeyed h
      exact ⟨n :: p, by rw [get_cons, child_dir, hc]; exact hp⟩

theorem lookup_of_linkss {i : Nat} : ∀ {es : List (Name × Tree)}, keyeds es = true →
    1 ≤ linkss i es → ∃ n c p, es.lookup n = some c ∧ c.get p = some (file i)
  | [], _, h => by simp [linkss] at h
  | (n, t) :: es, hkeyed, h => by
      obtain ⟨ht, hn, hes⟩ := keyeds_cons.mp hkeyed
      by_cases hone : 1 ≤ t.links i
      · obtain ⟨p, hp⟩ := get_of_links ht hone
        exact ⟨n, t, p, lookup_cons_self n t es, hp⟩
      · have hrest : 1 ≤ linkss i es := by
          rw [linkss] at h
          omega
        obtain ⟨m, c, p, hc, hp⟩ := lookup_of_linkss hes hrest
        refine ⟨m, c, p, ?_, hp⟩
        rw [lookup_cons_ne, hc]
        rintro rfl
        rw [hn] at hc
        cases hc

end

mutual

/-- **A single place** of an inode is one link, where names are apart. -/
theorem links_le_one {i : Nat} : ∀ {t : Tree}, t.keyed = true →
    (∀ p q, t.get p = some (file i) → t.get q = some (file i) → p = q) → t.links i ≤ 1
  | file j, _, _ => by
      rw [links]
      split <;> omega
  | symlink l, _, _ => by simp [links]
  | dir es, hkeyed, h => by
      rw [links]
      refine linkss_le_one hkeyed fun n m c d p q hc hd hp hq => ?_
      have hplace := h (n :: p) (m :: q) (by rw [get_cons, child_dir, hc]; exact hp)
        (by rw [get_cons, child_dir, hd]; exact hq)
      exact List.cons.inj hplace

theorem linkss_le_one {i : Nat} : ∀ {es : List (Name × Tree)}, keyeds es = true →
    (∀ n m c d p q, es.lookup n = some c → es.lookup m = some d → c.get p = some (file i) →
      d.get q = some (file i) → n = m ∧ p = q) → linkss i es ≤ 1
  | [], _, _ => by simp [linkss]
  | (n, t) :: es, hkeyed, h => by
      obtain ⟨ht, hn, hes⟩ := keyeds_cons.mp hkeyed
      have hbehind : ∀ {m c}, es.lookup m = some c → ((n, t) :: es).lookup m = some c := by
        intro m c hc
        rw [lookup_cons_ne, hc]
        rintro rfl
        rw [hn] at hc
        cases hc
      have hself := lookup_cons_self n t es
      have hfirst : t.links i ≤ 1 :=
        links_le_one ht fun p q hp hq => (h n n t t p q hself hself hp hq).2
      have hrest : linkss i es ≤ 1 := linkss_le_one hes fun m k c d p q hc hd hp hq =>
        h m k c d p q (hbehind hc) (hbehind hd) hp hq
      rw [linkss]
      by_contra htwo
      -- both have one: a place below `n`, and one below another name
      obtain ⟨p, hp⟩ := get_of_links ht (i := i) (by omega)
      obtain ⟨m, c, q, hc, hq⟩ := lookup_of_linkss hes (i := i) (by omega)
      obtain ⟨rfl, -⟩ := h n m t c p q hself (hbehind hc) hp hq
      rw [hn] at hc
      cases hc

end

/-- The link count tells whether an inode has another place. -/
theorem links_le_one_iff {t : Tree} (h : t.keyed = true) {p : Path} {i : Nat}
    (hp : t.get p = some (file i)) :
    t.links i ≤ 1 ↔ ∀ q, t.get q = some (file i) → q = p := by
  constructor
  · intro hone q hq
    by_contra hne
    have htwo := two_le_links hq hp hne
    omega
  · intro hsole
    exact links_le_one h fun q r hq hr => (hsole q hq).trans (hsole r hr).symm

end Tree

/-! ## Places -/

/-- What is at a place, apart from what is below it. -/
inductive Node where
  | file (inode : Nat)
  | symlink (target : List Name)
  | dir
  deriving DecidableEq, Repr

def Tree.node : Tree → Node
  | .file i => .file i
  | .symlink l => .symlink l
  | .dir _ => .dir

mutual

/-- Every place of the tree, with what is there. -/
def Tree.places : Tree → List (Path × Node)
  | .file i => [([], .file i)]
  | .symlink l => [([], .symlink l)]
  | .dir es => ([], .dir) :: placesIn es

def Tree.placesIn : List (Name × Tree) → List (Path × Node)
  | [] => []
  | (n, t) :: es => t.places.map (fun e => (n :: e.1, e.2)) ++ placesIn es

end

theorem Tree.mem_places {t u : Tree} {p : Path} (h : t.get p = some u) : (p, u.node) ∈ t.places := by
  induction p generalizing t with
  | nil =>
      rw [← Option.some.inj h]
      cases t <;> simp [places, node]
  | cons n p ih =>
      obtain ⟨es, c, rfl, hc, hp⟩ := get_cons_some h
      rw [places]
      refine List.mem_cons_of_mem _ ?_
      have hin := ih hp
      clear h hp ih
      induction es with
      | nil => cases hc
      | cons e es ih =>
          obtain ⟨m, v⟩ := e
          rw [placesIn]
          by_cases hm : n = m
          · subst hm
            rw [lookup_cons_self] at hc
            rw [Option.some.inj hc]
            exact List.mem_append_left _ (List.mem_map_of_mem (f := fun e => (n :: e.1, e.2)) hin)
          · rw [lookup_cons_ne hm] at hc
            exact List.mem_append_right _ (ih hc)

namespace Fs

variable {fs : Fs} {p q : Path}

def node (fs : Fs) (p : Path) : Option Node := (fs.root.get p).map Tree.node

theorem mem_places {n : Node} (h : fs.node p = some n) : (p, n) ∈ fs.root.places := by
  obtain ⟨t, ht, rfl⟩ := Option.map_eq_some_iff.mp h
  exact Tree.mem_places ht

theorem node_eq_none : fs.node p = none ↔ fs.root.get p = none := by
  rw [node, Option.map_eq_none_iff]

theorem node_eq_file {i : Nat} : fs.node p = some (.file i) ↔ fs.root.get p = some (.file i) := by
  rw [node]
  cases fs.root.get p with
  | none => simp
  | some t => cases t <;> simp [Tree.node]

theorem node_eq_symlink {l : List Name} :
    fs.node p = some (.symlink l) ↔ fs.root.get p = some (.symlink l) := by
  rw [node]
  cases fs.root.get p with
  | none => simp
  | some t => cases t <;> simp [Tree.node]

theorem node_eq_dir : fs.node p = some .dir ↔ fs.DirAt p := by
  rw [node, DirAt]
  cases fs.root.get p with
  | none => simp
  | some t => cases t <;> simp [Tree.node]

/-- **A removal** is one of all that is at the place and below it. -/
theorem node_setNone (hp : p ≠ []) (fs : Fs) (q : Path) :
    (fs.setRoot p none).node q = if p <+: q then none else fs.node q := by
  split
  · rename_i hpq
    obtain ⟨r, rfl⟩ := hpq
    rw [node_eq_none, setRoot, Tree.get_append, Tree.get_set_none hp]
    rfl
  · rename_i hpq
    by_cases hqp : q <+: p
    · obtain ⟨r, rfl⟩ := hqp
      have hr : r ≠ [] := by
        rintro rfl
        rw [List.append_nil] at hpq
        exact hpq (List.prefix_refl q)
      cases hq : fs.root.get q with
      | none =>
          have habsent : fs.root.get (q ++ r) = none := by rw [Tree.get_append, hq]; rfl
          rw [setRoot, Tree.set_none_absent hp habsent]
      | some t =>
          cases t with
          | dir es =>
              obtain ⟨ds, hds, -⟩ := Tree.get_set_above hr hq none
              rw [node_eq_dir.mpr ⟨ds, hds⟩, node_eq_dir.mpr ⟨es, hq⟩]
          | file i => rw [setRoot, Tree.set_below_leaf hr rfl hq]
          | symlink l => rw [setRoot, Tree.set_below_leaf hr rfl hq]
    · rw [node, setRoot, Tree.get_set_disjoint hpq hqp, node]

end Fs

end Pantavisor.Lib
