/-
Pantavisor.Storage.Collect — the garbage collection (`pv_storage_gc_run` in
`storage.c`, and what it calls there and in `objects.c`).

A collection removes the revisions that it finds in `trails` and `trails/locals`,
but for those that the device still needs, and then the objects of the pool that
have no other link. What it takes is said by `Taken` without the order of its
loops: a revision takes its logs and its disks with it, and an object goes if all
its other links are in revisions that go (`pvStorageGcRun_taken`).
-/
import Pantavisor.Lib.FileTreeKept
import Pantavisor.State.State
import Pantavisor.Storage.Checksum
import Pantavisor.Storage.Storage

namespace Pantavisor.Storage

open Pantavisor.Lib Pantavisor.Lib.Fs Pantavisor.State

/-! ## The code -/

/-- `pv_storage_get_subdir`: the names of a directory, with the two that every
directory has, in the order of the list. -/
def pvStorageGetSubdir (fs : Fs) (path : List Name) (pre : CStr) : List CStr :=
  match fs.scandir (path ++ components pre) with
  | none => []
  | some names => (insertName dot (insertName dotdot names)).map (pre ++ ·)

/-- `pv_storage_get_revisions` -/
def pvStorageGetRevisions (fs : Fs) : List CStr :=
  pvStorageGetSubdir fs [str "trails"] [] ++ pvStorageGetSubdir fs [str "trails"] (str "locals/")

/-- What a collection looks at besides the storage: `pv->state`, the pending state
of `pv->update`, `pv_bootloader_get_done` and `storage.gc.keep_factory`. -/
structure GcInput where
  state : Option PvState
  pending : Option PvState
  done : CStr
  keepFactory : Bool
  deriving DecidableEq, Repr

/-- The names that `pv_storage_gc_run` goes past. -/
def GcInput.keeps (g : GcInput) (r : CStr) : Bool :=
  r = str ".." || r = str "." || r = str "current" || r = str "locals" || r = str "locals/.." ||
    r = str "locals/." || g.state.any (r = ·.rev) || g.pending.any (r = ·.rev) || r = g.done ||
    (g.keepFactory && r = str "0")

/-- `pv_objects_id_in_step` -/
def pvObjectsIdInStep (s : Option PvState) (id : CStr) : Bool :=
  s.any fun s => s.objects.any (·.id = id)

/-- `reclaimed += st.st_size`, where `reclaimed` is an `int`. -/
def addReclaimed (reclaimed : Int) (size : Nat) : Int := Int.bmod (reclaimed + size) (2 ^ 32)

/-- The loop of `pv_storage_gc_objects`. A directory has more than one link. -/
def gcObjectsLoop (pending : Option PvState) : List CStr → Int × Fs → Int × Fs
  | [], acc => acc
  | name :: names, (reclaimed, fs) =>
    if name = str ".." ∨ name = str "." then gcObjectsLoop pending names (reclaimed, fs)
    else
      match fs.find (objectPath name) with
      | some (.file i) =>
        if 1 < fs.root.links i then gcObjectsLoop pending names (reclaimed, fs)
        -- do not remove objects belonging to an ongoing update
        else if pvObjectsIdInStep pending name then gcObjectsLoop pending names (reclaimed, fs)
        else
          gcObjectsLoop pending names (addReclaimed reclaimed (fs.data i).length,
            (fs.remove (objectPath name)).getD fs)
      | _ => gcObjectsLoop pending names (reclaimed, fs)

/-- `pv_storage_gc_objects` -/
def pvStorageGcObjects (pending : Option PvState) (fs : Fs) : Int × Fs :=
  gcObjectsLoop pending (pvStorageGetSubdir fs [str "objects"] []) (0, fs)

/-- The loop of `pv_storage_gc_run`. -/
def gcRevisionsLoop (g : GcInput) : List CStr → Fs → Fs
  | [], fs => fs
  | r :: revisions, fs =>
    -- dont reclaim current, locals, update, last booted up revisions or factory if configured
    if g.keeps r then gcRevisionsLoop g revisions fs
    else gcRevisionsLoop g revisions (pvStorageRmRev fs r)

/-- `pv_storage_gc_run` -/
def pvStorageGcRun (g : GcInput) (fs : Fs) : Int × Fs :=
  pvStorageGcObjects g.pending (gcRevisionsLoop g (pvStorageGetRevisions fs) fs)

/-! ## What a collection takes -/

/-- A revision, with where its directories are below `trails`, `logs` and
`disks/rev`. -/
inductive RevAt : CStr → Path → Prop where
  | remote (n : Name) : Entry n → RevAt n [n]
  | local (n : Name) : Entry n → RevAt (str "locals/" ++ n) [str "locals", n]

/-- The places of a revision. -/
def revPlaces (ns : Path) : List Path :=
  [str "trails" :: ns, str "logs" :: ns, str "disks" :: str "rev" :: ns]

/-- A revision that is there, and that a collection does not go past. -/
structure Stale (g : GcInput) (fs : Fs) (r : CStr) (ns : Path) : Prop where
  place : RevAt r ns
  there : fs.node (str "trails" :: ns) ≠ none
  dropped : g.keeps r = false

/-- A place in a directory of a stale revision. -/
def InStale (g : GcInput) (fs : Fs) (q : Path) : Prop :=
  ∃ r ns, Stale g fs r ns ∧ ∃ p ∈ revPlaces ns, fs.node p = some .dir ∧ p <+: q

/-- An object of the pool that is not in the pending step, and that has no link but
in stale revisions. -/
structure Unused (g : GcInput) (fs : Fs) (id : Name) (i : Nat) : Prop where
  file : fs.node [str "objects", id] = some (.file i)
  pending : pvObjectsIdInStep g.pending id = false
  sole : ∀ q, fs.node q = some (.file i) → q = [str "objects", id] ∨ InStale g fs q

/-- A place that a collection takes. -/
def Taken (g : GcInput) (fs : Fs) (q : Path) : Prop :=
  InStale g fs q ∨ ∃ id i, q = [str "objects", id] ∧ Unused g fs id i

/-- The places that the paths of a collection lead through. -/
def gcWay (q : Path) : Prop :=
  (∃ ns, ns.length ≤ 2 ∧ ns.head? ≠ some (str "current") ∧ ∃ p ∈ revPlaces ns, q <+: p) ∨
    ∃ id, q <+: [str "objects", id]

variable {g : GcInput} {fs fs' : Fs}

/-! ## Listings -/

/-- The names that `scandir` finds are those of the directory. -/
theorem mem_scandir {ns : List Name} (hns : Plain ns) (hlink : fs.NoLink (clean ns)) {n : Name} :
    (∃ names, fs.scandir ns = some names ∧ n ∈ names) ↔ fs.node (clean ns ++ [n]) ≠ none := by
  constructor
  · rintro ⟨names, hscan, hn⟩
    unfold scandir at hscan
    split at hscan
    · rename_i es hfind
      rw [← Option.some.inj hscan] at hn
      obtain ⟨e, he, rfl⟩ := mem_names.mp hn
      rw [Ne, node_eq_none, Tree.get_snoc (find_plain hns hlink hfind), ← Ne,
        ← Option.isSome_iff_ne_none, List.lookup_isSome_iff]
      exact ⟨e, he, by simp⟩
    · cases hscan
  · intro hthere
    obtain ⟨t, ht⟩ := Option.ne_none_iff_exists'.mp (node_eq_none.not.mp hthere)
    obtain ⟨es, hes, hlookup⟩ := Tree.dir_of_get_snoc ht
    refine ⟨es.foldr (fun e => insertName e.1) [], ?_, mem_names.mpr ?_⟩
    · rw [scandir, find_dir hns hes]
    · obtain ⟨e, he, hen⟩ := List.lookup_isSome_iff.mp (Option.isSome_iff_exists.mpr ⟨t, hlookup⟩)
      exact ⟨e, he, (beq_iff_eq.mp hen).symm⟩

theorem mem_pvStorageGetSubdir {path : List Name} {pre r : CStr}
    (hns : Plain (path ++ components pre)) (hlink : fs.NoLink (clean (path ++ components pre))) :
    r ∈ pvStorageGetSubdir fs path pre →
      r = pre ++ dot ∨ r = pre ++ dotdot ∨
        ∃ n, r = pre ++ n ∧ fs.node (clean (path ++ components pre) ++ [n]) ≠ none := by
  intro hr
  unfold pvStorageGetSubdir at hr
  split at hr
  · cases hr
  · rename_i names hscan
    obtain ⟨n, hn, rfl⟩ := List.mem_map.mp hr
    rw [mem_insertName, mem_insertName] at hn
    rcases hn with rfl | rfl | hn
    · exact .inl rfl
    · exact .inr (.inl rfl)
    · exact .inr (.inr ⟨n, rfl, (mem_scandir hns hlink).mp ⟨names, hscan, hn⟩⟩)

theorem pvStorageGetSubdir_mem {path : List Name} {pre : CStr} {n : Name}
    (hns : Plain (path ++ components pre)) (hlink : fs.NoLink (clean (path ++ components pre)))
    (hn : fs.node (clean (path ++ components pre) ++ [n]) ≠ none) :
    pre ++ n ∈ pvStorageGetSubdir fs path pre := by
  obtain ⟨names, hscan, hmem⟩ := (mem_scandir hns hlink).mpr hn
  rw [pvStorageGetSubdir, hscan]
  exact List.mem_map_of_mem (mem_insertName.mpr (.inr (mem_insertName.mpr (.inr hmem))))

/-! ## Revisions -/

theorem RevAt.components_eq {r : CStr} {ns : Path} (h : RevAt r ns) : components r = ns := by
  cases h with
  | remote n hn => exact components_of_no_slash hn.2
  | «local» n hn =>
      change components (str "locals" ++ slash :: n) = [str "locals", n]
      rw [components_append, components_of_no_slash hn.2]
      rfl

theorem RevAt.proper {r : CStr} {ns : Path} (h : RevAt r ns) : ∀ n ∈ ns, Proper n := by
  cases h with
  | remote n hn => simpa using hn.1
  | «local» n hn =>
      rw [List.forall_mem_cons, List.forall_mem_singleton]
      exact ⟨by decide, hn.1⟩

theorem RevAt.length_le {r : CStr} {ns : Path} (h : RevAt r ns) : ns.length ≤ 2 := by
  cases h <;> simp

/-- A revision has one place. -/
theorem RevAt.unique {r : CStr} {ns ms : Path} (h : RevAt r ns) (h' : RevAt r ms) : ns = ms :=
  h.components_eq.symm.trans h'.components_eq

/-- A stale revision is not what `trails/current` is. -/
theorem Stale.not_current {r : CStr} {ns : Path} (h : Stale g fs r ns) :
    ns.head? ≠ some (str "current") := by
  intro hhead
  have hdropped := h.dropped
  cases h.place with
  | remote n hn =>
      rw [Option.some.inj hhead] at hdropped
      simp [GcInput.keeps] at hdropped
  | «local» n hn => exact absurd (Option.some.inj hhead) (by decide)

theorem revPlaces_ne_nil {ns p : Path} (h : p ∈ revPlaces ns) : p ≠ [] := by
  rintro rfl
  simp [revPlaces] at h

theorem gcWay_rev {ns p q : Path} (hlen : ns.length ≤ 2) (hhead : ns.head? ≠ some (str "current"))
    (hp : p ∈ revPlaces ns) (hq : q <+: p) : gcWay q := .inl ⟨ns, hlen, hhead, p, hp, hq⟩

/-- The revisions that a collection goes on to remove are the stale ones. -/
theorem stale_iff (h : Proven gcWay fs) {r : CStr} :
    r ∈ pvStorageGetRevisions fs ∧ g.keeps r = false ↔ ∃ ns, Stale g fs r ns := by
  have hlink : ∀ ns : Path, ns.length ≤ 2 → ns.head? ≠ some (str "current") →
      fs.NoLink (str "trails" :: ns) := fun ns hlen hhead q hq l =>
    h.noLink q l (gcWay_rev hlen hhead (by simp [revPlaces]) hq)
  have htrails : fs.NoLink (clean ([str "trails"] ++ components [])) :=
    hlink [] (by simp) (by simp)
  have hlocals : fs.NoLink (clean ([str "trails"] ++ components (str "locals/"))) :=
    hlink [str "locals"] (by simp) (by decide)
  constructor
  · rintro ⟨hmem, hdropped⟩
    rcases List.mem_append.mp hmem with hmem | hmem
    · rcases mem_pvStorageGetSubdir (by decide) htrails hmem with rfl | rfl | ⟨n, hrn, hn⟩
      · simp [GcInput.keeps, dot] at hdropped
      · simp [GcInput.keeps, dotdot] at hdropped
      · obtain rfl : r = n := hrn
        exact ⟨[r], .remote r (h.names _ (node_eq_none.not.mp hn) r (by simp)), hn, hdropped⟩
    · rcases mem_pvStorageGetSubdir (by decide) hlocals hmem with rfl | rfl | ⟨n, rfl, hn⟩
      · rw [show str "locals/" ++ dot = str "locals/." from rfl] at hdropped
        simp [GcInput.keeps] at hdropped
      · rw [show str "locals/" ++ dotdot = str "locals/.." from rfl] at hdropped
        simp [GcInput.keeps] at hdropped
      · refine ⟨[str "locals", n], .local n (h.names _ (node_eq_none.not.mp hn) n (by simp)), hn,
          hdropped⟩
  · rintro ⟨ns, hplace, hthere, hdropped⟩
    refine ⟨List.mem_append.mpr ?_, hdropped⟩
    cases hplace with
    | remote n hn => exact .inl (pvStorageGetSubdir_mem (by decide) htrails hthere)
    | «local» n hn => exact .inr (pvStorageGetSubdir_mem (by decide) hlocals hthere)

/-- `pv_storage_rm_rev` removes the directories of the revision. -/
theorem rmRev_removeDirs (h : Proven gcWay fs) {r : CStr} {ns : Path} (hr : RevAt r ns)
    (hcurrent : ns.head? ≠ some (str "current")) :
    pvStorageRmRev fs r = fs.removeDirs (revPlaces ns) := by
  have hone : ∀ {fs : Fs} {b : Path}, Proven gcWay fs → (∀ n ∈ b, Proper n) →
      b ++ ns ∈ revPlaces ns →
      fs.removeIn (b ++ components r) = fs.removeDir (b ++ ns) := by
    intro fs b h hbase hmem
    have hproper : ∀ n ∈ b ++ ns, Proper n := fun n hn =>
      (List.mem_append.mp hn).elim (hbase n) (hr.proper n)
    rw [hr.components_eq]
    exact h.removeIn_eq (fun n hn => .inr (hproper n hn)) (clean_proper hproper)
      (revPlaces_ne_nil hmem) fun q hq => gcWay_rev hr.length_le hcurrent hmem hq
  have hkept : ∀ {fs : Fs} {p : Path}, Proven gcWay fs → p ∈ revPlaces ns →
      Proven gcWay (fs.removeDir p) := by
    intro fs p h hp
    exact h.removeDirs (List.forall_mem_singleton.mpr (revPlaces_ne_nil hp))
  have htrails := hone (b := [str "trails"]) h (by decide) (by simp [revPlaces])
  have h₁ := hkept h (p := [str "trails"] ++ ns) (by simp [revPlaces])
  have hlogs := hone (b := [str "logs"]) h₁ (by decide) (by simp [revPlaces])
  have h₂ := hkept h₁ (p := [str "logs"] ++ ns) (by simp [revPlaces])
  have hdisks := hone (b := [str "disks", str "rev"]) h₂ (by decide) (by simp [revPlaces])
  change (((fs.removeIn ([str "trails"] ++ components r)).removeIn
    ([str "logs"] ++ components r)).removeIn ([str "disks", str "rev"] ++ components r)) = _
  rw [htrails, hlogs, hdisks]
  rfl

/-- The revisions that are removed, in one go. -/
theorem gcRevisionsLoop_eq {revisions : List CStr}
    (hrevs : ∀ r ∈ revisions, g.keeps r = false → ∃ ns, RevAt r ns ∧
      ns.head? ≠ some (str "current")) (h : Proven gcWay fs) :
    gcRevisionsLoop g revisions fs = fs.removeDirs
      ((revisions.filter fun r => !g.keeps r).flatMap fun r => revPlaces (components r)) := by
  induction revisions generalizing fs with
  | nil => rfl
  | cons r revisions ih =>
      obtain ⟨hr, hrest⟩ := List.forall_mem_cons.mp hrevs
      rw [gcRevisionsLoop]
      by_cases hkeeps : g.keeps r = true
      · rw [if_pos hkeeps, List.filter_cons_of_neg (by simp [hkeeps])]
        exact ih hrest h
      · rw [if_neg hkeeps, List.filter_cons_of_pos (by simp [hkeeps]), List.flatMap_cons]
        obtain ⟨ns, hplace, hcurrent⟩ := hr (by simpa using hkeeps)
        rw [rmRev_removeDirs h hplace hcurrent, hplace.components_eq,
          ih hrest (h.removeDirs fun p hp => revPlaces_ne_nil hp), removeDirs, removeDirs,
          removeDirs, List.foldl_append]

/-- **The stale revisions go**, with their logs and their disks, and nothing else. -/
theorem gcRevisionsLoop_cleared (h : Proven gcWay fs) :
    Cleared (InStale g fs) fs (gcRevisionsLoop g (pvStorageGetRevisions fs) fs) ∧
      Proven gcWay (gcRevisionsLoop g (pvStorageGetRevisions fs) fs) := by
  have hrevs : ∀ r ∈ pvStorageGetRevisions fs, g.keeps r = false → ∃ ns, RevAt r ns ∧
      ns.head? ≠ some (str "current") := by
    intro r hr hdropped
    obtain ⟨ns, hstale⟩ := (stale_iff h).mp ⟨hr, hdropped⟩
    exact ⟨ns, hstale.place, hstale.not_current⟩
  have hne : ∀ p ∈ ((pvStorageGetRevisions fs).filter fun r => !g.keeps r).flatMap
      fun r => revPlaces (components r), p ≠ [] := by
    intro p hp
    obtain ⟨r, -, hp⟩ := List.mem_flatMap.mp hp
    exact revPlaces_ne_nil hp
  rw [gcRevisionsLoop_eq hrevs h]
  refine ⟨(cleared_removeDirs hne fs).congr fun q _ => ?_, h.removeDirs hne⟩
  constructor
  · rintro ⟨p, hp, hdir, hle⟩
    obtain ⟨r, hr, hp⟩ := List.mem_flatMap.mp hp
    obtain ⟨hmem, hdropped⟩ := List.mem_filter.mp hr
    obtain ⟨ns, hstale⟩ := (stale_iff h).mp ⟨hmem, by simpa using hdropped⟩
    exact ⟨r, ns, hstale, p, hstale.place.components_eq ▸ hp, hdir, hle⟩
  · rintro ⟨r, ns, hstale, p, hp, hdir, hle⟩
    obtain ⟨hmem, hdropped⟩ := (stale_iff h).mpr ⟨ns, hstale⟩
    refine ⟨p, List.mem_flatMap.mpr ⟨r, List.mem_filter.mpr ⟨hmem, by simp [hdropped]⟩, ?_⟩, hdir,
      hle⟩
    rwa [hstale.place.components_eq]

/-! ## Objects -/

/-- An object of the pool that is not in the pending step and has no other link. -/
structure Lone (pending : Option PvState) (fs : Fs) (id : Name) (i : Nat) : Prop where
  file : fs.node [str "objects", id] = some (.file i)
  pending : pvObjectsIdInStep pending id = false
  sole : ∀ q, fs.node q = some (.file i) → q = [str "objects", id]

variable {pending : Option PvState} {id : Name}

theorem objectPath_entry (h : Entry id) : objectPath id = [str "objects"] ++ [id] := by
  rw [objectPath, components_of_no_slash h.2]
  rfl

/-- `stat` of an object. -/
theorem find_object (h : Proven gcWay fs) (hid : Entry id) {i : Nat} :
    fs.find (objectPath id) = some (.file i) ↔ fs.node [str "objects", id] = some (.file i) := by
  have hclean : clean [str "objects", id] = [str "objects", id] :=
    clean_proper (by rw [List.forall_mem_cons, List.forall_mem_singleton]; exact ⟨by decide, hid.1⟩)
  rw [objectPath_entry hid, node_eq_file]
  constructor
  · intro hfind
    have hplain : Plain ([str "objects"] ++ [id]) :=
      Plain.append (by decide) fun n hn => .inr (List.mem_singleton.mp hn ▸ hid.1)
    have hget := find_plain hplain (hclean.symm ▸ fun q hq l => h.noLink q l (.inr ⟨id, hq⟩)) hfind
    rwa [List.singleton_append, hclean] at hget
  · intro hget
    have hdir : fs.DirAt (clean [str "objects"]) := by
      obtain ⟨es, hes, -⟩ := Tree.dir_of_get_snoc (p := [str "objects"]) hget
      exact ⟨es, hes⟩
    have hget' : fs.root.get (clean [str "objects"] ++ [id]) = some (.file i) := hget
    rw [find_entry (by decide) hid.1 hdir (by simp [hget']), hget']

/-- `remove` of an object. -/
theorem remove_object (hid : Entry id) {i : Nat}
    (hfile : fs.node [str "objects", id] = some (.file i)) :
    fs.remove (objectPath id) = some (fs.setRoot [str "objects", id] none) := by
  have hget : fs.root.get ([str "objects"] ++ [id]) = some (.file i) := node_eq_file.mp hfile
  have hdir : fs.DirAt (clean [str "objects"]) := by
    obtain ⟨es, hes, -⟩ := Tree.dir_of_get_snoc hget
    exact ⟨es, hes⟩
  have hentry : fs.entry ([str "objects"] ++ [id]) = some ([str "objects"], id) :=
    entry_proper (by decide) hid.1 hdir
  have hlast : ([str "objects"] ++ [id]).getLast? ≠ some [] := by simpa using hid.1.1
  rw [objectPath_entry hid, Fs.remove, hentry]
  simp only [hget, if_neg hlast]
  rfl

/-- A round of the loop: the object goes if it is alone, and stays else. -/
theorem gcObjectsLoop_cons (h : Proven gcWay fs) {name : CStr}
    (hname : name = str ".." ∨ name = str "." ∨ Entry name) (names : List CStr) (reclaimed : Int) :
    (∃ i, Lone pending fs name i ∧ gcObjectsLoop pending (name :: names) (reclaimed, fs) =
      gcObjectsLoop pending names (addReclaimed reclaimed (fs.data i).length,
        fs.setRoot [str "objects", name] none)) ∨
      (∀ i, ¬ Lone pending fs name i) ∧ gcObjectsLoop pending (name :: names) (reclaimed, fs) =
        gcObjectsLoop pending names (reclaimed, fs) := by
  have hentry : ∀ {i}, fs.node [str "objects", name] = some (.file i) → Entry name := by
    intro i hi
    exact h.names [str "objects", name] (node_eq_none.not.mp (by simp [hi])) name (by simp)
  rw [gcObjectsLoop]
  by_cases hdots : name = str ".." ∨ name = str "."
  · refine .inr ⟨fun i hi => ?_, if_pos hdots⟩
    have hproper := (hentry hi.file).1
    rcases hdots with rfl | rfl
    · exact hproper.2.2 rfl
    · exact hproper.2.1 rfl
  · rw [if_neg hdots]
    have hid : Entry name := by
      rcases hname with h' | h' | h'
      · exact absurd (.inl h') hdots
      · exact absurd (.inr h') hdots
      · exact h'
    by_cases hfile : ∃ i, fs.node [str "objects", name] = some (.file i)
    · obtain ⟨i, hi⟩ := hfile
      have hsole := Tree.links_le_one_iff h.keyed (node_eq_file.mp hi)
      rw [(find_object h hid).mpr hi]
      by_cases hlinks : 1 < fs.root.links i
      · refine .inr ⟨fun j hj => ?_, if_pos hlinks⟩
        obtain rfl := Node.file.inj (Option.some.inj (hi.symm.trans hj.file))
        exact absurd (hsole.mpr fun q hq => hj.sole q (node_eq_file.mpr hq)) (by omega)
      · by_cases hpending : pvObjectsIdInStep pending name = true
        · refine .inr ⟨fun j hj => ?_, ?_⟩
          · rw [hj.pending] at hpending
            cases hpending
          · dsimp only
            rw [if_neg hlinks, if_pos hpending]
        · refine .inl ⟨i, ⟨hi, by simpa using hpending, fun q hq => ?_⟩, ?_⟩
          · exact hsole.mp (by omega) q (node_eq_file.mp hq)
          · dsimp only
            rw [if_neg hlinks, if_neg hpending, remove_object hid hi, Option.getD_some]
    · refine .inr ⟨fun i hi => hfile ⟨i, hi.file⟩, ?_⟩
      split
      · rename_i i hfind
        exact absurd ⟨i, (find_object h hid).mp hfind⟩ hfile
      · rfl

/-- **The lone objects go**, and nothing else. -/
theorem gcObjectsLoop_cleared {names : List CStr}
    (hnames : ∀ n ∈ names, n = str ".." ∨ n = str "." ∨ Entry n) (h : Proven gcWay fs)
    (reclaimed : Int) :
    Cleared (fun q => ∃ n ∈ names, ∃ i, q = [str "objects", n] ∧ Lone pending fs n i) fs
      (gcObjectsLoop pending names (reclaimed, fs)).2 := by
  induction names generalizing fs reclaimed with
  | nil => exact (Cleared.none fs).congr fun q _ => by simp
  | cons name names ih =>
      obtain ⟨hname, hrest⟩ := List.forall_mem_cons.mp hnames
      rcases gcObjectsLoop_cons h hname names reclaimed with ⟨i, hlone, hstep⟩ | ⟨hnone, hstep⟩
      · rw [hstep]
        have hfirst := cleared_setNone (p := [str "objects", name]) (by simp) hlone.file
        refine (hfirst.trans (ih hrest (h.setNone (by simp)) _)).congr fun q _ => ?_
        -- the other objects are alone just as they were before
        have hsame : ∀ {n j}, [str "objects", n] ≠ [str "objects", name] →
            (Lone pending (fs.setRoot [str "objects", name] none) n j ↔ Lone pending fs n j) := by
          intro n j hne
          constructor
          · intro hn
            obtain ⟨hfile, -⟩ := hfirst.node_some.mp hn.file
            refine ⟨hfile, hn.pending, fun q hq => ?_⟩
            by_cases hqn : q = [str "objects", name]
            · rw [hqn, hlone.file] at hq
              rw [← hq] at hfile
              exact absurd (hlone.sole _ hfile) hne
            · exact hn.sole q (hfirst.node_some.mpr ⟨hq, hqn⟩)
          · intro hn
            exact ⟨hfirst.node_some.mpr ⟨hn.file, hne⟩, hn.pending,
              fun q hq => hn.sole q (hfirst.node_some.mp hq).1⟩
        constructor
        · rintro (rfl | ⟨n, hn, j, rfl, hj⟩)
          · exact ⟨name, by simp, i, rfl, hlone⟩
          · have hne := (hfirst.node_some.mp hj.file).2
            exact ⟨n, List.mem_cons_of_mem _ hn, j, rfl, (hsame hne).mp hj⟩
        · rintro ⟨n, hn, j, rfl, hj⟩
          by_cases hne : [str "objects", n] = [str "objects", name]
          · exact .inl hne
          · rcases List.mem_cons.mp hn with rfl | hn
            · exact absurd rfl hne
            · exact .inr ⟨n, hn, j, rfl, (hsame hne).mpr hj⟩
      · rw [hstep]
        refine (ih hrest h reclaimed).congr fun q _ => ?_
        constructor
        · rintro ⟨n, hn, hq⟩
          exact ⟨n, List.mem_cons_of_mem _ hn, hq⟩
        · rintro ⟨n, hn, i, rfl, hi⟩
          rcases List.mem_cons.mp hn with rfl | hn
          · exact absurd hi (hnone i)
          · exact ⟨n, hn, i, rfl, hi⟩

/-! ## A collection -/

/-- No directory of a revision holds an object of the pool. -/
theorem not_inStale_object (id : Name) : ¬ InStale g fs [str "objects", id] := by
  rintro ⟨r, ns, -, p, hp, -, hle⟩
  have hhead : p.head? = some (str "trails") ∨ p.head? = some (str "logs") ∨
      p.head? = some (str "disks") := by
    simp only [revPlaces, List.mem_cons, List.not_mem_nil, or_false] at hp
    rcases hp with rfl | rfl | rfl <;> simp
  cases p with
  | nil => simp at hhead
  | cons n p =>
      rw [List.head?_cons, (List.cons_prefix_cons.mp hle).1] at hhead
      revert hhead
      decide

theorem noLink_objects (h : Proven gcWay fs) :
    fs.NoLink (clean ([str "objects"] ++ components [])) := fun q hq l =>
  h.noLink q l (.inr ⟨[], hq.trans ⟨[[]], rfl⟩⟩)

/-- The names that are found in the pool. -/
theorem objectNames (h : Proven gcWay fs) :
    ∀ n ∈ pvStorageGetSubdir fs [str "objects"] [], n = str ".." ∨ n = str "." ∨ Entry n := by
  intro n hn
  rcases mem_pvStorageGetSubdir (by decide) (noLink_objects h) hn with rfl | rfl | ⟨m, hm, hthere⟩
  · exact .inr (.inl rfl)
  · exact .inl rfl
  · obtain rfl : n = m := hm
    exact .inr (.inr (h.names _ (node_eq_none.not.mp hthere) n (by simp)))

/-- **What a collection takes**: the directories of the stale revisions, and the objects
that are not in the pending step and have no link but in these. All else stays as it is. -/
theorem pvStorageGcRun_taken (h : Proven gcWay fs) (g : GcInput) :
    Cleared (Taken g fs) fs (pvStorageGcRun g fs).2 := by
  obtain ⟨hrevs, hproven⟩ := gcRevisionsLoop_cleared (g := g) h
  rw [pvStorageGcRun, pvStorageGcObjects]
  generalize gcRevisionsLoop g (pvStorageGetRevisions fs) fs = fs₁ at hrevs hproven
  refine (hrevs.trans (gcObjectsLoop_cleared (objectNames hproven) hproven 0)).congr
    fun q _ => or_congr_right ?_
  have hobject : ∀ {n i}, Lone g.pending fs₁ n i ↔ Unused g fs n i := by
    intro n i
    constructor
    · intro hl
      refine ⟨(hrevs.node_some.mp hl.file).1, hl.pending, fun q hq => ?_⟩
      by_cases hstale : InStale g fs q
      · exact .inr hstale
      · exact .inl (hl.sole q (hrevs.node_some.mpr ⟨hq, hstale⟩))
    · intro hu
      refine ⟨hrevs.node_some.mpr ⟨hu.file, not_inStale_object n⟩, hu.pending, fun q hq => ?_⟩
      obtain ⟨hq, hstale⟩ := hrevs.node_some.mp hq
      exact (hu.sole q hq).resolve_right hstale
  constructor
  · rintro ⟨n, -, i, hq, hl⟩
    exact ⟨n, i, hq, hobject.mp hl⟩
  · rintro ⟨n, i, hq, hu⟩
    have hl := hobject.mpr hu
    have hthere : fs₁.node (clean ([str "objects"] ++ components []) ++ [n]) ≠ none := by
      rw [show clean ([str "objects"] ++ components []) ++ [n] = [str "objects", n] from rfl, hl.file]
      simp
    exact ⟨n, pvStorageGetSubdir_mem (by decide) (noLink_objects hproven) hthere, i, hq, hl⟩

/-- A device that has committed revision 1, with the factory revision and an old one. Each
revision has a link of an object, and a third object has none. -/
def collectable : Fs where
  root := .dir [
    (str "trails", .dir [(str "0", .dir []), (str "1", .dir [(str "k", .file 0)]),
      (str "2", .dir [(str "k", .file 1)]), (str "current", .symlink [str "1"])]),
    (str "logs", .dir [(str "2", .dir [])]),
    (str "objects", .dir [(emptySha, .file 0), (str "b", .file 1), (str "c", .file 2)])]
  data := fun _ => []

def collectInput : GcInput := ⟨none, none, str "1", true⟩

/-- The link that says which revision is the current one is not on the way. -/
theorem gcWay_not_current : ¬ gcWay [str "trails", str "current"] := by
  rintro (⟨ns, -, hhead, p, hp, hle⟩ | ⟨id, hle⟩)
  · simp only [revPlaces, List.mem_cons, List.not_mem_nil, or_false] at hp
    rcases hp with rfl | rfl | rfl
    · obtain ⟨q, hq⟩ := (List.cons_prefix_cons.mp hle).2
      exact hhead (by rw [← hq]; rfl)
    · exact not_prefix_of_head_ne (by decide) _ _ hle
    · exact not_prefix_of_head_ne (by decide) _ _ hle
  · exact not_prefix_of_head_ne (by decide) _ _ hle

theorem collectable_links {e : Path × Node} (he : e ∈ collectable.root.places) {l : List Name}
    (hl : e.2 = .symlink l) : e.1 = [str "trails", str "current"] ∧ l = [str "1"] := by
  have hall : ∀ e ∈ collectable.root.places, (∃ i, e.2 = .file i) ∨ e.2 = .dir ∨
      e = ([str "trails", str "current"], .symlink [str "1"]) := by
    simp [collectable, Tree.places, Tree.placesIn]
  rcases hall e he with ⟨i, hi⟩ | hdir | rfl
  · rw [hi] at hl
    cases hl
  · rw [hdir] at hl
    cases hl
  · exact ⟨rfl, (Node.symlink.inj hl).symm⟩

theorem collectable_proven {way : Path → Prop} (hway : ¬ way [str "trails", str "current"]) :
    Proven way collectable := by
  refine proven_of_places ⟨_, rfl⟩ (by decide +kernel) (by decide +kernel) fun e he l hl => ?_
  obtain ⟨hplace, rfl⟩ := collectable_links he hl
  rw [hplace]
  exact ⟨by decide, hway⟩

/-- The old revision goes with its object, and so does the object without a link. -/
theorem pvStorageGcRun_taken_old :
    Cleared (Taken collectInput collectable) collectable
        (pvStorageGcRun collectInput collectable).2 ∧
      (pvStorageGcRun collectInput collectable).2.root.places.map (·.1) =
        [[], [str "trails"], [str "trails", str "0"], [str "trails", str "1"],
          [str "trails", str "1", str "k"], [str "trails", str "current"], [str "logs"],
          [str "objects"], [str "objects", emptySha]] :=
  ⟨pvStorageGcRun_taken (collectable_proven gcWay_not_current) collectInput, by decide +kernel⟩

/-! ## Another collection -/

theorem kept_rmRev {P : Fs → Prop} (hk : Kept P) (r : CStr) (h : P fs) :
    P (pvStorageRmRev fs r) :=
  hk.removeIn _ (hk.removeIn _ (hk.removeIn _ h))

/-- A collection keeps what every call keeps. -/
theorem kept_gcRun {P : Fs → Prop} (hk : Kept P) (g : GcInput) (h : P fs) :
    P (pvStorageGcRun g fs).2 := by
  have hrevs : ∀ revisions (fs : Fs), P fs → P (gcRevisionsLoop g revisions fs) := by
    intro revisions
    induction revisions with
    | nil => exact fun fs h => h
    | cons r revisions ih =>
        intro fs h
        rw [gcRevisionsLoop]
        split
        · exact ih fs h
        · exact ih _ (kept_rmRev hk r h)
  have hobjects : ∀ names (acc : Int × Fs), P acc.2 → P (gcObjectsLoop g.pending names acc).2 := by
    intro names
    induction names with
    | nil => exact fun acc h => h
    | cons name names ih =>
        rintro ⟨reclaimed, fs⟩ h
        rw [gcObjectsLoop]
        split
        · exact ih _ h
        · split
          · split
            · exact ih _ h
            · split
              · exact ih _ h
              · exact ih _ (hk.removeAny _ h)
          · exact ih _ h
  exact hobjects _ _ (hrevs _ fs h)

/-- Where nothing is to be taken a collection does nothing. -/
theorem pvStorageGcRun_idle (h : Proven gcWay fs) (hnone : ∀ q, fs.node q ≠ none → ¬ Taken g fs q) :
    pvStorageGcRun g fs = (0, fs) := by
  have hrevs : gcRevisionsLoop g (pvStorageGetRevisions fs) fs = fs := by
    rw [gcRevisionsLoop_eq (fun r hr hdropped => ?_) h]
    · refine removeDirs_of_not_dir fun p hp hdir => ?_
      obtain ⟨r, hr, hp⟩ := List.mem_flatMap.mp hp
      obtain ⟨hmem, hdropped⟩ := List.mem_filter.mp hr
      obtain ⟨ns, hstale⟩ := (stale_iff h).mp ⟨hmem, by simpa using hdropped⟩
      rw [hstale.place.components_eq] at hp
      exact hnone p (by simp [hdir]) (.inl ⟨r, ns, hstale, p, hp, hdir, List.prefix_refl p⟩)
    · obtain ⟨ns, hstale⟩ := (stale_iff h).mp ⟨hr, hdropped⟩
      exact ⟨ns, hstale.place, hstale.not_current⟩
  have hlone : ∀ n i, ¬ Lone g.pending fs n i := by
    intro n i hl
    exact hnone [str "objects", n] (by simp [hl.file])
      (.inr ⟨n, i, rfl, hl.file, hl.pending, fun q hq => .inl (hl.sole q hq)⟩)
  have hobjects : ∀ names, (∀ n ∈ names, n = str ".." ∨ n = str "." ∨ Entry n) →
      gcObjectsLoop g.pending names (0, fs) = (0, fs) := by
    intro names
    induction names with
    | nil => exact fun _ => rfl
    | cons name names ih =>
        intro hnames
        obtain ⟨hname, hrest⟩ := List.forall_mem_cons.mp hnames
        rcases gcObjectsLoop_cons h hname names 0 with ⟨i, hl, -⟩ | ⟨-, hstep⟩
        · exact absurd hl (hlone name i)
        · rw [hstep, ih hrest]
  rw [pvStorageGcRun, hrevs, pvStorageGcObjects]
  exact hobjects _ (objectNames h)

end Pantavisor.Storage
