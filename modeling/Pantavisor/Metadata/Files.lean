/-
Pantavisor.Metadata.Files — the files of the user metadata.

`Ready` is a directory of plain files, each with one name, and no link below `/pv`.
`fileValue` is what the next start reads of it for a key. A key that is a file name,
and no hidden one, is written and removed there, and no other with it (`save_spec`,
`rm_spec`). The copy of a key with a period in it, for the container of that name, is
elsewhere (`save_plat`, `rm_plat`).
-/
import Pantavisor.Lib.FileTreeFence
import Pantavisor.Metadata.UsermetaTheorems

namespace Pantavisor.Metadata

open Pantavisor.Lib Pantavisor.Json Pantavisor.Lib.Fs

/-! ## Places -/

/-- `/pv` -/
def pvDir : Path := [str "pv"]

/-- `/pv/user-meta` -/
def userMetaDir : Path := [str "pv", str "user-meta"]

/-- Where paths of the user metadata lead through. -/
def OnTheWay (q : Path) : Prop := q <+: pvDir ∨ pvDir <+: q

/-- What is not in the directory. -/
def Outside (q : Path) : Prop := ¬ userMetaDir <+: q

/-- A key that is the name of a file, and of no hidden one. -/
structure KeyOk (key : CStr) : Prop where
  nonempty : key ≠ []
  notHidden : key.head? ≠ some period
  noSlash : slash ∉ key
  short : key.length ≤ 255

theorem KeyOk.proper {key : CStr} (h : KeyOk key) : Proper key :=
  ⟨h.nonempty, fun hdot => h.notHidden (hdot ▸ rfl), fun hdot => h.notHidden (hdot ▸ rfl)⟩

theorem plain_userMeta : Plain pathUserMeta := by decide

theorem clean_userMeta : clean pathUserMeta = userMetaDir := by decide

theorem pathUsermetaKey_eq {key : CStr} (h : slash ∉ key) :
    pathUsermetaKey key = pathUserMeta ++ [key] := by
  have hsplit : str "/pv/user-meta/" ++ key = str "/pv/user-meta" ++ slash :: key := by
    rw [show str "/pv/user-meta/" = str "/pv/user-meta" ++ [slash] by decide, List.append_assoc]
    rfl
  rw [pathUsermetaKey, hsplit, components_append, components_of_no_slash h]
  rfl

theorem tooLong_userMeta {key : CStr} (h : key.length ≤ 255) :
    tooLong (pathUserMeta ++ [key]) = false := by
  have hdir : tooLong pathUserMeta = false := by decide
  rw [tooLong] at hdir ⊢
  rw [List.any_append, hdir]
  simpa using h

/-- The name of a container's directory. -/
def platName (name : CStr) : Name := str "user-meta." ++ name

theorem pathUsermetaPlat_eq {name : CStr} (h : slash ∉ name) :
    pathUsermetaPlat name = [[], str "pv", platName name] := by
  have hsplit : str "/pv/user-meta." ++ name = str "/pv" ++ slash :: platName name := by
    rw [platName, show str "/pv/user-meta." = str "/pv" ++ slash :: str "user-meta." by decide,
      List.append_assoc]
    rfl
  have hname : slash ∉ platName name := by
    rw [platName, List.mem_append, not_or]
    exact ⟨by decide, h⟩
  rw [pathUsermetaPlat, hsplit, components_append, components_of_no_slash hname]
  rfl

theorem pathUsermetaPlatKey_eq {name key : CStr} (h : slash ∉ name) (hkey : slash ∉ key) :
    pathUsermetaPlatKey name key = [[], str "pv", platName name, key] := by
  have hsplit : str "/pv/user-meta." ++ name ++ str "/" ++ key
      = str "/pv/user-meta." ++ name ++ slash :: key := by
    rw [List.append_assoc]
    rfl
  have hdir := pathUsermetaPlat_eq h
  rw [pathUsermetaPlat] at hdir
  rw [pathUsermetaPlatKey, hsplit, components_append, hdir, components_of_no_slash hkey]
  rfl

theorem proper_platName (name : CStr) : Proper (platName name) := by
  have hlen : 9 < (platName name).length := by
    rw [platName, List.length_append]
    have : (str "user-meta.").length = 10 := by decide
    omega
  refine ⟨fun h => ?_, fun h => ?_, fun h => ?_⟩ <;>
    · rw [h] at hlen
      exact absurd hlen (by decide)

theorem platName_ne (name : CStr) : platName name ≠ str "user-meta" := by
  intro h
  have hlen := congrArg List.length h
  rw [platName, List.length_append, show (str "user-meta.").length = 10 by decide,
    show (str "user-meta").length = 9 by decide] at hlen
  omega

/-- A path into a container's directory does not go into the one of the keys. -/
theorem admits_plat (name : CStr) {rest : List Name} (hrest : Plain rest) :
    Admits userMetaDir OnTheWay ([[], str "pv", platName name] ++ rest) ∧
      ¬ clean ([[], str "pv", platName name] ++ rest) <+: userMetaDir := by
  have hpv : Proper (str "pv") := by decide
  have hclean : clean ([[], str "pv", platName name] ++ rest)
      = str "pv" :: platName name :: clean rest := by
    rw [List.cons_append, clean_cons_empty, List.cons_append, clean_cons_proper hpv,
      List.cons_append, clean_cons_proper (proper_platName name), List.nil_append]
  have hplain : Plain [[], str "pv", platName name] := by
    intro n hn
    rw [List.mem_cons, List.mem_cons, List.mem_singleton] at hn
    rcases hn with rfl | rfl | rfl
    · exact .inl rfl
    · exact .inr hpv
    · exact .inr (proper_platName name)
  rw [hclean]
  refine ⟨⟨hplain.append hrest, fun q hq => ?_, fun hpre => ?_⟩, fun hpre => ?_⟩
  · rw [hclean] at hq
    cases q with
    | nil => exact .inl List.nil_prefix
    | cons n q =>
      rw [List.cons_prefix_cons] at hq
      exact .inr (by rw [pvDir, hq.1, List.cons_prefix_cons]; exact ⟨rfl, List.nil_prefix⟩)
  · rw [hclean, userMetaDir, List.cons_prefix_cons, List.cons_prefix_cons] at hpre
    exact platName_ne name hpre.2.1.symm
  · rw [userMetaDir, List.cons_prefix_cons, List.cons_prefix_cons] at hpre
    exact platName_ne name hpre.2.1

/-- The two parts of a key have no slash either. -/
theorem platOfKey_some {key pname pkey : CStr} (hkey : KeyOk key)
    (h : platOfKey key = some (pname, pkey)) : slash ∉ pname ∧ slash ∉ pkey := by
  rw [platOfKey] at h
  split at h
  · rw [Option.some.injEq, Prod.mk.injEq] at h
    obtain ⟨rfl, rfl⟩ := h
    exact ⟨fun hs => hkey.noSlash ((List.takeWhile_prefix _).subset hs),
      fun hs => hkey.noSlash ((List.dropWhile_suffix _).subset (List.mem_of_mem_tail hs))⟩
  · cases h

/-! ## The copies for containers -/

variable {fs : Fs}

/-- The file system behind the fence of the directory. -/
abbrev Fence (fs : Fs) : Prop := Fenced userMetaDir OnTheWay Outside fs

/-- A name that is not one of an entry ends a path at a directory. -/
theorem not_plain {n : Name} (h : ¬ Plain [n]) : n = dot ∨ n = dotdot := by
  by_contra hn
  rw [not_or] at hn
  refine h fun m hm => ?_
  rw [List.mem_singleton.mp hm]
  by_cases hempty : n = []
  · exact .inl hempty
  · exact .inr ⟨hempty, hn.1, hn.2⟩

theorem openCreate_dots (h : Fence fs) (hpv : fs.DirAt pvDir) (name : CStr) {n : Name}
    (hn : n = dot ∨ n = dotdot) (trunc : Bool) :
    fs.openCreate [[], str "pv", platName name, n] trunc = none := by
  have hname := proper_platName name
  have hne : n ≠ [] := by rcases hn with rfl | rfl <;> decide
  obtain ⟨es, hes⟩ := hpv
  have hwalk : fs.walk [[], str "pv", platName name, n] = none ∨
      ∃ p, fs.walk [[], str "pv", platName name, n] = some p ∧ fs.DirAt p := by
    have hpvProper : ¬ (str "pv" = [] ∨ str "pv" = dot) := by decide
    have hes' : fs.root.get ([] ++ [str "pv"]) = some (.dir es) := hes
    rw [walk, walkLinks, walkNames, if_pos (.inl rfl), walkNames, if_neg hpvProper,
      if_neg (by decide), hes']
    simp only
    rw [walkNames, if_neg (by simp [hname.1, hname.2.1]), if_neg hname.2.2]
    cases hget : fs.root.get ([] ++ [str "pv"] ++ [platName name]) with
    | none => simp
    | some t =>
      cases t with
      | file i => simp
      | symlink l => exact absurd hget (h.noLink _ l (.inr ⟨[platName name], rfl⟩))
      | dir ds =>
        right
        rcases hn with rfl | rfl
        · refine ⟨[] ++ [str "pv"] ++ [platName name], ?_, ds, hget⟩
          simp only
          rw [walkNames, if_pos (.inr rfl), walkNames]
        · refine ⟨[str "pv"], ?_, es, hes⟩
          simp only
          rw [walkNames, if_neg (by decide), if_pos rfl, if_neg (by simp), walkNames]
          rfl
  rw [openCreate]
  rcases hwalk with hnone | ⟨p, hp, ds, hds⟩
  · rw [hnone]
  · rw [hp]
    simp only [hds]

theorem remove_dots {ns : List Name} {n : Name} (hn : n = dot ∨ n = dotdot) :
    fs.remove (ns ++ [n]) = none := by
  have hempty : n.isEmpty = false := by rcases hn with rfl | rfl <;> decide
  have hentry : fs.entry (ns ++ [n]) = none := by
    simp only [entry, List.reverse_append, List.reverse_cons, List.reverse_nil, List.nil_append,
      List.singleton_append, List.dropWhile_cons, hempty, Bool.false_eq_true, if_false, if_pos hn]
  rw [remove, hentry]

/-- A file that is written in a container's directory. -/
theorem save_platKey (h : Fence fs) (hpv : fs.DirAt pvDir) {pname pkey : CStr}
    (hname : slash ∉ pname) (hkey : slash ∉ pkey) (value : CStr) :
    Fence (pvStorageSaveFile fs (pathUsermetaPlatKey pname pkey) value) ∧
      Keeps userMetaDir fs (pvStorageSaveFile fs (pathUsermetaPlatKey pname pkey) value) := by
  have hrefl : Fence fs ∧ Keeps userMetaDir fs fs := Spares.refl fs h
  rw [pathUsermetaPlatKey_eq hname hkey, pvStorageSaveFile]
  split
  · exact hrefl
  · by_cases hplain : Plain [pkey]
    · obtain ⟨hadmits, hoff⟩ := admits_plat pname hplain
      cases hopen : fs.openCreate [[], str "pv", platName pname, pkey] true with
      | none => exact hrefl
      | some r =>
        obtain ⟨fd, fs'⟩ := r
        obtain ⟨hf, hk, hapart⟩ := spares_openCreate hadmits hoff (.inl hadmits.off) hopen h
        obtain ⟨hf', hk'⟩ := spares_setData hapart (overwrite (fs'.data fd) value) hf
        exact ⟨hf', hk.trans hk'⟩
    · rw [openCreate_dots h hpv pname (not_plain hplain)]
      exact hrefl

theorem init_plat (h : Fence fs) {pname : CStr} (hname : slash ∉ pname) :
    Fence (pvStorageInitPlatUsermeta fs pname) ∧
      Keeps userMetaDir fs (pvStorageInitPlatUsermeta fs pname) := by
  rw [pvStorageInitPlatUsermeta, pathUsermetaPlat_eq hname]
  split
  · exact Spares.refl fs h
  · have hplain : Plain ([] : List Name) := by decide
    exact spares_mkdirP (admits_plat pname hplain).1 h

theorem rm_platKey (h : Fence fs) {pname pkey : CStr} (hname : slash ∉ pname)
    (hkey : slash ∉ pkey) :
    Fence (removeFile fs (pathUsermetaPlatKey pname pkey)) ∧
      Keeps userMetaDir fs (removeFile fs (pathUsermetaPlatKey pname pkey)) := by
  have hrefl : Fence fs ∧ Keeps userMetaDir fs fs := Spares.refl fs h
  rw [pathUsermetaPlatKey_eq hname hkey, removeFile]
  split
  · exact hrefl
  · cases hremove : fs.remove [[], str "pv", platName pname, pkey] with
    | none => exact hrefl
    | some fs' =>
      by_cases hplain : Plain [pkey]
      · obtain ⟨hadmits, hoff⟩ := admits_plat pname hplain
        exact spares_remove hadmits hoff hremove h
      · have hnone : fs.remove ([[], str "pv", platName pname] ++ [pkey]) = none :=
          remove_dots (not_plain hplain)
        exact absurd (hnone.symm.trans hremove) (by simp)

/-! ## The directory -/

/-- A directory of plain files with one name each, whose names are file names. -/
structure Ready (fs : Fs) : Prop where
  fence : Fence fs
  dir : fs.DirAt userMetaDir
  plain : ∀ n t, fs.root.get (userMetaDir ++ [n]) = some t → ∃ i, t = .file i
  name : ∀ n t, fs.root.get (userMetaDir ++ [n]) = some t → slash ∉ n ∧ n.length ≤ 255
  own : ∀ n n' i, fs.root.get (userMetaDir ++ [n]) = some (.file i) →
    fs.root.get (userMetaDir ++ [n']) = some (.file i) → n = n'

/-- What a start reads for a key. -/
def fileValue (fs : Fs) (key : CStr) : Option CStr :=
  if key.head? = some period then none
  else
    match fs.root.get (userMetaDir ++ [key]) with
    | some (.file i) => loadContent metadataMaxSize (fs.data i)
    | _ => none

theorem fileValue_file {key : CStr} (hkey : key.head? ≠ some period) {i : Nat}
    (h : fs.root.get (userMetaDir ++ [key]) = some (.file i)) :
    fileValue fs key = loadContent metadataMaxSize (fs.data i) := by
  rw [fileValue, if_neg hkey, h]

/-- A value that is a string and not too long is read as it was written. -/
theorem loadContent_self {value : CStr} (hnul : NulFree value)
    (hlen : value.length ≤ metadataMaxSize) :
    loadContent metadataMaxSize value = some value := by
  have hmax : metadataMaxSize < 2 ^ 32 := by decide
  have hmod : value.length % 2 ^ 32 = value.length := Nat.mod_eq_of_lt (by omega)
  rw [loadContent]
  simp only [hmod, List.take_length, cstrAt_zero hnul]
  rw [if_neg fun h => Nat.not_lt.mpr hlen h.2]

/-- What is read is a string, and not too long. -/
theorem loadContent_some {data value : CStr} (h : loadContent metadataMaxSize data = some value) :
    NulFree value ∧ value.length ≤ metadataMaxSize := by
  rw [loadContent] at h
  split at h
  · cases h
  · next hsize =>
    obtain rfl := Option.some.inj h
    have hmax : metadataMaxSize ≠ 0 := by decide
    constructor
    · intro hmem
      simpa using List.mem_takeWhile_imp hmem
    · calc (cstrAt (data.take (data.length % 2 ^ 32)) 0).length
          ≤ (data.take (data.length % 2 ^ 32)).length := by
            rw [cstrAt, List.drop_zero]
            exact (List.takeWhile_prefix _).length_le
        _ ≤ data.length % 2 ^ 32 := List.length_take_le ..
        _ ≤ metadataMaxSize := by
          by_contra hlt
          exact hsize ⟨hmax, by omega⟩

/-- What is done elsewhere changes nothing here. -/
theorem Ready.keeps {fs' : Fs} (h : Ready fs) (hfence : Fence fs')
    (hkeeps : Keeps userMetaDir fs fs') : Ready fs' ∧ ∀ k, fileValue fs' k = fileValue fs k := by
  refine ⟨⟨hfence, ?_, fun n t ht => ?_, fun n t ht => ?_, fun n n' i hi hi' => ?_⟩, fun k => ?_⟩
  · obtain ⟨es, hes⟩ := h.dir
    exact ⟨es, hkeeps.tree.trans hes⟩
  · exact h.plain n t ((hkeeps.get [n]).symm.trans ht)
  · exact h.name n t ((hkeeps.get [n]).symm.trans ht)
  · exact h.own n n' i ((hkeeps.get [n]).symm.trans hi) ((hkeeps.get [n']).symm.trans hi')
  · rw [fileValue, fileValue, hkeeps.get [k]]
    cases hget : fs.root.get (userMetaDir ++ [k]) with
    | none => rfl
    | some t =>
      obtain ⟨i, rfl⟩ := h.plain k t hget
      simp only [hkeeps.data [k] i hget]

theorem Ready.pv (h : Ready fs) : fs.DirAt pvDir := h.dir.above ⟨[str "user-meta"], rfl⟩

theorem snoc_apart {p : Path} {n m : Name} (h : n ≠ m) : ¬ p ++ [n] <+: p ++ [m] := by
  intro hpre
  have heq := hpre.eq_of_length (by simp)
  rw [List.append_cancel_left_eq, List.cons.injEq] at heq
  exact h heq.1

/-- Nothing outside is at an entry of the directory, or below. -/
theorem outside_entry (key : CStr) (t : Path) (ht : Outside t) : ¬ userMetaDir ++ [key] <+: t :=
  fun h => ht ((List.prefix_append _ _).trans h)

/-- A change of one entry, to none or to a new file. -/
theorem Ready.set {u : Option Tree} (h : Ready fs) {key : CStr} (hkey : KeyOk key)
    (hu : u = none ∨ ∃ i, u = some (.file i) ∧ ∀ t, fs.root.get t ≠ some (.file i)) :
    Ready (fs.setRoot (userMetaDir ++ [key]) u) ∧
      (fs.setRoot (userMetaDir ++ [key]) u).root.get (userMetaDir ++ [key]) = u ∧
      ∀ k, k ≠ key → (fs.setRoot (userMetaDir ++ [key]) u).root.get (userMetaDir ++ [k])
        = fs.root.get (userMetaDir ++ [k]) := by
  obtain ⟨es, hes⟩ := h.dir
  have hself := Tree.get_set_self hes key u
  have hother : ∀ k, k ≠ key → (Tree.set (userMetaDir ++ [key]) u fs.root).get (userMetaDir ++ [k])
      = fs.root.get (userMetaDir ++ [k]) := fun k hk =>
    Tree.get_set_disjoint (snoc_apart (Ne.symm hk)) (snoc_apart hk) u fs.root
  have hfence := fenced_setBelow h.fence hkey.proper ⟨es, hes⟩ (outside_entry key) hu
  have hfile : ∀ t, u = some t → ∃ i, t = .file i ∧ ∀ q, fs.root.get q ≠ some (.file i) := by
    intro t ht
    rcases hu with hu | ⟨i, hu, hi⟩
    · rw [hu] at ht
      cases ht
    · exact ⟨i, Option.some.inj (ht.symm.trans hu), hi⟩
  refine ⟨⟨hfence, ⟨_, Tree.get_set_parent hes key u⟩, fun n t ht => ?_, fun n t ht => ?_,
    fun n n' i hi hi' => ?_⟩, hself, hother⟩
  · by_cases hn : n = key
    · subst hn
      obtain ⟨i, hi, -⟩ := hfile t (hself.symm.trans ht)
      exact ⟨i, hi⟩
    · exact h.plain n t ((hother n hn).symm.trans ht)
  · by_cases hn : n = key
    · exact hn ▸ ⟨hkey.noSlash, hkey.short⟩
    · exact h.name n t ((hother n hn).symm.trans ht)
  · -- the inode of a new file is that of no other
    have hnew : ∀ {n n'}, n = key → n' ≠ key →
        (Tree.set (userMetaDir ++ [key]) u fs.root).get (userMetaDir ++ [n]) = some (.file i) →
        (Tree.set (userMetaDir ++ [key]) u fs.root).get (userMetaDir ++ [n']) ≠ some (.file i) := by
      rintro n n' rfl hn' hi hi'
      obtain ⟨j, hj, hout⟩ := hfile _ (hself.symm.trans hi)
      rw [hother n' hn', Tree.file.inj hj] at hi'
      exact hout _ hi'
    by_cases hn : n = key
    · by_cases hn' : n' = key
      · rw [hn, hn']
      · exact absurd hi' (hnew hn hn' hi)
    · by_cases hn' : n' = key
      · exact absurd hi (hnew hn' hn hi')
      · exact h.own n n' i ((hother n hn).symm.trans hi) ((hother n' hn').symm.trans hi')

/-- A key's file is written: a new one, or the one that is there. -/
theorem save_key (h : Ready fs) {key value : CStr} (hkey : KeyOk key) (hnul : NulFree value)
    (hlen : value.length ≤ metadataMaxSize) :
    Ready (pvStorageSaveFile fs (pathUsermetaKey key) value) ∧
      ∀ k, fileValue (pvStorageSaveFile fs (pathUsermetaKey key) value) k
        = if k = key then some value else fileValue fs k := by
  have hdir : fs.DirAt (clean pathUserMeta) := clean_userMeta ▸ h.dir
  rw [pathUsermetaKey_eq hkey.noSlash, pvStorageSaveFile, tooLong_userMeta hkey.short,
    if_neg (by simp)]
  cases hget : fs.root.get (userMetaDir ++ [key]) with
  | none =>
    have hget' : fs.root.get (clean pathUserMeta ++ [key]) = none := by rwa [clean_userMeta]
    obtain ⟨i, fs₁, hopen, hwrite⟩ :=
      openCreate_write plain_userMeta hkey.proper hdir hget' true
    have hfresh : ∀ t, fs.root.get t ≠ some (.file fs.root.fresh) := fun t ht =>
      absurd (Tree.lt_fresh_of_get ht) (lt_irrefl _)
    obtain ⟨hready, hself, hother⟩ := h.set hkey (.inr ⟨fs.root.fresh, rfl, hfresh⟩)
    rw [hopen]
    simp only [hwrite, clean_userMeta]
    refine ⟨⟨⟨hready.fence.root, hready.fence.names, hready.fence.noLink, hready.fence.apart⟩,
      hready.dir, hready.plain, hready.name, hready.own⟩, fun k => ?_⟩
    by_cases hk : k = key
    · subst hk
      obtain ⟨hfile, hdata⟩ := get_create k h.dir value
      rw [if_pos rfl, fileValue_file hkey.notHidden hfile, hdata, loadContent_self hnul hlen]
    · rw [if_neg hk, fileValue, fileValue,
        show (fs.create (userMetaDir ++ [key]) value).root.get (userMetaDir ++ [k])
          = fs.root.get (userMetaDir ++ [k]) from hother k hk]
      cases hold : fs.root.get (userMetaDir ++ [k]) with
      | none => rfl
      | some t =>
        obtain ⟨j, rfl⟩ := h.plain k t hold
        have hne : j ≠ fs.root.fresh := (Tree.lt_fresh_of_get hold).ne
        simp only [create, data_setData, if_neg hne, data_setRoot]
  | some t =>
    obtain ⟨i, rfl⟩ := h.plain key t hget
    have hget' : fs.root.get (clean pathUserMeta ++ [key]) = some (.file i) := by
      rwa [clean_userMeta]
    have hover : overwrite ((fs.setData i []).data i) value = value := by
      rw [data_setData, if_pos rfl]
      exact overwrite_same_length (by simp)
    rw [openCreate_there plain_userMeta hkey.proper hdir hget' true]
    simp only [if_true, writeAt, hover]
    refine ⟨⟨⟨h.fence.root, h.fence.names, h.fence.noLink, h.fence.apart⟩,
      h.dir, h.plain, h.name, h.own⟩, fun k => ?_⟩
    by_cases hk : k = key
    · subst hk
      have hfile : ((fs.setData i []).setData i value).root.get (userMetaDir ++ [k])
          = some (.file i) := hget
      rw [if_pos rfl, fileValue_file hkey.notHidden hfile, data_setData, if_pos rfl,
        loadContent_self hnul hlen]
    · rw [if_neg hk, fileValue, fileValue, root_setData, root_setData]
      cases hold : fs.root.get (userMetaDir ++ [k]) with
      | none => rfl
      | some t =>
        obtain ⟨j, rfl⟩ := h.plain k t hold
        have hne : j ≠ i := fun hij => hk (h.own k key i (hij ▸ hold) hget)
        simp only [data_setData, if_neg hne]

/-- A key's file is removed. -/
theorem rm_key (h : Ready fs) {key : CStr} (hkey : KeyOk key) :
    Ready (removeFile fs (pathUsermetaKey key)) ∧
      ∀ k, fileValue (removeFile fs (pathUsermetaKey key)) k
        = if k = key then none else fileValue fs k := by
  have hentry : fs.entry (pathUserMeta ++ [key]) = some (userMetaDir, key) :=
    clean_userMeta ▸ entry_proper plain_userMeta hkey.proper (clean_userMeta ▸ h.dir)
  rw [pathUsermetaKey_eq hkey.noSlash, removeFile, tooLong_userMeta hkey.short, if_neg (by simp)]
  cases hget : fs.root.get (userMetaDir ++ [key]) with
  | none =>
    have hremove : fs.remove (pathUserMeta ++ [key]) = none := by
      rw [remove, hentry]
      simp only [hget]
    rw [hremove, Option.getD_none]
    refine ⟨h, fun k => ?_⟩
    by_cases hk : k = key
    · subst hk
      simp [fileValue, hget]
    · rw [if_neg hk]
  | some t =>
    obtain ⟨i, rfl⟩ := h.plain key t hget
    have hlast : ¬ (pathUserMeta ++ [key]).getLast? = some [] := by simpa using hkey.nonempty
    have hremove : fs.remove (pathUserMeta ++ [key])
        = some (fs.setRoot (userMetaDir ++ [key]) none) := by
      rw [remove, hentry]
      simp only [hget, if_neg hlast]
    obtain ⟨hready, hself, hother⟩ := h.set (u := none) hkey (.inl rfl)
    rw [hremove, Option.getD_some]
    refine ⟨hready, fun k => ?_⟩
    by_cases hk : k = key
    · subst hk
      rw [if_pos rfl, fileValue, hself]
      simp
    · rw [if_neg hk, fileValue, fileValue, hother k hk]
      rfl

/-- **A key that is saved** is read as it was, and every other as before. -/
theorem save_spec (h : Ready fs) {key value : CStr} (hkey : KeyOk key) (hnul : NulFree value)
    (hlen : value.length ≤ metadataMaxSize) :
    Ready (pvStorageSaveUsermeta fs key value) ∧
      ∀ k, fileValue (pvStorageSaveUsermeta fs key value) k
        = if k = key then some value else fileValue fs k := by
  obtain ⟨hready, hvalues⟩ := save_key h hkey hnul hlen
  rw [pvStorageSaveUsermeta]
  cases hplat : platOfKey key with
  | none => exact ⟨hready, hvalues⟩
  | some plat =>
    obtain ⟨pname, pkey⟩ := plat
    obtain ⟨hname, hpkey⟩ := platOfKey_some hkey hplat
    obtain ⟨hfence, hkeeps⟩ := init_plat hready.fence hname
    obtain ⟨hready₁, hvalues₁⟩ := hready.keeps hfence hkeeps
    obtain ⟨hfence₂, hkeeps₂⟩ := save_platKey hready₁.fence hready₁.pv hname hpkey value
    obtain ⟨hready₂, hvalues₂⟩ := hready₁.keeps hfence₂ hkeeps₂
    exact ⟨hready₂, fun k => (hvalues₂ k).trans ((hvalues₁ k).trans (hvalues k))⟩

/-- The directory of a key whose file is there stays as it is. -/
theorem save_tree (h : Ready fs) {key value : CStr} (hkey : KeyOk key) (hnul : NulFree value)
    (hlen : value.length ≤ metadataMaxSize) (hthere : fs.root.get (userMetaDir ++ [key]) ≠ none) :
    (pvStorageSaveUsermeta fs key value).root.get userMetaDir = fs.root.get userMetaDir := by
  have hmain : (pvStorageSaveFile fs (pathUsermetaKey key) value).root = fs.root := by
    obtain ⟨t, hget⟩ := Option.ne_none_iff_exists'.mp hthere
    obtain ⟨i, rfl⟩ := h.plain key t hget
    rw [pathUsermetaKey_eq hkey.noSlash, pvStorageSaveFile, tooLong_userMeta hkey.short,
      if_neg (by simp), openCreate_there plain_userMeta hkey.proper (clean_userMeta ▸ h.dir)
        (by rwa [clean_userMeta]) true]
    rfl
  obtain ⟨hready, -⟩ := save_key h hkey hnul hlen
  rw [pvStorageSaveUsermeta]
  cases hplat : platOfKey key with
  | none => simp only [hmain]
  | some plat =>
    obtain ⟨pname, pkey⟩ := plat
    obtain ⟨hname, hpkey⟩ := platOfKey_some hkey hplat
    obtain ⟨hfence, hkeeps⟩ := init_plat hready.fence hname
    obtain ⟨hready₁, -⟩ := hready.keeps hfence hkeeps
    obtain ⟨-, hkeeps₂⟩ := save_platKey hready₁.fence hready₁.pv hname hpkey value
    exact hkeeps₂.tree.trans (hkeeps.tree.trans (by rw [hmain]))

/-- **A key that is removed** is not there for the next start, and every other is as
before. -/
theorem rm_spec (h : Ready fs) {key : CStr} (hkey : KeyOk key) :
    Ready (pvStorageRmUsermeta fs key) ∧
      ∀ k, fileValue (pvStorageRmUsermeta fs key) k
        = if k = key then none else fileValue fs k := by
  obtain ⟨hready, hvalues⟩ := rm_key h hkey
  rw [pvStorageRmUsermeta]
  cases hplat : platOfKey key with
  | none => exact ⟨hready, hvalues⟩
  | some plat =>
    obtain ⟨pname, pkey⟩ := plat
    obtain ⟨hname, hpkey⟩ := platOfKey_some hkey hplat
    obtain ⟨hfence, hkeeps⟩ := rm_platKey hready.fence hname hpkey
    obtain ⟨hready₁, hvalues₁⟩ := hready.keeps hfence hkeeps
    exact ⟨hready₁, fun k => (hvalues₁ k).trans (hvalues k)⟩

end Pantavisor.Metadata
