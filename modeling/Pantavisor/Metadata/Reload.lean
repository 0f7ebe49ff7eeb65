/-
Pantavisor.Metadata.Reload — what the next start finds of the user metadata.

`Filed` says that the files are those of the entries: what a start reads for a key is
the value the key has. Additions of keys that are file names, and of values that are
not too long, keep it, and so do all removals; the start itself reads each file and
writes it again (`init_spec`). So a run in which every addition is such a one loses
nothing (`reload_eq`).
-/
import Pantavisor.Metadata.Converge
import Pantavisor.Metadata.Files

namespace Pantavisor.Metadata

open Pantavisor.Lib Pantavisor.Json Pantavisor.Lib.Fs

/-! ## Entries and files -/

/-- The files are those of the entries. -/
structure Filed (m : PvUsermeta) : Prop where
  ready : Ready m.fs
  unique : Unique m.usermeta
  values : ∀ k, m.value k = fileValue m.fs k

/-- A key and a value that a file can be written for and read from. -/
structure Fits (key value : CStr) : Prop where
  key : KeyOk key
  short : value.length ≤ metadataMaxSize

/-- A key that is read is the name of a file, and of no hidden one. -/
theorem keyOk_of_fileValue {fs : Fs} (h : Ready fs) {key value : CStr}
    (hvalue : fileValue fs key = some value) : KeyOk key := by
  rw [fileValue] at hvalue
  split at hvalue
  · cases hvalue
  · next hhidden =>
    cases hget : fs.root.get (userMetaDir ++ [key]) with
    | none =>
      rw [hget] at hvalue
      cases hvalue
    | some t =>
      obtain ⟨hslash, hshort⟩ := h.name key t hget
      have hproper := h.fence.names (userMetaDir ++ [key]) (by simp [hget]) key (by simp)
      exact ⟨hproper.1, hhidden, hslash, hshort⟩

theorem filed_addUsermeta {m : PvUsermeta} (h : Filed m) {key value : CStr} (hfits : Fits key value)
    (hnul : NulFree value) : Filed (pvMetadataAddUsermeta m key (some value)).2 := by
  have hunique := unique_addUsermeta h.unique key (some value)
  by_cases hsame : m.value key = some value
  · have hfs : (pvMetadataAddUsermeta m key (some value)).2.fs = m.fs := by
      rw [fs_addUsermeta, if_pos hsame]
    refine ⟨hfs ▸ h.ready, hunique, fun k => ?_⟩
    rw [value_addUsermeta, hfs, ← h.values k]
    split
    · next hk => rw [hk, hsame]
    · rfl
  · have hfs : (pvMetadataAddUsermeta m key (some value)).2.fs
        = pvStorageSaveUsermeta m.fs key value := by
      rw [fs_addUsermeta, if_neg hsame]
    obtain ⟨hready, hvalues⟩ := save_spec h.ready hfits.key hnul hfits.short
    refine ⟨hfs ▸ hready, hunique, fun k => ?_⟩
    rw [value_addUsermeta, hfs, hvalues, h.values k]

theorem filed_rmUsermeta {m : PvUsermeta} (h : Filed m) (key : CStr) :
    Filed (pvMetadataRmUsermeta m key).2 := by
  have hunique := unique_of_sublist h.unique (sublist_rmUsermeta m key)
  have hvalue : ∀ k, (pvMetadataRmUsermeta m key).2.value k = if k = key then none else m.value k := by
    intro k
    rw [PvUsermeta.value, getByKey_rmUsermeta h.unique]
    split <;> rfl
  cases hkey : m.value key with
  | none =>
    have hfs : (pvMetadataRmUsermeta m key).2.fs = m.fs := by
      rw [fs_rmUsermeta, hkey]
      rfl
    refine ⟨hfs ▸ h.ready, hunique, fun k => ?_⟩
    rw [hvalue, hfs, ← h.values k]
    split
    · next hk => rw [hk, hkey]
    · rfl
  | some value =>
    have hfs : (pvMetadataRmUsermeta m key).2.fs = pvStorageRmUsermeta m.fs key := by
      rw [fs_rmUsermeta, hkey]
      rfl
    have hok := keyOk_of_fileValue h.ready ((h.values key).symm.trans hkey)
    obtain ⟨hready, hvalues⟩ := rm_spec h.ready hok
    refine ⟨hfs ▸ hready, hunique, fun k => ?_⟩
    rw [hvalue, hfs, hvalues, h.values k]

theorem filed_addMembers {m : PvUsermeta} (h : Filed m) {members : List (CStr × Option CStr)}
    (hfits : ∀ member ∈ members, ∀ value, member.2 = some value →
      Fits member.1 value ∧ NulFree value) : Filed (addMembers m members) := by
  induction members generalizing m with
  | nil => exact h
  | cons member members ih =>
    obtain ⟨key, value⟩ := member
    rw [List.forall_mem_cons] at hfits
    rw [addMembers_cons]
    cases value with
    | none => exact ih h hfits.2
    | some value =>
      obtain ⟨hkey, hnul⟩ := hfits.1 value rfl
      exact ih (filed_addUsermeta h hkey hnul) hfits.2

/-- The files of the entries without a mark go, and no other. -/
theorem rmFiles_spec {fs : Fs} (h : Ready fs) (es : List PvMeta) (hkeys : ∀ e ∈ es, KeyOk e.key) :
    Ready (rmFiles fs es) ∧
      ∀ k, fileValue (rmFiles fs es) k = if k ∈ es.map (·.key) then none else fileValue fs k := by
  induction es generalizing fs with
  | nil => exact ⟨h, fun k => by simp [rmFiles]⟩
  | cons e es ih =>
    rw [List.forall_mem_cons] at hkeys
    obtain ⟨hready, hvalues⟩ := rm_spec h hkeys.1
    obtain ⟨hready', hvalues'⟩ := ih hready hkeys.2
    refine ⟨hready', fun k => ?_⟩
    rw [show rmFiles fs (e :: es) = rmFiles (pvStorageRmUsermeta fs e.key) es from rfl, hvalues',
      hvalues, List.map_cons]
    by_cases hk : k = e.key <;> simp [hk]

theorem filed_clear {m : PvUsermeta} (h : Filed m) : Filed (usermetaClear m) := by
  have hok : ∀ e ∈ m.usermeta, KeyOk e.key := by
    intro e he
    have hvalue : m.value e.key = some e.value := by
      rw [PvUsermeta.value, getByKey_of_mem h.unique he, Option.map_some]
    exact keyOk_of_fileValue h.ready ((h.values e.key).symm.trans hvalue)
  obtain ⟨hready, hvalues⟩ := rmFiles_spec h.ready (m.usermeta.filter fun e => !e.updated)
    fun e he => hok e (List.mem_filter.mp he).1
  have hfs : (usermetaClear m).fs = rmFiles m.fs (m.usermeta.filter fun e => !e.updated) := by
    rw [usermetaClear_eq h.unique]
  refine ⟨hfs ▸ hready, unique_clear h.unique, fun k => ?_⟩
  rw [hfs, hvalues, ← h.values k, PvUsermeta.value, getByKey_clear h.unique, PvUsermeta.value]
  cases hfound : pvMetadataGetByKey m.usermeta k with
  | none => simp
  | some e =>
    have hkey := key_of_getByKey hfound
    have hmem : k ∈ (m.usermeta.filter fun e => !e.updated).map (·.key) ↔ e.updated = false := by
      rw [List.mem_map]
      constructor
      · rintro ⟨e', he', hkey'⟩
        obtain ⟨hin, hup⟩ := List.mem_filter.mp he'
        have hsame := getByKey_of_mem h.unique hin
        rw [hkey', hfound] at hsame
        rw [Option.some.inj hsame]
        simpa using hup
      · exact fun hup => ⟨e, List.mem_filter.mpr ⟨mem_of_getByKey hfound, by simp [hup]⟩, hkey⟩
    simp only [hmem]
    cases hup : e.updated <;> simp [Option.filter, hup, PvMeta.unmarked]

/-! ## The start -/

theorem hidden_iff (name : Name) :
    (str ".." <+: name ∨ str "." <+: name) ↔ name.head? = some period := by
  have hone : str "." = [period] := by decide
  have htwo : str ".." = [period, period] := by decide
  rw [hone, htwo]
  cases name with
  | nil => simp
  | cons c name =>
    rw [List.cons_prefix_cons, List.cons_prefix_cons, List.head?_cons, Option.some.injEq]
    constructor
    · rintro (⟨h, -⟩ | ⟨h, -⟩) <;> exact h.symm
    · exact fun h => .inr ⟨h.symm, List.nil_prefix⟩

/-- What is read for the name of a file. -/
theorem loadFile_eq {fs : Fs} (h : Ready fs) {name : Name} (hhidden : name.head? ≠ some period)
    (hthere : fs.root.get (userMetaDir ++ [name]) ≠ none) :
    pvStorageLoadFile fs (pathUsermetaKey name) metadataMaxSize = fileValue fs name := by
  obtain ⟨t, hget⟩ := Option.ne_none_iff_exists'.mp hthere
  obtain ⟨i, rfl⟩ := h.plain name t hget
  have hproper : Proper name := h.fence.names (userMetaDir ++ [name]) hthere name (by simp)
  have hfind : fs.find (pathUserMeta ++ [name]) = some (.file i) := by
    rw [find_entry plain_userMeta hproper (clean_userMeta ▸ h.dir) (by simp [clean_userMeta, hget]),
      clean_userMeta, hget]
  rw [fileValue_file hhidden hget, pvStorageLoadFile, pathUsermetaKey_eq (h.name name _ hget).1, hfind]

/-- What a start has done, when it has done some of the names. -/
structure Loaded (fs : Fs) (done : List Name) (m : PvUsermeta) : Prop where
  ready : Ready m.fs
  unique : Unique m.usermeta
  tree : m.fs.root.get userMetaDir = fs.root.get userMetaDir
  files : ∀ k, fileValue m.fs k = fileValue fs k
  values : ∀ k, m.value k = if k ∈ done then fileValue fs k else none

/-- One more file is read, and written again as it is. -/
theorem loaded_file {fs : Fs} {done : List Name} {m : PvUsermeta} (h : Loaded fs done m)
    {name : Name} (hthere : fs.root.get (userMetaDir ++ [name]) ≠ none) :
    Loaded fs (done ++ [name]) (loadUsermetaFile m name) := by
  have hthere' : m.fs.root.get (userMetaDir ++ [name]) ≠ none := by
    rw [Tree.get_append, h.tree, ← Tree.get_append]
    exact hthere
  have hdone : ∀ k, (if k ∈ done ++ [name] then fileValue fs k else none)
      = if k = name then fileValue fs k else m.value k := by
    intro k
    rw [h.values]
    by_cases hk : k = name <;> simp [hk]
  -- a name that gives no value leaves all as it is
  have hskip : fileValue fs name = none → Loaded fs (done ++ [name]) m := by
    intro hnone
    refine ⟨h.ready, h.unique, h.tree, h.files, fun k => ?_⟩
    rw [hdone, h.values]
    by_cases hk : k = name <;> simp [hk, hnone]
  rw [loadUsermetaFile]
  by_cases hhidden : name.head? = some period
  · rw [if_pos ((hidden_iff name).mpr hhidden)]
    exact hskip (by rw [fileValue, if_pos hhidden])
  · rw [if_neg fun h => hhidden ((hidden_iff name).mp h), loadFile_eq h.ready hhidden hthere',
      h.files]
    cases hvalue : fileValue fs name with
    | none => exact hskip hvalue
    | some value =>
      have hread : fileValue m.fs name = some value := (h.files name).trans hvalue
      have hok := keyOk_of_fileValue h.ready hread
      obtain ⟨t, hget⟩ := Option.ne_none_iff_exists'.mp hthere'
      obtain ⟨i, rfl⟩ := h.ready.plain name t hget
      obtain ⟨hnul, hshort⟩ := loadContent_some ((fileValue_file hhidden hget).symm.trans hread)
      obtain ⟨hready, hfiles⟩ := save_spec h.ready hok hnul hshort
      have hunique := unique_addUsermeta h.unique name (some value)
      have hvalues : ∀ k, (pvMetadataAddUsermeta m name (some value)).2.value k
          = if k ∈ done ++ [name] then fileValue fs k else none := by
        intro k
        rw [value_addUsermeta, hdone]
        split
        · next hk => rw [hk, hvalue]
        · rfl
      have hfs := fs_addUsermeta m name value
      by_cases hsame : m.value name = some value
      · rw [if_pos hsame] at hfs
        exact ⟨hfs ▸ h.ready, hunique, hfs ▸ h.tree, fun k => hfs ▸ h.files k, hvalues⟩
      · rw [if_neg hsame] at hfs
        refine ⟨hfs ▸ hready, hunique, ?_, fun k => ?_, hvalues⟩
        · rw [hfs, save_tree h.ready hok hnul hshort hthere', h.tree]
        · rw [hfs, hfiles]
          split
          · next hk => rw [hk, hvalue]
          · exact h.files k

/-- **The start** makes the entries of the files, and leaves what they hold. -/
theorem init_spec {fs : Fs} (h : Ready fs) :
    Filed (pvMetadataInit fs) ∧ ∀ k, (pvMetadataInit fs).value k = fileValue fs k := by
  obtain ⟨es, hes⟩ := h.dir
  have hfold : ∀ (names done : List Name) (m : PvUsermeta), Loaded fs done m →
      (∀ name ∈ names, fs.root.get (userMetaDir ++ [name]) ≠ none) →
      Loaded fs (done ++ names) (names.foldl loadUsermetaFile m) := by
    intro names
    induction names with
    | nil =>
      intro done m hm _
      rwa [List.append_nil]
    | cons name names ih =>
      intro done m hm hnames
      rw [List.forall_mem_cons] at hnames
      rw [List.append_cons]
      exact ih _ _ (loaded_file hm hnames.1) hnames.2
  have hscan : fs.scandir pathUserMeta = some (es.foldr (fun e => insertName e.1) []) := by
    rw [scandir, find_dir plain_userMeta (clean_userMeta ▸ hes)]
  have hstart : Loaded fs [] ⟨[], fs⟩ :=
    ⟨h, List.nodup_nil, rfl, fun _ => rfl, fun k => by simp [PvUsermeta.value]⟩
  have hlookup : ∀ k, fs.root.get (userMetaDir ++ [k]) = es.lookup k := fun k =>
    Tree.get_snoc hes k
  have hall := hfold (es.foldr (fun e => insertName e.1) []) [] _ hstart fun name hname => by
    obtain ⟨e, he, rfl⟩ := mem_names.mp hname
    rw [hlookup, ne_eq, List.lookup_eq_none_iff]
    exact fun hnone => by simpa using hnone e he
  have hinit : pvMetadataInit fs
      = (es.foldr (fun e => insertName e.1) []).foldl loadUsermetaFile ⟨[], fs⟩ := by
    rw [pvMetadataInit, pvMetadataLoadUsermeta]
    simp only [hscan]
  rw [List.nil_append, ← hinit] at hall
  have hvalue : ∀ k, (pvMetadataInit fs).value k = fileValue fs k := by
    intro k
    rw [hall.values]
    split
    · rfl
    · next hnot =>
      have hnone : fs.root.get (userMetaDir ++ [k]) = none := by
        rw [hlookup, List.lookup_eq_none_iff]
        intro e he
        simpa using fun hk : k = e.1 => hnot (mem_names.mpr ⟨e, he, hk.symm⟩)
      simp [fileValue, hnone]
  exact ⟨⟨hall.ready, hall.unique, fun k => (hvalue k).trans (hall.files k).symm⟩, hvalue⟩

/-! ## Strings -/

theorem nulFree_cstrAt (buf : CStr) (i : Nat) : NulFree (cstrAt buf i) := fun h => by
  simpa using List.mem_takeWhile_imp h

theorem nulFree_newlines {s : CStr} (h : NulFree s) : NulFree (newlines s) := fun hmem =>
  (mem_newlines hmem).elim h fun hzero => absurd hzero (by decide)

theorem nulFree_tokText {buf : CStr} (h : NulFree buf) (t : Tok) : NulFree (tokText buf t) :=
  fun hmem => h (List.mem_of_mem_drop (List.mem_of_mem_take hmem))

theorem nulFree_usermetaText {jsmn : Jsmn} {buf um : CStr} (h : NulFree buf)
    (hum : usermetaText jsmn buf = some um) : NulFree um := by
  have hloop : ∀ (toks : List Tok) (seen : Bool),
      pvJsonGetValueLoop buf (str "user-meta") seen toks = some um → NulFree um := by
    intro toks
    induction toks with
    | nil =>
      intro seen hnone
      cases hnone
    | cons t toks ih =>
      intro seen hsome
      rw [pvJsonGetValueLoop] at hsome
      split at hsome
      · exact ih true hsome
      · split at hsome
        · rw [← Option.some.inj hsome]
          exact nulFree_tokText h t
        · exact ih false hsome
  exact hloop _ false hum

theorem nulFree_usermetaMembers {jsmn : Jsmn} {um : CStr} (h : NulFree um)
    {members : List (CStr × Option CStr)} (hmembers : usermetaMembers jsmn um = some members)
    {member : CStr × Option CStr} (hmember : member ∈ members) {value : CStr}
    (hvalue : member.2 = some value) : NulFree value := by
  have hone : ∀ (tokv : List Tok) (k : Nat) (member : CStr × Option CStr),
      usermetaMember um tokv k = some member → member.2 = some value → NulFree value := by
    intro tokv k member hk hv
    simp only [usermetaMember, Option.bind_eq_bind, Option.bind_eq_some_iff] at hk
    obtain ⟨key, -, t, -, hk⟩ := hk
    rw [← Option.some.inj hk] at hv
    simp only at hv
    split at hv
    · rw [← Option.some.inj hv]
      exact nulFree_tokText h t
    · cases hv
  have hall : ∀ (tokv : List Tok) (keys : List Nat) (members : List (CStr × Option CStr)),
      keys.mapM (usermetaMember um tokv) = some members → ∀ member ∈ members,
        member.2 = some value → NulFree value := by
    intro tokv keys
    induction keys with
    | nil =>
      intro members hmap member hmem
      rw [List.mapM_nil, Option.pure_def, Option.some.injEq] at hmap
      rw [← hmap] at hmem
      cases hmem
    | cons k keys ih =>
      intro members hmap member hmem hv
      simp only [List.mapM_cons, Option.bind_eq_bind, Option.bind_eq_some_iff] at hmap
      obtain ⟨first, hfirst, rest, hrest, hcons⟩ := hmap
      rw [← Option.some.inj hcons] at hmem
      rcases List.mem_cons.mp hmem with rfl | hmem
      · exact hone tokv k member hfirst hv
      · exact ih rest hrest member hmem hv
  simp only [usermetaMembers, Option.bind_eq_bind, Option.bind_eq_some_iff] at hmembers
  obtain ⟨tokv, -, keys, -, hmap⟩ := hmembers
  exact hall tokv keys members hmap member hmember hvalue

/-! ## Runs -/

variable {jsmn : Jsmn}

/-- Every addition that an event makes is one for which a file can be written and
read. -/
def UsermetaEvent.Fits (jsmn : Jsmn) : UsermetaEvent → Prop
  | .answer body => ∀ member ∈ addedMembers jsmn (cstrAt body 0), ∀ value,
      member.2 = some value → Metadata.Fits member.1 value
  | .put path sent contentLength => ∀ value, pvCtrlGetBody sent contentLength = some value →
      Metadata.Fits (pvCtrlGetFileName path) value
  | .delete _ => True
  | .restart => True

theorem filed_answer {m m' : PvUsermeta} (h : Filed m) {body : CStr} (hnul : NulFree body)
    (hfits : ∀ member ∈ addedMembers jsmn body, ∀ value, member.2 = some value →
      Fits member.1 value)
    (hparse : pvMetadataParseUsermeta jsmn m body = some m') : Filed m' := by
  rw [parseUsermeta_newlines, Option.map_eq_some_iff] at hparse
  obtain ⟨m₁, hm₁, rfl⟩ := hparse
  refine filed_clear ?_
  rw [pvUsermetaParse] at hm₁
  rw [addedMembers] at hfits
  cases htext : usermetaText jsmn (newlines body) with
  | none =>
    simp only [htext, Option.some.injEq] at hm₁
    exact hm₁ ▸ h
  | some um =>
    simp only [htext, Option.map_eq_some_iff] at hm₁
    obtain ⟨members, hmembers, rfl⟩ := hm₁
    simp only [htext, Option.bind_some, hmembers, Option.getD_some] at hfits
    have hum := nulFree_usermetaText (nulFree_newlines hnul) htext
    exact filed_addMembers h fun member hmember value hvalue =>
      ⟨hfits member hmember value hvalue, nulFree_usermetaMembers hum hmembers hmember hvalue⟩

theorem filed_step {m : PvUsermeta} (h : Filed m) {e : UsermetaEvent} (he : e.Fits jsmn) :
    Filed (stepUsermeta jsmn m e) := by
  cases e with
  | answer body =>
    rw [stepUsermeta]
    cases hparse : pvMetadataParseUsermeta jsmn m (cstrAt body 0) with
    | none => exact (init_spec h.ready).1
    | some m' => exact filed_answer h (nulFree_cstrAt body 0) he hparse
  | put path sent contentLength =>
    rw [stepUsermeta]
    cases hbody : pvCtrlGetBody sent contentLength with
    | none => exact h
    | some value =>
      have hnul : NulFree value := by
        rw [pvCtrlGetBody] at hbody
        split at hbody
        · cases hbody
        · exact Option.some.inj hbody ▸ nulFree_cstrAt _ 0
      exact filed_addUsermeta h (he value hbody) hnul
  | delete path => exact filed_rmUsermeta h _
  | restart => exact (init_spec h.ready).1

theorem filed_run {m : PvUsermeta} (h : Filed m) {events : List UsermetaEvent}
    (hall : ∀ e ∈ events, e.Fits jsmn) : Filed ((usermetaSystem jsmn).run m events) := by
  induction events generalizing m with
  | nil => exact h
  | cons e events ih =>
    rw [List.forall_mem_cons] at hall
    exact ih (filed_step h hall.1) hall.2

/-- **The next start finds what was there**: after every run from a start on such a
directory, whose additions are all such that a file can be written and read. -/
theorem reload_eq {fs : Fs} (hfs : Ready fs) {events : List UsermetaEvent}
    (hall : ∀ e ∈ events, e.Fits jsmn) (key : CStr) :
    (pvMetadataInit ((usermetaSystem jsmn).run (pvMetadataInit fs) events).fs).value key
      = ((usermetaSystem jsmn).run (pvMetadataInit fs) events).value key := by
  have hfiled := filed_run (init_spec hfs).1 hall
  rw [(init_spec hfiled.ready).2, hfiled.values]

theorem ready_emptyFs : Ready emptyFs := by
  have horderly : emptyFs.root.orderly = true := by decide
  have hnone : ∀ n, emptyFs.root.get (userMetaDir ++ [n]) = none := fun n => rfl
  have hfile : ∀ t i, emptyFs.root.get t ≠ some (.file i) := fun t i ht =>
    absurd (Tree.lt_fresh_of_get ht) (by
      have : emptyFs.root.fresh = 0 := by decide
      omega)
  have hroot : emptyFs.DirAt [] := ⟨_, rfl⟩
  refine ⟨fenced_of_orderly horderly hroot _ fun t i _ => hfile t i, ⟨[], rfl⟩, ?_, ?_, ?_⟩
  · exact fun n t ht => absurd ((hnone n).symm.trans ht) (by simp)
  · exact fun n t ht => absurd ((hnone n).symm.trans ht) (by simp)
  · exact fun n n' i hi => absurd hi (hfile _ i)

/-- A key with a period in it, that was put and is read. -/
theorem reload_put :
    (pvMetadataInit ((usermetaSystem tokenizer).run (pvMetadataInit emptyFs)
      [.put (str "/user-meta/lamp.on") (str "1") 1]).fs).value (str "lamp.on")
        = ((usermetaSystem tokenizer).run (pvMetadataInit emptyFs)
          [.put (str "/user-meta/lamp.on") (str "1") 1]).value (str "lamp.on") := by
  refine reload_eq ready_emptyFs ?_ _
  rw [List.forall_mem_singleton]
  intro value hvalue
  have hbody : pvCtrlGetBody (str "1") 1 = some (str "1") := by decide
  obtain rfl := Option.some.inj (hbody.symm.trans hvalue)
  exact ⟨⟨by decide, by decide, by decide, by decide⟩, by decide⟩

/-- A key that begins with one is in memory, and not there behind the next start. -/
theorem hidden_key_lost :
    ¬ ∀ (fs : Fs) (events : List UsermetaEvent), Ready fs → ∀ key,
      (pvMetadataInit ((usermetaSystem tokenizer).run (pvMetadataInit fs) events).fs).value key
        = ((usermetaSystem tokenizer).run (pvMetadataInit fs) events).value key := by
  intro h
  have hkey := h emptyFs [.put (str "/user-meta/.lamp") (str "1") 1] ready_emptyFs (str ".lamp")
  exact absurd hkey (by decide +kernel)

end Pantavisor.Metadata
