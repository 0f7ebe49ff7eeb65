/-
Pantavisor.Storage.PoolDigests — the objects of the pool and their digests.

A download is renamed to the id of its object when it has the digest that the
server names, and nothing compares that digest with the id. Where the two are
the same, every object has the digest of its id when it is renamed, and keeps it
(`pool_content_addressed`).

The invariant is `PoolOk`: a temporary file has no other link, so that writing
it changes no object that is in place.
-/
import Pantavisor.Lib.FileTreeGrow
import Pantavisor.Lib.Run
import Pantavisor.Storage.Expand
import Pantavisor.Storage.Pool

namespace Pantavisor.Storage

open Pantavisor.Lib

/-! ## Names of objects and of temporary files -/

/-- The name of a temporary file. -/
def Temp (n : Name) : Prop := ∃ m, n = m ++ str ".tmp" ∨ n = m ++ str ".new"

theorem Temp.dot_mem {n : Name} (h : Temp n) : 46 ∈ n := by
  obtain ⟨m, rfl | rfl⟩ := h <;> exact List.mem_append_right _ (by decide)

theorem Temp.proper {n : Name} (h : Temp n) : Proper n := by
  have hlen : 4 ≤ n.length := by
    obtain ⟨m, rfl | rfl⟩ := h <;> simp [str]
  refine ⟨?_, ?_, ?_⟩ <;> rintro rfl <;> simp [dot, dotdot, str] at hlen

theorem objects_not_temp : ¬ Temp (str "objects") := fun h => absurd h.dot_mem (by decide)

/-- The path of a temporary file ends in the name of one. -/
theorem tempPath_last (id : CStr) {suffix : CStr} (h : suffix = str ".tmp" ∨ suffix = str ".new") :
    ∃ ns n, objectPath (id ++ suffix) = ns ++ [n] ∧ Temp n := by
  have hslash : slash ∉ suffix := by rcases h with rfl | rfl <;> decide
  obtain ⟨init, n, hcomp⟩ := components_append_no_slash id hslash
  refine ⟨str "objects" :: init, n ++ suffix, by rw [objectPath, hcomp]; rfl, n, ?_⟩
  rcases h with rfl | rfl
  · exact .inl rfl
  · exact .inr rfl

/-- What is decoded has only digits in it. -/
theorem hexDecode_digits {s : CStr} {bytes : List UInt8} (h : hexDecode s = some bytes) :
    ∀ c ∈ s, hexValue c ≠ none := by
  induction s using hexDecode.induct generalizing bytes with
  | case1 => simp
  | case2 c => cases h
  | case3 a b rest ih =>
      simp only [hexDecode, Option.bind_eq_bind, Option.bind_eq_some_iff, Option.pure_def,
        Option.some.injEq] at h
      obtain ⟨x, hx, y, hy, tail, htail, -⟩ := h
      intro c hc
      rcases List.mem_cons.mp hc with rfl | hc
      · simp [hx]
      · rcases List.mem_cons.mp hc with rfl | hc
        · simp [hy]
        · exact ih htail c hc

/-- An id that stands for a digest is one component, and not that of a temporary
file. -/
theorem digest_name {id : CStr} {bytes : List UInt8} (h : hexDecode id = some bytes)
    (hlen : bytes.length = 32) : components id = [id] ∧ Proper id ∧ ¬ Temp id := by
  have hdot : 46 ∉ id := fun hmem => hexDecode_digits h 46 hmem (by decide)
  have hslash : slash ∉ id := fun hmem => hexDecode_digits h slash hmem (by decide)
  refine ⟨components_of_no_slash hslash, ⟨?_, ?_, ?_⟩, fun ht => hdot ht.dot_mem⟩
  · rintro rfl
    cases h
    cases hlen
  · rintro rfl
    exact hdot (by decide)
  · rintro rfl
    exact hdot (by decide)

/-- A temporary file is not at the place of an object, and not above it. -/
theorem temp_off {d : Path} {n id : Name} (hn : Temp n) (hid : ¬ Temp id) :
    ¬ d ++ [n] <+: [str "objects", id] := by
  rintro ⟨s, hs⟩
  match d with
  | [] => exact objects_not_temp ((List.cons.inj hs).1 ▸ hn)
  | [_] => exact hid ((List.cons.inj (List.cons.inj hs).2).1 ▸ hn)
  | _ :: _ :: d => simp at hs

/-- A temporary file is at the place of no object. -/
theorem temp_ne {d : Path} {n id : Name} (hn : Temp n) (hid : ¬ Temp id) :
    d ++ [n] ≠ [str "objects", id] :=
  fun h => temp_off hn hid ⟨[], by rw [List.append_nil, h]⟩

/-! ## The invariant -/

variable {sha256 : CStr → List UInt8} {fs fs' : Fs} {ids : List CStr}

/-- The pool: its temporary files have no other link, and the objects `ids` are
there and have the digests that they are named after. -/
structure PoolOk (sha256 : CStr → List UInt8) (fs : Fs) (ids : List CStr) : Prop where
  objects : fs.DirAt [str "objects"]
  noLink : ∀ d n l, Temp n → fs.root.get (d ++ [n]) ≠ some (.symlink l)
  single : ∀ d n i q, Temp n → fs.root.get (d ++ [n]) = some (.file i) →
    fs.root.get q = some (.file i) → q = d ++ [n]
  right : ∀ id ∈ ids, ¬ Temp id ∧ ∃ i, fs.root.get [str "objects", id] = some (.file i) ∧
    hexDecode id = some (sha256 (fs.data i))

/-- A directory stays one when something in it, or elsewhere, is updated. -/
theorem dirAt_setRoot {p q : Path} (h : fs.DirAt p) (hqp : ¬ q <+: p) (u : Option Tree) :
    (fs.setRoot q u).DirAt p := by
  obtain ⟨es, hes⟩ := h
  by_cases hpq : p <+: q
  · obtain ⟨r, rfl⟩ := hpq
    have hr : r ≠ [] := by
      rintro rfl
      rw [List.append_nil] at hqp
      exact hqp (List.prefix_refl p)
    obtain ⟨ds, hds, -⟩ := Tree.get_set_above hr hes u
    exact ⟨ds, hds⟩
  · exact ⟨es, (Tree.get_set_disjoint hqp hpq u fs.root).trans hes⟩

theorem temp_off_objects {d : Path} {n : Name} (hn : Temp n) : ¬ d ++ [n] <+: [str "objects"] :=
  fun h => temp_off hn objects_not_temp (h.trans (List.prefix_append [str "objects"] [str "objects"]))

/-- The removal of a temporary file. -/
theorem PoolOk.setNone (h : PoolOk sha256 fs ids) {d : Path} {n : Name} (hn : Temp n) :
    PoolOk sha256 (fs.setRoot (d ++ [n]) none) ids := by
  have hleaf : ∀ {q v}, v.isDir = false → (Tree.set (d ++ [n]) none fs.root).get q = some v →
      fs.root.get q = some v := by
    intro q v hd hv
    rcases Tree.leaf_of_set hd hv with h' | ⟨c, -, hc, -⟩
    · exact h'
    · cases hc
  refine ⟨dirAt_setRoot h.objects (temp_off_objects hn) none,
    fun e m l hm hl => h.noLink e m l hm (hleaf rfl hl),
    fun e m i q hm hi hq => h.single e m i q hm (hleaf rfl hi) (hleaf rfl hq), fun id hid => ?_⟩
  obtain ⟨htemp, i, hi, hright⟩ := h.right id hid
  exact ⟨htemp, i, Tree.get_set_leaf rfl hi (temp_off hn htemp) none, hright⟩

/-- A new temporary file. -/
theorem PoolOk.setFile (h : PoolOk sha256 fs ids) {d : Path} {n : Name} (hn : Temp n) :
    PoolOk sha256 ((fs.setRoot (d ++ [n]) (some (.file fs.root.fresh))).setData fs.root.fresh [])
      ids := by
  have hleaf : ∀ {q v}, v.isDir = false →
      (Tree.set (d ++ [n]) (some (.file fs.root.fresh)) fs.root).get q = some v →
      fs.root.get q = some v ∨ q = d ++ [n] ∧ v = .file fs.root.fresh := by
    intro q v hd hv
    rcases Tree.leaf_of_set hd hv with h' | ⟨c, r, hc, hq, hr⟩
    · exact .inl h'
    · rw [← Option.some.inj hc] at hr
      cases r with
      | nil => exact .inr ⟨by rw [hq, List.append_nil], (Option.some.inj hr).symm⟩
      | cons m r => cases hr
  have hold : ∀ {q}, fs.root.get q ≠ some (.file fs.root.fresh) :=
    fun hq => absurd (Tree.lt_fresh_of_get hq) (lt_irrefl _)
  refine ⟨dirAt_setRoot h.objects (temp_off_objects hn) _, fun e m l hm hl => ?_,
    fun e m i q hm hi hq => ?_, fun id hid => ?_⟩
  · rcases hleaf rfl hl with h' | ⟨-, hv⟩
    · exact h.noLink e m l hm h'
    · cases hv
  · rcases hleaf rfl hi with hi' | ⟨hem, hi'⟩ <;> rcases hleaf rfl hq with hq' | ⟨rfl, hq'⟩
    · exact h.single e m i q hm hi' hq'
    · rw [hq'] at hi'
      exact absurd hi' hold
    · rw [hi'] at hq'
      exact absurd hq' hold
    · exact hem.symm
  · obtain ⟨htemp, i, hi, hright⟩ := h.right id hid
    refine ⟨htemp, i, Tree.get_set_leaf rfl hi (temp_off hn htemp) _, ?_⟩
    rw [Fs.data_setData, if_neg (Tree.lt_fresh_of_get hi).ne]
    exact hright

/-- Writing a temporary file. -/
theorem PoolOk.setData (h : PoolOk sha256 fs ids) {d : Path} {n : Name} {i : Nat} (hn : Temp n)
    (hi : fs.root.get (d ++ [n]) = some (.file i)) (c : CStr) :
    PoolOk sha256 (fs.setData i c) ids := by
  refine ⟨h.objects, h.noLink, h.single, fun id hid => ?_⟩
  obtain ⟨htemp, j, hj, hright⟩ := h.right id hid
  refine ⟨htemp, j, hj, ?_⟩
  rw [Fs.data_setData, if_neg]
  · exact hright
  · rintro rfl
    have hplace := h.single d n j _ hn hi hj
    exact temp_ne hn htemp hplace.symm

/-- A temporary file gets the name of an object. -/
theorem PoolOk.setRenamed (h : PoolOk sha256 fs ids) {d : Path} {n : Name} {i : Nat}
    (hn : Temp n) (hi : fs.root.get (d ++ [n]) = some (.file i)) {id : CStr} (hid : ¬ Temp id)
    (hright : hexDecode id = some (sha256 (fs.data i))) :
    PoolOk sha256 ((fs.setRoot [str "objects", id] (some (.file i))).setRoot (d ++ [n]) none)
      (ids ++ [id]) := by
  have hgone : (Tree.set (d ++ [n]) none (Tree.set [str "objects", id] (some (.file i))
      fs.root)).get (d ++ [n]) = none := Tree.get_set_none (by simp) _
  have hleaf : ∀ {q v}, v.isDir = false → (Tree.set (d ++ [n]) none
      (Tree.set [str "objects", id] (some (.file i)) fs.root)).get q = some v →
      fs.root.get q = some v ∨ q = [str "objects", id] ∧ v = .file i := by
    intro q v hd hv
    rcases Tree.leaf_of_set hd hv with h' | ⟨c, -, hc, -⟩
    · rcases Tree.leaf_of_set hd h' with h'' | ⟨c, r, hc, hq, hr⟩
      · exact .inl h''
      · rw [← Option.some.inj hc] at hr
        cases r with
        | nil => exact .inr ⟨by rw [hq, List.append_nil], (Option.some.inj hr).symm⟩
        | cons m r => cases hr
    · cases hc
  have hnew : (Tree.set (d ++ [n]) none (Tree.set [str "objects", id] (some (.file i))
      fs.root)).get [str "objects", id] = some (.file i) := by
    obtain ⟨es, hes⟩ := h.objects
    exact Tree.get_set_leaf rfl (Tree.get_set_self hes id _) (temp_off hn hid) none
  refine ⟨?_, fun e m l hm hl => ?_, fun e m j q hm hj hq => ?_, fun id' hid' => ?_⟩
  · refine dirAt_setRoot (dirAt_setRoot h.objects (fun hle => ?_) _) (temp_off_objects hn) none
    exact absurd hle.length_le (by simp)
  · rcases hleaf rfl hl with h' | ⟨-, hv⟩
    · exact h.noLink e m l hm h'
    · cases hv
  · rcases hleaf rfl hj with hj' | ⟨hem, -⟩
    · rcases hleaf rfl hq with hq' | ⟨-, hji⟩
      · exact h.single e m j q hm hj' hq'
      · -- the file that is renamed had no other temporary name
        rw [hji] at hj' hj
        rw [h.single d n i _ hn hi hj'] at hj
        exact absurd (hgone.symm.trans hj) (by simp)
    · exact absurd hem (temp_ne hm hid)
  · by_cases heq : id' = id
    · rw [heq]
      exact ⟨hid, i, hnew, hright⟩
    · have hmem : id' ∈ ids := by simpa [heq] using hid'
      obtain ⟨htemp, j, hj, hright'⟩ := h.right id' hmem
      refine ⟨htemp, j, Tree.get_set_leaf rfl (Tree.get_set_leaf rfl hj ?_ _)
        (temp_off hn htemp) none, hright'⟩
      rintro ⟨s, hs⟩
      exact heq (List.cons.inj (List.cons.inj hs).2).1.symm

/-! ## The calls -/

/-- A temporary file that has been opened, and may have been written since. -/
structure Opened (fs : Fs) (ns : List Name) (n : Name) (i : Nat) (d : Path) : Prop where
  file : fs.root.get (d ++ [n]) = some (.file i)
  walk : ∀ e, fs.walk ns = some e → fs.DirAt e → (∀ l, fs.root.get (e ++ [n]) ≠ some (.symlink l)) →
    fs.root.get (e ++ [n]) ≠ none → e = d

/-- Creating a file does not change the links. -/
theorem sameLinks_setFile {d : Path} {n : Name}
    (hnone : fs.root.get (d ++ [n]) = none) (i : Nat) (c : CStr) :
    Fs.SameLinks fs ((fs.setRoot (d ++ [n]) (some (.file i))).setData i c) := by
  intro q hne l
  constructor
  · intro hl
    refine Tree.get_set_leaf rfl hl (fun hle => ?_) _
    obtain ⟨r, rfl⟩ := hle
    rw [Tree.get_append, hnone] at hl
    cases hl
  · intro hl
    rcases Tree.leaf_of_set rfl hl with h' | ⟨t, r, ht, -, hr⟩
    · exact h'
    · rw [← Option.some.inj ht] at hr
      cases r <;> cases hr

/-- The opened place does not depend on the file that is created there. -/
theorem opened_of_walk {ns : List Name} {n : Name} {i : Nat} {d : Path} (hn : Proper n)
    (hsame : Fs.SameLinks fs fs') (hwalk : fs.walk (ns ++ [n]) = some (d ++ [n]))
    (hfile : fs'.root.get (d ++ [n]) = some (.file i)) : Opened fs' ns n i d where
  file := hfile
  walk e he hdir hlink hthere := by
    have hagree := Fs.walk_agree hsame hwalk (Fs.walk_snoc hn hlink hdir he) hthere
    exact (List.append_inj_left' hagree rfl).symm

theorem PoolOk.openCreate (h : PoolOk sha256 fs ids) {ns : List Name} {n : Name} {i : Nat}
    (hn : Temp n) (hopen : fs.openCreate (ns ++ [n]) false = some (i, fs')) :
    PoolOk sha256 fs' ids ∧ (∃ d, Opened fs' ns n i d) ∧
      fs'.data i = (fs.readFile (ns ++ [n])).getD [] := by
  unfold Fs.openCreate at hopen
  split at hopen
  · cases hopen
  · rename_i r hr
    obtain ⟨d, rfl⟩ := Fs.walk_last hn.proper (fun d l => h.noLink d n l hn) hr
    have hfind : fs.find (ns ++ [n]) = fs.root.get (d ++ [n]) := by
      rw [Fs.find, hr, Option.bind_some]
    split at hopen
    · rename_i j hj
      obtain ⟨rfl, rfl⟩ := Prod.mk.inj (Option.some.inj hopen)
      refine ⟨h, ⟨d, opened_of_walk hn.proper (fun q _ l => Iff.rfl) hr hj⟩, ?_⟩
      rw [Fs.readFile, hfind, hj]
      rfl
    · cases hopen
    · rename_i hnone
      obtain ⟨rfl, rfl⟩ := Prod.mk.inj (Option.some.inj hopen)
      have hroot : fs.DirAt [] := h.objects.above List.nil_prefix
      have hd : fs.DirAt d := by
        have hparent := (Fs.walk_parent hroot hr).resolve_left (by simp)
        rwa [List.dropLast_concat] at hparent
      obtain ⟨es, hes⟩ := hd
      refine ⟨h.setFile hn, ⟨d, opened_of_walk hn.proper
        (sameLinks_setFile hnone _ _) hr (Tree.get_set_self hes n _)⟩, ?_⟩
      rw [Fs.readFile, hfind, hnone]
      simp [Fs.data_setData]

theorem PoolOk.openExcl (h : PoolOk sha256 fs ids) {ns : List Name} {n : Name} {i : Nat}
    (hn : Temp n) (hopen : fs.openExcl (ns ++ [n]) = .ok (i, fs')) :
    PoolOk sha256 fs' ids ∧ ∃ d, Opened fs' ns n i d := by
  unfold Fs.openExcl at hopen
  split at hopen
  · cases hopen
  · rename_i d m hentry
    obtain ⟨rfl, ⟨es, hes⟩, hwalk⟩ := Fs.entry_last hn.proper hentry
    split at hopen
    · cases hopen
    · rename_i hnone
      split at hopen
      · cases hopen
      · obtain ⟨rfl, rfl⟩ := Prod.mk.inj (Except.ok.inj hopen)
        have hr := Fs.walk_snoc hn.proper (fun l => h.noLink d m l hn) ⟨es, hes⟩ hwalk
        exact ⟨h.setFile hn, d, opened_of_walk hn.proper
          (sameLinks_setFile hnone _ _) hr (Tree.get_set_self hes m _)⟩

theorem PoolOk.remove (h : PoolOk sha256 fs ids) {ns : List Name} {n : Name} (hn : Temp n) :
    PoolOk sha256 ((fs.remove (ns ++ [n])).getD fs) ids := by
  unfold Fs.remove
  split
  · exact h
  · rename_i d m hentry
    obtain ⟨rfl, -, -⟩ := Fs.entry_last hn.proper hentry
    split
    · exact h
    · exact h.setNone hn
    · exact h
    · split
      · exact h
      · exact h.setNone hn

/-- What is written to the opened file. -/
theorem PoolOk.write (h : PoolOk sha256 fs ids) {ns : List Name} {n : Name} {i : Nat} {d : Path}
    (hn : Temp n) (hopen : Opened fs ns n i d) (c : CStr) :
    PoolOk sha256 (fs.writeAt i c) ids ∧ Opened (fs.writeAt i c) ns n i d := by
  have hsame : Fs.SameLinks fs (fs.writeAt i c) := fun _ _ _ => Iff.rfl
  refine ⟨h.setData hn hopen.file _, hopen.file, fun e he hdir hlink hthere => ?_⟩
  have hwalk : fs.walk ns = some e := by
    rw [← he]
    exact (Fs.walk_setData fs i _ ns).symm
  exact hopen.walk e hwalk hdir hlink hthere

/-- The opened file is renamed to the place of an object with its digest. -/
theorem PoolOk.rename (h : PoolOk sha256 fs ids) {ns : List Name} {n : Name} {i : Nat} {d : Path}
    (hn : Temp n) (hopen : Opened fs ns n i d) {id : CStr}
    (hright : hexDecode id = some (sha256 (fs.data i))) (hlen : (sha256 (fs.data i)).length = 32)
    (hrename : fs.rename (ns ++ [n]) (objectPath id) = some fs') :
    PoolOk sha256 fs' (ids ++ [id]) := by
  obtain ⟨hcomp, hid, htemp⟩ := digest_name hright hlen
  have hnew : fs.entry (objectPath id) = some ([str "objects"], id) := by
    have hpath : objectPath id = [str "objects"] ++ [id] := by rw [objectPath, hcomp]; rfl
    rw [hpath]
    exact Fs.entry_proper (by decide) hid h.objects
  unfold Fs.rename at hrename
  split at hrename
  · rename_i e m e' m' hentry hentry'
    obtain ⟨rfl, hdir, hwalk⟩ := Fs.entry_last hn.proper hentry
    obtain ⟨rfl, rfl⟩ := Prod.mk.inj (Option.some.inj (hnew.symm.trans hentry'))
    have hplace : ∀ {t}, fs.root.get (e ++ [m]) = some t → e = d := fun ht =>
      hopen.walk e hwalk hdir (fun l => h.noLink e m l hn) (by simp [ht])
    split at hrename
    · cases hrename
    · rename_i j k hj hk
      obtain rfl := hplace hj
      obtain rfl := Tree.file.inj (Option.some.inj (hopen.file.symm.trans hj))
      split at hrename
      · rename_i hik
        rw [← hik] at hk
        have hsingle := h.single _ _ _ _ hn hj hk
        exact absurd hsingle.symm (temp_ne hn htemp)
      · rw [← Option.some.inj hrename]
        exact h.setRenamed hn hj htemp hright
    · rename_i j hj _ _
      obtain rfl := hplace hj
      obtain rfl := Tree.file.inj (Option.some.inj (hopen.file.symm.trans hj))
      rw [← Option.some.inj hrename]
      exact h.setRenamed hn hj htemp hright
    · cases hrename
  · cases hrename

/-! ## The two ways into the pool -/

/-- What comes of an event: the pool is as it should be, and an object that has
been renamed had the digest of its id. -/
structure PoolStep (sha256 : CStr → List UInt8) (ids : List CStr) (r : PoolResult) : Prop where
  ok : PoolOk sha256 r.1 (ids ++ (r.2.map (·.1)).toList)
  digest : ∀ o ∈ r.2, digestIs sha256 o.1 o.2 = true

theorem PoolOk.idle (h : PoolOk sha256 fs ids) : PoolStep sha256 ids (fs, none) where
  ok := by simpa using h
  digest o ho := by cases ho

/-- Behind a check that says what the id says. -/
theorem PoolOk.renameChecked (hlen : ∀ c, (sha256 c).length = 32) (h : PoolOk sha256 fs ids)
    {ns : List Name} {n : Name} {i : Nat} {d : Path} (hn : Temp n) (hopen : Opened fs ns n i d)
    {checked : Bool} (renamed : Bool) {id : CStr}
    (hright : checked = true → hexDecode id = some (sha256 (fs.data i))) :
    PoolStep sha256 ids (renameChecked checked renamed fs (ns ++ [n]) i id) := by
  unfold Storage.renameChecked
  split
  · exact (h.remove hn).idle
  · rename_i hchecked
    have hid := hright (by simpa using hchecked)
    split
    · exact h.idle
    · rename_i fs₁ hrename
      have hrename' : fs.rename (ns ++ [n]) (objectPath id) = some fs₁ := by
        split at hrename
        · exact hrename
        · cases hrename
      exact
        { ok := h.rename hn hopen hid (hlen _) hrename'
          digest := by
            intro o ho
            obtain rfl := Option.mem_some_iff.mp ho
            exact decide_eq_true hid }

/-- The checksum of a download stands for the digest of its object, as far as it
is what the temporary file is checked against. -/
def MetaRight (sha256 : CStr → List UInt8) (isKernelPvk : Bool) (data : ObjectMeta) (fs : Fs)
    (id : CStr) : Prop :=
  ∀ checksum, data.sha256 = some checksum →
    if isKernelPvk then
      digestIs sha256 checksum [] = true →
        digestIs sha256 id ((fs.readFile (tmpPath id)).getD []) = true
    else hexDecode checksum = hexDecode id

theorem trailDownloadObject_step (hlen : ∀ c, (sha256 c).length = 32) (h : PoolOk sha256 fs ids)
    (io : DownloadCalls) {isKernelPvk : Bool} {data : ObjectMeta} {id : CStr}
    (hmeta : MetaRight sha256 isKernelPvk data fs id) :
    PoolStep sha256 ids (trailDownloadObject sha256 io isKernelPvk data fs id) := by
  obtain ⟨ns, n, hpath, hn⟩ := tempPath_last id (.inl rfl)
  have htmp : tmpPath id = ns ++ [n] := hpath
  unfold trailDownloadObject
  rw [MetaRight, htmp] at hmeta
  rw [htmp]
  split
  · exact h.idle
  split
  · exact h.idle
  split
  · exact h.idle
  split
  · exact h.idle
  rename_i i fs₁ hopen
  have hopen' : fs.openCreate (ns ++ [n]) false = some (i, fs₁) := by
    split at hopen
    · exact hopen
    · cases hopen
  obtain ⟨h₁, ⟨d, hopened⟩, hdata⟩ := h.openCreate hn hopen'
  -- the kernel of such a device is not written to the temporary file
  obtain ⟨h₂, hopened₂⟩ : PoolOk sha256 (if isKernelPvk then fs₁ else fs₁.writeAt i io.received) ids ∧
      Opened (if isKernelPvk then fs₁ else fs₁.writeAt i io.received) ns n i d := by
    cases isKernelPvk with
    | true => exact ⟨h₁, hopened⟩
    | false => exact h₁.write hn hopened io.received
  dsimp only
  split
  · exact h₂.idle
  split
  · exact (h₂.remove hn).idle
  split
  · exact h₂.idle
  rename_i checksum hchecksum
  refine h₂.renameChecked hlen hn hopened₂ io.rename fun hdigest => ?_
  have hmeta' := hmeta checksum hchecksum
  cases isKernelPvk with
  | true =>
      have hid := hmeta' hdigest
      rw [← hdata] at hid
      exact of_decide_eq_true hid
  | false =>
      have hequal : hexDecode checksum = hexDecode id := hmeta'
      rw [← hequal]
      exact of_decide_eq_true hdigest

theorem pvCtrlPutObject_step (hlen : ∀ c, (sha256 c).length = 32) (h : PoolOk sha256 fs ids)
    (io : PutCalls) (name : CStr) : PoolStep sha256 ids (pvCtrlPutObject sha256 io fs name) := by
  obtain ⟨ns, n, hpath, hn⟩ := tempPath_last name (.inr rfl)
  have hnew : newPath name = ns ++ [n] := hpath
  unfold pvCtrlPutObject
  rw [hnew]
  split
  · exact h.idle
  split
  · exact h.idle
  · exact (h.remove hn).idle
  rename_i i fs₁ hopen
  have hopen' : fs.openExcl (ns ++ [n]) = .ok (i, fs₁) := by
    split at hopen
    · exact hopen
    · cases hopen
  obtain ⟨h₁, d, hopened⟩ := h.openExcl hn hopen'
  obtain ⟨h₂, hopened₂⟩ := h₁.write hn hopened io.received
  dsimp only
  split
  · exact h₂.idle
  split
  · exact (h₂.remove hn).idle
  refine h₂.renameChecked hlen hn hopened₂ io.rename fun hdigest => ?_
  exact of_decide_eq_true (Bool.and_eq_true_iff.mp hdigest).2

/-! ## Runs -/

/-- A run of downloads and requests, from a storage with an object pool the
temporary files of which have no other link. -/
def poolSystem (sha256 : CStr → List UInt8) : System PoolState PoolEvent where
  init s := PoolOk sha256 s.fs [] ∧ s.renamed = []
  step := PoolState.step sha256

/-- Every object had the digest of its id when it was renamed, and has it now. -/
structure ContentAddressed (sha256 : CStr → List UInt8) (s : PoolState) : Prop where
  digest : ∀ o ∈ s.renamed, digestIs sha256 o.1 o.2 = true
  pool : ∀ o ∈ s.renamed, ∃ c, s.fs.readFile (objectPath o.1) = some c ∧
    digestIs sha256 o.1 c = true

/-- The checksum that the server sends for an object stands for the digest that
the id of the object stands for. -/
def MetasRight (sha256 : CStr → List UInt8) (s : PoolState) : PoolEvent → Prop
  | .download _ isKernelPvk data id => MetaRight sha256 isKernelPvk data s.fs id
  | .put _ _ => True

/-- The invariant of a run. -/
structure PoolInv (sha256 : CStr → List UInt8) (s : PoolState) : Prop where
  ok : PoolOk sha256 s.fs (s.renamed.map (·.1))
  digest : ∀ o ∈ s.renamed, digestIs sha256 o.1 o.2 = true

theorem PoolInv.step (hlen : ∀ c, (sha256 c).length = 32) {s : PoolState} {e : PoolEvent}
    (h : PoolInv sha256 s) (he : MetasRight sha256 s e) : PoolInv sha256 (s.step sha256 e) := by
  have hstep : PoolStep sha256 (s.renamed.map (·.1)) (e.result sha256 s.fs) := by
    match e with
    | .download io isKernelPvk data id => exact trailDownloadObject_step hlen h.ok io he
    | .put io name => exact pvCtrlPutObject_step hlen h.ok io name
  unfold PoolState.step
  generalize e.result sha256 s.fs = r at hstep ⊢
  obtain ⟨fs, object⟩ := r
  refine ⟨?_, fun o ho => ?_⟩
  · have hok := hstep.ok
    cases object with
    | none => simpa using hok
    | some o => simpa using hok
  · rcases List.mem_append.mp ho with ho | ho
    · exact h.digest o ho
    · exact hstep.digest o (Option.mem_toList.mp ho)

theorem PoolInv.contentAddressed (hlen : ∀ c, (sha256 c).length = 32) {s : PoolState}
    (h : PoolInv sha256 s) : ContentAddressed sha256 s where
  digest := h.digest
  pool o ho := by
    obtain ⟨-, i, hi, hright⟩ := h.ok.right o.1 (List.mem_map.mpr ⟨o, ho, rfl⟩)
    obtain ⟨hcomp, hid, -⟩ := digest_name hright (hlen _)
    have hpath : objectPath o.1 = [str "objects"] ++ [o.1] := by rw [objectPath, hcomp]; rfl
    refine ⟨s.fs.data i, ?_, decide_eq_true hright⟩
    rw [hpath]
    exact Fs.readFile_entry (by decide) hid hi

/-- **The pool is content addressed** in every run of downloads, interruptions
and requests in which the server sends the checksums that the ids stand for. -/
theorem pool_content_addressed (sha256 : CStr → List UInt8) (hlen : ∀ c, (sha256 c).length = 32)
    {s : PoolState} {es : List PoolEvent} (hinit : (poolSystem sha256).init s)
    (hall : (poolSystem sha256).Along (MetasRight sha256) s es) :
    ContentAddressed sha256 ((poolSystem sha256).run s es) := by
  have hinv : PoolInv sha256 s := by
    obtain ⟨hok, hnone⟩ := hinit
    refine ⟨?_, ?_⟩ <;> rw [hnone]
    · exact hok
    · intro o ho
      cases ho
  have hrun := (System.along_of_invariant (M := poolSystem sha256) (P := fun _ _ => True)
    (fun s e hinv he => ⟨PoolInv.step hlen hinv he, trivial⟩) hinv hall).2
  exact PoolInv.contentAddressed hlen hrun

/-! ## One download -/

/-- A storage with an empty object pool. -/
def emptyPool : PoolState where
  fs := { root := .dir [(str "objects", .dir [])], data := fun _ => [] }
  renamed := []

theorem emptyPool_init : (poolSystem sha256OfEmpty).init emptyPool := by
  have hdirs : ∀ p i, emptyPool.fs.root.get p ≠ some (.file i) := by
    intro p i hp
    match p with
    | [] => cases hp
    | [a] =>
      obtain ⟨es, c, hes, hc, hci⟩ := Tree.get_cons_some hp
      obtain rfl := Tree.dir.inj hes
      obtain rfl : c = .file i := Option.some.inj hci
      simp [List.lookup_cons] at hc
      split at hc <;> simp at hc
    | a :: b :: p =>
      obtain ⟨es, c, hes, hc, hci⟩ := Tree.get_cons_some hp
      obtain rfl := Tree.dir.inj hes
      obtain ⟨ds, e, rfl, he, -⟩ := Tree.get_cons_some hci
      simp [List.lookup_cons] at hc
      split at hc
      · rw [← Tree.dir.inj (Option.some.inj hc)] at he
        cases he
      · cases hc
  exact ⟨⟨⟨[], rfl⟩, fun d n l _ => Tree.not_symlink_of_orderly (by decide +kernel) _ l,
    fun d n i q _ hi => absurd hi (hdirs _ i), fun id hid => by cases hid⟩, rfl⟩

/-- The download of an empty object, with the checksum of one. -/
def emptyDownload (id : CStr) : PoolEvent :=
  .download ⟨true, [], false, true, true⟩ false ⟨some emptySha, some (str "https://h/o")⟩ id

/-- It is right for the object with that id. -/
theorem pool_content_addressed_empty :
    ContentAddressed sha256OfEmpty
      ((poolSystem sha256OfEmpty).run emptyPool [emptyDownload emptySha]) :=
  pool_content_addressed sha256OfEmpty length_sha256OfEmpty emptyPool_init
    ⟨fun _ h => congrArg hexDecode (Option.some.inj h).symm, trivial⟩

/-- Another object gets the same contents. -/
theorem pool_not_content_addressed :
    ¬ ∀ (sha256 : CStr → List UInt8) (s : PoolState) (es : List PoolEvent),
      (∀ c, (sha256 c).length = 32) → (poolSystem sha256).init s →
        ContentAddressed sha256 ((poolSystem sha256).run s es) := by
  intro h
  have hright := h sha256OfEmpty emptyPool [emptyDownload (List.replicate 64 102)]
    length_sha256OfEmpty emptyPool_init
  have hdigest := hright.digest (List.replicate 64 102, []) (by decide +kernel)
  exact absurd hdigest (by decide +kernel)

end Pantavisor.Storage
