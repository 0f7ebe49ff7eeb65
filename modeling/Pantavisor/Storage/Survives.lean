/-
Pantavisor.Storage.Survives — a revision that boots goes on doing so.

Between two boots the storage is worked on by downloads and requests, by
installations of other revisions, by what makes another revision the factory one,
and by garbage collections, in any order. `Survivor` is what a revision is to be
for all of these: its files are there, each object is one file with the one in the
pool, and no temporary file is. Where nothing is done to the revision itself it
stays one, so that its checks are right in the end (`survivor_checked`).
-/
import Pantavisor.Storage.CollectBoots
import Pantavisor.Storage.Factory
import Pantavisor.Storage.PoolDigests

namespace Pantavisor.Storage

open Pantavisor.Lib Pantavisor.Lib.Fs Pantavisor.Json Pantavisor.State
open Pantavisor.Controller (pvStateValidateChecksum)

/-! ## Events -/

/-- What works on the storage: a download or a request, an installation, with whether
all else of it works, the new factory revision, and a collection. -/
inductive StoreEvent where
  | pool (e : PoolEvent)
  | install (io : InstallCalls) (s : PvState) (ok : Bool)
  | factory (io : FactoryIo) (rev : CStr)
  | collect (g : GcInput)

/-- An installation, with its cleanup; `none` where it does not come to an end. -/
def installed (jsmn : Jsmn) (io : InstallCalls) (s : PvState) (ok : Bool) (fs : Fs) : Option Fs :=
  (installFiles jsmn io (downloadDir fs s.rev) s).map fun files =>
    if ok && files.linkObjects && files.openJson && files.expandJsons then files.fs
    else pvStorageRmRev files.fs s.rev

/-- What an event leaves. -/
def StoreEvent.result (sha256 : CStr → List UInt8) (jsmn : Jsmn) (fs : Fs) : StoreEvent → Fs
  | .pool e => (e.result sha256 fs).1
  | .install io s ok => (installed jsmn io s ok fs).getD fs
  | .factory io rev => (pvStorageUpdateFactory io fs rev).2
  | .collect g => (pvStorageGcRun g fs).2

/-- Runs on a storage. -/
def storeSystem (sha256 : CStr → List UInt8) (jsmn : Jsmn) : System Fs StoreEvent where
  init _ := True
  step := StoreEvent.result sha256 jsmn

/-! ## What every call keeps -/

theorem written_trailsPath (rev name : CStr) : Written (trailsPath rev name) :=
  ((written_components rev).cons (by decide)).append (written_components name)

theorem written_objectPath (id : CStr) : Written (objectPath id) :=
  (written_components id).cons (by decide)

theorem written_dropLast {ns : List Name} (h : Written ns) : Written ns.dropLast :=
  fun n hn => h n (List.dropLast_subset ns hn)

section Kept

variable {P : Fs → Prop} (hk : Kept P) {fs : Fs}
include hk

theorem kept_renameChecked (checked renamed : Bool) (tmp : List Name) (inode : Nat) (id : CStr)
    (h : P fs) : P (renameChecked checked renamed fs tmp inode id).1 := by
  unfold renameChecked
  split
  · exact hk.removeAny _ h
  · split
    · exact h
    · rename_i fs' hrename
      split at hrename
      · exact hk.rename (written_objectPath id) h hrename
      · cases hrename

theorem kept_pool (sha256 : CStr → List UInt8) (e : PoolEvent) (h : P fs) :
    P (e.result sha256 fs).1 := by
  cases e with
  | download io isKernelPvk data id =>
      rw [PoolEvent.result]
      unfold trailDownloadObject
      split
      · exact h
      split
      · exact h
      split
      · exact h
      split
      · exact h
      rename_i i fs₁ hopen
      have h₁ : P fs₁ := by
        split at hopen
        · exact hk.openCreate (written_objectPath _) h hopen
        · cases hopen
      have h₂ : P (if isKernelPvk then fs₁ else fs₁.writeAt i io.received) := by
        split
        · exact h₁
        · exact hk.writeAt _ _ h₁
      dsimp only
      split
      · exact h₂
      split
      · exact hk.removeAny _ h₂
      split
      · exact h₂
      · exact kept_renameChecked hk _ _ _ _ _ h₂
  | put io name =>
      rw [PoolEvent.result]
      unfold pvCtrlPutObject
      split
      · exact h
      split
      · exact h
      · exact hk.removeAny _ h
      rename_i i fs₁ hopen
      have h₁ : P fs₁ := by
        split at hopen
        · exact hk.openExcl (written_objectPath _) h hopen
        · cases hopen
      have h₂ := hk.writeAt i io.received h₁
      dsimp only
      split
      · exact h₂
      split
      · exact hk.removeAny _ h₂
      · exact kept_renameChecked hk _ _ _ _ _ h₂

theorem kept_copyBind (io : ObjectIo) (source : List Name) {target : List Name}
    (htarget : Written target) (h : P fs) : P (copyBind io source target fs) := by
  unfold copyBind
  dsimp only
  split
  · exact h
  · rename_i i fs₁ hopen
    have h₁ : P fs₁ := by
      split at hopen
      · exact hk.openCreate htarget h hopen
      · cases hopen
    split
    · exact h₁
    · exact hk.writeAt _ _ h₁

theorem kept_linkObjects (rev : CStr) (objects : List PvObject) (io : List ObjectIo) (h : P fs) :
    P (linkObjects rev objects io fs).2 := by
  induction objects generalizing fs io with
  | nil => exact h
  | cons o objects ih =>
      have hdir := hk.mkdirP (written_dropLast (written_trailsPath rev o.name)) h
      unfold linkObjects
      dsimp only
      split
      · exact ih _ (kept_copyBind hk _ _ (written_trailsPath rev o.name) hdir)
      · split
        · rename_i fs₁ hlink
          split at hlink
          · exact ih _ (hk.link (written_trailsPath rev o.name) hdir hlink)
          · cases hlink
        · exact ih _ hdir
        · exact hdir

theorem kept_linkNames (rev : CStr) (names : List (CStr × CStr)) (io : List Bool) (h : P fs) :
    P (linkNames rev names io fs).2.2 := by
  induction names generalizing fs io with
  | nil => exact h
  | cons e names ih =>
      obtain ⟨source, target⟩ := e
      have hremove := hk.removeAny (trailsPath rev target) h
      unfold linkNames
      dsimp only
      split
      · rename_i fs₁ hlink
        split at hlink
        · exact ih _ (hk.link (written_trailsPath rev target) hremove hlink)
        · cases hlink
      · exact hremove

theorem kept_linkBoot (io : List Bool) (s : PvState) (h : P fs) :
    P (pvStorageMetaLinkBoot io fs s).2 := by
  have haddons := kept_linkNames hk s.rev (addonLinks s) io h
  unfold pvStorageMetaLinkBoot
  generalize linkNames s.rev (addonLinks s) io fs = r at haddons ⊢
  obtain ⟨ok, io, fs₁⟩ := r
  dsimp only
  split
  · exact haddons
  · exact kept_linkNames hk s.rev (bootLinks s) io
      (hk.mkdirP (written_trailsPath s.rev (str ".pv/")) haddons)

theorem kept_installJson (io : InstallCalls) (rev json : CStr) (h : P fs) :
    P (installJson io fs rev json).2 := by
  unfold installJson
  dsimp only
  split
  · exact h
  · rename_i i fs₁ hopen
    have h₁ : P fs₁ := by
      split at hopen
      · exact hk.openCreate (written_trailsPath rev _) h hopen
      · cases hopen
    have h₂ := hk.writeAt i (io.writeJson.taken json) h₁
    dsimp only
    split
    · cases hrename : (fs₁.writeAt i (io.writeJson.taken json)).rename
        (trailsPath rev (str ".pvr/json.new")) (jsonPath rev) with
      | none => exact h₂
      | some fs₃ => exact hk.rename (written_trailsPath rev _) h₂ hrename
    · exact h₂

theorem kept_expandLoop (rev : CStr) (members : List (CStr × CStr)) (io : List ExpandStep)
    (h : P fs) : P (expandLoop rev members io fs).2 := by
  induction members generalizing fs io with
  | nil => exact h
  | cons m members ih =>
      obtain ⟨key, value⟩ := m
      rw [expandLoop]
      split
      · exact ih _ h
      · dsimp only
        split
        · exact h
        · have hdir : P (if fs.stat (trailsPath rev key).dropLast then fs
              else fs.mkdirP (trailsPath rev key).dropLast) := by
            split
            · exact h
            · exact hk.mkdirP (written_dropLast (written_trailsPath rev key)) h
          split
          · exact hdir
          · rename_i i fs₁ hopen
            split at hopen
            · exact ih _ (hk.writeAt _ _ (hk.openCreate (written_trailsPath rev key) hdir hopen))
            · cases hopen

theorem kept_installFiles (jsmn : Jsmn) (io : InstallCalls) (s : PvState) {files : InstallFiles}
    (h : P fs) (hfiles : installFiles jsmn io fs s = some files) : P files.fs := by
  have hlinked : P (trailLinkObjects io.objects io.boot (fs.mkdirP (pvrPath s.rev)) s).2 := by
    have hobjects := kept_linkObjects hk s.rev s.objects io.objects
      (hk.mkdirP (written_trailsPath s.rev (str ".pvr")) h)
    unfold trailLinkObjects
    dsimp only
    split
    · exact hobjects
    · exact kept_linkBoot hk io.boot s hobjects
  unfold installFiles at hfiles
  dsimp only at hfiles
  split at hfiles
  · exact Option.some.inj hfiles ▸ hlinked
  · split at hfiles
    · cases hfiles
    · rename_i json _
      have hjson := kept_installJson hk io s.rev json hlinked
      split at hfiles
      · exact Option.some.inj hfiles ▸ hjson
      · split at hfiles
        · cases hfiles
        · rename_i ret fs₁ hexpand
          rw [← Option.some.inj hfiles]
          unfold pvStorageMetaExpandJsons at hexpand
          split at hexpand
          · exact (Prod.mk.inj (Option.some.inj hexpand)).2 ▸ hjson
          · split at hexpand
            · cases hexpand
            · exact (Prod.mk.inj (Option.some.inj hexpand)).2 ▸
                kept_expandLoop hk s.rev _ io.expand hjson

theorem kept_factory (io : FactoryIo) (rev : CStr) (h : P fs) :
    P (pvStorageUpdateFactory io fs rev).2 := by
  have hdir := hk.mkdirP (written_trailsPath (str "0") (str ".pvr")) (kept_rmRev hk (str "0") h)
  unfold pvStorageUpdateFactory
  dsimp only
  split
  · exact hdir
  · rename_i i fs₁ hopen
    have h₁ : P fs₁ := by
      split at hopen
      · exact hk.openCreate (written_trailsPath (str "0") _) hdir hopen
      · cases hopen
    split
    · exact h₁
    · split <;> exact hk.writeAt _ _ h₁

/-- **Every event** keeps what every call keeps. -/
theorem kept_event (sha256 : CStr → List UInt8) (jsmn : Jsmn) (e : StoreEvent) (h : P fs) :
    P (e.result sha256 jsmn fs) := by
  cases e with
  | pool e => exact kept_pool hk sha256 e h
  | install io s ok =>
      rw [StoreEvent.result, installed]
      cases hfiles : installFiles jsmn io (downloadDir fs s.rev) s with
      | none => exact h
      | some files =>
          have hdone := kept_installFiles hk jsmn io s (hk.mkdirP (written_trailsPath s.rev _) h)
            hfiles
          simp only [Option.map_some, Option.getD_some]
          split
          · exact hdone
          · exact kept_rmRev hk s.rev hdone
  | factory io rev => exact kept_factory hk io rev h
  | collect g => exact kept_gcRun hk g h

end Kept

/-! ## Revisions that go on booting -/

section Survivor

variable {sha256 : CStr → List UInt8} {jsmn : Jsmn} {t : PvState} {ns : Path} {fs fs' : Fs}

/-- What the checks of a revision read: its directory, and its objects in the pool. -/
def Owned (t : PvState) (ns : Path) (a : Path) : Prop :=
  a = str "trails" :: ns ∨ ∃ o ∈ t.objects, a = [str "objects", o.id]

/-- A revision with all that its checks look for: each object is one file with the one in the
pool, and no temporary file is a link of what it owns. -/
structure Survivor (sha256 : CStr → List UInt8) (t : PvState) (ns : Path) (fs : Fs) : Prop where
  proven : Proven (bootWay t.rev) fs
  objects : ∀ o ∈ t.objects, ∃ i, fs.node (place t.rev o.name) = some (.file i) ∧
    fs.node [str "objects", o.id] = some (.file i) ∧ hexDecode o.id = some (sha256 (fs.data i))
  jsons : ∀ j ∈ t.jsons, fs.held (place t.rev j.name) = some (.file j.value)
  temps : ∀ n i a q, Temp n → fs.node [str "objects", n] = some (.file i) → Owned t ns a →
    fs.node (a ++ q) ≠ some (.file i)

/-- What nothing else is done to: the revision is at its place, and its files have names. -/
structure NamedRev (t : PvState) (ns : Path) : Prop where
  place : RevAt t.rev ns
  notLocals : t.rev ≠ str "locals"
  files : FileNames t

/-- An event that does nothing to the revision itself. -/
def Harmless (jsmn : Jsmn) (t : PvState) (ns : Path) (fs : Fs) : StoreEvent → Prop
  | .pool (.download _ isKernelPvk _ id) =>
    Entry id ∧ (isKernelPvk = true → ∀ o ∈ t.objects, o.id ≠ id)
  | .pool (.put _ name) => Entry name ∧ ∀ o ∈ t.objects, o.id ≠ name
  | .install io s ok => installed jsmn io s ok fs ≠ none ∧
    Off jsmn fs s (str "trails" :: ns) ∧ Off jsmn fs s [str "objects"]
  | .factory _ _ => t.rev ≠ str "0"
  | .collect g => g.keeps t.rev = true

/-- A survivor passes its checks. -/
theorem Survivor.checked (h : Survivor sha256 t ns fs) (hnamed : NamedRev t ns)
    (hlen : ∀ s, (sha256 s).length = 32) :
    pvStateValidateChecksum (diskChecks sha256 fs) t = true := by
  refine BootFiles.checked ⟨fun o ho => ?_, fun o ho => ?_, fun j hj => ?_⟩ hlen
  · obtain ⟨i, hplace, -, hhex⟩ := h.objects o ho
    exact ⟨_, readFile_place hnamed.place.plain (hnamed.files.1 o ho) (node_held hplace), hhex⟩
  · obtain ⟨i, -, hpool, hhex⟩ := h.objects o ho
    exact ⟨_, (readFile_object (bootWay_gc h.proven) (entry_of_hex hhex (hlen _))).mpr
      ⟨i, hpool, rfl⟩, hhex⟩
  · exact readFile_place hnamed.place.plain (hnamed.files.2 j hj) (h.jsons j hj)

theorem node_of_get {p : Path} (h : fs'.root.get p = fs.root.get p) : fs'.node p = fs.node p := by
  rw [node, h, node]

/-- What keeps all that a survivor owns leaves it one. -/
theorem Survivor.of_keeps (h : Survivor sha256 t ns fs) (hplace : RevAt t.rev ns)
    (hproven : Proven (bootWay t.rev) fs') (hkeeps : ∀ a, Owned t ns a → Keeps a fs fs')
    (htemps : ∀ n i a q, Temp n → fs'.node [str "objects", n] = some (.file i) → Owned t ns a →
      fs'.node (a ++ q) ≠ some (.file i)) : Survivor sha256 t ns fs' := by
  have hrev := hkeeps _ (.inl rfl)
  have hin : ∀ name, ∃ q, place t.rev name = (str "trails" :: ns) ++ q := by
    intro name
    rw [place, trailsPath, clean_append, hplace.revPath_eq]
    exact ⟨_, rfl⟩
  refine ⟨hproven, fun o ho => ?_, fun j hj => ?_, htemps⟩
  · obtain ⟨i, hi, hpool, hhex⟩ := h.objects o ho
    have hkeep := hkeeps _ (.inr ⟨o, ho, rfl⟩)
    obtain ⟨q, hq⟩ := hin o.name
    rw [hq] at hi ⊢
    refine ⟨i, (node_of_get (hrev.get q)).trans hi, (node_of_get hkeep.tree).trans hpool, ?_⟩
    rw [hrev.data q i (node_eq_file.mp hi), hhex]
  · obtain ⟨q, hq⟩ := hin j.name
    have hheld := h.jsons j hj
    rw [hq] at hheld ⊢
    rw [hrev.held q, hheld]

/-! ## Downloads and requests -/

/-- The places of temporary files. -/
def tempPlace (q : Path) : Prop := ∃ n, Temp n ∧ q = [str "objects", n]

/-- The places that the paths of the pool lead through. -/
def poolWay (q : Path) : Prop := ∃ n, q <+: [str "objects", n]

/-- A name of the pool that is none of what is at `a`. -/
structure PoolOff (a : Path) (id : Name) : Prop where
  tmp : Beside a [str "objects", id ++ str ".tmp"]
  new : Beside a [str "objects", id ++ str ".new"]
  object : Beside a [str "objects", id]

theorem pool_admits {a : Path} {id : Name} (hid : Entry id) (hoff : Beside a [str "objects", id]) :
    Admits a poolWay (objectPath id) ∧ ¬ clean (objectPath id) <+: a ∧
      clean (objectPath id) = [str "objects", id] := by
  have hclean : clean (objectPath id) = [str "objects", id] := by
    rw [objectPath_entry hid]
    exact clean_proper (by
      rw [List.singleton_append, List.forall_mem_cons, List.forall_mem_singleton]
      exact ⟨by decide, hid.1⟩)
  refine ⟨⟨?_, fun q hq => ⟨id, hclean ▸ hq⟩, hclean ▸ hoff.1⟩, hclean ▸ hoff.2, hclean⟩
  rw [objectPath_entry hid]
  exact Plain.append (by decide) fun n hn => .inr (List.mem_singleton.mp hn ▸ hid.1)

theorem entry_temp {id suffix : Name} (hid : Entry id)
    (hsuffix : suffix = str ".tmp" ∨ suffix = str ".new") :
    Entry (id ++ suffix) ∧ Temp (id ++ suffix) := by
  have htemp : Temp (id ++ suffix) := ⟨id, by rcases hsuffix with rfl | rfl <;> simp⟩
  refine ⟨⟨htemp.proper, ?_⟩, htemp⟩
  rw [List.mem_append, not_or]
  refine ⟨hid.2, ?_⟩
  rcases hsuffix with rfl | rfl <;> decide

/-- What comes behind the check of a temporary file. -/
theorem spares_renameChecked {a : Path} {id n : Name} (hn : Entry n) (htemp : Temp n)
    (hoffTemp : Beside a [str "objects", n]) (hid : Entry id)
    (hoff : Beside a [str "objects", id]) (checked renamed : Bool) (inode : Nat) :
    Spares a poolWay tempPlace fs (renameChecked checked renamed fs (objectPath n) inode id).1 := by
  obtain ⟨hadmits, hnot, hclean⟩ := pool_admits hn hoffTemp
  obtain ⟨hadmits', hnot', -⟩ := pool_admits hid hoff
  unfold renameChecked
  split
  · cases hremove : fs.remove (objectPath n) with
    | none => exact Spares.refl fs
    | some fs₁ => exact spares_remove hadmits hnot hremove
  · split
    · exact Spares.refl fs
    · rename_i fs₁ hrename
      split at hrename
      · exact spares_rename hadmits hadmits' hnot hnot' ⟨n, htemp, hclean⟩ hrename
      · cases hrename

/-- **A download or a request** keeps what it is off. -/
theorem spares_pool {a : Path} {e : PoolEvent} {id : Name}
    (he : (∃ io pvk data, e = .download io pvk data id) ∨ ∃ io, e = .put io id) (hid : Entry id)
    (hoff : PoolOff a id) : Spares a poolWay tempPlace fs (e.result sha256 fs).1 := by
  intro h
  rcases he with ⟨io, pvk, data, rfl⟩ | ⟨io, rfl⟩
  · obtain ⟨htmp, htemp⟩ := entry_temp hid (.inl rfl)
    obtain ⟨hadmits, hnot, hclean⟩ := pool_admits htmp hoff.tmp
    rw [PoolEvent.result]
    unfold trailDownloadObject
    split
    · exact Spares.refl fs h
    split
    · exact Spares.refl fs h
    split
    · exact Spares.refl fs h
    split
    · exact Spares.refl fs h
    rename_i i fs₁ hopen
    have hopen' : fs.openCreate (tmpPath id) false = some (i, fs₁) := by
      split at hopen
      · exact hopen
      · cases hopen
    obtain ⟨hf, hk, hapart⟩ := spares_openCreate hadmits hnot (.inl ⟨_, htemp, hclean⟩) hopen' h
    have hwrite : Spares a poolWay tempPlace fs₁
        (if pvk then fs₁ else fs₁.writeAt i io.received) := by
      split
      · exact Spares.refl fs₁
      · exact spares_setData hapart _
    have hbehind : ∀ {fs₂ : Fs}, Spares a poolWay tempPlace
        (if pvk then fs₁ else fs₁.writeAt i io.received) fs₂ →
          Fenced a poolWay tempPlace fs₂ ∧ Keeps a fs fs₂ := by
      intro fs₂ h₂
      obtain ⟨hf₂, hk₂⟩ := hwrite.trans h₂ hf
      exact ⟨hf₂, hk.trans hk₂⟩
    dsimp only
    split
    · exact hbehind (Spares.refl _)
    split
    · refine hbehind ?_
      cases hremove : (if pvk then fs₁ else fs₁.writeAt i io.received).remove (tmpPath id) with
      | none => exact Spares.refl _
      | some fs₂ => exact spares_remove hadmits hnot hremove
    split
    · exact hbehind (Spares.refl _)
    · exact hbehind (spares_renameChecked htmp htemp hoff.tmp hid hoff.object _ _ _)
  · obtain ⟨hnew, htemp⟩ := entry_temp hid (.inr rfl)
    obtain ⟨hadmits, hnot, hclean⟩ := pool_admits hnew hoff.new
    have hremove : ∀ fs₂ : Fs,
        Spares a poolWay tempPlace fs₂ ((fs₂.remove (newPath id)).getD fs₂) := by
      intro fs₂
      cases hremove : fs₂.remove (newPath id) with
      | none => exact Spares.refl _
      | some fs₃ => exact spares_remove hadmits hnot hremove
    rw [PoolEvent.result]
    unfold pvCtrlPutObject
    split
    · exact Spares.refl fs h
    split
    · exact Spares.refl fs h
    · exact hremove fs h
    rename_i i fs₁ hopen
    have hopen' : fs.openExcl (newPath id) = .ok (i, fs₁) := by
      split at hopen
      · exact hopen
      · cases hopen
    obtain ⟨hf, hk, hapart⟩ := spares_openExcl hadmits hnot hopen' h
    have hbehind : ∀ {fs₂ : Fs}, Spares a poolWay tempPlace (fs₁.writeAt i io.received) fs₂ →
        Fenced a poolWay tempPlace fs₂ ∧ Keeps a fs fs₂ := by
      intro fs₂ h₂
      obtain ⟨hf₂, hk₂⟩ := (spares_setData hapart _).trans h₂ hf
      exact ⟨hf₂, hk.trans hk₂⟩
    dsimp only
    split
    · exact hbehind (Spares.refl _)
    split
    · exact hbehind (hremove _)
    · exact hbehind (spares_renameChecked hnew htemp hoff.new hid hoff.object _ _ _)

/-- What a survivor owns is fenced against temporary files. -/
theorem Survivor.fenced (h : Survivor sha256 t ns fs) {a : Path} (ha : Owned t ns a) :
    Fenced a poolWay tempPlace fs where
  root := h.proven.root
  names q hq n hn := (h.proven.names q hq n hn).1
  noLink q l := fun ⟨n, hq⟩ => h.proven.noLink q l (.inl (.inr ⟨n, hq⟩))
  apart p i q := by
    rintro ⟨n, hn, rfl⟩ hi hq
    exact h.temps n i a q hn (node_eq_file.mpr hi) ha (node_eq_file.mpr hq)

/-- The ids of a survivor are those of objects that are in place. -/
theorem Survivor.id_not_temp (h : Survivor sha256 t ns fs) (hlen : ∀ s, (sha256 s).length = 32)
    {o : PvObject} (ho : o ∈ t.objects) : ¬ Temp o.id := by
  obtain ⟨i, -, -, hhex⟩ := h.objects o ho
  exact (digest_name hhex (hlen _)).2.2

theorem beside_trails (q : Path) (n : Name) : Beside (str "trails" :: q) [str "objects", n] :=
  ⟨not_prefix_of_head_ne (by decide) _ _, not_prefix_of_head_ne (by decide) _ _⟩

theorem beside_objects {n m : Name} (h : n ≠ m) : Beside [str "objects", n] [str "objects", m] := by
  have hnot : ∀ {a b : Name}, a ≠ b → ¬ [str "objects", a] <+: [str "objects", b] := fun hab hle =>
    hab (List.cons_prefix_cons.mp (List.cons_prefix_cons.mp hle).2).1
  exact ⟨hnot h, hnot (Ne.symm h)⟩

theorem Survivor.poolOff (h : Survivor sha256 t ns fs) (hlen : ∀ s, (sha256 s).length = 32)
    {a : Path} (ha : Owned t ns a) {id : Name} (hne : ∀ o ∈ t.objects, o.id ≠ id) :
    PoolOff a id := by
  rcases ha with rfl | ⟨o, ho, rfl⟩
  · exact ⟨beside_trails _ _, beside_trails _ _, beside_trails _ _⟩
  · have htemp := h.id_not_temp hlen ho
    exact ⟨beside_objects fun heq => htemp ⟨id, .inl heq⟩,
      beside_objects fun heq => htemp ⟨id, .inr heq⟩, beside_objects (hne o ho)⟩

/-- A download or a request of another object. -/
theorem Survivor.pool_other (h : Survivor sha256 t ns fs) (hnamed : NamedRev t ns)
    (hlen : ∀ s, (sha256 s).length = 32) {e : PoolEvent} {id : Name}
    (he : (∃ io pvk data, e = .download io pvk data id) ∨ ∃ io, e = .put io id) (hid : Entry id)
    (hne : ∀ o ∈ t.objects, o.id ≠ id) : Survivor sha256 t ns (e.result sha256 fs).1 := by
  have hspares : ∀ a, Owned t ns a → Fenced a poolWay tempPlace (e.result sha256 fs).1 ∧
      Keeps a fs (e.result sha256 fs).1 := fun a ha =>
    spares_pool he hid (h.poolOff hlen ha hne) (h.fenced ha)
  refine h.of_keeps hnamed.place (kept_pool (proven_kept _) sha256 e h.proven)
    (fun a ha => (hspares a ha).2) fun n i a q hn hi ha hq => ?_
  exact (hspares a ha).1.apart _ i q ⟨n, hn, rfl⟩ (node_eq_file.mp hi) (node_eq_file.mp hq)

theorem Survivor.pool (h : Survivor sha256 t ns fs) (hnamed : NamedRev t ns)
    (hlen : ∀ s, (sha256 s).length = 32) {e : PoolEvent}
    (he : Harmless jsmn t ns fs (.pool e)) : Survivor sha256 t ns (e.result sha256 fs).1 := by
  cases e with
  | put io name => exact h.pool_other hnamed hlen (.inr ⟨io, rfl⟩) he.1 he.2
  | download io pvk data id =>
      by_cases hne : ∀ o ∈ t.objects, o.id ≠ id
      · exact h.pool_other hnamed hlen (.inl ⟨io, pvk, data, rfl⟩) he.1 hne
      · -- an object that is there is not downloaded again
        have hpvk : pvk = false := by
          cases pvk with
          | false => rfl
          | true => exact absurd (he.2 rfl) hne
        push Not at hne
        obtain ⟨o, ho, rfl⟩ := hne
        obtain ⟨i, -, hpool, -⟩ := h.objects o ho
        have hstat : fs.stat (objectPath o.id) = true := by
          rw [Fs.stat, (find_object (bootWay_gc h.proven) he.1).mpr hpool]
          rfl
        have hsame : ((PoolEvent.download io pvk data o.id).result sha256 fs).1 = fs := by
          rw [PoolEvent.result, trailDownloadObject, hpvk, hstat]
          rfl
        rw [hsame]
        exact h

/-! ## Installations -/

/-- **An installation keeps** what it is off, cleanup included. -/
theorem Off.keeps_installed {s : PvState} {a : Path} {io : InstallCalls} {ok : Bool}
    (h : Off jsmn fs s a) (hinstalled : installed jsmn io s ok fs = some fs') : Keeps a fs fs' := by
  have hdir : Spares a (onWay s.rev) (writtenAt s) fs (downloadDir fs s.rev) :=
    spares_mkdirP (admits_rev h.rev h.trails (by decide))
  obtain ⟨files, hfiles, rfl⟩ := Option.map_eq_some_iff.mp hinstalled
  have hinstall := hdir.trans (h.spares_installFiles io hfiles)
  split
  · exact (hinstall h.fenced).2
  · exact (hinstall.trans (spares_rmRev h.rev h.trails h.logs h.disks) h.fenced).2

theorem Survivor.install (h : Survivor sha256 t ns fs) (hnamed : NamedRev t ns)
    {io : InstallCalls} {s : PvState} {ok : Bool}
    (he : Harmless jsmn t ns fs (.install io s ok)) :
    Survivor sha256 t ns ((StoreEvent.install io s ok).result sha256 jsmn fs) := by
  obtain ⟨hends, hrev, hpool⟩ := he
  obtain ⟨fs', hfs'⟩ := Option.ne_none_iff_exists'.mp hends
  have hkept := kept_event (proven_kept (bootWay t.rev)) sha256 jsmn (.install io s ok) h.proven
  have hresult : (StoreEvent.install io s ok).result sha256 jsmn fs = fs' := by
    rw [StoreEvent.result, hfs', Option.getD_some]
  rw [hresult] at hkept ⊢
  have hkeepRev := hrev.keeps_installed hfs'
  have hkeepPool := hpool.keeps_installed hfs'
  have hkeeps : ∀ a, Owned t ns a → Keeps a fs fs' := by
    rintro a (rfl | ⟨o, ho, rfl⟩)
    · exact hkeepRev
    · exact hkeepPool.below [o.id]
  refine h.of_keeps hnamed.place hkept hkeeps fun n i a q hn hi ha hq => ?_
  have htemp : fs'.root.get [str "objects", n] = fs.root.get [str "objects", n] := hkeepPool.get [n]
  exact h.temps n i a q hn ((node_of_get htemp).symm.trans hi) ha
    ((node_of_get ((hkeeps a ha).get q)).symm.trans hq)

/-! ## The factory revision -/

theorem keeps_removeDirs {a : Path} {ps : List Path} (h : ∀ p ∈ ps, Beside a p) (fs : Fs) :
    Keeps a fs (fs.removeDirs ps) := by
  induction ps generalizing fs with
  | nil => exact Keeps.refl a fs
  | cons p ps ih =>
      obtain ⟨hp, hrest⟩ := List.forall_mem_cons.mp h
      refine Keeps.trans ?_ (ih hrest (fs.removeDir p))
      rw [removeDir]
      split
      · exact keeps_setRoot hp none fs
      · exact Keeps.refl a fs

theorem factoryRev : RevAt (str "0") [str "0"] := .remote (str "0") (by decide)

theorem gcWay_factory {q : Path} (hq : q <+: [str "trails", str "0"]) : gcWay q :=
  .inl ⟨[str "0"], by simp, by decide, _, by simp [revPlaces], hq⟩

/-- The directories of the factory revision are apart from what another one owns. -/
theorem NamedRev.beside_factory (hnamed : NamedRev t ns) (hne : t.rev ≠ str "0") {a : Path}
    (ha : Owned t ns a) : ∀ p ∈ revPlaces [str "0"], Beside a p := by
  have hapart : ∀ {n m : Name} (p q : Path), n ≠ m → Beside (n :: p) (m :: q) := fun p q h =>
    ⟨not_prefix_of_head_ne h _ _, not_prefix_of_head_ne (Ne.symm h) _ _⟩
  have hns := hnamed.place.ne_locals hnamed.notLocals
  simp only [revPlaces, List.forall_mem_cons, List.not_mem_nil, false_implies, implies_true,
    and_true]
  rcases ha with rfl | ⟨o, ho, rfl⟩
  · refine ⟨⟨fun hle => ?_, fun hle => ?_⟩, hapart _ _ (by decide), hapart _ _ (by decide)⟩
    · obtain ⟨q, hq⟩ := (List.cons_prefix_cons.mp hle).2
      exact hne (RevAt.prefix_eq hnamed.place factoryRev hns (by decide)
        (by rw [hq, List.append_nil]))
    · obtain ⟨q, hq⟩ := (List.cons_prefix_cons.mp hle).2
      exact hne (RevAt.prefix_eq factoryRev hnamed.place (by decide) hns
        (by rw [hq, List.append_nil])).symm
  · exact ⟨hapart _ _ (by decide), hapart _ _ (by decide), hapart _ _ (by decide)⟩

/-- The removal of the factory revision. -/
theorem Survivor.rmFactory (h : Survivor sha256 t ns fs) (hnamed : NamedRev t ns)
    (hne : t.rev ≠ str "0") : Survivor sha256 t ns (pvStorageRmRev fs (str "0")) ∧
      (pvStorageRmRev fs (str "0")).node [str "trails", str "0"] ≠ some .dir := by
  have hkept := kept_rmRev (proven_kept (bootWay t.rev)) (str "0") h.proven
  rw [rmRev_removeDirs (bootWay_gc h.proven) factoryRev (by decide)] at hkept ⊢
  have hcleared := cleared_removeDirs (fun p (hp : p ∈ revPlaces [str "0"]) =>
    revPlaces_ne_nil hp) fs
  refine ⟨h.of_keeps hnamed.place hkept
    (fun a ha => keeps_removeDirs (hnamed.beside_factory hne ha) fs) fun n i a q hn hi ha hq =>
      h.temps n i a q hn (hcleared.node_some.mp hi).1 ha (hcleared.node_some.mp hq).1, ?_⟩
  intro hdir
  obtain ⟨hdir, hnot⟩ := hcleared.node_some.mp hdir
  exact hnot ⟨_, by simp [revPlaces], hdir, List.prefix_refl _⟩

theorem Survivor.factory (h : Survivor sha256 t ns fs) (hnamed : NamedRev t ns)
    (hne : t.rev ≠ str "0") (io : FactoryIo) (rev : CStr) :
    Survivor sha256 t ns (pvStorageUpdateFactory io fs rev).2 := by
  obtain ⟨h₁, hnodir⟩ := h.rmFactory hnamed hne
  have hkept := kept_factory (proven_kept (bootWay t.rev)) io rev h.proven
  have hjson : clean (jsonPath (str "0")) = [str "trails", str "0"] ++ [str ".pvr", str "json"] :=
    by decide
  have hpvr : clean (pvrPath (str "0")) <+: clean (jsonPath (str "0")) := by decide
  unfold pvStorageUpdateFactory at hkept ⊢
  dsimp only at hkept ⊢
  generalize pvStorageRmRev fs (str "0") = fs₁ at h₁ hnodir hkept ⊢
  -- nothing is below the directory, which is gone
  have hbelow : ∀ q, q ≠ [] → fs₁.root.get ([str "trails", str "0"] ++ q) = none := by
    intro q hq
    cases hget : fs₁.root.get ([str "trails", str "0"] ++ q) with
    | none => rfl
    | some v =>
        obtain ⟨es, hes⟩ := Tree.dir_of_get_append hget hq
        exact absurd (node_eq_dir.mpr ⟨es, hes⟩) hnodir
  have hfenced : ∀ a, Owned t ns a →
      Fenced a (fun q => q <+: clean (jsonPath (str "0"))) tempPlace fs₁ := by
    intro a ha
    have hpool := h₁.fenced ha
    refine ⟨hpool.root, hpool.names, fun q l hq hl => ?_, hpool.apart⟩
    rw [hjson] at hq
    rcases List.prefix_or_prefix_of_prefix hq (List.prefix_append _ _) with hq | hq
    · exact h₁.proven.noLink q l (.inl (gcWay_factory hq)) hl
    · obtain ⟨r, rfl⟩ := hq
      cases r with
      | nil =>
          exact h₁.proven.noLink _ l (.inl (gcWay_factory (by simp))) hl
      | cons n r =>
          rw [hbelow _ (by simp)] at hl
          cases hl
  have hbeside : ∀ a, Owned t ns a → Beside a (clean (jsonPath (str "0"))) := by
    intro a ha
    refine (hnamed.beside_factory hne ha [str "trails", str "0"] (by simp [revPlaces])).below ?_
    rw [hjson]
    exact List.prefix_append _ _
  have hbeside' : ∀ a, Owned t ns a → ¬ a <+: clean (pvrPath (str "0")) := fun a ha hle =>
    (hbeside a ha).1 (hle.trans hpvr)
  obtain ⟨a₀, ha₀⟩ : ∃ a, Owned t ns a := ⟨_, .inl rfl⟩
  have hgrow := grows_mkdirP (hfenced a₀ ha₀).root (by decide : Plain (pvrPath (str "0")))
    fun q hq l => (hfenced a₀ ha₀).noLink q l (hq.trans hpvr)
  have hdir : ∀ a, Owned t ns a → Spares a (fun q => q <+: clean (jsonPath (str "0"))) tempPlace
      fs₁ (fs₁.mkdirP (pvrPath (str "0"))) := fun a ha =>
    spares_mkdirP ⟨by decide, fun q hq => hq.trans hpvr, hbeside' a ha⟩
  have hnofile : ∀ j, (fs₁.mkdirP (pvrPath (str "0"))).root.get (clean (jsonPath (str "0")))
      ≠ some (.file j) := by
    intro j hj
    have hold := hgrow.new _ _ hj rfl
    rw [hjson, hbelow _ (by simp)] at hold
    cases hold
  have hdone : ∀ fs₂ : Fs, Proven (bootWay t.rev) fs₂ → (∀ a, Owned t ns a →
      Fenced a (fun q => q <+: clean (jsonPath (str "0"))) tempPlace fs₂ ∧ Keeps a fs₁ fs₂) →
        Survivor sha256 t ns fs₂ := by
    intro fs₂ hproven hall
    refine h₁.of_keeps hnamed.place hproven (fun a ha => (hall a ha).2)
      fun n i a q hn hi ha hq => ?_
    exact (hall a ha).1.apart _ i q ⟨n, hn, rfl⟩ (node_eq_file.mp hi) (node_eq_file.mp hq)
  split at hkept
  · exact hdone _ hkept fun a ha => hdir a ha (hfenced a ha)
  · rename_i i fs₂ hopen
    have hopen' : (fs₁.mkdirP (pvrPath (str "0"))).openCreate (jsonPath (str "0")) true
        = some (i, fs₂) := by
      split at hopen
      · exact hopen
      · cases hopen
    have hopened : ∀ a, Owned t ns a →
        Fenced a (fun q => q <+: clean (jsonPath (str "0"))) tempPlace fs₂ ∧ Keeps a fs₁ fs₂ ∧
          ∀ q, fs₂.root.get (a ++ q) ≠ some (.file i) := by
      intro a ha
      obtain ⟨hf, hk⟩ := hdir a ha (hfenced a ha)
      obtain ⟨hf₂, hk₂, hapart⟩ := spares_openCreate
        ⟨by decide, fun q hq => hq, (hbeside a ha).1⟩ (hbeside a ha).2 (.inr hnofile) hopen' hf
      exact ⟨hf₂, hk.trans hk₂, hapart⟩
    have hwritten : ∀ c a, Owned t ns a →
        Fenced a (fun q => q <+: clean (jsonPath (str "0"))) tempPlace (fs₂.writeAt i c) ∧
          Keeps a fs₁ (fs₂.writeAt i c) := by
      intro c a ha
      obtain ⟨hf₂, hk₂, hapart⟩ := hopened a ha
      obtain ⟨hf₃, hk₃⟩ := spares_setData hapart _ hf₂
      exact ⟨hf₃, hk₂.trans hk₃⟩
    split at hkept
    · exact hdone _ hkept fun a ha => ⟨(hopened a ha).1, (hopened a ha).2.1⟩
    · refine hdone _ hkept fun a ha => ?_
      split <;> exact hwritten _ a ha

/-! ## Collections -/

theorem Survivor.collect (h : Survivor sha256 t ns fs) (hnamed : NamedRev t ns) {g : GcInput}
    (hkeeps : g.keeps t.rev = true) : Survivor sha256 t ns (pvStorageGcRun g fs).2 := by
  have htaken := pvStorageGcRun_taken (bootWay_gc h.proven) g
  have hproven := kept_gcRun (proven_kept (bootWay t.rev)) g h.proven
  have hkept : KeptRev g t.rev ns := ⟨hnamed.place, hnamed.notLocals, hkeeps⟩
  generalize (pvStorageGcRun g fs).2 = fs' at htaken hproven
  have hin : ∀ name, ¬ Taken g fs (place t.rev name) := by
    intro name
    refine hkept.not_taken ?_
    rw [place, trailsPath, clean_append, hnamed.place.revPath_eq]
    exact List.prefix_append _ _
  refine ⟨hproven, fun o ho => ?_, fun j hj => ?_, fun n i a q hn hi ha hq => ?_⟩
  · obtain ⟨i, hi, hpool, hhex⟩ := h.objects o ho
    refine ⟨i, htaken.node_some.mpr ⟨hi, hin _⟩, htaken.node_some.mpr ⟨hpool, ?_⟩, ?_⟩
    · -- the file of the revision is another link of the object
      rintro (hstale | ⟨id, k, heq, hunused⟩)
      · exact not_inStale_object _ hstale
      · have hid : o.id = id := by simpa using heq
        subst hid
        obtain rfl := Node.file.inj (Option.some.inj (hpool.symm.trans hunused.file))
        rcases hunused.sole _ hi with hplace | hstale
        · rw [place, trailsPath, clean_append, hnamed.place.revPath_eq] at hplace
          exact absurd (List.cons.inj hplace).1 (by decide)
        · exact hin _ (.inl hstale)
    · rw [htaken.data, hhex]
  · obtain ⟨i, hi, hs⟩ := held_file_iff.mp (h.jsons j hj)
    have hi' := htaken.node_some.mpr ⟨node_eq_file.mpr hi, hin j.name⟩
    rw [node_held hi', htaken.data, hs]
  · exact h.temps n i a q hn (htaken.node_some.mp hi).1 ha (htaken.node_some.mp hq).1

/-! ## Runs -/

theorem Survivor.step (h : Survivor sha256 t ns fs) (hnamed : NamedRev t ns)
    (hlen : ∀ s, (sha256 s).length = 32) {e : StoreEvent} (he : Harmless jsmn t ns fs e) :
    Survivor sha256 t ns (e.result sha256 jsmn fs) := by
  cases e with
  | pool e => exact h.pool hnamed hlen he
  | install io s ok => exact h.install hnamed he
  | factory io rev => exact h.factory hnamed he io rev
  | collect g => exact h.collect hnamed he

/-- **A revision goes on booting** through every run of downloads, requests, installations, new
factory revisions and collections that do nothing to the revision itself. -/
theorem survivor_checked (sha256 : CStr → List UInt8) (jsmn : Jsmn)
    (hlen : ∀ s, (sha256 s).length = 32) {t : PvState} {ns : Path} (hnamed : NamedRev t ns) {fs : Fs}
    {es : List StoreEvent} (h : Survivor sha256 t ns fs)
    (hall : (storeSystem sha256 jsmn).Along (Harmless jsmn t ns) fs es) :
    pvStateValidateChecksum (diskChecks sha256 ((storeSystem sha256 jsmn).run fs es)) t = true := by
  have hstep : ∀ fs e, Survivor sha256 t ns fs → Harmless jsmn t ns fs e →
      Survivor sha256 t ns ((storeSystem sha256 jsmn).step fs e) ∧ True := fun fs e hs he =>
    ⟨hs.step hnamed hlen he, trivial⟩
  have hend := (System.along_of_invariant (P := fun _ _ => True) hstep h hall).2
  exact hend.checked hnamed hlen

theorem collectable_survivor : Survivor sha256OfEmpty oneFile [str "1"] collectable where
  proven := collectable_proven bootWay_not_current
  objects o ho := by
    rw [List.mem_singleton.mp (show o ∈ [_] from ho)]
    exact ⟨0, by decide +kernel, by decide +kernel, by decide +kernel⟩
  jsons j hj := by cases hj
  temps n i a q hn hi := by
    -- no name in the pool has a dot
    have hpool : ∀ e ∈ collectable.root.places, ∀ n ∈ e.1, 46 ∉ n := by decide +kernel
    exact absurd hn.dot_mem (hpool _ (mem_places hi) n (by simp))

/-- Revision 1 boots after two collections, a download and a new factory revision. -/
theorem survivor_checked_one :
    pvStateValidateChecksum (diskChecks sha256OfEmpty
      ((storeSystem sha256OfEmpty tokenizer).run collectable
        [.collect collectInput, .pool (emptyDownload emptySha), .factory ⟨true, true, []⟩ (str "1"),
          .collect collectInput])) oneFile = true := by
  have hkeeps : collectInput.keeps oneFile.rev = true := by decide +kernel
  have hother : oneFile.rev ≠ str "0" := by decide
  have hid : Entry emptySha := by decide +kernel
  exact survivor_checked sha256OfEmpty tokenizer length_sha256OfEmpty
    ⟨.remote (str "1") (by decide), by decide, oneFile_names⟩ collectable_survivor
    ⟨hkeeps, ⟨hid, fun h => by cases h⟩, hother, hkeeps, trivial⟩

end Survivor

end Pantavisor.Storage
