/-
Pantavisor.Storage.CollectBoots — whether a revision still boots after a garbage
collection.

`pv_state_validate_checksum` looks at the files of a revision and at its objects
in the pool as well. A collection goes past the directories of the revisions that
it keeps, but an object of theirs stays in the pool only for another link: one
that was copied, as those of bind mounts are, or that was put there once more has
none. So a kept revision passes its checks after a collection just if none of its
objects is `Unused` (`checked_after_collection`).
-/
import Pantavisor.Storage.Collect
import Pantavisor.Storage.Installed

namespace Pantavisor.Storage

open Pantavisor.Lib Pantavisor.Lib.Fs Pantavisor.State
open Pantavisor.Controller (pvStateValidateChecksum pvStateValidateChecksum_iff)

variable {g : GcInput} {fs fs' : Fs} {t : PvState} {ns : Path}

/-! ## Kept revisions -/

/-- A revision that a collection goes past, and that is not the directory of the local
ones. -/
structure KeptRev (g : GcInput) (rev : CStr) (ns : Path) : Prop where
  place : RevAt rev ns
  notLocals : rev ≠ str "locals"
  keeps : g.keeps rev = true

theorem RevAt.ne_locals {rev : CStr} (h : RevAt rev ns) (hne : rev ≠ str "locals") :
    ns ≠ [str "locals"] := by
  intro hns
  cases h with
  | remote n hn => exact hne (List.cons.inj hns).1
  | «local» n hn => simp at hns

theorem Stale.ne_locals {r : CStr} {ms : Path} (h : Stale g fs r ms) : ms ≠ [str "locals"] := by
  refine h.place.ne_locals ?_
  rintro rfl
  have hdropped := h.dropped
  simp [GcInput.keeps] at hdropped

/-- Places of revisions are not in one another. -/
theorem RevAt.prefix_eq {r r' : CStr} {ms : Path} (h : RevAt r ms) (h' : RevAt r' ns)
    (hms : ms ≠ [str "locals"]) (hns : ns ≠ [str "locals"]) {q q' : Path}
    (heq : ms ++ q = ns ++ q') : r = r' := by
  cases h with
  | remote n hn =>
      cases h' with
      | remote m hm => exact (List.cons.inj heq).1
      | «local» m hm => exact absurd (by rw [(List.cons.inj heq).1]) hms
  | «local» n hn =>
      cases h' with
      | remote m hm => exact absurd (by rw [← (List.cons.inj heq).1]) hns
      | «local» m hm => rw [(List.cons.inj (List.cons.inj heq).2).1]

/-- **A collection goes past** all that is in the directory of a kept revision. -/
theorem KeptRev.not_taken {rev : CStr} (h : KeptRev g rev ns) {q : Path}
    (hq : str "trails" :: ns <+: q) : ¬ Taken g fs q := by
  obtain ⟨q', rfl⟩ := hq
  rintro (⟨r, ms, hstale, p, hp, -, hle⟩ | ⟨id, i, heq, -⟩)
  · have hhead : p = str "trails" :: ms := by
      simp only [revPlaces, List.mem_cons, List.not_mem_nil, or_false] at hp
      rcases hp with rfl | rfl | rfl
      · rfl
      · exact absurd hle (not_prefix_of_head_ne (by decide) _ _)
      · exact absurd hle (not_prefix_of_head_ne (by decide) _ _)
    rw [hhead] at hle
    obtain ⟨q, hq⟩ := (List.cons_prefix_cons.mp hle).2
    have hrev := RevAt.prefix_eq hstale.place h.place hstale.ne_locals
      (h.place.ne_locals h.notLocals) hq
    have hkeeps := h.keeps
    rw [← hrev, hstale.dropped] at hkeeps
    cases hkeeps
  · exact absurd (List.cons.inj heq).1 (by decide)

/-! ## Reading -/

/-- The places that the checks of a revision read, and those of a collection. -/
def bootWay (rev : CStr) (q : Path) : Prop := gcWay q ∨ clean (revPath rev) <+: q

theorem bootWay_gc {rev : CStr} (h : Proven (bootWay rev) fs) : Proven gcWay fs :=
  ⟨h.root, h.names, h.keyed, h.targets, fun q l hq => h.noLink q l (.inl hq)⟩

theorem RevAt.revPath_eq {rev : CStr} (h : RevAt rev ns) :
    clean (revPath rev) = str "trails" :: ns := by
  rw [revPath, h.components_eq, clean_cons_proper (by decide), clean_proper h.proper]

theorem RevAt.plain {rev : CStr} (h : RevAt rev ns) : Plain (components rev) := by
  rw [h.components_eq]
  exact fun n hn => .inr (h.proper n hn)

theorem RevAt.bootWay_above {rev : CStr} (h : RevAt rev ns) {q : Path}
    (hq : q <+: clean (revPath rev)) : bootWay rev q := by
  obtain ⟨ms, n, hns, hlen, hhead⟩ :
      ∃ ms n, ns = ms ++ [n] ∧ ms.length ≤ 2 ∧ ms.head? ≠ some (str "current") := by
    cases h with
    | remote _ hn => exact ⟨[], rev, rfl, by simp, by simp⟩
    | «local» n hn => exact ⟨[str "locals"], n, rfl, by simp, by decide⟩
  rw [h.revPath_eq, hns, ← List.cons_append] at hq
  rcases List.prefix_concat_iff.mp hq with hlast | hq
  · refine .inr ?_
    rw [h.revPath_eq, hns, hlast, List.cons_append]
  · exact .inl (gcWay_rev hlen hhead (by simp [revPlaces]) hq)

/-- What is read at a plain path is at its place. -/
theorem readFile_clean {path : List Name} {s : CStr} (hplain : Plain path)
    (hlink : fs.NoLink (clean path)) (h : fs.readFile path = some s) :
    ∃ i, fs.node (clean path) = some (.file i) ∧ fs.data i = s := by
  unfold readFile at h
  split at h
  · rename_i i hfind
    exact ⟨i, node_eq_file.mpr (find_plain hplain hlink hfind), Option.some.inj h⟩
  · cases h

theorem node_held {p : Path} {i : Nat} (h : fs.node p = some (.file i)) :
    fs.held p = some (.file (fs.data i)) := held_file_iff.mpr ⟨i, node_eq_file.mp h, rfl⟩

/-- Every name of a file of the state is one of a file. -/
def FileNames (t : PvState) : Prop :=
  (∀ o ∈ t.objects, ∀ n ∈ components o.name, Proper n) ∧
    ∀ j ∈ t.jsons, ∀ n ∈ components j.name, Proper n

/-- A file of a kept revision is read as before. -/
theorem readFile_kept (h : Proven (bootWay t.rev) fs) (hkept : KeptRev g t.rev ns)
    (htaken : Cleared (Taken g fs) fs fs') {name s : CStr} (hname : ∀ n ∈ components name, Proper n)
    (hread : fs.readFile (trailsPath t.rev name) = some s) :
    fs'.readFile (trailsPath t.rev name) = some s := by
  have hplain : Plain (trailsPath t.rev name) :=
    (plain_revPath hkept.place.plain).append fun n hn => .inr (hname n hn)
  have hlink : fs.NoLink (clean (trailsPath t.rev name)) := by
    intro q hq l
    rw [trailsPath, clean_append] at hq
    rcases List.prefix_or_prefix_of_prefix hq (List.prefix_append _ _) with hq | hq
    · exact h.noLink q l (hkept.place.bootWay_above hq)
    · exact h.noLink q l (.inr hq)
  obtain ⟨i, hi, hs⟩ := readFile_clean hplain hlink hread
  have hi' : fs'.node (clean (trailsPath t.rev name)) = some (.file i) := by
    refine htaken.node_some.mpr ⟨hi, hkept.not_taken ?_⟩
    rw [trailsPath, clean_append, hkept.place.revPath_eq]
    exact List.prefix_append _ _
  refine readFile_place hkept.place.plain hname ?_
  rw [place, node_held hi', htaken.data, hs]

/-- An object of the pool is read just if it is in its place. -/
theorem readFile_object (h : Proven gcWay fs) {id : Name} (hid : Entry id) {s : CStr} :
    fs.readFile (objectPath id) = some s ↔
      ∃ i, fs.node [str "objects", id] = some (.file i) ∧ fs.data i = s := by
  constructor
  · intro hread
    unfold readFile at hread
    split at hread
    · rename_i i hfind
      exact ⟨i, (find_object h hid).mp hfind, Option.some.inj hread⟩
    · cases hread
  · rintro ⟨i, hi, rfl⟩
    rw [readFile, (find_object h hid).mpr hi]

theorem entry_of_hex {id : CStr} {bytes : List UInt8} (h : hexDecode id = some bytes)
    (hlen : bytes.length = 32) : Entry id :=
  ⟨(objectPath_hex h hlen).2, hexDecode_no_slash h⟩

/-! ## The checks -/

/-- **A kept revision passes its checks after a collection** just if none of its objects was
unused. -/
theorem checked_after_collection {sha256 : CStr → List UInt8} (hlen : ∀ s, (sha256 s).length = 32)
    (h : Proven (bootWay t.rev) fs) (hkept : KeptRev g t.rev ns) (hnames : FileNames t)
    (hboot : BootFiles sha256 fs t) :
    pvStateValidateChecksum (diskChecks sha256 (pvStorageGcRun g fs).2) t = true ↔
      ∀ o ∈ t.objects, ∀ i, ¬ Unused g fs o.id i := by
  have hgc := bootWay_gc h
  have htaken := pvStorageGcRun_taken hgc g
  have hgc' : Proven gcWay (pvStorageGcRun g fs).2 := kept_gcRun (proven_kept gcWay) g hgc
  generalize (pvStorageGcRun g fs).2 = fs' at htaken hgc'
  constructor
  · intro hchecks o ho i hunused
    obtain ⟨s, -, hhex⟩ := hboot.pool o ho
    have hpool := (((pvStateValidateChecksum_iff _ t).mp hchecks).objects o ho).2
    have hgone : fs'.readFile (objectPath o.id) = none := by
      by_contra hread
      obtain ⟨s', hs'⟩ := Option.ne_none_iff_exists'.mp hread
      obtain ⟨j, hj, -⟩ := (readFile_object hgc' (entry_of_hex hhex (hlen s))).mp hs'
      rw [htaken.gone _ (.inr ⟨o.id, i, rfl, hunused⟩)] at hj
      cases hj
    simp [diskChecks, hgone, pvStorageValidateFileChecksum] at hpool
  · intro hused
    refine BootFiles.checked ⟨fun o ho => ?_, fun o ho => ?_, fun j hj => ?_⟩ hlen
    · obtain ⟨s, hread, hhex⟩ := hboot.files o ho
      exact ⟨s, readFile_kept h hkept htaken (hnames.1 o ho) hread, hhex⟩
    · obtain ⟨s, hread, hhex⟩ := hboot.pool o ho
      have hid := entry_of_hex hhex (hlen s)
      obtain ⟨i, hi, hs⟩ := (readFile_object hgc hid).mp hread
      refine ⟨s, (readFile_object hgc' hid).mpr ⟨i, htaken.node_some.mpr ⟨hi, ?_⟩, ?_⟩, hhex⟩
      · rintro (hstale | ⟨id, j, heq, hunused⟩)
        · exact not_inStale_object _ hstale
        · have hid' : o.id = id := by simpa using heq
          subst hid'
          exact hused o ho j hunused
      · rw [htaken.data, hs]
    · exact readFile_kept h hkept htaken (hnames.2 j hj) (hboot.jsons j hj)

/-! ## An object that was copied -/

/-- A state with one file, which is an empty object. -/
def oneFile : PvState :=
  { pvStateNew 0 (str "1") .system1 with objects := [⟨str "k", emptySha, [], [], none⟩] }

theorem oneFile_names : FileNames oneFile := by
  refine ⟨fun o ho => ?_, fun j hj => by cases hj⟩
  rw [List.mem_singleton.mp (show o ∈ [_] from ho)]
  decide

theorem bootWay_not_current : ¬ bootWay (str "1") [str "trails", str "current"] := by
  rintro (hgc | hrev)
  · exact gcWay_not_current hgc
  · revert hrev
    decide

/-- The file of revision 1 has been copied from the pool, as those of bind mounts are. -/
def copiedObject : Fs := collectable.setRoot [str "trails", str "1", str "k"] (some (.file 3))

theorem copiedObject_proven : Proven (bootWay (str "1")) copiedObject :=
  (proven_kept _).file (d := [str "trails", str "1"]) (n := str "k") 3
    (collectable_proven bootWay_not_current) (by decide) ⟨_, rfl⟩

theorem copiedObject_boots : BootFiles sha256OfEmpty copiedObject oneFile := by
  refine ⟨fun o ho => ?_, fun o ho => ?_, fun j hj => by cases hj⟩
  all_goals
    rw [List.mem_singleton.mp (show o ∈ [_] from ho)]
    exact ⟨[], by decide +kernel, by decide +kernel⟩

/-- It does not boot once its object has been collected. -/
theorem checked_after_collection_copied :
    (pvStateValidateChecksum
          (diskChecks sha256OfEmpty (pvStorageGcRun collectInput copiedObject).2) oneFile = true ↔
        ∀ o ∈ oneFile.objects, ∀ i, ¬ Unused collectInput copiedObject o.id i) ∧
      pvStateValidateChecksum (diskChecks sha256OfEmpty copiedObject) oneFile = true ∧
      pvStateValidateChecksum
        (diskChecks sha256OfEmpty (pvStorageGcRun collectInput copiedObject).2) oneFile = false :=
  ⟨checked_after_collection length_sha256OfEmpty copiedObject_proven
    ⟨.remote (str "1") (by decide), by decide, by decide +kernel⟩ oneFile_names copiedObject_boots,
    by decide +kernel, by decide +kernel⟩

end Pantavisor.Storage
