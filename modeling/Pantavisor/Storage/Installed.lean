/-
Pantavisor.Storage.Installed — a revision that was installed can be booted.

`pv_update_install` writes a revision in three ways: its objects are linked or
copied from the pool, its text becomes the state json, and every key that ends in
`.json` a file. At the next boot the parser sorts the keys once more, and
`pv_state_validate_checksum` compares what it makes of them with the files. Where
the keys are names of files and none is a directory of another, all of it fits
(`installed_boots`).
-/
import Mathlib.Data.List.Pairwise
import Pantavisor.Controller.Verified
import Pantavisor.Lib.FileTreeAround
import Pantavisor.Parser.Accepted
import Pantavisor.Parser.Partition
import Pantavisor.Storage.Checksum
import Pantavisor.Storage.Expand
import Pantavisor.Storage.InstallKeeps

namespace Pantavisor.Storage

open Pantavisor.Lib Pantavisor.Lib.Fs Pantavisor.Json Pantavisor.Parser
open Pantavisor.State (PvState PvObject PvJson pvStateNew)
open Pantavisor.Controller (Checks pvStateValidateChecksum pvStateValidateChecksum_iff)

/-! ## The checks of a boot -/

/-- `pv_storage_validate_trails_json_value`. A file that cannot be opened is taken for
an empty one. -/
def pvStorageValidateTrailsJsonValue (fs : Fs) (rev name val : CStr) : Bool :=
  cstrAt val 0 = cstrAt ((fs.readFile (trailsPath rev name)).getD []) 0

/-- What the checks of `pv_state_validate_checksum` find in a storage. -/
def diskChecks (sha256 : CStr → List UInt8) (fs : Fs) : Checks where
  trailsObject rev name id :=
    pvStorageValidateFileChecksum sha256 (fs.readFile (trailsPath rev name)) id = some 0
  objectsObject id :=
    pvStorageValidateFileChecksum sha256 (fs.readFile (objectPath id)) id = some 0
  trailsJson := pvStorageValidateTrailsJsonValue fs

/-! ## What an installation starts from -/

/-- Names of files, none of them in `.pv` or `.pvr`, and none a directory of another. -/
structure FileKeys (keys : List CStr) : Prop where
  proper : ∀ k ∈ keys, ∀ n ∈ components k, Proper n
  visible : ∀ k ∈ keys, (components k).head? ≠ some (str ".pv") ∧
    (components k).head? ≠ some (str ".pvr")
  apart : keys.Pairwise fun a b => Beside (components a) (components b)

/-- A directory for the revision with nothing in it, but for the directory that a
download makes there. -/
structure EmptyRev (fs : Fs) (rev : CStr) : Prop where
  plain : Plain (components rev)
  dir : fs.DirAt (clean (revPath rev))
  pv : fs.Clear (place rev (str ".pv"))
  empty : ∀ q, q ≠ [] → q ≠ [str ".pv"] → fs.root.get (clean (revPath rev) ++ q) = none

/-- The pool has a file of this digest. -/
def InPool (sha256 : CStr → List UInt8) (fs : Fs) (id : CStr) : Prop :=
  ∃ s, fs.held (objectPath id) = some (.file s) ∧ hexDecode id = some (sha256 s)

/-- Every call that is made for an object works, and every write in full. -/
structure ObjectIo.Full (io : ObjectIo) : Prop where
  source : io.openSource = true
  target : io.openTarget = true
  copy : ∀ step ∈ io.copy, step.read.isSome = true ∧ step.write = none
  link : io.link = true

/-- Every call that an installation makes works, and every write in full. -/
structure InstallCalls.Full (io : InstallCalls) : Prop where
  objects : ∀ o ∈ io.objects, o.Full
  boot : ∀ b ∈ io.boot, b = true
  openJson : io.openJson = true
  writeJson : io.writeJson = none
  renameJson : io.renameJson = true
  expand : ∀ step ∈ io.expand, step.opened = true ∧ step.write = none

/-- `pv_update_install` gets to the boot environment. -/
def InstallFiles.Worked (files : InstallFiles) : Prop :=
  files.linkObjects = true ∧ files.openJson = true ∧ files.expandJsons = true

/-! ## Places -/

/-- The path of a file whose components are names. -/
theorem trailsPath_proper {rev name : CStr} (hrev : Plain (components rev))
    (hname : ∀ n ∈ components name, Proper n) :
    ∃ ns n, trailsPath rev name = ns ++ [n] ∧ Plain ns ∧ Proper n ∧
      (trailsPath rev name).dropLast = ns ∧ place rev name = clean ns ++ [n] ∧
      clean (revPath rev) <+: clean ns := by
  rcases List.eq_nil_or_concat' (components name) with hnil | ⟨init, n, hcomp⟩
  · exact absurd hnil (components_ne_nil name)
  · rw [hcomp] at hname
    exact trailsPath_concat hcomp hrev (fun m hm => .inr (hname m (by simp [hm])))
      (hname n (by simp))

/-- A directory stays one for a revision while files are put into it. -/
theorem RevDir.around {fs fs' : Fs} {rev : CStr} {ps : List Path} (h : RevDir fs rev)
    (ha : Around ps fs fs') (hps : ∀ p ∈ ps, ¬ p <+: clean (revPath rev)) : RevDir fs' rev :=
  ⟨h.plain, ha.dir hps h.dir, fun q l hl =>
    h.noLink q l (held_symlink_iff.mp (ha.links _ l (held_symlink_iff.mpr hl)))⟩

/-- No file of a revision is in the pool. -/
theorem not_place_le_objectPath (rev name id : CStr) : ¬ place rev name <+: objectPath id := by
  rintro ⟨s, hs⟩
  have hhead : place rev name = str "trails" :: clean (components rev ++ components name) := by
    rw [place, trailsPath, revPath, List.cons_append, clean_cons_proper (by decide)]
  rw [hhead, objectPath, List.cons_append] at hs
  exact absurd (List.cons.inj hs).1 (by decide)

/-! ## Objects -/

/-- The name of an object of the pool. -/
theorem hexDecode_no_slash {s : CStr} {bytes : List UInt8} (h : hexDecode s = some bytes) :
    Lib.slash ∉ s := by
  have hvalue : hexValue Lib.slash = none := by decide
  induction s using cloudSha.induct generalizing bytes with
  | case1 => simp
  | case2 a => simp [hexDecode] at h
  | case3 a b rest ih =>
    simp only [hexDecode, Option.bind_eq_bind, Option.pure_def] at h
    obtain ⟨x, hx, h⟩ := Option.bind_eq_some_iff.mp h
    obtain ⟨y, hy, h⟩ := Option.bind_eq_some_iff.mp h
    obtain ⟨tail, htail, h⟩ := Option.bind_eq_some_iff.mp h
    have hne : ∀ {c : UInt8} {v : Nat}, hexValue c = some v → Lib.slash ≠ c := by
      rintro c v hc rfl
      rw [hvalue] at hc
      cases hc
    simp only [List.mem_cons, not_or]
    exact ⟨hne hx, hne hy, ih htail⟩

theorem objectPath_hex {id : CStr} {bytes : List UInt8} (h : hexDecode id = some bytes)
    (hlen : bytes.length = 32) : objectPath id = [str "objects"] ++ [id] ∧ Proper id := by
  refine ⟨by rw [objectPath, components_of_no_slash (hexDecode_no_slash h)]; rfl, ?_⟩
  have hid : id.length = 64 := by rw [length_hexDecode h, hlen]
  refine ⟨?_, ?_, ?_⟩ <;> rintro rfl <;> exact absurd hid (by decide)

theorem copyLoop_full {steps : List CopyStep} (h : ∀ step ∈ steps, step.read.isSome = true ∧
    step.write = none) (src : CStr) : copyLoop steps src = (src, 0) := by
  induction steps generalizing src with
  | nil => rfl
  | cons step steps ih =>
    rw [List.forall_mem_cons] at h
    obtain ⟨n, hn⟩ := Option.isSome_iff_exists.mp h.1.1
    rw [copyLoop, hn]
    dsimp only
    split
    · rename_i hnil
      rw [hnil]
    · rw [ih h.2, h.1.2]
      exact Prod.ext (List.take_append_drop _ src) rfl

theorem beside_place {a b : CStr} (rev : CStr) (ha : ∀ n ∈ components a, Proper n)
    (hb : ∀ n ∈ components b, Proper n) (h : Beside (components a) (components b)) :
    Beside (place rev a) (place rev b) := by
  rw [Beside, place_le_iff, place_le_iff, clean_proper ha, clean_proper hb]
  exact h

section Objects

variable {sha256 : CStr → List UInt8} {fs : Fs} {rev : CStr}

/-- One round: the object is linked, or copied, to its name. -/
theorem linkObjects_cons {o : PvObject} (rest : List PvObject) {io : List ObjectIo} {s : CStr}
    (hrev : RevDir fs rev) (hname : ∀ n ∈ components o.name, Proper n)
    (hfree : fs.Free (place rev o.name)) (hpool : fs.held (objectPath o.id) = some (.file s))
    (hid : objectPath o.id = [str "objects"] ++ [o.id] ∧ Proper o.id)
    (hio : (io.headD ObjectIo.ok).Full) :
    ∃ fs', linkObjects rev (o :: rest) io fs = linkObjects rev rest io.tail fs' ∧
      Around [place rev o.name] fs fs' ∧ fs'.held (place rev o.name) = some (.file s) := by
  obtain ⟨ns, n, hpath, hns, hn, hdrop, hplace, -⟩ := trailsPath_proper hrev.plain hname
  have habove : clean ns <+: place rev o.name := by
    rw [hplace]
    exact List.prefix_append _ _
  -- the directory of the file is made
  have hclear : fs.Clear (clean ns) := hfree.clear.le habove
  have hgrow := grows_mkdirP hrev.root hns hclear.noLink
  have hdir := mkdirP_clear hrev.root hns hclear
  have haround : Around [place rev o.name] fs (fs.mkdirP ns) := hgrow.around habove
  have hnone : (fs.mkdirP ns).root.get (clean ns ++ [n]) = none := by
    rw [hgrow.same _ (fun h => absurd h.length_le (by simp)), ← hplace, hfree.none]
  have hpool' : (fs.mkdirP ns).held (clean [str "objects"] ++ [o.id]) = some (.file s) := by
    have hobjects : clean [str "objects"] ++ [o.id] = objectPath o.id := hid.1.symm
    rw [hobjects]
    refine haround.kept _ _ (fun p hp => ?_) hpool
    rw [List.mem_singleton.mp hp]
    exact not_place_le_objectPath rev o.name o.id
  rw [linkObjects, hdrop, hpath]
  generalize fs.mkdirP ns = fs₁ at haround hdir hnone hpool' ⊢
  obtain ⟨i, hi, hdata⟩ := find_held (by decide : Plain [str "objects"]) hid.2 hpool'
  by_cases hbind : isBind o.name = true
  · obtain ⟨j, fs₂, hopen, hwrite⟩ := openCreate_write hns hn hdir hnone false
    have hcopy : copyBind (io.headD ObjectIo.ok) (objectPath o.id) (ns ++ [n]) fs₁
        = fs₁.create (clean ns ++ [n]) s := by
      have hread : fs₁.readFile ([str "objects"] ++ [o.id]) = some s := by
        rw [readFile, hi]
        exact congrArg some hdata
      rw [copyBind, hid.1, hio.source, hio.target, if_pos rfl, if_pos rfl, hread, hopen]
      dsimp only
      rw [copyLoop_full hio.copy, hwrite]
    refine ⟨fs₁.create (clean ns ++ [n]) s, by rw [if_pos hbind, hcopy], haround.trans ?_, ?_⟩
    · rw [hplace]
      exact around_create hdir s
    · rw [hplace]
      exact held_file_iff.mpr ⟨_, get_create n hdir s⟩
  · refine ⟨fs₁.setRoot (clean ns ++ [n]) (some (.file i)), ?_, haround.trans ?_, ?_⟩
    · rw [if_neg hbind, hio.link, if_pos rfl, hid.1, link_new hi hns hn hdir hnone]
    · rw [hplace]
      exact around_setRoot hdir fun t ht => ⟨i, (Option.some.inj ht).symm⟩
    · obtain ⟨es, hes⟩ := hdir
      rw [hplace]
      exact held_file_iff.mpr ⟨i, Tree.get_set_self hes n _, hdata⟩

/-- **All objects** are files of the revision behind the loop, with the contents of
their ids. -/
theorem linkObjects_run {objects : List PvObject} {io : List ObjectIo}
    (hlen : ∀ s, (sha256 s).length = 32) (hio : ∀ step ∈ io, step.Full) (hrev : RevDir fs rev)
    (hnames : ∀ o ∈ objects, ∀ n ∈ components o.name, Proper n)
    (hapart : objects.Pairwise fun a b => Beside (components a.name) (components b.name))
    (hfree : ∀ o ∈ objects, fs.Free (place rev o.name))
    (hpool : ∀ o ∈ objects, InPool sha256 fs o.id) :
    ∃ fs', linkObjects rev objects io fs = (true, fs') ∧
      Around (objects.map fun o => place rev o.name) fs fs' ∧
      ∀ o ∈ objects, ∃ s, fs'.held (place rev o.name) = some (.file s) ∧
        hexDecode o.id = some (sha256 s) := by
  induction objects generalizing fs io with
  | nil => exact ⟨fs, rfl, Around.refl _ fs, by simp⟩
  | cons o rest ih =>
    rw [List.forall_mem_cons] at hnames hfree
    obtain ⟨hbeside, hapart⟩ := List.pairwise_cons.mp hapart
    have hhead : (io.headD ObjectIo.ok).Full := by
      cases io with
      | nil => exact ⟨rfl, rfl, by simp [ObjectIo.ok], rfl⟩
      | cons step io => exact hio step (by simp)
    obtain ⟨s, hs, hhex⟩ := hpool o (by simp)
    obtain ⟨fs₁, hloop, haround, hheld⟩ := linkObjects_cons rest hrev hnames.1 hfree.1 hs
      (objectPath_hex hhex (hlen s)) hhead
    have hothers : ∀ o' ∈ rest, Beside (place rev o'.name) (place rev o.name) := fun o' ho' =>
      beside_place rev (hnames.2 o' ho') hnames.1 (And.symm (hbeside o' ho'))
    have hrev' : RevDir fs₁ rev := by
      refine hrev.around haround fun p hp hle => ?_
      rw [List.mem_singleton.mp hp] at hle
      obtain ⟨ns, n, -, -, -, -, hplace, hbase⟩ := trailsPath_proper hrev.plain hnames.1
      rw [hplace] at hle
      exact absurd (hle.trans hbase).length_le (by simp)
    have hfree' : ∀ o' ∈ rest, fs₁.Free (place rev o'.name) := by
      refine fun o' ho' => haround.free (hfree.2 o' ho') fun p hp => ?_
      rw [List.mem_singleton.mp hp]
      exact hothers o' ho'
    have hpool' : ∀ o' ∈ rest, InPool sha256 fs₁ o'.id := by
      intro o' ho'
      obtain ⟨s', hs', hhex'⟩ := hpool o' (by simp [ho'])
      refine ⟨s', haround.kept _ _ (fun p hp => ?_) hs', hhex'⟩
      rw [List.mem_singleton.mp hp]
      exact not_place_le_objectPath rev o.name o'.id
    obtain ⟨fs', hrest, haround', hfiles⟩ := ih (fun step hstep => hio step
      (List.mem_of_mem_tail hstep)) hrev' hnames.2 hapart hfree' hpool'
    refine ⟨fs', by rw [hloop, hrest], ?_, List.forall_mem_cons.mpr ⟨⟨s, ?_, hhex⟩, hfiles⟩⟩
    · refine (haround.more fun p hp => ?_).trans (haround'.more fun p hp => ?_)
      · rw [List.mem_singleton.mp hp]
        exact List.mem_cons_self
      · exact List.mem_cons_of_mem _ hp
    · refine haround'.kept _ _ (fun p hp => ?_) hheld
      obtain ⟨o', ho', rfl⟩ := List.mem_map.mp hp
      exact (hothers o' ho').1

end Objects

/-! ## Boot files -/

/-- The directories of a revision that no file is in. -/
def pvPlace (rev : CStr) : Path := place rev (str ".pv")
def pvrPlace (rev : CStr) : Path := place rev (str ".pvr")

theorem pvPlace_eq (rev : CStr) : pvPlace rev = clean (revPath rev) ++ [str ".pv"] :=
  (place_eq rev _).trans (by rfl)

theorem pvrPlace_eq (rev : CStr) : pvrPlace rev = clean (revPath rev) ++ [str ".pvr"] :=
  (place_eq rev _).trans (by rfl)

/-- A directory of the revision is not above it. -/
theorem not_snoc_le (p : Path) (n : Name) : ¬ p ++ [n] <+: p := fun h =>
  absurd h.length_le (by simp)

section Boot

variable {fs : Fs} {rev : CStr}

theorem RevDir.aroundPv {fs' : Fs} (h : RevDir fs rev) (ha : Around [pvPlace rev] fs fs') :
    RevDir fs' rev := by
  refine h.around ha fun p hp => ?_
  rw [List.mem_singleton.mp hp, pvPlace_eq]
  exact not_snoc_le _ _

/-- The links of boot files are in `.pv`. -/
theorem around_linkNames {names : List (CStr × CStr)} (io : List Bool) (hrev : RevDir fs rev)
    (hnames : ∀ e ∈ names, ∃ n, components e.2 = [str ".pv", n] ∧ Proper n) :
    Around [pvPlace rev] fs (linkNames rev names io fs).2.2 := by
  induction names generalizing fs io with
  | nil => exact Around.refl _ fs
  | cons e names ih =>
    obtain ⟨source, target⟩ := e
    rw [List.forall_mem_cons] at hnames
    obtain ⟨n, hcomp, hn⟩ := hnames.1
    have hplain : Plain (trailsPath rev target) := by
      refine (plain_revPath hrev.plain).append fun m hm => .inr ?_
      rw [hcomp] at hm
      rcases List.mem_cons.mp hm with rfl | hm
      · decide
      · rw [List.mem_singleton.mp hm]
        exact hn
    have hclean : clean (trailsPath rev target) = pvPlace rev ++ [n] := by
      rw [trailsPath, clean_append, hcomp, clean_cons_proper (by decide), clean_cons_proper hn,
        pvPlace_eq, List.append_assoc]
      rfl
    have hbelow : ∀ {fs fs' : Fs}, Around [clean (trailsPath rev target)] fs fs' →
        Around [pvPlace rev] fs fs' := by
      intro fs fs' h
      refine h.above fun p hp => ⟨_, List.mem_singleton_self _, ?_⟩
      rw [List.mem_singleton.mp hp, hclean]
      exact List.prefix_append _ _
    have hlink : ∀ {fs : Fs}, RevDir fs rev → fs.NoLink (clean (trailsPath rev target)) := by
      intro fs h
      rw [hclean, pvPlace_eq, List.append_assoc]
      exact h.noLink_below _
    have hremove := hbelow (around_remove hplain (hlink hrev))
    have hrev' := hrev.aroundPv hremove
    unfold linkNames
    dsimp only
    split
    · rename_i fs₁ hcall
      have hcall' : ((fs.remove (trailsPath rev target)).getD fs).link (trailsPath rev source)
          (trailsPath rev target) = .ok fs₁ := by
        split at hcall
        · exact hcall
        · cases hcall
      have hstep := hbelow (around_link hplain (hlink hrev') hcall')
      exact (hremove.trans hstep).trans (ih _ (hrev'.aroundPv hstep) hnames.2)
    · exact hremove

/-- `pv_storage_meta_link_boot` works in `.pv`. -/
theorem around_linkBoot {s : PvState} (io : List Bool) (hrev : RevDir fs s.rev) :
    Around [pvPlace s.rev] fs (pvStorageMetaLinkBoot io fs s).2 := by
  have hnames : ∀ names : List (CStr × CStr), (∀ e ∈ names, e ∈ addonLinks s ∨ e ∈ bootLinks s) →
      ∀ e ∈ names, ∃ n, components e.2 = [str ".pv", n] ∧ Proper n := by
    intro names h e he
    obtain ⟨n, hcomp, hn, -⟩ := bootTarget_components (h e he)
    exact ⟨n, hcomp, hn⟩
  have haddons := around_linkNames io hrev (hnames (addonLinks s) fun e he => .inl he)
  have hrev' := hrev.aroundPv haddons
  unfold pvStorageMetaLinkBoot
  dsimp only
  split
  · exact haddons
  · have hplain : Plain (trailsPath s.rev (str ".pv/")) :=
      (plain_revPath hrev.plain).append (by decide)
    have hclean : clean (trailsPath s.rev (str ".pv/")) = pvPlace s.rev := by
      rw [trailsPath, clean_append, pvPlace_eq]
      rfl
    have hdir : Around [pvPlace s.rev] (linkNames s.rev (addonLinks s) io fs).2.2
        ((linkNames s.rev (addonLinks s) io fs).2.2.mkdirP (trailsPath s.rev (str ".pv/"))) := by
      refine (grows_mkdirP hrev'.root hplain ?_).around (hclean ▸ List.prefix_refl _)
      rw [hclean, pvPlace_eq]
      exact hrev'.noLink_below _
    exact (haddons.trans hdir).trans (around_linkNames _ (hrev'.aroundPv hdir)
      (hnames (bootLinks s) fun e he => .inr he))

end Boot

/-! ## The state json -/

/-- The new text becomes the state json. -/
theorem installJson_full {io : InstallCalls} {fs : Fs} {rev : CStr} (hio : io.Full)
    (hrev : RevDir fs rev) (hdir : fs.DirAt (pvrPlace rev))
    (hempty : ∀ n, fs.root.get (pvrPlace rev ++ [n]) = none) (json : CStr) :
    ∃ fs', installJson io fs rev json = (true, fs') ∧ Around [pvrPlace rev] fs fs' ∧
      fs'.held (pvrPlace rev ++ [str "json"]) = some (.file json) := by
  have hplain : Plain (revPath rev ++ [str ".pvr"]) :=
    (plain_revPath hrev.plain).append (by decide)
  have hclean : clean (revPath rev ++ [str ".pvr"]) = pvrPlace rev := by
    rw [clean_append, pvrPlace_eq]
    rfl
  have hpath : ∀ name n, components name = [str ".pvr", n] →
      trailsPath rev name = revPath rev ++ [str ".pvr"] ++ [n] := by
    intro name n hcomp
    rw [trailsPath, hcomp, List.append_assoc]
    rfl
  have hnew : trailsPath rev (str ".pvr/json.new") = revPath rev ++ [str ".pvr"] ++ [str "json.new"] :=
    hpath _ _ (by decide)
  have hjson : jsonPath rev = revPath rev ++ [str ".pvr"] ++ [str "json"] := hpath _ _ (by decide)
  obtain ⟨i, fs₁, hopen, hwrite⟩ := openCreate_write hplain (by decide : Proper (str "json.new"))
    (hclean ▸ hdir) (hclean ▸ hempty _) true
  obtain ⟨hfile, hdata⟩ := get_create (str "json.new") hdir json
  have hcreate : Around [pvrPlace rev ++ [str "json.new"]] fs
      (fs.create (pvrPlace rev ++ [str "json.new"]) json) := around_create hdir json
  have hnone : (fs.create (pvrPlace rev ++ [str "json.new"]) json).root.get
      (pvrPlace rev ++ [str "json"]) = none := by
    rw [get_create_disjoint ?_ ?_, hempty]
    · rw [List.prefix_append_right_inj]
      decide
    · rw [List.prefix_append_right_inj]
      decide
  have hrename := rename_new hplain (by decide : Proper (str "json.new"))
    (by decide : Proper (str "json")) (by rw [hclean]; exact hfile) (by rw [hclean]; exact hnone)
  rw [hclean] at hrename
  have hwritten : fs₁.writeAt i json = fs.create (pvrPlace rev ++ [str "json.new"]) json := by
    rw [hwrite, hclean]
  have hdir₁ : (fs.create (pvrPlace rev ++ [str "json.new"]) json).DirAt (pvrPlace rev) :=
    hcreate.dir (fun p hp => by rw [List.mem_singleton.mp hp]; exact not_snoc_le _ _) hdir
  generalize fs.create (pvrPlace rev ++ [str "json.new"]) json = fs₂ at *
  have hput := around_setRoot (n := str "json") hdir₁ (u := some (.file fs.root.fresh))
    fun t ht => ⟨_, (Option.some.inj ht).symm⟩
  have hdir₂ := hput.dir (fun p hp => by rw [List.mem_singleton.mp hp]; exact not_snoc_le _ _) hdir₁
  have hremove := around_setRoot (n := str "json.new") hdir₂ (u := none) fun t ht => by cases ht
  have hbelow : ∀ {n : Name} {fs fs' : Fs}, Around [pvrPlace rev ++ [n]] fs fs' →
      Around [pvrPlace rev] fs fs' := by
    intro n fs fs' h
    refine h.above fun p hp => ⟨_, List.mem_singleton_self _, ?_⟩
    rw [List.mem_singleton.mp hp]
    exact List.prefix_append _ _
  refine ⟨_, ?_, ((hbelow hcreate).trans (hbelow hput)).trans (hbelow hremove), ?_⟩
  · rw [installJson, hio.openJson, hnew, if_pos rfl, hopen]
    dsimp only
    rw [hio.writeJson, hio.renameJson, if_pos rfl, WriteIo.taken, hwritten, hjson, hrename]
    rfl
  · refine hremove.kept _ _ (fun p hp => ?_) ?_
    · rw [List.mem_singleton.mp hp, List.prefix_append_right_inj]
      decide
    · obtain ⟨es, hes⟩ := hdir₁
      exact held_file_iff.mpr ⟨_, Tree.get_set_self hes _ _, hdata⟩

/-! ## What the parser lists -/

/-- What is listed of the members: JSON files with their values, and other members as
objects. -/
structure Lists (ms : List (CStr × CStr)) (t : PvState) : Prop where
  jsons : ∀ j ∈ t.jsons, (j.name, j.value) ∈ jsonMembers ms
  objects : List.Sublist (t.objects.map fun o => (o.name, o.id))
    (ms.filter fun m => !isJsonKey m.1).reverse

theorem isJsonKey_of_kind {key : CStr} (h : keyKind key ∈ [KeyKind.json, .platform]) :
    isJsonKey key = true := by
  rw [isJsonKey, decide_eq_true_eq]
  unfold keyKind at h
  dsimp only at h
  split at h
  · simp at h
  · split at h
    · rename_i hrun
      have hsuffix : str ".json" <:+ key := by
        have hfile := (strrchr_eq_iff (c := 47) (t := str "run.json") (by decide)).mp hrun
        exact List.IsSuffix.trans (by decide) hfile
      exact (strrchr_eq_iff (c := 46) (t := str "json") (by decide)).mpr hsuffix
    · split at h
      · simp at h
      · split at h
        · assumption
        · simp at h

theorem isJsonKey_of_object {key : CStr} (h : keyKind key ∈ [KeyKind.object]) :
    isJsonKey key = false := by
  rw [isJsonKey, decide_eq_false_iff_not]
  unfold keyKind at h
  dsimp only at h
  split at h
  · simp at h
  · split at h
    · simp at h
    · split at h
      · simp at h
      · split at h
        · simp at h
        · assumption

/-- **What an accepted state lists** is in its text. -/
theorem lists_of_accepted {jsmn : Jsmn} {mntpoint : CStr} {d : ObjectDoc} {toks : List Tok}
    {alloc : Nat} {rev : CStr} {t : PvState} (hreads : jsmn.Reads d toks)
    (hspec : scan jsmn d.text (str "#spec") = some specSystem1)
    (h : getState jsmn mntpoint alloc d.text rev = some (some t))
    (hbsp : str "bsp/run.json" ∈ d.keys) :
    t.rev = rev ∧ t.json = some d.text ∧ Lists d.pairs t := by
  have hparse : system1Parse jsmn mntpoint (pvStateNew alloc rev .system1) d.text
      = some (some t) := by
    rcases getState_cases h with ⟨hmulti, -⟩ | ⟨-, hparse⟩
    · exact absurd (Option.some.inj (hspec.symm.trans hmulti)) specSystem1_ne
    · exact hparse
  have hslots : Slots (pvStateNew alloc rev .system1) := rfl
  obtain ⟨run, sb, pvs, hmanifest, htexts, rfl⟩ := system1Parse_spec hreads hslots hparse
  have hframe := parseBsp_frame hmanifest.bsp
  obtain ⟨hjsons, hobjects⟩ := parsedState_lists mntpoint d.text htexts
    (congrArg PvState.platforms hframe) (congrArg PvState.jsons hframe)
    (congrArg PvState.objects hframe)
  have hsb : sb.rev = rev := congrArg PvState.rev hframe
  refine ⟨(rev_addAll sb pvs).trans hsb, rfl, ⟨fun j hj => ?_, ?_⟩⟩
  · rw [hjsons] at hj
    obtain ⟨m, hm, rfl⟩ := List.mem_map.mp hj
    rcases List.mem_append.mp (List.mem_filter.mp hm).1 with hm | hm
    · obtain ⟨hmem, hkind⟩ := List.mem_filter.mp (List.mem_reverse.mp hm)
      exact List.mem_filter.mpr ⟨hmem, isJsonKey_of_kind (of_decide_eq_true hkind)⟩
    · obtain ⟨-, hvalue⟩ := hmanifest.member hreads hbsp
      rw [ObjectDoc.member_eq] at hvalue
      obtain ⟨m', hfind, hrun⟩ := Option.map_eq_some_iff.mp hvalue
      have hkey : m'.1 = str "bsp/run.json" := by simpa using List.find?_some hfind
      have hmember : m' = (str "bsp/run.json", run) := Prod.ext hkey hrun
      rw [List.mem_singleton.mp hm, ← hmember]
      refine List.mem_filter.mpr ⟨List.mem_of_find?_eq_some hfind, ?_⟩
      rw [hkey]
      decide
  · have hpairs : (parsedState mntpoint d.text sb d.pairs pvs).objects.map (fun o => (o.name, o.id))
        = (ofKind [.object] d.pairs).reverse.filter fun m =>
          !discarded (parsedState mntpoint d.text sb d.pairs pvs) m.1 := by
      have hmap := congrArg (List.map fun i : State.Item => (i.name, i.value)) hobjects
      rw [List.map_map, List.map_map] at hmap
      exact hmap.trans ((List.map_congr_left fun m _ => rfl).trans (List.map_id _))
    rw [hpairs]
    refine List.filter_sublist.trans (List.Sublist.reverse ?_)
    exact List.monotone_filter_right _ fun m hm => by
      rw [isJsonKey_of_object (of_decide_eq_true hm)]
      rfl

/-! ## The places of an installation -/

/-- What is in different directories of one is apart. -/
theorem beside_of_head {base a b : Path} (ha : a ≠ []) (hb : b ≠ []) (h : a.head? ≠ b.head?) :
    Beside (base ++ a) (base ++ b) := by
  have hne : ∀ {x y : Path}, x ≠ [] → y ≠ [] → x.head? ≠ y.head? → ¬ x <+: y := by
    rintro x y hx hy hxy ⟨z, rfl⟩
    cases x with
    | nil => exact hx rfl
    | cons n x => exact hxy rfl
  rw [Beside, List.prefix_append_right_inj, List.prefix_append_right_inj]
  exact ⟨hne ha hb h, hne hb ha (Ne.symm h)⟩

section Keys

variable {keys : List CStr} {rev : CStr}

theorem FileKeys.place_eq (h : FileKeys keys) {k : CStr} (hk : k ∈ keys) :
    place rev k = clean (revPath rev) ++ components k := by
  rw [Storage.place_eq, clean_proper (h.proper k hk)]

theorem FileKeys.beside (h : FileKeys keys) {a b : CStr} (ha : a ∈ keys) (hb : b ∈ keys)
    (hne : a ≠ b) : Beside (place rev a) (place rev b) := by
  have hsymm : Std.Symm fun a b : CStr => Beside (components a) (components b) :=
    ⟨fun _ _ hab => And.symm hab⟩
  exact beside_place rev (h.proper a ha) (h.proper b hb) (h.apart.forall ha hb hne)

/-- A file of the revision is not in `.pvr`. -/
theorem FileKeys.beside_pvr (h : FileKeys keys) {k : CStr} (hk : k ∈ keys) (q : Path) :
    Beside (place rev k) (pvrPlace rev ++ q) := by
  rw [h.place_eq hk, pvrPlace_eq, List.append_assoc]
  exact beside_of_head (components_ne_nil k) (by simp) (h.visible k hk).2

/-- Nor is it in `.pv`. -/
theorem FileKeys.beside_pv (h : FileKeys keys) {k : CStr} (hk : k ∈ keys) :
    Beside (place rev k) (pvPlace rev) := by
  rw [h.place_eq hk, pvPlace_eq]
  exact beside_of_head (components_ne_nil k) (by simp) (h.visible k hk).1

theorem beside_pvr_pv (rev : CStr) (q : Path) : Beside (pvrPlace rev ++ q) (pvPlace rev) := by
  rw [pvrPlace_eq, pvPlace_eq, List.append_assoc]
  exact beside_of_head (by simp) (by simp) (by simp; decide)

end Keys

section Start

variable {fs : Fs} {rev : CStr}

theorem EmptyRev.revDir (h : EmptyRev fs rev) : RevDir fs rev := by
  refine ⟨h.plain, h.dir, fun q l hl => ?_⟩
  by_cases hq : q = []
  · obtain ⟨es, hes⟩ := h.dir
    rw [hq, List.append_nil, hes] at hl
    cases hl
  · by_cases hpv : q = [str ".pv"]
    · have hplace : clean (revPath rev) ++ q = place rev (str ".pv") := by
        rw [hpv]
        exact (pvPlace_eq rev).symm
      exact h.pv.noLink _ (List.prefix_refl _) l (hplace ▸ hl)
    · rw [h.empty q hq hpv] at hl
      cases hl

/-- Everything is free but what a download makes. -/
theorem EmptyRev.free (h : EmptyRev fs rev) {q : Path} (hq : q ≠ [])
    (hpv : q.head? ≠ some (str ".pv")) : fs.Free (clean (revPath rev) ++ q) := by
  have hnone : ∀ {r : Path}, r ≠ [] → r <+: q → fs.root.get (clean (revPath rev) ++ r) = none := by
    rintro r hr ⟨z, rfl⟩
    refine h.empty r hr fun hrpv => hpv ?_
    rw [hrpv]
    rfl
  refine ⟨fun r hr => ?_, hnone hq (List.prefix_refl q)⟩
  rcases List.prefix_or_prefix_of_prefix hr (List.prefix_append _ q) with hle | ⟨r', rfl⟩
  · exact .inr (h.dir.above hle)
  · rw [List.prefix_append_right_inj] at hr
    by_cases hr' : r' = []
    · rw [hr', List.append_nil]
      exact .inr h.dir
    · exact .inl (hnone hr' hr)

/-- The directory of the state json is made. -/
theorem EmptyRev.pvrDir (h : EmptyRev fs rev) :
    Around [pvrPlace rev] fs (fs.mkdirP (pvrPath rev)) ∧
      (fs.mkdirP (pvrPath rev)).DirAt (pvrPlace rev) ∧
      ∀ n, (fs.mkdirP (pvrPath rev)).Free (pvrPlace rev ++ [n]) := by
  have hplain : Plain (pvrPath rev) := (plain_revPath h.plain).append (by decide)
  have hfree : fs.Free (pvrPlace rev) := by
    rw [pvrPlace_eq]
    exact h.free (by simp) (by simp; decide)
  have hgrow : Grows (pvrPlace rev) fs (fs.mkdirP (pvrPath rev)) :=
    grows_mkdirP h.revDir.root hplain hfree.clear.noLink
  have hdir : (fs.mkdirP (pvrPath rev)).DirAt (pvrPlace rev) :=
    mkdirP_clear h.revDir.root hplain hfree.clear
  refine ⟨hgrow.around (List.prefix_refl _), hdir, fun n => ?_⟩
  have hnone : (fs.mkdirP (pvrPath rev)).root.get (pvrPlace rev ++ [n]) = none := by
    rw [hgrow.same _ (not_snoc_le _ n), pvrPlace_eq, List.append_assoc]
    exact h.empty _ (by simp) (by simp)
  refine ⟨fun q hq => ?_, hnone⟩
  rcases List.prefix_concat_iff.mp hq with rfl | hq
  · exact .inl hnone
  · exact .inr (hdir.above hq)

end Start

/-! ## The expansion -/

theorem goodSteps_full {fs : Fs} {rev : CStr} {ms : List (CStr × CStr)} {io : List ExpandStep}
    (hio : ∀ step ∈ io, step.opened = true ∧ step.write = none)
    (hclear : ∀ m ∈ ms, fs.Clear (clean (trailsPath rev m.1).dropLast)) :
    GoodSteps fs rev ms io := by
  induction ms generalizing io with
  | nil => trivial
  | cons m ms ih =>
    rw [List.forall_mem_cons] at hclear
    refine ⟨?_, ih (fun step hstep => hio step (List.mem_of_mem_tail hstep)) hclear.2⟩
    cases io with
    | nil => exact ⟨rfl, rfl, hclear.1⟩
    | cons step io =>
      obtain ⟨hopened, hwrite⟩ := hio step (by simp)
      refine ⟨hopened, ?_, hclear.1⟩
      rw [List.headD_cons, hwrite, WriteIo.taken]

/-- Each JSON file gets its value, and every file stays. -/
theorem expand_full {fs : Fs} {rev : CStr} {ms : List (CStr × CStr)} {io : List ExpandStep}
    (hkeys : FileKeys (ms.map (·.1))) (hrev : RevDir fs rev)
    (hfree : ∀ m ∈ jsonMembers ms, fs.Free (place rev m.1))
    (hio : ∀ step ∈ io, step.opened = true ∧ step.write = none) :
    fs.Extends (expandLoop rev ms io fs).2 ∧
      Expanded (expandLoop rev ms io fs).2 rev (jsonMembers ms) := by
  have hsub : List.Sublist ((jsonMembers ms).map (·.1)) (ms.map (·.1)) :=
    List.filter_sublist.map _
  have hproper : ∀ n ∈ (jsonMembers ms).map (·.1), ∀ c ∈ components n, Proper c := fun n hn =>
    hkeys.proper n (hsub.subset hn)
  have hapart : Apart ((jsonMembers ms).map (·.1)) := by
    refine ⟨fun n hn c hc => .inr (hproper n hn c hc), ?_⟩
    refine (hkeys.apart.sublist hsub).imp_of_mem fun {a b} ha hb hab => ?_
    rw [clean_proper (hproper a ha), clean_proper (hproper b hb)]
    exact hab
  have hjson : ∀ m ∈ jsonMembers ms, isJsonKey m.1 = true := fun m hm => (List.mem_filter.mp hm).2
  obtain ⟨hext, hiff⟩ := expandLoop_files hjson hapart hrev (fun m hm => (hfree m hm).none) io
  rw [expandLoop_jsonMembers]
  refine ⟨hext, hiff.mpr (goodSteps_full hio fun m hm => (hfree m hm).clear.le ?_)⟩
  obtain ⟨ns, n, -, -, -, hdrop, hplace, -⟩ := trailsPath_proper hrev.plain
    (hproper m.1 (List.mem_map_of_mem hm))
  rw [hdrop, hplace]
  exact List.prefix_append _ _

/-! ## Behind the objects -/

/-- The objects that are listed are files, apart from each other. -/
theorem Lists.names {ms : List (CStr × CStr)} {t : PvState} (h : Lists ms t)
    (hkeys : FileKeys (ms.map (·.1))) :
    (∀ o ∈ t.objects, o.name ∈ ms.map (·.1) ∧ isJsonKey o.name = false) ∧
      t.objects.Pairwise fun a b => Beside (components a.name) (components b.name) := by
  constructor
  · intro o ho
    have hpair := h.objects.subset (List.mem_map_of_mem (f := fun o => (o.name, o.id)) ho)
    obtain ⟨hmem, hkind⟩ := List.mem_filter.mp (List.mem_reverse.mp hpair)
    exact ⟨List.mem_map_of_mem (f := (·.1)) hmem, by simpa using hkind⟩
  · have hsub := h.objects.map (·.1)
    rw [List.map_map, List.map_reverse] at hsub
    have hfilter : ((ms.filter fun m => !isJsonKey m.1).map (·.1)).Pairwise
        fun a b => Beside (components a) (components b) :=
      hkeys.apart.sublist (List.filter_sublist.map _)
    have hreverse : ((ms.filter fun m => !isJsonKey m.1).map (·.1)).reverse.Pairwise
        fun a b => Beside (components a) (components b) :=
      List.pairwise_reverse.mpr (hfilter.imp fun hab => And.symm hab)
    have hnames : (t.objects.map fun o => o.name).Pairwise
        fun a b => Beside (components a) (components b) := hreverse.sublist hsub
    rw [List.pairwise_map] at hnames
    exact hnames

/-- The storage between the objects and the state json. -/
structure Staged (sha256 : CStr → List UInt8) (jsons : List CStr) (objects : List PvObject)
    (rev : CStr) (fs : Fs) : Prop where
  revDir : RevDir fs rev
  pvr : fs.DirAt (pvrPlace rev)
  empty : ∀ n, fs.Free (pvrPlace rev ++ [n])
  free : ∀ k ∈ jsons, fs.Free (place rev k)
  files : ∀ o ∈ objects, ∃ s, fs.held (place rev o.name) = some (.file s) ∧
    hexDecode o.id = some (sha256 s)
  pool : ∀ o ∈ objects, InPool sha256 fs o.id

section Stages

variable {sha256 : CStr → List UInt8} {keys jsons : List CStr} {objects : List PvObject}
  {rev : CStr} {fs fs' : Fs}

/-- Objects of the pool stay while a revision is written. -/
theorem InPool.around {id : CStr} {ps : List Path} (h : InPool sha256 fs id)
    (ha : Around ps fs fs') (hps : ∀ p ∈ ps, ∃ name, p = place rev name) : InPool sha256 fs' id := by
  obtain ⟨s, hs, hhex⟩ := h
  refine ⟨s, ha.kept _ _ (fun p hp => ?_) hs, hhex⟩
  obtain ⟨name, rfl⟩ := hps p hp
  exact not_place_le_objectPath rev name id

/-- **The objects of an empty revision** are all linked or copied. -/
theorem staged_objects {io : List ObjectIo} (hlen : ∀ s, (sha256 s).length = 32)
    (hkeys : FileKeys keys) (hjsons : ∀ k ∈ jsons, k ∈ keys ∧ isJsonKey k = true)
    (hobjects : ∀ o ∈ objects, o.name ∈ keys ∧ isJsonKey o.name = false)
    (hapart : objects.Pairwise fun a b => Beside (components a.name) (components b.name))
    (hempty : EmptyRev fs rev) (hpool : ∀ o ∈ objects, InPool sha256 fs o.id)
    (hio : ∀ step ∈ io, step.Full) :
    ∃ fs', linkObjects rev objects io (fs.mkdirP (pvrPath rev)) = (true, fs') ∧
      Staged sha256 jsons objects rev fs' := by
  obtain ⟨hmade, hpvr, hbelow⟩ := hempty.pvrDir
  have hfree : ∀ k ∈ keys, (fs.mkdirP (pvrPath rev)).Free (place rev k) := by
    intro k hk
    have hold : fs.Free (place rev k) := by
      rw [hkeys.place_eq hk]
      exact hempty.free (components_ne_nil k) (hkeys.visible k hk).1
    refine hmade.free hold fun p hp => ?_
    rw [List.mem_singleton.mp hp]
    exact List.append_nil (pvrPlace rev) ▸ hkeys.beside_pvr hk []
  have hrev : RevDir (fs.mkdirP (pvrPath rev)) rev := by
    refine hempty.revDir.around hmade fun p hp => ?_
    rw [List.mem_singleton.mp hp, pvrPlace_eq]
    exact not_snoc_le _ _
  have hpool' : ∀ o ∈ objects, InPool sha256 (fs.mkdirP (pvrPath rev)) o.id := fun o ho =>
    (hpool o ho).around hmade fun p hp => ⟨_, List.mem_singleton.mp hp⟩
  generalize fs.mkdirP (pvrPath rev) = fs₁ at *
  obtain ⟨fs', hloop, haround, hfiles⟩ := linkObjects_run hlen hio hrev
    (fun o ho => hkeys.proper _ (hobjects o ho).1) hapart (fun o ho => hfree _ (hobjects o ho).1)
    hpool'
  have hplaces : ∀ p ∈ objects.map (fun o => place rev o.name), ∃ o ∈ objects,
      p = place rev o.name := by
    intro p hp
    obtain ⟨o, ho, rfl⟩ := List.mem_map.mp hp
    exact ⟨o, ho, rfl⟩
  refine ⟨fs', hloop, ?_, ?_, fun n => ?_, fun k hk => ?_, hfiles, fun o ho => ?_⟩
  · refine hrev.around haround fun p hp hle => ?_
    obtain ⟨o, ho, rfl⟩ := hplaces p hp
    rw [hkeys.place_eq (hobjects o ho).1] at hle
    have hpos : 0 < (components o.name).length :=
      List.length_pos_iff.mpr (components_ne_nil o.name)
    have hlength := hle.length_le
    rw [List.length_append] at hlength
    omega
  · refine haround.dir (fun p hp => ?_) hpvr
    obtain ⟨o, ho, rfl⟩ := hplaces p hp
    exact (List.append_nil (pvrPlace rev) ▸ hkeys.beside_pvr (hobjects o ho).1 []).1
  · refine haround.free (hbelow n) fun p hp => ?_
    obtain ⟨o, ho, rfl⟩ := hplaces p hp
    exact And.symm (hkeys.beside_pvr (hobjects o ho).1 [n])
  · refine haround.free (hfree k (hjsons k hk).1) fun p hp => ?_
    obtain ⟨o, ho, rfl⟩ := hplaces p hp
    refine hkeys.beside (hjsons k hk).1 (hobjects o ho).1 fun heq => ?_
    have hkind := (hjsons k hk).2
    rw [heq, (hobjects o ho).2] at hkind
    cases hkind
  · have hnames : ∀ p ∈ objects.map (fun o => place rev o.name), ∃ name, p = place rev name := by
      intro p hp
      obtain ⟨o', -, rfl⟩ := hplaces p hp
      exact ⟨o'.name, rfl⟩
    exact (hpool' o ho).around haround hnames

/-- The links of the boot files change nothing of it. -/
theorem Staged.boot (h : Staged sha256 jsons objects rev fs) (hkeys : FileKeys keys)
    (hjsons : ∀ k ∈ jsons, k ∈ keys) (hobjects : ∀ o ∈ objects, o.name ∈ keys)
    (ha : Around [pvPlace rev] fs fs') : Staged sha256 jsons objects rev fs' := by
  refine ⟨h.revDir.aroundPv ha, ?_, fun n => ?_, fun k hk => ?_, fun o ho => ?_, fun o ho => ?_⟩
  · refine ha.dir (fun p hp => ?_) h.pvr
    rw [List.mem_singleton.mp hp]
    exact (List.append_nil (pvrPlace rev) ▸ beside_pvr_pv rev []).2
  · refine ha.free (h.empty n) fun p hp => ?_
    rw [List.mem_singleton.mp hp]
    exact beside_pvr_pv rev [n]
  · refine ha.free (h.free k hk) fun p hp => ?_
    rw [List.mem_singleton.mp hp]
    exact hkeys.beside_pv (hjsons k hk)
  · obtain ⟨s, hs, hhex⟩ := h.files o ho
    refine ⟨s, ha.kept _ _ (fun p hp => ?_) hs, hhex⟩
    rw [List.mem_singleton.mp hp]
    exact (hkeys.beside_pv (hobjects o ho)).2
  · exact (h.pool o ho).around ha fun p hp => ⟨_, List.mem_singleton.mp hp⟩

end Stages

/-! ## The next boot -/

/-- What the digest of an object of the pool says of a file of it. -/
theorem validate_held {sha256 : CStr → List UInt8} {fs : Fs} {path : List Name} {id s : CStr}
    (hlen : (sha256 s).length = 32) (hread : fs.readFile path = some s)
    (hhex : hexDecode id = some (sha256 s)) :
    pvStorageValidateFileChecksum sha256 (fs.readFile path) id = some 0 := by
  rw [hread]
  exact (validateFileChecksum_iff sha256 hlen hhex hlen).mpr (.inl rfl)

/-- The files that the checks look at, with what they are to hold. -/
structure BootFiles (sha256 : CStr → List UInt8) (fs : Fs) (t : PvState) : Prop where
  files : ∀ o ∈ t.objects, ∃ s, fs.readFile (trailsPath t.rev o.name) = some s ∧
    hexDecode o.id = some (sha256 s)
  pool : ∀ o ∈ t.objects, ∃ s, fs.readFile (objectPath o.id) = some s ∧
    hexDecode o.id = some (sha256 s)
  jsons : ∀ j ∈ t.jsons, fs.readFile (trailsPath t.rev j.name) = some j.value

/-- They pass. -/
theorem BootFiles.checked {sha256 : CStr → List UInt8} {fs : Fs} {t : PvState}
    (h : BootFiles sha256 fs t) (hlen : ∀ s, (sha256 s).length = 32) :
    pvStateValidateChecksum (diskChecks sha256 fs) t = true := by
  refine (pvStateValidateChecksum_iff _ t).mpr ⟨fun o ho => ⟨?_, ?_⟩, fun j hj => ?_⟩
  · obtain ⟨s, hread, hhex⟩ := h.files o ho
    exact decide_eq_true (validate_held (hlen s) hread hhex)
  · obtain ⟨s, hread, hhex⟩ := h.pool o ho
    exact decide_eq_true (validate_held (hlen s) hread hhex)
  · simp only [diskChecks, pvStorageValidateTrailsJsonValue, h.jsons j hj, Option.getD_some,
      decide_true]

/-- A file of a revision is read. -/
theorem readFile_place {fs : Fs} {rev name s : CStr} (hrev : Plain (components rev))
    (hname : ∀ n ∈ components name, Proper n) (h : fs.held (place rev name) = some (.file s)) :
    fs.readFile (trailsPath rev name) = some s := by
  obtain ⟨ns, n, hpath, hns, hn, -, hplace, -⟩ := trailsPath_proper hrev hname
  rw [hplace] at h
  rw [hpath]
  exact readFile_held hns hn h

/-- An object of the pool is read. -/
theorem InPool.readFile {sha256 : CStr → List UInt8} {fs : Fs} {id : CStr}
    (h : InPool sha256 fs id) (hlen : ∀ s, (sha256 s).length = 32) :
    ∃ s, fs.readFile (objectPath id) = some s ∧ hexDecode id = some (sha256 s) := by
  obtain ⟨s, hs, hhex⟩ := h
  obtain ⟨hpath, hid⟩ := objectPath_hex hhex (hlen s)
  refine ⟨s, ?_, hhex⟩
  rw [hpath] at hs ⊢
  exact readFile_held (by decide : Plain [str "objects"]) hid hs

section Boots

variable {sha256 : CStr → List UInt8} {jsmn : Jsmn} {d : ObjectDoc} {toks : List Tok} {fs : Fs}
  {rev : CStr} {t : PvState}

/-- What an installation leaves of a text is what the boot checks. -/
theorem bootFiles_of_install {io : InstallCalls} {files : InstallFiles}
    (hreads : jsmn.Reads d toks) (hkeys : FileKeys d.keys) (hlists : Lists d.pairs t)
    (hjson : t.json = some d.text) (hlen : ∀ s, (sha256 s).length = 32)
    (hpool : ∀ o ∈ t.objects, InPool sha256 fs o.id) (hempty : EmptyRev fs t.rev) (hio : io.Full)
    (hinstall : installFiles jsmn io fs t = some files) (hworked : files.Worked) :
    pvStorageGetStateJson files.fs t.rev = some d.text ∧ BootFiles sha256 files.fs t := by
  rw [d.keys_eq] at hkeys
  obtain ⟨hobjects, hapart⟩ := hlists.names hkeys
  have hjsons : ∀ k ∈ (jsonMembers d.pairs).map (·.1),
      k ∈ d.pairs.map (·.1) ∧ isJsonKey k = true := by
    intro k hk
    obtain ⟨m, hm, rfl⟩ := List.mem_map.mp hk
    obtain ⟨hmem, hkind⟩ := List.mem_filter.mp hm
    exact ⟨List.mem_map_of_mem hmem, hkind⟩
  obtain ⟨fs₂, hloop, hstaged⟩ := staged_objects hlen hkeys hjsons hobjects hapart hempty hpool
    hio.objects
  have hboot := hstaged.boot hkeys (fun k hk => (hjsons k hk).1) (fun o ho => (hobjects o ho).1)
    (around_linkBoot io.boot hstaged.revDir)
  have htrail : trailLinkObjects io.objects io.boot (fs.mkdirP (pvrPath t.rev)) t
      = pvStorageMetaLinkBoot io.boot fs₂ t := by
    rw [trailLinkObjects, hloop]
    rfl
  obtain ⟨⟨linked, fs₃⟩, hmeta⟩ : ∃ r, pvStorageMetaLinkBoot io.boot fs₂ t = r := ⟨_, rfl⟩
  rw [installFiles, htrail, hmeta] at hinstall
  rw [hmeta] at hboot
  cases linked with
  | false =>
    obtain rfl := Option.some.inj hinstall
    exact absurd hworked.1 (by simp)
  | true =>
    obtain ⟨fs₄, hwritten, haround, hheld⟩ := installJson_full hio hboot.revDir hboot.pvr
      (fun n => (hboot.empty n).none) d.text
    simp only [Bool.not_true, Bool.false_eq_true, if_false, hjson, hwritten,
      pvStorageMetaExpandJsons, hreads.parse, Reads.keysAndValues hreads, Option.some.injEq]
      at hinstall
    -- the state json is in place, and the JSON files come last
    have hrev : RevDir fs₄ t.rev := hboot.revDir.around haround fun p hp => by
      rw [List.mem_singleton.mp hp, pvrPlace_eq]
      exact not_snoc_le _ _
    have hbeside : ∀ k ∈ d.pairs.map (·.1), Beside (place t.rev k) (pvrPlace t.rev) := fun k hk =>
      List.append_nil (pvrPlace t.rev) ▸ hkeys.beside_pvr hk []
    have hfree : ∀ m ∈ jsonMembers d.pairs, fs₄.Free (place t.rev m.1) := by
      intro m hm
      have hk : m.1 ∈ (jsonMembers d.pairs).map (·.1) := List.mem_map_of_mem hm
      refine haround.free (hboot.free m.1 hk) fun p hp => ?_
      rw [List.mem_singleton.mp hp]
      exact hbeside m.1 (hjsons m.1 hk).1
    obtain ⟨hext, hexpanded⟩ := expand_full hkeys hrev hfree hio.expand
    obtain rfl := hinstall
    refine ⟨?_, fun o ho => ?_, fun o ho => ?_, fun j hj => hexpanded _ (hlists.jsons j hj)⟩
    · have hpath : jsonPath t.rev = revPath t.rev ++ [str ".pvr"] ++ [str "json"] := by
        rw [List.append_assoc]
        rfl
      have hclean : clean (revPath t.rev ++ [str ".pvr"]) = pvrPlace t.rev := by
        rw [clean_append, pvrPlace_eq]
        rfl
      rw [pvStorageGetStateJson, hpath]
      refine readFile_held ((plain_revPath hempty.plain).append (by decide)) (by decide) ?_
      rw [hclean]
      exact hext.held_file hheld
    · obtain ⟨s, hs, hhex⟩ := hboot.files o ho
      have hkept : fs₄.held (place t.rev o.name) = some (.file s) := by
        refine haround.kept _ _ (fun p hp => ?_) hs
        rw [List.mem_singleton.mp hp]
        exact (hbeside _ (hobjects o ho).1).2
      exact ⟨s, readFile_place hempty.plain (hkeys.proper _ (hobjects o ho).1)
        (hext.held_file hkept), hhex⟩
    · obtain ⟨s, hs, hhex⟩ := (hboot.pool o ho).around haround
        fun p hp => ⟨str ".pvr", List.mem_singleton.mp hp⟩
      exact InPool.readFile ⟨s, hext.held_file hs, hhex⟩ hlen

/-- **What was installed boots**: the text that is read back is the one that was installed, it is
parsed to the same state, and the checksums of that state are right. -/
theorem installed_boots {mntpoint : CStr} {alloc : Nat} {io : InstallCalls} {files : InstallFiles}
    (hreads : jsmn.Reads d toks) (hspec : scan jsmn d.text (str "#spec") = some specSystem1)
    (haccepted : getState jsmn mntpoint alloc d.text rev = some (some t))
    (hkeys : FileKeys d.keys) (hbsp : str "bsp/run.json" ∈ d.keys)
    (hlen : ∀ s, (sha256 s).length = 32) (hpool : ∀ o ∈ t.objects, InPool sha256 fs o.id)
    (hempty : EmptyRev fs rev) (hio : io.Full)
    (hinstall : installFiles jsmn io fs t = some files) (hworked : files.Worked) :
    pvStorageGetStateJson files.fs rev = some d.text ∧
      (pvStorageGetStateJson files.fs rev).bind (getState jsmn mntpoint alloc · rev)
        = some (some t) ∧
      pvStateValidateChecksum (diskChecks sha256 files.fs) t = true := by
  obtain ⟨hrev, hjson, hlists⟩ := lists_of_accepted hreads hspec haccepted hbsp
  obtain ⟨hread, hfiles⟩ := bootFiles_of_install hreads hkeys hlists hjson hlen hpool
    (hrev ▸ hempty) hio hinstall hworked
  rw [hrev] at hread
  refine ⟨hread, ?_, hfiles.checked hlen⟩
  rw [hread, Option.bind_some, haccepted]

end Boots

/-! ## One installation -/

/-- A state with a kernel and an initrd, both of them empty. -/
def kernelMembers : List (JsonMember JsonValue) :=
  [stringMember (str "#spec") specSystem1, runMember, stringMember (str "bsp/k") emptySha,
    stringMember (str "bsp/i") emptySha]

theorem valid_kernelMembers : (JsonValue.object [] kernelMembers).Valid := by
  rw [JsonValue.Valid, membersValid_iff, kernelMembers, List.forall_mem_cons, List.forall_mem_cons,
    List.forall_mem_cons, List.forall_mem_cons]
  exact ⟨by decide, valid_stringMember (by decide) (by decide), valid_runMember,
    valid_stringMember (by decide) (by decide +kernel),
    valid_stringMember (by decide) (by decide +kernel), by simp⟩

def kernelState : ObjectDoc where
  pre := []
  gap := []
  members := kernelMembers
  post := []
  white := white_nils
  valid := valid_kernelMembers

/-- A storage with an empty revision, and an empty object in the pool. -/
def kernelPool : Fs where
  root := .dir [(str "trails", .dir [(str "1", .dir [])]), (str "objects", .dir [(emptySha, .file 0)])]
  data := fun _ => []

theorem get_kernelPool {q : Path} (hq : q ≠ []) :
    kernelPool.root.get (clean (revPath (str "1")) ++ q) = none := by
  have hbase : kernelPool.root.get (clean (revPath (str "1"))) = some (.dir []) := rfl
  rw [Tree.get_append, hbase, Option.bind_some]
  cases q with
  | nil => exact absurd rfl hq
  | cons n q => rfl

theorem emptyRev_kernelPool : EmptyRev kernelPool (str "1") where
  plain := by decide
  dir := ⟨[], rfl⟩
  pv := by
    intro q hq
    rw [← pvPlace, pvPlace_eq] at hq
    rcases List.prefix_concat_iff.mp hq with rfl | hq
    · exact .inl (get_kernelPool (by simp))
    · exact .inr (DirAt.above ⟨[], rfl⟩ hq)
  empty := fun _ hq _ => get_kernelPool hq

theorem fileKeys_kernelState : FileKeys kernelState.keys where
  proper := by decide +kernel
  visible := by decide +kernel
  apart := by
    unfold Beside
    decide +kernel

/-- It is installed, and boots. -/
theorem installed_boots_kernel :
    ∃ t files, getState tokenizer (str "/s") 0 kernelState.text (str "1") = some (some t) ∧
      installFiles tokenizer .ok kernelPool t = some files ∧
      pvStorageGetStateJson files.fs (str "1") = some kernelState.text ∧
      (pvStorageGetStateJson files.fs (str "1")).bind (getState tokenizer (str "/s") 0 · (str "1"))
        = some (some t) ∧
      pvStateValidateChecksum (diskChecks sha256OfEmpty files.fs) t = true := by
  obtain ⟨hreads, hrun, hspec⟩ :
      tokenizer.Reads kernelState ((tokenizer.parse kernelState.text).getD []) ∧
      ((getState tokenizer (str "/s") 0 kernelState.text (str "1")).bind id).bind
        (fun t => (installFiles tokenizer .ok kernelPool t).map fun files =>
          (t.objects.map (·.id), files.linkObjects, files.openJson, files.expandJsons))
        = some ([emptySha, emptySha], true, true, true) ∧
      scan tokenizer kernelState.text (str "#spec") = some specSystem1 := by decide +kernel
  obtain ⟨t, ht, hfiles⟩ := Option.bind_eq_some_iff.mp hrun
  obtain ⟨_, haccepted, rfl⟩ := Option.bind_eq_some_iff.mp ht
  obtain ⟨files, hinstall, hparts⟩ := Option.map_eq_some_iff.mp hfiles
  simp only [Prod.mk.injEq] at hparts
  obtain ⟨hids, hworked⟩ := hparts
  have hpool : ∀ o ∈ t.objects, InPool sha256OfEmpty kernelPool o.id := by
    intro o ho
    have hid : o.id ∈ [emptySha, emptySha] := hids ▸ List.mem_map_of_mem ho
    have hempty : o.id = emptySha := by simpa using hid
    rw [hempty]
    exact ⟨[], held_file_iff.mpr ⟨0, rfl, rfl⟩, by decide +kernel⟩
  have hio : InstallCalls.ok.Full :=
    ⟨by simp [InstallCalls.ok], by simp [InstallCalls.ok], rfl, rfl, rfl, by simp [InstallCalls.ok]⟩
  exact ⟨t, files, haccepted, hinstall, installed_boots hreads hspec haccepted
    fileKeys_kernelState (by decide +kernel) length_sha256OfEmpty hpool emptyRev_kernelPool hio
    hinstall hworked⟩

end Pantavisor.Storage
