/-
Pantavisor.Storage.InstallKeeps — what an installation that fails leaves of the
revisions that can boot.

The cleanup of `pv_update_install` removes the pending revision by its name,
and nothing compares that name with the running and the committed revision. Both
are kept in every run in which each installation is `Off` their directories:
none of the directories of the pending revision is, holds or is in one of
theirs, no path goes through a link or a dot, and no file that is written in
place is a link of one of theirs.
-/
import Pantavisor.Storage.Device
import Pantavisor.Storage.Factory
import Pantavisor.Lib.FileTreeFence
import Pantavisor.Json.Tokenizer

namespace Pantavisor.Storage

open Pantavisor.Lib Pantavisor.Lib.Fs Pantavisor.Json Pantavisor.State Pantavisor.Controller

/-! ## Where an installation works -/

/-- The files that an installation writes in place, if they are there. -/
def writtenNames (s : PvState) : List CStr :=
  str ".pvr/json.new" :: (s.objects.filter fun o => isBind o.name).map (·.name)

/-- The places of these files. -/
def writtenAt (s : PvState) (t : Path) : Prop := ∃ n ∈ writtenNames s, t = place s.rev n

/-- The places that the paths of a revision lead through. -/
def onWay (rev : CStr) (q : Path) : Prop :=
  q <+: clean (revPath rev) ∨ clean (revPath rev) <+: q ∨ q <+: logsPlace rev ∨ q <+: disksPlace rev

/-- An installation that has nothing to do with what is at `a`. -/
structure Off (jsmn : Jsmn) (fs : Fs) (s : PvState) (a : Path) : Prop where
  rev : Plain (components s.rev)
  objects : ∀ o ∈ s.objects, Plain (components o.name)
  jsons : ∀ json toks members, s.json = some json → jsmn.parse json = some toks →
    keysAndValues jsmn json toks = some members →
    ∀ m ∈ jsonMembers members, Plain (components m.1)
  links : ∀ o ∈ s.objects, isBind o.name = false → ¬ writtenAt s (place s.rev o.name)
  trails : Beside a (clean (revPath s.rev))
  logs : Beside a (logsPlace s.rev)
  disks : Beside a (disksPlace s.rev)
  fenced : Fenced a (onWay s.rev) (writtenAt s) fs

/-! ## Paths of the revision -/

variable {rev : CStr} {a : Path} {written : Path → Prop} {fs fs' : Fs}

theorem admits_rev (hrev : Plain (components rev)) (ha : Beside a (clean (revPath rev)))
    {ns : List Name} (hns : Plain ns) : Admits a (onWay rev) (revPath rev ++ ns) where
  plain := (plain_revPath hrev).append hns
  way q hq := by
    rw [clean_append] at hq
    rcases List.prefix_or_prefix_of_prefix hq (List.prefix_append _ (clean ns)) with h | h
    · exact .inl h
    · exact .inr (.inl h)
  off := by
    rw [clean_append]
    exact (ha.below (List.prefix_append _ _)).1

theorem off_rev (ha : Beside a (clean (revPath rev))) (ns : List Name) :
    ¬ clean (revPath rev ++ ns) <+: a := by
  rw [clean_append]
  exact (ha.below (List.prefix_append _ _)).2

/-- The directory of a file of the revision. -/
theorem trailsPath_dropLast (rev name : CStr) :
    (trailsPath rev name).dropLast = revPath rev ++ (components name).dropLast := by
  rw [trailsPath, List.dropLast_append_of_ne_nil (components_ne_nil name)]

section Spares

variable (hrev : Plain (components rev)) (ha : Beside a (clean (revPath rev)))
include hrev ha

/-! ## Objects -/

theorem spares_copyBind (io : ObjectIo) (source : List Name) {name : CStr}
    (hname : Plain (components name)) (hw : written (place rev name)) :
    Spares a (onWay rev) written fs (copyBind io source (trailsPath rev name) fs) := by
  intro h
  unfold copyBind
  cases hopen : (if io.openTarget then fs.openCreate (trailsPath rev name) false else none) with
  | none => exact Spares.refl fs h
  | some r =>
      obtain ⟨i, fs₁⟩ := r
      have hopen' : fs.openCreate (trailsPath rev name) false = some (i, fs₁) := by
        split at hopen
        · exact hopen
        · cases hopen
      obtain ⟨hf, hk, hapart⟩ := spares_openCreate (admits_rev hrev ha hname) (off_rev ha _)
        (.inl hw) hopen' h
      dsimp only
      split
      · exact ⟨hf, hk⟩
      · obtain ⟨hf', hk'⟩ := spares_setData hapart _ hf
        exact ⟨hf', hk.trans hk'⟩

theorem spares_linkObjects {objects : List PvObject} (io : List ObjectIo)
    (hobjects : ∀ o ∈ objects, Plain (components o.name))
    (hbind : ∀ o ∈ objects, isBind o.name = true → written (place rev o.name))
    (hlinks : ∀ o ∈ objects, isBind o.name = false → ¬ written (place rev o.name)) :
    Spares a (onWay rev) written fs (linkObjects rev objects io fs).2 := by
  induction objects generalizing fs io with
  | nil => exact Spares.refl fs
  | cons o objects ih =>
      have hplain := hobjects o (by simp)
      have hrest : ∀ {fs : Fs} {io : List ObjectIo},
          Spares a (onWay rev) written fs (linkObjects rev objects io fs).2 := ih _
        (fun p hp => hobjects p (by simp [hp])) (fun p hp => hbind p (by simp [hp]))
        (fun p hp => hlinks p (by simp [hp]))
      have hdir : Spares a (onWay rev) written fs (fs.mkdirP (trailsPath rev o.name).dropLast) := by
        rw [trailsPath_dropLast]
        exact spares_mkdirP (admits_rev hrev ha hplain.dropLast)
      unfold linkObjects
      dsimp only
      split
      · rename_i ho
        exact (hdir.trans (spares_copyBind hrev ha _ _ hplain (hbind o (by simp) ho))).trans hrest
      · rename_i ho
        split
        · rename_i fs₂ hlink
          have hlink' : (fs.mkdirP (trailsPath rev o.name).dropLast).link (objectPath o.id)
              (trailsPath rev o.name) = .ok fs₂ := by
            split at hlink
            · exact hlink
            · cases hlink
          exact (hdir.trans (spares_link (admits_rev hrev ha hplain) (off_rev ha _)
            (hlinks o (by simp) (by simpa using ho)) hlink')).trans hrest
        · exact hdir.trans hrest
        · exact hdir

/-! ## Boot files -/

theorem spares_linkNames {names : List (CStr × CStr)} (io : List Bool)
    (hnames : ∀ e ∈ names, Plain (components e.2))
    (hlinks : ∀ e ∈ names, ¬ written (place rev e.2)) :
    Spares a (onWay rev) written fs (linkNames rev names io fs).2.2 := by
  induction names generalizing fs io with
  | nil => exact Spares.refl fs
  | cons e names ih =>
      obtain ⟨source, target⟩ := e
      have hplain := hnames (source, target) (by simp)
      have hremove : Spares a (onWay rev) written fs
          ((fs.remove (trailsPath rev target)).getD fs) := by
        cases hr : fs.remove (trailsPath rev target) with
        | none => exact Spares.refl fs
        | some fs₁ => exact spares_remove (admits_rev hrev ha hplain) (off_rev ha _) hr
      unfold linkNames
      dsimp only
      split
      · rename_i fs₂ hlink
        have hlink' : ((fs.remove (trailsPath rev target)).getD fs).link (trailsPath rev source)
            (trailsPath rev target) = .ok fs₂ := by
          split at hlink
          · exact hlink
          · cases hlink
        exact (hremove.trans (spares_link (admits_rev hrev ha hplain) (off_rev ha _)
          (hlinks (source, target) (by simp)) hlink')).trans
          (ih _ (fun e he => hnames e (by simp [he])) (fun e he => hlinks e (by simp [he])))
      · exact hremove

/-! ## JSON files -/

theorem spares_installJson (io : InstallCalls) (json : CStr)
    (hw : written (place rev (str ".pvr/json.new"))) :
    Spares a (onWay rev) written fs (installJson io fs rev json).2 := by
  intro h
  have hnew : Plain (components (str ".pvr/json.new")) := by decide
  have hjson : Plain (components (str ".pvr/json")) := by decide
  unfold installJson
  dsimp only
  cases hopen : (if io.openJson then fs.openCreate (trailsPath rev (str ".pvr/json.new")) true
      else none) with
  | none => exact Spares.refl fs h
  | some r =>
      obtain ⟨i, fs₁⟩ := r
      have hopen' : fs.openCreate (trailsPath rev (str ".pvr/json.new")) true = some (i, fs₁) := by
        split at hopen
        · exact hopen
        · cases hopen
      obtain ⟨hf, hk, hapart⟩ := spares_openCreate (admits_rev hrev ha hnew) (off_rev ha _)
        (.inl hw) hopen' h
      obtain ⟨hf', hk'⟩ := spares_setData hapart _ hf
      have hwritten := And.intro hf' (hk.trans hk')
      dsimp only
      split
      · cases hr : (fs₁.writeAt i (io.writeJson.taken json)).rename
          (trailsPath rev (str ".pvr/json.new")) (jsonPath rev) with
        | none => exact hwritten
        | some fs₂ =>
            obtain ⟨hf₂, hk₂⟩ := spares_rename (admits_rev hrev ha hnew)
              (admits_rev hrev ha hjson) (off_rev ha _) (off_rev ha _) hw hr hf'
            exact ⟨hf₂, (hk.trans hk').trans hk₂⟩
      · exact hwritten

/-- A file that is opened where nothing was. -/
theorem spares_expandLoop {members : List (CStr × CStr)} (io : List ExpandStep)
    (hplain : ∀ m ∈ jsonMembers members, Plain (components m.1)) :
    Spares a (onWay rev) written fs (expandLoop rev members io fs).2 := by
  induction members generalizing fs io with
  | nil => exact Spares.refl fs
  | cons m members ih =>
      obtain ⟨key, value⟩ := m
      rw [expandLoop]
      by_cases hkey : isJsonKey key = true
      · have hrest : ∀ {fs : Fs} {io : List ExpandStep},
            Spares a (onWay rev) written fs (expandLoop rev members io fs).2 :=
          ih _ fun m hm => hplain m (by
            rw [jsonMembers, List.filter_cons_of_pos (by exact hkey)]
            exact List.mem_cons_of_mem _ hm)
        have hname : Plain (components key) := hplain (key, value) (by
          rw [jsonMembers, List.filter_cons_of_pos (by exact hkey)]
          exact List.mem_cons_self)
        rw [if_neg (by simp [hkey])]
        dsimp only
        split
        · exact Spares.refl fs
        · rename_i hstat
          intro h
          obtain ⟨ns, n, hpath, hns, hn, hlast, hplace, -⟩ := trailsPath_json hkey hrev hname
          have hnofile : ∀ i, fs.root.get (place rev key) ≠ some (.file i) := by
            intro i hi
            rw [hplace] at hi
            obtain ⟨es, hes, -⟩ := Tree.dir_of_get_snoc hi
            have hfind := find_entry hns hn ⟨es, hes⟩ (by simp [hi])
            rw [Fs.stat, hpath, hfind, hi] at hstat
            exact hstat rfl
          have hlink : fs.NoLink (clean (trailsPath rev key).dropLast) := by
            rw [trailsPath_dropLast]
            exact h.noLinkAt (admits_rev hrev ha hname.dropLast)
          have hgrow : Grows (clean (trailsPath rev key).dropLast) fs
              (if fs.stat (trailsPath rev key).dropLast then fs
                else fs.mkdirP (trailsPath rev key).dropLast) := by
            split
            · exact Grows.refl _ fs
            · refine grows_mkdirP h.root ?_ hlink
              rw [hlast]
              exact hns
          have hdir : Spares a (onWay rev) written fs
              (if fs.stat (trailsPath rev key).dropLast then fs
                else fs.mkdirP (trailsPath rev key).dropLast) := by
            split
            · exact Spares.refl fs
            · rw [trailsPath_dropLast]
              exact spares_mkdirP (admits_rev hrev ha hname.dropLast)
          generalize (if fs.stat (trailsPath rev key).dropLast then fs
            else fs.mkdirP (trailsPath rev key).dropLast) = fs₁ at hgrow hdir ⊢
          obtain ⟨hf₁, hk₁⟩ := hdir h
          split
          · exact ⟨hf₁, hk₁⟩
          · rename_i i fs₂ hopen
            have hopen' : fs₁.openCreate (trailsPath rev key) false = some (i, fs₂) := by
              split at hopen
              · exact hopen
              · cases hopen
            obtain ⟨hf₂, hk₂, hapart⟩ := spares_openCreate (admits_rev hrev ha hname)
              (off_rev ha _) (.inr fun j hj => hnofile j (hgrow.new _ _ hj rfl)) hopen' hf₁
            obtain ⟨hf₃, hk₃⟩ := spares_setData hapart _ hf₂
            obtain ⟨hf₄, hk₄⟩ := hrest hf₃
            exact ⟨hf₄, (hk₁.trans hk₂).trans (hk₃.trans hk₄)⟩
      · rw [if_pos (by simp [hkey])]
        refine ih _ fun m hm => hplain m ?_
        rw [jsonMembers, List.filter_cons_of_neg (by exact hkey)]
        exact hm

/-- The removal of the revision. -/
theorem spares_rmRev (hlogs : Beside a (logsPlace rev)) (hdisks : Beside a (disksPlace rev)) :
    Spares a (onWay rev) written fs (pvStorageRmRev fs rev) := by
  have htrails : Admits a (onWay rev) (str "trails" :: components rev) :=
    ⟨plain_revPath hrev, fun q hq => .inl hq, ha.1⟩
  have hl : Admits a (onWay rev) (str "logs" :: components rev) :=
    ⟨hrev.cons (by decide), fun q hq => .inr (.inr (.inl hq)), hlogs.1⟩
  have hd : Admits a (onWay rev) (str "disks" :: str "rev" :: components rev) :=
    ⟨(hrev.cons (by decide)).cons (by decide), fun q hq => .inr (.inr (.inr hq)), hdisks.1⟩
  exact ((spares_removeIn htrails ha.2 (by rw [clean_cons_proper (by decide)]; simp)).trans
    (spares_removeIn hl hlogs.2 (by rw [clean_cons_proper (by decide)]; simp))).trans
    (spares_removeIn hd hdisks.2 (by rw [clean_cons_proper (by decide)]; simp))

end Spares

/-! ## The names of the boot files -/

/-- A digit. -/
theorem mem_decimal {n : Nat} {c : UInt8} (h : c ∈ decimal n) : 48 ≤ c ∧ c ≤ 57 := by
  obtain ⟨d, hd, rfl⟩ := List.mem_map.mp h
  have hdigit := Nat.isDigit_of_mem_toDigits (by decide) (by decide) hd
  simp only [Char.isDigit, Bool.and_eq_true, decide_eq_true_eq] at hdigit
  have hlow : 48 ≤ d.toNat := hdigit.1
  have hhigh : d.toNat ≤ 57 := hdigit.2
  have hnat : d.toNat.toUInt8.toNat = d.toNat := by
    rw [Nat.toUInt8_eq, UInt8.toNat_ofNat']
    omega
  exact ⟨UInt8.le_iff_toNat_le.mpr (by rw [hnat]; exact hlow),
    UInt8.le_iff_toNat_le.mpr (by rw [hnat]; exact hhigh)⟩

/-- Every boot file is linked to a name in `.pv`, and none ends as a bind volume
does. -/
theorem bootTarget_components {s : PvState} {e : CStr × CStr}
    (he : e ∈ addonLinks s ∨ e ∈ bootLinks s) :
    ∃ n, components e.2 = [str ".pv", n] ∧ Proper n ∧ n.getLast? ≠ some 100 := by
  rcases he with he | he
  · obtain ⟨⟨name, i⟩, -, rfl⟩ := List.mem_map.mp he
    have hslash : Lib.slash ∉ str "pv-initrd.img." ++ decimal i := by
      intro hmem
      rcases List.mem_append.mp hmem with hmem | hmem
      · exact absurd hmem (by decide)
      · exact absurd (mem_decimal hmem).1 (by decide)
    refine ⟨str "pv-initrd.img." ++ decimal i, ?_, ?_, ?_⟩
    · have hsplit : str ".pv/pv-initrd.img." ++ decimal i
          = str ".pv" ++ Lib.slash :: (str "pv-initrd.img." ++ decimal i) := rfl
      change components (str ".pv/pv-initrd.img." ++ decimal i) = _
      rw [hsplit, components_append, components_of_no_slash hslash]
      rfl
    · have hlen : 14 ≤ (str "pv-initrd.img." ++ decimal i).length := by simp [str]
      refine ⟨?_, ?_, ?_⟩ <;> intro heq <;> rw [heq] at hlen <;> simp [dot, dotdot, str] at hlen
    · intro hlast
      rw [List.getLast?_append] at hlast
      cases hd : (decimal i).getLast? with
      | none =>
          rw [hd] at hlast
          exact absurd hlast (by decide)
      | some c =>
          rw [hd] at hlast
          have hc := mem_decimal (List.mem_of_getLast? hd)
          rw [Option.some_or, Option.some.injEq] at hlast
          rw [hlast] at hc
          exact absurd hc.2 (by decide)
  · have hcases : e.2 = str ".pv/pv-initrd.img" ∨ e.2 = str ".pv/pv-kernel.img" ∨
        e.2 = str ".pv/pv-fdt.dtb" ∨ e.2 = str ".pv/pantavisor.fit" := by
      unfold bootLinks at he
      dsimp only at he
      split at he
      · split at he <;> simp only [List.cons_append, List.nil_append, List.mem_cons,
          List.not_mem_nil, or_false] at he <;> rcases he with rfl | rfl | rfl <;> simp
      · rw [List.mem_singleton.mp he]
        simp
    rcases hcases with h | h | h | h <;> rw [h]
    · exact ⟨str "pv-initrd.img", by decide⟩
    · exact ⟨str "pv-kernel.img", by decide⟩
    · exact ⟨str "pv-fdt.dtb", by decide⟩
    · exact ⟨str "pantavisor.fit", by decide⟩

/-- No boot file is linked where the installation writes. -/
theorem bootTarget_not_written {s : PvState} {e : CStr × CStr}
    (he : e ∈ addonLinks s ∨ e ∈ bootLinks s) : ¬ writtenAt s (place s.rev e.2) := by
  obtain ⟨n, hcomp, hn, hlast⟩ := bootTarget_components he
  have hclean : clean (components e.2) = [str ".pv", n] := by
    rw [hcomp, clean_cons_proper (by decide), clean_cons_proper hn, clean_nil]
  rintro ⟨name, hname, hplace⟩
  rw [place_eq, place_eq, hclean] at hplace
  have hnames := List.append_cancel_left hplace
  rcases List.mem_cons.mp hname with rfl | hbind
  · have hhead : some (str ".pv") = (clean (components (str ".pvr/json.new"))).head? :=
      congrArg List.head? hnames
    exact absurd hhead (by decide)
  · obtain ⟨o, ho, rfl⟩ := List.mem_map.mp hbind
    obtain ⟨x, hx⟩ := strrchr_suffix (of_decide_eq_true (List.mem_filter.mp ho).2)
    obtain ⟨init, m, hinit⟩ := components_append_no_slash x (s := str ".bind") (by decide)
    have hm : Proper (m ++ str ".bind") := by
      have hlen : 5 ≤ (m ++ str ".bind").length := by simp [str]
      refine ⟨?_, ?_, ?_⟩ <;> intro heq <;> rw [heq] at hlen <;> simp [dot, dotdot, str] at hlen
    rw [hx, hinit, clean_append, clean_cons_proper hm, clean_nil] at hnames
    have htail := congrArg List.getLast? hnames
    simp only [List.getLast?_append, List.getLast?_cons, List.getLast?_nil] at htail
    rw [show n = m ++ str ".bind" by simpa using htail, List.getLast?_append] at hlast
    exact hlast rfl

/-! ## An installation -/

section Installs

variable {jsmn : Jsmn} {s : PvState}

/-- **An installation keeps what it is off**, up to the boot environment. -/
theorem Off.spares_installFiles (h : Off jsmn fs s a) (io : InstallCalls) {files : InstallFiles}
    (hfiles : installFiles jsmn io fs' s = some files) :
    Spares a (onWay s.rev) (writtenAt s) fs' files.fs := by
  have hnames : ∀ n ∈ writtenNames s, writtenAt s (place s.rev n) := fun n hn => ⟨n, hn, rfl⟩
  have hpvr : Spares a (onWay s.rev) (writtenAt s) fs' (fs'.mkdirP (pvrPath s.rev)) :=
    spares_mkdirP (admits_rev h.rev h.trails (by decide))
  have hobjects : Spares a (onWay s.rev) (writtenAt s) (fs'.mkdirP (pvrPath s.rev))
      (linkObjects s.rev s.objects io.objects (fs'.mkdirP (pvrPath s.rev))).2 := by
    refine spares_linkObjects h.rev h.trails _ h.objects (fun o ho hbind => hnames _ ?_) h.links
    exact List.mem_cons_of_mem _ (List.mem_map.mpr ⟨o, List.mem_filter.mpr ⟨ho, hbind⟩, rfl⟩)
  have hboot : ∀ {fs : Fs} {names : List (CStr × CStr)} {calls : List Bool},
      (∀ e ∈ names, e ∈ addonLinks s ∨ e ∈ bootLinks s) →
      Spares a (onWay s.rev) (writtenAt s) fs (linkNames s.rev names calls fs).2.2 := by
    intro fs names calls hnames
    refine spares_linkNames h.rev h.trails calls (fun e he => ?_)
      fun e he => bootTarget_not_written (hnames e he)
    obtain ⟨n, hcomp, hn, -⟩ := bootTarget_components (hnames e he)
    rw [hcomp]
    intro m hm
    simp only [List.mem_cons, List.not_mem_nil, or_false] at hm
    rcases hm with rfl | rfl
    · exact .inr (by decide)
    · exact .inr hn
  have hlinkBoot : ∀ {fs : Fs}, Spares a (onWay s.rev) (writtenAt s) fs
      (pvStorageMetaLinkBoot io.boot fs s).2 := by
    intro fs
    unfold pvStorageMetaLinkBoot
    dsimp only
    split
    · exact hboot fun e he => .inl he
    · exact ((hboot fun e he => .inl he).trans
        (spares_mkdirP (admits_rev h.rev h.trails (by decide)))).trans (hboot fun e he => .inr he)
  have hlinks : Spares a (onWay s.rev) (writtenAt s) (fs'.mkdirP (pvrPath s.rev))
      (trailLinkObjects io.objects io.boot (fs'.mkdirP (pvrPath s.rev)) s).2 := by
    unfold trailLinkObjects
    dsimp only
    split
    · exact hobjects
    · exact hobjects.trans hlinkBoot
  unfold installFiles at hfiles
  dsimp only at hfiles
  split at hfiles
  · rw [← Option.some.inj hfiles]
    exact hpvr.trans hlinks
  · split at hfiles
    · cases hfiles
    · rename_i json hjson
      have hinstall := (hpvr.trans hlinks).trans
        (spares_installJson h.rev h.trails io json (hnames _ List.mem_cons_self))
      split at hfiles
      · rw [← Option.some.inj hfiles]
        exact hinstall
      · split at hfiles
        · cases hfiles
        · rename_i ret fs₁ hexpand
          rw [← Option.some.inj hfiles]
          unfold pvStorageMetaExpandJsons at hexpand
          split at hexpand
          · rw [← (Prod.mk.inj (Option.some.inj hexpand)).2]
            exact hinstall
          · rename_i toks htoks
            split at hexpand
            · cases hexpand
            · rename_i members hmembers
              rw [← (Prod.mk.inj (Option.some.inj hexpand)).2]
              exact hinstall.trans (spares_expandLoop h.rev h.trails io.expand
                (h.jsons json toks members hjson htoks hmembers))

/-- **A call of `pv_update_install` keeps what it is off**, cleanup included. -/
theorem Off.keeps_install {cfg : Config} {io : StepIo} {sio : StorageIo} {pv : Pv} {rev : Rev}
    {r : InstallResult} (h : Off jsmn fs { sio.pending with rev := rev } a)
    (hr : pvUpdateInstallFs jsmn cfg io sio pv fs rev = some r) : Keeps a fs r.fs := by
  have hdir : Spares a (onWay rev) (writtenAt { sio.pending with rev := rev }) fs
      (downloadDir fs rev) :=
    spares_mkdirP (admits_rev h.rev h.trails (by decide))
  unfold pvUpdateInstallFs at hr
  dsimp only at hr
  split at hr
  · cases hr
  · split at hr
    · cases hr
    · rename_i files hfiles
      rw [← Option.some.inj hr]
      have hinstall := hdir.trans (h.spares_installFiles sio.install hfiles)
      dsimp only
      split
      · exact (hinstall h.fenced).2
      · exact (hinstall.trans (spares_rmRev h.rev h.trails h.logs h.disks) h.fenced).2

end Installs

/-! ## Runs -/

/-- All that the directory of a revision holds is as it was. -/
def KeepsRevision (fs fs' : Fs) (rev : Rev) : Prop :=
  ∀ p, fs.walk (revPath rev) = some p → ∀ q, fs'.held (p ++ q) = fs.held (p ++ q)

/-- The revisions that a device can go on with: the running one and the committed
one. -/
def Bootable (d : Device) (rev : Rev) : Prop :=
  (∃ pv, d.ram = some pv ∧ pv.state = some rev) ∨ rev = d.flash.rev

/-- If the installation in a step fails, it keeps the bootable revisions. -/
def FailureKeeps (jsmn : Jsmn) (cfg : Config) (d : StoredDevice) : StorageEvent → Prop
  | .device (.step io) sio =>
    ∀ pv rev r, d.device.ram = some pv → pv.next = .update → pendingRev pv = some rev →
      pvUpdateInstallFs jsmn cfg io sio (pv.atStep d.device.flash.env) d.fs rev = some r →
      r.ok = false →
      ∀ rev', Bootable d.device rev' →
        KeepsRevision d.fs (d.step jsmn cfg (.device (.step io) sio)).fs rev'
  | _ => True

/-- The installation in a step is off the bootable revisions. -/
def InstallsOff (jsmn : Jsmn) (d : StoredDevice) : StorageEvent → Prop
  | .device (.step _) sio =>
    ∀ pv rev, d.device.ram = some pv → pv.next = .update → pendingRev pv = some rev →
      ∀ rev' p, Bootable d.device rev' → d.fs.walk (revPath rev') = some p →
        Off jsmn d.fs { sio.pending with rev := rev } p
  | _ => True

/-- What a step that installs leaves on the storage. -/
theorem step_fs {jsmn : Jsmn} {cfg : Config} {d : StoredDevice} {io : StepIo} {sio : StorageIo}
    {pv : Pv} {rev : Rev} {r : InstallResult} (hram : d.device.ram = some pv)
    (hnext : pv.next = .update) (hrev : pendingRev pv = some rev)
    (hr : pvUpdateInstallFs jsmn cfg io sio (pv.atStep d.device.flash.env) d.fs rev = some r) :
    (d.step jsmn cfg (.device (.step io) sio)).fs = r.fs := by
  have hrev' : pendingRev (pv.atStep d.device.flash.env) = some rev := hrev
  have hnext' : (pv.atStep d.device.flash.env).next = .update := hnext
  simp only [StoredDevice.step, hram, stepStorage, hnext', hrev', hr]

/-- **An installation that fails keeps the running and the committed revision**,
in every run whose installations are off them. -/
theorem failed_install_keeps_bootable (jsmn : Jsmn) (cfg : Config) {d : StoredDevice}
    {es : List StorageEvent} (h : (storageSystem jsmn cfg).Along (InstallsOff jsmn) d es) :
    (storageSystem jsmn cfg).Along (FailureKeeps jsmn cfg) d es := by
  have hstep : ∀ (d : StoredDevice) (e : StorageEvent), True → InstallsOff jsmn d e →
      True ∧ FailureKeeps jsmn cfg d e := by
    intro d e _ hoff
    refine ⟨trivial, ?_⟩
    match e with
    | .storage _ => trivial
    | .device (.boot _) _ => trivial
    | .device (.powerLoss _ _) _ => trivial
    | .device (.step io) sio =>
      intro pv rev r hram hnext hrev hr _ rev' hboot p hp q
      rw [step_fs hram hnext hrev hr]
      exact ((hoff pv rev hram hnext hrev rev' p hboot hp).keeps_install hr).held q
  exact (System.along_of_invariant hstep trivial h).1

theorem installsOff_of_idle {jsmn : Jsmn} {d : StoredDevice} {e : StorageEvent}
    (h : (d.device.ram.any fun pv => pv.next = .update) = false) : InstallsOff jsmn d e := by
  match e with
  | .storage _ => trivial
  | .device (.boot _) _ => trivial
  | .device (.powerLoss _ _) _ => trivial
  | .device (.step _) _ =>
    intro pv rev hram hnext
    rw [hram] at h
    simp [hnext] at h

/-- A device that has committed revision 1 and is off, with revisions 1 and 2. -/
def installable : StoredDevice where
  device := ⟨⟨[(str "pv_rev", str "1")], false⟩, none⟩
  fs :=
    { root := .dir [(str "trails", .dir [
        (str "1", .dir [(str ".pvr", .dir [(str "json", .file 0)]),
          (str "bsp", .dir [(str "i", .file 1), (str "k", .file 2)])]),
        (str "2", .dir [(str ".pvr", .dir [(str "json", .file 3)]),
          (str "bsp", .dir [(str "i", .file 1), (str "k", .file 2)])])])]
      data := fun _ => str "\x7b\x7d" }

/-- The contents of both revisions. -/
def installableIo : StorageIo where
  pending := { pvStateNew 0 [] .system1 with
    bsp := ⟨some (str "k"), none, some (str "i"), none, none⟩
    json := some (str "\x7b\x7d") }
  install := InstallCalls.ok
  factory := ⟨true, true, []⟩

/-- The boot environment cannot be written when a revision is installed. -/
def StepIo.notInstalled : StepIo :=
  { StepIo.ok with update := { StepIo.ok.update with
      install := { StepIo.ok.update.install with setInstalled := false } } }

/-- The device boots, a command runs a local revision, and its installation
fails at the end. -/
def failedRun (rev : Rev) : List StorageEvent :=
  [.device (.boot false) installableIo, .device (.step StepIo.ok) installableIo,
    .device (.step StepIo.ok) installableIo, .device (.step (StepIo.localRun rev)) installableIo,
    .device (.step StepIo.ok) installableIo]

/-- The device where the installation begins. -/
def installing (rev : Rev) : StoredDevice :=
  (storageSystem tokenizer Config.unattended).run installable (failedRun rev)

theorem installing_off : InstallsOff tokenizer (installing (str "2"))
    (.device (.step StepIo.notInstalled) installableIo) := by
  intro pv rev hram _ hrev rev' p hboot hp
  have hpv : (installing (str "2")).device.ram.all
      (fun pv => pendingRev pv = some (str "2") ∧ pv.state = some (str "1")) = true := by
    decide +kernel
  have hflash : (installing (str "2")).device.flash.rev = str "1" := by decide +kernel
  rw [hram, Option.all_some, decide_eq_true_eq] at hpv
  obtain rfl : str "2" = rev := Option.some.inj (hpv.1.symm.trans hrev)
  obtain rfl : rev' = str "1" := by
    rcases hboot with ⟨pv', hram', hstate⟩ | h
    · rw [Option.some.inj (hram'.symm.trans hram)] at hstate
      exact Option.some.inj (hstate.symm.trans hpv.2)
    · exact h.trans hflash
  have hwalk : (installing (str "2")).fs.walk (revPath (str "1"))
      = some [str "trails", str "1"] := by decide +kernel
  obtain rfl : [str "trails", str "1"] = p := Option.some.inj (hwalk.symm.trans hp)
  refine
    { rev := by decide
      objects := by simp [installableIo, pvStateNew]
      jsons := ?_
      links := by simp [installableIo, pvStateNew]
      trails := ⟨by decide, by decide⟩
      logs := ⟨by decide, by decide⟩
      disks := ⟨by decide, by decide⟩
      fenced := ?_ }
  · intro json toks members hjson htoks hmembers
    obtain rfl : str "\x7b\x7d" = json := Option.some.inj hjson
    have hnone : (tokenizer.parse (str "\x7b\x7d")).bind
        (keysAndValues tokenizer (str "\x7b\x7d")) = some [] := by decide +kernel
    rw [htoks, Option.bind_some, hmembers] at hnone
    rw [Option.some.inj hnone]
    intro m hm
    cases hm
  · refine fenced_of_orderly (by decide +kernel) ⟨_, rfl⟩ _ fun t i ht => ?_
    obtain ⟨n, hn, rfl⟩ := ht
    have hname : n = str ".pvr/json.new" := by
      simpa [writtenNames, installableIo, pvStateNew] using hn
    have hnone : (installing (str "2")).fs.root.get (place (str "2") (str ".pvr/json.new"))
        = none := by decide +kernel
    rw [hname]
    exact fun hfile => absurd (hnone.symm.trans hfile) (by simp)

/-- The installation of revision 2 fails, and revision 1 is kept. -/
theorem failed_install_keeps_bootable_two :
    (storageSystem tokenizer Config.unattended).Along (FailureKeeps tokenizer Config.unattended)
      installable (failedRun (str "2") ++ [.device (.step StepIo.notInstalled) installableIo]) :=
  failed_install_keeps_bootable tokenizer Config.unattended
    ⟨trivial, installsOff_of_idle (by decide +kernel), installsOff_of_idle (by decide +kernel),
      installsOff_of_idle (by decide +kernel), installsOff_of_idle (by decide +kernel),
      installing_off, trivial⟩

/-- An installation of the running revision that fails has removed it. -/
theorem failed_install_removes_running :
    ¬ ∀ (jsmn : Jsmn) (cfg : Config) (d : StoredDevice) (es : List StorageEvent),
      (storageSystem jsmn cfg).init d →
        (storageSystem jsmn cfg).Along (FailureKeeps jsmn cfg) d es := by
  intro h
  have hall := h tokenizer Config.unattended installable
    (failedRun (str "1") ++ [.device (.step StepIo.notInstalled) installableIo])
    ⟨rfl, rfl⟩
  have hlast : FailureKeeps tokenizer Config.unattended (installing (str "1"))
      (.device (.step StepIo.notInstalled) installableIo) := hall.2.2.2.2.2.1
  let pv := (installing (str "1")).device.ram.get (by decide +kernel)
  let r := (pvUpdateInstallFs tokenizer Config.unattended StepIo.notInstalled installableIo
    (pv.atStep (installing (str "1")).device.flash.env) (installing (str "1")).fs
    (str "1")).get (by decide +kernel)
  have hkeeps := hlast pv (str "1") r (Option.some_get _).symm (by decide +kernel)
    (by decide +kernel) (Option.some_get _).symm (by decide +kernel) (str "1")
    (.inr (by decide +kernel)) [str "trails", str "1"] (by decide +kernel)
    [str ".pvr", str "json"]
  exact absurd hkeeps (by decide +kernel)

end Pantavisor.Storage
