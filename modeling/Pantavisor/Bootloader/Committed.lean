/-
Pantavisor.Bootloader.Committed — what a commit reports over the backends.

`pv_bootloader_set_commited` sets `pv_rev`, unsets `pv_try` and flushes, and
stops at the first call that does not return 0. Even when each call reports
the truth, the three together do not: an unset that fails leaves the new
`pv_rev` behind, and a new `pv_rev` that ends up behind the part of a GRUB
block that the scans see is dropped again by the unset. And calls that lose
what they are to write do no harm where nothing was to be changed.

`setCommited_run` follows the effects of the three calls, and
`commitReports_iff` says which of them commit, or fail without effect.
-/
import Pantavisor.Bootloader.PartialIo

namespace Pantavisor.Bootloader

open Pantavisor.Lib

/-! ## Operations on what another left -/

/-- The calls have this effect, and leave a store that the next operation can
work on. -/
def EnvIo.DoesWhole (io : EnvIo) (es : List (CStr × CStr)) (key : CStr) (value : Option CStr)
    (e : Effect) (kind : EnvKind) : Prop :=
  io.Does es key value e kind ∧ (e = .fails ∨ io.Whole kind)

theorem EnvIo.Plain.whole {io : EnvIo} {kind : EnvKind} (h : io.Plain kind) : io.Whole kind := by
  rintro rfl
  exact ⟨UbootIo.Plain.read h, UbootIo.Plain.write h⟩

/-- The copy loop ends at once on erased flash, unless a single byte of it was
read. -/
theorem copies_erased (io : UbootIo) {key : CStr} (hkey : KeyOk 0 key) :
    ∃ kept, Copies io ⟨true, erasedFlash⟩ key kept ∧
      ((∀ n ∈ io.read, mtdEnvSize ≤ n) → kept = []) := by
  have hlen : erasedFlash.length = mtdEnvSize := List.length_replicate
  cases hread : io.read with
  | none => exact ⟨[], copies_unread hread _ _, fun _ => rfl⟩
  | some n =>
      have hdata : ubootReadImage io ⟨true, erasedFlash⟩
          = .ok (readInto mtdEnvSize (erasedFlash.take n), (erasedFlash.take n).length) := by
        rw [ubootReadImage, hread]
        simp only [UbootStore.len, if_true, List.take_of_length_le (Nat.le_of_eq hlen)]
        rw [if_neg (by rw [List.length_take]; omega)]
      rcases n with _ | _ | n
      · -- nothing is read
        exact ⟨[], ⟨_, _, hdata, ubootCopyLoop_end 0 (Or.inl (Nat.le_refl 0))⟩, fun _ => rfl⟩
      · -- one byte, which the loop takes for a text
        have hbuf : readInto mtdEnvSize (erasedFlash.take 1)
            = [0xFF] ++ 0 :: List.replicate 65534 0 := by
          rw [erasedFlash_eq]
          rfl
        have htext : ubootCopyLoop (readInto mtdEnvSize (erasedFlash.take 1)) key 1
              (65535 + 1 + 1) 0 []
            = ubootCopyLoop (readInto mtdEnvSize (erasedFlash.take 1)) key 1 (65535 + 1) 2
                (if key <+: [0xFF] then [] else [] ++ ([0xFF] ++ [0])) :=
          ubootCopyLoop_text (by decide) (by simp) (by decide) hkey.nulFree
            (by rw [List.drop_zero]; exact hbuf) (by decide) (by decide) (by decide)
        have hbyte := htext.trans (ubootCopyLoop_end 0 (Or.inl (by decide)))
        exact ⟨_, ⟨_, _, hdata, hbyte⟩, fun hall => absurd (hall 1 rfl) (by decide)⟩
      · refine ⟨[], ⟨_, _, hdata, ?_⟩, fun _ => rfl⟩
        have hbuf : ∃ rest, readInto mtdEnvSize (erasedFlash.take (n + 2))
            = 0xFF :: 0xFF :: rest := by
          rw [erasedFlash_eq, List.take_succ_cons, List.take_succ_cons]
          exact ⟨_, rfl⟩
        obtain ⟨rest, hbuf⟩ := hbuf
        have hpos : ¬ (erasedFlash.take (n + 2)).length ≤ 0 := by
          rw [List.length_take, hlen, mtdEnvSize]
          omega
        rw [ubootCopyLoop, if_neg hpos, hbuf]
        simp [ubootStop]

/-- **Unset on what another operation left** leaves the entries of its effect. -/
theorem unset_stored {io : EnvIo} {s : EnvStore} {es : List (CStr × CStr)} (h : s.Stored es)
    {key : CStr} (hkey : KeyOk s.term key) {e : Effect}
    (hdoes : io.DoesWhole es key none e s.kind) :
    ∃ s', storeRewrite io key none s = .ok (e.ret, s') ∧ s'.kind = s.kind ∧
      s'.Stored (e.leaves s.kind key none es) := by
  rcases h with h | ⟨rfl, rfl⟩
  · obtain ⟨s', hrun, hkind, -, hstored⟩ :=
      storeRewrite_leaves ⟨h, hkey, by simp, by cases s <;> trivial⟩ hdoes.1
    exact ⟨s', hrun, hkind, hstored hdoes.2 (by simp)⟩
  · obtain ⟨hdo, hwhole⟩ := hdoes
    have hdo : io.uboot.Does true [] key none e := hdo
    have hsize : erasedFlash.length ≤ mtdEnvSize := Nat.le_of_eq List.length_replicate
    have hempty : rewriteEntries key [] none = [] := rfl
    obtain ⟨kept, hcopy, hkept⟩ := copies_erased io.uboot hkey
    have herased : EnvStore.Stored [] (.uboot ⟨true, erasedFlash⟩) := Or.inr ⟨rfl, rfl⟩
    -- a write of the image without entries
    have hwritten : e ≠ .fails → io.uboot.Reaches true → io.uboot.Writes true [] [] →
        ∃ s', storeRewrite io key none (.uboot ⟨true, erasedFlash⟩) = .ok (0, s') ∧
          s'.kind = .ubootMtd ∧ s'.Stored [] := by
      rintro he hreach ⟨herase, m, hm, -⟩
      obtain ⟨hread, hwrite⟩ := hwhole.resolve_left he rfl
      obtain rfl := hkept hread
      refine ⟨.uboot ⟨true, ubootImageOf []⟩, ?_, rfl,
        Or.inl ⟨by decide, by simp, ⟨_, rfl⟩, by decide,
          Nat.le_of_eq (length_ubootImageOf (by decide))⟩⟩
      rw [storeRewrite_uboot, ubootRewrite_reaches hreach hcopy rfl,
        ubootWriteImage_flash hsize hm herase, ← program_image (by decide) (hwrite m hm)]
      rfl
    cases e with
    | fails =>
        refine ⟨_, ?_, rfl, herased⟩
        have hno : ¬ io.uboot.Reaches true := hdo
        rw [storeRewrite_uboot, ubootRewrite_fails hno hcopy rfl]
        rfl
    | loses =>
        obtain ⟨hreach, herase, hnothing | ⟨hs, -⟩⟩ := hdo
        · refine ⟨_, ?_, rfl, herased⟩
          rw [storeRewrite_uboot, ubootRewrite_reaches hreach hcopy rfl,
            ubootWriteImage_nothing hnothing herase]
          rfl
        · cases hs
    | wipes =>
        obtain ⟨hreach, -, herase, hnothing⟩ := hdo
        refine ⟨_, ?_, rfl, herased⟩
        rw [storeRewrite_uboot, ubootRewrite_reaches hreach hcopy rfl,
          ubootWriteImage_wipes hsize hnothing herase]
        rfl
    | stores => exact hwritten (by decide) hdo.1 hdo.2.2
    | blind => exact hwritten (by decide) hdo.1 hdo.2.2

/-- What the calls of a flush do: only on flash it unsets `pv_trying`, and it
looks at no result. -/
def EnvIo.Flushes (io : EnvIo) (es : List (CStr × CStr)) (e : Effect) : EnvKind → Prop
  | .ubootMtd => io.DoesWhole es (str "pv_trying") none e .ubootMtd
  | _ => e = .loses

theorem flushEnv_stored {io : EnvIo} {s : EnvStore} {es : List (CStr × CStr)} (h : s.Stored es)
    {e : Effect} (hdoes : io.Flushes es e s.kind) :
    ∃ s', storeOps.flushEnv io s = .ok (0, s') ∧
      s'.Stored (e.leaves s.kind (str "pv_trying") none es) := by
  cases s with
  | grub file =>
      obtain rfl : e = .loses := hdoes
      exact ⟨_, rfl, h⟩
  | uboot st =>
      obtain ⟨single, bytes⟩ := st
      cases single with
      | false =>
          obtain rfl : e = .loses := hdoes
          exact ⟨_, rfl, h⟩
      | true =>
          obtain ⟨s', hrun, -, hstored⟩ :=
            unset_stored h (by decide : KeyOk 0 (str "pv_trying")) hdoes
          refine ⟨s', ?_, hstored⟩
          simp only [storeRewrite] at hrun
          simp only [storeOps, ubootFlushEnv, if_true]
          cases hunset : ubootUnsetEnvKey io.uboot ⟨true, bytes⟩ (str "pv_trying") with
          | error f =>
              rw [hunset] at hrun
              cases hrun
          | ok r =>
              rw [hunset] at hrun
              simp only [bind, Except.bind, pure, Except.pure, Except.ok.injEq,
                Prod.mk.injEq] at hrun ⊢
              exact ⟨trivial, hrun.2⟩

/-! ## Effects that keep what is stored -/

/-- The effect leaves every key as it was. -/
def Effect.Keeps (s : EnvStore) (es : List (CStr × CStr)) (key : CStr) (value : Option CStr) :
    Effect → Prop
  | .fails | .loses => True
  | .wipes => es = []
  | .stores => denote es key = value ∧ Apart s es key
  | .blind => denote es key = value ∧ ∀ k ∈ keysOf es, k = key

/-- An effect that writes the entry leaves every key as it was exactly when it
is right and the entry is the old one. -/
theorem Effect.keeps_of_key {e : Effect} (he : e ≠ .fails) {s : EnvStore}
    {es : List (CStr × CStr)} {key : CStr} {value : Option CStr}
    (hkey : denote (e.leaves s.kind key value es) key = value) :
    denote (e.leaves s.kind key value es) = denote es ↔
      denote es key = value ∧ e.Right s es key value := by
  rw [← Effect.right_iff he]
  constructor
  · intro h
    have hval : denote es key = value := by rw [← h, hkey]
    exact ⟨hval, by rw [h, Function.update_eq_self_iff.mpr hval.symm]⟩
  · rintro ⟨hval, h⟩
    rw [h, Function.update_eq_self_iff.mpr hval.symm]

theorem Effect.keeps_iff {e : Effect} {s : EnvStore} {es : List (CStr × CStr)} {key : CStr}
    {value : Option CStr} :
    denote (e.leaves s.kind key value es) = denote es ↔ e.Keeps s es key value := by
  cases e with
  | fails => exact iff_of_true rfl trivial
  | loses => exact iff_of_true rfl trivial
  | wipes =>
      refine ⟨fun h => ?_, fun h => by rw [show es = [] from h]; rfl⟩
      cases es with
      | nil => rfl
      | cons p es =>
          have hnone : denote (p :: es) p.1 = none := by
            rw [← h]
            rfl
          exact absurd (List.mem_map_of_mem List.mem_cons_self) (denote_eq_none_iff.mp hnone)
  | stores =>
      exact Effect.keeps_of_key (by decide) (by
        rw [Effect.leaves, denote_rewriteEntries, if_pos rfl])
  | blind =>
      exact Effect.keeps_of_key (by decide) (by
        rw [Effect.leaves, denote_rewriteEntries, if_pos rfl])

/-! ## A commit -/

/-- The store is that of a committed revision. -/
def EnvStore.Committed (s : EnvStore) (rev : CStr) : Prop :=
  denote s.entries (str "pv_rev") = some rev ∧ denote s.entries (str "pv_try") = none

/-- A commit succeeds only if the revision is committed, and fails without
effect. -/
def CommitReports (io : CommitIo EnvIo) (bl : PvBootloader) (s : EnvStore) (rev : CStr) : Prop :=
  ∃ ret bl' s', pvBootloaderSetCommited storeOps io bl s rev = .ok (ret, bl', s') ∧
    (ret = 0 → s'.Committed rev) ∧ (ret ≠ 0 → denote s'.entries = denote s.entries)

/-- The entries behind the first call of a commit, and behind the second. -/
def revLeaves (kind : EnvKind) (es : List (CStr × CStr)) (rev : CStr) (r : Effect) :
    List (CStr × CStr) :=
  r.leaves kind (str "pv_rev") (some rev) es

def tryLeaves (kind : EnvKind) (es : List (CStr × CStr)) (rev : CStr) (r u : Effect) :
    List (CStr × CStr) :=
  u.leaves kind (str "pv_try") none (revLeaves kind es rev r)

/-- The scans of the next call see all that a set of `pv_rev` leaves. -/
def RevSeen (kind : EnvKind) (es : List (CStr × CStr)) (rev : CStr) : Prop :=
  kind.seen (revLeaves kind es rev .stores) = revLeaves kind es rev .stores

instance (kind : EnvKind) (es : List (CStr × CStr)) (rev : CStr) :
    Decidable (RevSeen kind es rev) :=
  inferInstanceAs (Decidable (_ = _))

/-- The effects of the three calls, each on what the one before left. Nothing is
said of a call that is not made. -/
structure CommitDoes (io : CommitIo EnvIo) (kind : EnvKind) (es : List (CStr × CStr))
    (rev : CStr) (r u f : Effect) : Prop where
  setRev : io.setRev.DoesWhole es (str "pv_rev") (some rev) r kind
  unsetTry : r ≠ .fails → io.unsetTry.DoesWhole (revLeaves kind es rev r) (str "pv_try") none u kind
  flush : r ≠ .fails → u ≠ .fails → io.flush.Flushes (tryLeaves kind es rev r u) f kind

/-- The effects that commit: `pv_rev` is stored or was so before, `pv_try` is
dropped or was not there, and neither is lost to a later call. -/
structure Commits (kind : EnvKind) (es : List (CStr × CStr)) (rev : CStr) (r u f : Effect) :
    Prop where
  setRev : r = .stores ∧ RevSeen kind es rev ∨ r = .blind ∨
    r = .loses ∧ denote es (str "pv_rev") = some rev
  unsetTry : u = .stores ∨ u = .loses ∧ (r = .blind ∨ denote es (str "pv_try") = none)
  flush : f = .fails ∨ f = .loses ∨ f = .stores

/-- The outcomes of a commit that are reported truly: its first call fails; or
the second does, and the first has changed nothing; or it commits. -/
def CommitTruthful (io : CommitIo EnvIo) (s : EnvStore) (es : List (CStr × CStr)) (rev : CStr) :
    Prop :=
  ∃ r u f, CommitDoes io s.kind es rev r u f ∧
    (r = .fails ∨ u = .fails ∧ r.Keeps s es (str "pv_rev") (some rev) ∨
      Commits s.kind es rev r u f)

/-- The outcomes without short counts. -/
def CommitPlain (io : CommitIo EnvIo) (kind : EnvKind) : Prop :=
  io.setRev.Plain kind ∧ io.unsetTry.Plain kind ∧ io.flush.Plain kind

/-- The key a commit sets and the one it unsets can be in every store. -/
theorem commitKeys_ok (s : EnvStore) :
    KeyOk s.term (str "pv_rev") ∧ KeyOk s.term (str "pv_try") := by
  cases s with
  | uboot st => exact ⟨(by decide : KeyOk 0 _), (by decide : KeyOk 0 _)⟩
  | grub file => exact ⟨(by decide : KeyOk newline _), (by decide : KeyOk newline _)⟩

/-- **The three calls of a commit**, by their effects. -/
theorem setCommited_run {io : CommitIo EnvIo} (bl : PvBootloader) {s : EnvStore}
    {es : List (CStr × CStr)} {rev : CStr} {r u f : Effect}
    (h : EnvOpOk s es (str "pv_rev") (some rev)) (hdo : CommitDoes io s.kind es rev r u f) :
    ∃ ret bl' s', pvBootloaderSetCommited storeOps io bl s rev = .ok (ret, bl', s') ∧
      ((r = .fails ∧ ret = 1 ∧ s'.entries = es) ∨
        (r ≠ .fails ∧ u = .fails ∧ ret = 1 ∧ s'.entries = revLeaves s.kind es rev r) ∨
        (r ≠ .fails ∧ u ≠ .fails ∧ ret = 0 ∧ s'.entries
          = f.leaves s.kind (str "pv_trying") none (tryLeaves s.kind es rev r u))) := by
  obtain ⟨s₁, hrun, hkind, hent, hstored⟩ := storeRewrite_leaves h hdo.setRev.1
  have hset : pvBootloaderSetRev storeOps io.setRev bl s rev
      = .ok (r.ret, { bl with pvRev := rev, pvDone := rev }, s₁) := by
    simp only [pvBootloaderSetRev, storeOps, hrun, bind, Except.bind, pure, Except.pure]
  by_cases hr : r = .fails
  · subst hr
    refine ⟨1, { bl with pvRev := rev, pvDone := rev }, s₁, ?_, Or.inl ⟨rfl, rfl, hent⟩⟩
    simp only [pvBootloaderSetCommited, hset, bind, Except.bind, pure, Except.pure]
    rfl
  have hret : r.ret = 0 := by cases r <;> first | rfl | exact absurd rfl hr
  have hs₁ : s₁.Stored (revLeaves s.kind es rev r) := hstored hdo.setRev.2 fun _ => by decide
  obtain ⟨s₂, hrun', hkind', hs₂⟩ :=
    unset_stored hs₁ (commitKeys_ok s₁).2 (by rw [hkind]; exact hdo.unsetTry hr)
  rw [hkind] at hkind' hs₂
  have hunset : pvBootloaderUnsetTry storeOps io.unsetTry { bl with pvRev := rev, pvDone := rev } s₁
      = .ok (u.ret, { bl with pvRev := rev, pvTry := none, pvDone := rev }, s₂) := by
    simp only [pvBootloaderUnsetTry, storeOps, hrun', bind, Except.bind, pure, Except.pure]
  by_cases hu : u = .fails
  · subst hu
    refine ⟨1, { bl with pvRev := rev, pvTry := none, pvDone := rev }, s₂, ?_,
      Or.inr (Or.inl ⟨hr, rfl, rfl, hs₂.entries⟩)⟩
    simp only [pvBootloaderSetCommited, hset, hret, hunset, bind, Except.bind, pure, Except.pure]
    rfl
  have hret' : u.ret = 0 := by cases u <;> first | rfl | exact absurd rfl hu
  obtain ⟨s₃, hrun'', hs₃⟩ := flushEnv_stored hs₂ (by rw [hkind']; exact hdo.flush hr hu)
  rw [hkind'] at hs₃
  refine ⟨0, { bl with pvRev := rev, pvTry := none, pvDone := rev }, s₃, ?_,
    Or.inr (Or.inr ⟨hr, hu, rfl, hs₃.entries⟩)⟩
  simp only [pvBootloaderSetCommited, hset, hret, hunset, hret', hrun'', bind, Except.bind, pure,
    Except.pure]
  rfl

/-- What an effect leaves of a U-Boot environment at one key. -/
theorem Effect.denote_leaves {kind : EnvKind} (hkind : kind ≠ .grubenv) (e : Effect)
    (es : List (CStr × CStr)) (key : CStr) (value : Option CStr) (k : CStr) :
    denote (e.leaves kind key value es) k = match e with
      | .fails | .loses => denote es k
      | .wipes => none
      | .stores => if k = key then value else if key <+: k then none else denote es k
      | .blind => if k = key then value else none := by
  have hseen : kind.seen es = es := by cases kind <;> first | rfl | exact absurd rfl hkind
  cases e with
  | fails => rfl
  | loses => rfl
  | wipes => rfl
  | stores => rw [Effect.leaves, hseen, denote_rewriteEntries]
  | blind => rw [Effect.leaves, denote_rewriteEntries, show denote [] k = none from rfl, ite_self]

section Leaves

variable {kind : EnvKind} (hkind : kind ≠ .grubenv) {e : Effect} {es : List (CStr × CStr)}
  {key k v : CStr} {value : Option CStr}

include hkind

/-- A key that was set. -/
theorem Effect.leaves_set (he : e ≠ .fails) :
    denote (e.leaves kind key (some v) es) key = some v ↔
      e = .stores ∨ e = .blind ∨ e = .loses ∧ denote es key = some v := by
  rw [Effect.denote_leaves hkind]
  cases e <;> simp at he ⊢

/-- A key that was unset. -/
theorem Effect.leaves_unset (he : e ≠ .fails) :
    denote (e.leaves kind key none es) key = none ↔
      e = .stores ∨ e = .wipes ∨ e = .blind ∨ denote es key = none := by
  rw [Effect.denote_leaves hkind]
  cases e <;> simp at he ⊢

/-- Another key keeps its value unless the effect drops everything. -/
theorem Effect.leaves_other (hne : k ≠ key) (hpre : ¬ key <+: k) :
    denote (e.leaves kind key value es) k
      = if e = .wipes ∨ e = .blind then none else denote es k := by
  rw [Effect.denote_leaves hkind]
  cases e <;> simp [hne, hpre]

end Leaves

/-- The unset of a commit keeps the new `pv_rev` if its scan sees it. -/
theorem committed_entries_iff {kind : EnvKind} {es : List (CStr × CStr)} {rev : CStr}
    (hseen : ∀ es', kind.seen es' <+: es') :
    denote (dropMatches (str "pv_try") (kind.seen (revLeaves kind es rev .stores)))
        (str "pv_rev") = some rev ↔ RevSeen kind es rev := by
  have hne : ¬ str "pv_try" <+: str "pv_rev" := by decide
  rw [denote_dropMatches, if_neg hne]
  constructor
  · intro hrev
    obtain ⟨more, hmore⟩ := hseen (revLeaves kind es rev .stores)
    by_contra hlost
    -- a strict part of the entries is one of those that do not begin with the key
    have hsome : more ≠ [] := by
      rintro rfl
      exact hlost (by rw [List.append_nil] at hmore; exact hmore)
    have hsub : kind.seen (revLeaves kind es rev .stores)
        <+: dropMatches (str "pv_rev") (kind.seen es) := by
      refine List.prefix_of_prefix_length_le
        (show _ <+: revLeaves kind es rev .stores from ⟨more, hmore⟩) (List.prefix_append _ _) ?_
      have hlen := congrArg List.length hmore
      have hpos := List.length_pos_of_ne_nil hsome
      simp only [revLeaves, Effect.leaves, rewriteEntries, List.length_append,
        List.length_singleton] at hlen ⊢
      omega
    have hmem := hsub.subset (mem_of_denote hrev)
    have hnot := (List.mem_filter.mp hmem).2
    simp [isPrefixOf_eq_decide] at hnot
  · intro hall
    rw [RevSeen] at hall
    rw [hall, revLeaves, Effect.leaves, denote_rewriteEntries, if_pos rfl]

/-- Over GRUB a call of the commit fails or stores. -/
theorem commits_iff_grub {io : CommitIo EnvIo} {es : List (CStr × CStr)} {rev : CStr}
    {r u f : Effect} (hdo : CommitDoes io .grubenv es rev r u f) (hr : r ≠ .fails)
    (hu : u ≠ .fails) :
    (denote (f.leaves .grubenv (str "pv_trying") none (tryLeaves .grubenv es rev r u))
          (str "pv_rev") = some rev ∧
        denote (f.leaves .grubenv (str "pv_trying") none (tryLeaves .grubenv es rev r u))
          (str "pv_try") = none) ↔ Commits .grubenv es rev r u f := by
  have hstores : ∀ {io : EnvIo} {es : List (CStr × CStr)} {key : CStr} {value : Option CStr}
      {e : Effect}, e ≠ .fails → io.DoesWhole es key value e .grubenv → e = .stores := by
    intro io es key value e he hdoes
    cases e with
    | fails => exact absurd rfl he
    | stores => rfl
    | loses => exact absurd hdoes.1 id
    | wipes => exact absurd hdoes.1 id
    | blind => exact absurd hdoes.1 id
  obtain rfl := hstores hr hdo.setRev
  obtain rfl := hstores hu (hdo.unsetTry hr)
  obtain rfl : f = .loses := hdo.flush hr hu
  have htry : denote (dropMatches (str "pv_try")
      (EnvKind.seen (revLeaves .grubenv es rev .stores) .grubenv)) (str "pv_try") = none := by
    rw [denote_dropMatches, if_pos (List.prefix_refl _)]
  have hrev : _ ↔ RevSeen .grubenv es rev := committed_entries_iff (prefix_fitting grubScanned)
  constructor
  · rintro ⟨h, -⟩
    exact ⟨Or.inl ⟨rfl, hrev.mp h⟩, Or.inl rfl, Or.inr (Or.inl rfl)⟩
  · rintro ⟨h, -, -⟩
    exact ⟨hrev.mpr (by simpa using h), htry⟩

/-- Over U-Boot the entries of other keys stay, but for an image without them. -/
theorem commits_iff_uboot {kind : EnvKind} (hkind : kind ≠ .grubenv) {es : List (CStr × CStr)}
    {rev : CStr} {r u f : Effect} (hr : r ≠ .fails) (hu : u ≠ .fails) :
    (denote (f.leaves kind (str "pv_trying") none (tryLeaves kind es rev r u)) (str "pv_rev")
          = some rev ∧
        denote (f.leaves kind (str "pv_trying") none (tryLeaves kind es rev r u)) (str "pv_try")
          = none) ↔ Commits kind es rev r u f := by
  have hseen : RevSeen kind es rev := by
    cases kind <;> first | rfl | exact absurd rfl hkind
  rw [Effect.leaves_other hkind (by decide) (by decide),
    Effect.leaves_other hkind (by decide) (by decide), tryLeaves,
    Effect.leaves_other hkind (by decide) (by decide), revLeaves]
  by_cases hf : f = .wipes ∨ f = .blind
  · rw [if_pos hf]
    refine iff_of_false (fun h => absurd h.1 (by simp)) fun h => ?_
    rcases hf with rfl | rfl <;> simpa using h.flush
  rw [if_neg hf, if_neg hf]
  have hflush : f = .fails ∨ f = .loses ∨ f = .stores := by cases f <;> simp at hf ⊢
  rw [Effect.leaves_unset hkind hu]
  by_cases hlost : u = .wipes ∨ u = .blind
  · rw [if_pos hlost]
    refine iff_of_false (fun h => absurd h.1 (by simp)) fun h => ?_
    rcases hlost with rfl | rfl <;> simpa using h.unsetTry
  rw [if_neg hlost, Effect.leaves_set hkind hr,
    Effect.leaves_other hkind (by decide) (by decide)]
  constructor
  · rintro ⟨hrev, htry⟩
    refine ⟨?_, ?_, hflush⟩
    · exact hrev.imp_left fun h => ⟨h, hseen⟩
    · rcases htry with h | h | h | h
      · exact Or.inl h
      · exact absurd (Or.inl h) hlost
      · exact absurd (Or.inr h) hlost
      · by_cases hstores : u = .stores
        · exact Or.inl hstores
        have hloses : u = .loses := by cases u <;> simp at hu hlost hstores ⊢
        refine Or.inr ⟨hloses, ?_⟩
        by_cases hgone : r = .wipes ∨ r = .blind
        · refine Or.inl (hgone.resolve_left ?_)
          rintro rfl
          simp at hrev
        · rw [if_neg hgone] at h
          exact Or.inr h
  · rintro ⟨hrev, htry, -⟩
    refine ⟨hrev.imp_left And.left, ?_⟩
    rcases htry with h | ⟨-, rfl | h⟩
    · exact Or.inl h
    · exact Or.inr (Or.inr (Or.inr (by simp)))
    · refine Or.inr (Or.inr (Or.inr ?_))
      rw [h, ite_self]

/-- **The effects of the three calls commit** exactly under the conditions of
`Commits`. -/
theorem commits_iff {io : CommitIo EnvIo} {kind : EnvKind} {es : List (CStr × CStr)} {rev : CStr}
    {r u f : Effect} (hdo : CommitDoes io kind es rev r u f) (hr : r ≠ .fails) (hu : u ≠ .fails) :
    (denote (f.leaves kind (str "pv_trying") none (tryLeaves kind es rev r u)) (str "pv_rev")
          = some rev ∧
        denote (f.leaves kind (str "pv_trying") none (tryLeaves kind es rev r u)) (str "pv_try")
          = none) ↔ Commits kind es rev r u f := by
  by_cases hkind : kind = .grubenv
  · subst hkind
    exact commits_iff_grub hdo hr hu
  · exact commits_iff_uboot hkind hr hu

/-- What a commit with these effects reports is the truth when the first call
fails, when the second does and nothing has changed, and when it commits. -/
theorem commitReports_iff_effects {io : CommitIo EnvIo} (bl : PvBootloader) {s : EnvStore}
    {es : List (CStr × CStr)} {rev : CStr} {r u f : Effect}
    (h : EnvOpOk s es (str "pv_rev") (some rev)) (hdo : CommitDoes io s.kind es rev r u f) :
    CommitReports io bl s rev ↔ r = .fails ∨ u = .fails ∧ r.Keeps s es (str "pv_rev") (some rev) ∨
      Commits s.kind es rev r u f := by
  obtain ⟨ret, bl', s', hrun, hcase⟩ := setCommited_run bl h hdo
  have hold := h.holds.entries
  have hreports : CommitReports io bl s rev ↔
      (ret = 0 → s'.Committed rev) ∧ (ret ≠ 0 → denote s'.entries = denote es) := by
    constructor
    · rintro ⟨ret₁, bl₁, s₁, hrun₁, hzero, hfail⟩
      rw [hrun, Except.ok.injEq, Prod.mk.injEq, Prod.mk.injEq] at hrun₁
      obtain ⟨rfl, rfl, rfl⟩ := hrun₁
      exact ⟨hzero, fun hne => by rw [hfail hne, hold]⟩
    · rintro ⟨hzero, hfail⟩
      exact ⟨ret, bl', s', hrun, hzero, fun hne => by rw [hfail hne, hold]⟩
  rw [hreports]
  rcases hcase with ⟨hr, rfl, hent⟩ | ⟨hr, hu, rfl, hent⟩ | ⟨hr, hu, rfl, hent⟩
  · exact iff_of_true ⟨fun h0 => absurd h0 (by decide), fun _ => by rw [hent]⟩ (Or.inl hr)
  · rw [hent]
    constructor
    · rintro ⟨-, hkept⟩
      exact Or.inr (Or.inl ⟨hu, Effect.keeps_iff.mp (hkept (by decide))⟩)
    · rintro (hno | ⟨-, hkeeps⟩ | hcommits)
      · exact absurd hno hr
      · exact ⟨fun h0 => absurd h0 (by decide), fun _ => Effect.keeps_iff.mpr hkeeps⟩
      · subst hu
        exact absurd hcommits.unsetTry (by simp)
  · rw [EnvStore.Committed, hent, commits_iff hdo hr hu]
    constructor
    · rintro ⟨hcommits, -⟩
      exact Or.inr (Or.inr (hcommits rfl))
    · rintro (hno | ⟨hno, -⟩ | hcommits)
      · exact absurd hno hr
      · exact absurd hno hu
      · exact ⟨fun _ => hcommits, fun h0 => absurd rfl h0⟩

/-- Without short counts the calls of an unset on what another operation left
have one of the effects. -/
theorem EnvIo.Plain.unset_does {io : EnvIo} {s : EnvStore} (hio : io.Plain s.kind)
    {es : List (CStr × CStr)} (h : s.Stored es) (key : CStr) :
    ∃ e, io.DoesWhole es key none e s.kind := by
  suffices hdoes : ∃ e, io.Does es key none e s.kind by
    obtain ⟨e, he⟩ := hdoes
    exact ⟨e, he, Or.inr hio.whole⟩
  cases s with
  | grub file => exact GrubIo.does_of_plain hio es key none
  | uboot st =>
      obtain ⟨single, bytes⟩ := st
      have hplain : io.uboot.Plain single := by cases single <;> exact hio
      have hused : (encode 0 es).length ≤ ubootRoom := by
        rcases h with h | ⟨rfl, -⟩
        · exact UbootImage.used h
        · decide
      have hdrop : (encode 0 (rewriteEntries key es none)).length ≤ ubootRoom :=
        Nat.le_trans (length_encode_filter_le 0 _ es) hused
      have hblind : (encode 0 (rewriteEntries key [] none)).length ≤ ubootRoom := Nat.zero_le _
      obtain ⟨e, he⟩ := hplain.does hused hdrop hblind
      exact ⟨e, by cases single <;> exact he⟩

/-- Without short counts the three calls of a commit have effects. -/
theorem CommitPlain.does {io : CommitIo EnvIo} {s : EnvStore} (hio : CommitPlain io s.kind)
    {es : List (CStr × CStr)} {rev : CStr} (h : EnvOpOk s es (str "pv_rev") (some rev)) :
    ∃ r u f, CommitDoes io s.kind es rev r u f := by
  obtain ⟨hset, hunset, hflush⟩ := hio
  obtain ⟨r, hr⟩ := hset.does h
  have hrw : io.setRev.DoesWhole es (str "pv_rev") (some rev) r s.kind :=
    ⟨hr, Or.inr hset.whole⟩
  obtain ⟨s₁, -, hkind, -, hstored⟩ := storeRewrite_leaves h hr
  have hs₁ := hstored hrw.2 fun _ => by decide
  obtain ⟨u, hu⟩ := EnvIo.Plain.unset_does (hkind ▸ hunset) hs₁ (str "pv_try")
  obtain ⟨s₂, -, hkind', hs₂⟩ := unset_stored hs₁ (commitKeys_ok s₁).2 hu
  rw [hkind] at hu hkind' hs₂
  obtain ⟨f, hf⟩ : ∃ f, io.flush.Flushes (tryLeaves s.kind es rev r u) f s.kind := by
    obtain ⟨f, hf⟩ := EnvIo.Plain.unset_does (hkind' ▸ hflush) hs₂ (str "pv_trying")
    rw [hkind'] at hf
    cases hk : s.kind with
    | ubootMtd => exact ⟨f, by rw [hk] at hf; exact hf⟩
    | ubootTxt => exact ⟨.loses, rfl⟩
    | grubenv => exact ⟨.loses, rfl⟩
  exact ⟨r, u, f, hrw, fun _ => hu, fun _ _ => hf⟩

/-- **What a commit reports**: the truth with the outcomes of `CommitTruthful`,
and without short counts with no others. -/
theorem commitReports_of_truthful {io : CommitIo EnvIo} (bl : PvBootloader) {s : EnvStore}
    {es : List (CStr × CStr)} {rev : CStr} (h : EnvOpOk s es (str "pv_rev") (some rev))
    (hio : CommitTruthful io s es rev) : CommitReports io bl s rev := by
  obtain ⟨r, u, f, hdo, hcase⟩ := hio
  exact (commitReports_iff_effects bl h hdo).mpr hcase

theorem commitReports_iff {io : CommitIo EnvIo} (bl : PvBootloader) {s : EnvStore}
    {es : List (CStr × CStr)} {rev : CStr} (h : EnvOpOk s es (str "pv_rev") (some rev))
    (hio : CommitPlain io s.kind) : CommitReports io bl s rev ↔ CommitTruthful io s es rev := by
  refine ⟨fun hreports => ?_, commitReports_of_truthful bl h⟩
  obtain ⟨r, u, f, hdo⟩ := hio.does h
  exact ⟨r, u, f, hdo, (commitReports_iff_effects bl h hdo).mp hreports⟩

end Pantavisor.Bootloader
