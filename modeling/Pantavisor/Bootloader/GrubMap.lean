/-
Pantavisor.Bootloader.GrubMap — runs of set and unset on a GRUB block, and
the finite map they are meant to be.

A step of a run is the map operation when its line fits the 128 bytes of `v`
and every OTHER stored key ends before index 997 (`GrubStepsOk`); over keys of
which none is a proper prefix of another this is exact
(`grubApply_block_iff`). In a run of such steps the block stays well formed
and holds what the map operations leave (`grubRun_block`), and get answers
with it for every key whose entry it sees and that no entry it sees properly
extends.
-/
import Pantavisor.Bootloader.GrubTheorems

namespace Pantavisor.Bootloader

open Pantavisor.Lib

/-- One operation with all I/O working. -/
def grubApply (file : CStr) : KeyOp CStr CStr → Except Fault (Int × CStr)
  | .set k v => grubSetEnvKey .ok file k v
  | .unset k => grubUnsetEnvKey .ok file k

/-- A sequence of operations, each on what the one before left. -/
def grubRun (file : CStr) : List (KeyOp CStr CStr) → Except Fault CStr
  | [] => .ok file
  | op :: ops => do
    let (_, file') ← grubApply file op
    grubRun file' ops

/-- An operation on a key and a value that the lines of a block can hold. -/
structure GrubOpOk (op : KeyOp CStr CStr) : Prop where
  key : KeyOk newline op.key
  value : ∀ v ∈ op.result, ValueOk newline v

instance (op : KeyOp CStr CStr) : Decidable (GrubOpOk op) :=
  decidable_of_iff (KeyOk newline op.key ∧ ∀ v ∈ op.result, ValueOk newline v)
    ⟨fun ⟨a, b⟩ => ⟨a, b⟩, fun ⟨a, b⟩ => ⟨a, b⟩⟩

/-- The line of an operation fits the entry buffer. -/
def GrubShort (op : KeyOp CStr CStr) : Prop :=
  ∀ v ∈ op.result, (entryText (op.key, v)).length + 1 < grubEntrySize

instance (op : KeyOp CStr CStr) : Decidable (GrubShort op) :=
  inferInstanceAs (Decidable (∀ v ∈ op.result, _))

/-- The copy loop sees every key but the operation's own. -/
def GrubSees (es : List (CStr × CStr)) (op : KeyOp CStr CStr) : Prop :=
  ∀ k ∈ keysOf es, k ≠ op.key → k ∈ keysOf (fitting grubScanned es)

instance (es : List (CStr × CStr)) (op : KeyOp CStr CStr) : Decidable (GrubSees es op) :=
  inferInstanceAs (Decidable (∀ k ∈ keysOf es, _))

/-- Before every operation of a run the copy loop sees the entries it has to
keep, and the operation's line fits the entry buffer. -/
def GrubStepsOk (es : List (CStr × CStr)) : List (KeyOp CStr CStr) → Prop
  | [] => True
  | op :: ops => (GrubShort op ∧ GrubSees es op) ∧ GrubStepsOk (op.apply es) ops

instance instDecidableGrubStepsOk : ∀ (es : List (CStr × CStr)) (ops : List (KeyOp CStr CStr)),
    Decidable (GrubStepsOk es ops)
  | _, [] => inferInstanceAs (Decidable True)
  | es, op :: ops =>
      have : Decidable (GrubStepsOk (op.apply es) ops) :=
        instDecidableGrubStepsOk (op.apply es) ops
      inferInstanceAs (Decidable (_ ∧ _))

/-- After every operation of a run the entries fit the block. -/
def GrubFits (es : List (CStr × CStr)) : List (KeyOp CStr CStr) → Prop
  | [] => True
  | op :: ops => (grubContents (op.apply es)).length ≤ grubEnvSize ∧ GrubFits (op.apply es) ops

instance instDecidableGrubFits : ∀ (es : List (CStr × CStr)) (ops : List (KeyOp CStr CStr)),
    Decidable (GrubFits es ops)
  | _, [] => inferInstanceAs (Decidable True)
  | es, op :: ops =>
      have : Decidable (GrubFits (op.apply es) ops) := instDecidableGrubFits (op.apply es) ops
      inferInstanceAs (Decidable (_ ∧ _))

/-! ## One operation -/

/-- Where the copy loop sees every key but `k`, what it does not see are
entries of `k`, and unsetting `k` drops those anyway. -/
theorem unsetKey_fitting {es : List (CStr × CStr)} {op : KeyOp CStr CStr}
    (hnd : (keysOf es).Nodup) (hsees : GrubSees es op) :
    unsetKey (fitting grubScanned es) op.key = unsetKey es op.key := by
  obtain ⟨more, hmore⟩ := prefix_fitting grubScanned es
  have hunseen : unsetKey more op.key = [] := by
    refine List.filter_eq_nil_iff.mpr fun p hp => ?_
    have hin : p.1 ∈ keysOf es := List.mem_map.mpr ⟨p, hmore ▸ List.mem_append_right _ hp, rfl⟩
    have hnot : p.1 ∉ keysOf (fitting grubScanned es) := by
      rw [← hmore, keysOf, List.map_append, List.nodup_append] at hnd
      exact fun hs => hnd.2.2 _ hs _ (List.mem_map.mpr ⟨p, hp, rfl⟩) rfl
    by_cases hk : p.1 = op.key
    · simp [hk]
    · exact absurd (hsees p.1 hin hk) hnot
  calc unsetKey (fitting grubScanned es) op.key
      = unsetKey (fitting grubScanned es) op.key ++ unsetKey more op.key := by
        rw [hunseen, List.append_nil]
    _ = unsetKey (fitting grubScanned es ++ more) op.key := by simp only [unsetKey, List.filter_append]
    _ = unsetKey es op.key := by rw [hmore]

/-- With prefix-free keys, what a rewrite leaves is what the map operation
leaves. -/
theorem grubRewritten_eq_apply {es : List (CStr × CStr)} {op : KeyOp CStr CStr}
    (hnd : (keysOf es).Nodup) (hfree : ∀ k ∈ keysOf es, ¬ ProperPrefix op.key k)
    (hsees : GrubSees es op) :
    rewriteEntries op.key (fitting grubScanned es) op.result = op.apply es := by
  have hsub : ∀ k ∈ keysOf (fitting grubScanned es), ¬ ProperPrefix op.key k :=
    fun k hk => hfree k (((prefix_fitting grubScanned es).sublist.map _).subset hk)
  have hunset := unsetKey_fitting hnd hsees
  rw [rewriteEntries_eq_apply hsub]
  cases op with
  | set k v => exact congrArg (· ++ [(k, v)]) hunset
  | unset k => exact hunset

/-- An operation is the rewrite of its key. -/
theorem grubApply_eq (file : CStr) (op : KeyOp CStr CStr) :
    grubApply file op = grubRewrite .ok file op.key (grubAdd op.key op.result) := by
  cases op with
  | set k v => exact grubSetEnvKey_eq .ok file k v
  | unset k => rfl

/-- **One operation that sees what it has to keep** is the map operation, and
the block stays well formed. -/
theorem grubApply_block {file : CStr} {es : List (CStr × CStr)} (h : GrubBlock file es)
    {op : KeyOp CStr CStr} (hop : GrubOpOk op)
    (hfree : ∀ k ∈ keysOf es, ¬ ProperPrefix op.key k) (hshort : GrubShort op)
    (hsees : GrubSees es op) (hfit : (grubContents (op.apply es)).length ≤ grubEnvSize) :
    ∃ file', grubApply file op = .ok (0, file') ∧ GrubBlock file' (op.apply es) := by
  have hkept := grubRewritten_eq_apply h.block.nodup hfree hsees
  have hrun := grubRewrite_block h hop.key hshort (by rw [hkept]; exact hfit)
  have hblock := h.rewrite hop.key hop.value (by rw [hkept]; exact hfit)
  rw [hkept] at hrun hblock
  exact ⟨_, by rw [grubApply_eq, hrun], hblock⟩

/-- **What one operation loses**: with prefix-free keys and a line that fits,
the stored map is the updated one exactly when the copy loop sees every key
but the operation's own. -/
theorem grubApply_block_iff {file : CStr} {es : List (CStr × CStr)} (h : GrubBlock file es)
    {op : KeyOp CStr CStr} (hop : GrubOpOk op)
    (hfree : ∀ k ∈ keysOf es, ¬ ProperPrefix op.key k) (hshort : GrubShort op)
    (hfit : (grubContents (rewriteEntries op.key (fitting grubScanned es) op.result)).length
      ≤ grubEnvSize) :
    ∃ file' es', grubApply file op = .ok (0, file') ∧ GrubBlock file' es' ∧
      (denote es' = Function.update (denote es) op.key op.result ↔ GrubSees es op) := by
  refine ⟨_, _, by rw [grubApply_eq, grubRewrite_block h hop.key hshort hfit],
    h.rewrite hop.key hop.value hfit, ?_⟩
  constructor
  · intro heq k hk hne
    have hval := congrFun heq k
    have hpre : ¬ op.key <+: k := fun hp => hfree k hk ⟨hp, Ne.symm hne⟩
    rw [denote_rewriteEntries, if_neg hne, if_neg hpre, Function.update_of_ne hne] at hval
    exact denote_fitting_iff.mp hval hk
  · intro hsees
    rw [grubRewritten_eq_apply h.block.nodup hfree hsees, denote_apply]

/-! ## Runs -/

/-- **A run of steps that see what they have to keep** succeeds and leaves a
well-formed block of the entries that the map operations leave. -/
theorem grubRun_block {ops : List (KeyOp CStr CStr)} :
    ∀ {file : CStr} {es : List (CStr × CStr)}, GrubBlock file es →
      (∀ op ∈ ops, GrubOpOk op) → PrefixFree (keysOf es ++ ops.map KeyOp.key) →
      GrubFits es ops → GrubStepsOk es ops →
      ∃ file', grubRun file ops = .ok file' ∧ GrubBlock file' (ops.foldl KeyOp.apply es) := by
  induction ops with
  | nil => intro file es h _ _ _ _; exact ⟨file, rfl, h⟩
  | cons op ops ih =>
      intro file es h hok hfree hfits hsteps
      have hkey : ∀ k ∈ keysOf es, ¬ ProperPrefix op.key k :=
        fun k hk => hfree op.key (by simp) k (List.mem_append_left _ hk)
      obtain ⟨⟨hshort, hsees⟩, hsteps'⟩ := hsteps
      obtain ⟨file₁, hstep, hblock⟩ :=
        grubApply_block h (hok op (by simp)) hkey hshort hsees hfits.1
      obtain ⟨file', hrun, hblock'⟩ :=
        ih hblock (fun o ho => hok o (by simp [ho])) hfree.apply hfits.2 hsteps'
      refine ⟨file', ?_, hblock'⟩
      simp only [grubRun, bind, Except.bind, hstep]
      exact hrun

/-- The lookup over the entries that get sees is the map's answer exactly when
get sees the key's own entry, if there is one, and no entry that extends it. -/
theorem firstMatch_fitting_iff {es : List (CStr × CStr)} {key : CStr} {n : Nat}
    (hfree : key ∈ keysOf es → ∀ k ∈ keysOf es, ¬ ProperPrefix key k) :
    firstMatch key (fitting n es) = denote es key ↔
      (key ∈ keysOf es → key ∈ keysOf (fitting n es)) ∧
        ∀ k ∈ keysOf (fitting n es), ¬ ProperPrefix key k := by
  have hsub : keysOf (fitting n es) ⊆ keysOf es :=
    ((prefix_fitting n es).sublist.map _).subset
  by_cases hmem : key ∈ keysOf es
  · have hno : ∀ k ∈ keysOf (fitting n es), ¬ ProperPrefix key k :=
      fun k hk => hfree hmem k (hsub hk)
    rw [firstMatch_eq_denote hno, denote_fitting_iff]
    exact ⟨fun h => ⟨h, hno⟩, And.left⟩
  · rw [denote_eq_none_iff.mpr hmem, firstMatch_eq_none_iff]
    constructor
    · exact fun h => ⟨fun hk => absurd hk hmem, fun k hk hpre => h k hk hpre.1⟩
    · rintro ⟨-, h⟩ k hk hpre
      exact h k hk ⟨hpre, fun heq => hmem (heq ▸ hsub hk)⟩

/-- **The GRUB environment as a finite map.** After any run whose steps see
what they have to keep, the block is well formed, and get answers a key with
what the run leaves there exactly when it sees the key's entry, if there is
one, and no entry whose key properly extends it. -/
theorem grubEnv_refines_map {file behind : CStr} {es : List (CStr × CStr)}
    {ops : List (KeyOp CStr CStr)} {key : CStr} (hblock : GrubBlock file es)
    (hops : ∀ op ∈ ops, GrubOpOk op) (hfree : PrefixFree (keysOf es ++ ops.map KeyOp.key))
    (hfits : GrubFits es ops) (hsteps : GrubStepsOk es ops) (hover : GrubOver behind)
    (hkey : KeyOk newline key) :
    ∃ file', grubRun file ops = .ok file' ∧ GrubBlock file' (ops.foldl KeyOp.apply es) ∧
      (grubGetEnvKey .ok behind file' key = valueAfter key (denote es key) ops ↔
        (key ∈ keysOf (ops.foldl KeyOp.apply es) →
            key ∈ keysOf (fitting (grubScanned + behind.length) (ops.foldl KeyOp.apply es))) ∧
          ∀ k ∈ keysOf (fitting (grubScanned + behind.length) (ops.foldl KeyOp.apply es)),
            ¬ ProperPrefix key k) := by
  obtain ⟨file', hrun, hblock'⟩ := grubRun_block hblock hops hfree hfits hsteps
  refine ⟨file', hrun, hblock', ?_⟩
  have hself : key ∈ keysOf (ops.foldl KeyOp.apply es) →
      ∀ k ∈ keysOf (ops.foldl KeyOp.apply es), ¬ ProperPrefix key k :=
    fun hk k hk' => hfree key (keysOf_foldl_subset hk) k (keysOf_foldl_subset hk')
  rw [grubGetEnvKey_block hblock' hover hkey, ← denote_foldl, firstMatch_fitting_iff hself]

/-- A block of a device that has booted revision 4. -/
def committedEntries : List (CStr × CStr) := [(str "pv_rev", str "4")]

theorem committedBlock_ok : GrubBlock (grubFill (grubContents committedEntries)) committedEntries where
  block := by decide
  fits := by decide
  layout := rfl

/-- Setting `pv_try` on a short block leaves `pv_rev` readable. -/
theorem grubEnv_refines_map_pv_rev :
    ∃ file', grubRun (grubFill (grubContents committedEntries)) [.set (str "pv_try") (str "5")]
        = .ok file' ∧
      GrubBlock file' ([.set (str "pv_try") (str "5")].foldl KeyOp.apply committedEntries) ∧
      (grubGetEnvKey .ok [] file' (str "pv_rev")
          = valueAfter (str "pv_rev") (denote committedEntries (str "pv_rev"))
              [.set (str "pv_try") (str "5")] ↔
        (str "pv_rev" ∈ keysOf ([.set (str "pv_try") (str "5")].foldl KeyOp.apply committedEntries) →
            str "pv_rev" ∈ keysOf (fitting (grubScanned + ([] : CStr).length)
              ([.set (str "pv_try") (str "5")].foldl KeyOp.apply committedEntries))) ∧
          ∀ k ∈ keysOf (fitting (grubScanned + ([] : CStr).length)
              ([.set (str "pv_try") (str "5")].foldl KeyOp.apply committedEntries)),
            ¬ ProperPrefix (str "pv_rev") k) :=
  grubEnv_refines_map committedBlock_ok (by decide) (by decide) (by decide) (by decide)
    (by decide) (by decide)

/-- A value that fills the block up to its last 28 bytes. -/
def lateValue : CStr := List.replicate 968 120

/-- Two entries, of which the second ends in the last 27 bytes of the block. -/
def lateEntries : List (CStr × CStr) := [(str "a", lateValue), (str "b", str "1")]

theorem length_lateValue : lateValue.length = 968 := List.length_replicate

/-- The first entry alone, and both, by size. -/
theorem length_late (tail : List (CStr × CStr)) :
    (grubContents ((str "a", lateValue) :: tail)).length
      = 996 + (encode newline tail).length := by
  have hkey : (str "a").length = 1 := by decide
  rw [length_grubContents, encode_cons, List.length_append, List.length_cons, length_entryText,
    length_lateValue, hkey]
  simp only [grubHdrSize]
  omega

theorem lateBlock_ok : GrubBlock (grubFill (grubContents lateEntries)) lateEntries where
  block := {
    nodup := by decide
    keyOk := by decide
    valueOk := by
      intro p hp
      rcases List.mem_cons.mp hp with rfl | hp
      · exact ⟨fun h => absurd (List.eq_of_mem_replicate h) (by decide),
          fun h => absurd (List.eq_of_mem_replicate h) (by decide)⟩
      · rw [List.mem_singleton.mp hp]
        decide }
  fits := by
    rw [lateEntries, length_late]
    decide
  layout := rfl

/-- The copy loop does not see the second entry. -/
theorem fitting_lateEntries : fitting grubScanned lateEntries = [(str "a", lateValue)] := by
  have hfirst : (entryText (str "a", lateValue)).length = 970 := by
    rw [length_entryText, length_lateValue]
    rfl
  have hsecond : (entryText (str "b", str "1")).length = 3 := by decide
  rw [lateEntries, fitting, fitting, hfirst, hsecond]
  rfl

/-- **An entry at the end of the block is lost**: unsetting a key that is not
stored drops the entry of `b`, and no get finds it afterwards. -/
theorem grubRun_loses_late_entry :
    GrubBlock (grubFill (grubContents lateEntries)) lateEntries ∧
      PrefixFree (keysOf lateEntries ++ [str "c"]) ∧
      GrubFits lateEntries [.unset (str "c")] ∧
      ∃ file', grubRun (grubFill (grubContents lateEntries)) [.unset (str "c")] = .ok file' ∧
        valueAfter (str "b") (denote lateEntries (str "b")) [.unset (str "c")]
          = some (str "1") ∧
        ∀ behind, GrubOver behind → grubGetEnvKey .ok behind file' (str "b") = none := by
  have hkept : rewriteEntries (str "c") (fitting grubScanned lateEntries) none
      = [(str "a", lateValue)] := by
    rw [fitting_lateEntries]
    rfl
  have hfit : (grubContents (rewriteEntries (str "c") (fitting grubScanned lateEntries) none)).length
      ≤ grubEnvSize := by
    rw [hkept, length_late]
    decide
  have hkey : KeyOk newline (str "c") := by decide
  have hrun := grubRewrite_block lateBlock_ok hkey (by simp) hfit
  have hblock := lateBlock_ok.rewrite hkey (by simp) hfit
  rw [hkept] at hrun hblock
  refine ⟨lateBlock_ok, by decide, ⟨lateBlock_ok.fits, trivial⟩,
    grubFill (grubContents [(str "a", lateValue)]), ?_, by decide, fun behind hover => ?_⟩
  · rw [grubRun, grubApply_eq]
    simp only [KeyOp.key, KeyOp.result, hrun, bind, Except.bind]
    rfl
  · rw [grubGetEnvKey_block hblock hover (by decide), firstMatch_eq_none_iff]
    intro k hk
    have hka := ((prefix_fitting _ _).sublist.map Prod.fst).subset hk
    rw [List.mem_singleton.mp hka]
    decide

end Pantavisor.Bootloader
