/-
Pantavisor.Bootloader.UbootMap — runs of set and unset on a U-Boot image, and
the finite map they are meant to be.

`ubootRun` performs a sequence of operations with all I/O working. On keys of
which none is a proper prefix of another every operation is the map operation
(`ubootApply_image`), and by induction so is every run (`ubootRun_image`).

What a run stores is therefore right. What get ANSWERS is right for a key
exactly when no stored key properly extends it: get compares the first
`strlen(key)` bytes of an entry and does not look for the `=` behind them, so
asking for `pv_try` while only `pv_trying` is stored returns a piece of the
other entry.
-/
import Pantavisor.Bootloader.UbootTheorems

namespace Pantavisor.Bootloader

open Pantavisor.Lib

/-- One operation with all I/O working. -/
def ubootApply (st : UbootStore) : KeyOp CStr CStr → Except Fault (Int × UbootStore)
  | .set k v => ubootSetEnvKey .ok st k v
  | .unset k => ubootUnsetEnvKey .ok st k

/-- A sequence of operations, each on what the one before left. -/
def ubootRun (st : UbootStore) : List (KeyOp CStr CStr) → Except Fault UbootStore
  | [] => .ok st
  | op :: ops => do
    let (_, st') ← ubootApply st op
    ubootRun st' ops

/-- The longest `key=value` that an operation may set. -/
def ubootEntryMax : Nat := 126

/-- An operation whose entry the image format and the entry buffer can hold. -/
structure UbootOpOk (op : KeyOp CStr CStr) : Prop where
  key : UbootKeyOk op.key
  value : ∀ v ∈ op.result, ValueOk 0 v
  short : ∀ v ∈ op.result, (entryText (op.key, v)).length ≤ ubootEntryMax

instance (op : KeyOp CStr CStr) : Decidable (UbootOpOk op) :=
  decidable_of_iff (UbootKeyOk op.key ∧ (∀ v ∈ op.result, ValueOk 0 v)
      ∧ ∀ v ∈ op.result, (entryText (op.key, v)).length ≤ ubootEntryMax)
    ⟨fun ⟨a, b, c⟩ => ⟨a, b, c⟩, fun ⟨a, b, c⟩ => ⟨a, b, c⟩⟩

/-- After every operation of a run the entries fit the image. -/
def UbootFits (es : List (CStr × CStr)) : List (KeyOp CStr CStr) → Prop
  | [] => True
  | op :: ops => (encode 0 (op.apply es)).length ≤ ubootRoom ∧ UbootFits (op.apply es) ops

instance : ∀ (es : List (CStr × CStr)) (ops : List (KeyOp CStr CStr)),
    Decidable (UbootFits es ops)
  | _, [] => inferInstanceAs (Decidable True)
  | es, op :: ops =>
      have : Decidable (UbootFits (op.apply es) ops) := instDecidableUbootFits (op.apply es) ops
      inferInstanceAs (Decidable (_ ∧ _))

/-! ## One operation -/

/-- **One operation with prefix-free keys** is the map operation, and the image
stays well formed. -/
theorem ubootApply_image {st : UbootStore} {es : List (CStr × CStr)}
    (h : UbootImage st.bytes es) {op : KeyOp CStr CStr} (hop : UbootOpOk op)
    (hfree : ∀ k ∈ keysOf es, ¬ ProperPrefix op.key k)
    (hfit : (encode 0 (op.apply es)).length ≤ ubootRoom) :
    ∃ st', ubootApply st op = .ok (0, st') ∧ UbootImage st'.bytes (op.apply es) := by
  have hkept := rewriteEntries_eq_apply hfree
  have hshort : ∀ v ∈ op.result, (entryText (op.key, v)).length < ubootEntrySize := by
    intro v hv
    have := hop.short v hv
    simp only [ubootEntryMax] at this
    simp only [ubootEntrySize]
    omega
  have hrun := ubootRewrite_image h hop.key.toKeyOk hshort
    (by rw [hkept]; exact Nat.le_trans hfit (by decide))
  have himg := h.rewrite hop.key hop.value (by rw [hkept]; exact hfit)
  rw [hkept] at hrun himg
  refine ⟨{ st with bytes := readInto mtdEnvSize (encode 0 (op.apply es)) }, ?_, himg⟩
  rw [← hrun]
  cases op with
  | set k v => exact ubootSetEnvKey_eq .ok st k v
  | unset k => exact ubootUnsetEnvKey_eq .ok st k

/-! ## Runs -/

/-- **A run with prefix-free keys** succeeds and leaves a well-formed image of
the entries that the map operations leave. -/
theorem ubootRun_image {ops : List (KeyOp CStr CStr)} :
    ∀ {st : UbootStore} {es : List (CStr × CStr)}, UbootImage st.bytes es →
      (∀ op ∈ ops, UbootOpOk op) → PrefixFree (keysOf es ++ ops.map KeyOp.key) →
      UbootFits es ops →
      ∃ st', ubootRun st ops = .ok st' ∧ UbootImage st'.bytes (ops.foldl KeyOp.apply es) := by
  induction ops with
  | nil => intro st es h _ _ _; exact ⟨st, rfl, h⟩
  | cons op ops ih =>
      intro st es h hok hfree hfits
      have hkey : ∀ k ∈ keysOf es, ¬ ProperPrefix op.key k :=
        fun k hk => hfree op.key (by simp) k (List.mem_append_left _ hk)
      obtain ⟨st₁, hstep, himg⟩ := ubootApply_image h (hok op (by simp)) hkey hfits.1
      obtain ⟨st', hrun, himg'⟩ := ih himg (fun o ho => hok o (by simp [ho])) hfree.apply hfits.2
      refine ⟨st', ?_, himg'⟩
      simp only [ubootRun, bind, Except.bind, hstep]
      exact hrun

/-- The stored keys after a run are those the run leaves a value at. -/
theorem mem_keysOf_foldl {es : List (CStr × CStr)} {ops : List (KeyOp CStr CStr)} {k : CStr} :
    k ∈ keysOf (ops.foldl KeyOp.apply es) ↔ valueAfter k (denote es k) ops ≠ none := by
  rw [← denote_foldl, Ne, denote_eq_none_iff, not_not, keysOf]

/-- **The U-Boot environment as a finite map.** After any run with prefix-free
keys the image is well formed, and get answers a key with what the run leaves
there exactly when no stored key properly extends the key asked for. -/
theorem ubootEnv_refines_map_iff {st : UbootStore} {es : List (CStr × CStr)}
    {ops : List (KeyOp CStr CStr)} {key : CStr} (himg : UbootImage st.bytes es)
    (hops : ∀ op ∈ ops, UbootOpOk op) (hfree : PrefixFree (keysOf es ++ ops.map KeyOp.key))
    (hfits : UbootFits es ops) (hkey : KeyOk 0 key) (hne : key ≠ []) :
    ∃ st', ubootRun st ops = .ok st' ∧
      (((∃ es', UbootImage st'.bytes es') ∧
          ubootGetEnvKey .ok st' key = valueAfter key (denote es key) ops) ↔
        ∀ k, valueAfter k (denote es k) ops ≠ none → ¬ ProperPrefix key k) := by
  obtain ⟨st', hrun, himg'⟩ := ubootRun_image himg hops hfree hfits
  refine ⟨st', hrun, ?_⟩
  have hself : key ∈ keysOf (ops.foldl KeyOp.apply es) →
      ∀ k ∈ keysOf (ops.foldl KeyOp.apply es), ¬ ProperPrefix key k :=
    fun hk k hk' => hfree key (keysOf_foldl_subset hk) k (keysOf_foldl_subset hk')
  rw [ubootGetEnvKey_image himg' hkey hne, ← denote_foldl]
  simp only [show ∃ es', UbootImage st'.bytes es' from ⟨_, himg'⟩, true_and]
  rw [firstMatch_eq_denote_iff hself]
  exact forall_congr' fun k => by rw [mem_keysOf_foldl]

/-- A boot environment as the boot loader leaves it while it tries a revision. -/
def tryingImage : CStr := str "pv_rev=4" ++ [0] ++ str "pv_trying=5" ++ [0]

/-- Its entries. -/
def tryingEntries : List (CStr × CStr) :=
  [(str "pv_rev", str "4"), (str "pv_trying", str "5")]

theorem tryingImage_ok : UbootImage tryingImage tryingEntries where
  block := by decide
  notErased := by decide
  layout := ⟨0, by decide⟩
  used := by decide
  size := by decide

/-- At `pv_rev`, which nothing extends, the answer after a set is the map's. -/
theorem ubootEnv_refines_map_iff_pv_rev :
    ∃ st', ubootRun ⟨false, tryingImage⟩ [.set (str "pv_rev") (str "5")] = .ok st' ∧
      (((∃ es', UbootImage st'.bytes es') ∧
          ubootGetEnvKey .ok st' (str "pv_rev")
            = valueAfter (str "pv_rev") (denote tryingEntries (str "pv_rev"))
                [.set (str "pv_rev") (str "5")]) ↔
        ∀ k, valueAfter k (denote tryingEntries k) [.set (str "pv_rev") (str "5")] ≠ none →
          ¬ ProperPrefix (str "pv_rev") k) :=
  ubootEnv_refines_map_iff tryingImage_ok
    (by decide) (by decide) (by decide) (by decide) (by decide)

/-- **The lookup is not the map's**: with `pv_trying` stored and `pv_try` not,
get answers `pv_try` with the tail of the other entry instead of NULL. -/
theorem ubootGetEnvKey_finds_extension :
    UbootImage tryingImage tryingEntries ∧ PrefixFree (keysOf tryingEntries) ∧
      ubootRun ⟨false, tryingImage⟩ [] = .ok ⟨false, tryingImage⟩ ∧
      valueAfter (str "pv_try") (denote tryingEntries (str "pv_try")) [] = none ∧
      ubootGetEnvKey .ok ⟨false, tryingImage⟩ (str "pv_try") = some (str "ng=5") :=
  ⟨tryingImage_ok, by decide, rfl, by decide, by decide⟩

end Pantavisor.Bootloader
