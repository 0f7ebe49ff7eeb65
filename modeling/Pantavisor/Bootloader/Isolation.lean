/-
Pantavisor.Bootloader.Isolation — what an operation on one key does to the
other keys.

Every scan of both backends compares the first `strlen(key)` bytes of an entry
and nothing behind them. An operation on `k` therefore takes every entry whose
key `k` is a proper prefix of for its own: set and unset drop it and get
answers with a piece of it. `envKeys_isolated_iff` says that nothing else
breaks the isolation, up to the buffers that set overruns and the end of a
GRUB block that no scan sees.
-/
import Pantavisor.Bootloader.Stores

namespace Pantavisor.Bootloader

open Pantavisor.Lib

/-- Operations on `k` leave every other key alone: set and unset keep its
entry, and get answers with the entry of `k` or not at all. -/
structure Isolated (s : EnvStore) (behind k v : CStr) : Prop where
  set : ∃ s', storeOps.setEnvKey (.ok behind) s k v = .ok (0, s') ∧
    ∀ k', k' ≠ k → denote s'.entries k' = denote s.entries k'
  unset : ∃ s', storeOps.unsetEnvKey (.ok behind) s k = .ok (0, s') ∧
    ∀ k', k' ≠ k → denote s'.entries k' = denote s.entries k'
  get : ∀ r, storeOps.getEnvKey (.ok behind) s k = some r → denote s.entries k = some r

/-- The scans of an operation on `k` tell the other keys of the store from it:
`k` is no proper prefix of them, and they are not behind the end of the scan. -/
def Apart (s : EnvStore) (es : List (CStr × CStr)) (k : CStr) : Prop :=
  ∀ k' ∈ keysOf es, k' ≠ k → ¬ ProperPrefix k k' ∧ k' ∈ keysOf (s.seen es)

/-- A rewrite leaves every other key alone exactly when its scan tells them
apart. -/
theorem rewriteEntries_others_iff {s : EnvStore} {es : List (CStr × CStr)} {k : CStr}
    {value : Option CStr} :
    (∀ k', k' ≠ k → denote (rewriteEntries k (s.seen es) value) k' = denote es k') ↔
      Apart s es k := by
  have hseen : ∀ k', denote (s.seen es) k' = denote es k' ↔
      (k' ∈ keysOf es → k' ∈ keysOf (s.seen es)) := by
    intro k'
    cases s with
    | uboot st => exact ⟨fun _ h => h, fun _ => rfl⟩
    | grub file => exact denote_fitting_iff
  constructor
  · intro h k' hk' hne
    have hval := h k' hne
    rw [denote_rewriteEntries, if_neg hne] at hval
    by_cases hpre : k <+: k'
    · rw [if_pos hpre] at hval
      exact absurd hk' (denote_eq_none_iff.mp hval.symm)
    · rw [if_neg hpre] at hval
      exact ⟨fun hp => hpre hp.1, (hseen k').mp hval hk'⟩
  · intro h k' hne
    rw [denote_rewriteEntries, if_neg hne]
    by_cases hk' : k' ∈ keysOf es
    · obtain ⟨hpre, hin⟩ := h k' hk' hne
      rw [if_neg fun hp => hpre ⟨hp, Ne.symm hne⟩]
      exact (hseen k').mpr fun _ => hin
    · rw [denote_eq_none_iff.mpr hk']
      split
      · rfl
      · rw [(hseen k').mpr fun hk => absurd hk hk', denote_eq_none_iff.mpr hk']

/-- Get on a well-formed store of either kind is a prefix-comparing lookup over
a part of its entries. -/
theorem getEnvKey_holds {s : EnvStore} {es : List (CStr × CStr)} (h : s.Holds es)
    {behind k : CStr} (hover : GrubOver behind) (hk : KeyOk s.term k) (hne : k ≠ []) :
    ∃ n, storeOps.getEnvKey (.ok behind) s k = firstMatch k (fitting n es) := by
  cases s with
  | uboot st =>
      refine ⟨(encode 0 es).length, ?_⟩
      rw [fitting_eq_self (Nat.le_refl _)]
      exact ubootGetEnvKey_image h hk hne
  | grub file => exact ⟨_, grubGetEnvKey_block h hover hk⟩

/-- A well-formed store with `pv_trying` in it that has lost it after an unset of
`pv_try`. -/
def LosesTrying (s : EnvStore) : Prop :=
  s.Holds [(str "pv_rev", str "4"), (str "pv_trying", str "5")] ∧
    denote s.entries (str "pv_trying") = some (str "5") ∧
    ∃ s', storeOps.unsetEnvKey (.ok []) s (str "pv_try") = .ok (0, s') ∧
      denote s'.entries (str "pv_trying") = none

end Pantavisor.Bootloader
