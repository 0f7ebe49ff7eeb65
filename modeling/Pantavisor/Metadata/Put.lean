/-
Pantavisor.Metadata.Put — the same PUT of user metadata again.

Whatever a key has, `pv_metadata_add_usermeta` leaves it with the value it is given and
all others as they are, and to do so again changes nothing (`add_again`). But it returns
0 only for a value that is new: what `pv_metadata_add` says of one that is there already
becomes -1, and the client is told of an error (`putsRight_iff`).
-/
import Mathlib.Logic.Function.Iterate
import Pantavisor.Metadata.UsermetaTheorems

namespace Pantavisor.Metadata

open Pantavisor.Lib

/-! ## The request -/

/-- What the client is told. -/
inductive Answer where
  | ok
  | error
  deriving DecidableEq

/-- The `PUT` of a key in `pv_ctrl_read_parse_request`. -/
def putUsermeta (m : PvUsermeta) (metakey : CStr) (metavalue : Option CStr) :
    Answer × PvUsermeta :=
  let (res, m) := pvMetadataAddUsermeta m metakey metavalue
  (if res < 0 then .error else .ok, m)

/-- The user metadata behind a number of requests with the same key and value. -/
def afterPuts (m : PvUsermeta) (key value : CStr) (n : Nat) : PvUsermeta :=
  (fun m => (putUsermeta m key (some value)).2)^[n] m

/-- Each of `n` requests reports success exactly if the key has the value then and the other
keys are as they were. They all get the same answer, and they leave what one leaves. -/
structure PutsRight (m : PvUsermeta) (key value : CStr) (n : Nat) : Prop where
  success : ∀ i < n, (pvMetadataAddUsermeta (afterPuts m key value i) key (some value)).1 = 0 ↔
    (afterPuts m key value (i + 1)).value key = some value ∧
      ∀ k, k ≠ key → (afterPuts m key value (i + 1)).value k = (afterPuts m key value i).value k
  answer : ∀ i < n, (putUsermeta (afterPuts m key value i) key (some value)).1
    = (putUsermeta m key (some value)).1
  state : 0 < n → afterPuts m key value n = afterPuts m key value 1

/-! ## One request -/

theorem ret_addUsermeta (m : PvUsermeta) (key value : CStr) :
    (pvMetadataAddUsermeta m key (some value)).1 = if m.value key = some value then -1 else 0 := by
  simp only [pvMetadataAddUsermeta, ret_add, PvUsermeta.value]
  by_cases h : (pvMetadataGetByKey m.usermeta key).map (·.value) = some value
  · simp [h]
  · simp [h]

theorem modifyByKey_modifyByKey (key : CStr) {f : PvMeta → PvMeta} (hf : ∀ e, (f e).key = e.key)
    (es : List PvMeta) :
    modifyByKey key f (modifyByKey key f es) = modifyByKey key (fun e => f (f e)) es := by
  induction es with
  | nil => rfl
  | cons curr rest ih =>
    by_cases h : curr.key = key
    · simp only [modifyByKey, if_pos h, if_pos ((hf curr).trans h)]
    · simp only [modifyByKey, if_neg h, ih]

/-- The same addition again changes nothing. -/
theorem add_again (m : PvUsermeta) (key value : CStr) :
    (pvMetadataAddUsermeta (pvMetadataAddUsermeta m key (some value)).2 key (some value)).2
      = (pvMetadataAddUsermeta m key (some value)).2 := by
  have hvalue : (pvMetadataAddUsermeta m key (some value)).2.value key = some value := by
    rw [value_addUsermeta, if_pos rfl]
  refine eq_of_parts ?_ (by rw [fs_addUsermeta, if_pos hvalue])
  obtain ⟨curr, hcurr, hsame⟩ := Option.map_eq_some_iff.mp hvalue
  have hadd : (pvMetadataAdd (pvMetadataAddUsermeta m key (some value)).2.usermeta key value).2
      = (pvMetadataAddUsermeta m key (some value)).2.usermeta := by
    rw [pvMetadataAdd, hcurr]
    simp only [if_pos hsame]
  have hkey : ∀ e : PvMeta, ({ e with updated := true } : PvMeta).key = e.key := fun _ => rfl
  rw [usermeta_addUsermeta, hadd, usermeta_addUsermeta, modifyByKey_modifyByKey key hkey]

/-! ## Many requests -/

variable {m : PvUsermeta} {key value : CStr}

theorem afterPuts_succ (i : Nat) :
    afterPuts m key value (i + 1)
      = (pvMetadataAddUsermeta (afterPuts m key value i) key (some value)).2 :=
  Function.iterate_succ_apply' _ _ _

/-- Behind the first request nothing changes: by induction on their number. -/
theorem afterPuts_eq (i : Nat) : afterPuts m key value (i + 1) = afterPuts m key value 1 := by
  induction i with
  | zero => rfl
  | succ i ih => rw [afterPuts_succ, ih, afterPuts_succ, add_again]

/-- A request reports success if the value is new. -/
theorem success_iff (i : Nat) :
    ((pvMetadataAddUsermeta (afterPuts m key value i) key (some value)).1 = 0 ↔
      (afterPuts m key value (i + 1)).value key = some value ∧
        ∀ k, k ≠ key → (afterPuts m key value (i + 1)).value k
          = (afterPuts m key value i).value k) ↔
      (afterPuts m key value i).value key ≠ some value := by
  have hkept : (afterPuts m key value (i + 1)).value key = some value ∧
      ∀ k, k ≠ key → (afterPuts m key value (i + 1)).value k
        = (afterPuts m key value i).value k := by
    rw [afterPuts_succ]
    refine ⟨by rw [value_addUsermeta, if_pos rfl], fun k hk => ?_⟩
    rw [value_addUsermeta, if_neg hk]
  rw [iff_true_right hkept, ret_addUsermeta]
  split
  · exact iff_of_false (by decide) (not_not.mpr ‹_›)
  · exact iff_of_true rfl ‹_›

theorem value_afterPuts (i : Nat) : (afterPuts m key value (i + 1)).value key = some value := by
  rw [afterPuts_succ, value_addUsermeta, if_pos rfl]

/-- **PUT is idempotent for the state, and its answers are right only for a single request
with a value that is new.** -/
theorem putsRight_iff (m : PvUsermeta) (key value : CStr) (n : Nat) :
    PutsRight m key value n ↔ n = 0 ∨ n = 1 ∧ m.value key ≠ some value := by
  constructor
  · intro h
    match n with
    | 0 => exact .inl rfl
    | 1 => exact .inr ⟨rfl, (success_iff 0).mp (h.success 0 (by omega))⟩
    | n + 2 => exact absurd (value_afterPuts 0) ((success_iff 1).mp (h.success 1 (by omega)))
  · rintro (rfl | ⟨rfl, hnew⟩)
    · exact ⟨fun i hi => absurd hi (by omega), fun i hi => absurd hi (by omega),
        fun hn => absurd hn (by omega)⟩
    · refine ⟨fun i hi => ?_, fun i hi => ?_, fun _ => rfl⟩
      · obtain rfl : i = 0 := by omega
        exact (success_iff 0).mpr hnew
      · obtain rfl : i = 0 := by omega
        rfl

/-- The second of two requests is answered with an error. -/
theorem second_put_fails : ¬ PutsRight ⟨[], ⟨.dir [], fun _ => []⟩⟩ (str "lamp") (str "1") 2 := by
  intro h
  have hvalue : (afterPuts ⟨[], ⟨.dir [], fun _ => []⟩⟩ (str "lamp") (str "1") 1).value (str "lamp")
      = some (str "1") := value_afterPuts 0
  exact (success_iff 1).mp (h.success 1 (by decide)) hvalue

end Pantavisor.Metadata
