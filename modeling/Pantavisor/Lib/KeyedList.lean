/-
Pantavisor.Lib.KeyedList — a finite map kept as a list of key/value pairs,
and runs of set and unset operations over it.

`setKey` drops every pair of the key and appends the new one; `unsetKey`
drops the pairs. `denote` is the map a list stands for. On lists with
distinct keys both operations are `Function.update` of that map, and a run of
operations gives each key the value of the last operation on it (`lastOn`)
or, when no operation touched it, the value it started with.
-/
import Mathlib.Data.List.Basic
import Mathlib.Data.List.Induction
import Mathlib.Data.List.Nodup
import Mathlib.Logic.Function.Basic

namespace Pantavisor.Lib

variable {κ ν : Type} [DecidableEq κ]

/-- One operation on a keyed store. -/
inductive KeyOp (κ ν : Type) where
  | set (k : κ) (v : ν)
  | unset (k : κ)
  deriving DecidableEq, Repr

/-- The key an operation is about. -/
def KeyOp.key : KeyOp κ ν → κ
  | .set k _ => k
  | .unset k => k

/-- What an operation leaves at its key. -/
def KeyOp.result : KeyOp κ ν → Option ν
  | .set _ v => some v
  | .unset _ => none

def unsetKey (es : List (κ × ν)) (k : κ) : List (κ × ν) := es.filter (·.1 ≠ k)

def setKey (es : List (κ × ν)) (k : κ) (v : ν) : List (κ × ν) := unsetKey es k ++ [(k, v)]

def KeyOp.apply (es : List (κ × ν)) : KeyOp κ ν → List (κ × ν)
  | .set k v => setKey es k v
  | .unset k => unsetKey es k

/-- The map a list of pairs stands for. -/
def denote (es : List (κ × ν)) (k : κ) : Option ν := es.lookup k

/-- The last operation of a run on a key, if the run touches the key. -/
def lastOn (k : κ) (ops : List (KeyOp κ ν)) : Option (KeyOp κ ν) :=
  ops.reverse.find? (·.key = k)

/-- What a run leaves at a key that held `v₀` before it. -/
def valueAfter (k : κ) (v₀ : Option ν) (ops : List (KeyOp κ ν)) : Option ν :=
  ((lastOn k ops).map KeyOp.result).getD v₀

@[simp] theorem denote_nil (k : κ) : denote ([] : List (κ × ν)) k = none := rfl

theorem denote_cons (p : κ × ν) (es : List (κ × ν)) (k : κ) :
    denote (p :: es) k = if k = p.1 then some p.2 else denote es k := by
  obtain ⟨a, v⟩ := p
  by_cases h : k = a
  · simp [denote, h]
  · have hb : (k == a) = false := by simpa using h
    simp [denote, List.lookup_cons, hb, h]

theorem denote_append (es es' : List (κ × ν)) (k : κ) :
    denote (es ++ es') k = (denote es k).or (denote es' k) := List.lookup_append

/-! ## One operation -/

theorem lookup_filter_ne (es : List (κ × ν)) {k k' : κ} (h : k' ≠ k) :
    (es.filter (·.1 ≠ k)).lookup k' = es.lookup k' := by
  induction es with
  | nil => rfl
  | cons p es ih =>
      obtain ⟨a, v⟩ := p
      by_cases ha : a = k
      · subst ha
        have hk' : (k' == a) = false := by simpa using h
        simpa [List.lookup_cons, hk'] using ih
      · simp only [ne_eq, ha, not_false_eq_true, decide_true, List.filter_cons_of_pos,
          List.lookup_cons]
        rw [ih]

theorem lookup_filter_self (es : List (κ × ν)) (k : κ) :
    (es.filter (·.1 ≠ k)).lookup k = none := by
  rw [List.lookup_eq_none_iff]
  intro p hp
  have hne : p.1 ≠ k := of_decide_eq_true (List.mem_filter.mp hp).2
  simpa using Ne.symm hne

/-- Unsetting a key updates the map there and nowhere else. -/
theorem denote_unsetKey (es : List (κ × ν)) (k : κ) :
    denote (unsetKey es k) = Function.update (denote es) k none := by
  funext k'
  by_cases h : k' = k
  · subst h
    rw [Function.update_self]
    exact lookup_filter_self es k'
  · rw [Function.update_of_ne h]
    exact lookup_filter_ne es h

/-- Setting a key updates the map there and nowhere else. -/
theorem denote_setKey (es : List (κ × ν)) (k : κ) (v : ν) :
    denote (setKey es k v) = Function.update (denote es) k (some v) := by
  funext k'
  have hu := congrFun (denote_unsetKey es k) k'
  by_cases h : k' = k
  · subst h
    rw [Function.update_self] at hu ⊢
    rw [denote, setKey, List.lookup_append, ← denote, hu]
    simp
  · have hk' : (k' == k) = false := by simpa using h
    rw [Function.update_of_ne h] at hu ⊢
    rw [denote, setKey, List.lookup_append, ← denote, hu, List.lookup_cons, hk']
    simp

theorem denote_apply (es : List (κ × ν)) (op : KeyOp κ ν) :
    denote (op.apply es) = Function.update (denote es) op.key op.result := by
  cases op with
  | set k v => exact denote_setKey es k v
  | unset k => exact denote_unsetKey es k

/-- An operation brings in no key but its own. -/
theorem key_mem_apply {es : List (κ × ν)} {op : KeyOp κ ν} {p : κ × ν}
    (h : p ∈ op.apply es) : p ∈ es ∨ ∃ k v, op = .set k v ∧ p = (k, v) := by
  cases op with
  | unset k => exact Or.inl (List.mem_filter.mp h).1
  | set k v =>
      rcases List.mem_append.mp h with h | h
      · exact Or.inl (List.mem_filter.mp h).1
      · exact Or.inr ⟨k, v, rfl, List.mem_singleton.mp h⟩

/-! ## Lookup and membership -/

theorem mem_of_denote {es : List (κ × ν)} {k : κ} {v : ν} (h : denote es k = some v) :
    (k, v) ∈ es := by
  obtain ⟨l₁, l₂, rfl, -⟩ := List.lookup_eq_some_iff.mp h
  simp

theorem denote_of_mem {es : List (κ × ν)} (hnd : (es.map Prod.fst).Nodup) {k : κ} {v : ν}
    (h : (k, v) ∈ es) : denote es k = some v := by
  induction es with
  | nil => cases h
  | cons p es ih =>
      rw [List.map_cons, List.nodup_cons] at hnd
      rcases List.mem_cons.mp h with rfl | hm
      · simp [denote]
      · have hne : k ≠ p.1 := fun hk => hnd.1 (hk ▸ List.mem_map.mpr ⟨_, hm, rfl⟩)
        rw [denote_cons, if_neg hne]
        exact ih hnd.2 hm

theorem denote_eq_none_iff {es : List (κ × ν)} {k : κ} :
    denote es k = none ↔ k ∉ es.map Prod.fst := by
  rw [denote, List.lookup_eq_none_iff]
  constructor
  · intro h hk
    obtain ⟨p, hp, rfl⟩ := List.mem_map.mp hk
    simpa using h p hp
  · intro h p hp
    simpa using fun hk : k = p.1 => h (hk ▸ List.mem_map.mpr ⟨p, hp, rfl⟩)

/-! ## Runs of operations -/

theorem lastOn_append_singleton (k : κ) (ops : List (KeyOp κ ν)) (op : KeyOp κ ν) :
    lastOn k (ops ++ [op]) = if op.key = k then some op else lastOn k ops := by
  by_cases h : op.key = k <;> simp [lastOn, h]

/-- A run that does not touch a key leaves what it held. -/
theorem valueAfter_of_untouched {k : κ} {ops : List (KeyOp κ ν)} (h : ∀ op ∈ ops, op.key ≠ k)
    (v₀ : Option ν) : valueAfter k v₀ ops = v₀ := by
  have hnone : lastOn k ops = none := by
    rw [lastOn, List.find?_eq_none]
    intro op hop
    simpa using h op (List.mem_reverse.mp hop)
  rw [valueAfter, hnone]
  rfl

/-- What a run leaves at a key is what it held, or the result of an operation
of the run on the key. -/
theorem valueAfter_cases (k : κ) (v₀ : Option ν) (ops : List (KeyOp κ ν)) :
    (valueAfter k v₀ ops = v₀ ∧ ∀ op ∈ ops, op.key ≠ k) ∨
      ∃ op ∈ ops, op.key = k ∧ valueAfter k v₀ ops = op.result := by
  by_cases h : ∀ op ∈ ops, op.key ≠ k
  · exact Or.inl ⟨valueAfter_of_untouched h v₀, h⟩
  · right
    cases hlast : lastOn k ops with
    | none =>
        rw [lastOn, List.find?_eq_none] at hlast
        exact absurd (fun op hop => by simpa using hlast op (List.mem_reverse.mpr hop)) h
    | some op =>
        have hmem := List.mem_of_find?_eq_some hlast
        have hkey := List.find?_some hlast
        exact ⟨op, List.mem_reverse.mp hmem, by simpa using hkey, by simp [valueAfter, hlast]⟩

/-- After a run a key maps to what the last operation on it left there. -/
theorem denote_foldl (es : List (κ × ν)) (ops : List (KeyOp κ ν)) (k : κ) :
    denote (ops.foldl KeyOp.apply es) k = valueAfter k (denote es k) ops := by
  induction ops using List.reverseRecOn with
  | nil => rfl
  | append_singleton ops op ih =>
      rw [List.foldl_append, List.foldl_cons, List.foldl_nil, denote_apply, valueAfter,
        lastOn_append_singleton]
      by_cases h : op.key = k
      · subst h
        simp
      · rw [Function.update_of_ne (Ne.symm h), ih, if_neg h, valueAfter]

/-- Every pair after a run was there before it or was set by it. -/
theorem mem_foldl {ops : List (KeyOp κ ν)} {es : List (κ × ν)} {p : κ × ν}
    (h : p ∈ ops.foldl KeyOp.apply es) : p ∈ es ∨ KeyOp.set p.1 p.2 ∈ ops := by
  induction ops generalizing es with
  | nil => exact Or.inl h
  | cons op ops ih =>
      rcases ih h with h | h
      · rcases key_mem_apply h with h | ⟨k, v, rfl, rfl⟩
        · exact Or.inl h
        · exact Or.inr (by simp)
      · exact Or.inr (List.mem_cons_of_mem _ h)

end Pantavisor.Lib
