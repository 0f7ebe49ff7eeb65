/-
Pantavisor.Lib.EntryBlock — text blocks of terminated `key=value` entries,
and what a scan that compares only the first `strlen(key)` bytes of each
entry finds in them.

A block is `encode t es`: every pair of `es` written as `key=value` and ended
by the byte `t`. A scan that asks whether the key is a PREFIX of the entry
hits every entry whose key extends the key asked for, not only the entry of
that key. `firstMatch` is what such a scan returns and `dropMatches` what it
leaves when it drops its hits. Both agree with the map operations of
`Lib.KeyedList` exactly when no key in the block properly extends the one
asked for (`firstMatch_eq_denote_iff`, `denote_dropMatches`).
-/
import Pantavisor.Lib.CString
import Pantavisor.Lib.KeyedList

namespace Pantavisor.Lib

/-- The byte between a key and its value. -/
def eqSign : UInt8 := 61

/-- The text of one entry, without its terminator. -/
def entryText (p : CStr × CStr) : CStr := p.1 ++ eqSign :: p.2

/-- A block of entries, each ended by `t`. -/
def encode (t : UInt8) (es : List (CStr × CStr)) : CStr :=
  es.flatMap fun p => entryText p ++ [t]

/-- The keys of a block. -/
def keysOf (es : List (CStr × CStr)) : List CStr := es.map Prod.fst

/-- `k` is a proper prefix of `k'`. -/
def ProperPrefix (k k' : CStr) : Prop := k <+: k' ∧ k ≠ k'

instance (k k' : CStr) : Decidable (ProperPrefix k k') :=
  inferInstanceAs (Decidable (_ ∧ _))

/-- A string that may stand as a key of a block ended by `t`. -/
structure KeyOk (t : UInt8) (k : CStr) : Prop where
  noEq : eqSign ∉ k
  noTerm : t ∉ k
  nulFree : NulFree k

/-- A string that may stand as a value of a block ended by `t`. -/
structure ValueOk (t : UInt8) (v : CStr) : Prop where
  noTerm : t ∉ v
  nulFree : NulFree v

/-- Distinct keys, and every key and value can be told from the separators. -/
structure BlockOk (t : UInt8) (es : List (CStr × CStr)) : Prop where
  nodup : (keysOf es).Nodup
  keyOk : ∀ p ∈ es, KeyOk t p.1
  valueOk : ∀ p ∈ es, ValueOk t p.2

instance (t : UInt8) (k : CStr) : Decidable (KeyOk t k) :=
  decidable_of_iff (eqSign ∉ k ∧ t ∉ k ∧ NulFree k)
    ⟨fun ⟨a, b, c⟩ => ⟨a, b, c⟩, fun ⟨a, b, c⟩ => ⟨a, b, c⟩⟩

instance (t : UInt8) (v : CStr) : Decidable (ValueOk t v) :=
  decidable_of_iff (t ∉ v ∧ NulFree v) ⟨fun ⟨a, b⟩ => ⟨a, b⟩, fun ⟨a, b⟩ => ⟨a, b⟩⟩

instance (t : UInt8) (es : List (CStr × CStr)) : Decidable (BlockOk t es) :=
  decidable_of_iff ((keysOf es).Nodup ∧ (∀ p ∈ es, KeyOk t p.1) ∧ ∀ p ∈ es, ValueOk t p.2)
    ⟨fun ⟨a, b, c⟩ => ⟨a, b, c⟩, fun ⟨a, b, c⟩ => ⟨a, b, c⟩⟩

/-- The entries that end within the first `n` bytes of a block. -/
def fitting : Nat → List (CStr × CStr) → List (CStr × CStr)
  | _, [] => []
  | n, p :: es =>
    if (entryText p).length + 1 ≤ n then p :: fitting (n - ((entryText p).length + 1)) es
    else []

/-- The pair that the text of an entry stands for. -/
def splitEntry (s : CStr) : CStr × CStr :=
  (s.takeWhile (· != eqSign), (s.dropWhile (· != eqSign)).drop 1)

/-- The entries of `rest`, when `cur` is what was read of the first one. -/
def decodeFrom (t : UInt8) : CStr → CStr → List (CStr × CStr)
  | _, [] => []
  | cur, c :: rest =>
    if c ≠ t then decodeFrom t (cur ++ [c]) rest
    else if cur = [] then []
    else splitEntry cur :: decodeFrom t [] rest

/-- The entries a block of bytes holds: the terminated pieces in front of the
first empty one. -/
def decode (t : UInt8) (bytes : CStr) : List (CStr × CStr) := decodeFrom t [] bytes

/-- What a prefix-comparing lookup returns: the first hit, from the byte after
the place where the separator would stand. -/
def firstMatch (key : CStr) (es : List (CStr × CStr)) : Option CStr :=
  (es.find? fun p => key.isPrefixOf p.1).map fun p => (entryText p).drop (key.length + 1)

/-- What a prefix-comparing rewrite keeps. -/
def dropMatches (key : CStr) (es : List (CStr × CStr)) : List (CStr × CStr) :=
  es.filter fun p => !key.isPrefixOf p.1

/-- What a prefix-comparing rewrite leaves: the kept entries, with the new one
behind them. -/
def rewriteEntries (key : CStr) (es : List (CStr × CStr)) : Option CStr → List (CStr × CStr)
  | none => dropMatches key es
  | some value => dropMatches key es ++ [(key, value)]

/-! ## Blocks -/

theorem isPrefixOf_eq_decide (key k : CStr) : key.isPrefixOf k = decide (key <+: k) := by
  by_cases h : key <+: k
  · simp [h, List.isPrefixOf_iff_prefix.mpr h]
  · rw [decide_eq_false h, ← Bool.not_eq_true, List.isPrefixOf_iff_prefix]
    exact h

@[simp] theorem encode_nil (t : UInt8) : encode t [] = [] := rfl

@[simp] theorem encode_cons (t : UInt8) (p : CStr × CStr) (es : List (CStr × CStr)) :
    encode t (p :: es) = entryText p ++ t :: encode t es := by
  simp [encode]

@[simp] theorem encode_append (t : UInt8) (es es' : List (CStr × CStr)) :
    encode t (es ++ es') = encode t es ++ encode t es' := by
  simp [encode]

theorem length_entryText (p : CStr × CStr) :
    (entryText p).length = p.1.length + 1 + p.2.length := by
  simp only [entryText, List.length_append, List.length_cons]
  omega

/-- A rewrite that only drops entries cannot make the block longer. -/
theorem length_encode_filter_le (t : UInt8) (f : CStr × CStr → Bool)
    (es : List (CStr × CStr)) : (encode t (es.filter f)).length ≤ (encode t es).length := by
  induction es with
  | nil => simp
  | cons p es ih =>
      by_cases h : f p = true
      · simp only [List.filter_cons_of_pos h, encode_cons, List.length_append, List.length_cons]
        omega
      · simp only [List.filter_cons_of_neg h, encode_cons, List.length_append, List.length_cons]
        omega

theorem KeyOk.entry_noTerm {t : UInt8} (ht : t ≠ eqSign) {p : CStr × CStr}
    (hk : KeyOk t p.1) (hv : ValueOk t p.2) : t ∉ entryText p := by
  simp only [entryText, List.mem_append, List.mem_cons, not_or]
  exact ⟨hk.noTerm, ht, hv.noTerm⟩

theorem KeyOk.entry_nulFree {t : UInt8} {p : CStr × CStr}
    (hk : KeyOk t p.1) (hv : ValueOk t p.2) : NulFree (entryText p) := by
  simp only [NulFree, entryText, List.mem_append, List.mem_cons, not_or]
  exact ⟨hk.nulFree, by decide, hv.nulFree⟩

/-- Comparing a key with an entry is comparing it with the entry's key. -/
theorem prefix_entryText {key : CStr} (hk : eqSign ∉ key) (p : CStr × CStr) :
    key <+: entryText p ↔ key <+: p.1 := by
  rw [entryText]
  exact prefix_terminated hk

/-- Past its own key and the separator an entry holds its value. -/
theorem drop_entryText (p : CStr × CStr) : (entryText p).drop (p.1.length + 1) = p.2 := by
  simp [entryText, ← List.drop_drop]

theorem BlockOk.mono {t : UInt8} {es es' : List (CStr × CStr)} (h : BlockOk t es)
    (hsub : es'.Sublist es) : BlockOk t es' where
  nodup := h.nodup.sublist (hsub.map _)
  keyOk p hp := h.keyOk p (hsub.subset hp)
  valueOk p hp := h.valueOk p (hsub.subset hp)

theorem BlockOk.dropMatches {t : UInt8} {es : List (CStr × CStr)} (h : BlockOk t es)
    (key : CStr) : BlockOk t (dropMatches key es) := h.mono List.filter_sublist

/-- Appending the entry of a key whose entries were dropped keeps the block. -/
theorem BlockOk.dropMatches_append {t : UInt8} {es : List (CStr × CStr)} (h : BlockOk t es)
    {key value : CStr} (hk : KeyOk t key) (hv : ValueOk t value) :
    BlockOk t (Lib.dropMatches key es ++ [(key, value)]) where
  nodup := by
    rw [keysOf, List.map_append, List.nodup_append]
    refine ⟨(h.dropMatches key).nodup, List.nodup_singleton _, ?_⟩
    intro a ha b hb
    obtain ⟨p, hp, rfl⟩ := List.mem_map.mp ha
    rintro rfl
    have hkey : p.1 = key := by simpa using hb
    have hnot := (List.mem_filter.mp hp).2
    simp [isPrefixOf_eq_decide, hkey] at hnot
  keyOk p hp := by
    rcases List.mem_append.mp hp with hp | hp
    · exact (h.dropMatches key).keyOk p hp
    · rw [List.mem_singleton.mp hp]; exact hk
  valueOk p hp := by
    rcases List.mem_append.mp hp with hp | hp
    · exact (h.dropMatches key).valueOk p hp
    · rw [List.mem_singleton.mp hp]; exact hv

theorem BlockOk.rewriteEntries {t : UInt8} {es : List (CStr × CStr)} (h : BlockOk t es)
    {key : CStr} (hk : KeyOk t key) {value : Option CStr} (hv : ∀ v ∈ value, ValueOk t v) :
    BlockOk t (Lib.rewriteEntries key es value) := by
  cases value with
  | none => exact h.dropMatches key
  | some v => exact h.dropMatches_append hk (hv v rfl)

/-! ## Reading a block back -/

theorem splitEntry_entryText {p : CStr × CStr} (h : eqSign ∉ p.1) :
    splitEntry (entryText p) = p := by
  have htake : (entryText p).takeWhile (· != eqSign) = p.1 := takeWhile_ne_append h
  have hdrop : (entryText p).dropWhile (· != eqSign) = eqSign :: p.2 := by
    have hsplit : (entryText p).takeWhile (· != eqSign) ++ (entryText p).dropWhile (· != eqSign)
        = entryText p := List.takeWhile_append_dropWhile
    rw [htake] at hsplit
    exact List.append_cancel_left hsplit
  rw [splitEntry, htake, hdrop]
  rfl

theorem decodeFrom_terminated {t : UInt8} {s rest : CStr} (h : t ∉ s) (cur : CStr) :
    decodeFrom t cur (s ++ t :: rest)
      = if cur ++ s = [] then [] else splitEntry (cur ++ s) :: decodeFrom t [] rest := by
  induction s generalizing cur with
  | nil => simp [decodeFrom]
  | cons c s ih =>
      simp only [List.mem_cons, not_or] at h
      rw [List.cons_append, decodeFrom, if_pos (Ne.symm h.1), ih h.2]
      simp

/-- Without a terminator there is no entry. -/
theorem decodeFrom_noTerm {t : UInt8} {s : CStr} (h : t ∉ s) (cur : CStr) :
    decodeFrom t cur s = [] := by
  induction s generalizing cur with
  | nil => rfl
  | cons c s ih =>
      simp only [List.mem_cons, not_or] at h
      rw [decodeFrom, if_pos (Ne.symm h.1), ih h.2]

theorem decode_noTerm {t : UInt8} {s : CStr} (h : t ∉ s) : decode t s = [] :=
  decodeFrom_noTerm h []

/-- In a padding of terminators there is no entry. -/
theorem decode_padding (t : UInt8) (n : Nat) : decode t (List.replicate n t) = [] := by
  cases n with
  | zero => rfl
  | succ n => simp [decode, decodeFrom, List.replicate_succ]

/-- **Reading back what was written**: a block decodes to its entries when
nothing behind it does. -/
theorem decode_encode {t : UInt8} {rest : CStr} (hrest : decode t rest = []) :
    ∀ {es : List (CStr × CStr)}, (∀ p ∈ es, eqSign ∉ p.1 ∧ t ∉ entryText p) →
      decode t (encode t es ++ rest) = es := by
  intro es
  induction es with
  | nil => intro _; exact hrest
  | cons p es ih =>
      intro hok
      obtain ⟨heq, hterm⟩ := hok p (by simp)
      have hne : entryText p ≠ [] := by simp [entryText]
      rw [encode_cons, List.append_assoc, List.cons_append, decode, decodeFrom_terminated hterm,
        List.nil_append, if_neg hne, splitEntry_entryText heq, ← decode,
        ih fun q hq => hok q (List.mem_cons_of_mem _ hq)]

/-- A cut of a block falls into one of its texts. -/
theorem take_encode_split {t : UInt8} {n : Nat} :
    ∀ {es : List (CStr × CStr)}, n + 1 < (encode t es).length →
      ∃ es₁ p es₂ piece more, es = es₁ ++ p :: es₂ ∧ entryText p = piece ++ more ∧
        (encode t es).take n = encode t es₁ ++ piece := by
  intro es
  induction es generalizing n with
  | nil => intro h; simp at h
  | cons p es ih =>
      intro h
      by_cases hn : n ≤ (entryText p).length
      · refine ⟨[], p, es, (entryText p).take n, (entryText p).drop n, rfl, by simp, ?_⟩
        rw [encode_cons, List.take_append_of_le_length hn]
        rfl
      · rw [encode_cons, List.length_append, List.length_cons] at h
        obtain ⟨es₁, q, es₂, piece, more, rfl, hq, htake⟩ :=
          ih (n := n - ((entryText p).length + 1)) (by omega)
        refine ⟨p :: es₁, q, es₂, piece, more, rfl, hq, ?_⟩
        have hsplit : encode t (p :: (es₁ ++ q :: es₂))
            = (entryText p ++ [t]) ++ encode t (es₁ ++ q :: es₂) := by simp
        have hlen : (entryText p ++ [t]).length = (entryText p).length + 1 := by simp
        rw [hsplit, List.take_append, List.take_of_length_le (by omega), hlen, htake, encode_cons]
        simp

/-- The entries of a block can be told from what ends them. -/
theorem BlockOk.separate {t : UInt8} (ht : t ≠ eqSign) {es : List (CStr × CStr)}
    (h : BlockOk t es) : ∀ p ∈ es, eqSign ∉ p.1 ∧ t ∉ entryText p :=
  fun p hp => ⟨(h.keyOk p hp).noEq, (h.keyOk p hp).entry_noTerm ht (h.valueOk p hp)⟩

/-! ## The entries within a bound -/

theorem prefix_fitting (n : Nat) (es : List (CStr × CStr)) : fitting n es <+: es := by
  induction es generalizing n with
  | nil => simp [fitting]
  | cons p es ih =>
      by_cases h : (entryText p).length + 1 ≤ n
      · simpa [fitting, h] using ih _
      · simp [fitting, h]

/-- A block that ends within the bound has all its entries there. -/
theorem fitting_eq_self {t : UInt8} {n : Nat} {es : List (CStr × CStr)}
    (h : (encode t es).length ≤ n) : fitting n es = es := by
  induction es generalizing n with
  | nil => rfl
  | cons p es ih =>
      simp only [encode_cons, List.length_append, List.length_cons] at h
      rw [fitting, if_pos (by omega), ih (by omega)]

/-- The first `n` bytes of a block are the entries that end within them and a
piece without a terminator. -/
theorem take_encode {t : UInt8} {pad : CStr} (hpad : t ∉ pad) (n : Nat) :
    ∀ {es : List (CStr × CStr)}, (∀ p ∈ es, t ∉ entryText p) →
      ∃ piece, t ∉ piece ∧ (encode t es ++ pad).take n = encode t (fitting n es) ++ piece := by
  intro es
  induction es generalizing n with
  | nil => intro _; exact ⟨pad.take n, fun h => hpad (List.mem_of_mem_take h), rfl⟩
  | cons p es ih =>
      intro hterm
      by_cases h : (entryText p).length + 1 ≤ n
      · obtain ⟨piece, hpiece, heq⟩ :=
          ih (n - ((entryText p).length + 1)) fun q hq => hterm q (List.mem_cons_of_mem _ hq)
        refine ⟨piece, hpiece, ?_⟩
        have hsplit : encode t (p :: es) ++ pad
            = (entryText p ++ [t]) ++ (encode t es ++ pad) := by simp
        rw [fitting, if_pos h, hsplit, List.take_append, List.take_of_length_le (by simpa using h),
          encode_cons]
        simp [heq]
      · refine ⟨(entryText p).take n, fun hm => hterm p (by simp) (List.mem_of_mem_take hm), ?_⟩
        rw [fitting, if_neg h, encode_cons, List.append_assoc,
          List.take_append_of_le_length (by omega)]
        rfl

/-- The entries within a bound answer for a key exactly when the key's entry, if
there is one, is among them. -/
theorem denote_fitting_iff {n : Nat} {es : List (CStr × CStr)} {k : CStr} :
    denote (fitting n es) k = denote es k ↔ (k ∈ keysOf es → k ∈ keysOf (fitting n es)) := by
  obtain ⟨more, hmore⟩ := prefix_fitting n es
  constructor
  · intro heq hk
    by_contra hno
    exact denote_eq_none_iff.mp (heq ▸ denote_eq_none_iff.mpr hno) hk
  · intro hk
    by_cases hmem : k ∈ keysOf (fitting n es)
    · obtain ⟨v, hv⟩ := Option.ne_none_iff_exists'.mp (denote_eq_none_iff.not_left.mpr hmem)
      rw [← hmore, denote_append, hmore, hv]
      rfl
    · rw [denote_eq_none_iff.mpr hmem, denote_eq_none_iff.mpr fun h => hmem (hk h)]

/-! ## What a prefix comparison does to the map -/

theorem dropMatches_cons (key : CStr) (p : CStr × CStr) (es : List (CStr × CStr)) :
    dropMatches key (p :: es)
      = if key <+: p.1 then dropMatches key es else p :: dropMatches key es := by
  by_cases h : key <+: p.1 <;> simp [dropMatches, isPrefixOf_eq_decide, h]

theorem firstMatch_cons (key : CStr) (p : CStr × CStr) (es : List (CStr × CStr)) :
    firstMatch key (p :: es)
      = if key <+: p.1 then some ((entryText p).drop (key.length + 1))
        else firstMatch key es := by
  by_cases h : key <+: p.1 <;> simp [firstMatch, isPrefixOf_eq_decide, h]

/-- Dropping the hits removes every key that extends the one asked for. -/
theorem denote_dropMatches (es : List (CStr × CStr)) (key k : CStr) :
    denote (dropMatches key es) k = if key <+: k then none else denote es k := by
  by_cases h : key <+: k
  · rw [if_pos h, denote_eq_none_iff]
    intro hk
    obtain ⟨p, hp, rfl⟩ := List.mem_map.mp hk
    have hnot := (List.mem_filter.mp hp).2
    simp [isPrefixOf_eq_decide, h] at hnot
  · rw [if_neg h]
    induction es with
    | nil => rfl
    | cons p es ih =>
        rw [dropMatches_cons, denote_cons]
        by_cases hp : key <+: p.1
        · have hne : k ≠ p.1 := fun hk => h (hk ▸ hp)
          rw [if_pos hp, if_neg hne, ih]
        · rw [if_neg hp, denote_cons, ih]

/-- Where no key of the block properly extends `key`, dropping the hits is
unsetting `key`. -/
theorem dropMatches_eq_unsetKey {es : List (CStr × CStr)} {key : CStr}
    (h : ∀ k ∈ keysOf es, ¬ ProperPrefix key k) : dropMatches key es = unsetKey es key := by
  refine List.filter_congr fun p hp => ?_
  have hk := h p.1 (List.mem_map.mpr ⟨p, hp, rfl⟩)
  by_cases hpre : key <+: p.1
  · have heq : p.1 = key := by
      by_contra hne
      exact hk ⟨hpre, Ne.symm hne⟩
    simp [isPrefixOf_eq_decide, heq]
  · have hne : p.1 ≠ key := by
      rintro rfl
      exact hpre (List.prefix_refl _)
    simp [isPrefixOf_eq_decide, hpre, hne]

/-- A rewrite leaves its own key with the new value, takes every key that
extends it away, and leaves the rest as they were. -/
theorem denote_rewriteEntries (es : List (CStr × CStr)) (key : CStr) (value : Option CStr)
    (k : CStr) :
    denote (rewriteEntries key es value) k
      = if k = key then value else if key <+: k then none else denote es k := by
  have hdrop := denote_dropMatches es key k
  by_cases hk : k = key
  · subst hk
    rw [if_pos (List.prefix_refl _)] at hdrop
    cases value with
    | none => simp [rewriteEntries, hdrop]
    | some v => simp [rewriteEntries, denote_append, hdrop, denote_cons]
  · cases value with
    | none => simp [rewriteEntries, hdrop, hk]
    | some v =>
        have hnew : denote [(key, v)] k = none := by rw [denote_cons, if_neg hk, denote_nil]
        simp [rewriteEntries, denote_append, hdrop, hk, hnew]

/-- Where no key of the block properly extends the operation's, the rewrite is
the map operation. -/
theorem rewriteEntries_eq_apply {es : List (CStr × CStr)} {op : KeyOp CStr CStr}
    (hfree : ∀ k ∈ keysOf es, ¬ ProperPrefix op.key k) :
    rewriteEntries op.key es op.result = op.apply es := by
  cases op with
  | set k v =>
      simp only [KeyOp.key, KeyOp.result, KeyOp.apply, rewriteEntries, setKey] at hfree ⊢
      rw [dropMatches_eq_unsetKey hfree]
  | unset k => exact dropMatches_eq_unsetKey hfree

/-- A prefix-comparing lookup finds nothing exactly when no key of the block
extends the key asked for. -/
theorem firstMatch_eq_none_iff {es : List (CStr × CStr)} {key : CStr} :
    firstMatch key es = none ↔ ∀ k ∈ keysOf es, ¬ key <+: k := by
  simp [firstMatch, keysOf, isPrefixOf_eq_decide]

/-- Where no key of the block properly extends `key`, the first hit is the
value of `key`. -/
theorem firstMatch_eq_denote {es : List (CStr × CStr)} {key : CStr}
    (h : ∀ k ∈ keysOf es, ¬ ProperPrefix key k) : firstMatch key es = denote es key := by
  induction es with
  | nil => rfl
  | cons p es ih =>
      have hp := h p.1 (by simp [keysOf])
      have hrest : ∀ k ∈ keysOf es, ¬ ProperPrefix key k :=
        fun k hk => h k (List.mem_cons_of_mem _ hk)
      rw [firstMatch_cons, denote_cons]
      by_cases heq : key = p.1
      · subst heq
        rw [if_pos (List.prefix_refl _), if_pos rfl, drop_entryText]
      · rw [if_neg fun hpre => hp ⟨hpre, heq⟩, if_neg heq, ih hrest]

/-- For a key that properly extends no key of the block and is extended by one
only if it is stored itself, the first hit is the map's answer exactly when no
key of the block properly extends it. -/
theorem firstMatch_eq_denote_iff {es : List (CStr × CStr)} {key : CStr}
    (hfree : key ∈ keysOf es → ∀ k ∈ keysOf es, ¬ ProperPrefix key k) :
    firstMatch key es = denote es key ↔ ∀ k ∈ keysOf es, ¬ ProperPrefix key k := by
  constructor
  · intro heq k hk hpre
    by_cases hmem : key ∈ keysOf es
    · exact hfree hmem k hk hpre
    · rw [denote_eq_none_iff.mpr hmem, firstMatch_eq_none_iff] at heq
      exact heq k hk hpre.1
  · exact firstMatch_eq_denote

/-! ## Prefix-free keys -/

/-- No key of a list is a proper prefix of another. -/
def PrefixFree (ks : List CStr) : Prop := ∀ k ∈ ks, ∀ k' ∈ ks, ¬ ProperPrefix k k'

instance (ks : List CStr) : Decidable (PrefixFree ks) :=
  inferInstanceAs (Decidable (∀ k ∈ ks, ∀ k' ∈ ks, _))

/-- The keys after an operation are keys from before it or its own. -/
theorem keysOf_apply_subset {es : List (CStr × CStr)} {op : KeyOp CStr CStr} {k : CStr}
    (h : k ∈ keysOf (op.apply es)) : k ∈ keysOf es ∨ k = op.key := by
  obtain ⟨p, hp, rfl⟩ := List.mem_map.mp h
  rcases key_mem_apply hp with hp | ⟨k', v, rfl, rfl⟩
  · exact Or.inl (List.mem_map.mpr ⟨p, hp, rfl⟩)
  · exact Or.inr rfl

theorem PrefixFree.mono {ks ks' : List CStr} (h : PrefixFree ks) (hsub : ks' ⊆ ks) :
    PrefixFree ks' :=
  fun k hk k' hk' => h k (hsub hk) k' (hsub hk')

/-- The keys of the rest of a run stay prefix-free after its first operation. -/
theorem PrefixFree.apply {es : List (CStr × CStr)} {op : KeyOp CStr CStr}
    {ops : List (KeyOp CStr CStr)}
    (h : PrefixFree (keysOf es ++ (op :: ops).map KeyOp.key)) :
    PrefixFree (keysOf (op.apply es) ++ ops.map KeyOp.key) := by
  refine h.mono fun k hk => ?_
  rcases List.mem_append.mp hk with hk | hk
  · rcases keysOf_apply_subset hk with hk | rfl
    · exact List.mem_append_left _ hk
    · exact List.mem_append_right _ (by simp)
  · exact List.mem_append_right _ (by simp [hk])

/-- A key stored after a run was stored before it or is one of the run's. -/
theorem keysOf_foldl_subset {es : List (CStr × CStr)} {ops : List (KeyOp CStr CStr)} {k : CStr}
    (h : k ∈ keysOf (ops.foldl KeyOp.apply es)) : k ∈ keysOf es ++ ops.map KeyOp.key := by
  obtain ⟨p, hp, rfl⟩ := List.mem_map.mp h
  rcases mem_foldl hp with hp | hp
  · exact List.mem_append_left _ (List.mem_map.mpr ⟨p, hp, rfl⟩)
  · exact List.mem_append_right _ (List.mem_map.mpr ⟨_, hp, rfl⟩)

end Pantavisor.Lib
