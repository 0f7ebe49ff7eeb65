/-
Pantavisor.Bootloader.UbootTheorems — what the U-Boot backend does to a
well-formed image.

An image is well formed (`UbootImage`) when it is a block of NUL-terminated
entries, none of them looking like erased flash, followed by zero padding or
by the end of the file, with room for the two bytes that end the copy loop.

`ubootGetEnvKey_image` and `ubootRewrite_image` compute one operation on such
an image: get is `firstMatch` and the rewrite is `dropMatches` with the new
entry behind, so both compare PREFIXES. Every result about the backend is
read off these two.
-/
import Pantavisor.Lib.EntryBlock
import Pantavisor.Bootloader.Uboot

namespace Pantavisor.Bootloader

open Pantavisor.Lib

/-- A key the image format can hold: besides the separators it may not begin
like erased flash. -/
structure UbootKeyOk (k : CStr) : Prop extends KeyOk 0 k where
  notErased : ¬ [0xFF, 0xFF] <+: k

instance (k : CStr) : Decidable (UbootKeyOk k) :=
  decidable_of_iff (KeyOk 0 k ∧ ¬ [0xFF, 0xFF] <+: k)
    ⟨fun ⟨a, b⟩ => ⟨a, b⟩, fun ⟨a, b⟩ => ⟨a, b⟩⟩

/-- The bytes the entries may use: the copy loop looks at two bytes behind them. -/
def ubootRoom : Nat := 65534

/-- A well-formed image with the entries `es`. -/
structure UbootImage (bytes : CStr) (es : List (CStr × CStr)) : Prop where
  block : BlockOk 0 es
  notErased : ∀ p ∈ es, ¬ [0xFF, 0xFF] <+: p.1
  layout : ∃ pad, bytes = encode 0 es ++ List.replicate pad 0
  used : (encode 0 es).length ≤ ubootRoom
  size : bytes.length ≤ mtdEnvSize

theorem UbootImage.entryNulFree {bytes : CStr} {es : List (CStr × CStr)}
    (h : UbootImage bytes es) : ∀ p ∈ es, NulFree (entryText p) :=
  fun p hp => (h.block.keyOk p hp).entry_nulFree (h.block.valueOk p hp)

/-! ## Get -/

/-- The get loop reads to the end of an entry and decides there. -/
theorem ubootGetLoop_entry {buf key s rest : CStr} (hs : NulFree s) (i k : Nat) :
    ubootGetLoop buf key i k (s ++ 0 :: rest)
      = if key <+: buf.drop k then some (cstrAt buf (k + key.length + 1))
        else ubootGetLoop buf key (i + s.length + 1) (i + s.length + 1) rest := by
  induction s generalizing i with
  | nil => simp [ubootGetLoop, isPrefixOf_eq_decide]
  | cons c s ih =>
      simp only [NulFree, List.mem_cons, not_or] at hs
      have hc : c ≠ 0 := Ne.symm hs.1
      rw [List.cons_append, ubootGetLoop, if_pos hc, ih hs.2]
      simp only [List.length_cons]
      rw [show i + 1 + s.length + 1 = i + (s.length + 1) + 1 by omega]

/-- Over a run of entries the get loop is `firstMatch`. -/
theorem ubootGetLoop_encode {key : CStr} (hkey : KeyOk 0 key) (buf rest : CStr) :
    ∀ (es : List (CStr × CStr)) (pre tail : CStr), (∀ p ∈ es, NulFree (entryText p)) →
      buf = pre ++ (encode 0 es ++ tail) →
      ubootGetLoop buf key pre.length pre.length (encode 0 es ++ rest)
        = (firstMatch key es).or
            (ubootGetLoop buf key (pre.length + (encode 0 es).length)
              (pre.length + (encode 0 es).length) rest) := by
  intro es
  induction es with
  | nil => intro pre tail _ _; simp [firstMatch]
  | cons p es ih =>
      intro pre tail hok hbuf
      have hp : NulFree (entryText p) := hok p (by simp)
      have hbuf' : buf = pre ++ (entryText p ++ 0 :: (encode 0 es ++ tail)) := by
        simpa using hbuf
      have hdrop : key <+: buf.drop pre.length ↔ key <+: p.1 := by
        rw [hbuf', List.drop_left, prefix_terminated hkey.nulFree, prefix_entryText hkey.noEq]
      rw [encode_cons, List.append_assoc, List.cons_append, ubootGetLoop_entry hp,
        firstMatch_cons]
      by_cases hm : key <+: p.1
      · -- a hit: the key and the separator fit into the entry
        have hlen : key.length + 1 ≤ (entryText p).length := by
          have := hm.length_le
          rw [length_entryText]
          omega
        rw [if_pos (hdrop.mpr hm), if_pos hm, hbuf', Nat.add_assoc,
          cstrAt_append_add hp hlen]
        rfl
      · rw [if_neg (hdrop.not.mpr hm), if_neg hm]
        have := ih (pre ++ (entryText p ++ [0])) tail (fun q hq => hok q (by simp [hq]))
          (by simpa using hbuf')
        have hlen : (pre ++ (entryText p ++ [0])).length
            = pre.length + (entryText p).length + 1 := by
          simp only [List.length_append, List.length_singleton]
          omega
        rw [hlen] at this
        rw [this]
        simp only [List.length_append, List.length_cons]
        rw [show pre.length + (entryText p).length + 1 + (encode 0 es).length
          = pre.length + ((entryText p).length + ((encode 0 es).length + 1)) by omega]

/-- In the zero padding the get loop finds no key. -/
theorem ubootGetLoop_padding {buf key : CStr} (hkey : NulFree key) (hne : key ≠ []) :
    ∀ (n k m : Nat), buf.drop k = List.replicate m 0 →
      ubootGetLoop buf key k k (List.replicate n 0) = none := by
  intro n
  induction n with
  | zero => intro k m _; rfl
  | succ n ih =>
      intro k m hbuf
      have hno : ¬ key <+: buf.drop k := by
        rw [hbuf]
        intro hpre
        obtain ⟨c, t, rfl⟩ := List.exists_cons_of_ne_nil hne
        have hc : c ∈ List.replicate m (0 : UInt8) := hpre.subset (by simp)
        rw [List.eq_of_mem_replicate hc] at hkey
        exact hkey (by simp)
      rw [List.replicate_succ, ubootGetLoop, if_neg (by simp), isPrefixOf_eq_decide,
        decide_eq_false hno]
      refine ih (k + 1) (m - 1) ?_
      rw [← List.drop_drop, hbuf, List.drop_replicate]

/-- Reading an image into a larger buffer lengthens its padding. -/
theorem readInto_layout {bytes e : CStr} {pad : Nat} (size : Nat)
    (h : bytes = e ++ List.replicate pad 0) :
    readInto size bytes = e ++ List.replicate (pad + (size - bytes.length)) 0 := by
  rw [List.replicate_add, ← List.append_assoc, ← h, readInto]

/-- What the read of a well-formed image brings in: all of it. -/
theorem take_image {bytes : CStr} (h : bytes.length ≤ mtdEnvSize) (single : Bool) :
    (bytes.take (UbootStore.len ⟨single, bytes⟩)).take mtdEnvSize = bytes := by
  cases single with
  | true =>
      rw [show UbootStore.len ⟨true, bytes⟩ = mtdEnvSize from rfl, List.take_of_length_le h,
        List.take_of_length_le h]
  | false =>
      rw [show UbootStore.len ⟨false, bytes⟩ = bytes.length from rfl, List.take_length,
        List.take_of_length_le h]

/-- **Get on a well-formed image** returns the first entry that the key is a
prefix of. -/
theorem ubootGetEnvKey_image {st : UbootStore} {es : List (CStr × CStr)}
    (h : UbootImage st.bytes es) {key : CStr} (hkey : KeyOk 0 key) (hne : key ≠ []) :
    ubootGetEnvKey .ok st key = firstMatch key es := by
  obtain ⟨pad, hlay⟩ := h.layout
  have htake := take_image h.size st.singleEnv
  have hbuf := readInto_layout st.len hlay
  have hloop := ubootGetLoop_encode hkey _ (List.replicate pad 0) es [] _ h.entryNulFree hbuf
  have hpad : ubootGetLoop (readInto st.len st.bytes) key (encode 0 es).length
      (encode 0 es).length (List.replicate pad 0) = none :=
    ubootGetLoop_padding hkey.nulFree hne pad _ _ (by rw [hbuf, List.drop_left])
  rw [List.length_nil, Nat.zero_add, hpad, Option.or_none, ← hlay] at hloop
  simp only [ubootGetEnvKey, UbootIo.ok, Bool.not_true, Bool.and_false, Bool.false_eq_true,
    if_false]
  rw [htake]
  exact hloop

/-! ## The copy loop -/

/-- At the start of a text that does not look like erased flash the copy loop
does not stop. -/
theorem ubootStop_text {s rest : CStr} (hs : NulFree s) (hne : s ≠ [])
    (hff : ¬ [0xFF, 0xFF] <+: s) : ubootStop (s ++ 0 :: rest) = .ok false := by
  obtain ⟨c, s, rfl⟩ := List.exists_cons_of_ne_nil hne
  have hc : c ≠ 0 := fun h0 => hs (by simp [h0])
  by_cases hcff : c = 0xFF
  · -- one 0xFF byte: the next one differs
    subst hcff
    cases s with
    | nil => simp [ubootStop]
    | cons c' s =>
        have hc' : c' ≠ 0xFF := by
          rintro rfl
          exact hff (by simp)
        simp [ubootStop, hc']
  · simp [ubootStop, hc, hcff]

/-- The copy loop over one text: it is kept unless it begins with the key. -/
theorem ubootCopyLoop_text {old key s rest : CStr} {ret i fuel : Nat} {new : CStr}
    (hs : NulFree s) (hne : s ≠ []) (hff : ¬ [0xFF, 0xFF] <+: s) (hkey : NulFree key)
    (hat : old.drop i = s ++ 0 :: rest) (hi : i < ret) (hroom : i + s.length < 65535)
    (hnew : new.length + (s.length + 1) ≤ mtdEnvSize) :
    ubootCopyLoop old key ret (fuel + 1) i new
      = ubootCopyLoop old key ret fuel (i + s.length + 1)
          (if key <+: s then new else new ++ (s ++ [0])) := by
  have hstr : cstrAt old i = s := by
    rw [cstrAt, hat]
    exact takeWhile_ne_append hs
  have hhead : (old.drop i).head? ≠ some 0 := by
    obtain ⟨c, s, rfl⟩ := List.exists_cons_of_ne_nil hne
    rw [hat]
    intro h0
    exact hs (by simpa [eq_comm] using Or.inl h0)
  have hinside : ¬ old.length ≤ i + s.length := by
    have hlen := congrArg List.length hat
    simp only [List.length_drop, List.length_append, List.length_cons] at hlen
    omega
  have hnext : ((i + s.length) % 65536 + 1) % 65536 = i + s.length + 1 := by omega
  have hmatch : key.isPrefixOf (old.drop i) = decide (key <+: s) := by
    simp only [isPrefixOf_eq_decide, hat, prefix_terminated hkey]
  rw [ubootCopyLoop, if_neg (by omega), hat, ubootStop_text hs hne hff, ← hat]
  simp only [hstr, if_neg hhead, if_neg hinside, hnext, hmatch]
  by_cases hm : key <+: s
  · rw [if_pos (by simp [hm]), if_pos hm]
  · rw [if_neg (by simp [hm]), if_neg hm, if_neg (by omega)]

/-- The copy loop ends behind what was read and at two zero bytes. -/
theorem ubootCopyLoop_end (pad : Nat) {old key : CStr} {ret i fuel : Nat} {new : CStr}
    (hend : ret ≤ i ∨ old.drop i = List.replicate (pad + 2) 0) :
    ubootCopyLoop old key ret (fuel + 1) i new = .ok new := by
  rw [ubootCopyLoop]
  rcases hend with hend | hend
  · rw [if_pos hend]
  · by_cases hret : ret ≤ i
    · rw [if_pos hret]
    · have hstop : ubootStop (0 :: 0 :: List.replicate pad 0) = .ok true := by simp [ubootStop]
      rw [if_neg hret, hend, List.replicate_succ, List.replicate_succ, hstop]

/-- **The copy loop over a run of entries** keeps those the key is no prefix of
and goes on behind them. `pre` is the part of the image before index `i`; the
loop takes one unit of fuel for each entry. -/
theorem ubootCopyLoop_encode {key : CStr} (hkey : KeyOk 0 key) (old rest : CStr) (ret : Nat) :
    ∀ (es : List (CStr × CStr)) (pre new : CStr) (fuel : Nat),
      (∀ p ∈ es, NulFree (entryText p)) → (∀ p ∈ es, ¬ [0xFF, 0xFF] <+: p.1) →
      old = pre ++ (encode 0 es ++ rest) →
      pre.length + (encode 0 es).length ≤ ret + 1 →
      pre.length + (encode 0 es).length ≤ ubootRoom →
      new.length + (encode 0 es).length ≤ mtdEnvSize →
      ubootCopyLoop old key ret (fuel + es.length) pre.length new
        = ubootCopyLoop old key ret fuel (pre.length + (encode 0 es).length)
            (new ++ encode 0 (dropMatches key es)) := by
  intro es
  induction es with
  | nil => intro pre new fuel _ _ _ _ _ _; simp [dropMatches]
  | cons p es ih =>
      intro pre new fuel hnul her hold hret hroom hnew
      have hp : NulFree (entryText p) := hnul p (by simp)
      have hne : entryText p ≠ [] := by simp [entryText]
      have hff : ¬ [0xFF, 0xFF] <+: entryText p := by
        rw [prefix_entryText (by decide)]
        exact her p (by simp)
      have hpos := List.length_pos_of_ne_nil hne
      rw [encode_cons] at hold hret hroom hnew
      simp only [List.length_append, List.length_cons, ubootRoom] at hret hroom hnew
      have hat : old.drop pre.length = entryText p ++ 0 :: (encode 0 es ++ rest) := by
        rw [hold, List.drop_left]
        simp
      have hlen : (pre ++ (entryText p ++ [0])).length
          = pre.length + (entryText p).length + 1 := by
        simp only [List.length_append, List.length_singleton]
        omega
      have hrec := fun new' hnew' => ih (pre ++ (entryText p ++ [0])) new' fuel
        (fun q hq => hnul q (by simp [hq])) (fun q hq => her q (by simp [hq]))
        (by rw [hold]; simp) (by rw [hlen]; omega) (by rw [hlen, ubootRoom]; omega) hnew'
      rw [hlen] at hrec
      rw [List.length_cons, ← Nat.add_assoc, ubootCopyLoop_text hp hne hff hkey.nulFree hat
        (by omega) (by omega) (by omega), dropMatches_cons, encode_cons, List.length_append,
        List.length_cons]
      simp only [prefix_entryText hkey.noEq]
      rw [show pre.length + ((entryText p).length + ((encode 0 es).length + 1))
        = pre.length + (entryText p).length + 1 + (encode 0 es).length by omega]
      by_cases hm : key <+: p.1
      · rw [if_pos hm, if_pos hm]
        exact hrec new (by omega)
      · rw [if_neg hm, if_neg hm, hrec (new ++ (entryText p ++ [0])) (by simp; omega)]
        simp

/-! ## Set and unset -/

/-- The text that set appends for a value. -/
def ubootAdd (key : CStr) (value : Option CStr) : Option CStr :=
  value.map fun v => entryText (key, v)

theorem ubootSetEnvKey_eq (io : UbootIo) (st : UbootStore) (key value : CStr) :
    ubootSetEnvKey io st key value = ubootRewrite io st key (ubootAdd key (some value)) := by
  rw [ubootSetEnvKey, ubootAdd, Option.map_some, entryText,
    show str "=" = [eqSign] from by decide]
  simp

theorem ubootUnsetEnvKey_eq (io : UbootIo) (st : UbootStore) (key : CStr) :
    ubootUnsetEnvKey io st key = ubootRewrite io st key (ubootAdd key none) := rfl

/-- There are no more entries than bytes. -/
theorem length_le_encode (t : UInt8) (es : List (CStr × CStr)) :
    es.length ≤ (encode t es).length := by
  induction es with
  | nil => simp
  | cons p es ih => simp only [encode_cons, List.length_append, List.length_cons]; omega

/-- The image buffer when `n` bytes of a well-formed image are read. -/
theorem ubootReadImage_image {st : UbootStore} {es : List (CStr × CStr)}
    (h : UbootImage st.bytes es) {io : UbootIo} {n : Nat} (hread : io.read = some n) :
    ubootReadImage io st
      = .ok (readInto mtdEnvSize (st.bytes.take n), (st.bytes.take n).length) := by
  have hlen : st.bytes.length ≤ st.len := by
    obtain ⟨single, bytes⟩ := st
    cases single with
    | true => exact h.size
    | false => exact Nat.le_refl _
  have hsize := h.size
  rw [ubootReadImage, hread]
  simp only [List.take_of_length_le hlen]
  rw [if_neg (by rw [List.length_take]; omega)]

/-- A read that misses nothing but padding fills the buffer like a full one. -/
theorem readInto_take_image {bytes : CStr} {es : List (CStr × CStr)} (h : UbootImage bytes es)
    {n : Nat} (hn : (encode 0 es).length ≤ n + 1) :
    readInto mtdEnvSize (bytes.take n) = readInto mtdEnvSize bytes := by
  obtain ⟨pad, hlay⟩ := h.layout
  have hsize := h.size
  -- the bytes behind the last text are all zero
  obtain ⟨m, hm⟩ : ∃ m, bytes.drop n = List.replicate m 0 := by
    by_cases hle : (encode 0 es).length ≤ n
    · refine ⟨pad - (n - (encode 0 es).length), ?_⟩
      rw [hlay, List.drop_append, List.drop_eq_nil_of_le hle, List.nil_append,
        List.drop_replicate]
    · cases hes : es.reverse with
      | nil => simp [List.reverse_eq_nil_iff.mp hes] at hle
      | cons p rest =>
          have hes' : es = rest.reverse ++ [p] := by
            rw [← List.reverse_reverse es, hes, List.reverse_cons]
          have henc : encode 0 es = (encode 0 rest.reverse ++ entryText p) ++ [0] := by
            rw [hes', encode_append]
            simp
          have hnlen : n = (encode 0 rest.reverse ++ entryText p).length := by
            rw [henc, List.length_append, List.length_singleton] at hn hle
            omega
          refine ⟨pad + 1, ?_⟩
          rw [hlay, henc, hnlen, List.append_assoc, List.drop_left, List.replicate_succ]
          rfl
  have hlen := congrArg List.length hm
  simp only [List.length_drop, List.length_replicate] at hlen
  rw [readInto, readInto]
  conv_rhs => rw [← List.take_append_drop n bytes, hm]
  rw [List.append_assoc, List.replicate_append_replicate]
  congr 2
  simp only [List.length_append, List.length_take, List.length_replicate]
  omega

/-- What set and unset put into the new image, whatever the write does, when
the read misses nothing but padding. -/
theorem ubootCopy_image {bytes : CStr} {es : List (CStr × CStr)} (h : UbootImage bytes es)
    {key : CStr} (hkey : KeyOk 0 key) {n : Nat} (hn : (encode 0 es).length ≤ n + 1) :
    ubootCopyLoop (readInto mtdEnvSize (bytes.take n)) key (bytes.take n).length
        (mtdEnvSize + 1) 0 []
      = .ok (encode 0 (dropMatches key es)) := by
  obtain ⟨pad, hlay⟩ := h.layout
  have hused := h.used
  have hlen := congrArg List.length hlay
  simp only [List.length_append, List.length_replicate] at hlen
  have hcount := length_le_encode 0 es
  simp only [ubootRoom] at hused
  have hbuf : readInto mtdEnvSize (bytes.take n)
      = [] ++ (encode 0 es ++ List.replicate (mtdEnvSize - 2 - (encode 0 es).length + 2) 0) := by
    rw [readInto_take_image h hn, readInto_layout mtdEnvSize hlay, List.nil_append]
    congr 2
    have hsize := h.size
    simp only [mtdEnvSize] at hsize ⊢
    omega
  have hloop := ubootCopyLoop_encode hkey _ _ (bytes.take n).length es [] []
    (mtdEnvSize - es.length + 1) h.entryNulFree h.notErased hbuf
    (by simp only [List.length_nil, List.length_take]; omega)
    (by simpa [ubootRoom] using hused) (by simp only [List.length_nil, mtdEnvSize]; omega)
  rw [show mtdEnvSize - es.length + 1 + es.length = mtdEnvSize + 1 by
    simp only [mtdEnvSize]; omega] at hloop
  rw [← List.length_nil, hloop, List.nil_append]
  exact ubootCopyLoop_end _ (Or.inr (by rw [hbuf, List.nil_append, List.length_nil, Nat.zero_add,
    List.drop_left]))

/-- Programming erased cells stores the bytes as they are. -/
theorem program_erased (n : Nat) (l : CStr) (h : l.length ≤ n) :
    program (List.replicate n 0xFF) l = l ++ List.replicate (n - l.length) 0xFF := by
  have hand : ∀ b : UInt8, 0xFF &&& b = b := by
    intro b
    apply UInt8.toNat_inj.mp
    rw [UInt8.toNat_and, Nat.and_comm]
    have := b.toNat_lt
    have := Nat.and_two_pow_sub_one_of_lt_two_pow (n := 8) (x := b.toNat) (by omega)
    simpa using this
  have hzip : List.zipWith (· &&& ·) (List.replicate n (0xFF : UInt8)) l = l := by
    induction n generalizing l with
    | zero => simp [List.length_eq_zero_iff.mp (Nat.le_zero.mp h)]
    | succ n ih =>
        cases l with
        | nil => rfl
        | cons b l => simp [List.replicate_succ, hand, ih l (by simpa using h)]
  rw [program, hzip, List.drop_replicate]

theorem ubootWriteImage_ok (st : UbootStore) {new : CStr} (hnew : new.length = mtdEnvSize)
    (hsize : st.bytes.length ≤ mtdEnvSize) :
    ubootWriteImage .ok st new = { st with bytes := new } := by
  obtain ⟨single, bytes⟩ := st
  have htake : new.take mtdEnvSize = new := List.take_of_length_le (by omega)
  cases single with
  | false =>
      simp only [ubootWriteImage, UbootIo.ok, htake, Bool.false_and, Bool.false_eq_true, if_false]
      rw [overwrite_same_length (by rw [hnew]; exact hsize)]
  | true =>
      simp only [ubootWriteImage, UbootIo.ok, htake, Bool.true_and, if_true]
      rw [List.drop_eq_nil_of_le hsize, List.append_nil, program_erased _ _ (by omega), hnew,
        Nat.sub_self, List.replicate_zero, List.append_nil]

/-- A new image is well formed when its entries fit. -/
theorem UbootImage.rewrite {bytes : CStr} {es : List (CStr × CStr)} (h : UbootImage bytes es)
    {key : CStr} (hkey : UbootKeyOk key) {value : Option CStr}
    (hval : ∀ v ∈ value, ValueOk 0 v)
    (hfit : (encode 0 (rewriteEntries key es value)).length ≤ ubootRoom) :
    UbootImage (readInto mtdEnvSize (encode 0 (rewriteEntries key es value)))
      (rewriteEntries key es value) where
  block := h.block.rewriteEntries hkey.toKeyOk hval
  notErased := by
    intro p hp
    cases value with
    | none => exact h.notErased p (List.mem_filter.mp hp).1
    | some v =>
        rcases List.mem_append.mp hp with hp | hp
        · exact h.notErased p (List.mem_filter.mp hp).1
        · rw [List.mem_singleton.mp hp]; exact hkey.notErased
  layout := ⟨_, rfl⟩
  used := hfit
  size := by
    have hle : (encode 0 (rewriteEntries key es value)).length ≤ mtdEnvSize :=
      Nat.le_trans hfit (by decide)
    exact Nat.le_of_eq (length_readInto hle)

/-- What set puts behind the kept entries. -/
theorem ubootAppend_kept {key : CStr} {es : List (CStr × CStr)} {value : Option CStr}
    (hshort : ∀ v ∈ value, (entryText (key, v)).length < ubootEntrySize)
    (hfit : (encode 0 (rewriteEntries key es value)).length ≤ mtdEnvSize) :
    ubootAppend (encode 0 (dropMatches key es)) (ubootAdd key value)
      = .ok (encode 0 (rewriteEntries key es value)) := by
  cases value with
  | none => rfl
  | some v =>
      have hv := hshort v rfl
      have hsum : (encode 0 (dropMatches key es)).length + ((entryText (key, v)).length + 1)
          ≤ mtdEnvSize := by simpa [rewriteEntries] using hfit
      rw [ubootAdd, Option.map_some, ubootAppend, if_neg (by omega), if_neg (by omega)]
      simp [rewriteEntries]

/-- **A rewrite of a well-formed image with all I/O working** returns 0 and
stores the kept entries. -/
theorem ubootRewrite_image {st : UbootStore} {es : List (CStr × CStr)}
    (h : UbootImage st.bytes es) {key : CStr} (hkey : KeyOk 0 key) {value : Option CStr}
    (hshort : ∀ v ∈ value, (entryText (key, v)).length < ubootEntrySize)
    (hfit : (encode 0 (rewriteEntries key es value)).length ≤ mtdEnvSize) :
    ubootRewrite .ok st key (ubootAdd key value)
      = .ok (0, { st with bytes := readInto mtdEnvSize (encode 0 (rewriteEntries key es value)) }) := by
  have hused := h.used
  have hcopy := ubootCopy_image h hkey (n := mtdEnvSize) (by
    simp only [ubootRoom] at hused
    simp only [mtdEnvSize]
    omega)
  have hstore := ubootWriteImage_ok st (length_readInto hfit) h.size
  rw [ubootRewrite, if_neg (by simp [UbootIo.ok]), if_neg (by simp [UbootIo.ok]),
    ubootReadImage_image h rfl]
  simp only [bind, Except.bind, hcopy, ubootAppend_kept hshort hfit, hstore]
  rfl

end Pantavisor.Bootloader
