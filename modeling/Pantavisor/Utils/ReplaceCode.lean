/-
Pantavisor.Utils.ReplaceCode — `pv_str_unescape_to_ascii` (`utils/str.c`) and the copy of it in
`updater.c`, with the buffer that they write to.

The loop cuts the string, with the code put behind it, at each occurrence of the code, and
appends what is in front of the occurrence and the byte to a buffer that grows by that much. The
byte that stands for the code at the end is taken off again. What is left is the string with
each occurrence replaced (`replaceAll`), for a code that cannot overlap with itself
(`unescapeLoop_replaceAll`).

The place in the buffer is counted in an `int`. A function gives `none` where the C code is
undefined: where that overflows, where a byte is stored outside of a block or read from there,
and where it does not return.
-/
import Pantavisor.Json.Unescape
import Pantavisor.Lib.Block
import Pantavisor.Lib.Replace

namespace Pantavisor.Utils

open Pantavisor.Lib Pantavisor.Json

/-! ## The code -/

/-- `new` and `pos` -/
structure Unescaped where
  new : Block
  pos : Int

/-- A store at `new + pos`. -/
def storeAt (b : Block) (pos : Int) (data : CStr) : Option Block :=
  if 0 ≤ pos then b.store pos.toNat data else none

/-- The body of the loop, for what is in front of the occurrence. The sum of an `int` and a
`size_t` is a `size_t`, and what is kept of it is an `int` again. -/
def Unescaped.append (u : Unescaped) (tmp : CStr) (c : UInt8) : Option Unescaped := do
  let size := wrapSize (sizeOfInt u.pos + tmp.length)
  let new ← storeAt (u.new.realloc (wrapSize (size + 2))) u.pos (tmp ++ [0])
  let pos := intOfSize size
  let new ← storeAt new pos [c]
  if pos + 1 < 2 ^ 31 then
    let new ← storeAt new (pos + 1) [0]
    return ⟨new, pos + 1⟩
  else none

/-- The loop, for at most so many rounds. -/
def unescapeRounds (code : CStr) (c : UInt8) : Nat → Unescaped → CStr → Option Unescaped
  | 0, _, _ => none
  | k + 1, u, tmp =>
    match strstr tmp code with
    | none => some u
    | some p =>
      (u.append (tmp.take p) c).bind fun u =>
        unescapeRounds code c k u (tmp.drop (p + code.length))

/-- What is done behind the loop. -/
def trimLast (new : Block) (c : UInt8) : Option CStr := do
  let string ← new.text
  match string.getLast? with
  | none => none
  | some last => if last = c then (new.store (string.length - 1) [0]).bind Block.text else string

/-- The body that both functions have. For a code that is not empty there are no more occurrences
than bytes. -/
def replaceCode (buf code : CStr) (c : UInt8) : Option CStr := do
  let tmp := buf ++ code
  let u ← unescapeRounds code c (tmp.length + 1) ⟨[], 0⟩ tmp
  trimLast u.new c

/-- `pv_str_unescape_to_ascii` -/
def pvStrUnescapeToAscii (buf code : CStr) (c : UInt8) : Option CStr := replaceCode buf code c

/-- `unescape_utf8_to_apvii`, which frees `buf` at its end. -/
def unescapeUtf8ToApvii (buf code : CStr) (c : UInt8) : Option CStr := replaceCode buf code c

/-! ## The bytes that the loop writes -/

theorem unescapeLoop_nil {code : CStr} {c : UInt8} (hcode : code ≠ []) (k : Nat) (new : CStr) :
    unescapeLoop code c k new [] = new := by
  cases k with
  | zero => rfl
  | succ k => rw [unescapeLoop, strstr, if_neg hcode]

/-- **The loop over a string with the code behind it** writes the string with each occurrence
replaced, and the byte for the last one. -/
theorem unescapeLoop_replaceAll {code : CStr} {c : UInt8} (hcode : code ≠ [])
    (hborder : Borderless code) {k : Nat} {new s : CStr} (hk : s.length ≤ k) :
    unescapeLoop code c (k + 1) new (s ++ code) = new ++ replaceAll code c s ++ [c] := by
  have hfound : ∀ rest : CStr, strstr (code ++ rest) code = some 0 := by
    intro rest
    cases code with
    | nil => exact absurd rfl hcode
    | cons a code => rw [List.cons_append, strstr, if_pos ⟨rest, rfl⟩]
  have hpos : 0 < code.length := List.length_pos_iff.mpr hcode
  induction hn : s.length using Nat.strong_induction_on generalizing k new s with
  | _ n ih =>
    subst hn
    cases s with
    | nil =>
      have hself := hfound []
      rw [List.append_nil] at hself
      rw [List.nil_append, unescapeLoop, hself]
      simp only [List.take_zero, Nat.zero_add, List.drop_length, unescapeLoop_nil hcode]
      rfl
    | cons b s =>
      obtain ⟨k, rfl⟩ := Nat.exists_eq_succ_of_ne_zero (Nat.ne_of_gt (Nat.zero_lt_of_lt hk))
      rw [List.length_cons] at hk
      by_cases hpre : code <+: b :: s
      · obtain ⟨rest, hrest⟩ := hpre
        have hlen := congrArg List.length hrest
        rw [List.length_append, List.length_cons] at hlen
        rw [← hrest, replaceAll_code hcode, List.append_assoc, unescapeLoop, hfound]
        simp only [List.take_zero, Nat.zero_add, List.drop_left, List.append_nil]
        rw [ih rest.length (by rw [List.length_cons]; omega) (by omega) rfl]
        simp
      · have hskip : ¬ code <+: b :: (s ++ code) := fun h =>
          hpre (hborder.prefix_append (List.cons_ne_nil b s) h)
        rw [List.cons_append, unescapeLoop_skip hskip,
          ih s.length (Nat.lt_succ_self _) (by omega) rfl, replaceAll_cons_of_not hpre]
        simp

/-- The call without its buffer. -/
theorem pvStrUnescapeToAscii_replaceAll {s code : CStr} {c : UInt8} (hcode : code ≠ [])
    (hborder : Borderless code) :
    Json.pvStrUnescapeToAscii s code c = replaceAll code c s := by
  have hpos : 0 < code.length := List.length_pos_iff.mpr hcode
  obtain ⟨k, hk⟩ : ∃ k, (s ++ code).length = k + 1 := by
    refine ⟨s.length + (code.length - 1), ?_⟩
    rw [List.length_append]
    omega
  have hle : s.length ≤ k := by
    rw [List.length_append] at hk
    omega
  have hloop : unescapeLoop code c (k + 1) [] (s ++ code) = [] ++ replaceAll code c s ++ [c] :=
    unescapeLoop_replaceAll hcode hborder hle
  rw [List.nil_append] at hloop
  simp only [Json.pvStrUnescapeToAscii, hk, hloop, List.getLast?_concat, if_true,
    List.dropLast_concat]

/-! ## Where they are written -/

theorem storeAt_parts {a x y : Block} {data : CStr} {pos : Int} (hpos : pos = a.length)
    (h : x.length = data.length) :
    storeAt (a ++ x ++ y) pos data = some (a ++ data.map some ++ y) := by
  have hfits : a.length + data.length ≤ (a ++ x ++ y).length := by
    rw [List.length_append, List.length_append, h]
    omega
  have hdrop : (a ++ x ++ y).drop (a.length + data.length) = y := by
    rw [← h, ← List.length_append, List.drop_left]
  rw [storeAt, if_pos (by omega), hpos, Int.toNat_natCast, Block.store, if_pos hfits, hdrop,
    List.append_assoc a x y, List.take_left]

/-- The buffer has these bytes and their terminator, and no room for more. It is NULL at first. -/
structure Unescaped.Holds (u : Unescaped) (done : CStr) : Prop where
  pos : u.pos = done.length
  new : u.new = (done ++ [0]).map some ∨ done = [] ∧ u.new = []

theorem Unescaped.Holds.realloc {u : Unescaped} {done : CStr} (h : u.Holds done) {size : Nat}
    (hsize : done.length ≤ size) : (u.new.realloc size).take done.length = done.map some := by
  rcases h.new with hnew | ⟨rfl, -⟩
  · have hle : done.length ≤ u.new.length := by
      rw [hnew, List.length_map, List.length_append]
      omega
    rw [Block.take_realloc hsize hle, hnew, List.map_append]
    exact List.take_left' (List.length_map _)
  · rfl

/-- What a round appends, while the place is an `int`. -/
theorem Unescaped.append_holds {u : Unescaped} {done tmp : CStr} {c : UInt8} (h : u.Holds done)
    (hroom : (done ++ tmp ++ [c]).length < 2 ^ 31) :
    ∃ u', u.append tmp c = some u' ∧ u'.pos = (done ++ tmp ++ [c]).length ∧
      u'.new = (done ++ tmp ++ [c] ++ [0]).map some := by
  have hlen : (done ++ tmp ++ [c]).length = done.length + tmp.length + 1 := by
    rw [List.length_append, List.length_append, List.length_singleton]
  rw [hlen] at hroom ⊢
  have hsize : wrapSize (sizeOfInt u.pos + tmp.length) = done.length + tmp.length := by
    rw [h.pos, sizeOfInt_eq (by omega), wrapSize_eq (by omega)]
  have hpos : intOfSize (done.length + tmp.length) = done.length + tmp.length := by
    rw [intOfSize_eq (by omega), Int.natCast_add]
  -- the parts of the block behind the bytes that are there
  obtain ⟨r, hr⟩ : ∃ r, u.new.realloc (done.length + tmp.length + 2) = r := ⟨_, rfl⟩
  have htake : r.take done.length = done.map some := hr ▸ h.realloc (by omega)
  have hrlen : r.length = done.length + tmp.length + 2 := hr ▸ Block.length_realloc ..
  obtain ⟨x, y, hparts, hx, hy⟩ : ∃ x y : Block, r = done.map some ++ x ++ y ∧
      x.length = (tmp ++ [0]).length ∧ y.length = 1 := by
    refine ⟨(r.drop done.length).take (tmp ++ [0]).length,
      (r.drop done.length).drop (tmp ++ [0]).length, ?_, ?_, ?_⟩
    · rw [← htake, List.append_assoc, List.take_append_drop, List.take_append_drop]
    · rw [List.length_take, List.length_drop, List.length_append, List.length_singleton]
      omega
    · rw [List.length_drop, List.length_drop, List.length_append, List.length_singleton]
      omega
  have hstrcpy : storeAt r u.pos (tmp ++ [0])
      = some ((done ++ tmp).map some ++ [some 0] ++ y) := by
    rw [hparts, storeAt_parts (by rw [h.pos, List.length_map]) hx]
    simp
  have hbyte : storeAt ((done ++ tmp).map some ++ [some 0] ++ y) (done.length + tmp.length) [c]
      = some ((done ++ tmp ++ [c]).map some ++ y ++ []) := by
    rw [storeAt_parts (by simp) rfl]
    simp
  have hend : storeAt ((done ++ tmp ++ [c]).map some ++ y ++ []) (done.length + tmp.length + 1) [0]
      = some ((done ++ tmp ++ [c] ++ [0]).map some) := by
    rw [storeAt_parts (by simp; omega) hy]
    simp
  refine ⟨⟨(done ++ tmp ++ [c] ++ [0]).map some, done.length + tmp.length + 1⟩, ?_, by simp, rfl⟩
  have hint : (done.length + tmp.length + 1 : Int) < 2 ^ 31 := by omega
  have htwo : wrapSize (done.length + tmp.length + 2) = done.length + tmp.length + 2 :=
    wrapSize_eq (by omega)
  simp only [Unescaped.append, hsize, hpos, htwo, hr, hstrcpy, hbyte, hend, hint, if_true,
    Option.bind_eq_bind, Option.bind_some]
  rfl

theorem length_le_unescapeLoop {code : CStr} {c : UInt8} {k : Nat} {new tmp : CStr} :
    new.length ≤ (unescapeLoop code c k new tmp).length := by
  induction k generalizing new tmp with
  | zero => exact le_refl _
  | succ k ih =>
    rw [unescapeLoop]
    split
    · exact le_refl _
    · next p _ =>
      refine le_trans ?_ ih
      rw [List.length_append, List.length_append]
      omega

theorem strstr_le {s code : CStr} {p : Nat} (h : strstr s code = some p) :
    p + code.length ≤ s.length := by
  induction s generalizing p with
  | nil =>
    rw [strstr] at h
    split at h
    · next hnil =>
      obtain rfl := Option.some.inj h
      simp [hnil]
    · cases h
  | cons a s ih =>
    rw [strstr] at h
    split at h
    · next hpre =>
      obtain rfl := Option.some.inj h
      rw [Nat.zero_add]
      exact hpre.length_le
    · obtain ⟨q, hq, rfl⟩ := Option.map_eq_some_iff.mp h
      have hle := ih hq
      rw [List.length_cons]
      omega

/-- **The loop stays inside of the buffer** and leaves its bytes there, as long as the place is an
`int`. -/
theorem unescapeRounds_eq {code : CStr} {c : UInt8} (hcode : code ≠ []) :
    ∀ {k : Nat} {u : Unescaped} {done tmp : CStr}, u.Holds done → tmp.length < k →
      (unescapeLoop code c k done tmp).length < 2 ^ 31 →
      ∃ u', unescapeRounds code c k u tmp = some u' ∧
        u'.Holds (unescapeLoop code c k done tmp) := by
  have hpos : 0 < code.length := List.length_pos_iff.mpr hcode
  intro k
  induction k with
  | zero => exact fun _ hk => absurd hk (Nat.not_lt_zero _)
  | succ k ih =>
    intro u done tmp hu hk hroom
    rw [unescapeLoop] at hroom ⊢
    rw [unescapeRounds]
    cases hfound : strstr tmp code with
    | none => exact ⟨u, rfl, hu⟩
    | some p =>
      rw [hfound] at hroom
      have hfits : (done ++ tmp.take p ++ [c]).length < 2 ^ 31 :=
        Nat.lt_of_le_of_lt length_le_unescapeLoop hroom
      obtain ⟨u', happend, hplace, hnew⟩ := Unescaped.append_holds hu hfits
      have hle := strstr_le hfound
      have hshort : (tmp.drop (p + code.length)).length < k := by
        rw [List.length_drop]
        omega
      obtain ⟨u'', hrounds, hholds⟩ := ih ⟨hplace, .inl hnew⟩ hshort hroom
      exact ⟨u'', by simp only [happend, Option.bind_some, hrounds], hholds⟩

/-- The byte for the code that was put behind the string is taken off. -/
theorem trimLast_append {s : CStr} {c : UInt8} (hs : NulFree s) (hc : c ≠ 0) :
    trimLast ((s ++ [c] ++ [0]).map some) c = some s := by
  have hnul : NulFree (s ++ [c]) := fun hmem =>
    (List.mem_append.mp hmem).elim (fun h => hs h) fun h => hc (List.mem_singleton.mp h).symm
  have htext : Block.text ((s ++ [c] ++ [0]).map some) = some (s ++ [c]) := by
    rw [List.map_append]
    exact Block.text_append_zero hnul []
  have hlast : (s ++ [c]).getLast? = some c := by simp
  rw [trimLast, htext]
  simp only [Option.bind_eq_bind, Option.bind_some, hlast, if_true, List.length_append,
    List.length_singleton, Nat.add_sub_cancel]
  exact Block.text_store_zero htext

theorem replaceFrom_nulFree {code : CStr} {c : UInt8} (hc : c ≠ 0) {s : CStr} (hs : NulFree s) :
    ∀ {skip : Nat}, NulFree (replaceFrom code c skip s) := by
  induction s with
  | nil =>
    intro skip
    cases skip <;> simp [replaceFrom, NulFree]
  | cons a s ih =>
    rw [NulFree, List.mem_cons, not_or] at hs
    intro skip
    cases skip with
    | zero =>
      rw [replaceFrom]
      split
      · rw [NulFree, List.mem_cons, not_or]
        exact ⟨hc.symm, ih hs.2⟩
      · rw [NulFree, List.mem_cons, not_or]
        exact ⟨hs.1, ih hs.2⟩
    | succ skip => exact ih hs.2

/-- A result with room for its byte is returned. -/
theorem replaceCode_eq {s code : CStr} {c : UInt8} (hs : NulFree s) (hcode : code ≠ [])
    (hborder : Borderless code) (hc : c ≠ 0) (hroom : (replaceAll code c s).length + 1 < 2 ^ 31) :
    replaceCode s code c = some (replaceAll code c s) := by
  have hpos : 0 < code.length := List.length_pos_iff.mpr hcode
  have hloop : unescapeLoop code c ((s ++ code).length + 1) [] (s ++ code)
      = replaceAll code c s ++ [c] := by
    rw [unescapeLoop_replaceAll hcode hborder (by rw [List.length_append]; omega),
      List.nil_append]
  have hstart : Unescaped.Holds ⟨[], 0⟩ [] := ⟨rfl, .inr ⟨rfl, rfl⟩⟩
  have hfits : (unescapeLoop code c ((s ++ code).length + 1) [] (s ++ code)).length < 2 ^ 31 := by
    rw [hloop, List.length_append, List.length_singleton]
    exact hroom
  obtain ⟨u, hrounds, hholds⟩ := unescapeRounds_eq hcode hstart (Nat.lt_succ_self _) hfits
  rw [hloop] at hholds
  have hnew : u.new = (replaceAll code c s ++ [c] ++ [0]).map some :=
    hholds.new.resolve_right fun h => List.append_ne_nil_of_right_ne_nil _ (by simp) h.1
  rw [replaceCode]
  simp only [hrounds, Option.bind_eq_bind, Option.bind_some]
  rw [hnew]
  exact trimLast_append (replaceFrom_nulFree hc hs) hc

/-! ## What comes back at all -/

/-- The buffer has the byte and its terminator at a place that the `int` counts. -/
def Unescaped.Ended (u : Unescaped) (c : UInt8) : Prop :=
  ∃ n, n + 1 < 2 ^ 31 ∧ u.new[n]? = some (some c) ∧ u.new[n + 1]? = some (some 0)

theorem storeAt_byte {b b' : Block} {pos : Int} {x : UInt8} (h : storeAt b pos [x] = some b') :
    0 ≤ pos ∧ b'[pos.toNat]? = some (some x) ∧ ∀ i < pos.toNat, b'[i]? = b[i]? := by
  rw [storeAt] at h
  split at h
  · next hpos =>
    obtain ⟨hle, rfl⟩ := Block.store_eq h
    have htake : (b.take pos.toNat).length = pos.toNat := by
      rw [List.length_take]
      rw [List.length_singleton] at hle
      omega
    refine ⟨hpos, ?_, fun i hi => ?_⟩
    · rw [List.append_assoc, List.getElem?_append_right (le_of_eq htake), htake, Nat.sub_self]
      rfl
    · rw [List.append_assoc, List.getElem?_append_left (by omega), List.getElem?_take_of_lt hi]
  · cases h

theorem Unescaped.append_ended {u u' : Unescaped} {tmp : CStr} {c : UInt8}
    (h : u.append tmp c = some u') : u'.Ended c := by
  simp only [Unescaped.append, Option.bind_eq_bind, Option.bind_eq_some_iff] at h
  obtain ⟨b, -, b', hbyte, h⟩ := h
  split at h
  · next hfits =>
    obtain ⟨b'', hend, hu⟩ := Option.bind_eq_some_iff.mp h
    obtain rfl := Option.some.inj hu
    obtain ⟨hpos, hc, -⟩ := storeAt_byte hbyte
    obtain ⟨-, hzero, hkept⟩ := storeAt_byte hend
    refine ⟨_, ?_, (hkept _ ?_).trans hc, ?_⟩
    · omega
    · omega
    · rw [Int.toNat_add hpos (by decide)] at hzero
      exact hzero
  · cases h

theorem unescapeRounds_ended {code : CStr} {c : UInt8} :
    ∀ {k : Nat} {u u' : Unescaped} {tmp : CStr}, unescapeRounds code c k u tmp = some u' →
      u' = u ∨ u'.Ended c := by
  intro k
  induction k with
  | zero =>
    intro u u' tmp h
    cases h
  | succ k ih =>
    intro u u' tmp h
    rw [unescapeRounds] at h
    split at h
    · exact .inl (Option.some.inj h).symm
    · obtain ⟨v, happend, hrounds⟩ := Option.bind_eq_some_iff.mp h
      rcases ih hrounds with rfl | hended
      · exact .inr (Unescaped.append_ended happend)
      · exact .inr hended

theorem trimLast_length {u : Unescaped} {c : UInt8} {out : CStr} (hu : u.Ended c)
    (h : trimLast u.new c = some out) : out.length + 1 < 2 ^ 31 := by
  obtain ⟨n, hn, hlast, hzero⟩ := hu
  obtain ⟨string, htext, h⟩ := Option.bind_eq_some_iff.mp h
  obtain ⟨hnul, rest, hnew⟩ := Block.text_eq_some_iff.mp htext
  have hget : ∀ {i : Nat}, i < string.length → u.new[i]? = string[i]?.map some := by
    intro i hi
    rw [hnew, List.getElem?_append_left (by rwa [List.length_map]), List.getElem?_map]
  -- the string ends at the terminator at the latest
  have hle : string.length ≤ n + 1 := by
    by_contra hlt
    obtain ⟨x, hx, hx0⟩ := Option.map_eq_some_iff.mp ((hget (by omega)).symm.trans hzero)
    exact hnul (Option.some.inj hx0 ▸ List.mem_of_getElem? hx)
  cases hstring : string.getLast? with
  | none =>
    rw [hstring] at h
    cases h
  | some last =>
    rw [hstring] at h
    obtain ⟨front, rfl⟩ := List.getLast?_eq_some_iff.mp hstring
    rw [List.length_append, List.length_singleton] at hle
    dsimp only at h
    split at h
    · rw [List.length_append, List.length_singleton, Nat.add_sub_cancel,
        Block.text_store_zero htext] at h
      obtain rfl := Option.some.inj h
      omega
    · next hother =>
      obtain rfl := Option.some.inj h
      rw [List.length_append, List.length_singleton]
      -- a string up to the terminator has the byte at its end
      have hne : front.length ≠ n := by
        rintro rfl
        have hfront := (hget (by simp)).symm.trans hlast
        rw [List.getElem?_concat_length] at hfront
        exact hother (Option.some.inj (Option.some.inj hfront))
      omega

/-- Whatever is returned is shorter than what the `int` counts. -/
theorem length_of_replaceCode {s code out : CStr} {c : UInt8}
    (h : replaceCode s code c = some out) : out.length + 1 < 2 ^ 31 := by
  obtain ⟨u, hrounds, htrim⟩ := Option.bind_eq_some_iff.mp h
  rcases unescapeRounds_ended hrounds with rfl | hended
  · cases htrim
  · exact trimLast_length hended htrim

/-! ## Replacing each occurrence -/

theorem replaceCode_iff {s code : CStr} {c : UInt8} (hs : NulFree s) (hcode : code ≠ [])
    (hborder : Borderless code) (hc : c ≠ 0) :
    replaceCode s code c = some (replaceAll code c s) ↔
      (replaceAll code c s).length + 1 < 2 ^ 31 :=
  ⟨length_of_replaceCode, replaceCode_eq hs hcode hborder hc⟩

/-- With room the buffer is left with what the call of the user metadata is taken for. -/
theorem pvStrUnescapeToAscii_eq {s code : CStr} {c : UInt8} (hs : NulFree s) (hcode : code ≠ [])
    (hborder : Borderless code) (hc : c ≠ 0)
    (hroom : (replaceAll code c s).length + 1 < 2 ^ 31) :
    pvStrUnescapeToAscii s code c = some (Json.pvStrUnescapeToAscii s code c) := by
  rw [pvStrUnescapeToAscii_replaceAll hcode hborder]
  exact replaceCode_eq hs hcode hborder hc hroom

/-- **Both functions replace each occurrence** of a code that does not overlap with itself, and
stay inside of their buffer, if and only if the result and the byte behind it are shorter than
2³¹ bytes. -/
theorem replaceCode_replaces_iff {s code : CStr} {c : UInt8} (hs : NulFree s) (hcode : code ≠ [])
    (hborder : Borderless code) (hc : c ≠ 0) :
    (pvStrUnescapeToAscii s code c = some (replaceAll code c s) ↔
      (replaceAll code c s).length + 1 < 2 ^ 31) ∧
    (unescapeUtf8ToApvii s code c = some (replaceAll code c s) ↔
      (replaceAll code c s).length + 1 < 2 ^ 31) :=
  ⟨replaceCode_iff hs hcode hborder hc, replaceCode_iff hs hcode hborder hc⟩

/-- The code of an ampersand, as the addresses of downloads have it. -/
def ampersandCode : CStr := str "\\u0026"

example : replaceAll ampersandCode 38 (str "a\\u0026b\\u0026") = str "a&b&" := by decide

/-- An address with two of them, one of them at its end. -/
theorem replaceCode_replaces_iff_url :
    (pvStrUnescapeToAscii (str "a\\u0026b\\u0026") ampersandCode 38
        = some (replaceAll ampersandCode 38 (str "a\\u0026b\\u0026")) ↔
      (replaceAll ampersandCode 38 (str "a\\u0026b\\u0026")).length + 1 < 2 ^ 31) ∧
    (unescapeUtf8ToApvii (str "a\\u0026b\\u0026") ampersandCode 38
        = some (replaceAll ampersandCode 38 (str "a\\u0026b\\u0026")) ↔
      (replaceAll ampersandCode 38 (str "a\\u0026b\\u0026")).length + 1 < 2 ^ 31) :=
  replaceCode_replaces_iff (by decide) (by decide) (by decide) (by decide)

/-- Of 2³¹ - 1 bytes that have no code in them nothing is right any more: the place behind them
is no `int`. -/
theorem replaceCode_place_overflows :
    let s : CStr := List.replicate 2147483647 97
    NulFree s ∧ Borderless ampersandCode ∧ replaceAll ampersandCode 38 s = s ∧
      pvStrUnescapeToAscii s ampersandCode 38 ≠ some s ∧
      unescapeUtf8ToApvii s ampersandCode 38 ≠ some s := by
  intro s
  have hlen : s.length = 2147483647 := List.length_replicate ..
  have hmem : ∀ c ∈ s, c = 97 := fun c hc => List.eq_of_mem_replicate hc
  have hno : ∀ {code : CStr}, replaceCode s code 38 ≠ some s := by
    intro code h
    have hlt := length_of_replaceCode h
    rw [hlen] at hlt
    omega
  refine ⟨fun h => absurd (hmem 0 h) (by decide), by decide, ?_, hno, hno⟩
  exact replaceAll_of_not_mem fun h => absurd (hmem _ h) (by decide)

end Pantavisor.Utils
