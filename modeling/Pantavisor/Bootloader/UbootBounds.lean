/-
Pantavisor.Bootloader.UbootBounds — where the copy loop of the U-Boot backend goes on an
image of any contents.

The loop goes from the start of one entry to that of the next. An entry that ends with the
image, or with the 65535th byte that was read, has no next one: the index is 16 bits wide and
the loop begins again (`ubootCopyLoop_never`). Where an entry begins before that at which the
loop may stop, the loop gets there, and what it copied is not longer than what it went over
(`ubootCopyLoop_ends`).
-/
import Pantavisor.Bootloader.Uboot

namespace Pantavisor.Bootloader

open Pantavisor.Lib

/-! ## The loop -/

/-- Contents of the file or the partition. -/
structure UbootContents where
  bytes : CStr
  fits : bytes.length ≤ mtdEnvSize

/-- The buffer that the contents were read into. -/
def UbootContents.image (c : UbootContents) : CStr := readInto mtdEnvSize c.bytes

/-- The index that the loop takes after one at which it does not stop. -/
def ubootNext (old : CStr) (i : Nat) : Nat :=
  if (old.drop i).head? = some 0 then (i + 1) % 65536
  else ((i + (cstrAt old i).length) % 65536 + 1) % 65536

/-- The indices that the loop gets to. -/
inductive Reached (old : CStr) (ret : Nat) : Nat → Prop where
  | start : 0 < ret → Reached old ret 0
  | next {i : Nat} : Reached old ret i → ubootStop (old.drop i) = .ok false →
      ubootNext old i < ret → Reached old ret (ubootNext old i)

/-- The loop ends inside its buffers: its tests, `strlen` and the copies do, and so does
`memcmp`, which is to look at as many bytes as the key has. -/
structure InsideBuffers (c : UbootContents) (key : CStr) : Prop where
  ends : ∃ fuel new, ubootCopyLoop c.image key c.bytes.length fuel 0 [] = .ok new
  compares : ∀ i, Reached c.image c.bytes.length i →
    ubootStop (c.image.drop i) = .ok false → (c.image.drop i).head? ≠ some 0 →
      i + key.length ≤ mtdEnvSize

/-! ## The contents -/

/-- A place behind a NUL, or the start. -/
def Begins (old : CStr) (p : Nat) : Prop := p = 0 ∨ old[p - 1]? = some 0

/-- Two 0xFF or two NUL bytes. -/
def StopAt (old : CStr) (p : Nat) : Prop :=
  ∃ c, (c = 0xFF ∨ c = 0) ∧ old[p]? = some c ∧ old[p + 1]? = some c

/-- The contents can be scanned for a key. `stop`: a place behind a NUL, or the start, is
behind what was read, or has two 0xFF or two NUL bytes in the image. `keys`: the key is not
longer than the rest of the image from any entry on that stands before the first such place. -/
structure Scannable (c : UbootContents) (key : CStr) : Prop where
  stop : ∃ p < mtdEnvSize, Begins c.image p ∧ (c.bytes.length ≤ p ∨ StopAt c.image p)
  keys : ∀ p < c.bytes.length, Begins c.image p →
    (∀ q ≤ p, Begins c.image q → ¬ StopAt c.image q) → c.image[p]? ≠ some 0 →
      p + key.length ≤ mtdEnvSize

theorem UbootContents.length_image (c : UbootContents) : c.image.length = mtdEnvSize := by
  have hfits := c.fits
  rw [UbootContents.image, readInto, List.length_append, List.length_replicate]
  omega

/-! ## A step -/

section Step

variable {old key : CStr} {i j p ret : Nat}

theorem head?_drop_eq : (old.drop i).head? = old[i]? := by
  rw [List.head?_eq_getElem?, List.getElem?_drop, Nat.add_zero]

theorem ubootStop_true_iff : ubootStop (old.drop i) = .ok true ↔ StopAt old i := by
  have hfirst : old[i]? = (old.drop i)[0]? := by rw [List.getElem?_drop, Nat.add_zero]
  have hsecond : old[i + 1]? = (old.drop i)[1]? := by rw [List.getElem?_drop]
  rw [StopAt, hfirst, hsecond]
  match old.drop i with
  | [] => simp [ubootStop]
  | [c] =>
    by_cases hc : c = 0xFF ∨ c = 0
    · simp [ubootStop, hc]
    · simp [ubootStop, hc]
  | c :: c' :: rest =>
    by_cases hc : c = 0xFF ∨ c = 0
    · simp only [ubootStop, if_pos hc, Except.ok.injEq, decide_eq_true_eq]
      constructor
      · rintro rfl
        exact ⟨c', hc, rfl, rfl⟩
      · rintro ⟨d, -, hd, hd'⟩
        exact (Option.some.inj hd').trans (Option.some.inj hd).symm
    · simp only [ubootStop, if_neg hc, Except.ok.injEq, Bool.false_eq_true, false_iff]
      rintro ⟨d, hd, hcd, -⟩
      exact hc (Option.some.inj hcd ▸ hd)

/-- There are two bytes to look at. -/
theorem ubootStop_inside (h : i + 1 < old.length) (hstop : ¬ StopAt old i) :
    ubootStop (old.drop i) = .ok false := by
  cases htest : ubootStop (old.drop i) with
  | ok b =>
    cases b with
    | false => rfl
    | true => exact absurd (ubootStop_true_iff.mp htest) hstop
  | error f =>
    have hlen : (old.drop i).length = old.length - i := List.length_drop
    match hd : old.drop i with
    | [] => rw [hd, List.length_nil] at hlen; omega
    | [c] => rw [hd, List.length_singleton] at hlen; omega
    | c :: c' :: rest =>
      rw [hd, ubootStop] at htest
      split at htest <;> cases htest

/-- A string ends at the first NUL. -/
theorem length_cstrAt_le (h : old[i + j]? = some 0) : (cstrAt old i).length ≤ j := by
  by_contra hlt
  have hget : (cstrAt old i)[j]? = some 0 := by
    rw [← h, ← List.getElem?_drop]
    have hsplit := List.takeWhile_append_dropWhile (p := (· != (0 : UInt8))) (l := old.drop i)
    conv_rhs => rw [← hsplit]
    have hj : j < (cstrAt old i).length := by omega
    exact (List.getElem?_append_left hj).symm
  have hne := List.mem_takeWhile_imp (List.mem_of_getElem? hget)
  simp at hne

/-- A string that ends in the image has a NUL behind it. -/
theorem getElem?_cstrAt (h : i + (cstrAt old i).length < old.length) :
    old[i + (cstrAt old i).length]? = some 0 := by
  have hsplit := List.takeWhile_append_dropWhile (p := (· != (0 : UInt8))) (l := old.drop i)
  rw [← List.getElem?_drop, ← hsplit, cstrAt, List.getElem?_append_right (Nat.le_refl _),
    Nat.sub_self]
  cases hd : (old.drop i).dropWhile (· != (0 : UInt8)) with
  | nil =>
    rw [hd, List.append_nil] at hsplit
    have hlen := congrArg List.length hsplit
    rw [List.length_drop] at hlen
    rw [cstrAt] at h
    omega
  | cons c s =>
    have hhead := List.head_dropWhile_not (p := (· != (0 : UInt8))) (l := old.drop i)
      (by rw [hd]; simp)
    simpa [hd] using hhead

/-- Before a place behind a NUL the loop goes on, but not over the place. -/
theorem ubootNext_le (hbegins : Begins old p) (hp : p < mtdEnvSize) (hi : i < p) :
    i < ubootNext old i ∧ ubootNext old i ≤ p ∧ i + (cstrAt old i).length < p := by
  have hnul : old[p - 1]? = some 0 := hbegins.resolve_left (by omega)
  have hp' : p < 65536 := hp
  have hle : (cstrAt old i).length ≤ p - 1 - i := by
    refine length_cstrAt_le ?_
    rwa [Nat.add_sub_cancel' (by omega)]
  refine ⟨?_, ?_, by omega⟩
  · rw [ubootNext]
    split <;> omega
  · rw [ubootNext]
    split <;> omega

/-- The next index is that of a place behind a NUL. -/
theorem begins_ubootNext (hlen : old.length = mtdEnvSize)
    (hin : (old.drop i).head? = some 0 ∨ i + (cstrAt old i).length < old.length) :
    Begins old (ubootNext old i) := by
  have hsize : old.length = 65536 := hlen
  rw [ubootNext]
  split
  · rename_i hnul
    rw [head?_drop_eq] at hnul
    have hi := (List.getElem?_eq_some_iff.mp hnul).1
    by_cases hwrap : i + 1 = 65536
    · exact .inl (by omega)
    · refine .inr ?_
      rwa [Nat.mod_eq_of_lt (by omega), Nat.add_sub_cancel]
  · rename_i hne
    have hinside := hin.resolve_left hne
    by_cases hwrap : i + (cstrAt old i).length + 1 = 65536
    · exact .inl (by omega)
    · refine .inr ?_
      rw [Nat.mod_eq_of_lt (show i + (cstrAt old i).length < 65536 by omega),
        Nat.mod_eq_of_lt (by omega), Nat.add_sub_cancel]
      exact getElem?_cstrAt hinside

/-! ## The run -/

/-- **The loop gets to a place** at which it may stop, and copies no more than it goes over. -/
theorem ubootCopyLoop_ends (hlen : old.length = mtdEnvSize) (hp : p < mtdEnvSize)
    (hbegins : Begins old p) (hend : ret ≤ p ∨ StopAt old p) {fuel : Nat} {new : CStr}
    (hfuel : p - i < fuel) (hi : i ≤ p) (hnew : new.length ≤ i) :
    ∃ r, ubootCopyLoop old key ret fuel i new = .ok r := by
  induction fuel generalizing i new with
  | zero => omega
  | succ fuel ih =>
    rw [ubootCopyLoop]
    by_cases hret : ret ≤ i
    · exact ⟨new, if_pos hret⟩
    rw [if_neg hret]
    by_cases hstop : StopAt old i
    · rw [ubootStop_true_iff.mpr hstop]
      exact ⟨new, rfl⟩
    have hlt : i < p := by
      rcases Nat.lt_or_eq_of_le hi with h | rfl
      · exact h
      · exact absurd hend (not_or.mpr ⟨hret, hstop⟩)
    obtain ⟨hafter, hle, hinside⟩ := ubootNext_le hbegins hp hlt
    rw [ubootStop_inside (by omega) hstop]
    dsimp only
    split
    · rename_i hnul
      rw [ubootNext, if_pos hnul] at hafter hle
      exact ih (by omega) hle (by omega)
    · rename_i hne
      rw [ubootNext, if_neg hne] at hafter hle
      have hp' : p < 65536 := hp
      rw [if_neg (by omega)]
      split
      · exact ih (by omega) hle (by omega)
      · rw [if_neg (by rw [mtdEnvSize]; omega)]
        refine ih (by omega) hle ?_
        rw [List.length_append, List.length_append, List.length_singleton]
        omega

/-- **The loop never ends** as it should where there is no such place. -/
theorem ubootCopyLoop_never (hlen : old.length = mtdEnvSize)
    (hnone : ∀ p < mtdEnvSize, Begins old p → p < ret ∧ ¬ StopAt old p) (fuel : Nat) {new r : CStr}
    (hi : i < mtdEnvSize) (hbegins : Begins old i) :
    ubootCopyLoop old key ret fuel i new ≠ .ok r := by
  induction fuel generalizing i new with
  | zero => simp [ubootCopyLoop]
  | succ fuel ih =>
    obtain ⟨hret, hstop⟩ := hnone i hi hbegins
    have hnext : ubootNext old i < mtdEnvSize := by
      show ubootNext old i < 65536
      rw [ubootNext]
      split <;> exact Nat.mod_lt _ (by decide)
    rw [ubootCopyLoop, if_neg (by omega)]
    split
    · simp
    · rename_i htrue
      exact absurd (ubootStop_true_iff.mp htrue) hstop
    · split
      · rename_i hnul
        have hon := begins_ubootNext hlen (.inl hnul)
        rw [ubootNext, if_pos hnul] at hon hnext
        exact ih hnext hon
      · rename_i hne
        split
        · simp
        · rename_i hinside
          have hon := begins_ubootNext hlen (.inr (by omega : i + (cstrAt old i).length < old.length))
          rw [ubootNext, if_neg hne] at hon hnext
          dsimp only
          split
          · exact ih hnext hon
          · split
            · simp
            · exact ih hnext hon

/-- What the loop has behind it when it gets to an index before that place. -/
theorem Reached.before (hlen : old.length = mtdEnvSize) (hp : p < mtdEnvSize)
    (hbegins : Begins old p) (hend : ret ≤ p ∨ StopAt old p) (h : Reached old ret i) :
    i < ret ∧ i ≤ p ∧ Begins old i ∧ ∀ q < i, Begins old q → ¬ StopAt old q := by
  induction h with
  | start hret => exact ⟨hret, Nat.zero_le _, .inl rfl, fun q hq => absurd hq (Nat.not_lt_zero q)⟩
  | @next i h hstop hnext ih =>
    obtain ⟨hret, hi, -, hbefore⟩ := ih
    have hnot : ¬ StopAt old i := by
      intro hat
      rw [ubootStop_true_iff.mpr hat] at hstop
      cases hstop
    have hlt : i < p := by
      rcases Nat.lt_or_eq_of_le hi with h | rfl
      · exact h
      · exact absurd hend (not_or.mpr ⟨by omega, hnot⟩)
    obtain ⟨hafter, hle, hinside⟩ := ubootNext_le hbegins hp hlt
    have hp' : p < 65536 := hp
    have hsize : old.length = 65536 := hlen
    refine ⟨hnext, hle, begins_ubootNext hlen (.inr (by omega)), fun q hq hon => ?_⟩
    rcases Nat.lt_trichotomy q i with h | rfl | h
    · exact hbefore q h hon
    · exact hnot
    · -- between an index and the next one there is no place behind a NUL
      have hover := (ubootNext_le hon (by omega : q < mtdEnvSize) h).2.1
      omega

/-- The loop gets to every place behind a NUL, up to the first where it stops. -/
theorem reached_of_begins (hlen : old.length = mtdEnvSize) (hp : p < mtdEnvSize)
    (hbegins : Begins old p) (hret : p < ret)
    (hnone : ∀ q < p, Begins old q → ¬ StopAt old q) : Reached old ret p := by
  have hgo : ∀ n i, p - i = n → i ≤ p → Begins old i → Reached old ret i → Reached old ret p := by
    intro n
    induction n using Nat.strong_induction_on with
    | _ n ih =>
      intro i hn hi hon hreached
      rcases Nat.lt_or_eq_of_le hi with hlt | rfl
      · obtain ⟨hafter, hle, hinside⟩ := ubootNext_le hbegins hp hlt
        have hp' : p < 65536 := hp
        have hsize : old.length = 65536 := hlen
        have hstop := ubootStop_inside (by omega) (hnone i hlt hon)
        exact ih (p - ubootNext old i) (by omega) _ rfl hle
          (begins_ubootNext hlen (.inr (by omega))) (.next hreached hstop (by omega))
      · exact hreached
  exact hgo p 0 rfl (Nat.zero_le p) (.inl rfl) (.start (by omega))

end Step

/-- **The rewrite stays inside its buffers** just if the contents can be scanned for the key. -/
theorem insideBuffers_iff (c : UbootContents) (key : CStr) :
    InsideBuffers c key ↔ Scannable c key := by
  have hlen := c.length_image
  have hstop : (∃ fuel new, ubootCopyLoop c.image key c.bytes.length fuel 0 [] = .ok new) ↔
      ∃ p < mtdEnvSize, Begins c.image p ∧ (c.bytes.length ≤ p ∨ StopAt c.image p) := by
    constructor
    · rintro ⟨fuel, new, h⟩
      by_contra hnone
      refine ubootCopyLoop_never hlen (fun p hp hon => ?_) fuel (by decide) (.inl rfl) h
      constructor
      · exact not_le.mp fun hle => hnone ⟨p, hp, hon, .inl hle⟩
      · exact fun hat => hnone ⟨p, hp, hon, .inr hat⟩
    · rintro ⟨p, hp, hon, hend⟩
      obtain ⟨new, h⟩ : ∃ new, ubootCopyLoop c.image key c.bytes.length (p - 0 + 1) 0 [] = .ok new :=
        ubootCopyLoop_ends hlen hp hon hend (Nat.lt_succ_self _) (Nat.zero_le p) (Nat.le_refl 0)
      exact ⟨_, new, h⟩
  constructor
  · intro h
    obtain ⟨p, hp, hon, hend⟩ := hstop.mp h.ends
    refine ⟨⟨p, hp, hon, hend⟩, fun q hq hbegins hnone hne => ?_⟩
    have hlt : q < p := by
      by_contra hge
      rcases hend with hend | hend
      · omega
      · exact hnone p (by omega) hon hend
    have hp' : p < 65536 := hp
    have hsize : c.image.length = 65536 := hlen
    have hreached := reached_of_begins hlen (by omega) hbegins hq
      fun r hr => hnone r (Nat.le_of_lt hr)
    refine h.compares q hreached (ubootStop_inside (by omega) (hnone q (Nat.le_refl q) hbegins)) ?_
    rwa [head?_drop_eq]
  · intro h
    obtain ⟨p, hp, hon, hend⟩ := h.stop
    refine ⟨hstop.mpr h.stop, fun i hreached hgoes hne => ?_⟩
    obtain ⟨hret, -, hbegins, hbefore⟩ := hreached.before hlen hp hon hend
    refine h.keys i hret hbegins (fun q hq hq' => ?_) (by rwa [← head?_drop_eq])
    rcases Nat.lt_or_eq_of_le hq with hlt | rfl
    · exact hbefore q hlt hq'
    · intro hat
      rw [ubootStop_true_iff.mpr hat] at hgoes
      cases hgoes

/-- One entry as long as the image, with its NUL: the loop begins again behind it. -/
theorem full_entry_begins_again :
    ∃ c : UbootContents, c.bytes = List.replicate 65535 97 ++ [0] ∧
      ¬ InsideBuffers c (str "pv_try") := by
  have hlength : (List.replicate 65535 (97 : UInt8) ++ [0]).length = 65536 := by
    rw [List.length_append, List.length_replicate, List.length_singleton]
  obtain ⟨c, hc⟩ : ∃ c : UbootContents, c.bytes = List.replicate 65535 97 ++ [0] :=
    ⟨⟨_, Nat.le_of_eq hlength⟩, rfl⟩
  refine ⟨c, hc, fun h => ?_⟩
  obtain ⟨fuel, new, hends⟩ := h.ends
  have himage : c.image = List.replicate 65535 97 ++ [0] := by
    rw [UbootContents.image, readInto, hc, hlength]
    exact List.append_nil _
  have hletters : ∀ i < 65535, c.image[i]? = some 97 := by
    intro i hi
    rw [himage, List.getElem?_append_left (by rwa [List.length_replicate]),
      List.getElem?_replicate_of_lt hi]
  refine ubootCopyLoop_never c.length_image (fun p hp hon => ?_) fuel (by decide) (.inl rfl) hends
  -- the one NUL is the last byte
  have hp' : p < 65536 := hp
  obtain rfl : p = 0 := by
    rcases hon with rfl | hnul
    · rfl
    · by_contra hne
      rw [hletters (p - 1) (by omega)] at hnul
      cases hnul
  refine ⟨by rw [hc, hlength]; omega, ?_⟩
  rintro ⟨b, hb, hfirst, -⟩
  rw [hletters 0 (by omega)] at hfirst
  rw [← Option.some.inj hfirst] at hb
  exact absurd hb (by decide)

end Pantavisor.Bootloader
