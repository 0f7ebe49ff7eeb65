/-
Pantavisor.Updater.ObjectUrl — how the URL of an object is taken apart
(`trail_download_object` in `updater.c`).

The first colon behind `https://` is taken for that of a port, wherever it stands, and the
number behind it for the end of the host. A host in front of a port so keeps the colon and
the port, and a colon in the path moves the end of the host there (`faithful_iff`).
-/
import Pantavisor.Config.ConfigParser
import Pantavisor.Lib.Block
import Pantavisor.Lib.Decimal

namespace Pantavisor.Updater

open Pantavisor.Lib Pantavisor.Config

/-! ## `strtol` -/

/-- The value of a digit, in the bases up to 16. -/
def digitOf (c : UInt8) : Option Nat :=
  if 48 ≤ c ∧ c ≤ 57 then some (c.toNat - 48)
  else if 97 ≤ c ∧ c ≤ 102 then some (c.toNat - 87)
  else if 65 ≤ c ∧ c ≤ 70 then some (c.toNat - 55)
  else none

def isDigitIn (base : Nat) (c : UInt8) : Bool := (digitOf c).any (· < base)

/-- The base of a number, and how many bytes say so. -/
def baseOf (s : CStr) : Nat × Nat :=
  match s with
  | 48 :: x :: c :: _ =>
    if (x = 120 ∨ x = 88) ∧ isDigitIn 16 c then (16, 2) else (8, 0)
  | 48 :: _ => (8, 0)
  | _ => (10, 0)

/-- What a `long` becomes out of its range. -/
def clampLong (n : Int) : Int := max (-2 ^ 63) (min n (2 ^ 63 - 1))

/-- A number has its sign behind white space. -/
def signAt (s : CStr) : Option UInt8 :=
  (s.dropWhile isSpace).head?.filter fun c => c = 45 ∨ c = 43

/-- Where the base of a number is looked for. -/
def bodyAt (s : CStr) : Nat := (s.takeWhile isSpace).length + if (signAt s).isSome then 1 else 0

/-- Where the digits of a number begin. -/
def digitsAt (s : CStr) : Nat := bodyAt s + (baseOf (s.drop (bodyAt s))).2

def digitsOf (s : CStr) : CStr :=
  (s.drop (digitsAt s)).takeWhile (isDigitIn (baseOf (s.drop (bodyAt s))).1)

/-- The digits as a number. -/
def digitsNumber (base : Nat) (digits : CStr) : Int :=
  ((digits.foldl (fun n c => base * n + (digitOf c).getD 0) 0 : Nat) : Int)

/-- `strtol` with the base 0: the number and the offset of its end, which is 0 for none. -/
def strtol (s : CStr) : Int × Nat :=
  let value := digitsNumber (baseOf (s.drop (bodyAt s))).1 (digitsOf s)
  if digitsOf s = [] then (0, 0)
  else (clampLong (if signAt s = some 45 then -value else value), digitsAt s + (digitsOf s).length)

/-! ## The code -/

def colon : UInt8 := 58

def slash : UInt8 := 47

/-- Where `strchr` finds a byte. -/
def strchrAt (c : UInt8) (s : CStr) : Option Nat := if c ∈ s then some (s.idxOf c) else none

/-- What a request goes to. -/
structure ObjectTarget where
  host : CStr
  port : Int
  path : CStr
  deriving DecidableEq, Repr

/-- The port, and the offset of `end`, in what stands behind `https://`. -/
def portAndEnd (start : CStr) : Option (Int × Nat) :=
  match strchrAt colon start with
  | some i =>
    let (number, used) := strtol (start.drop (i + 1))
    let p := wrapInt number
    some (if 0 < p then p else 443, i + 1 + used)
  | none => (strchrAt slash start).map fun e => (443, e)

/-- The copy of the host, of which `n` is an `int`: one that is no size is not allocated. -/
def hostCopy (start : CStr) (offset : Nat) : Option CStr :=
  let n := intOfSize offset
  if 0 ≤ n ∧ n + 1 < 2 ^ 31 then
    (((Block.realloc [] (n.toNat + 1)).strncpy (start ++ [0]) n.toNat).bind
      (·.store n.toNat [0])).bind Block.text
  else none

/-- The part of `trail_download_object` that fills in the request. -/
def trailDownloadTarget (geturl : CStr) : Option ObjectTarget :=
  if (str "https://").isPrefixOf geturl then
    (portAndEnd (geturl.drop 8)).bind fun (port, offset) =>
      (hostCopy (geturl.drop 8) offset).map fun host => ⟨host, port, (geturl.drop 8).drop offset⟩
  else none

/-! ## URLs -/

/-- A URL of an object: a host, which has a colon only if it stands in brackets, a port or
none, and the rest from its slash on. -/
structure ObjectUrl where
  host : CStr
  port : Option (Fin 65536)
  rest : CStr
  hostNulFree : NulFree host
  hostNoSlash : slash ∉ host
  hostColon : colon ∉ host ∨ host.getLast? = some 93
  restNulFree : NulFree rest
  restSlash : rest.head? = some slash

/-- The text of a port. -/
def portText (port : Option (Fin 65536)) : CStr := port.elim [] fun p => colon :: digitText p

/-- What stands behind `https://`. -/
def ObjectUrl.start (u : ObjectUrl) : CStr := u.host ++ portText u.port ++ u.rest

def ObjectUrl.text (u : ObjectUrl) : CStr := str "https://" ++ u.start

/-- The request goes to what the URL says. -/
def Faithful (u : ObjectUrl) : Prop :=
  trailDownloadTarget u.text
    = some ⟨u.host, (u.port.elim 443 fun p => (p.val : Int)), u.rest⟩

instance (u : ObjectUrl) : Decidable (Faithful u) := inferInstanceAs (Decidable (_ = _))

/-! ## Where a number ends -/

theorem not_bracket_of_digit {base : Nat} {c : UInt8} (h : isDigitIn base c = true) : c ≠ 93 := by
  rintro rfl
  rw [isDigitIn, show digitOf 93 = none by decide] at h
  cases h

/-- A number does not end with a bracket. -/
theorem strtol_last {s : CStr} (h : (strtol s).2 ≠ 0) :
    ∃ c, s[(strtol s).2 - 1]? = some c ∧ c ≠ 93 := by
  unfold strtol at h ⊢
  dsimp only at h ⊢
  split at h
  · exact absurd rfl h
  · rename_i hsome
    rw [if_neg hsome]
    have hpos := List.length_pos_of_ne_nil hsome
    have hlast : (digitsOf s)[(digitsOf s).length - 1]? = some ((digitsOf s).getLast hsome) := by
      rw [← List.getLast?_eq_getElem?, List.getLast?_eq_some_getLast hsome]
    have hat : (s.drop (digitsAt s))[(digitsOf s).length - 1]?
        = some ((digitsOf s).getLast hsome) := by
      rw [← hlast]
      obtain ⟨t, ht⟩ : digitsOf s <+: s.drop (digitsAt s) := List.takeWhile_prefix _
      rw [← ht]
      exact List.getElem?_append_left (by omega)
    refine ⟨(digitsOf s).getLast hsome, ?_, ?_⟩
    · rw [← hat, List.getElem?_drop]
      dsimp only
      congr 1
      omega
    · exact not_bracket_of_digit (List.mem_takeWhile_imp (List.getLast_mem hsome))

/-! ## The host -/

/-- Of a string and its terminator `strncpy` takes a part of the string. -/
theorem takeWhile_take_terminated {s : CStr} (hs : NulFree s) (n : Nat) :
    ((s ++ [0]).take n).takeWhile (· != 0) = s.take n := by
  have hall : ∀ {t : CStr}, NulFree t → t.takeWhile (· != 0) = t := by
    intro t ht
    rw [List.takeWhile_eq_self_iff]
    exact fun c hc => by simpa using fun h0 : c = 0 => ht (h0 ▸ hc)
  rcases Nat.lt_or_ge s.length n with hlt | hle
  · have hlen : (s ++ [(0 : UInt8)]).length ≤ n := by
      rw [List.length_append, List.length_singleton]
      omega
    rw [List.take_of_length_le hlen, List.take_of_length_le (Nat.le_of_lt hlt)]
    exact takeWhile_ne_append hs
  · rw [List.take_append_of_le_length hle]
    exact hall fun h => hs (List.mem_of_mem_take h)

/-- The copy of a host is what stands before its end, as far as an `int` holds that. -/
theorem hostCopy_eq {start : CStr} (hstart : NulFree start) (offset : Nat) :
    hostCopy start offset = if 0 ≤ intOfSize offset ∧ intOfSize offset + 1 < 2 ^ 31 then
      some (start.take (intOfSize offset).toNat) else none := by
  unfold hostCopy
  dsimp only
  split
  · generalize (intOfSize offset).toNat = n
    have htake : NulFree (start.take n) := fun h => hstart (List.mem_of_mem_take h)
    have hlen : (start.take n).length ≤ n := List.length_take_le _ _
    have hblock : (Block.realloc [] (n + 1)).length = n + 1 := Block.length_realloc _ _
    rw [Block.strncpy, if_pos ⟨by omega, .inr (by simp)⟩, Option.bind_some,
      takeWhile_take_terminated hstart]
    have hfront : List.length ((start.take n).map some ++
        List.replicate (n - (start.take n).length) (some 0)) = n := by
      rw [List.length_append, List.length_map, List.length_replicate]
      omega
    have hroom : n + [(0 : UInt8)].length ≤ List.length ((start.take n).map some ++
        List.replicate (n - (start.take n).length) (some 0) ++
          (Block.realloc [] (n + 1)).drop n) := by
      rw [List.length_append, hfront, List.length_drop, hblock, List.length_singleton]
      omega
    rw [Block.store, if_pos hroom, Option.bind_some, List.take_left' hfront]
    have hzeros : ∀ (k : Nat) (rest : Block), ∃ rest',
        List.replicate k (some (0 : UInt8)) ++ (some 0 :: rest) = some 0 :: rest' := by
      intro k rest
      cases k with
      | zero => exact ⟨rest, rfl⟩
      | succ k => exact ⟨_, rfl⟩
    obtain ⟨rest, hrest⟩ := hzeros (n - (start.take n).length)
      (((start.take n).map some ++ List.replicate (n - (start.take n).length) (some 0) ++
        (Block.realloc [] (n + 1)).drop n).drop (n + [(0 : UInt8)].length))
    rw [List.append_assoc, List.append_assoc, List.map_singleton, List.singleton_append, hrest]
    exact Block.text_append_zero htake rest
  · rfl

/-! ## The parts -/

section Parts

variable (u : ObjectUrl)

theorem digitText_noSlash (n : Nat) : slash ∉ digitText n ∧ NulFree (digitText n) := by
  constructor
  · intro h
    exact absurd (isDigit_of_mem_digitText h) (by decide)
  · intro h
    exact absurd (isDigit_of_mem_digitText h) (by decide)

/-- A port with its colon has at most 6 bytes. -/
theorem length_portText (port : Option (Fin 65536)) :
    (portText port).length ≤ 6 ∧ ((portText port).length = 0 ↔ port = none) := by
  cases port with
  | none => exact ⟨Nat.zero_le _, by simp [portText]⟩
  | some p =>
    have hdigits : (digitText p).length ≤ 5 := by
      rw [digitText, List.length_map]
      exact (Nat.length_toDigits_le_iff (by decide) (by decide)).mpr (by omega)
    constructor
    · show (colon :: digitText p).length ≤ 6
      rw [List.length_cons]
      omega
    · simp [portText]

theorem ObjectUrl.startNulFree : NulFree u.start := by
  intro h
  rcases List.mem_append.mp h with h | h
  · rcases List.mem_append.mp h with h | h
    · exact u.hostNulFree h
    · cases hport : u.port with
      | none => simp [portText, hport] at h
      | some p =>
        rw [hport] at h
        rcases List.mem_cons.mp h with h | h
        · exact absurd h (by decide)
        · exact (digitText_noSlash p).2 h
  · exact u.restNulFree h

theorem ObjectUrl.text_eq : (str "https://").isPrefixOf u.text = true ∧ u.text.drop 8 = u.start :=
  ⟨List.isPrefixOf_iff_prefix.mpr (List.prefix_append _ _), List.drop_left' (by decide)⟩

/-- What the request takes from what stands behind `https://`. -/
theorem trailDownloadTarget_text : trailDownloadTarget u.text =
    (portAndEnd u.start).bind fun (port, offset) =>
      (hostCopy u.start offset).map fun host => ⟨host, port, u.start.drop offset⟩ := by
  obtain ⟨hscheme, hdrop⟩ := u.text_eq
  rw [trailDownloadTarget, if_pos hscheme, hdrop]

end Parts

theorem getElem?_strchrAt {c : UInt8} {s : CStr} {i : Nat} (h : strchrAt c s = some i) :
    s[i]? = some c := by
  unfold strchrAt at h
  split at h
  · rename_i hmem
    obtain rfl := Option.some.inj h
    rw [List.getElem?_eq_getElem (List.idxOf_lt_length_iff.mpr hmem), List.getElem_idxOf]
  · cases h

/-- An end that was found at a colon has no bracket before it. -/
theorem before_end {start : CStr} {port : Int} {offset : Nat}
    (h : portAndEnd start = some (port, offset)) (hcolon : colon ∈ start) :
    (∃ i < offset, start[i]? = some colon) ∧ ∃ c, start[offset - 1]? = some c ∧ c ≠ 93 := by
  have hfound : strchrAt colon start = some (start.idxOf colon) := if_pos hcolon
  have hat := getElem?_strchrAt hfound
  unfold portAndEnd at h
  rw [hfound] at h
  obtain rfl : offset = start.idxOf colon + 1 + (strtol (start.drop (start.idxOf colon + 1))).2 :=
    (congrArg Prod.snd (Option.some.inj h)).symm
  refine ⟨⟨start.idxOf colon, by omega, hat⟩, ?_⟩
  by_cases hused : (strtol (start.drop (start.idxOf colon + 1))).2 = 0
  · refine ⟨colon, ?_, by decide⟩
    rw [hused, Nat.add_zero, Nat.add_sub_cancel, hat]
  · obtain ⟨c, hc, hne⟩ := strtol_last hused
    refine ⟨c, ?_, hne⟩
    rw [List.getElem?_drop] at hc
    rw [← hc]
    congr 1
    omega

/-- **A URL is taken apart as it is written** just if there is no colon behind `https://`, and
the host is not too long for an `int`. -/
theorem faithful_iff (u : ObjectUrl) :
    Faithful u ↔ u.port = none ∧ colon ∉ u.host ∧ colon ∉ u.rest ∧ u.host.length + 1 < 2 ^ 31 := by
  rw [Faithful, trailDownloadTarget_text]
  have hrest : 0 < u.rest.length := by
    cases hr : u.rest with
    | nil => exact absurd u.restSlash (by rw [hr]; simp)
    | cons c s => exact Nat.succ_pos _
  have hlength : u.start.length = u.host.length + (portText u.port).length + u.rest.length := by
    rw [ObjectUrl.start, List.length_append, List.length_append]
  constructor
  · intro h
    obtain ⟨⟨port, offset⟩, hend, h⟩ := Option.bind_eq_some_iff.mp h
    obtain ⟨host, hhost, htarget⟩ := Option.map_eq_some_iff.mp h
    obtain ⟨rfl, -, hpath⟩ := ObjectTarget.mk.inj htarget
    rw [hostCopy_eq u.startNulFree] at hhost
    split at hhost
    · rename_i hint
      -- the rest tells where the end is, and the host what an `int` keeps of that
      have hoffset : offset = u.host.length + (portText u.port).length := by
        have hlen := congrArg List.length hpath
        rw [List.length_drop, hlength] at hlen
        omega
      have hn : (intOfSize offset).toNat = u.host.length := by
        have hlen := congrArg List.length (Option.some.inj hhost)
        rw [List.length_take, hlength] at hlen
        omega
      obtain ⟨hsmall, hnone⟩ := length_portText u.port
      have hmod := intOfSize_emod offset
      have hport : u.port = none := by
        refine hnone.mp ?_
        omega
      rw [hnone.mpr hport, Nat.add_zero] at hoffset
      subst hoffset
      have hstart : u.start = u.host ++ u.rest := by
        rw [ObjectUrl.start, hport]
        exact congrArg (· ++ u.rest) (List.append_nil _)
      have hcolon : colon ∉ u.start := by
        intro hmem
        obtain ⟨⟨i, hi, hat⟩, c, hc, hne⟩ := before_end hend hmem
        rw [hstart, List.getElem?_append_left (by omega)] at hat hc
        have hbracket := u.hostColon.resolve_left fun hnot => hnot (List.mem_of_getElem? hat)
        rw [List.getLast?_eq_getElem?, hc] at hbracket
        exact hne (Option.some.inj hbracket)
      rw [hstart, List.mem_append, not_or] at hcolon
      exact ⟨hport, hcolon.1, hcolon.2, by omega⟩
    · cases hhost
  · rintro ⟨hport, hhost, hpath, hfits⟩
    have hstart : u.start = u.host ++ u.rest := by
      rw [ObjectUrl.start, hport]
      exact congrArg (· ++ u.rest) (List.append_nil _)
    have hcolon : colon ∉ u.start := by
      rw [hstart, List.mem_append, not_or]
      exact ⟨hhost, hpath⟩
    have hslash : strchrAt slash u.start = some u.host.length := by
      obtain ⟨s, hs⟩ : ∃ s, u.rest = slash :: s := List.head?_eq_some_iff.mp u.restSlash
      have hmem : slash ∈ u.start := by
        rw [hstart, hs]
        simp
      rw [strchrAt, if_pos hmem, hstart, hs, List.idxOf_append_of_notMem u.hostNoSlash]
      simp
    have hn := intOfSize_eq (show u.host.length < 2 ^ 31 by omega)
    have hend : portAndEnd u.start = some (443, u.host.length) := by
      rw [portAndEnd, show strchrAt colon u.start = none from if_neg hcolon, hslash]
      rfl
    rw [hend, Option.bind_some]
    dsimp only
    rw [hostCopy_eq u.startNulFree, hn, if_pos (by omega), Int.toNat_natCast, hstart,
      List.take_left, List.drop_left, hport]
    rfl

/-- With a port the host is taken with it. -/
theorem port_stays_with_host :
    ∃ u : ObjectUrl, u.text = str "https://h:8080/o" ∧ ¬ Faithful u ∧
      trailDownloadTarget u.text = some ⟨str "h:8080", 8080, str "/o"⟩ :=
  ⟨⟨str "h", some 8080, str "/o", by decide, by decide, by decide, by decide, by decide⟩,
    by decide, by decide +kernel, by decide +kernel⟩

end Pantavisor.Updater
