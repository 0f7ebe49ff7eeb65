/-
Pantavisor.Updater.FirstBoot — the upload of the factory revision (`trail_put_object`,
`trail_put_objects` and `trail_first_boot` in `updater.c`).

An object whose contents are not those of its name is skipped, and the log says so, but the
result is still the one it was initialised with. That is the result of a failure: it ends the
pass, and the trail is not posted (`triesAll_iff`).
-/
import Pantavisor.Lib.Block
import Pantavisor.Lib.Decimal

namespace Pantavisor.Updater

open Pantavisor.Lib

/-! ## One object -/

/-- What is looked at of the response to `POST /objects/`. -/
structure PostResponse where
  code : Int
  authOk : Bool
  signedPuturl : Bool
  deriving DecidableEq, Repr

/-- `struct pv_object`, with what is read at its path, if it can be opened, and the outcomes of
the calls of `trail_put_object`. -/
structure PutObject where
  name : CStr
  id : CStr
  content : Option CStr
  post : Option PostResponse
  tlsReq : Bool
  /-- the code of the response to the upload -/
  upload : Option Int
  deriving DecidableEq, Repr

/-- A digit of `%x` -/
def hexDigitText (d : Nat) : UInt8 := if d < 10 then (48 + d).toUInt8 else (87 + d).toUInt8

/-- The digest in `%02x`. -/
def shaText (sha : Vector UInt8 32) : CStr :=
  sha.toList.flatMap fun b => [hexDigitText (b.toNat / 16), hexDigitText (b.toNat % 16)]

/-- What is printed into `body`. -/
def putBody (name : CStr) (size : Int) (shaStr : CStr) : CStr :=
  str "\x7b \"objectname\": \"" ++ name ++ str "\"," ++ str " \"size\": \"" ++ intText size
    ++ str "\"," ++ str " \"sha256sum\": \"" ++ shaStr ++ str "\"" ++ str " \x7d"

/-- `THTTP_STATUS_OK` -/
def thttpStatusOk : Int := 200

/-- `THTTP_STATUS_CONFLICT` -/
def thttpStatusConflict : Int := 409

section Code

variable (sha256 : CStr → Vector UInt8 32)

/-- `trail_put_object`; `none` where it prints behind `body`, which has 512 bytes. -/
def trailPutObject (o : PutObject) : Option Int :=
  match o.content with
  | none => some (-1)
  | some c =>
    let shaStr := shaText (sha256 c)
    if 512 ≤ (putBody o.name (intOfSize c.length) shaStr).length then none
    else if o.id ≠ shaStr then
      -- skipped, with `ret` as it was initialised
      some (-1)
    else
      match o.post with
      | none => some (-1)
      | some tres =>
        if tres.code = thttpStatusConflict then some 0
        else if tres.code = 0 ∧ tres.authOk = false then some (-1)
        else if tres.code ≠ thttpStatusOk then some (-1)
        else if tres.signedPuturl ∧ o.tlsReq then
          match o.upload with
          | none => some (-1)
          | some code =>
            if code = 0 then some (-1)
            else if code ≠ thttpStatusOk then some (-1)
            else some 0
        else some (-1)

/-! ## The pass -/

/-- The second loop of `trail_put_objects`, with the objects that are tried and `ret`. -/
def putLoop : List PutObject → Int → Option (List PutObject × Int)
  | [], ret => some ([], ret)
  | o :: os, ret => do
    let r ← trailPutObject sha256 o
    if r < 0 then some ([o], ret)
    else
      let (tried, left) ← putLoop os (ret - 1)
      some (o :: tried, left)

/-- `trail_put_objects`: all objects are counted first. -/
def trailPutObjects (os : List PutObject) : Option (List PutObject × Int) :=
  putLoop sha256 os os.length

/-- What `trail_first_boot` does: the objects that it tries, the trail that it posts, and its
result. -/
structure FirstBoot where
  tried : List PutObject
  posted : Option CStr
  ret : Int
  deriving DecidableEq, Repr

/-- `trail_first_boot` for a state with these objects and this JSON. -/
def trailFirstBoot (auth : Bool) (os : List PutObject) (json : CStr) : Option FirstBoot :=
  if auth = false then some ⟨[], none, -1⟩
  else do
    let (tried, left) ← trailPutObjects sha256 os
    if left > 0 then some ⟨tried, none, -1⟩ else some ⟨tried, some json, 0⟩

/-! ## What is to be tried -/

/-- What comes of an object. -/
inductive PutOutcome where
  | owned
  | mismatch
  | failed
  | uploaded
  deriving DecidableEq, Repr

/-- The contents of a file that are not those of its name are a mismatch; a file that cannot be
read, and a request that is not answered as it is to be, are failures. -/
def PutObject.outcome (o : PutObject) : PutOutcome :=
  match o.content with
  | none => .failed
  | some c =>
    if o.id ≠ shaText (sha256 c) then .mismatch
    else if o.post.any (·.code = thttpStatusConflict) then .owned
    else if (o.post.any fun tres => tres.code = thttpStatusOk && tres.signedPuturl) && o.tlsReq &&
        o.upload = some thttpStatusOk then .uploaded
    else .failed

/-- The objects up to the first one whose upload fails. -/
def upToFailure : List PutObject → List PutObject
  | [] => []
  | o :: os => if o.outcome sha256 = .failed then [o] else o :: upToFailure os

/-- The result that is given for an outcome. -/
def PutOutcome.ret : PutOutcome → Int
  | .owned | .uploaded => 0
  | .mismatch | .failed => -1

/-- Every object up to the first failure is tried, and the trail is posted exactly if no object
that was tried failed. -/
def TriesAll (auth : Bool) (os : List PutObject) (json : CStr) : Prop :=
  ∃ r, trailFirstBoot sha256 auth os json = some r ∧ (auth = true →
    r.tried = upToFailure sha256 os ∧
      (r.posted = some json ↔ ∀ o ∈ r.tried, o.outcome sha256 ≠ .failed))

/-- What is printed into `body` fits. -/
def PutObject.BodyFits (o : PutObject) : Prop :=
  ∀ c ∈ o.content, (putBody o.name (intOfSize c.length) (shaText (sha256 c))).length < 512

/-! ## The proof -/

/-- **The result of an object**: a mismatch has that of a failure. -/
theorem trailPutObject_eq {o : PutObject} (h : o.BodyFits sha256) :
    trailPutObject sha256 o = some (o.outcome sha256).ret := by
  unfold trailPutObject PutObject.outcome
  cases hc : o.content with
  | none => rfl
  | some c =>
    dsimp only
    rw [if_neg (Nat.not_le.mpr (h c hc))]
    by_cases hid : o.id ≠ shaText (sha256 c)
    · rw [if_pos hid, if_pos hid]
      rfl
    rw [if_neg hid, if_neg hid]
    cases o.post with
    | none => rfl
    | some tres =>
      simp only [Option.any_some, decide_eq_true_eq, Bool.and_eq_true]
      by_cases hconflict : tres.code = thttpStatusConflict
      · rw [if_pos hconflict, if_pos hconflict]
        rfl
      rw [if_neg hconflict, if_neg hconflict]
      by_cases hok : tres.code = thttpStatusOk
      · have hzero : ¬ (tres.code = 0 ∧ tres.authOk = false) := fun h => by
          rw [hok] at h
          cases h.1
        rw [if_neg hzero, if_neg (not_not.mpr hok)]
        by_cases hput : tres.signedPuturl = true ∧ o.tlsReq = true
        · rw [if_pos hput]
          cases o.upload with
          | none => simp [PutOutcome.ret]
          | some code =>
            by_cases hcode : code = thttpStatusOk
            · subst hcode
              simp [hok, hput, PutOutcome.ret, thttpStatusOk]
            · simp [hcode, PutOutcome.ret]
        · rw [if_neg hput, if_neg fun h => hput ⟨h.1.1.2, h.1.2⟩]
          rfl
      · have hup : ¬ (((tres.code = thttpStatusOk ∧ tres.signedPuturl = true) ∧ o.tlsReq = true) ∧
            o.upload = some thttpStatusOk) := fun h => hok h.1.1.1
        rw [if_neg hup, if_pos hok]
        split <;> rfl

theorem trailPutObject_eq_none {o : PutObject} (h : ¬ o.BodyFits sha256) :
    trailPutObject sha256 o = none := by
  unfold PutObject.BodyFits at h
  push Not at h
  obtain ⟨c, hc, hlen⟩ := h
  rw [trailPutObject, hc]
  exact if_pos hlen

/-- A pass does not count below nothing. -/
theorem le_of_putLoop {os tried : List PutObject} {ret left : Int}
    (h : putLoop sha256 os ret = some (tried, left)) : ret - os.length ≤ left := by
  induction os generalizing ret tried left with
  | nil =>
    obtain ⟨-, rfl⟩ := Prod.mk.inj (Option.some.inj h)
    simp
  | cons o os ih =>
    rw [putLoop, Option.bind_eq_bind, Option.bind_eq_some_iff] at h
    obtain ⟨r, -, h⟩ := h
    rw [List.length_cons]
    split at h
    · obtain ⟨-, rfl⟩ := Prod.mk.inj (Option.some.inj h)
      omega
    · obtain ⟨⟨tried', left'⟩, hloop, h⟩ := Option.bind_eq_some_iff.mp h
      obtain ⟨-, rfl⟩ := Prod.mk.inj (Option.some.inj h)
      have hle := ih hloop
      omega

/-- What the loop is to do. -/
def LoopTries (os : List PutObject) (ret : Int) : Prop :=
  ∃ left, putLoop sha256 os ret = some (upToFailure sha256 os, left) ∧
    (left = ret - os.length ↔ ∀ o ∈ upToFailure sha256 os, o.outcome sha256 ≠ .failed)

/-- **The loop** tries what it is to try as long as no mismatch comes before a failure. -/
theorem loopTries_iff (os : List PutObject) (ret : Int) :
    LoopTries sha256 os ret ↔
      ∀ o ∈ upToFailure sha256 os, o.BodyFits sha256 ∧ o.outcome sha256 ≠ .mismatch := by
  induction os generalizing ret with
  | nil => simp [LoopTries, putLoop, upToFailure]
  | cons o os ih =>
    have hmem : o ∈ upToFailure sha256 (o :: os) := by
      rw [upToFailure]
      split <;> simp
    by_cases hfits : o.BodyFits sha256
    · have hput := trailPutObject_eq sha256 hfits
      -- an object that the server has now leaves the same to do, with one less to count
      have hgood : (o.outcome sha256).ret = 0 → o.outcome sha256 ≠ .failed →
          o.outcome sha256 ≠ .mismatch → (LoopTries sha256 (o :: os) ret ↔
            ∀ p ∈ upToFailure sha256 (o :: os), p.BodyFits sha256 ∧
              p.outcome sha256 ≠ .mismatch) := by
        intro hret hok hmatch
        have hup : upToFailure sha256 (o :: os) = o :: upToFailure sha256 os := if_neg hok
        have hloop : putLoop sha256 (o :: os) ret
            = (putLoop sha256 os (ret - 1)).map fun r => (o :: r.1, r.2) := by
          rw [putLoop, hput, hret, Option.bind_eq_bind, Option.bind_some, if_neg (by decide)]
          cases putLoop sha256 os (ret - 1) <;> rfl
        have hcount : ∀ left : Int, left = ret - (o :: os).length ↔ left = ret - 1 - os.length := by
          intro left
          rw [List.length_cons]
          omega
        rw [hup, List.forall_mem_cons, and_iff_right ⟨hfits, hmatch⟩, ← ih (ret - 1), LoopTries,
          LoopTries, hup, hloop]
        simp only [Option.map_eq_some_iff, Prod.mk.injEq, List.cons.injEq, true_and,
          List.forall_mem_cons, and_iff_right hok, hcount]
        constructor
        · rintro ⟨left, ⟨⟨tried, left'⟩, hput', rfl, rfl⟩, hiff⟩
          exact ⟨left', hput', hiff⟩
        · rintro ⟨left, hput', hiff⟩
          exact ⟨left, ⟨_, hput', rfl, rfl⟩, hiff⟩
      have hbad : (o.outcome sha256).ret < 0 → putLoop sha256 (o :: os) ret = some ([o], ret) := by
        intro hret
        rw [putLoop, hput, Option.bind_eq_bind, Option.bind_some, if_pos hret]
      cases hout : o.outcome sha256 with
      | failed =>
        have hup : upToFailure sha256 (o :: os) = [o] := if_pos hout
        rw [LoopTries, hup, hbad (by rw [hout]; decide)]
        refine ⟨fun _ p hp => ?_, fun _ => ⟨ret, rfl, ?_⟩⟩
        · obtain rfl := List.mem_singleton.mp hp
          exact ⟨hfits, by rw [hout]; decide⟩
        · rw [List.forall_mem_singleton, hout, List.length_cons]
          constructor
          · intro h
            omega
          · exact fun h => absurd rfl h
      | mismatch =>
        refine ⟨?_, fun h => absurd hout (h o hmem).2⟩
        rintro ⟨left, hloop, hiff⟩
        rw [hbad (by rw [hout]; decide)] at hloop
        obtain ⟨htried, rfl⟩ := Prod.mk.inj (Option.some.inj hloop)
        rw [← htried, List.forall_mem_singleton, hout, List.length_cons] at hiff
        have := hiff.mpr (by decide)
        omega
      | owned => exact hgood (by rw [hout]; rfl) (by rw [hout]; decide) (by rw [hout]; decide)
      | uploaded => exact hgood (by rw [hout]; rfl) (by rw [hout]; decide) (by rw [hout]; decide)
    · refine ⟨?_, fun h => absurd (h o hmem).1 hfits⟩
      rintro ⟨left, hloop, -⟩
      rw [putLoop, trailPutObject_eq_none sha256 hfits] at hloop
      cases hloop

/-- **Every object is tried** and the trail posted as it is to be, exactly if no object whose
contents changed comes before the first failure, and no name is too long to be printed. -/
theorem triesAll_iff (auth : Bool) (os : List PutObject) (json : CStr) :
    TriesAll sha256 auth os json ↔
      (auth = true → ∀ o ∈ upToFailure sha256 os,
        o.BodyFits sha256 ∧ o.outcome sha256 ≠ .mismatch) := by
  cases auth with
  | false =>
    have hnothing : trailFirstBoot sha256 false os json = some ⟨[], none, -1⟩ := rfl
    exact ⟨fun _ h => (by cases h), fun _ => ⟨_, hnothing, fun h => (by cases h)⟩⟩
  | true =>
    simp only [true_implies]
    rw [← loopTries_iff sha256 os os.length, LoopTries, TriesAll]
    simp only [true_implies]
    have hboot : trailFirstBoot sha256 true os json = (putLoop sha256 os os.length).map
        fun r => if r.2 > 0 then ⟨r.1, none, -1⟩ else ⟨r.1, some json, 0⟩ := by
      rw [trailFirstBoot, trailPutObjects, if_neg (by decide)]
      cases putLoop sha256 os os.length with
      | none => rfl
      | some r =>
        rw [Option.bind_eq_bind, Option.bind_some, Option.map_some]
        exact (apply_ite some (r.2 > 0) _ _).symm
    have hposted : ∀ r : List PutObject × Int, putLoop sha256 os os.length = some r →
        ((if r.2 > 0 then ⟨r.1, none, -1⟩ else ⟨r.1, some json, 0⟩ : FirstBoot).posted = some json ↔
          r.2 = os.length - os.length) := by
      intro r hr
      have hle := le_of_putLoop sha256 hr
      split
      · simp only [reduceCtorEq, false_iff]
        omega
      · simp only [true_iff]
        omega
    have htried : ∀ r : List PutObject × Int,
        (if r.2 > 0 then ⟨r.1, none, -1⟩ else ⟨r.1, some json, 0⟩ : FirstBoot).tried = r.1 := by
      intro r
      split <;> rfl
    rw [hboot]
    constructor
    · rintro ⟨_, hr, htry, hiff⟩
      obtain ⟨r, hloop, rfl⟩ := Option.map_eq_some_iff.mp hr
      rw [hposted r hloop, htry] at hiff
      rw [htried] at htry
      exact ⟨r.2, by rw [hloop, ← htry], hiff⟩
    · rintro ⟨left, hloop, hiff⟩
      refine ⟨_, by rw [hloop, Option.map_some], htried _, ?_⟩
      rw [hposted _ hloop, htried]
      exact hiff

end Code

/-- The digest of no bytes. -/
def shaOfNothing : Vector UInt8 32 :=
  #v[0xe3, 0xb0, 0xc4, 0x42, 0x98, 0xfc, 0x1c, 0x14, 0x9a, 0xfb, 0xf4, 0xc8,
    0x99, 0x6f, 0xb9, 0x24, 0x27, 0xae, 0x41, 0xe4, 0x64, 0x9b, 0x93, 0x4c,
    0xa4, 0x95, 0x99, 0x1b, 0x78, 0x52, 0xb8, 0x55]

/-- An object with an empty file. -/
def emptyObject (id : CStr) : PutObject where
  name := str "data.img"
  id := id
  content := some []
  post := some ⟨thttpStatusConflict, true, false⟩
  tlsReq := true
  upload := none

/-- A file that was written to, and one that the server has. -/
def writtenFirst : List PutObject :=
  [emptyObject (str "ba7816bf8f01cfea414140de5dae2223" ++ str "b00361a396177a9cb410ff61f20015ad"),
    emptyObject (shaText shaOfNothing)]

/-- A file that was written to ends the pass, before the one that the server has. -/
theorem mismatch_ends_pass :
    ¬ ∀ (sha256 : CStr → Vector UInt8 32) (os : List PutObject) (json : CStr),
      TriesAll sha256 true os json := by
  intro h
  obtain ⟨r, hr, htry⟩ := h (fun _ => shaOfNothing) writtenFirst (str "\x7b\x7d")
  have hall : (upToFailure (fun _ => shaOfNothing) writtenFirst).length = 2 := by decide +kernel
  have hone : (trailFirstBoot (fun _ => shaOfNothing) true writtenFirst (str "\x7b\x7d")).map
      (·.tried.length) = some 1 := by decide +kernel
  rw [hr, Option.map_some, (htry rfl).1, hall] at hone
  cases hone

end Pantavisor.Updater
