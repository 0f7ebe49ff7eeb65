/-
Pantavisor.Signature.Malformed — what the verification makes of signatures that
are not well formed.

A value is a signature when it is an object with `#spec` `pvs@2`, and malformed
when that object lacks a member or its protected header is not what it should
be (`Malformed`). Such a value has to lead to rejection, other values have to
be ignored, and nothing may be used before it is set or read from behind a block
(`RejectsMalformed`).

The code keeps to that exactly when the values are `Tolerable`: it ignores a
signature that lacks a member, it takes a value that the tokenizer does not accept
for a signature without members, it goes on with a header that it could not read,
and it runs over a text that it had to pad.
-/
import Pantavisor.Signature.Coverage

namespace Pantavisor.Signature

open Pantavisor.Lib Pantavisor.Json

variable {env : Env}

/-! ## Well-formed signatures -/

/-- The text is one object. -/
def isObject (toks : List Tok) : Bool := toks.head?.any fun t => t.type = .object

/-- The value is an object with `#spec` `pvs@2`. -/
def isPvs (env : Env) (value : CStr) : Bool :=
  (env.jsmn.parse value).any fun toks =>
    isObject toks && decide (member env.jsmn value (str "#spec") toks = some (str "pvs@2"))

/-- Base64url without its padding, decoded. -/
def base64Url (env : Env) (s : CStr) : Option CStr :=
  let padded := match s.length % 4 with
    | 2 => s ++ str "=="
    | 3 => s ++ str "="
    | _ => s
  env.base64Decode (padded.map fun c => if c = 95 then 47 else if c = 45 then 43 else c)

/-- The text is an object with an include and an exclude list. -/
def headersPvsOk (env : Env) (json : CStr) : Bool :=
  (env.jsmn.parse json).any fun toks =>
    isObject toks && (member env.jsmn json (str "include") toks).isSome &&
      (member env.jsmn json (str "exclude") toks).isSome

/-- The text is an object with `typ`, `alg` and the lists. -/
def headersOk (env : Env) (json : CStr) : Bool :=
  (env.jsmn.parse json).any fun toks =>
    isObject toks && (member env.jsmn json (str "typ") toks).isSome &&
      (member env.jsmn json (str "alg") toks).isSome &&
      (member env.jsmn json (str "pvs") toks).any (headersPvsOk env)

/-- The protected header is base64url of such an object. -/
def protectedOk (env : Env) (protectedHeader : CStr) : Bool :=
  (base64Url env protectedHeader).any fun bytes => headersOk env (cstrAt bytes 0)

/-- The value is a signature without `protected` or `signature`, or with a
protected header that is not one. -/
def malformed (env : Env) (value : CStr) : Bool :=
  isPvs env value && !(env.jsmn.parse value).any fun toks =>
    (member env.jsmn value (str "protected") toks).any (protectedOk env) &&
      (member env.jsmn value (str "signature") toks).isSome

/-- What should come of a state JSON, in lenient and in strict mode: a verdict,
a negative one if a signature in it is malformed, and no notice of a value that
is no signature, wherever the loop over the values comes to it. -/
structure RejectsMalformed (env : Env) (mode : SecurebootMode) (json : CStr) : Prop where
  verdict : (pvSignatureVerify env mode json).isSome
  rejects : ∀ pairs, pvSignatureParseJson env json = some pairs →
    (∃ p ∈ pairs, malformed env p.value) → pvSignatureVerify env mode json = some false
  ignores : ∀ pairs, pvSignatureParseJson env json = some pairs →
    ∀ p ∈ pairs, isPvs env p.value = false →
      ∀ values pairs', verifyValues env (p.value :: values) pairs' = verifyValues env values pairs'

/-! ## Values that the code takes for signatures -/

/-- The tokenizer does not accept the value, or finds the keys of a signature somewhere
in it. -/
def looksSigned (env : Env) (value : CStr) : Bool :=
  match env.jsmn.parse value with
  | none => true
  | some toks =>
    decide (pvJsonGetValue value (str "#spec") toks = some (str "pvs@2")) &&
      (pvJsonGetValue value (str "protected") toks).isSome &&
      (pvJsonGetValue value (str "signature") toks).isSome

theorem isSome_parsePvs (value : CStr) :
    (pvSignatureParsePvs env value).isSome = looksSigned env value := by
  unfold pvSignatureParsePvs looksSigned
  cases env.jsmn.parse value with
  | none => rfl
  | some toks =>
    by_cases hspec : pvJsonGetValue value (str "#spec") toks = some (str "pvs@2")
    · cases hph : pvJsonGetValue value (str "protected") toks with
      | none => simp [hspec, hph]
      | some ph => cases hsig : pvJsonGetValue value (str "signature") toks <;> simp [hspec, hph, hsig]
    · simp [hspec]

/-- A pair that any signature that verifies marks or leaves out. -/
def unmarked : Pair := ⟨[], [], true, false⟩

theorem filtered_unmarked (incl excl : CStr) : filtered env incl excl unmarked ≠ unmarked := by
  intro h
  have hincluded : signs env incl excl [] = true := congrArg Pair.included h
  have hcovered : (false || selects env incl [] || selects env excl []) = false :=
    congrArg Pair.covered h
  rw [signs, Bool.and_eq_true] at hincluded
  rw [hincluded.1] at hcovered
  cases hcovered

/-- The loop takes no notice of a value exactly if it is none that looks like a signature. -/
theorem ignored_iff (value : CStr) :
    (∀ values pairs, verifyValues env (value :: values) pairs = verifyValues env values pairs) ↔
      looksSigned env value = false := by
  rw [← isSome_parsePvs]
  constructor
  · intro h
    cases hsig : pvSignatureParsePvs env value with
    | none => rfl
    | some sig =>
      have hone := h [] [unmarked]
      simp only [verifyValues, hsig] at hone
      split at hone
      · cases hone
      · cases hone
      · rename_i pairs' hverify
        obtain ⟨incl, excl, -, rfl⟩ := verifyPvs_true hverify
        have hsame := (Prod.mk.inj (Option.some.inj hone)).2
        exact absurd (List.cons.inj hsame).1 (filtered_unmarked incl excl)
  · intro h values pairs
    have hnone : pvSignatureParsePvs env value = none := by simpa using h
    rw [verifyValues, hnone]

/-! ## The run over the signatures -/

/-- The loop of `pv_signature_verify_pairs` over the signatures it finds. -/
def verifySigs (env : Env) : List PvSignature → List Pair → Option (Bool × List Pair)
  | [], pairs => some (true, pairs)
  | sig :: sigs, pairs =>
    match pvSignatureVerifyPvs env sig pairs with
    | none => none
    | some (false, pairs) => some (false, pairs)
    | some (true, pairs) => verifySigs env sigs pairs

theorem verifyValues_eq (values : List CStr) (pairs : List Pair) :
    verifyValues env values pairs = verifySigs env (signatures env values) pairs := by
  induction values generalizing pairs with
  | nil => rfl
  | cons value values ih =>
    rw [verifyValues, signatures, List.filterMap_cons]
    cases pvSignatureParsePvs env value with
    | none => exact ih pairs
    | some sig =>
      simp only [verifySigs]
      cases pvSignatureVerifyPvs env sig pairs with
      | none => rfl
      | some r =>
        obtain ⟨ret, pairs'⟩ := r
        cases ret with
        | false => rfl
        | true => exact ih pairs'

/-- The signatures that are read: up to the first that the key does not verify. -/
def readSigs (env : Env) (kvs : List (CStr × CStr)) : List PvSignature → List PvSignature
  | [] => []
  | sig :: sigs => sig :: if passes env kvs sig then readSigs env kvs sigs else []

/-- The run has an end exactly if every signature that is read is usable, and a positive one
if all of them verify. -/
theorem verifySigs_spec (sigs : List PvSignature) (pairs : List Pair) :
    ((verifySigs env sigs pairs).isSome ↔
        ∀ sig ∈ readSigs env (keyValues pairs) sigs, usable env (keyValues pairs) sig = true) ∧
      ∀ r ∈ verifySigs env sigs pairs, r.1 = sigs.all (passes env (keyValues pairs)) := by
  induction sigs generalizing pairs with
  | nil => simp [verifySigs, readSigs]
  | cons sig sigs ih =>
    rw [verifySigs, verifyPvs_eq, readSigs, List.forall_mem_cons, List.all_cons]
    cases husable : usable env (keyValues pairs) sig with
    | false => simp
    | true =>
      rw [if_pos rfl]
      cases hpasses : passes env (keyValues pairs) sig with
      | false => simp
      | true =>
        have ih' := ih (marked env sig pairs)
        rw [keyValues_marked] at ih'
        simpa using ih'

/-! ## The verdict -/

/-- A pair outside `_sigs/` that no signature marks. -/
def hasUncovered (env : Env) (pairs : List Pair) : Bool :=
  pairs.any fun p =>
    !underSigs p.key && !coveredBy env (signatures env (pairs.map (·.value))) p.key

/-- After a run that ends with true, the pairs are covered if a signature marks
each of them. -/
theorem allCovered_eq {pairs pairs' : List Pair} (hfresh : ∀ p ∈ pairs, p.covered = false)
    (h : verifyValues env (pairs.map (·.value)) pairs = some (true, pairs')) :
    pvSignatureAllCovered pairs' = !hasUncovered env pairs := by
  obtain ⟨-, hmarks, -⟩ := verifyValues_true h
  have hall : ∀ ps : List Pair, pvSignatureAllCovered ps
      = (ps.map fun p => (p.key, p.covered)).all fun k => underSigs k.1 || k.2 := by
    intro ps
    rw [List.all_map]
    rfl
  rw [hall, hmarks, List.all_map, hasUncovered, List.not_any_eq_all_not, Bool.eq_iff_iff,
    List.all_eq_true, List.all_eq_true]
  exact forall₂_congr fun p hp => by simp [hfresh p hp]

/-- The verdict on a state, from the run over its signatures. -/
theorem verify_eq {mode : SecurebootMode} {json : CStr} {pairs : List Pair}
    (hmode : mode ≠ .disabled) (hjson : pvSignatureParseJson env json = some pairs) :
    pvSignatureVerify env mode json
      = (verifySigs env (signatures env (pairs.map (·.value))) pairs).map fun r =>
          r.1 && (decide (mode ≠ .strict) || !hasUncovered env pairs) := by
  simp only [pvSignatureVerify, if_neg hmode, hjson, Option.bind_eq_bind, Option.bind_some,
    pvSignatureVerifyPairs]
  rw [← verifyValues_eq]
  cases hrun : verifyValues env (pairs.map (·.value)) pairs with
  | none => rfl
  | some r =>
    obtain ⟨ret, pairs'⟩ := r
    cases ret with
    | false => simp
    | true => simp [allCovered_eq (parseJson_flags hjson) hrun]

/-- What the values of a state have to be for the code to keep to
`RejectsMalformed`: what is no signature does not look like one; the signatures that
are read are usable; and next to a malformed one there is one that does not verify or,
in strict mode, an uncovered pair. -/
structure Tolerable (env : Env) (mode : SecurebootMode) (pairs : List Pair) : Prop where
  ignored : ∀ p ∈ pairs, isPvs env p.value = false → looksSigned env p.value = false
  usable : ∀ sig ∈ readSigs env (keyValues pairs) (signatures env (pairs.map (·.value))),
    usable env (keyValues pairs) sig = true
  masked : (∃ p ∈ pairs, malformed env p.value) →
    (∃ sig ∈ signatures env (pairs.map (·.value)), passes env (keyValues pairs) sig = false) ∨
      (mode = .strict ∧ hasUncovered env pairs = true)

/-- The verdict on a state whose signatures are usable. -/
theorem verify_usable {mode : SecurebootMode} {json : CStr} {pairs : List Pair}
    (hmode : mode ≠ .disabled) (hjson : pvSignatureParseJson env json = some pairs)
    (husable : ∀ sig ∈ readSigs env (keyValues pairs) (signatures env (pairs.map (·.value))),
      usable env (keyValues pairs) sig = true) :
    pvSignatureVerify env mode json
      = some ((signatures env (pairs.map (·.value))).all (passes env (keyValues pairs)) &&
          (decide (mode ≠ .strict) || !hasUncovered env pairs)) := by
  obtain ⟨hsome, hret⟩ := @verifySigs_spec env (signatures env (pairs.map (·.value))) pairs
  obtain ⟨r, hr⟩ := Option.isSome_iff_exists.mp (hsome.mpr husable)
  rw [verify_eq hmode hjson, hr, Option.map_some, hret r hr]

/-- A verdict is negative exactly if a signature does not verify or, in strict mode, a pair is
uncovered. -/
theorem verify_false_iff {mode : SecurebootMode} {json : CStr} {pairs : List Pair}
    (hmode : mode ≠ .disabled) (hjson : pvSignatureParseJson env json = some pairs)
    (husable : ∀ sig ∈ readSigs env (keyValues pairs) (signatures env (pairs.map (·.value))),
      usable env (keyValues pairs) sig = true) :
    pvSignatureVerify env mode json = some false ↔
      (∃ sig ∈ signatures env (pairs.map (·.value)), passes env (keyValues pairs) sig = false) ∨
        (mode = .strict ∧ hasUncovered env pairs = true) := by
  rw [verify_usable hmode hjson husable, Option.some.injEq, Bool.and_eq_false_iff,
    List.all_eq_false]
  simp

/-- **A malformed signature means rejection** exactly when the values of the state are
tolerable, for every device and its key. -/
theorem rejects_malformed_iff (env : Env) {mode : SecurebootMode} (hmode : mode ≠ .disabled)
    (json : CStr) :
    RejectsMalformed env.bounded mode json ↔
      ∃ pairs, pvSignatureParseJson env.bounded json = some pairs ∧
        Tolerable env.bounded mode pairs := by
  generalize env.bounded = env
  constructor
  · intro h
    cases hjson : pvSignatureParseJson env json with
    | none =>
      -- without pairs there is no verdict
      have hverdict := h.verdict
      simp [pvSignatureVerify, hmode, hjson] at hverdict
    | some pairs =>
      have hverdict := h.verdict
      rw [verify_eq hmode hjson, Option.isSome_map] at hverdict
      have husable := (verifySigs_spec _ _).1.mp hverdict
      refine ⟨pairs, rfl, fun p hp hpvs => ?_, husable, fun hmal => ?_⟩
      · exact (ignored_iff p.value).mp (h.ignores pairs hjson p hp hpvs)
      · exact (verify_false_iff hmode hjson husable).mp (h.rejects pairs hjson hmal)
  · rintro ⟨pairs, hjson, htol⟩
    refine ⟨?_, fun ps hps hmal => ?_, fun ps hps p hp hpvs => ?_⟩
    · rw [verify_usable hmode hjson htol.usable]
      rfl
    · obtain rfl : pairs = ps := Option.some.inj (hjson.symm.trans hps)
      exact (verify_false_iff hmode hjson htol.usable).mpr (htol.masked hmal)
    · obtain rfl : pairs = ps := Option.some.inj (hjson.symm.trans hps)
      exact (ignored_iff p.value).mpr (htol.ignored p hp hpvs)

theorem tolerable_iff {mode : SecurebootMode} {pairs : List Pair} :
    Tolerable env mode pairs ↔
      (∀ p ∈ pairs, isPvs env p.value = false → looksSigned env p.value = false) ∧
      (∀ sig ∈ readSigs env (keyValues pairs) (signatures env (pairs.map (·.value))),
        usable env (keyValues pairs) sig = true) ∧
      ((∃ p ∈ pairs, malformed env p.value) →
        (∃ sig ∈ signatures env (pairs.map (·.value)), passes env (keyValues pairs) sig = false) ∨
          (mode = .strict ∧ hasUncovered env pairs = true)) :=
  ⟨fun h => ⟨h.ignored, h.usable, h.masked⟩, fun h => ⟨h.1, h.2.1, h.2.2⟩⟩

instance (mode : SecurebootMode) (pairs : List Pair) : Decidable (Tolerable env mode pairs) :=
  decidable_of_iff _ tolerable_iff.symm

/-- A state with a signature that has no members. -/
def lackingState : CStr :=
  str "\x7b\"a\":\"1f\"," ++ str "\"_sigs/s.json\":" ++ str "\x7b\"#spec\":\"pvs@2\"\x7d\x7d"

/-- In strict mode the state with two signatures is accepted, and the one that lacks the
members is rejected: `a` is not covered. -/
theorem rejects_malformed_iff_strict :
    RejectsMalformed acceptingEnv.bounded .strict twoSigners ∧
      RejectsMalformed acceptingEnv.bounded .strict lackingState := by
  have hstrict : SecurebootMode.strict ≠ .disabled := by decide
  obtain ⟨htwo, hlacking⟩ :
      (∃ pairs ∈ pvSignatureParseJson acceptingEnv.bounded twoSigners,
        Tolerable acceptingEnv.bounded .strict pairs) ∧
      ∃ pairs ∈ pvSignatureParseJson acceptingEnv.bounded lackingState,
        Tolerable acceptingEnv.bounded .strict pairs := by
    decide +kernel
  exact ⟨(rejects_malformed_iff acceptingEnv hstrict twoSigners).mpr htwo,
    (rejects_malformed_iff acceptingEnv hstrict lackingState).mpr hlacking⟩

/-- A state with a signature whose protected header is the object `{}`. -/
def emptyHeaderState : CStr :=
  str "\x7b\"_sigs/s.json\":" ++ str "\x7b\"#spec\":\"pvs@2\"," ++ str "\"protected\":\"e30g\"," ++
    str "\"signature\":\"c2ln\"\x7d\x7d"

/-- **A signature that lacks a member is accepted**, and one whose header lacks
`typ` leads to a list that was never set up. -/
theorem malformed_signature_accepted :
    ¬ RejectsMalformed acceptingEnv.bounded .lenient lackingState ∧
      pvSignatureVerify acceptingEnv.bounded .lenient emptyHeaderState = none := by
  refine ⟨fun h => ?_, by decide +kernel⟩
  obtain ⟨htrue, pairs, hjson, hmalformed⟩ :
      pvSignatureVerify acceptingEnv.bounded .lenient lackingState = some true ∧
        ∃ pairs ∈ pvSignatureParseJson acceptingEnv.bounded lackingState,
          ∃ p ∈ pairs, malformed acceptingEnv.bounded p.value := by
    decide +kernel
  have hfalse := h.rejects pairs hjson hmalformed
  rw [htrue] at hfalse
  exact absurd hfalse (by decide)

end Pantavisor.Signature
