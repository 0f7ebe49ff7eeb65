/-
Pantavisor.Signature.Coverage — what strict mode makes sure of.

A pair is in the payload of a signature when an include pattern selects its
key and no exclude pattern does; it is marked `covered` when any pattern does.
So the mark says less than "some signature has it in its payload" exactly for
keys that are excluded (`strict_covers_iff`): a key that one signature excludes
and none includes passes strict mode, and nobody signed it.
-/
import Pantavisor.Signature.Payload

namespace Pantavisor.Signature

open Pantavisor.Lib Pantavisor.Json

variable {env : Env}

/-! ## What the filters do -/

/-- Some pattern of a filter selects the key. -/
def selects (env : Env) (filter key : CStr) : Bool :=
  (patterns env filter).any fun pattern => patternMatches env pattern key

/-- The lists of a signature select the key for its payload. -/
def signs (env : Env) (incl excl key : CStr) : Bool :=
  selects env incl key && !selects env excl key

/-- `pv_signature_include_files` marks the pairs that its filter selects. -/
theorem includeFiles_eq (filter : CStr) (incl : Bool) (pairs : List Pair) :
    pvSignatureIncludeFiles env filter incl pairs
      = pairs.map fun p =>
          if selects env filter p.key then { p with included := incl, covered := true } else p := by
  unfold pvSignatureIncludeFiles selects
  induction patterns env filter generalizing pairs with
  | nil => simp
  | cons pattern rest ih =>
    rw [List.foldl_cons, ih, includePattern, List.map_map]
    apply List.map_congr_left
    intro p _
    simp only [Function.comp_apply, List.any_cons, Bool.or_eq_true]
    by_cases hp : patternMatches env pattern p.key
    · by_cases hr : (rest.any fun pattern => patternMatches env pattern p.key) <;> simp [hp, hr]
    · simp [hp]

/-- A pair as the filters of one signature leave it. -/
def filtered (env : Env) (incl excl : CStr) (p : Pair) : Pair where
  key := p.key
  value := p.value
  included := signs env incl excl p.key
  covered := p.covered || selects env incl p.key || selects env excl p.key

theorem filterFiles_eq (incl excl : CStr) (pairs : List Pair) :
    pvSignatureFilterFiles env (some ⟨some incl, some excl⟩) (pvSignatureResetIncluded pairs)
      = some (pairs.map (filtered env incl excl)) := by
  simp only [pvSignatureFilterFiles, includeFiles_eq, pvSignatureResetIncluded, List.map_map,
    Option.some.injEq]
  apply List.map_congr_left
  intro p _
  simp only [Function.comp_apply]
  by_cases hi : selects env incl p.key <;> by_cases he : selects env excl p.key <;>
    simp [filtered, signs, hi, he]

/-! ## A signature and its payload -/

/-- The header of a signature, where the code can read it. -/
def readHeaders (env : Env) (sig : PvSignature) : Option Headers := do
  let protectedHeader ← sig.protectedHeader
  let headers ← pvSignatureParseProtected env protectedHeader
  headers

/-- The lists of a signature, where its header has them. -/
def filterLists (env : Env) (sig : PvSignature) : Option (CStr × CStr) := do
  let headers ← readHeaders env sig
  let pvs ← headers.pvs
  let incl ← pvs.incl
  let excl ← pvs.excl
  return (incl, excl)

/-- The certificates of a signature, where its header has a list of them or none. -/
def readCerts (env : Env) (sig : PvSignature) : Option (List CStr) := do
  let headers ← readHeaders env sig
  pvSignatureGetCertsRaw env headers.x5c

/-- The key of a signature, if its algorithm is known and there is one: the DER
certificates that it is from. -/
def keyOf (env : Env) (sig : PvSignature) : Option (List CStr) := do
  let headers ← readHeaders env sig
  let certsRaw ← readCerts env sig
  let ders ← decodedCerts env certsRaw
  if knownAlg headers.alg && env.keyLoads ders then some ders else none

/-- What a pair of lists selects of the keys and values for the payload. -/
def selected (env : Env) (lists : CStr × CStr) (kvs : List (CStr × CStr)) : List (CStr × CStr) :=
  kvs.filter fun e => signs env lists.1 lists.2 e.1

/-- The code comes to an end with the signature: its header can be read, and unless its
certificates cannot, it has lists, what they select fits in what an `int` counts, and the
signature can be decoded where there is a key. -/
def usable (env : Env) (kvs : List (CStr × CStr)) (sig : PvSignature) : Bool :=
  (readHeaders env sig).isSome &&
    ((readCerts env sig).isNone ||
      (filterLists env sig).any fun lists =>
        decide ((payloadText (selected env lists kvs)).length + 1 < 2 ^ 31) &&
          ((keyOf env sig).isNone || (sig.signature.bind (pvBase64UrlDecode env)).isSome))

/-- The key verifies the signature, over what its lists select. -/
def passes (env : Env) (kvs : List (CStr × CStr)) (sig : PvSignature) : Bool :=
  (keyOf env sig).any fun ders =>
    (filterLists env sig).any fun lists =>
      sig.protectedHeader.any fun protectedHeader =>
        (sig.signature.bind fun s => (pvBase64UrlDecode env s).join).any fun s =>
          env.keyVerify ders (protectedHeader ++ str "." ++
            pvBase64UrlEncode env (payloadText (selected env lists kvs))) s.1

/-- The keys and values of the pairs. -/
def keyValues (pairs : List Pair) : List (CStr × CStr) := pairs.map fun p => (p.key, p.value)

/-- The pairs as a signature leaves them. -/
def marked (env : Env) (sig : PvSignature) (pairs : List Pair) : List Pair :=
  match readCerts env sig, filterLists env sig with
  | some _, some lists => pairs.map (filtered env lists.1 lists.2)
  | _, _ => pairs

/-- The payload that the lists of a signature select. -/
theorem entries_filtered (incl excl : CStr) (pairs : List Pair) :
    entries (pairs.map (filtered env incl excl)) = selected env (incl, excl) (keyValues pairs) := by
  simp only [entries, selected, keyValues, List.filter_map, List.map_map]
  rfl

/-- What becomes of a signature with lists, from its payload on. -/
theorem verifySha256_eq {sig : PvSignature} {ph : CStr} {headers : Headers} {certsRaw : List CStr}
    {lists : CStr × CStr} (hph : sig.protectedHeader = some ph)
    (hheaders : readHeaders env sig = some headers) (hcerts : readCerts env sig = some certsRaw)
    (hlists : filterLists env sig = some lists) (kvs : List (CStr × CStr)) :
    (if knownAlg headers.alg then
        pvSignatureVerifySha256 env (payloadText (selected env lists kvs)) certsRaw ph sig.signature
      else some false)
      = if (keyOf env sig).isNone || (sig.signature.bind (pvBase64UrlDecode env)).isSome then
          some (passes env kvs sig)
        else none := by
  have hkey : keyOf env sig = (decodedCerts env certsRaw).bind fun ders =>
      if knownAlg headers.alg && env.keyLoads ders then some ders else none := by
    simp [keyOf, hheaders, hcerts]
  simp only [passes, hlists, hph, hkey, Option.any_some, pvSignatureVerifySha256]
  cases knownAlg headers.alg with
  | false => cases decodedCerts env certsRaw <;> simp
  | true =>
    cases decodedCerts env certsRaw with
    | none => simp
    | some ders =>
      cases hloads : env.keyLoads ders with
      | false => simp [hloads]
      | true =>
        cases sig.signature with
        | none => simp [hloads]
        | some signature =>
          cases hdecode : pvBase64UrlDecode env signature with
          | none => simp [hloads, hdecode]
          | some decoded => cases decoded <;> simp [hloads, hdecode]

/-- The outcome of a signature whose header has both lists. -/
theorem verifyPvs_lists {sig : PvSignature} {ph : CStr} {headers : Headers} {certsRaw : List CStr}
    {incl excl : CStr} (hph : sig.protectedHeader = some ph)
    (hparse : pvSignatureParseProtected env ph = some (some headers))
    (hcerts : pvSignatureGetCertsRaw env headers.x5c = some certsRaw)
    (hpvs : headers.pvs = some ⟨some incl, some excl⟩) (pairs : List Pair) :
    pvSignatureVerifyPvs env sig pairs
      = if usable env (keyValues pairs) sig then
          some (passes env (keyValues pairs) sig, marked env sig pairs)
        else none := by
  have hheaders : readHeaders env sig = some headers := by simp [readHeaders, hph, hparse]
  have hraw : readCerts env sig = some certsRaw := by simp [readCerts, hheaders, hcerts]
  have hlists : filterLists env sig = some (incl, excl) := by simp [filterLists, hheaders, hpvs]
  have hsha := verifySha256_eq hph hheaders hraw hlists (keyValues pairs)
  simp only [pvSignatureVerifyPvs, hph, hparse, hcerts, hpvs, filterFiles_eq, getJsonFiles_eq,
    entries_filtered, Option.bind_eq_bind, Option.bind_some, Option.pure_def]
  have husable : usable env (keyValues pairs) sig
      = (decide ((payloadText (selected env (incl, excl) (keyValues pairs))).length + 1 < 2 ^ 31)
        && ((keyOf env sig).isNone || (sig.signature.bind (pvBase64UrlDecode env)).isSome)) := by
    simp [usable, hheaders, hraw, hlists]
  have hmarked : marked env sig pairs = pairs.map (filtered env incl excl) := by
    simp [marked, hraw, hlists]
  rw [husable, hmarked]
  by_cases hlen : (payloadText (selected env (incl, excl) (keyValues pairs))).length + 1 < 2 ^ 31
  · rw [if_pos hlen, decide_eq_true hlen, Bool.true_and, Option.bind_some]
    cases halg : knownAlg headers.alg with
    | false =>
      rw [halg, if_neg Bool.false_ne_true] at hsha
      rw [if_neg Bool.false_ne_true]
      split at hsha
      · rename_i hok
        rw [if_pos hok, Option.some.inj hsha]
      · cases hsha
    | true =>
      rw [halg, if_pos rfl] at hsha
      rw [if_pos rfl, hsha]
      split <;> rfl
  · rw [if_neg hlen, decide_eq_false hlen, Bool.false_and]
    rfl

/-- **The outcome of one signature**: a fault if it is not usable, else whether the key
verifies it, and the pairs with its marks. -/
theorem verifyPvs_eq (sig : PvSignature) (pairs : List Pair) :
    pvSignatureVerifyPvs env sig pairs
      = if usable env (keyValues pairs) sig then
          some (passes env (keyValues pairs) sig, marked env sig pairs)
        else none := by
  have hread : readHeaders env sig
      = sig.protectedHeader.bind fun ph => (pvSignatureParseProtected env ph).bind id := rfl
  cases hph : sig.protectedHeader with
  | none => simp [pvSignatureVerifyPvs, usable, hread, hph]
  | some ph =>
  cases hparse : pvSignatureParseProtected env ph with
  | none => simp [pvSignatureVerifyPvs, usable, hread, hph, hparse]
  | some headers? =>
  cases headers? with
  | none => simp [pvSignatureVerifyPvs, usable, hread, hph, hparse]
  | some headers =>
  have hheaders : readHeaders env sig = some headers := by simp [hread, hph, hparse]
  cases hcerts : pvSignatureGetCertsRaw env headers.x5c with
  | none =>
    have hnone : readCerts env sig = none := by simp [readCerts, hheaders, hcerts]
    simp [pvSignatureVerifyPvs, usable, passes, keyOf, marked, hph, hparse, hcerts, hheaders, hnone]
  | some certsRaw =>
  have hraw : readCerts env sig = some certsRaw := by simp [readCerts, hheaders, hcerts]
  have hnolists : filterLists env sig = none →
      pvSignatureFilterFiles env headers.pvs (pvSignatureResetIncluded pairs) = none →
      pvSignatureVerifyPvs env sig pairs
        = if usable env (keyValues pairs) sig then
            some (passes env (keyValues pairs) sig, marked env sig pairs)
          else none := by
    intro hlists hfilter
    simp [pvSignatureVerifyPvs, usable, hph, hparse, hcerts, hraw, hlists, hfilter]
  match hpvs : headers.pvs with
  | none =>
    exact hnolists (by simp [filterLists, hheaders, hpvs]) (by simp [pvSignatureFilterFiles, hpvs])
  | some ⟨none, _⟩ =>
    exact hnolists (by simp [filterLists, hheaders, hpvs]) (by simp [pvSignatureFilterFiles, hpvs])
  | some ⟨some _, none⟩ =>
    exact hnolists (by simp [filterLists, hheaders, hpvs]) (by simp [pvSignatureFilterFiles, hpvs])
  | some ⟨some incl, some excl⟩ =>
    exact verifyPvs_lists hph hparse hcerts hpvs pairs

/-- The pairs in the payload of a signature that verifies over a list of pairs. -/
def verifiedEntries (env : Env) (sig : PvSignature) (pairs : List Pair) :
    Option (List (CStr × CStr)) :=
  match pvSignatureVerifyPvs env sig pairs with
  | some (true, pairs) => some (entries pairs)
  | _ => none

/-- A signature that verifies has lists, and leaves the pairs as these filter
them. -/
theorem verifyPvs_true {sig : PvSignature} {pairs pairs' : List Pair}
    (h : pvSignatureVerifyPvs env sig pairs = some (true, pairs')) :
    ∃ incl excl, filterLists env sig = some (incl, excl) ∧
      pairs' = pairs.map (filtered env incl excl) := by
  rw [verifyPvs_eq] at h
  obtain ⟨-, h⟩ := Option.ite_none_right_eq_some.mp h
  obtain ⟨hpasses, rfl⟩ := Prod.mk.inj (Option.some.inj h)
  obtain ⟨ders, hkey, hpasses⟩ := (Option.any_eq_true _ _).mp hpasses
  obtain ⟨⟨incl, excl⟩, hlists, -⟩ := (Option.any_eq_true _ _).mp hpasses
  obtain ⟨headers, -, hkey⟩ := Option.bind_eq_some_iff.mp hkey
  obtain ⟨certsRaw, hcerts, -⟩ := Option.bind_eq_some_iff.mp hkey
  exact ⟨incl, excl, hlists, by simp [marked, hcerts, hlists]⟩

/-- The filters leave the keys and values. -/
theorem keyValues_filtered (incl excl : CStr) (pairs : List Pair) :
    keyValues (pairs.map (filtered env incl excl)) = keyValues pairs := by
  rw [keyValues, List.map_map]
  rfl

theorem keyValues_marked (sig : PvSignature) (pairs : List Pair) :
    keyValues (marked env sig pairs) = keyValues pairs := by
  rw [marked]
  split
  · exact keyValues_filtered _ _ pairs
  · rfl

/-- The entries in the payload of a signature that verifies. -/
theorem verifiedEntries_eq {sig : PvSignature} {pairs : List Pair} {es : List (CStr × CStr)}
    (h : verifiedEntries env sig pairs = some es) :
    ∃ incl excl, filterLists env sig = some (incl, excl) ∧
      es = selected env (incl, excl) (keyValues pairs) := by
  unfold verifiedEntries at h
  split at h
  · rename_i pairs' hv
    obtain ⟨incl, excl, hlists, rfl⟩ := verifyPvs_true hv
    refine ⟨incl, excl, hlists, ?_⟩
    rw [← Option.some.inj h, entries_filtered]
  · simp at h

/-- Whether a signature verifies does not depend on the flags of the pairs. -/
theorem isSome_verifiedEntries (sig : PvSignature) (pairs : List Pair) :
    (verifiedEntries env sig pairs).isSome
      = (usable env (keyValues pairs) sig && passes env (keyValues pairs) sig) := by
  rw [verifiedEntries, verifyPvs_eq]
  cases usable env (keyValues pairs) sig with
  | false => rfl
  | true =>
    rw [if_pos rfl]
    cases passes env (keyValues pairs) sig <;> rfl

/-! ## The run over all pairs -/

/-- The signatures among the values. -/
def signatures (env : Env) (values : List CStr) : List PvSignature :=
  values.filterMap (pvSignatureParsePvs env)

/-- The mark that the lists of the signatures leave on a key. -/
def coveredBy (env : Env) (sigs : List PvSignature) (key : CStr) : Bool :=
  sigs.any fun sig =>
    (filterLists env sig).any fun l => selects env l.1 key || selects env l.2 key

/-- An exclude list of one of the signatures selects the key. -/
def excludedBy (env : Env) (sigs : List PvSignature) (key : CStr) : Bool :=
  sigs.any fun sig => (filterLists env sig).any fun l => selects env l.2 key

/-- The lists of one of the signatures select the key for its payload. -/
def signedBy (env : Env) (sigs : List PvSignature) (key : CStr) : Bool :=
  sigs.any fun sig => (filterLists env sig).any fun l => signs env l.1 l.2 key

/-- A mark comes from an exclude list or from the payload. -/
theorem coveredBy_eq (sigs : List PvSignature) (key : CStr) :
    coveredBy env sigs key = (excludedBy env sigs key || signedBy env sigs key) := by
  induction sigs with
  | nil => rfl
  | cons sig sigs ih =>
    simp only [coveredBy, excludedBy, signedBy, List.any_cons] at ih ⊢
    rw [ih]
    cases filterLists env sig with
    | none => simp
    | some l =>
      simp only [Option.any_some, signs]
      cases selects env l.1 key <;> cases selects env l.2 key <;> simp

/-- A run that ends with true has verified every signature, and has marked the
keys that some list selects. -/
theorem verifyValues_true {values : List CStr} :
    ∀ {pairs pairs' : List Pair}, verifyValues env values pairs = some (true, pairs') →
      keyValues pairs' = keyValues pairs ∧
      (pairs'.map fun p => (p.key, p.covered))
        = (pairs.map fun p => (p.key, p.covered || coveredBy env (signatures env values) p.key)) ∧
      ∀ sig ∈ signatures env values, (verifiedEntries env sig pairs).isSome := by
  induction values with
  | nil =>
    intro pairs pairs' h
    simp only [verifyValues, Option.some.injEq, Prod.mk.injEq, true_and] at h
    simp [← h, signatures, coveredBy]
  | cons value values ih =>
    intro pairs pairs' h
    rw [verifyValues] at h
    cases hsig : pvSignatureParsePvs env value with
    | none =>
      simp only [hsig] at h
      simpa [signatures, hsig] using ih h
    | some sig =>
      simp only [hsig] at h
      have hsigs : signatures env (value :: values) = sig :: signatures env values := by
        simp [signatures, hsig]
      split at h
      · simp at h
      · simp at h
      · rename_i pairs₁ hv
        obtain ⟨hkv, hcov, hall⟩ := ih h
        obtain ⟨incl, excl, hlists, rfl⟩ := verifyPvs_true hv
        refine ⟨hkv.trans (keyValues_filtered incl excl pairs), ?_, ?_⟩
        · rw [hcov, List.map_map, hsigs]
          apply List.map_congr_left
          intro p _
          simp [filtered, coveredBy, hlists, Bool.or_assoc]
        · intro s hs
          rw [hsigs] at hs
          rcases List.mem_cons.mp hs with rfl | hs
          · simp [verifiedEntries, hv]
          · have hs' := hall s hs
            rw [isSome_verifiedEntries, keyValues_filtered] at hs'
            rw [isSome_verifiedEntries]
            exact hs'

/-! ## Strict mode -/

/-- The pair is in the payload of a signature of the state that verifies. -/
def SignedBy (env : Env) (pairs : List Pair) (p : Pair) : Prop :=
  ∃ sig ∈ signatures env (pairs.map (·.value)), ∃ es,
    verifiedEntries env sig pairs = some es ∧ (p.key, p.value) ∈ es

/-- Every pair outside `_sigs/` is in a payload that was verified. -/
def FullySigned (env : Env) (pairs : List Pair) : Prop :=
  ∀ p ∈ pairs, underSigs p.key = false → SignedBy env pairs p

/-- A key outside `_sigs/` that an exclude list selects is one that some
signature selects for its payload. -/
def ExcludedSigned (env : Env) (pairs : List Pair) : Prop :=
  ∀ p ∈ pairs, underSigs p.key = false →
    excludedBy env (signatures env (pairs.map (·.value))) p.key →
    signedBy env (signatures env (pairs.map (·.value))) p.key

theorem parseJson_flags {json : CStr} {pairs : List Pair}
    (h : pvSignatureParseJson env json = some pairs) : ∀ p ∈ pairs, p.covered = false := by
  unfold pvSignatureParseJson at h
  split at h
  · cases h; simp
  · obtain ⟨kvs, -, rfl⟩ := Option.map_eq_some_iff.mp h
    intro p hp
    obtain ⟨kv, -, rfl⟩ := List.mem_map.mp hp
    rfl

/-- What a positive verdict in strict mode says. -/
theorem verify_strict {json : CStr} {pairs : List Pair}
    (hjson : pvSignatureParseJson env json = some pairs)
    (h : pvSignatureVerify env .strict json = some true) :
    (∀ p ∈ pairs, underSigs p.key = false →
        coveredBy env (signatures env (pairs.map (·.value))) p.key) ∧
      ∀ sig ∈ signatures env (pairs.map (·.value)), (verifiedEntries env sig pairs).isSome := by
  simp only [pvSignatureVerify, hjson, reduceCtorEq, if_false, Option.bind_eq_bind,
    Option.bind_some] at h
  obtain ⟨⟨ret, pairs'⟩, hrun, hret⟩ := Option.bind_eq_some_iff.mp h
  simp only [ne_eq, not_true_eq_false, decide_false, Bool.false_or, Option.pure_def,
    Option.some.injEq, Bool.and_eq_true] at hret
  obtain ⟨rfl, hcov⟩ := hret
  obtain ⟨-, hmarks, hall⟩ := verifyValues_true hrun
  refine ⟨?_, hall⟩
  intro p hp hsigs
  -- the mark of the pair, in the list that the run leaves
  have hmem : (p.key, p.covered || coveredBy env (signatures env (pairs.map (·.value))) p.key)
      ∈ pairs'.map fun p => (p.key, p.covered) := by
    rw [hmarks]
    exact List.mem_map_of_mem hp
  obtain ⟨p', hp', heq⟩ := List.mem_map.mp hmem
  have hkey : p'.key = p.key := congrArg Prod.fst heq
  have hmark := congrArg Prod.snd heq
  simp only [parseJson_flags hjson p hp, Bool.false_or] at hmark
  have := List.all_eq_true.mp hcov p' hp'
  rw [hkey, hsigs, Bool.false_or, hmark] at this
  exact this

/-- The pair is in a verified payload when its key is selected for one. -/
theorem signedBy_iff {pairs : List Pair} {p : Pair} (hp : p ∈ pairs)
    (hall : ∀ sig ∈ signatures env (pairs.map (·.value)),
      (verifiedEntries env sig pairs).isSome) :
    SignedBy env pairs p ↔ signedBy env (signatures env (pairs.map (·.value))) p.key := by
  simp only [signedBy, List.any_eq_true, Option.any_eq_true]
  constructor
  · rintro ⟨sig, hsig, es, hes, hmem⟩
    obtain ⟨incl, excl, hlists, rfl⟩ := verifiedEntries_eq hes
    exact ⟨sig, hsig, _, hlists, (List.mem_filter.mp hmem).2⟩
  · rintro ⟨sig, hsig, ⟨incl, excl⟩, hlists, hsigns⟩
    obtain ⟨es, hes⟩ := Option.isSome_iff_exists.mp (hall sig hsig)
    obtain ⟨incl', excl', hlists', rfl⟩ := verifiedEntries_eq hes
    rw [hlists] at hlists'
    obtain ⟨rfl, rfl⟩ := Prod.mk.inj (Option.some.inj hlists')
    exact ⟨sig, hsig, _, hes, List.mem_filter.mpr ⟨List.mem_map_of_mem hp, hsigns⟩⟩

/-- **Strict mode covers everything but what is only excluded.** When the
signatures of a state are accepted in strict mode, everything outside `_sigs/`
is in a verified payload exactly when no key is excluded by one signature
without another one that signs it. -/
theorem strict_covers_iff (env : Env) {json : CStr} {pairs : List Pair}
    (hjson : pvSignatureParseJson env json = some pairs)
    (h : pvSignatureVerify env .strict json = some true) :
    FullySigned env pairs ↔ ExcludedSigned env pairs := by
  obtain ⟨hcov, hall⟩ := verify_strict hjson h
  constructor
  · intro hfull p hp hsigs _
    exact (signedBy_iff hp hall).mp (hfull p hp hsigs)
  · intro hexcl p hp hsigs
    rw [signedBy_iff hp hall]
    have hmark := hcov p hp hsigs
    rw [coveredBy_eq, Bool.or_eq_true] at hmark
    rcases hmark with he | hs
    · exact hexcl p hp hsigs he
    · exact hs

/-- A state with two signatures: one that includes `#spec` and `b` and excludes `a`, and one
that includes `a`. -/
def twoSigners : CStr :=
  str "\x7b\"#spec\":\"x@1\",\"a\":\"1f\",\"b\":\"2e\"," ++ str "\"_sigs/s.json\":" ++
    str "\x7b\"#spec\":\"pvs@2\"," ++ str "\"protected\":\"" ++ str "eyJhbGciOiJSUzI1NiIsInR5" ++
    str "cCI6IlBWUyIsInB2cyI6eyJp" ++ str "bmNsdWRlIjpbIiNzcGVjIiwi" ++
    str "YiJdLCJleGNsdWRlIjpbImEi" ++ str "XX19" ++ str "\",\"signature\":\"c2ln\"\x7d" ++
    str ",\"_sigs/t.json\":" ++
    str "\x7b\"#spec\":\"pvs@2\"," ++ str "\"protected\":\"" ++ str "eyJhbGciOiJSUzI1NiIsInR5" ++
    str "cCI6IlBWUyIsInB2cyI6eyJp" ++ str "bmNsdWRlIjpbImEiXSwiZXhj" ++ str "bHVkZSI6W119fSAg" ++
    str "\",\"signature\":\"c2ln\"\x7d" ++ str "\x7d"

/-- It is accepted, and `a` is signed though it is excluded. -/
theorem strict_covers_iff_twoSigners :
    ∃ pairs, pvSignatureParseJson acceptingEnv twoSigners = some pairs ∧
      pvSignatureVerify acceptingEnv .strict twoSigners = some true ∧
      (∃ p ∈ pairs, underSigs p.key = false ∧
        excludedBy acceptingEnv (signatures acceptingEnv (pairs.map (·.value))) p.key = true) ∧
      FullySigned acceptingEnv pairs := by
  obtain ⟨hverify, pairs, hjson, hsome, hexcluded⟩ :
      pvSignatureVerify acceptingEnv .strict twoSigners = some true ∧
        ∃ pairs ∈ pvSignatureParseJson acceptingEnv twoSigners,
          (∃ p ∈ pairs, underSigs p.key = false ∧
            excludedBy acceptingEnv (signatures acceptingEnv (pairs.map (·.value))) p.key = true) ∧
          ExcludedSigned acceptingEnv pairs := by
    unfold ExcludedSigned
    decide +kernel
  exact ⟨pairs, hjson, hverify, hsome, (strict_covers_iff acceptingEnv hjson hverify).mpr hexcluded⟩

/-- A state with one signature that includes `#spec` and excludes `a`. -/
def excludingState : CStr :=
  str "\x7b\"#spec\":\"x@1\",\"a\":\"1f\"," ++ str "\"_sigs/s.json\":\x7b" ++
    str "\"#spec\":\"pvs@2\"," ++ str "\"protected\":\"eyJhbGciOiJ" ++
    str "SUzI1NiIsInR5cCI6IlBWUyI" ++ str "sInB2cyI6eyJpbmNsdWRlIjp" ++
    str "bIiNzcGVjIl0sImV4Y2x1ZGU" ++ str "iOlsiYSJdfX0g\"," ++ str "\"signature\":\"c2ln\"\x7d\x7d"

/-- **An excluded key that nobody signed passes strict mode.** -/
theorem strict_accepts_unsigned :
    ∃ pairs, pvSignatureParseJson acceptingEnv excludingState = some pairs ∧
      pvSignatureVerify acceptingEnv .strict excludingState = some true ∧
      ¬ FullySigned acceptingEnv pairs := by
  obtain ⟨hverify, pairs, hjson, p, hp, hsigs, hnot⟩ :
      pvSignatureVerify acceptingEnv .strict excludingState = some true ∧
        ∃ pairs ∈ pvSignatureParseJson acceptingEnv excludingState,
          ∃ p ∈ pairs, underSigs p.key = false ∧
            signedBy acceptingEnv (signatures acceptingEnv (pairs.map (·.value))) p.key
              = false := by
    decide +kernel
  refine ⟨pairs, hjson, hverify, fun hfull => ?_⟩
  obtain ⟨-, hall⟩ := verify_strict hjson hverify
  have hsigned := (signedBy_iff hp hall).mp (hfull p hp hsigs)
  rw [hnot] at hsigned
  cases hsigned

end Pantavisor.Signature
