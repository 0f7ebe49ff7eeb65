/-
Pantavisor.Parser.PlatformFaults — of which `run.json` the actions fault.

`parse_platform` sets its platform when it finds a key that starts with `name`. Until
then it is not initialised, and every action but those for `config` and `share` goes
through it, as does the end. So a text without a name faults, unless an array that is
none makes the table end early (`NamelessRejected`). With a name nothing faults, and
the text is rejected for such an array or for a log without keys (`NamedRejected`).

The tokens have to fit together for this: behind a key there is a value, and an array
has its elements (`Sound`).
-/
import Pantavisor.Parser.Platform

namespace Pantavisor.Parser

open Pantavisor.Lib Pantavisor.Json Pantavisor.State

/-! ## Tokens -/

/-- The tokens of a text fit together: a key has a value behind it, and an array as many
elements as its token says. -/
structure Sound (jsmn : Jsmn) : Prop where
  behind : ∀ buf i keys, jsmn.objectKeys buf (tokensOf jsmn buf) i = some keys →
    ∀ k ∈ keys, k + 1 < (tokensOf jsmn buf).length
  elements : ∀ buf k t es, (tokensOf jsmn buf)[k]? = some t →
    jsmn.arrayToks buf (tokensOf jsmn buf) k = some es →
    t.size ≤ es.length ∧ ∀ e ∈ es, e < (tokensOf jsmn buf).length

theorem Sound.mapM {jsmn : Jsmn} (h : Sound jsmn) {buf : CStr} {i : Nat} {keys : List Nat}
    (hkeys : jsmn.objectKeys buf (tokensOf jsmn buf) i = some keys) :
    ∃ ms, keys.mapM (keyAndValue buf (tokensOf jsmn buf)) = some ms := by
  have hall := h.behind buf i keys hkeys
  clear hkeys
  induction keys with
  | nil => exact ⟨[], rfl⟩
  | cons k keys ih =>
    rw [List.forall_mem_cons] at hall
    obtain ⟨ms, hms⟩ := ih hall.2
    have hk : k < (tokensOf jsmn buf).length := by omega
    have hmember : keyAndValue buf (tokensOf jsmn buf) k
        = some (tokText buf (tokensOf jsmn buf)[k], tokText buf (tokensOf jsmn buf)[k + 1]) := by
      rw [keyAndValue, List.getElem?_eq_getElem hk, List.getElem?_eq_getElem hall.1]
      rfl
    exact ⟨_, by rw [List.mapM_cons, hmember, hms]; rfl⟩

/-- The first top-level key of a text that starts so. -/
def keyAt (jsmn : Jsmn) (buf key : CStr) : Option Nat :=
  (jsmn.objectKeys buf (tokensOf jsmn buf) 0).bind fun keys =>
    doLookupJsonKey buf (tokensOf jsmn buf) keys key

/-- The value of such a key is no array. -/
def NoArray (jsmn : Jsmn) (buf key : CStr) : Prop :=
  ∃ k, keyAt jsmn buf key = some k ∧ jsmn.arrayToks buf (tokensOf jsmn buf) (k + 1) = none

/-- The elements of the value of such a key. -/
def elementsAt (jsmn : Jsmn) (buf key : CStr) : List Nat :=
  match keyAt jsmn buf key with
  | none => []
  | some k =>
    match (tokensOf jsmn buf)[k + 1]?, jsmn.arrayToks buf (tokensOf jsmn buf) (k + 1) with
    | some value, some es => es.take value.size
    | _, _ => []

/-- An element that is no object, or an empty one. -/
def NoKeys (jsmn : Jsmn) (buf : CStr) (e : Nat) : Prop :=
  jsmn.objectKeyCount buf (tokensOf jsmn buf) e = 0 ∨
    jsmn.objectKeys buf (tokensOf jsmn buf) e = none

/-! ## With a name -/

/-- A text with a name that is rejected. -/
def NamedRejected (jsmn : Jsmn) (buf : CStr) : Prop :=
  NoArray jsmn buf (str "roles") ∨ NoArray jsmn buf (str "volumes") ∨
    NoArray jsmn buf (str "logs") ∨ ∃ e ∈ elementsAt jsmn buf (str "logs"), NoKeys jsmn buf e

/-- An outcome with a platform to write to: -1 if something is bad, and else 0. -/
structure Outcome (a : Addr) (bad : Prop) (o : Option (Int × PlatformBundle)) : Prop where
  rejected : bad → ∃ b, o = some (-1, b)
  goesOn : ¬ bad → ∃ b, o = some (0, b) ∧ b.this = some a

variable {a : Addr}

theorem outcome_zero {o : Option (Int × PlatformBundle)} {b : PlatformBundle}
    (ho : o = some (0, b)) (hb : b.this = some a) : Outcome a False o :=
  ⟨False.elim, fun _ => ⟨b, ho, hb⟩⟩

theorem Outcome.congr {bad bad' : Prop} {o : Option (Int × PlatformBundle)}
    (h : Outcome a bad o) (hiff : bad ↔ bad') : Outcome a bad' o :=
  ⟨fun hbad => h.rejected (hiff.mpr hbad), fun hbad => h.goesOn fun hb => hbad (hiff.mp hb)⟩

theorem Outcome.andThen {bad bad' : Prop} {o : Option (Int × PlatformBundle)}
    {f : PlatformBundle → Option (Int × PlatformBundle)} (h : Outcome a bad o)
    (hf : ∀ b, b.this = some a → Outcome a bad' (f b)) : Outcome a (bad ∨ bad') (andThen o f) := by
  by_cases hbad : bad
  · obtain ⟨b, rfl⟩ := h.rejected hbad
    exact ⟨fun _ => ⟨b, rfl⟩, fun hnot => absurd (.inl hbad) hnot⟩
  · obtain ⟨b, rfl, hb⟩ := h.goesOn hbad
    exact (hf b hb).congr ⟨.inr, fun hor => hor.resolve_left hbad⟩

theorem outcome_modify {b : PlatformBundle} (hb : b.this = some a) (f : Platform → Platform) :
    Outcome a False (b.modify f) :=
  outcome_zero (by rw [PlatformBundle.modify, hb]; rfl) rfl

theorem outcome_doArrayLoop {action : Nat → PlatformBundle → Option (Int × PlatformBundle)}
    {bad : Nat → Prop} {count : Nat} {es : List Nat} (hlen : count ≤ es.length)
    (h : ∀ e ∈ es, ∀ b, b.this = some a → Outcome a (bad e) (action e b)) {b : PlatformBundle}
    (hb : b.this = some a) : Outcome a (∃ e ∈ es.take count, bad e) (doArrayLoop action count es b) := by
  induction count generalizing es b with
  | zero => exact (outcome_zero rfl hb).congr (by simp)
  | succ count ih =>
    cases es with
    | nil => cases hlen
    | cons e es =>
      rw [List.forall_mem_cons] at h
      rw [doArrayLoop_cons]
      refine ((h.1 b hb).andThen fun b' hb' => ih (Nat.le_of_succ_le_succ hlen) h.2 hb').congr ?_
      rw [List.take_succ_cons, List.exists_mem_cons_iff]

/-- What makes an entry of the table return -1. -/
def BadEntry (jsmn : Jsmn) (buf : CStr) (entry : JsonKeyAction PlatformBundle) : Prop :=
  match entry.action with
  | .array _ => NoArray jsmn buf entry.key ∨
      entry.key = str "logs" ∧ ∃ e ∈ elementsAt jsmn buf (str "logs"), NoKeys jsmn buf e
  | _ => False

variable {jsmn : Jsmn} {buf : CStr} {keys : List Nat}

theorem keyAt_eq (hkeys : jsmn.objectKeys buf (tokensOf jsmn buf) 0 = some keys) (key : CStr) :
    keyAt jsmn buf key = doLookupJsonKey buf (tokensOf jsmn buf) keys key := by
  rw [keyAt, hkeys, Option.bind_some]

/-- There is a value behind a key that is found. -/
theorem value_of_lookup (hsound : Sound jsmn)
    (hkeys : jsmn.objectKeys buf (tokensOf jsmn buf) 0 = some keys) {key : CStr} {k : Nat}
    (hk : doLookupJsonKey buf (tokensOf jsmn buf) keys key = some k) :
    ∃ value, (tokensOf jsmn buf)[k + 1]? = some value :=
  ⟨_, List.getElem?_eq_getElem (hsound.behind buf 0 keys hkeys k (List.mem_of_find?_eq_some hk))⟩

/-- An entry with an array, when each element has its outcome. -/
theorem outcome_array (hsound : Sound jsmn)
    (hkeys : jsmn.objectKeys buf (tokensOf jsmn buf) 0 = some keys)
    {action : CStr → List Tok → Nat → PlatformBundle → Option (Int × PlatformBundle)} {key : CStr}
    (bad : Nat → Prop) {k : Nat} (hk : doLookupJsonKey buf (tokensOf jsmn buf) keys key = some k)
    (h : ∀ e < (tokensOf jsmn buf).length, ∀ b, b.this = some a →
      Outcome a (bad e) (action buf (tokensOf jsmn buf) e b))
    {b : PlatformBundle} (hb : b.this = some a) :
    Outcome a (NoArray jsmn buf key ∨ ∃ e ∈ elementsAt jsmn buf key, bad e)
      (doOneJkaAction jsmn buf (tokensOf jsmn buf) k (.array action) b) := by
  obtain ⟨value, hvalue⟩ := value_of_lookup hsound hkeys hk
  have hat : keyAt jsmn buf key = some k := (keyAt_eq hkeys key).trans hk
  rw [doOneJkaAction, hvalue]
  dsimp only
  cases hes : jsmn.arrayToks buf (tokensOf jsmn buf) (k + 1) with
  | none => exact ⟨fun _ => ⟨b, rfl⟩, fun hnot => absurd (.inl ⟨k, hat, hes⟩) hnot⟩
  | some es =>
    obtain ⟨hlen, hin⟩ := hsound.elements buf (k + 1) value es hvalue hes
    refine (outcome_doArrayLoop hlen (fun e he => h e (hin e he)) hb).congr ?_
    have helements : elementsAt jsmn buf key = es.take value.size := by
      simp only [elementsAt, hat, hvalue, hes]
    have hnot : ¬ NoArray jsmn buf key := by
      rintro ⟨k', hk', hnone⟩
      rw [hat, Option.some.injEq] at hk'
      rw [← hk', hes] at hnone
      cases hnone
    rw [helements]
    exact ⟨.inr, fun hor => hor.resolve_left hnot⟩

/-- Every entry behind the name has its outcome. -/
theorem outcome_entry (hsound : Sound jsmn)
    (hkeys : jsmn.objectKeys buf (tokensOf jsmn buf) 0 = some keys) :
    ∀ entry ∈ (system1PlatformKeyAction jsmn).tail, ∀ k,
      doLookupJsonKey buf (tokensOf jsmn buf) keys entry.key = some k →
      ∀ b, b.this = some a → Outcome a (BadEntry jsmn buf entry)
        (doOneJkaAction jsmn buf (tokensOf jsmn buf) k entry.action b) := by
  have hstring : ∀ {key : CStr} {k : Nat}
      {action : CStr → PlatformBundle → Option (Int × PlatformBundle)} {b : PlatformBundle},
      doLookupJsonKey buf (tokensOf jsmn buf) keys key = some k →
      (∀ value, Outcome a False (action value b)) →
      Outcome a False (doOneJkaAction jsmn buf (tokensOf jsmn buf) k (.string action) b) ∧
      Outcome a False (doOneJkaAction jsmn buf (tokensOf jsmn buf) k (.object action) b) := by
    intro key k action b hk h
    obtain ⟨value, hvalue⟩ := value_of_lookup hsound hkeys hk
    rw [doOneJkaAction, doOneJkaAction, hvalue]
    exact ⟨h _, h _⟩
  have hvolume : ∀ value b, b.this = some a → Outcome a False (doActionForOneVolume value b) :=
    fun value b hb => outcome_zero (by rw [doActionForOneVolume, hb]; rfl) rfl
  intro entry hentry k hk b hb
  simp only [system1PlatformKeyAction, List.tail_cons, List.mem_cons, List.not_mem_nil, or_false]
    at hentry
  rcases hentry with rfl | rfl | rfl | rfl | rfl | rfl | rfl | rfl | rfl | rfl
  · exact (hstring hk fun _ => outcome_modify hb _).1
  · exact (hstring hk fun _ => outcome_modify hb _).1
  · exact (hstring hk fun _ => outcome_modify hb _).2
  · refine (outcome_array hsound hkeys (fun _ => False) hk (fun e he b hb => ?_) hb).congr ?_
    · rw [doActionForRolesArray, List.getElem?_eq_getElem he]
      exact outcome_modify hb _
    · have hne : str "roles" ≠ str "logs" := by decide
      simp [BadEntry, hne]
  · refine (hstring hk fun value => ?_).1
    exact outcome_zero (b := { b with config := some value }) rfl hb
  · refine (hstring hk fun value => ?_).1
    exact outcome_zero (b := { b with shares := some value }) rfl hb
  · exact (hstring hk fun value => hvolume value b hb).1
  · refine (outcome_array hsound hkeys (fun _ => False) hk (fun e he b hb => ?_) hb).congr ?_
    · rw [doActionForVolumes, List.getElem?_eq_getElem he]
      exact hvolume _ b hb
    · have hne : str "volumes" ≠ str "logs" := by decide
      simp [BadEntry, hne]
  · refine (outcome_array hsound hkeys (NoKeys jsmn buf) hk (fun e he b hb => ?_) hb).congr ?_
    · rw [doActionForOneLog, hb]
      refine ⟨fun hbad => ⟨b, if_pos ?_⟩, fun hbad => ⟨b, if_neg ?_, hb⟩⟩
      · simpa [NoKeys] using hbad
      · simpa [NoKeys] using hbad
    · simp [BadEntry]
  · refine (hstring hk fun value => ?_).2
    rw [doActionForStorage, hb]
    cases hobject : jsmn.objectKeys value (tokensOf jsmn value) 0 with
    | none => exact outcome_zero rfl hb
    | some inner =>
      obtain ⟨ms, hms⟩ := hsound.mapM hobject
      simp only [Option.bind_eq_bind, Option.bind_some, hms]
      exact outcome_zero rfl rfl

theorem outcome_loop {table : List (JsonKeyAction PlatformBundle)}
    (hkeys : jsmn.objectKeys buf (tokensOf jsmn buf) 0 = some keys)
    (h : ∀ entry ∈ table, ∀ k, doLookupJsonKey buf (tokensOf jsmn buf) keys entry.key = some k →
      ∀ b, b.this = some a → Outcome a (BadEntry jsmn buf entry)
        (doOneJkaAction jsmn buf (tokensOf jsmn buf) k entry.action b))
    {b : PlatformBundle} (hb : b.this = some a)
    (hbad : ∀ entry ∈ table, BadEntry jsmn buf entry → keyAt jsmn buf entry.key ≠ none) :
    Outcome a (∃ entry ∈ table, BadEntry jsmn buf entry)
      (keyActionLoop jsmn buf (tokensOf jsmn buf) keys table b) := by
  induction table generalizing b with
  | nil => exact (outcome_zero rfl hb).congr (by simp)
  | cons entry table ih =>
    rw [List.forall_mem_cons] at h hbad
    rw [List.exists_mem_cons_iff]
    cases hk : doLookupJsonKey buf (tokensOf jsmn buf) keys entry.key with
    | none =>
      have hnot : ¬ BadEntry jsmn buf entry := fun hb => hbad.1 hb ((keyAt_eq hkeys _).trans hk)
      simp only [keyActionLoop, hk]
      exact (ih h.2 hb hbad.2).congr ⟨.inr, fun hor => hor.resolve_left hnot⟩
    | some k =>
      rw [keyActionLoop_found hk]
      exact (h.1 k hk b hb).andThen fun b' hb' => ih h.2 hb' hbad.2

/-- **With a name**, the table goes through, or the text is rejected. -/
theorem outcome_named (hsound : Sound jsmn)
    (hkeys : jsmn.objectKeys buf (tokensOf jsmn buf) 0 = some keys) {b : PlatformBundle}
    (hb : b.this = some a) :
    Outcome a (NamedRejected jsmn buf)
      (keyActionLoop jsmn buf (tokensOf jsmn buf) keys (system1PlatformKeyAction jsmn).tail b) := by
  have hlogs : ∀ e ∈ elementsAt jsmn buf (str "logs"), keyAt jsmn buf (str "logs") ≠ none := by
    intro e he hnone
    rw [elementsAt, hnone] at he
    cases he
  refine (outcome_loop hkeys (outcome_entry hsound hkeys) hb fun entry hentry hbad => ?_).congr ?_
  · rw [BadEntry] at hbad
    split at hbad
    · rcases hbad with ⟨k, hk, -⟩ | ⟨hkey, e, he, -⟩
      · rw [hk]
        simp
      · rw [hkey]
        exact hlogs e he
    · cases hbad
  · have hroles : str "roles" ≠ str "logs" := by decide
    have hvolumes : str "volumes" ≠ str "logs" := by decide
    simp [system1PlatformKeyAction, BadEntry, NamedRejected, hroles, hvolumes]

/-! ## Without a name -/

/-- A text without a name that is rejected before a fault. -/
structure NamelessRejected (jsmn : Jsmn) (buf : CStr) : Prop where
  type : keyAt jsmn buf (str "type") = none
  runlevel : keyAt jsmn buf (str "runlevel") = none
  roles : keyAt jsmn buf (str "roles") = none
  rootVolume : keyAt jsmn buf (str "root-volume") = none
  arrays : NoArray jsmn buf (str "volumes") ∨ elementsAt jsmn buf (str "volumes") = [] ∧
    (NoArray jsmn buf (str "logs") ∨
      ∃ e ∈ (elementsAt jsmn buf (str "logs")).head?, NoKeys jsmn buf e)

/-- The rest of the table rejects the text. -/
def Rejects (jsmn : Jsmn) (buf : CStr) (keys : List Nat)
    (table : List (JsonKeyAction PlatformBundle)) (b : PlatformBundle) : Prop :=
  ∃ ret b', keyActionLoop jsmn buf (tokensOf jsmn buf) keys table b = some (ret, b') ∧ ret ≠ 0

/-- An entry that faults if its key is there. -/
theorem rejects_fault {entry : JsonKeyAction PlatformBundle}
    {table : List (JsonKeyAction PlatformBundle)} {b : PlatformBundle}
    (hkeys : jsmn.objectKeys buf (tokensOf jsmn buf) 0 = some keys)
    (h : ∀ k, doOneJkaAction jsmn buf (tokensOf jsmn buf) k entry.action b = none) :
    Rejects jsmn buf keys (entry :: table) b ↔
      keyAt jsmn buf entry.key = none ∧ Rejects jsmn buf keys table b := by
  rw [Rejects, keyAt_eq hkeys]
  cases hk : doLookupJsonKey buf (tokensOf jsmn buf) keys entry.key with
  | none =>
    simp only [keyActionLoop, hk, true_and]
    rfl
  | some k =>
    rw [keyActionLoop_found hk, h k]
    simp [andThen]

/-- An entry that goes on without a platform, too. -/
theorem rejects_skip {entry : JsonKeyAction PlatformBundle}
    {table : List (JsonKeyAction PlatformBundle)} {b : PlatformBundle} {p : Prop}
    (hb : b.this = none)
    (h : ∀ k, doLookupJsonKey buf (tokensOf jsmn buf) keys entry.key = some k →
      ∃ b', b'.this = none ∧
        doOneJkaAction jsmn buf (tokensOf jsmn buf) k entry.action b = some (0, b'))
    (hrest : ∀ b', b'.this = none → (Rejects jsmn buf keys table b' ↔ p)) :
    Rejects jsmn buf keys (entry :: table) b ↔ p := by
  cases hk : doLookupJsonKey buf (tokensOf jsmn buf) keys entry.key with
  | none =>
    rw [← hrest b hb, Rejects]
    simp only [keyActionLoop, hk]
    rfl
  | some k =>
    obtain ⟨b', hb', hrun⟩ := h k hk
    rw [← hrest b' hb', Rejects, keyActionLoop_found hk, hrun]
    rfl

/-- An entry with an array: it is none, it is empty, or what the first element does. -/
theorem rejects_array (hsound : Sound jsmn)
    (hkeys : jsmn.objectKeys buf (tokensOf jsmn buf) 0 = some keys)
    {action : CStr → List Tok → Nat → PlatformBundle → Option (Int × PlatformBundle)} {key : CStr}
    {table : List (JsonKeyAction PlatformBundle)} {b : PlatformBundle} (bad : Nat → Prop)
    (h : ∀ e < (tokensOf jsmn buf).length,
      (bad e → action buf (tokensOf jsmn buf) e b = some (-1, b)) ∧
      (¬ bad e → action buf (tokensOf jsmn buf) e b = none)) :
    Rejects jsmn buf keys (⟨key, .array action⟩ :: table) b ↔
      NoArray jsmn buf key ∨ (∃ e ∈ (elementsAt jsmn buf key).head?, bad e) ∨
        ¬ NoArray jsmn buf key ∧ elementsAt jsmn buf key = [] ∧ Rejects jsmn buf keys table b := by
  have hat := keyAt_eq hkeys key
  cases hk : doLookupJsonKey buf (tokensOf jsmn buf) keys key with
  | none =>
    rw [hk] at hat
    have hnot : ¬ NoArray jsmn buf key := by
      rintro ⟨k, hk', -⟩
      rw [hat] at hk'
      cases hk'
    have hempty : elementsAt jsmn buf key = [] := by simp only [elementsAt, hat]
    rw [hempty]
    simp [Rejects, keyActionLoop, hk, hnot]
  | some k =>
    rw [hk] at hat
    obtain ⟨value, hvalue⟩ := value_of_lookup hsound hkeys hk
    rw [Rejects, keyActionLoop_found hk, doOneJkaAction, hvalue]
    dsimp only
    cases hes : jsmn.arrayToks buf (tokensOf jsmn buf) (k + 1) with
    | none =>
      have hnoArray : NoArray jsmn buf key := ⟨k, hat, hes⟩
      simp [andThen, hnoArray]
    | some es =>
      obtain ⟨hlen, hin⟩ := hsound.elements buf (k + 1) value es hvalue hes
      have helements : elementsAt jsmn buf key = es.take value.size := by
        simp only [elementsAt, hat, hvalue, hes]
      have hnot : ¬ NoArray jsmn buf key := by
        rintro ⟨k', hk', hnone⟩
        rw [hat, Option.some.injEq] at hk'
        rw [← hk', hes] at hnone
        cases hnone
      rw [helements]
      cases hsize : value.size with
      | zero => simp [andThen, doArrayLoop, hnot, Rejects]
      | succ count =>
        cases es with
        | nil =>
          rw [hsize] at hlen
          cases hlen
        | cons e es =>
          obtain ⟨hbad, hfault⟩ := h e (hin e List.mem_cons_self)
          dsimp only
          rw [doArrayLoop_cons]
          by_cases he : bad e
          · rw [hbad he]
            simp [andThen, he]
          · rw [hfault he]
            simp [andThen, he, hnot]

/-- **Without a name**, the table rejects the text only if it does before a fault. -/
theorem rejects_nameless (hsound : Sound jsmn)
    (hkeys : jsmn.objectKeys buf (tokensOf jsmn buf) 0 = some keys) {b : PlatformBundle}
    (hb : b.this = none) :
    Rejects jsmn buf keys (system1PlatformKeyAction jsmn).tail b ↔ NamelessRejected jsmn buf := by
  have hmodify : ∀ {b : PlatformBundle} (f : Platform → Platform), b.this = none →
      b.modify f = none := fun {b} f hb => by rw [PlatformBundle.modify, hb]; rfl
  have hvolume : ∀ {b : PlatformBundle} value, b.this = none → doActionForOneVolume value b = none :=
    fun {b} value hb => by rw [doActionForOneVolume, hb]; rfl
  have hstring : ∀ {action : CStr → PlatformBundle → Option (Int × PlatformBundle)}
      {b : PlatformBundle} (k : Nat), (∀ value, action value b = none) →
      doOneJkaAction jsmn buf (tokensOf jsmn buf) k (.string action) b = none ∧
      doOneJkaAction jsmn buf (tokensOf jsmn buf) k (.object action) b = none := by
    intro action b k h
    rw [doOneJkaAction, doOneJkaAction]
    cases (tokensOf jsmn buf)[k + 1]? with
    | none => exact ⟨rfl, rfl⟩
    | some value => exact ⟨h _, h _⟩
  -- behind the roles
  have hrest : keyAt jsmn buf (str "roles") = none →
      (Rejects jsmn buf keys ((system1PlatformKeyAction jsmn).drop 4) b ↔
        keyAt jsmn buf (str "root-volume") = none ∧
          (NoArray jsmn buf (str "volumes") ∨ elementsAt jsmn buf (str "volumes") = [] ∧
            (NoArray jsmn buf (str "logs") ∨
              ∃ e ∈ (elementsAt jsmn buf (str "logs")).head?, NoKeys jsmn buf e))) := by
    intro hroles
    refine rejects_skip hb (fun k hk => ?_) fun b hb => rejects_skip hb (fun k hk => ?_) fun b hb =>
      rejects_skip hb (fun k hk => ?_) fun b hb => ?_
    · rw [keyAt_eq hkeys] at hroles
      rw [hroles] at hk
      cases hk
    · obtain ⟨value, hvalue⟩ := value_of_lookup hsound hkeys hk
      exact ⟨{ b with config := some _ }, hb, by rw [doOneJkaAction, hvalue]⟩
    · obtain ⟨value, hvalue⟩ := value_of_lookup hsound hkeys hk
      exact ⟨{ b with shares := some _ }, hb, by rw [doOneJkaAction, hvalue]⟩
    · have hnil : ¬ Rejects jsmn buf keys [] b := by
        rintro ⟨ret, b', hrun, hret⟩
        exact hret (Prod.mk.inj (Option.some.inj hrun)).1.symm
      have hstorage : ∀ value, doActionForStorage jsmn value b = none := fun value => by
        rw [doActionForStorage, hb]
        rfl
      rw [rejects_fault hkeys fun k => (hstring k fun value => hvolume value hb).1,
        rejects_array hsound hkeys (fun _ => False) fun e he => ⟨False.elim, fun _ => ?_⟩,
        rejects_array hsound hkeys (NoKeys jsmn buf) fun e he => ⟨fun hbad => ?_, fun hbad => ?_⟩,
        rejects_fault hkeys fun k => (hstring k hstorage).2]
      · simp only [hnil, and_false, exists_const, false_or, or_false]
        tauto
      · rw [doActionForOneLog]
        exact if_pos (by simpa [NoKeys] using hbad)
      · rw [doActionForOneLog, hb]
        exact if_neg (by simpa [NoKeys] using hbad)
      · rw [doActionForVolumes, List.getElem?_eq_getElem he]
        exact hvolume _ hb
  have htable : (system1PlatformKeyAction jsmn).tail
      = ⟨str "type", .string doActionForType⟩ :: ⟨str "runlevel", .string doActionForRunlevel⟩ ::
        ⟨str "roles", .object doActionForRolesObject⟩ :: (system1PlatformKeyAction jsmn).drop 4 := rfl
  rw [htable, rejects_fault hkeys fun k => (hstring k fun _ => hmodify _ hb).1,
    rejects_fault hkeys fun k => (hstring k fun _ => hmodify _ hb).1,
    rejects_fault hkeys fun k => (hstring k fun _ => hmodify _ hb).2]
  constructor
  · rintro ⟨htype, hrunlevel, hroles, hrejects⟩
    obtain ⟨hroot, harrays⟩ := (hrest hroles).mp hrejects
    exact ⟨htype, hrunlevel, hroles, hroot, harrays⟩
  · rintro ⟨htype, hrunlevel, hroles, hroot, harrays⟩
    exact ⟨htype, hrunlevel, hroles, (hrest hroles).mpr ⟨hroot, harrays⟩⟩

/-- Without a name the platform stays unset. -/
theorem keeps_unset (jsmn : Jsmn) : ∀ entry ∈ (system1PlatformKeyAction jsmn).tail,
    entry.action.Keeps fun b => b.this = none := by
  have hmodify : ∀ {b b' : PlatformBundle} {f : Platform → Platform} {ret : Int},
      b.this = none → b.modify f = some (ret, b') → b'.this = none := by
    intro b b' f ret hb h
    rw [PlatformBundle.modify, hb] at h
    cases h
  have hvolume : ∀ {b b' : PlatformBundle} {value : CStr} {ret : Int}, b.this = none →
      doActionForOneVolume value b = some (ret, b') → b'.this = none := by
    intro b b' value ret hb h
    rw [doActionForOneVolume, hb] at h
    cases h
  intro entry hentry
  simp only [system1PlatformKeyAction, List.tail_cons, List.mem_cons, List.not_mem_nil, or_false]
    at hentry
  rcases hentry with rfl | rfl | rfl | rfl | rfl | rfl | rfl | rfl | rfl | rfl
  · rintro value b _ ⟨rfl, hb⟩
    exact agree_self fun _ _ h => hmodify hb h
  · rintro value b _ ⟨rfl, hb⟩
    exact agree_self fun _ _ h => hmodify hb h
  · rintro buf b _ ⟨rfl, hb⟩
    exact agree_self fun _ _ h => hmodify hb h
  · rintro buf toks k b _ ⟨rfl, hb⟩
    refine agree_self fun _ _ h => ?_
    obtain ⟨value, -, h⟩ := Option.bind_eq_some_iff.mp h
    exact hmodify hb h
  · rintro value b _ ⟨rfl, hb⟩
    exact agree_some ⟨rfl, hb⟩
  · rintro value b _ ⟨rfl, hb⟩
    exact agree_some ⟨rfl, hb⟩
  · rintro value b _ ⟨rfl, hb⟩
    exact agree_self fun _ _ h => hvolume hb h
  · rintro buf toks k b _ ⟨rfl, hb⟩
    refine agree_self fun _ _ h => ?_
    obtain ⟨value, -, h⟩ := Option.bind_eq_some_iff.mp h
    exact hvolume hb h
  · rintro buf toks k b _ ⟨rfl, hb⟩
    refine agree_self fun _ _ h => ?_
    rw [doActionForOneLog, hb] at h
    split at h
    · rw [← (Prod.mk.inj (Option.some.inj h)).2]
      exact hb
    · cases h
  · rintro buf b _ ⟨rfl, hb⟩
    refine agree_self fun _ _ h => ?_
    rw [doActionForStorage, hb] at h
    cases h

/-! ## The whole text -/

/-- A `run.json` that is rejected. -/
def PlatformRejected (jsmn : Jsmn) (buf : CStr) : Prop :=
  jsmn.parse buf = none ∨ tokensOf jsmn buf ≠ [] ∧
    (jsmn.objectKeys buf (tokensOf jsmn buf) 0 = none ∨
      keyAt jsmn buf (str "name") = none ∧ NamelessRejected jsmn buf ∨
      keyAt jsmn buf (str "name") ≠ none ∧ NamedRejected jsmn buf)

/-- A `run.json` that faults: it has no token at all, or it is an object without a name
that is not rejected before. -/
def PlatformFaults (jsmn : Jsmn) (buf : CStr) : Prop :=
  jsmn.parse buf = some [] ∨ tokensOf jsmn buf ≠ [] ∧
    jsmn.objectKeys buf (tokensOf jsmn buf) 0 ≠ none ∧
    keyAt jsmn buf (str "name") = none ∧ ¬ NamelessRejected jsmn buf

/-- What the end of `parse_platform` makes of an outcome. -/
theorem finishPlatform_none {o : Option (Int × PlatformBundle)} :
    finishPlatform o = none ↔ o = none ∨ ∃ b, o = some (0, b) ∧ b.this = none := by
  rcases o with _ | ⟨ret, b⟩
  · simp [finishPlatform]
  · by_cases hret : ret = 0
    · cases hb : b.this <;> simp [finishPlatform, hret, hb]
    · simp [finishPlatform, hret]

theorem finishPlatform_rejects {o : Option (Int × PlatformBundle)} :
    (∃ ret t, finishPlatform o = some (ret, t) ∧ ret ≠ 0) ↔ ∃ ret b, o = some (ret, b) ∧ ret ≠ 0 := by
  rcases o with _ | ⟨ret, b⟩
  · simp [finishPlatform]
  · by_cases hret : ret = 0
    · cases hb : b.this <;> simp [finishPlatform, hret, hb]
    · simp [finishPlatform, hret]

/-- **What `parse_platform` does with a text**: it faults, or rejects the text, or goes
through. -/
theorem parsePlatform_outcome (hsound : Sound jsmn) (s : PvState) (buf : CStr) :
    (parsePlatform jsmn s buf = none ↔ PlatformFaults jsmn buf) ∧
      ((∃ ret t, parsePlatform jsmn s buf = some (ret, t) ∧ ret ≠ 0) ↔
        PlatformRejected jsmn buf) := by
  rw [parsePlatform_eq, finishPlatform_none, finishPlatform_rejects, PlatformFaults, PlatformRejected]
  rcases hparse : jsmn.parse buf with _ | _ | ⟨t, ts⟩
  · have htoks : tokensOf jsmn buf = [] := by rw [tokensOf, hparse, Option.getD_none]
    simp [startJsonParsingWithAction, hparse, htoks]
  · have htoks : tokensOf jsmn buf = [] := by rw [tokensOf, hparse, Option.getD_some]
    simp [startJsonParsingWithAction, hparse, htoks]
  · have htoks : tokensOf jsmn buf = t :: ts := by rw [tokensOf, hparse, Option.getD_some]
    have hne : tokensOf jsmn buf ≠ [] := by rw [htoks]; simp
    have hstart : startJsonParsingWithAction jsmn buf (system1PlatformKeyAction jsmn)
        ⟨s, none, none, none⟩ = (jsmn.objectKeys buf (tokensOf jsmn buf) 0).elim
          (some (-1, ⟨s, none, none, none⟩)) fun keys =>
            keyActionLoop jsmn buf (tokensOf jsmn buf) keys (system1PlatformKeyAction jsmn)
              ⟨s, none, none, none⟩ := by
      rw [startJsonParsingWithAction, hparse, htoks]
      dsimp only
      cases jsmn.objectKeys buf (t :: ts) 0 <;> rfl
    rw [hstart]
    cases hkeys : jsmn.objectKeys buf (tokensOf jsmn buf) 0 with
    | none => simp [hne]
    | some keys =>
      have hname := keyAt_eq hkeys (str "name")
      have htable : system1PlatformKeyAction jsmn
          = ⟨str "name", .string doActionForName⟩ :: (system1PlatformKeyAction jsmn).tail := rfl
      rw [Option.elim_some]
      rw [htable]
      cases hfound : doLookupJsonKey buf (tokensOf jsmn buf) keys (str "name") with
      | none =>
        rw [hfound] at hname
        simp only [keyActionLoop, hfound]
        have hrejects := rejects_nameless hsound hkeys (b := ⟨s, none, none, none⟩) rfl
        rw [Rejects] at hrejects
        rw [hrejects]
        refine ⟨?_, by simp [hne, hname]⟩
        constructor
        · intro hfault
          refine .inr ⟨hne, by simp, hname, fun hnameless => ?_⟩
          obtain ⟨ret, b, hrun, hret⟩ := hrejects.mpr hnameless
          rcases hfault with hnone | ⟨b', hzero, -⟩
          · rw [hrun] at hnone
            cases hnone
          · rw [hrun] at hzero
            exact hret (Prod.mk.inj (Option.some.inj hzero)).1
        · rintro (hnil | ⟨-, -, -, hnot⟩)
          · cases hnil
          · rcases hrun : keyActionLoop jsmn buf (tokensOf jsmn buf) keys
              (system1PlatformKeyAction jsmn).tail ⟨s, none, none, none⟩ with _ | ⟨ret, b⟩
            · exact .inl rfl
            · by_cases hret : ret = 0
              · rw [hret]
                exact .inr ⟨b, rfl, keyActionLoop_keeps (keeps_unset jsmn) rfl hrun⟩
              · exact absurd (hrejects.mp ⟨ret, b, hrun, hret⟩) hnot
      | some k =>
        rw [hfound] at hname
        have hne' : keyAt jsmn buf (str "name") ≠ none := by rw [hname]; simp
        obtain ⟨value, hvalue⟩ := value_of_lookup hsound hkeys hfound
        obtain ⟨b, hb, hrun⟩ : ∃ b : PlatformBundle, b.this = some ⟨s.alloc, s.platforms.length⟩ ∧
            doOneJkaAction jsmn buf (tokensOf jsmn buf) k (.string doActionForName)
              ⟨s, none, none, none⟩ = some (0, b) := by
          refine ⟨_, ?_, by rw [doOneJkaAction, hvalue]; rfl⟩
          rfl
        have hout := outcome_named hsound hkeys hb
        rw [keyActionLoop_found hfound, hrun, andThen_zero]
        by_cases hbad : NamedRejected jsmn buf
        · obtain ⟨b', hloop⟩ := hout.rejected hbad
          rw [hloop]
          simp [hne, hne', hbad]
        · obtain ⟨b', hloop, hb'⟩ := hout.goesOn hbad
          rw [hloop]
          simp [hne, hne', hbad, hb']

end Pantavisor.Parser
