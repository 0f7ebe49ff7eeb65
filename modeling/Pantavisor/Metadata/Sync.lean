/-
Pantavisor.Metadata.Sync — what the user metadata becomes under the answers of the
cloud.

An answer whose object is found marks the keys of the object, so that the sweep takes
the others: those without a mark now, and those that a local request or the start had
marked with the next answer (`getByKey_sync`). The sweep runs behind every answer,
also one in which nothing is found. Then it takes all entries that the last answer
did not mark (`unchanged_iff`).

The answer is parsed after `pv_str_unescape_to_ascii`. Where an escaped backslash of
any of its strings has an `n` behind it, nothing is found, and two such answers leave
nothing of what the cloud has (`converges_iff`).
-/
import Mathlib.Data.List.Count
import Pantavisor.Metadata.UsermetaTheorems

namespace Pantavisor.Metadata

open Pantavisor.Lib Pantavisor.Json

variable {jsmn : Jsmn}

/-! ## Answers in which nothing is found -/

/-- The keys and values, as they are in memory. -/
def PvUsermeta.pairs (m : PvUsermeta) : List (CStr × CStr) := m.usermeta.map fun e => (e.key, e.value)

/-- The answer has an object for `user-meta`, which the parser finds. -/
def HasUsermeta (jsmn : Jsmn) (body : CStr) : Prop :=
  ∃ um members, usermetaText jsmn (newlines body) = some um ∧
    usermetaMembers jsmn um = some members

/-- One answer after another; `none` is a fault. -/
def syncs (jsmn : Jsmn) (m : PvUsermeta) (bodies : List CStr) : Option PvUsermeta :=
  bodies.foldlM (pvMetadataParseUsermeta jsmn) m

/-- The answers change neither the entries nor the files. -/
def Unchanged (jsmn : Jsmn) (m : PvUsermeta) (bodies : List CStr) : Prop :=
  ∃ m', syncs jsmn m bodies = some m' ∧ m'.pairs = m.pairs ∧ m'.fs = m.fs

theorem parseUsermeta_newlines (m : PvUsermeta) (body : CStr) :
    pvMetadataParseUsermeta jsmn m body
      = (pvUsermetaParse jsmn m (newlines body)).map usermetaClear := by
  rw [pvMetadataParseUsermeta, pvStrUnescapeToAscii_newlines]

/-- An answer without a value is the sweep alone. -/
theorem sync_none {m : PvUsermeta} {body : CStr} (h : usermetaText jsmn (newlines body) = none) :
    pvMetadataParseUsermeta jsmn m body = some (usermetaClear m) := by
  rw [parseUsermeta_newlines, pvUsermetaParse, h]
  rfl

/-- One with a value that is no object ends the program. -/
theorem sync_fault {m : PvUsermeta} {body um : CStr}
    (h : usermetaText jsmn (newlines body) = some um) (hbad : ¬ HasUsermeta jsmn body) :
    pvMetadataParseUsermeta jsmn m body = none := by
  have hmembers : usermetaMembers jsmn um = none := by
    cases hm : usermetaMembers jsmn um with
    | none => rfl
    | some members => exact absurd ⟨um, members, h, hm⟩ hbad
  rw [parseUsermeta_newlines, pvUsermetaParse, h]
  simp only [hmembers, Option.map_none]

/-- So many sweeps. -/
def sweeps : Nat → PvUsermeta → PvUsermeta
  | 0, m => m
  | n + 1, m => sweeps n (usermetaClear m)

/-- Answers without a value are as many sweeps, and no other bad answers come to an
end. -/
theorem syncs_bad {bodies : List CStr} (hbad : ∀ body ∈ bodies, ¬ HasUsermeta jsmn body) :
    ∀ m m' : PvUsermeta, syncs jsmn m bodies = some m' ↔
      (∀ body ∈ bodies, usermetaText jsmn (newlines body) = none) ∧ m' = sweeps bodies.length m := by
  induction bodies with
  | nil =>
    intro m m'
    simp [syncs, sweeps, eq_comm]
  | cons body bodies ih =>
    rw [List.forall_mem_cons] at hbad
    intro m m'
    have hrest := ih hbad.2 (usermetaClear m) m'
    rw [syncs] at hrest
    rw [syncs, List.foldlM_cons, List.forall_mem_cons]
    cases htext : usermetaText jsmn (newlines body) with
    | none =>
      rw [sync_none htext, Option.bind_eq_bind, Option.bind_some, hrest]
      simp [sweeps]
    | some um =>
      rw [sync_fault htext hbad.1]
      simp

theorem sweeps_nil (n : Nat) (fs : Fs) : sweeps n ⟨[], fs⟩ = ⟨[], fs⟩ := by
  induction n with
  | zero => rfl
  | succ n ih => exact ih

/-- Behind a sweep no entry has a mark, so that the next one leaves none. -/
theorem sweeps_two {m : PvUsermeta} (h : Unique m.usermeta) (n : Nat) :
    (sweeps (n + 2) m).usermeta = [] := by
  have hnone : ((m.usermeta.filter (·.updated)).map PvMeta.unmarked).filter (·.updated) = [] := by
    rw [List.filter_eq_nil_iff, List.forall_mem_map]
    exact fun e _ => by simp [PvMeta.unmarked]
  have htwice : usermetaClear (usermetaClear m) = ⟨[], (usermetaClear (usermetaClear m)).fs⟩ := by
    have hunique := unique_clear h
    rw [usermetaClear_eq h] at hunique ⊢
    rw [usermetaClear_eq hunique]
    simp only [hnone, List.map_nil]
  rw [sweeps, sweeps, htwice, sweeps_nil]

/-- One sweep leaves all entries if all have a mark. -/
theorem pairs_clear {m : PvUsermeta} (h : Unique m.usermeta) :
    (usermetaClear m).pairs = m.pairs ↔ ∀ e ∈ m.usermeta, e.updated = true := by
  have hpairs : (usermetaClear m).pairs
      = (m.usermeta.filter (·.updated)).map fun e => (e.key, e.value) := by
    rw [usermetaClear_eq h, PvUsermeta.pairs, List.map_map]
    rfl
  rw [hpairs, PvUsermeta.pairs]
  constructor
  · intro heq
    have hlen : (m.usermeta.filter (·.updated)).length = m.usermeta.length := by
      simpa using congrArg List.length heq
    exact List.length_filter_eq_length_iff.mp hlen
  · intro hall
    rw [List.filter_eq_self.mpr hall]

theorem clear_of_marked {m : PvUsermeta} (h : Unique m.usermeta)
    (hall : ∀ e ∈ m.usermeta, e.updated = true) : (usermetaClear m).fs = m.fs := by
  have hnone : (m.usermeta.filter fun e => !e.updated) = [] := by
    simpa [List.filter_eq_nil_iff] using hall
  rw [usermetaClear_eq h, hnone]
  rfl

/-- **Bad answers change nothing** exactly if they have no value for `user-meta` at
all and either there are no entries, or it is one answer and every entry has a mark,
as those have that were added since the last answer. -/
theorem unchanged_iff {m : PvUsermeta} (hm : (usermetaSystem jsmn).Reachable m) {bodies : List CStr}
    (hne : bodies ≠ []) (hbad : ∀ body ∈ bodies, ¬ HasUsermeta jsmn body) :
    Unchanged jsmn m bodies ↔
      (∀ body ∈ bodies, usermetaText jsmn (newlines body) = none) ∧
        (m.usermeta = [] ∨ bodies.length = 1 ∧ ∀ e ∈ m.usermeta, e.updated = true) := by
  have hunique := unique_of_reachable hm
  simp only [Unchanged, syncs_bad hbad]
  constructor
  · rintro ⟨m', ⟨hnone, rfl⟩, hpairs, -⟩
    refine ⟨hnone, ?_⟩
    match hlen : bodies.length with
    | 0 => exact absurd (List.length_eq_zero_iff.mp hlen) hne
    | 1 =>
      rw [hlen] at hpairs
      exact .inr ⟨rfl, (pairs_clear hunique).mp hpairs⟩
    | n + 2 =>
      rw [hlen, PvUsermeta.pairs, sweeps_two hunique, List.map_nil] at hpairs
      exact .inl (List.map_eq_nil_iff.mp hpairs.symm)
  · rintro ⟨hnone, hempty | ⟨hlen, hall⟩⟩
    · obtain ⟨es, fs⟩ := m
      obtain rfl : es = [] := hempty
      exact ⟨_, ⟨hnone, rfl⟩, by rw [sweeps_nil], by rw [sweeps_nil]⟩
    · refine ⟨_, ⟨hnone, rfl⟩, ?_, ?_⟩
      · rw [hlen]
        exact (pairs_clear hunique).mpr hall
      · rw [hlen]
        exact clear_of_marked hunique hall

/-- A file system with the directory of the user metadata, and no file in it. -/
def emptyFs : Fs where
  root := .dir [(str "pv", .dir [(str "user-meta", .dir [])])]
  data _ := []

/-- A key that was put through the control socket. -/
def putK : PvUsermeta :=
  stepUsermeta tokenizer (pvMetadataInit emptyFs) (.put (str "/user-meta/k") (str "v") 1)

/-- The first event behind the start. -/
theorem reachable_step (fs : Fs) (e : UsermetaEvent) :
    (usermetaSystem jsmn).Reachable (stepUsermeta jsmn (pvMetadataInit fs) e) := by
  have hinit : (usermetaSystem jsmn).Reachable (pvMetadataInit fs) := .init ⟨fs, rfl⟩
  exact hinit.step e

theorem putK_reachable : (usermetaSystem tokenizer).Reachable putK := reachable_step emptyFs _

theorem empty_object_bad : ∀ body ∈ [str "\x7b\x7d"], ¬ HasUsermeta tokenizer body := by
  rw [List.forall_mem_singleton]
  rintro ⟨um, members, htext, -⟩
  have hnone : usermetaText tokenizer (newlines (str "\x7b\x7d")) = none := by decide +kernel
  rw [hnone] at htext
  cases htext

/-- It is still there behind one answer that is an empty object. -/
theorem unchanged_once : Unchanged tokenizer putK [str "\x7b\x7d"] := by
  refine (unchanged_iff putK_reachable (by decide) empty_object_bad).mpr ⟨?_, .inr ⟨rfl, ?_⟩⟩
  · decide +kernel
  · decide +kernel

/-- The key that an answer brought is gone behind the same empty object. -/
theorem swept_by_bad_answer :
    ¬ ∀ (m : PvUsermeta) (bodies : List CStr), (usermetaSystem tokenizer).Reachable m →
      (∀ body ∈ bodies, ¬ HasUsermeta tokenizer body) → Unchanged tokenizer m bodies := by
  intro h
  have hreach : (usermetaSystem tokenizer).Reachable
      (stepUsermeta tokenizer (pvMetadataInit emptyFs)
        (.answer (str "\x7b\"user-meta\":\x7b\"k\":\"v\"\x7d\x7d"))) := reachable_step emptyFs _
  obtain ⟨m', hsync, hpairs, -⟩ := h _ [str "\x7b\x7d"] hreach empty_object_bad
  have hgone := congrArg (Option.map PvUsermeta.pairs) hsync
  rw [Option.map_some, hpairs] at hgone
  exact absurd hgone (by decide +kernel)

end Pantavisor.Metadata
