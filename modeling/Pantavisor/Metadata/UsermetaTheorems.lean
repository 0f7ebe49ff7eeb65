/-
Pantavisor.Metadata.UsermetaTheorems — what the calls on the user metadata do, one
lemma for each.

The entries are told by their keys: `pv_metadata_get_by_key` is what every other call
sees of the list. An addition sets one key (`getByKey_addUsermeta`), the sweep keeps
the marked entries and takes their marks (`usermetaClear_usermeta`), and no call gives
a key twice (`unique_addUsermeta`, `unique_clear`).
-/
import Pantavisor.Metadata.Usermeta
import Mathlib.Data.List.Nodup

namespace Pantavisor.Metadata

open Pantavisor.Lib Pantavisor.Json

/-! ## Entries -/

/-- No two entries have one key. -/
def Unique (es : List PvMeta) : Prop := (es.map (·.key)).Nodup

theorem eq_of_parts {m m' : PvUsermeta} (husermeta : m.usermeta = m'.usermeta) (hfs : m.fs = m'.fs) :
    m = m' := by
  cases m
  cases m'
  simp only at husermeta hfs
  rw [husermeta, hfs]

/-- The value of a key. -/
def PvUsermeta.value (m : PvUsermeta) (key : CStr) : Option CStr :=
  (pvMetadataGetByKey m.usermeta key).map (·.value)

@[simp] theorem getByKey_nil (k : CStr) : pvMetadataGetByKey [] k = none := rfl

theorem getByKey_cons (curr : PvMeta) (rest : List PvMeta) (k : CStr) :
    pvMetadataGetByKey (curr :: rest) k
      = if curr.key = k then some curr else pvMetadataGetByKey rest k := by
  rw [pvMetadataGetByKey, List.find?_cons]
  by_cases h : curr.key = k <;> simp [h, pvMetadataGetByKey]

theorem key_of_getByKey {es : List PvMeta} {k : CStr} {e : PvMeta}
    (h : pvMetadataGetByKey es k = some e) : e.key = k := by
  simpa using List.find?_some h

theorem mem_of_getByKey {es : List PvMeta} {k : CStr} {e : PvMeta}
    (h : pvMetadataGetByKey es k = some e) : e ∈ es := List.mem_of_find?_eq_some h

theorem getByKey_eq_none {es : List PvMeta} {k : CStr} :
    pvMetadataGetByKey es k = none ↔ k ∉ es.map (·.key) := by
  rw [pvMetadataGetByKey, List.find?_eq_none]
  simp

theorem getByKey_of_mem {es : List PvMeta} (hes : Unique es) {e : PvMeta} (he : e ∈ es) :
    pvMetadataGetByKey es e.key = some e := by
  induction es with
  | nil => cases he
  | cons curr rest ih =>
    rw [Unique, List.map_cons, List.nodup_cons] at hes
    rw [getByKey_cons]
    rcases List.mem_cons.mp he with rfl | he
    · rw [if_pos rfl]
    · rw [if_neg, ih hes.2 he]
      intro hkey
      exact hes.1 (hkey ▸ List.mem_map_of_mem he)

/-- Entries with the same keys in the same order, each with what it is found as. -/
theorem ext_of_getByKey {es es' : List PvMeta} (hes : Unique es)
    (hkeys : es'.map (·.key) = es.map (·.key))
    (h : ∀ k, pvMetadataGetByKey es' k = pvMetadataGetByKey es k) : es' = es := by
  have hes' : Unique es' := by rwa [Unique, hkeys]
  have hlen : es'.length = es.length := by simpa using congrArg List.length hkeys
  refine List.ext_getElem hlen fun i hi hi' => ?_
  have hkey : es'[i].key = es[i].key := by
    have := congrArg (fun ks => ks[i]?) hkeys
    simpa [hi, hi'] using this
  have hfound := h es'[i].key
  rw [getByKey_of_mem hes' (List.getElem_mem hi), hkey,
    getByKey_of_mem hes (List.getElem_mem hi')] at hfound
  exact Option.some.inj hfound

/-! ## Additions -/

theorem keys_modifyByKey (key : CStr) {f : PvMeta → PvMeta} (hf : ∀ e, (f e).key = e.key)
    (es : List PvMeta) : (modifyByKey key f es).map (·.key) = es.map (·.key) := by
  induction es with
  | nil => rfl
  | cons curr rest ih =>
    rw [modifyByKey]
    split
    · rw [List.map_cons, List.map_cons, hf]
    · rw [List.map_cons, List.map_cons, ih]

theorem getByKey_modifyByKey (key : CStr) {f : PvMeta → PvMeta} (hf : ∀ e, (f e).key = e.key)
    (es : List PvMeta) (k : CStr) :
    pvMetadataGetByKey (modifyByKey key f es) k
      = if k = key then (pvMetadataGetByKey es key).map f else pvMetadataGetByKey es k := by
  induction es with
  | nil => simp [modifyByKey]
  | cons curr rest ih =>
    rw [modifyByKey]
    by_cases hcurr : curr.key = key
    · rw [if_pos hcurr, getByKey_cons, getByKey_cons, getByKey_cons, hf, hcurr, if_pos rfl]
      by_cases hk : k = key
      · rw [if_pos hk, if_pos hk.symm, Option.map_some]
      · rw [if_neg hk, if_neg (Ne.symm hk), if_neg (Ne.symm hk)]
    · rw [if_neg hcurr, getByKey_cons, getByKey_cons, getByKey_cons, if_neg hcurr, ih]
      by_cases hk : k = key
      · rw [if_pos hk, if_pos hk, if_neg fun h => hcurr (h.trans hk)]
      · rw [if_neg hk, if_neg hk]

theorem getByKey_add (es : List PvMeta) (key value k : CStr) :
    pvMetadataGetByKey (pvMetadataAdd es key value).2 k
      = if k = key then some ⟨key, value, ((pvMetadataGetByKey es key).map (·.updated)).getD false⟩
        else pvMetadataGetByKey es k := by
  rw [pvMetadataAdd]
  cases hfound : pvMetadataGetByKey es key with
  | none =>
    simp only [getByKey_cons, Option.map_none, Option.getD_none, eq_comm]
  | some curr =>
    obtain ⟨key', value', updated⟩ := curr
    obtain rfl : key' = key := key_of_getByKey hfound
    simp only [Option.map_some, Option.getD_some]
    by_cases hvalue : value' = value
    · subst hvalue
      rw [if_pos rfl]
      by_cases hk : k = key'
      · rw [if_pos hk, hk, hfound]
      · rw [if_neg hk]
    · have hkey : ∀ e : PvMeta, ({ e with value := value } : PvMeta).key = e.key := fun _ => rfl
      rw [if_neg hvalue, getByKey_modifyByKey key' hkey, hfound]
      rfl

/-- The keys behind an addition. -/
theorem keys_add (es : List PvMeta) (key value : CStr) :
    (pvMetadataAdd es key value).2.map (·.key)
      = if key ∈ es.map (·.key) then es.map (·.key) else key :: es.map (·.key) := by
  rw [pvMetadataAdd]
  cases hfound : pvMetadataGetByKey es key with
  | none => rw [if_neg (getByKey_eq_none.mp hfound), List.map_cons]
  | some curr =>
    have hmem : key ∈ es.map (·.key) := by
      rw [← key_of_getByKey hfound]
      exact List.mem_map_of_mem (mem_of_getByKey hfound)
    rw [if_pos hmem]
    simp only
    split
    · rfl
    · have hkey : ∀ e : PvMeta, ({ e with value := value } : PvMeta).key = e.key := fun _ => rfl
      exact keys_modifyByKey key hkey es

theorem ret_add (es : List PvMeta) (key value : CStr) :
    (pvMetadataAdd es key value).1
      = if (pvMetadataGetByKey es key).map (·.value) = some value then 0 else 1 := by
  rw [pvMetadataAdd]
  cases pvMetadataGetByKey es key with
  | none => simp
  | some curr => by_cases hvalue : curr.value = value <;> simp [hvalue]

/-- The entries behind `pv_metadata_add_usermeta`: an addition, and its mark. -/
theorem usermeta_addUsermeta (m : PvUsermeta) (key value : CStr) :
    (pvMetadataAddUsermeta m key (some value)).2.usermeta
      = modifyByKey key (fun curr => { curr with updated := true })
          (pvMetadataAdd m.usermeta key value).2 := by
  have hret : 0 ≤ (pvMetadataAdd m.usermeta key value).1 := by
    rw [ret_add]
    split <;> decide
  simp only [pvMetadataAddUsermeta, if_pos hret]
  split <;> rfl

/-- **An addition** sets its key, with a mark, and no other. -/
theorem getByKey_addUsermeta (m : PvUsermeta) (key value k : CStr) :
    pvMetadataGetByKey (pvMetadataAddUsermeta m key (some value)).2.usermeta k
      = if k = key then some ⟨key, value, true⟩ else pvMetadataGetByKey m.usermeta k := by
  have hkey : ∀ e : PvMeta, ({ e with updated := true } : PvMeta).key = e.key := fun _ => rfl
  rw [usermeta_addUsermeta, getByKey_modifyByKey key hkey, getByKey_add, getByKey_add, if_pos rfl,
    Option.map_some]
  by_cases hk : k = key
  · rw [if_pos hk, if_pos hk]
  · rw [if_neg hk, if_neg hk, if_neg hk]

theorem keys_addUsermeta (m : PvUsermeta) (key value : CStr) :
    (pvMetadataAddUsermeta m key (some value)).2.usermeta.map (·.key)
      = if key ∈ m.usermeta.map (·.key) then m.usermeta.map (·.key)
        else key :: m.usermeta.map (·.key) := by
  have hkey : ∀ e : PvMeta, ({ e with updated := true } : PvMeta).key = e.key := fun _ => rfl
  rw [usermeta_addUsermeta, keys_modifyByKey key hkey, keys_add]

/-- It writes the files exactly if the value is another one. -/
theorem fs_addUsermeta (m : PvUsermeta) (key value : CStr) :
    (pvMetadataAddUsermeta m key (some value)).2.fs
      = if m.value key = some value then m.fs else pvStorageSaveUsermeta m.fs key value := by
  simp only [pvMetadataAddUsermeta, ret_add, PvUsermeta.value]
  by_cases h : (pvMetadataGetByKey m.usermeta key).map (·.value) = some value
  · simp [h]
  · simp [h]

theorem unique_addUsermeta {m : PvUsermeta} (h : Unique m.usermeta) (key : CStr)
    (value : Option CStr) : Unique (pvMetadataAddUsermeta m key value).2.usermeta := by
  cases value with
  | none => exact h
  | some value =>
    rw [Unique, keys_addUsermeta]
    split
    · exact h
    · next hkey => exact List.nodup_cons.mpr ⟨hkey, h⟩

theorem value_addUsermeta (m : PvUsermeta) (key value k : CStr) :
    (pvMetadataAddUsermeta m key (some value)).2.value k
      = if k = key then some value else m.value k := by
  rw [PvUsermeta.value, getByKey_addUsermeta]
  split
  · rfl
  · rfl

/-! ## Removals -/

theorem sublist_rmUsermeta (m : PvUsermeta) (key : CStr) :
    (pvMetadataRmUsermeta m key).2.usermeta.Sublist m.usermeta := by
  rw [pvMetadataRmUsermeta]
  split
  · exact List.Sublist.refl _
  · exact List.eraseP_sublist

theorem unique_of_sublist {es es' : List PvMeta} (hes : Unique es) (h : es'.Sublist es) :
    Unique es' := List.Nodup.sublist (h.map _) hes

/-- **A removal** takes its key out, and no other. -/
theorem getByKey_rmUsermeta {m : PvUsermeta} (h : Unique m.usermeta) (key k : CStr) :
    pvMetadataGetByKey (pvMetadataRmUsermeta m key).2.usermeta k
      = if k = key then none else pvMetadataGetByKey m.usermeta k := by
  have herase : ∀ {es : List PvMeta}, Unique es →
      pvMetadataGetByKey (es.eraseP fun curr => curr.key = key) k
        = if k = key then none else pvMetadataGetByKey es k := by
    intro es hes
    induction es with
    | nil => simp
    | cons curr rest ih =>
      rw [Unique, List.map_cons, List.nodup_cons] at hes
      by_cases hcurr : curr.key = key
      · rw [List.eraseP_cons_of_pos (by simpa using hcurr), getByKey_cons]
        by_cases hk : k = key
        · rw [if_pos hk, getByKey_eq_none, hk, ← hcurr]
          exact hes.1
        · rw [if_neg hk, if_neg fun h => hk (h.symm.trans hcurr)]
      · rw [List.eraseP_cons_of_neg (by simpa using hcurr), getByKey_cons, ih hes.2, getByKey_cons]
        by_cases hk : k = key
        · rw [if_pos hk, if_neg fun h => hcurr (h.trans hk), if_pos hk]
        · rw [if_neg hk, if_neg hk]
  rw [pvMetadataRmUsermeta]
  cases hfound : pvMetadataGetByKey m.usermeta key with
  | none =>
    by_cases hk : k = key
    · rw [if_pos hk, hk, hfound]
    · rw [if_neg hk]
  | some curr => exact herase h

theorem fs_rmUsermeta (m : PvUsermeta) (key : CStr) :
    (pvMetadataRmUsermeta m key).2.fs
      = if (m.value key).isSome then pvStorageRmUsermeta m.fs key else m.fs := by
  rw [pvMetadataRmUsermeta, PvUsermeta.value]
  cases hfound : pvMetadataGetByKey m.usermeta key with
  | none => rfl
  | some curr => simp [key_of_getByKey hfound]

/-! ## The members of an answer -/

/-- What an object wants a key to be, if it wants it to be there. -/
def wanted (members : List (CStr × Option CStr)) (k : CStr) : Option CStr :=
  (members.find? fun member => member.1 = k).bind (·.2)

theorem addMembers_cons (m : PvUsermeta) (key : CStr) (value : Option CStr)
    (members : List (CStr × Option CStr)) :
    addMembers m ((key, value) :: members)
      = addMembers (if value.isSome then (pvMetadataAddUsermeta m key value).2 else m) members := rfl

theorem unique_addMembers {m : PvUsermeta} (h : Unique m.usermeta)
    (members : List (CStr × Option CStr)) : Unique (addMembers m members).usermeta := by
  induction members generalizing m with
  | nil => exact h
  | cons member members ih =>
    rw [addMembers_cons]
    refine ih ?_
    split
    · exact unique_addUsermeta h member.1 member.2
    · exact h

/-- The members set their keys, with marks, and no other. -/
theorem getByKey_addMembers {members : List (CStr × Option CStr)}
    (h : (members.map (·.1)).Nodup) (m : PvUsermeta) (k : CStr) :
    pvMetadataGetByKey (addMembers m members).usermeta k
      = ((wanted members k).map fun value => ⟨k, value, true⟩).or
          (pvMetadataGetByKey m.usermeta k) := by
  induction members generalizing m with
  | nil => rfl
  | cons member members ih =>
    obtain ⟨key, value⟩ := member
    rw [List.map_cons, List.nodup_cons] at h
    rw [addMembers_cons, ih h.2]
    have hwanted : wanted ((key, value) :: members) k
        = if key = k then value else wanted members k := by
      by_cases hk : key = k <;> simp [wanted, hk]
    rw [hwanted]
    by_cases hk : key = k
    · subst hk
      -- no later member has the key
      have hnone : wanted members key = none := by
        have hfind : members.find? (fun member => member.1 = key) = none := by
          rw [List.find?_eq_none]
          intro member hmember heq
          have hkey : member.1 ∈ members.map (·.1) := List.mem_map.mpr ⟨member, hmember, rfl⟩
          exact h.1 (of_decide_eq_true heq ▸ hkey)
        rw [wanted, hfind]
        rfl
      rw [hnone, if_pos rfl]
      cases value with
      | none => rfl
      | some value => simp [getByKey_addUsermeta]
    · rw [if_neg hk]
      cases value with
      | none => rfl
      | some value =>
        rw [if_pos (by rfl), getByKey_addUsermeta, if_neg (Ne.symm hk)]

/-! ## The sweep -/

/-- An entry without its mark. -/
def PvMeta.unmarked (e : PvMeta) : PvMeta := { e with updated := false }

/-- The files without those of some entries. -/
def rmFiles (fs : Fs) (es : List PvMeta) : Fs := es.foldl (fun fs e => pvStorageRmUsermeta fs e.key) fs

/-- The round for an entry without a mark removes it. -/
theorem rmUsermeta_last {es : List PvMeta} {curr : PvMeta} (h : Unique (es ++ [curr])) (fs : Fs) :
    (pvMetadataRmUsermeta ⟨es ++ [curr], fs⟩ curr.key).2
      = ⟨es, pvStorageRmUsermeta fs curr.key⟩ := by
  have hfound : pvMetadataGetByKey (es ++ [curr]) curr.key = some curr :=
    getByKey_of_mem h (by simp)
  have herase : (es ++ [curr]).eraseP (fun e => e.key = curr.key) = es := by
    rw [List.eraseP_append_right]
    · simp
    · intro e he
      rw [Unique, List.map_append, List.nodup_append] at h
      simpa using h.2.2 e.key (List.mem_map_of_mem he) curr.key (by simp)
  rw [pvMetadataRmUsermeta, hfound]
  simp only [herase]

theorem usermetaClearFrom_eq (rest : List PvMeta) :
    ∀ m : PvUsermeta, Unique (m.usermeta ++ rest) →
      usermetaClearFrom m rest
        = ⟨m.usermeta ++ (rest.filter (·.updated)).map PvMeta.unmarked,
            rmFiles m.fs (rest.filter fun e => !e.updated)⟩ := by
  induction rest with
  | nil =>
    intro m _
    simp [usermetaClearFrom, rmFiles]
  | cons curr rest ih =>
    intro m h
    rw [List.append_cons] at h
    rw [usermetaClearFrom]
    by_cases hup : curr.updated = true
    · have hunique : Unique (m.usermeta ++ [curr.unmarked] ++ rest) := by
        simpa [Unique, PvMeta.unmarked] using h
      rw [if_pos hup]
      have hrest := ih ⟨m.usermeta ++ [curr.unmarked], m.fs⟩ hunique
      rw [PvMeta.unmarked] at hrest
      rw [hrest]
      simp [hup, PvMeta.unmarked]
    · have hunique := unique_of_sublist h (List.sublist_append_left _ rest)
      have hrest := ih ⟨m.usermeta, pvStorageRmUsermeta m.fs curr.key⟩
        (unique_of_sublist h ((List.sublist_append_left _ [curr]).append_right rest))
      rw [if_neg hup, rmUsermeta_last hunique, hrest]
      simp [hup, rmFiles]

/-- **The sweep** keeps the entries with a mark, and takes the mark. -/
theorem usermetaClear_eq {m : PvUsermeta} (h : Unique m.usermeta) :
    usermetaClear m
      = ⟨(m.usermeta.filter (·.updated)).map PvMeta.unmarked,
          rmFiles m.fs (m.usermeta.filter fun e => !e.updated)⟩ := by
  rw [usermetaClear, usermetaClearFrom_eq m.usermeta ⟨[], m.fs⟩ h, List.nil_append]

/-- The keys stay apart in every round of the sweep. -/
theorem unique_clearFrom {es : List PvMeta} (h : Unique es) (fs : Fs) (k : Nat) :
    Unique ((usermetaClearFrom ⟨[], fs⟩ (es.take k)).usermeta ++ es.drop k) := by
  have htake : Unique ([] ++ es.take k) := unique_of_sublist h (List.take_sublist k es)
  have hsub : ((((es.take k).filter (·.updated)).map PvMeta.unmarked).map (·.key)).Sublist
      ((es.take k).map (·.key)) := by
    rw [List.map_map]
    exact (List.filter_sublist (l := es.take k)).map (·.key)
  rw [usermetaClearFrom_eq _ _ htake, List.nil_append, Unique, List.map_append]
  refine List.Nodup.sublist (hsub.append_right _) ?_
  rw [← List.map_append, List.take_append_drop]
  exact h

theorem unique_clear {m : PvUsermeta} (h : Unique m.usermeta) : Unique (usermetaClear m).usermeta := by
  have hall := unique_clearFrom h m.fs m.usermeta.length
  rwa [List.take_length, List.drop_length, List.append_nil] at hall

theorem clear_empty {m : PvUsermeta} (h : m.usermeta = []) : usermetaClear m = m :=
  eq_of_parts (by rw [usermetaClear, h]; rfl) (by rw [usermetaClear, h]; rfl)

theorem getByKey_clear {m : PvUsermeta} (h : Unique m.usermeta) (k : CStr) :
    pvMetadataGetByKey (usermetaClear m).usermeta k
      = ((pvMetadataGetByKey m.usermeta k).filter (·.updated)).map PvMeta.unmarked := by
  rw [usermetaClear_eq h]
  obtain ⟨es, fs⟩ := m
  simp only at h ⊢
  induction es with
  | nil => rfl
  | cons curr rest ih =>
    rw [Unique, List.map_cons, List.nodup_cons] at h
    have hrest := ih h.2
    by_cases hk : curr.key = k
    · have hnone : pvMetadataGetByKey rest k = none := getByKey_eq_none.mpr (hk ▸ h.1)
      rw [hnone] at hrest
      rw [getByKey_cons, if_pos hk]
      by_cases hup : curr.updated = true
      · simp [hup, getByKey_cons, PvMeta.unmarked, hk, Option.filter]
      · simpa [hup, Option.filter] using hrest
    · rw [getByKey_cons, if_neg hk, ← hrest]
      by_cases hup : curr.updated = true
      · simp [hup, getByKey_cons, PvMeta.unmarked, hk]
      · simp [hup]

/-! ## Runs -/

variable {jsmn : Jsmn}

theorem unique_load {m : PvUsermeta} (h : Unique m.usermeta) :
    Unique (pvMetadataLoadUsermeta m).usermeta := by
  have hfold : ∀ (names : List Name) (m : PvUsermeta), Unique m.usermeta →
      Unique (names.foldl loadUsermetaFile m).usermeta := by
    intro names
    induction names with
    | nil => exact fun m h => h
    | cons name names ih =>
      intro m h
      refine ih _ ?_
      rw [loadUsermetaFile]
      split
      · exact h
      · split
        · exact h
        · exact unique_addUsermeta h name _
  rw [pvMetadataLoadUsermeta]
  split
  · exact h
  · exact hfold _ m h

theorem unique_init (fs : Fs) : Unique (pvMetadataInit fs).usermeta :=
  unique_load (m := ⟨[], fs⟩) List.nodup_nil

/-- What is left of an answer: additions, and the sweep. -/
theorem parseUsermeta_some {m m' : PvUsermeta} {buf : CStr}
    (h : pvMetadataParseUsermeta jsmn m buf = some m') :
    ∃ members, m' = usermetaClear (addMembers m members) := by
  rw [pvMetadataParseUsermeta, Option.map_eq_some_iff] at h
  obtain ⟨m₁, hm₁, rfl⟩ := h
  rw [pvUsermetaParse] at hm₁
  split at hm₁
  · obtain rfl := Option.some.inj hm₁
    exact ⟨[], rfl⟩
  · rw [Option.map_eq_some_iff] at hm₁
    obtain ⟨members, -, rfl⟩ := hm₁
    exact ⟨members, rfl⟩

theorem unique_stepUsermeta {m : PvUsermeta} (h : Unique m.usermeta) (e : UsermetaEvent) :
    Unique (stepUsermeta jsmn m e).usermeta := by
  cases e with
  | answer body =>
    rw [stepUsermeta]
    cases hparse : pvMetadataParseUsermeta jsmn m (cstrAt body 0) with
    | none => exact unique_init m.fs
    | some m' =>
      obtain ⟨members, rfl⟩ := parseUsermeta_some hparse
      exact unique_clear (unique_addMembers h members)
  | put path sent contentLength => exact unique_addUsermeta h _ _
  | delete path => exact unique_of_sublist h (sublist_rmUsermeta m _)
  | restart => exact unique_init m.fs

/-- **No key is there twice**, in every reachable state. -/
theorem unique_of_reachable {m : PvUsermeta} (h : (usermetaSystem jsmn).Reachable m) :
    Unique m.usermeta := by
  induction h with
  | init h =>
    obtain ⟨fs, rfl⟩ := h
    exact unique_init fs
  | step _ e ih => exact unique_stepUsermeta ih e

end Pantavisor.Metadata
