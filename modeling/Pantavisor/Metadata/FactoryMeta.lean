/-
Pantavisor.Metadata.FactoryMeta — the upload of the factory metadata.

Each file in the factory directory is sent as one object, with a member for each of its
items, until the server refuses one; then all are sent again. When none was refused, a
mark is set and nothing is sent any more.

An item without a value, or one that there is no room for, ends the loop over the items
of its file, and the payload goes out without it and without those behind it. A file for
which there is no log buffer, or whose `stat` fails, counts as sent. So the mark says what
it should where every file has a buffer and all of its items fit (`factory_meta_complete`).
-/
import Pantavisor.Config.ConfigParser
import Pantavisor.Metadata.Upload

namespace Pantavisor.Metadata

open Pantavisor.Lib Pantavisor.Json Pantavisor.Config

/-! ## A file -/

/-- The key of an item in the payload. -/
def factoryKey (fname key : CStr) : CStr := str "factory/" ++ fname ++ str "/" ++ key

/-- `on_factory_meta_iterate`; `none` where it is undefined. -/
def onFactoryMetaIterate (fname key value : CStr) (b : JsonBuf) : Option (Int × JsonBuf) :=
  -- `abs_key` is one and a half times `PATH_MAX`
  let absKey := (factoryKey fname key).take (4096 + 4096 / 2 - 1)
  (pvJsonFormatIn absKey (intOfSize absKey.length)).bind fun formattedKey =>
    (pvJsonFormatIn value (intOfSize value.length)).map fun formattedVal =>
      match formattedKey, formattedVal with
      | some formattedKey, some formattedVal =>
        let fragLen := formattedKey.length + formattedVal.length + 2 * 2 + 1 + 1
        if b.avail > fragLen then
          (0, b.write
            (str "\"" ++ formattedKey ++ str "\":\"" ++ formattedVal ++ str "\",") fragLen)
        else (-1, b)
      | _, _ => (-1, b)

/-- An action that can be undefined ends the loop where it is. -/
def untilUndefined {σ : Type} (action : CStr → CStr → σ → Option (Int × σ)) (key value : CStr)
    (arg : Option σ) : Int × Option σ :=
  match arg.bind (action key value) with
  | some (ret, arg) => (ret, some arg)
  | none => (-1, none)

theorem untilUndefined_some {σ : Type} {action : CStr → CStr → σ → Option (Int × σ)}
    {key value : CStr} {arg arg' : σ} {ret : Int} (h : action key value arg = some (ret, arg')) :
    untilUndefined action key value (some arg) = (ret, some arg') := by
  rw [untilUndefined, Option.bind_some, h]

/-- The text that is sent for a file: the last byte becomes a brace. -/
def factoryJson (size : Int) (fname : CStr) (items : List (CStr × CStr)) : Option CStr :=
  (configIterateItems (untilUndefined (onFactoryMetaIterate fname)) items
    (some ⟨str "\x7b", size - 1⟩)).map fun b => b.json.dropLast ++ [closeBrace]

/-- What an attempt meets for a file: `stat`, `fopen`, `pv_log_get_buffer` and the answer of
the server. -/
structure FileCalls where
  stat : Bool
  fopen : Bool
  logBuffer : Bool
  accepted : Bool
  deriving DecidableEq

/-- `__pv_metadata_factory_meta`, with the payload it sends; `none` if it does not return, or
is undefined. -/
def factoryMetaFile (size : Int) (fname content : CStr) (calls : FileCalls) :
    Option (Int × Option CStr) :=
  if calls.fopen then
    (loadKeyValueFile content).bind fun items =>
      if calls.logBuffer then
        (factoryJson size fname items).map fun json =>
          (if calls.accepted then 0 else -1, some json)
      -- `ret` is still what `load_key_value_file` returned
      else some (0, none)
  else some (-1, none)

/-! ## The directory -/

/-- An entry of the directory, with its content if it is a regular file. -/
structure FactoryFile where
  name : CStr
  content : Option CStr
  deriving DecidableEq

/-- What an attempt meets: `scandir`, the calls for each name, and the `open` of the mark. -/
structure FactoryCalls where
  scandir : Bool
  files : CStr → FileCalls
  mark : Bool

/-- The payloads that were accepted, and whether the loop has failed, or does not end or is
undefined. -/
structure FactoryLoop where
  accepted : List CStr
  uploadFailed : Bool
  stuck : Bool

/-- A round of the loop of `pv_metadata_factory_meta`. -/
def factoryRound (size : Int) (calls : FactoryCalls) (l : FactoryLoop) (f : FactoryFile) :
    FactoryLoop :=
  if l.uploadFailed || l.stuck then l
  else
    match f.content with
    | none => l
    | some content =>
      if (calls.files f.name).stat then
        match factoryMetaFile size f.name content (calls.files f.name) with
        | none => { l with stuck := true }
        | some (ret, payload) =>
          if ret = 0 then { l with accepted := l.accepted ++ payload.toList }
          else { l with uploadFailed := true }
      else l

/-- The payloads that the server has accepted, and the mark. -/
structure FactoryState where
  accepted : List CStr
  done : Bool

/-- `pv_metadata_factory_meta`. The entries are gone through from the last one on. -/
def pvMetadataFactoryMeta (size : Int) (files : List FactoryFile) (calls : FactoryCalls)
    (s : FactoryState) : FactoryState :=
  let dirlist := if calls.scandir then files else []
  let l := dirlist.reverse.foldl (factoryRound size calls) ⟨s.accepted, false, false⟩
  { accepted := l.accepted, done := s.done || (!l.uploadFailed && !l.stuck && calls.mark) }

/-- Attempts are made as long as there is no mark. -/
def factorySystem (size : Int) (files : List FactoryFile) : System FactoryState FactoryCalls where
  init s := s = ⟨[], false⟩
  step s calls := if s.done then s else pvMetadataFactoryMeta size files calls s

/-! ## What the mark says -/

/-- A payload is an object with a member for the key and the value. -/
def Contains (payload key value : CStr) : Prop :=
  ∃ gap members, payload = (JsonValue.object gap members).text ∧
    (JsonValue.object gap members).Valid ∧
    ∃ m ∈ members, StringText m.key key ∧ ∃ raw, m.value = .string raw ∧ StringText raw value

/-- With the mark, every item of every file was in a payload that the server accepted. -/
def Complete (files : List FactoryFile) (s : FactoryState) : Prop :=
  s.done = true → ∀ f ∈ files, ∀ content, f.content = some content →
    ∀ items, loadKeyValueFile content = some items →
      ∀ i ∈ items, ∃ payload ∈ s.accepted, Contains payload (factoryKey f.name i.1) i.2

/-- What is written for an item. -/
def itemFrag (fname : CStr) (i : CStr × CStr) : CStr :=
  quoted ((factoryKey fname i.1).flatMap formatChar) ++ colon ::
    (quoted (i.2.flatMap formatChar) ++ [comma])

/-- The lengths of an item are `int`s, also with all of it escaped. -/
def ItemCounted (fname : CStr) (i : CStr × CStr) : Prop :=
  ((factoryKey fname i.1).length + i.2.length) * 6 + 6 < 2 ^ 31

instance (fname : CStr) (i : CStr × CStr) : Decidable (ItemCounted fname i) :=
  inferInstanceAs (Decidable (_ < _))

/-- All items of a file go into its payload: none is without a value, no key is cut, and
there is room. -/
def AllFit (size : Int) (fname : CStr) (items : List (CStr × CStr)) : Prop :=
  (∀ i ∈ items, i.2 ≠ [] ∧ (factoryKey fname i.1).length < 4096 + 4096 / 2) ∧
    ((items.flatMap (itemFrag fname)).length : Int) < size - 1

instance (size : Int) (fname : CStr) (items : List (CStr × CStr)) :
    Decidable (AllFit size fname items) := inferInstanceAs (Decidable (_ ∧ _))

/-- A file is refused, or cannot be opened. -/
def Refused (calls : FactoryCalls) (f : FactoryFile) : Prop :=
  f.content.isSome ∧ (calls.files f.name).stat ∧
    ((calls.files f.name).fopen = false ∨
      (calls.files f.name).logBuffer = true ∧ (calls.files f.name).accepted = false)

/-- All items of all files can be formatted. -/
def FilesCounted (files : List FactoryFile) : Prop :=
  ∀ f ∈ files, ∀ content items, f.content = some content →
    loadKeyValueFile content = some items → ∀ i ∈ items, ItemCounted f.name i

/-- An attempt that sets no mark, or one for which the directory can be read and every file
with items has its `stat`, a log buffer and room for all of them. -/
def AttemptFits (size : Int) (files : List FactoryFile) (calls : FactoryCalls) : Prop :=
  FilesCounted files ∧ (calls.mark = false ∨ (calls.scandir = true ∧ ∃ f ∈ files, Refused calls f) ∨
    ∀ f ∈ files, ∀ content items, f.content = some content →
      loadKeyValueFile content = some items → items ≠ [] →
        calls.scandir = true ∧ (calls.files f.name).stat = true ∧
          (calls.files f.name).logBuffer = true ∧ AllFit size f.name items)

/-! ## The payload of a file -/

variable {size : Int} {fname : CStr}

/-- An item that fits is written. -/
theorem onFactoryMetaIterate_fits {i : CStr × CStr} {b : JsonBuf} (hvalue : i.2 ≠ [])
    (hkey : (factoryKey fname i.1).length < 4096 + 4096 / 2) (hcounted : ItemCounted fname i)
    (hroom : ((itemFrag fname i).length : Int) < b.avail) :
    onFactoryMetaIterate fname i.1 i.2 b
      = some (0, ⟨b.json ++ itemFrag fname i, b.avail - (itemFrag fname i).length⟩) := by
  rw [ItemCounted] at hcounted
  have hcut : (factoryKey fname i.1).take (4096 + 4096 / 2 - 1) = factoryKey fname i.1 :=
    List.take_of_length_le (by omega)
  have hne : factoryKey fname i.1 ≠ [] := by simp [factoryKey, str]
  have hfk : pvJsonFormat (factoryKey fname i.1)
      = some ((factoryKey fname i.1).flatMap formatChar) := if_pos (List.length_pos_iff.mpr hne)
  have hfv : pvJsonFormat i.2 = some (i.2.flatMap formatChar) :=
    if_pos (List.length_pos_iff.mpr hvalue)
  have hlen : (itemFrag fname i).length
      = ((factoryKey fname i.1).flatMap formatChar).length + (i.2.flatMap formatChar).length
          + 2 * 2 + 1 + 1 := by
    simp only [itemFrag, quoted, List.length_append, List.length_cons, List.length_nil]
    omega
  rw [hlen] at hroom
  simp only [onFactoryMetaIterate, hcut,
    pvJsonFormatIn_length (s := factoryKey fname i.1) (by omega),
    pvJsonFormatIn_length (s := i.2) (by omega), hfk, hfv, Option.bind_some, Option.map_some,
    JsonBuf.write, gt_iff_lt, if_pos hroom, hlen]
  simp [itemFrag, quoted, str, quote, colon, comma]

/-- The loop writes all items, if they fit: by induction on the list, each with the room that
is left. -/
theorem configIterateItems_fits {items : List (CStr × CStr)} {b : JsonBuf}
    (hitems : ∀ i ∈ items, i.2 ≠ [] ∧ (factoryKey fname i.1).length < 4096 + 4096 / 2)
    (hcounted : ∀ i ∈ items, ItemCounted fname i)
    (hroom : ((items.flatMap (itemFrag fname)).length : Int) < b.avail) :
    (configIterateItems (untilUndefined (onFactoryMetaIterate fname)) items (some b)).map
        JsonBuf.json
      = some (b.json ++ items.flatMap (itemFrag fname)) := by
  induction items generalizing b with
  | nil => simp [configIterateItems]
  | cons i items ih =>
    obtain ⟨⟨hvalue, hkey⟩, hrest⟩ := List.forall_mem_cons.mp hitems
    obtain ⟨hcount, hcounts⟩ := List.forall_mem_cons.mp hcounted
    rw [List.flatMap_cons, List.length_append] at hroom
    have hround := untilUndefined_some
      (onFactoryMetaIterate_fits (b := b) hvalue hkey hcount (by omega))
    have hleft : ((items.flatMap (itemFrag fname)).length : Int)
        < b.avail - (itemFrag fname i).length := by omega
    rw [configIterateItems_cons hround, ih hrest hcounts hleft, List.flatMap_cons,
      List.append_assoc]

/-- The member for an item. -/
def itemMember (fname : CStr) (i : CStr × CStr) : JsonMember JsonValue :=
  ⟨[], (factoryKey fname i.1).flatMap formatChar, [], [], .string (i.2.flatMap formatChar), []⟩

/-- The payload of a file whose items fit is an object with a member for each of them. -/
theorem factoryJson_contains {items : List (CStr × CStr)} (hfit : AllFit size fname items)
    (hcounted : ∀ i ∈ items, ItemCounted fname i) {i : CStr × CStr} (hi : i ∈ items) {json : CStr}
    (hjson : factoryJson size fname items = some json) :
    Contains json (factoryKey fname i.1) i.2 := by
  have hnil : White [] := by decide
  have hfrags : items.flatMap (itemFrag fname) = (items.map (itemMember fname)).flatMap memberFrag := by
    rw [List.flatMap_map]
    congr 1
    funext j
    simp [itemFrag, itemMember, memberFrag, JsonValue.text]
  have hmembers : items.map (itemMember fname) ≠ [] := by
    simpa using List.ne_nil_of_mem hi
  have hwritten := configIterateItems_fits (b := ⟨str "\x7b", size - 1⟩) hfit.1 hcounted hfit.2
  obtain ⟨b, hb, hbjson⟩ := Option.map_eq_some_iff.mp hwritten
  obtain rfl : b.json.dropLast ++ [closeBrace] = json := by
    rw [factoryJson, hb] at hjson
    exact Option.some.inj hjson
  have htext : b.json.dropLast ++ [closeBrace]
      = (JsonValue.object [] (items.map (itemMember fname))).text := by
    rw [hbjson, hfrags, flatMap_memberFrag hmembers, ← List.append_assoc, List.dropLast_concat,
      JsonValue.text]
    simp [str, openBrace]
  refine ⟨[], items.map (itemMember fname), htext, ?_, itemMember fname i,
    List.mem_map_of_mem hi, flatMap_formatChar_text _, _, rfl, flatMap_formatChar_text _⟩
  rw [JsonValue.Valid, membersValid_iff]
  refine ⟨hnil, fun m hm => ?_⟩
  obtain ⟨j, -, rfl⟩ := List.mem_map.mp hm
  refine ⟨hnil, (flatMap_formatChar_text _).body, hnil, hnil, ?_, hnil⟩
  rw [itemMember, JsonValue.Valid]
  exact (flatMap_formatChar_text _).body

/-! ## An attempt -/

variable {files : List FactoryFile} {calls : FactoryCalls}

/-- The file was sent and not refused, or there was no buffer for it. -/
def Passed (size : Int) (calls : FactoryCalls) (accepted : List CStr) (f : FactoryFile) : Prop :=
  ∀ content, f.content = some content → (calls.files f.name).stat = true →
    ∃ payload, factoryMetaFile size f.name content (calls.files f.name) = some (0, payload) ∧
      ∀ p ∈ payload, p ∈ accepted

theorem Passed.mono {accepted accepted' : List CStr} {f : FactoryFile}
    (h : Passed size calls accepted f) (hsub : accepted ⊆ accepted') :
    Passed size calls accepted' f := by
  intro content hcontent hstat
  obtain ⟨payload, hfile, hall⟩ := h content hcontent hstat
  exact ⟨payload, hfile, fun p hp => hsub (hall p hp)⟩

/-- A round that goes on has passed its file. -/
theorem factoryRound_passed {l : FactoryLoop} {f : FactoryFile}
    (hfailed : (factoryRound size calls l f).uploadFailed = false)
    (hstuck : (factoryRound size calls l f).stuck = false) :
    (l.uploadFailed = false ∧ l.stuck = false) ∧
      l.accepted ⊆ (factoryRound size calls l f).accepted ∧
      Passed size calls (factoryRound size calls l f).accepted f := by
  by_cases hstop : (l.uploadFailed || l.stuck) = true
  · rw [factoryRound, if_pos hstop] at hfailed hstuck
    simp [hfailed, hstuck] at hstop
  · have hgo : l.uploadFailed = false ∧ l.stuck = false := by simpa using hstop
    refine ⟨hgo, ?_⟩
    unfold factoryRound at hfailed hstuck ⊢
    rw [if_neg hstop] at hfailed hstuck ⊢
    cases hcontent : f.content with
    | none =>
      exact ⟨List.Subset.refl _, fun content hc => absurd (hcontent.symm.trans hc) (by simp)⟩
    | some content =>
      simp only [hcontent] at hfailed hstuck ⊢
      by_cases hstat : (calls.files f.name).stat = true
      · simp only [if_pos hstat] at hfailed hstuck ⊢
        cases hfile : factoryMetaFile size f.name content (calls.files f.name) with
        | none => simp [hfile] at hstuck
        | some r =>
          obtain ⟨ret, payload⟩ := r
          simp only [hfile] at hfailed hstuck ⊢
          by_cases hret : ret = 0
          · subst hret
            simp only [if_true]
            refine ⟨List.subset_append_left _ _, fun content' hc _ => ?_⟩
            obtain rfl : content = content' := Option.some.inj (hcontent.symm.trans hc)
            refine ⟨payload, hfile, fun p hp => List.mem_append_right _ ?_⟩
            exact Option.mem_toList.mpr hp
          · rw [if_neg hret] at hfailed
            cases hfailed
      · simp only [if_neg hstat]
        exact ⟨List.Subset.refl _, fun _ _ h => absurd h hstat⟩

/-- A loop that comes to its end has passed every file: by induction on the list. -/
theorem factoryLoop_passed {l : FactoryLoop}
    (hfailed : (files.foldl (factoryRound size calls) l).uploadFailed = false)
    (hstuck : (files.foldl (factoryRound size calls) l).stuck = false) :
    (l.uploadFailed = false ∧ l.stuck = false) ∧
      l.accepted ⊆ (files.foldl (factoryRound size calls) l).accepted ∧
      ∀ f ∈ files, Passed size calls (files.foldl (factoryRound size calls) l).accepted f := by
  induction files generalizing l with
  | nil => exact ⟨⟨hfailed, hstuck⟩, List.Subset.refl _, by simp⟩
  | cons f files ih =>
    rw [List.foldl_cons] at hfailed hstuck ⊢
    obtain ⟨hgo, hsub, hpassed⟩ := ih hfailed hstuck
    obtain ⟨hgo', hsub', hpassed'⟩ := factoryRound_passed hgo.1 hgo.2
    refine ⟨hgo', List.Subset.trans hsub' hsub, ?_⟩
    rw [List.forall_mem_cons]
    exact ⟨hpassed'.mono hsub, hpassed⟩

/-- A file that passed with a buffer for it was accepted. -/
theorem accepted_of_passed {accepted : List CStr} {f : FactoryFile} {content : CStr}
    {items : List (CStr × CStr)} (h : Passed size calls accepted f)
    (hcontent : f.content = some content) (hitems : loadKeyValueFile content = some items)
    (hstat : (calls.files f.name).stat = true) (hbuffer : (calls.files f.name).logBuffer = true) :
    ∃ json, factoryJson size f.name items = some json ∧ json ∈ accepted := by
  obtain ⟨payload, hfile, hall⟩ := h content hcontent hstat
  rw [factoryMetaFile, hitems, Option.bind_some] at hfile
  simp only [hbuffer, if_true] at hfile
  split at hfile
  · obtain ⟨json, hjson, hpair⟩ := Option.map_eq_some_iff.mp hfile
    refine ⟨json, hjson, hall json ?_⟩
    rw [← (Prod.mk.inj hpair).2]
    rfl
  · exact absurd (Prod.mk.inj (Option.some.inj hfile)).1 (by decide)

/-- A file that passed was not refused. -/
theorem not_refused_of_passed {accepted : List CStr} {f : FactoryFile}
    (h : Passed size calls accepted f) : ¬ Refused calls f := by
  rintro ⟨hsome, hstat, hrefused⟩
  obtain ⟨content, hcontent⟩ := Option.isSome_iff_exists.mp hsome
  obtain ⟨payload, hfile, -⟩ := h content hcontent hstat
  rw [factoryMetaFile] at hfile
  rcases hrefused with hopen | ⟨hbuffer, hanswer⟩
  · simp [hopen] at hfile
  · simp only [hbuffer, if_true, hanswer, Bool.false_eq_true, if_false] at hfile
    split at hfile
    · obtain ⟨items, -, hjson⟩ := Option.bind_eq_some_iff.mp hfile
      obtain ⟨json, -, heq⟩ := Option.map_eq_some_iff.mp hjson
      exact absurd (Prod.mk.inj heq).1 (by decide)
    · exact absurd (Prod.mk.inj (Option.some.inj hfile)).1 (by decide)

/-! ## Main results -/

/-- An attempt that fits sets the mark only when all is accepted. -/
theorem complete_step {s : FactoryState} (hs : Complete files s)
    (hfits : AttemptFits size files calls) :
    Complete files ((factorySystem size files).step s calls) := by
  show Complete files (if s.done = true then s else pvMetadataFactoryMeta size files calls s)
  split
  · exact hs
  · rename_i hdone
    intro hmarked f hf content hcontent items hitems i hi
    simp only [pvMetadataFactoryMeta, hdone, Bool.false_or, Bool.and_eq_true, Bool.not_eq_true']
      at hmarked
    obtain ⟨⟨hfailed, hstuck⟩, hmark⟩ := hmarked
    obtain ⟨-, -, hpassed⟩ := factoryLoop_passed hfailed hstuck
    obtain ⟨hcounted, hfits⟩ := hfits
    rcases hfits with hnone | ⟨hscan, g, hg, hrefused⟩ | hall
    · rw [hmark] at hnone
      cases hnone
    · refine absurd hrefused (not_refused_of_passed (hpassed g ?_))
      rw [if_pos hscan]
      exact List.mem_reverse.mpr hg
    · obtain ⟨hscan, hstat, hbuffer, hfit⟩ :=
        hall f hf content items hcontent hitems (List.ne_nil_of_mem hi)
      have hmem : f ∈ (if calls.scandir = true then files else []).reverse := by
        rw [if_pos hscan]
        exact List.mem_reverse.mpr hf
      obtain ⟨json, hjson, hin⟩ :=
        accepted_of_passed (hpassed f hmem) hcontent hitems hstat hbuffer
      exact ⟨json, hin,
        factoryJson_contains hfit (hcounted f hf content items hcontent hitems) hi hjson⟩

/-- **The factory metadata is marked as done only when it is complete**, over any number of
attempts that fit. -/
theorem factory_meta_complete {attempts : List FactoryCalls}
    (hfits : ∀ calls ∈ attempts, AttemptFits size files calls) :
    Complete files ((factorySystem size files).run ⟨[], false⟩ attempts) := by
  have hrun : ∀ s, Complete files s → Complete files ((factorySystem size files).run s attempts) := by
    induction attempts with
    | nil => exact fun s hs => hs
    | cons calls attempts ih =>
      intro s hs
      obtain ⟨hcalls, hrest⟩ := List.forall_mem_cons.mp hfits
      exact ih hrest _ (complete_step hs hcalls)
  exact hrun _ fun hdone => absurd hdone (by decide)

/-! ## Two boards -/

/-- The calls of an attempt that all go right, but for the answers. -/
def attemptWith (accepted : CStr → Bool) : FactoryCalls :=
  ⟨true, fun name => ⟨true, true, true, accepted name⟩, true⟩

/-- Two files of two lines each. -/
def twoBoards : List FactoryFile :=
  [⟨str "board", some (str "a=1\nb=2\n")⟩, ⟨str "vendor", some (str "c=3\nd=4\n")⟩]

/-- Their items. -/
theorem items_twoBoards {f : FactoryFile} (hf : f ∈ twoBoards) {content : CStr}
    {items : List (CStr × CStr)} (hcontent : f.content = some content)
    (hitems : loadKeyValueFile content = some items) :
    AllFit 1024 f.name items ∧ ∀ i ∈ items, ItemCounted f.name i := by
  have hboard : loadKeyValueFile (str "a=1\nb=2\n")
      = some [(str "a", str "1"), (str "b", str "2")] := by decide
  have hvendor : loadKeyValueFile (str "c=3\nd=4\n")
      = some [(str "c", str "3"), (str "d", str "4")] := by decide
  rw [twoBoards] at hf
  rcases List.mem_cons.mp hf with rfl | hf
  · obtain rfl := Option.some.inj hcontent
    obtain rfl := Option.some.inj (hboard.symm.trans hitems)
    decide
  · obtain rfl := List.mem_singleton.mp hf
    obtain rfl := Option.some.inj hcontent
    obtain rfl := Option.some.inj (hvendor.symm.trans hitems)
    decide

/-- Two files, of which the first attempt sends one only: the other is refused. -/
theorem factory_meta_complete_retry :
    Complete twoBoards ((factorySystem 1024 twoBoards).run ⟨[], false⟩
      [attemptWith fun name => name != str "board", attemptWith fun _ => true]) := by
  have hcounted : FilesCounted twoBoards :=
    fun f hf content items hcontent hitems => (items_twoBoards hf hcontent hitems).2
  refine factory_meta_complete ?_
  rw [List.forall_mem_cons, List.forall_mem_singleton]
  refine ⟨⟨hcounted, .inr (.inl ⟨rfl, _, List.mem_cons_self .., by decide, rfl,
      .inr ⟨rfl, by decide⟩⟩)⟩, hcounted, .inr (.inr ?_)⟩
  intro f hf content items hcontent hitems _
  exact ⟨rfl, rfl, rfl, (items_twoBoards hf hcontent hitems).1⟩

theorem stringText_plain {raw s : CStr} (h : StringText raw s) (hb : backslash ∉ raw) : raw = s := by
  induction h with
  | nil => rfl
  | plain _ _ ih => rw [ih fun hm => hb (List.mem_cons_of_mem _ hm)]
  | escape _ _ _ => exact absurd (List.mem_cons_self ..) hb
  | unicode _ _ _ _ _ _ => exact absurd (List.mem_cons_self ..) hb

theorem key_infix {m : JsonMember JsonValue} {members : List (JsonMember JsonValue)}
    (hm : m ∈ members) : m.key <:+: JsonValue.membersText members := by
  induction members with
  | nil => cases hm
  | cons n members ih =>
    rw [membersText_cons]
    rcases List.mem_cons.mp hm with rfl | hm
    · refine ⟨m.pre ++ [quote], [quote] ++ m.gap ++ colon :: m.gap' ++ m.value.text ++ m.post ++
        separator members (JsonValue.membersText members), ?_⟩
      simp [quoted]
    · have hne : members.isEmpty = false := by
        cases members with
        | nil => cases hm
        | cons => rfl
      rw [separator, hne]
      exact (ih hm).trans ((List.suffix_cons _ _).trans (List.suffix_append _ _)).isInfix

/-- A key of a payload without escapes stands in it. -/
theorem Contains.key_infix {payload key value : CStr} (h : Contains payload key value)
    (hb : backslash ∉ payload) : key <:+: payload := by
  obtain ⟨gap, members, rfl, -, m, hm, hkey, -⟩ := h
  have hin : m.key <:+: (JsonValue.object gap members).text := by
    rw [JsonValue.text]
    refine (Metadata.key_infix hm).trans ⟨openBrace :: gap, [closeBrace], ?_⟩
    simp
  exact stringText_plain hkey (fun hm => hb (hin.subset hm)) ▸ hin

/-- The item without a value ends the loop, and the one behind it is lost. -/
theorem empty_value_ends_upload :
    ¬ Complete [⟨str "board", some (str "a=1\nb=\nc=2\n")⟩]
      ((factorySystem 1024 [⟨str "board", some (str "a=1\nb=\nc=2\n")⟩]).run ⟨[], false⟩
        [attemptWith fun _ => true]) := by
  intro hcomplete
  have haccepted : ((factorySystem 1024 [⟨str "board", some (str "a=1\nb=\nc=2\n")⟩]).run
      ⟨[], false⟩ [attemptWith fun _ => true]).accepted = [str "\x7b\"factory/board/a\":\"1\"\x7d"] := by
    decide +kernel
  obtain ⟨payload, hpayload, hcontains⟩ := hcomplete (by decide +kernel) _
    (List.mem_singleton_self _) _ rfl [(str "a", str "1"), (str "b", []), (str "c", str "2")]
    (by decide) (str "c", str "2") (by decide)
  rw [haccepted] at hpayload
  obtain rfl := List.mem_singleton.mp hpayload
  exact absurd (hcontains.key_infix (by decide)) (by decide +kernel)

end Pantavisor.Metadata
