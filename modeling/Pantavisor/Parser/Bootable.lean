/-
Pantavisor.Parser.Bootable — whether an accepted state can be booted.

A state is bootable if its boot manifest names the `fit` image of the text's manifest,
or its `linux` image and its `initrd` (`Bootable`). Both parsers put the two forms in
one union and then ask for `fit`, which is the kernel by that time: nothing asks for
the `initrd`. `bootable_iff` says of which accepted texts the state is bootable.
-/
import Pantavisor.Parser.Accepted
import Pantavisor.Json.Tokenizer

namespace Pantavisor.Parser

open Pantavisor.Lib Pantavisor.Json Pantavisor.State

/-! ## Members and scans -/

/-- A member of a text: a top-level key, and the token behind it. -/
def HasMember (jsmn : Jsmn) (buf key value : CStr) : Prop :=
  ∃ keys k t t', jsmn.objectKeys buf (tokensOf jsmn buf) 0 = some keys ∧ k ∈ keys ∧
    (tokensOf jsmn buf)[k]? = some t ∧ t.isKey buf key = true ∧
    (tokensOf jsmn buf)[k + 1]? = some t' ∧ tokText buf t' = value

theorem hasMember_iff {jsmn : Jsmn} {buf key value : CStr} :
    HasMember jsmn buf key value ↔
      ∃ keys ∈ jsmn.objectKeys buf (tokensOf jsmn buf) 0, ∃ k ∈ keys,
        ∃ t ∈ (tokensOf jsmn buf)[k]?, t.isKey buf key = true ∧
          ∃ t' ∈ (tokensOf jsmn buf)[k + 1]?, tokText buf t' = value := by
  constructor
  · rintro ⟨keys, k, t, t', hkeys, hk, ht, hkey, ht', hvalue⟩
    exact ⟨keys, hkeys, k, hk, t, ht, hkey, t', ht', hvalue⟩
  · rintro ⟨keys, hkeys, k, hk, t, ht, hkey, t', ht', hvalue⟩
    exact ⟨keys, k, t, t', hkeys, hk, ht, hkey, ht', hvalue⟩

instance (jsmn : Jsmn) (buf key value : CStr) : Decidable (HasMember jsmn buf key value) :=
  decidable_of_iff _ hasMember_iff.symm

/-- The scan for a key finds a member. -/
def Found (jsmn : Jsmn) (buf key : CStr) : Prop :=
  ∃ value, scan jsmn buf key = some value ∧ HasMember jsmn buf key value

instance (jsmn : Jsmn) (buf key : CStr) : Decidable (Found jsmn buf key) :=
  inferInstanceAs (Decidable (∃ value ∈ scan jsmn buf key, HasMember jsmn buf key value))

/-- With one string that reads as the key, the scan finds what is behind it. -/
theorem pvJsonGetValue_of_count {buf key : CStr} {toks : List Tok} {k : Nat} {t t' : Tok}
    (hcount : pvJsonGetKeyCount buf key toks = 1) (ht : toks[k]? = some t)
    (hkey : t.isKey buf key = true) (ht' : toks[k + 1]? = some t') :
    pvJsonGetValue buf key toks = some (tokText buf t') := by
  rw [pvJsonGetValue]
  induction toks generalizing k with
  | nil => cases ht
  | cons a rest ih =>
    rw [pvJsonGetKeyCount, List.countP_cons] at hcount
    cases k with
    | zero =>
      obtain rfl : a = t := Option.some.inj ht
      rw [if_pos hkey] at hcount
      have hnone := List.countP_eq_zero.mp (Nat.succ_injective hcount)
      obtain ⟨rest', rfl⟩ : ∃ rest', rest = t' :: rest' := by
        cases rest with
        | nil => cases ht'
        | cons b rest' => exact ⟨rest', by rw [Option.some.inj ht']⟩
      have hnot := hnone t' List.mem_cons_self
      rw [pvJsonGetValueLoop, if_pos hkey, pvJsonGetValueLoop, if_neg hnot, if_pos rfl]
    | succ k =>
      rw [List.getElem?_cons_succ] at ht ht'
      have hpos : 0 < rest.countP (·.isKey buf key) :=
        List.countP_pos_iff.mpr ⟨t, List.mem_of_getElem? ht, hkey⟩
      have hnot : ¬ a.isKey buf key = true := by
        intro ha
        rw [if_pos ha] at hcount
        omega
      rw [if_neg hnot, Nat.add_zero] at hcount
      rw [pvJsonGetValueLoop, if_neg hnot, if_neg Bool.false_ne_true]
      exact ih hcount ht ht'

theorem HasMember.scan_of_count {jsmn : Jsmn} {buf key value : CStr}
    (h : HasMember jsmn buf key value)
    (hcount : pvJsonGetKeyCount buf key (tokensOf jsmn buf) = 1) :
    scan jsmn buf key = some value := by
  obtain ⟨keys, k, t, t', -, -, ht, hkey, ht', rfl⟩ := h
  exact pvJsonGetValue_of_count hcount ht hkey ht'

/-! ## Bootable states -/

/-- The key of the boot manifest of a text, by its spec. -/
def manifestKey (jsmn : Jsmn) (buf : CStr) : CStr :=
  if scan jsmn buf (str "#spec") = some specMulti1 then str "pantavisor.json"
  else str "bsp/run.json"

/-- The images of a manifest, as a state has them. -/
def BootImages (jsmn : Jsmn) (run : CStr) (bsp : PvBsp) : Prop :=
  (∃ fit, HasMember jsmn run (str "fit") fit ∧ bsp.kernel = some fit) ∨
    ∃ linux initrd, HasMember jsmn run (str "linux") linux ∧
      HasMember jsmn run (str "initrd") initrd ∧ bsp.kernel = some linux ∧
      bsp.initrd = some initrd

/-- The state has the text, and the images of the text's boot manifest. -/
structure Bootable (jsmn : Jsmn) (buf : CStr) (t : PvState) : Prop where
  json : t.json = some buf
  images : ∃ run, HasMember jsmn buf (manifestKey jsmn buf) run ∧ BootImages jsmn run t.bsp

/-- In a manifest, the scan finds the member `fit`, or it finds no `fit` but the members
`linux` and `initrd`. A `fit` whose text is `fit` can be missed, and what is found for
`linux` can by chance be the same. -/
def ImagesFound (jsmn : Jsmn) (run : CStr) : Prop :=
  Found jsmn run (str "fit") ∨
    scan jsmn run (str "fit") = none ∧
      (Found jsmn run (str "linux") ∧ Found jsmn run (str "initrd") ∨
        ∃ value, scan jsmn run (str "linux") = some value ∧
          HasMember jsmn run (str "fit") value)

/-- The text has one string that reads as the key of its manifest, which is a
top-level key, and the images are found. -/
structure ManifestFound (jsmn : Jsmn) (buf : CStr) : Prop where
  one : pvJsonGetKeyCount buf (manifestKey jsmn buf) (tokensOf jsmn buf) = 1
  images : ∃ run, HasMember jsmn buf (manifestKey jsmn buf) run ∧ ImagesFound jsmn run

/-- The images that are looked up are those of the manifest exactly if they are found. -/
theorem bootImages_iff {jsmn : Jsmn} {run : CStr} {bsp : PvBsp}
    (hkernel : bsp.kernel = (bspOf jsmn run).kernel)
    (hinitrd : bsp.initrd = (bspOf jsmn run).initrd) :
    BootImages jsmn run bsp ↔ ImagesFound jsmn run := by
  rw [BootImages, hkernel, hinitrd]
  change _ ↔ Found jsmn run (str "fit") ∨ _
  cases hfit : scan jsmn run (str "fit") with
  | some fit =>
    have hkernel : (bspOf jsmn run).kernel = some fit := by
      simp only [bspOf, scan] at hfit ⊢
      simp [hfit]
    have hinitrd : (bspOf jsmn run).initrd = none := by
      simp only [bspOf, scan] at hfit ⊢
      simp [hfit]
    rw [hkernel, hinitrd, Found, hfit]
    constructor
    · rintro (⟨value, hmem, heq⟩ | ⟨_, _, _, _, _, hnone⟩)
      · exact .inl ⟨value, heq, hmem⟩
      · cases hnone
    · rintro (⟨value, heq, hmem⟩ | ⟨hnone, _⟩)
      · exact .inl ⟨value, hmem, heq⟩
      · cases hnone
  | none =>
    have hkernel : (bspOf jsmn run).kernel = scan jsmn run (str "linux") := by
      simp only [bspOf, scan] at hfit ⊢
      simp [hfit]
    have hinitrd : (bspOf jsmn run).initrd = scan jsmn run (str "initrd") := by
      simp only [bspOf, scan] at hfit ⊢
      simp [hfit]
    rw [hkernel, hinitrd, Found, hfit]
    constructor
    · rintro (⟨value, hmem, heq⟩ | ⟨linux, initrd, hlinux, hinitrd, hk, hi⟩)
      · exact .inr ⟨rfl, .inr ⟨value, heq, hmem⟩⟩
      · exact .inr ⟨rfl, .inl ⟨⟨linux, hk, hlinux⟩, ⟨initrd, hi, hinitrd⟩⟩⟩
    · rintro (⟨_, hnone, _⟩ | ⟨-, ⟨⟨linux, hk, hlinux⟩, ⟨initrd, hi, hinitrd⟩⟩ |
        ⟨value, heq, hmem⟩⟩)
      · cases hnone
      · exact .inr ⟨linux, initrd, hlinux, hinitrd, hk, hi⟩
      · exact .inl ⟨value, hmem, heq⟩

/-! ## Accepted texts -/

theorem bsp_addAll (s : PvState) (pvs : List Parsed) : (addAll s pvs).bsp = s.bsp := by
  induction pvs generalizing s with
  | nil => rfl
  | cons pv pvs ih => exact ih (addParsed s pv.1 pv.2)

/-- A system1 text has one manifest, and the state what the scans find in it. -/
theorem accepted_system1 {jsmn : Jsmn} {mntpoint buf rev : CStr} {alloc : Nat} {t : PvState}
    (h : system1Parse jsmn mntpoint (pvStateNew alloc rev .system1) buf = some (some t)) :
    t.json = some buf ∧
      pvJsonGetKeyCount buf (str "bsp/run.json") (tokensOf jsmn buf) = 1 ∧
      ∃ run, scan jsmn buf (str "bsp/run.json") = some run ∧ t.bsp = bspOf jsmn run := by
  have hslots : Slots (pvStateNew alloc rev .system1) := rfl
  obtain ⟨ms, run, sb, pvs, -, hmanifest, -, rfl⟩ := system1Parse_members hslots h
  refine ⟨rfl, hmanifest.count, run, hmanifest.value, ?_⟩
  obtain ⟨-, keys, -, rfl⟩ := parseBsp_some hmanifest.bsp
  exact bsp_addAll _ pvs

/-- A multi1 text has one manifest, and the state what the scans find in it, or the
state has no text. -/
theorem accepted_multi1 {jsmn : Jsmn} {mntpoint buf rev : CStr} {alloc : Nat} {t : PvState}
    (h : Multi1.multi1Parse jsmn mntpoint (pvStateNew alloc rev .multi1) buf = some (some t)) :
    (t.json = none ∧ (pvJsonGetKeyCount buf (str "pantavisor.json") (tokensOf jsmn buf) = 1 →
      scan jsmn buf (str "pantavisor.json") = none)) ∨
    t.json = some buf ∧
      pvJsonGetKeyCount buf (str "pantavisor.json") (tokensOf jsmn buf) = 1 ∧
      ∃ run, scan jsmn buf (str "pantavisor.json") = some run ∧
        t.bsp.kernel = (bspOf jsmn run).kernel ∧ t.bsp.initrd = (bspOf jsmn run).initrd := by
  rcases Multi1.multi1Parse_spec h with ⟨hnone, rfl⟩ |
    ⟨run, addons, names, volumes, ms, s', hcount, hvalue, hlists, hms, hfold, rfl⟩
  · exact .inl ⟨rfl, hnone⟩
  · refine .inr ⟨rfl, hcount, run, hvalue, ?_⟩
    have hbsp : s'.bsp = { bspOf jsmn run with modules := none } :=
      (Multi1.foldlM_parseKey_filled hfold).1.bsp.trans (bsp_addAll _ _)
    have hkernel := congrArg PvBsp.kernel hbsp
    have hinitrd := congrArg PvBsp.initrd hbsp
    exact ⟨hkernel, hinitrd⟩

/-- **The accepted texts with a bootable state.** -/
theorem bootable_iff {jsmn : Jsmn} {mntpoint buf rev : CStr} {alloc : Nat} {t : PvState}
    (h : getState jsmn mntpoint alloc buf rev = some (some t)) :
    Bootable jsmn buf t ↔ ManifestFound jsmn buf := by
  -- what the two specs have in common
  have hboth : ∀ run, t.json = some buf → scan jsmn buf (manifestKey jsmn buf) = some run →
      pvJsonGetKeyCount buf (manifestKey jsmn buf) (tokensOf jsmn buf) = 1 →
      t.bsp.kernel = (bspOf jsmn run).kernel → t.bsp.initrd = (bspOf jsmn run).initrd →
      (Bootable jsmn buf t ↔ ManifestFound jsmn buf) := by
    intro run hjson hscan hcount hkernel hinitrd
    have hrun : ∀ run', HasMember jsmn buf (manifestKey jsmn buf) run' → run' = run :=
      fun run' hmem => Option.some.inj ((hmem.scan_of_count hcount).symm.trans hscan)
    have himages := bootImages_iff hkernel hinitrd
    constructor
    · rintro ⟨-, run', hmem, hboot⟩
      obtain rfl := hrun run' hmem
      exact ⟨hcount, run', hmem, himages.mp hboot⟩
    · rintro ⟨-, run', hmem, hfound⟩
      obtain rfl := hrun run' hmem
      exact ⟨hjson, run', hmem, himages.mpr hfound⟩
  rcases getState_cases h with ⟨hspec, hparse⟩ | ⟨hspec, hparse⟩
  · have hkey : manifestKey jsmn buf = str "pantavisor.json" := if_pos hspec
    rcases accepted_multi1 hparse with ⟨hjson, hnone⟩ | ⟨hjson, hcount, run, hscan, hkernel,
        hinitrd⟩
    · rw [← hkey] at hnone
      constructor
      · rintro ⟨htext, -⟩
        rw [hjson] at htext
        cases htext
      · rintro ⟨hcount, run, hmem, -⟩
        have hscan := hmem.scan_of_count hcount
        rw [hnone hcount] at hscan
        cases hscan
    · rw [← hkey] at hscan hcount
      exact hboth run hjson hscan hcount hkernel hinitrd
  · have hkey : manifestKey jsmn buf = str "bsp/run.json" := by
      refine if_neg ?_
      rw [hspec, Option.some.injEq]
      exact specSystem1_ne
    obtain ⟨hjson, hcount, run, hscan, hbsp⟩ := accepted_system1 hparse
    rw [← hkey] at hscan hcount
    exact hboth run hjson hscan hcount (congrArg PvBsp.kernel hbsp) (congrArg PvBsp.initrd hbsp)

/-- A state with a boot manifest that has a kernel and an initrd. -/
def bootableText : CStr :=
  str "\x7b\"#spec\":\"pantavisor-service-system@1\",\"bsp/run.json\":\x7b\"linux\":\"k\",\"initrd\":\"i\"\x7d\x7d"

/-- It is accepted, and its images are found. -/
theorem bootable_iff_bootableText :
    ∃ t, getState tokenizer (str "/s") 0 bootableText (str "1") = some (some t) ∧
      Bootable tokenizer bootableText t := by
  let run := str "\x7b\"linux\":\"k\",\"initrd\":\"i\"\x7d"
  obtain ⟨haccepted, hone, hrun, hfit, hlinux, hinitrd⟩ :
      ((getState tokenizer (str "/s") 0 bootableText (str "1")).bind id).isSome ∧
        pvJsonGetKeyCount bootableText (manifestKey tokenizer bootableText)
          (tokensOf tokenizer bootableText) = 1 ∧
        HasMember tokenizer bootableText (manifestKey tokenizer bootableText) run ∧
        scan tokenizer run (str "fit") = none ∧ Found tokenizer run (str "linux") ∧
        Found tokenizer run (str "initrd") := by
    unfold bootableText run
    repeat rw [str_ofList]
    decide +kernel
  obtain ⟨t, ht⟩ := accepted_of_isSome haccepted
  exact ⟨t, ht, (bootable_iff ht).mpr ⟨hone, run, hrun, .inr ⟨hfit, .inl ⟨hlinux, hinitrd⟩⟩⟩⟩

/-- A state with a boot manifest that has a kernel and no initrd. -/
def noInitrdText : CStr :=
  str "\x7b\"#spec\":\"pantavisor-service-system@1\",\"bsp/run.json\":\x7b\"linux\":\"k\"\x7d\x7d"

/-- It is accepted too. -/
theorem accepted_without_initrd :
    ¬ ∀ (jsmn : Jsmn) (mntpoint : CStr) (alloc : Nat) (buf rev : CStr) (t : PvState),
      getState jsmn mntpoint alloc buf rev = some (some t) → Bootable jsmn buf t := by
  intro h
  obtain ⟨hparse, hone, hvalue⟩ :
      ((getState tokenizer (str "/s") 0 noInitrdText (str "1")).bind id).map
        (fun t => t.bsp.initrd) = some none ∧
      pvJsonGetKeyCount noInitrdText (manifestKey tokenizer noInitrdText)
        (tokensOf tokenizer noInitrdText) = 1 ∧
      scan tokenizer noInitrdText (manifestKey tokenizer noInitrdText)
        = some (str "\x7b\"linux\":\"k\"\x7d") := by
    unfold noInitrdText
    repeat rw [str_ofList]
    decide +kernel
  obtain ⟨t, ho, hinitrd⟩ := accepted_of_map hparse
  obtain ⟨-, run, hrun, ⟨fit, hfit, -⟩ | ⟨_, initrd, -, -, -, hsome⟩⟩ := h _ _ _ _ _ t ho
  · obtain rfl := Option.some.inj ((hrun.scan_of_count hone).symm.trans hvalue)
    obtain ⟨_, _, tok, _, -, -, htok, hkey, -⟩ := hfit
    have hnone : (tokensOf tokenizer (str "\x7b\"linux\":\"k\"\x7d")).all
        (fun t => !t.isKey (str "\x7b\"linux\":\"k\"\x7d") (str "fit")) = true := by decide +kernel
    have hnot := List.all_eq_true.mp hnone tok (List.mem_of_getElem? htok)
    rw [hkey] at hnot
    cases hnot
  · rw [hinitrd] at hsome
    cases hsome

end Pantavisor.Parser
