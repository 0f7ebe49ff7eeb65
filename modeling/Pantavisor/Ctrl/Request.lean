/-
Pantavisor.Ctrl.Request — the request line of the control socket and the names that are cut
out of its path (`ctrl.c`, `utils/str.h`).

`pv_ctrl_read_parse_request` looks for the endpoint of a path by its start and its end, and
then takes the size of the endpoint with its terminator for the offset of the name. What
stands at the place of the separator is not looked at, and a start and an end that share
the separator leave a length of -1 (`slicedRight_iff`).

The path and its length come from `phr_parse_request`, which is not in the repository: it
finds a path without spaces and control characters, with a space behind it.
-/
import Pantavisor.Lib.Block

namespace Pantavisor.Ctrl

open Pantavisor.Lib

/-- A path in the buffer of 4096 bytes that the request was read into. -/
structure RequestLine where
  path : CStr
  /-- what is in the buffer behind the space -/
  rest : CStr
  plain : (0 : UInt8) ∉ path ∧ (32 : UInt8) ∉ path
  fits : path.length + rest.length < 4096

/-- What `path` points to. -/
def RequestLine.mem (r : RequestLine) : CStr := r.path ++ 32 :: r.rest

/-! ## The endpoint of a path -/

/-- `pv_str_startswith` -/
def pvStrStartswith (str1 str2 : CStr) : Bool := str1.isPrefixOf str2

/-- `pv_str_matches` -/
def pvStrMatches (str1 str2 : CStr) (str2len : Nat) : Bool :=
  str1.length = str2len && str1.isPrefixOf str2

/-- `pv_str_endswith` -/
def pvStrEndswith (str1 str2 : CStr) (str2len : Nat) : Bool :=
  str1.length < str2len && str1.isPrefixOf (str2.drop (str2len - str1.length))

/-- The branches of `pv_ctrl_read_parse_request` -/
inductive Endpoint where
  | commands
  | objectList
  | object
  | stepList
  | progress
  | commitmsg
  | step
  | userMetaList
  | deviceMetaList
  | buildinfo
  | userMeta
  | unknown
  deriving DecidableEq, Repr

/-- The branch that a path gets to. -/
def endpointOf (path : CStr) (pathLen : Nat) : Endpoint :=
  if pvStrStartswith (str "/commands") path then .commands
  else if pvStrMatches (str "/objects") path pathLen then .objectList
  else if pvStrStartswith (str "/objects") path then .object
  else if pvStrMatches (str "/steps") path pathLen then .stepList
  else if pvStrStartswith (str "/steps") path && pvStrEndswith (str "/progress") path pathLen then
    .progress
  else if pvStrStartswith (str "/steps") path && pvStrEndswith (str "/commitmsg") path pathLen then
    .commitmsg
  else if pvStrStartswith (str "/steps") path then .step
  else if pvStrMatches (str "/user-meta") path pathLen then .userMetaList
  else if pvStrMatches (str "/device-meta") path pathLen then .deviceMetaList
  else if pvStrMatches (str "/buildinfo") path pathLen then .buildinfo
  else if pvStrStartswith (str "/user-meta") path then .userMeta
  else .unknown

/-- What is before and behind the name in the path of a branch that has one. -/
def Endpoint.around : Endpoint → Option (CStr × CStr)
  | .object => some (str "/objects", [])
  | .progress => some (str "/steps", str "/progress")
  | .commitmsg => some (str "/steps", str "/commitmsg")
  | .step => some (str "/steps", [])
  | .userMeta => some (str "/user-meta", [])
  | _ => none

/-! ## The name -/

/-- `pv_ctrl_get_file_name` -/
def pvCtrlGetFileName (path : CStr) (bufIndex pathLen : Nat) : Option Block :=
  let len := intOfSize (subSize pathLen bufIndex)
  (Block.calloc (sizeOfInt (len + 1))).strncpy (path.drop bufIndex) (sizeOfInt len)

/-- The name that a branch takes from a path: `sizeof` of its endpoint is the offset, and the
length of its end is taken off. -/
def RequestLine.fileName (r : RequestLine) (endpoint suffix : CStr) : Option Block :=
  pvCtrlGetFileName r.mem (endpoint.length + 1) (subSize r.path.length suffix.length)

def slash : UInt8 := 47

/-- The name of a path: no length wraps around, and nothing but the name is between the
separator and the end. -/
structure Slice (r : RequestLine) (endpoint suffix name : CStr) : Prop where
  noWrap : endpoint.length + 1 + suffix.length ≤ r.path.length
  path : r.path = endpoint ++ slash :: name ++ suffix
  made : (r.fileName endpoint suffix).bind Block.text = some name

/-- A path is sliced right by the branch it gets to. -/
def SlicedRight (r : RequestLine) : Prop :=
  ∀ endpoint suffix, (endpointOf r.mem r.path.length).around = some (endpoint, suffix) →
    ∃ name, Slice r endpoint suffix name

/-! ## Getting a name -/

/-- The bytes from an offset up to a later one, as a string of their own. -/
theorem pvCtrlGetFileName_text {before name behind : CStr} (hname : NulFree name)
    (hlt : (before ++ name).length < 2 ^ 31) :
    (pvCtrlGetFileName (before ++ (name ++ behind)) before.length (before ++ name).length).bind
      Block.text = some name := by
  have hlen : subSize (before ++ name).length before.length = name.length := by
    rw [subSize_eq (by simp) (by omega), List.length_append, Nat.add_sub_cancel_left]
  have hsmall : name.length < 2 ^ 31 := by
    rw [List.length_append] at hlt
    omega
  have hroom : sizeOfInt ((name.length : Int) + 1) = name.length + 1 :=
    sizeOfInt_eq (show name.length + 1 < 2 ^ 63 by omega)
  rw [pvCtrlGetFileName, hlen, intOfSize_eq hsmall, hroom, sizeOfInt_eq (by omega),
    List.drop_left, Block.strncpy_eq hname (by simp [Block.calloc]), Option.bind_some,
    Block.calloc, List.drop_replicate, Nat.add_sub_cancel_left]
  exact Block.text_append_zero hname _

/-! ## What the tests of a branch say -/

theorem pvStrStartswith_iff {key mem : CStr} : pvStrStartswith key mem = true ↔ key <+: mem :=
  List.isPrefixOf_iff_prefix

theorem pvStrEndswith_iff {key mem : CStr} {len : Nat} :
    pvStrEndswith key mem len = true ↔
      key.length < len ∧ key <+: mem.drop (len - key.length) := by
  rw [pvStrEndswith, Bool.and_eq_true, decide_eq_true_eq, List.isPrefixOf_iff_prefix]

theorem around_ite {p : Prop} [Decidable p] {e e' : Endpoint} {around : CStr × CStr}
    (h : (if p then e else e').around = some around) :
    p ∧ e.around = some around ∨ e'.around = some around := by
  split at h
  · exact .inl ⟨‹p›, h⟩
  · exact .inr h

/-- A path has the start and the end of its branch, as far as the tests go. -/
theorem around_tests {mem : CStr} {len : Nat} {endpoint suffix : CStr}
    (h : (endpointOf mem len).around = some (endpoint, suffix)) :
    endpoint <+: mem ∧
      (suffix = [] ∨ endpoint = str "/steps" ∧ suffix.head? = some slash ∧
        suffix.length < len ∧ suffix <+: mem.drop (len - suffix.length)) := by
  have hleft : ∀ {key suffix : CStr} {n : Nat}, (pvStrStartswith key mem &&
      pvStrEndswith suffix mem n) = true →
        key <+: mem ∧ suffix.length < n ∧ suffix <+: mem.drop (n - suffix.length) := by
    intro key suffix n hboth
    rwa [Bool.and_eq_true, pvStrStartswith_iff, pvStrEndswith_iff] at hboth
  -- the tests in the order of the source: most branches take no name
  rcases around_ite h with ⟨-, hnone⟩ | h
  · cases hnone
  rcases around_ite h with ⟨-, hnone⟩ | h
  · cases hnone
  rcases around_ite h with ⟨hstart, hobject⟩ | h
  · cases hobject
    exact ⟨pvStrStartswith_iff.mp hstart, .inl rfl⟩
  rcases around_ite h with ⟨-, hnone⟩ | h
  · cases hnone
  rcases around_ite h with ⟨hboth, hprogress⟩ | h
  · cases hprogress
    exact ⟨(hleft hboth).1, .inr ⟨rfl, rfl, (hleft hboth).2⟩⟩
  rcases around_ite h with ⟨hboth, hcommitmsg⟩ | h
  · cases hcommitmsg
    exact ⟨(hleft hboth).1, .inr ⟨rfl, rfl, (hleft hboth).2⟩⟩
  rcases around_ite h with ⟨hstart, hstep⟩ | h
  · cases hstep
    exact ⟨pvStrStartswith_iff.mp hstart, .inl rfl⟩
  rcases around_ite h with ⟨-, hnone⟩ | h
  · cases hnone
  rcases around_ite h with ⟨-, hnone⟩ | h
  · cases hnone
  rcases around_ite h with ⟨-, hnone⟩ | h
  · cases hnone
  rcases around_ite h with ⟨hstart, huserMeta⟩ | hnone
  · cases huserMeta
    exact ⟨pvStrStartswith_iff.mp hstart, .inl rfl⟩
  · cases hnone

theorem around_no_space {endpoint : Endpoint} {start suffix : CStr}
    (h : endpoint.around = some (start, suffix)) : (32 : UInt8) ∉ start ∧ (32 : UInt8) ∉ suffix := by
  cases endpoint <;> cases h <;> decide

/-- The end of a path that is longer cannot begin within `/steps`, which has one slash. -/
theorem no_overlap {path suffix : CStr} (hstart : str "/steps" <+: path)
    (hhead : suffix.head? = some slash) (hlt : suffix.length < path.length)
    (hend : suffix <+: path.drop (path.length - suffix.length)) :
    (str "/steps").length + suffix.length ≤ path.length := by
  by_contra hover
  have hslash : path[path.length - suffix.length]? = some slash := by
    obtain ⟨t, ht⟩ := hend
    have hzero : (path.drop (path.length - suffix.length))[0]? = some slash := by
      rw [← ht]
      cases suffix with
      | nil => cases hhead
      | cons c s => simpa using hhead
    simpa using hzero
  have hbefore : path[path.length - suffix.length]? = (str "/steps")[path.length - suffix.length]? := by
    obtain ⟨t, rfl⟩ := hstart
    exact List.getElem?_append_left (by omega)
  have hletters : ∀ i < (str "/steps").length, 0 < i → (str "/steps")[i]? ≠ some slash := by
    decide
  rw [hbefore] at hslash
  exact hletters _ (by omega) (by omega) hslash

/-- A path that is sliced ends with the end of its branch, behind the start. -/
theorem path_of_tests (r : RequestLine) {endpoint suffix : CStr}
    (h : (endpointOf r.mem r.path.length).around = some (endpoint, suffix)) :
    ∃ middle, r.path = endpoint ++ middle ++ suffix := by
  obtain ⟨hstart, hend⟩ := around_tests h
  obtain ⟨hspace, hspace'⟩ := around_no_space h
  have hpath : endpoint <+: r.path := (prefix_terminated hspace).mp hstart
  rcases hend with rfl | ⟨rfl, hhead, hlt, hend⟩
  · obtain ⟨middle, hmiddle⟩ := hpath
    exact ⟨middle, by rw [List.append_nil, hmiddle]⟩
  · have hdrop : r.mem.drop (r.path.length - suffix.length)
        = r.path.drop (r.path.length - suffix.length) ++ 32 :: r.rest :=
      List.drop_append_of_le_length (by omega)
    rw [hdrop, prefix_terminated hspace'] at hend
    have hroom := no_overlap hpath hhead hlt hend
    have hsuffix : suffix = r.path.drop (r.path.length - suffix.length) :=
      hend.eq_of_length (by rw [List.length_drop]; omega)
    obtain ⟨middle, hmiddle⟩ : str "/steps" <+: r.path.take (r.path.length - suffix.length) :=
      List.prefix_of_prefix_length_le hpath (List.take_prefix ..)
        (by rw [List.length_take]; omega)
    refine ⟨middle, ?_⟩
    conv_lhs => rw [← List.take_append_drop (r.path.length - suffix.length) r.path]
    rw [hmiddle, ← hsuffix]

/-! ## The slices -/

/-- A name is sliced right, if there is one. -/
theorem slice_of_path (r : RequestLine) {endpoint suffix name : CStr}
    (h : r.path = endpoint ++ slash :: name ++ suffix) : Slice r endpoint suffix name := by
  have hlen : r.path.length = endpoint.length + 1 + name.length + suffix.length := by
    rw [h]
    simp only [List.length_append, List.length_cons]
    omega
  have hfits := r.fits
  have hname : NulFree name := by
    intro hmem
    refine r.plain.1 ?_
    rw [h]
    simp [hmem]
  refine ⟨by omega, h, ?_⟩
  have hmem : r.mem = (endpoint ++ [slash]) ++ (name ++ (suffix ++ 32 :: r.rest)) := by
    rw [RequestLine.mem, h]
    simp
  have hstart : endpoint.length + 1 = (endpoint ++ [slash]).length := by simp
  have hstop : subSize r.path.length suffix.length = (endpoint ++ [slash] ++ name).length := by
    rw [subSize_eq (by omega) (by omega), hlen]
    simp only [List.length_append, List.length_singleton]
    omega
  rw [RequestLine.fileName, hmem, hstart, hstop]
  refine pvCtrlGetFileName_text hname ?_
  simp only [List.length_append, List.length_singleton]
  omega

/-- **A path is sliced right** just if a slash stands behind the start of its branch and is
not the one that its end begins with. -/
theorem slicedRight_iff (r : RequestLine) :
    SlicedRight r ↔
      ∀ endpoint suffix, (endpointOf r.mem r.path.length).around = some (endpoint, suffix) →
        endpoint ++ [slash] <+: r.path ∧ r.path ≠ endpoint ++ suffix := by
  constructor
  · intro h endpoint suffix haround
    obtain ⟨name, hslice⟩ := h endpoint suffix haround
    refine ⟨⟨name ++ suffix, by rw [hslice.path]; simp⟩, fun heq => ?_⟩
    have hroom := hslice.noWrap
    rw [heq, List.length_append] at hroom
    omega
  · intro h endpoint suffix haround
    obtain ⟨hslash, hne⟩ := h endpoint suffix haround
    obtain ⟨middle, hpath⟩ := path_of_tests r haround
    have hmiddle : [slash] <+: middle ++ suffix := by
      rw [hpath, List.append_assoc] at hslash
      exact (List.prefix_append_right_inj endpoint).mp hslash
    cases middle with
    | nil =>
      rw [List.append_nil] at hpath
      exact absurd hpath hne
    | cons c name =>
      obtain rfl : slash = c := by simpa using hmiddle
      exact ⟨name, slice_of_path r hpath⟩

/-- `/steps/progress` is the start and the end of the branch of a progress file, with one
slash for both: the name has a length of -1, of which nothing fits into its block. -/
theorem steps_progress_wraps :
    ∃ r : RequestLine, r.path = str "/steps/progress" ∧
      r.fileName (str "/steps") (str "/progress") = none ∧ ¬ SlicedRight r := by
  refine ⟨⟨str "/steps/progress", str "HTTP/1.1\r\n\r\n", by decide, by decide⟩, rfl,
    by decide +kernel, ?_⟩
  intro h
  obtain ⟨name, hslice⟩ := h (str "/steps") (str "/progress") (by decide)
  exact absurd hslice.noWrap (by decide)

end Pantavisor.Ctrl
