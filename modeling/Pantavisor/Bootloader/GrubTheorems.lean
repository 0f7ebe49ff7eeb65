/-
Pantavisor.Bootloader.GrubTheorems — what the GRUB backend does to a
well-formed block.

A block is well formed (`GrubBlock`) when it is the header, a block of
newline-terminated entries and `#` up to 1024 bytes. The loops of the backend
see only the entries that end before index 997: the rest are lost to a rewrite
(`grubRewrite_block`), and get misses them when no memory behind the buffer
makes up for what its bound is short of (`grubGetEnvKey_block`). On the
entries they see, get is `firstMatch` and the rewrite is `dropMatches` with
the new entry behind.
-/
import Pantavisor.Lib.EntryBlock
import Pantavisor.Bootloader.Grub

namespace Pantavisor.Bootloader

open Pantavisor.Lib

/-- How many bytes of the entries the copy loop scans. -/
def grubScanned : Nat := grubEnvSize - grubHdrMinus - grubHdrSize

/-- The header and the entries of a block. -/
def grubContents (es : List (CStr × CStr)) : CStr := grubHdr ++ encode newline es

/-- A well-formed block with the entries `es`. -/
structure GrubBlock (file : CStr) (es : List (CStr × CStr)) : Prop where
  block : BlockOk newline es
  fits : (grubContents es).length ≤ grubEnvSize
  layout : file = grubFill (grubContents es)

theorem length_grubContents (es : List (CStr × CStr)) :
    (grubContents es).length = grubHdrSize + (encode newline es).length := by
  rw [grubContents, List.length_append]
  rfl

theorem length_grubFill {new : CStr} (h : new.length ≤ grubEnvSize) :
    (grubFill new).length = grubEnvSize := by
  simp only [grubFill, List.length_append, List.length_replicate]
  omega

theorem GrubBlock.length {file : CStr} {es : List (CStr × CStr)} (h : GrubBlock file es) :
    file.length = grubEnvSize := by rw [h.layout, length_grubFill h.fits]

theorem GrubBlock.entryNoTerm {file : CStr} {es : List (CStr × CStr)} (h : GrubBlock file es) :
    ∀ p ∈ es, newline ∉ entryText p :=
  fun p hp => (h.block.keyOk p hp).entry_noTerm (by decide) (h.block.valueOk p hp)

theorem GrubBlock.entryNulFree {file : CStr} {es : List (CStr × CStr)} (h : GrubBlock file es) :
    ∀ p ∈ es, NulFree (entryText p) :=
  fun p hp => (h.block.keyOk p hp).entry_nulFree (h.block.valueOk p hp)

/-- What `strlen` finds behind the buffer has no newline in the part that get
scans. -/
structure GrubOver (behind : CStr) : Prop where
  nulFree : NulFree behind
  noNewline : newline ∉ behind.take (behind.length - grubHdrMinus)

instance (behind : CStr) : Decidable (GrubOver behind) :=
  decidable_of_iff (NulFree behind ∧ newline ∉ behind.take (behind.length - grubHdrMinus))
    ⟨fun ⟨a, b⟩ => ⟨a, b⟩, fun ⟨a, b⟩ => ⟨a, b⟩⟩

/-- A block passes the checks of `read_grubenv`. -/
theorem readGrubenv_block {io : GrubIo} {file : CStr} {es : List (CStr × CStr)}
    (h : GrubBlock file es) (hopen : io.openOk = true) {n : Nat} (hread : io.read = some n)
    (hn : grubEnvSize ≤ n) : readGrubenv io file = some file := by
  have htake : file.take grubEnvSize = file := List.take_of_length_le (Nat.le_of_eq h.length)
  have hall : file.take n = file := List.take_of_length_le (by rw [h.length]; exact hn)
  have hhdr : file.take grubHdrSize = grubHdr := by
    rw [h.layout, grubFill, grubContents, List.append_assoc]
    exact List.take_left' rfl
  rw [readGrubenv, hopen, hread]
  simp only [htake, hall, h.length, ne_eq, not_true_eq_false, if_false, hhdr]

/-- The block without its header: the entries and the fill. -/
theorem GrubBlock.file_eq {file : CStr} {es : List (CStr × CStr)} (h : GrubBlock file es) :
    file = grubHdr ++ (encode newline es
      ++ List.replicate (grubEnvSize - (grubContents es).length) hash) := by
  conv_lhs => rw [h.layout, grubFill, grubContents, List.append_assoc]
  rfl

theorem length_grubHdr : grubHdr.length = grubHdrSize := rfl

theorem GrubBlock.length_body {file : CStr} {es : List (CStr × CStr)} (h : GrubBlock file es) :
    (encode newline es
      ++ List.replicate (grubEnvSize - (grubContents es).length) hash).length = 999 := by
  have hfits := h.fits
  rw [length_grubContents] at hfits ⊢
  simp only [List.length_append, List.length_replicate, grubEnvSize, grubHdrSize] at hfits ⊢
  omega

/-- Bytes behind a bound do not matter. -/
theorem take_append_cut (a b : CStr) (n : Nat) :
    (a ++ b).take n = (a ++ b.take (n - a.length)).take n := by
  rw [List.take_append, List.take_append, List.take_take, Nat.min_self]

theorem newline_not_mem_fill (n : Nat) : newline ∉ List.replicate n hash :=
  fun h => absurd (List.eq_of_mem_replicate h) (by decide)

/-! ## Get -/

/-- The get loop reads to the end of a line and decides there. -/
theorem grubGetLoop_entry {key s rest : CStr} (hs : newline ∉ s) (mem : CStr) (i next : Nat) :
    grubGetLoop key mem i next (s ++ newline :: rest)
      = if key <+: (mem.set (i + s.length) 0).drop next then
          some (cstrAt (mem.set (i + s.length) 0) (next + key.length + 1))
        else grubGetLoop key (mem.set (i + s.length) 0) (i + s.length + 1) (i + s.length + 1)
          rest := by
  induction s generalizing i with
  | nil => simp [grubGetLoop, isPrefixOf_eq_decide]
  | cons c s ih =>
      simp only [List.mem_cons, not_or] at hs
      rw [List.cons_append, grubGetLoop, if_pos (Ne.symm hs.1), ih hs.2]
      simp only [List.length_cons]
      rw [show i + 1 + s.length = i + (s.length + 1) by omega]

/-- Without a newline the get loop finds nothing. -/
theorem grubGetLoop_noNewline {key s : CStr} (hs : newline ∉ s) (mem : CStr) (i next : Nat) :
    grubGetLoop key mem i next s = none := by
  induction s generalizing i with
  | nil => rfl
  | cons c s ih =>
      simp only [List.mem_cons, not_or] at hs
      rw [grubGetLoop, if_pos (Ne.symm hs.1), ih hs.2]

/-- Over a run of entries with only newline-free bytes behind it the get loop is
`firstMatch`. -/
theorem grubGetLoop_encode {key rest : CStr} (hkey : KeyOk newline key)
    (hrest : newline ∉ rest) :
    ∀ (es : List (CStr × CStr)) (pre tail : CStr),
      (∀ p ∈ es, newline ∉ entryText p) → (∀ p ∈ es, NulFree (entryText p)) →
      grubGetLoop key (pre ++ (encode newline es ++ tail)) pre.length pre.length
          (encode newline es ++ rest)
        = firstMatch key es := by
  intro es
  induction es with
  | nil => intro pre tail _ _; exact grubGetLoop_noNewline hrest _ _ _
  | cons p es ih =>
      intro pre tail hterm hnul
      -- the newline behind the entry becomes its terminator
      have hset : (pre ++ (encode newline (p :: es) ++ tail)).set
            (pre.length + (entryText p).length) 0
          = pre ++ (entryText p ++ 0 :: (encode newline es ++ tail)) := by
        rw [List.set_append_right _ _ (by omega), Nat.add_sub_cancel_left, encode_cons,
          List.append_assoc, List.set_append_right _ _ (by omega), Nat.sub_self]
        rfl
      have hdrop : key <+: (pre ++ (entryText p ++ 0 :: (encode newline es ++ tail))).drop
          pre.length ↔ key <+: p.1 := by
        rw [List.drop_left, prefix_terminated hkey.nulFree, prefix_entryText hkey.noEq]
      have hscan : encode newline (p :: es) ++ rest
          = entryText p ++ newline :: (encode newline es ++ rest) := by simp
      rw [hscan, grubGetLoop_entry (hterm p (by simp)), hset, firstMatch_cons]
      by_cases hm : key <+: p.1
      · have hlen : key.length + 1 ≤ (entryText p).length := by
          have := hm.length_le
          rw [length_entryText]
          omega
        rw [if_pos (hdrop.mpr hm), if_pos hm, Nat.add_assoc,
          cstrAt_append_add (hnul p (by simp)) hlen]
      · rw [if_neg (hdrop.not.mpr hm), if_neg hm,
          ← ih (pre ++ (entryText p ++ [0])) tail (fun q hq => hterm q (by simp [hq]))
            (fun q hq => hnul q (by simp [hq]))]
        have hlen : (pre ++ (entryText p ++ [0])).length
            = pre.length + (entryText p).length + 1 := by
          simp only [List.length_append, List.length_singleton]
          omega
        rw [hlen]
        simp

/-- **Get on a well-formed block** returns the first entry that the key is a
prefix of, among the entries it sees. -/
theorem grubGetEnvKey_block {behind file : CStr} {es : List (CStr × CStr)}
    (h : GrubBlock file es) (hover : GrubOver behind) {key : CStr} (hkey : KeyOk newline key) :
    grubGetEnvKey .ok behind file key
      = firstMatch key (fitting (grubScanned + behind.length) es) := by
  have hnul : NulFree (file ++ behind) := by
    rw [h.file_eq]
    simp only [NulFree, List.mem_append, not_or, encode, List.mem_flatMap, List.mem_singleton,
      not_exists, not_and]
    refine ⟨⟨by decide, fun p hp => ⟨h.entryNulFree p hp, by decide⟩, ?_⟩, hover.nulFree⟩
    exact fun h0 => absurd (List.eq_of_mem_replicate h0) (by decide)
  have hpad : newline ∉ List.replicate (grubEnvSize - (grubContents es).length) hash
      ++ behind.take (behind.length - grubHdrMinus) := by
    rw [List.mem_append, not_or]
    exact ⟨newline_not_mem_fill _, hover.noNewline⟩
  obtain ⟨piece, hpiece, htake⟩ :=
    take_encode hpad (grubScanned + behind.length) h.entryNoTerm
  have hlen : (file ++ behind).length - grubHdrMinus = grubHdrSize + (grubScanned + behind.length) := by
    rw [List.length_append, h.length]
    simp only [grubEnvSize, grubHdrMinus, grubHdrSize, grubScanned]
    omega
  -- what lies behind the bound is not scanned, so it may be cut off
  have hscan : ((file ++ behind).take (grubHdrSize + (grubScanned + behind.length))).drop grubHdrSize
      = encode newline (fitting (grubScanned + behind.length) es) ++ piece := by
    have hbody := h.length_body
    have hcut : grubScanned + behind.length - 999 = behind.length - grubHdrMinus := by
      simp only [grubScanned, grubEnvSize, grubHdrMinus, grubHdrSize]
      omega
    rw [List.drop_take, Nat.add_sub_cancel_left, ← htake, h.file_eq, List.append_assoc,
      List.drop_left' length_grubHdr, take_append_cut, hbody, hcut, List.append_assoc]
  obtain ⟨more, hmore⟩ := prefix_fitting (grubScanned + behind.length) es
  have hmem : file ++ behind = grubHdr
      ++ (encode newline (fitting (grubScanned + behind.length) es) ++ (encode newline more
        ++ (List.replicate (grubEnvSize - (grubContents es).length) hash ++ behind))) := by
    conv_lhs => rw [h.file_eq, ← hmore, encode_append]
    simp [hmore]
  have hloop := grubGetLoop_encode hkey hpiece (fitting (grubScanned + behind.length) es) grubHdr
    (encode newline more
        ++ (List.replicate (grubEnvSize - (grubContents es).length) hash ++ behind))
    (fun p hp => h.entryNoTerm p (hmore ▸ List.mem_append_left _ hp))
    (fun p hp => h.entryNulFree p (hmore ▸ List.mem_append_left _ hp))
  rw [← hmem, show grubHdr.length = grubHdrSize from rfl, ← hscan] at hloop
  rw [grubGetEnvKey, readGrubenv_block h rfl rfl (Nat.le_refl _)]
  simp only [cstrAt_zero hnul, hlen]
  exact hloop

/-! ## Set and unset -/

/-- The copy loop reads to the end of a line and decides there. -/
theorem grubCopyLoop_entry {old key s' rest : CStr} (hs : newline ∉ s') (i s len : Nat)
    (new : CStr) :
    grubCopyLoop old key i s len new (s' ++ newline :: rest)
      = if key <+: old.drop s then
          grubCopyLoop old key (i + s'.length + 1) (i + s'.length + 1) 0 new rest
        else
          grubCopyLoop old key (i + s'.length + 1) (i + s'.length + 1) 0
            (new ++ (old.drop s).take (len + s'.length + 1)) rest := by
  induction s' generalizing i len with
  | nil => simp [grubCopyLoop, isPrefixOf_eq_decide]
  | cons c s' ih =>
      simp only [List.mem_cons, not_or] at hs
      rw [List.cons_append, grubCopyLoop, if_pos (Ne.symm hs.1), ih hs.2]
      simp only [List.length_cons]
      rw [show i + 1 + s'.length = i + (s'.length + 1) by omega,
        show len + 1 + s'.length = len + (s'.length + 1) by omega]

/-- A piece without a newline is not copied. -/
theorem grubCopyLoop_noNewline {old key piece : CStr} (hp : newline ∉ piece) (i s len : Nat)
    (new : CStr) : grubCopyLoop old key i s len new piece = new := by
  induction piece generalizing i len with
  | nil => rfl
  | cons c piece ih =>
      simp only [List.mem_cons, not_or] at hp
      rw [grubCopyLoop, if_pos (Ne.symm hp.1), ih hp.2]

/-- Over a run of entries the copy loop is `dropMatches`. -/
theorem grubCopyLoop_encode {key piece : CStr} (hkey : KeyOk newline key)
    (hpiece : newline ∉ piece) (old : CStr) :
    ∀ (es : List (CStr × CStr)) (pre tail new : CStr),
      (∀ p ∈ es, newline ∉ entryText p) → old = pre ++ (encode newline es ++ tail) →
      grubCopyLoop old key pre.length pre.length 0 new (encode newline es ++ piece)
        = new ++ encode newline (dropMatches key es) := by
  intro es
  induction es with
  | nil =>
      intro pre tail new _ _
      rw [encode_nil, List.nil_append, grubCopyLoop_noNewline hpiece]
      simp [dropMatches]
  | cons p es ih =>
      intro pre tail new hterm hold
      have hold' : old = pre ++ (entryText p ++ newline :: (encode newline es ++ tail)) := by
        simpa using hold
      have hdrop : key <+: old.drop pre.length ↔ key <+: p.1 := by
        rw [hold', List.drop_left, prefix_terminated hkey.noTerm, prefix_entryText hkey.noEq]
      have htake : (old.drop pre.length).take (0 + (entryText p).length + 1)
          = entryText p ++ [newline] := by
        rw [hold', List.drop_left, Nat.zero_add, List.take_append,
          List.take_of_length_le (by omega), Nat.add_sub_cancel_left]
        rfl
      have hscan : encode newline (p :: es) ++ piece
          = entryText p ++ newline :: (encode newline es ++ piece) := by simp
      have hlen : (pre ++ (entryText p ++ [newline])).length
          = pre.length + (entryText p).length + 1 := by
        simp only [List.length_append, List.length_singleton]
        omega
      have hrec := fun new' => ih (pre ++ (entryText p ++ [newline])) tail new'
        (fun q hq => hterm q (by simp [hq])) (by simpa using hold')
      rw [hlen] at hrec
      rw [hscan, grubCopyLoop_entry (hterm p (by simp)), htake, hrec, hrec, dropMatches_cons]
      by_cases hm : key <+: p.1
      · rw [if_pos (hdrop.mpr hm), if_pos hm]
      · rw [if_neg (hdrop.not.mpr hm), if_neg hm]
        simp

/-- The text that set appends for a value. -/
def grubAdd (key : CStr) (value : Option CStr) : Option CStr :=
  value.map fun v => entryText (key, v) ++ [newline]

theorem grubSetEnvKey_eq (io : GrubIo) (file key value : CStr) :
    grubSetEnvKey io file key value = grubRewrite io file key (grubAdd key (some value)) := by
  rw [grubSetEnvKey, grubAdd, Option.map_some, entryText,
    show str "=" = [eqSign] from by decide, show str "\n" = [newline] from by decide]
  simp

theorem grubUnsetEnvKey_eq (io : GrubIo) (file key : CStr) :
    grubUnsetEnvKey io file key = grubRewrite io file key (grubAdd key none) := rfl

/-- What set and unset keep of a well-formed block. -/
theorem grubCopy_block {file : CStr} {es : List (CStr × CStr)} (h : GrubBlock file es)
    {key : CStr} (hkey : KeyOk newline key) :
    grubCopyLoop file key grubHdrSize grubHdrSize 0 grubHdr
        ((file.take (grubEnvSize - grubHdrMinus)).drop grubHdrSize)
      = grubContents (dropMatches key (fitting grubScanned es)) := by
  obtain ⟨piece, hpiece, htake⟩ := take_encode
    (newline_not_mem_fill (grubEnvSize - (grubContents es).length)) grubScanned h.entryNoTerm
  have hscan : (file.take (grubEnvSize - grubHdrMinus)).drop grubHdrSize
      = encode newline (fitting grubScanned es) ++ piece := by
    rw [List.drop_take, ← htake, h.file_eq, List.drop_left' length_grubHdr]
    rfl
  obtain ⟨more, hmore⟩ := prefix_fitting grubScanned es
  have hold : file = grubHdr ++ (encode newline (fitting grubScanned es) ++ (encode newline more
      ++ List.replicate (grubEnvSize - (grubContents es).length) hash)) := by
    conv_lhs => rw [h.file_eq, ← hmore, encode_append]
    simp [hmore]
  have hloop := grubCopyLoop_encode hkey hpiece file (fitting grubScanned es) grubHdr _ grubHdr
    (fun p hp => h.entryNoTerm p (hmore ▸ List.mem_append_left _ hp)) hold
  rw [length_grubHdr, ← hscan] at hloop
  exact hloop

/-- The new block of a rewrite, whatever the write does with it. -/
theorem grubAppend_kept {key : CStr} {es : List (CStr × CStr)} {value : Option CStr}
    (hshort : ∀ v ∈ value, (entryText (key, v)).length + 1 < grubEntrySize)
    (hfit : (grubContents (rewriteEntries key es value)).length ≤ grubEnvSize) :
    grubAppend (grubContents (dropMatches key es)) (grubAdd key value)
      = .ok (grubContents (rewriteEntries key es value)) := by
  cases value with
  | none => rfl
  | some v =>
      have hv := hshort v rfl
      have hsum : (grubContents (dropMatches key es)).length + ((entryText (key, v)).length + 1)
          ≤ grubEnvSize := by
        simpa [rewriteEntries, grubContents, Nat.add_assoc] using hfit
      rw [grubAdd, Option.map_some, grubAppend, if_neg (by simp; omega), if_neg (by simp; omega)]
      simp [rewriteEntries, grubContents]

theorem grubWrite_ok {file new : CStr} (hnew : new.length = grubEnvSize)
    (hfile : file.length ≤ grubEnvSize) : grubWrite .ok file new = (0, new) := by
  have htake : new.take grubEnvSize = new := List.take_of_length_le (Nat.le_of_eq hnew)
  simp only [grubWrite, GrubIo.ok, htake, hnew, ne_eq, not_true_eq_false, if_false]
  rw [overwrite_same_length (by omega)]

/-- A new block is well formed when its entries fit. -/
theorem GrubBlock.rewrite {file : CStr} {es : List (CStr × CStr)} (h : GrubBlock file es)
    {key : CStr} (hkey : KeyOk newline key) {value : Option CStr}
    (hval : ∀ v ∈ value, ValueOk newline v)
    (hfit : (grubContents (rewriteEntries key (fitting grubScanned es) value)).length
      ≤ grubEnvSize) :
    GrubBlock (grubFill (grubContents (rewriteEntries key (fitting grubScanned es) value)))
      (rewriteEntries key (fitting grubScanned es) value) where
  block := (h.block.mono (prefix_fitting _ _).sublist).rewriteEntries hkey hval
  fits := hfit
  layout := rfl

/-- A rewrite of a well-formed block that is read in full writes what it keeps
of the entries that the copy loop sees. -/
theorem grubRewrite_write {io : GrubIo} {file : CStr} {es : List (CStr × CStr)}
    (h : GrubBlock file es) (hopen : io.openOk = true) {n : Nat} (hread : io.read = some n)
    (hn : grubEnvSize ≤ n) {key : CStr} (hkey : KeyOk newline key) {value : Option CStr}
    (hshort : ∀ v ∈ value, (entryText (key, v)).length + 1 < grubEntrySize)
    (hfit : (grubContents (rewriteEntries key (fitting grubScanned es) value)).length
      ≤ grubEnvSize) :
    grubRewrite io file key (grubAdd key value)
      = .ok (grubWrite io file
          (grubFill (grubContents (rewriteEntries key (fitting grubScanned es) value)))) := by
  rw [grubRewrite, readGrubenv_block h hopen hread hn]
  simp only [grubCopy_block h hkey, grubAppend_kept hshort hfit, bind, Except.bind]
  rfl

/-- **A rewrite of a well-formed block with all I/O working** returns 0 and
stores what it keeps of the entries that the copy loop sees. -/
theorem grubRewrite_block {file : CStr} {es : List (CStr × CStr)} (h : GrubBlock file es)
    {key : CStr} (hkey : KeyOk newline key) {value : Option CStr}
    (hshort : ∀ v ∈ value, (entryText (key, v)).length + 1 < grubEntrySize)
    (hfit : (grubContents (rewriteEntries key (fitting grubScanned es) value)).length
      ≤ grubEnvSize) :
    grubRewrite .ok file key (grubAdd key value)
      = .ok (0, grubFill (grubContents (rewriteEntries key (fitting grubScanned es) value))) := by
  rw [grubRewrite_write h rfl rfl (Nat.le_refl _) hkey hshort hfit,
    grubWrite_ok (length_grubFill hfit) (Nat.le_of_eq h.length)]

end Pantavisor.Bootloader
