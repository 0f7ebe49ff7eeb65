/-
Pantavisor.Bootloader.PartialIo — what set and unset report when the I/O
under them fails or stops short.

An operation tells the truth (`ReportsTruth`) when it returns 0 only if the
store then reads as the map the operation is meant to leave, and otherwise
leaves the map as it was. The U-Boot backend returns 0 whenever the image could
be opened: it looks at no result of `read`, of the erase or of `write`. The
GRUB backend checks both counts, but a write that stops short has by then
changed the block.

What the calls of one operation do to a well-formed store is an `Effect`, in
terms of the stored entries (`storeRewrite_leaves`). An effect is reported
truly under a condition on these entries alone (`Effect.Right`), so that
`reportsTruth_of_truthful` and its converse for outcomes without short counts
are read off the effects.
-/
import Mathlib.Data.List.Infix
import Pantavisor.Bootloader.Isolation

namespace Pantavisor.Bootloader

open Pantavisor.Lib

/-- The kinds of store there are. -/
inductive EnvKind where
  | ubootTxt
  | ubootMtd
  | grubenv
  deriving DecidableEq, Repr

def EnvStore.kind : EnvStore → EnvKind
  | .uboot st => if st.singleEnv then .ubootMtd else .ubootTxt
  | .grub _ => .grubenv

/-- The entries that the copy loop sees in a store of this kind. -/
def EnvKind.seen (es : List (CStr × CStr)) : EnvKind → List (CStr × CStr)
  | .grubenv => fitting grubScanned es
  | _ => es

/-- The operation returns 0 only if the store reads as its result, and leaves
what the store reads as when it returns anything else. -/
def ReportsTruth (io : EnvIo) (s : EnvStore) (key : CStr) (value : Option CStr) : Prop :=
  ∃ ret s', storeRewrite io key value s = .ok (ret, s') ∧
    (ret = 0 → denote s'.entries = Function.update (denote s.entries) key value) ∧
    (ret ≠ 0 → denote s'.entries = denote s.entries)

/-- There is room for the new entry whatever the rewrite drops. -/
def EnvStore.Roomy (es : List (CStr × CStr)) (key : CStr) : Option CStr → EnvStore → Prop
  | none, _ => True
  | some v, .uboot _ => (entryText (key, v)).length < ubootEntrySize ∧
      (encode 0 es).length + ((entryText (key, v)).length + 1) ≤ ubootRoom
  | some v, .grub _ => (entryText (key, v)).length + 1 < grubEntrySize ∧
      (grubContents (rewriteEntries key (fitting grubScanned es) (some v))).length ≤ grubEnvSize

/-- An operation whose key and value the format can hold, on a well-formed store
with room for it. -/
structure EnvOpOk (s : EnvStore) (es : List (CStr × CStr)) (key : CStr)
    (value : Option CStr) : Prop where
  holds : s.Holds es
  keyOk : KeyOk s.term key
  valueOk : ∀ v ∈ value, ValueOk s.term v
  roomy : s.Roomy es key value

/-! ## What the calls do -/

/-- What the calls of one set or unset do to the store. -/
inductive Effect where
  /-- an error is returned and nothing has changed -/
  | fails
  /-- nothing is written, and 0 is returned -/
  | loses
  /-- the flash is erased and nothing is written, and 0 is returned -/
  | wipes
  /-- the new image is written -/
  | stores
  /-- an image without the entries, which were not read, is written -/
  | blind
  deriving DecidableEq, Repr

/-- The code that is returned. -/
def Effect.ret : Effect → Int
  | .fails => -1
  | _ => 0

/-- The entries that are left. -/
def Effect.leaves (kind : EnvKind) (key : CStr) (value : Option CStr)
    (es : List (CStr × CStr)) : Effect → List (CStr × CStr)
  | .fails | .loses => es
  | .wipes => []
  | .stores => rewriteEntries key (kind.seen es) value
  | .blind => rewriteEntries key [] value

/-- A whole image with these entries. -/
def ubootImageOf (es : List (CStr × CStr)) : CStr := readInto mtdEnvSize (encode 0 es)

/-- The calls get as far as the erase and the `write`. -/
def UbootIo.Reaches (io : UbootIo) (single : Bool) : Prop :=
  (single = true ∨ io.stat = true) ∧ io.openRead = true ∧ io.openWrite = true

/-- The read misses nothing but padding. -/
def UbootIo.Reads (io : UbootIo) (es : List (CStr × CStr)) : Prop :=
  ∃ n ∈ io.read, (encode 0 es).length ≤ n + 1

/-- Every byte in which the old and the new image differ is written; on flash,
which is erased before, every byte of the new entries. -/
def UbootIo.Writes (io : UbootIo) (single : Bool) (es es' : List (CStr × CStr)) : Prop :=
  match single with
  | false => ∃ m ∈ io.write, (ubootImageOf es').drop m = (ubootImageOf es).drop m ∧
      (encode 0 es').length ≤ max m (encode 0 es).length
  | true => io.erase = true ∧ ∃ m ∈ io.write, (encode 0 es').length ≤ m

/-- What the calls of one operation of the U-Boot backend do to an image with
the entries `es`. A short count in the middle of what they should transfer is
none of these. -/
def UbootIo.Does (io : UbootIo) (single : Bool) (es : List (CStr × CStr)) (key : CStr)
    (value : Option CStr) : Effect → Prop
  | .fails => ¬ io.Reaches single
  | .loses => io.Reaches single ∧ (single = true → io.erase = false) ∧
      ((∀ m ∈ io.write, m = 0) ∨ single = false ∧ io.Reads es ∧ ∀ m ∈ io.write,
        (ubootImageOf (rewriteEntries key es value)).take m = (ubootImageOf es).take m)
  | .wipes => io.Reaches single ∧ single = true ∧ io.erase = true ∧ ∀ m ∈ io.write, m = 0
  | .stores => io.Reaches single ∧ io.Reads es ∧
      io.Writes single es (rewriteEntries key es value)
  | .blind => io.Reaches single ∧ io.read = none ∧
      io.Writes single es (rewriteEntries key [] value)

/-- What the calls of one operation of the GRUB backend do to a block with the
entries `es`. A short write is noticed, and harmless when no byte that it
writes differs. -/
def GrubIo.Does (io : GrubIo) (es : List (CStr × CStr)) (key : CStr) (value : Option CStr) :
    Effect → Prop
  | .fails => io.openOk = false ∨ (∀ n ∈ io.read, n < grubEnvSize) ∨ ∀ m ∈ io.write,
      m < grubEnvSize ∧
        (grubFill (grubContents (rewriteEntries key (fitting grubScanned es) value))).take m
          = (grubFill (grubContents es)).take m
  | .stores => io.openOk = true ∧ (∃ n ∈ io.read, grubEnvSize ≤ n) ∧
      ∃ m ∈ io.write, grubEnvSize ≤ m
  | _ => False

/-- What the calls of one operation do to a store of this kind. -/
def EnvIo.Does (io : EnvIo) (es : List (CStr × CStr)) (key : CStr) (value : Option CStr)
    (e : Effect) : EnvKind → Prop
  | .ubootTxt => io.uboot.Does false es key value e
  | .ubootMtd => io.uboot.Does true es key value e
  | .grubenv => io.grub.Does es key value e

/-- Every call of the U-Boot backend fails or transfers all it is asked to, and
flash that was not erased is not written. -/
structure UbootIo.Plain (io : UbootIo) (single : Bool) : Prop where
  read : ∀ n ∈ io.read, mtdEnvSize ≤ n
  write : ∀ m ∈ io.write, mtdEnvSize ≤ m
  erase : single = true → io.write.isSome → io.erase = true

/-- Outcomes without short counts. -/
def EnvIo.Plain (io : EnvIo) : EnvKind → Prop
  | .ubootTxt => io.uboot.Plain false
  | .ubootMtd => io.uboot.Plain true
  | .grubenv => ∀ m ∈ io.grub.write, grubEnvSize ≤ m

/-- The effect is what the code that is returned says of it. -/
def Effect.Right (s : EnvStore) (es : List (CStr × CStr)) (key : CStr) (value : Option CStr) :
    Effect → Prop
  | .fails => True
  | .loses => denote es key = value
  | .wipes => value = none ∧ ∀ k ∈ keysOf es, k = key
  | .stores => Apart s es key
  | .blind => ∀ k ∈ keysOf es, k = key

/-- The outcomes of an operation that are reported truly. -/
def EnvIo.Truthful (io : EnvIo) (s : EnvStore) (es : List (CStr × CStr)) (key : CStr)
    (value : Option CStr) : Prop :=
  ∃ e : Effect, io.Does es key value e s.kind ∧ e.Right s es key value

/-! ## The copy loop over a part of an image -/

/-- What the copy loop keeps of an image that is cut inside a text. -/
theorem ubootCopy_cut {bytes : CStr} {es : List (CStr × CStr)} (h : UbootImage bytes es)
    {key : CStr} (hkey : KeyOk 0 key) {n : Nat} (hn : n + 1 < (encode 0 es).length) :
    ∃ es₁ p es₂ piece more, es = es₁ ++ p :: es₂ ∧ entryText p = piece ++ more ∧
      (encode 0 es).take n = encode 0 es₁ ++ piece ∧
      ubootCopyLoop (readInto mtdEnvSize (bytes.take n)) key (bytes.take n).length
          (mtdEnvSize + 1) 0 []
        = .ok (encode 0 (dropMatches key es₁)
            ++ if piece = [] ∨ key <+: piece then [] else piece ++ [0]) := by
  obtain ⟨es₁, p, es₂, piece, more, rfl, hp, htake⟩ := take_encode_split hn
  refine ⟨es₁, p, es₂, piece, more, rfl, hp, htake, ?_⟩
  obtain ⟨pad, hlay⟩ := h.layout
  have hcut : bytes.take n = encode 0 es₁ ++ piece := by
    rw [hlay, List.take_append_of_le_length (by omega), htake]
  have hused := h.used
  simp only [ubootRoom] at hused
  have hlen : (encode 0 es₁).length + piece.length = n := by
    rw [← List.length_append, ← htake, List.length_take]
    omega
  have hin : ∀ q ∈ es₁, q ∈ es₁ ++ p :: es₂ := fun q hq => List.mem_append_left _ hq
  have hcount := length_le_encode 0 es₁
  have hbuf : readInto mtdEnvSize (encode 0 es₁ ++ piece)
      = [] ++ (encode 0 es₁ ++ (piece ++ List.replicate (mtdEnvSize - n) 0)) := by
    rw [readInto, List.length_append, hlen, List.append_assoc, List.nil_append]
  have hloop := ubootCopyLoop_encode hkey _ _ (encode 0 es₁ ++ piece).length es₁ [] []
    (mtdEnvSize - es₁.length + 1) (fun q hq => h.entryNulFree q (hin q hq))
    (fun q hq => h.notErased q (hin q hq)) hbuf
    (by rw [List.length_nil, List.length_append]; omega)
    (by rw [List.length_nil, ubootRoom]; omega)
    (by simp only [List.length_nil, mtdEnvSize]; omega)
  rw [show mtdEnvSize - es₁.length + 1 + es₁.length = mtdEnvSize + 1 by
    simp only [mtdEnvSize]; omega] at hloop
  rw [hcut, ← List.length_nil, hloop]
  by_cases hpiece : piece = []
  · -- the cut is between two texts
    rw [if_pos (Or.inl hpiece), List.append_nil, List.nil_append]
    exact ubootCopyLoop_end 0 (Or.inl (by simp [hpiece]))
  · -- one text more, and then the end of what was read
    have hnul : NulFree piece := fun h0 =>
      h.entryNulFree p (by simp) (by rw [hp]; exact List.mem_append_left _ h0)
    have hff : ¬ [0xFF, 0xFF] <+: piece := fun hpre =>
      h.notErased p (by simp) ((prefix_entryText (by decide) p).mp
        (hp ▸ hpre.trans (List.prefix_append _ _)))
    have hat : (readInto mtdEnvSize (encode 0 es₁ ++ piece)).drop
        (([] : CStr).length + (encode 0 es₁).length)
        = piece ++ 0 :: List.replicate (mtdEnvSize - n - 1) 0 := by
      rw [hbuf, List.nil_append, List.length_nil, Nat.zero_add, List.drop_left,
        ← List.replicate_succ]
      congr 2
      simp only [mtdEnvSize]
      omega
    have hsplit : mtdEnvSize - es₁.length + 1 = mtdEnvSize - es₁.length - 1 + 1 + 1 := by
      simp only [mtdEnvSize]
      omega
    have hpos := List.length_pos_of_ne_nil hpiece
    have hdrop : (encode 0 (dropMatches key es₁)).length ≤ (encode 0 es₁).length :=
      length_encode_filter_le 0 _ es₁
    rw [hsplit, ubootCopyLoop_text hnul hpiece hff hkey.nulFree hat
      (by rw [List.length_nil, List.length_append]; omega)
      (by rw [List.length_nil]; omega)
      (by rw [List.nil_append]; simp only [mtdEnvSize]; omega),
      ubootCopyLoop_end 0 (Or.inl (by rw [List.length_append, List.length_nil]; omega))]
    by_cases hm : key <+: piece
    · simp [hm]
    · simp [hm, hpiece]

/-- However much of an image is read, the copy loop ends and keeps no more than
the image uses. -/
theorem ubootCopy_any {bytes : CStr} {es : List (CStr × CStr)} (h : UbootImage bytes es)
    {key : CStr} (hkey : KeyOk 0 key) (n : Nat) :
    ∃ kept, ubootCopyLoop (readInto mtdEnvSize (bytes.take n)) key (bytes.take n).length
        (mtdEnvSize + 1) 0 [] = .ok kept ∧ kept.length ≤ (encode 0 es).length := by
  by_cases hn : (encode 0 es).length ≤ n + 1
  · exact ⟨_, ubootCopy_image h hkey hn, length_encode_filter_le 0 _ es⟩
  · obtain ⟨es₁, p, es₂, piece, more, rfl, hp, -, hcopy⟩ :=
      ubootCopy_cut h hkey (Nat.lt_of_not_le hn)
    refine ⟨_, hcopy, ?_⟩
    have hdrop : (encode 0 (dropMatches key es₁)).length ≤ (encode 0 es₁).length :=
      length_encode_filter_le 0 _ es₁
    have hlen := congrArg List.length hp
    rw [encode_append, encode_cons]
    simp only [List.length_append, List.length_cons] at hlen ⊢
    split
    · rw [List.length_nil]
      omega
    · rw [List.length_append, List.length_singleton]
      omega

/-! ## Rewrites with any outcome -/

/-- What the copy loop keeps of what the read brings in. -/
def Copies (io : UbootIo) (st : UbootStore) (key kept : CStr) : Prop :=
  ∃ old ret, ubootReadImage io st = .ok (old, ret) ∧
    ubootCopyLoop old key ret (mtdEnvSize + 1) 0 [] = .ok kept

/-- A failed `read` leaves nothing to copy. -/
theorem copies_unread {io : UbootIo} (hread : io.read = none) (st : UbootStore) (key : CStr) :
    Copies io st key [] :=
  ⟨readInto mtdEnvSize [], 0, by rw [ubootReadImage, hread],
    ubootCopyLoop_end 0 (Or.inl (Nat.le_refl 0))⟩

theorem UbootImage.copies_read {io : UbootIo} {single : Bool} {bytes : CStr}
    {es : List (CStr × CStr)} (h : UbootImage bytes es) {key : CStr} (hkey : KeyOk 0 key)
    (hread : io.Reads es) : Copies io ⟨single, bytes⟩ key (encode 0 (dropMatches key es)) := by
  obtain ⟨n, hn, hle⟩ := hread
  exact ⟨_, _, ubootReadImage_image h hn, ubootCopy_image h hkey hle⟩

/-- Whatever is read of an image, the copy loop ends within what it uses. -/
theorem UbootImage.copies_any {bytes : CStr} {es : List (CStr × CStr)} (h : UbootImage bytes es)
    {key : CStr} (hkey : KeyOk 0 key) (io : UbootIo) (single : Bool) :
    ∃ kept, Copies io ⟨single, bytes⟩ key kept ∧ kept.length ≤ (encode 0 es).length := by
  cases hread : io.read with
  | none => exact ⟨[], copies_unread hread _ key, Nat.zero_le _⟩
  | some n =>
      obtain ⟨kept, hcopy, hkept⟩ := ubootCopy_any h hkey n
      exact ⟨kept, ⟨_, _, ubootReadImage_image h hread, hcopy⟩, hkept⟩

/-- A rewrite whose calls get to the write returns 0 and writes what it copied. -/
theorem ubootRewrite_reaches {io : UbootIo} {st : UbootStore} {key kept new : CStr}
    {add : Option CStr} (hreach : io.Reaches st.singleEnv) (hcopy : Copies io st key kept)
    (happend : ubootAppend kept add = .ok new) :
    ubootRewrite io st key add = .ok (0, ubootWriteImage io st (readInto mtdEnvSize new)) := by
  obtain ⟨hstat, hopen, hwrite⟩ := hreach
  obtain ⟨old, ret, hread, hkept⟩ := hcopy
  have hpre : ¬ (!st.singleEnv && !io.stat) = true := by
    rcases hstat with hs | hs <;> simp [hs]
  rw [ubootRewrite, if_neg hpre, if_neg (by simp [hopen]), hread]
  simp only [bind, Except.bind, hkept, happend, hwrite]
  rfl

/-- A rewrite whose calls do not get there returns an error and changes nothing. -/
theorem ubootRewrite_fails {io : UbootIo} {st : UbootStore} {key kept new : CStr}
    {add : Option CStr} (hno : ¬ io.Reaches st.singleEnv) (hcopy : Copies io st key kept)
    (happend : ubootAppend kept add = .ok new) :
    ubootRewrite io st key add = .ok (-1, st) := by
  by_cases hstat : st.singleEnv = true ∨ io.stat = true
  swap
  · simp only [not_or, Bool.not_eq_true] at hstat
    rw [ubootRewrite, if_pos (by simp [hstat])]
  have hpre : ¬ (!st.singleEnv && !io.stat) = true := by
    rcases hstat with hs | hs <;> simp [hs]
  by_cases hopen : io.openRead = true
  swap
  · rw [ubootRewrite, if_neg hpre, if_pos (by simp [hopen])]
  -- the image is read, in whatever part, and then cannot be opened for writing
  have hwrite : io.openWrite = false := by
    by_contra hwrite
    exact hno ⟨hstat, hopen, by simpa using hwrite⟩
  obtain ⟨old, ret, hread, hkept⟩ := hcopy
  rw [ubootRewrite, if_neg hpre, if_neg (by simp [hopen]), hread]
  simp only [bind, Except.bind, hkept, happend, hwrite]
  rfl

/-- Behind no more than the image uses there is room for the new entry. -/
theorem ubootAppend_roomy {st : UbootStore} {es : List (CStr × CStr)} {key : CStr}
    {value : Option CStr} (hroomy : EnvStore.Roomy es key value (.uboot st)) {kept : CStr}
    (hkept : kept.length ≤ (encode 0 es).length) :
    ubootAppend kept (ubootAdd key value)
      = .ok (kept ++ (value.elim [] fun v => entryText (key, v) ++ [0])) := by
  cases value with
  | none => simp [ubootAdd, ubootAppend]
  | some v =>
      obtain ⟨hline, hroom⟩ := hroomy
      simp only [ubootRoom] at hroom
      rw [ubootAdd, Option.map_some, ubootAppend, if_neg (by omega),
        if_neg (by simp only [mtdEnvSize]; omega)]
      rfl

/-- The text of rewritten entries. -/
theorem encode_rewriteEntries (key : CStr) (es : List (CStr × CStr)) (value : Option CStr) :
    encode 0 (rewriteEntries key es value)
      = encode 0 (dropMatches key es) ++ (value.elim [] fun v => entryText (key, v) ++ [0]) := by
  cases value <;> simp [rewriteEntries]

/-- The rewritten entries leave the room that the copy loop needs behind them. -/
theorem UbootImage.rewrite_used {bytes : CStr} {es : List (CStr × CStr)}
    (h : UbootImage bytes es) {st : UbootStore} {key : CStr} {value : Option CStr}
    (hroomy : EnvStore.Roomy es key value (.uboot st)) {kept : List (CStr × CStr)}
    (hkept : (encode 0 kept).length ≤ (encode 0 es).length) :
    (encode 0 (rewriteEntries key kept value)).length ≤ ubootRoom := by
  have hdrop : (encode 0 (dropMatches key kept)).length ≤ (encode 0 kept).length :=
    length_encode_filter_le 0 _ kept
  have hused := h.used
  rw [encode_rewriteEntries, List.length_append]
  cases value with
  | none =>
      simp only [Option.elim_none, List.length_nil]
      omega
  | some v =>
      have hroom := hroomy.2
      simp only [Option.elim_some, List.length_append, List.length_singleton]
      omega

/-! ## What is written -/

theorem length_ubootImageOf {es : List (CStr × CStr)} (h : (encode 0 es).length ≤ ubootRoom) :
    (ubootImageOf es).length = mtdEnvSize :=
  length_readInto (Nat.le_trans h (by decide))

/-- A file is the first part of a whole image with its entries. -/
theorem UbootImage.prefix_imageOf {bytes : CStr} {es : List (CStr × CStr)}
    (h : UbootImage bytes es) : bytes <+: ubootImageOf es := by
  obtain ⟨pad, hlay⟩ := h.layout
  have hsize := h.size
  have hlen := congrArg List.length hlay
  simp only [List.length_append, List.length_replicate] at hlen
  refine ⟨List.replicate (mtdEnvSize - bytes.length) 0, ?_⟩
  rw [hlay, ubootImageOf, readInto, List.append_assoc, List.replicate_append_replicate]
  congr 2
  simp only [List.length_append, List.length_replicate]
  omega

/-- A first part of a whole image that has all its entries. -/
theorem layout_of_cut {l : CStr} {es : List (CStr × CStr)} (hpre : l <+: ubootImageOf es)
    (hlen : (encode 0 es).length ≤ l.length) :
    ∃ pad, l = encode 0 es ++ List.replicate pad 0 := by
  have htake := List.prefix_iff_eq_take.mp hpre
  rw [ubootImageOf, readInto, List.take_append, List.take_of_length_le hlen,
    List.take_replicate] at htake
  exact ⟨_, htake⟩

/-- A write over a first part of `old` that leaves no byte in which `old` and
`new` differ gives a first part of `new`. -/
theorem overwrite_prefix {file old new : CStr} {m : Nat} (hfile : file <+: old)
    (hlen : new.length = old.length) (hagree : new.drop m = old.drop m) :
    overwrite file (new.take m) <+: new ∧
      min m new.length ≤ (overwrite file (new.take m)).length ∧
      file.length ≤ (overwrite file (new.take m)).length := by
  have hle := hfile.length_le
  have htake : (new.take m).length = min m new.length := List.length_take
  refine ⟨?_, ?_, ?_⟩
  · rw [overwrite, htake]
    by_cases hm : m ≤ new.length
    · rw [Nat.min_eq_left hm]
      have hrest := hfile.drop m
      rw [← hagree] at hrest
      conv_rhs => rw [← List.take_append_drop m new]
      exact (List.prefix_append_right_inj _).mpr hrest
    · rw [Nat.min_eq_right (by omega), List.drop_eq_nil_of_le (by omega), List.append_nil]
      exact List.take_prefix m new
  · rw [overwrite, List.length_append, htake]
    omega
  · rw [overwrite, List.length_append, htake, List.length_drop]
    omega

/-- What a write to the file leaves when it reaches every byte in which the
images differ. -/
theorem overwrite_image {file : CStr} {es es' : List (CStr × CStr)} (h : UbootImage file es)
    (hused : (encode 0 es').length ≤ ubootRoom) {m : Nat}
    (hagree : (ubootImageOf es').drop m = (ubootImageOf es).drop m)
    (hlen : (encode 0 es').length ≤ max m (encode 0 es).length) :
    (∃ pad, overwrite file ((ubootImageOf es').take m) = encode 0 es' ++ List.replicate pad 0) ∧
      (overwrite file ((ubootImageOf es').take m)).length ≤ mtdEnvSize := by
  obtain ⟨pad, hlay⟩ := h.layout
  have hold := congrArg List.length hlay
  have hwhole := length_ubootImageOf hused
  obtain ⟨hpre, hwritten, hkept⟩ := overwrite_prefix h.prefix_imageOf
    (hwhole.trans (length_ubootImageOf h.used).symm) hagree
  have hle := hpre.length_le
  have hroom : ubootRoom ≤ mtdEnvSize := by decide
  rw [List.length_append, List.length_replicate] at hold
  refine ⟨layout_of_cut hpre (by omega), by omega⟩

/-- Erased flash. -/
def erasedFlash : CStr := List.replicate mtdEnvSize 0xFF

theorem erasedFlash_eq : erasedFlash = 0xFF :: 0xFF :: List.replicate 65534 0xFF := rfl

/-- Behind a whole image, or the first part of one, on flash that was erased,
there is no other entry. -/
theorem decode_written {es : List (CStr × CStr)} (hblock : BlockOk 0 es)
    (hused : (encode 0 es).length ≤ ubootRoom) {m : Nat} (hm : (encode 0 es).length ≤ m) :
    decode 0 (program erasedFlash ((ubootImageOf es).take m)) = es := by
  have hlen : ((ubootImageOf es).take m).length ≤ mtdEnvSize := by
    rw [List.length_take, length_ubootImageOf hused]
    exact Nat.min_le_right _ _
  obtain ⟨pad, hpad⟩ := layout_of_cut (List.take_prefix m (ubootImageOf es)) (by
    rw [List.length_take, length_ubootImageOf hused]
    exact Nat.le_min.mpr ⟨hm, Nat.le_trans hused (by decide)⟩)
  rw [erasedFlash, program_erased _ _ hlen, hpad, List.append_assoc]
  refine decode_encode ?_ (hblock.separate (by decide))
  cases pad with
  | zero => exact decode_noTerm fun h0 => absurd (List.eq_of_mem_replicate h0) (by decide)
  | succ pad => simp [List.replicate_succ, decode, decodeFrom]

/-- A write of which no byte is transferred. -/
theorem ubootWriteImage_nothing {io : UbootIo} {st : UbootStore}
    (hwrite : ∀ m ∈ io.write, m = 0) (herase : st.singleEnv = true → io.erase = false)
    (new : CStr) : ubootWriteImage io st new = st := by
  have hbase : (st.singleEnv && io.erase) = false := by
    cases hs : st.singleEnv with
    | false => rfl
    | true => rw [herase hs]; rfl
  cases hw : io.write with
  | none => simp [ubootWriteImage, hw, hbase]
  | some m =>
      obtain rfl := hwrite m hw
      simp [ubootWriteImage, hw, hbase, program, overwrite]

/-- An erase behind which no byte is written. -/
theorem ubootWriteImage_wipes {io : UbootIo} {bytes : CStr} (hsize : bytes.length ≤ mtdEnvSize)
    (hwrite : ∀ m ∈ io.write, m = 0) (herase : io.erase = true) (new : CStr) :
    ubootWriteImage io ⟨true, bytes⟩ new = ⟨true, erasedFlash⟩ := by
  have hbase : List.replicate mtdEnvSize 0xFF ++ bytes.drop mtdEnvSize = erasedFlash := by
    rw [List.drop_eq_nil_of_le hsize, List.append_nil]
    rfl
  cases hw : io.write with
  | none => simp only [ubootWriteImage, hw, herase, Bool.and_self, if_true, hbase]
  | some m =>
      obtain rfl := hwrite m hw
      simp only [ubootWriteImage, hw, herase, Bool.and_self, if_true, hbase, List.take_zero]
      simp [program]

/-- A write on flash that was erased. -/
theorem ubootWriteImage_flash {io : UbootIo} {bytes : CStr} (hsize : bytes.length ≤ mtdEnvSize)
    {m : Nat} (hwrite : io.write = some m) (herase : io.erase = true) (new : CStr) :
    ubootWriteImage io ⟨true, bytes⟩ new = ⟨true, program erasedFlash (new.take m)⟩ := by
  have hbase : List.replicate mtdEnvSize 0xFF ++ bytes.drop mtdEnvSize = erasedFlash := by
    rw [List.drop_eq_nil_of_le hsize, List.append_nil]
    rfl
  simp only [ubootWriteImage, hwrite, herase, Bool.and_self, if_true, hbase]

/-! ## Effects on the stored entries -/

/-- On flash, the transfers are of the whole image. -/
def EnvIo.Whole (io : EnvIo) (kind : EnvKind) : Prop :=
  kind = .ubootMtd → (∀ n ∈ io.uboot.read, mtdEnvSize ≤ n) ∧ ∀ m ∈ io.uboot.write, mtdEnvSize ≤ m

/-- A well-formed store with these entries, or erased flash, which has none. -/
def EnvStore.Stored (es : List (CStr × CStr)) (s : EnvStore) : Prop :=
  s.Holds es ∨ es = [] ∧ s = .uboot ⟨true, erasedFlash⟩

theorem decode_erasedFlash : decode 0 erasedFlash = [] :=
  decode_noTerm fun h0 => absurd (List.eq_of_mem_replicate h0) (by decide)

theorem EnvStore.Stored.entries {s : EnvStore} {es : List (CStr × CStr)} (h : s.Stored es) :
    s.entries = es := by
  rcases h with h | ⟨rfl, rfl⟩
  · exact h.entries
  · exact decode_erasedFlash

/-- The rewritten entries can be told from erased flash. -/
theorem rewriteEntries_notErased {es : List (CStr × CStr)} (h : ∀ p ∈ es, ¬ [0xFF, 0xFF] <+: p.1)
    {key : CStr} {value : Option CStr} (hkey : value.isSome → ¬ [0xFF, 0xFF] <+: key) :
    ∀ p ∈ rewriteEntries key es value, ¬ [0xFF, 0xFF] <+: p.1 := by
  intro p hp
  cases value with
  | none => exact h p (List.mem_filter.mp hp).1
  | some v =>
      rcases List.mem_append.mp hp with hp | hp
      · exact h p (List.mem_filter.mp hp).1
      · rw [List.mem_singleton.mp hp]
        exact hkey rfl

/-- A whole image on erased flash. -/
theorem program_image {es : List (CStr × CStr)} (hused : (encode 0 es).length ≤ ubootRoom)
    {m : Nat} (hm : mtdEnvSize ≤ m) :
    program erasedFlash ((ubootImageOf es).take m) = ubootImageOf es := by
  have hall := length_ubootImageOf hused
  rw [List.take_of_length_le (by rw [hall]; exact hm), erasedFlash,
    program_erased _ _ (Nat.le_of_eq hall), hall, Nat.sub_self, List.replicate_zero,
    List.append_nil]

/-- What a write of the new entries leaves: they are read back, and with a whole
write the image is well formed. -/
theorem ubootWriteImage_writes {io : UbootIo} {single : Bool} {bytes : CStr}
    {es es' : List (CStr × CStr)} (h : UbootImage bytes es) (hblock : BlockOk 0 es')
    (hused : (encode 0 es').length ≤ ubootRoom) (hwrites : io.Writes single es es') :
    ∃ bytes', ubootWriteImage io ⟨single, bytes⟩ (ubootImageOf es') = ⟨single, bytes'⟩ ∧
      decode 0 bytes' = es' ∧
      ((single = true → ∀ m ∈ io.write, mtdEnvSize ≤ m) →
        (∀ p ∈ es', ¬ [0xFF, 0xFF] <+: p.1) → UbootImage bytes' es') := by
  cases single with
  | false =>
      obtain ⟨m, hm, hagree, hlen⟩ := hwrites
      have hwrite : io.write = some m := hm
      obtain ⟨⟨pad, hlay⟩, hsize⟩ := overwrite_image h hused hagree hlen
      refine ⟨overwrite bytes ((ubootImageOf es').take m), ?_, ?_, fun _ hff => ?_⟩
      · simp only [ubootWriteImage, hwrite, Bool.false_and, Bool.false_eq_true, if_false]
      · rw [hlay]
        exact decode_encode (decode_padding 0 pad) (hblock.separate (by decide))
      · exact ⟨hblock, hff, ⟨pad, hlay⟩, hused, hsize⟩
  | true =>
      obtain ⟨herase, m, hm, hlen⟩ := hwrites
      refine ⟨_, ubootWriteImage_flash h.size hm herase _, decode_written hblock hused hlen,
        fun hwhole hff => ?_⟩
      rw [program_image hused (hwhole rfl m hm)]
      exact ⟨hblock, hff, ⟨_, rfl⟩, hused, Nat.le_of_eq (length_ubootImageOf hused)⟩

/-- A rewrite of the file whose write stops among the bytes that do not change leaves the
entries as they were. -/
theorem ubootRewrite_agrees {io : UbootIo} {bytes : CStr} {es : List (CStr × CStr)} {key : CStr}
    {value : Option CStr} (h : EnvOpOk (.uboot ⟨false, bytes⟩) es key value)
    (hreach : io.Reaches false) (hread : io.Reads es) (hagree : ∀ m ∈ io.write,
      (ubootImageOf (rewriteEntries key es value)).take m = (ubootImageOf es).take m) :
    ∃ bytes', ubootRewrite io ⟨false, bytes⟩ key (ubootAdd key value) = .ok (0, ⟨false, bytes'⟩) ∧
      UbootImage bytes' es := by
  have himg : UbootImage bytes es := h.holds
  have hrewrite := ubootRewrite_reaches hreach (himg.copies_read h.keyOk hread)
    (ubootAppend_roomy h.roomy (length_encode_filter_le 0 _ es))
  rw [← encode_rewriteEntries, ← ubootImageOf] at hrewrite
  cases hwrite : io.write with
  | none =>
      refine ⟨bytes, ?_, himg⟩
      rw [hrewrite, ubootWriteImage_nothing (by simp [hwrite]) (by simp)]
  | some m =>
      -- the bytes written are those of the old image
      obtain ⟨⟨pad, hlay⟩, hsize⟩ := overwrite_image himg himg.used (m := m) rfl
        (Nat.le_max_right _ _)
      refine ⟨overwrite bytes ((ubootImageOf es).take m), ?_,
        himg.block, himg.notErased, ⟨pad, hlay⟩, himg.used, hsize⟩
      rw [hrewrite]
      simp only [ubootWriteImage, hwrite, Bool.false_and, Bool.false_eq_true, if_false,
        hagree m hwrite]

/-- **A rewrite of a U-Boot image leaves the entries of its effect**, and a
well-formed image or erased flash when the transfers are whole. -/
theorem ubootRewrite_leaves {io : UbootIo} {single : Bool} {bytes : CStr}
    {es : List (CStr × CStr)} {key : CStr} {value : Option CStr} {e : Effect}
    (h : EnvOpOk (.uboot ⟨single, bytes⟩) es key value) (hdoes : io.Does single es key value e) :
    ∃ bytes', ubootRewrite io ⟨single, bytes⟩ key (ubootAdd key value)
        = .ok (e.ret, ⟨single, bytes'⟩) ∧
      decode 0 bytes' = e.leaves .ubootTxt key value es ∧
      (e = .fails ∨ (single = true → ∀ m ∈ io.write, mtdEnvSize ≤ m) →
        (value.isSome → ¬ [0xFF, 0xFF] <+: key) →
        UbootImage bytes' (e.leaves .ubootTxt key value es) ∨
          e.leaves .ubootTxt key value es = [] ∧ single = true ∧ bytes' = erasedFlash) := by
  have himg : UbootImage bytes es := h.holds
  have hsame : decode 0 bytes = es := h.holds.entries
  obtain ⟨part, hpart, hkept⟩ := himg.copies_any h.keyOk io single
  have happend := ubootAppend_roomy h.roomy hkept
  have hnone : (encode 0 ([] : List (CStr × CStr))).length ≤ (encode 0 es).length := Nat.zero_le _
  cases e with
  | fails =>
      exact ⟨bytes, ubootRewrite_fails hdoes hpart happend, hsame, fun _ _ => Or.inl himg⟩
  | wipes =>
      obtain ⟨hreach, rfl, herase, hwrite⟩ := hdoes
      refine ⟨erasedFlash, ?_, decode_erasedFlash, fun _ _ => Or.inr ⟨rfl, rfl, rfl⟩⟩
      rw [ubootRewrite_reaches hreach hpart happend, ubootWriteImage_wipes himg.size hwrite herase]
      rfl
  | blind =>
      obtain ⟨hreach, hread, hwrites⟩ := hdoes
      have hblock : BlockOk 0 (rewriteEntries key [] value) :=
        (himg.block.mono (List.nil_sublist es)).rewriteEntries h.keyOk h.valueOk
      obtain ⟨bytes', hwrite, hback, hwhole⟩ :=
        ubootWriteImage_writes himg hblock (himg.rewrite_used h.roomy hnone) hwrites
      refine ⟨bytes', ?_, hback, fun hall hkey => Or.inl (hwhole (hall.resolve_left (by decide)) ?_)⟩
      · have htext : ([] : CStr) ++ (value.elim [] fun v => entryText (key, v) ++ [0])
            = encode 0 (rewriteEntries key [] value) := by
          rw [encode_rewriteEntries]
          rfl
        rw [ubootRewrite_reaches hreach (copies_unread hread _ key)
          (ubootAppend_roomy h.roomy hnone), htext, ← ubootImageOf, hwrite]
        rfl
      · exact rewriteEntries_notErased (by simp) hkey
  | stores =>
      obtain ⟨hreach, hread, hwrites⟩ := hdoes
      obtain ⟨bytes', hwrite, hback, hwhole⟩ :=
        ubootWriteImage_writes himg (himg.block.rewriteEntries h.keyOk h.valueOk)
          (himg.rewrite_used h.roomy (Nat.le_refl _)) hwrites
      refine ⟨bytes', ?_, hback, fun hall hkey => Or.inl (hwhole (hall.resolve_left (by decide)) ?_)⟩
      · rw [ubootRewrite_reaches hreach (himg.copies_read h.keyOk hread) (ubootAppend_roomy h.roomy
            (length_encode_filter_le 0 _ es)), ← encode_rewriteEntries, ← ubootImageOf, hwrite]
        rfl
      · exact rewriteEntries_notErased himg.notErased hkey
  | loses =>
      obtain ⟨hreach, herase, hnothing | ⟨rfl, hread, hagree⟩⟩ := hdoes
      · refine ⟨bytes, ?_, hsame, fun _ _ => Or.inl himg⟩
        rw [ubootRewrite_reaches hreach hpart happend, ubootWriteImage_nothing hnothing herase]
        rfl
      · obtain ⟨bytes', hrewrite, himg'⟩ := ubootRewrite_agrees h hreach hread hagree
        exact ⟨bytes', hrewrite, EnvStore.Holds.entries (s := .uboot ⟨false, _⟩) himg',
          fun _ _ => Or.inl himg'⟩

/-- A rewrite with room for its line leaves a block that fits. -/
theorem grubRoomy_fits {file : CStr} {es : List (CStr × CStr)} {key : CStr} {value : Option CStr}
    (h : EnvOpOk (.grub file) es key value) :
    (grubContents (rewriteEntries key (fitting grubScanned es) value)).length ≤ grubEnvSize := by
  have hblock : GrubBlock file es := h.holds
  cases value with
  | some v => exact h.roomy.2
  | none =>
      have hfits := hblock.fits
      obtain ⟨more, hmore⟩ := prefix_fitting grubScanned es
      have hdrop : (encode newline (dropMatches key (fitting grubScanned es))).length
          ≤ (encode newline (fitting grubScanned es)).length := length_encode_filter_le newline _ _
      have hlen : (encode newline es).length = (encode newline (fitting grubScanned es)).length
          + (encode newline more).length := by
        rw [← List.length_append, ← encode_append, hmore]
      rw [length_grubContents] at hfits ⊢
      simp only [rewriteEntries]
      omega

/-- A block that is not read whole is none. -/
theorem readGrubenv_short {io : GrubIo} (file : CStr) (h : ∀ n ∈ io.read, n < grubEnvSize) :
    readGrubenv io file = none := by
  cases hread : io.read with
  | none => simp [readGrubenv, hread]
  | some n =>
      have hn : n < grubEnvSize := h n hread
      by_cases hopen : io.openOk = true
      · simp only [readGrubenv, hopen, hread]
        rw [if_pos (by rw [List.length_take]; omega)]
      · simp [readGrubenv, hopen]

/-- **A rewrite of a GRUB block leaves the block of its effect.** -/
theorem grubRewrite_leaves {io : GrubIo} {file : CStr} {es : List (CStr × CStr)} {key : CStr}
    {value : Option CStr} {e : Effect} (h : EnvOpOk (.grub file) es key value)
    (hdoes : io.Does es key value e) :
    ∃ file', grubRewrite io file key (grubAdd key value) = .ok (e.ret, file') ∧
      GrubBlock file' (e.leaves .grubenv key value es) := by
  have hblock : GrubBlock file es := h.holds
  have hfit := grubRoomy_fits h
  have hshort : ∀ v ∈ value, (entryText (key, v)).length + 1 < grubEntrySize := by
    rintro v hv
    cases value with
    | none => cases hv
    | some w => cases hv; exact h.roomy.1
  have hnewlen := length_grubFill hfit
  cases e with
  | loses => exact absurd hdoes id
  | wipes => exact absurd hdoes id
  | blind => exact absurd hdoes id
  | stores =>
      obtain ⟨hopen, ⟨n, hn, hnsize⟩, m, hm, hmsize⟩ := hdoes
      have hwrite : io.write = some m := hm
      have hall : (grubFill (grubContents (rewriteEntries key (fitting grubScanned es)
          value))).take m = grubFill (grubContents (rewriteEntries key
          (fitting grubScanned es) value)) := List.take_of_length_le (by omega)
      refine ⟨_, ?_, hblock.rewrite h.keyOk h.valueOk hfit⟩
      rw [grubRewrite_write hblock hopen hn hnsize h.keyOk hshort hfit, grubWrite, hwrite]
      simp only [hall, hnewlen]
      rw [overwrite_same_length (by rw [hnewlen]; exact Nat.le_of_eq hblock.length)]
      rfl
  | fails =>
      refine ⟨file, ?_, hblock⟩
      have hunread : readGrubenv io file = none →
          grubRewrite io file key (grubAdd key value) = .ok (-1, file) := by
        intro hnone
        rw [grubRewrite, hnone]
      by_cases hopen : io.openOk = true
      swap
      · exact hunread (by simp [readGrubenv, hopen])
      by_cases hread : ∃ n ∈ io.read, grubEnvSize ≤ n
      swap
      · exact hunread (readGrubenv_short file fun n hn =>
          Nat.lt_of_not_le fun hle => hread ⟨n, hn, hle⟩)
      obtain ⟨n, hn, hnsize⟩ := hread
      rw [grubRewrite_write hblock hopen hn hnsize h.keyOk hshort hfit]
      have hwrite : ∀ m ∈ io.write, m < grubEnvSize ∧
          (grubFill (grubContents (rewriteEntries key (fitting grubScanned es) value))).take m
            = (grubFill (grubContents es)).take m := by
        rcases hdoes with hno | hno | hwrite
        · rw [hno] at hopen; cases hopen
        · exact absurd hnsize (Nat.not_le.mpr (hno n hn))
        · exact hwrite
      cases hw : io.write with
      | none => rw [grubWrite, hw]; rfl
      | some m =>
          -- the bytes written are those that stood there
          obtain ⟨hm, hagree⟩ := hwrite m hw
          have hsame : overwrite file (file.take m) = file := by
            rw [overwrite, List.length_take, hblock.length, Nat.min_eq_left (Nat.le_of_lt hm),
              List.take_append_drop]
          have hcount : (file.take m).length ≠ grubEnvSize := by
            rw [List.length_take]
            omega
          rw [grubWrite, hw]
          simp only [hagree, ← hblock.layout, hsame, if_pos hcount]
          rfl

theorem storeRewrite_uboot (io : EnvIo) (st : UbootStore) (key : CStr) (value : Option CStr) :
    storeRewrite io key value (.uboot st) = (do
      let (ret, st') ← ubootRewrite io.uboot st key (ubootAdd key value)
      return (ret, .uboot st')) := by
  cases value with
  | none => rfl
  | some v => rw [← ubootSetEnvKey_eq]; rfl

theorem storeRewrite_grub (io : EnvIo) (file key : CStr) (value : Option CStr) :
    storeRewrite io key value (.grub file) = (do
      let (ret, file') ← grubRewrite io.grub file key (grubAdd key value)
      return (ret, .grub file')) := by
  cases value with
  | none => rfl
  | some v => rw [← grubSetEnvKey_eq]; rfl

theorem EnvStore.seen_eq (s : EnvStore) (es : List (CStr × CStr)) : s.seen es = s.kind.seen es := by
  cases s with
  | grub file => rfl
  | uboot st =>
      obtain ⟨single, bytes⟩ := st
      cases single <;> rfl

/-- **A rewrite leaves the entries of its effect**, in a store that the next
operation can work on when the transfers are whole. -/
theorem storeRewrite_leaves {io : EnvIo} {s : EnvStore} {es : List (CStr × CStr)} {key : CStr}
    {value : Option CStr} {e : Effect} (h : EnvOpOk s es key value)
    (hdoes : io.Does es key value e s.kind) :
    ∃ s', storeRewrite io key value s = .ok (e.ret, s') ∧ s'.kind = s.kind ∧
      s'.entries = e.leaves s.kind key value es ∧
      (e = .fails ∨ io.Whole s.kind → (value.isSome → ¬ [0xFF, 0xFF] <+: key) →
        s'.Stored (e.leaves s.kind key value es)) := by
  cases s with
  | grub file =>
      obtain ⟨file', hrun, hblock⟩ := grubRewrite_leaves h hdoes
      refine ⟨.grub file', ?_, rfl, EnvStore.Holds.entries (s := .grub file') hblock,
        fun _ _ => Or.inl hblock⟩
      rw [storeRewrite_grub, hrun]
      rfl
  | uboot st =>
      obtain ⟨single, bytes⟩ := st
      have hdoes' : io.uboot.Does single es key value e := by cases single <;> exact hdoes
      obtain ⟨bytes', hrun, hback, hstored⟩ := ubootRewrite_leaves h hdoes'
      have hleaves : e.leaves (EnvStore.kind (.uboot ⟨single, bytes⟩)) key value es
          = e.leaves .ubootTxt key value es := by cases single <;> cases e <;> rfl
      refine ⟨.uboot ⟨single, bytes'⟩, ?_, rfl, by rw [hleaves]; exact hback, fun hwhole hkey => ?_⟩
      · rw [storeRewrite_uboot, hrun]
        rfl
      · rw [hleaves]
        rcases hstored (hwhole.imp_right fun hw hs => (hw (by simp [EnvStore.kind, hs])).2) hkey with
          himg | ⟨hnone, rfl, rfl⟩
        · exact Or.inl himg
        · exact Or.inr ⟨hnone, rfl⟩

/-! ## Outcomes that are reported truly -/

/-- No other key is stored. -/
theorem denote_others_none_iff {es : List (CStr × CStr)} {key : CStr} :
    (∀ k, k ≠ key → none = denote es k) ↔ ∀ k ∈ keysOf es, k = key := by
  constructor
  · intro h k hk
    by_contra hne
    exact denote_eq_none_iff.mp (h k hne).symm hk
  · intro h k hne
    exact (denote_eq_none_iff.mpr fun hk => hne (h k hk)).symm

/-- An effect that returns 0 leaves the result of the operation exactly when it
is right. -/
theorem Effect.right_iff {e : Effect} (he : e ≠ .fails) {s : EnvStore} {es : List (CStr × CStr)}
    {key : CStr} {value : Option CStr} :
    denote (e.leaves s.kind key value es) = Function.update (denote es) key value ↔
      e.Right s es key value := by
  cases e with
  | fails => exact absurd rfl he
  | loses => simp [Effect.leaves, Effect.Right]
  | wipes =>
      rw [Function.eq_update_iff]
      exact and_congr eq_comm denote_others_none_iff
  | stores =>
      rw [Function.eq_update_iff, Effect.leaves, ← EnvStore.seen_eq, rewriteEntries_others_iff,
        denote_rewriteEntries, if_pos rfl]
      exact and_iff_right rfl
  | blind =>
      rw [Function.eq_update_iff, Effect.leaves, denote_rewriteEntries, if_pos rfl, Effect.Right,
        ← denote_others_none_iff]
      simp only [true_and]
      refine forall_congr' fun k => imp_congr_right fun hne => ?_
      rw [denote_rewriteEntries, if_neg hne, show denote [] k = none from rfl, ite_self]

/-- **What an operation reports is the truth exactly when its effect is right.** -/
theorem reportsTruth_iff_right {io : EnvIo} {s : EnvStore} {es : List (CStr × CStr)} {key : CStr}
    {value : Option CStr} {e : Effect} (h : EnvOpOk s es key value)
    (hdoes : io.Does es key value e s.kind) :
    ReportsTruth io s key value ↔ e.Right s es key value := by
  obtain ⟨s', hrun, -, hent, -⟩ := storeRewrite_leaves h hdoes
  have hold := h.holds.entries
  constructor
  · rintro ⟨ret, s₁, hrun₁, hzero, -⟩
    rw [hrun, Except.ok.injEq, Prod.mk.injEq] at hrun₁
    obtain ⟨rfl, rfl⟩ := hrun₁
    by_cases he : e = .fails
    · rw [he]
      trivial
    · rw [← Effect.right_iff he, ← hent, ← hold]
      exact hzero (by cases e <;> first | rfl | exact absurd rfl he)
  · intro hright
    refine ⟨e.ret, s', hrun, fun hzero => ?_, fun hne => ?_⟩
    · have he : e ≠ .fails := by
        rintro rfl
        exact absurd hzero (by decide)
      rw [hent, hold]
      exact (Effect.right_iff he).mpr hright
    · have he : e = .fails := by cases e <;> first | rfl | exact absurd rfl hne
      rw [hent, hold, he]
      rfl

/-- The outcomes of `EnvIo.Truthful` are reported truly. -/
theorem reportsTruth_of_truthful {io : EnvIo} {s : EnvStore} {es : List (CStr × CStr)}
    {key : CStr} {value : Option CStr} (h : EnvOpOk s es key value)
    (hio : io.Truthful s es key value) : ReportsTruth io s key value := by
  obtain ⟨e, hdoes, hright⟩ := hio
  exact (reportsTruth_iff_right h hdoes).mpr hright

/-! ## Outcomes without short counts -/

/-- A whole write reaches every byte. -/
theorem UbootIo.Plain.writes {io : UbootIo} {single : Bool} (hio : io.Plain single)
    {es es' : List (CStr × CStr)} (hused : (encode 0 es).length ≤ ubootRoom)
    (hused' : (encode 0 es').length ≤ ubootRoom) (hwrite : io.write ≠ none) :
    io.Writes single es es' := by
  obtain ⟨m, hm⟩ := Option.ne_none_iff_exists'.mp hwrite
  have hall : mtdEnvSize ≤ m := hio.write m hm
  have hroom : ubootRoom ≤ mtdEnvSize := by decide
  cases single with
  | true => exact ⟨hio.erase rfl (by rw [hm]; rfl), m, hm, by omega⟩
  | false =>
      refine ⟨m, hm, ?_, by omega⟩
      rw [List.drop_eq_nil_of_le (by rw [length_ubootImageOf hused']; exact hall),
        List.drop_eq_nil_of_le (by rw [length_ubootImageOf hused]; exact hall)]

/-- Without short counts the calls of a U-Boot operation have one of the effects. -/
theorem UbootIo.Plain.does {io : UbootIo} {single : Bool} (hio : io.Plain single)
    {es : List (CStr × CStr)} {key : CStr} {value : Option CStr}
    (hused : (encode 0 es).length ≤ ubootRoom)
    (hstores : (encode 0 (rewriteEntries key es value)).length ≤ ubootRoom)
    (hblind : (encode 0 (rewriteEntries key [] value)).length ≤ ubootRoom) :
    ∃ e, io.Does single es key value e := by
  by_cases hreach : io.Reaches single
  swap
  · exact ⟨.fails, hreach⟩
  by_cases hwrite : io.write = none
  · have hnothing : ∀ m ∈ io.write, m = 0 := by simp [hwrite]
    by_cases herase : single = true ∧ io.erase = true
    · exact ⟨.wipes, hreach, herase.1, herase.2, hnothing⟩
    · exact ⟨.loses, hreach, fun hs => by simpa using fun he => herase ⟨hs, he⟩, Or.inl hnothing⟩
  · cases hread : io.read with
    | none => exact ⟨.blind, hreach, hread, hio.writes hused hblind hwrite⟩
    | some n =>
        have hall : mtdEnvSize ≤ n := hio.read n hread
        have hroom : ubootRoom ≤ mtdEnvSize := by decide
        exact ⟨.stores, hreach, ⟨n, hread, by omega⟩, hio.writes hused hstores hwrite⟩

/-- Without short writes the calls of a GRUB operation fail or store. -/
theorem GrubIo.does_of_plain {io : GrubIo} (hio : ∀ m ∈ io.write, grubEnvSize ≤ m)
    (es : List (CStr × CStr)) (key : CStr) (value : Option CStr) :
    ∃ e, io.Does es key value e := by
  by_cases hdone : io.Does es key value .stores
  · exact ⟨.stores, hdone⟩
  refine ⟨.fails, ?_⟩
  by_cases hopen : io.openOk = true
  swap
  · exact Or.inl (by simpa using hopen)
  by_cases hread : ∃ n ∈ io.read, grubEnvSize ≤ n
  swap
  · exact Or.inr (Or.inl fun n hn => Nat.lt_of_not_le fun hle => hread ⟨n, hn, hle⟩)
  exact Or.inr (Or.inr fun m hm => absurd ⟨hopen, hread, m, hm, hio m hm⟩ hdone)

/-- Without short counts the calls of an operation have one of the effects. -/
theorem EnvIo.Plain.does {io : EnvIo} {s : EnvStore} (hio : io.Plain s.kind)
    {es : List (CStr × CStr)} {key : CStr} {value : Option CStr} (h : EnvOpOk s es key value) :
    ∃ e, io.Does es key value e s.kind := by
  cases s with
  | grub file => exact GrubIo.does_of_plain hio es key value
  | uboot st =>
      obtain ⟨single, bytes⟩ := st
      have himg : UbootImage bytes es := h.holds
      have hplain : io.uboot.Plain single := by cases single <;> exact hio
      obtain ⟨e, he⟩ := hplain.does himg.used
        (himg.rewrite_used h.roomy (Nat.le_refl _))
        (himg.rewrite_used h.roomy (Nat.zero_le _))
      exact ⟨e, by cases single <;> exact he⟩

/-- **When set and unset report the truth**: with the outcomes of
`EnvIo.Truthful`, and without short counts with no others. -/
theorem reportsTruth_iff {io : EnvIo} {s : EnvStore} {es : List (CStr × CStr)} {key : CStr}
    {value : Option CStr} (h : EnvOpOk s es key value) (hio : io.Plain s.kind) :
    ReportsTruth io s key value ↔ io.Truthful s es key value := by
  refine ⟨fun htrue => ?_, reportsTruth_of_truthful h⟩
  obtain ⟨e, hdoes⟩ := hio.does h
  exact ⟨e, hdoes, (reportsTruth_iff_right h hdoes).mp htrue⟩

end Pantavisor.Bootloader
