/-
Pantavisor.Bootloader.Stores — the two backends as one stored environment.

`EnvStore` is what is stored behind `ops`, and `storeOps` the operations of
the backend that keeps it. `EnvStore.entries` reads the entries back from the
bytes, `EnvStore.Holds` says that a store is well formed, and
`setEnvKey_holds` and `unsetEnvKey_holds` give one operation on a well-formed
store of either kind with all I/O working.
-/
import Pantavisor.Bootloader.Bootloader
import Pantavisor.Bootloader.UbootTheorems
import Pantavisor.Bootloader.GrubTheorems

namespace Pantavisor.Bootloader

open Pantavisor.Lib

/-- The stored environment of the backend that `pv_bl_init` selects. -/
inductive EnvStore where
  | uboot (st : UbootStore)
  | grub (file : CStr)
  deriving DecidableEq, Repr

/-- The outcome of the I/O calls of one operation, and the memory that
`grub_get_env_key` runs over. -/
structure EnvIo where
  uboot : UbootIo
  grub : GrubIo
  behind : CStr
  deriving DecidableEq, Repr

/-- Every call succeeds in full. -/
def EnvIo.ok (behind : CStr) : EnvIo where
  uboot := .ok
  grub := .ok
  behind := behind

/-- The rewrite that set and unset are, of either backend. -/
def storeRewrite (io : EnvIo) (key : CStr) (value : Option CStr) :
    EnvStore → Except Fault (Int × EnvStore)
  | .uboot st => do
    let (ret, st') ← match value with
      | some v => ubootSetEnvKey io.uboot st key v
      | none => ubootUnsetEnvKey io.uboot st key
    return (ret, .uboot st')
  | .grub file => do
    let (ret, file') ← match value with
      | some v => grubSetEnvKey io.grub file key v
      | none => grubUnsetEnvKey io.grub file key
    return (ret, .grub file')

/-- `uboot_ops` and `grub_ops`. -/
def storeOps : BlOps (Except Fault) EnvIo EnvStore where
  setEnvKey io s key value := storeRewrite io key (some value) s
  unsetEnvKey io s key := storeRewrite io key none s
  getEnvKey io s key := match s with
    | .uboot st => ubootGetEnvKey io.uboot st key
    | .grub file => grubGetEnvKey io.grub io.behind file key
  flushEnv io s := match s with
    | .uboot st => do
      let (ret, st') ← ubootFlushEnv io.uboot st
      return (ret, .uboot st')
    | .grub file => .ok (grubFlushEnv, .grub file)

/-! ## Well-formed stores -/

/-- The byte that ends an entry. -/
def EnvStore.term : EnvStore → UInt8
  | .uboot _ => 0
  | .grub _ => newline

/-- The entries that the stored bytes hold. -/
def EnvStore.entries : EnvStore → List (CStr × CStr)
  | .uboot st => decode 0 st.bytes
  | .grub file => decode newline (file.drop grubHdrSize)

/-- A well-formed store with the entries `es`. -/
def EnvStore.Holds (es : List (CStr × CStr)) : EnvStore → Prop
  | .uboot st => UbootImage st.bytes es
  | .grub file => GrubBlock file es

/-- The entries that the copy loop sees. -/
def EnvStore.seen (es : List (CStr × CStr)) : EnvStore → List (CStr × CStr)
  | .uboot _ => es
  | .grub _ => fitting grubScanned es

/-- A line of set fits the entry buffer, and the new block the block buffer. -/
def EnvStore.Fits (es : List (CStr × CStr)) (key value : CStr) : EnvStore → Prop
  | .uboot _ => (entryText (key, value)).length < ubootEntrySize ∧
      (encode 0 (rewriteEntries key es (some value))).length ≤ mtdEnvSize
  | .grub _ => (entryText (key, value)).length + 1 < grubEntrySize ∧
      (grubContents (rewriteEntries key (fitting grubScanned es) (some value))).length
        ≤ grubEnvSize

instance (s : EnvStore) (es : List (CStr × CStr)) (key value : CStr) :
    Decidable (s.Fits es key value) := by
  cases s <;> exact inferInstanceAs (Decidable (_ ∧ _))

theorem EnvStore.Holds.block {s : EnvStore} {es : List (CStr × CStr)} (h : s.Holds es) :
    BlockOk s.term es := by
  cases s with
  | uboot st => exact UbootImage.block h
  | grub file => exact GrubBlock.block h

/-- The bytes of a U-Boot image read back as its entries. -/
theorem entries_uboot {single : Bool} {pad : Nat} {es : List (CStr × CStr)}
    (h : BlockOk 0 es) :
    EnvStore.entries (.uboot ⟨single, encode 0 es ++ List.replicate pad 0⟩) = es :=
  decode_encode (decode_padding 0 pad) (h.separate (by decide))

/-- The bytes of a GRUB block read back as its entries. -/
theorem entries_grub {es : List (CStr × CStr)} (h : BlockOk newline es) :
    EnvStore.entries (.grub (grubFill (grubContents es))) = es := by
  rw [EnvStore.entries, grubFill, grubContents, List.append_assoc,
    List.drop_left' length_grubHdr]
  exact decode_encode (decode_noTerm (newline_not_mem_fill _)) (h.separate (by decide))

/-- A well-formed store reads back as its entries. -/
theorem EnvStore.Holds.entries {s : EnvStore} {es : List (CStr × CStr)} (h : s.Holds es) :
    s.entries = es := by
  cases s with
  | uboot st =>
      obtain ⟨single, bytes⟩ := st
      obtain ⟨pad, rfl⟩ := UbootImage.layout h
      exact entries_uboot (UbootImage.block h)
  | grub file =>
      have hlay := GrubBlock.layout h
      subst hlay
      exact entries_grub (GrubBlock.block h)

/-! ## One operation -/

/-- What a store sees of its entries is a well-formed block. -/
theorem EnvStore.Holds.seen {s : EnvStore} {es : List (CStr × CStr)} (h : s.Holds es) :
    (s.seen es).Sublist es := by
  cases s with
  | uboot st => exact List.Sublist.refl es
  | grub file => exact (prefix_fitting grubScanned es).sublist

/-- **Unset on a well-formed store** returns 0 and leaves what it sees of the
entries, less those the key is a prefix of. -/
theorem unsetEnvKey_holds {s : EnvStore} {es : List (CStr × CStr)} (h : s.Holds es)
    {key : CStr} (hkey : KeyOk s.term key) (behind : CStr) :
    ∃ s', storeOps.unsetEnvKey (.ok behind) s key = .ok (0, s') ∧
      s'.entries = rewriteEntries key (s.seen es) none := by
  have hblock : BlockOk s.term (rewriteEntries key (s.seen es) none) :=
    (h.block.mono h.seen).rewriteEntries hkey (by simp)
  cases s with
  | uboot st =>
      have hfit : (encode 0 (rewriteEntries key es none)).length ≤ mtdEnvSize := by
        have hused := UbootImage.used h
        have hle := length_encode_filter_le 0 (fun p => !key.isPrefixOf p.1) es
        simp only [ubootRoom] at hused
        simp only [mtdEnvSize, rewriteEntries, dropMatches]
        omega
      refine ⟨.uboot ⟨st.singleEnv, readInto mtdEnvSize (encode 0 (rewriteEntries key es none))⟩,
        ?_, entries_uboot hblock⟩
      have hrun := ubootRewrite_image h hkey (by simp) hfit
      simp only [storeOps, storeRewrite, EnvIo.ok, ubootUnsetEnvKey_eq, hrun, bind, Except.bind]
      rfl
  | grub file =>
      have hfit : (grubContents (rewriteEntries key (fitting grubScanned es) none)).length
          ≤ grubEnvSize := by
        have hfits := GrubBlock.fits h
        obtain ⟨more, hmore⟩ := prefix_fitting grubScanned es
        have hle := length_encode_filter_le newline (fun p => !key.isPrefixOf p.1)
          (fitting grubScanned es)
        have hlen : (encode newline es).length = (encode newline (fitting grubScanned es)).length
            + (encode newline more).length := by
          rw [← List.length_append, ← encode_append, hmore]
        rw [length_grubContents] at hfits ⊢
        simp only [rewriteEntries, dropMatches]
        omega
      refine ⟨.grub (grubFill (grubContents (rewriteEntries key (fitting grubScanned es) none))),
        ?_, entries_grub hblock⟩
      have hrun := grubRewrite_block h hkey (by simp) hfit
      simp only [storeOps, storeRewrite, EnvIo.ok, grubUnsetEnvKey_eq, hrun, bind, Except.bind]
      rfl

/-- **Set on a well-formed store** whose line and block fit returns 0 and leaves
what it sees of the entries, less those the key is a prefix of, and the new
entry. -/
theorem setEnvKey_holds {s : EnvStore} {es : List (CStr × CStr)} (h : s.Holds es)
    {key value : CStr} (hkey : KeyOk s.term key) (hvalue : ValueOk s.term value)
    (hfits : s.Fits es key value) (behind : CStr) :
    ∃ s', storeOps.setEnvKey (.ok behind) s key value = .ok (0, s') ∧
      s'.entries = rewriteEntries key (s.seen es) (some value) := by
  have hval : ∀ v ∈ some value, ValueOk s.term v := by rintro v ⟨⟩; exact hvalue
  have hblock := (h.block.mono h.seen).rewriteEntries hkey hval
  cases s with
  | uboot st =>
      refine ⟨.uboot ⟨st.singleEnv,
        readInto mtdEnvSize (encode 0 (rewriteEntries key es (some value)))⟩, ?_,
        entries_uboot hblock⟩
      have hrun := ubootRewrite_image h hkey (by rintro v ⟨⟩; exact hfits.1) hfits.2
      simp only [storeOps, storeRewrite, EnvIo.ok, ubootSetEnvKey_eq, hrun, bind, Except.bind]
      rfl
  | grub file =>
      refine ⟨.grub (grubFill (grubContents
        (rewriteEntries key (fitting grubScanned es) (some value)))), ?_, entries_grub hblock⟩
      have hrun := grubRewrite_block h hkey (by rintro v ⟨⟩; exact hfits.1) hfits.2
      simp only [storeOps, storeRewrite, EnvIo.ok, grubSetEnvKey_eq, hrun, bind, Except.bind]
      rfl

/-- A set whose line or block does not fit overruns a buffer. -/
theorem setEnvKey_overflow {s : EnvStore} {es : List (CStr × CStr)} (h : s.Holds es)
    {key value : CStr} (hkey : KeyOk s.term key) (hfits : ¬ s.Fits es key value)
    (behind : CStr) :
    storeOps.setEnvKey (.ok behind) s key value = .error .overflow := by
  cases s with
  | uboot st =>
      have hcopy := ubootCopy_image h hkey (n := mtdEnvSize) (by
        have hused := UbootImage.used h
        simp only [ubootRoom] at hused
        simp only [mtdEnvSize]
        omega)
      have happend : ubootAppend (encode 0 (dropMatches key es)) (ubootAdd key (some value))
          = .error .overflow := by
        rw [ubootAdd, Option.map_some, ubootAppend]
        by_cases hline : ubootEntrySize < (entryText (key, value)).length + 1
        · rw [if_pos hline]
        · have hblock : ¬ (encode 0 (rewriteEntries key es (some value))).length ≤ mtdEnvSize :=
            fun hb => hfits ⟨by omega, hb⟩
          have hlen : (encode 0 (rewriteEntries key es (some value))).length
              = (encode 0 (dropMatches key es)).length + ((entryText (key, value)).length + 1) := by
            simp [rewriteEntries]
          rw [if_neg hline, if_pos (by omega)]
      have hrun : ubootSetEnvKey .ok st key value = .error .overflow := by
        rw [ubootSetEnvKey_eq, ubootRewrite, if_neg (by simp [UbootIo.ok]),
          if_neg (by simp [UbootIo.ok]), ubootReadImage_image h rfl]
        simp only [bind, Except.bind, hcopy, happend]
      simp only [storeOps, storeRewrite, EnvIo.ok, hrun, bind, Except.bind]
  | grub file =>
      have happend : grubAppend (grubContents (dropMatches key (fitting grubScanned es)))
          (grubAdd key (some value)) = .error .overflow := by
        rw [grubAdd, Option.map_some, grubAppend]
        by_cases hline : grubEntrySize < (entryText (key, value) ++ [newline]).length + 1
        · rw [if_pos hline]
        · have hblock : ¬ (grubContents (rewriteEntries key (fitting grubScanned es)
              (some value))).length ≤ grubEnvSize :=
            fun hb => hfits ⟨by simp at hline; omega, hb⟩
          have hlen : (grubContents (rewriteEntries key (fitting grubScanned es)
              (some value))).length
              = (grubContents (dropMatches key (fitting grubScanned es))).length
                + (entryText (key, value) ++ [newline]).length := by
            simp [rewriteEntries, grubContents, Nat.add_assoc]
          rw [if_neg hline, if_pos (by omega)]
      have hrun : grubSetEnvKey .ok file key value = .error .overflow := by
        rw [grubSetEnvKey_eq, grubRewrite, readGrubenv_block h rfl rfl (Nat.le_refl _)]
        simp only [grubCopy_block h hkey, happend, bind, Except.bind]
      simp only [storeOps, storeRewrite, EnvIo.ok, hrun, bind, Except.bind]

end Pantavisor.Bootloader
