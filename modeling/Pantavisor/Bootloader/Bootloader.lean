/-
Pantavisor.Bootloader.Bootloader — the boot loader module (`bootloader.c`)
over any backend.

`BlOps` is `struct bl_ops`: what a backend does to a stored environment `σ`,
with the outcome `ι` of the I/O it makes, in a monad `m`. The module keeps
copies of `pv_rev`, `pv_try` and `pv_done` in memory and changes them BEFORE it
writes the environment, so after a failed write the copies and the stored
values differ.

The backends of this repository are one instance (`Bootloader.Stores`); the
controller runs over another one, in which a write that succeeds is a map
update and one that fails does nothing.
-/
import Pantavisor.Lib.CString

namespace Pantavisor.Bootloader

open Pantavisor.Lib

/-- `struct bl_ops`. `none` is the NULL of `get_env_key`. -/
structure BlOps (m : Type → Type) (ι σ : Type) where
  setEnvKey : ι → σ → CStr → CStr → m (Int × σ)
  unsetEnvKey : ι → σ → CStr → m (Int × σ)
  getEnvKey : ι → σ → CStr → Option CStr
  flushEnv : ι → σ → m (Int × σ)

/-- `struct pv_bootloader`, the copies in memory. -/
structure PvBootloader where
  pvRev : CStr
  pvTry : Option CStr
  pvDone : CStr
  deriving DecidableEq, Repr

/-- The outcomes of the three calls of a commit. -/
structure CommitIo (ι : Type) where
  setRev : ι
  unsetTry : ι
  flush : ι
  deriving DecidableEq, Repr

variable {m : Type → Type} [Monad m] {ι σ : Type}

/-- `pv_bootloader_set_rev` -/
def pvBootloaderSetRev (ops : BlOps m ι σ) (io : ι) (bl : PvBootloader) (s : σ) (rev : CStr) :
    m (Int × PvBootloader × σ) := do
  let (ret, s') ← ops.setEnvKey io s (str "pv_rev") rev
  return (ret, { bl with pvRev := rev, pvDone := rev }, s')

/-- `pv_bootloader_set_try` -/
def pvBootloaderSetTry (ops : BlOps m ι σ) (io : ι) (bl : PvBootloader) (s : σ) (rev : CStr) :
    m (Int × PvBootloader × σ) := do
  let (ret, s') ← ops.setEnvKey io s (str "pv_try") rev
  return (ret, { bl with pvTry := some rev }, s')

/-- `pv_bootloader_unset_try` -/
def pvBootloaderUnsetTry (ops : BlOps m ι σ) (io : ι) (bl : PvBootloader) (s : σ) :
    m (Int × PvBootloader × σ) := do
  let (ret, s') ← ops.unsetEnvKey io s (str "pv_try")
  return (ret, { bl with pvTry := none }, s')

/-- `pv_bootloader_set_installed` -/
def pvBootloaderSetInstalled (ops : BlOps m ι σ) (io : ι) (bl : PvBootloader) (s : σ)
    (rev : CStr) : m (Int × PvBootloader × σ) :=
  pvBootloaderSetTry ops io bl s rev

/-- `pv_bootloader_set_commited`: three calls, each made only if the one before
returned 0. -/
def pvBootloaderSetCommited (ops : BlOps m ι σ) (io : CommitIo ι) (bl : PvBootloader) (s : σ)
    (rev : CStr) : m (Int × PvBootloader × σ) := do
  let (ret, bl, s) ← pvBootloaderSetRev ops io.setRev bl s rev
  if ret ≠ 0 then return (1, bl, s)
  let (ret, bl, s) ← pvBootloaderUnsetTry ops io.unsetTry bl s
  if ret ≠ 0 then return (1, bl, s)
  let (ret, s) ← ops.flushEnv io.flush s
  return (if ret ≠ 0 then 1 else 0, bl, s)

/-- `pv_bootloader_set_failed` -/
def pvBootloaderSetFailed (ops : BlOps m ι σ) (io : ι) (bl : PvBootloader) (s : σ) :
    m (Int × PvBootloader × σ) :=
  pvBootloaderUnsetTry ops io bl s

/-- `pv_bootloader_update_in_progress` -/
def PvBootloader.updateInProgress (bl : PvBootloader) : Bool :=
  bl.pvTry.any (· ≠ [])

/-- `pv_bootloader_trying_update` -/
def PvBootloader.tryingUpdate (bl : PvBootloader) : Bool :=
  bl.updateInProgress && bl.pvTry = some bl.pvRev

/-- The loop over the tokens of the command line in `pv_bl_early_init`: the last
`pv_rev=` and the last `pv_try=` count. -/
def parseCmdline : PvBootloader → List CStr → PvBootloader
  | bl, [] => bl
  | bl, token :: tokens =>
    if (str "pv_rev=").isPrefixOf token then
      parseCmdline { bl with pvRev := token.drop 7 } tokens
    else if (str "pv_try=").isPrefixOf token then
      parseCmdline { bl with pvTry := some (token.drop 7) } tokens
    else parseCmdline bl tokens

/-- `pv_bl_early_init`, from the tokens of `/proc/cmdline`: `pv_done` is the
stored `pv_rev`, or the one of the command line when none is stored. -/
def pvBlEarlyInit (ops : BlOps m ι σ) (io : ι) (s : σ) (tokens : List CStr) : PvBootloader :=
  let bl := parseCmdline { pvRev := str "0", pvTry := none, pvDone := str "0" } tokens
  { bl with pvDone := (ops.getEnvKey io s (str "pv_rev")).getD bl.pvRev }

end Pantavisor.Bootloader
