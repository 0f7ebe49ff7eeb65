/-
Pantavisor.Bootloader.Grub — the GRUB environment backend (`grub.c`).

The environment is one block of 1024 bytes: a header line, `key=value` lines,
and `#` up to the end. The macro `HDR_SIZE` is written `sizeof(GRUB_HDR)-1`
without parentheses, so `x - HDR_SIZE` is `x - sizeof(GRUB_HDR) - 1`, two less
than `x` minus the header: the copy loop stops at index 997, and get at
`strlen(buf) - 27`.

The block has no NUL in it, so `strlen(buf)` runs on into the memory behind
the buffer. `behind` is what it finds there before the first NUL; get scans
that memory too as far as its bound allows.
-/
import Pantavisor.Lib.CString
import Pantavisor.Bootloader.Uboot

namespace Pantavisor.Bootloader

open Pantavisor.Lib

/-- `GRUB_HDR` -/
def grubHdr : CStr := str "# GRUB Environment Block\n"

/-- `HDR_SIZE` where it stands alone. -/
def grubHdrSize : Nat := 25

/-- What `- HDR_SIZE` takes off in an expression: `sizeof(GRUB_HDR)` and one more. -/
def grubHdrMinus : Nat := 27

/-- The size of the block. -/
def grubEnvSize : Nat := 1024

/-- The end of a line, and the byte that fills the rest of the block. -/
def newline : UInt8 := 10

def hash : UInt8 := 35

/-- The outcome of each I/O call of one operation: `read` and `write` are the
number of bytes the call may transfer, or `none` for an error. -/
structure GrubIo where
  openOk : Bool
  read : Option Nat
  write : Option Nat
  deriving DecidableEq, Repr

/-- Every call succeeds in full. -/
def GrubIo.ok : GrubIo where
  openOk := true
  read := some grubEnvSize
  write := some grubEnvSize

/-- `read_grubenv`, with `none` for the error return. -/
def readGrubenv (io : GrubIo) (file : CStr) : Option CStr :=
  match io.openOk, io.read with
  | true, some n =>
    let data := (file.take grubEnvSize).take n
    if data.length ≠ grubEnvSize then none
    else if data.take grubHdrSize ≠ grubHdr then none
    else some data
  | _, _ => none

/-! ## Reading a key -/

/-- The loop of `grub_get_env_key`: `rest` is what is left of the scanned
bytes from index `i` on, `next` is where the current line starts. A newline is
overwritten with a NUL before the line is compared. -/
def grubGetLoop (key : CStr) : CStr → Nat → Nat → CStr → Option CStr
  | _, _, _, [] => none
  | mem, i, next, c :: rest =>
    if c ≠ newline then grubGetLoop key mem (i + 1) next rest
    else if key.isPrefixOf ((mem.set i 0).drop next) then
      some (cstrAt (mem.set i 0) (next + key.length + 1))
    else grubGetLoop key (mem.set i 0) (i + 1) (i + 1) rest

/-- `grub_get_env_key`, with `none` for NULL; `behind` is the memory behind `buf`. -/
def grubGetEnvKey (io : GrubIo) (behind file : CStr) (key : CStr) : Option CStr :=
  match readGrubenv io file with
  | none => none
  | some buf =>
    let len := (cstrAt (buf ++ behind) 0).length - grubHdrMinus
    grubGetLoop key (buf ++ behind) grubHdrSize grubHdrSize
      (((buf ++ behind).take len).drop grubHdrSize)

/-! ## Rewriting the block -/

/-- The copy loop that set and unset share: `rest` is what is left of the
scanned bytes, `s` and `len` are the current line, and `new` is what was
copied so far. Lines that begin with the key are left out. -/
def grubCopyLoop (old key : CStr) : Nat → Nat → Nat → CStr → CStr → CStr
  | _, _, _, new, [] => new
  | i, s, len, new, c :: rest =>
    if c ≠ newline then grubCopyLoop old key (i + 1) s (len + 1) new rest
    else if key.isPrefixOf (old.drop s) then
      grubCopyLoop old key (i + 1) (i + 1) 0 new rest
    else grubCopyLoop old key (i + 1) (i + 1) 0 (new ++ (old.drop s).take (len + 1)) rest

/-- The size of `v`, the buffer for one line. -/
def grubEntrySize : Nat := 128

/-- What set does and unset does not: `sprintf` into `v` and the copy of `v`
behind the kept lines. -/
def grubAppend (new : CStr) : Option CStr → Except Fault CStr
  | none => .ok new
  | some v =>
    if grubEntrySize < v.length + 1 then .error .overflow
    else if grubEnvSize < new.length + v.length then .error .overflow
    else .ok (new ++ v)

/-- A block filled up with `#`. -/
def grubFill (new : CStr) : CStr := new ++ List.replicate (grubEnvSize - new.length) hash

/-- The `write` of the new block and the code that is returned for it. -/
def grubWrite (io : GrubIo) (file new : CStr) : Int × CStr :=
  match io.write with
  | none => (-1, file)
  | some n =>
    (if (new.take n).length ≠ grubEnvSize then -1 else 0, overwrite file (new.take n))

/-- The body that set and unset share; `add` is the line that set writes
behind the kept ones. -/
def grubRewrite (io : GrubIo) (file key : CStr) (add : Option CStr) :
    Except Fault (Int × CStr) :=
  match readGrubenv io file with
  | none => .ok (-1, file)
  | some old => do
    let rest := (old.take (grubEnvSize - grubHdrMinus)).drop grubHdrSize
    let kept := grubCopyLoop old key grubHdrSize grubHdrSize 0 grubHdr rest
    let new ← grubAppend kept add
    return grubWrite io file (grubFill new)

/-- `grub_unset_env_key` -/
def grubUnsetEnvKey (io : GrubIo) (file key : CStr) : Except Fault (Int × CStr) :=
  grubRewrite io file key none

/-- `grub_set_env_key` -/
def grubSetEnvKey (io : GrubIo) (file key value : CStr) : Except Fault (Int × CStr) :=
  grubRewrite io file key (some (key ++ str "=" ++ value ++ str "\n"))

/-- `grub_flush_env` -/
def grubFlushEnv : Int := 0

end Pantavisor.Bootloader
