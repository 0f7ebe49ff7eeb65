/-
Pantavisor.Bootloader.Uboot — the U-Boot environment backend (`uboot.c`).

The environment is a 65536 byte image, either the file `uboot.txt` or, with
`single_env`, an MTD partition. `uboot_get_env_key` scans the file for the
key; `uboot_set_env_key` and `uboot_unset_env_key` copy the entries they keep
into a new image and write it back over the old one.

The model keeps the C loops with their index arithmetic: `i` is a `uint16_t`,
so it is reduced modulo 65536, and a loop may be out of fuel (`diverges`),
read past the image (`outOfBounds`) or copy past a buffer (`overflow`).
`UbootIo` holds the outcome of every I/O call of one operation, and the
result of an operation is the stored bytes it leaves and the code it returns.
-/
import Pantavisor.Lib.CString

namespace Pantavisor.Bootloader

open Pantavisor.Lib

/-- `MTD_ENV_SIZE` -/
def mtdEnvSize : Nat := 65536

/-- What a run of the C code can do that the language does not define, and the
loop that does not end. -/
inductive Fault where
  | outOfBounds
  | overflow
  | diverges
  deriving DecidableEq, Repr

/-- The outcome of each I/O call of one operation. `read` and `write` are the
number of bytes the call may transfer, or `none` for an error. -/
structure UbootIo where
  stat : Bool
  openRead : Bool
  read : Option Nat
  openWrite : Bool
  /-- `MEMGETINFO`, `MEMUNLOCK` and `MEMERASE` together -/
  erase : Bool
  write : Option Nat
  deriving DecidableEq, Repr

/-- Every call succeeds in full. -/
def UbootIo.ok : UbootIo where
  stat := true
  openRead := true
  read := some mtdEnvSize
  openWrite := true
  erase := true
  write := some mtdEnvSize

/-- The stored environment and the place it is kept in. -/
structure UbootStore where
  singleEnv : Bool
  bytes : CStr
  deriving DecidableEq, Repr

/-- The number of bytes the code asks `read` for. -/
def UbootStore.len (st : UbootStore) : Nat :=
  if st.singleEnv then mtdEnvSize else st.bytes.length

/-! ## Reading a key -/

/-- The loop of `uboot_get_env_key`: `rest` is what is left of the `ret` bytes
from index `i` on, and `k` is where the current entry starts. -/
def ubootGetLoop (buf key : CStr) : Nat → Nat → CStr → Option CStr
  | _, _, [] => none
  | i, k, c :: rest =>
    if c ≠ 0 then ubootGetLoop buf key (i + 1) k rest
    else if key.isPrefixOf (buf.drop k) then some (cstrAt buf (k + key.length + 1))
    else ubootGetLoop buf key (i + 1) (i + 1) rest

/-- `uboot_get_env_key`, with `none` for NULL. The failure of `open` is tested
with `!fd`, which `-1` passes: the `read` that follows fails then. -/
def ubootGetEnvKey (io : UbootIo) (st : UbootStore) (key : CStr) : Option CStr :=
  if !st.singleEnv && !io.stat then none
  else
    match io.openRead, io.read with
    | true, some n =>
      let data := (st.bytes.take st.len).take n
      ubootGetLoop (readInto st.len data) key 0 0 data
    | _, _ => none

/-! ## Rewriting the image -/

/-- The test that ends the copy loop, at `old + i`: two 0xFF or two NUL bytes. -/
def ubootStop : CStr → Except Fault Bool
  | [] => .error .outOfBounds
  | c :: rest =>
    if c = 0xFF ∨ c = 0 then
      match rest with
      | [] => .error .outOfBounds
      | c' :: _ => .ok (c' = c)
    else .ok false

/-- The copy loop that set and unset share. `new` is what was copied so far;
entries that begin with the key are left out. -/
def ubootCopyLoop (old key : CStr) (ret : Nat) : Nat → Nat → CStr → Except Fault CStr
  | 0, _, _ => .error .diverges
  | fuel + 1, i, new =>
    if ret ≤ i then .ok new
    else
      match ubootStop (old.drop i) with
      | .error f => .error f
      | .ok true => .ok new
      | .ok false =>
        if (old.drop i).head? = some 0 then
          ubootCopyLoop old key ret fuel ((i + 1) % 65536) new
        else if old.length ≤ i + (cstrAt old i).length then
          -- `strlen` ran past the image
          .error .outOfBounds
        else
          let s := cstrAt old i
          let next := ((i + s.length) % 65536 + 1) % 65536
          if key.isPrefixOf (old.drop i) then ubootCopyLoop old key ret fuel next new
          else if mtdEnvSize < new.length + (s.length + 1) then .error .overflow
          else ubootCopyLoop old key ret fuel next (new ++ (s ++ [0]))

/-- The image buffer after `read`, and the number of bytes read. A failed
`read` leaves `ret = -1`, and the loop body does not run. -/
def ubootReadImage (io : UbootIo) (st : UbootStore) : Except Fault (CStr × Nat) :=
  match io.read with
  | none => .ok (readInto mtdEnvSize [], 0)
  | some n =>
    let data := (st.bytes.take st.len).take n
    if mtdEnvSize < data.length then .error .overflow
    else .ok (readInto mtdEnvSize data, data.length)

/-- Programming flash cells that hold `old`: without an erase a cell can only
be cleared. -/
def program (old new : CStr) : CStr :=
  List.zipWith (· &&& ·) old new ++ old.drop new.length

/-- The erase and the `write` of the new image. -/
def ubootWriteImage (io : UbootIo) (st : UbootStore) (new : CStr) : UbootStore :=
  let erased := List.replicate mtdEnvSize 0xFF ++ st.bytes.drop mtdEnvSize
  let base := if st.singleEnv && io.erase then erased else st.bytes
  match io.write with
  | none => { st with bytes := base }
  | some n =>
    { st with bytes := if st.singleEnv then program base (new.take n)
                       else overwrite base (new.take n) }

/-- The size of `v`, the buffer for one entry. -/
def ubootEntrySize : Nat := 128

/-- What set does and unset does not: `sprintf` into `v` and the copy of `v`
behind the kept entries. -/
def ubootAppend (new : CStr) : Option CStr → Except Fault CStr
  | none => .ok new
  | some v =>
    if ubootEntrySize < v.length + 1 then .error .overflow
    else if mtdEnvSize < new.length + (v.length + 1) then .error .overflow
    else .ok (new ++ (v ++ [0]))

/-- The body that set and unset share; `add` is the entry text that set writes
behind the kept entries. -/
def ubootRewrite (io : UbootIo) (st : UbootStore) (key : CStr) (add : Option CStr) :
    Except Fault (Int × UbootStore) :=
  if !st.singleEnv && !io.stat then .ok (-1, st)
  else if !io.openRead then .ok (-1, st)
  else do
    let (old, ret) ← ubootReadImage io st
    let kept ← ubootCopyLoop old key ret (mtdEnvSize + 1) 0 []
    let new ← ubootAppend kept add
    if !io.openWrite then return (-1, st)
    -- the result of `write` is not looked at
    return (0, ubootWriteImage io st (readInto mtdEnvSize new))

/-- `uboot_unset_env_key` -/
def ubootUnsetEnvKey (io : UbootIo) (st : UbootStore) (key : CStr) :
    Except Fault (Int × UbootStore) :=
  ubootRewrite io st key none

/-- `uboot_set_env_key` -/
def ubootSetEnvKey (io : UbootIo) (st : UbootStore) (key value : CStr) :
    Except Fault (Int × UbootStore) :=
  ubootRewrite io st key (some (key ++ str "=" ++ value))

/-- `uboot_flush_env`, as far as it touches the stored environment: with
`single_env` it unsets `pv_trying` and does not look at the result. -/
def ubootFlushEnv (io : UbootIo) (st : UbootStore) : Except Fault (Int × UbootStore) :=
  if st.singleEnv then do
    let (_, st') ← ubootUnsetEnvKey io st (str "pv_trying")
    return (0, st')
  else .ok (0, st)

end Pantavisor.Bootloader
