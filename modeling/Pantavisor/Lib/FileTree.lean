/-
Pantavisor.Lib.FileTree — a file system with directories, symbolic links and
hard links, and the calls of the C library on it.

A `Tree` has names; a file in it is an inode number, and two files with one
number are hard links of each other. An `Fs` is the tree with the contents of
every inode. A path goes to a call as the list of its components, empty ones
and dots included, and `Fs.walk` follows it as the kernel does, through links.

`Tree.get` and `Tree.set` are the map of a tree and its update. Every call
changes the tree at one place, so that what a call leaves alone is
`Tree.get_set_disjoint`. Paths without dots and without links lead where they
say (`Fs.walk_dir`, `Fs.walk_entry`); `clean` is that place.
-/
import Pantavisor.Lib.CString

namespace Pantavisor.Lib

/-- A component of a path. -/
abbrev Name := CStr

/-- A place in a tree. -/
abbrev Path := List Name

/-- `/` -/
def slash : UInt8 := 47

/-- The components of a path as it is written. -/
def components : CStr → List Name
  | [] => [[]]
  | c :: s =>
    if c = slash then [] :: components s
    else
      match components s with
      | [] => [[c]]
      | n :: ns => (c :: n) :: ns

def dot : Name := str "."

def dotdot : Name := str ".."

/-- A name that an entry of a directory can have. -/
def Proper (n : Name) : Prop := n ≠ [] ∧ n ≠ dot ∧ n ≠ dotdot

instance (n : Name) : Decidable (Proper n) := inferInstanceAs (Decidable (_ ∧ _))

/-- A path without its empty components. -/
def clean (ns : List Name) : Path := ns.filter fun n => !n.isEmpty

/-! ## Trees -/

inductive Tree where
  | file (inode : Nat)
  | symlink (target : List Name)
  | dir (entries : List (Name × Tree))

/-- The entries with one set. -/
def putEntry : List (Name × Tree) → Name → Tree → List (Name × Tree)
  | [], n, t => [(n, t)]
  | (m, u) :: es, n, t => if m = n then (n, t) :: es else (m, u) :: putEntry es n t

/-- The entries with one set, or removed. -/
def setEntry (es : List (Name × Tree)) (n : Name) : Option Tree → List (Name × Tree)
  | some t => putEntry es n t
  | none => es.filter (·.1 ≠ n)

namespace Tree

def child : Tree → Name → Option Tree
  | dir es, n => es.lookup n
  | _, _ => none

/-- What is at a place. -/
def get : Tree → Path → Option Tree
  | t, [] => some t
  | t, n :: p => (t.child n).bind (·.get p)

/-- The tree with a place set, or removed; nothing changes where the directory
of the place is not there. -/
def set : Path → Option Tree → Tree → Tree
  | [], some u, _ => u
  | [n], u, dir es => dir (setEntry es n u)
  | n :: p, u, dir es =>
    match es.lookup n with
    | some c => dir (putEntry es n (set p u c))
    | none => dir es
  | _, _, t => t

def isDir : Tree → Bool
  | dir _ => true
  | _ => false

mutual

/-- How many directories deep the tree is. -/
def depth : Tree → Nat
  | dir es => depths es + 1
  | _ => 0

def depths : List (Name × Tree) → Nat
  | [] => 0
  | (_, t) :: es => max t.depth (depths es)

end

mutual

/-- An inode number that the tree does not use, nor any above it. -/
def fresh : Tree → Nat
  | file i => i + 1
  | symlink _ => 0
  | dir es => freshes es

def freshes : List (Name × Tree) → Nat
  | [] => 0
  | (_, t) :: es => max t.fresh (freshes es)

end

mutual

/-- The link count of an inode. -/
def links (i : Nat) : Tree → Nat
  | file j => if j = i then 1 else 0
  | symlink _ => 0
  | dir es => linkss i es

def linkss (i : Nat) : List (Name × Tree) → Nat
  | [] => 0
  | (_, t) :: es => t.links i + linkss i es

end

mutual

/-- There is no symbolic link in the tree, and its names are those of entries. -/
def orderly : Tree → Bool
  | file _ => true
  | symlink _ => false
  | dir es => orderlys es

def orderlys : List (Name × Tree) → Bool
  | [] => true
  | (n, t) :: es => decide (Proper n) && t.orderly && orderlys es

end

end Tree

/-! ## Calls -/

/-- A file system: the tree and what its files hold. -/
structure Fs where
  root : Tree
  data : Nat → CStr

namespace Fs

/-- The components of a path, one by one; `next` goes on behind a link. -/
def walkNames (fs : Fs) (next : Path → List Name → Option Path) :
    Path → List Name → Option Path
  | cur, [] => some cur
  | cur, n :: ns =>
    if n = [] ∨ n = dot then walkNames fs next cur ns
    else if n = dotdot then
      -- a path does not leave the tree
      if cur = [] then none else walkNames fs next cur.dropLast ns
    else
      match fs.root.get (cur ++ [n]) with
      | some (.dir _) => walkNames fs next (cur ++ [n]) ns
      | some (.symlink target) => next cur (target ++ ns)
      | some (.file _) | none => if ns = [] then some (cur ++ [n]) else none

/-- Where a path leads, through at most so many links. -/
def walkLinks (fs : Fs) : Nat → Path → List Name → Option Path
  | 0 => fs.walkNames fun _ _ => none
  | k + 1 => fs.walkNames (walkLinks fs k)

/-- Where a path leads: to a place whose directory is there. The kernel follows
40 links. -/
def walk (fs : Fs) (ns : List Name) : Option Path := fs.walkLinks 40 [] ns

/-- What a path leads to. -/
def find (fs : Fs) (ns : List Name) : Option Tree := (fs.walk ns).bind fs.root.get

/-- `stat(path) == 0` -/
def stat (fs : Fs) (ns : List Name) : Bool := (fs.find ns).isSome

/-- The directory and the name that a call which does not follow the last
component works on. -/
def entry (fs : Fs) (ns : List Name) : Option (Path × Name) :=
  match ns.reverse.dropWhile (·.isEmpty) with
  | [] => none
  | n :: above =>
    if n = dot ∨ n = dotdot then none
    else
      (fs.walk above.reverse).bind fun d =>
        if (fs.root.get d).any Tree.isDir then some (d, n) else none

def setRoot (fs : Fs) (p : Path) (t : Option Tree) : Fs := { fs with root := fs.root.set p t }

def setData (fs : Fs) (i : Nat) (s : CStr) : Fs :=
  { fs with data := fun j => if j = i then s else fs.data j }

/-- `mkdir`, for which a path that is there is no error. -/
def mkdir (fs : Fs) (ns : List Name) : Option Fs :=
  if fs.stat ns then some fs
  else
    match fs.entry ns with
    | none => none
    | some (d, n) =>
      match fs.root.get (d ++ [n]) with
      | some _ => some fs
      | none => some (fs.setRoot (d ++ [n]) (some (.dir [])))

/-- The loop of `mkdir_p`, with the components that are done. -/
def mkdirFrom (fs : Fs) (done : List Name) : List Name → Fs
  | [] => fs
  | n :: ns =>
    match fs.mkdir (done ++ [n]) with
    | none => fs
    | some fs' => mkdirFrom fs' (done ++ [n]) ns

/-- `mkdir_p` -/
def mkdirP (fs : Fs) (ns : List Name) : Fs := fs.mkdirFrom [] ns

/-- `open` with `O_CREAT`, and with `O_TRUNC` or not: the inode. -/
def openCreate (fs : Fs) (ns : List Name) (trunc : Bool) : Option (Nat × Fs) :=
  match fs.walk ns with
  | none => none
  | some p =>
    match fs.root.get p with
    | some (.file i) => some (i, if trunc then fs.setData i [] else fs)
    | some _ => none
    | none =>
      some (fs.root.fresh, (fs.setRoot p (some (.file fs.root.fresh))).setData fs.root.fresh [])

/-- `errno` behind a call that fails. -/
inductive Errno where
  | eexist
  | other
  deriving DecidableEq, Repr

/-- `open` with `O_CREAT` and `O_EXCL`. -/
def openExcl (fs : Fs) (ns : List Name) : Except Errno (Nat × Fs) :=
  match fs.entry ns with
  | none => .error .other
  | some (d, n) =>
    match fs.root.get (d ++ [n]) with
    | some _ => .error .eexist
    | none =>
      if ns.getLast? = some [] then .error .other
      else
        .ok (fs.root.fresh,
          (fs.setRoot (d ++ [n]) (some (.file fs.root.fresh))).setData fs.root.fresh [])

/-- The contents of a file that can be opened. -/
def readFile (fs : Fs) (ns : List Name) : Option CStr :=
  match fs.find ns with
  | some (.file i) => some (fs.data i)
  | _ => none

/-- What a place holds, whatever its inode number is. -/
inductive Held where
  | file (s : CStr)
  | symlink (target : List Name)
  | dir
  deriving DecidableEq, Repr

def heldOf (fs : Fs) : Tree → Held
  | .file i => .file (fs.data i)
  | .symlink l => .symlink l
  | .dir _ => .dir

def held (fs : Fs) (p : Path) : Option Held := (fs.root.get p).map fs.heldOf

/-- `write` from the start of a file. -/
def writeAt (fs : Fs) (i : Nat) (s : CStr) : Fs := fs.setData i (overwrite (fs.data i) s)

/-- `link`. A new path that ends in `/` is that of a directory. -/
def link (fs : Fs) (old new : List Name) : Except Errno Fs :=
  match fs.find old, fs.entry new with
  | some (.file i), some (d, n) =>
    match fs.root.get (d ++ [n]) with
    | some _ => .error .eexist
    | none =>
      if new.getLast? = some [] then .error .other
      else .ok (fs.setRoot (d ++ [n]) (some (.file i)))
  | _, _ => .error .other

/-- `rename` of a file. -/
def rename (fs : Fs) (old new : List Name) : Option Fs :=
  match fs.entry old, fs.entry new with
  | some (d, n), some (d', n') =>
    match fs.root.get (d ++ [n]), fs.root.get (d' ++ [n']) with
    | some (.file _), some (.dir _) => none
    | some (.file i), some (.file j) =>
      -- two links of one file stay
      if i = j then some fs
      else some ((fs.setRoot (d' ++ [n']) (some (.file i))).setRoot (d ++ [n]) none)
    | some (.file i), _ =>
      some ((fs.setRoot (d' ++ [n']) (some (.file i))).setRoot (d ++ [n]) none)
    | _, _ => none
  | _, _ => none

/-- `remove`: a file, a link, or an empty directory. A path that ends in `/` is
that of a directory. -/
def remove (fs : Fs) (ns : List Name) : Option Fs :=
  match fs.entry ns with
  | none => none
  | some (d, n) =>
    match fs.root.get (d ++ [n]) with
    | none => none
    | some (.dir []) => some (fs.setRoot (d ++ [n]) none)
    | some (.dir _) => none
    | some _ => if ns.getLast? = some [] then none else some (fs.setRoot (d ++ [n]) none)

/-- The order of `alphasort`. -/
def nameLe : Name → Name → Bool
  | [], _ => true
  | _ :: _, [] => false
  | a :: as, b :: bs => if a = b then nameLe as bs else a < b

/-- A name put into a sorted list. -/
def insertName (n : Name) : List Name → List Name
  | [] => [n]
  | m :: ms => if nameLe n m then n :: m :: ms else m :: insertName n ms

/-- `scandir`, without the two names that every directory has. -/
def scandir (fs : Fs) (ns : List Name) : Option (List Name) :=
  match fs.find ns with
  | some (.dir es) => some (es.foldr (fun e => insertName e.1) [])
  | _ => none

/-- The names of a directory, the last first: each is removed with `remove` or,
if that fails, as a directory. -/
def removeNames (removeDir : Fs → List Name → Fs) (ns : List Name) : Fs → List Name → Fs
  | fs, [] => fs
  | fs, n :: names =>
    match fs.remove (ns ++ [[], n]) with
    | some fs' => removeNames removeDir ns fs' names
    | none => removeNames removeDir ns (removeDir fs (ns ++ [[], n])) names

/-- `remove_in`, for directories at most so deep. -/
def removeDeep : Nat → Fs → List Name → Fs
  | 0, fs, _ => fs
  | k + 1, fs, ns =>
    match fs.scandir (ns ++ [[]]) with
    | none => fs
    | some names =>
      let fs := removeNames (removeDeep k) ns fs names.reverse
      (fs.remove (ns ++ [[]])).getD fs

/-- `remove_in(path, dirname)`, where the components are those of both. -/
def removeIn (fs : Fs) (ns : List Name) : Fs := removeDeep (fs.root.depth + 1) fs ns

end Fs

end Pantavisor.Lib
