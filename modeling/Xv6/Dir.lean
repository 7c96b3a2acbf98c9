import Mathlib.Logic.Function.Basic
import Xv6.Lib.Wp
import Xv6.Vm

/-!
# Inodes and directories

The file system as `fs.c` and `sysfile.c` see it above the blocks: inodes with their link counts, directories as lists of entries,
and the references to inodes in memory.  A function here is what the source does between `ilock` and `iunlock` of an inode, or
under `itable.lock`, and nobody else sees what happens in between.  An `iput` that frees the inode is more than one such section: the
source gives up `itable.lock` in it.  `iput` here is all of it, and `iputStart` what comes before `ip->ref--`.  The inode in memory and
the one on disk are one, since every change is written through by `iupdate` before `iunlock`.
-/

namespace Xv6

open Function (update)

/-- The bytes of a name up to the first zero. -/
abbrev Name := List UInt8

/-- Bytes of a name in a directory entry. -/
def DIRSIZ : Nat := 14

/-- `sizeof(struct dirent)`. -/
def DIRENT : Nat := 16

/-- Maximum number of active inodes. -/
def NINODE : Nat := 50

/-- Maximum major device number. -/
def NDEV : Int := 10

/-- The largest size of a file in bytes: `MAXFILE * BSIZE`. -/
def MAXSIZE : Nat := (12 + BSIZE / 4) * BSIZE

inductive Ftype
  | free | dir | file | device
  deriving DecidableEq

/-- An entry; `inum` is a `ushort` in the source, which is enough for the inodes of an image with fewer than 2^16 of them. -/
structure Dirent where
  inum : Inum
  name : Name
  deriving DecidableEq

/-- The value of a `short` to which `n` is assigned. -/
def short (n : Int) : Int := (n + 2 ^ 15) % 2 ^ 16 - 2 ^ 15

/-- An inode; a directory has `ents`, a file `data`. -/
structure Node where
  type : Ftype := .free
  major : Int := 0
  minor : Int := 0
  nlink : Int := 0
  ents : List Dirent := []
  data : List UInt8 := []
  deriving DecidableEq

/-- `struct file` of an inode; it has no `ip` before `sys_open` sets its type. -/
structure OpenFile where
  ref : Nat := 0
  ip : Option Inum := none
  device : Bool := false
  readable : Bool := false
  writable : Bool := false
  deriving DecidableEq

/-- The inodes, the references to them in memory, whether they have been read, and the file table. -/
structure Dirs where
  node : Inum → Node
  ref : Inum → Nat
  valid : Inum → Bool
  file : Fin NFILE → OpenFile

/-- Code under a lock; an error is a panic. -/
abbrev DirM := EStateM String Dirs

namespace Dirs

variable (s : Dirs)

def setNode (i : Inum) (x : Node) : Dirs := { s with node := update s.node i x }

def setRef (i : Inum) (n : Nat) : Dirs := { s with ref := update s.ref i n }

def setValid (i : Inum) (b : Bool) : Dirs := { s with valid := update s.valid i b }

def setFile (f : Fin NFILE) (x : OpenFile) : Dirs := { s with file := update s.file f x }

/-- The number of entries of the inode table in use. -/
def inUse (N : Nat) : Nat := (List.range N).countP fun i => 0 < s.ref i

end Dirs

/-- Nothing but `.` and `..`. -/
def Node.isEmpty (x : Node) : Bool := (x.ents.drop 2).all fun de => de.inum = 0

/-- The position of the entry with this name. -/
def Node.findEnt (x : Node) (name : Name) : Option Nat := x.ents.findIdx? fun de => de.inum ≠ 0 && de.name = name

/-- The position of an empty entry, or that after the last one. -/
def Node.emptyEnt (x : Node) : Nat := x.ents.findIdx fun de => de.inum = 0

namespace Dir

-- the number of inodes, `sb.ninodes`
variable (N : Nat)

/-! ### `fs.c` -/

def iget (i : Inum) : DirM Unit := do
  let s ← get
  if 0 < s.ref i then set (s.setRef i (s.ref i + 1))
  else if NINODE ≤ s.inUse N then throw "iget: no inodes"
  else set ((s.setRef i 1).setValid i false)

def idup (i : Inum) : DirM Unit := modify fun s => s.setRef i (s.ref i + 1)

def ilock (i : Inum) : DirM Unit := do
  let s ← get
  if s.ref i < 1 then throw "ilock"
  else if s.valid i then return ()
  else if (s.node i).type = .free then throw "ilock: no type"
  else set (s.setValid i true)

/-- The inode after `itrunc` and `ip->type = 0`. -/
def freed (x : Node) : Node := { x with type := .free, ents := [], data := [] }

def iput (i : Inum) : DirM Unit := modify fun s =>
  let s := if s.ref i = 1 ∧ s.valid i ∧ (s.node i).nlink = 0 then (s.setNode i (freed (s.node i))).setValid i false else s
  s.setRef i (s.ref i - 1)

/-- `iput` up to `ip->ref--`, if it frees the inode, which is the answer then; else all of it. -/
def iputStart (i : Inum) : DirM (Option Inum) := do
  let s ← get
  if s.ref i = 1 ∧ s.valid i ∧ (s.node i).nlink = 0 then
    set ((s.setNode i (freed (s.node i))).setValid i false)
    return some i
  else
    set (s.setRef i (s.ref i - 1))
    return none

/-- The lowest free inode is given `type`. -/
def ialloc (type : Ftype) : DirM (Option Inum) := do
  let s ← get
  match (List.range N).find? fun i => i ≠ 0 && (s.node i).type = .free with
  | none => return none
  | some i =>
    set (s.setNode i { type })
    iget N i
    return some i

/-- The position of the entry, and its inode with a reference to it. -/
def dirlookup (dp : Inum) (name : Name) : DirM (Option (Nat × Inum)) := do
  let s ← get
  if (s.node dp).type ≠ .dir then throw "dirlookup not DIR"
  else
    match (s.node dp).findEnt name with
    | none => return none
    | some k =>
      let i := ((s.node dp).ents.getD k ⟨0, []⟩).inum
      iget N i
      return some (k, i)

/-- `writei` of one entry at position `k` of a directory; `grow` says that there is a block if a new one is needed. -/
def putEnt (dp : Inum) (k : Nat) (de : Dirent) (grow : Bool) : DirM Bool := do
  let s ← get
  let x := s.node dp
  if k < x.ents.length then
    set (s.setNode dp { x with ents := x.ents.set k de })
    return true
  else if DIRENT * (k + 1) > MAXSIZE then return false
  else if DIRENT * k % BSIZE = 0 ∧ !grow then return false
  else
    set (s.setNode dp { x with ents := x.ents ++ [de] })
    return true

def dirlink (dp : Inum) (name : Name) (inum : Inum) (grow : Bool) : DirM Bool := do
  match ← dirlookup N dp name with
  | some (_, i) =>
    -- frees nothing: if no one else refers to `i`, it has not been read
    iput i
    return false
  | none =>
    let s ← get
    putEnt dp (s.node dp).emptyEnt ⟨inum, name⟩ grow

/-- `ip->nlink += n; iupdate(ip)`. -/
def addLink (i : Inum) (n : Int) : DirM Unit := modify fun s =>
  s.setNode i { s.node i with nlink := short ((s.node i).nlink + n) }

/-! ### Sections of `sysfile.c` and `namex` -/

inductive Lookup
  | notdir
  | missing
  | found (i : Inum)

/-- A round of `namex`. -/
def lookup (dp : Inum) (name : Name) : DirM Lookup := do
  ilock dp
  let s ← get
  if (s.node dp).type ≠ .dir then return .notdir
  else
    match ← dirlookup N dp name with
    | none => return .missing
    | some (_, i) => return .found i

/-- The type and the major number of a locked inode. -/
def stat (i : Inum) : DirM (Ftype × Int) := do
  ilock i
  let s ← get
  return ((s.node i).type, (s.node i).major)

/-- `sys_link` counts the new link; not for a directory. -/
def linkUp (i : Inum) : DirM Bool := do
  ilock i
  let s ← get
  if (s.node i).type = .dir then return false
  else
    addLink i 1
    return true

/-- `sys_link` takes the new link back. -/
def linkDown (i : Inum) : DirM Unit := do
  ilock i
  addLink i (-1)

/-- `sys_link` makes the entry. -/
def linkIn (dp : Inum) (name : Name) (i : Inum) (grow : Bool) : DirM Bool := do
  ilock dp
  dirlink N dp name i grow

inductive Unlink
  | bad
  -- a directory that is not empty
  | busy (i : Inum)
  | done (i : Inum)

def dot : Name := [46]

def dotdot : Name := [46, 46]

def unlinkIn (dp : Inum) (name : Name) : DirM Unlink := do
  ilock dp
  if name = dot ∨ name = dotdot then return .bad
  else
    match ← dirlookup N dp name with
    | none => return .bad
    | some (k, i) =>
      ilock i
      let s ← get
      let x := s.node i
      if x.nlink < 1 then throw "unlink: nlink < 1"
      else if x.type = .dir ∧ !x.isEmpty then return .busy i
      else
        if !(← putEnt dp k ⟨0, []⟩ true) then throw "unlink: writei"
        if x.type = .dir then addLink dp (-1)
        addLink i (-1)
        return .done i

inductive Create
  | old (i : Inum)
  | failed
  | made (i : Inum)

/-- `create` in the directory, up to the `iput` of a new inode that it gives up (`.error`); `grow` says for each directory whether there
is a block if a new one is needed. -/
def createTry (dp : Inum) (name : Name) (type : Ftype) (major minor : Int) (grow : Bool × Bool) : DirM (Except Inum Create) := do
  ilock dp
  match ← dirlookup N dp name with
  | some (_, i) => return .ok (.old i)
  | none =>
    match ← ialloc N type with
    | none => return .ok .failed
    | some i =>
      ilock i
      modify fun s => s.setNode i { s.node i with major := short major, minor := short minor, nlink := 1 }
      let ok ←
        if type = .dir then do
          if ← dirlink N i dot i grow.1 then dirlink N i dotdot dp grow.1 else pure false
        else pure true
      let ok ← if ok then dirlink N dp name i grow.2 else pure false
      if ok then
        if type = .dir then addLink dp 1
        return .ok (.made i)
      else
        modify fun s => s.setNode i { s.node i with nlink := 0 }
        return .error i

/-- `create` in the directory. -/
def createIn (dp : Inum) (name : Name) (type : Ftype) (major minor : Int) (grow : Bool × Bool) : DirM Create := do
  match ← createTry N dp name type major minor grow with
  | .ok r => return r
  | .error i =>
    iput i
    return .failed

/-! ### `file.c` -/

def filealloc : DirM (Option (Fin NFILE)) := do
  let s ← get
  match (List.finRange NFILE).find? fun f => (s.file f).ref = 0 with
  | none => return none
  | some f =>
    set (s.setFile f { s.file f with ref := 1 })
    return some f

def filedup (f : Fin NFILE) : DirM Unit := do
  let s ← get
  if (s.file f).ref < 1 then throw "filedup"
  else set (s.setFile f { s.file f with ref := (s.file f).ref + 1 })

/-- `fileclose` under `ftable.lock`; the inode that the last reference was to. -/
def fileput (f : Fin NFILE) : DirM (Option Inum) := do
  let s ← get
  if (s.file f).ref < 1 then throw "fileclose"
  else if (s.file f).ref > 1 then
    set (s.setFile f { s.file f with ref := (s.file f).ref - 1 })
    return none
  else
    set (s.setFile f {})
    return (s.file f).ip

/-- `sys_open` fills in the file. -/
def fileset (f : Fin NFILE) (i : Inum) (device readable writable : Bool) : DirM Unit :=
  modify fun s => s.setFile f { s.file f with ip := some i, device, readable, writable }

def getFile (f : Fin NFILE) : DirM OpenFile := do return (← get).file f

/-- The inode of a file is locked, and its contents become `g` of them. -/
def fileLock (f : Fin NFILE) (g : List UInt8 → List UInt8) : DirM Unit := do
  let s ← get
  match (s.file f).ip with
  | none => throw "fileread"
  | some i =>
    ilock i
    modify fun s => s.setNode i { s.node i with data := g (s.node i).data }

end Dir

end Xv6
