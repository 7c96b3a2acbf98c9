import Xv6.Dir
import Xv6.Lib.Code
import Xv6.MemCalls

/-!
# File-system calls

The calls of `sysfile.c` and what `exec`, `exit` and `cfork` do with inodes, as code over the sections of `Dir`.  The sections of
different processes come in any order.
-/

namespace Xv6

/-- The fields of `struct proc` that refer to inodes and files. -/
structure Local where
  ofile : Fin NOFILE → Option (Fin NFILE) := fun _ => none
  cwd : Inum

inductive DirOp
  | beginOp
  | endOp
  | iget (i : Inum)
  | idup (i : Inum)
  | iput (i : Inum)
  | lookup (dp : Inum) (name : Name)
  | stat (i : Inum)
  | linkUp (i : Inum)
  | linkDown (i : Inum)
  | linkIn (dp : Inum) (name : Name) (i : Inum)
  | unlinkIn (dp : Inum) (name : Name)
  | createIn (dp : Inum) (name : Name) (type : Ftype) (major minor : Int)
  -- `itrunc(f->ip)`, and the `readi` or `stati` of `f->ip`
  | trunc (f : Fin NFILE)
  | readFile (f : Fin NFILE)
  -- one round of `filewrite`; the answer says that all bytes were written
  | write (f : Fin NFILE)
  | filealloc
  | filedup (f : Fin NFILE)
  | fileput (f : Fin NFILE)
  | fileset (f : Fin NFILE) (i : Inum) (device readable writable : Bool)
  | getFile (f : Fin NFILE)
  -- `allocproc` takes a process, `freeproc` puts it back, `fork` makes it runnable
  | slotalloc
  | slotfree (q : Fin NPROC)
  | publish (q : Fin NPROC) (l : Local)

def DirOp.Ans : DirOp → Type
  | lookup .. => Dir.Lookup
  | stat _ => Ftype × Int
  | linkUp _ | linkIn .. | write _ => Bool
  | unlinkIn .. => Dir.Unlink
  | createIn .. => Dir.Create
  | filealloc => Option (Fin NFILE)
  | fileput _ => Option Inum
  | getFile _ => OpenFile
  | slotalloc => Option (Fin NPROC)
  | beginOp | endOp | iget _ | idup _ | iput _ | linkDown _ | trunc _ | readFile _ | filedup _ | fileset .. | slotfree _ | publish .. => Unit

abbrev DirCode := Code DirOp.Ans

/-- What a call leaves: the fields of the caller, its result, whether the caller is a zombie now, and the root directory of a new
container. -/
structure DirOut where
  loc : Local
  ret : Int
  exited : Bool := false
  cont : Option Inum := none

namespace SysFile

open Dir (Lookup Unlink Create)

/-! ### Operations -/

def beginOp : DirCode Unit := Code.op DirOp.beginOp

def endOp : DirCode Unit := Code.op DirOp.endOp

def iget (i : Inum) : DirCode Unit := Code.op (DirOp.iget i)

def idup (i : Inum) : DirCode Unit := Code.op (DirOp.idup i)

def iput (i : Inum) : DirCode Unit := Code.op (DirOp.iput i)

def lookup (dp : Inum) (name : Name) : DirCode Lookup := Code.op (DirOp.lookup dp name)

def stat (i : Inum) : DirCode (Ftype × Int) := Code.op (DirOp.stat i)

def linkUp (i : Inum) : DirCode Bool := Code.op (DirOp.linkUp i)

def linkDown (i : Inum) : DirCode Unit := Code.op (DirOp.linkDown i)

def linkIn (dp : Inum) (name : Name) (i : Inum) : DirCode Bool := Code.op (DirOp.linkIn dp name i)

def unlinkIn (dp : Inum) (name : Name) : DirCode Unlink := Code.op (DirOp.unlinkIn dp name)

def createIn (dp : Inum) (name : Name) (type : Ftype) (major minor : Int) : DirCode Create :=
  Code.op (DirOp.createIn dp name type major minor)

def trunc (f : Fin NFILE) : DirCode Unit := Code.op (DirOp.trunc f)

def readFile (f : Fin NFILE) : DirCode Unit := Code.op (DirOp.readFile f)

def write (f : Fin NFILE) : DirCode Bool := Code.op (DirOp.write f)

def filealloc : DirCode (Option (Fin NFILE)) := Code.op DirOp.filealloc

def filedup (f : Fin NFILE) : DirCode Unit := Code.op (DirOp.filedup f)

def fileput (f : Fin NFILE) : DirCode (Option Inum) := Code.op (DirOp.fileput f)

def fileset (f : Fin NFILE) (i : Inum) (device readable writable : Bool) : DirCode Unit :=
  Code.op (DirOp.fileset f i device readable writable)

def getFile (f : Fin NFILE) : DirCode OpenFile := Code.op (DirOp.getFile f)

def slotalloc : DirCode (Option (Fin NPROC)) := Code.op DirOp.slotalloc

def slotfree (q : Fin NPROC) : DirCode Unit := Code.op (DirOp.slotfree q)

def publish (q : Fin NPROC) (l : Local) : DirCode Unit := Code.op (DirOp.publish q l)

/-! ### Paths -/

def slash : UInt8 := 47

/-- The next path element, cut to `DIRSIZ` bytes, and the path after it. -/
def skipelem (path : List UInt8) : Option (Name × List UInt8) :=
  let path := path.dropWhile (· = slash)
  if path = [] then none
  else some ((path.takeWhile (· ≠ slash)).take DIRSIZ, (path.dropWhile (· ≠ slash)).dropWhile (· = slash))

/-- The elements that `namex` takes from the path.  Each is not empty, so that `n = path.length` is enough. -/
def elems : Nat → List UInt8 → List Name
  | 0, _ => []
  | n + 1, path =>
    match skipelem path with
    | none => []
    | some (name, path) => name :: elems n path

/-- The loop of `namex` from inode `ip` on; `name` is the element before. -/
def namexFrom (nameiparent : Bool) : Inum → Name → List Name → DirCode (Option (Inum × Name))
  | ip, name, [] =>
    if nameiparent then do
      iput ip
      pure none
    else pure (some (ip, name))
  | ip, _, name :: path =>
    if nameiparent && path = [] then do
      let x ← stat ip
      if x.1 ≠ Ftype.dir then
        iput ip
        pure none
      else pure (some (ip, name))
    else do
      match ← lookup ip name with
      | .found next =>
        iput ip
        namexFrom nameiparent next name path
      | .notdir | .missing =>
        iput ip
        pure none

def namex (l : Local) (path : List UInt8) (nameiparent : Bool) : DirCode (Option (Inum × Name)) := do
  if path.head? = some slash then
    iget ROOTINO
    namexFrom nameiparent ROOTINO [] (elems path.length path)
  else
    idup l.cwd
    namexFrom nameiparent l.cwd [] (elems path.length path)

def namei (l : Local) (path : List UInt8) : DirCode (Option Inum) := do
  let r ← namex l path false
  pure (r.map Prod.fst)

def nameiparent (l : Local) (path : List UInt8) : DirCode (Option (Inum × Name)) := namex l path true

/-! ### `file.c` -/

def fileclose (f : Fin NFILE) : DirCode Unit := do
  match ← fileput f with
  | none => pure ()
  | some ip =>
    beginOp
    iput ip
    endOp

/-- `n` bytes are written in rounds of at most this many. -/
def WRITEMAX : Nat := (MAXOPBLOCKS - 1 - 1 - 2) / 2 * BSIZE

/-- The loop of `filewrite`, with the number of rounds that are left. -/
def filewriteLoop (f : Fin NFILE) : Nat → DirCode Bool
  | 0 => pure true
  | n + 1 => do
    beginOp
    let ok ← write f
    endOp
    if ok then filewriteLoop f n else pure false

/-! ### `sysfile.c` -/

/-- The descriptor and its file. -/
def argfd (l : Local) (fd : Int) : Option (Fin NOFILE × Fin NFILE) := Mem.argfd { ofile := l.ofile } fd

/-- The caller as it was, with result -1. -/
def failed (l : Local) : DirOut := { loc := l, ret := -1 }

def sysDup (l : Local) (fd : Int) : DirCode DirOut :=
  match argfd l fd with
  | none => pure (failed l)
  | some (_, f) =>
    match Mem.fdalloc l.ofile with
    | none => pure (failed l)
    | some fd => do
      let ofile := Function.update l.ofile fd (some f)
      filedup f
      pure { loc := { l with ofile }, ret := fd.val }

/-- What `readi` returns does not matter here. -/
def sysRead (l : Local) (fd : Int) (r : Int) : DirCode DirOut :=
  match argfd l fd with
  | none => pure (failed l)
  | some (_, f) => do
    let x ← getFile f
    if !x.readable then pure (failed l)
    else if x.device then pure { loc := l, ret := r }
    else do
      readFile f
      pure { loc := l, ret := r }

def sysWrite (l : Local) (fd : Int) (n : Int) : DirCode DirOut :=
  match argfd l fd with
  | none => pure (failed l)
  | some (_, f) => do
    let x ← getFile f
    if !x.writable then pure (failed l)
    else if x.device then pure { loc := l, ret := n }
    else do
      let ok ← filewriteLoop f ((n.toNat + WRITEMAX - 1) / WRITEMAX)
      pure { loc := l, ret := if ok then n else -1 }

def sysClose (l : Local) (fd : Int) : DirCode DirOut :=
  match argfd l fd with
  | none => pure (failed l)
  | some (fd, f) => do
    let ofile := Function.update l.ofile fd none
    fileclose f
    pure { loc := { l with ofile }, ret := 0 }

def sysFstat (l : Local) (fd : Int) (r : Int) : DirCode DirOut :=
  match argfd l fd with
  | none => pure (failed l)
  | some (_, f) => do
    readFile f
    pure { loc := l, ret := r }

/-- The label `bad` of `sys_link`. -/
def linkBad (l : Local) (ip : Inum) : DirCode DirOut := do
  linkDown ip
  iput ip
  endOp
  pure (failed l)

def sysLink (l : Local) (old new : Option (List UInt8)) : DirCode DirOut :=
  match old, new with
  | some old, some new => do
    beginOp
    match ← namei l old with
    | none =>
      endOp
      pure (failed l)
    | some ip =>
      if ← linkUp ip then
        match ← nameiparent l new with
        | none => linkBad l ip
        | some (dp, name) =>
          if ← linkIn dp name ip then
            iput dp
            iput ip
            endOp
            pure { loc := l, ret := 0 }
          else
            iput dp
            linkBad l ip
      else
        iput ip
        endOp
        pure (failed l)
  | _, _ => pure (failed l)

def sysUnlink (l : Local) (path : Option (List UInt8)) : DirCode DirOut :=
  match path with
  | none => pure (failed l)
  | some path => do
    beginOp
    match ← nameiparent l path with
    | none =>
      endOp
      pure (failed l)
    | some (dp, name) =>
      match ← unlinkIn dp name with
      | .bad =>
        iput dp
        endOp
        pure (failed l)
      | .busy ip =>
        iput ip
        iput dp
        endOp
        pure (failed l)
      | .done ip =>
        iput dp
        iput ip
        endOp
        pure { loc := l, ret := 0 }

def create (l : Local) (path : List UInt8) (type : Ftype) (major minor : Int) : DirCode (Option Inum) := do
  match ← nameiparent l path with
  | none => pure none
  | some (dp, name) =>
    match ← createIn dp name type major minor with
    | .old ip =>
      iput dp
      let x ← stat ip
      if type = .file ∧ (x.1 = Ftype.file ∨ x.1 = Ftype.device) then pure (some ip)
      else
        iput ip
        pure none
    | .failed =>
      iput dp
      pure none
    | .made ip =>
      iput dp
      pure (some ip)

def O_RDONLY : Nat := 0

def O_WRONLY : Nat := 0x001

def O_RDWR : Nat := 0x002

def O_CREATE : Nat := 0x200

def O_TRUNC : Nat := 0x400

/-- `sys_open` after it has found or made the inode. -/
def openInode (l : Local) (omode : Nat) (ip : Inum) : DirCode DirOut := do
  let x ← stat ip
  if x.1 = Ftype.device ∧ (x.2 < 0 ∨ x.2 ≥ NDEV) then
    iput ip
    endOp
    pure (failed l)
  else
    match ← filealloc with
    | none =>
      iput ip
      endOp
      pure (failed l)
    | some f =>
      match Mem.fdalloc l.ofile with
      | none =>
        fileclose f
        iput ip
        endOp
        pure (failed l)
      | some fd =>
        let ofile := Function.update l.ofile fd (some f)
        fileset f ip (x.1 = Ftype.device) (omode &&& O_WRONLY = 0) (omode &&& O_WRONLY ≠ 0 || omode &&& O_RDWR ≠ 0)
        if omode &&& O_TRUNC ≠ 0 ∧ x.1 = Ftype.file then
          trunc f
          endOp
          pure { loc := { l with ofile }, ret := fd.val }
        else
          endOp
          pure { loc := { l with ofile }, ret := fd.val }

def sysOpen (l : Local) (path : Option (List UInt8)) (omode : Nat) : DirCode DirOut :=
  match path with
  | none => pure (failed l)
  | some path => do
    beginOp
    if omode &&& O_CREATE ≠ 0 then
      match ← create l path .file 0 0 with
      | none =>
        endOp
        pure (failed l)
      | some ip => openInode l omode ip
    else
      match ← namei l path with
      | none =>
        endOp
        pure (failed l)
      | some ip =>
        let x ← stat ip
        if x.1 = Ftype.dir ∧ omode ≠ O_RDONLY then
          iput ip
          endOp
          pure (failed l)
        else openInode l omode ip

/-- `sys_mkdir` and `sys_mknod`. -/
def sysMake (l : Local) (path : Option (List UInt8)) (type : Ftype) (major minor : Int) : DirCode DirOut := do
  beginOp
  match path with
  | none =>
    endOp
    pure (failed l)
  | some path =>
    match ← create l path type major minor with
    | none =>
      endOp
      pure (failed l)
    | some ip =>
      iput ip
      endOp
      pure { loc := l, ret := 0 }

def sysMkdir (l : Local) (path : Option (List UInt8)) : DirCode DirOut := sysMake l path .dir 0 0

def sysMknod (l : Local) (path : Option (List UInt8)) (major minor : Int) : DirCode DirOut := sysMake l path .device major minor

def sysChdir (l : Local) (path : Option (List UInt8)) : DirCode DirOut := do
  beginOp
  match path with
  | none =>
    endOp
    pure (failed l)
  | some path =>
    match ← namei l path with
    | none =>
      endOp
      pure (failed l)
    | some ip =>
      let x ← stat ip
      if x.1 ≠ Ftype.dir then
        iput ip
        endOp
        pure (failed l)
      else
        iput l.cwd
        endOp
        pure { loc := { l with cwd := ip }, ret := 0 }

/-! ### `exec.c` and `proc.c` -/

/--
What `exec` does with the inode of the program; `r` is its result.  It gives the inode up once, either when it has read the program
or at `bad:`, and keeps nothing of it then, so that success and all the failures with an inode are one path here.
-/
def exec (l : Local) (path : List UInt8) (r : Int) : DirCode DirOut := do
  beginOp
  match ← namei l path with
  | none =>
    endOp
    pure (failed l)
  | some ip =>
    let _ ← stat ip
    iput ip
    endOp
    pure { loc := l, ret := r }

/-- `for(fd = 0; fd < NOFILE; fd++) if(p->ofile[fd]) ...`. -/
def eachFile (g : Fin NFILE → DirCode Unit) (ofile : Fin NOFILE → Option (Fin NFILE)) : List (Fin NOFILE) → DirCode Unit
  | [] => pure ()
  | fd :: fds => do
    match ofile fd with
    | none => eachFile g ofile fds
    | some f =>
      g f
      eachFile g ofile fds

/-- `rootdir` is the root directory of the container if this is its last process. -/
def exit (l : Local) (rootdir : Option Inum) : DirCode DirOut := do
  eachFile fileclose l.ofile (List.finRange NOFILE)
  beginOp
  iput l.cwd
  endOp
  match rootdir with
  | none => pure { loc := { cwd := 0 }, ret := 0, exited := true }
  | some r =>
    beginOp
    iput r
    endOp
    pure { loc := { cwd := 0 }, ret := 0, exited := true }

/-- `mem` says that there is memory for the child. -/
def fork (l : Local) (mem : Bool) (cont : Option Inum) : DirCode DirOut := do
  match ← slotalloc with
  | none => pure { loc := l, ret := -1, cont }
  | some q =>
    if !mem then
      slotfree q
      pure { loc := l, ret := -1, cont }
    else
      eachFile filedup l.ofile (List.finRange NOFILE)
      idup l.cwd
      publish q l
      pure { loc := l, ret := 1, cont }

/-- `cont` says that there is a free container, `isroot` that the name starts with `root`. -/
def cfork (l : Local) (cont isroot : Bool) (crootdir : List UInt8) (mem : Bool) : DirCode DirOut := do
  if !cont then pure (failed l)
  else if isroot then fork l mem none
  else
    beginOp
    match ← namei l crootdir with
    | none =>
      endOp
      pure (failed l)
    | some ip =>
      endOp
      fork l mem (some ip)

end SysFile

end Xv6
