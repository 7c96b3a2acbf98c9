import Xv6.DirCalls
import Xv6.Lib.Lts

/-!
# Processes that share a file system

Each process runs file-system calls, with any arguments, and the sections of the calls of different processes come in any order.
`disk` is what a crash would leave: the log is committed when the last operation ends.  The run starts after the boot, when the
first process has the root directory as its current one.
-/

namespace Xv6

open Function (update)

/-- `live` is a process outside a call, `incall` one inside; `used` is a slot that `fork` is filling. -/
inductive DirSt
  | unused | used | live | incall
  deriving DecidableEq

structure DirSlot where
  st : DirSt := .unused
  loc : Local := { cwd := 0 }

/-- The file system, the inodes on disk, the number of running operations, the processes, and the root directories of the
containers. -/
structure DirK where
  d : Dirs
  disk : Inum → Node
  outstanding : Nat
  slot : Fin NPROC → DirSlot
  conts : List Inum
  initproc : Fin NPROC

/-- What is decided outside: whether there are blocks for a directory to grow, and what a `writei` of user data does. -/
structure DirEnv where
  grow : Bool × Bool
  data : List UInt8
  all : Bool

namespace DirK

def setSlot (k : DirK) (q : Fin NPROC) (x : DirSlot) : DirK := { k with slot := update k.slot q x }

/-- A section of `Dir`. -/
def lift {α : Type} (k : DirK) (m : DirM α) : Except String (α × DirK) :=
  match m k.d with
  | .ok a d => .ok (a, { k with d })
  | .error msg _ => .error msg

/-- One operation, for a file system with `N` inodes. -/
def exec (N : Nat) (env : DirEnv) (k : DirK) : (o : DirOp) → Except String (o.Ans × DirK)
  | .beginOp => .ok ((), { k with outstanding := k.outstanding + 1 })
  | .endOp =>
    let k := { k with outstanding := k.outstanding - 1 }
    .ok ((), if k.outstanding = 0 then { k with disk := k.d.node } else k)
  | .iget i => k.lift (Dir.iget N i)
  | .idup i => k.lift (Dir.idup i)
  | .iput i => k.lift (Dir.iput i)
  | .lookup dp name => k.lift (Dir.lookup N dp name)
  | .stat i => k.lift (Dir.stat i)
  | .linkUp i => k.lift (Dir.linkUp i)
  | .linkDown i => k.lift (Dir.linkDown i)
  | .linkIn dp name i => k.lift (Dir.linkIn N dp name i env.grow.2)
  | .unlinkIn dp name => k.lift (Dir.unlinkIn N dp name)
  | .createIn dp name type major minor => k.lift (Dir.createIn N dp name type major minor env.grow)
  | .trunc f => k.lift (Dir.fileLock f fun _ => [])
  | .readFile f => k.lift (Dir.fileLock f id)
  | .write f =>
    match k.lift (Dir.fileLock f fun _ => env.data) with
    | .ok (_, k) => .ok (env.all, k)
    | .error msg => .error msg
  | .filealloc => k.lift Dir.filealloc
  | .filedup f => k.lift (Dir.filedup f)
  | .fileput f => k.lift (Dir.fileput f)
  | .fileset f i device readable writable => k.lift (Dir.fileset f i device readable writable)
  | .getFile f => k.lift (Dir.getFile f)
  | .slotalloc =>
    match (List.finRange NPROC).find? fun q => (k.slot q).st = .unused with
    | none => .ok (none, k)
    | some q => .ok (some q, k.setSlot q { st := .used })
  | .slotfree q => .ok ((), k.setSlot q {})
  | .publish q l => .ok ((), k.setSlot q ⟨.live, l⟩)

variable {N : Nat} {env : DirEnv} {k : DirK}

theorem exec_write {f : Fin NFILE} :
    k.exec N env (.write f) = (k.lift (Dir.fileLock f fun _ => env.data)).map fun r => (env.all, r.2) := by
  rw [exec]
  cases k.lift (Dir.fileLock f fun _ => env.data) <;> rfl

theorem exec_slotalloc : k.exec N env .slotalloc =
    .ok (((List.finRange NPROC).find? fun q => (k.slot q).st = .unused).elim (none, k) fun q =>
      (some q, k.setSlot q { st := .used })) := by
  rw [exec]
  cases (List.finRange NPROC).find? fun q => (k.slot q).st = .unused <;> rfl

end DirK

inductive DirCall
  | open (path : Option (List UInt8)) (omode : Nat)
  | close (fd : Int)
  | dup (fd : Int)
  | read (fd r : Int)
  | write (fd n : Int)
  | fstat (fd r : Int)
  | link (old new : Option (List UInt8))
  | unlink (path : Option (List UInt8))
  | mkdir (path : Option (List UInt8))
  | mknod (path : Option (List UInt8)) (major minor : Int)
  | chdir (path : Option (List UInt8))
  | exec (path : List UInt8) (r : Int)
  | exit (rootdir : Option Inum)
  | fork (mem : Bool)
  | cfork (cont isroot : Bool) (crootdir : List UInt8) (mem : Bool)

/-- The code of a call; `init` says that the first process makes it. -/
def DirCall.code (init : Bool) (l : Local) : DirCall → DirCode DirOut
  | .open path omode => SysFile.sysOpen l path omode
  | close fd => SysFile.sysClose l fd
  | dup fd => SysFile.sysDup l fd
  | read fd r => SysFile.sysRead l fd r
  | write fd n => SysFile.sysWrite l fd n
  | fstat fd r => SysFile.sysFstat l fd r
  | link old new => SysFile.sysLink l old new
  | unlink path => SysFile.sysUnlink l path
  | mkdir path => SysFile.sysMkdir l path
  | mknod path major minor => SysFile.sysMknod l path major minor
  | chdir path => SysFile.sysChdir l path
  | exec path r => SysFile.exec l path r
  | exit rootdir => if init then Code.panic "init exiting" else SysFile.exit l rootdir
  | fork mem => SysFile.fork l mem none
  | cfork cont isroot crootdir mem => SysFile.cfork l cont isroot crootdir mem

/-- The root directory that an exiting process releases for its container. -/
def DirCall.rootdir : DirCall → Option Inum
  | exit r => r
  | _ => none

inductive DirEv
  | call (p : Fin NPROC) (c : DirCall)
  | next (p : Fin NPROC) (env : DirEnv)
  | done (p : Fin NPROC)

/-- The kernel, and the code that is left of the call of each process. -/
structure DirSys where
  k : DirK
  th : Fin NPROC → Option (DirCode DirOut)

namespace DirSys

variable (s : DirSys)

def next (N : Nat) (p : Fin NPROC) (env : DirEnv) : DirCode DirOut → Option (Except String DirSys)
  | .ret _ => none
  | .panic msg => some (.error msg)
  | .call o f =>
    match s.k.exec N env o with
    | .error msg => some (.error msg)
    | .ok (x, k) => some (.ok ⟨k, update s.th p (some (f x))⟩)

def done (p : Fin NPROC) (r : DirOut) : DirSys where
  k := { s.k.setSlot p (if r.exited then {} else ⟨.live, r.loc⟩) with conts := r.cont.toList ++ s.k.conts }
  th := update s.th p none

def step (N : Nat) : DirEv → Option (Except String DirSys)
  | .call p c =>
    if (s.k.slot p).st = .live ∧ c.rootdir.all (· ∈ s.k.conts) then
      let k := { s.k with conts := c.rootdir.elim s.k.conts s.k.conts.erase }
      some (.ok ⟨k.setSlot p { s.k.slot p with st := .incall },
        update s.th p (some (c.code (p = s.k.initproc) (s.k.slot p).loc))⟩)
    else none
  | .next p env =>
    match s.th p with
    | some c => s.next N p env c
    | none => none
  | .done p =>
    match s.th p with
    | some (.ret r) => some (.ok (s.done p r))
    | _ => none

/-- The state after the boot from an image. -/
structure Booted (s : DirSys) : Prop where
  ref : s.k.d.ref = update (fun _ => 0) ROOTINO 1
  file : ∀ f, s.k.d.file f = {}
  disk : s.k.disk = s.k.d.node
  outstanding : s.k.outstanding = 0
  slot : s.k.slot = update (fun _ => {}) s.k.initproc ⟨.live, { cwd := ROOTINO }⟩
  conts : s.k.conts = []
  th : ∀ p, s.th p = none

/-- No process is in a call. -/
def Quiet : Prop := ∀ p, s.th p = none

/-- The state after the boot from the image `node`. -/
def boot (node : Inum → Node) : DirSys where
  k :=
    { d := ⟨node, update (fun _ => 0) ROOTINO 1, fun _ => false, fun _ => {}⟩
      disk := node
      outstanding := 0
      slot := update (fun _ => {}) ⟨0, NPROC_pos⟩ ⟨.live, { cwd := ROOTINO }⟩
      conts := []
      initproc := ⟨0, NPROC_pos⟩ }
  th _ := none

theorem boot_booted (node : Inum → Node) : (boot node).Booted where
  ref := rfl
  file _ := rfl
  disk := rfl
  outstanding := rfl
  slot := rfl
  conts := rfl
  th _ := rfl

end DirSys

/-- The empty root directory of an image. -/
def emptyImage : Inum → Node :=
  update (fun _ => {}) ROOTINO { type := .dir, nlink := 1, ents := [⟨ROOTINO, Dir.dot⟩, ⟨ROOTINO, Dir.dotdot⟩] }

/-- `p` makes the call `c`, with `n` operations, and nobody else runs. -/
def DirCall.alone (c : DirCall) (p : Fin NPROC) (env : DirEnv) (n : Nat) : List DirEv :=
  .call p c :: List.replicate n (.next p env) ++ [.done p]

/-- The runs on a file system with `N` inodes that start from an image with the property `I`. -/
def dirLts (N : Nat) (I : (Inum → Node) → Prop) : Lts DirSys DirEv :=
  .ofFun (fun s => I s.k.d.node ∧ s.Booted) fun s e => s.step N e

end Xv6
