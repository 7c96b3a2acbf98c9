import Mathlib.Data.Fintype.Basic
import Xv6.Dir
import Xv6.Fs
import Xv6.Lib.Lts
import Xv6.Lib.Sum

/-!
# The inode table of concurrent processes

The functions of `fs.c` that keep inodes in memory, for any number of processes that call them at any time.  One step is a section
under `itable.lock`, the taking of a sleep lock, or one use of the block that has the inode; `iput` gives the sleep lock and
`itable.lock` away and takes them again while it frees an inode, and `ialloc` marks the inode in its block before it asks `iget` for
an entry.

A pointer to an entry is in a variable (a local variable, `p->cwd`, `f->ip`) or is the argument of a call of `iput` that has not
returned.  `Itable.Keeps` is what the comments of `fs.c` ask of the callers.
-/

namespace Xv6

open Function (update)

/-- The fields of `struct inode`; its lock protects `valid` and `ino`. -/
structure ItableEntry where
  dev : UInt32
  inum : UInt32
  ref : Nat
  valid : Bool
  ino : Dinode

/-- The inode that the entry has. -/
def ItableEntry.key (e : ItableEntry) : UInt32 × UInt32 := (e.dev, e.inum)

/-- `ip->ref++`. -/
def ItableEntry.inc (e : ItableEntry) : ItableEntry := { e with ref := e.ref + 1 }

/-- The entry for another inode. -/
def ItableEntry.recycle (e : ItableEntry) (k : UInt32 × UInt32) : ItableEntry :=
  { e with dev := k.1, inum := k.2, ref := 1, valid := false }

/-- Where an `iput` is that frees the inode: before `itrunc`, before the `iupdate` of `itrunc`, and so on, with the statement that is
next. -/
inductive IputAt
  | itrunc | update | type | iupdate | valid | releasesleep | ref
  deriving DecidableEq

/-- Where a process is: outside these functions; in `ilock`, before and after it has taken the sleep lock; in `iput`; in `ialloc`,
before the inode `n` and after it has marked an inode. -/
inductive ItableCall
  | out
  | wait (i : Fin NINODE)
  | fill (i : Fin NINODE)
  | iput (i : Fin NINODE) (x : IputAt)
  | scan (dev : UInt32) (type : UInt16) (n : Nat)
  | taken (dev inum : UInt32)
  deriving DecidableEq

/-- The entry that an unfinished `iput` has a pointer to. -/
def ItableCall.put? : ItableCall → Option (Fin NINODE)
  | .iput i _ => some i
  | _ => none

structure Itable (P V : Type) where
  entry : Fin NINODE → ItableEntry
  -- the sleep lock of each entry
  lock : Fin NINODE → Option P
  -- each inode in its block
  disk : UInt32 × UInt32 → Dinode
  var : V → Option (Fin NINODE)
  call : P → ItableCall

inductive ItableEv (P V : Type)
  | iget (p : P) (v : V) (dev inum : UInt32)
  -- `w = idup(v)`
  | idup (p : P) (v w : V)
  | ilock (p : P) (v : V)
  | acquiresleep (p : P)
  -- the rest of `ilock`
  | fill (p : P)
  -- new values for the fields of the inode
  | modify (p : P) (v : V) (d : Dinode)
  | iupdate (p : P) (v : V)
  | iunlock (p : P) (v : V)
  -- the first section of `iput` under `itable.lock`
  | iput (p : P) (v : V)
  -- the next statement of an `iput` that frees the inode
  | free (p : P)
  | ialloc (p : P) (dev : UInt32) (type : UInt16)
  -- the next round of the loop of `ialloc`
  | scan (p : P)
  -- `v = iget(dev, inum)` at the end of `ialloc`
  | taken (p : P) (v : V)

/-- The process that takes the step. -/
def ItableEv.proc {P V : Type} : ItableEv P V → P
  | .iget p .. | .idup p .. | .ilock p _ | .acquiresleep p | .fill p | .modify p .. | .iupdate p _ | .iunlock p _ | .iput p _
  | .free p | .ialloc p .. | .scan p | .taken p _ => p

/-- A new inode. -/
def Dinode.fresh (type : UInt16) : Dinode := ⟨type, 0, 0, 0, 0, fun _ => 0⟩

/-- An inode after `itrunc`. -/
def Dinode.emptied (d : Dinode) : Dinode := { d with size := 0, addrs := fun _ => 0 }

namespace Itable

variable {P V : Type} [DecidableEq P] [DecidableEq V] (s : Itable P V)

def setEntry (i : Fin NINODE) (e : ItableEntry) : Itable P V := { s with entry := update s.entry i e }

def setLock (i : Fin NINODE) (l : Option P) : Itable P V := { s with lock := update s.lock i l }

def setDisk (k : UInt32 × UInt32) (d : Dinode) : Itable P V := { s with disk := update s.disk k d }

def setVar (v : V) (x : Option (Fin NINODE)) : Itable P V := { s with var := update s.var v x }

def goto (p : P) (x : ItableCall) : Itable P V := { s with call := update s.call p x }

/-- `ip->ref > 0 && ip->dev == dev && ip->inum == inum`. -/
def has (e : ItableEntry) (k : UInt32 × UInt32) : Bool := 0 < e.ref && e.key = k

/-- The entry that has the inode. -/
def find (k : UInt32 × UInt32) : Option (Fin NINODE) := (List.finRange NINODE).find? fun i => has (s.entry i) k

/-- The entry that `iget` returns, and what it makes of it. -/
def get (k : UInt32 × UInt32) : Except String (Fin NINODE × ItableEntry) :=
  match s.find k with
  | some i => .ok (i, (s.entry i).inc)
  | none =>
    match (List.finRange NINODE).find? fun i => (s.entry i).ref = 0 with
    | some i => .ok (i, (s.entry i).recycle k)
    | none => .error "iget: no inodes"

/-- `v = iget(dev, inum)`. -/
def iget (v : V) (k : UInt32 × UInt32) : Except String (Itable P V) :=
  (s.get k).map fun x => (s.setEntry x.1 x.2).setVar v (some x.1)

/-- `ip->ref--`. -/
def dec (i : Fin NINODE) : Itable P V := s.setEntry i { s.entry i with ref := (s.entry i).ref - 1 }

/-- `iupdate(ip)`. -/
def flush (i : Fin NINODE) : Itable P V := s.setDisk (s.entry i).key (s.entry i).ino

def setIno (i : Fin NINODE) (d : Dinode) : Itable P V := s.setEntry i { s.entry i with ino := d }

def setValid (i : Fin NINODE) (x : Bool) : Itable P V := s.setEntry i { s.entry i with valid := x }

/-- The rest of `ilock` after the sleep lock is taken. -/
def ilockFill (p : P) (i : Fin NINODE) : Except String (Itable P V) :=
  if (s.entry i).valid then .ok (s.goto p .out)
  else
    let d := s.disk (s.entry i).key
    if d.type = 0 then .error "ilock: no type" else .ok (((s.setIno i d).setValid i true).goto p .out)

/-- The first section of `iput` under `itable.lock`.  A process may not sleep with a spin lock. -/
def iput (p : P) (v : V) (i : Fin NINODE) : Except String (Itable P V) :=
  if (s.entry i).ref = 1 ∧ (s.entry i).valid ∧ (s.entry i).ino.nlink = 0 then
    if s.lock i = none then .ok (((s.setLock i (some p)).setVar v none).goto p (.iput i .itrunc)) else .error "sched locks"
  else .ok ((s.dec i).setVar v none)

/-- The next statement of an `iput` that frees the inode. -/
def free (p : P) (i : Fin NINODE) : IputAt → Itable P V
  | .itrunc => (s.setIno i (s.entry i).ino.emptied).goto p (.iput i .update)
  | .update => (s.flush i).goto p (.iput i .type)
  | .type => (s.setIno i { (s.entry i).ino with type := 0 }).goto p (.iput i .iupdate)
  | .iupdate => (s.flush i).goto p (.iput i .valid)
  | .valid => (s.setValid i false).goto p (.iput i .releasesleep)
  | .releasesleep => (s.setLock i none).goto p (.iput i .ref)
  | .ref => (s.dec i).goto p .out

/-- `sb.ninodes` is `ninodes`. -/
def step (ninodes : Nat) : ItableEv P V → Option (Except String (Itable P V))
  | .iget p v dev inum => if s.call p = .out then some (s.iget v (dev, inum)) else none
  | .idup p v w =>
    match s.var v with
    | some i =>
      if s.call p = .out then some (.ok ((s.setEntry i (s.entry i).inc).setVar w (some i))) else none
    | none => none
  | .ilock p v =>
    if s.call p = .out then
      match s.var v with
      | some i => if (s.entry i).ref < 1 then some (.error "ilock") else some (.ok (s.goto p (.wait i)))
      | none => some (.error "ilock")
    else none
  | .acquiresleep p =>
    match s.call p with
    | .wait i => if s.lock i = none then some (.ok ((s.setLock i (some p)).goto p (.fill i))) else none
    | _ => none
  | .fill p =>
    match s.call p with
    | .fill i => some (s.ilockFill p i)
    | _ => none
  | .modify p v d =>
    match s.var v with
    | some i => if s.call p = .out then some (.ok (s.setIno i d)) else none
    | none => none
  | .iupdate p v =>
    match s.var v with
    | some i => if s.call p = .out then some (.ok (s.flush i)) else none
    | none => none
  | .iunlock p v =>
    if s.call p = .out then
      match s.var v with
      | some i => if s.lock i ≠ some p ∨ (s.entry i).ref < 1 then some (.error "iunlock") else some (.ok (s.setLock i none))
      | none => some (.error "iunlock")
    else none
  | .iput p v =>
    match s.var v with
    | some i => if s.call p = .out then some (s.iput p v i) else none
    | none => none
  | .free p =>
    match s.call p with
    | .iput i x => some (.ok (s.free p i x))
    | _ => none
  | .ialloc p dev type => if s.call p = .out then some (.ok (s.goto p (.scan dev type 1))) else none
  | .scan p =>
    match s.call p with
    | .scan dev type n =>
      if n < ninodes then
        let k := (dev, UInt32.ofNat n)
        if (s.disk k).type = 0 then some (.ok ((s.setDisk k (.fresh type)).goto p (.taken k.1 k.2)))
        else some (.ok (s.goto p (.scan dev type (n + 1))))
      else some (.ok (s.goto p .out))
    | _ => none
  | .taken p v =>
    match s.call p with
    | .taken dev inum => some ((s.iget v (dev, inum)).map fun t => t.goto p .out)
    | _ => none

/-- The table that `iinit` leaves, with the inodes of the disk. -/
def iinit (disk : UInt32 × UInt32 → Dinode) : Itable P V where
  entry _ := { dev := 0, inum := 0, ref := 0, valid := false, ino := .fresh 0 }
  lock _ := none
  disk := disk
  var _ := none
  call _ := .out

/-! ### The inodes behind the table -/

/-- The inode of the entry is free in its block, and not yet in the entry. -/
def wiped (i : Fin NINODE) : Bool :=
  match s.lock i with
  | some p => s.call p = .iput i .valid
  | none => false

/-- Each inode as its next user finds it. -/
def view (k : UInt32 × UInt32) : Dinode :=
  match s.find k with
  | some i => if (s.entry i).valid && !s.wiped i then (s.entry i).ino else s.disk k
  | none => s.disk k

/-- What a step does to the inodes. -/
def effect (ninodes : Nat) : ItableEv P V → Option ((UInt32 × UInt32) × Dinode)
  | .modify _ v d => (s.var v).map fun i => ((s.entry i).key, d)
  | .free p =>
    match s.call p with
    | .iput i .itrunc => some ((s.entry i).key, (s.entry i).ino.emptied)
    | .iput i .type => some ((s.entry i).key, { (s.entry i).ino with type := 0 })
    | _ => none
  | .scan p =>
    match s.call p with
    | .scan dev type n =>
      if n < ninodes ∧ (s.disk (dev, UInt32.ofNat n)).type = 0 then some ((dev, UInt32.ofNat n), .fresh type) else none
    | _ => none
  | _ => none

/-! ### What the callers do -/

/-- Process `p` has locked the inode of entry `i`, or waits for its lock. -/
def Uses (p : P) (i : Fin NINODE) : Prop := s.call p = .wait i ∨ s.lock i = some p ∧ (s.call p).put? ≠ some i

instance (p : P) (i : Fin NINODE) : Decidable (s.Uses p i) := inferInstanceAs (Decidable (_ ∨ _))

/-- The conditions on the calls of these functions.  A lookup is for an inode that has a name or is in use; only variables that point
to an inode are used, and a pointer is not overwritten; the fields of an inode are changed by the process that has locked it,
which does not give it another type and calls `iupdate` before `iunlock`; the last variable that points to an inode is not given to
`iput` while a process has locked the inode or waits for it. -/
def Keeps : ItableEv P V → Prop
  | .iget _ v dev inum =>
    s.var v = none ∧ (((s.view (dev, inum)).type ≠ 0 ∧ (s.view (dev, inum)).nlink ≠ 0) ∨
      ∃ i, (∃ w, s.var w = some i) ∧ (s.entry i).key = (dev, inum))
  | .idup _ v w => (∃ i, s.var v = some i) ∧ s.var w = none
  | .ilock _ v => ∃ i, s.var v = some i
  | .modify p v d => ∃ i, s.var v = some i ∧ s.lock i = some p ∧ d.type = (s.entry i).ino.type
  | .iupdate p v => ∃ i, s.var v = some i ∧ s.lock i = some p
  | .iunlock p v => ∃ i, s.var v = some i ∧ s.lock i = some p ∧ (s.entry i).ino = s.disk (s.entry i).key
  | .iput _ v => ∀ i, s.var v = some i → (∃ q, s.Uses q i) → ∃ w, w ≠ v ∧ s.var w = some i
  | .ialloc _ _ type => type ≠ 0
  | .taken _ v => s.var v = none
  | .acquiresleep _ | .fill _ | .free _ | .scan _ => True

end Itable

/-- The runs of processes that call the functions so. -/
def itableLts (P V : Type) [DecidableEq P] [DecidableEq V] (ninodes : Nat) : Lts (Itable P V) (ItableEv P V) :=
  (Lts.ofFun (fun s => ∃ disk, s = Itable.iinit disk) fun s e => s.step ninodes e).guard Itable.Keeps

end Xv6
