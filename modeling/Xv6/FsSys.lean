import Xv6.Fs
import Xv6.Lib.Lts

/-!
# File-system calls of concurrent processes

Any number of processes run the functions of `fs.c`, with any arguments, between `begin_op` and `end_op`; those that only read
may also run outside an operation, as in `fileread` and `filestat`.  The system calls of `sysfile.c` are sequences of such
calls.  One step of `FsSys` is a section under `bcache.lock` or `log.lock`, a transfer to or from the disk, or an access to
the data of a buffer whose sleep lock the process holds.
-/

namespace Xv6

/-- The device of the root file system. -/
def ROOTDEV : UInt32 := 1

/-- Where a process is: before a step of its code; in `bread`, with a reference to buffer `i`, before and after it has taken
the sleep lock; in `brelse`, after it has released it. -/
inductive FsSt
  | run (p : Prog Unit)
  | wait (i : Fin NBUF) (k : Fin NBUF → Prog Unit)
  | fill (i : Fin NBUF) (k : Fin NBUF → Prog Unit)
  | rel (i : Fin NBUF) (k : Prog Unit)

/-- Outside an operation, in one, or in the `commit` at its end. -/
inductive FsOp
  | out | inOp | commit
  deriving DecidableEq

structure FsTh where
  st : FsSt
  op : FsOp

/-- The buffer cache, the log and the disk, the holders of the sleep locks of the buffers, and the processes. -/
structure FsSys (P : Type) where
  io : Store
  lock : Fin NBUF → Option P
  th : P → FsTh

/-- A call of a function of `fs.c`. -/
inductive FsCall
  | ialloc (type : UInt16)
  | iupdate (ip : Inode)
  | ilock (inum : UInt32)
  | itrunc (ip : Inode)
  | readi (ip : Inode) (off n : UInt32)
  | writei (ip : Inode) (off n : UInt32)

namespace FsCall

def prog (sb : Superblock) : FsCall → Prog Unit
  | ialloc type => (Fs.ialloc sb type).bind fun _ => .pure ()
  | iupdate ip => Fs.iupdate sb ip
  | ilock inum => (Fs.ilock sb inum).bind fun _ => .pure ()
  | itrunc ip => (Fs.itrunc sb ip).bind fun _ => .pure ()
  | readi ip off n => (Fs.readi sb ip off n).bind fun _ => .pure ()
  | writei ip off n => (Fs.writei sb ip off n).bind fun _ => .pure ()

/-- The call is also made outside an operation. -/
def reads : FsCall → Bool
  | ilock _ | readi .. => true
  | _ => false

end FsCall

inductive FsEv (P : Type)
  | beginOp (t : P)
  | call (t : P) (c : FsCall)
  | next (t : P)
  -- the bytes that `either_copyin` stores; it fails if they are not all that were asked for
  | copyin (t : P) (src : List UInt8)
  | copyout (t : P) (ok : Bool)
  | endOp (t : P)
  -- the end of `end_op` after `commit`
  | finish (t : P)

/-- The first bytes at offset `off` of a block are replaced by `src`. -/
def overwrite (d : Block) (off : Nat) (src : List UInt8) : Block := fun k =>
  if off ≤ k.val then src.getD (k.val - off) (d k) else d k

namespace FsSys

variable {P : Type} [DecidableEq P] (s : FsSys P)

def goto (t : P) (x : FsSt) : FsSys P := { s with th := Function.update s.th t { s.th t with st := x } }

def setTh (t : P) (x : FsTh) : FsSys P := { s with th := Function.update s.th t x }

/-- A call of `bio.c` or `log.c`, after which `t` is at `x`. -/
def lift {α : Type} (t : P) (m : Io α) (x : α → FsSt) : Except String (FsSys P) :=
  match m s.io with
  | .ok a io => .ok ({ s with io := io }.goto t (x a))
  | .error msg _ => .error msg

/-- The next step of `t`, whose code is `p`. -/
def exec (t : P) : Prog Unit → Option (Except String (FsSys P))
  | .pure _ | .copyin .. | .copyout .. => none
  | .panic msg => some (.error msg)
  | .bread b k => some (s.lift t (bget ROOTDEV b) (.wait · k))
  | .data i k => some (.ok (s.goto t (.run (k (s.io.buf i).data))))
  | .store i d k => some (s.lift t (setData i d) fun _ => .run k)
  | .logWrite i k => some (s.lift t (Xv6.logWrite i) fun _ => .run k)
  | .bwrite i k =>
    if s.lock i = some t then some (s.lift t (Xv6.bwrite i) fun _ => .run k) else some (.error "bwrite")
  | .brelse i k =>
    if s.lock i = some t then some (.ok ({ s with lock := Function.update s.lock i none }.goto t (.rel i k)))
    else some (.error "brelse")
  | .bunpin i k => some (s.lift t (Xv6.bunpin i) fun _ => .run k)
  | .readLog k => some (.ok (s.goto t (.run (k s.io.log))))
  | .clearHead k => some (s.lift t clearHeader fun _ => .run k)

/-- `virtio_disk_rw(b, 0); b->valid = 1`, unless `b` is valid. -/
def fillBuf (i : Fin NBUF) : Store :=
  if (s.io.buf i).valid then s.io
  else s.io.setBuf i { s.io.buf i with data := s.io.disk (s.io.buf i).blockno, valid := true }

def next (t : P) : Option (Except String (FsSys P)) :=
  match (s.th t).st with
  | .run p => s.exec t p
  | .wait i k =>
    if s.lock i = none then some (.ok ({ s with lock := Function.update s.lock i (some t) }.goto t (.fill i k))) else none
  | .fill i k => some (.ok ({ s with io := s.fillBuf i }.goto t (.run (k i))))
  | .rel i k => some (.ok ({ s with io := s.io.release i }.goto t (.run k)))

/-- Process `t` is between two calls. -/
def Idle (t : P) : Bool :=
  match (s.th t).st with
  | .run (.pure _) => true
  | _ => false

def step (sb : Superblock) : FsEv P → Option (Except String (FsSys P))
  | .beginOp t =>
    if s.Idle t ∧ (s.th t).op = .out then
      match s.io.log.beginOp with
      | none => none
      | some lg => some (.ok ({ s with io := { s.io with log := lg } }.setTh t { s.th t with op := .inOp }))
    else none
  | .call t c =>
    if s.Idle t ∧ ((s.th t).op = .inOp ∨ (s.th t).op = .out ∧ c.reads) then some (.ok (s.goto t (.run (c.prog sb)))) else none
  | .next t => s.next t
  | .copyin t src =>
    match (s.th t).st with
    | .run (.copyin i off m k) =>
      if src.length ≤ m then
        let b := s.io.buf i
        some (.ok ({ s with io := s.io.setBuf i { b with data := overwrite b.data off src } }.goto t (.run (k (src.length = m)))))
      else none
    | _ => none
  | .copyout t ok =>
    match (s.th t).st with
    | .run (.copyout _ _ _ k) => some (.ok (s.goto t (.run (k ok))))
    | _ => none
  | .endOp t =>
    if s.Idle t ∧ (s.th t).op = .inOp then
      match s.io.log.endOp with
      | .error msg => some (.error msg)
      | .ok (lg, doCommit) =>
        let s := { s with io := { s.io with log := lg } }
        some (.ok (s.setTh t (if doCommit then ⟨.run Fs.commit, .commit⟩ else { s.th t with op := .out })))
    else none
  | .finish t =>
    if s.Idle t ∧ (s.th t).op = .commit then
      some (.ok ({ s with io := { s.io with log := { s.io.log with committing := false } } }.setTh t { s.th t with op := .out }))
    else none

/-- The state that `fsinit` leaves: nobody uses a buffer, valid buffers have the data of their block, and the log is empty. -/
structure Init (s : FsSys P) : Prop where
  th : ∀ t, s.th t = ⟨.run (.pure ()), .out⟩
  lock : ∀ i, s.lock i = none
  lh : s.io.log.lh = []
  outstanding : s.io.log.outstanding = 0
  committing : s.io.log.committing = false
  lru : ∀ i, i ∈ s.io.lru
  dev : ∀ i, (s.io.buf i).valid = true → (s.io.buf i).dev = ROOTDEV
  unique : ∀ i j, (s.io.buf i).dev = ROOTDEV → (s.io.buf j).dev = ROOTDEV → (s.io.buf i).blockno = (s.io.buf j).blockno → i = j
  data : ∀ i, (s.io.buf i).valid = true → (s.io.buf i).data = s.io.disk (s.io.buf i).blockno

end FsSys

/-- The runs of the processes `P` on the file system `sb`. -/
def fsLts (P : Type) [DecidableEq P] (sb : Superblock) : Lts (FsSys P) (FsEv P) :=
  .ofFun FsSys.Init fun s e => s.step sb e

end Xv6
