import Mathlib.Data.Fintype.Option
import Mathlib.Logic.Function.Basic
import Xv6.Lib.Lts
import Xv6.Param

/-!
# Processes and containers

The tables of `proc.c` and the points at which a kernel thread can be.  A step of the system is one lock-protected
section of the source; `Pc` names the points between two sections.  Who holds a `p->lock`, `wait_lock` or the spin lock
of a sleep lock follows from the points the threads are at (`Th.plock`, `Th.waits`, `Th.spin`); the other locks are
taken and released within one section.
-/

namespace Xv6

abbrev Slot := Fin NPROC

abbrev ContId := Fin NCONT

/-- A kernel thread: that of a process, or `main` while the machine boots. -/
abbrev Thread := Option Slot

/-- `enum procstate`. -/
inductive ProcState
  | unused | used | sleeping | runnable | running | zombie
  deriving DecidableEq, Repr

/-- The addresses that processes sleep on: a process, a sleep lock, or anything else. -/
inductive Chan (L : Type)
  | proc (p : Slot)
  | lock (l : L)
  | other (n : Nat)
  deriving DecidableEq

/-- The fields of `struct proc` that the scheduling code uses. -/
structure Proc (L : Type) where
  state : ProcState
  chan : Option (Chan L)
  killed : Bool
  xstate : Int
  pid : Int
  parent : Option Slot
  contp : Option ContId

/-- The fields of `struct cont` that the scheduling code uses.  `nextpid` is the value of the `int` without wrap-around. -/
structure Cont where
  used : Bool
  nextpid : Nat
  procList : List Slot
  runList : List Slot
  rootdir : Option Inum

/-- What became of the root directory of a container since `alloccont`: the inode that `namei` returned, the arguments
of `iput`, and whether `cfork` has returned a pid. -/
structure ContHist where
  root : Option Inum
  puts : List Inum
  done : Bool

/-- The `struct cpu` of a hart: in the scheduler, about to switch to a process taken off a run list, or running it. -/
inductive Cpu
  | idle
  | popped (p : Slot)
  | running (p : Slot)
  deriving DecidableEq

structure SleepLock where
  locked : Bool
  pid : Int

/-- The points between two sections of the code of a process.  `c` is the container of a `fork`, `fresh` says that it is
the one that `cfork` made, and `np` is the new process. -/
inductive Pc (L : Type)
  -- user code, or kernel code that is not modelled
  | run
  -- `alloccont` is called
  | contAlloc (name : List UInt8) (root : Inum)
  -- `c` is off `cont_unused_list`
  | contPopped (c : ContId) (name : List UInt8) (root : Inum)
  -- `alloccont` has returned `c`
  | contMade (c : ContId)
  -- `allocproc` is called
  | alloc (c : ContId) (fresh : Bool)
  -- `np` is off `unused_list`
  | popped (c : ContId) (fresh : Bool) (np : Slot)
  -- `np->lock` is held
  | locked (c : ContId) (fresh : Bool) (np : Slot)
  -- `np` has a pid, is `USED` and points to `c`
  | made (c : ContId) (fresh : Bool) (np : Slot)
  -- `np` is on `c->proc_list`: `allocproc` has returned it
  | listed (c : ContId) (fresh : Bool) (np : Slot)
  -- memory and files are copied, `np->lock` is free
  | copied (c : ContId) (fresh : Bool) (np : Slot)
  -- `np->parent` is set
  | adopted (c : ContId) (fresh : Bool) (np : Slot)
  -- `np` is `RUNNABLE`
  | ready (c : ContId) (fresh : Bool) (np : Slot)
  -- the files are closed
  | exitCount (status : Int)
  -- `nprocs == 1`
  | exitIput (status : Int)
  | exitLock (status : Int)
  -- `reparent` is at slot `i`
  | reparent (status : Int) (i : Nat)
  -- the parent is woken up
  | exitLast (status : Int)
  -- after the last `sched`
  | dead
  | waitLock (addr : Nat)
  -- `wait` is at slot `i`
  | scan (addr : Nat) (i : Nat) (havekids : Bool)
  -- the scan has found children, and no zombie
  | waitKilled (addr : Nat)
  | waitSleep (addr : Nat)
  -- `freeproc(q)`, called by `wait` (which will return `pid`) or by `fork`: `q` is on `unused_list`
  | freed (q : Slot) (wait : Option Int)
  -- `q` was the last one on its `proc_list`
  | unlisted (q : Slot) (wait : Option Int)
  -- the container of `q` is off `cont_run_list`
  | contOff (q : Slot) (wait : Option Int)
  -- before `p->contp = 0`
  | unlinked (q : Slot) (wait : Option Int)
  -- `kill` is at slot `i`
  | kill (pid : Int) (i : Nat)
  -- `q` is `RUNNABLE`
  | killPush (q : Slot)
  | acquiresleep (l : L)
  -- `releasesleep` after its `wakeup`
  | releasesleep (l : L)

/-- A `wakeup` in progress: at slot `i` of the table, or with a process that it has made `RUNNABLE`. -/
inductive Wake (L : Type)
  | loop (chan : Option (Chan L)) (i : Nat)
  | push (chan : Option (Chan L)) (q : Slot)

/-- How a process leaves its hart: `yield` has made it `RUNNABLE`; `sched` is called; it has been switched out.  `asleep`
says that it will return to `sleep`. -/
inductive Sw
  | run
  | push
  | sched (asleep : Bool)
  | off (asleep : Bool)
  deriving DecidableEq

/-- A kernel thread: its point, the `wakeup` and the `yield` or `sleep` it is in, what its last system call returned
and copied out, and the containers whose lock it never releases. -/
structure Th (L : Type) where
  pc : Pc L
  wake : Option (Wake L)
  sw : Sw
  a0 : Int
  status : Option Int
  kept : List ContId

/-- The state of the process and container tables, the harts and the kernel threads. -/
structure Sys (L : Type) where
  proc : Slot → Proc L
  cont : ContId → Cont
  unused : List Slot
  contUnused : List ContId
  contRun : List ContId
  initproc : Option Slot
  cpu : Fin NCPU → Cpu
  th : Thread → Th L
  lock : L → SleepLock
  -- history: who returned last from `acquiresleep` and has not called `releasesleep`
  holder : L → Option Slot
  hist : ContId → ContHist

def contRoot : ContId := ⟨0, by decide⟩

/-- The value of a counter as an `int`. -/
def asInt (n : Nat) : Int := (n : Int).bmod (2 ^ 32)

/-- `strncmp("root", cname, 4) == 0`. -/
def isRoot (name : List UInt8) : Bool := name.take 4 == [0x72, 0x6f, 0x6f, 0x74]

variable {L : Type}

/-! ### Locks -/

/-- The slot whose `lock` is held at this point. -/
def Pc.plock : Pc L → Option Slot
  | locked _ _ q | made _ _ q | listed _ _ q => some q
  | freed q _ | unlisted q _ | contOff q _ | unlinked q _ => some q
  | killPush q => some q
  | _ => none

/-- `wait_lock` is held at this point. -/
def Pc.waits : Pc L → Bool
  | reparent .. | exitLast .. | scan .. | waitKilled .. | waitSleep .. => true
  | freed _ w | unlisted _ w | contOff _ w | unlinked _ w => w.isSome
  | _ => false

/-- The slot whose `lock` thread `t` holds. -/
def Th.plock (x : Th L) (t : Thread) : Option Slot :=
  match x.sw, x.wake with
  | .push, _ | .sched _, _ => t
  | _, some (.push _ q) => some q
  | _, _ => x.pc.plock

def Th.waits (x : Th L) : Bool := x.pc.waits

/-- The sleep lock whose spin lock is held. -/
def Th.spin (x : Th L) : Option L :=
  match x.pc with
  | .releasesleep l => some l
  | _ => none

namespace Sys

variable (s : Sys L)

/-- `q->lock` is free. -/
def PFree (q : Slot) : Prop := ∀ t, (s.th t).plock t ≠ some q

instance (q : Slot) : Decidable (s.PFree q) := inferInstanceAs (Decidable (∀ _, _))

/-- `wait_lock` is free. -/
def WaitFree : Prop := ∀ t, (s.th t).waits = false

instance : Decidable s.WaitFree := inferInstanceAs (Decidable (∀ _, _))

/-- The spin lock of the sleep lock `l` is free. -/
def SpinFree (l : L) : Prop := ∀ t, (s.th t).spin ≠ some l

instance [DecidableEq L] (l : L) : Decidable (s.SpinFree l) := inferInstanceAs (Decidable (∀ _, _))

def OnCpu (p : Slot) : Prop := ∃ k, s.cpu k = .running p

instance (p : Slot) : Decidable (s.OnCpu p) := inferInstanceAs (Decidable (∃ _, _))

/-! ### Updates -/

def setTh (t : Thread) (x : Th L) : Sys L := { s with th := Function.update s.th t x }

/-- Thread `t` moves to another point. -/
def goto (t : Thread) (pc : Pc L) : Sys L := s.setTh t { s.th t with pc := pc }

/-- The system call of thread `t` returns. -/
def ret (t : Thread) (a0 : Int) : Sys L := s.setTh t { s.th t with pc := .run, a0 := a0 }

def setProc (q : Slot) (p : Proc L) : Sys L := { s with proc := Function.update s.proc q p }

def setState (q : Slot) (x : ProcState) : Sys L := s.setProc q { s.proc q with state := x }

def setCont (c : ContId) (x : Cont) : Sys L := { s with cont := Function.update s.cont c x }

def setHist (c : ContId) (x : ContHist) : Sys L := { s with hist := Function.update s.hist c x }

def setLock [DecidableEq L] (l : L) (x : SleepLock) (p : Option Slot) : Sys L :=
  { s with lock := Function.update s.lock l x, holder := Function.update s.holder l p }

end Sys

end Xv6
