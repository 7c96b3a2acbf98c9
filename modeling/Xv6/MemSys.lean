import Mathlib.Data.Finset.Basic
import Mathlib.Order.Interval.Finset.Nat
import Xv6.Lib.Lts
import Xv6.MemCalls

/-!
# Processes that share the physical pages

The state has the free list of `kalloc.c`, the file table, the pipes and the process table.  Each process runs system calls, with
any arguments, and the operations of the calls of different processes come in any order.  The run starts after `userinit`.
-/

namespace Xv6

open Function (update)

/-- `struct file`: the end of a pipe has `pipe`, a file of the type `FD_INODE` or `FD_DEVICE` has `inode`. -/
structure File where
  ref : Nat := 0
  pipe : Option (Page × Bool) := none
  inode : Bool := false
  deriving DecidableEq

structure PipeEnds where
  readopen : Bool := true
  writeopen : Bool := true
  deriving DecidableEq

/-- `live` stands for `RUNNABLE`, `RUNNING` and `SLEEPING` outside a system call, `incall` for inside one. -/
inductive MemSt
  | unused | used | live | incall | zombie
  deriving DecidableEq

structure MemSlot where
  st : MemSt := .unused
  im : Img := {}
  parent : Option (Fin NPROC) := none

structure Kernel where
  free : List Page
  file : Fin NFILE → File
  pipe : Page → Option PipeEnds
  slot : Fin NPROC → MemSlot
  unused : List (Fin NPROC)
  initproc : Fin NPROC

/-- The end of the kernel image, and the pages that the kernel takes at boot for itself.  The code of the calls takes the page of the
trampoline from it. -/
class Layout extends KernelText where
  kend : Nat
  kend_ge : KERNBASE ≤ kend
  boot : Finset Page

/-- The range of the allocator: the pages that `freerange` frees. -/
def Layout.pages (L : Layout) : Finset Page := Finset.Ico ((L.kend + PGSIZE - 1) / PGSIZE) (PHYSTOP / PGSIZE)

namespace Kernel

def setFile (k : Kernel) (f : Fin NFILE) (x : File) : Kernel := { k with file := update k.file f x }

def setPipe (k : Kernel) (pi : Page) (x : Option PipeEnds) : Kernel := { k with pipe := update k.pipe pi x }

def setSlot (k : Kernel) (q : Fin NPROC) (x : MemSlot) : Kernel := { k with slot := update k.slot q x }

/-- `pi->writeopen = 0` or `pi->readopen = 0`. -/
def closeEnd (x : PipeEnds) (writable : Bool) : PipeEnds :=
  if writable then { x with writeopen := false } else { x with readopen := false }

/-- `q` is a child of `p`, and maybe a zombie one. -/
def isChild (k : Kernel) (p : Fin NPROC) (zombie : Bool) (q : Fin NPROC) : Bool :=
  (k.slot q).parent = some p && (!zombie || (k.slot q).st = .zombie)

/-- One operation; `none` if it has to wait.  `killed` is the flag of the calling process. -/
def exec (L : Layout) (killed : Bool) (k : Kernel) : (o : MemOp) → Option (Except String (o.Ans × Kernel))
  | .kalloc =>
    match k.free with
    | [] => some (.ok (none, k))
    | page :: pages => some (.ok (some page, { k with free := pages }))
  | .kfree page =>
    if page * PGSIZE < L.kend ∨ PHYSTOP ≤ page * PGSIZE then some (.error "kfree")
    else some (.ok ((), { k with free := page :: k.free }))
  | .filealloc =>
    match (List.finRange NFILE).find? fun f => (k.file f).ref = 0 with
    | none => some (.ok (none, k))
    | some f => some (.ok (some f, k.setFile f { k.file f with ref := 1 }))
  | .filedup f =>
    if (k.file f).ref < 1 then some (.error "filedup")
    else some (.ok ((), k.setFile f { k.file f with ref := (k.file f).ref + 1 }))
  | .fileput f =>
    if (k.file f).ref < 1 then some (.error "fileclose")
    else if (k.file f).ref > 1 then some (.ok (none, k.setFile f { k.file f with ref := (k.file f).ref - 1 }))
    else some (.ok ((k.file f).pipe, k.setFile f {}))
  | .fileopen f => some (.ok ((), k.setFile f { k.file f with inode := true }))
  | .pipeinit f0 f1 pi =>
    let k := k.setFile f0 { k.file f0 with pipe := some (pi, false) }
    let k := k.setFile f1 { k.file f1 with pipe := some (pi, true) }
    some (.ok ((), k.setPipe pi (some {})))
  | .pipeclose pi writable =>
    match k.pipe pi with
    | none => some (.error "pipeclose: freed pipe")
    | some x =>
      let x := closeEnd x writable
      if !x.readopen && !x.writeopen then some (.ok (true, k.setPipe pi none)) else some (.ok (false, k.setPipe pi (some x)))
  | .slotalloc =>
    match k.unused with
    | [] => some (.ok (none, k))
    | q :: qs => some (.ok (some (q, (k.slot q).im), { k.setSlot q { k.slot q with st := .used } with unused := qs }))
  | .slotfree q im => some (.ok ((), { k.setSlot q ⟨.unused, im, none⟩ with unused := k.unused ++ [q] }))
  | .publish q im parent => some (.ok ((), k.setSlot q ⟨.live, im, parent⟩))
  | .reap p copied =>
    match (List.finRange NPROC).find? (k.isChild p true) with
    | some q =>
      if copied then some (.ok (some (q, (k.slot q).im), k.setSlot q { k.slot q with st := .used })) else some (.ok (none, k))
    | none => if !(List.finRange NPROC).any (k.isChild p false) || killed then some (.ok (none, k)) else none

/-- The operations of `p` one after the other, up to its end. -/
def run {α : Type} (L : Layout) : Mem α → Kernel → Option (α × Kernel)
  | .ret a, k => some (a, k)
  | .panic _, _ => none
  | .call o f, k =>
    match k.exec L false o with
    | some (.ok (x, k)) => run L (f x) k
    | _ => none

/-- `reparent(p)`, and `p` becomes a zombie. -/
def exited (k : Kernel) (p : Fin NPROC) (im : Img) : Kernel :=
  let k := { k with slot := fun q => { k.slot q with parent := if (k.slot q).parent = some p then some k.initproc else (k.slot q).parent } }
  k.setSlot p { k.slot p with st := .zombie, im }

/-- The kernel before `userinit`. -/
structure Fresh (L : Layout) (k : Kernel) : Prop where
  free : (k.free : Multiset Page) + L.boot.val = L.pages.val
  file : ∀ f, k.file f = {}
  pipe : ∀ pi, k.pipe pi = none
  slot : ∀ q, k.slot q = {}
  unused : k.unused = List.finRange NPROC

end Kernel

inductive MemCall
  | fork
  | cfork (contp : Option Nat)
  | exec (a : Mem.ExecArgs)
  | sbrk (n : Int)
  | openFile (found : Bool)
  | dup (fd : Int)
  | pipe (fdarray : Nat)
  | close (fd : Int)
  | exit
  | wait (addr : Nat)

def MemCall.code [KernelText] (p initproc : Fin NPROC) (im : Img) : MemCall → Mem Outcome
  | fork => Mem.fork p im im.contp
  | cfork contp => Mem.cfork p im contp
  | exec a => Mem.sysExec im a
  | sbrk n => Mem.growproc im n
  | openFile found => Mem.sysOpen im found
  | dup fd => Mem.sysDup im fd
  | pipe fdarray => Mem.sysPipe im fdarray
  | close fd => Mem.sysClose im fd
  | exit => Mem.exit p initproc im
  | wait addr => Mem.wait p im addr

inductive MemEv
  | call (p : Fin NPROC) (c : MemCall)
  | next (p : Fin NPROC) (killed : Bool)
  | done (p : Fin NPROC)

/-- The kernel, and the code that is left of the call of each process. -/
structure MemSys where
  k : Kernel
  th : Fin NPROC → Option (Mem Outcome)

namespace MemSys

variable (s : MemSys)

def next (L : Layout) (p : Fin NPROC) (killed : Bool) : Mem Outcome → Option (Except String MemSys)
  | .ret _ => none
  | .panic msg => some (.error msg)
  | .call o f =>
    match s.k.exec L killed o with
    | none => none
    | some (.error msg) => some (.error msg)
    | some (.ok (x, k)) => some (.ok ⟨k, update s.th p (some (f x))⟩)

def done (p : Fin NPROC) (r : Outcome) : MemSys where
  k := if r.exited then s.k.exited p r.im else s.k.setSlot p { s.k.slot p with st := .live, im := r.im }
  th := update s.th p none

def step (L : Layout) : MemEv → Option (Except String MemSys)
  | .call p c =>
    if (s.k.slot p).st = .live then
      some (.ok ⟨s.k.setSlot p { s.k.slot p with st := .incall }, update s.th p (some (c.code p s.k.initproc (s.k.slot p).im))⟩)
    else none
  | .next p killed =>
    match s.th p with
    | some c => s.next L p killed c
    | none => none
  | .done p =>
    match s.th p with
    | some (.ret r) => some (.ok (s.done p r))
    | _ => none

/-- The state after `userinit`, for which there was memory. -/
def Init (L : Layout) (s : MemSys) : Prop :=
  ∃ k contRoot q k', k.Fresh L ∧ Kernel.run L (Mem.userinit contRoot) k = some (some q, k') ∧
    s = ⟨{ k' with initproc := q }, fun _ => none⟩

end MemSys

def memLts (L : Layout) : Lts MemSys MemEv := .ofFun (MemSys.Init L) fun s e => s.step L e

end Xv6
