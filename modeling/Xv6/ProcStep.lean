import Xv6.Proc

/-!
# The sections of `proc.c`

Each definition is one section of the source function it is named after, run by thread `t`.  The outcome is `none` while
a lock that the section needs is held by another thread, and an error for a panic; a null pointer that the kernel
follows ends in the panic of `kerneltrap`.

The source's `scheduler` serves the run list of `cont_root` only; here it serves the run list of any container, so that
a process of any container may be the one that runs.
-/

namespace Xv6

variable {L : Type}

/-- The outcome of a section. -/
abbrev Out (L : Type) := Option (Except String (Sys L))

def ok (s : Sys L) : Out L := some (.ok s)

def panic (msg : String) : Out L := some (.error msg)

/-- A section that begins with `acquire`. -/
def whenFree (c : Prop) [Decidable c] (out : Out L) : Out L := if c then out else none

namespace Sys

variable (s : Sys L) (t : Thread)

/-! ### `alloccont` and `cfork` -/

def alloccontPop (name : List UInt8) (root : Inum) : Out L :=
  match s.contUnused with
  | [] => ok (s.ret t (-1))
  | c :: rest => ok ({ s with contUnused := rest }.goto t (.contPopped c name root))

/-- The part of `alloccont` under `c->lock`; `root` is what `namei` returned. -/
def alloccontInit (c : ContId) (name : List UInt8) (root : Option Inum) : Sys L :=
  let rootdir := if isRoot name then (s.cont c).rootdir else root
  (s.setCont c { used := true, nextpid := 1, procList := [], runList := [], rootdir := rootdir }).setHist c
    ⟨if isRoot name then none else root, [], false⟩

def cforkPush (c : ContId) : Out L := ok ({ s with contRun := s.contRun ++ [c] }.goto t (.alloc c true))

/-! ### `allocproc`, `fork` and `userinit` -/

def allocprocPop (c : ContId) (fresh : Bool) : Out L :=
  match s.unused, t with
  | [], some _ => ok (s.ret t (-1))
  -- `userinit` does not test the result
  | [], none => panic "kerneltrap"
  | np :: rest, _ => ok ({ s with unused := rest }.goto t (.popped c fresh np))

def allocprocLock (c : ContId) (fresh : Bool) (np : Slot) : Out L :=
  whenFree (s.PFree np) (ok (s.goto t (.locked c fresh np)))

/-- A new kernel thread, at `forkret`. -/
def forkret : Th L := { pc := .run, wake := none, sw := .off false, a0 := 0, status := none, kept := [] }

/-- `allocpid` and what `allocproc` sets in the new process. -/
def allocprocInit (c : ContId) (fresh : Bool) (np : Slot) : Out L :=
  let n := (s.cont c).nextpid
  let s := s.setCont c { s.cont c with nextpid := n + 1 }
  let s := s.setProc np { s.proc np with pid := asInt n, state := .used, contp := some c }
  ok ((s.setTh (some np) forkret).goto t (.made c fresh np))

def allocprocList (c : ContId) (fresh : Bool) (np : Slot) : Out L :=
  ok ((s.setCont c { s.cont c with procList := (s.cont c).procList ++ [np] }).goto t (.listed c fresh np))

/-- After `allocproc`: `fork` copies the parent, `userinit` makes the first process `RUNNABLE`. -/
def forkCopy (c : ContId) (fresh : Bool) (np : Slot) : Out L :=
  match t with
  | some _ => ok (s.goto t (.copied c fresh np))
  | none => ok (({ s with initproc := some np }.setState np .runnable).goto t (.ready c fresh np))

def forkParent (c : ContId) (fresh : Bool) (np : Slot) : Out L :=
  whenFree s.WaitFree (ok ((s.setProc np { s.proc np with parent := t }).goto t (.adopted c fresh np)))

def forkRunnable (c : ContId) (fresh : Bool) (np : Slot) : Out L :=
  whenFree (s.PFree np) (ok ((s.setState np .runnable).goto t (.ready c fresh np)))

/-- `list_push_back(&c->run_list, &q->elem)`. -/
def runPush (c : ContId) (q : Slot) : Sys L :=
  s.setCont c { s.cont c with runList := (s.cont c).runList ++ [q] }

def forkPush (c : ContId) (fresh : Bool) (np : Slot) : Out L :=
  let s := s.setHist c { s.hist c with done := fresh || (s.hist c).done }
  ok ((s.runPush c np).ret t (s.proc np).pid)

/-! ### `freeproc` -/

/-- The part of `freeproc` up to the push to `unused_list`. -/
def freeprocReset (q : Slot) : Sys L :=
  { s.setProc q { s.proc q with state := .unused, chan := none, killed := false, xstate := 0, pid := 0, parent := none }
    with unused := s.unused ++ [q] }

def freeprocUnlist (q : Slot) (w : Option Int) : Out L :=
  match (s.proc q).contp with
  | none => panic "kerneltrap"
  | some c =>
    let ps := (s.cont c).procList.erase q
    let s := s.setCont c { s.cont c with procList := ps }
    ok (s.goto t (if ps = [] then .unlisted q w else .unlinked q w))

def freeprocContOff (q : Slot) (w : Option Int) : Out L :=
  match (s.proc q).contp with
  | none => panic "kerneltrap"
  | some c => ok ({ s with contRun := s.contRun.erase c }.goto t (.contOff q w))

/-- `freecont` and the push to `cont_unused_list`. -/
def freecont (q : Slot) (w : Option Int) : Out L :=
  match (s.proc q).contp with
  | none => panic "kerneltrap"
  | some c =>
    let s := s.setCont c { s.cont c with used := false, nextpid := 1, rootdir := none }
    ok ({ s with contUnused := s.contUnused ++ [c] }.goto t (.unlinked q w))

/-- `p->contp = 0`; `wait` returns the pid, `fork` returns -1. -/
def freeprocUnlink (q : Slot) (w : Option Int) : Out L :=
  ok ((s.setProc q { s.proc q with contp := none }).ret t (w.getD (-1)))

/-! ### `exit` and `reparent` -/

/-- The address of a process, as a channel. -/
def chanOf (p : Option Slot) : Option (Chan L) := p.map .proc

/-- Thread `t` calls `wakeup` and then continues at `pc`. -/
def callWakeup (chan : Option (Chan L)) (pc : Pc L) : Sys L :=
  s.setTh t { s.th t with pc := pc, wake := some (.loop chan 0) }

def exitCount (p : Slot) (status : Int) : Out L :=
  match (s.proc p).contp with
  | none => panic "kerneltrap"
  | some c => ok (s.goto (some p) (if (s.cont c).procList.length = 1 then .exitIput status else .exitLock status))

def exitIput (p : Slot) (status : Int) : Out L :=
  match (s.proc p).contp with
  | none => panic "kerneltrap"
  | some c =>
    match (s.cont c).rootdir with
    | none => panic "kerneltrap"
    | some i =>
      ok ((s.setHist c { s.hist c with puts := (s.hist c).puts ++ [i] }).goto (some p) (.exitLock status))

def exitLock (p : Slot) (status : Int) : Out L :=
  whenFree s.WaitFree (ok (s.goto (some p) (.reparent status 0)))

/-- What `reparent` makes of an abandoned child. -/
def orphan (x : Proc L) : Proc L :=
  { x with parent := s.initproc, pid := if x.contp ≠ some contRoot then -2 else x.pid }

/-- One round of the loop of `reparent`, or the `wakeup` of the parent after it. -/
def reparent (p : Slot) (status : Int) (i : Nat) : Out L :=
  if h : i < NPROC then
    let pp : Slot := ⟨i, h⟩
    if (s.proc pp).parent = some p then
      let s := s.setProc pp (s.orphan (s.proc pp))
      ok (s.callWakeup (some p) (chanOf s.initproc) (.reparent status (i + 1)))
    else ok (s.goto (some p) (.reparent status (i + 1)))
  else ok (s.callWakeup (some p) (chanOf (s.proc p).parent) (.exitLast status))

def exitLast (p : Slot) (status : Int) : Out L :=
  whenFree (s.PFree p) (ok ((s.setProc p { s.proc p with xstate := status, state := .zombie }).setTh (some p)
    { s.th (some p) with pc := .dead, sw := .sched false }))

/-! ### `sleep`, `wakeup`, `yield` and `sched` -/

/-- `sleep`, from the acquisition of `p->lock` to the call of `sched`; `pc` is the point it returns to. -/
def sleep (p : Slot) (chan : Chan L) (pc : Pc L) : Out L :=
  whenFree (s.PFree p) (ok ((s.setProc p { s.proc p with chan := some chan, state := .sleeping }).setTh (some p)
    { s.th (some p) with pc := pc, sw := .sched true }))

/-- One round of the loop of `wakeup`. -/
def wakeupLoop [DecidableEq L] (chan : Option (Chan L)) (i : Nat) : Out L :=
  if h : i < NPROC then
    let q : Slot := ⟨i, h⟩
    let next := s.setTh t { s.th t with wake := some (.loop chan (i + 1)) }
    if t = some q then ok next
    else whenFree (s.PFree q)
      (if (s.proc q).state = .sleeping ∧ (s.proc q).chan = chan then
        ok ((s.setState q .runnable).setTh t { s.th t with wake := some (.push chan q) })
      else ok next)
  else ok (s.setTh t { s.th t with wake := none })

def wakeupPush (chan : Option (Chan L)) (q : Slot) : Out L :=
  match (s.proc q).contp with
  | none => panic "kerneltrap"
  | some c => ok ((s.runPush c q).setTh t { s.th t with wake := some (.loop chan (q.val + 1)) })

/-- The first section of `yield`, on a timer interrupt. -/
def yield (p : Slot) : Out L :=
  whenFree (s.PFree p) (ok ((s.setState p .runnable).setTh (some p) { s.th (some p) with sw := .push }))

def yieldPush (p : Slot) : Out L :=
  match (s.proc p).contp with
  | none => panic "kerneltrap"
  | some c => ok ((s.runPush c p).setTh (some p) { s.th (some p) with sw := .sched false })

/-- `sched`, and the scheduler's release of `p->lock`. -/
def sched (p : Slot) (asleep : Bool) : Out L :=
  if (s.th (some p)).kept ≠ [] then panic "sched locks"
  else if (s.proc p).state = .running then panic "sched running"
  else ok ({ s with cpu := fun k => if s.cpu k = Cpu.running p then .idle else s.cpu k }.setTh (some p)
    { s.th (some p) with sw := .off asleep })

/-! ### `scheduler` -/

/-- Take the first process off the run list of `c`. -/
def schedulerPop (k : Fin NCPU) (c : ContId) : Out L :=
  match s.cpu k, (s.cont c).runList with
  | .idle, p :: rest =>
    ok { s.setCont c { s.cont c with runList := rest } with cpu := Function.update s.cpu k (.popped p) }
  | _, _ => none

/-- Switch to the process, which releases `p->lock`; if it was in `sleep` it clears `p->chan` first. -/
def schedulerRun (k : Fin NCPU) : Out L :=
  match s.cpu k with
  | .popped p =>
    whenFree (s.PFree p)
      (if (s.proc p).state ≠ .runnable then panic "ASSERT(p->state == RUNNABLE)"
      else
        let chan := if (s.th (some p)).sw = .off true then none else (s.proc p).chan
        let s := s.setProc p { s.proc p with state := .running, chan := chan }
        ok ({ s with cpu := Function.update s.cpu k (.running p) }.setTh (some p) { s.th (some p) with sw := .run }))
  | _ => none

/-! ### `wait` and `kill` -/

def waitLock (p : Slot) (addr : Nat) : Out L := whenFree s.WaitFree (ok (s.goto (some p) (.scan addr 0 false)))

/-- One round of the scan of `wait`, or the test after it.  A zombie that is found is freed. -/
def scan (p : Slot) (addr i : Nat) (havekids : Bool) : Out L :=
  if h : i < NPROC then
    let pp : Slot := ⟨i, h⟩
    if (s.proc pp).parent = some p then
      whenFree (s.PFree pp)
        (if (s.proc pp).state = .zombie then
          let status := if addr ≠ 0 then some (s.proc pp).xstate else none
          let pid := (s.proc pp).pid
          ok ((s.freeprocReset pp).setTh (some p) { s.th (some p) with pc := .freed pp (some pid), status := status })
        else ok (s.goto (some p) (.scan addr (i + 1) true)))
    else ok (s.goto (some p) (.scan addr (i + 1) havekids))
  else if havekids then ok (s.goto (some p) (.waitKilled addr))
  else ok (s.ret (some p) (-1))

/-- `killed(p)`. -/
def waitKilled (p : Slot) (addr : Nat) : Out L :=
  whenFree (s.PFree p) (if (s.proc p).killed then ok (s.ret (some p) (-1)) else ok (s.goto (some p) (.waitSleep addr)))

/-- One round of the loop of `kill`. -/
def kill (pid : Int) (i : Nat) : Out L :=
  if h : i < NPROC then
    let q : Slot := ⟨i, h⟩
    whenFree (s.PFree q)
      (if (s.proc q).pid = pid then
        let s' := s.setProc q { s.proc q with killed := true }
        if (s.proc q).state = .sleeping then ok ((s'.setState q .runnable).goto t (.killPush q))
        else ok (s'.ret t 0)
      else ok (s.goto t (.kill pid (i + 1))))
  else ok (s.ret t (-1))

def killPush (q : Slot) : Out L :=
  match (s.proc q).contp with
  | none => panic "kerneltrap"
  | some c => ok ((s.runPush c q).ret t 0)

/-! ### Sleep locks -/

def acquiresleep (p : Slot) (l : L) [DecidableEq L] : Out L :=
  whenFree (s.SpinFree l)
    (if (s.lock l).locked then s.sleep p (.lock l) (.acquiresleep l)
    else ok ((s.setLock l ⟨true, (s.proc p).pid⟩ (some p)).goto (some p) .run))

def releasesleep (p : Slot) (l : L) [DecidableEq L] : Out L :=
  whenFree (s.SpinFree l)
    (ok ((s.setLock l ⟨false, 0⟩ none).callWakeup (some p) (some (.lock l)) (.releasesleep l)))

/-- What `holdingsleep(l)` returns to process `p`. -/
def holdingsleep (p : Slot) (l : L) : Bool := (s.lock l).locked && (s.lock l).pid == (s.proc p).pid

end Sys

/-! ### Runs -/

/-- A system call, or another entry of a process into the modelled code. -/
inductive Call (L : Type)
  | fork
  | cfork (name : List UInt8) (root : Inum)
  | exit (status : Int)
  | wait (addr : Nat)
  | kill (pid : Int)
  | sleep (n : Nat)
  | wakeup (n : Nat)
  | acquiresleep (l : L)
  | releasesleep (l : L)

inductive Ev (L : Type)
  -- `scheduler` on hart `k`
  | pop (k : Fin NCPU) (c : ContId)
  | switch (k : Fin NCPU)
  -- process `p` enters the modelled code, or is interrupted by the timer
  | call (p : Slot) (x : Call L)
  | tick (p : Slot)
  -- the next section of a thread; `fail` if an allocation, a path or a user address in it is bad
  | next (t : Thread)
  | fail (t : Thread)

namespace Sys

variable [DecidableEq L] [Fintype L] (s : Sys L)

/-- A process at `.run` makes a call.  The kernel calls `exit` without a sleep lock, and `releasesleep` on locks that
the caller has acquired. -/
def call (p : Slot) : Call L → Out L
  | .fork =>
    match (s.proc p).contp with
    | none => panic "kerneltrap"
    | some c => ok (s.goto (some p) (.alloc c false))
  | .cfork name root => ok (s.goto (some p) (.contAlloc name root))
  | .exit status =>
    if s.initproc = some p then panic "init exiting"
    else if ∃ l, s.holder l = some p then none
    else ok (s.goto (some p) (.exitCount status))
  | .wait addr => ok (s.goto (some p) (.waitLock addr))
  | .kill pid => ok (s.goto (some p) (.kill pid 0))
  | .sleep n => s.sleep p (.other n) .run
  | .wakeup n => ok (s.callWakeup (some p) (some (.other n)) .run)
  | .acquiresleep l => ok (s.goto (some p) (.acquiresleep l))
  | .releasesleep l => if s.holder l = some p then s.releasesleep p l else none

/-- The section that starts at `pc` in the code of a process. -/
def nextOf (p : Slot) : Pc L → Out L
  | .run | .dead => none
  | .contAlloc name root => s.alloccontPop (some p) name root
  | .contPopped c name root => ok ((s.alloccontInit c name (some root)).goto (some p) (.contMade c))
  | .contMade c => s.cforkPush (some p) c
  | .alloc c fresh => s.allocprocPop (some p) c fresh
  | .popped c fresh np => s.allocprocLock (some p) c fresh np
  | .locked c fresh np => s.allocprocInit (some p) c fresh np
  | .made c fresh np => s.allocprocList (some p) c fresh np
  | .listed c fresh np => s.forkCopy (some p) c fresh np
  | .copied c fresh np => s.forkParent (some p) c fresh np
  | .adopted c fresh np => s.forkRunnable (some p) c fresh np
  | .ready c fresh np => s.forkPush (some p) c fresh np
  | .exitCount status => s.exitCount p status
  | .exitIput status => s.exitIput p status
  | .exitLock status => s.exitLock p status
  | .reparent status i => s.reparent p status i
  | .exitLast status => s.exitLast p status
  | .waitLock addr => s.waitLock p addr
  | .scan addr i havekids => s.scan p addr i havekids
  | .waitKilled addr => s.waitKilled p addr
  | .waitSleep addr => s.sleep p (.proc p) (.waitLock addr)
  | .freed q w => s.freeprocUnlist (some p) q w
  | .unlisted q w => s.freeprocContOff (some p) q w
  | .contOff q w => s.freecont (some p) q w
  | .unlinked q w => s.freeprocUnlink (some p) q w
  | .kill pid i => s.kill (some p) pid i
  | .killPush q => s.killPush (some p) q
  | .acquiresleep l => s.acquiresleep p l
  | .releasesleep _ => ok (s.goto (some p) .run)

/-- The next section of a process on a hart. -/
def nextProc (p : Slot) : Out L :=
  match (s.th (some p)).sw, (s.th (some p)).wake with
  | .push, _ => s.yieldPush p
  | .sched asleep, _ => s.sched p asleep
  | .off _, _ => none
  | .run, some (.loop chan i) => s.wakeupLoop (some p) chan i
  | .run, some (.push chan q) => s.wakeupPush (some p) chan q
  | .run, none => s.nextOf p (s.th (some p)).pc

/-- The next section of `userinit`. -/
def nextBoot : Out L :=
  match (s.th none).pc with
  | .alloc c fresh => s.allocprocPop none c fresh
  | .popped c fresh np => s.allocprocLock none c fresh np
  | .locked c fresh np => s.allocprocInit none c fresh np
  | .made c fresh np => s.allocprocList none c fresh np
  | .listed c fresh np => s.forkCopy none c fresh np
  | .ready c fresh np => s.forkPush none c fresh np
  | _ => none

/-- The next section fails: `allocproc` without memory calls `freeproc` on a process without a container, `uvmcopy` or
`copyout` fails, or `namei` does, after which `c->lock` stays held. -/
def failOf (p : Slot) : Pc L → Out L
  | .locked _ _ _ => panic "kerneltrap"
  | .listed _ _ np => ok ((s.freeprocReset np).goto (some p) (.freed np none))
  | .contPopped c name _ =>
    if isRoot name then none
    else
      let s := s.alloccontInit c name none
      ok (s.setTh (some p) { s.th (some p) with pc := .run, a0 := -1, kept := c :: (s.th (some p)).kept })
  | .scan addr i _ =>
    if h : i < NPROC then
      if addr ≠ 0 ∧ (s.proc ⟨i, h⟩).parent = some p then
        whenFree (s.PFree ⟨i, h⟩)
          (if (s.proc ⟨i, h⟩).state = .zombie then ok (s.ret (some p) (-1)) else none)
      else none
    else none
  | _ => none

/-- Process `p` runs with interrupts enabled: it holds no spin lock. -/
def Interruptible (p : Slot) : Prop :=
  (s.th (some p)).sw = .run ∧ (s.th (some p)).plock (some p) = none ∧ (s.th (some p)).waits = false ∧
    (s.th (some p)).spin.isNone

instance (p : Slot) : Decidable (s.Interruptible p) := inferInstanceAs (Decidable (_ ∧ _))

/-- Process `p` is on a hart, outside the modelled code. -/
def AtRun (p : Slot) : Bool :=
  match (s.th (some p)).sw, (s.th (some p)).wake, (s.th (some p)).pc with
  | .run, none, .run => decide (s.OnCpu p)
  | _, _, _ => false

def step : Ev L → Out L
  | .pop k c => s.schedulerPop k c
  | .switch k => s.schedulerRun k
  | .call p x => if s.AtRun p then s.call p x else none
  | .tick p => if s.OnCpu p ∧ s.Interruptible p then s.yield p else none
  | .next none => s.nextBoot
  | .next (some p) => if s.OnCpu p then s.nextProc p else none
  | .fail none => none
  | .fail (some p) =>
    match (s.th (some p)).sw, (s.th (some p)).wake with
    | .run, none => if s.OnCpu p then s.failOf p (s.th (some p)).pc else none
    | _, _ => none

/-- The event is the failure of a call for lack of a resource or a path. -/
def Lacks : Ev L → Bool
  | .next (some p) =>
    match (s.th (some p)).sw, (s.th (some p)).wake, (s.th (some p)).pc with
    | .run, none, .contAlloc _ _ => s.contUnused = []
    | .run, none, .alloc _ _ => s.unused = []
    | _, _, _ => false
  | .fail (some p) =>
    match (s.th (some p)).pc with
    -- a bad user address given to `wait`
    | .scan .. => false
    | _ => true
  | _ => false

end Sys

/-! ### The boot -/

/-- The state that `procinit` leaves, before `main` calls `userinit`. -/
def procinit (L : Type) : Sys L where
  proc _ := { state := .unused, chan := none, killed := false, xstate := 0, pid := 0, parent := none, contp := none }
  cont c := { used := c = contRoot, nextpid := 1, procList := [], runList := [], rootdir := none }
  unused := List.finRange NPROC
  contUnused := (List.finRange NCONT).erase contRoot
  contRun := [contRoot]
  initproc := none
  cpu _ := .idle
  th t := { Sys.forkret with pc := if t = none then .alloc contRoot false else .run, sw := if t = none then .run else .off false }
  lock _ := ⟨false, 0⟩
  holder _ := none
  hist _ := ⟨none, [], false⟩

/-- The runs of the kernel. -/
def procLts (L : Type) [DecidableEq L] [Fintype L] : Lts (Sys L) (Ev L) := .ofFun (· = procinit L) Sys.step

end Xv6
