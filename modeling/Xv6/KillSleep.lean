import Mathlib.Logic.Function.Basic
import Xv6.Lib.Lts
import Xv6.Proc

/-!
# `kill` and the loops that test `killed`

`wait`, `piperead`, `pipewrite`, `consoleread` and `sys_sleep` sleep in a loop that tests `killed(p)` first, under the lock of
the condition.  `kill` takes only `p->lock`: between the test and the `SLEEPING` it finds a process that is not asleep and
that will not test again.  In all runs in which no `kill` falls into this window, no killed process sleeps in such a loop
(`killed_awake`).

A step is one section under a `p->lock`, or a test under the lock of the condition.  The data that the lock protects changes
in any way while the lock is free, a sleeping process may be woken up at any moment, and a process outside the loops and
`kill` does whatever it likes with its own slot.
-/

namespace Xv6

def PIPESIZE : UInt32 := 512

/-- The fields of `struct pipe` that the loops test. -/
structure Pipe where
  nread : UInt32
  nwrite : UInt32
  readopen : Bool
  writeopen : Bool

/-- The indices of `struct cons` that `consoleread` tests. -/
structure Console where
  r : UInt32
  w : UInt32

/-- The locks of the conditions. -/
inductive CondLock
  | wait
  | pipe (i : Nat)
  | cons (c : Nat)
  | ticks
  deriving DecidableEq

/-- The channels. -/
inductive KillChan
  | proc (p : Slot)
  | nread (i : Nat)
  | nwrite (i : Nat)
  | consR (c : Nat)
  | ticks
  | other (n : Nat)
  deriving DecidableEq

/-- A loop with its variables.  `n` of `sys_sleep` is the argument as the unsigned number that it is compared as. -/
inductive KillLoop
  | wait
  | piperead (i : Nat)
  | pipewrite (i : Nat) (n k : Int)
  | consoleread (c : Nat) (n : Int)
  | sysSleep (n ticks0 : UInt32)

namespace KillLoop

def lock : KillLoop → CondLock
  | wait => .wait
  | piperead i | pipewrite i _ _ => .pipe i
  | consoleread c _ => .cons c
  | sysSleep _ _ => .ticks

def chan (p : Slot) : KillLoop → KillChan
  | wait => .proc p
  | piperead i => .nread i
  | pipewrite i _ _ => .nwrite i
  | consoleread c _ => .consR c
  | sysSleep _ _ => .ticks

end KillLoop

inductive KillPc
  -- other code
  | run
  -- `acquire` of the lock of the loop
  | acquire (l : KillLoop)
  -- the condition of the loop
  | top (l : KillLoop)
  -- `killed(p)`
  | killed (l : KillLoop)
  -- `wakeup(&pi->nread)` in `pipewrite` is at slot `i`
  | wakeup (l : KillLoop) (i : Nat)
  -- `sleep` is called
  | sleep (l : KillLoop)
  -- in `sched`
  | off (l : KillLoop)
  -- the rest of the function, with the lock held
  | rest (l : KillLoop)
  -- `kill` is at slot `i`
  | kill (pid : Int) (i : Nat)

/-- The fields of `struct proc` that the loops and `kill` use. -/
structure KillProc where
  state : ProcState
  chan : Option KillChan
  killed : Bool
  pid : Int
  parent : Option Slot

structure KillSys where
  proc : Slot → KillProc
  pc : Slot → KillPc
  -- what the last system call of the process returned
  a0 : Slot → Int
  lock : CondLock → Option Slot
  pipe : Nat → Pipe
  cons : Nat → Console
  ticks : UInt32

inductive KillEv
  -- a process enters one of the loops, or `kill`
  | enter (p : Slot) (l : KillLoop)
  | callKill (p : Slot) (pid : Int)
  -- the next step of a process in a loop or in `kill`
  | next (p : Slot)
  -- the rest of a function: return, or go back to the loop after a byte
  | leave (p : Slot) (a0 : Int)
  | again (p : Slot)
  -- the data of a condition changes
  | pipe (i : Nat) (x : Pipe)
  | cons (c : Nat) (x : Console)
  | tick
  -- some `wakeup` finds the process; the scheduler runs it; `reparent` changes its parent and its pid
  | woken (p : Slot)
  | sched (p : Slot)
  | reparent (p q : Slot) (pid : Int)
  -- a process outside changes its slot
  | other (p : Slot) (x : KillProc)

namespace KillSys

variable (s : KillSys)

def goto (p : Slot) (x : KillPc) : KillSys := { s with pc := Function.update s.pc p x }

def setProc (p : Slot) (x : KillProc) : KillSys := { s with proc := Function.update s.proc p x }

def setLock (l : CondLock) (p : Option Slot) : KillSys := { s with lock := Function.update s.lock l p }

/-- Release the lock and return. -/
def ret (p : Slot) (l : KillLoop) (a0 : Int) : KillSys :=
  { s.setLock l.lock none with a0 := Function.update s.a0 p a0 }.goto p .run

/-- `acquire`; `sys_sleep` then reads `ticks`, unless it comes back from `sleep`. -/
def acquire (p : Slot) (l : KillLoop) : KillSys := (s.setLock l.lock (some p)).goto p (.top l)

/-- The test of the loop. -/
def top (p : Slot) : KillLoop → KillSys
  | .wait =>
    if ∃ q, (s.proc q).parent = some p ∧ (s.proc q).state = .zombie then s.goto p (.rest .wait)
    else if ∃ q, (s.proc q).parent = some p then s.goto p (.killed .wait)
    else s.ret p .wait (-1)
  | .piperead i =>
    if (s.pipe i).nread = (s.pipe i).nwrite ∧ (s.pipe i).writeopen = true then s.goto p (.killed (.piperead i))
    else s.goto p (.rest (.piperead i))
  | .pipewrite i n k =>
    if k < n then
      if (s.pipe i).readopen = false then s.ret p (.pipewrite i n k) (-1) else s.goto p (.killed (.pipewrite i n k))
    else s.goto p (.rest (.pipewrite i n k))
  | .consoleread c n =>
    if n > 0 ∧ (s.cons c).r = (s.cons c).w then s.goto p (.killed (.consoleread c n))
    else s.goto p (.rest (.consoleread c n))
  | .sysSleep n ticks0 =>
    if s.ticks - ticks0 < n then s.goto p (.killed (.sysSleep n ticks0)) else s.ret p (.sysSleep n ticks0) 0

/-- `killed(p)`, and what follows when it returns 0. -/
def testKilled (p : Slot) (l : KillLoop) : KillSys :=
  if (s.proc p).killed then s.ret p l (-1)
  else
    match l with
    | .pipewrite i n k =>
      if (s.pipe i).nwrite = (s.pipe i).nread + PIPESIZE then s.goto p (.wakeup (.pipewrite i n k) 0)
      else s.goto p (.rest (.pipewrite i n k))
    | l => s.goto p (.sleep l)

/-- One round of the loop of `wakeup`. -/
def wakeupLoop (p : Slot) (l : KillLoop) (chan : KillChan) (i : Nat) : KillSys :=
  if h : i < NPROC then
    let q : Slot := ⟨i, h⟩
    if p ≠ q ∧ (s.proc q).state = .sleeping ∧ (s.proc q).chan = some chan then
      (s.setProc q { s.proc q with state := .runnable }).goto p (.wakeup l (i + 1))
    else s.goto p (.wakeup l (i + 1))
  else s.goto p (.sleep l)

/-- `sleep`, from the acquisition of `p->lock` to the call of `sched`. -/
def sleep (p : Slot) (l : KillLoop) : KillSys :=
  ((s.setLock l.lock none).setProc p { s.proc p with chan := some (l.chan p), state := .sleeping }).goto p (.off l)

/-- One round of the loop of `kill`. -/
def kill (p : Slot) (pid : Int) (i : Nat) : KillSys :=
  if h : i < NPROC then
    let q : Slot := ⟨i, h⟩
    if (s.proc q).pid = pid then
      let state := if (s.proc q).state = .sleeping then .runnable else (s.proc q).state
      { s.setProc q { s.proc q with killed := true, state := state } with a0 := Function.update s.a0 p 0 }.goto p .run
    else s.goto p (.kill pid (i + 1))
  else { s with a0 := Function.update s.a0 p (-1) }.goto p .run

def next (p : Slot) : KillPc → Option KillSys
  | .run | .off _ | .rest _ => none
  | .acquire l => if s.lock l.lock = none then some (s.acquire p l) else none
  | .top l => some (s.top p l)
  | .killed l => some (s.testKilled p l)
  | .wakeup (.pipewrite i n k) j => some (s.wakeupLoop p (.pipewrite i n k) (.nread i) j)
  | .wakeup _ _ => none
  | .sleep l => some (s.sleep p l)
  | .kill pid i => some (s.kill p pid i)

/-- The first `acquire` of a loop. -/
def enter (p : Slot) : KillLoop → Option KillSys
  -- `ticks0` is read under `tickslock`
  | .sysSleep n _ => if s.lock .ticks = none then some (s.acquire p (.sysSleep n s.ticks)) else none
  | l => some (s.goto p (.acquire l))

/-- A byte has been copied, and the function goes back to its loop. -/
def again (p : Slot) : KillLoop → Option KillSys
  | .pipewrite i n k =>
    some ({ s with pipe := Function.update s.pipe i { s.pipe i with nwrite := (s.pipe i).nwrite + 1 } }.goto p
      (.top (.pipewrite i n (k + 1))))
  | .consoleread c n =>
    some ({ s with cons := Function.update s.cons c { s.cons c with r := (s.cons c).r + 1 } }.goto p
      (.top (.consoleread c (n - 1))))
  | _ => none

def step : KillEv → Option KillSys
  | .enter p l =>
    match s.pc p with
    | .run => if (s.proc p).state = .running then s.enter p l else none
    | _ => none
  | .callKill p pid =>
    match s.pc p with
    | .run => if (s.proc p).state = .running then some (s.goto p (.kill pid 0)) else none
    | _ => none
  | .next p => s.next p (s.pc p)
  | .leave p a0 =>
    match s.pc p with
    | .rest l => some (s.ret p l a0)
    | _ => none
  | .again p =>
    match s.pc p with
    | .rest l => s.again p l
    | _ => none
  | .pipe i x => if s.lock (.pipe i) = none then some { s with pipe := Function.update s.pipe i x } else none
  | .cons c x => if s.lock (.cons c) = none then some { s with cons := Function.update s.cons c x } else none
  | .tick => if s.lock .ticks = none then some { s with ticks := s.ticks + 1 } else none
  | .woken p =>
    if (s.proc p).state = .sleeping then some (s.setProc p { s.proc p with state := .runnable }) else none
  | .sched p =>
    match s.pc p with
    | .off l =>
      if (s.proc p).state = .runnable then
        some ((s.setProc p { s.proc p with state := .running, chan := none }).goto p (.acquire l))
      else none
    | _ => none
  | .reparent p q pid => some (s.setProc p { s.proc p with parent := some q, pid := pid })
  | .other p x =>
    match s.pc p with
    | .run => some (s.setProc p x)
    | _ => none

/-- All processes are outside the loops and `kill`. -/
def Init : Prop := (∀ p, s.pc p = .run) ∧ ∀ l, s.lock l = none

end KillSys

/-- All runs. -/
def killLts : Lts KillSys KillEv := .ofFun KillSys.Init fun s e => (s.step e).map .ok

/-! ### The window -/

/-- `killed(p)` has returned 0, and the process will go to sleep. -/
def KillPc.window : KillPc → Bool
  | wakeup .. | sleep _ => true
  | _ => false

/-- The process is in a loop, switched out. -/
def KillPc.inSched : KillPc → Bool
  | off _ => true
  | _ => false

namespace KillSys

/-- No `kill` finds a process between its test of `killed` and its `SLEEPING`. -/
def OutsideWindow (s : KillSys) : KillEv → Prop
  | .next p =>
    match s.pc p with
    | .kill pid i => ∀ q : Slot, q.val = i → (s.proc q).pid = pid → (s.pc q).window = false
    | _ => True
  | _ => True

/-- A process that is about to sleep, or sleeps, in a loop is not killed. -/
structure Unkilled (s : KillSys) : Prop where
  window : ∀ p, (s.pc p).window = true → (s.proc p).killed = false
  asleep : ∀ p, (s.pc p).inSched = true → (s.proc p).state = .sleeping → (s.proc p).killed = false

variable {s s' : KillSys} {p : Slot}

/-- Process `p` moves, to a point outside the window or without its `killed`. -/
theorem Unkilled.move {y : KillPc} (h : s.Unkilled) (hpc : s'.pc = Function.update s.pc p y)
    (hy : y.window = true → (s'.proc p).killed = false)
    (hz : y.inSched = true → (s'.proc p).state = .sleeping → (s'.proc p).killed = false)
    (hother : ∀ q, q ≠ p → (s'.proc q).killed = (s.proc q).killed ∧
      ((s'.proc q).state = .sleeping → (s.proc q).state = .sleeping)) : s'.Unkilled := by
  constructor
  · intro q hq
    rw [hpc] at hq
    by_cases hqp : q = p
    · subst hqp
      rw [Function.update_self] at hq
      exact hy hq
    · rw [Function.update_of_ne hqp] at hq
      rw [(hother q hqp).1]
      exact h.window q hq
  · intro q hq hst
    rw [hpc] at hq
    by_cases hqp : q = p
    · subst hqp
      rw [Function.update_self] at hq
      exact hz hq hst
    · rw [Function.update_of_ne hqp] at hq
      rw [(hother q hqp).1]
      exact h.asleep q hq ((hother q hqp).2 hst)

/-- A step that moves `p` and leaves the processes as they are. -/
theorem Unkilled.goto {y : KillPc} (h : s.Unkilled) (hpc : s'.pc = Function.update s.pc p y) (hp : s'.proc = s.proc)
    (hy : y.window = true → (s.proc p).killed = false) (hz : y.inSched = false) : s'.Unkilled := by
  refine h.move hpc (by rwa [hp]) (fun h => ?_) (fun q _ => ?_)
  · rw [hz] at h
    cases h
  · rw [hp]
    exact ⟨rfl, id⟩

/-- A step in which no process moves. -/
theorem Unkilled.still (h : s.Unkilled) (hpc : s'.pc = s.pc)
    (hp : ∀ q, (s.pc q).window = true ∨ (s.pc q).inSched = true → (s'.proc q).killed = (s.proc q).killed ∧
      ((s'.proc q).state = .sleeping → (s.proc q).state = .sleeping)) : s'.Unkilled := by
  constructor
  · intro q hq
    rw [hpc] at hq
    rw [(hp q (.inl hq)).1]
    exact h.window q hq
  · intro q hq hst
    rw [hpc] at hq
    rw [(hp q (.inr hq)).1]
    exact h.asleep q hq ((hp q (.inr hq)).2 hst)

private theorem Unkilled.top {l : KillLoop} (h : s.Unkilled) : (s.top p l).Unkilled := by
  unfold KillSys.top
  split <;> split
  all_goals try split
  all_goals exact h.goto rfl rfl nofun rfl

private theorem Unkilled.testKilled {l : KillLoop} (h : s.Unkilled) : (s.testKilled p l).Unkilled := by
  unfold KillSys.testKilled
  split
  · exact h.goto rfl rfl nofun rfl
  · rename_i hk
    have hk' : (s.proc p).killed = false := by simpa using hk
    split
    · split <;> exact h.goto rfl rfl (fun _ => hk') rfl
    · exact h.goto rfl rfl (fun _ => hk') rfl

private theorem Unkilled.wakeupLoop {l : KillLoop} {chan : KillChan} {i : Nat} (h : s.Unkilled)
    (hp : (s.proc p).killed = false) : (s.wakeupLoop p l chan i).Unkilled := by
  unfold KillSys.wakeupLoop
  split
  · rename_i hi
    dsimp only
    split
    · rename_i hq
      refine h.move rfl (fun _ => ?_) nofun fun r hr => ?_
      · simpa [KillSys.goto, setProc, Function.update_of_ne hq.1] using hp
      · by_cases hri : r = ⟨i, hi⟩
        · simp [KillSys.goto, setProc, hri]
        · simp [KillSys.goto, setProc, hri]
    · exact h.goto rfl rfl (fun _ => hp) rfl
  · exact h.goto rfl rfl (fun _ => hp) rfl

private theorem Unkilled.kill {pid : Int} {i : Nat} (h : s.Unkilled)
    (hw : ∀ q : Slot, q.val = i → (s.proc q).pid = pid → (s.pc q).window = false) : (s.kill p pid i).Unkilled := by
  unfold KillSys.kill
  split
  · rename_i hi
    dsimp only
    split
    · rename_i hpid
      -- the process that is marked is outside the window, and does not sleep any more
      have hq := hw ⟨i, hi⟩ rfl hpid
      constructor
      · intro r hr
        by_cases hrp : r = p
        · simp [KillSys.goto, hrp, KillPc.window] at hr
        · simp only [KillSys.goto, setProc, Function.update_of_ne hrp] at hr ⊢
          have hri : r ≠ ⟨i, hi⟩ := by
            rintro rfl
            rw [hq] at hr
            cases hr
          rw [Function.update_of_ne hri]
          exact h.window r hr
      · intro r hr hst
        by_cases hrp : r = p
        · simp [KillSys.goto, hrp, KillPc.inSched] at hr
        · simp only [KillSys.goto, setProc, Function.update_of_ne hrp] at hr hst ⊢
          by_cases hri : r = ⟨i, hi⟩
          · subst hri
            simp only [Function.update_self] at hst
            split at hst
            · cases hst
            · contradiction
          · rw [Function.update_of_ne hri] at hst ⊢
            exact h.asleep r hr hst
    · exact h.goto rfl rfl nofun rfl
  · exact h.goto rfl rfl nofun rfl

theorem Unkilled.next {y : KillPc} (h : s.Unkilled) (hy : s.pc p = y) (hc : s.OutsideWindow (.next p))
    (hs : s.next p y = some s') : s'.Unkilled := by
  cases y <;> simp only [KillSys.next] at hs
  case run => cases hs
  case off => cases hs
  case rest => cases hs
  case acquire l =>
    split at hs
    · cases hs
      exact h.goto rfl rfl nofun rfl
    · cases hs
  case top l =>
    cases hs
    exact h.top
  case killed l =>
    cases hs
    exact h.testKilled
  case wakeup l j =>
    cases l with
    | pipewrite i n k =>
      cases hs
      exact h.wakeupLoop (h.window p (by rw [hy]; rfl))
    | _ => cases hs
  case sleep l =>
    cases hs
    have hk := h.window p (by rw [hy]; rfl)
    refine h.move rfl nofun (fun _ _ => ?_) fun q hq => ?_
    · simpa [KillSys.sleep, KillSys.goto, setProc, setLock] using hk
    · simp [KillSys.sleep, KillSys.goto, setProc, setLock, hq]
  case kill pid i =>
    cases hs
    rw [OutsideWindow, hy] at hc
    exact h.kill hc

theorem Unkilled.step {e : KillEv} (h : s.Unkilled) (hc : s.OutsideWindow e) (hs : s.step e = some s') : s'.Unkilled := by
  cases e <;> simp only [KillSys.step] at hs
  case enter p l =>
    split at hs
    · split at hs
      · cases l <;> simp only [KillSys.enter] at hs
        case sysSleep n t =>
          split at hs
          · cases hs
            exact h.goto rfl rfl nofun rfl
          · cases hs
        all_goals
          cases hs
          exact h.goto rfl rfl nofun rfl
      · cases hs
    · cases hs
  case callKill p pid =>
    split at hs
    · split at hs
      · cases hs
        exact h.goto rfl rfl nofun rfl
      · cases hs
    · cases hs
  case next p => exact h.next rfl hc hs
  case leave p a0 =>
    split at hs
    · cases hs
      exact h.goto rfl rfl nofun rfl
    · cases hs
  case again p =>
    split at hs
    · rename_i l _
      cases l <;> cases hs
      · exact h.goto rfl rfl nofun rfl
      · exact h.goto rfl rfl nofun rfl
    · cases hs
  case pipe i x =>
    split at hs
    · cases hs
      exact h.still rfl fun _ _ => ⟨rfl, id⟩
    · cases hs
  case cons c x =>
    split at hs
    · cases hs
      exact h.still rfl fun _ _ => ⟨rfl, id⟩
    · cases hs
  case tick =>
    split at hs
    · cases hs
      exact h.still rfl fun _ _ => ⟨rfl, id⟩
    · cases hs
  case woken p =>
    split at hs
    · cases hs
      refine h.still rfl fun q _ => ?_
      by_cases hq : q = p
      · simp [setProc, hq]
      · simp [setProc, hq]
    · cases hs
  case sched p =>
    split at hs
    · split at hs
      · cases hs
        refine h.move rfl nofun nofun fun q hq => ?_
        simp [KillSys.goto, setProc, hq]
      · cases hs
    · cases hs
  case reparent p q pid =>
    cases hs
    refine h.still rfl fun r _ => ?_
    by_cases hr : r = p
    · simp [setProc, hr]
    · simp [setProc, hr]
  case other p x =>
    split at hs
    · rename_i hx
      cases hs
      refine h.still rfl fun q hq => ?_
      have hqp : q ≠ p := by
        rintro rfl
        rw [hx] at hq
        rcases hq with hq | hq <;> cases hq
      simp [setProc, hqp]
    · cases hs

end KillSys

/-- In every run in which no `kill` falls into the window, no killed process sleeps in one of the loops. -/
theorem killed_awake {s : KillSys} (h : (killLts.guard KillSys.OutsideWindow).Reachable s) :
    ¬ ∃ p l, s.pc p = .off l ∧ (s.proc p).state = .sleeping ∧ (s.proc p).killed = true := by
  have hU : s.Unkilled := by
    refine h.invariant (I := KillSys.Unkilled) ?_ ?_
    · rintro s ⟨hpc, -⟩
      constructor
      · intro p hp
        rw [hpc] at hp
        cases hp
      · intro p hp
        rw [hpc] at hp
        cases hp
    · rintro s e s' hU ⟨hc, hst⟩
      have hst' : (s.step e).map (Except.ok (ε := String)) = some (.ok s') := hst
      obtain ⟨u, hu, huv⟩ := Option.map_eq_some_iff.1 hst'
      cases huv
      exact hU.step hc hu
  rintro ⟨p, l, hp, hst, hk⟩
  rw [hU.asleep p (by rw [hp]; rfl) hst] at hk
  cases hk

/-- Every process runs, and has its slot number plus 1 as its pid. -/
def KillSys.started : KillSys where
  proc p := { state := .running, chan := none, killed := false, pid := p.val + 1, parent := none }
  pc _ := .run
  a0 _ := 1
  lock _ := none
  pipe _ := ⟨0, 0, true, true⟩
  cons _ := ⟨0, 0⟩
  ticks := 0

private theorem KillSys.reaches {C : KillSys → KillEv → Prop} (c : KillSys → KillEv → Bool) (hc : ∀ s e, c s e = true → C s e)
    (l : List KillEv) (P : KillSys → Bool)
    (h : (Lts.replay (fun s e => (s.step e).map .ok) c .started l).any P = true) :
    ∃ s, (killLts.guard C).Reachable s ∧ P s = true :=
  Lts.Reachable.replay_any (I := KillSys.Init) hc ⟨fun _ => rfl, fun _ => rfl⟩ h

/-- Process 0 sleeps for one tick, and process 1 kills it. -/
def killAsleepRun : List KillEv :=
  [.enter ⟨0, NPROC_pos⟩ (.sysSleep 1 0), .next ⟨0, NPROC_pos⟩, .next ⟨0, NPROC_pos⟩, .next ⟨0, NPROC_pos⟩,
    .callKill ⟨1, one_lt_NPROC⟩ 1, .next ⟨1, one_lt_NPROC⟩]

private def KillSys.outsideTest (s : KillSys) : KillEv → Bool
  | .next p =>
    match s.pc p with
    | .kill pid i => decide (∀ q : Slot, q.val = i → (s.proc q).pid = pid → (s.pc q).window = false)
    | _ => true
  | _ => true

private theorem KillSys.outside_of_test (s : KillSys) (e : KillEv) (h : s.outsideTest e = true) : s.OutsideWindow e := by
  cases e with
  | next p =>
    simp only [outsideTest] at h
    simp only [OutsideWindow]
    split
    · rename_i hpc
      rw [hpc] at h
      exact of_decide_eq_true h
    · trivial
  | _ => trivial

theorem killed_awake_killAsleepRun : ∃ s : KillSys, (s.proc ⟨0, by decide⟩).killed = true ∧
    (s.pc ⟨0, by decide⟩).inSched = true ∧ s.a0 ⟨1, by decide⟩ = 0 ∧
    ¬ ∃ p l, s.pc p = .off l ∧ (s.proc p).state = .sleeping ∧ (s.proc p).killed = true := by
  obtain ⟨s, hr, hs⟩ := KillSys.reaches KillSys.outsideTest KillSys.outside_of_test killAsleepRun
    (fun s => decide ((s.proc ⟨0, by decide⟩).killed = true ∧ (s.pc ⟨0, by decide⟩).inSched = true ∧
      s.a0 ⟨1, by decide⟩ = 0)) (by decide +kernel)
  obtain ⟨h1, h2, h3⟩ := of_decide_eq_true hs
  exact ⟨s, h1, h2, h3, killed_awake hr⟩

/-- Process 1 kills process 0 between its test of `killed` and its `sleep`. -/
def killWindowRun : List KillEv :=
  [.enter ⟨0, NPROC_pos⟩ (.sysSleep 1 0), .next ⟨0, NPROC_pos⟩, .next ⟨0, NPROC_pos⟩, .callKill ⟨1, one_lt_NPROC⟩ 1,
    .next ⟨1, one_lt_NPROC⟩, .next ⟨0, NPROC_pos⟩]

def KillPc.outside : KillPc → Bool
  | run => true
  | _ => false

/-- `kill` has returned 0 to process 1, and process 0 sleeps while nobody else is in a loop or in `kill`. -/
theorem kill_in_window : ∃ s, killLts.Reachable s ∧ ∃ p q, (s.pc p).inSched = true ∧ (s.proc p).state = .sleeping ∧
    (s.proc p).killed = true ∧ s.a0 q = 0 ∧ ∀ r, r ≠ p → (s.pc r).outside = true := by
  obtain ⟨s, hr, hs⟩ := KillSys.reaches (C := fun _ _ => True) (fun _ _ => true) (fun _ _ _ => trivial) killWindowRun
    (fun s => let p : Slot := ⟨0, by decide⟩; let q : Slot := ⟨1, by decide⟩
      decide ((s.pc p).inSched = true ∧ (s.proc p).state = .sleeping ∧ (s.proc p).killed = true ∧ s.a0 q = 0 ∧
        ∀ r, r ≠ p → (s.pc r).outside = true)) (by decide +kernel)
  exact ⟨s, hr.of_guard, _, _, of_decide_eq_true hs⟩

end Xv6
