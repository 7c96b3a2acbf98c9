import Xv6.KillSleep

/-!
# Pipes

The functions of `pipe.c` on one pipe, called by any processes in any order, with `sleep` and `wakeup` of `proc.c` inlined.  A step
is what a process does between two acquisitions or releases of a lock; a section under the lock of another process is one step.
`kill` may hit any process at any moment.
-/

namespace Xv6

open Function (update)

/-- `struct pipe`, and whether it has been freed. -/
structure PipeBuf extends Pipe where
  data : Fin 512 → UInt8 := fun _ => 0
  freed : Bool := false

/-- `&pi->nread` and `&pi->nwrite`. -/
inductive PipeChan
  | nread
  | nwrite
  deriving DecidableEq

/-- The loops that sleep: that of `pipewrite` at byte `i` of `n`, and that of `piperead`. -/
inductive PipeLoop
  | write (n i : Int)
  | read (n : Int)

/-- What a loop sleeps on. -/
def PipeLoop.chan : PipeLoop → PipeChan
  | write _ _ => .nwrite
  | read _ => .nread

/-- What follows a `wakeup`. -/
inductive PipeNext
  | sleep (n i : Int)
  | ret (l : PipeLoop) (a0 : Int)
  | closed

inductive PipePc
  -- other code
  | out
  -- `acquire(&pi->lock)`, in `pipewrite` and `piperead` and at the end of `sleep`
  | acquire (l : PipeLoop)
  -- the condition of the loop; `pi->readopen == 0`
  | top (l : PipeLoop)
  -- `killed(pr)`
  | killed (l : PipeLoop)
  -- `pi->nwrite == pi->nread + PIPESIZE`
  | full (n i : Int)
  -- `copyin`, and the byte goes into the buffer
  | copyin (n i : Int)
  -- the second loop of `piperead` at byte `i`
  | copyout (n i : Int)
  -- `pipeclose`: `acquire(&pi->lock)`
  | close (writable : Bool)
  -- `pi->writeopen = 0` or `pi->readopen = 0`
  | set (writable : Bool)
  -- `wakeup` is at slot `j`
  | wakeup (c : PipeChan) (j : Nat) (k : PipeNext)
  -- `sleep`: `acquire(&p->lock)`, `release(lk)`, `p->state = SLEEPING`, the scheduler releases `p->lock`
  | lockSelf (l : PipeLoop)
  | drop (l : PipeLoop)
  | mark (l : PipeLoop)
  | sched (l : PipeLoop)
  -- switched out
  | off (l : PipeLoop)
  -- switched in with `p->lock`: `p->chan = 0`, `release(&p->lock)`
  | tidy (l : PipeLoop)
  | unlockSelf (l : PipeLoop)
  -- `release(&pi->lock); return a0`
  | release (l : PipeLoop) (a0 : Int)
  -- the end of `pipeclose`
  | closed

structure PipeSys where
  pi : PipeBuf
  lk : Option Slot
  plock : Slot → Option Slot
  state : Slot → ProcState
  chan : Slot → Option PipeChan
  killed : Slot → Bool
  pc : Slot → PipePc

inductive PipeEv
  | pipewrite (p : Slot) (n : Int)
  | piperead (p : Slot) (n : Int)
  | pipeclose (p : Slot) (writable : Bool)
  -- the next step of a process; `copied` says whether the byte at the user's address could be copied, `ch` is the byte there
  | next (p : Slot) (copied : Bool) (ch : UInt8)
  -- the scheduler
  | run (p : Slot)
  -- `kill` under the lock of its victim
  | kill (q : Slot)

namespace PipeSys

variable (s : PipeSys)

def goto (p : Slot) (x : PipePc) : PipeSys := { s with pc := update s.pc p x }

def setPi (pi : PipeBuf) : PipeSys := { s with pi := pi }

def setLk (p : Option Slot) : PipeSys := { s with lk := p }

def setPlock (p : Slot) (q : Option Slot) : PipeSys := { s with plock := update s.plock p q }

def setState (p : Slot) (x : ProcState) : PipeSys := { s with state := update s.state p x }

def setChan (p : Slot) (c : Option PipeChan) : PipeSys := { s with chan := update s.chan p c }

/-- `pi->data[i % PIPESIZE]`. -/
def slot (i : UInt32) : Fin 512 := Fin.ofNat 512 i.toNat

def acquire (p : Slot) (l : PipeLoop) : Option PipeSys :=
  if s.lk = none ∧ s.pi.freed = false then some ((s.setLk (some p)).goto p (.top l)) else none

def top (p : Slot) : PipeLoop → PipeSys
  | .write n i =>
    if i < n then
      if s.pi.readopen = false then s.goto p (.release (.write n i) (-1)) else s.goto p (.killed (.write n i))
    else s.goto p (.wakeup .nread 0 (.ret (.write n i) i))
  | .read n =>
    if s.pi.nread = s.pi.nwrite ∧ s.pi.writeopen = true then s.goto p (.killed (.read n)) else s.goto p (.copyout n 0)

def testKilled (p : Slot) (l : PipeLoop) : PipeSys :=
  if s.killed p then s.goto p (.release l (-1))
  else
    match l with
    | .write n i => s.goto p (.full n i)
    | .read n => s.goto p (.lockSelf (.read n))

def full (p : Slot) (n i : Int) : PipeSys :=
  if s.pi.nwrite = s.pi.nread + PIPESIZE then s.goto p (.wakeup .nread 0 (.sleep n i)) else s.goto p (.copyin n i)

def copyin (p : Slot) (n i : Int) (copied : Bool) (ch : UInt8) : PipeSys :=
  if copied then
    (s.setPi { s.pi with data := update s.pi.data (slot s.pi.nwrite) ch, nwrite := s.pi.nwrite + 1 }).goto p (.top (.write n (i + 1)))
  else s.goto p (.wakeup .nread 0 (.ret (.write n i) i))

def copyout (p : Slot) (n i : Int) (copied : Bool) : PipeSys :=
  if i < n ∧ s.pi.nread ≠ s.pi.nwrite then
    let s := s.setPi { s.pi with nread := s.pi.nread + 1 }
    if copied then s.goto p (.copyout n (i + 1)) else s.goto p (.wakeup .nwrite 0 (.ret (.read n) i))
  else s.goto p (.wakeup .nwrite 0 (.ret (.read n) i))

def set (p : Slot) (writable : Bool) : PipeSys :=
  if writable then (s.setPi { s.pi with writeopen := false }).goto p (.wakeup .nread 0 .closed)
  else (s.setPi { s.pi with readopen := false }).goto p (.wakeup .nwrite 0 .closed)

/-- The section of `wakeup` under the lock of slot `q`. -/
def wake (c : PipeChan) (q : Slot) : PipeSys :=
  if s.state q = .sleeping ∧ s.chan q = some c then s.setState q .runnable else s

def wakeup (p : Slot) (c : PipeChan) (j : Nat) (k : PipeNext) : Option PipeSys :=
  if h : j < NPROC then
    -- `p != myproc()`
    if p = ⟨j, h⟩ then some (s.goto p (.wakeup c (j + 1) k))
    else if s.plock ⟨j, h⟩ = none then some ((s.wake c ⟨j, h⟩).goto p (.wakeup c (j + 1) k))
    else none
  else
    match k with
    | .sleep n i => some (s.goto p (.lockSelf (.write n i)))
    | .ret l a0 => some (s.goto p (.release l a0))
    | .closed => some (s.goto p .closed)

def next (p : Slot) (copied : Bool) (ch : UInt8) : PipePc → Option PipeSys
  | .out | .off _ => none
  | .acquire l => s.acquire p l
  | .top l => some (s.top p l)
  | .killed l => if s.plock p = none then some (s.testKilled p l) else none
  | .full n i => some (s.full p n i)
  | .copyin n i => some (s.copyin p n i copied ch)
  | .copyout n i => some (s.copyout p n i copied)
  | .close writable => if s.lk = none ∧ s.pi.freed = false then some ((s.setLk (some p)).goto p (.set writable)) else none
  | .set writable => some (s.set p writable)
  | .wakeup c j k => s.wakeup p c j k
  | .lockSelf l => if s.plock p = none then some ((s.setPlock p (some p)).goto p (.drop l)) else none
  | .drop l => some ((s.setLk none).goto p (.mark l))
  | .mark l => some (((s.setChan p (some l.chan)).setState p .sleeping).goto p (.sched l))
  | .sched l => some ((s.setPlock p none).goto p (.off l))
  | .tidy l => some ((s.setChan p none).goto p (.unlockSelf l))
  | .unlockSelf l => some ((s.setPlock p none).goto p (.acquire l))
  | .release _ _ => some ((s.setLk none).goto p .out)
  | .closed =>
    -- `kfree` when both ends are closed
    some (((s.setLk none).setPi { s.pi with freed := !s.pi.readopen && !s.pi.writeopen }).goto p .out)

def kill (q : Slot) : PipeSys :=
  let s := { s with killed := update s.killed q true }
  if s.state q = .sleeping then s.setState q .runnable else s

def step : PipeEv → Option (Except String PipeSys)
  | .pipewrite p n =>
    match s.pc p with
    | .out => some (.ok (s.goto p (.acquire (.write n 0))))
    | _ => none
  | .piperead p n =>
    match s.pc p with
    | .out => some (.ok (s.goto p (.acquire (.read n))))
    | _ => none
  | .pipeclose p writable =>
    match s.pc p with
    | .out => some (.ok (s.goto p (.close writable)))
    | _ => none
  | .next p copied ch => (s.next p copied ch (s.pc p)).map .ok
  | .run p =>
    match s.pc p with
    | .off l =>
      if s.state p = .runnable ∧ s.plock p = none then some (.ok (((s.setPlock p (some p)).setState p .running).goto p (.tidy l)))
      else none
    | _ => none
  | .kill q => if s.plock q = none then some (.ok (s.kill q)) else none

/-- After `pipealloc`, with every process somewhere else. -/
structure Init : Prop where
  nread : s.pi.nread = 0
  nwrite : s.pi.nwrite = 0
  readopen : s.pi.readopen = true
  writeopen : s.pi.writeopen = true
  freed : s.pi.freed = false
  lk : s.lk = none
  plock : ∀ p, s.plock p = none
  state : ∀ p, s.state p ≠ .sleeping
  pc : ∀ p, s.pc p = .out

/-- What the next step of process `p` can be. -/
inductive Turn (s : PipeSys) (p : Slot) (copied : Bool) (ch : UInt8) : PipePc → PipeSys → Prop
  | acquire {l} : s.lk = none → Turn s p copied ch (.acquire l) ((s.setLk (some p)).goto p (.top l))
  | close {w} : s.lk = none → Turn s p copied ch (.close w) ((s.setLk (some p)).goto p (.set w))
  | gone {n i} : i < n → s.pi.readopen = false →
      Turn s p copied ch (.top (.write n i)) (s.goto p (.release (.write n i) (-1)))
  | more {n i} : i < n → s.pi.readopen = true → Turn s p copied ch (.top (.write n i)) (s.goto p (.killed (.write n i)))
  | written {n i} : ¬i < n → Turn s p copied ch (.top (.write n i)) (s.goto p (.wakeup .nread 0 (.ret (.write n i) i)))
  | empty {n} : s.pi.nread = s.pi.nwrite → s.pi.writeopen = true →
      Turn s p copied ch (.top (.read n)) (s.goto p (.killed (.read n)))
  | some {n} : ¬(s.pi.nread = s.pi.nwrite ∧ s.pi.writeopen = true) → Turn s p copied ch (.top (.read n)) (s.goto p (.copyout n 0))
  | killed {l} : s.killed p = true → Turn s p copied ch (.killed l) (s.goto p (.release l (-1)))
  | write {n i} : s.killed p = false → Turn s p copied ch (.killed (.write n i)) (s.goto p (.full n i))
  | wait {n} : s.killed p = false → Turn s p copied ch (.killed (.read n)) (s.goto p (.lockSelf (.read n)))
  | full {n i} : s.pi.nwrite = s.pi.nread + PIPESIZE →
      Turn s p copied ch (.full n i) (s.goto p (.wakeup .nread 0 (.sleep n i)))
  | room {n i} : s.pi.nwrite ≠ s.pi.nread + PIPESIZE → Turn s p copied ch (.full n i) (s.goto p (.copyin n i))
  | put {n i} : copied = true → Turn s p copied ch (.copyin n i)
      ((s.setPi { s.pi with data := update s.pi.data (slot s.pi.nwrite) ch, nwrite := s.pi.nwrite + 1 }).goto p
        (.top (.write n (i + 1))))
  | putFails {n i} : copied = false → Turn s p copied ch (.copyin n i) (s.goto p (.wakeup .nread 0 (.ret (.write n i) i)))
  | get {n i} : i < n → s.pi.nread ≠ s.pi.nwrite → copied = true →
      Turn s p copied ch (.copyout n i) ((s.setPi { s.pi with nread := s.pi.nread + 1 }).goto p (.copyout n (i + 1)))
  | getFails {n i} : i < n → s.pi.nread ≠ s.pi.nwrite → copied = false → Turn s p copied ch (.copyout n i)
      ((s.setPi { s.pi with nread := s.pi.nread + 1 }).goto p (.wakeup .nwrite 0 (.ret (.read n) i)))
  | read {n i} : ¬(i < n ∧ s.pi.nread ≠ s.pi.nwrite) →
      Turn s p copied ch (.copyout n i) (s.goto p (.wakeup .nwrite 0 (.ret (.read n) i)))
  | setWrite : Turn s p copied ch (.set true) ((s.setPi { s.pi with writeopen := false }).goto p (.wakeup .nread 0 .closed))
  | setRead : Turn s p copied ch (.set false) ((s.setPi { s.pi with readopen := false }).goto p (.wakeup .nwrite 0 .closed))
  | wakeSelf {c k} : Turn s p copied ch (.wakeup c p k) (s.goto p (.wakeup c (p + 1) k))
  | wake {c k} (q : Slot) : p ≠ q → s.plock q = none →
      Turn s p copied ch (.wakeup c q k) ((s.wake c q).goto p (.wakeup c (q + 1) k))
  | wokenSleep {c j n i} : ¬j < NPROC → Turn s p copied ch (.wakeup c j (.sleep n i)) (s.goto p (.lockSelf (.write n i)))
  | wokenRet {c j l a0} : ¬j < NPROC → Turn s p copied ch (.wakeup c j (.ret l a0)) (s.goto p (.release l a0))
  | wokenClosed {c j} : ¬j < NPROC → Turn s p copied ch (.wakeup c j .closed) (s.goto p .closed)
  | lockSelf {l} : s.plock p = none → Turn s p copied ch (.lockSelf l) ((s.setPlock p (.some p)).goto p (.drop l))
  | drop {l} : Turn s p copied ch (.drop l) ((s.setLk none).goto p (.mark l))
  | mark {l} : Turn s p copied ch (.mark l) (((s.setChan p (.some l.chan)).setState p .sleeping).goto p (.sched l))
  | sched {l} : Turn s p copied ch (.sched l) ((s.setPlock p none).goto p (.off l))
  | tidy {l} : Turn s p copied ch (.tidy l) ((s.setChan p none).goto p (.unlockSelf l))
  | unlockSelf {l} : Turn s p copied ch (.unlockSelf l) ((s.setPlock p none).goto p (.acquire l))
  | release {l a0} : Turn s p copied ch (.release l a0) ((s.setLk none).goto p .out)
  | closed : Turn s p copied ch .closed
      (((s.setLk none).setPi { s.pi with freed := !s.pi.readopen && !s.pi.writeopen }).goto p .out)

variable {s t : PipeSys} {p q : Slot} {copied : Bool} {ch : UInt8} {x : PipePc}

theorem next_turn (h : s.next p copied ch x = some t) : Turn s p copied ch x t := by
  cases x with
  | out => cases h
  | off l => cases h
  | acquire l =>
    simp only [next, PipeSys.acquire, Option.ite_none_right_eq_some, Option.some.injEq] at h
    exact h.2 ▸ .acquire h.1.1
  | close w =>
    simp only [next, Option.ite_none_right_eq_some, Option.some.injEq] at h
    exact h.2 ▸ .close h.1.1
  | top l =>
    obtain rfl := Option.some.inj h
    cases l with
    | write n i =>
      by_cases hi : i < n
      · cases hr : s.pi.readopen with
        | false =>
          rw [top, if_pos hi, if_pos hr]
          exact .gone hi hr
        | true =>
          rw [top, if_pos hi, if_neg (by simp [hr])]
          exact .more hi hr
      · rw [top, if_neg hi]
        exact .written hi
    | read n =>
      by_cases hr : s.pi.nread = s.pi.nwrite ∧ s.pi.writeopen = true
      · rw [top, if_pos hr]
        exact .empty hr.1 hr.2
      · rw [top, if_neg hr]
        exact .some hr
  | killed l =>
    simp only [next, testKilled, Option.ite_none_right_eq_some, Option.some.injEq] at h
    obtain ⟨-, rfl⟩ := h
    cases hk : s.killed p with
    | true => exact .killed hk
    | false =>
      cases l with
      | write n i => exact .write hk
      | read n => exact .wait hk
  | full n i =>
    obtain rfl := Option.some.inj h
    by_cases hf : s.pi.nwrite = s.pi.nread + PIPESIZE
    · rw [PipeSys.full, if_pos hf]
      exact .full hf
    · rw [PipeSys.full, if_neg hf]
      exact .room hf
  | copyin n i =>
    obtain rfl := Option.some.inj h
    cases copied with
    | true => exact .put rfl
    | false => exact .putFails rfl
  | copyout n i =>
    obtain rfl := Option.some.inj h
    by_cases hi : i < n ∧ s.pi.nread ≠ s.pi.nwrite
    · rw [PipeSys.copyout, if_pos hi]
      cases copied with
      | true => exact .get hi.1 hi.2 rfl
      | false => exact .getFails hi.1 hi.2 rfl
    · rw [PipeSys.copyout, if_neg hi]
      exact .read hi
  | set w =>
    obtain rfl := Option.some.inj h
    cases w with
    | true => exact .setWrite
    | false => exact .setRead
  | wakeup c j k =>
    simp only [next, PipeSys.wakeup] at h
    split at h
    · rename_i hj
      split at h
      · rename_i hp
        obtain rfl := Option.some.inj h
        rw [hp]
        exact .wakeSelf
      · rename_i hp
        simp only [Option.ite_none_right_eq_some, Option.some.injEq] at h
        obtain ⟨hl, rfl⟩ := h
        exact .wake ⟨j, hj⟩ hp hl
    · rename_i hj
      cases k with
      | sleep n i => exact Option.some.inj h ▸ .wokenSleep hj
      | ret l a0 => exact Option.some.inj h ▸ .wokenRet hj
      | closed => exact Option.some.inj h ▸ .wokenClosed hj
  | lockSelf l =>
    simp only [next, Option.ite_none_right_eq_some, Option.some.injEq] at h
    exact h.2 ▸ .lockSelf h.1
  | drop l => exact Option.some.inj h ▸ .drop
  | mark l => exact Option.some.inj h ▸ .mark
  | sched l => exact Option.some.inj h ▸ .sched
  | tidy l => exact Option.some.inj h ▸ .tidy
  | unlockSelf l => exact Option.some.inj h ▸ .unlockSelf
  | release l a0 => exact Option.some.inj h ▸ .release
  | closed => exact Option.some.inj h ▸ .closed

/-- What any step can be. -/
theorem step_cases {e : PipeEv} (h : s.step e = some (.ok t)) :
    (∃ p l, s.pc p = .out ∧ t = s.goto p (.acquire l)) ∨ (∃ p w, s.pc p = .out ∧ t = s.goto p (.close w)) ∨
      (∃ p copied ch, e = .next p copied ch ∧ Turn s p copied ch (s.pc p) t) ∨
      (∃ p l, s.pc p = .off l ∧ s.state p = .runnable ∧ s.plock p = none ∧
        t = ((s.setPlock p (.some p)).setState p .running).goto p (.tidy l)) ∨
      ∃ q, s.plock q = none ∧ t = s.kill q := by
  cases e with
  | pipewrite p n =>
    simp only [step] at h
    split at h
    · rename_i hp
      cases h
      exact .inl ⟨p, _, hp, rfl⟩
    · cases h
  | piperead p n =>
    simp only [step] at h
    split at h
    · rename_i hp
      cases h
      exact .inl ⟨p, _, hp, rfl⟩
    · cases h
  | pipeclose p w =>
    simp only [step] at h
    split at h
    · rename_i hp
      cases h
      exact .inr (.inl ⟨p, _, hp, rfl⟩)
    · cases h
  | next p copied ch =>
    simp only [step, Option.map_eq_some_iff, Except.ok.injEq] at h
    obtain ⟨u, hu, rfl⟩ := h
    exact .inr (.inr (.inl ⟨p, copied, ch, rfl, next_turn hu⟩))
  | run p =>
    simp only [step] at h
    split at h
    · rename_i l hp
      simp only [Option.ite_none_right_eq_some, Option.some.injEq, Except.ok.injEq] at h
      obtain ⟨⟨hr, hl⟩, rfl⟩ := h
      exact .inr (.inr (.inr (.inl ⟨p, l, hp, hr, hl, rfl⟩)))
    · cases h
  | kill q =>
    simp only [step, Option.ite_none_right_eq_some, Option.some.injEq, Except.ok.injEq] at h
    exact .inr (.inr (.inr (.inr ⟨q, h.1, h.2.symm⟩)))

/-! ### The locks -/

end PipeSys

/-- The points at which a process has `pi->lock`. -/
def PipePc.holds : PipePc → Bool
  | top _ | killed _ | full _ _ | copyin _ _ | copyout _ _ | set _ | wakeup _ _ _ | lockSelf _ | drop _ | release _ _ | closed => true
  | _ => false

/-- The points at which a process has its own lock. -/
def PipePc.self : PipePc → Bool
  | drop _ | mark _ | sched _ | tidy _ | unlockSelf _ => true
  | _ => false

namespace PipeSys

variable {s t : PipeSys} {p q : Slot} {copied : Bool} {ch : UInt8} {x : PipePc}

/-- The locks that process `p` has, and what it sleeps on. -/
structure LocksAt (s : PipeSys) (p : Slot) : Prop where
  lk : s.lk = some p ↔ (s.pc p).holds = true
  plock : s.plock p = if (s.pc p).self then some p else none
  chan : ∀ l, s.pc p = .sched l ∨ s.pc p = .off l → s.chan p = some l.chan
  sleeping : s.state p = .sleeping → ∃ l, s.pc p = .sched l ∨ s.pc p = .off l

def Locks (s : PipeSys) : Prop := ∀ p, LocksAt s p

theorem Init.locks (h : s.Init) : Locks s := fun p =>
  { lk := by simp [h.lk, h.pc, PipePc.holds]
    plock := by simp [h.plock, h.pc, PipePc.self]
    chan := fun l hc => by simp [h.pc] at hc
    sleeping := fun hp => (h.state p hp).elim }

/-- Process `q` is as before. -/
structure SameAt (s t : PipeSys) (q : Slot) : Prop where
  plock : t.plock q = s.plock q
  chan : t.chan q = s.chan q
  state : t.state q = s.state q
  pc : t.pc q = s.pc q

theorem LocksAt.of_same (h : LocksAt s q) (hs : SameAt s t q) (hl : t.lk = some q ↔ s.lk = some q) : LocksAt t q :=
  { lk := by rw [hl, hs.pc]; exact h.lk
    plock := by rw [hs.plock, hs.pc]; exact h.plock
    chan := by rw [hs.chan, hs.pc]; exact h.chan
    sleeping := by rw [hs.state, hs.pc]; exact h.sleeping }

/-- A step that only changes what process `p` is about. -/
theorem Locks.of_at (h : Locks s) (p : Slot) (hs : ∀ q ≠ p, SameAt s t q) (hl : ∀ q ≠ p, t.lk = some q ↔ s.lk = some q)
    (hp : LocksAt t p) : Locks t := by
  intro q
  by_cases hqp : q = p
  · exact hqp ▸ hp
  · exact (h q).of_same (hs q hqp) (hl q hqp)

theorem sameAt_goto (h : q ≠ p) : SameAt s (s.goto p x) q := ⟨rfl, rfl, rfl, Function.update_of_ne h ..⟩

@[simp] theorem goto_pc : (s.goto p x).pc p = x := Function.update_self ..

theorem goto_pc_of_ne (h : q ≠ p) : (s.goto p x).pc q = s.pc q := Function.update_of_ne h ..

/-- The pipe does not matter. -/
theorem Locks.setPi (h : Locks s) (pi : PipeBuf) : Locks (s.setPi pi) := fun p =>
  (h p).of_same ⟨rfl, rfl, rfl, rfl⟩ .rfl

/-- A process that is not switched out goes on, with the locks it has. -/
theorem Locks.goto (h : Locks s) (hh : x.holds = (s.pc p).holds) (hs : x.self = (s.pc p).self)
    (hold : ∀ l, s.pc p ≠ .sched l ∧ s.pc p ≠ .off l) (hx : ∀ l, x ≠ .sched l ∧ x ≠ .off l) : Locks (s.goto p x) := by
  refine h.of_at p (fun q hq => sameAt_goto hq) (fun _ _ => .rfl) ⟨?_, ?_, fun l hl => ?_, fun hp => ?_⟩
  · rw [goto_pc, hh]
    exact (h p).lk
  · rw [goto_pc, hs]
    exact (h p).plock
  · rw [goto_pc] at hl
    exact (hl.elim (hx l).1 (hx l).2).elim
  · obtain ⟨l, hl⟩ := (h p).sleeping hp
    exact (hl.elim (hold l).1 (hold l).2).elim

theorem wake_pi (c : PipeChan) : (s.wake c q).pi = s.pi := by unfold wake; split <;> rfl

theorem wake_lk (c : PipeChan) : (s.wake c q).lk = s.lk := by unfold wake; split <;> rfl

theorem wake_pc (c : PipeChan) : (s.wake c q).pc = s.pc := by unfold wake; split <;> rfl

theorem locks_wake (h : Locks s) (c : PipeChan) (q : Slot) : Locks (s.wake c q) := by
  unfold wake
  split
  · refine h.of_at q (fun r hr => ⟨rfl, rfl, Function.update_of_ne hr .., rfl⟩) (fun _ _ => .rfl)
      ⟨(h q).lk, (h q).plock, (h q).chan, fun hc => ?_⟩
    simp [setState] at hc
  · exact h

theorem kill_pi : (s.kill q).pi = s.pi := by unfold kill; dsimp only; split <;> rfl

theorem kill_lk : (s.kill q).lk = s.lk := by unfold kill; dsimp only; split <;> rfl

theorem kill_pc : (s.kill q).pc = s.pc := by unfold kill; dsimp only; split <;> rfl

theorem locks_kill (h : Locks s) (q : Slot) : Locks (s.kill q) := by
  have h' : Locks { s with killed := update s.killed q true } := fun p => (h p).of_same ⟨rfl, rfl, rfl, rfl⟩ .rfl
  unfold kill
  dsimp only
  split
  · refine h'.of_at q (fun r hr => ⟨rfl, rfl, Function.update_of_ne hr .., rfl⟩) (fun _ _ => .rfl)
      ⟨(h q).lk, (h q).plock, (h q).chan, fun hc => ?_⟩
    simp [setState] at hc
  · exact h'

theorem Locks.awake (h : Locks s) (hold : ∀ l, s.pc p ≠ .sched l ∧ s.pc p ≠ .off l) : s.state p ≠ .sleeping := by
  intro hp
  obtain ⟨l, hl⟩ := (h p).sleeping hp
  exact (hl.elim (hold l).1 (hold l).2).elim

/-- A process takes locks or gives them back and goes on. -/
theorem locksAt_goto (hl : s.lk = some p ↔ x.holds = true) (hp : s.plock p = if x.self then some p else none)
    (hn : s.state p ≠ .sleeping) (hx : ∀ l, x ≠ .sched l ∧ x ≠ .off l) : LocksAt (s.goto p x) p :=
  { lk := by rw [goto_pc]; exact hl
    plock := by rw [goto_pc]; exact hp
    chan := fun l hc => by rw [goto_pc] at hc; exact (hc.elim (hx l).1 (hx l).2).elim
    sleeping := fun hc => (hn hc).elim }

theorem locks_take (h : Locks s) (hlk : s.lk = none) (hh : x.holds = true) (hs : x.self = (s.pc p).self)
    (hold : ∀ l, s.pc p ≠ .sched l ∧ s.pc p ≠ .off l) (hx : ∀ l, x ≠ .sched l ∧ x ≠ .off l) : Locks ((s.setLk (some p)).goto p x) := by
  refine h.of_at p (fun q hq => ⟨rfl, rfl, rfl, Function.update_of_ne hq ..⟩) (fun q hq => ?_) (locksAt_goto ?_ ?_ (h.awake hold) hx)
  · simp [PipeSys.goto, setLk, hlk, hq.symm]
  · simp [setLk, hh]
  · rw [hs]
    exact (h p).plock

theorem locks_give (h : Locks s) (hpc : (s.pc p).holds = true) (hh : x.holds = false) (hs : x.self = (s.pc p).self)
    (hold : ∀ l, s.pc p ≠ .sched l ∧ s.pc p ≠ .off l) (hx : ∀ l, x ≠ .sched l ∧ x ≠ .off l) : Locks ((s.setLk none).goto p x) := by
  have hlk : s.lk = some p := (h p).lk.2 hpc
  refine h.of_at p (fun q hq => ⟨rfl, rfl, rfl, Function.update_of_ne hq ..⟩) (fun q hq => ?_) (locksAt_goto ?_ ?_ (h.awake hold) hx)
  · simp [PipeSys.goto, setLk, hlk, hq.symm]
  · simp [setLk, hh]
  · rw [hs]
    exact (h p).plock

theorem locks_turn (h : Locks s) (ht : Turn s p copied ch (s.pc p) t) : Locks t := by
  have hat := h p
  generalize hpc : s.pc p = x at ht
  -- a step at which `pi->lock` and the own lock stay where they are
  have plain : ∀ (u : PipeSys) (y : PipePc), Locks u → u.pc p = s.pc p → y.holds = x.holds → y.self = x.self →
      (∀ l, x ≠ .sched l ∧ x ≠ .off l) → (∀ l, y ≠ .sched l ∧ y ≠ .off l) → Locks (u.goto p y) := by
    intro u y hu hup hh hs hx hy
    rw [hpc] at hup
    exact hu.goto (by rw [hup, hh]) (by rw [hup, hs]) (by rwa [hup]) hy
  have hpi : ∀ pi y, y.holds = x.holds → y.self = x.self → (∀ l, x ≠ .sched l ∧ x ≠ .off l) → (∀ l, y ≠ .sched l ∧ y ≠ .off l) →
      Locks ((s.setPi pi).goto p y) := fun pi y => plain _ y (h.setPi pi) rfl
  have hself : ∀ y, y.holds = x.holds → y.self = x.self → (∀ l, x ≠ .sched l ∧ x ≠ .off l) → (∀ l, y ≠ .sched l ∧ y ≠ .off l) →
      Locks (s.goto p y) := fun y => plain s y h rfl
  cases ht with
  | acquire hlk => exact locks_take h hlk rfl (by rw [hpc]; rfl) (by simp [hpc]) (by simp)
  | close hlk => exact locks_take h hlk rfl (by rw [hpc]; rfl) (by simp [hpc]) (by simp)
  | gone | more | written | empty | some | killed | write | wait | full | room | putFails | read | wakeSelf | wokenSleep | wokenRet
  | wokenClosed => exact hself _ rfl rfl (by simp) (by simp)
  | put | get | getFails | setWrite | setRead => exact hpi _ _ rfl rfl (by simp) (by simp)
  | wake q => exact plain _ _ (locks_wake h _ q) (congrFun (wake_pc _) p) rfl rfl (by simp) (by simp)
  | drop => exact locks_give h (by rw [hpc]; rfl) rfl (by rw [hpc]; rfl) (by simp [hpc]) (by simp)
  | release => exact locks_give h (by rw [hpc]; rfl) rfl (by rw [hpc]; rfl) (by simp [hpc]) (by simp)
  | closed => exact (locks_give (x := .out) h (by rw [hpc]; rfl) rfl (by rw [hpc]; rfl) (by simp [hpc]) (by simp)).setPi _
  | lockSelf =>
    refine h.of_at p (fun q hq => ⟨Function.update_of_ne hq .., rfl, rfl, Function.update_of_ne hq ..⟩) (fun _ _ => .rfl)
      (locksAt_goto ?_ ?_ (h.awake (by simp [hpc])) (by simp))
    · exact hat.lk.trans (by rw [hpc]; rfl)
    · simp [setPlock, PipePc.self]
  | @mark l =>
    refine h.of_at p (fun q hq => ⟨rfl, Function.update_of_ne hq .., Function.update_of_ne hq .., Function.update_of_ne hq ..⟩)
      (fun _ _ => .rfl) ⟨?_, ?_, fun l' hl => ?_, fun _ => ⟨l, .inl goto_pc⟩⟩
    · rw [goto_pc]
      exact hat.lk.trans (by rw [hpc]; rfl)
    · rw [goto_pc]
      exact hat.plock.trans (by rw [hpc]; rfl)
    · rw [goto_pc] at hl
      obtain rfl : l = l' := by simpa using hl
      exact Function.update_self ..
  | @sched l =>
    refine h.of_at p (fun q hq => ⟨Function.update_of_ne hq .., rfl, rfl, Function.update_of_ne hq ..⟩) (fun _ _ => .rfl)
      ⟨?_, ?_, fun l' hl => ?_, fun _ => ⟨l, .inr goto_pc⟩⟩
    · rw [goto_pc]
      exact hat.lk.trans (by rw [hpc]; rfl)
    · rw [goto_pc]
      exact Function.update_self ..
    · rw [goto_pc] at hl
      obtain rfl : l = l' := by simpa using hl
      exact hat.chan l (.inl hpc)
  | tidy =>
    refine h.of_at p (fun q hq => ⟨rfl, Function.update_of_ne hq .., rfl, Function.update_of_ne hq ..⟩) (fun _ _ => .rfl)
      (locksAt_goto ?_ ?_ (h.awake (by simp [hpc])) (by simp))
    · exact hat.lk.trans (by rw [hpc]; rfl)
    · exact hat.plock.trans (by rw [hpc]; rfl)
  | unlockSelf =>
    refine h.of_at p (fun q hq => ⟨Function.update_of_ne hq .., rfl, rfl, Function.update_of_ne hq ..⟩) (fun _ _ => .rfl)
      (locksAt_goto ?_ ?_ (h.awake (by simp [hpc])) (by simp))
    · exact hat.lk.trans (by rw [hpc]; rfl)
    · exact Function.update_self ..

theorem locks_step {e : PipeEv} (h : Locks s) (hst : s.step e = some (.ok t)) : Locks t := by
  rcases step_cases hst with ⟨p, l, hpc, rfl⟩ | ⟨p, w, hpc, rfl⟩ | ⟨p, copied, ch, -, ht⟩ | ⟨p, l, hpc, hr, hl, rfl⟩ | ⟨q, -, rfl⟩
  · exact h.goto (by rw [hpc]; rfl) (by rw [hpc]; rfl) (by simp [hpc]) (by simp)
  · exact h.goto (by rw [hpc]; rfl) (by rw [hpc]; rfl) (by simp [hpc]) (by simp)
  · exact locks_turn h ht
  · refine h.of_at p (fun q hq => ⟨Function.update_of_ne hq .., rfl, Function.update_of_ne hq .., Function.update_of_ne hq ..⟩)
      (fun _ _ => .rfl) (locksAt_goto ?_ ?_ ?_ (by simp))
    · exact (h p).lk.trans (by rw [hpc]; rfl)
    · exact Function.update_self ..
    · simp [setState]
  · exact locks_kill h q

/-- A new pipe, and processes that run elsewhere. -/
def started : PipeSys where
  pi := { nread := 0, nwrite := 0, readopen := true, writeopen := true }
  lk := none
  plock _ := none
  state _ := .running
  chan _ := none
  killed _ := false
  pc _ := .out

theorem started_init : started.Init :=
  ⟨rfl, rfl, rfl, rfl, rfl, rfl, fun _ => rfl, fun _ => nofun, fun _ => rfl⟩

def reader : Slot := ⟨0, NPROC_pos⟩

def writer : Slot := ⟨1, one_lt_NPROC⟩

end PipeSys

end Xv6
