import Mathlib.Logic.Function.Basic
import Xv6.Lib.Lts
import Xv6.Param
import Xv6.Proc

/-!
# `sleep` and `wakeup`

One lock `lk`, one channel `chan` and one condition.  A sleeper runs

    acquire(lk); while(!cond) sleep(chan, lk); release(lk);

and a waker runs

    acquire(lk); cond = 1; wakeup(chan); release(lk);

A step is one acquisition or one release of a lock, or what a thread does between two of them.  Any process may run either
program any number of times, sleep on another channel in between, be killed while it sleeps, and wakers need not be
processes.  No wakeup is lost: when `lk` is free and the condition holds, nobody sleeps on `chan`
(`sleep_wakeup_not_lost`).
-/

namespace Xv6

/-- A thread of the kernel: that of a process, or one of `ι`, which have no process. -/
abbrev Agent (ι : Type) := Slot ⊕ ι

/-- The points of the two programs, with `sleep` and `wakeup` inlined. -/
inductive SleepPc
  -- other code
  | out
  -- the sleeper: `acquire(lk)`
  | acquire
  -- `while(!cond)`
  | test
  -- `sleep`: `acquire(&p->lock)`
  | lockSelf
  -- `release(lk)`
  | drop
  -- `p->chan = chan; p->state = SLEEPING`
  | mark
  -- `sched()`, after which the scheduler releases `p->lock`
  | sched
  -- switched out
  | off
  -- switched in by the scheduler, with `p->lock`: `p->chan = 0`
  | tidy
  -- `release(&p->lock)`
  | unlockSelf
  -- `release(lk)`
  | release
  -- the waker: `acquire(lk)`
  | wakerAcquire
  -- `cond = 1`
  | set
  -- `wakeup` is at slot `i`
  | loop (i : Nat)
  -- the lock of slot `i` is held
  | found (i : Nat)
  -- `release(&p->lock)`
  | next (i : Nat)
  -- `release(lk)`
  | wakerRelease

/-- The processes, the two kinds of locks with their holders, and the points of the threads. -/
structure SleepSys (C ι : Type) where
  cond : Bool
  lk : Option (Agent ι)
  plock : Slot → Option (Agent ι)
  state : Slot → ProcState
  chan : Slot → Option C
  pc : Agent ι → SleepPc

inductive SleepEv (C ι : Type)
  -- a thread starts one of the programs
  | sleeper (p : Slot)
  | waker (a : Agent ι)
  -- the next step of a thread
  | next (a : Agent ι)
  -- a process sleeps on another channel; `kill`, or a `wakeup` on another channel, wakes it up; the scheduler runs it
  | other (p : Slot) (c : C)
  | kill (p : Slot)
  | run (p : Slot)

namespace SleepSys

variable {C ι : Type} [DecidableEq C] [DecidableEq ι] (s : SleepSys C ι)

def goto (a : Agent ι) (x : SleepPc) : SleepSys C ι := { s with pc := Function.update s.pc a x }

/-- The section of `wakeup` under the lock of slot `q`. -/
def wakeup (chan : C) (q : Slot) : SleepSys C ι :=
  if s.state q = .sleeping ∧ s.chan q = some chan then { s with state := Function.update s.state q .runnable } else s

/-- The next step of thread `a`. -/
def nextOf (chan : C) (a : Agent ι) : SleepPc → Option (SleepSys C ι)
  | .out | .off => none
  | .acquire => if s.lk = none then some ({ s with lk := some a }.goto a .test) else none
  | .test => some (s.goto a (if s.cond then .release else .lockSelf))
  | .lockSelf =>
    match a with
    | .inl p => if s.plock p = none then some ({ s with plock := Function.update s.plock p (some a) }.goto a .drop) else none
    | .inr _ => none
  | .drop => some ({ s with lk := none }.goto a .mark)
  | .mark =>
    match a with
    | .inl p => some ({ s with chan := Function.update s.chan p (some chan), state := Function.update s.state p .sleeping }.goto
        a .sched)
    | .inr _ => none
  | .sched =>
    match a with
    | .inl p => some ({ s with plock := Function.update s.plock p none }.goto a .off)
    | .inr _ => none
  | .tidy =>
    match a with
    | .inl p => some ({ s with chan := Function.update s.chan p none }.goto a .unlockSelf)
    | .inr _ => none
  | .unlockSelf =>
    match a with
    | .inl p => some ({ s with plock := Function.update s.plock p none }.goto a .acquire)
    | .inr _ => none
  | .release => some ({ s with lk := none }.goto a .out)
  | .wakerAcquire => if s.lk = none then some ({ s with lk := some a }.goto a .set) else none
  | .set => some ({ s with cond := true }.goto a (.loop 0))
  | .loop i =>
    if h : i < NPROC then
      -- `p != myproc()`
      if a = .inl ⟨i, h⟩ then some (s.goto a (.loop (i + 1)))
      else if s.plock ⟨i, h⟩ = none then
        some ({ s with plock := Function.update s.plock ⟨i, h⟩ (some a) }.goto a (.found i))
      else none
    else some (s.goto a .wakerRelease)
  | .found i => if h : i < NPROC then some ((s.wakeup chan ⟨i, h⟩).goto a (.next i)) else none
  | .next i =>
    if h : i < NPROC then some ({ s with plock := Function.update s.plock ⟨i, h⟩ none }.goto a (.loop (i + 1))) else none
  | .wakerRelease => some ({ s with lk := none }.goto a .out)

/-- The steps of the system. -/
def step (chan : C) : SleepEv C ι → Option (SleepSys C ι)
  | .sleeper p =>
    match s.pc (.inl p), s.state p with
    | .out, .running => some (s.goto (.inl p) .acquire)
    | _, _ => none
  | .waker a =>
    match s.pc a, a with
    | .out, .inl p => if s.state p = .running then some (s.goto a .wakerAcquire) else none
    | .out, .inr _ => some (s.goto a .wakerAcquire)
    | _, _ => none
  | .next a => s.nextOf chan a (s.pc a)
  | .other p c =>
    match s.pc (.inl p) with
    | .out =>
      if s.plock p = none ∧ s.state p = .running ∧ c ≠ chan then
        some { s with chan := Function.update s.chan p (some c), state := Function.update s.state p .sleeping }
      else none
    | _ => none
  | .kill p =>
    if s.plock p = none ∧ s.state p = .sleeping then some { s with state := Function.update s.state p .runnable } else none
  | .run p =>
    if s.plock p = none ∧ s.state p = .runnable then
      match s.pc (.inl p) with
      -- in `sleep` on `chan`
      | .off =>
        some ({ s with state := Function.update s.state p .running, plock := Function.update s.plock p (some (.inl p)) }.goto
          (.inl p) .tidy)
      | _ => some { s with state := Function.update s.state p .running, chan := Function.update s.chan p none }
    else none

/-- All threads are outside the two programs, and no process sleeps on `chan`; the condition may hold. -/
def Init (chan : C) : Prop :=
  s.lk = none ∧ (∀ p, s.plock p = none) ∧ (∀ a, s.pc a = .out) ∧ ∀ p, s.state p = .sleeping → s.chan p ≠ some chan

end SleepSys

/-- All runs of sleepers and wakers. -/
def sleepLts {C ι : Type} [DecidableEq C] [DecidableEq ι] (chan : C) : Lts (SleepSys C ι) (SleepEv C ι) :=
  .ofFun (fun s => s.Init chan) fun s e => (s.step chan e).map .ok

/-! ### Locks -/

namespace SleepPc

/-- `lk` is held at this point. -/
def holds : SleepPc → Bool
  | test | lockSelf | drop | release | set | loop _ | found _ | next _ | wakerRelease => true
  | _ => false

/-- The process whose lock thread `a` holds. -/
def plock {ι : Type} (x : SleepPc) (a : Agent ι) : Option Slot :=
  match x, a with
  | drop, .inl p | mark, .inl p | sched, .inl p | tidy, .inl p | unlockSelf, .inl p => some p
  | found i, _ | next i, _ => if h : i < NPROC then some ⟨i, h⟩ else none
  | _, _ => none

/-- The loop of `wakeup` has not passed process `p`. -/
def reaches (x : SleepPc) (p : Slot) : Bool :=
  match x with
  | loop i | found i => i ≤ p.val
  | next i => i < p.val
  | _ => false

/-- The process is in `sched`. -/
def sleeps : SleepPc → Bool
  | sched | off => true
  | _ => false

/-- The process has found the condition false and still holds `lk`. -/
def tested : SleepPc → Bool
  | lockSelf | drop => true
  | _ => false

/-- The process is about to mark itself `SLEEPING`. -/
def marks : SleepPc → Bool
  | mark => true
  | _ => false

theorem holds_of_tested {x : SleepPc} (h : x.tested = true) : x.holds = true := by
  cases x <;> first | rfl | cases h

theorem holds_of_reaches {x : SleepPc} {p : Slot} (h : x.reaches p = true) : x.holds = true := by
  cases x <;> first | rfl | cases h

end SleepPc

namespace SleepSys

section

variable {C ι : Type} {s s' : SleepSys C ι} {chan : C}

/-- The holders of the locks are at points at which they hold them. -/
structure Locks (s : SleepSys C ι) : Prop where
  lk : ∀ a, s.lk = some a ↔ (s.pc a).holds = true
  plock : ∀ a p, (s.pc a).plock a = some p → s.plock p = some a

/-- The process sleeps on `chan`, or is about to. -/
def Committed (s : SleepSys C ι) (chan : C) (p : Slot) : Prop :=
  (s.pc (.inl p)).marks = true ∨ s.state p = .sleeping ∧ s.chan p = some chan

/-- A process that sleeps on `chan` while the condition holds will be found by a `wakeup`. -/
structure Woken (s : SleepSys C ι) (chan : C) : Prop where
  asleep : ∀ p, s.state p = .sleeping → s.chan p = some chan → (s.pc (.inl p)).sleeps = true
  tested : ∀ a, (s.pc a).tested = true → s.cond = false
  woken : s.cond = true → ∀ p, s.Committed chan p → ∃ a, (s.pc a).reaches p = true

variable [DecidableEq ι]

theorem Locks.move {a : Agent ι} {y : SleepPc} (h : s.Locks) (hpc : s'.pc = Function.update s.pc a y)
    (hlk : y.holds = (s.pc a).holds ∧ s'.lk = s.lk ∨ y.holds = true ∧ s.lk = none ∧ s'.lk = some a ∨
      y.holds = false ∧ (s.pc a).holds = true ∧ s'.lk = none)
    (hpl : y.plock a = (s.pc a).plock a ∧ s'.plock = s.plock ∨
      (∃ p, y.plock a = some p ∧ s.plock p = none ∧ s'.plock = Function.update s.plock p (some a)) ∨
      ∃ p, (s.pc a).plock a = some p ∧ y.plock a = none ∧ s'.plock = Function.update s.plock p none) : s'.Locks := by
  have hcase : ∀ b, b = a ∧ s'.pc b = y ∨ b ≠ a ∧ s'.pc b = s.pc b := by
    intro b
    rw [hpc]
    by_cases hb : b = a
    · exact .inl ⟨hb, by rw [hb, Function.update_self]⟩
    · exact .inr ⟨hb, Function.update_of_ne hb ..⟩
  constructor
  · intro b
    rcases hcase b with ⟨rfl, h1⟩ | ⟨hba, h1⟩ <;> rw [h1]
    · rcases hlk with ⟨h2, h3⟩ | ⟨h2, -, h3⟩ | ⟨h2, -, h3⟩ <;> rw [h2, h3]
      · exact h.lk b
      · simp
      · simp
    · rcases hlk with ⟨-, h3⟩ | ⟨-, h2, h3⟩ | ⟨-, h2, h3⟩ <;> rw [h3]
      · exact h.lk b
      · refine iff_of_false (by simpa using Ne.symm hba) fun hb => ?_
        rw [(h.lk b).2 hb] at h2
        cases h2
      · refine iff_of_false nofun fun hb => ?_
        have := ((h.lk b).2 hb).symm.trans ((h.lk a).2 h2)
        exact hba (Option.some.inj this)
  · intro b p hb
    rcases hcase b with ⟨rfl, h1⟩ | ⟨hba, h1⟩ <;> rw [h1] at hb
    · rcases hpl with ⟨h2, h3⟩ | ⟨r, h2, -, h3⟩ | ⟨r, -, h2, -⟩ <;> rw [h2] at hb
      · rw [h3]
        exact h.plock b p hb
      · rw [h3, ← Option.some.inj hb, Function.update_self]
      · cases hb
    · have hold := h.plock b p hb
      rcases hpl with ⟨-, h3⟩ | ⟨r, -, h2, h3⟩ | ⟨r, h2, -, h3⟩ <;> rw [h3]
      · exact hold
      · have hpr : p ≠ r := by
          rintro rfl
          rw [h2] at hold
          cases hold
        rwa [Function.update_of_ne hpr]
      · have hpr : p ≠ r := by
          rintro rfl
          rw [h.plock a p h2] at hold
          exact hba (Option.some.inj hold).symm
        rwa [Function.update_of_ne hpr]

/-- A thread moves, and no process falls asleep on `chan`. -/
theorem Woken.move {a : Agent ι} {y : SleepPc} (h : s.Woken chan) (hpc : s'.pc = Function.update s.pc a y)
    (hc : s'.cond = s.cond)
    (hst : ∀ p, s'.state p = .sleeping → s'.chan p = some chan → s.state p = .sleeping ∧ s.chan p = some chan)
    (hs : ∀ p, a = .inl p → s'.state p = .sleeping → s'.chan p = some chan → y.sleeps = true)
    (ht : y.tested = true → s.cond = false) (hm : y.marks = true → s.cond = false)
    (hr : s.cond = true → ∀ p, s'.Committed chan p → (s.pc a).reaches p = true → y.reaches p = true) : s'.Woken chan := by
  have hcase : ∀ b, b = a ∧ s'.pc b = y ∨ b ≠ a ∧ s'.pc b = s.pc b := by
    intro b
    rw [hpc]
    by_cases hb : b = a
    · exact .inl ⟨hb, by rw [hb, Function.update_self]⟩
    · exact .inr ⟨hb, Function.update_of_ne hb ..⟩
  refine ⟨?_, ?_, ?_⟩
  · intro p h1 h2
    rcases hcase (.inl p) with ⟨ha, h3⟩ | ⟨-, h3⟩ <;> rw [h3]
    · exact hs p ha.symm h1 h2
    · exact h.asleep p (hst p h1 h2).1 (hst p h1 h2).2
  · intro b hb
    rw [hc]
    rcases hcase b with ⟨-, h3⟩ | ⟨-, h3⟩ <;> rw [h3] at hb
    · exact ht hb
    · exact h.tested b hb
  · intro hcond p hp
    rw [hc] at hcond
    have hold : s.Committed chan p := by
      rcases hp with hp | ⟨h1, h2⟩
      · rcases hcase (.inl p) with ⟨-, h3⟩ | ⟨-, h3⟩ <;> rw [h3] at hp
        · rw [hm hp] at hcond
          cases hcond
        · exact .inl hp
      · exact .inr (hst p h1 h2)
    obtain ⟨b, hb⟩ := h.woken hcond p hold
    rcases hcase b with ⟨rfl, h3⟩ | ⟨-, h3⟩
    · exact ⟨b, by rw [h3]; exact hr hcond p hp hb⟩
    · exact ⟨b, by rwa [h3]⟩

/-- A step that changes no process and not the condition. -/
private theorem Woken.stay {a : Agent ι} {y : SleepPc} (h : s.Woken chan) (hpc : s'.pc = Function.update s.pc a y)
    (hc : s'.cond = s.cond) (hst : s'.state = s.state) (hch : s'.chan = s.chan)
    (hs : (s.pc a).sleeps = true → y.sleeps = true) (ht : y.tested = true → s.cond = false)
    (hm : y.marks = true → s.cond = false)
    (hr : ∀ p, s.Committed chan p → (s.pc a).reaches p = true → y.reaches p = true) : s'.Woken chan := by
  refine h.move hpc hc ?_ ?_ ht hm ?_
  · rw [hst, hch]
    exact fun p h1 h2 => ⟨h1, h2⟩
  · rw [hst, hch]
    rintro p rfl h1 h2
    exact hs (h.asleep p h1 h2)
  · intro hcond p hp
    refine hr p ?_
    rw [Committed, hst, hch, hpc] at hp
    rcases hp with hp | hp
    · by_cases hpa : Sum.inl p = a
      · subst hpa
        rw [Function.update_self] at hp
        rw [hm hp] at hcond
        cases hcond
      · rw [Function.update_of_ne hpa] at hp
        exact .inl hp
    · exact .inr hp

variable [DecidableEq C]

omit [DecidableEq ι] in
/-- `wakeup` leaves a process asleep only if it sleeps on another channel. -/
private theorem wakeup_eq (s : SleepSys C ι) (chan : C) (q : Slot) : (s.wakeup chan q).pc = s.pc ∧
    (s.wakeup chan q).cond = s.cond ∧
    (∀ p, (s.wakeup chan q).chan p = s.chan p) ∧
    ∀ p, (s.wakeup chan q).state p = .sleeping → s.state p = .sleeping ∧ (p = q → s.chan p ≠ some chan) := by
  unfold SleepSys.wakeup
  split
  · refine ⟨rfl, rfl, fun _ => rfl, fun p hp => ?_⟩
    by_cases hpq : p = q
    · simp [hpq] at hp
    · simp only [Function.update_of_ne hpq] at hp
      exact ⟨hp, fun h => absurd h hpq⟩
  · rename_i hn
    refine ⟨rfl, rfl, fun _ => rfl, fun p hp => ⟨hp, ?_⟩⟩
    rintro rfl hc
    exact hn ⟨hp, hc⟩

theorem Locks.next {a : Agent ι} (h : s.Locks) (hs : s.nextOf chan a (s.pc a) = some s') : s'.Locks := by
  cases hx : s.pc a <;> rw [hx] at hs <;> simp only [nextOf] at hs
  case out => cases hs
  case off => cases hs
  case acquire =>
    split at hs
    · cases hs
      exact h.move rfl (.inr (.inl ⟨rfl, ‹_›, rfl⟩)) (.inl ⟨by rw [hx]; rfl, rfl⟩)
    · cases hs
  case test =>
    cases hs
    refine h.move rfl (.inl ⟨?_, rfl⟩) (.inl ⟨?_, rfl⟩) <;> rw [hx] <;> split <;> rfl
  case lockSelf =>
    split at hs
    · split at hs
      · cases hs
        exact h.move rfl (.inl ⟨by rw [hx]; rfl, rfl⟩) (.inr (.inl ⟨_, rfl, ‹_›, rfl⟩))
      · cases hs
    · cases hs
  case drop =>
    cases hs
    refine h.move rfl (.inr (.inr ⟨rfl, by rw [hx]; rfl, rfl⟩)) (.inl ⟨?_, rfl⟩)
    rw [hx]
    cases a <;> rfl
  case mark =>
    split at hs
    · cases hs
      exact h.move rfl (.inl ⟨by rw [hx]; rfl, rfl⟩) (.inl ⟨by rw [hx]; rfl, rfl⟩)
    · cases hs
  case sched =>
    split at hs
    · cases hs
      exact h.move rfl (.inl ⟨by rw [hx]; rfl, rfl⟩) (.inr (.inr ⟨_, by rw [hx]; rfl, rfl, rfl⟩))
    · cases hs
  case tidy =>
    split at hs
    · cases hs
      exact h.move rfl (.inl ⟨by rw [hx]; rfl, rfl⟩) (.inl ⟨by rw [hx]; rfl, rfl⟩)
    · cases hs
  case unlockSelf =>
    split at hs
    · cases hs
      exact h.move rfl (.inl ⟨by rw [hx]; rfl, rfl⟩) (.inr (.inr ⟨_, by rw [hx]; rfl, rfl, rfl⟩))
    · cases hs
  case release =>
    cases hs
    exact h.move rfl (.inr (.inr ⟨rfl, by rw [hx]; rfl, rfl⟩)) (.inl ⟨by rw [hx]; rfl, rfl⟩)
  case wakerAcquire =>
    split at hs
    · cases hs
      exact h.move rfl (.inr (.inl ⟨rfl, ‹_›, rfl⟩)) (.inl ⟨by rw [hx]; rfl, rfl⟩)
    · cases hs
  case set =>
    cases hs
    exact h.move rfl (.inl ⟨by rw [hx]; rfl, rfl⟩) (.inl ⟨by rw [hx]; rfl, rfl⟩)
  case loop i =>
    split at hs
    · rename_i hi
      split at hs
      · cases hs
        exact h.move rfl (.inl ⟨by rw [hx]; rfl, rfl⟩) (.inl ⟨by rw [hx]; rfl, rfl⟩)
      · split at hs
        · cases hs
          exact h.move rfl (.inl ⟨by rw [hx]; rfl, rfl⟩) (.inr (.inl ⟨⟨i, hi⟩, dif_pos hi, ‹_›, rfl⟩))
        · cases hs
    · cases hs
      exact h.move rfl (.inl ⟨by rw [hx]; rfl, rfl⟩) (.inl ⟨by rw [hx]; rfl, rfl⟩)
  case found i =>
    split at hs
    · rename_i hi
      cases hs
      have hsame : ∀ q, (s.wakeup chan q).lk = s.lk ∧ (s.wakeup chan q).plock = s.plock ∧ (s.wakeup chan q).pc = s.pc := by
        intro q
        unfold SleepSys.wakeup
        split <;> exact ⟨rfl, rfl, rfl⟩
      obtain ⟨h1, h2, h3⟩ := hsame ⟨i, hi⟩
      refine h.move (a := a) (y := .next i) ?_ (.inl ⟨by rw [hx]; rfl, h1⟩) (.inl ⟨by rw [hx]; rfl, h2⟩)
      rw [goto, h3]
    · cases hs
  case next i =>
    split at hs
    · rename_i hi
      cases hs
      exact h.move rfl (.inl ⟨by rw [hx]; rfl, rfl⟩) (.inr (.inr ⟨⟨i, hi⟩, by rw [hx]; exact dif_pos hi, rfl, rfl⟩))
    · cases hs
  case wakerRelease =>
    cases hs
    exact h.move rfl (.inr (.inr ⟨rfl, by rw [hx]; rfl, rfl⟩)) (.inl ⟨by rw [hx]; rfl, rfl⟩)

theorem Woken.next {a : Agent ι} (h : s.Woken chan) (hL : s.Locks) (hs : s.nextOf chan a (s.pc a) = some s') :
    s'.Woken chan := by
  cases hx : s.pc a <;> rw [hx] at hs <;> simp only [nextOf] at hs
  case out => cases hs
  case off => cases hs
  case test =>
    cases hs
    refine h.stay rfl rfl rfl rfl (by rw [hx]; nofun) ?_ ?_ (by rw [hx]; nofun)
    · intro hy
      by_contra hc
      rw [if_pos (by simpa using hc)] at hy
      cases hy
    · intro hy
      split at hy <;> cases hy
  case lockSelf =>
    split at hs
    · rename_i p
      split at hs
      · cases hs
        exact h.stay rfl rfl rfl rfl (by rw [hx]; nofun) (fun _ => h.tested (.inl p) (by rw [hx]; rfl)) nofun (by rw [hx]; nofun)
      · cases hs
    · cases hs
  case drop =>
    cases hs
    have hc := h.tested a (by rw [hx]; rfl)
    exact h.stay rfl rfl rfl rfl (by rw [hx]; nofun) nofun (fun _ => hc) (by rw [hx]; nofun)
  case mark =>
    split at hs
    · rename_i p
      cases hs
      -- the process was already counted as one that sleeps
      refine ⟨?_, ?_, ?_⟩
      · intro q h1 h2
        by_cases hq : q = p
        · subst hq
          simp [goto, SleepPc.sleeps]
        · have hne : (Sum.inl q : Agent ι) ≠ .inl p := by simpa using hq
          simp only [goto, Function.update_of_ne hq, Function.update_of_ne hne] at h1 h2 ⊢
          exact h.asleep q h1 h2
      · intro b hb
        by_cases hbp : b = .inl p
        · subst hbp
          simp [goto, SleepPc.tested] at hb
        · simp only [goto, Function.update_of_ne hbp] at hb
          exact h.tested b hb
      · intro hc q hq
        have hold : s.Committed chan q := by
          by_cases hqp : q = p
          · subst hqp
            exact .inl (by rw [hx]; rfl)
          · have hne : (Sum.inl q : Agent ι) ≠ .inl p := by simpa using hqp
            simpa only [Committed, goto, Function.update_of_ne hqp, Function.update_of_ne hne] using hq
        obtain ⟨b, hb⟩ := h.woken hc q hold
        have hbp : b ≠ .inl p := by
          rintro rfl
          rw [hx] at hb
          cases hb
        refine ⟨b, ?_⟩
        simp only [goto, Function.update_of_ne hbp]
        exact hb
    · cases hs
  case sched =>
    split at hs
    · cases hs
      exact h.stay rfl rfl rfl rfl (fun _ => rfl) nofun nofun (by rw [hx]; nofun)
    · cases hs
  case tidy =>
    split at hs
    · rename_i p
      cases hs
      have hch : ∀ q, Function.update s.chan p none q = some chan → q ≠ p ∧ s.chan q = some chan := by
        intro q hq
        by_cases hqp : q = p
        · rw [hqp, Function.update_self] at hq
          cases hq
        · rw [Function.update_of_ne hqp] at hq
          exact ⟨hqp, hq⟩
      refine h.move rfl rfl (fun q h1 h2 => ⟨h1, (hch q h2).2⟩) ?_ nofun nofun (by rw [hx]; nofun)
      intro q hq _ h2
      exact absurd (Sum.inl.inj hq).symm (hch q h2).1
    · cases hs
  case set =>
    cases hs
    have hlk : s.lk = some a := (hL.lk a).2 (by rw [hx]; rfl)
    refine ⟨?_, ?_, ?_⟩
    · intro q h1 h2
      have hold := h.asleep q h1 h2
      have hne : (Sum.inl q : Agent ι) ≠ a := by
        rintro rfl
        rw [hx] at hold
        cases hold
      simpa only [goto, Function.update_of_ne hne] using hold
    · intro b hb
      exfalso
      by_cases hba : b = a
      · simp [goto, hba, SleepPc.tested] at hb
      · simp only [goto, Function.update_of_ne hba] at hb
        have := (hL.lk _).2 (SleepPc.holds_of_tested hb)
        rw [hlk] at this
        exact hba (Option.some.inj this).symm
    · intro _ q _
      exact ⟨a, by simp [goto, SleepPc.reaches]⟩
  case loop i =>
    split at hs
    · rename_i hi
      split at hs
      · rename_i ha
        cases hs
        refine h.stay rfl rfl rfl rfl (by rw [hx]; nofun) nofun nofun ?_
        intro q hq hr
        rw [hx] at hr
        have hle : i ≤ q.val := by simpa [SleepPc.reaches] using hr
        -- the waker itself neither sleeps nor is about to
        have hne : q ≠ ⟨i, hi⟩ := by
          rintro rfl
          rw [ha] at hx
          rcases hq with hq | ⟨h1, h2⟩
          · rw [hx] at hq
            cases hq
          · have := h.asleep _ h1 h2
            rw [hx] at this
            cases this
        have : i ≠ q.val := fun h => hne (Fin.ext h.symm)
        simp only [SleepPc.reaches, decide_eq_true_eq]
        omega
      · split at hs
        · cases hs
          exact h.stay rfl rfl rfl rfl (by rw [hx]; nofun) nofun nofun (by rw [hx]; exact fun _ _ => id)
        · cases hs
    · rename_i hi
      cases hs
      refine h.stay rfl rfl rfl rfl (by rw [hx]; nofun) nofun nofun ?_
      intro q _ hr
      rw [hx] at hr
      have hle : i ≤ q.val := by simpa [SleepPc.reaches] using hr
      have := q.isLt
      omega
  case found i =>
    split at hs
    · rename_i hi
      cases hs
      have hown : s.plock ⟨i, hi⟩ = some a := hL.plock a ⟨i, hi⟩ (by rw [hx]; exact dif_pos hi)
      obtain ⟨hpc, hc, hch, hst⟩ := wakeup_eq s chan ⟨i, hi⟩
      refine h.move (a := a) (y := .next i) (by rw [goto, hpc]) hc ?_ ?_ nofun nofun ?_
      · intro q h1 h2
        exact ⟨(hst q h1).1, (hch q).symm.trans h2⟩
      · rintro q rfl h1 h2
        have := h.asleep q (hst q h1).1 ((hch q).symm.trans h2)
        rw [hx] at this
        cases this
      · intro _ q hq hr
        rw [hx] at hr
        have hle : i ≤ q.val := by simpa [SleepPc.reaches] using hr
        -- the process has been woken up, and cannot be about to sleep: it does not hold its lock
        have hne : q ≠ ⟨i, hi⟩ := by
          rintro rfl
          rcases hq with hq | ⟨h1, h2⟩
          · by_cases hqa : Sum.inl ⟨i, hi⟩ = a
            · simp [goto, hqa, SleepPc.marks] at hq
            · simp only [goto, Function.update_of_ne hqa, hpc] at hq
              have hm : s.pc (.inl ⟨i, hi⟩) = .mark := by
                cases hy : s.pc (.inl ⟨i, hi⟩) <;> rw [hy] at hq <;> first | rfl | cases hq
              have := hL.plock (.inl ⟨i, hi⟩) ⟨i, hi⟩ (by rw [hm]; rfl)
              rw [hown] at this
              exact hqa (Option.some.inj this).symm
          · exact (hst _ h1).2 rfl ((hch _).symm.trans h2)
        have : i ≠ q.val := fun h => hne (Fin.ext h.symm)
        simp only [SleepPc.reaches, decide_eq_true_eq]
        omega
    · cases hs
  case next i =>
    split at hs
    · rename_i hi
      cases hs
      refine h.stay rfl rfl rfl rfl (by rw [hx]; nofun) nofun nofun ?_
      intro q _ hr
      rw [hx] at hr
      exact hr
    · cases hs
  all_goals
    first
      | (cases hs; exact h.stay rfl rfl rfl rfl (by rw [hx]; nofun) nofun nofun (by rw [hx]; nofun))
      | (split at hs
         · cases hs
           exact h.stay rfl rfl rfl rfl (by rw [hx]; nofun) nofun nofun (by rw [hx]; nofun)
         · cases hs)

omit [DecidableEq ι] [DecidableEq C] in
theorem Init.inv (h : s.Init chan) : s.Locks ∧ s.Woken chan := by
  obtain ⟨hlk, -, hpc, hst⟩ := h
  refine ⟨⟨?_, ?_⟩, ⟨?_, ?_, ?_⟩⟩
  · intro a
    rw [hlk, hpc]
    simp [SleepPc.holds]
  · intro a p hp
    rw [hpc] at hp
    cases hp
  · exact fun p h1 h2 => absurd h2 (hst p h1)
  · intro a ha
    rw [hpc] at ha
    cases ha
  · rintro _ p (hp | ⟨h1, h2⟩)
    · rw [hpc] at hp
      cases hp
    · exact absurd h2 (hst p h1)

omit [DecidableEq C] in
/-- A thread starts one of the two programs. -/
private theorem start {a : Agent ι} {y : SleepPc} (hL : s.Locks) (hW : s.Woken chan) (hx : s.pc a = .out)
    (hy : y = .acquire ∨ y = .wakerAcquire) : (s.goto a y).Locks ∧ (s.goto a y).Woken chan := by
  rcases hy with rfl | rfl <;>
    exact ⟨hL.move rfl (.inl ⟨by rw [hx]; rfl, rfl⟩) (.inl ⟨by rw [hx]; rfl, rfl⟩),
      hW.stay rfl rfl rfl rfl (by rw [hx]; nofun) nofun nofun (by rw [hx]; nofun)⟩

omit [DecidableEq ι] [DecidableEq C] in
/-- No thread moves and no process falls asleep on `chan`. -/
private theorem still (hL : s.Locks) (hW : s.Woken chan) (hpc : s'.pc = s.pc) (hlk : s'.lk = s.lk)
    (hpl : s'.plock = s.plock) (hc : s'.cond = s.cond)
    (hst : ∀ p, s'.state p = .sleeping → s'.chan p = some chan → s.state p = .sleeping ∧ s.chan p = some chan) :
    s'.Locks ∧ s'.Woken chan := by
  refine ⟨⟨?_, ?_⟩, ⟨?_, ?_, ?_⟩⟩
  · rw [hlk, hpc]
    exact hL.lk
  · rw [hpl, hpc]
    exact hL.plock
  · rw [hpc]
    exact fun p h1 h2 => hW.asleep p (hst p h1 h2).1 (hst p h1 h2).2
  · rw [hpc, hc]
    exact hW.tested
  · rw [hpc, hc]
    rintro hcond p (hp | ⟨h1, h2⟩)
    · exact hW.woken hcond p (.inl (by rwa [hpc] at hp))
    · exact hW.woken hcond p (.inr (hst p h1 h2))

theorem Locks.step (hL : s.Locks) (hW : s.Woken chan) {e : SleepEv C ι} (hs : s.step chan e = some s') :
    s'.Locks ∧ s'.Woken chan := by
  cases e with
  | sleeper p =>
    simp only [SleepSys.step] at hs
    split at hs
    · cases hs
      exact start hL hW ‹_› (.inl rfl)
    · cases hs
  | waker a =>
    simp only [SleepSys.step] at hs
    split at hs
    · split at hs
      · cases hs
        exact start hL hW ‹_› (.inr rfl)
      · cases hs
    · cases hs
      exact start hL hW ‹_› (.inr rfl)
    · cases hs
  | next a => exact ⟨hL.next hs, hW.next hL hs⟩
  | other p c =>
    simp only [SleepSys.step] at hs
    split at hs
    · split at hs
      · rename_i hp
        cases hs
        refine still hL hW rfl rfl rfl rfl fun q h1 h2 => ?_
        by_cases hq : q = p
        · simp only [hq, Function.update_self, Option.some.injEq] at h2
          exact absurd h2 hp.2.2
        · simp only [Function.update_of_ne hq] at h1 h2
          exact ⟨h1, h2⟩
      · cases hs
    · cases hs
  | kill p =>
    simp only [SleepSys.step] at hs
    split at hs
    · cases hs
      refine still hL hW rfl rfl rfl rfl fun q h1 h2 => ?_
      by_cases hq : q = p
      · simp [hq] at h1
      · simp only [Function.update_of_ne hq] at h1
        exact ⟨h1, h2⟩
    · cases hs
  | run p =>
    simp only [SleepSys.step] at hs
    split at hs
    · rename_i hp
      split at hs
      · rename_i hx
        cases hs
        refine ⟨hL.move rfl (.inl ⟨by rw [hx]; rfl, rfl⟩) (.inr (.inl ⟨p, rfl, hp.1, rfl⟩)), ?_⟩
        refine hW.move rfl rfl ?_ ?_ nofun nofun (by rw [hx]; nofun)
        · intro q h1 h2
          by_cases hq : q = p
          · simp [goto, hq] at h1
          · simp only [goto, Function.update_of_ne hq] at h1
            exact ⟨h1, h2⟩
        · rintro q hq h1 -
          simp [goto, Sum.inl.inj hq] at h1
      · cases hs
        refine still hL hW rfl rfl rfl rfl fun q h1 h2 => ?_
        by_cases hq : q = p
        · simp [hq] at h1
        · simp only [Function.update_of_ne hq] at h1 h2
          exact ⟨h1, h2⟩
    · cases hs

end

end SleepSys

theorem sleepLts_inv {C ι : Type} [DecidableEq C] [DecidableEq ι] {chan : C} {s : SleepSys C ι}
    (h : (sleepLts chan).Reachable s) : s.Locks ∧ s.Woken chan := by
  refine h.invariant (I := fun s => s.Locks ∧ s.Woken chan) (fun s h0 => SleepSys.Init.inv h0) ?_
  rintro s e s' ⟨hL, hW⟩ hst
  have hst' : (s.step chan e).map (Except.ok (ε := String)) = some (.ok s') := hst
  obtain ⟨u, hu, huv⟩ := Option.map_eq_some_iff.1 hst'
  cases huv
  exact hL.step hW hu

/-- When `lk` is free and the condition holds, no process sleeps on `chan`. -/
theorem sleep_wakeup_not_lost {C ι : Type} [DecidableEq C] [DecidableEq ι] {chan : C} {s : SleepSys C ι}
    (h : (sleepLts chan).Reachable s) (hlk : s.lk = none) (hc : s.cond = true) (p : Slot) :
    ¬ (s.state p = .sleeping ∧ s.chan p = some chan) := by
  intro hp
  obtain ⟨hL, hW⟩ := sleepLts_inv h
  obtain ⟨a, ha⟩ := hW.woken hc p (.inr hp)
  rw [(hL.lk a).2 (SleepPc.holds_of_reaches ha)] at hlk
  cases hlk

/-- All processes run, and the condition does not hold. -/
def SleepSys.quiet : SleepSys Unit Unit where
  cond := false
  lk := none
  plock _ := none
  state _ := .running
  chan _ := none
  pc _ := .out

/-- Process 0 sleeps, and a thread without a process wakes it up. -/
def sleepWakeRun : List (SleepEv Unit Unit) :=
  [.sleeper ⟨0, NPROC_pos⟩] ++ List.replicate 6 (.next (.inl ⟨0, NPROC_pos⟩)) ++ [.waker (.inr ())] ++
    List.replicate 196 (.next (.inr ()))

theorem sleep_wakeup_not_lost_run : ∃ s : SleepSys Unit Unit, s.lk = none ∧ s.cond = true ∧
    s.state ⟨0, by decide⟩ = .runnable ∧ ∀ p, ¬ (s.state p = .sleeping ∧ s.chan p = some ()) := by
  obtain ⟨s, hr, hs⟩ := Lts.Reachable.replay_any (C := fun _ _ => True)
    (f := fun (s : SleepSys Unit Unit) e => (s.step () e).map .ok) (c := fun _ _ => true) (fun _ _ _ => trivial)
    (l := sleepWakeRun) (s := .quiet) (I := fun s => s.Init ()) ⟨rfl, fun _ => rfl, fun _ => rfl, nofun⟩
    (P := fun s => decide (s.lk = none ∧ s.cond = true ∧ s.state ⟨0, by decide⟩ = .runnable)) (by decide +kernel)
  obtain ⟨h1, h2, h3⟩ := of_decide_eq_true hs
  exact ⟨s, h1, h2, h3, sleep_wakeup_not_lost hr.of_guard h1 h2⟩

end Xv6
