import Xv6.ProcSect

/-!
# The tables seen by their links

For the question which process and which container is on which list, a thread matters only by what it has in hand
(`Role`), and most sections change nothing.  `View` keeps the lists, the fields `state` and `contp` and the roles;
`View.Step` and `View.Fail` list the moves, and every section is a move or leaves the view alone (`Sect.view`).
-/

namespace Xv6

/-- What the point of a thread says about the tables. -/
inductive Role
  | idle
  | contTaken (c : ContId)
  | contNew (c : ContId)
  | forking (c : ContId) (fr : Bool)
  | took (c : ContId) (fr : Bool) (np : Slot)
  | locked (c : ContId) (fr : Bool) (np : Slot)
  | made (c : ContId) (fr : Bool) (np : Slot)
  | listed (c : ContId) (fr : Bool) (np : Slot)
  | grown (c : ContId) (fr : Bool) (np : Slot)
  | ready (c : ContId) (fr : Bool) (np : Slot)
  | freed (q : Slot)
  | emptied (q : Slot)
  | contGone (q : Slot)
  | unlinked (q : Slot)
  | killing (q : Slot)
  | exiting

/-- A thread: its role, the process that its `wakeup`, if it is in one, is about to push, and the way it leaves its hart. -/
structure ThView where
  role : Role
  waking : Option (Option Slot)
  sw : Sw
  kept : List ContId

structure View where
  unused : List Slot
  runList : ContId → List Slot
  procList : ContId → List Slot
  contUnused : List ContId
  contRun : List ContId
  used : ContId → Bool
  state : Slot → ProcState
  contp : Slot → Option ContId
  initproc : Option Slot
  cpu : Fin NCPU → Cpu
  th : Thread → ThView

variable {L : Type}

def Pc.role : Pc L → Role
  | contPopped c _ _ => .contTaken c
  | contMade c => .contNew c
  | alloc c fr => .forking c fr
  | popped c fr np => .took c fr np
  | locked c fr np => .locked c fr np
  | made c fr np => .made c fr np
  | listed c fr np => .listed c fr np
  | copied c fr np | adopted c fr np => .grown c fr np
  | ready c fr np => .ready c fr np
  | freed q _ => .freed q
  | unlisted q _ => .emptied q
  | contOff q _ => .contGone q
  | unlinked q _ => .unlinked q
  | killPush q => .killing q
  | exitCount _ | exitIput _ | exitLock _ | reparent .. | exitLast _ => .exiting
  | _ => .idle

def Wake.slot : Wake L → Option Slot
  | loop .. => none
  | push _ q => some q

def Th.view (x : Th L) : ThView := ⟨x.pc.role, x.wake.map Wake.slot, x.sw, x.kept⟩

def Sys.view (s : Sys L) : View where
  unused := s.unused
  runList c := (s.cont c).runList
  procList c := (s.cont c).procList
  contUnused := s.contUnused
  contRun := s.contRun
  used c := (s.cont c).used
  state q := (s.proc q).state
  contp q := (s.proc q).contp
  initproc := s.initproc
  cpu := s.cpu
  th t := (s.th t).view

/-! ### Locks -/

def Role.plock : Role → Option Slot
  | locked _ _ q | made _ _ q | listed _ _ q => some q
  | freed q | emptied q | contGone q | unlinked q => some q
  | killing q => some q
  | _ => none

/-- The lock of a process that a thread holds besides its own. -/
def ThView.inner (x : ThView) : Option Slot :=
  match x.waking with
  | some (some q) => some q
  | _ => x.role.plock

def ThView.plock (x : ThView) (t : Thread) : Option Slot :=
  match x.sw with
  | .push | .sched _ => t
  | _ => x.inner

theorem Pc.role_plock (pc : Pc L) : pc.role.plock = pc.plock := by
  cases pc <;> rfl

theorem Th.view_plock (x : Th L) (t : Thread) : x.view.plock t = x.plock t := by
  obtain ⟨pc, wake, sw, a0, status, kept⟩ := x
  cases sw <;> rcases wake with _ | ⟨_ | _⟩ <;>
    simp [Th.view, ThView.plock, ThView.inner, Th.plock, Wake.slot, Pc.role_plock]

namespace View

variable (v : View)

def PFree (q : Slot) : Prop := ∀ t, (v.th t).plock t ≠ some q

/-! ### Updates -/

def setTh (t : Thread) (x : ThView) : View := { v with th := Function.update v.th t x }

def goto (t : Thread) (r : Role) : View := v.setTh t { v.th t with role := r }

def setState (q : Slot) (x : ProcState) : View := { v with state := Function.update v.state q x }

def setContp (q : Slot) (c : Option ContId) : View := { v with contp := Function.update v.contp q c }

def setRun (c : ContId) (l : List Slot) : View := { v with runList := Function.update v.runList c l }

def setProcs (c : ContId) (l : List Slot) : View := { v with procList := Function.update v.procList c l }

def setUsed (c : ContId) (b : Bool) : View := { v with used := Function.update v.used c b }

/-- Thread `t` is in role `r`, outside `wakeup`, and, if it is that of a process, on a hart. -/
structure At (t : Thread) (r : Role) : Prop where
  role : (v.th t).role = r
  run : ∀ p, t = some p → (∃ k, v.cpu k = .running p) ∧ (v.th t).sw = .run ∧ (v.th t).waking = none

/-- Process `p` is in `wakeup`, with `w` in hand. -/
structure Waking (p : Slot) (w : Option Slot) : Prop where
  on : ∃ k, v.cpu k = .running p
  sw : (v.th (some p)).sw = .run
  waking : (v.th (some p)).waking = some w

/-- The moves. -/
inductive Step : View → Prop
  | schedulerPop {k c p rest} (hk : v.cpu k = .idle) (hl : v.runList c = p :: rest) :
    Step { v.setRun c rest with cpu := Function.update v.cpu k (.popped p) }
  | schedulerRun {k p} (hk : v.cpu k = .popped p) (hf : v.PFree p) :
    Step ({ v.setState p .running with cpu := Function.update v.cpu k (.running p) }.setTh (some p)
      { v.th (some p) with sw := .run })
  | yield {p} (hon : ∃ k, v.cpu k = .running p) (hsw : (v.th (some p)).sw = .run)
      (hi : (v.th (some p)).inner = none) (hf : v.PFree p) :
    Step ((v.setState p .runnable).setTh (some p) { v.th (some p) with sw := .push })
  | yieldPush {p c} (hsw : (v.th (some p)).sw = .push) (hc : v.contp p = some c) :
    Step ((v.setRun c (v.runList c ++ [p])).setTh (some p) { v.th (some p) with sw := .sched false })
  | sched {p b} (hsw : (v.th (some p)).sw = .sched b) (hk : (v.th (some p)).kept = []) :
    Step ({ v with cpu := fun k => if v.cpu k = Cpu.running p then .idle else v.cpu k }.setTh (some p)
      { v.th (some p) with sw := .off b })
  | wakeupCall {p r} (ha : v.At (some p) r) (hr : r = .idle ∨ r = .exiting) :
    Step (v.setTh (some p) { v.th (some p) with waking := some none })
  | wakeupHit {p q} (hw : v.Waking p none) (hf : v.PFree q) (hst : v.state q = .sleeping) :
    Step ((v.setState q .runnable).setTh (some p) { v.th (some p) with waking := some (some q) })
  | wakeupPush {p q c} (hw : v.Waking p (some q)) (hc : v.contp q = some c) :
    Step ((v.setRun c (v.runList c ++ [q])).setTh (some p) { v.th (some p) with waking := some none })
  | wakeupEnd {p} (hw : v.Waking p none) : Step (v.setTh (some p) { v.th (some p) with waking := none })
  | sleep {p} (ha : v.At (some p) .idle) (hf : v.PFree p) :
    Step ((v.setState p .sleeping).setTh (some p) { v.th (some p) with sw := .sched true })
  | alloccontPop {p c rest} (ha : v.At (some p) .idle) (hu : v.contUnused = c :: rest) :
    Step ({ v with contUnused := rest }.goto (some p) (.contTaken c))
  | alloccontInit {p c} (ha : v.At (some p) (.contTaken c)) :
    Step ((((v.setUsed c true).setProcs c []).setRun c []).goto (some p) (.contNew c))
  | cforkPush {p c} (ha : v.At (some p) (.contNew c)) :
    Step ({ v with contRun := v.contRun ++ [c] }.goto (some p) (.forking c true))
  | callFork {p c} (ha : v.At (some p) .idle) (hc : v.contp p = some c) : Step (v.goto (some p) (.forking c false))
  | allocprocPop {t c fr np rest} (ha : v.At t (.forking c fr)) (hu : v.unused = np :: rest) :
    Step ({ v with unused := rest }.goto t (.took c fr np))
  | allocprocLock {t c fr np} (ha : v.At t (.took c fr np)) (hf : v.PFree np) : Step (v.goto t (.locked c fr np))
  | allocprocInit {t c fr np} (ha : v.At t (.locked c fr np)) :
    Step ((((v.setState np .used).setContp np (some c)).setTh (some np) ⟨.idle, none, .off false, []⟩).goto t
      (.made c fr np))
  | allocprocList {t c fr np} (ha : v.At t (.made c fr np)) :
    Step ((v.setProcs c (v.procList c ++ [np])).goto t (.listed c fr np))
  | forkCopy {p c fr np} (ha : v.At (some p) (.listed c fr np)) : Step (v.goto (some p) (.grown c fr np))
  | userinit {c fr np} (ha : v.At none (.listed c fr np)) :
    Step (({ v with initproc := some np }.setState np .runnable).goto none (.ready c fr np))
  | forkRunnable {p c fr np} (ha : v.At (some p) (.grown c fr np)) (hf : v.PFree np) :
    Step ((v.setState np .runnable).goto (some p) (.ready c fr np))
  | forkPush {t c fr np} (ha : v.At t (.ready c fr np)) : Step ((v.setRun c (v.runList c ++ [np])).goto t .idle)
  | callExit {p} (ha : v.At (some p) .idle) (hi : v.initproc ≠ some p) : Step (v.goto (some p) .exiting)
  | exitLast {p} (ha : v.At (some p) .exiting) (hf : v.PFree p) :
    Step ((v.setState p .zombie).setTh (some p) { v.th (some p) with role := .idle, sw := .sched false })
  | scanZombie {p q} (ha : v.At (some p) .idle) (hf : v.PFree q) (hst : v.state q = .zombie) :
    Step ({ v.setState q .unused with unused := v.unused ++ [q] }.goto (some p) (.freed q))
  | freeprocUnlist {p q c} (ha : v.At (some p) (.freed q)) (hc : v.contp q = some c) :
    Step ((v.setProcs c ((v.procList c).erase q)).goto (some p)
      (if (v.procList c).erase q = [] then .emptied q else .unlinked q))
  | freeprocContOff {p q c} (ha : v.At (some p) (.emptied q)) (hc : v.contp q = some c) :
    Step ({ v with contRun := v.contRun.erase c }.goto (some p) (.contGone q))
  | freecont {p q c} (ha : v.At (some p) (.contGone q)) (hc : v.contp q = some c) :
    Step ({ v.setUsed c false with contUnused := v.contUnused ++ [c] }.goto (some p) (.unlinked q))
  | freeprocUnlink {p q} (ha : v.At (some p) (.unlinked q)) : Step ((v.setContp q none).goto (some p) .idle)
  | killHit {p q} (ha : v.At (some p) .idle) (hf : v.PFree q) (hst : v.state q = .sleeping) :
    Step ((v.setState q .runnable).goto (some p) (.killing q))
  | killPush {p q c} (ha : v.At (some p) (.killing q)) (hc : v.contp q = some c) :
    Step ((v.setRun c (v.runList c ++ [q])).goto (some p) .idle)

/-- The moves of calls that fail. -/
inductive Fail : View → Prop
  | failCont {p c} (ha : v.At (some p) (.contTaken c)) :
    Fail ((((v.setUsed c true).setProcs c []).setRun c []).setTh (some p)
      { v.th (some p) with role := .idle, kept := c :: (v.th (some p)).kept })
  | allocprocNone {p c fr} (ha : v.At (some p) (.forking c fr)) : Fail (v.goto (some p) .idle)
  | failFork {p c fr np} (ha : v.At (some p) (.listed c fr np)) :
    Fail ({ v.setState np .unused with unused := v.unused ++ [np] }.goto (some p) (.freed np))

end View

/-! ### Sections and moves -/

section

variable (s : Sys L)

@[simp] theorem Sys.view_setTh (t : Thread) (x : Th L) : (s.setTh t x).view = s.view.setTh t x.view := by
  simp only [view, setTh, View.setTh, View.mk.injEq, true_and]
  funext u
  by_cases hu : u = t <;> simp [hu]

@[simp] theorem Sys.view_setProc (q : Slot) (p : Proc L) :
    (s.setProc q p).view = (s.view.setState q p.state).setContp q p.contp := by
  simp only [view, setProc, View.setState, View.setContp, View.mk.injEq, true_and, and_true]
  constructor <;> funext u <;> by_cases hu : u = q <;> simp [hu]

@[simp] theorem Sys.view_setCont (c : ContId) (x : Cont) :
    (s.setCont c x).view = ((s.view.setRun c x.runList).setProcs c x.procList).setUsed c x.used := by
  simp only [view, setCont, View.setRun, View.setProcs, View.setUsed, View.mk.injEq, true_and, and_true]
  refine ⟨?_, ?_, ?_⟩ <;> funext d <;> by_cases hd : d = c <;> simp [hd]

@[simp] theorem Sys.view_setHist (c : ContId) (x : ContHist) : (s.setHist c x).view = s.view := rfl

@[simp] theorem Sys.view_setLock [DecidableEq L] (l : L) (x : SleepLock) (p : Option Slot) :
    (s.setLock l x p).view = s.view := rfl

@[simp] theorem Sys.view_setState (q : Slot) (x : ProcState) : (s.setState q x).view = s.view.setState q x := by
  rw [setState, view_setProc]
  simp [View.setContp, View.setState, view]

@[simp] theorem Sys.view_runPush (c : ContId) (q : Slot) :
    (s.runPush c q).view = s.view.setRun c (s.view.runList c ++ [q]) := by
  rw [runPush, view_setCont]
  simp [View.setRun, View.setProcs, View.setUsed, view]

theorem Sys.view_freeprocReset (q : Slot) :
    (s.freeprocReset q).view = { s.view.setState q .unused with unused := s.view.unused ++ [q] } := by
  have h := s.view_setProc q { s.proc q with
    state := .unused, chan := none, killed := false, xstate := 0, pid := 0, parent := none }
  have hc : (s.view.setState q .unused).setContp q (s.proc q).contp = s.view.setState q .unused := by
    simp [View.setContp, View.setState, view]
  rw [hc] at h
  exact congrArg (fun v : View => { v with unused := s.view.unused ++ [q] }) h

end

variable {s s' : Sys L}

theorem Sys.view_pfree {q : Slot} (h : s.PFree q) : s.view.PFree q := by
  intro t
  have := h t
  rwa [← Th.view_plock] at this

theorem Sys.At.view {t : Thread} {pc : Pc L} (h : s.At t pc) : s.view.At t pc.role where
  role := congrArg Pc.role h.pc
  run p hp := by
    obtain ⟨hon, hsw, hw⟩ := h.run p hp
    exact ⟨hon, hsw, by simp [Sys.view, Th.view, hw]⟩

theorem Sys.Waking.view {p : Slot} {w : Wake L} (h : s.Waking p w) : s.view.Waking p w.slot where
  on := h.on
  sw := h.sw
  waking := by simp [Sys.view, Th.view, h.wake]

/-- A thread that keeps its role keeps the view. -/
private theorem view_stay {t : Thread} {x : Th L} (h : x.view = (s.th t).view) : (s.setTh t x).view = s.view := by
  rw [Sys.view_setTh, h]
  simp [View.setTh, Sys.view]

private theorem view_goto {t : Thread} {pc : Pc L} : (s.goto t pc).view = s.view.goto t pc.role := by
  rw [Sys.goto, Sys.view_setTh]
  rfl

private theorem view_ret {t : Thread} {r : Int} : (s.ret t r).view = s.view.goto t .idle := by
  rw [Sys.ret, Sys.view_setTh]
  rfl

private theorem view_setProcs {c : ContId} {x : Cont} (h1 : x.runList = (s.cont c).runList)
    (h2 : x.used = (s.cont c).used) : (s.setCont c x).view = s.view.setProcs c x.procList := by
  rw [Sys.view_setCont]
  simp [View.setRun, View.setProcs, View.setUsed, Sys.view, h1, h2]

private theorem view_setRun {c : ContId} {x : Cont} (h1 : x.procList = (s.cont c).procList)
    (h2 : x.used = (s.cont c).used) : (s.setCont c x).view = s.view.setRun c x.runList := by
  rw [Sys.view_setCont]
  simp [View.setRun, View.setProcs, View.setUsed, Sys.view, h1, h2]

private theorem view_setUsed {c : ContId} {x : Cont} (h1 : x.procList = (s.cont c).procList)
    (h2 : x.runList = (s.cont c).runList) : (s.setCont c x).view = s.view.setUsed c x.used := by
  rw [Sys.view_setCont]
  simp [View.setRun, View.setProcs, View.setUsed, Sys.view, h1, h2]

private theorem view_setCont_same {c : ContId} {x : Cont} (h1 : x.procList = (s.cont c).procList)
    (h2 : x.runList = (s.cont c).runList) (h3 : x.used = (s.cont c).used) : (s.setCont c x).view = s.view := by
  rw [Sys.view_setCont]
  simp [View.setRun, View.setProcs, View.setUsed, Sys.view, h1, h2, h3]

/-- A process whose container stays. -/
private theorem view_setProc_state {q : Slot} {x : Proc L} (h : x.contp = (s.proc q).contp) :
    (s.setProc q x).view = s.view.setState q x.state := by
  rw [Sys.view_setProc]
  simp [View.setState, View.setContp, Sys.view, h]

private theorem view_setProc_same {q : Slot} {x : Proc L} (h1 : x.state = (s.proc q).state)
    (h2 : x.contp = (s.proc q).contp) : (s.setProc q x).view = s.view := by
  rw [Sys.view_setProc]
  simp [View.setState, View.setContp, Sys.view, h1, h2]

private theorem view_setProc_contp {q : Slot} {x : Proc L} (h : x.state = (s.proc q).state) :
    (s.setProc q x).view = s.view.setContp q x.contp := by
  rw [Sys.view_setProc]
  simp [View.setState, View.setContp, Sys.view, h]

private theorem view_alloccontInit {c : ContId} {name : List UInt8} {root : Option Inum} :
    (s.alloccontInit c name root).view = ((s.view.setUsed c true).setProcs c []).setRun c [] := by
  rw [Sys.alloccontInit, Sys.view_setHist, Sys.view_setCont]
  rfl

/-- A call of `wakeup` leaves the role alone. -/
private theorem view_callWakeup {p : Slot} {chan : Option (Chan L)} {pc pc' : Pc L} (ha : s.At (some p) pc)
    (hr : pc'.role = pc.role) :
    (s.callWakeup (some p) chan pc').view =
      s.view.setTh (some p) { s.view.th (some p) with waking := some none } := by
  rw [Sys.callWakeup, Sys.view_setTh]
  simp [Th.view, Wake.slot, Sys.view, hr, ha.pc]

/-- Every section is a move or leaves the view alone. -/
theorem Sect.view [DecidableEq L] [Fintype L] {e : Ev L} (h : Sect s e s') :
    s'.view = s.view ∨ s.view.Step s'.view ∨ s.view.Fail s'.view ∧ s.Lacks e = true := by
  have stay : ∀ {t : Thread} {pc pc' : Pc L}, s.At t pc → pc'.role = pc.role → (s.goto t pc').view = s.view := by
    intro t pc pc' ha hr
    refine view_stay ?_
    simp [Th.view, hr, ha.pc]
  have stayRet : ∀ {t : Thread} {pc : Pc L} {r : Int}, s.At t pc → pc.role = .idle → (s.ret t r).view = s.view := by
    intro t pc r ha hr
    refine view_stay ?_
    have : (.run : Pc L).role = pc.role := hr.symm
    simp [Th.view, this, ha.pc]
  cases h with
  | @schedulerPop k c p rest hk hl =>
    refine .inr (.inl ?_)
    have := View.Step.schedulerPop (v := s.view) hk hl
    rw [← view_setRun (x := { s.cont c with runList := rest }) rfl rfl] at this
    exact this
  | @schedulerRun k p chan hk hf hst hch =>
    refine .inr (.inl ?_)
    have := View.Step.schedulerRun (v := s.view) hk (Sys.view_pfree hf)
    rw [← view_setProc_state (x := { s.proc p with state := .running, chan := chan }) rfl] at this
    rw [Sys.view_setTh]
    exact this
  | @yield p hon hi hf =>
    refine .inr (.inl ?_)
    rw [Sys.view_setTh, Sys.view_setState]
    refine .yield hon hi.1 ?_ (Sys.view_pfree hf)
    have hp := hi.2.1
    rw [← Th.view_plock, ThView.plock] at hp
    rw [show (s.th (some p)).view.sw = .run from hi.1] at hp
    exact hp
  | @yieldPush p c hon hsw hc =>
    refine .inr (.inl ?_)
    rw [Sys.view_setTh, Sys.view_runPush]
    exact .yieldPush hsw hc
  | @sched p b hon hsw hk =>
    refine .inr (.inl ?_)
    rw [Sys.view_setTh]
    exact .sched hsw hk
  | @wakeupMiss p chan i hw hi => exact .inl (view_stay (by simp [Th.view, hw.wake, Wake.slot]))
  | @wakeupHit p chan q hw hne hf hst hch =>
    refine .inr (.inl ?_)
    rw [Sys.view_setTh, Sys.view_setState]
    exact .wakeupHit hw.view (Sys.view_pfree hf) hst
  | @wakeupEnd p chan i hw hi =>
    refine .inr (.inl ?_)
    rw [Sys.view_setTh]
    exact .wakeupEnd hw.view
  | @wakeupPush p chan q c hw hc =>
    refine .inr (.inl ?_)
    rw [Sys.view_setTh, Sys.view_runPush]
    exact .wakeupPush hw.view hc
  | callFork ha hc =>
    refine .inr (.inl ?_)
    rw [view_goto]
    exact .callFork ha.view hc
  | callCfork ha => exact .inl (stay ha rfl)
  | callExit ha hi _ =>
    refine .inr (.inl ?_)
    rw [view_goto]
    exact .callExit ha.view hi
  | callWait ha => exact .inl (stay ha rfl)
  | callKill ha => exact .inl (stay ha rfl)
  | callWakeup ha =>
    refine .inr (.inl ?_)
    rw [view_callWakeup ha (by rfl)]
    exact .wakeupCall ha.view (.inl rfl)
  | callAcquire ha => exact .inl (stay ha rfl)
  | @callRelease p l ha hh hf =>
    refine .inr (.inl ?_)
    rw [view_callWakeup (s := s.setLock l _ _) ⟨ha.pc, ha.run⟩ (by rfl)]
    exact .wakeupCall ha.view (.inl rfl)
  | @sleep p chan pc pc' e ha hf hpc =>
    refine .inr (.inl ?_)
    have hr : pc.role = .idle ∧ pc'.role = .idle := by
      obtain ⟨rfl, rfl, -⟩ | ⟨-, ⟨addr, rfl, -, rfl⟩ | ⟨l, rfl, -, rfl, -⟩⟩ := hpc <;> exact ⟨rfl, rfl⟩
    have hv : s.view.At (some p) .idle := hr.1 ▸ ha.view
    have hx : ({ s.th (some p) with pc := pc', sw := .sched true } : Th L).view =
        { s.view.th (some p) with sw := .sched true } := by
      simp only [Th.view, Sys.view, hr.2, ha.pc, hr.1]
    rw [Sys.view_setTh, hx, view_setProc_state (by rfl)]
    exact .sleep hv (Sys.view_pfree hf)
  | alloccontNone ha hu => exact .inl (stayRet ha rfl)
  | alloccontPop ha hu =>
    refine .inr (.inl ?_)
    rw [view_goto]
    exact .alloccontPop ha.view hu
  | alloccontInit ha =>
    refine .inr (.inl ?_)
    rw [view_goto, view_alloccontInit]
    exact .alloccontInit ha.view
  | cforkPush ha =>
    refine .inr (.inl ?_)
    rw [view_goto]
    exact .cforkPush ha.view
  | allocprocNone ha hu =>
    refine .inr (.inr ⟨?_, ?_⟩)
    · rw [view_ret]
      exact .allocprocNone ha.view
    · obtain ⟨-, hsw, hwk⟩ := ha.run _ rfl
      simp [Sys.Lacks, hsw, hwk, ha.pc, hu]
  | allocprocPop ha hu =>
    refine .inr (.inl ?_)
    rw [view_goto]
    exact .allocprocPop ha.view hu
  | allocprocLock ha hf =>
    refine .inr (.inl ?_)
    rw [view_goto]
    exact .allocprocLock ha.view (Sys.view_pfree hf)
  | allocprocInit ha =>
    refine .inr (.inl ?_)
    rw [view_goto, Sys.view_setTh, Sys.view_setProc, view_setCont_same (by rfl) (by rfl) (by rfl)]
    exact .allocprocInit ha.view
  | allocprocList ha =>
    refine .inr (.inl ?_)
    rw [view_goto, view_setProcs (by rfl) (by rfl)]
    exact .allocprocList ha.view
  | forkCopy ha =>
    refine .inr (.inl ?_)
    rw [view_goto]
    exact .forkCopy ha.view
  | userinit ha =>
    refine .inr (.inl ?_)
    rw [view_goto, Sys.view_setState]
    exact .userinit ha.view
  | forkParent ha hf =>
    left
    rw [view_goto, view_setProc_same (by rfl) (by rfl)]
    exact view_goto.symm.trans (stay ha rfl)
  | forkRunnable ha hf =>
    refine .inr (.inl ?_)
    rw [view_goto, Sys.view_setState]
    exact .forkRunnable ha.view (Sys.view_pfree hf)
  | forkPush ha =>
    refine .inr (.inl ?_)
    rw [view_ret, Sys.view_runPush]
    exact .forkPush ha.view
  | exitCount ha hc =>
    refine .inl (stay ha ?_)
    split <;> rfl
  | exitIput ha hc hi =>
    left
    rw [view_goto, Sys.view_setHist]
    exact view_goto.symm.trans (stay ha rfl)
  | exitLock ha hf => exact .inl (stay ha rfl)
  | reparentMiss ha hi => exact .inl (stay ha rfl)
  | @reparentHit p status q ha hp =>
    refine .inr (.inl ?_)
    rw [view_callWakeup (s := s.setProc q _) ⟨ha.pc, ha.run⟩ (by rfl), view_setProc_same (by rfl) (by rfl)]
    exact .wakeupCall ha.view (.inr rfl)
  | reparentEnd ha hi =>
    refine .inr (.inl ?_)
    rw [view_callWakeup ha (by rfl)]
    exact .wakeupCall ha.view (.inr rfl)
  | exitLast ha hf =>
    refine .inr (.inl ?_)
    rw [Sys.view_setTh, view_setProc_state (by rfl)]
    exact .exitLast ha.view (Sys.view_pfree hf)
  | waitLock ha hf => exact .inl (stay ha rfl)
  | scanOther ha hi hp => exact .inl (stay ha rfl)
  | scanChild ha hp hf hst => exact .inl (stay ha rfl)
  | scanZombie ha hp hf hst hs =>
    refine .inr (.inl ?_)
    rw [Sys.view_setTh, Sys.view_freeprocReset]
    exact .scanZombie ha.view (Sys.view_pfree hf) hst
  | scanEnd ha hi => exact .inl (stay ha rfl)
  | scanNone ha hi => exact .inl (stayRet ha rfl)
  | waitKilled ha hf hk => exact .inl (stayRet ha rfl)
  | waitAlive ha hf hk => exact .inl (stay ha rfl)
  | @freeprocUnlist p q w c ha hc =>
    refine .inr (.inl ?_)
    have := View.Step.freeprocUnlist ha.view hc
    rw [view_goto, view_setProcs (by rfl) (by rfl), apply_ite Pc.role]
    exact this
  | freeprocContOff ha hc =>
    refine .inr (.inl ?_)
    rw [view_goto]
    exact .freeprocContOff ha.view hc
  | @freecont p q w c ha hc =>
    refine .inr (.inl ?_)
    have := View.Step.freecont ha.view hc
    rw [← view_setUsed (x := { s.cont c with used := false, nextpid := 1, rootdir := none }) rfl rfl] at this
    rw [view_goto]
    exact this
  | freeprocUnlink ha =>
    refine .inr (.inl ?_)
    rw [view_ret, view_setProc_contp (by rfl)]
    exact .freeprocUnlink ha.view
  | killMiss ha hi hp hf => exact .inl (stay ha rfl)
  | killMark ha hp hf hst =>
    left
    rw [view_ret, view_setProc_same (by rfl) (by rfl)]
    exact view_ret.symm.trans (stayRet (r := 0) ha rfl)
  | killHit ha hp hf hst =>
    refine .inr (.inl ?_)
    rw [view_goto, Sys.view_setState, view_setProc_same (by rfl) (by rfl)]
    exact .killHit ha.view (Sys.view_pfree hf) hst
  | killNone ha hi => exact .inl (stayRet ha rfl)
  | killPush ha hc =>
    refine .inr (.inl ?_)
    rw [view_ret, Sys.view_runPush]
    exact .killPush ha.view hc
  | acquiresleep ha hf hl =>
    left
    rw [view_goto, Sys.view_setLock]
    exact view_goto.symm.trans (stay ha rfl)
  | releasesleep ha => exact .inl (stay ha rfl)
  | failFork ha =>
    refine .inr (.inr ⟨?_, ?_⟩)
    · rw [view_goto, Sys.view_freeprocReset]
      exact .failFork ha.view
    · simp [Sys.Lacks, ha.pc]
  | failCont ha hn =>
    refine .inr (.inr ⟨?_, ?_⟩)
    · rw [Sys.view_setTh, view_alloccontInit]
      exact .failCont ha.view
    · simp [Sys.Lacks, ha.pc]
  | failWait ha hp hf hst => exact .inl (stayRet ha rfl)

end Xv6
