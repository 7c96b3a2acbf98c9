import Xv6.ProcStep

/-!
# What a step can do

`Sect s e s'` lists the sections: which point the thread is at, what the section has tested, and the state it leaves.
Every step that does not panic is one of them (`Sys.step_sect`), and results about runs are proved by cases on `Sect`.
-/

namespace Xv6

variable {L : Type} [DecidableEq L]

/-- Thread `t` is at `pc`, and, if it is that of a process, on a hart. -/
structure Sys.At (s : Sys L) (t : Thread) (pc : Pc L) : Prop where
  pc : (s.th t).pc = pc
  run : ∀ p, t = some p → s.OnCpu p ∧ (s.th t).sw = .run ∧ (s.th t).wake = none

/-- Process `p` is in `wakeup`. -/
structure Sys.Waking (s : Sys L) (p : Slot) (w : Wake L) : Prop where
  on : s.OnCpu p
  sw : (s.th (some p)).sw = .run
  wake : (s.th (some p)).wake = some w

open Sys

inductive Sect (s : Sys L) : Ev L → Sys L → Prop
  -- `scheduler`
  | schedulerPop {k c p rest} (hk : s.cpu k = .idle) (hl : (s.cont c).runList = p :: rest) :
    Sect s (.pop k c) { s.setCont c { s.cont c with runList := rest } with cpu := Function.update s.cpu k (.popped p) }
  | schedulerRun {k p chan} (hk : s.cpu k = .popped p) (hf : s.PFree p) (hst : (s.proc p).state = .runnable)
      (hch : chan = if (s.th (some p)).sw = Sw.off true then none else (s.proc p).chan) :
    Sect s (.switch k) ({ s.setProc p { s.proc p with state := .running, chan := chan } with
      cpu := Function.update s.cpu k (.running p) }.setTh (some p) { s.th (some p) with sw := .run })
  -- `yield`, `sched` and `wakeup`
  | yield {p} (hon : s.OnCpu p) (hi : s.Interruptible p) (hf : s.PFree p) :
    Sect s (.tick p) ((s.setState p .runnable).setTh (some p) { s.th (some p) with sw := .push })
  | yieldPush {p c} (hon : s.OnCpu p) (hsw : (s.th (some p)).sw = .push) (hc : (s.proc p).contp = some c) :
    Sect s (.next (some p)) ((s.runPush c p).setTh (some p) { s.th (some p) with sw := .sched false })
  | sched {p b} (hon : s.OnCpu p) (hsw : (s.th (some p)).sw = .sched b) (hk : (s.th (some p)).kept = []) :
    Sect s (.next (some p)) ({ s with cpu := fun k => if s.cpu k = Cpu.running p then .idle else s.cpu k }.setTh (some p)
      { s.th (some p) with sw := .off b })
  | wakeupMiss {p chan i} (hw : s.Waking p (.loop chan i)) (hi : i < NPROC)
      (hm : some p = some ⟨i, hi⟩ ∨ ¬ ((s.proc ⟨i, hi⟩).state = .sleeping ∧ (s.proc ⟨i, hi⟩).chan = chan)) :
    Sect s (.next (some p)) (s.setTh (some p) { s.th (some p) with wake := some (.loop chan (i + 1)) })
  | wakeupHit {p chan q} (hw : s.Waking p (.loop chan q.val)) (hne : some p ≠ some q) (hf : s.PFree q)
      (hst : (s.proc q).state = .sleeping) (hch : (s.proc q).chan = chan) :
    Sect s (.next (some p)) ((s.setState q .runnable).setTh (some p)
      { s.th (some p) with wake := some (.push chan q) })
  | wakeupEnd {p chan i} (hw : s.Waking p (.loop chan i)) (hi : ¬ i < NPROC) :
    Sect s (.next (some p)) (s.setTh (some p) { s.th (some p) with wake := none })
  | wakeupPush {p chan q c} (hw : s.Waking p (.push chan q)) (hc : (s.proc q).contp = some c) :
    Sect s (.next (some p)) ((s.runPush c q).setTh (some p)
      { s.th (some p) with wake := some (.loop chan (q.val + 1)) })
  -- calls
  | callFork {p c} (ha : s.At (some p) .run) (hc : (s.proc p).contp = some c) :
    Sect s (.call p .fork) (s.goto (some p) (.alloc c false))
  | callCfork {p name root} (ha : s.At (some p) .run) :
    Sect s (.call p (.cfork name root)) (s.goto (some p) (.contAlloc name root))
  | callExit {p status} (ha : s.At (some p) .run) (hi : s.initproc ≠ some p) (hl : ∀ l, s.holder l ≠ some p) :
    Sect s (.call p (.exit status)) (s.goto (some p) (.exitCount status))
  | callWait {p addr} (ha : s.At (some p) .run) : Sect s (.call p (.wait addr)) (s.goto (some p) (.waitLock addr))
  | callKill {p pid} (ha : s.At (some p) .run) : Sect s (.call p (.kill pid)) (s.goto (some p) (.kill pid 0))
  | callWakeup {p n} (ha : s.At (some p) .run) :
    Sect s (.call p (.wakeup n)) (s.callWakeup (some p) (some (.other n)) .run)
  | callAcquire {p l} (ha : s.At (some p) .run) :
    Sect s (.call p (.acquiresleep l)) (s.goto (some p) (.acquiresleep l))
  | callRelease {p l} (ha : s.At (some p) .run) (hh : s.holder l = some p) (hf : s.SpinFree l) :
    Sect s (.call p (.releasesleep l))
      ((s.setLock l ⟨false, 0⟩ none).callWakeup (some p) (some (.lock l)) (.releasesleep l))
  -- `sleep`, called by any other code, by `wait` and by `acquiresleep`
  | sleep {p chan pc pc' e} (ha : s.At (some p) pc) (hf : s.PFree p)
      (hpc : (pc = .run ∧ pc' = .run ∧ ∃ n, chan = .other n ∧ e = .call p (.sleep n)) ∨
        (e = .next (some p) ∧ ((∃ addr, pc = .waitSleep addr ∧ chan = .proc p ∧ pc' = .waitLock addr) ∨
          ∃ l, pc = .acquiresleep l ∧ chan = .lock l ∧ pc' = pc ∧ (s.lock l).locked = true ∧ s.SpinFree l))) :
    Sect s e ((s.setProc p { s.proc p with chan := some chan, state := .sleeping }).setTh (some p)
      { s.th (some p) with pc := pc', sw := .sched true })
  -- `alloccont` and `cfork`
  | alloccontNone {p name root} (ha : s.At (some p) (.contAlloc name root)) (hu : s.contUnused = []) :
    Sect s (.next (some p)) (s.ret (some p) (-1))
  | alloccontPop {p name root c rest} (ha : s.At (some p) (.contAlloc name root)) (hu : s.contUnused = c :: rest) :
    Sect s (.next (some p)) ({ s with contUnused := rest }.goto (some p) (.contPopped c name root))
  | alloccontInit {p name root c} (ha : s.At (some p) (.contPopped c name root)) :
    Sect s (.next (some p)) ((s.alloccontInit c name (some root)).goto (some p) (.contMade c))
  | cforkPush {p c} (ha : s.At (some p) (.contMade c)) :
    Sect s (.next (some p)) ({ s with contRun := s.contRun ++ [c] }.goto (some p) (.alloc c true))
  -- `allocproc`, `fork` and `userinit`
  | allocprocNone {p c fr} (ha : s.At (some p) (.alloc c fr)) (hu : s.unused = []) :
    Sect s (.next (some p)) (s.ret (some p) (-1))
  | allocprocPop {t c fr np rest} (ha : s.At t (.alloc c fr)) (hu : s.unused = np :: rest) :
    Sect s (.next t) ({ s with unused := rest }.goto t (.popped c fr np))
  | allocprocLock {t c fr np} (ha : s.At t (.popped c fr np)) (hf : s.PFree np) :
    Sect s (.next t) (s.goto t (.locked c fr np))
  | allocprocInit {t c fr np} (ha : s.At t (.locked c fr np)) :
    Sect s (.next t) ((((s.setCont c { s.cont c with nextpid := (s.cont c).nextpid + 1 }).setProc np
      { s.proc np with pid := asInt (s.cont c).nextpid, state := .used, contp := some c }).setTh (some np)
        forkret).goto t (.made c fr np))
  | allocprocList {t c fr np} (ha : s.At t (.made c fr np)) :
    Sect s (.next t) ((s.setCont c { s.cont c with procList := (s.cont c).procList ++ [np] }).goto t (.listed c fr np))
  | forkCopy {p c fr np} (ha : s.At (some p) (.listed c fr np)) :
    Sect s (.next (some p)) (s.goto (some p) (.copied c fr np))
  | userinit {c fr np} (ha : s.At none (.listed c fr np)) :
    Sect s (.next none) (({ s with initproc := some np }.setState np .runnable).goto none (.ready c fr np))
  | forkParent {p c fr np} (ha : s.At (some p) (.copied c fr np)) (hf : s.WaitFree) :
    Sect s (.next (some p)) ((s.setProc np { s.proc np with parent := some p }).goto (some p) (.adopted c fr np))
  | forkRunnable {p c fr np} (ha : s.At (some p) (.adopted c fr np)) (hf : s.PFree np) :
    Sect s (.next (some p)) ((s.setState np .runnable).goto (some p) (.ready c fr np))
  | forkPush {t c fr np} (ha : s.At t (.ready c fr np)) :
    Sect s (.next t) (((s.setHist c { s.hist c with done := fr || (s.hist c).done }).runPush c np).ret t
      (s.proc np).pid)
  -- `exit`
  | exitCount {p status c} (ha : s.At (some p) (.exitCount status)) (hc : (s.proc p).contp = some c) :
    Sect s (.next (some p))
      (s.goto (some p) (if (s.cont c).procList.length = 1 then .exitIput status else .exitLock status))
  | exitIput {p status c i} (ha : s.At (some p) (.exitIput status)) (hc : (s.proc p).contp = some c)
      (hi : (s.cont c).rootdir = some i) :
    Sect s (.next (some p))
      ((s.setHist c { s.hist c with puts := (s.hist c).puts ++ [i] }).goto (some p) (.exitLock status))
  | exitLock {p status} (ha : s.At (some p) (.exitLock status)) (hf : s.WaitFree) :
    Sect s (.next (some p)) (s.goto (some p) (.reparent status 0))
  | reparentMiss {p status i} (ha : s.At (some p) (.reparent status i)) (hi : i < NPROC)
      (hp : (s.proc ⟨i, hi⟩).parent ≠ some p) :
    Sect s (.next (some p)) (s.goto (some p) (.reparent status (i + 1)))
  | reparentHit {p status} {q : Slot} (ha : s.At (some p) (.reparent status q.val))
      (hp : (s.proc q).parent = some p) :
    Sect s (.next (some p)) ((s.setProc q (s.orphan (s.proc q))).callWakeup (some p) (chanOf s.initproc)
      (.reparent status (q.val + 1)))
  | reparentEnd {p status i} (ha : s.At (some p) (.reparent status i)) (hi : ¬ i < NPROC) :
    Sect s (.next (some p)) (s.callWakeup (some p) (chanOf (s.proc p).parent) (.exitLast status))
  | exitLast {p status} (ha : s.At (some p) (.exitLast status)) (hf : s.PFree p) :
    Sect s (.next (some p)) ((s.setProc p { s.proc p with xstate := status, state := .zombie }).setTh (some p)
      { s.th (some p) with pc := .dead, sw := .sched false })
  -- `wait`
  | waitLock {p addr} (ha : s.At (some p) (.waitLock addr)) (hf : s.WaitFree) :
    Sect s (.next (some p)) (s.goto (some p) (.scan addr 0 false))
  | scanOther {p addr i hk} (ha : s.At (some p) (.scan addr i hk)) (hi : i < NPROC)
      (hp : (s.proc ⟨i, hi⟩).parent ≠ some p) :
    Sect s (.next (some p)) (s.goto (some p) (.scan addr (i + 1) hk))
  | scanChild {p addr hk} {q : Slot} (ha : s.At (some p) (.scan addr q.val hk)) (hp : (s.proc q).parent = some p)
      (hf : s.PFree q) (hst : (s.proc q).state ≠ .zombie) :
    Sect s (.next (some p)) (s.goto (some p) (.scan addr (q.val + 1) true))
  | scanZombie {p addr hk status} {q : Slot} (ha : s.At (some p) (.scan addr q.val hk))
      (hp : (s.proc q).parent = some p) (hf : s.PFree q) (hst : (s.proc q).state = .zombie)
      (hs : status = if addr ≠ 0 then some (s.proc q).xstate else none) :
    Sect s (.next (some p)) ((s.freeprocReset q).setTh (some p)
      { s.th (some p) with pc := .freed q (some (s.proc q).pid), status := status })
  | scanEnd {p addr i} (ha : s.At (some p) (.scan addr i true)) (hi : ¬ i < NPROC) :
    Sect s (.next (some p)) (s.goto (some p) (.waitKilled addr))
  | scanNone {p addr i} (ha : s.At (some p) (.scan addr i false)) (hi : ¬ i < NPROC) :
    Sect s (.next (some p)) (s.ret (some p) (-1))
  | waitKilled {p addr} (ha : s.At (some p) (.waitKilled addr)) (hf : s.PFree p) (hk : (s.proc p).killed = true) :
    Sect s (.next (some p)) (s.ret (some p) (-1))
  | waitAlive {p addr} (ha : s.At (some p) (.waitKilled addr)) (hf : s.PFree p) (hk : (s.proc p).killed = false) :
    Sect s (.next (some p)) (s.goto (some p) (.waitSleep addr))
  -- `freeproc`
  | freeprocUnlist {p q w c} (ha : s.At (some p) (.freed q w)) (hc : (s.proc q).contp = some c) :
    Sect s (.next (some p)) ((s.setCont c { s.cont c with procList := (s.cont c).procList.erase q }).goto (some p)
      (if (s.cont c).procList.erase q = [] then .unlisted q w else .unlinked q w))
  | freeprocContOff {p q w c} (ha : s.At (some p) (.unlisted q w)) (hc : (s.proc q).contp = some c) :
    Sect s (.next (some p)) ({ s with contRun := s.contRun.erase c }.goto (some p) (.contOff q w))
  | freecont {p q w c} (ha : s.At (some p) (.contOff q w)) (hc : (s.proc q).contp = some c) :
    Sect s (.next (some p)) ({ s.setCont c { s.cont c with used := false, nextpid := 1, rootdir := none } with
      contUnused := s.contUnused ++ [c] }.goto (some p) (.unlinked q w))
  | freeprocUnlink {p q w} (ha : s.At (some p) (.unlinked q w)) :
    Sect s (.next (some p)) ((s.setProc q { s.proc q with contp := none }).ret (some p) (w.getD (-1)))
  -- `kill`
  | killMiss {p pid i} (ha : s.At (some p) (.kill pid i)) (hi : i < NPROC) (hp : (s.proc ⟨i, hi⟩).pid ≠ pid)
      (hf : s.PFree ⟨i, hi⟩) : Sect s (.next (some p)) (s.goto (some p) (.kill pid (i + 1)))
  | killMark {p pid} {q : Slot} (ha : s.At (some p) (.kill pid q.val)) (hp : (s.proc q).pid = pid) (hf : s.PFree q)
      (hst : (s.proc q).state ≠ .sleeping) :
    Sect s (.next (some p)) ((s.setProc q { s.proc q with killed := true }).ret (some p) 0)
  | killHit {p pid} {q : Slot} (ha : s.At (some p) (.kill pid q.val)) (hp : (s.proc q).pid = pid) (hf : s.PFree q)
      (hst : (s.proc q).state = .sleeping) :
    Sect s (.next (some p)) (((s.setProc q { s.proc q with killed := true }).setState q .runnable).goto (some p)
      (.killPush q))
  | killNone {p pid i} (ha : s.At (some p) (.kill pid i)) (hi : ¬ i < NPROC) :
    Sect s (.next (some p)) (s.ret (some p) (-1))
  | killPush {p q c} (ha : s.At (some p) (.killPush q)) (hc : (s.proc q).contp = some c) :
    Sect s (.next (some p)) ((s.runPush c q).ret (some p) 0)
  -- sleep locks
  | acquiresleep {p l} (ha : s.At (some p) (.acquiresleep l)) (hf : s.SpinFree l) (hl : (s.lock l).locked = false) :
    Sect s (.next (some p)) ((s.setLock l ⟨true, (s.proc p).pid⟩ (some p)).goto (some p) .run)
  | releasesleep {p l} (ha : s.At (some p) (.releasesleep l)) : Sect s (.next (some p)) (s.goto (some p) .run)
  -- failures of `uvmcopy`, `namei` and `copyout`
  | failFork {p c fr np} (ha : s.At (some p) (.listed c fr np)) :
    Sect s (.fail (some p)) ((s.freeprocReset np).goto (some p) (.freed np none))
  | failCont {p name root c} (ha : s.At (some p) (.contPopped c name root)) (hn : isRoot name = false) :
    Sect s (.fail (some p)) ((s.alloccontInit c name none).setTh (some p)
      { s.th (some p) with pc := .run, a0 := -1, kept := c :: (s.th (some p)).kept })
  | failWait {p addr hk} {q : Slot} (ha : s.At (some p) (.scan addr q.val hk)) (hp : (s.proc q).parent = some p)
      (hf : s.PFree q) (hst : (s.proc q).state = .zombie) : Sect s (.fail (some p)) (s.ret (some p) (-1))

omit [DecidableEq L] in
private theorem whenFree_ok {c : Prop} [Decidable c] {out : Out L} {t : Sys L} (h : whenFree c out = some (.ok t)) :
    c ∧ out = some (.ok t) := by
  unfold whenFree at h
  split at h
  · exact ⟨‹c›, h⟩
  · cases h

omit [DecidableEq L] in
private theorem ok_eq {s t : Sys L} (h : ok s = some (.ok t)) : t = s := by
  cases h
  rfl

variable {s s' : Sys L}

private theorem nextOf_sect {p : Slot} (hon : s.OnCpu p) (hsw : (s.th (some p)).sw = .run)
    (hw : (s.th (some p)).wake = none) (h : s.nextOf p (s.th (some p)).pc = some (.ok s')) :
    Sect s (.next (some p)) s' := by
  have ha : ∀ {pc}, (s.th (some p)).pc = pc → s.At (some p) pc :=
    fun hpc => ⟨hpc, fun _ hq => Option.some.inj hq ▸ ⟨hon, hsw, hw⟩⟩
  cases hpc : (s.th (some p)).pc <;> rw [hpc] at h <;> simp only [nextOf] at h
  case run => cases h
  case dead => cases h
  case contAlloc name root =>
    unfold alloccontPop at h
    split at h
    · exact ok_eq h ▸ .alloccontNone (ha hpc) ‹_›
    · exact ok_eq h ▸ .alloccontPop (ha hpc) ‹_›
  case contPopped c name root => exact ok_eq h ▸ .alloccontInit (ha hpc)
  case contMade c => exact ok_eq h ▸ .cforkPush (ha hpc)
  case alloc c fr =>
    unfold allocprocPop at h
    split at h
    · exact ok_eq h ▸ .allocprocNone (ha hpc) ‹_›
    · cases h
    · exact ok_eq h ▸ .allocprocPop (ha hpc) ‹_›
  case popped c fr np =>
    obtain ⟨hf, h⟩ := whenFree_ok h
    exact ok_eq h ▸ .allocprocLock (ha hpc) hf
  case locked c fr np => exact ok_eq h ▸ .allocprocInit (ha hpc)
  case made c fr np => exact ok_eq h ▸ .allocprocList (ha hpc)
  case listed c fr np => exact ok_eq h ▸ .forkCopy (ha hpc)
  case copied c fr np =>
    obtain ⟨hf, h⟩ := whenFree_ok h
    exact ok_eq h ▸ .forkParent (ha hpc) hf
  case adopted c fr np =>
    obtain ⟨hf, h⟩ := whenFree_ok h
    exact ok_eq h ▸ .forkRunnable (ha hpc) hf
  case ready c fr np =>
    exact ok_eq h ▸ .forkPush (ha hpc)
  case exitCount status =>
    unfold Sys.exitCount at h
    split at h
    · cases h
    · exact ok_eq h ▸ .exitCount (ha hpc) ‹_›
  case exitIput status =>
    unfold Sys.exitIput at h
    split at h
    · cases h
    · split at h
      · cases h
      · exact ok_eq h ▸ .exitIput (ha hpc) ‹_› ‹_›
  case exitLock status =>
    obtain ⟨hf, h⟩ := whenFree_ok h
    exact ok_eq h ▸ .exitLock (ha hpc) hf
  case reparent status i =>
    unfold Sys.reparent at h
    split at h
    · rename_i hi
      dsimp only at h
      split at h
      · exact ok_eq h ▸ .reparentHit (q := ⟨i, hi⟩) (ha hpc) ‹_›
      · exact ok_eq h ▸ .reparentMiss (ha hpc) hi ‹_›
    · exact ok_eq h ▸ .reparentEnd (ha hpc) ‹_›
  case exitLast status =>
    obtain ⟨hf, h⟩ := whenFree_ok h
    exact ok_eq h ▸ .exitLast (ha hpc) hf
  case waitLock addr =>
    obtain ⟨hf, h⟩ := whenFree_ok h
    exact ok_eq h ▸ .waitLock (ha hpc) hf
  case scan addr i hk =>
    unfold Sys.scan at h
    split at h
    · rename_i hi
      dsimp only at h
      split at h
      · rename_i hp
        obtain ⟨hf, h⟩ := whenFree_ok h
        split at h
        · exact ok_eq h ▸ .scanZombie (q := ⟨i, hi⟩) (ha hpc) hp hf ‹_› rfl
        · exact ok_eq h ▸ .scanChild (q := ⟨i, hi⟩) (ha hpc) hp hf ‹_›
      · exact ok_eq h ▸ .scanOther (ha hpc) hi ‹_›
    · split at h
      · rename_i hi hk
        subst hk
        exact ok_eq h ▸ .scanEnd (ha hpc) hi
      · rename_i hi hkf
        obtain rfl : hk = false := eq_false_of_ne_true hkf
        exact ok_eq h ▸ .scanNone (ha hpc) hi
  case waitKilled addr =>
    obtain ⟨hf, h⟩ := whenFree_ok h
    split at h
    · exact ok_eq h ▸ .waitKilled (ha hpc) hf ‹_›
    · exact ok_eq h ▸ .waitAlive (ha hpc) hf (eq_false_of_ne_true ‹_›)
  case waitSleep addr =>
    obtain ⟨hf, h⟩ := whenFree_ok h
    exact ok_eq h ▸ .sleep (ha hpc) hf (.inr ⟨rfl, .inl ⟨addr, rfl, rfl, rfl⟩⟩)
  case freed q w =>
    unfold Sys.freeprocUnlist at h
    split at h
    · cases h
    · exact ok_eq h ▸ .freeprocUnlist (ha hpc) ‹_›
  case unlisted q w =>
    unfold Sys.freeprocContOff at h
    split at h
    · cases h
    · exact ok_eq h ▸ .freeprocContOff (ha hpc) ‹_›
  case contOff q w =>
    unfold Sys.freecont at h
    split at h
    · cases h
    · exact ok_eq h ▸ .freecont (ha hpc) ‹_›
  case unlinked q w => exact ok_eq h ▸ .freeprocUnlink (ha hpc)
  case kill pid i =>
    unfold Sys.kill at h
    split at h
    · rename_i hi
      obtain ⟨hf, h⟩ := whenFree_ok h
      dsimp only at h
      split at h
      · split at h
        · exact ok_eq h ▸ .killHit (q := ⟨i, hi⟩) (ha hpc) ‹_› hf ‹_›
        · exact ok_eq h ▸ .killMark (q := ⟨i, hi⟩) (ha hpc) ‹_› hf ‹_›
      · exact ok_eq h ▸ .killMiss (ha hpc) hi ‹_› hf
    · exact ok_eq h ▸ .killNone (ha hpc) ‹_›
  case killPush q =>
    unfold Sys.killPush at h
    split at h
    · cases h
    · exact ok_eq h ▸ .killPush (ha hpc) ‹_›
  case acquiresleep l =>
    obtain ⟨hf, h⟩ := whenFree_ok h
    split at h
    · rename_i hl
      obtain ⟨hp, h⟩ := whenFree_ok h
      exact ok_eq h ▸ .sleep (ha hpc) hp (.inr ⟨rfl, .inr ⟨l, rfl, rfl, rfl, hl, hf⟩⟩)
    · exact ok_eq h ▸ .acquiresleep (ha hpc) hf (eq_false_of_ne_true ‹_›)
  case releasesleep l => exact ok_eq h ▸ .releasesleep (ha hpc)

private theorem call_sect [Fintype L] {p : Slot} {x : Call L} (ha : s.At (some p) .run) (h : s.call p x = some (.ok s')) :
    Sect s (.call p x) s' := by
  cases x <;> simp only [Sys.call] at h
  case fork =>
    split at h
    · cases h
    · exact ok_eq h ▸ .callFork ha ‹_›
  case cfork name root => exact ok_eq h ▸ .callCfork ha
  case exit status =>
    split at h
    · cases h
    · split at h
      · cases h
      · exact ok_eq h ▸ .callExit ha ‹_› (by simpa using ‹¬ ∃ _, _›)
  case wait addr => exact ok_eq h ▸ .callWait ha
  case kill pid => exact ok_eq h ▸ .callKill ha
  case sleep n =>
    obtain ⟨hf, h⟩ := whenFree_ok h
    exact ok_eq h ▸ .sleep ha hf (.inl ⟨rfl, rfl, n, rfl, rfl⟩)
  case wakeup n => exact ok_eq h ▸ .callWakeup ha
  case acquiresleep l => exact ok_eq h ▸ .callAcquire ha
  case releasesleep l =>
    split at h
    · obtain ⟨hf, h⟩ := whenFree_ok h
      exact ok_eq h ▸ .callRelease ha ‹_› hf
    · cases h

private theorem fail_sect {p : Slot} (hon : s.OnCpu p) (hsw : (s.th (some p)).sw = .run)
    (hw : (s.th (some p)).wake = none) (h : s.failOf p (s.th (some p)).pc = some (.ok s')) :
    Sect s (.fail (some p)) s' := by
  have ha : ∀ {pc}, (s.th (some p)).pc = pc → s.At (some p) pc :=
    fun hpc => ⟨hpc, fun _ hq => Option.some.inj hq ▸ ⟨hon, hsw, hw⟩⟩
  generalize hpc : (s.th (some p)).pc = pc at h
  unfold Sys.failOf at h
  split at h
  · cases h
  · exact ok_eq h ▸ .failFork (ha hpc)
  · split at h
    · cases h
    · exact ok_eq h ▸ .failCont (ha hpc) (eq_false_of_ne_true ‹_›)
  · split at h
    · rename_i hi
      split at h
      · rename_i hp
        obtain ⟨hf, h⟩ := whenFree_ok h
        split at h
        · exact ok_eq h ▸ .failWait (q := ⟨_, hi⟩) (ha hpc) hp.2 hf ‹_›
        · cases h
      · cases h
    · cases h
  · cases h

private theorem boot_sect (h : s.nextBoot = some (.ok s')) : Sect s (.next none) s' := by
  have ha : ∀ {pc}, (s.th none).pc = pc → s.At none pc := fun hpc => ⟨hpc, nofun⟩
  unfold Sys.nextBoot at h
  split at h
  · unfold allocprocPop at h
    split at h
    · rename_i ht
      cases ht
    · cases h
    · exact ok_eq h ▸ .allocprocPop (ha ‹_›) ‹_›
  · obtain ⟨hf, h⟩ := whenFree_ok h
    exact ok_eq h ▸ .allocprocLock (ha ‹_›) hf
  · exact ok_eq h ▸ .allocprocInit (ha ‹_›)
  · exact ok_eq h ▸ .allocprocList (ha ‹_›)
  · exact ok_eq h ▸ .userinit (ha ‹_›)
  · exact ok_eq h ▸ .forkPush (ha ‹_›)
  · cases h

private theorem proc_sect {p : Slot} (hon : s.OnCpu p) (h : s.nextProc p = some (.ok s')) :
    Sect s (.next (some p)) s' := by
  unfold Sys.nextProc at h
  split at h
  · rename_i hsw
    unfold Sys.yieldPush at h
    split at h
    · cases h
    · exact ok_eq h ▸ .yieldPush hon hsw ‹_›
  · rename_i b _ hsw
    unfold Sys.sched at h
    split at h
    · cases h
    · split at h
      · cases h
      · exact ok_eq h ▸ .sched hon hsw (by simpa using ‹¬ _ ≠ []›)
  · cases h
  · rename_i chan i hsw hw
    unfold Sys.wakeupLoop at h
    split at h
    · rename_i hi
      dsimp only at h
      split at h
      · exact ok_eq h ▸ .wakeupMiss ⟨hon, hsw, hw⟩ hi (.inl ‹_›)
      · rename_i hne
        obtain ⟨hf, h⟩ := whenFree_ok h
        split at h
        · rename_i hq
          exact ok_eq h ▸ .wakeupHit (q := ⟨i, hi⟩) ⟨hon, hsw, hw⟩ hne hf hq.1 hq.2
        · exact ok_eq h ▸ .wakeupMiss ⟨hon, hsw, hw⟩ hi (.inr ‹_›)
    · exact ok_eq h ▸ .wakeupEnd ⟨hon, hsw, hw⟩ ‹_›
  · rename_i chan q hsw hw
    unfold Sys.wakeupPush at h
    split at h
    · cases h
    · exact ok_eq h ▸ .wakeupPush ⟨hon, hsw, hw⟩ ‹_›
  · exact nextOf_sect hon ‹_› ‹_› h

/-- Every step that does not panic is one of the sections. -/
theorem Sys.step_sect [Fintype L] {e : Ev L} (h : s.step e = some (.ok s')) : Sect s e s' := by
  cases e with
  | pop k c =>
    simp only [step, Sys.schedulerPop] at h
    split at h
    · exact ok_eq h ▸ .schedulerPop ‹_› ‹_›
    · cases h
  | switch k =>
    simp only [step, Sys.schedulerRun] at h
    split at h
    · obtain ⟨hf, h⟩ := whenFree_ok h
      split at h
      · cases h
      · exact ok_eq h ▸ .schedulerRun ‹_› hf (by simpa using ‹¬ _ ≠ _›) rfl
    · cases h
  | call p x =>
    simp only [step] at h
    split at h
    · rename_i hat
      refine call_sect ?_ h
      unfold AtRun at hat
      split at hat
      · exact ⟨‹_›, fun _ hq => Option.some.inj hq ▸ ⟨by simpa using hat, ‹_›, ‹_›⟩⟩
      · cases hat
    · cases h
  | tick p =>
    simp only [step] at h
    split at h
    · rename_i hi
      obtain ⟨hf, h⟩ := whenFree_ok h
      exact ok_eq h ▸ .yield hi.1 hi.2 hf
    · cases h
  | next t =>
    cases t with
    | none => exact boot_sect h
    | some p =>
      simp only [step] at h
      split at h
      · exact proc_sect ‹_› h
      · cases h
  | fail t =>
    cases t with
    | none => cases h
    | some p =>
      simp only [step] at h
      split at h
      · split at h
        · exact fail_sect ‹_› ‹_› ‹_› h
        · cases h
      · cases h

end Xv6
