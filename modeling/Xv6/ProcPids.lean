import Xv6.ProcLists

/-!
# Pids

`Sys.PidStep` says what a section does to the pids: most sections keep them, `allocproc` takes the next pid of the
container, `reparent` overwrites the pid of an abandoned child outside `cont_root`, and `freeproc` clears it.
-/

namespace Xv6

open Function (update)

variable {L : Type}

namespace Sys

/-- Pids, containers and the slots in use stay; no slot becomes `USED`, zombies stay zombies and only a process in `exit`
becomes one. -/
structure KeepsPids (s s' : Sys L) : Prop where
  pid : ∀ q, (s'.proc q).pid = (s.proc q).pid
  contp : ∀ q, (s'.proc q).contp = (s.proc q).contp
  unused : ∀ q, (s'.proc q).state = .unused ↔ (s.proc q).state = .unused
  used : ∀ q, (s'.proc q).state = .used → (s.proc q).state = .used
  zombie : ∀ q, (s.proc q).state = .zombie → (s'.proc q).state = .zombie
  dies : ∀ q, (s'.proc q).state = .zombie → (s.proc q).state = .zombie ∨ (s.th (some q)).pc.role = .exiting
  nextpid : ∀ c, (s'.cont c).nextpid = (s.cont c).nextpid

/-- What a section does to the pids. -/
inductive PidStep (s : Sys L) : Ev L → Sys L → Prop
  | keeps {e s'} (h : s.KeepsPids s') : PidStep s e s'
  | alloc {t c fr np s'} (ha : s.At t (.locked c fr np)) (hst : (s.proc np).state = .unused)
      (hp : s'.proc = update s.proc np
        { s.proc np with pid := asInt (s.cont c).nextpid, state := .used, contp := some c })
      (hc : s'.cont = update s.cont c { s.cont c with nextpid := (s.cont c).nextpid + 1 }) : PidStep s (.next t) s'
  | orphan {p status q s'} (ha : s.At (some p) (.reparent status q.val)) (hpar : (s.proc q).parent = some p)
      (hp : s'.proc = update s.proc q (s.orphan (s.proc q))) (hc : s'.cont = s.cont) : PidStep s (.next (some p)) s'
  | reset {e q s'} (hq : (s.proc q).state = .zombie ∨ (s.proc q).state = .used)
      (hp : s'.proc = update s.proc q { s.proc q with
        state := .unused, chan := none, killed := false, xstate := 0, pid := 0, parent := none })
      (hc : s'.cont = s.cont) : PidStep s e s'
  | unlink {e q s'} (hst : (s.proc q).state = .unused)
      (hp : s'.proc = update s.proc q { s.proc q with contp := none }) (hc : s'.cont = s.cont) : PidStep s e s'
  | cont {e c s'} (hc : ∀ q, (s.proc q).contp = some c → (s.proc q).state = .unused) (hp : s'.proc = s.proc)
      (hn : (s'.cont c).nextpid = 1) (hd : ∀ d, d ≠ c → (s'.cont d).nextpid = (s.cont d).nextpid) : PidStep s e s'

variable {s s' : Sys L} {T : Table}

/-- A section that does not touch the process table. -/
theorem KeepsPids.of_proc (hp : s'.proc = s.proc) (hc : ∀ c, (s'.cont c).nextpid = (s.cont c).nextpid) :
    s.KeepsPids s' := by
  refine ⟨?_, ?_, ?_, ?_, ?_, ?_, hc⟩ <;> intro q <;> rw [hp]
  · exact id
  · exact id
  · exact .inl

/-- A section that changes one process, but neither its pid nor its container. -/
theorem KeepsPids.of_update {q : Slot} {x : Proc L} (hp : s'.proc = update s.proc q x)
    (hc : ∀ c, (s'.cont c).nextpid = (s.cont c).nextpid) (h1 : x.pid = (s.proc q).pid) (h2 : x.contp = (s.proc q).contp)
    (h3 : x.state = .unused ↔ (s.proc q).state = .unused) (h4 : x.state = .used → (s.proc q).state = .used)
    (h5 : (s.proc q).state = .zombie → x.state = .zombie)
    (h6 : x.state = .zombie → (s.proc q).state = .zombie ∨ (s.th (some q)).pc.role = .exiting) : s.KeepsPids s' := by
  have hcase : ∀ a, a = q ∧ s'.proc a = x ∨ s'.proc a = s.proc a := by
    intro a
    rw [hp]
    by_cases ha : a = q
    · exact .inl ⟨ha, by rw [ha, Function.update_self]⟩
    · exact .inr (Function.update_of_ne ha ..)
  refine ⟨?_, ?_, ?_, ?_, ?_, ?_, hc⟩ <;> intro a <;> rcases hcase a with ⟨rfl, ha⟩ | ha <;> rw [ha]
  · exact h1
  · exact h2
  · exact h3
  · exact h4
  · exact id
  · exact h5
  · exact id
  · exact h6
  · exact .inl

/-- A section that moves a process between `SLEEPING`, `RUNNABLE` and `RUNNING`, or makes it `RUNNABLE` first. -/
theorem KeepsPids.of_state {q : Slot} {x : Proc L} (hp : s'.proc = update s.proc q x)
    (hc : ∀ c, (s'.cont c).nextpid = (s.cont c).nextpid) (h1 : x.pid = (s.proc q).pid) (h2 : x.contp = (s.proc q).contp)
    (hold : (s.proc q).state ≠ .unused ∧ (s.proc q).state ≠ .zombie)
    (hnew : x.state ≠ .unused ∧ x.state ≠ .used ∧ x.state ≠ .zombie) : s.KeepsPids s' :=
  .of_update hp hc h1 h2 (iff_of_false hnew.1 hold.1) (fun h => absurd h hnew.2.1) (fun h => absurd h hold.2)
    fun h => absurd h hnew.2.2

theorem runPush_nextpid {c d : ContId} {q : Slot} : ((s.runPush c q).cont d).nextpid = (s.cont d).nextpid := by
  by_cases hd : d = c
  · subst hd
    simp [runPush, setCont]
  · simp [runPush, setCont, hd]

theorem setCont_nextpid {c d : ContId} {x : Cont} (h : x.nextpid = (s.cont c).nextpid) :
    ((s.setCont c x).cont d).nextpid = (s.cont d).nextpid := by
  by_cases hd : d = c
  · subst hd
    simp [setCont, h]
  · simp [setCont, hd]

end Sys

open Sys

variable [DecidableEq L] {s s' : Sys L} {T : Table} {e : Ev L}

omit [DecidableEq L] in
/-- A process on its hart, outside `yield` and `sleep`, is `RUNNING`. -/
theorem Sys.running_of_inv (h : s.view.Inv T) {p : Slot} (hon : s.OnCpu p) (hsw : (s.th (some p)).sw = .run) :
    (s.proc p).state = .running := by
  obtain ⟨k, hk⟩ := hon
  refine (h.elem.state p).trans ?_
  rw [(h.harts.onCpu k p hk).2.1 hsw]
  rfl

omit [DecidableEq L] in
theorem Sys.At.running (h : s.view.Inv T) {p : Slot} {pc : Pc L} (ha : s.At (some p) pc) : (s.proc p).state = .running :=
  running_of_inv h (ha.run p rfl).1 (ha.run p rfl).2.1

omit [DecidableEq L] in
/-- A container that is not on `cont_run_list` has no processes. -/
theorem Sys.no_process (h : s.view.Inv T) {c : ContId} (hc : T.cont c ≠ .live) (q : Slot)
    (hq : (s.proc q).contp = some c) : (s.proc q).state = .unused := by
  by_contra hst
  refine hc (h.links.live q c hq (h.memb.inside q ?_))
  rw [← Bool.not_eq_true]
  exact fun hv => hst ((h.elem.state q).trans ((Place.unused_iff _).2 hv))

omit [DecidableEq L] in
theorem Sys.used_of_inv (h : s.view.Inv T) {t : Thread} {q : Slot} (hr : (s.th t).pc.role.hand .made = some q) :
    (s.proc q).state = .used := by
  refine (h.elem.state q).trans ?_
  rw [(h.elem.hand t .made q).1 hr]
  rfl

omit [DecidableEq L] in
/-- A process that `freeproc` has taken off its `proc_list` is `UNUSED`. -/
theorem Sys.unused_of_leaving (h : s.view.Inv T) {t : Thread} {q : Slot} (hr : (s.th t).pc.role.attHand .leaving = some q) :
    (s.proc q).state = .unused := by
  by_contra hst
  have hatt : T.att q = .hand .leaving t := (h.memb.hand t .leaving q).1 hr
  have hin := h.memb.inside q (by
    rw [← Bool.not_eq_true]
    exact fun hv => hst ((h.elem.state q).trans ((Place.unused_iff _).2 hv)))
  rw [hatt] at hin
  cases hin

theorem Sect.pids (hI : s.view.Inv T) (h : Sect s e s') : s.PidStep e s' := by
  cases h with
  | schedulerRun hk hf hst hch => exact .keeps (.of_state rfl (fun _ => rfl) rfl rfl (by simp [hst]) (by simp))
  | yield hon hi hf =>
    have hst := running_of_inv hI hon hi.1
    exact .keeps (.of_state rfl (fun _ => rfl) rfl rfl (by simp [hst]) (by simp))
  | wakeupHit hw hne hf hst hch =>
    exact .keeps (.of_state rfl (fun _ => rfl) rfl rfl (by simp [hst]) (by simp))
  | sleep ha hf hpc =>
    have hst := ha.running hI
    exact .keeps (.of_state rfl (fun _ => rfl) rfl rfl (by simp [hst]) (by simp))
  | schedulerPop hk hl => exact .keeps (.of_proc rfl fun _ => setCont_nextpid rfl)
  | yieldPush hon hsw hc => exact .keeps (.of_proc rfl fun _ => runPush_nextpid)
  | wakeupPush hw hc => exact .keeps (.of_proc rfl fun _ => runPush_nextpid)
  | killPush ha hc => exact .keeps (.of_proc rfl fun _ => runPush_nextpid)
  | forkPush ha => exact .keeps (.of_proc rfl fun _ => runPush_nextpid)
  | allocprocList ha => exact .keeps (.of_proc rfl fun _ => setCont_nextpid rfl)
  | freeprocUnlist ha hc => exact .keeps (.of_proc rfl fun _ => setCont_nextpid rfl)
  | @alloccontInit p name root c ha =>
    refine .cont (c := c) (no_process hI ?_) rfl ?_ ?_
    · rw [(hI.conts.hand (some p) .taken c).1 (congrArg (fun pc => pc.role.contHand .taken) ha.pc)]
      simp
    · simp [Sys.alloccontInit, setCont, setHist, goto, setTh]
    · intro d hd
      simp [Sys.alloccontInit, setCont, setHist, goto, setTh, hd]
  | @failCont p name root c ha hn =>
    refine .cont (c := c) (no_process hI ?_) rfl ?_ ?_
    · rw [(hI.conts.hand (some p) .taken c).1 (congrArg (fun pc => pc.role.contHand .taken) ha.pc)]
      simp
    · simp [Sys.alloccontInit, setCont, setHist, setTh]
    · intro d hd
      simp [Sys.alloccontInit, setCont, setHist, setTh, hd]
  | @allocprocInit t c fr np ha =>
    refine .alloc ha ?_ rfl rfl
    refine (hI.elem.state np).trans ?_
    rw [(hI.locked_out ha.view).1]
    rfl
  | @userinit c fr np ha =>
    have hst := used_of_inv hI (t := none) (q := np) (by rw [ha.pc]; rfl)
    exact .keeps (.of_state rfl (fun _ => rfl) rfl rfl (by simp [hst]) (by simp))
  | forkParent ha hf => exact .keeps (.of_update rfl (fun _ => rfl) rfl rfl .rfl id id .inl)
  | @forkRunnable p c fr np ha hf =>
    have hst := used_of_inv hI (t := some p) (q := np) (by rw [ha.pc]; rfl)
    exact .keeps (.of_state rfl (fun _ => rfl) rfl rfl (by simp [hst]) (by simp))
  | reparentHit ha hp => exact .orphan ha hp rfl rfl
  | exitLast ha hf =>
    have hst := ha.running hI
    exact .keeps (.of_update rfl (fun _ => rfl) rfl rfl (by simp [hst]) (by simp) (fun _ => rfl) fun _ => .inr (by rw [ha.pc]; rfl))
  | scanZombie ha hp hf hst hs => exact .reset (.inl hst) rfl rfl
  | @failFork p c fr np ha =>
    exact .reset (.inr (used_of_inv hI (t := some p) (by rw [ha.pc]; rfl))) rfl rfl
  | @freecont p q w c ha hc =>
    obtain ⟨d, hd, hoff⟩ := hI.conts.gone _ _ ha.view.role
    have hd' : (s.proc q).contp = some d := hd
    rw [hc] at hd'
    cases hd'
    refine .cont (c := c) (no_process hI (by rw [hoff]; simp)) rfl ?_ ?_
    · simp [setCont, goto, setTh]
    · intro d hd
      simp [setCont, goto, setTh, hd]
  | @freeprocUnlink p q w ha =>
    exact .unlink (unused_of_leaving hI (by rw [ha.pc]; rfl)) rfl rfl
  | killMark ha hp hf hst => exact .keeps (.of_update rfl (fun _ => rfl) rfl rfl .rfl id id .inl)
  | @killHit p pid q ha hp hf hst =>
    refine .keeps (.of_state (x := { s.proc q with killed := true, state := .runnable }) ?_ (fun _ => rfl) rfl rfl
      (by simp [hst]) (by simp))
    simp [Sys.goto, Sys.setTh, Sys.setState, Sys.setProc]
  | _ => exact .keeps (.of_proc rfl fun _ => rfl)

/-! ### Pids inside a container -/

/-- The pids of a container are below its `nextpid`, and are different but for the -2 of `reparent`. -/
structure Sys.PidsOk (s : Sys L) : Prop where
  pos : ∀ c, 1 ≤ (s.cont c).nextpid
  range : ∀ q c, (s.proc q).state ≠ .unused → (s.proc q).contp = some c →
    (1 ≤ (s.proc q).pid ∧ (s.proc q).pid < (s.cont c).nextpid) ∨ ((s.proc q).pid = -2 ∧ c ≠ contRoot)
  unique : ∀ q q' c, q ≠ q' → (s.proc q).state ≠ .unused → (s.proc q').state ≠ .unused →
    (s.proc q).contp = some c → (s.proc q').contp = some c → (s.proc q).pid = (s.proc q').pid → (s.proc q).pid = -2

theorem asInt_eq {n : Nat} (h : n < 2 ^ 31) : asInt n = n := by
  unfold asInt
  rw [Int.bmod_def]
  omega

/-- A pid is allocated only while the counter of the container is below 2^31. -/
def Sys.Counts (s : Sys L) : Ev L → Bool
  | .next t =>
    match (s.th t).pc with
    | .locked c _ _ => (s.cont c).nextpid < 2 ^ 31
    | _ => true
  | _ => true

omit [DecidableEq L] in
private theorem Sys.PidsOk.keeps (h : s.PidsOk) (hk : s.KeepsPids s') : s'.PidsOk := by
  refine ⟨?_, ?_, ?_⟩
  · intro c
    rw [hk.nextpid]
    exact h.pos c
  · intro q c
    rw [Ne, hk.unused, hk.contp, hk.pid, hk.nextpid]
    exact h.range q c
  · intro q q' c hne
    rw [Ne, hk.unused, Ne, hk.unused, hk.contp, hk.contp, hk.pid, hk.pid]
    exact h.unique q q' c hne

omit [DecidableEq L] in
/-- The process that `allocproc` makes gets a pid that nobody has. -/
private theorem Sys.PidsOk.alloc {c : ContId} {np : Slot} (h : s.PidsOk) (hc : (s.cont c).nextpid < 2 ^ 31)
    (hp : s'.proc = update s.proc np { s.proc np with pid := asInt (s.cont c).nextpid, state := .used, contp := some c })
    (hn : s'.cont = update s.cont c { s.cont c with nextpid := (s.cont c).nextpid + 1 }) : s'.PidsOk := by
  have hpos := h.pos c
  have hnp : s'.proc np = { s.proc np with pid := (s.cont c).nextpid, state := .used, contp := some c } := by
    rw [hp, Function.update_self, asInt_eq hc]
  have hother : ∀ q, q ≠ np → s'.proc q = s.proc q := fun q hq => by rw [hp, Function.update_of_ne hq]
  have hnext : ∀ d, (s.cont d).nextpid ≤ (s'.cont d).nextpid := by
    intro d
    rw [hn]
    by_cases hd : d = c
    · subst hd
      simp
    · simp [hd]
  have hself : (s'.cont c).nextpid = (s.cont c).nextpid + 1 := by simp [hn]
  -- a process that was there has another pid
  have hfresh : ∀ q, q ≠ np → (s.proc q).state ≠ .unused → (s.proc q).contp = some c →
      (s.proc q).pid ≠ (s.cont c).nextpid := by
    intro q _ hst hqc
    rcases h.range q c hst hqc with ⟨-, hlt⟩ | ⟨hm, -⟩ <;> omega
  refine ⟨fun d => (h.pos d).trans (hnext d), ?_, ?_⟩
  · intro q d hst hq
    by_cases hqn : q = np
    · subst hqn
      rw [hnp] at hq ⊢
      cases hq
      exact .inl ⟨Int.ofNat_le.2 hpos, by rw [hself]; simp⟩
    · rw [hother q hqn] at hst hq ⊢
      rcases h.range q d hst hq with ⟨h1, h2⟩ | hm
      · exact .inl ⟨h1, h2.trans_le (by exact_mod_cast hnext d)⟩
      · exact .inr hm
  · intro q q' d hne hst hst' hq hq' hpid
    by_cases hqn : q = np
    · subst hqn
      rw [hother q' hne.symm] at hst' hq' hpid
      rw [hnp] at hq hpid
      cases hq
      exact absurd hpid.symm (hfresh q' hne.symm hst' hq')
    · rw [hother q hqn] at hst hq hpid ⊢
      by_cases hqn' : q' = np
      · subst hqn'
        rw [hnp] at hq' hpid
        cases hq'
        exact absurd hpid (hfresh q hqn hst hq)
      · rw [hother q' hqn'] at hst' hq' hpid
        exact h.unique q q' d hne hst hst' hq hq' hpid

omit [DecidableEq L] in
private theorem Sys.PidsOk.orphan {q : Slot} (h : s.PidsOk) (hp : s'.proc = update s.proc q (s.orphan (s.proc q)))
    (hn : s'.cont = s.cont) : s'.PidsOk := by
  have hq : s'.proc q = s.orphan (s.proc q) := by rw [hp, Function.update_self]
  have hother : ∀ a, a ≠ q → s'.proc a = s.proc a := fun a ha => by rw [hp, Function.update_of_ne ha]
  have hpid : ∀ a c, (s'.proc a).contp = some c → (s'.proc a).state = (s.proc a).state ∧ (s.proc a).contp = some c ∧
      ((s'.proc a).pid = (s.proc a).pid ∨ (s'.proc a).pid = -2 ∧ c ≠ contRoot) := by
    intro a c hac
    by_cases ha : a = q
    · subst ha
      rw [hq] at hac ⊢
      refine ⟨rfl, hac, ?_⟩
      by_cases hroot : (s.proc a).contp = some contRoot
      · exact .inl (by simp [Sys.orphan, hroot])
      · refine .inr ⟨by simp [Sys.orphan, hroot], ?_⟩
        rintro rfl
        exact hroot hac
    · rw [hother a ha] at hac ⊢
      exact ⟨rfl, hac, .inl rfl⟩
  refine ⟨by rw [hn]; exact h.pos, ?_, ?_⟩
  · intro a c hst hac
    obtain ⟨hs, hac', hpa⟩ := hpid a c hac
    rw [hn]
    rcases hpa with hpa | hpa
    · rw [hpa]
      exact h.range a c (hs ▸ hst) hac'
    · exact .inr hpa
  · intro a a' c hne hst hst' hac hac' heq
    obtain ⟨hs, hc, hpa⟩ := hpid a c hac
    obtain ⟨hs', hc', hpa'⟩ := hpid a' c hac'
    rcases hpa with hpa | ⟨hpa, -⟩
    · rcases hpa' with hpa' | ⟨hpa', -⟩
      · rw [hpa]
        exact h.unique a a' c hne (hs ▸ hst) (hs' ▸ hst') hc hc' (by rw [← hpa, heq, hpa'])
      · rw [heq, hpa']
    · exact hpa

omit [DecidableEq L] in
/-- A slot that is unused afterwards does not matter. -/
private theorem Sys.PidsOk.drop {q : Slot} {x : Proc L} (h : s.PidsOk) (hp : s'.proc = update s.proc q x)
    (hx : x.state = .unused) (hn : s'.cont = s.cont) : s'.PidsOk := by
  have hother : ∀ a, (s'.proc a).state ≠ .unused → s'.proc a = s.proc a := by
    intro a ha
    rw [hp]
    refine Function.update_of_ne ?_ ..
    rintro rfl
    rw [hp, Function.update_self] at ha
    exact ha hx
  refine ⟨by rw [hn]; exact h.pos, ?_, ?_⟩
  · intro a c hst hac
    have ha := hother a hst
    rw [ha] at hst hac ⊢
    rw [hn]
    exact h.range a c hst hac
  · intro a a' c hne hst hst' hac hac' heq
    have ha := hother a hst
    have ha' := hother a' hst'
    rw [ha] at hst hac heq ⊢
    rw [ha'] at hst' hac' heq
    exact h.unique a a' c hne hst hst' hac hac' heq

omit [DecidableEq L] in
private theorem Sys.PidsOk.cont {c : ContId} (h : s.PidsOk)
    (hc : ∀ q, (s.proc q).contp = some c → (s.proc q).state = .unused) (hp : s'.proc = s.proc)
    (hn : (s'.cont c).nextpid = 1) (hd : ∀ d, d ≠ c → (s'.cont d).nextpid = (s.cont d).nextpid) : s'.PidsOk := by
  refine ⟨?_, ?_, by rw [hp]; exact h.unique⟩
  · intro d
    by_cases hdc : d = c
    · rw [hdc, hn]
    · rw [hd d hdc]
      exact h.pos d
  · intro q d hst hq
    rw [hp] at hst hq ⊢
    have hdc : d ≠ c := by
      rintro rfl
      exact hst (hc q hq)
    rw [hd d hdc]
    exact h.range q d hst hq

omit [DecidableEq L] in
theorem Sys.PidsOk.step (h : s.PidsOk) (hc : s.Counts e = true) (hs : s.PidStep e s') : s'.PidsOk := by
  cases hs with
  | keeps hk => exact h.keeps hk
  | alloc ha _ hp hn => exact h.alloc (by simpa [Sys.Counts, ha.pc] using hc) hp hn
  | orphan _ _ hp hn => exact h.orphan hp hn
  | reset _ hp hn => exact h.drop hp rfl hn
  | unlink hst hp hn => exact h.drop hp hst hn
  | cont hc hp hn hd => exact h.cont hc hp hn hd

omit [DecidableEq L] in
theorem procinit_pidsOk : (procinit L).PidsOk := by
  refine ⟨fun _ => le_refl 1, ?_, ?_⟩
  · intro q c hst
    exact absurd rfl hst
  · intro q q' c _ hst
    exact absurd rfl hst

theorem pidsOk_reachable [Fintype L] (h : ((procLts L).guard fun s e => s.Counts e = true).Reachable s) :
    ∃ T, s.view.Inv T ∧ s.PidsOk := by
  refine h.invariant (I := fun s => ∃ T, s.view.Inv T ∧ s.PidsOk) ?_ ?_
  · rintro s rfl
    exact ⟨_, procinit_inv, procinit_pidsOk⟩
  · rintro s e s' ⟨T, hT, hp⟩ ⟨hc, hst⟩
    have hsect := Sys.step_sect hst
    obtain ⟨T', hT'⟩ := hT.sect hsect
    exact ⟨T', hT', hp.step hc (hsect.pids hT)⟩

/-- In a container, two processes have the same pid only if it is the -2 that `reparent` gives outside `cont_root`. -/
theorem pid_unique [Fintype L] (h : ((procLts L).guard fun s e => s.Counts e = true).Reachable s) {q q' : Slot} (hne : q ≠ q')
    (hq : (s.proc q).state ≠ .unused) (hq' : (s.proc q').state ≠ .unused) (hc : (s.proc q).contp = (s.proc q').contp)
    (hpid : (s.proc q).pid = (s.proc q').pid) : (s.proc q).pid = -2 ∧ (s.proc q).contp ≠ some contRoot := by
  obtain ⟨T, hT, hp⟩ := pidsOk_reachable h
  cases hqc : (s.proc q).contp with
  | none =>
    have hin := hT.memb.inside q (by
      rw [← Bool.not_eq_true]
      exact fun hv => hq ((hT.elem.state q).trans ((Place.unused_iff _).2 hv)))
    rw [(hT.memb.out q).1 hqc] at hin
    cases hin
  | some c =>
    have hm := hp.unique q q' c hne hq hq' hqc (hc ▸ hqc) hpid
    refine ⟨hm, ?_⟩
    rintro ⟨⟩
    rcases hp.range q contRoot hq hqc with ⟨h1, -⟩ | ⟨-, hroot⟩
    · rw [hm] at h1
      cases h1
    · exact hroot rfl

/-- The first process makes a container, whose process forks twice and exits: `reparent` is past both children. -/
def orphanRun : List (Ev Unit) :=
  let first : Slot := ⟨0, NPROC_pos⟩
  let second : Slot := ⟨1, one_lt_NPROC⟩
  List.replicate 6 (.next none) ++
    [.pop ⟨0, NCPU_pos⟩ contRoot, .switch ⟨0, NCPU_pos⟩, .call first (.cfork [0x63] 7)] ++
    List.replicate 11 (.next (some first)) ++
    [.pop ⟨1, one_lt_NCPU⟩ ⟨1, one_lt_NCONT⟩, .switch ⟨1, one_lt_NCPU⟩, .call second .fork] ++
    List.replicate 8 (.next (some second)) ++ [.call second .fork] ++
    List.replicate 8 (.next (some second)) ++ [.call second (.exit 0)] ++ List.replicate 71 (.next (some second))

private theorem orphanRun_pids : ∃ s : Sys Unit, ((procLts Unit).guard fun s e => s.Counts e = true).Reachable s ∧
    ∃ q q', q ≠ q' ∧ (s.proc q).state ≠ .unused ∧ (s.proc q').state ≠ .unused ∧
      (s.proc q).contp = (s.proc q').contp ∧ (s.proc q).pid = (s.proc q').pid := by
  obtain ⟨s, hr, hs⟩ := Sys.reaches (fun s e => s.Counts e) (fun s e h => h) orphanRun
    (fun s : Sys Unit => let q : Slot := ⟨2, by decide⟩; let q' : Slot := ⟨3, by decide⟩
      decide (q ≠ q' ∧ (s.proc q).state ≠ .unused ∧ (s.proc q').state ≠ .unused ∧
        (s.proc q).contp = (s.proc q').contp ∧ (s.proc q).pid = (s.proc q').pid)) (by decide +kernel)
  exact ⟨s, hr, _, _, of_decide_eq_true hs⟩

theorem pid_unique_orphanRun : ∃ (s : Sys Unit) (q q' : Slot), q ≠ q' ∧ (s.proc q).pid = (s.proc q').pid ∧
    (s.proc q).pid = -2 ∧ (s.proc q).contp ≠ some contRoot := by
  obtain ⟨s, hr, q, q', hne, hq, hq', hc, hpid⟩ := orphanRun_pids
  exact ⟨s, q, q', hne, hpid, pid_unique hr hne hq hq' hc hpid⟩

/-- Two children of a process that exits in a container have the same pid. -/
theorem orphans_share_pid : ∃ s : Sys Unit, ((procLts Unit).guard fun s e => s.Counts e = true).Reachable s ∧
    ∃ q q', q ≠ q' ∧ (s.proc q).state ≠ .unused ∧ (s.proc q').state ≠ .unused ∧
      (s.proc q).contp = (s.proc q').contp ∧ (s.proc q).pid = (s.proc q').pid :=
  orphanRun_pids

end Xv6
