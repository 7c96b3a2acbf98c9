import Xv6.ProcConts
import Xv6.ProcMoves

/-!
# The process table and the run queues agree
-/

namespace Xv6

variable {L : Type}

namespace View

variable {v w : View} {T : Table}

theorem Inv.step (h : v.Inv T) (hs : v.Step w) : ∃ T', w.Inv T' := by
  cases hs with
  | schedulerPop hk hl => exact ⟨_, h.schedulerPop hk hl⟩
  | schedulerRun hk hf => exact ⟨_, h.schedulerRun hk hf⟩
  | yield hon hsw hi hf =>
    obtain ⟨k, hk⟩ := hon
    exact ⟨_, h.yield hk hsw hi hf⟩
  | yieldPush hsw hc => exact ⟨_, h.yieldPush hsw hc⟩
  | sched hsw hk => exact ⟨_, h.sched hsw hk⟩
  | wakeupCall ha hr => exact ⟨_, h.wakeupCall ha hr⟩
  | wakeupHit hw hf hst => exact ⟨_, h.wakeupHit hw hf hst⟩
  | wakeupPush hw hc => exact ⟨_, h.wakeupPush hw hc⟩
  | wakeupEnd hw => exact ⟨_, h.wakeupEnd hw⟩
  | sleep ha hf => exact ⟨_, h.sleep ha hf⟩
  | alloccontPop ha hu => exact ⟨_, h.alloccontPop ha hu⟩
  | alloccontInit ha => exact ⟨_, h.alloccontInit ha⟩
  | cforkPush ha => exact ⟨_, h.cforkPush ha⟩
  | callFork ha hc => exact ⟨_, h.callFork ha hc⟩
  | allocprocPop ha hu => exact ⟨_, h.allocprocPop ha hu⟩
  | allocprocLock ha hf => exact ⟨_, h.allocprocLock ha hf⟩
  | allocprocInit ha => exact ⟨_, h.allocprocInit ha⟩
  | allocprocList ha => exact ⟨_, h.allocprocList ha⟩
  | forkCopy ha => exact ⟨_, h.forkCopy ha⟩
  | userinit ha => exact ⟨_, h.userinit ha⟩
  | forkRunnable ha hf => exact ⟨_, h.forkRunnable ha⟩
  | forkPush ha => exact ⟨_, h.forkPush ha⟩
  | callExit ha hi => exact ⟨_, h.callExit ha hi⟩
  | exitLast ha hf => exact ⟨_, h.exitLast ha hf⟩
  | scanZombie ha hf hst => exact ⟨_, h.scanZombie ha hf hst⟩
  | freeprocUnlist ha hc => exact ⟨_, h.freeprocUnlist ha hc⟩
  | freeprocContOff ha hc => exact ⟨_, h.freeprocContOff ha hc⟩
  | freecont ha hc => exact ⟨_, h.freecont ha hc⟩
  | freeprocUnlink ha => exact ⟨_, h.freeprocUnlink ha⟩
  | killHit ha hf hst => exact ⟨_, h.killHit ha hf hst⟩
  | killPush ha hc => exact ⟨_, h.killPush ha hc⟩

theorem Inv.fail (h : v.Inv T) (hs : v.Fail w) : ∃ T', w.Inv T' := by
  cases hs with
  | failCont ha => exact ⟨_, h.failCont ha⟩
  | allocprocNone ha => exact ⟨_, h.allocprocNone ha⟩
  | failFork ha => exact ⟨_, h.failFork ha⟩

end View

/-! ### The invariant of every run -/

/-- Where the links are after `procinit`. -/
def Table.init : Table where
  place _ := .free
  att _ := .out
  cont c := if c = contRoot then .live else .free

private theorem procinit_role (t : Thread) :
    ((procinit L).view.th t).role = if t = none then .forking contRoot false else .idle := by
  cases t <;> rfl

private theorem procinit_hand (t : Thread) (k : Hand) : ((procinit L).view.th t).hand t k = none := by
  cases t <;> cases k <;> rfl

theorem procinit_elem : (procinit L).view.Elem .init where
  unused := ⟨List.nodup_finRange _, fun a => iff_of_true (List.mem_finRange a) rfl⟩
  run c := ⟨List.nodup_nil, fun a => by simp [procinit, Sys.view, Table.init]⟩
  hand t k a := by
    simp only [procinit_hand]
    simp [Table.init]
  popped k q := by simp [procinit, Sys.view, Table.init]
  state q := rfl

theorem procinit_memb : (procinit L).view.Memb .init where
  out q := iff_of_true rfl rfl
  proc c := ⟨List.nodup_nil, fun a => by simp [procinit, Sys.view, Table.init]⟩
  hand t k a := by
    simp only [procinit_role]
    cases t <;> cases k <;> simp [Role.attHand, Table.init]
  vacant q _ := .inl rfl
  freed t q hr := by
    rw [procinit_role] at hr
    cases t <;> cases hr
  inside q hv := by cases hv

theorem procinit_conts : (procinit L).view.Conts .init where
  unused := by
    refine ⟨(List.nodup_finRange _).erase _, fun c => ?_⟩
    have := (List.nodup_finRange NCONT).mem_erase_iff (a := c) (b := contRoot)
    simp only [procinit, Sys.view, Table.init, this]
    simp
  run := by
    refine ⟨List.nodup_singleton _, fun c => ?_⟩
    simp [procinit, Sys.view, Table.init]
  hand t k c := by
    simp only [procinit_role, Table.init]
    cases t <;> cases k <;> by_cases hc : c = contRoot <;> simp [Role.contHand, hc]
  gone t q hr := by
    rw [procinit_role] at hr
    cases t <;> cases hr
  off t c hc := by
    simp only [Table.init] at hc
    split at hc <;> cases hc
  kept t c := by by_cases hc : c = contRoot <;> simp [procinit, Sys.view, Th.view, Sys.forkret, Table.init, hc]
  used c := by by_cases hc : c = contRoot <;> simp [procinit, Sys.view, Table.init, hc]

theorem procinit_links : (procinit L).view.Links .init where
  live q c hq := by cases hq
  into t c fr hr := by
    rw [procinit_role] at hr
    cases t <;> cases hr
    rfl
  own t c hr := by
    rw [procinit_role] at hr
    cases t <;> cases hr
    exact .inl rfl
  fresh t c hr := by
    rw [procinit_role] at hr
    cases t <;> cases hr
  target t c fr q _ hr := by
    rw [procinit_role] at hr
    cases t <;> cases hr
  emptied t q hr := by
    rw [procinit_role] at hr
    cases t <;> cases hr
  alone t t' c fr hr := by
    rw [procinit_role] at hr
    cases t <;> cases hr
  once t t' q q' hr := by
    rw [procinit_role] at hr
    cases t <;> cases hr

theorem procinit_harts : (procinit L).view.Harts .init where
  plock t t' q hr := by cases t <;> cases hr
  inner t _ := by cases t <;> rfl
  waking t hw := absurd rfl hw
  cpu k k' p hk := by cases hk
  onCpu k p hk := by cases hk
  clean q _ := ⟨rfl, rfl, ⟨false, rfl⟩, rfl⟩
  zombie q hz := by cases hz
  kept t b _ := rfl
  boot := ⟨rfl, rfl, rfl⟩

theorem procinit_inv : (procinit L).view.Inv .init where
  elem := procinit_elem
  memb := procinit_memb
  conts := procinit_conts
  links := procinit_links
  init := {
    root := rfl
    init := nofun
    before := fun _ _ => .inl rfl
    exiting := fun p hr => by cases hr
    boot := fun c fr hr => by
      cases hr
      exact ⟨rfl, rfl⟩ }
  harts := procinit_harts

theorem View.Inv.sect [DecidableEq L] [Fintype L] {s s' : Sys L} {T : Table} {e : Ev L} (h : s.view.Inv T)
    (hs : Sect s e s') : ∃ T', s'.view.Inv T' := by
  rcases hs.view with heq | hstep | ⟨hfail, -⟩
  · exact ⟨T, by rwa [heq]⟩
  · exact h.step hstep
  · exact h.fail hfail

theorem view_inv [DecidableEq L] [Fintype L] {s : Sys L} (h : (procLts L).Reachable s) : ∃ T, s.view.Inv T := by
  refine h.invariant (I := fun s => ∃ T, s.view.Inv T) ?_ ?_
  · rintro s rfl
    exact ⟨_, procinit_inv⟩
  · rintro s e s' ⟨T, hT⟩ hst
    exact hT.sect (Sys.step_sect hst)

/-- A run that can be computed, step by step, and a property of the state that it reaches. -/
theorem Sys.reaches [DecidableEq L] [Fintype L] {C : Sys L → Ev L → Prop} (c : Sys L → Ev L → Bool)
    (hc : ∀ s e, c s e = true → C s e) (es : List (Ev L)) (P : Sys L → Bool)
    (h : (Lts.replay Sys.step c (procinit L) es).any P = true) :
    ∃ s, ((procLts L).guard C).Reachable s ∧ P s = true :=
  Lts.Reachable.replay_any (I := (· = procinit L)) hc rfl h

/-! ### Lists and states -/

/-- The process that `fork`, `userinit` or `kill` pushes to a run list in the section that starts here. -/
def Pc.pushes : Pc L → Option Slot
  | ready _ _ np => some np
  | killPush q => some q
  | _ => none

/-- Thread `t` is about to push `q` to a run list: in `fork`, `userinit` or `kill`, in `yield`, or in `wakeup`. -/
def Th.Pushes (x : Th L) (t : Thread) (q : Slot) : Prop :=
  x.pc.pushes = some q ∨ x.sw = .push ∧ t = some q ∨ x.wake.bind Wake.slot = some q

/-- The point is in `allocproc`, which has taken `q` off `unused_list`. -/
def Pc.allocates : Pc L → Option Slot
  | popped _ _ np | locked _ _ np | made _ _ np => some np
  | _ => none

/-- The point is in `freeproc(q)`. -/
def Pc.frees : Pc L → Option Slot
  | freed q _ | unlisted q _ | contOff q _ | unlinked q _ => some q
  | _ => none

instance (x : Th L) (t : Thread) (q : Slot) : Decidable (x.Pushes t q) := inferInstanceAs (Decidable (_ ∨ _))

/-- The links `elem` and the states of the processes agree. -/
structure Sys.ListsAgree (s : Sys L) : Prop where
  unused_nodup : s.unused.Nodup
  run_nodup : ∀ c, (s.cont c).runList.Nodup
  apart : ∀ q c, q ∈ (s.cont c).runList → q ∉ s.unused ∧ ∀ c', q ∈ (s.cont c').runList → c' = c
  unused : ∀ q, (∀ t, (s.th t).pc.allocates ≠ some q ∧ (s.th t).pc.frees ≠ some q) →
    (q ∈ s.unused ↔ (s.proc q).state = .unused)
  run : ∀ q c, q ∈ (s.cont c).runList → (s.proc q).state = .runnable ∧ (s.proc q).contp = some c
  missing : ∀ q, (s.proc q).state = .runnable → (∀ c, (s.proc q).contp = some c → q ∉ (s.cont c).runList) →
    (∃ t, (s.th t).Pushes t q) ∨ ∃ k, s.cpu k = .popped q

theorem Pc.pushes_eq {pc : Pc L} {k : Hand} {q : Slot} (hk : k ≠ .taken ∧ k ≠ .made) (h : pc.role.hand k = some q) :
    pc.pushes = some q := by
  cases k <;> cases pc <;> simp_all [Pc.role, Role.hand, Pc.pushes]

theorem Th.Pushes.of_hand {x : Th L} {t : Thread} {q : Slot} {k : Hand} (hk : k ≠ .taken ∧ k ≠ .made)
    (h : x.view.hand t k = some q) : x.Pushes t q := by
  cases k with
  | yield =>
    by_cases hsw : x.sw = .push
    · exact .inr (.inl ⟨hsw, by simpa [ThView.hand, Th.view, hsw] using h⟩)
    · simp [ThView.hand, Th.view, hsw] at h
  | wakeup =>
    refine .inr (.inr ?_)
    obtain ⟨pc, wake, sw, a0, status, kept⟩ := x
    cases wake with
    | none => cases h
    | some w => exact h
  | _ => exact .inl (Pc.pushes_eq hk h)

theorem Pc.allocates_eq {pc : Pc L} {q : Slot} (h : pc.role.hand .taken = some q) : pc.allocates = some q := by
  cases pc <;> simp_all [Pc.role, Role.hand, Pc.allocates]

theorem Sys.ListsAgree.of_inv {s : Sys L} {T : Table} (h : s.view.Inv T) : s.ListsAgree := by
  have hrun : ∀ q c, q ∈ (s.cont c).runList ↔ T.place q = .queued ∧ (s.proc q).contp = some c := by
    intro q c
    refine ((h.elem.run c).2 q).trans ?_
    simp [Sys.view]
  have hunused : ∀ q, q ∈ s.unused ↔ T.place q = .free := fun q => h.elem.unused.2 q
  have hstate : ∀ q, (s.proc q).state = (T.place q).state := fun q => h.elem.state q
  refine ⟨h.elem.unused.1, fun c => (h.elem.run c).1, ?_, ?_, ?_, ?_⟩
  · intro q c hq
    obtain ⟨hp, hc⟩ := (hrun q c).1 hq
    refine ⟨?_, fun c' hq' => ?_⟩
    · rw [hunused, hp]
      simp
    · have := ((hrun q c').1 hq').2
      rw [hc] at this
      exact (Option.some.inj this).symm
  · intro q hout
    rw [hunused, hstate]
    cases hp : T.place q with
    | hand k t =>
      cases k with
      | taken =>
        have := (h.elem.hand t .taken q).2 hp
        exact absurd (Pc.allocates_eq this) (hout t).1
      | _ => simp [Place.state]
    | _ => simp [Place.state]
  · intro q c hq
    obtain ⟨hp, hc⟩ := (hrun q c).1 hq
    exact ⟨by rw [hstate, hp]; rfl, hc⟩
  · intro q hst hno
    rw [hstate] at hst
    cases hp : T.place q with
    | hand k t =>
      have hk : k ≠ .taken ∧ k ≠ .made := by
        rw [hp] at hst
        constructor <;> rintro rfl <;> cases hst
      exact .inl ⟨t, .of_hand hk ((h.elem.hand t k q).2 hp)⟩
    | popped k => exact .inr ⟨k, (h.elem.popped k q).2 hp⟩
    | queued =>
      have hatt := h.memb.inside q (by rw [hp]; rfl)
      cases hc : (s.proc q).contp with
      | none =>
        rw [(h.memb.out q).1 hc] at hatt
        cases hatt
      | some c => exact absurd ((hrun q c).2 ⟨hp, hc⟩) (hno c hc)
    | _ =>
      rw [hp] at hst
      cases hst

theorem Sys.switch_runnable [DecidableEq L] [Fintype L] {s : Sys L} {T : Table} (h : s.view.Inv T) (k : Fin NCPU)
    (msg : String) : s.step (.switch k) ≠ panic msg := by
  intro hp
  simp only [step, schedulerRun, whenFree] at hp
  split at hp
  · rename_i p hk
    have hst : (s.proc p).state = .runnable := by
      refine (h.elem.state p).trans ?_
      rw [(h.elem.popped k p).1 hk]
      rfl
    split at hp
    · rw [if_neg (not_not.2 hst)] at hp
      cases hp
    · cases hp
  · cases hp

/-- The process table and the run queues agree in every run, and the assertion of `scheduler` never fails. -/
theorem lists_agree [DecidableEq L] [Fintype L] {s : Sys L} (h : (procLts L).Reachable s) :
    s.ListsAgree ∧ ∀ k msg, s.step (.switch k) ≠ panic msg := by
  obtain ⟨T, hT⟩ := view_inv h
  exact ⟨.of_inv hT, Sys.switch_runnable hT⟩

/-- The first process has made a child, and makes another one. -/
def forkTwiceRun : List (Ev Unit) :=
  List.replicate 6 (.next none) ++ [.pop ⟨0, NCPU_pos⟩ contRoot, .switch ⟨0, NCPU_pos⟩, .call ⟨0, NPROC_pos⟩ .fork] ++
    List.replicate 8 (.next (some ⟨0, NPROC_pos⟩)) ++ [.call ⟨0, NPROC_pos⟩ .fork] ++ List.replicate 7 (.next (some ⟨0, NPROC_pos⟩))

/-- The first child is on the run list, the second one is about to be pushed. -/
theorem lists_agree_forkTwiceRun : ∃ (s : Sys Unit) (q q' : Slot), q ∈ (s.cont contRoot).runList ∧ (s.proc q').state = .runnable ∧
    (∀ c, q' ∉ (s.cont c).runList) ∧ (s.th (some ⟨0, by decide⟩)).Pushes (some ⟨0, by decide⟩) q' ∧ s.ListsAgree ∧
    ∀ k msg, s.step (.switch k) ≠ panic msg := by
  let q : Slot := ⟨1, by decide⟩
  let q' : Slot := ⟨2, by decide⟩
  obtain ⟨s, hr, hs⟩ := Sys.reaches (C := fun _ _ => True) (fun _ _ => true) (fun _ _ _ => trivial) forkTwiceRun
    (fun s : Sys Unit => decide (q ∈ (s.cont contRoot).runList ∧ (s.proc q').state = .runnable ∧ (∀ c, q' ∉ (s.cont c).runList) ∧
      (s.th (some ⟨0, by decide⟩)).Pushes (some ⟨0, by decide⟩) q')) (by decide +kernel)
  obtain ⟨h1, h2, h3, h4⟩ := of_decide_eq_true hs
  exact ⟨s, q, q', h1, h2, h3, h4, lists_agree hr.of_guard⟩

/-- `userinit` makes the first process `RUNNABLE` before it pushes it: then no process is about to push it. -/
theorem userinit_missing : ∃ s : Sys Unit, ((procLts Unit).guard fun s e => s.Lacks e = false).Reachable s ∧
    ∃ q, (s.proc q).state = .runnable ∧ (∀ c, q ∉ (s.cont c).runList) ∧ (∀ p, ¬ (s.th (some p)).Pushes (some p) q) ∧
      ∀ k, s.cpu k ≠ .popped q := by
  obtain ⟨s, hr, hs⟩ := Sys.reaches (fun s e => !s.Lacks e) (fun s e h => by simpa using h)
    (List.replicate 5 (.next none)) (fun s : Sys Unit => decide (∃ q, (s.proc q).state = .runnable ∧
      (∀ c, q ∉ (s.cont c).runList) ∧ (∀ p, ¬ (s.th (some p)).Pushes (some p) q) ∧ ∀ k, s.cpu k ≠ .popped q))
    (by decide +kernel)
  exact ⟨s, hr, of_decide_eq_true hs⟩

end Xv6
