import Xv6.ProcPids

/-!
# The root directory of a container

`alloccont` takes a reference to the root directory, and the process that finds itself alone on the `proc_list` in `exit`
gives it back.  Most sections keep all that this depends on (`Sys.KeepsRoot`): the history of the containers, the processes
that are present, and which of them are past the count in `exit` (`Pc.tag`).
-/

namespace Xv6

open Function (update)

variable {L : Type}

/-- The process is past the count of the processes in `exit`. -/
def Pc.counted : Pc L → Bool
  | exitIput _ | exitLock _ | reparent .. | exitLast _ | dead => true
  | _ => false

/-- The process is about to give the root directory back. -/
def Pc.puts : Pc L → Bool
  | exitIput _ => true
  | _ => false

/-- The container that a `cfork` in progress has made. -/
def Pc.newCont : Pc L → Option ContId
  | contMade c => some c
  | alloc c fr | popped c fr _ | locked c fr _ | made c fr _ | listed c fr _ | copied c fr _ | adopted c fr _ |
    ready c fr _ => if fr then some c else none
  | _ => none

/-- The name given to a `cfork` that is in `alloccont`. -/
def Pc.cname : Pc L → Option (List UInt8)
  | contAlloc name _ | contPopped _ name _ => some name
  | _ => none

structure Tag where
  counted : Bool
  puts : Bool
  newCont : Option ContId
  target : Option Slot

def Pc.tag (pc : Pc L) : Tag := ⟨pc.counted, pc.puts, pc.newCont, pc.role.target⟩

namespace Sys

/-- Slot `q` has a process of container `c`. -/
def Present (s : Sys L) (q : Slot) (c : ContId) : Prop := (s.proc q).contp = some c ∧ (s.proc q).state ≠ .unused

/-- A section that does not concern the root directories. -/
structure KeepsRoot (s s' : Sys L) : Prop where
  hist : s'.hist = s.hist
  used : ∀ c, (s'.cont c).used = (s.cont c).used
  rootdir : ∀ c, (s'.cont c).rootdir = (s.cont c).rootdir
  tag : ∀ t, (s'.th t).pc.tag = (s.th t).pc.tag
  present : ∀ q c, s'.Present q c ↔ s.Present q c
  zombie : ∀ q, (s'.proc q).state = .zombie → (s.proc q).state = .zombie ∨ (s.th (some q)).pc.counted = true

variable {s s' : Sys L}

theorem KeepsRoot.of_proc (hp : s'.proc = s.proc) (hh : s'.hist = s.hist) (hu : ∀ c, (s'.cont c).used = (s.cont c).used)
    (hr : ∀ c, (s'.cont c).rootdir = (s.cont c).rootdir) (ht : ∀ t, (s'.th t).pc.tag = (s.th t).pc.tag) :
    s.KeepsRoot s' := by
  refine ⟨hh, hu, hr, ht, ?_, ?_⟩
  · intro q c
    rw [Present, Present, hp]
  · intro q
    rw [hp]
    exact .inl

theorem KeepsRoot.of_update {q : Slot} {x : Proc L} (hp : s'.proc = update s.proc q x) (hh : s'.hist = s.hist)
    (hc : s'.cont = s.cont) (ht : ∀ t, (s'.th t).pc.tag = (s.th t).pc.tag) (h1 : x.contp = (s.proc q).contp)
    (h2 : x.state = .unused ↔ (s.proc q).state = .unused)
    (h3 : x.state = .zombie → (s.proc q).state = .zombie ∨ (s.th (some q)).pc.counted = true) : s.KeepsRoot s' := by
  refine ⟨hh, fun c => by rw [hc], fun c => by rw [hc], ht, ?_, ?_⟩
  · intro a c
    rw [Present, Present, hp]
    by_cases ha : a = q
    · subst ha
      rw [Function.update_self, h1, Ne, h2]
    · rw [Function.update_of_ne ha]
  · intro a
    rw [hp]
    by_cases ha : a = q
    · subst ha
      rw [Function.update_self]
      exact h3
    · rw [Function.update_of_ne ha]
      exact .inl

theorem setCont_used {c d : ContId} {x : Cont} (h : x.used = (s.cont c).used) :
    ((s.setCont c x).cont d).used = (s.cont d).used := by
  by_cases hd : d = c
  · subst hd
    simp [setCont, h]
  · simp [setCont, hd]

theorem setCont_rootdir {c d : ContId} {x : Cont} (h : x.rootdir = (s.cont c).rootdir) :
    ((s.setCont c x).cont d).rootdir = (s.cont d).rootdir := by
  by_cases hd : d = c
  · subst hd
    simp [setCont, h]
  · simp [setCont, hd]

/-! ### The invariant -/

/-- The reference of the container `c` has been given back once. -/
def Returned (s : Sys L) (c : ContId) : Prop := ∃ i, (s.hist c).root = some i ∧ (s.hist c).puts = [i]

/-- The container `c` has the reference that `namei` returned. -/
def Holds (s : Sys L) (c : ContId) : Prop := ∃ i, (s.hist c).root = some i ∧ (s.cont c).rootdir = some i

/-- Some process of `c` has not counted, or is about to give the reference back. -/
def Open (s : Sys L) (c : ContId) : Prop :=
  ∃ q, s.Present q c ∧ ((s.th (some q)).pc.counted = false ∨ (s.th (some q)).pc.puts = true)

structure Rooted (s : Sys L) : Prop where
  new : ∀ t c, (s.th t).pc.newCont = some c →
    c ≠ contRoot ∧ (s.cont c).used = true ∧ (s.hist c).done = false ∧ (s.hist c).puts = [] ∧ s.Holds c
  holds : ∀ c, (s.hist c).done = true → (s.cont c).used = true → s.Holds c
  returned : ∀ c, (s.hist c).done = true → (s.cont c).used = false → s.Returned c
  shut : ∀ c, (s.hist c).done = true → (s.cont c).used = true → ¬ s.Open c → s.Returned c
  opened : ∀ c, s.Open c → (s.hist c).puts = []
  alone : ∀ p c, (s.th (some p)).pc.puts = true → s.Present p c → ∀ q, s.Present q c → q = p
  known : ∀ q c, s.Present q c → c ≠ contRoot → (s.hist c).done = true ∨ ∃ t, (s.th t).pc.newCont = some c
  zombie : ∀ q, (s.proc q).state = .zombie → (s.th (some q)).pc.counted = true
  root : (s.hist contRoot).puts = []

/-- Two states that agree on what the root directory of `c` depends on. -/
structure SameRoot (s s' : Sys L) (c : ContId) : Prop where
  hist : s'.hist c = s.hist c
  used : (s'.cont c).used = (s.cont c).used
  rootdir : (s'.cont c).rootdir = (s.cont c).rootdir

theorem SameRoot.returned {c : ContId} (h : s.SameRoot s' c) : s'.Returned c ↔ s.Returned c := by
  rw [Returned, Returned, h.hist]

theorem SameRoot.holds {c : ContId} (h : s.SameRoot s' c) : s'.Holds c ↔ s.Holds c := by
  rw [Holds, Holds, h.hist, h.rootdir]

theorem KeepsRoot.same (h : s.KeepsRoot s') (c : ContId) : s.SameRoot s' c := ⟨by rw [h.hist], h.used c, h.rootdir c⟩

theorem KeepsRoot.opened (h : s.KeepsRoot s') (c : ContId) : s'.Open c ↔ s.Open c := by
  have h1 : ∀ t, (s'.th t).pc.counted = (s.th t).pc.counted := fun t => congrArg Tag.counted (h.tag t)
  have h2 : ∀ t, (s'.th t).pc.puts = (s.th t).pc.puts := fun t => congrArg Tag.puts (h.tag t)
  simp only [Open, h.present, h1, h2]

theorem Rooted.keeps (h : s.Rooted) (hk : s.KeepsRoot s') : s'.Rooted := by
  have h1 : ∀ t, (s'.th t).pc.counted = (s.th t).pc.counted := fun t => congrArg Tag.counted (hk.tag t)
  have h2 : ∀ t, (s'.th t).pc.puts = (s.th t).pc.puts := fun t => congrArg Tag.puts (hk.tag t)
  have h3 : ∀ t, (s'.th t).pc.newCont = (s.th t).pc.newCont := fun t => congrArg Tag.newCont (hk.tag t)
  refine ⟨?_, ?_, ?_, ?_, ?_, ?_, ?_, ?_, by rw [hk.hist]; exact h.root⟩
  · intro t c ht
    rw [h3] at ht
    rw [hk.used, hk.hist, (hk.same c).holds]
    exact h.new t c ht
  · intro c
    rw [hk.used, hk.hist, (hk.same c).holds]
    exact h.holds c
  · intro c
    rw [hk.used, hk.hist, (hk.same c).returned]
    exact h.returned c
  · intro c
    rw [hk.used, hk.hist, hk.opened, (hk.same c).returned]
    exact h.shut c
  · intro c
    rw [hk.opened, hk.hist]
    exact h.opened c
  · intro p c
    simp only [h2, hk.present]
    exact h.alone p c
  · intro q c
    simp only [hk.present, hk.hist, h3]
    exact h.known q c
  · intro q hq
    rw [h1]
    rcases hk.zombie q hq with hz | hz
    · exact h.zombie q hz
    · exact hz

end Sys

open Sys

variable [DecidableEq L] {s s' : Sys L} {T : Table} {e : Ev L}

/-! ### A process that has not run yet -/

omit [DecidableEq L] in
private theorem th_setTh {α : Type} {f : Pc L → Option α} {a : α} {t : Thread} {x : Th L}
    (h : f x.pc = some a → f (s.th t).pc = some a) (u : Thread) (hu : f (update s.th t x u).pc = some a) :
    f (s.th u).pc = some a := by
  by_cases hut : u = t
  · subst hut
    rw [Function.update_self] at hu
    exact h hu
  · rwa [Function.update_of_ne hut] at hu

/-- A process gets into the hands of a `fork` by `allocproc`, which resets its kernel thread. -/
theorem Sect.target (hs : Sect s e s') (t : Thread) (q : Slot) (h : (s'.th t).pc.role.target = some q) :
    (s.th t).pc.role.target = some q ∨ ∃ c fr, s.At t (.locked c fr q) ∧ (t ≠ some q → s'.th (some q) = forkret) := by
  cases hs with
  | schedulerPop hk hl => exact .inl h
  | @allocprocInit u c fr np ha =>
    by_cases htu : t = u
    · subst htu
      have hq : np = q := by
        have h' := (congrArg (fun x : Th L => x.pc.role.target) (Function.update_self t _ _)).symm.trans h
        exact Option.some.inj h'
      subst hq
      refine .inr ⟨c, fr, ha, fun hne => ?_⟩
      exact (Function.update_of_ne (Ne.symm hne) ..).trans (Function.update_self ..)
    · refine .inl (th_setTh (f := fun pc => pc.role.target) (t := some np) (x := forkret) (fun h => by cases h) t ?_)
      exact (congrArg (fun x : Th L => x.pc.role.target) (Function.update_of_ne htu _ _)).symm.trans h
  | sleep ha hf hpc =>
    refine .inl (th_setTh (f := fun pc => pc.role.target) ?_ t h)
    obtain ⟨rfl, rfl, -⟩ | ⟨-, ⟨addr, rfl, -, rfl⟩ | ⟨l, rfl, -, rfl, -⟩⟩ := hpc <;> intro h <;> cases h
  | exitCount ha hc =>
    refine .inl (th_setTh (f := fun pc => pc.role.target) ?_ t h)
    dsimp only
    split <;> intro h <;> cases h
  | freeprocUnlist ha hc =>
    refine .inl (th_setTh (f := fun pc => pc.role.target) ?_ t h)
    dsimp only
    split <;> intro h <;> cases h
  | allocprocList ha => exact .inl (th_setTh (f := fun pc => pc.role.target) (by rw [ha.pc]; exact id) t h)
  | forkCopy ha => exact .inl (th_setTh (f := fun pc => pc.role.target) (by rw [ha.pc]; exact id) t h)
  | userinit ha => exact .inl (th_setTh (f := fun pc => pc.role.target) (by rw [ha.pc]; exact id) t h)
  | forkParent ha hf => exact .inl (th_setTh (f := fun pc => pc.role.target) (by rw [ha.pc]; exact id) t h)
  | forkRunnable ha hf => exact .inl (th_setTh (f := fun pc => pc.role.target) (by rw [ha.pc]; exact id) t h)
  | _ => first
    | exact .inl (th_setTh (f := fun pc => pc.role.target) (by exact id) t h)
    | exact .inl (th_setTh (f := fun pc => pc.role.target) (fun h => by cases h) t h)

/-- A process that has been switched out does not move, unless a hart or `allocproc` has it. -/
theorem Sect.off (hs : Sect s e s') (q : Slot) (hoff : ∃ b, (s.th (some q)).sw = .off b) :
    s'.th (some q) = s.th (some q) ∨ (∃ k, s.cpu k = .popped q) ∨ ∃ t c fr, s.At t (.locked c fr q) := by
  obtain ⟨b, hoff⟩ := hoff
  have hne : ∀ {p : Slot}, (s.th (some p)).sw = .run ∨ (s.th (some p)).sw = .push ∨ (∃ m, (s.th (some p)).sw = .sched m) →
      (some q : Thread) ≠ some p := by
    rintro p hp ⟨⟩
    rw [hoff] at hp
    rcases hp with hp | hp | ⟨m, hp⟩ <;> cases hp
  have hat : ∀ {t : Thread} {pc : Pc L} {x : Th L}, s.At t pc → update s.th t x (some q) = s.th (some q) := by
    intro t pc x ha
    refine Function.update_of_ne ?_ ..
    rintro rfl
    exact hne (.inl (ha.run q rfl).2.1) rfl
  cases hs with
  | schedulerPop hk hl => exact .inl rfl
  | @schedulerRun k p chan hk hf hst hch =>
    by_cases hqp : q = p
    · exact .inr (.inl ⟨k, by rw [hqp]; exact hk⟩)
    · exact .inl (Function.update_of_ne (by simpa using hqp) ..)
  | userinit ha => exact .inl (by simp [Sys.goto, Sys.setTh, Sys.setState, Sys.setProc])
  | yield hon hi hf => exact .inl (Function.update_of_ne (hne (.inl hi.1)) ..)
  | yieldPush hon hsw hc => exact .inl (Function.update_of_ne (hne (.inr (.inl hsw))) ..)
  | sched hon hsw hk => exact .inl (Function.update_of_ne (hne (.inr (.inr ⟨_, hsw⟩))) ..)
  | wakeupMiss hw hi => exact .inl (Function.update_of_ne (hne (.inl hw.sw)) ..)
  | wakeupHit hw _ _ _ _ => exact .inl (Function.update_of_ne (hne (.inl hw.sw)) ..)
  | wakeupEnd hw hi => exact .inl (Function.update_of_ne (hne (.inl hw.sw)) ..)
  | wakeupPush hw hc => exact .inl (Function.update_of_ne (hne (.inl hw.sw)) ..)
  | @allocprocInit t c fr np ha =>
    by_cases hqn : q = np
    · exact .inr (.inr ⟨t, c, fr, by rw [hqn]; exact ha⟩)
    · have ht : (some q : Thread) ≠ t := by
        rintro rfl
        exact hne (.inl (ha.run q rfl).2.1) rfl
      refine .inl ((Function.update_of_ne ht ..).trans (Function.update_of_ne ?_ ..))
      simpa using hqn
  | _ => exact .inl (hat (by assumption))

/-- The process that a `fork` makes has not run yet. -/
def Sys.Born (s : Sys L) : Prop :=
  ∀ t q, (s.th t).pc.role.target = some q → (s.th (some q)).pc = .run ∧ ∃ b, (s.th (some q)).sw = .off b

theorem Sys.Born.sect (h : s.Born) (hI : s.view.Inv T) (hs : Sect s e s') : s'.Born := by
  intro t q hq
  rcases hs.target t q hq with ht | ⟨c, fr, ha, hth⟩
  · have hpl := hI.target_place (t := t) ht
    obtain ⟨hpc, hoff⟩ := h t q ht
    rcases hs.off q hoff with heq | ⟨k, hk⟩ | ⟨u, c, fr, hu⟩
    · rw [heq]
      exact ⟨hpc, hoff⟩
    · have := (hI.elem.popped k q).1 hk
      rcases hpl with hpl | hpl <;> rw [hpl] at this <;> cases this
    · have := (hI.locked_out hu.view).1
      rcases hpl with hpl | hpl <;> rw [hpl] at this <;> cases this
  · have hpl := (hI.locked_out ha.view).1
    have hne : t ≠ some q := by
      rintro rfl
      have hr := ha.view.role
      rw [(hI.harts.clean q (by rw [hpl]; rfl)).role] at hr
      cases hr
    rw [hth hne]
    exact ⟨rfl, false, rfl⟩

/-! ### The names of the containers -/

/-- No `cfork` in progress has a name that begins with "root". -/
def Sys.Named (s : Sys L) : Prop := ∀ t name, (s.th t).pc.cname = some name → isRoot name = false

theorem Sect.cname (hs : Sect s e s') (t : Thread) (name : List UInt8) (h : (s'.th t).pc.cname = some name) :
    (s.th t).pc.cname = some name ∨ ∃ p root, e = .call p (.cfork name root) := by
  cases hs with
  | schedulerPop hk hl => exact .inl h
  | @callCfork p n root ha =>
    by_cases htp : t = some p
    · subst htp
      refine .inr ⟨p, root, ?_⟩
      have h' := (congrArg (fun x : Th L => x.pc.cname) (Function.update_self (some p) _ s.th)).symm.trans h
      rw [Option.some.inj h']
    · exact .inl ((congrArg (fun x : Th L => x.pc.cname) (Function.update_of_ne htp _ s.th)).symm.trans h)
  | alloccontPop ha hu => exact .inl (th_setTh (f := Pc.cname) (by rw [ha.pc]; exact id) t h)
  | @allocprocInit u c fr np ha =>
    refine .inl (th_setTh (f := Pc.cname) (t := some np) (x := forkret) (fun h => by cases h) t ?_)
    exact th_setTh (f := Pc.cname) (s := s.setTh (some np) forkret) (t := u) (fun h => by cases h) t h
  | sleep ha hf hpc =>
    refine .inl (th_setTh (f := Pc.cname) ?_ t h)
    obtain ⟨rfl, rfl, -⟩ | ⟨-, ⟨addr, rfl, -, rfl⟩ | ⟨l, rfl, -, rfl, -⟩⟩ := hpc <;> intro h <;> cases h
  | exitCount ha hc =>
    refine .inl (th_setTh (f := Pc.cname) ?_ t h)
    dsimp only
    split <;> intro h <;> cases h
  | freeprocUnlist ha hc =>
    refine .inl (th_setTh (f := Pc.cname) ?_ t h)
    dsimp only
    split <;> intro h <;> cases h
  | _ => first
    | exact .inl (th_setTh (f := Pc.cname) (by exact id) t h)
    | exact .inl (th_setTh (f := Pc.cname) (fun h => by cases h) t h)

/-! ### New containers -/

section

omit [DecidableEq L]

theorem Pc.newCont_cases {pc : Pc L} {c : ContId} (h : pc.newCont = some c) :
    pc.role.contHand .made = some c ∨ pc.role.into = some (c, true) := by
  cases pc <;> simp_all [newCont, role, Role.contHand, Role.into]

theorem Pc.newCont_of_into {pc : Pc L} {c : ContId} (h : pc.role.into = some (c, true)) : pc.newCont = some c := by
  cases pc <;> simp_all [newCont, role, Role.into]

theorem Sys.Present.inside (hI : s.view.Inv T) {q : Slot} {c : ContId} (h : s.Present q c) : (T.att q).inside := by
  refine hI.memb.inside q ?_
  rw [← Bool.not_eq_true]
  exact fun hv => h.2 ((hI.elem.state q).trans ((Place.unused_iff _).2 hv))

theorem Sys.Present.live (hI : s.view.Inv T) {q : Slot} {c : ContId} (h : s.Present q c) : T.cont c = .live :=
  hI.links.live q c h.1 (h.inside hI)

theorem Sys.Present.used (hI : s.view.Inv T) {q : Slot} {c : ContId} (h : s.Present q c) : (s.cont c).used = true :=
  (hI.conts.used c).2 (by simp [h.live hI])

/-- A container that `cfork` is making is in its hands or on `cont_run_list`. -/
theorem Sys.new_cont (hI : s.view.Inv T) {t : Thread} {c : ContId} (h : (s.th t).pc.newCont = some c) :
    T.cont c = .hand .made t ∨ T.cont c = .live := by
  rcases Pc.newCont_cases h with hm | hi
  · exact .inl ((hI.conts.hand t .made c).1 hm)
  · exact .inr (hI.links.into t c true hi)

/-- Its only process is the one that `cfork` is making. -/
theorem Sys.new_present (hI : s.view.Inv T) {t : Thread} {c : ContId} (h : (s.th t).pc.newCont = some c) {q : Slot}
    (hq : s.Present q c) : (s.th t).pc.role.target = some q := by
  rcases Pc.newCont_cases h with hm | hi
  · have hc := (hI.conts.hand t .made c).1 hm
    rw [hq.live hI] at hc
    cases hc
  · exact hI.links.fresh t c hi q hq.1 (hq.inside hI)

theorem Sys.new_unique (hI : s.view.Inv T) {t u : Thread} {c : ContId} (ht : (s.th t).pc.newCont = some c)
    (hu : (s.th u).pc.newCont = some c) : u = t := by
  rcases Pc.newCont_cases ht with hm | hi
  · have hc := (hI.conts.hand t .made c).1 hm
    rcases Sys.new_cont hI hu with hc' | hc' <;> rw [hc] at hc' <;> cases hc'
    rfl
  · have hc := hI.links.into t c true hi
    rcases Pc.newCont_cases hu with hm' | hi'
    · have hc' := (hI.conts.hand u .made c).1 hm'
      rw [hc] at hc'
      cases hc'
    · exact hI.links.alone t u c true hi hi'

/-! ### Sections that concern the root directories -/

namespace Sys

/-- A container without processes, that no `cfork` is making, changes. -/
theorem Rooted.cont {c : ContId} (h : s.Rooted) (hc : c ≠ contRoot) (hp : s'.proc = s.proc) (hd : ∀ d, d ≠ c → s.SameRoot s' d)
    (hno : ∀ q, ¬ s.Present q c) (h1 : ∀ t, (s'.th t).pc.counted = (s.th t).pc.counted)
    (h2 : ∀ t, (s'.th t).pc.puts = (s.th t).pc.puts) (hold : ∀ t, (s.th t).pc.newCont ≠ some c)
    (h3 : ∀ t d, d ≠ c → ((s'.th t).pc.newCont = some d ↔ (s.th t).pc.newCont = some d))
    (hnew : ∀ t, (s'.th t).pc.newCont = some c →
      c ≠ contRoot ∧ (s'.cont c).used = true ∧ (s'.hist c).done = false ∧ (s'.hist c).puts = [] ∧ s'.Holds c)
    (hdone : (s'.hist c).done = true → (s'.cont c).used = false ∧ s'.Returned c) : s'.Rooted := by
  have hpres : ∀ q d, s'.Present q d ↔ s.Present q d := fun q d => by rw [Present, Present, hp]
  have hopen : ∀ d, s'.Open d ↔ s.Open d := fun d => by simp only [Open, hpres, h1, h2]
  refine ⟨?_, ?_, ?_, ?_, ?_, ?_, ?_, ?_, by rw [(hd _ hc.symm).hist]; exact h.root⟩
  · intro t d ht
    by_cases hdc : d = c
    · subst hdc
      exact hnew t ht
    · rw [(hd d hdc).used, (hd d hdc).hist, (hd d hdc).holds]
      exact h.new t d ((h3 t d hdc).1 ht)
  · intro d hdn hu
    by_cases hdc : d = c
    · subst hdc
      rw [(hdone hdn).1] at hu
      cases hu
    · rw [(hd d hdc).hist] at hdn
      rw [(hd d hdc).used] at hu
      rw [(hd d hdc).holds]
      exact h.holds d hdn hu
  · intro d hdn hu
    by_cases hdc : d = c
    · subst hdc
      exact (hdone hdn).2
    · rw [(hd d hdc).hist] at hdn
      rw [(hd d hdc).used] at hu
      rw [(hd d hdc).returned]
      exact h.returned d hdn hu
  · intro d hdn hu ho
    by_cases hdc : d = c
    · subst hdc
      exact (hdone hdn).2
    · rw [(hd d hdc).hist] at hdn
      rw [(hd d hdc).used] at hu
      rw [hopen] at ho
      rw [(hd d hdc).returned]
      exact h.shut d hdn hu ho
  · intro d ho
    rw [hopen] at ho
    have hdc : d ≠ c := by
      rintro rfl
      obtain ⟨q, hq, -⟩ := ho
      exact hno q hq
    rw [(hd d hdc).hist]
    exact h.opened d ho
  · intro p d
    simp only [h2, hpres]
    exact h.alone p d
  · intro q d hq hroot
    rw [hpres] at hq
    have hdc : d ≠ c := by
      rintro rfl
      exact hno q hq
    rw [(hd d hdc).hist]
    rcases h.known q d hq hroot with hk | ⟨t, ht⟩
    · exact .inl hk
    · exact .inr ⟨t, (h3 t d hdc).2 ht⟩
  · intro q hq
    rw [hp] at hq
    rw [h1]
    exact h.zombie q hq

/-- A `cfork` ends or a process goes, and every container that was open and complete stays so. -/
theorem Rooted.shrink (h : s.Rooted) (hd : ∀ d, s.SameRoot s' d) (h1 : ∀ t, (s'.th t).pc.counted = (s.th t).pc.counted)
    (h2 : ∀ t, (s'.th t).pc.puts = (s.th t).pc.puts)
    (h3 : ∀ t d, (s'.th t).pc.newCont = some d → (s.th t).pc.newCont = some d)
    (hpres : ∀ q d, s'.Present q d → s.Present q d)
    (hk : ∀ q d t, s'.Present q d → (s.th t).pc.newCont = some d → (s'.th t).pc.newCont = some d)
    (hopen : ∀ d, (s.hist d).done = true → s.Open d → s'.Open d)
    (hz : ∀ q, (s'.proc q).state = .zombie → (s.proc q).state = .zombie) : s'.Rooted := by
  refine ⟨?_, ?_, ?_, ?_, ?_, ?_, ?_, ?_, by rw [(hd _).hist]; exact h.root⟩
  · intro t d ht
    rw [(hd d).used, (hd d).hist, (hd d).holds]
    exact h.new t d (h3 t d ht)
  · intro d
    rw [(hd d).used, (hd d).hist, (hd d).holds]
    exact h.holds d
  · intro d
    rw [(hd d).used, (hd d).hist, (hd d).returned]
    exact h.returned d
  · intro d
    rw [(hd d).used, (hd d).hist, (hd d).returned]
    exact fun hdn hu ho => h.shut d hdn hu fun ho' => ho (hopen d hdn ho')
  · intro d ho
    rw [(hd d).hist]
    obtain ⟨q, hq, ho⟩ := ho
    rw [h1, h2] at ho
    exact h.opened d ⟨q, hpres q d hq, ho⟩
  · intro p d hp hpp q hq
    rw [h2] at hp
    exact h.alone p d hp (hpres p d hpp) q (hpres q d hq)
  · intro q d hq hroot
    rw [(hd d).hist]
    rcases h.known q d (hpres q d hq) hroot with hdn | ⟨t, ht⟩
    · exact .inl hdn
    · exact .inr ⟨t, hk q d t hq ht⟩
  · intro q hq
    rw [h1]
    exact h.zombie q (hz q hq)

/-- `cfork` returns: its process is there and has not run. -/
theorem Rooted.forkPush {t : Thread} {c : ContId} {np : Slot} {fr : Bool} (h : s.Rooted) (hI : s.view.Inv T) (hb : s.Born)
    (ha : s.At t (.ready c fr np)) (hp : s'.proc = s.proc) (hu : ∀ d, (s'.cont d).used = (s.cont d).used)
    (hr : ∀ d, (s'.cont d).rootdir = (s.cont d).rootdir)
    (hh : s'.hist = update s.hist c { s.hist c with done := fr || (s.hist c).done })
    (h1 : ∀ t, (s'.th t).pc.counted = (s.th t).pc.counted) (h2 : ∀ t, (s'.th t).pc.puts = (s.th t).pc.puts)
    (ht : (s'.th t).pc.newCont = none) (h3 : ∀ u, u ≠ t → (s'.th u).pc.newCont = (s.th u).pc.newCont) : s'.Rooted := by
  have hpres : ∀ q d, s'.Present q d ↔ s.Present q d := fun q d => by rw [Present, Present, hp]
  have hopen : ∀ d, s'.Open d ↔ s.Open d := fun d => by simp only [Open, hpres, h1, h2]
  have hroot : ∀ d, (s'.hist d).root = (s.hist d).root ∧ (s'.hist d).puts = (s.hist d).puts := by
    intro d
    rw [hh]
    by_cases hd : d = c
    · rw [hd, Function.update_self]
      exact ⟨rfl, rfl⟩
    · rw [Function.update_of_ne hd]
      exact ⟨rfl, rfl⟩
  have hdone : ∀ d, (s'.hist d).done = true → (s.hist d).done = true ∨ d = c ∧ (s.th t).pc.newCont = some c := by
    intro d hd
    rw [hh] at hd
    by_cases hdc : d = c
    · rw [hdc, Function.update_self] at hd
      cases fr with
      | false => exact .inl (hdc ▸ hd)
      | true => exact .inr ⟨hdc, by rw [ha.pc]; rfl⟩
    · rw [Function.update_of_ne hdc] at hd
      exact .inl hd
  have hkeep : ∀ d, (s.hist d).done = true → (s'.hist d).done = true := by
    intro d hd
    rw [hh]
    by_cases hdc : d = c
    · subst hdc
      simp [hd]
    · rwa [Function.update_of_ne hdc]
  have hholds : ∀ d, s'.Holds d ↔ s.Holds d := fun d => by rw [Holds, Holds, (hroot d).1, hr]
  have hret : ∀ d, s'.Returned d ↔ s.Returned d := fun d => by rw [Returned, Returned, (hroot d).1, (hroot d).2]
  have hnp : s.Open c := by
    have htar : (s.th t).pc.role.target = some np := by rw [ha.pc]; rfl
    have hst : (s.proc np).state = .runnable := by
      refine (hI.elem.state np).trans ?_
      rw [hI.place_of_hand ha.view (k := .start) rfl]
      rfl
    refine ⟨np, ⟨?_, by simp [hst]⟩, .inl (by rw [(hb t np htar).1]; rfl)⟩
    exact hI.links.target t c fr np (by rw [ha.view.role]; rfl) htar
  have hother : ∀ u d, (s'.th u).pc.newCont = some d → u ≠ t ∧ (s.th u).pc.newCont = some d := by
    intro u d hu
    have hut : u ≠ t := by
      rintro rfl
      rw [ht] at hu
      cases hu
    exact ⟨hut, by rwa [h3 u hut] at hu⟩
  refine ⟨?_, ?_, ?_, ?_, ?_, ?_, ?_, ?_, by rw [(hroot _).2]; exact h.root⟩
  · intro u d hu'
    obtain ⟨hut, hun⟩ := hother u d hu'
    obtain ⟨n1, n2, n3, n4, n5⟩ := h.new u d hun
    refine ⟨n1, by rwa [hu], ?_, by rwa [(hroot d).2], by rwa [hholds]⟩
    by_contra hdn
    rcases hdone d (by simpa using hdn) with hd | ⟨rfl, hd⟩
    · rw [n3] at hd
      cases hd
    · exact hut (new_unique hI hd hun)
  · intro d hd hud
    rw [hholds]
    rcases hdone d hd with hd | ⟨rfl, hd⟩
    · exact h.holds d hd (by rwa [hu] at hud)
    · exact (h.new t d hd).2.2.2.2
  · intro d hd hud
    rw [hu] at hud
    rw [hret]
    rcases hdone d hd with hd | ⟨rfl, hd⟩
    · exact h.returned d hd hud
    · rw [(h.new t d hd).2.1] at hud
      cases hud
  · intro d hd hud ho
    rw [hopen] at ho
    rw [hret]
    rcases hdone d hd with hd | ⟨rfl, -⟩
    · exact h.shut d hd (by rwa [hu] at hud) ho
    · exact absurd hnp ho
  · intro d ho
    rw [(hroot d).2]
    exact h.opened d ((hopen d).1 ho)
  · intro p d
    simp only [h2, hpres]
    exact h.alone p d
  · intro q d hq hd
    rw [hpres] at hq
    rcases h.known q d hq hd with hk | ⟨u, hun⟩
    · exact .inl (hkeep d hk)
    · by_cases hut : u = t
      · subst hut
        left
        rw [ha.pc] at hun
        cases fr with
        | false => cases hun
        | true =>
          cases hun
          rw [hh, Function.update_self]
          rfl
      · exact .inr ⟨u, by rwa [h3 u hut]⟩
  · intro q hq
    rw [hp] at hq
    rw [h1]
    exact h.zombie q hq

/-- In `cont_root` there is always another process besides the one that exits. -/
theorem Rooted.no_root_puts (h : s.Rooted) (hI : s.view.Inv T) {p : Slot} (hp : (s.th (some p)).pc.puts = true) :
    ¬ s.Present p contRoot := by
  intro hpres
  have hr : (s.view.th (some p)).role = .exiting := by
    change (s.th (some p)).pc.role = .exiting
    cases hpc : (s.th (some p)).pc <;> rw [hpc] at hp <;> first | rfl | cases hp
  cases hi : s.initproc with
  | some i =>
    obtain ⟨-, hc, hal, -⟩ := hI.init.init i hi
    have hst : (s.proc i).state ≠ .unused := by
      intro hst
      have hv := (Place.unused_iff _).1 ((hI.elem.state i).symm.trans hst)
      rw [Place.not_alive hv] at hal
      cases hal
    have := h.alone p contRoot hp hpres i ⟨hc, hst⟩
    rw [this] at hi
    exact hI.init.exiting p hr hi
  | none =>
    rcases hI.init.before hi p with hv | hv
    · exact hpres.2 ((hI.elem.state p).trans ((Place.unused_iff _).2 hv))
    · rw [(hI.harts.clean p (by rw [hv]; rfl)).role] at hr
      cases hr

/-- A `fork` has a parent in its container, or makes the first process of the container or of the system. -/
theorem forker (hI : s.view.Inv T) {t : Thread} {c : ContId} {fr : Bool} {pc : Pc L} (ha : s.At t pc)
    (hin : pc.role.into = some (c, fr)) :
    (s.th t).pc.newCont = some c ∨ c = contRoot ∧ t = none ∨ ∃ p, t = some p ∧ s.Present p c := by
  have hin' : (s.view.th t).role.into = some (c, fr) := by rw [ha.view.role]; exact hin
  cases fr with
  | true => exact .inl (Pc.newCont_of_into hin')
  | false =>
    rcases hI.links.own t c hin' with rfl | ⟨p, rfl, hpc, -⟩
    · exact .inr (.inl ⟨(hI.init.boot c false hin').1, rfl⟩)
    · refine .inr (.inr ⟨p, rfl, hpc, ?_⟩)
      simp [ha.running hI]

theorem Rooted.allocprocInit {t : Thread} {c : ContId} {fr : Bool} {np : Slot} {x : Proc L} (h : s.Rooted)
    (hI : s.view.Inv T) (ha : s.At t (.locked c fr np)) (hp : s'.proc = update s.proc np x)
    (hx : x.contp = some c ∧ x.state = .used) (hd : ∀ d, s.SameRoot s' d) (hnp : (s'.th (some np)).pc = .run)
    (htag : ∀ u, u ≠ some np → (s'.th u).pc.counted = (s.th u).pc.counted ∧ (s'.th u).pc.puts = (s.th u).pc.puts ∧
      (s'.th u).pc.newCont = (s.th u).pc.newCont) : s'.Rooted := by
  have hna : (T.place np).alive = false := by rw [(hI.locked_out ha.view).1]; rfl
  have hst : (s.proc np).state = .unused := by
    refine (hI.elem.state np).trans ?_
    rw [(hI.locked_out ha.view).1]
    rfl
  have hne : t ≠ some np := by
    rintro rfl
    have hr := ha.view.role
    rw [(hI.harts.clean np hna).role] at hr
    cases hr
  have hnew : Present s' np c := by rw [Present, hp, Function.update_self, hx.1, hx.2]; exact ⟨rfl, nofun⟩
  have hold : ∀ q d, s'.Present q d → q = np ∧ d = c ∨ q ≠ np ∧ s.Present q d := by
    intro q d hq
    by_cases hqn : q = np
    · subst hqn
      have := hq.1
      rw [hnew.1] at this
      exact .inl ⟨rfl, (Option.some.inj this).symm⟩
    · rw [Present, hp, Function.update_of_ne hqn] at hq
      exact .inr ⟨hqn, hq⟩
  have hkeep : ∀ q d, s.Present q d → q ≠ np ∧ s'.Present q d := by
    intro q d hq
    have hqn : q ≠ np := by
      rintro rfl
      exact hq.2 hst
    rw [Present, hp, Function.update_of_ne hqn]
    exact ⟨hqn, hq⟩
  have hnone : (s.th (some np)).pc.newCont = none := by
    have hr : (s.th (some np)).pc.role = .idle := (hI.harts.clean np hna).role
    cases hpc : (s.th (some np)).pc <;> rw [hpc] at hr <;> first | rfl | cases hr
  have h3 : ∀ u, (s'.th u).pc.newCont = (s.th u).pc.newCont := by
    intro u
    by_cases hu : u = some np
    · rw [hu, hnp, hnone]
      rfl
    · exact (htag u hu).2.2
  have hslot : ∀ {q : Slot}, q ≠ np → (some q : Thread) ≠ some np := fun hq => by simpa using hq
  have hinto : (Pc.locked c fr np : Pc L).role.into = some (c, fr) := rfl
  have hopen : ∀ d, s.Open d → s'.Open d := by
    rintro d ⟨q, hq, ho⟩
    obtain ⟨hqn, hq'⟩ := hkeep q d hq
    refine ⟨q, hq', ?_⟩
    rw [(htag _ (hslot hqn)).1, (htag _ (hslot hqn)).2.1]
    exact ho
  refine ⟨?_, ?_, ?_, ?_, ?_, ?_, ?_, ?_, by rw [(hd _).hist]; exact h.root⟩
  · intro u d hu
    rw [h3] at hu
    rw [(hd d).used, (hd d).hist, (hd d).holds]
    exact h.new u d hu
  · intro d
    rw [(hd d).used, (hd d).hist, (hd d).holds]
    exact h.holds d
  · intro d
    rw [(hd d).used, (hd d).hist, (hd d).returned]
    exact h.returned d
  · intro d
    rw [(hd d).used, (hd d).hist, (hd d).returned]
    exact fun hdn hu ho => h.shut d hdn hu fun ho' => ho (hopen d ho')
  · rintro d ⟨q, hq, ho⟩
    rw [(hd d).hist]
    rcases hold q d hq with ⟨-, rfl⟩ | ⟨hqn, hq⟩
    · rcases forker hI ha hinto with hn | ⟨rfl, -⟩ | ⟨p, rfl, hpp⟩
      · exact (h.new t d hn).2.2.2.1
      · exact h.root
      · exact h.opened d ⟨p, hpp, .inl (by rw [ha.pc]; rfl)⟩
    · rw [(htag _ (hslot hqn)).1, (htag _ (hslot hqn)).2.1] at ho
      exact h.opened d ⟨q, hq, ho⟩
  · intro p d hpp hpd q hq
    rcases hold p d hpd with ⟨rfl, -⟩ | ⟨hpn, hpd⟩
    · rw [hnp] at hpp
      cases hpp
    · rw [(htag _ (hslot hpn)).2.1] at hpp
      rcases hold q d hq with ⟨-, rfl⟩ | ⟨-, hq⟩
      · -- no process of the container of a `fork` is about to give the reference back
        exfalso
        rcases forker hI ha hinto with hn | ⟨rfl, -⟩ | ⟨p', rfl, hp'⟩
        · have := new_present hI hn hpd
          rw [ha.pc] at this
          cases this
        · exact h.no_root_puts hI hpp hpd
        · have := h.alone p d hpp hpd p' hp'
          rw [← this, ha.pc] at hpp
          cases hpp
      · exact h.alone p d hpp hpd q hq
  · intro q d hq hroot
    rw [(hd d).hist]
    simp only [h3]
    rcases hold q d hq with ⟨-, rfl⟩ | ⟨-, hq⟩
    · rcases forker hI ha hinto with hn | ⟨rfl, -⟩ | ⟨p, rfl, hpp⟩
      · exact .inr ⟨t, hn⟩
      · exact absurd rfl hroot
      · exact h.known p d hpp hroot
    · exact h.known q d hq hroot
  · intro q hq
    by_cases hqn : q = np
    · subst hqn
      rw [hp, Function.update_self, hx.2] at hq
      cases hq
    · rw [hp, Function.update_of_ne hqn] at hq
      rw [(htag _ (hslot hqn)).1]
      exact h.zombie q hq

/-- When a process is alone on the `proc_list`, no other process is about to enter it. -/
theorem alone_of_count (hI : s.view.Inv T) {p : Slot} {c : ContId} {status : Int} (ha : s.At (some p) (.exitCount status))
    (hc : (s.proc p).contp = some c) (hlen : (s.cont c).procList.length = 1) {q : Slot} (hq : s.Present q c) : q = p := by
  have hrun := ha.running hI
  have hpp : s.Present p c := ⟨hc, by simp [hrun]⟩
  have hpm : T.att p = .member := by
    have hpl : T.place p = .running := View.place_of_state hI (.inr (.inr rfl)) hrun
    exact hI.member (by rw [hpl]; rfl) fun u _ => by simp [hpl]
  have honly : ∀ a, T.att a = .member → (s.proc a).contp = some c → a = p := by
    intro a ham hac
    obtain ⟨b, hb⟩ := List.length_eq_one_iff.1 hlen
    have h1 : a ∈ (s.cont c).procList := ((hI.memb.proc c).2 a).2 (Prod.ext ham hac)
    have h2 : p ∈ (s.cont c).procList := ((hI.memb.proc c).2 p).2 (Prod.ext hpm hc)
    rw [hb, List.mem_singleton] at h1 h2
    rw [h1, h2]
  have hr : (s.view.th (some p)).role = .exiting := ha.view.role
  have hin := hq.inside hI
  cases hatt : T.att q with
  | out =>
    rw [hatt] at hin
    cases hin
  | member => exact honly q hatt hq.1
  | hand k u =>
    cases k with
    | leaving =>
      rw [hatt] at hin
      cases hin
    | entering =>
      have he : (s.view.th u).role.attHand .entering = some q := (hI.memb.hand u .entering q).2 hatt
      obtain ⟨d, fr, hm⟩ := Role.eq_made he
      have hinto : (s.view.th u).role.into = some (d, fr) := by rw [hm]; rfl
      have htar : (s.view.th u).role.target = some q := by rw [hm]; rfl
      have hd := hI.links.target u d fr q hinto htar
      have hd' : (s.proc q).contp = some d := hd
      rw [hq.1] at hd'
      cases hd'
      cases fr with
      | true =>
        have := hI.links.fresh u c hinto p hc (hpp.inside hI)
        rw [htar] at this
        exact Option.some.inj this
      | false =>
        exfalso
        rcases hI.links.own u c hinto with rfl | ⟨a, rfl, hac, ham⟩
        · obtain ⟨rfl, -⟩ := hI.init.boot c false hinto
          cases hi : s.initproc with
          | none => exact hI.started ha.view hi
          | some i =>
            obtain ⟨h1, h2, -⟩ := hI.init.init i hi
            rw [honly i h1 h2] at hi
            exact hI.init.exiting p hr hi
        · rw [honly a ham hac, hr] at hm
          cases hm

theorem Rooted.exitCount {p : Slot} {c : ContId} {status : Int} (h : s.Rooted) (hI : s.view.Inv T)
    (ha : s.At (some p) (.exitCount status)) (hc : (s.proc p).contp = some c)
    (hsafe : (s.cont c).procList.length ≠ 1 → ∃ q ∈ (s.cont c).procList, q ≠ p ∧ (s.proc q).state ≠ .unused ∧
      (s.th (some q)).pc.counted = false)
    (hp : s'.proc = s.proc) (hd : ∀ d, s.SameRoot s' d)
    (hcount : (s'.th (some p)).pc.counted = true)
    (hputs : (s'.th (some p)).pc.puts = true ↔ (s.cont c).procList.length = 1)
    (h3 : ∀ u, (s'.th u).pc.newCont = (s.th u).pc.newCont)
    (htag : ∀ u, u ≠ some p → (s'.th u).pc.counted = (s.th u).pc.counted ∧ (s'.th u).pc.puts = (s.th u).pc.puts) :
    s'.Rooted := by
  have hpres : ∀ q d, s'.Present q d ↔ s.Present q d := fun q d => by rw [Present, Present, hp]
  have hslot : ∀ {q : Slot}, q ≠ p → (some q : Thread) ≠ some p := fun hq => by simpa using hq
  have hpp : s.Present p c := ⟨hc, by simp [ha.running hI]⟩
  have hpo : s.Open c := ⟨p, hpp, .inl (by rw [ha.pc]; rfl)⟩
  have hdc : ∀ d, s.Present p d → d = c := by
    intro d hd
    have := hd.1
    rw [hc] at this
    exact (Option.some.inj this).symm
  -- the container stays open: the process is about to give the reference back, or somebody else has still to count
  have hstay : s'.Open c := by
    by_cases hlen : (s.cont c).procList.length = 1
    · exact ⟨p, (hpres p c).2 hpp, .inr (hputs.2 hlen)⟩
    · obtain ⟨q, hq, hqp, hst, hqc⟩ := hsafe hlen
      have hq' : (T.att q, (s.proc q).contp) = (.member, some c) := ((hI.memb.proc c).2 q).1 hq
      refine ⟨q, (hpres q c).2 ⟨(Prod.mk.inj hq').2, hst⟩, .inl ?_⟩
      rw [(htag _ (hslot hqp)).1]
      exact hqc
  have hopen : ∀ d, s.Open d → s'.Open d := by
    rintro d ⟨q, hq, ho⟩
    by_cases hqp : q = p
    · rw [hdc d (hqp ▸ hq)]
      exact hstay
    · refine ⟨q, (hpres q d).2 hq, ?_⟩
      rw [(htag _ (hslot hqp)).1, (htag _ (hslot hqp)).2]
      exact ho
  refine ⟨?_, ?_, ?_, ?_, ?_, ?_, ?_, ?_, by rw [(hd _).hist]; exact h.root⟩
  · intro u d hu
    rw [h3] at hu
    rw [(hd d).used, (hd d).hist, (hd d).holds]
    exact h.new u d hu
  · intro d
    rw [(hd d).used, (hd d).hist, (hd d).holds]
    exact h.holds d
  · intro d
    rw [(hd d).used, (hd d).hist, (hd d).returned]
    exact h.returned d
  · intro d
    rw [(hd d).used, (hd d).hist, (hd d).returned]
    exact fun hdn hu ho => h.shut d hdn hu fun ho' => ho (hopen d ho')
  · rintro d ⟨q, hq, ho⟩
    rw [(hd d).hist]
    rw [hpres] at hq
    by_cases hqp : q = p
    · rw [hdc d (hqp ▸ hq)]
      exact h.opened c hpo
    · rw [(htag _ (hslot hqp)).1, (htag _ (hslot hqp)).2] at ho
      exact h.opened d ⟨q, hq, ho⟩
  · intro p' d hp' hpd q hq
    rw [hpres] at hpd hq
    by_cases hpp' : p' = p
    · subst hpp'
      rw [hdc d hpd] at hq
      exact alone_of_count hI ha hc (hputs.1 hp') hq
    · rw [(htag _ (hslot hpp')).2] at hp'
      exact h.alone p' d hp' hpd q hq
  · intro q d
    simp only [hpres, (hd d).hist, h3]
    exact h.known q d
  · intro q hq
    rw [hp] at hq
    by_cases hqp : q = p
    · rw [hqp]
      exact hcount
    · rw [(htag _ (hslot hqp)).1]
      exact h.zombie q hq

theorem Rooted.exitIput {p : Slot} {c : ContId} {status : Int} {i : Inum} (h : s.Rooted) (hI : s.view.Inv T) (hb : s.Born)
    (ha : s.At (some p) (.exitIput status)) (hc : (s.proc p).contp = some c) (hi : (s.cont c).rootdir = some i)
    (hp : s'.proc = s.proc) (hcont : s'.cont = s.cont)
    (hh : s'.hist = update s.hist c { s.hist c with puts := (s.hist c).puts ++ [i] })
    (h1 : ∀ u, (s'.th u).pc.counted = (s.th u).pc.counted) (hputs : (s'.th (some p)).pc.puts = false)
    (h2 : ∀ u, u ≠ some p → (s'.th u).pc.puts = (s.th u).pc.puts)
    (h3 : ∀ u, (s'.th u).pc.newCont = (s.th u).pc.newCont) : s'.Rooted := by
  have hpres : ∀ q d, s'.Present q d ↔ s.Present q d := fun q d => by rw [Present, Present, hp]
  have hslot : ∀ {q : Slot}, q ≠ p → (some q : Thread) ≠ some p := fun hq => by simpa using hq
  have hpp : s.Present p c := ⟨hc, by simp [ha.running hI]⟩
  have hput : (s.th (some p)).pc.puts = true := by rw [ha.pc]; rfl
  have hcr : c ≠ contRoot := by
    rintro rfl
    exact h.no_root_puts hI hput hpp
  have hnn : ∀ t, (s.th t).pc.newCont ≠ some c := by
    intro t ht
    obtain ⟨m, hm⟩ := (hb t p (new_present hI ht hpp)).2
    rw [(ha.run p rfl).2.1] at hm
    cases hm
  have hdone : (s.hist c).done = true := (h.known p c hpp hcr).resolve_right fun ⟨t, ht⟩ => hnn t ht
  have hret : s'.Returned c := by
    obtain ⟨j, hj, hj'⟩ := h.holds c hdone (hpp.used hI)
    rw [hi] at hj'
    cases hj'
    refine ⟨i, ?_, ?_⟩ <;> rw [hh, Function.update_self]
    · exact hj
    · simp [h.opened c ⟨p, hpp, .inr hput⟩]
  have hsame : ∀ d, d ≠ c → s.SameRoot s' d := by
    intro d hdc
    exact ⟨by rw [hh, Function.update_of_ne hdc], by rw [hcont], by rw [hcont]⟩
  have hdc : ∀ d, s.Present p d → d = c := by
    intro d hd
    have := hd.1
    rw [hc] at this
    exact (Option.some.inj this).symm
  have hopen : ∀ d, d ≠ c → (s'.Open d ↔ s.Open d) := by
    intro d hd
    have : ∀ q, s.Present q d → (s'.th (some q)).pc.puts = (s.th (some q)).pc.puts := by
      intro q hq
      refine h2 _ (hslot ?_)
      rintro rfl
      exact hd (hdc d hq)
    constructor
    · rintro ⟨q, hq, ho⟩
      rw [hpres] at hq
      rw [h1, this q hq] at ho
      exact ⟨q, hq, ho⟩
    · rintro ⟨q, hq, ho⟩
      refine ⟨q, (hpres q d).2 hq, ?_⟩
      rw [h1, this q hq]
      exact ho
  refine ⟨?_, ?_, ?_, ?_, ?_, ?_, ?_, ?_, by rw [(hsame _ hcr.symm).hist]; exact h.root⟩
  · intro u d hu
    rw [h3] at hu
    have hd : d ≠ c := by
      rintro rfl
      exact hnn u hu
    rw [(hsame d hd).used, (hsame d hd).hist, (hsame d hd).holds]
    exact h.new u d hu
  · intro d hdn hu
    by_cases hd : d = c
    · subst hd
      rw [Holds, hcont, hh, Function.update_self]
      exact h.holds d hdone (hpp.used hI)
    · rw [(hsame d hd).hist] at hdn
      rw [(hsame d hd).used] at hu
      rw [(hsame d hd).holds]
      exact h.holds d hdn hu
  · intro d hdn hu
    by_cases hd : d = c
    · rw [hd]
      exact hret
    · rw [(hsame d hd).hist] at hdn
      rw [(hsame d hd).used] at hu
      rw [(hsame d hd).returned]
      exact h.returned d hdn hu
  · intro d hdn hu ho
    by_cases hd : d = c
    · rw [hd]
      exact hret
    · rw [(hsame d hd).hist] at hdn
      rw [(hsame d hd).used] at hu
      rw [hopen d hd] at ho
      rw [(hsame d hd).returned]
      exact h.shut d hdn hu ho
  · intro d ho
    by_cases hd : d = c
    · subst hd
      exfalso
      obtain ⟨q, hq, ho⟩ := ho
      rw [hpres] at hq
      rw [h.alone p d hput hpp q hq, h1, ha.pc, hputs] at ho
      rcases ho with ho | ho <;> cases ho
    · rw [hopen d hd] at ho
      rw [(hsame d hd).hist]
      exact h.opened d ho
  · intro p' d hp' hpd q hq
    rw [hpres] at hpd hq
    have hpp' : p' ≠ p := by
      rintro rfl
      rw [hputs] at hp'
      cases hp'
    rw [h2 _ (hslot hpp')] at hp'
    exact h.alone p' d hp' hpd q hq
  · intro q d hq hroot
    rw [hpres] at hq
    simp only [h3]
    by_cases hd : d = c
    · left
      rw [hd, hh, Function.update_self]
      exact hdone
    · rw [(hsame d hd).hist]
      exact h.known q d hq hroot
  · intro q hq
    rw [hp] at hq
    rw [h1]
    exact h.zombie q hq

end Sys

end

end Xv6
