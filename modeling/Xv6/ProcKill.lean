import Xv6.ProcMembers
import Xv6.ProcReap
import Xv6.ProcSleep

/-!
# Whom `kill` reaches

`kill` takes the first slot of the table with the pid it is given, in whatever container.  The history `Kin` records which
process a `fork` or `cfork` has returned to whom, so that one can say that `kill` with the value of a `fork` reaches the child
and nobody else (`kill_isolated`).
-/

namespace Xv6

open Function (update)
open Sys

variable {L : Type} [DecidableEq L]

/-- A value that `fork`, or `cfork` if `fresh`, returned: the slot of the child and the number of times it was used. -/
structure Kid where
  pid : Int
  slot : Slot
  gen : Nat
  fresh : Bool

/-- How often each slot has been used, and what was returned to its present process. -/
structure Kin where
  gen : Slot → Nat
  kids : Slot → List Kid

def Kin.start : Kin := ⟨fun _ => 0, fun _ => []⟩

def Kin.next (s : Sys L) (e : Ev L) (k : Kin) : Kin :=
  match e with
  | .next t =>
    match s.point t, t with
    | some (.locked _ _ np), _ => ⟨update k.gen np (k.gen np + 1), update k.kids np []⟩
    | some (.ready _ fr np), some p => { k with kids := update k.kids p (⟨(s.proc np).pid, np, k.gen np, fr⟩ :: k.kids p) }
    | _, _ => k
  | _ => k

/-- The runs of the kernel, with their history. -/
def kinLts (L : Type) [DecidableEq L] [Fintype L] : Lts (Sys L × Kin) (Ev L) :=
  .ofFun (· = (procinit L, Kin.start)) (Lts.histStep Sys.step Kin.next)

/-- A pid is allocated only while the counter is below 2^31, and a process that `kill` finds is in the container of the
caller, to whom no `cfork` has returned this pid. -/
def KillSafe (x : Sys L × Kin) (e : Ev L) : Prop :=
  x.1.Counts e = true ∧
    match e with
    | .next (some p) =>
      match x.1.point (some p) with
      | some (.kill pid i) => ∀ q : Slot, q.val = i → (x.1.proc q).pid = pid →
        (x.1.proc q).contp = (x.1.proc p).contp ∧ ∀ a ∈ x.2.kids p, a.pid = pid → a.fresh = false
      | _ => True
    | _ => True

variable {s s' : Sys L} {T : Table} {e : Ev L} {k k' : Kin}

/-! ### Children -/

/-- In the container of a process nobody has a positive pid that `fork` returned to it, except for the child. -/
structure KidsOk (s : Sys L) (k : Kin) : Prop where
  below : ∀ p a c, (s.proc p).state ≠ .unused → (s.proc p).contp = some c → a ∈ k.kids p → a.fresh = false → 0 < a.pid →
    a.pid < (s.cont c).nextpid
  child : ∀ p a c q, (s.proc p).state ≠ .unused → (s.proc p).contp = some c → a ∈ k.kids p → a.fresh = false → 0 < a.pid →
    (s.proc q).state ≠ .unused → (s.proc q).contp = some c → (s.proc q).pid = a.pid → q = a.slot ∧ k.gen q = a.gen

omit [DecidableEq L] in
private theorem KidsOk.keeps (h : KidsOk s k) (hk : s.KeepsPids s') : KidsOk s' k := by
  refine ⟨?_, ?_⟩
  · intro p a c
    rw [Ne, hk.unused, hk.contp, hk.nextpid]
    exact h.below p a c
  · intro p a c q
    rw [Ne, hk.unused, hk.contp, Ne, hk.unused, hk.contp, hk.pid]
    exact h.child p a c q

omit [DecidableEq L] in
private theorem KidsOk.alloc {c : ContId} {np : Slot} (h : KidsOk s k) (hc : (s.cont c).nextpid < 2 ^ 31)
    (hp : s'.proc = update s.proc np { s.proc np with pid := asInt (s.cont c).nextpid, state := .used, contp := some c })
    (hn : s'.cont = update s.cont c { s.cont c with nextpid := (s.cont c).nextpid + 1 }) :
    KidsOk s' ⟨update k.gen np (k.gen np + 1), update k.kids np []⟩ := by
  have hother : ∀ q, q ≠ np → s'.proc q = s.proc q := fun q hq => by rw [hp, Function.update_of_ne hq]
  have hnp : s'.proc np = { s.proc np with pid := (s.cont c).nextpid, state := .used, contp := some c } := by
    rw [hp, Function.update_self, asInt_eq hc]
  have hnext : ∀ d, (s.cont d).nextpid ≤ (s'.cont d).nextpid := by
    intro d
    rw [hn]
    by_cases hd : d = c
    · subst hd
      simp
    · simp [hd]
  have hkid : ∀ p a, a ∈ update k.kids np [] p → p ≠ np ∧ a ∈ k.kids p := by
    intro p a ha
    by_cases hpn : p = np
    · rw [hpn, Function.update_self] at ha
      cases ha
    · rw [Function.update_of_ne hpn] at ha
      exact ⟨hpn, ha⟩
  refine ⟨?_, ?_⟩
  · intro p a d hst hpc ha hf hpos
    obtain ⟨hpn, hak⟩ := hkid p a ha
    rw [hother p hpn] at hst hpc
    have := h.below p a d hst hpc hak hf hpos
    have := hnext d
    omega
  · intro p a d q hst hpc ha hf hpos hq hqd hpid
    obtain ⟨hpn, hak⟩ := hkid p a ha
    rw [hother p hpn] at hst hpc
    by_cases hqn : q = np
    · -- the new process has a pid that has not been returned yet
      subst hqn
      rw [hnp] at hqd hpid
      cases hqd
      have := h.below p a c hst hpc hak hf hpos
      simp only at hpid
      omega
    · rw [hother q hqn] at hq hqd hpid
      simp only [Function.update_of_ne hqn]
      exact h.child p a d q hst hpc hak hf hpos hq hqd hpid

omit [DecidableEq L] in
/-- `fork` returns to `p`. -/
private theorem KidsOk.fork {p np : Slot} {fr : Bool} (h : KidsOk s k) (hP : s.PidsOk) (hst : (s.proc np).state ≠ .unused)
    (hc : fr = false → (s.proc np).contp = (s.proc p).contp) :
    KidsOk s { k with kids := update k.kids p (⟨(s.proc np).pid, np, k.gen np, fr⟩ :: k.kids p) } := by
  have hkid : ∀ r a, a ∈ update k.kids p (⟨(s.proc np).pid, np, k.gen np, fr⟩ :: k.kids p) r →
      r = p ∧ a = ⟨(s.proc np).pid, np, k.gen np, fr⟩ ∨ a ∈ k.kids r := by
    intro r a ha
    by_cases hr : r = p
    · subst hr
      rw [Function.update_self] at ha
      rcases List.mem_cons.1 ha with ha | ha
      · exact .inl ⟨rfl, ha⟩
      · exact .inr ha
    · rw [Function.update_of_ne hr] at ha
      exact .inr ha
  refine ⟨?_, ?_⟩
  · intro r a d hr hrd ha hf hpos
    rcases hkid r a ha with ⟨rfl, rfl⟩ | ha
    · rcases hP.range np d hst ((hc hf).trans hrd) with ⟨-, hlt⟩ | ⟨hm, -⟩
      · exact hlt
      · simp only at hpos
        omega
    · exact h.below r a d hr hrd ha hf hpos
  · intro r a d q hr hrd ha hf hpos hq hqd hpid
    rcases hkid r a ha with ⟨rfl, rfl⟩ | ha
    · by_cases hqn : q = np
      · rw [hqn]
        exact ⟨rfl, rfl⟩
      · have := hP.unique q np d hqn hq hst hqd ((hc hf).trans hrd) hpid
        simp only at hpos hpid
        omega
    · exact h.child r a d q hr hrd ha hf hpos hq hqd hpid

omit [DecidableEq L] in
/-- A slot that changes only while it is, or becomes, `UNUSED`, or whose pid becomes -2. -/
private theorem KidsOk.weaken (h : KidsOk s k) (hcont : ∀ c, (∀ q, (s'.proc q).state ≠ .unused → (s'.proc q).contp ≠ some c) ∨
      (s'.cont c).nextpid = (s.cont c).nextpid)
    (hp : ∀ q, (s'.proc q).state ≠ .unused → (s.proc q).state ≠ .unused ∧ (s'.proc q).contp = (s.proc q).contp ∧
      ((s'.proc q).pid = (s.proc q).pid ∨ (s'.proc q).pid = -2)) : KidsOk s' k := by
  refine ⟨?_, ?_⟩
  · intro p a c hst hpc ha hf hpos
    obtain ⟨h1, h2, -⟩ := hp p hst
    rcases hcont c with hn | hn
    · exact absurd hpc (hn p hst)
    · rw [hn]
      exact h.below p a c h1 (h2 ▸ hpc) ha hf hpos
  · intro p a c q hst hpc ha hf hpos hq hqc hpid
    obtain ⟨h1, h2, -⟩ := hp p hst
    obtain ⟨h3, h4, h5⟩ := hp q hq
    rcases h5 with h5 | h5
    · exact h.child p a c q h1 (h2 ▸ hpc) ha hf hpos h3 (h4 ▸ hqc) (h5 ▸ hpid)
    · omega

/-- The history changes in `allocproc` and at the end of `fork`. -/
theorem Kin.next_cases (hI : s.view.Inv T) (hs : Sect s e s') (k : Kin) : Kin.next s e k = k ∨
    (∃ t c fr np, s.At t (.locked c fr np) ∧ e = .next t ∧
      Kin.next s e k = ⟨update k.gen np (k.gen np + 1), update k.kids np []⟩ ∧
      s'.proc = update s.proc np { s.proc np with pid := asInt (s.cont c).nextpid, state := .used, contp := some c } ∧
      s'.cont = update s.cont c { s.cont c with nextpid := (s.cont c).nextpid + 1 }) ∨
    ∃ p c fr np, s.At (some p) (.ready c fr np) ∧ s.KeepsPids s' ∧
      Kin.next s e k = { k with kids := update k.kids p (⟨(s.proc np).pid, np, k.gen np, fr⟩ :: k.kids p) } := by
  cases hs with
  | allocprocInit ha => exact .inr (.inl ⟨_, _, _, _, ha, rfl, by simp [Kin.next, ha.point hI], rfl, rfl⟩)
  | @forkPush t c fr np ha =>
    cases t with
    | none => exact .inl (by simp [Kin.next, ha.point hI])
    | some p =>
      exact .inr (.inr ⟨p, c, fr, np, ha, .of_proc rfl fun _ => runPush_nextpid, by simp [Kin.next, ha.point hI]⟩)
  | yieldPush hon hsw hc => exact .inl (by simp [Kin.next, Sys.point, hsw])
  | sched hon hsw hk => exact .inl (by simp [Kin.next, Sys.point, hsw])
  | wakeupMiss hw hi hm => exact .inl (by simp [Kin.next, Sys.point, hw.sw, hw.wake])
  | wakeupHit hw hne hf hst hch => exact .inl (by simp [Kin.next, Sys.point, hw.sw, hw.wake])
  | wakeupEnd hw hi => exact .inl (by simp [Kin.next, Sys.point, hw.sw, hw.wake])
  | wakeupPush hw hc => exact .inl (by simp [Kin.next, Sys.point, hw.sw, hw.wake])
  | sleep ha hf hpc =>
    obtain ⟨rfl, rfl, n, -, rfl⟩ | ⟨rfl, ⟨addr, rfl, -, rfl⟩ | ⟨l, rfl, -, rfl, -⟩⟩ := hpc
    · exact .inl rfl
    · exact .inl (by simp [Kin.next, ha.point hI])
    · exact .inl (by simp [Kin.next, ha.point hI])
  | _ => first
    | exact .inl rfl
    | (have ha := ‹s.At _ _›; exact .inl (by simp [Kin.next, ha.point hI]))

theorem KidsOk.sect (h : KidsOk s k) (hP : s.PidsOk) (hI : s.view.Inv T) (hc : s.Counts e = true) (hs : Sect s e s') :
    KidsOk s' (Kin.next s e k) := by
  rcases Kin.next_cases hI hs k with hk | ⟨t, c, fr, np, ha, rfl, hk, hp, hn⟩ | ⟨p, c, fr, np, ha, hkeep, hk⟩ <;> rw [hk]
  · cases hs.pids hI with
    | keeps hk => exact h.keeps hk
    | @alloc t c fr np _ ha _ hp hn =>
      -- `allocproc` changes the history
      have hgen := congrArg (fun k : Kin => k.gen np) hk
      simp [Kin.next, ha.point hI] at hgen
    | @orphan p status q _ ha hpar hp hn =>
      refine h.weaken (fun c => .inr (by rw [hn])) fun a hst => ?_
      rw [hp] at hst ⊢
      by_cases haq : a = q
      · subst haq
        rw [Function.update_self] at hst ⊢
        refine ⟨hst, rfl, ?_⟩
        simp only [Sys.orphan]
        split
        · exact .inr rfl
        · exact .inl rfl
      · rw [Function.update_of_ne haq] at hst ⊢
        exact ⟨hst, rfl, .inl rfl⟩
    | @reset _ q _ hq hp hn =>
      refine h.weaken (fun c => .inr (by rw [hn])) fun a hst => ?_
      rw [hp] at hst ⊢
      by_cases haq : a = q
      · rw [haq, Function.update_self] at hst
        exact absurd rfl hst
      · rw [Function.update_of_ne haq] at hst ⊢
        exact ⟨hst, rfl, .inl rfl⟩
    | @unlink _ q _ hq hp hn =>
      refine h.weaken (fun c => .inr (by rw [hn])) fun a hst => ?_
      rw [hp] at hst ⊢
      by_cases haq : a = q
      · rw [haq, Function.update_self] at hst
        exact absurd hq hst
      · rw [Function.update_of_ne haq] at hst ⊢
        exact ⟨hst, rfl, .inl rfl⟩
    | @cont _ c _ hq hp hn hd =>
      refine h.weaken (fun d => ?_) fun a hst => ?_
      · by_cases hdc : d = c
        · subst hdc
          refine .inl fun q hst hqd => ?_
          rw [hp] at hst hqd
          exact hst (hq q hqd)
        · exact .inr (hd d hdc)
      · rw [hp] at hst ⊢
        exact ⟨hst, rfl, .inl rfl⟩
  · exact h.alloc (by simpa [Sys.Counts, ha.pc] using hc) hp hn
  · have hst : (s.proc np).state = .runnable := by
      refine (hI.elem.state np).trans ?_
      rw [hI.place_of_hand ha.view (k := .start) rfl]
      rfl
    have hcp : fr = false → (s.proc np).contp = (s.proc p).contp := by
      rintro rfl
      have hin : (s.view.th (some p)).role.into = some (c, false) := by rw [ha.view.role]; rfl
      have h1 : (s.proc np).contp = some c := hI.links.target (some p) c false np hin (by rw [ha.view.role]; rfl)
      rcases hI.links.own (some p) c hin with h2 | ⟨r, h2, h3, -⟩
      · cases h2
      · cases h2
        exact h1.trans (Eq.symm h3)
    exact (h.fork hP (by simp [hst]) hcp).keeps hkeep

/-! ### `kill` -/

omit [DecidableEq L] in
private theorem killPush_setTh {t : Thread} {x : Th L} {r : Slot} (h : x.pc = .killPush r → (s.th t).pc = .killPush r)
    (u : Thread) (hu : (update s.th t x u).pc = .killPush r) : (s.th u).pc = .killPush r := by
  by_cases hut : u = t
  · subst hut
    rw [Function.update_self] at hu
    exact h hu
  · rwa [Function.update_of_ne hut] at hu

/-- `kill` pushes the process that it has found asleep. -/
theorem Sect.killPush_cases (hs : Sect s e s') {t : Thread} {r : Slot} (h : (s'.th t).pc = .killPush r) :
    (s.th t).pc = .killPush r ∨ ∃ p pid, t = some p ∧ e = .next t ∧ s.At (some p) (.kill pid r.val) ∧ (s.proc r).pid = pid ∧
      (s.proc r).state = .sleeping := by
  cases hs with
  | schedulerPop hk hl => exact .inl h
  | @killHit p pid q ha hp hf hst =>
    by_cases htp : t = some p
    · subst htp
      have h' := (congrArg Th.pc (Function.update_self (some p) _ _)).symm.trans h
      cases h'
      exact .inr ⟨p, pid, rfl, rfl, ha, hp, hst⟩
    · exact .inl ((congrArg Th.pc (Function.update_of_ne htp _ _)).symm.trans h)
  | @allocprocInit u c fr np ha =>
    refine .inl (killPush_setTh (x := forkret) (t := some np) (fun h => by cases h) t ?_)
    exact killPush_setTh (s := s.setTh (some np) forkret) (t := u) (fun h => by cases h) t h
  | exitCount ha hc =>
    refine .inl (killPush_setTh ?_ t h)
    dsimp only
    split <;> intro h <;> cases h
  | freeprocUnlist ha hc =>
    refine .inl (killPush_setTh ?_ t h)
    dsimp only
    split <;> intro h <;> cases h
  | sleep ha hf hpc =>
    refine .inl (killPush_setTh ?_ t h)
    obtain ⟨rfl, rfl, -⟩ | ⟨-, ⟨addr, rfl, -, rfl⟩ | ⟨l, rfl, -, rfl, -⟩⟩ := hpc <;> intro h <;> cases h
  | _ => first
    | exact .inl (killPush_setTh (by exact id) t h)
    | exact .inl (killPush_setTh (fun h => by cases h) t h)

omit [DecidableEq L] in
/-- The container of a process that `kill` has found, and of one that runs, stays. -/
theorem Sys.PidStep.contp (hs : s.PidStep e s') {q : Slot} (hq : (s.proc q).state ≠ .unused) :
    (s'.proc q).contp = (s.proc q).contp := by
  have hcase : ∀ {a : Slot} {x : Proc L}, s'.proc = update s.proc a x → (q = a → x.contp = (s.proc q).contp) →
      (s'.proc q).contp = (s.proc q).contp := by
    intro a x hp hx
    rw [hp]
    by_cases hqa : q = a
    · subst hqa
      rw [Function.update_self]
      exact hx rfl
    · rw [Function.update_of_ne hqa]
  cases hs with
  | keeps hk => exact hk.contp q
  | alloc ha hst hp hn => exact hcase hp fun hqa => absurd (hqa ▸ hst) hq
  | orphan ha hpar hp hn => exact hcase hp fun hqa => by rw [hqa]; rfl
  | reset hst hp hn => exact hcase hp fun hqa => by rw [hqa]
  | unlink hst hp hn => exact hcase hp fun hqa => absurd (hqa ▸ hst) hq
  | cont hc hp hn hd => rw [hp]

/-- A process that `kill` is about to push is in the container of the caller. -/
def Sys.PushesOwn (s : Sys L) : Prop :=
  ∀ p r, (s.th (some p)).pc = .killPush r → (s.proc r).contp = (s.proc p).contp

omit [DecidableEq L] in
theorem Sys.killPush_state (hI : s.view.Inv T) {p r : Slot} (h : (s.th (some p)).pc = .killPush r) :
    (s.proc r).state = .runnable ∧ (s.proc p).state ≠ .unused := by
  have hpl : T.place r = .hand .kill (some p) := (hI.elem.hand (some p) .kill r).1 (by
    change (s.th (some p)).pc.role.hand .kill = some r
    rw [h]
    rfl)
  refine ⟨?_, fun hst => ?_⟩
  · refine (hI.elem.state r).trans ?_
    rw [hpl]
    rfl
  · have hv := (Place.unused_iff _).1 ((hI.elem.state p).symm.trans hst)
    have hr : (s.th (some p)).pc.role = .idle := (hI.harts.clean p (Place.not_alive hv)).role
    rw [h] at hr
    cases hr

theorem Sys.PushesOwn.sect (h : s.PushesOwn) (hI : s.view.Inv T) (hc : KillSafe (s, k) e) (hs : Sect s e s') :
    s'.PushesOwn := by
  intro p r hp
  have hps := hs.pids hI
  rcases hs.killPush_cases hp with hold | ⟨p', pid, ht, rfl, ha, hpid, hst⟩
  · obtain ⟨hr, hpu⟩ := killPush_state hI hold
    rw [hps.contp (by simp [hr]), hps.contp hpu]
    exact h p r hold
  · cases ht
    have hsafe := hc.2
    simp only [ha.point hI] at hsafe
    rw [hps.contp (by simp [hst]), hps.contp (by simp [ha.running hI])]
    exact (hsafe r rfl hpid).1

/-- The `killed` flag, the state or the place on the run lists of process `q` changes. -/
def Sys.Touches (s s' : Sys L) (q : Slot) : Prop :=
  (s'.proc q).killed ≠ (s.proc q).killed ∨ (s'.proc q).state ≠ (s.proc q).state ∨
    ∃ c, ¬ (q ∈ (s'.cont c).runList ↔ q ∈ (s.cont c).runList)

omit [DecidableEq L] in
private theorem not_touches (hp : s'.proc = s.proc) (hc : s'.cont = s.cont) (q : Slot) : ¬ s.Touches s' q := by
  rintro (h | h | ⟨c, h⟩)
  · exact h (by rw [hp])
  · exact h (by rw [hp])
  · exact h (by rw [hc])

omit [DecidableEq L] in
private theorem touches_update {q a : Slot} {x : Proc L} (h : s.Touches s' q) (hp : s'.proc = update s.proc a x)
    (hc : s'.cont = s.cont) : q = a := by
  by_contra hqa
  rcases h with h | h | ⟨c, h⟩
  · exact h (by rw [hp, Function.update_of_ne hqa])
  · exact h (by rw [hp, Function.update_of_ne hqa])
  · exact h (by rw [hc])

/-- A round of `kill` changes the process at its slot, if it has the pid. -/
theorem Sect.kill_touches (hI : s.view.Inv T) {p q : Slot} {pid : Int} {i : Nat} (hs : Sect s (.next (some p)) s')
    (hpt : s.point (some p) = some (.kill pid i)) (ht : s.Touches s' q) : q.val = i ∧ (s.proc q).pid = pid ∧ s.PFree q := by
  cases hs with
  | killMiss ha hi hp hf => exact absurd ht (not_touches rfl rfl q)
  | killMark ha hp hf hst =>
    obtain rfl := touches_update ht rfl rfl
    rw [ha.point hI] at hpt
    cases hpt
    exact ⟨rfl, hp, hf⟩
  | @killHit _ _ a ha hp hf hst =>
    have hqa : q = a := by
      refine touches_update (x := { s.proc a with killed := true, state := .runnable }) ht ?_ rfl
      simp [Sys.goto, Sys.setTh, Sys.setState, Sys.setProc]
    subst hqa
    rw [ha.point hI] at hpt
    cases hpt
    exact ⟨rfl, hp, hf⟩
  | killNone ha hi => exact absurd ht (not_touches rfl rfl q)
  | yieldPush hon hsw hc => simp [Sys.point, hsw] at hpt
  | sched hon hsw hk => simp [Sys.point, hsw] at hpt
  | wakeupMiss hw hi hm => simp [Sys.point, hw.sw, hw.wake] at hpt
  | wakeupHit hw hne hf hst hch => simp [Sys.point, hw.sw, hw.wake] at hpt
  | wakeupEnd hw hi => simp [Sys.point, hw.sw, hw.wake] at hpt
  | wakeupPush hw hc => simp [Sys.point, hw.sw, hw.wake] at hpt
  | sleep ha hf hpc =>
    obtain ⟨-, -, n, -, h⟩ | ⟨h, ⟨addr, rfl, -, -⟩ | ⟨l, rfl, -, -, -⟩⟩ := hpc <;> cases h <;>
      rw [ha.point hI] at hpt <;> cases hpt
  | _ =>
    have ha := ‹s.At _ _›
    rw [ha.point hI] at hpt
    cases hpt

/-- The last section of `kill` changes the run list of the process it has found. -/
theorem Sect.killPush_touches (hI : s.view.Inv T) {p q r : Slot} (hs : Sect s (.next (some p)) s')
    (hpt : s.point (some p) = some (.killPush r)) (ht : s.Touches s' q) : q = r := by
  cases hs with
  | @killPush _ a c ha hc =>
    rw [ha.point hI] at hpt
    cases hpt
    by_contra hqr
    rcases ht with h | h | ⟨d, h⟩
    · exact h rfl
    · exact h rfl
    · refine h ?_
      by_cases hd : d = c
      · subst hd
        simp [Sys.ret, Sys.setTh, Sys.runPush, Sys.setCont, hqr]
      · simp [Sys.ret, Sys.setTh, Sys.runPush, Sys.setCont, hd]
  | yieldPush hon hsw hc => simp [Sys.point, hsw] at hpt
  | sched hon hsw hk => simp [Sys.point, hsw] at hpt
  | wakeupMiss hw hi hm => simp [Sys.point, hw.sw, hw.wake] at hpt
  | wakeupHit hw hne hf hst hch => simp [Sys.point, hw.sw, hw.wake] at hpt
  | wakeupEnd hw hi => simp [Sys.point, hw.sw, hw.wake] at hpt
  | wakeupPush hw hc => simp [Sys.point, hw.sw, hw.wake] at hpt
  | sleep ha hf hpc =>
    obtain ⟨-, -, n, -, h⟩ | ⟨h, ⟨addr, rfl, -, -⟩ | ⟨l, rfl, -, -, -⟩⟩ := hpc <;> cases h <;>
      rw [ha.point hI] at hpt <;> cases hpt
  | _ =>
    have ha := ‹s.At _ _›
    rw [ha.point hI] at hpt
    cases hpt

omit [DecidableEq L] in
/-- A slot with a container whose lock is free has a process. -/
theorem Sys.used_of_free (hI : s.view.Inv T) {q : Slot} (hf : s.PFree q) (hc : (s.proc q).contp ≠ none) :
    (s.proc q).state ≠ .unused := by
  intro hst
  have hv := (Place.unused_iff _).1 ((hI.elem.state q).symm.trans hst)
  have hfree : ∀ t, (s.view.th t).plock t ≠ some q := by
    intro t ht
    rw [show (s.view.th t) = (s.th t).view from rfl, Th.view_plock] at ht
    exact hf t ht
  rcases hI.memb.vacant q hv with ho | ⟨t, ho⟩ | ⟨-, t, hr⟩
  · exact hc ((hI.memb.out q).2 ho)
  · have hr := (hI.memb.hand t .leaving q).2 ho
    refine hfree t (hI.plock_of_role ?_)
    cases hrole : (s.view.th t).role <;> simp_all [Role.attHand, Role.plock]
  · exact hfree t (hI.plock_of_role (by rw [hr]; rfl))

omit [DecidableEq L] in
/-- Every process has a container. -/
theorem Sys.contp_of_used (hI : s.view.Inv T) {q : Slot} (hq : (s.proc q).state ≠ .unused) : ∃ c, (s.proc q).contp = some c := by
  refine Option.ne_none_iff_exists'.1 fun hn => ?_
  have hin := hI.memb.inside q (by
    rw [← Bool.not_eq_true]
    exact fun hv => hq ((hI.elem.state q).trans ((Place.unused_iff _).2 hv)))
  rw [(hI.memb.out q).1 hn] at hin
  cases hin

theorem Sys.At.of_point [Fintype L] {p : Slot} {pc : Pc L} (hs : s.step (.next (some p)) = some (.ok s'))
    (hp : s.point (some p) = some pc) : s.At (some p) pc := by
  have hon : s.OnCpu p := by
    simp only [step] at hs
    split at hs
    · assumption
    · cases hs
  unfold Sys.point at hp
  split at hp
  · rename_i hsw hwk
    refine ⟨Option.some.inj hp, ?_⟩
    rintro q ⟨⟩
    exact ⟨hon, hsw, hwk⟩
  · cases hp

/-! ### Runs -/

/-- What the steps of `kill` by process `p` do. -/
structure KillIsolated (s : Sys L) (k : Kin) (p : Slot) (s' : Sys L) : Prop where
  -- only a process of the caller's container with the pid changes, and for the value of a `fork` it is the child
  found : ∀ pid i q, s.point (some p) = some (.kill pid i) → s.Touches s' q → (s.proc q).state ≠ .unused ∧
    (s.proc q).contp = (s.proc p).contp ∧ (s.proc q).pid = pid ∧
    (0 < pid → ∀ a ∈ k.kids p, a.pid = pid → q = a.slot ∧ k.gen q = a.gen)
  -- the process that was found is pushed to its run list
  pushed : ∀ r q, s.point (some p) = some (.killPush r) → s.Touches s' q → q = r ∧ (s.proc q).state ≠ .unused ∧
    (s.proc q).contp = (s.proc p).contp

theorem kin_reachable [Fintype L] (h : ((kinLts L).guard KillSafe).Reachable (s, k)) :
    ∃ T, s.view.Inv T ∧ s.PidsOk ∧ KidsOk s k ∧ s.PushesOwn := by
  refine h.invariant (I := fun x => ∃ T, x.1.view.Inv T ∧ x.1.PidsOk ∧ KidsOk x.1 x.2 ∧ x.1.PushesOwn) ?_ ?_
  · rintro x rfl
    exact ⟨_, procinit_inv, procinit_pidsOk, ⟨nofun, nofun⟩, nofun⟩
  · rintro ⟨s, k⟩ e ⟨s', k'⟩ ⟨T, hT, hP, hK, hO⟩ ⟨hc, hst⟩
    obtain ⟨hstep, hk⟩ := Lts.histStep_ok hst
    cases hk
    have hsect := Sys.step_sect hstep
    obtain ⟨U, hU⟩ := hT.sect hsect
    exact ⟨U, hU, hP.step hc.1 (hsect.pids hT), hK.sect hP hT hc.1 hsect, hO.sect hT hc hsect⟩

/-- In every run of `KillSafe` steps, `kill` changes only processes of the caller's container. -/
theorem kill_isolated [Fintype L] (h : ((kinLts L).guard KillSafe).Reachable (s, k)) {p : Slot}
    (hs : ((kinLts L).guard KillSafe).step (s, k) (.next (some p)) (.ok (s', k'))) : KillIsolated s k p s' := by
  obtain ⟨T, hT, hP, hK, hO⟩ := kin_reachable h
  obtain ⟨hc, hst⟩ := hs
  obtain ⟨hstep, -⟩ := Lts.histStep_ok hst
  have hsect := Sys.step_sect hstep
  refine ⟨?_, ?_⟩
  · intro pid i q hpt ht
    obtain ⟨hi, hpid, hf⟩ := hsect.kill_touches hT hpt ht
    have hsafe := hc.2
    simp only [hpt] at hsafe
    obtain ⟨hcp, hfr⟩ := hsafe q hi hpid
    have hrun := (At.of_point hstep hpt).running hT
    obtain ⟨c, hpc⟩ := contp_of_used hT (q := p) (by simp [hrun])
    have hq := used_of_free hT hf (by rw [hcp, hpc]; nofun)
    refine ⟨hq, hcp, hpid, fun hpos a ha hap => ?_⟩
    exact hK.child p a c q (by simp [hrun]) hpc ha (hfr a ha hap) (by omega) hq (hcp.trans hpc) (by omega)
  · intro r q hpt ht
    obtain rfl := hsect.killPush_touches hT hpt ht
    have hpc : (s.th (some p)).pc = .killPush q := by
      unfold Sys.point at hpt
      split at hpt
      · exact Option.some.inj hpt
      · cases hpt
    exact ⟨rfl, by simp [(killPush_state hT hpc).1], hO p q hpc⟩

/-- A test for `KillSafe`. -/
private def killSafeTest (x : Sys Unit × Kin) (e : Ev Unit) : Bool :=
  x.1.Counts e &&
    match e with
    | .next (some p) =>
      match x.1.point (some p) with
      | some (.kill pid i) =>
        decide (∀ q : Slot, q.val = i → (x.1.proc q).pid = pid → (x.1.proc q).contp = (x.1.proc p).contp) &&
          (x.2.kids p).all fun a => a.pid != pid || !a.fresh
      | _ => true
    | _ => true

private theorem killSafe_of_test (x : Sys Unit × Kin) (e : Ev Unit) (h : killSafeTest x e = true) : KillSafe x e := by
  unfold killSafeTest at h
  rw [Bool.and_eq_true] at h
  refine ⟨h.1, ?_⟩
  have h2 := h.2
  split
  · rename_i p
    dsimp only at h2
    split
    · rename_i pid i hpt
      rw [hpt, Bool.and_eq_true] at h2
      obtain ⟨h3, h4⟩ := h2
      intro q hq hpid
      refine ⟨of_decide_eq_true h3 q hq hpid, fun a ha hap => ?_⟩
      have := List.all_eq_true.1 h4 a ha
      simpa [hap] using this
    · trivial
  · trivial

/-- The point of `kill` at a slot, as a test. -/
private def atKill (s : Sys Unit) (p : Slot) (pid : Int) : Bool :=
  match s.point (some p) with
  | some (.kill n _) => n == pid
  | _ => false

private theorem atKill_eq {s : Sys Unit} {p : Slot} {pid : Int} (h : atKill s p pid = true) :
    ∃ i, s.point (some p) = some (.kill pid i) := by
  unfold atKill at h
  split at h
  · rename_i n i hpt
    have hn : n = pid := by simpa using h
    exact ⟨i, by rw [hpt, hn]⟩
  · cases h

/-- The next step of `p` changes whether `q` is killed. -/
private def marksNext (s : Sys Unit) (p q : Slot) : Bool :=
  match s.step (.next (some p)) with
  | some (.ok s') => (s'.proc q).killed != (s.proc q).killed
  | _ => false

private theorem marksNext_eq {s : Sys Unit} {p q : Slot} (h : marksNext s p q = true) :
    ∃ s', s.step (.next (some p)) = some (.ok s') ∧ s.Touches s' q := by
  unfold marksNext at h
  split at h
  · rename_i s' hstep
    exact ⟨s', hstep, .inl (by simpa using h)⟩
  · cases h

/-- The first process makes a child and kills it. -/
def killChildRun : List (Ev Unit) := forkRun ++ [.call ⟨0, NPROC_pos⟩ (.kill 2), .next (some ⟨0, NPROC_pos⟩)]

theorem kill_isolated_killChildRun : ∃ (s s' : Sys Unit) (k : Kin) (p q : Slot), s.Touches s' q ∧ q ≠ p ∧
    (∃ a ∈ k.kids p, a.pid = (s.proc q).pid) ∧ KillIsolated s k p s' := by
  let p : Slot := ⟨0, by decide⟩
  let q : Slot := ⟨1, by decide⟩
  obtain ⟨⟨s, k⟩, hr, hs⟩ := Lts.Reachable.replay_any (C := KillSafe) (f := Lts.histStep Sys.step Kin.next)
    (c := killSafeTest) killSafe_of_test (l := killChildRun) (s := (procinit Unit, Kin.start))
    (I := (· = (procinit Unit, Kin.start))) rfl
    (P := fun x => killSafeTest x (.next (some p)) && (x.2.kids p).any (fun a => a.pid == (x.1.proc q).pid) &&
      marksNext x.1 p q) (by decide +kernel)
  simp only [Bool.and_eq_true] at hs
  obtain ⟨⟨hc, hk⟩, hst⟩ := hs
  obtain ⟨s', hstep, htouch⟩ := marksNext_eq hst
  refine ⟨s, s', k, p, q, htouch, by decide, ?_, ?_⟩
  · obtain ⟨a, ha, hap⟩ := List.any_eq_true.1 hk
    exact ⟨a, ha, by simpa using hap⟩
  · have hk' : (kinLts Unit).step (s, k) (.next (some p)) (.ok (s', Kin.next s (.next (some p)) k)) := by
      simp only [kinLts, Lts.ofFun, Lts.histStep, hstep]
      rfl
    exact kill_isolated hr ⟨killSafe_of_test _ _ hc, hk'⟩

/-- A process of another container calls `kill(1)`. -/
def killOtherRun : List (Ev Unit) :=
  cforkRun ++ [.pop ⟨1, one_lt_NCPU⟩ ⟨1, one_lt_NCONT⟩, .switch ⟨1, one_lt_NCPU⟩, .call ⟨1, one_lt_NPROC⟩ (.kill 1)]

/-- It marks the first process, which is not in its container. -/
theorem kill_other_container : ∃ (s s' : Sys Unit) (p q : Slot) (i : Nat), (procLts Unit).Reachable s ∧
    s.step (.next (some p)) = some (.ok s') ∧ s.point (some p) = some (.kill 1 i) ∧ s.Touches s' q ∧
    (s.proc q).contp ≠ (s.proc p).contp := by
  let p : Slot := ⟨1, by decide⟩
  let q : Slot := ⟨0, by decide⟩
  obtain ⟨s, hr, hs⟩ := Sys.reaches (C := fun _ _ => True) (fun _ _ => true) (fun _ _ _ => trivial) killOtherRun
    (fun s : Sys Unit => atKill s p 1 && decide ((s.proc q).contp ≠ (s.proc p).contp) &&
      marksNext s p q) (by decide +kernel)
  simp only [Bool.and_eq_true] at hs
  obtain ⟨⟨hp, hc⟩, hst⟩ := hs
  obtain ⟨i, hpt⟩ := atKill_eq hp
  obtain ⟨s', hstep, htouch⟩ := marksNext_eq hst
  exact ⟨s, s', p, q, i, hr.of_guard, hstep, hpt, htouch, of_decide_eq_true hc⟩

end Xv6
