import Xv6.ProcMembers
import Xv6.ProcRootdir

/-!
# The root directory is given back once
-/

namespace Xv6

open Function (update)
open Sys

variable {L : Type} [DecidableEq L] {s s' : Sys L} {T : Table} {e : Ev L}

/-- No `cfork` has a name that begins with "root", and a process that counts in `exit` when all the other processes on the
`proc_list` are past their count is alone on it. -/
def Sys.RootSafe (s : Sys L) : Ev L → Prop
  | .call _ (.cfork name _) => isRoot name = false
  | .next (some p) =>
    match (s.th (some p)).pc with
    | .exitCount _ =>
      ∀ c, (s.proc p).contp = some c →
        (∀ q ∈ (s.cont c).procList, q ≠ p → (s.proc q).state ≠ .unused → (s.th (some q)).pc.counted = true) →
        (s.cont c).procList.length = 1
    | _ => True
  | _ => True

omit [DecidableEq L] in
private theorem tags_setTh {t : Thread} {x : Th L} (h : x.pc.tag = (s.th t).pc.tag) (u : Thread) :
    (update s.th t x u).pc.tag = (s.th u).pc.tag := by
  by_cases hu : u = t
  · subst hu
    rw [Function.update_self, h]
  · rw [Function.update_of_ne hu]

omit [DecidableEq L] in
private theorem tags_at {t : Thread} {pc : Pc L} {x : Th L} (ha : s.At t pc) (h : x.pc.tag = pc.tag) (u : Thread) :
    (update s.th t x u).pc.tag = (s.th u).pc.tag :=
  tags_setTh (by rw [ha.pc]; exact h) u

omit [DecidableEq L] in
/-- Only thread `t` changes. -/
private theorem other_at {t : Thread} {x : Th L} {u : Thread} (hu : u ≠ t) : update s.th t x u = s.th u :=
  Function.update_of_ne hu ..

omit [DecidableEq L] in
/-- The tags of the threads when `t` goes from `pc` to `pc'`. -/
private theorem tag_cases {α : Type} (f : Pc L → α) {t : Thread} {pc : Pc L} {x : Th L} (ha : s.At t pc)
    (h : f x.pc = f pc) (u : Thread) : f (update s.th t x u).pc = f (s.th u).pc := by
  by_cases hu : u = t
  · subst hu
    rw [Function.update_self, h, ha.pc]
  · rw [Function.update_of_ne hu]

omit [DecidableEq L] in
private theorem present_reset {q : Slot} {t : Thread} {x : Th L} (a : Slot) (c : ContId)
    (h : ((s.freeprocReset q).setTh t x).Present a c) : s.Present a c := by
  by_cases haq : a = q
  · subst haq
    exact absurd (by simp [Sys.setTh, Sys.freeprocReset, Sys.setProc]) h.2
  · simpa [Present, Sys.setTh, Sys.freeprocReset, Sys.setProc, haq] using h

omit [DecidableEq L] in
private theorem reset_present {q : Slot} {t : Thread} {x : Th L} {a : Slot} {c : ContId} (haq : a ≠ q)
    (h : s.Present a c) : ((s.freeprocReset q).setTh t x).Present a c := by
  simpa [Present, Sys.setTh, Sys.freeprocReset, Sys.setProc, haq] using h

omit [DecidableEq L] in
private theorem zombie_reset {q : Slot} {t : Thread} {x : Th L} (a : Slot)
    (h : (((s.freeprocReset q).setTh t x).proc a).state = .zombie) : (s.proc a).state = .zombie := by
  by_cases haq : a = q
  · subst haq
    simp [Sys.setTh, Sys.freeprocReset, Sys.setProc] at h
  · simpa [Sys.setTh, Sys.freeprocReset, Sys.setProc, haq] using h

theorem Sys.Rooted.sect (h : s.Rooted) (hI : s.view.Inv T) (hb : s.Born) (hn : s.Named) (hc : s.RootSafe e)
    (hs : Sect s e s') : s'.Rooted := by
  cases hs with
  | schedulerPop hk hl =>
    exact h.keeps (.of_proc rfl rfl (fun _ => setCont_used rfl) (fun _ => setCont_rootdir rfl) fun _ => rfl)
  | schedulerRun hk hf hst hch =>
    exact h.keeps (.of_update rfl rfl rfl (tags_setTh (s := s) (by rfl)) rfl (by simp [hst]) (by simp))
  | yield hon hi hf =>
    have hst := running_of_inv hI hon hi.1
    exact h.keeps (.of_update rfl rfl rfl (tags_setTh (s := s) (by rfl)) rfl (by simp [hst]) (by simp))
  | yieldPush hon hsw hc =>
    exact h.keeps (.of_proc rfl rfl (fun _ => setCont_used rfl) (fun _ => setCont_rootdir rfl) (tags_setTh (s := s) (by rfl)))
  | wakeupHit hw hne hf hst hch =>
    exact h.keeps (.of_update rfl rfl rfl (tags_setTh (s := s) (by rfl)) rfl (by simp [hst]) (by simp))
  | wakeupPush hw hc =>
    exact h.keeps (.of_proc rfl rfl (fun _ => setCont_used rfl) (fun _ => setCont_rootdir rfl) (tags_setTh (s := s) (by rfl)))
  | sleep ha hf hpc =>
    have hst := ha.running hI
    refine h.keeps (.of_update rfl rfl rfl (tags_at (s := s) ha ?_) rfl (by simp [hst]) (by simp))
    obtain ⟨rfl, rfl, -⟩ | ⟨-, ⟨addr, rfl, -, rfl⟩ | ⟨l, rfl, -, rfl, -⟩⟩ := hpc <;> rfl
  | @alloccontInit p name root c ha =>
    have hT : T.cont c = .hand .taken (some p) :=
      (hI.conts.hand (some p) .taken c).1 (congrArg (fun pc => pc.role.contHand .taken) ha.pc)
    have hname : isRoot name = false := hn (some p) name (by rw [ha.pc]; rfl)
    have hself : ((s.alloccontInit c name (some root)).goto (some p) (.contMade c)).Holds c ∧
        (((s.alloccontInit c name (some root)).goto (some p) (.contMade c)).cont c).used = true ∧
        ((s.alloccontInit c name (some root)).goto (some p) (.contMade c)).hist c = ⟨some root, [], false⟩ := by
      simp [Holds, Sys.alloccontInit, Sys.goto, Sys.setTh, Sys.setHist, Sys.setCont, hname]
    have hcr : c ≠ contRoot := by
      rintro rfl
      rw [hI.init.root] at hT
      cases hT
    refine h.cont (c := c) hcr rfl ?_ ?_ (tag_cases (s := s) Pc.counted ha rfl) (tag_cases (s := s) Pc.puts ha rfl) ?_ ?_ ?_ ?_
    · intro d hd
      refine ⟨?_, ?_, ?_⟩ <;> simp [Sys.alloccontInit, Sys.goto, Sys.setTh, Sys.setHist, Sys.setCont, hd]
    · intro q hq
      have := hq.live hI
      rw [hT] at this
      cases this
    · intro t ht
      rcases Sys.new_cont hI ht with hc' | hc' <;> rw [hT] at hc' <;> cases hc'
    · intro t d hd
      by_cases ht : t = some p
      · subst ht
        refine iff_of_false ?_ (by rw [ha.pc]; intro h; cases h)
        simp [Sys.goto, Sys.setTh, Pc.newCont, Ne.symm hd]
      · have : ((s.alloccontInit c name (some root)).goto (some p) (.contMade c)).th t = s.th t := other_at ht
        rw [this]
    · exact fun t _ => ⟨hcr, hself.2.1, by rw [hself.2.2], by rw [hself.2.2], hself.1⟩
    · rw [hself.2.2]
      simp
  | @failCont p name root c ha hname =>
    have hT : T.cont c = .hand .taken (some p) :=
      (hI.conts.hand (some p) .taken c).1 (congrArg (fun pc => pc.role.contHand .taken) ha.pc)
    have hcr : c ≠ contRoot := by
      rintro rfl
      rw [hI.init.root] at hT
      cases hT
    refine h.cont (c := c) hcr rfl ?_ ?_ (tag_cases (s := s) Pc.counted ha rfl) (tag_cases (s := s) Pc.puts ha rfl) ?_
      (fun t d _ => by rw [← tag_cases (s := s) Pc.newCont ha (x := { s.th (some p) with
        pc := .run, a0 := -1, kept := c :: (s.th (some p)).kept }) rfl t]; rfl) ?_ ?_
    · intro d hd
      refine ⟨?_, ?_, ?_⟩ <;> simp [Sys.alloccontInit, Sys.setTh, Sys.setHist, Sys.setCont, hd]
    · intro q hq
      have := hq.live hI
      rw [hT] at this
      cases this
    · intro t ht
      rcases Sys.new_cont hI ht with hc' | hc' <;> rw [hT] at hc' <;> cases hc'
    · intro t ht
      have ht' := (tag_cases (s := s) Pc.newCont ha (x := { s.th (some p) with
        pc := .run, a0 := -1, kept := c :: (s.th (some p)).kept }) rfl t).symm.trans ht
      rcases Sys.new_cont hI ht' with hc' | hc' <;> rw [hT] at hc' <;> cases hc'
    · simp [Sys.alloccontInit, Sys.setTh, Sys.setHist, Sys.setCont]
  | @allocprocNone p c fr ha hu =>
    have h1 := tag_cases (s := s) Pc.counted ha (x := { s.th (some p) with pc := .run, a0 := -1 }) rfl
    have h2 := tag_cases (s := s) Pc.puts ha (x := { s.th (some p) with pc := .run, a0 := -1 }) rfl
    refine h.shrink (fun _ => ⟨rfl, rfl, rfl⟩) h1 h2 ?_ (fun _ _ h => h) ?_ ?_ (fun _ h => h)
    · intro t d ht
      by_cases htp : t = some p
      · subst htp
        simp [Sys.ret, Sys.setTh, Pc.newCont] at ht
      · have := congrArg (fun x : Th L => x.pc.newCont) (other_at (s := s) (x := { s.th (some p) with pc := .run, a0 := -1 }) htp)
        exact this.symm.trans ht
    · intro q d t hq ht
      by_cases htp : t = some p
      · subst htp
        have := Sys.new_present hI ht (q := q) hq
        rw [ha.pc] at this
        cases this
      · have := congrArg (fun x : Th L => x.pc.newCont) (other_at (s := s) (x := { s.th (some p) with pc := .run, a0 := -1 }) htp)
        exact this.trans ht
    · rintro d - ⟨q, hq, ho⟩
      refine ⟨q, hq, ?_⟩
      rw [← h1, ← h2] at ho
      exact ho
  | @allocprocInit t c fr np ha =>
    have hna : (T.place np).alive = false := by rw [(hI.locked_out ha.view).1]; rfl
    have hne : t ≠ some np := by
      rintro rfl
      have hr := ha.view.role
      rw [(hI.harts.clean np hna).role] at hr
      cases hr
    refine h.allocprocInit hI ha rfl ⟨rfl, rfl⟩ ?_ ?_ ?_
    · exact fun d => ⟨rfl, setCont_used rfl, setCont_rootdir rfl⟩
    · simp [Sys.goto, Sys.setTh, Ne.symm hne, forkret]
    · intro u hu
      by_cases hut : u = t
      · subst hut
        rw [ha.pc]
        simp [Sys.goto, Sys.setTh, Pc.counted, Pc.puts, Pc.newCont]
      · simp [Sys.goto, Sys.setTh, Sys.setProc, Sys.setCont, hu, hut]
  | allocprocList ha =>
    exact h.keeps (.of_proc rfl rfl (fun _ => setCont_used rfl) (fun _ => setCont_rootdir rfl)
      (tags_at (s := s) ha rfl))
  | @userinit c fr np ha =>
    have hst := used_of_inv hI (t := none) (q := np) (by rw [ha.pc]; rfl)
    exact h.keeps (.of_update rfl rfl rfl (tags_at (s := s) ha rfl) rfl (by simp [hst]) (by simp))
  | forkParent ha hf => exact h.keeps (.of_update rfl rfl rfl (tags_at (s := s) ha rfl) rfl .rfl .inl)
  | @forkRunnable p c fr np ha hf =>
    have hst := used_of_inv hI (t := some p) (q := np) (by rw [ha.pc]; rfl)
    exact h.keeps (.of_update rfl rfl rfl (tags_at (s := s) ha rfl) rfl (by simp [hst]) (by simp))
  | @forkPush t c fr np ha =>
    refine h.forkPush hI hb ha rfl (fun _ => setCont_used rfl) (fun _ => setCont_rootdir rfl) rfl
      (tag_cases (s := s) Pc.counted ha rfl) (tag_cases (s := s) Pc.puts ha rfl) ?_ ?_
    · simp [Sys.ret, Sys.setTh, Pc.newCont]
    · intro u hu
      simp [Sys.ret, Sys.setTh, Sys.runPush, Sys.setCont, Sys.setHist, hu]
  | @exitCount p status c ha hcp =>
    have hsafe : (s.cont c).procList.length ≠ 1 → ∃ q ∈ (s.cont c).procList, q ≠ p ∧ (s.proc q).state ≠ .unused ∧
        (s.th (some q)).pc.counted = false := by
      intro hlen
      by_contra hall
      rw [RootSafe, ha.pc] at hc
      refine hlen (hc c hcp fun q hq hqp hst => ?_)
      by_contra hcount
      exact hall ⟨q, hq, hqp, hst, by simpa using hcount⟩
    refine h.exitCount hI ha hcp hsafe rfl (fun _ => ⟨rfl, rfl, rfl⟩) ?_ ?_ ?_ ?_
    · simp only [Sys.goto, Sys.setTh, Function.update_self]
      split <;> rfl
    · simp only [Sys.goto, Sys.setTh, Function.update_self]
      split <;> simp_all [Pc.puts]
    · refine tag_cases (s := s) Pc.newCont ha ?_
      dsimp only
      split <;> rfl
    · intro u hu
      simp [Sys.goto, Sys.setTh, hu]
  | @exitIput p status c i ha hcp hi =>
    refine h.exitIput hI hb ha hcp hi rfl rfl rfl (tag_cases (s := s) Pc.counted ha rfl) ?_ ?_
      (tag_cases (s := s) Pc.newCont ha rfl)
    · simp [Sys.goto, Sys.setTh, Pc.puts]
    · intro u hu
      simp [Sys.goto, Sys.setTh, Sys.setHist, hu]
  | reparentHit ha hp => exact h.keeps (.of_update rfl rfl rfl (tags_at (s := s) ha rfl) rfl .rfl .inl)
  | exitLast ha hf =>
    have hst := ha.running hI
    exact h.keeps (.of_update rfl rfl rfl (tags_at (s := s) ha rfl) rfl (by simp [hst])
      fun _ => .inr (by rw [ha.pc]; rfl))
  | @scanZombie p addr hk status q ha hp hf hst hs =>
    have h1 := tag_cases (s := s) Pc.counted ha (x := { s.th (some p) with pc := .freed q (some (s.proc q).pid), status := status }) rfl
    have h2 := tag_cases (s := s) Pc.puts ha (x := { s.th (some p) with pc := .freed q (some (s.proc q).pid), status := status }) rfl
    have h3 := tag_cases (s := s) Pc.newCont ha (x := { s.th (some p) with pc := .freed q (some (s.proc q).pid), status := status }) rfl
    refine h.shrink (fun _ => ⟨rfl, rfl, rfl⟩) h1 h2 (fun t d ht => (h3 t).symm.trans ht) (present_reset (s := s)) ?_ ?_ (zombie_reset (s := s))
    · exact fun a d t ha ht => (h3 t).trans ht
    · rintro d - ⟨a, ha', ho⟩
      have haq : a ≠ q := by
        rintro rfl
        have hr : (s.th (some a)).pc.role = .idle := (hI.harts.zombie a (View.place_of_state hI (.inr (.inl rfl)) hst)).1
        rcases ho with ho | ho
        · rw [h.zombie a hst] at ho
          cases ho
        · cases hpc : (s.th (some a)).pc <;> simp [hpc, Pc.puts, Pc.role] at ho hr
      rw [← h1, ← h2] at ho
      exact ⟨a, reset_present (s := s) haq ha', ho⟩
  | @failFork p c fr np ha =>
    have h1 := tag_cases (s := s) Pc.counted ha (x := { s.th (some p) with pc := .freed np none }) rfl
    have h2 := tag_cases (s := s) Pc.puts ha (x := { s.th (some p) with pc := .freed np none }) rfl
    have htar : (s.th (some p)).pc.role.target = some np := by rw [ha.pc]; rfl
    have hnew : ∀ t d, (update s.th (some p) { s.th (some p) with pc := .freed np none } t).pc.newCont = some d ↔
        (s.th t).pc.newCont = some d ∧ t ≠ some p := by
      intro t d
      by_cases htp : t = some p
      · subst htp
        simp [Pc.newCont]
      · rw [Function.update_of_ne htp]
        exact ⟨fun h => ⟨h, htp⟩, And.left⟩
    refine h.shrink (fun _ => ⟨rfl, rfl, rfl⟩) h1 h2 (fun t d ht => ((hnew t d).1 ht).1) (present_reset (s := s)) ?_ ?_
      (zombie_reset (s := s))
    · intro q d t hq ht
      refine (hnew t d).2 ⟨ht, ?_⟩
      rintro rfl
      have hqn := Sys.new_present hI ht (present_reset (s := s) q d hq)
      rw [htar] at hqn
      cases hqn
      exact hq.2 (by simp [Sys.goto, Sys.setTh, Sys.freeprocReset, Sys.setProc])
    · rintro d hdone ⟨q, hq, ho⟩
      by_cases hqn : q = np
      · subst hqn
        have hin : (s.view.th (some p)).role.into = some (c, fr) := by rw [ha.view.role]; rfl
        have hcd : (s.proc q).contp = some c := hI.links.target (some p) c fr q hin htar
        obtain rfl : d = c := Option.some.inj (hq.1.symm.trans hcd)
        rcases forker hI ha rfl with hn' | ⟨-, hn'⟩ | ⟨p', hp', hpp⟩
        · rw [(h.new _ _ hn').2.2.1] at hdone
          cases hdone
        · cases hn'
        · cases hp'
          have hpq : p ≠ q := by
            rintro rfl
            rw [(hb _ _ htar).1] at htar
            cases htar
          refine ⟨p, reset_present (s := s) hpq hpp, .inl ((h1 (some p)).trans ?_)⟩
          rw [ha.pc]
          rfl
      · rw [← h1, ← h2] at ho
        exact ⟨q, reset_present (s := s) hqn hq, ho⟩
  | freeprocUnlist ha hc =>
    refine h.keeps (.of_proc rfl rfl (fun _ => setCont_used rfl) (fun _ => setCont_rootdir rfl) (tags_at (s := s) ha ?_))
    dsimp only
    split <;> rfl
  | @freecont p q w c ha hcp =>
    have hT : T.cont c = .off (some p) := by
      obtain ⟨d, hd, hoff⟩ := hI.conts.gone (some p) q (by rw [ha.view.role]; rfl)
      have hd' : (s.proc q).contp = some d := hd
      rw [hcp] at hd'
      cases hd'
      exact hoff
    have hcr : c ≠ contRoot := by
      rintro rfl
      rw [hI.init.root] at hT
      cases hT
    have hno : ∀ a, ¬ s.Present a c := by
      intro a ha
      have := ha.live hI
      rw [hT] at this
      cases this
    have hnew : ∀ t, (s.th t).pc.newCont ≠ some c := by
      intro t ht
      rcases Sys.new_cont hI ht with hc' | hc' <;> rw [hT] at hc' <;> cases hc'
    have h3 := tag_cases (s := s) Pc.newCont ha (x := { s.th (some p) with pc := .unlinked q w }) rfl
    refine h.cont (c := c) hcr rfl ?_ hno (tag_cases (s := s) Pc.counted ha rfl) (tag_cases (s := s) Pc.puts ha rfl) hnew
      (fun t d _ => by rw [← h3 t]; rfl) (fun t ht => absurd ((h3 t).symm.trans ht) (hnew t)) ?_
    · intro d hd
      refine ⟨rfl, ?_, ?_⟩ <;> simp [Sys.goto, Sys.setTh, Sys.setCont, hd]
    · intro hdone
      refine ⟨by simp [Sys.goto, Sys.setTh, Sys.setCont], ?_⟩
      have hused : (s.cont c).used = true := (hI.conts.used c).2 (by simp [hT])
      exact h.shut c hdone hused fun hx => hx.elim fun a ha => hno a ha.1
  | @freeprocUnlink p q w ha =>
    have hst := unused_of_leaving hI (t := some p) (q := q) (by rw [ha.pc]; rfl)
    refine h.keeps ⟨rfl, fun _ => rfl, fun _ => rfl, tags_at (s := s) ha rfl, ?_, ?_⟩
    · intro a c
      by_cases haq : a = q
      · subst haq
        simp [Present, Sys.ret, Sys.setTh, Sys.setProc, hst]
      · simp [Present, Sys.ret, Sys.setTh, Sys.setProc, haq]
    · intro a
      by_cases haq : a = q
      · subst haq
        simp [Sys.ret, Sys.setTh, Sys.setProc, hst]
      · simp only [Sys.ret, Sys.setTh, Sys.setProc, Function.update_of_ne haq]
        exact .inl
  | killMark ha hp hf hst => exact h.keeps (.of_update rfl rfl rfl (tags_at (s := s) ha rfl) rfl .rfl .inl)
  | @killHit p pid q ha hp hf hst =>
    refine h.keeps (.of_update (x := { s.proc q with killed := true, state := .runnable }) ?_ rfl rfl
      (tags_at (s := s) ha rfl) rfl (by simp [hst]) (by simp))
    simp [Sys.goto, Sys.setTh, Sys.setState, Sys.setProc]
  | killPush ha hc =>
    exact h.keeps (.of_proc rfl rfl (fun _ => setCont_used rfl) (fun _ => setCont_rootdir rfl)
      (tags_at (s := s) ha rfl))
  | _ => first
    | exact h.keeps (.of_proc rfl rfl (fun _ => rfl) (fun _ => rfl) (tags_setTh (s := s) (by rfl)))
    | exact h.keeps (.of_proc rfl rfl (fun _ => rfl) (fun _ => rfl) (tags_at (s := s) (by assumption) (by rfl)))

/-! ### Runs -/

theorem Sys.Named.sect (h : s.Named) (hc : s.RootSafe e) (hs : Sect s e s') : s'.Named := by
  intro t name ht
  rcases hs.cname t name ht with hn | ⟨p, root, rfl⟩
  · exact h t name hn
  · exact hc

omit [DecidableEq L] in
theorem procinit_born : (procinit L).Born := by
  intro t q h
  have hpc : ((procinit L).th t).pc.role.target = none := by
    by_cases ht : t = none <;> simp [procinit, ht, Pc.role, Role.target]
  rw [hpc] at h
  cases h

omit [DecidableEq L] in
theorem procinit_named : (procinit L).Named := by
  intro t name h
  have hpc : ((procinit L).th t).pc.cname = none := by
    by_cases ht : t = none <;> simp [procinit, ht, Pc.cname]
  rw [hpc] at h
  cases h

omit [DecidableEq L] in
theorem procinit_rooted : (procinit L).Rooted := by
  have hno : ∀ q c, ¬ (procinit L).Present q c := fun q c h => h.2 rfl
  have hnew : ∀ t, ((procinit L).th t).pc.newCont = none := by
    intro t
    by_cases ht : t = none <;> simp [procinit, ht, Pc.newCont]
  refine ⟨?_, by intros; contradiction, by intros; contradiction, by intros; contradiction, ?_, ?_, ?_, by intros; contradiction, rfl⟩
  · intro t c h
    rw [hnew] at h
    cases h
  · rintro c ⟨q, hq, -⟩
    exact absurd hq (hno q c)
  · exact fun p c _ hp => absurd hp (hno p c)
  · exact fun q c hq => absurd hq (hno q c)

theorem rooted_reachable [Fintype L] (h : ((procLts L).guard RootSafe).Reachable s) :
    (∃ T, s.view.Inv T) ∧ s.Born ∧ s.Named ∧ s.Rooted := by
  refine h.invariant (I := fun s => (∃ T, s.view.Inv T) ∧ s.Born ∧ s.Named ∧ s.Rooted) ?_ ?_
  · rintro s rfl
    exact ⟨⟨_, procinit_inv⟩, procinit_born, procinit_named, procinit_rooted⟩
  · rintro s e s' ⟨⟨T, hT⟩, hb, hn, hr⟩ ⟨hc, hst⟩
    have hsect := Sys.step_sect hst
    exact ⟨hT.sect hsect, hb.sect hT hsect, hn.sect hc hsect, hr.sect hT hb hn hc hsect⟩

/-- The references to the root directories: a container that `cfork` made has the one that `namei` returned, one that is
back on `cont_unused_list` has returned it once, and `exit` never returns a null one. -/
structure Sys.RootdirOk (s : Sys L) : Prop where
  holds : ∀ c, (s.hist c).done = true → (s.cont c).used = true → s.Holds c
  returned : ∀ c ∈ s.contUnused, (s.hist c).done = true → s.Returned c
  nonnull : ∀ p status c, (s.th (some p)).pc = .exitIput status → (s.proc p).contp = some c → (s.cont c).rootdir ≠ none

omit [DecidableEq L] in
theorem Sys.RootdirOk.of_rooted (hI : s.view.Inv T) (hr : s.Rooted) : s.RootdirOk := by
  refine ⟨hr.holds, ?_, ?_⟩
  · intro c hc hdone
    have hfree : T.cont c = .free := (hI.conts.unused.2 c).1 hc
    refine hr.returned c hdone ?_
    by_contra hu
    exact ((hI.conts.used c).1 (Bool.eq_true_of_not_eq_false hu)).1 hfree
  · intro p status c hpc hcp hnone
    have hst : (s.proc p).state ≠ .unused := by
      intro hst
      have hv := (Place.unused_iff _).1 ((hI.elem.state p).symm.trans hst)
      have hr : (s.th (some p)).pc.role = .idle := (hI.harts.clean p (Place.not_alive hv)).role
      rw [hpc] at hr
      cases hr
    have hpres : s.Present p c := ⟨hcp, hst⟩
    have hputs : (s.th (some p)).pc.puts = true := by rw [hpc]; rfl
    have hcr : c ≠ contRoot := by
      rintro rfl
      exact hr.no_root_puts hI hputs hpres
    have hholds : s.Holds c := by
      rcases hr.known p c hpres hcr with hdone | ⟨t, ht⟩
      · exact hr.holds c hdone (hpres.used hI)
      · exact (hr.new t c ht).2.2.2.2
    obtain ⟨i, -, hi⟩ := hholds
    rw [hnone] at hi
    cases hi

/-- The reference to the root directory of a container is taken and given back once, in every run of `RootSafe` steps. -/
theorem rootdir_once [Fintype L] (h : ((procLts L).guard RootSafe).Reachable s) : s.RootdirOk := by
  obtain ⟨⟨T, hT⟩, -, -, hr⟩ := rooted_reachable h
  exact .of_rooted hT hr

/-- The process counts the processes on its `proc_list`. -/
private def Pc.counts : Pc L → Bool
  | exitCount _ => true
  | _ => false

/-- A test for `RootSafe` in runs without `exit`. -/
private def rootSafeTest (s : Sys Unit) : Ev Unit → Bool
  | .call _ (.cfork name _) => !isRoot name
  | .next (some p) => !(s.th (some p)).pc.counts
  | _ => true

private theorem rootSafe_of_test (s : Sys Unit) (e : Ev Unit) (h : rootSafeTest s e = true) : s.RootSafe e := by
  cases e with
  | call p x =>
    cases x with
    | cfork name root => exact Bool.not_eq_true' _ |>.mp h
    | _ => trivial
  | next t =>
    cases t with
    | none => trivial
    | some p =>
      simp only [rootSafeTest, Bool.not_eq_true'] at h
      cases hpc : (s.th (some p)).pc <;> simp_all [RootSafe, Pc.counts]
  | _ => trivial

theorem rootdir_once_cforkRun : ∃ s : Sys Unit, (∃ c, (s.hist c).done = true ∧ (s.cont c).used = true) ∧ s.RootdirOk := by
  obtain ⟨s, hr, hs⟩ := Sys.reaches rootSafeTest rootSafe_of_test cforkRun
    (fun s : Sys Unit => decide (∃ c, (s.hist c).done = true ∧ (s.cont c).used = true)) (by decide +kernel)
  exact ⟨s, of_decide_eq_true hs, rootdir_once hr⟩

/-- The first process is started and makes a container with the name "root". -/
def cforkRootRun : List (Ev Unit) :=
  List.replicate 6 (.next none) ++
    [.pop ⟨0, NCPU_pos⟩ contRoot, .switch ⟨0, NCPU_pos⟩, .call ⟨0, NPROC_pos⟩ (.cfork [0x72, 0x6f, 0x6f, 0x74] 7)] ++
    List.replicate 11 (.next (some ⟨0, NPROC_pos⟩))

/-- Such a `cfork` succeeds, and the container has no root directory. -/
theorem cfork_root_rootdir : ∃ s : Sys Unit, (procLts Unit).Reachable s ∧
    ∃ c, (s.hist c).done = true ∧ (s.cont c).used = true ∧ (s.cont c).rootdir = none := by
  obtain ⟨s, hr, hs⟩ := Sys.reaches (C := fun _ _ => True) (fun _ _ => true) (fun _ _ _ => trivial) cforkRootRun
    (fun s : Sys Unit => decide (∃ c, (s.hist c).done = true ∧ (s.cont c).used = true ∧ (s.cont c).rootdir = none))
    (by decide +kernel)
  exact ⟨s, hr.of_guard, of_decide_eq_true hs⟩

end Xv6
