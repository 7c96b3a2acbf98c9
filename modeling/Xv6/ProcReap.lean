import Xv6.ProcFamily

/-!
# Every child is reaped once

In every run the parent of a process is alive whenever `wait_lock` is free, a zombie is freed by a `wait` of its parent
(`zombies_reaped`), and no process sleeps in `wait` while it has a zombie (`wait_not_lost`).
-/

namespace Xv6

open Function (update)
open Sys

variable {L : Type} [DecidableEq L] {s s' : Sys L} {T : Table} {e : Ev L}

/-! ### `userinit` -/

/-- The point is in `userinit` before it sets `initproc`, if the thread is that of `main`. -/
def Pc.booting : Pc L → Bool
  | alloc .. | popped .. | locked .. | made .. | listed .. => true
  | _ => false

/-- `initproc` is not set while `userinit` makes the first process. -/
def Sys.Booting (s : Sys L) : Prop := (s.th none).pc.booting = true → s.initproc = none

omit [DecidableEq L] in
private theorem booting_setTh {t : Thread} {x : Th L} (h : x.pc.booting = true → (s.th t).pc.booting = true ∨ t ≠ none)
    (hb : (update s.th t x none).pc.booting = true) : (s.th none).pc.booting = true := by
  by_cases ht : t = none
  · subst ht
    rw [Function.update_self] at hb
    exact (h hb).resolve_right (absurd rfl)
  · rwa [Function.update_of_ne (Ne.symm ht)] at hb

theorem Sys.Booting.sect (h : s.Booting) (hs : Sect s e s') : s'.Booting := by
  intro hb
  cases hs with
  | userinit ha =>
    have hb' := (congrArg (fun x : Th L => x.pc.booting) (Function.update_self none _ s.th)).symm.trans hb
    cases hb'
  | @allocprocInit t c fr np ha =>
    refine h (booting_setTh (t := some np) (x := forkret) (fun _ => .inr (Option.some_ne_none _)) ?_)
    refine booting_setTh (s := s.setTh (some np) forkret) (t := t) (fun _ => ?_) hb
    by_cases ht : t = none
    · subst ht
      exact .inl (by simp [Sys.setTh, ha.pc, Pc.booting])
    · exact .inr ht
  | allocprocPop ha hu => exact h (booting_setTh (fun _ => .inl (by rw [ha.pc]; rfl)) hb)
  | allocprocLock ha hf => exact h (booting_setTh (fun _ => .inl (by rw [ha.pc]; rfl)) hb)
  | allocprocList ha => exact h (booting_setTh (fun _ => .inl (by rw [ha.pc]; rfl)) hb)
  | forkPush ha => exact h (booting_setTh (fun h => by cases h) hb)
  | schedulerPop hk hl => exact h hb
  | _ => exact h hb

/-! ### The invariants -/

omit [DecidableEq L] in
theorem Place.living {b : Place} {x : ProcState} (ha : b.alive) (hz : b ≠ .zombie) (hx : x = b.state) : x.living = true := by
  subst hx
  cases b with
  | hand k _ => cases k <;> first | rfl | cases ha
  | zombie => exact absurd rfl hz
  | _ => first | rfl | cases ha

omit [DecidableEq L] in
private theorem fam_setTh {t : Thread} {x : Th L} (h : x.pc.fam = (s.th t).pc.fam) (u : Thread) :
    (update s.th t x u).pc.fam = (s.th u).pc.fam := by
  by_cases hu : u = t
  · subst hu
    rw [Function.update_self, h]
  · rw [Function.update_of_ne hu]

omit [DecidableEq L] in
private theorem sw_setTh {t : Thread} {x : Th L} (h : (s.th t).waits = true → x.sw = (s.th t).sw) (u : Thread)
    (hu : (s.th u).waits = true) : (update s.th t x u).sw = (s.th u).sw := by
  by_cases hut : u = t
  · subst hut
    rw [Function.update_self, h hu]
  · rw [Function.update_of_ne hut]

omit [DecidableEq L] in
private theorem wakes_setTh {t : Thread} {x : Th L} {p : Slot} (h : (s.th t).wakes p → x.wakes p) (u : Thread)
    (hu : (s.th u).wakes p) : (update s.th t x u).wakes p := by
  by_cases hut : u = t
  · subst hut
    rw [Function.update_self]
    exact h hu
  · rwa [Function.update_of_ne hut]

omit [DecidableEq L] in
private theorem wake_none (hI : s.view.Inv T) {t : Thread} {pc : Pc L} (ha : s.At t pc) : (s.th t).wake = none := by
  cases t with
  | none => simpa [Sys.view, Th.view] using hI.harts.boot.2.1
  | some p => exact (ha.run p rfl).2.2

omit [DecidableEq L] in
/-- A section that moves one thread between points with the same tag. -/
private theorem keeps_at (hI : s.view.Inv T) {t : Thread} {pc : Pc L} {x : Th L} (ha : s.At t pc) (hp : s'.proc = s.proc)
    (hi : s'.initproc = s.initproc) (hth : s'.th = update s.th t x) (hf : x.pc.fam = pc.fam) (hsw : x.sw = (s.th t).sw) :
    s.KeepsFamily s' := by
  refine .of_th hp hi ?_ ?_ ?_ <;> rw [hth]
  · exact fam_setTh (by rw [hf, ha.pc])
  · exact sw_setTh fun _ => hsw
  · exact fun u p _ => wakes_setTh (fun h => absurd h (Th.not_wakes (wake_none hI ha) p)) u

omit [DecidableEq L] in
/-- A section that also changes a process, but not its parent, and makes no zombie. -/
private theorem keeps_update (hI : s.view.Inv T) {t : Thread} {pc : Pc L} {y : Th L} {q : Slot} {x : Proc L}
    (ha : s.At t pc) (hp : s'.proc = update s.proc q x) (hi : s'.initproc = s.initproc) (hth : s'.th = update s.th t y)
    (hf : y.pc.fam = pc.fam) (hsw : y.sw = (s.th t).sw ∨ pc.waits = false) (h1 : x.parent = (s.proc q).parent)
    (h2 : (s.proc q).state.living = true → x.state.living = true) (h3 : x.state ≠ .unused → (s.proc q).state ≠ .unused)
    (h4 : x.state = .zombie → (s.proc q).state = .zombie)
    (h5 : x.state = .sleeping ∧ x.chan = some (.proc q) → s.Asleep q) : s.KeepsFamily s' := by
  refine .of_update hp hi h1 h2 h3 h4 h5 ?_ ?_ ?_ <;> rw [hth]
  · exact fam_setTh (by rw [hf, ha.pc])
  · refine sw_setTh fun hw => hsw.resolve_right fun hn => ?_
    rw [Th.waits, ha.pc, hn] at hw
    cases hw
  · exact fun u p _ => wakes_setTh (fun h => absurd h (Th.not_wakes (wake_none hI ha) p)) u

theorem Sys.Family.sect (hF : s.Family) (hW : s.Waiting) (hI : s.view.Inv T) (hB : s.Booting) (hs : Sect s e s') :
    s'.Family ∧ s'.Waiting := by
  have keeps : s.KeepsFamily s' → s'.Family ∧ s'.Waiting := fun hk => ⟨hF.keeps hk, hW.keeps hk⟩
  cases hs with
  | schedulerPop hk hl => exact keeps (.of_th rfl rfl (fun _ => rfl) (fun _ _ => rfl) fun _ _ _ => id)
  | @schedulerRun k p chan hk hf hst hch =>
    have hoff : (s.th (some p)).waits = true → Sw.run = (s.th (some p)).sw := fun h => (hF.runs _ h).symm
    exact keeps (.of_update rfl rfl rfl (fun _ => rfl) (by simp [hst]) (by simp) (fun h => by cases h.1) (fam_setTh (s := s) rfl)
      (sw_setTh (s := s) hoff) fun u p _ => wakes_setTh (s := s) (by exact id) u)
  | @yield p hon hi hf =>
    have hst := running_of_inv hI hon hi.1
    refine keeps (.of_update rfl rfl rfl (fun _ => rfl) (by simp [hst]) (by simp) (fun h => by cases h.1) (fam_setTh (s := s) rfl)
      (sw_setTh (s := s) fun h => ?_) fun u p _ => wakes_setTh (s := s) (by exact id) u)
    rw [hi.2.2.1] at h
    cases h
  | @yieldPush p c hon hsw hc =>
    refine keeps (.of_th rfl rfl (fam_setTh (s := s) rfl) (sw_setTh (s := s) fun h => ?_) fun u p _ => wakes_setTh (s := s) (by exact id) u)
    rw [hF.runs _ h] at hsw
    cases hsw
  | @sched p b hon hsw hk =>
    refine keeps (.of_th rfl rfl (fam_setTh (s := s) rfl) (sw_setTh (s := s) fun h => ?_) fun u p _ => wakes_setTh (s := s) (by exact id) u)
    rw [hF.runs _ h] at hsw
    cases hsw
  | @wakeupMiss p chan i hw hi hm =>
    refine keeps (.of_th rfl rfl (fam_setTh (s := s) rfl) (sw_setTh (s := s) fun _ => rfl) fun u r hr =>
      wakes_setTh (s := s) (fun h => ?_) u)
    -- the loop does not pass a process that sleeps on the channel
    rw [Th.wakes, hw.wake] at h
    refine ⟨h.1, Nat.lt_of_le_of_ne h.2 ?_⟩
    rintro rfl
    rcases hm with hm | hm
    · have hst := running_of_inv hI hw.on hw.sw
      rw [Option.some.inj hm, hr.1] at hst
      cases hst
    · exact hm ⟨hr.1, hr.2.trans h.1.symm⟩
  | @wakeupHit p chan q hw hne hf hst hch =>
    refine keeps (.of_update rfl rfl rfl (fun _ => rfl) (by simp [hst]) (by simp) (fun h => by cases h.1) (fam_setTh (s := s) rfl)
      (sw_setTh (s := s) fun _ => rfl) fun u r hr => wakes_setTh (s := s) (fun h => ?_) u)
    rw [Th.wakes, hw.wake] at h
    refine ⟨h.1, Nat.lt_of_le_of_ne h.2 fun heq => ?_⟩
    have hqr : q = r := Fin.ext heq
    subst hqr
    have := hr.1
    simp [Sys.setTh, Sys.setState, Sys.setProc] at this
  | @wakeupEnd p chan i hw hi =>
    refine keeps (.of_th rfl rfl (fam_setTh (s := s) rfl) (sw_setTh (s := s) fun _ => rfl) fun u r hr =>
      wakes_setTh (s := s) (fun h => ?_) u)
    rw [Th.wakes, hw.wake] at h
    exact absurd (Nat.lt_of_le_of_lt h.2 r.isLt) hi
  | @wakeupPush p chan q c hw hc =>
    refine keeps (.of_th rfl rfl (fam_setTh (s := s) rfl) (sw_setTh (s := s) fun _ => rfl) fun u r hr =>
      wakes_setTh (s := s) (fun h => ?_) u)
    rw [Th.wakes, hw.wake] at h
    exact ⟨h.1, h.2⟩
  | @callWakeup p n ha =>
    exact keeps (.of_th rfl rfl (fam_setTh (s := s) (by rw [ha.pc])) (sw_setTh (s := s) fun _ => rfl) fun u r _ =>
      wakes_setTh (s := s) (fun h => absurd h (Th.not_wakes (wake_none hI ha) r)) u)
  | @callRelease p l ha hh hf =>
    exact keeps (.of_th rfl rfl (fam_setTh (s := s) (by rw [ha.pc]; rfl)) (sw_setTh (s := s) fun _ => rfl) fun u r _ =>
      wakes_setTh (s := s) (fun h => absurd h (Th.not_wakes (wake_none hI ha) r)) u)
  | @sleep p chan pc pc' e ha hf hpc =>
    have hst := ha.running hI
    by_cases hwait : ∃ addr, pc = .waitSleep addr ∧ chan = .proc p ∧ pc' = .waitLock addr
    · obtain ⟨addr, rfl, rfl, rfl⟩ := hwait
      have hw : (s.th (some p)).waits = true := by rw [Th.waits, ha.pc]; rfl
      refine ⟨hF.act rfl rfl rfl (.inr (.inl ⟨rfl, fun _ => by simp [hst]⟩)) ?_ (by intros; contradiction) (fun _ => .inl rfl)
          (by intros; contradiction),
        hW.act hF rfl rfl (wake_none hI ha) (.inl hw) rfl rfl (by simp) ?_⟩
      · intro b hb
        rw [ha.pc] at hb
        cases hb
      · intro r a hr haq har haz
        by_cases hrp : r = p
        · subst hrp
          exact absurd haz (hW.scanned r NPROC (by rw [ha.pc]; rfl) a a.isLt har)
        · simpa [Asleep, Sys.setTh, Sys.setProc, hrp] using hr
    · have hpc' : pc'.fam = pc.fam ∧ pc.waits = false ∧ chan ≠ .proc p := by
        obtain ⟨rfl, rfl, n, rfl, -⟩ | ⟨-, h | ⟨l, rfl, rfl, rfl, -⟩⟩ := hpc
        · exact ⟨rfl, rfl, by simp⟩
        · exact absurd h hwait
        · exact ⟨rfl, rfl, by simp⟩
      refine keeps (keeps_update hI ha rfl rfl rfl hpc'.1 (.inr hpc'.2.1) rfl (fun _ => rfl) (by simp [hst]) (by simp) ?_)
      exact fun h => absurd (Option.some.inj h.2) hpc'.2.2
  | @allocprocInit t c fr np ha =>
    have hpl := (hI.locked_out ha.view).1
    have hclean := hI.harts.clean np (by rw [hpl]; rfl)
    have hst : (s.proc np).state = .unused := by
      refine (hI.elem.state np).trans ?_
      rw [hpl]
      rfl
    exact ⟨hF.alloc ha.pc rfl hst hclean.role rfl rfl rfl rfl, hW.alloc hF ha.pc rfl hclean.sw rfl rfl rfl rfl⟩
  | @userinit c fr np ha =>
    exact ⟨hF.userinit ha.pc rfl (hB (by rw [ha.pc]; rfl)) rfl rfl rfl rfl rfl, hW.userinit ha.pc rfl rfl rfl rfl⟩
  | @forkParent p c fr np ha hf =>
    have hst := ha.running hI
    have hnp : (s.proc np).state = .used := used_of_inv hI (t := some p) (by rw [ha.pc]; rfl)
    have hne : p ≠ np := by
      rintro rfl
      rw [hst] at hnp
      cases hnp
    refine ⟨hF.act rfl rfl rfl (.inr (.inr ⟨p, rfl, ?_, by rw [ha.pc]; rfl⟩)) ?_ (by intros; contradiction) ?_ (by intros; contradiction),
      hW.act hF rfl rfl (wake_none hI ha) (.inr hf) rfl rfl ?_ ?_⟩
    · rw [Function.update_of_ne hne, hst]
      rfl
    · intro b hb
      rw [ha.pc] at hb
      exact .inr ⟨(Option.some.inj hb).symm, .inl (by simp)⟩
    · intro hl
      rw [hnp] at hl
      cases hl
    · intro r _ _ hz
      have hz' : (s.proc np).state = .zombie := hz
      rw [hnp] at hz'
      cases hz'
    · intro r a hr haq _ _
      by_cases hrn : r = np
      · subst hrn
        simpa [Asleep, Sys.goto, Sys.setTh, Sys.setProc] using hr
      · simpa [Asleep, Sys.goto, Sys.setTh, Sys.setProc, hrn] using hr
  | @forkRunnable p c fr np ha hf =>
    have hnp : (s.proc np).state = .used := used_of_inv hI (t := some p) (by rw [ha.pc]; rfl)
    exact keeps (keeps_update hI ha rfl rfl rfl rfl (.inl rfl) rfl (fun _ => rfl) (by simp [hnp]) (by simp)
      fun h => by cases h.1)
  | @exitLock p status ha hf =>
    refine ⟨hF.move rfl rfl rfl (by rw [ha.pc]; rfl) (fun _ => ⟨(ha.run p rfl).2.1, .inr hf⟩) ?_,
      hW.move rfl rfl (wake_none hI ha) (by intros; contradiction) (by intros; contradiction)⟩
    rintro _ j ⟨⟩ hj q hq
    obtain rfl : 0 = j := Option.some.inj hj
    cases hq
  | @reparentMiss p status i ha hi hp =>
    have hw : (s.th (some p)).waits = true := by rw [Th.waits, ha.pc]; rfl
    refine ⟨hF.move rfl rfl rfl (by rw [ha.pc]; rfl) (fun _ => ⟨(ha.run p rfl).2.1, .inl hw⟩) ?_,
      hW.move rfl rfl (wake_none hI ha) (by intros; contradiction) (by intros; contradiction)⟩
    rintro _ j ⟨⟩ hj q hq
    obtain rfl : i + 1 = j := Option.some.inj hj
    rcases Nat.lt_succ_iff_lt_or_eq.1 hq with hq | hq
    · exact hF.passed p i (by rw [ha.pc]; rfl) q hq
    · have : q = ⟨i, hi⟩ := Fin.ext hq
      rw [this]
      exact hp
  | @reparentHit p status q ha hp =>
    have hw : (s.th (some p)).waits = true := by rw [Th.waits, ha.pc]; rfl
    obtain ⟨i, hi⟩ := Option.ne_none_iff_exists'.1 (hI.started ha.view)
    have hinit : s.initproc = some i := hi
    obtain ⟨-, -, hal, hnz⟩ := hI.init.init i hi
    have hip : i ≠ p := by
      rintro rfl
      exact hI.init.exiting i ha.view.role hi
    have hil : (s.proc i).state.living = true := Place.living hal hnz (hI.elem.state i)
    have hipass : (s.th (some i)).pc.passed = none := by
      by_contra hne
      obtain ⟨j, hj⟩ := Option.ne_none_iff_exists'.1 hne
      exact hip (Option.some.inj (hF.alone _ _ (Pc.waits_of_passed hj) hw))
    refine ⟨hF.act rfl rfl rfl (.inr (.inr ⟨i, hinit, ?_, hipass⟩)) ?_ (fun _ => ⟨(ha.run p rfl).2.1, hw⟩) ?_ ?_,
      hW.act hF rfl rfl (wake_none hI ha) (.inl hw) rfl rfl ?_ ?_⟩
    · by_cases hiq : i = q
      · subst hiq
        rw [Function.update_self]
        exact hil
      · rw [Function.update_of_ne hiq]
        exact hil
    · intro b hb
      rw [ha.pc] at hb
      cases hb
    · exact fun hl => .inl hl
    · rintro _ j ⟨⟩ hj a haj
      obtain rfl : q.val + 1 = j := Option.some.inj hj
      by_cases haq : a = q
      · subst haq
        rw [Function.update_self]
        show s.initproc ≠ some p
        rw [hinit]
        simpa using hip
      · rw [Function.update_of_ne haq]
        refine hF.passed p q.val (by rw [ha.pc]; rfl) a (Nat.lt_of_le_of_ne (Nat.le_of_lt_succ haj) fun h => haq (Fin.ext h))
    · intro r _ hr _
      have hr' : s.initproc = some r := hr
      exact ⟨rfl, congrArg (Option.map Chan.proc) hr', Nat.zero_le _⟩
    · intro r a hr haq _ _
      by_cases hrn : r = q
      · subst hrn
        simpa [Asleep, Sys.callWakeup, Sys.setTh, Sys.setProc, Sys.orphan] using hr
      · simpa [Asleep, Sys.callWakeup, Sys.setTh, Sys.setProc, hrn] using hr
  | @reparentEnd p status i ha hi =>
    have hw : (s.th (some p)).waits = true := by rw [Th.waits, ha.pc]; rfl
    refine ⟨hF.move rfl rfl rfl (by rw [ha.pc]; rfl) (fun _ => ⟨(ha.run p rfl).2.1, .inl hw⟩) ?_,
      hW.move rfl rfl (wake_none hI ha) (by intros; contradiction) ?_⟩
    · rintro _ j ⟨⟩ - q -
      exact hF.passed p i (by rw [ha.pc]; rfl) q (Nat.lt_of_lt_of_le q.isLt (Nat.le_of_not_lt hi))
    · rintro _ r ⟨⟩ - hr
      exact ⟨congrArg (Option.map Chan.proc) hr, Nat.zero_le _⟩
  | @exitLast p status ha hf =>
    have hw : (s.th (some p)).waits = true := by rw [Th.waits, ha.pc]; rfl
    have hst := ha.running hI
    have hno : ∀ a, (s.proc a).parent ≠ some p := fun a => hF.passed p NPROC (by rw [ha.pc]; rfl) a a.isLt
    refine ⟨hF.act rfl rfl rfl (.inr (.inl ⟨rfl, fun _ => by simp [hst]⟩)) ?_ (by intros; contradiction) (fun _ => .inr hno)
        (by intros; contradiction),
      hW.act hF rfl rfl (wake_none hI ha) (.inl hw) rfl rfl ?_ ?_⟩
    · intro b hb
      rw [ha.pc] at hb
      cases hb
    · intro r hr hpar _
      have hrp : r ≠ p := by
        rintro rfl
        simp [Asleep, Sys.setTh, Sys.setProc] at hr
      have hr' : s.Asleep r := by simpa [Asleep, Sys.setTh, Sys.setProc, hrp] using hr
      exact absurd (hW.last p r (by rw [ha.pc]; rfl) hpar hr') (Th.not_wakes (wake_none hI ha) r)
    · intro r a hr haq _ _
      have hrp : r ≠ p := by
        rintro rfl
        simp [Asleep, Sys.setTh, Sys.setProc] at hr
      simpa [Asleep, Sys.setTh, Sys.setProc, hrp] using hr
  | @waitLock p addr ha hf =>
    refine ⟨hF.move rfl rfl rfl (by rw [ha.pc]; rfl) (fun _ => ⟨(ha.run p rfl).2.1, .inr hf⟩) (by intros; contradiction),
      hW.move rfl rfl (wake_none hI ha) ?_ (by intros; contradiction)⟩
    rintro _ j ⟨⟩ hj q hq
    obtain rfl : 0 = j := Option.some.inj hj
    cases hq
  | @scanOther p addr i hk ha hi hp =>
    have hw : (s.th (some p)).waits = true := by rw [Th.waits, ha.pc]; rfl
    refine ⟨hF.move rfl rfl rfl (by rw [ha.pc]; rfl) (fun _ => ⟨(ha.run p rfl).2.1, .inl hw⟩) (by intros; contradiction),
      hW.move rfl rfl (wake_none hI ha) ?_ (by intros; contradiction)⟩
    rintro _ j ⟨⟩ hj q hq hpar
    obtain rfl : i + 1 = j := Option.some.inj hj
    rcases Nat.lt_succ_iff_lt_or_eq.1 hq with hq | hq
    · exact hW.scanned p i (by rw [ha.pc]; rfl) q hq hpar
    · have : q = ⟨i, hi⟩ := Fin.ext hq
      rw [this] at hpar
      exact absurd hpar hp
  | @scanChild p addr hk q ha hp hf hst =>
    have hw : (s.th (some p)).waits = true := by rw [Th.waits, ha.pc]; rfl
    refine ⟨hF.move rfl rfl rfl (by rw [ha.pc]; rfl) (fun _ => ⟨(ha.run p rfl).2.1, .inl hw⟩) (by intros; contradiction),
      hW.move rfl rfl (wake_none hI ha) ?_ (by intros; contradiction)⟩
    rintro _ j ⟨⟩ hj a haj hpar
    obtain rfl : q.val + 1 = j := Option.some.inj hj
    rcases Nat.lt_succ_iff_lt_or_eq.1 haj with haj | haj
    · exact hW.scanned p q.val (by rw [ha.pc]; rfl) a haj hpar
    · rw [Fin.ext haj]
      exact hst
  | @scanZombie p addr hk status q ha hp hf hst hs =>
    have hw : (s.th (some p)).waits = true := by rw [Th.waits, ha.pc]; rfl
    refine ⟨hF.act rfl rfl rfl (.inl ⟨rfl, rfl⟩) ?_ (fun _ => ⟨(ha.run p rfl).2.1, hw⟩) ?_ (by intros; contradiction),
      hW.reset rfl rfl (wake_none hI ha) ⟨rfl, rfl⟩ rfl rfl⟩
    · intro b hb
      rw [ha.pc] at hb
      cases hb
    · intro hl
      rw [hst] at hl
      cases hl
  | @scanEnd p addr i ha hi =>
    have hw : (s.th (some p)).waits = true := by rw [Th.waits, ha.pc]; rfl
    refine ⟨hF.move rfl rfl rfl (by rw [ha.pc]; rfl) (fun _ => ⟨(ha.run p rfl).2.1, .inl hw⟩) (by intros; contradiction),
      hW.move rfl rfl (wake_none hI ha) ?_ (by intros; contradiction)⟩
    rintro _ j ⟨⟩ - q -
    exact hW.scanned p i (by rw [ha.pc]; rfl) q (Nat.lt_of_lt_of_le q.isLt (Nat.le_of_not_lt hi))
  | @waitAlive p addr ha hf hk =>
    have hw : (s.th (some p)).waits = true := by rw [Th.waits, ha.pc]; rfl
    refine ⟨hF.move rfl rfl rfl (by rw [ha.pc]; rfl) (fun _ => ⟨(ha.run p rfl).2.1, .inl hw⟩) (by intros; contradiction),
      hW.move rfl rfl (wake_none hI ha) ?_ (by intros; contradiction)⟩
    rintro _ j ⟨⟩ hj
    exact hW.scanned p j (by rw [ha.pc]; exact hj)
  | scanNone ha hi =>
    exact ⟨hF.move rfl rfl rfl (by rw [ha.pc]; rfl) (by intros; contradiction) (by intros; contradiction),
      hW.move rfl rfl (wake_none hI ha) (by intros; contradiction) (by intros; contradiction)⟩
  | waitKilled ha hf hk =>
    exact ⟨hF.move rfl rfl rfl (by rw [ha.pc]; rfl) (by intros; contradiction) (by intros; contradiction),
      hW.move rfl rfl (wake_none hI ha) (by intros; contradiction) (by intros; contradiction)⟩
  | failWait ha hp hf hst =>
    exact ⟨hF.move rfl rfl rfl (by rw [ha.pc]; rfl) (by intros; contradiction) (by intros; contradiction),
      hW.move rfl rfl (wake_none hI ha) (by intros; contradiction) (by intros; contradiction)⟩
  | exitCount ha hc =>
    refine keeps (keeps_at hI ha rfl rfl rfl ?_ rfl)
    dsimp only
    split <;> rfl
  | freeprocUnlist ha hc =>
    refine keeps (keeps_at hI ha rfl rfl rfl ?_ rfl)
    dsimp only
    split <;> rfl
  | @freeprocUnlink p q w ha =>
    cases w with
    | none => exact keeps (keeps_update hI ha rfl rfl rfl rfl (.inl rfl) rfl id id id id)
    | some pid =>
      have hw : (s.th (some p)).waits = true := by rw [Th.waits, ha.pc]; rfl
      refine ⟨hF.act rfl rfl rfl (.inr (.inl ⟨rfl, id⟩)) ?_ (by intros; contradiction) .inl (by intros; contradiction),
        hW.act hF rfl rfl (wake_none hI ha) (.inl hw) rfl rfl ?_ ?_⟩
      · intro b hb
        rw [ha.pc] at hb
        cases hb
      · intro r _ _ hz
        have hz' : (s.proc q).state = .zombie := hz
        rw [unused_of_leaving hI (t := some p) (by rw [ha.pc]; rfl)] at hz'
        cases hz'
      · intro r a hr haq _ _
        by_cases hrq : r = q
        · subst hrq
          simpa [Asleep, Sys.ret, Sys.setTh, Sys.setProc] using hr
        · simpa [Asleep, Sys.ret, Sys.setTh, Sys.setProc, hrq] using hr
  | @failFork p c fr np ha =>
    have hnp : (s.proc np).state = .used := used_of_inv hI (t := some p) (by rw [ha.pc]; rfl)
    refine ⟨hF.act rfl rfl rfl (.inl ⟨rfl, rfl⟩) ?_ (by intros; contradiction) ?_ (by intros; contradiction),
      hW.reset rfl rfl (wake_none hI ha) ⟨rfl, rfl⟩ rfl rfl⟩
    · intro b hb
      rw [ha.pc] at hb
      exact .inr ⟨(Option.some.inj hb).symm, .inr rfl⟩
    · intro hl
      rw [hnp] at hl
      cases hl
  | killMark ha hp hf hst =>
    exact keeps (keeps_update hI ha rfl rfl rfl rfl (.inl rfl) rfl id id id id)
  | @killHit p pid q ha hp hf hst =>
    refine keeps (keeps_update (x := { s.proc q with killed := true, state := .runnable }) hI ha ?_ rfl rfl rfl (.inl rfl) rfl
      (fun _ => rfl) (by simp [hst]) (by simp) fun h => by cases h.1)
    simp [Sys.goto, Sys.setTh, Sys.setState, Sys.setProc]
  | _ =>
    have ha := ‹s.At _ _›
    exact keeps (keeps_at hI ha rfl rfl rfl rfl rfl)

/-! ### The status of `exit` -/

/-- The argument of the `exit` in progress. -/
def Pc.exitStatus : Pc L → Option Int
  | exitCount st | exitIput st | exitLock st | reparent st _ | exitLast st => some st
  | _ => none

/-- The argument of the last `exit` of a slot. -/
def lastExit (q : Slot) : List (Ev L) → Option Int
  | [] => none
  | .call p (.exit st) :: tr => if p = q then some st else lastExit q tr
  | _ :: tr => lastExit q tr

omit [DecidableEq L] in
theorem lastExit_cons {q : Slot} {e : Ev L} (h : ∀ st, e ≠ .call q (.exit st)) (tr : List (Ev L)) :
    lastExit q (e :: tr) = lastExit q tr := by
  cases e with
  | call p x =>
    cases x with
    | exit st =>
      have hp : p ≠ q := by
        rintro rfl
        exact h st rfl
      simp [lastExit, hp]
    | _ => rfl
  | _ => rfl

theorem Sect.callExit_inv {q : Slot} {st : Int} (hs : Sect s (.call q (.exit st)) s') :
    s.At (some q) .run ∧ s' = s.goto (some q) (.exitCount st) := by
  cases hs with
  | callExit ha hi hl => exact ⟨ha, rfl⟩
  | sleep ha hf hpc => obtain ⟨-, -, n, -, h⟩ | ⟨h, -⟩ := hpc <;> cases h

omit [DecidableEq L] in
private theorem exitStatus_setTh {t : Thread} {x : Th L} {st : Int}
    (h : x.pc.exitStatus = some st → (s.th t).pc.exitStatus = some st) (u : Thread)
    (hu : (update s.th t x u).pc.exitStatus = some st) : (s.th u).pc.exitStatus = some st := by
  by_cases hut : u = t
  · subst hut
    rw [Function.update_self] at hu
    exact h hu
  · rwa [Function.update_of_ne hut] at hu

/-- A process gets into `exit` by the call, and keeps its argument. -/
theorem Sect.exitStatus (hs : Sect s e s') {q : Slot} {st : Int} (h : (s'.th (some q)).pc.exitStatus = some st) :
    (s.th (some q)).pc.exitStatus = some st ∨ e = .call q (.exit st) := by
  cases hs with
  | @callExit p status ha hi hl =>
    by_cases hp : q = p
    · subst hp
      have h' := (congrArg (fun x : Th L => x.pc.exitStatus) (Function.update_self (some q) _ s.th)).symm.trans h
      exact .inr (by rw [Option.some.inj h'])
    · have hne : (some q : Thread) ≠ some p := by simpa using hp
      exact .inl ((congrArg (fun x : Th L => x.pc.exitStatus) (Function.update_of_ne hne _ s.th)).symm.trans h)
  | @allocprocInit t c fr np ha =>
    refine .inl (exitStatus_setTh (x := forkret) (t := some np) (fun h => by cases h) (some q) ?_)
    exact exitStatus_setTh (s := s.setTh (some np) forkret) (t := t) (fun h => by cases h) (some q) h
  | exitCount ha hc =>
    refine .inl (exitStatus_setTh ?_ (some q) h)
    rw [ha.pc]
    dsimp only
    split <;> exact id
  | exitIput ha hc hi => exact .inl (exitStatus_setTh (by rw [ha.pc]; exact id) (some q) h)
  | exitLock ha hf => exact .inl (exitStatus_setTh (by rw [ha.pc]; exact id) (some q) h)
  | reparentMiss ha hi _ => exact .inl (exitStatus_setTh (by rw [ha.pc]; exact id) (some q) h)
  | reparentHit ha hq => exact .inl (exitStatus_setTh (by rw [ha.pc]; exact id) (some q) h)
  | reparentEnd ha hi => exact .inl (exitStatus_setTh (by rw [ha.pc]; exact id) (some q) h)
  | sleep ha hf hpc =>
    refine .inl (exitStatus_setTh ?_ (some q) h)
    obtain ⟨rfl, rfl, -⟩ | ⟨-, ⟨addr, rfl, -, rfl⟩ | ⟨l, rfl, -, rfl, -⟩⟩ := hpc <;> intro h <;> cases h
  | freeprocUnlist ha hc =>
    refine .inl (exitStatus_setTh ?_ (some q) h)
    dsimp only
    split <;> intro h <;> cases h
  | schedulerPop hk hl => exact .inl h
  | _ => first
    | exact .inl (exitStatus_setTh (by exact id) (some q) h)
    | exact .inl (exitStatus_setTh (fun h => by cases h) (some q) h)

/-! ### Zombies -/

/-- The zombies of `s` and `s'` are the same, with the same status. -/
def Sys.SameZombies (s s' : Sys L) : Prop :=
  ∀ q, ((s'.proc q).state = .zombie ↔ (s.proc q).state = .zombie) ∧
    ((s.proc q).state = .zombie → (s'.proc q).xstate = (s.proc q).xstate)

omit [DecidableEq L] in
private theorem same_of_proc (hp : s'.proc = s.proc) : s.SameZombies s' := by
  intro q
  rw [hp]
  exact ⟨.rfl, fun _ => rfl⟩

omit [DecidableEq L] in
private theorem same_of_update {a : Slot} {x : Proc L} (hp : s'.proc = update s.proc a x)
    (h : x.state = .zombie ↔ (s.proc a).state = .zombie) (hx : (s.proc a).state = .zombie → x.xstate = (s.proc a).xstate) :
    s.SameZombies s' := by
  intro q
  rw [hp]
  by_cases hq : q = a
  · subst hq
    rw [Function.update_self]
    exact ⟨h, hx⟩
  · rw [Function.update_of_ne hq]
    exact ⟨.rfl, fun _ => rfl⟩

/-- A process becomes a zombie at the end of `exit`, and is freed by a `wait` of its parent. -/
theorem Sect.zombies (hI : s.view.Inv T) (hs : Sect s e s') : s.SameZombies s' ∨
    (∃ p st, e = .next (some p) ∧ s.At (some p) (.exitLast st) ∧
      s'.proc = update s.proc p { s.proc p with xstate := st, state := .zombie }) ∨
    ∃ p q addr hk, e = .next (some p) ∧ s.At (some p) (.scan addr q.val hk) ∧ (s.proc q).parent = some p ∧
      (s.proc q).state = .zombie ∧ s' = (s.freeprocReset q).setTh (some p) { s.th (some p) with
        pc := .freed q (some (s.proc q).pid), status := if addr ≠ 0 then some (s.proc q).xstate else none } := by
  cases hs with
  | schedulerRun hk hf hst hch => exact .inl (same_of_update rfl (by simp [hst]) fun _ => rfl)
  | yield hon hi hf => exact .inl (same_of_update rfl (by simp [running_of_inv hI hon hi.1]) fun _ => rfl)
  | wakeupHit hw hne hf hst hch => exact .inl (same_of_update rfl (by simp [hst]) fun _ => rfl)
  | sleep ha hf hpc => exact .inl (same_of_update rfl (by simp [ha.running hI]) fun _ => rfl)
  | @allocprocInit t c fr np ha =>
    have hst : (s.proc np).state = .unused := by
      refine (hI.elem.state np).trans ?_
      rw [(hI.locked_out ha.view).1]
      rfl
    exact .inl (same_of_update rfl (by simp [hst]) fun _ => rfl)
  | @userinit c fr np ha =>
    have hst := used_of_inv hI (t := none) (q := np) (by rw [ha.pc]; rfl)
    exact .inl (same_of_update rfl (by simp [hst]) fun _ => rfl)
  | forkParent ha hf => exact .inl (same_of_update rfl .rfl fun _ => rfl)
  | @forkRunnable p c fr np ha hf =>
    have hst := used_of_inv hI (t := some p) (q := np) (by rw [ha.pc]; rfl)
    exact .inl (same_of_update rfl (by simp [hst]) fun _ => rfl)
  | reparentHit ha hp => exact .inl (same_of_update rfl .rfl fun _ => rfl)
  | exitLast ha hf => exact .inr (.inl ⟨_, _, rfl, ha, rfl⟩)
  | scanZombie ha hp hf hst hs => exact .inr (.inr ⟨_, _, _, _, rfl, ha, hp, hst, by rw [hs]⟩)
  | freeprocUnlink ha => exact .inl (same_of_update rfl .rfl fun _ => rfl)
  | killMark ha hp hf hst => exact .inl (same_of_update rfl .rfl fun _ => rfl)
  | @killHit p pid q ha hp hf hst =>
    refine .inl (same_of_update (a := q) (x := { s.proc q with killed := true, state := .runnable }) ?_ (by simp [hst])
      fun _ => rfl)
    simp [Sys.goto, Sys.setTh, Sys.setState, Sys.setProc]
  | @failFork p c fr np ha =>
    have hst := used_of_inv hI (t := some p) (q := np) (by rw [ha.pc]; rfl)
    exact .inl (same_of_update rfl (by simp [hst]) fun _ => by simp_all)
  | _ => exact .inl (same_of_proc rfl)

/-- The status of a zombie, and of a process in `exit`, is the argument of its last `exit`. -/
structure Sys.Exits (s : Sys L) (tr : List (Ev L)) : Prop where
  status : ∀ q st, (s.th (some q)).pc.exitStatus = some st → lastExit q tr = some st
  zombie : ∀ q, (s.proc q).state = .zombie → lastExit q tr = some (s.proc q).xstate

theorem Sys.Exits.sect {tr : List (Ev L)} (h : s.Exits tr) (hI : s.view.Inv T) (hs : Sect s e s') : s'.Exits (e :: tr) := by
  constructor
  · intro q st hq
    by_cases he : ∃ st', e = .call q (.exit st')
    · obtain ⟨st', rfl⟩ := he
      obtain ⟨-, rfl⟩ := hs.callExit_inv
      simp only [Sys.goto, Sys.setTh, Function.update_self, Pc.exitStatus, Option.some.injEq] at hq
      simp [lastExit, hq]
    · rw [lastExit_cons (fun st' h' => he ⟨st', h'⟩)]
      rcases hs.exitStatus hq with hq | hq
      · exact h.status q st hq
      · exact absurd ⟨st, hq⟩ he
  · intro q hq
    have hne : ∀ st', e ≠ .call q (.exit st') := by
      rintro st' rfl
      obtain ⟨ha, rfl⟩ := hs.callExit_inv
      have hq' : (s.proc q).state = .zombie := hq
      rw [ha.running hI] at hq'
      cases hq'
    rw [lastExit_cons hne]
    rcases hs.zombies hI with hsame | ⟨p, st, -, ha, hp⟩ | ⟨p, a, addr, hk, -, ha, -, -, rfl⟩
    · have hold := (hsame q).1.1 hq
      rw [(hsame q).2 hold]
      exact h.zombie q hold
    · rw [hp] at hq ⊢
      by_cases hqp : q = p
      · subst hqp
        rw [Function.update_self]
        exact h.status q st (by rw [ha.pc]; rfl)
      · rw [Function.update_of_ne hqp] at hq ⊢
        exact h.zombie q hq
    · by_cases hqa : q = a
      · subst hqa
        simp [Sys.setTh, Sys.freeprocReset, Sys.setProc] at hq
      · have hs : (((s.freeprocReset a).setTh (some p) { s.th (some p) with
            pc := .freed a (some (s.proc a).pid), status := if addr ≠ 0 then some (s.proc a).xstate else none }).proc q) =
            s.proc q := Function.update_of_ne hqa ..
        rw [hs] at hq ⊢
        exact h.zombie q hq

/-! ### `wait` returns -/

/-- The slot that `wait` is freeing, and the pid it will return. -/
def Pc.reaping : Pc L → Option (Slot × Int)
  | freed q w | unlisted q w | contOff q w | unlinked q w => w.map fun pid => (q, pid)
  | _ => none

/-- The `wait` goes on to free `q`, or returns the pid; what it copied out stays. -/
def Th.Reaps (x y : Th L) (r : Slot × Int) : Prop :=
  y.status = x.status ∧ (y.pc.reaping = some r ∨ y.pc = .run ∧ y.a0 = r.2)

omit [DecidableEq L] in
private theorem reaps_setTh {t : Thread} {x : Th L} {r : Slot × Int} (h : (s.th t).pc.reaping = some r → (s.th t).Reaps x r)
    (u : Thread) (hu : (s.th u).pc.reaping = some r) : (s.th u).Reaps (update s.th t x u) r := by
  by_cases hut : u = t
  · subst hut
    rw [Function.update_self]
    exact h hu
  · rw [Function.update_of_ne hut]
    exact ⟨rfl, .inl hu⟩

omit [DecidableEq L] in
private theorem reaps_at {t : Thread} {pc : Pc L} {x : Th L} {r : Slot × Int} (ha : s.At t pc)
    (h : pc.reaping = some r → x.status = (s.th t).status ∧ (x.pc.reaping = some r ∨ x.pc = .run ∧ x.a0 = r.2))
    (u : Thread) (hu : (s.th u).pc.reaping = some r) : (s.th u).Reaps (update s.th t x u) r :=
  reaps_setTh (fun ht => h (by rw [← ha.pc]; exact ht)) u hu

theorem Sect.reaps (hI : s.view.Inv T) (hs : Sect s e s') {u : Thread} {r : Slot × Int}
    (hu : (s.th u).pc.reaping = some r) : (s.th u).Reaps (s'.th u) r := by
  cases hs with
  | schedulerPop hk hl => exact ⟨rfl, .inl hu⟩
  | @allocprocInit t c fr np ha =>
    have hrole := (hI.harts.clean np (by rw [(hI.locked_out ha.view).1]; rfl)).role
    have hnp : u ≠ some np := by
      rintro rfl
      have hrole' : (s.th (some np)).pc.role = .idle := hrole
      cases hpc : (s.th (some np)).pc <;> rw [hpc] at hu hrole' <;> first | cases hu | cases hrole'
    have hut : u ≠ t := by
      rintro rfl
      rw [ha.pc] at hu
      cases hu
    have : ((((s.setCont c { s.cont c with nextpid := (s.cont c).nextpid + 1 }).setProc np
      { s.proc np with pid := asInt (s.cont c).nextpid, state := .used, contp := some c }).setTh (some np)
        forkret).goto t (.made c fr np)).th u = s.th u := by
      exact (Function.update_of_ne hut ..).trans (Function.update_of_ne hnp ..)
    rw [this]
    exact ⟨rfl, .inl hu⟩
  | freeprocUnlist ha hc =>
    refine reaps_at (s := s) ha ?_ u hu
    refine fun h => ⟨rfl, .inl ?_⟩
    dsimp only
    split <;> exact h
  | freeprocContOff ha hc => exact reaps_at (s := s) ha (by exact fun h => ⟨rfl, .inl h⟩) u hu
  | freecont ha hc => exact reaps_at (s := s) ha (by exact fun h => ⟨rfl, .inl h⟩) u hu
  | @freeprocUnlink p q w ha =>
    refine reaps_at (s := s) ha ?_ u hu
    refine fun h => ⟨rfl, .inr ⟨rfl, ?_⟩⟩
    cases w with
    | none => cases h
    | some pid =>
      cases h
      rfl
  | sleep ha hf hpc =>
    refine reaps_at (s := s) ha (fun h => ?_) u hu
    obtain ⟨rfl, rfl, -⟩ | ⟨-, ⟨addr, rfl, -, rfl⟩ | ⟨l, rfl, -, rfl, -⟩⟩ := hpc <;> cases h
  | _ => first
    | exact reaps_at (s := s) (by assumption) (fun h => by cases h) u hu
    | exact reaps_setTh (s := s) (by exact fun h => ⟨rfl, .inl h⟩) u hu

omit [DecidableEq L] in
theorem Pc.reaping_eq {pc : Pc L} {r : Slot × Int} (h : pc.reaping = some r) :
    pc = .freed r.1 (some r.2) ∨ pc = .unlisted r.1 (some r.2) ∨ pc = .contOff r.1 (some r.2) ∨
      pc = .unlinked r.1 (some r.2) := by
  have hw : ∀ {q : Slot} {w : Option Int}, (w.map fun pid => (q, pid)) = some r → q = r.1 ∧ w = some r.2 := by
    intro q w h
    cases w with
    | none => cases h
    | some pid =>
      cases h
      exact ⟨rfl, rfl⟩
  cases pc with
  | freed q w =>
    obtain ⟨rfl, rfl⟩ := hw h
    exact .inl rfl
  | unlisted q w =>
    obtain ⟨rfl, rfl⟩ := hw h
    exact .inr (.inl rfl)
  | contOff q w =>
    obtain ⟨rfl, rfl⟩ := hw h
    exact .inr (.inr (.inl rfl))
  | unlinked q w =>
    obtain ⟨rfl, rfl⟩ := hw h
    exact .inr (.inr (.inr rfl))
  | _ => cases h

/-- `freeproc` does not follow a null pointer in `wait`. -/
theorem Sys.reaping_ok [Fintype L] (hI : s.view.Inv T) (hF : s.Family) {p : Slot} {r : Slot × Int}
    (hr : (s.th (some p)).pc.reaping = some r) (msg : String) : s.step (.next (some p)) ≠ panic msg := by
  have hsw : (s.th (some p)).sw = .run := by
    refine hF.runs _ ?_
    rw [Th.waits]
    rcases Pc.reaping_eq hr with h | h | h | h <;> rw [h] <;> rfl
  have hwake : (s.th (some p)).wake = none := by
    by_contra hw
    have : (s.view.th (some p)).waking ≠ none := by simpa [Sys.view, Th.view] using hw
    have hrole : (s.th (some p)).pc.role = .idle ∨ (s.th (some p)).pc.role = .exiting := hI.harts.waking (some p) this
    rcases Pc.reaping_eq hr with h | h | h | h <;> rw [h] at hrole <;> rcases hrole with hrole | hrole <;> cases hrole
  have hsome : ∀ {c}, s.view.contp r.1 = some c → (s.proc r.1).contp ≠ none := fun hc hn => by
    have hc' : (s.proc r.1).contp = some _ := hc
    rw [hn] at hc'
    cases hc'
  intro hp
  simp only [step] at hp
  split at hp
  · simp only [nextProc, hsw, hwake] at hp
    rcases Pc.reaping_eq hr with h | h | h | h <;> rw [h] at hp <;> simp only [nextOf] at hp
    · unfold freeprocUnlist at hp
      split at hp
      · rename_i hn
        have hm := (hI.memb.freed (some p) r.1 (congrArg Pc.role h)).1
        rw [(hI.memb.out r.1).1 hn] at hm
        cases hm
      · cases hp
    · unfold freeprocContOff at hp
      split at hp
      · obtain ⟨c, hc, -⟩ := hI.links.emptied (some p) r.1 (congrArg Pc.role h)
        exact hsome hc ‹_›
      · cases hp
    · unfold Sys.freecont at hp
      split at hp
      · obtain ⟨c, hc, -⟩ := hI.conts.gone (some p) r.1 (congrArg Pc.role h)
        exact hsome hc ‹_›
      · cases hp
    · cases hp
  · cases hp

/-! ### Runs -/

omit [DecidableEq L] in
theorem procinit_family : (procinit L).Booting ∧ (procinit L).Family ∧ (procinit L).Waiting ∧ (procinit L).Exits [] := by
  have hwaits : ∀ t, ((procinit L).th t).waits = false := by
    intro t
    by_cases ht : t = none <;> simp [procinit, ht, Th.waits, Pc.waits]
  have hpc : ∀ q : Slot, ((procinit L).th (some q)).pc = .run := fun _ => rfl
  refine ⟨fun _ => rfl, ⟨?_, ?_, by intros; contradiction, ?_, ?_⟩, ⟨?_, ?_, ?_⟩, ⟨?_, by intros; contradiction⟩⟩
  · intro t u ht
    rw [hwaits] at ht
    cases ht
  · intro t ht
    rw [hwaits] at ht
    cases ht
  · exact fun q hq => absurd rfl hq
  · intro p i hp
    cases hp
  · intro p i hp
    cases hp
  · intro p q hp
    cases hp.1
  · intro x p hx
    cases hx
  · intro q st hq
    cases hq

theorem family_trace [Fintype L] {tr : List (Ev L)} (h : (procLts L).Trace tr s) :
    ∃ T, s.view.Inv T ∧ s.Booting ∧ s.Family ∧ s.Waiting ∧ s.Exits tr := by
  refine h.invariant (I := fun tr s => ∃ T, s.view.Inv T ∧ s.Booting ∧ s.Family ∧ s.Waiting ∧ s.Exits tr) ?_ ?_
  · rintro s rfl
    exact ⟨_, procinit_inv, procinit_family⟩
  · rintro tr s e s' ⟨T, hT, hB, hF, hW, hE⟩ hst
    have hsect := Sys.step_sect hst
    obtain ⟨U, hU⟩ := hT.sect hsect
    obtain ⟨hF', hW'⟩ := hF.sect hW hT hB hsect
    exact ⟨U, hU, hB.sect hsect, hF', hW', hE.sect hT hsect⟩

/-- A `wait` that sleeps has no zombie to reap, whenever `wait_lock` is free. -/
theorem wait_not_lost [Fintype L] (h : (procLts L).Reachable s) (hf : s.WaitFree) :
    ¬ ∃ p q, s.Asleep p ∧ (s.proc q).parent = some p ∧ (s.proc q).state = .zombie := by
  rintro ⟨p, q, hp, hq, hz⟩
  obtain ⟨tr, htr⟩ := h
  obtain ⟨T, -, -, -, hW, -⟩ := family_trace htr
  obtain ⟨t, ht, -⟩ := hW.zombie p q hp hq hz
  rw [hf t] at ht
  cases ht

/-- The first process makes a child. -/
def forkRun : List (Ev Unit) :=
  List.replicate 6 (.next none) ++
    [.pop ⟨0, NCPU_pos⟩ contRoot, .switch ⟨0, NCPU_pos⟩, .call ⟨0, NPROC_pos⟩ .fork] ++
    List.replicate 8 (.next (some ⟨0, NPROC_pos⟩))

/-- It waits for the child. -/
def waitRun : List (Ev Unit) :=
  forkRun ++ [.call ⟨0, NPROC_pos⟩ (.wait 0)] ++ List.replicate 68 (.next (some ⟨0, NPROC_pos⟩))

theorem wait_not_lost_waitRun : ∃ s : Sys Unit, s.WaitFree ∧
    (∃ p q, (s.proc p).state = .sleeping ∧ (s.proc p).chan = some (.proc p) ∧ (s.proc q).parent = some p) ∧
    ¬ ∃ p q, s.Asleep p ∧ (s.proc q).parent = some p ∧ (s.proc q).state = .zombie := by
  obtain ⟨s, hr, hs⟩ := Sys.reaches (C := fun _ _ => True) (fun _ _ => true) (fun _ _ _ => trivial) waitRun
    (fun s : Sys Unit => let p : Slot := ⟨0, by decide⟩; let q : Slot := ⟨1, by decide⟩
      decide (s.WaitFree ∧ (s.proc p).state = .sleeping ∧ (s.proc p).chan = some (.proc p) ∧ (s.proc q).parent = some p))
    (by decide +kernel)
  obtain ⟨hf, hp⟩ := of_decide_eq_true hs
  exact ⟨s, hf, ⟨_, _, hp⟩, wait_not_lost hr.of_guard hf⟩

/-- The new process of a `fork` that has not returned. -/
def Pc.creates : Pc L → Option Slot
  | made _ _ np | listed _ _ np | copied _ _ np | adopted _ _ np | ready _ _ np => some np
  | _ => none

/-- Every process that `fork` has made has a live parent. -/
def Sys.Parented (s : Sys L) : Prop :=
  ∀ q, (s.proc q).state ≠ .unused → s.initproc ≠ some q → (∀ t, (s.th t).pc.creates ≠ some q) →
    ∃ p, (s.proc q).parent = some p ∧ (s.proc p).state ≠ .unused ∧ (s.proc p).state ≠ .zombie

/-- What a step does to the zombies, after a run with the events `tr`. -/
structure Sys.Reaped (s : Sys L) (tr : List (Ev L)) (e : Ev L) (s' : Sys L) : Prop where
  -- a zombie is freed by the parent, which has copied out the argument of `exit` and will return the pid
  freed : ∀ q, (s.proc q).state = .zombie → (s'.proc q).state ≠ .zombie → ∃ p addr hk, e = .next (some p) ∧
    (s.th (some p)).pc = .scan addr q.val hk ∧ (s.proc q).parent = some p ∧ (s'.proc q).state = .unused ∧
    (s'.th (some p)).pc.reaping = some (q, (s.proc q).pid) ∧
    (s'.th (some p)).status = if addr ≠ 0 then lastExit q tr else none
  -- nobody else frees the slot, and the `wait` returns the pid
  alone : ∀ t u q i j, (s.th t).pc.reaping = some (q, i) → (s.th u).pc.reaping = some (q, j) → t = u
  returns : ∀ t r, (s.th t).pc.reaping = some r → (s.th t).Reaps (s'.th t) r

/-- In every run every process has a live parent while `wait_lock` is free, and every zombie is freed by one `wait` of its
parent. -/
theorem zombies_reaped [Fintype L] {tr : List (Ev L)} (h : (procLts L).Trace tr s) :
    (s.WaitFree → s.Parented) ∧ (∀ e s', s.step e = some (.ok s') → s.Reaped tr e s') ∧
      ∀ p r msg, (s.th (some p)).pc.reaping = some r → s.step (.next (some p)) ≠ panic msg := by
  obtain ⟨T, hT, -, hF, -, hE⟩ := family_trace h
  refine ⟨?_, ?_, fun p r msg hr => Sys.reaping_ok hT hF hr msg⟩
  · intro _ q hq hi hc
    have hpar : (s.proc q).parent ≠ none := by
      refine hF.child q hq hi fun t ht => hc t ?_
      cases hpc : (s.th t).pc <;> rw [hpc] at ht <;> first | exact ht | cases ht
    obtain ⟨p, hp⟩ := Option.ne_none_iff_exists'.1 hpar
    have hl := hF.living q p hp
    refine ⟨p, hp, ?_, ?_⟩ <;> intro hu <;> rw [hu] at hl <;> cases hl
  · intro e s' hst
    have hsect := Sys.step_sect hst
    refine ⟨?_, ?_, fun t r hr => hsect.reaps hT hr⟩
    · intro q hz hnz
      rcases hsect.zombies hT with hsame | ⟨p, st, -, ha, hp⟩ | ⟨p, a, addr, hk, he, ha, hpar, -, rfl⟩
      · exact absurd ((hsame q).1.2 hz) hnz
      · rw [hp] at hnz
        by_cases hqp : q = p
        · rw [hqp, Function.update_self] at hnz
          exact absurd rfl hnz
        · rw [Function.update_of_ne hqp] at hnz
          exact absurd hz hnz
      · by_cases hqa : q = a
        · subst hqa
          refine ⟨p, addr, hk, he, ha.pc, hpar, ?_, ?_, ?_⟩
          · simp [Sys.setTh, Sys.freeprocReset, Sys.setProc]
          · simp [Sys.setTh, Pc.reaping]
          · simp [Sys.setTh, hE.zombie q hz]
        · simp [Sys.setTh, Sys.freeprocReset, Sys.setProc, hqa] at hnz
          exact absurd hz hnz
    · intro t u q i j ht hu
      have hlock : ∀ t i, (s.th t).pc.reaping = some (q, i) → (s.view.th t).plock t = some q := by
        intro t i ht
        refine hT.plock_of_role ?_
        show (s.th t).pc.role.plock = some q
        rcases Pc.reaping_eq ht with h | h | h | h <;> rw [h] <;> rfl
      exact hT.harts.plock t u q (hlock t i ht) (hlock u j hu)

/-- The child exits. -/
def exitRun : List (Ev Unit) :=
  forkRun ++ [.pop ⟨1, one_lt_NCPU⟩ contRoot, .switch ⟨1, one_lt_NCPU⟩, .call ⟨1, one_lt_NPROC⟩ (.exit 7)] ++
    List.replicate 133 (.next (some ⟨1, one_lt_NPROC⟩))

/-- The next step of `p` frees `q` and copies out `status`. -/
private def frees (s : Sys Unit) (p q : Slot) (status : Int) : Bool :=
  match s.step (.next (some p)) with
  | some (.ok s') => decide ((s'.proc q).state ≠ .zombie ∧ (s'.th (some p)).status = some status)
  | _ => false

private theorem frees_eq {s : Sys Unit} {p q : Slot} {status : Int} (h : frees s p q status = true) :
    ∃ s', s.step (.next (some p)) = some (.ok s') ∧ (s'.proc q).state ≠ .zombie ∧ (s'.th (some p)).status = some status := by
  unfold frees at h
  split at h
  · exact ⟨_, ‹_›, of_decide_eq_true h⟩
  · cases h

/-- The parent waits, and is at the slot of the child. -/
def reapRun : List (Ev Unit) :=
  exitRun ++ [.next (some ⟨1, one_lt_NPROC⟩), .call ⟨0, NPROC_pos⟩ (.wait 8)] ++ List.replicate 2 (.next (some ⟨0, NPROC_pos⟩))

/-- The child is a zombie with a live parent; then the parent frees it, will return its pid and has copied out the argument of
`exit`. -/
theorem zombies_reaped_reapRun :
    (∃ s : Sys Unit, s.WaitFree ∧ (s.proc ⟨1, by decide⟩).state = .zombie ∧ s.Parented) ∧
    ∃ (s s' : Sys Unit) (tr : List (Ev Unit)) (p q : Slot), (procLts Unit).Trace tr s ∧
      s.step (.next (some p)) = some (.ok s') ∧ (s.proc q).state = .zombie ∧ (s.proc q).parent = some p ∧
      (s'.proc q).state = .unused ∧ (s'.th (some p)).pc.reaping = some (q, 2) ∧ (s'.th (some p)).status = some 7 ∧
      lastExit q tr = some 7 := by
  constructor
  · obtain ⟨s, hr, hs⟩ := Sys.reaches (C := fun _ _ => True) (fun _ _ => true) (fun _ _ _ => trivial) exitRun
      (fun s : Sys Unit => decide (s.WaitFree ∧ (s.proc ⟨1, by decide⟩).state = .zombie)) (by decide +kernel)
    obtain ⟨hf, hz⟩ := of_decide_eq_true hs
    obtain ⟨tr, htr⟩ := hr.of_guard
    exact ⟨s, hf, hz, (zombies_reaped htr).1 hf⟩
  · let p : Slot := ⟨0, by decide⟩
    let q : Slot := ⟨1, by decide⟩
    obtain ⟨s, hr, hs⟩ := Sys.reaches (C := fun _ _ => True) (fun _ _ => true) (fun _ _ _ => trivial) reapRun
      (fun s : Sys Unit => decide ((s.proc q).state = .zombie ∧ (s.proc q).pid = 2) && frees s p q 7) (by decide +kernel)
    obtain ⟨hz, hf⟩ := Bool.and_eq_true_iff.1 hs
    obtain ⟨hz, hpid⟩ := of_decide_eq_true hz
    obtain ⟨s', hstep, hnz, hst⟩ := frees_eq hf
    obtain ⟨tr, htr⟩ := hr.of_guard
    obtain ⟨p', addr, hk, he, -, hpar, hun, hreap, hstatus⟩ := ((zombies_reaped htr).2.1 _ _ hstep).freed q hz hnz
    obtain rfl : p = p' := by simpa using he
    rw [hst] at hstatus
    refine ⟨s, s', tr, p, q, htr, hstep, hz, hpar, hun, hpid ▸ hreap, hst, ?_⟩
    split at hstatus
    · exact hstatus.symm
    · cases hstatus

end Xv6
