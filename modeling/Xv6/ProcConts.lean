import Xv6.ProcInv

/-!
# The moves of `proc_list`s and containers
-/

namespace Xv6

open Function (update)

namespace Role

variable {r : Role} {q : Slot}

theorem plock_of_leaving (h : r.attHand .leaving = some q) : r.plock = some q := by
  cases r <;> simp_all [attHand, plock]

theorem eq_made (h : r.attHand .entering = some q) : ∃ c fr, r = .made c fr q := by
  cases r <;> simp_all [attHand]

theorem made_of_entering (h : r.attHand .entering = some q) : r.hand .made = some q := by
  cases r <;> simp_all [attHand, hand]

theorem hand_of_target (h : r.target = some q) : r.hand .made = some q ∨ r.hand .start = some q := by
  cases r <;> simp_all [target, hand]

end Role

theorem Place.not_alive {b : Place} (h : b.vacant) : b.alive = false := by
  cases b with
  | hand k _ => cases k <;> first | rfl | cases h
  | _ => first | rfl | cases h

theorem Place.unused_iff (b : Place) : b.state = .unused ↔ b.vacant := by
  cases b with
  | hand k _ => cases k <;> simp [state, vacant]
  | _ => simp [state, vacant]

namespace View

variable {v w : View} {T U : Table} {t : Thread} {x : ThView} {p q np : Slot} {b : Place} {c : ContId} {fr : Bool}
  {r r' : Role}

/-! ### Who holds the lock of a slot -/

theorem Inv.plock_of_role (h : v.Inv T) (hr : (v.th t).role.plock = some q) : (v.th t).plock t = some q := by
  have hwk : (v.th t).waking = none := by
    by_contra hne
    rcases h.harts.waking t hne with hi | hi <;> rw [hi] at hr <;> cases hr
  have hin : (v.th t).inner = some q := by simp [ThView.inner, hwk, hr]
  have hsw : (v.th t).sw = .run := by
    by_contra hne
    rw [h.harts.inner t hne] at hin
    cases hin
  simp [ThView.plock, hsw, hin]

theorem Inv.holder_unique (h : v.Inv T) {u : Thread} (ht : (v.th t).role.plock = some q)
    (hu : (v.th u).role.plock = some q) : u = t :=
  h.harts.plock u t q (h.plock_of_role hu) (h.plock_of_role ht)

/-- A slot that `t` has locked to make a process of it has no container. -/
theorem Inv.locked_out (h : v.Inv T) (ha : v.At t (.locked c fr np)) : T.place np = .hand .taken t ∧ T.att np = .out := by
  have hpl : T.place np = .hand .taken t := h.place_of_hand ha (k := .taken) rfl
  have hlock : (v.th t).role.plock = some np := by rw [ha.role]; rfl
  refine ⟨hpl, ?_⟩
  rcases h.memb.vacant np (by rw [hpl]; rfl) with ho | ⟨u, hu⟩ | ⟨-, u, hu⟩
  · exact ho
  · have hr : (v.th u).role.attHand .leaving = some np := (h.memb.hand u .leaving np).2 hu
    have : u = t := h.holder_unique hlock (Role.plock_of_leaving hr)
    rw [this, ha.role] at hr
    cases hr
  · have : u = t := h.holder_unique hlock (by rw [hu]; rfl)
    rw [this, ha.role] at hu
    cases hu

/-- A slot without a process has a thread that does nothing. -/
theorem Inv.vacant_idle (h : v.Inv T) (hq : (T.place q).vacant) : (v.th (some q)).role = .idle :=
  (h.harts.clean q (Place.not_alive hq)).role

/-- A process that a thread has attached in a `fork` is in the hand of that thread. -/
theorem Inv.target_place (h : v.Inv T) (ht : (v.th t).role.target = some q) :
    T.place q = .hand .made t ∨ T.place q = .hand .start t :=
  (Role.hand_of_target ht).imp (h.elem.hand t .made q).1 (h.elem.hand t .start q).1

/-- A process that no `allocproc` is about to put on a `proc_list` is on one. -/
theorem Inv.member (h : v.Inv T) (hv : (T.place q).vacant = false)
    (he : ∀ u, (v.th u).role.attHand .entering = some q → T.place q ≠ .hand .made u) : T.att q = .member := by
  have hi := h.memb.inside q hv
  cases ha : T.att q with
  | member => rfl
  | out =>
    rw [ha] at hi
    cases hi
  | hand k u =>
    cases k with
    | leaving =>
      rw [ha] at hi
      cases hi
    | entering =>
      have hr : (v.th u).role.attHand .entering = some q := (h.memb.hand u .entering q).2 ha
      exact absurd ((h.elem.hand u .made q).1 (Role.made_of_entering hr)) (he u hr)

/-! ### `freeproc` begins -/

theorem Memb.free (h : v.Memb T) (hth : w.th = update v.th t x) (ho : ∀ k, (v.th t).role.attHand k = none)
    (hof : ∀ a, (v.th t).role ≠ .freed a) (hx : x.role = .freed q) (hT : U.att = T.att)
    (hp : U.place = update T.place q .free) (hq : T.att q = .member) (hv : (T.place q).vacant = false)
    (hc : w.contp = v.contp) (hl : w.procList = v.procList) : w.Memb U := by
  have hfreed : ∀ u a, (w.th u).role = .freed a ↔ u = t ∧ a = q ∨ (v.th u).role = .freed a := by
    intro u a
    rcases th_cases hth u with ⟨rfl, hu⟩ | ⟨hne, hu⟩
    · simp [hu, hx, hof, eq_comm]
    · simp [hu, hne]
  refine ⟨?_, ?_, ?_, ?_, ?_, ?_⟩
  · rw [hT, hc]
    exact h.out
  · rw [hT, hc, hl]
    exact h.proc
  · rw [hT, role_update Role.attHand hth]
    refine h.hand.same fun k => ?_
    rw [hx, ho]
    cases k <;> rfl
  · intro a ha
    simp only [hT, hfreed]
    by_cases haq : a = q
    · subst haq
      exact .inr (.inr ⟨hq, t, .inl ⟨rfl, rfl⟩⟩)
    · rw [hp, Function.update_of_ne haq] at ha
      rcases h.vacant a ha with h1 | h1 | ⟨h1, u, hu⟩
      · exact .inl h1
      · exact .inr (.inl h1)
      · exact .inr (.inr ⟨h1, u, .inr hu⟩)
  · intro u a hu
    rw [hfreed] at hu
    rw [hT, hp]
    rcases hu with ⟨-, rfl⟩ | hu
    · exact ⟨hq, by rw [Function.update_self]; rfl⟩
    · obtain ⟨h1, h2⟩ := h.freed u a hu
      have haq : a ≠ q := by
        rintro rfl
        rw [hv] at h2
        cases h2
      exact ⟨h1, by rwa [Function.update_of_ne haq]⟩
  · intro a ha
    rw [hT]
    by_cases haq : a = q
    · subst haq
      rw [hq]
      rfl
    · rw [hp, Function.update_of_ne haq] at ha
      exact h.inside a ha

/-- `p` frees `q`, which does not run any more. -/
private theorem Inv.free (h : v.Inv T) (ha : v.At (some p) r)
    (hr : r = .idle ∧ T.place q = .zombie ∧ v.PFree q ∨ ∃ c fr, r = .listed c fr q ∧ T.place q = .hand .made (some p))
    (hatt : T.att q = .member) (hi : v.initproc ≠ some q)
    (hoff : (∀ k, v.cpu k ≠ .running q) ∧ (v.th (some q)).Clean) :
    ({ v.setState q .unused with unused := v.unused ++ [q] }.goto (some p) (.freed q)).Inv
      { T with place := update T.place q .free } := by
  have hplace : T.place q = .zombie ∨ T.place q = .hand .made (some p) := by
    rcases hr with ⟨-, hq, -⟩ | ⟨_, _, -, hq⟩
    · exact .inl hq
    · exact .inr hq
  have hnr : T.place q ≠ .running := by rcases hplace with hq | hq <;> simp [hq]
  have hpass : v.Passes T (some p) { v.th (some p) with role := .freed q } q .free := by
    refine .goto h ha ?_ (by simp) (by simp) ?_
    · rcases hplace with hq | hq <;> simp [hq]
    · intro k
      rcases hr with ⟨rfl, -⟩ | ⟨_, _, rfl, -⟩ <;> cases k <;> simp [Role.hand]
  refine ⟨h.elem.move rfl rfl hpass (h.elem.unused.push ?_) rfl (fun _ _ => rfl) ?_ (by simp) rfl ?_ (by simp) rfl,
    h.memb.free (q := q) rfl ?_ ?_ rfl rfl rfl hatt ?_ rfl rfl, h.conts.same rfl ?_ ?_ rfl rfl rfl rfl rfl fun _ _ _ => rfl,
    h.links.same rfl (.inl rfl) (by simp) (fun _ => ⟨rfl, id⟩) (fun _ => id) rfl,
    h.init.move (q := q) (b := .free) rfl ⟨by simp, by simp⟩ rfl (fun _ _ => ⟨rfl, rfl⟩) rfl rfl (fun hq => absurd hq hi)
      fun _ => .inl rfl,
    h.harts.step rfl (.goto h ha ?_ (h.still ha rfl hnr)) (fun _ _ => id) fun a _ => ?_⟩
  · rcases hplace with hq | hq <;> simp [hq]
  · rcases hplace with hq | hq <;> simp [hq]
  · rcases hplace with hq | hq <;> simp [hq]
  · rw [ha.role]
    rcases hr with ⟨rfl, -⟩ | ⟨_, _, rfl, -⟩ <;> intro k <;> cases k <;> rfl
  · rw [ha.role]
    rcases hr with ⟨rfl, -⟩ | ⟨_, _, rfl, -⟩ <;> simp
  · rcases hplace with hq | hq <;> rw [hq] <;> rfl
  · rw [ha.role]
    rcases hr with ⟨rfl, -⟩ | ⟨_, _, rfl, -⟩ <;> rfl
  · rw [ha.role]
    rcases hr with ⟨rfl, -⟩ | ⟨_, _, rfl, -⟩ <;> simp
  · rcases hr with ⟨-, -, hf⟩ | ⟨_, _, rfl, -⟩
    · exact .inr (.inr ⟨q, rfl, hf⟩)
    · exact .inr (.inl rfl)
  · by_cases haq : a = q
    · subst haq
      exact .inr ⟨hnr, by simp, .inr hoff⟩
    · exact .inl (Function.update_of_ne haq ..)

theorem Inv.scanZombie (h : v.Inv T) (ha : v.At (some p) .idle) (hf : v.PFree q) (hst : v.state q = .zombie) :
    ({ v.setState q .unused with unused := v.unused ++ [q] }.goto (some p) (.freed q)).Inv
      { T with place := update T.place q .free } := by
  have hz : T.place q = .zombie := place_of_state h (.inr (.inl rfl)) hst
  obtain ⟨hr, hwk, hrun, hpush⟩ := h.harts.zombie q hz
  -- the zombie has been switched out: otherwise it would hold its own lock
  have hsw : ∃ m, (v.th (some q)).sw = .off m := by
    have hfq := hf (some q)
    cases hsw : (v.th (some q)).sw with
    | run => exact absurd hsw hrun
    | push => exact absurd hsw hpush
    | sched m => simp [ThView.plock, hsw] at hfq
    | off m => exact ⟨m, rfl⟩
  obtain ⟨m, hm⟩ := hsw
  refine h.free ha (.inl ⟨rfl, hz, hf⟩) (h.member ?_ ?_) ?_ ⟨?_, hr, hwk, ⟨m, hm⟩, h.harts.kept _ m hm⟩
  · rw [hz]
    rfl
  · simp [hz]
  · exact fun hi => (h.init.init q hi).2.2.2 hz
  · exact fun k hk => (h.harts.onCpu k q hk).1 m hm

theorem Inv.listed_member (h : v.Inv T) (ha : v.At t (.listed c fr np)) :
    T.place np = .hand .made t ∧ T.att np = .member := by
  have hpl : T.place np = .hand .made t := h.place_of_hand ha (k := .made) rfl
  refine ⟨hpl, h.member (by rw [hpl]; rfl) ?_⟩
  intro u hr hu
  rw [hpl] at hu
  cases hu
  rw [ha.role] at hr
  cases hr

theorem Inv.failFork (h : v.Inv T) (ha : v.At (some p) (.listed c fr np)) :
    ({ v.setState np .unused with unused := v.unused ++ [np] }.goto (some p) (.freed np)).Inv
      { T with place := update T.place np .free } := by
  obtain ⟨hpl, hatt⟩ := h.listed_member ha
  have hna : (T.place np).alive = false := by rw [hpl]; rfl
  refine h.free ha (.inr ⟨c, fr, rfl, hpl⟩) hatt ?_ ⟨h.not_onCpu hna, h.harts.clean np hna⟩
  intro hi
  have := (h.init.init np hi).2.2.1
  rw [hna] at this
  cases this

/-! ### Moves of one `elem_c` -/

/-- The `elem_c` of `q` comes out of the hands of `t` or goes into them. -/
theorem Memb.move {m : Att} (h : v.Memb T) (hth : w.th = update v.th t x) (hatt : U.att = update T.att q m)
    (hfrom : ∀ k u, T.att q = .hand k u → u = t) (hto : ∀ k u, m = .hand k u → u = t)
    (hempty : ∀ k, m = .hand k t → (v.th t).role.attHand k = none ∨ (v.th t).role.attHand k = some q)
    (hhand : ∀ k, x.role.attHand k = if m = .hand k t then some q else if (v.th t).role.attHand k = some q then none
      else (v.th t).role.attHand k)
    (hc : ∀ a, a ≠ q → w.contp a = v.contp a) (hcq : w.contp q = none ↔ m = .out)
    (hproc : ∀ d, OnList (w.procList d) (fun a => (update T.att q m a, w.contp a)) (.member, some d))
    (hp : ∀ a, a ≠ q → (U.place a).vacant = (T.place a).vacant)
    (hpv : (U.place q).vacant → m = .out ∨ ∃ u, m = .hand .leaving u) (hpi : (U.place q).vacant = false → m.inside)
    (hnew : ∀ a, x.role ≠ .freed a) (hold : ∀ u a, (v.th u).role = .freed a → (u = t ↔ a = q)) : w.Memb U := by
  have hfreed : ∀ u a, a ≠ q → ((w.th u).role = .freed a ↔ (v.th u).role = .freed a) := by
    intro u a ha
    rcases th_cases hth u with ⟨rfl, hu⟩ | ⟨-, hu⟩
    · rw [hu]
      exact ⟨fun hx => absurd hx (hnew a), fun hv => absurd ((hold u a hv).1 rfl) ha⟩
    · rw [hu]
  refine ⟨?_, ?_, ?_, ?_, ?_, ?_⟩
  · intro a
    rw [hatt]
    by_cases ha : a = q
    · subst ha
      rw [Function.update_self]
      exact hcq
    · rw [Function.update_of_ne ha, hc a ha]
      exact h.out a
  · rw [hatt]
    exact hproc
  · rw [hatt, role_update Role.attHand hth]
    exact h.hand.move hfrom hto hempty hhand
  · intro a hv
    rw [hatt]
    by_cases ha : a = q
    · subst ha
      rw [Function.update_self]
      exact (hpv hv).imp_right .inl
    · rw [Function.update_of_ne ha]
      rw [hp a ha] at hv
      simp only [hfreed _ a ha]
      exact h.vacant a hv
  · intro u a hu
    have ha : a ≠ q := by
      rintro rfl
      rcases th_cases hth u with ⟨-, hw⟩ | ⟨hne, hw⟩ <;> rw [hw] at hu
      · exact hnew _ hu
      · exact hne ((hold u _ hu).2 rfl)
    rw [hatt, Function.update_of_ne ha, hp a ha]
    exact h.freed u a ((hfreed u a ha).1 hu)
  · intro a hv
    rw [hatt]
    by_cases ha : a = q
    · subst ha
      rw [Function.update_self]
      exact hpi hv
    · rw [Function.update_of_ne ha]
      rw [hp a ha] at hv
      exact h.inside a hv

/-! ### The first process -/

theorem Inv.userinit (h : v.Inv T) (ha : v.At none (.listed c fr np)) :
    (({ v with initproc := some np }.setState np .runnable).goto none (.ready c fr np)).Inv
      { T with place := update T.place np (.hand .start none) } := by
  obtain ⟨hpl, hatt⟩ := h.listed_member ha
  have hinto : (v.th none).role.into = some (c, fr) := by rw [ha.role]; rfl
  obtain ⟨rfl, -⟩ := h.init.boot c fr hinto
  have hcp : v.contp np = some contRoot := h.links.target none _ fr np hinto (by rw [ha.role]; rfl)
  have hclean := h.harts.clean np (by rw [hpl]; rfl)
  have hpass : v.Passes T none { v.th none with role := .ready contRoot fr np } np (.hand .start none) := by
    refine .goto h ha ?_ ?_ ?_ ?_
    · simp [hpl]
    · simp
    · exact fun k hk => .inl (by cases hk; rfl)
    · intro k
      cases k <;> simp [Role.hand]
  have hlike : RoleLike (v.th none).role (.ready contRoot fr np) := by
    rw [ha.role]
    exact ⟨rfl, by simp, rfl, by simp, .inr ⟨rfl, rfl⟩, by simp⟩
  have hth : (({ v with initproc := some np }.setState np .runnable).goto none (.ready contRoot fr np)).th =
      update v.th none { v.th none with role := .ready contRoot fr np } := rfl
  obtain ⟨hm, hc, hl⟩ := h.like (U := { T with place := update T.place np (.hand .start none) }) hth hlike rfl rfl rfl
    (vacant_update rfl (by rw [hpl]; rfl)) ⟨rfl, rfl, rfl, rfl, rfl⟩
  refine ⟨h.elem.move rfl rfl hpass (h.elem.unused.keep ?_ (by simp)) rfl (fun _ _ => rfl) ?_ (by simp) rfl ?_ (by simp) rfl, hm, hc, hl,
    ⟨h.init.root, ?_, by intros; contradiction, ?_, ?_⟩, h.harts.step rfl (.goto h ha (.inl rfl) (by simp)) (fun _ _ => id)
      fun a _ => h.others (b := .hand .start none) rfl ?_ (by simp) (.inl rfl) a⟩
  · simp [hpl]
  · simp [hpl]
  · simp [hpl]
  · intro i hi
    cases hi
    refine ⟨hatt, hcp, ?_, ?_⟩ <;> simp [Place.alive]
  · intro p hp hi
    cases hi
    have hp' : (v.th (some np)).role = .exiting := hp
    rw [hclean.role] at hp'
    cases hp'
  · intro d fr' hd
    have hd' : some (contRoot, fr) = some (d, fr') := hd
    cases hd'
    exact h.init.boot contRoot fr hinto
  · simp [hpl]

/-! ### `allocproc` -/

/-- The record of the new process is reset. -/
theorem Inv.resetTh (h : v.Inv T) (hna : (T.place np).alive = false) :
    (v.setTh (some np) ⟨.idle, none, .off false, []⟩).Inv T := by
  have hclean := h.harts.clean np hna
  obtain ⟨m, hm⟩ := hclean.sw
  have hlike : RoleLike (v.th (some np)).role .idle := by
    rw [hclean.role]
    exact .refl
  have hth : (v.setTh (some np) ⟨.idle, none, .off false, []⟩).th =
      update v.th (some np) ⟨.idle, none, .off false, []⟩ := rfl
  obtain ⟨hme, hc, hl⟩ := h.like (U := T) hth hlike hclean.kept.symm rfl rfl (fun _ => rfl)
    ⟨rfl, rfl, rfl, rfl, rfl⟩
  refine ⟨h.elem.same rfl ?_ rfl rfl rfl (fun _ _ => rfl) rfl fun _ _ => .rfl, hme, hc, hl,
    h.init.same rfl ⟨nofun, nofun⟩ rfl (fun _ _ => ⟨rfl, rfl⟩) rfl rfl,
    h.harts.step rfl ⟨.inl rfl, fun _ => rfl, nofun, ?_, ?_, ?_, fun _ _ => rfl, nofun⟩ (fun _ _ => id)
      fun _ _ => .inl rfl⟩
  · intro k
    cases k <;> simp [ThView.hand, Role.hand, hm, hclean.role, hclean.waking]
  · rintro k _ ⟨⟩ hk
    exact absurd hk (h.not_onCpu hna k)
  · rintro _ ⟨⟩ -
    exact ⟨rfl, rfl, ⟨_, rfl⟩, rfl⟩
  · rintro _ ⟨⟩ hz
    rw [hz] at hna
    cases hna

/-- `np` gets its container: what holds for the containers still does. -/
private theorem Links.enter (h : v.Inv T) (ha : v.At t (.locked c fr np)) (hth : w.th = update v.th t x)
    (hx : x.role = .made c fr np) (hatt : U.att = update T.att np (.hand .entering t)) (hcont : U.cont = T.cont)
    (hc : w.contp = update v.contp np (some c)) : w.Links U := by
  obtain ⟨hpl, hout⟩ := h.locked_out ha
  have hinto : (v.th t).role.into = some (c, fr) := by rw [ha.role]; rfl
  have hnone : v.contp np = none := (h.memb.out np).2 hout
  have hlive : T.cont c = .live := h.links.into t c fr hinto
  have hsame : ∀ u, (w.th u).role.into = (v.th u).role.into := by
    intro u
    rcases th_cases hth u with ⟨rfl, hu⟩ | ⟨-, hu⟩
    · rw [hu, hx, hinto]
      rfl
    · rw [hu]
  have hempt : ∀ u q, (w.th u).role = .emptied q → (v.th u).role = .emptied q ∧ q ≠ np := by
    intro u q hu
    rcases th_cases hth u with ⟨rfl, hw⟩ | ⟨-, hw⟩ <;> rw [hw] at hu
    · rw [hx] at hu
      cases hu
    · refine ⟨hu, ?_⟩
      rintro rfl
      obtain ⟨d, hd, -⟩ := h.links.emptied u _ hu
      rw [hnone] at hd
      cases hd
  have hne : ∀ q, q ≠ np → w.contp q = v.contp q ∧ U.att q = T.att q := by
    intro q hq
    rw [hc, hatt, Function.update_of_ne hq, Function.update_of_ne hq]
    exact ⟨rfl, rfl⟩
  have hnp : w.contp np = some c := by rw [hc, Function.update_self]
  refine ⟨?_, ?_, ?_, ?_, ?_, ?_, ?_, ?_⟩
  · intro q d hq hin
    rw [hcont]
    by_cases hqn : q = np
    · subst hqn
      rw [hnp] at hq
      cases hq
      exact hlive
    · rw [(hne q hqn).1] at hq
      rw [(hne q hqn).2] at hin
      exact h.links.live q d hq hin
  · intro u d fr' hu
    rw [hcont]
    rw [hsame] at hu
    exact h.links.into u d fr' hu
  · intro u d hu
    rw [hsame] at hu
    rcases h.links.own u d hu with hn | ⟨p, hp, hpd, hpm⟩
    · exact .inl hn
    · have hpn : p ≠ np := by
        rintro rfl
        rw [hnone] at hpd
        cases hpd
      exact .inr ⟨p, hp, by rw [(hne p hpn).1]; exact hpd, by rw [(hne p hpn).2]; exact hpm⟩
  · intro u d hu q hq hin
    rw [hsame] at hu
    by_cases hqn : q = np
    · subst hqn
      rw [hnp] at hq
      cases hq
      obtain rfl := h.links.alone u t c fr hu hinto
      rw [hth, Function.update_self, hx]
      rfl
    · rw [(hne q hqn).1] at hq
      rw [(hne q hqn).2] at hin
      have htar := h.links.fresh u d hu q hq hin
      rcases th_cases hth u with ⟨rfl, -⟩ | ⟨-, hw⟩
      · rw [ha.role] at htar
        cases htar
      · rwa [hw]
  · intro u d fr' q hu hq
    rw [hsame] at hu
    rcases th_cases hth u with ⟨rfl, hw⟩ | ⟨-, hw⟩ <;> rw [hw] at hq
    · rw [hx] at hq
      cases hq
      rw [hinto] at hu
      cases hu
      exact hnp
    · have hqd := h.links.target u d fr' q hu hq
      have hqn : q ≠ np := by
        rintro rfl
        rw [hnone] at hqd
        cases hqd
      rwa [(hne q hqn).1]
  · intro u q hu
    obtain ⟨hu, hqn⟩ := hempt u q hu
    obtain ⟨d, hd, hdl, hin, hno⟩ := h.links.emptied u q hu
    refine ⟨d, by rwa [(hne q hqn).1], by rwa [hcont], ?_, fun t' fr' => by rw [hsame]; exact hno t' fr'⟩
    intro q' hq'
    by_cases hqn' : q' = np
    · subst hqn'
      rw [hnp] at hq'
      cases hq'
      exact absurd hinto (hno t fr)
    · rw [(hne q' hqn').1] at hq'
      rw [(hne q' hqn').2]
      exact hin q' hq'
  · intro u u' d fr' hu hu'
    rw [hsame] at hu hu'
    exact h.links.alone u u' d fr' hu hu'
  · intro u u' q q' hu hu' hqq
    obtain ⟨hu, hq⟩ := hempt u q hu
    obtain ⟨hu', hq'⟩ := hempt u' q' hu'
    rw [(hne q hq).1, (hne q' hq').1] at hqq
    exact h.links.once u u' q q' hu hu' hqq

theorem Inv.allocprocInit (h : v.Inv T) (ha : v.At t (.locked c fr np)) :
    ((((v.setState np .used).setContp np (some c)).setTh (some np) ⟨.idle, none, .off false, []⟩).goto t
      (.made c fr np)).Inv
      { T with place := update T.place np (.hand .made t), att := update T.att np (.hand .entering t) } := by
  obtain ⟨hpl, hout⟩ := h.locked_out ha
  have hna : (T.place np).alive = false := by rw [hpl]; rfl
  have hne : t ≠ some np := by
    rintro rfl
    have hr := ha.role
    rw [(h.harts.clean np hna).role] at hr
    cases hr
  obtain ⟨u, hu⟩ : ∃ u, u = v.setTh (some np) ⟨.idle, none, .off false, []⟩ := ⟨_, rfl⟩
  have hui : u.Inv T := hu ▸ h.resetTh hna
  have hua : u.At t (.locked c fr np) := by
    have hth : u.th t = v.th t := by rw [hu]; exact Function.update_of_ne hne ..
    exact ⟨by rw [hth]; exact ha.role, fun p hp => by rw [hth, hu]; exact ha.run p hp⟩
  have hw : ((((v.setState np .used).setContp np (some c)).setTh (some np) ⟨.idle, none, .off false, []⟩).goto t
      (.made c fr np)) = ((u.setState np .used).setContp np (some c)).goto t (.made c fr np) := by rw [hu]; rfl
  rw [hw]
  have hpass : u.Passes T t { u.th t with role := .made c fr np } np (.hand .made t) := by
    refine .goto hui hua ?_ ?_ ?_ ?_
    · simp [hpl]
    · simp
    · exact fun k hk => .inl (by cases hk; rfl)
    · intro k
      cases k <;> simp [Role.hand]
  have hinp : ∀ i, u.initproc = some i → i ≠ np := by
    rintro i hi rfl
    have := (hui.init.init i hi).2.2.1
    rw [hna] at this
    cases this
  refine ⟨hui.elem.move rfl rfl hpass (hui.elem.unused.keep ?_ (by simp)) rfl ?_ ?_ (by simp) rfl ?_ (by simp) rfl,
    hui.memb.move (q := np) (m := .hand .entering t) rfl rfl ?_ ?_ ?_ ?_ ?_ ?_ ?_ ?_ ?_ ?_ (by simp) ?_, hui.conts.same rfl ?_ ?_ rfl rfl rfl rfl rfl ?_,
    Links.enter hui hua rfl rfl rfl rfl rfl,
    hui.init.move (q := np) (b := .hand .made t) rfl ⟨by simp, fun _ => .inr (by rw [hua.role]; rfl)⟩ rfl ?_ rfl rfl ?_ ?_,
    hui.harts.step rfl (.goto hui hua (.inr (.inl rfl)) (hui.still hua rfl ?_)) (fun _ _ => id) fun a _ =>
      hui.others (b := .hand .made t) rfl ?_ (by simp) (.inr hna) a⟩
  · simp [hpl]
  · exact fun a ha => Function.update_of_ne ha ..
  · simp [hpl]
  · simp [hpl]
  · simp [hout]
  · simp
  · intro k hk
    cases hk
    exact .inl (by rw [hua.role]; rfl)
  · intro k
    rw [hua.role]
    cases k <;> simp [Role.attHand]
  · exact fun a ha => Function.update_of_ne ha ..
  · simp [goto, setTh, setContp]
  · intro d
    refine (hui.memb.proc d).congr fun a => ?_
    by_cases ha : a = np
    · simp [ha, hout]
    · simp [ha, goto, setTh, setContp, setState]
  · intro a ha
    simp [ha]
  · simp [Place.vacant]
  · simp [Att.inside]
  · intro y a hy
    have hya : T.att a = .member := (hui.memb.freed y a hy).1
    constructor
    · rintro rfl
      rw [hua.role] at hy
      cases hy
    · rintro rfl
      rw [hout] at hya
      cases hya
  · rw [hua.role]
    rfl
  · rw [hua.role]
    simp
  · intro y q hy
    refine Function.update_of_ne ?_ ..
    rintro rfl
    obtain ⟨d, hd, -⟩ := hui.conts.gone y _ hy
    rw [(hui.memb.out _).2 hout] at hd
    cases hd
  · intro i hi
    exact ⟨Function.update_of_ne (hinp i hi) .., Function.update_of_ne (hinp i hi) ..⟩
  · exact fun hi => absurd rfl (hinp np hi)
  · intro hn
    cases t with
    | none => exact .inr rfl
    | some p => exact absurd hn (hui.started hua)
  · simp [hpl]
  · simp [hpl]

theorem Inv.allocprocList (h : v.Inv T) (ha : v.At t (.made c fr np)) :
    ((v.setProcs c (v.procList c ++ [np])).goto t (.listed c fr np)).Inv
      { T with att := update T.att np .member } := by
  have hpl : T.place np = .hand .made t := h.place_of_hand ha (k := .made) rfl
  have hatt : T.att np = .hand .entering t := (h.memb.hand t .entering np).1 (by
    change (v.th t).role.attHand .entering = some np
    rw [ha.role]
    rfl)
  have hcp : v.contp np = some c := h.links.target t c fr np (by rw [ha.role]; rfl) (by rw [ha.role]; rfl)
  refine ⟨h.elem.same rfl ?_ rfl rfl rfl (fun _ _ => rfl) rfl fun _ _ => .rfl,
    h.memb.move (q := np) (m := .member) rfl rfl ?_ (by simp) (by simp) ?_ (fun _ _ => rfl) ?_ ?_ (fun _ _ => rfl) ?_
      (fun _ => rfl) (by simp) ?_,
    h.conts.same rfl ?_ ?_ rfl rfl rfl rfl rfl fun _ _ _ => rfl, h.links.same rfl (.inr ?_) (by simp) ?_ (fun _ => id) rfl,
    h.init.same rfl ⟨by simp, fun _ => .inr (by rw [ha.role]; rfl)⟩ rfl ?_ rfl rfl,
    h.harts.step rfl (.goto h ha (.inr (.inl rfl)) ?_) (fun _ _ => id) fun _ _ => .inl rfl⟩
  · intro k
    rw [h.hand_at ha]
    refine (congrFun (h.hand_goto ha _) k).trans ?_
    cases k <;> rfl
  · simp [hatt]
  · intro k
    rw [ha.role]
    cases k <;> simp [Role.attHand]
  · simp [goto, setTh, setProcs, hcp]
  · intro d
    by_cases hd : d = c
    · subst hd
      have := (h.memb.proc d).push (a := np) (by simp [hatt])
      simp only [goto, setTh, setProcs, Function.update_self]
      refine this.congr fun q => ?_
      by_cases hq : q = np
      · simp [hq, hcp]
      · simp [hq]
    · simp only [goto, setTh, setProcs, Function.update_of_ne hd]
      refine (h.memb.proc d).congr fun q => ?_
      by_cases hq : q = np
      · simp [hq, hcp, hatt, Ne.symm hd]
      · simp [hq]
  · rw [hpl]
    simp [Place.vacant]
  · intro u a hu
    have hua := (h.memb.freed u a hu).1
    constructor
    · rintro rfl
      rw [ha.role] at hu
      cases hu
    · rintro rfl
      rw [hatt] at hua
      cases hua
  · rw [ha.role]
    rfl
  · rw [ha.role]
    simp
  · rw [ha.role]
    exact ⟨rfl, rfl⟩
  · intro q
    by_cases hq : q = np
    · subst hq
      simp [hatt, Att.inside]
    · simp [hq]
  · intro i hi
    refine ⟨Function.update_of_ne ?_ .., rfl⟩
    rintro rfl
    have := (h.init.init _ hi).1
    rw [hatt] at this
    cases this
  · rintro p rfl
    exact h.running ha

/-! ### Moves of one container -/

/-- The link of the container `c` comes out of the hands of `t` or goes into them. -/
theorem Conts.move {m : ContPlace} (h : v.Conts T) (hth : w.th = update v.th t x) (hT : U.cont = update T.cont c m)
    (hunused : OnList w.contUnused (update T.cont c m) .free) (hrun : OnList w.contRun (update T.cont c m) .live)
    (hfrom : ∀ k u, T.cont c = .hand k u → u = t) (hto : ∀ k u, m = .hand k u → u = t)
    (hempty : ∀ k, m = .hand k t → (v.th t).role.contHand k = none ∨ (v.th t).role.contHand k = some c)
    (hhand : ∀ k, x.role.contHand k = if m = .hand k t then some c else if (v.th t).role.contHand k = some c then none
      else (v.th t).role.contHand k)
    (hgone : ∀ a, x.role = .contGone a → v.contp a = some c ∧ m = .off t) (hgoneC : ∀ u, T.cont c = .off u → u = t)
    (hoff : ∀ u, m = .off u → u = t ∧ ∃ a, x.role = .contGone a ∧ v.contp a = some c)
    (hoffT : ∀ a, (v.th t).role = .contGone a → v.contp a = some c)
    (hkept : ∀ u d, d ∈ (w.th u).kept ↔ update T.cont c m d = .kept u) (hused : ∀ d, d ≠ c → w.used d = v.used d)
    (husedC : w.used c = true ↔ m ≠ .free ∧ ∀ u, m ≠ .hand .taken u) (hc : w.contp = v.contp) : w.Conts U := by
  refine ⟨?_, ?_, ?_, ?_, ?_, ?_, ?_⟩
  · rw [hT]
    exact hunused
  · rw [hT]
    exact hrun
  · rw [hT, role_update Role.contHand hth]
    exact h.hand.move hfrom hto hempty hhand
  · intro u a hu
    rw [hT, hc]
    rcases th_cases hth u with ⟨rfl, hw⟩ | ⟨hne, hw⟩ <;> rw [hw] at hu
    · obtain ⟨h1, h2⟩ := hgone a hu
      exact ⟨c, h1, by rw [Function.update_self, h2]⟩
    · obtain ⟨d, h1, h2⟩ := h.gone u a hu
      have hd : d ≠ c := by
        rintro rfl
        exact hne (hgoneC u h2)
      exact ⟨d, h1, by rwa [Function.update_of_ne hd]⟩
  · intro u d hd
    rw [hT] at hd
    rw [hc]
    by_cases hdc : d = c
    · subst hdc
      rw [Function.update_self] at hd
      obtain ⟨rfl, a, ha, had⟩ := hoff u hd
      exact ⟨a, by rwa [hth, Function.update_self], had⟩
    · rw [Function.update_of_ne hdc] at hd
      obtain ⟨a, ha, had⟩ := h.off u d hd
      have hut : u ≠ t := by
        rintro rfl
        rw [hoffT a ha] at had
        exact hdc (Option.some.inj had).symm
      exact ⟨a, by rwa [hth, Function.update_of_ne hut], had⟩
  · rw [hT]
    exact hkept
  · intro d
    rw [hT]
    by_cases hdc : d = c
    · subst hdc
      rw [Function.update_self]
      exact husedC
    · rw [Function.update_of_ne hdc, hused d hdc]
      exact h.used d

/-- Nothing changes for the containers that are kept locked. -/
theorem Conts.kept_same {m : ContPlace} (h : v.Conts T) (hth : w.th = update v.th t x) (hk : x.kept = (v.th t).kept)
    (hc : ∀ u, T.cont c ≠ .kept u) (hm : ∀ u, m ≠ .kept u) (u : Thread) (d : ContId) :
    d ∈ (w.th u).kept ↔ update T.cont c m d = .kept u := by
  have hw : (w.th u).kept = (v.th u).kept := by
    rcases th_cases hth u with ⟨rfl, hu⟩ | ⟨-, hu⟩
    · rw [hu, hk]
    · rw [hu]
  rw [hw, h.kept]
  by_cases hd : d = c
  · subst hd
    simp [hc, hm]
  · simp [hd]

/-! ### `freeproc` goes on -/

/-- When `freeproc` empties a `proc_list`, no process is being added to the container. -/
private theorem Inv.no_into (h : v.Inv T) (ha : v.At (some p) (.freed q)) (hc : v.contp q = some c)
    (hnil : (v.procList c).erase q = []) (u : Thread) (fr : Bool) : (v.th u).role.into ≠ some (c, fr) := by
  intro hu
  obtain ⟨hatt, hvac⟩ := h.memb.freed _ _ ha.role
  have hother : ∀ a, T.att a = .member → v.contp a = some c → a = q := by
    intro a ham hac
    have hmem : a ∈ v.procList c := ((h.memb.proc c).2 a).2 (Prod.ext ham hac)
    by_contra hne
    have : a ∈ (v.procList c).erase q := (h.memb.proc c).1.mem_erase_iff.2 ⟨hne, hmem⟩
    rw [hnil] at this
    cases this
  cases fr with
  | true =>
    rcases h.target_place (h.links.fresh u c hu q hc (by rw [hatt]; rfl)) with hp | hp <;> rw [hp] at hvac <;> cases hvac
  | false =>
    rcases h.links.own u c hu with rfl | ⟨a, rfl, hac, ham⟩
    · obtain ⟨rfl, -⟩ := h.init.boot c false hu
      cases hi : v.initproc with
      | none => exact h.started ha hi
      | some i =>
        obtain ⟨h1, h2, h3, -⟩ := h.init.init i hi
        rw [hother i h1 h2, Place.not_alive hvac] at h3
        cases h3
    · obtain rfl := hother a ham hac
      rw [h.vacant_idle hvac] at hu
      cases hu

private theorem Links.leave (h : v.Inv T) (ha : v.At (some p) (.freed q)) (hc : v.contp q = some c)
    (hth : w.th = update v.th (some p) x)
    (hx : x.role = .emptied q ∧ (v.procList c).erase q = [] ∨ x.role = .unlinked q)
    (hatt : U.att = update T.att q (.hand .leaving (some p))) (hcont : U.cont = T.cont) (hcp : w.contp = v.contp) :
    w.Links U := by
  obtain ⟨hqm, hvac⟩ := h.memb.freed _ _ ha.role
  have hqin : (T.att q).inside := by rw [hqm]; rfl
  have hin : ∀ a, (U.att a).inside → (T.att a).inside := by
    intro a hi
    by_cases haq : a = q
    · exact haq ▸ hqin
    · rwa [hatt, Function.update_of_ne haq] at hi
  have hinto : ∀ u d fr, (w.th u).role.into = some (d, fr) → w.th u = v.th u := by
    intro u d fr hu
    rcases th_cases hth u with ⟨-, hw⟩ | ⟨-, hw⟩
    · rw [hw] at hu
      rcases hx with ⟨hx, -⟩ | hx <;> rw [hx] at hu <;> cases hu
    · exact hw
  have hempt : ∀ u a, (w.th u).role = .emptied a →
      (v.th u).role = .emptied a ∨ u = some p ∧ a = q ∧ (v.procList c).erase q = [] := by
    intro u a hu
    rcases th_cases hth u with ⟨rfl, hw⟩ | ⟨-, hw⟩ <;> rw [hw] at hu
    · rcases hx with ⟨hx, hnil⟩ | hx <;> rw [hx] at hu <;> cases hu
      exact .inr ⟨rfl, rfl, hnil⟩
    · exact .inl hu
  -- a container that another `freeproc` has emptied is not that of `q`
  have hnot : ∀ u a, (v.th u).role = .emptied a → v.contp a ≠ some c := by
    intro u a hu hac
    obtain ⟨d, hd, -, hno, -⟩ := h.links.emptied u a hu
    rw [hac] at hd
    cases hd
    rw [hno q hc] at hqin
    cases hqin
  refine ⟨?_, ?_, ?_, ?_, ?_, ?_, ?_, ?_⟩
  · intro a d had hai
    rw [hcont]
    rw [hcp] at had
    exact h.links.live a d had (hin a hai)
  · intro u d fr hu
    rw [hcont]
    rw [hinto u d fr hu] at hu
    exact h.links.into u d fr hu
  · intro u d hu
    rw [hinto u d _ hu] at hu
    rcases h.links.own u d hu with hn | ⟨a, rfl, had, ham⟩
    · exact .inl hn
    · have haq : a ≠ q := by
        rintro rfl
        rw [h.vacant_idle hvac] at hu
        cases hu
      exact .inr ⟨a, rfl, by rwa [hcp], by rwa [hatt, Function.update_of_ne haq]⟩
  · intro u d hu a had hai
    have hw := hinto u d _ hu
    rw [hcp] at had
    rw [hw] at hu ⊢
    exact h.links.fresh u d hu a had (hin a hai)
  · intro u d fr a hu hua
    have hw := hinto u d _ hu
    rw [hw] at hu hua
    rw [hcp]
    exact h.links.target u d fr a hu hua
  · intro u a hu
    rw [hcp, hcont]
    rcases hempt u a hu with hu | ⟨rfl, rfl, hnil⟩
    · obtain ⟨d, h1, h2, h3, h4⟩ := h.links.emptied u a hu
      refine ⟨d, h1, h2, ?_, ?_⟩
      · intro a' ha'
        have := h3 a' ha'
        rw [← Bool.not_eq_true] at this ⊢
        exact fun hi => this (hin a' hi)
      · intro t' fr ht'
        rw [hinto t' d fr ht'] at ht'
        exact h4 t' fr ht'
    · have hno := h.no_into ha hc hnil
      refine ⟨c, hc, h.links.live _ c hc hqin, ?_, ?_⟩
      · intro a' ha'
        rw [hatt, ← Bool.not_eq_true]
        intro hi
        by_cases haq : a' = a
        · rw [haq, Function.update_self] at hi
          cases hi
        · rw [Function.update_of_ne haq] at hi
          cases hatt' : T.att a' with
          | out =>
            rw [hatt'] at hi
            cases hi
          | member =>
            have hmem : a' ∈ v.procList c := ((h.memb.proc c).2 a').2 (Prod.ext hatt' ha')
            have : a' ∈ (v.procList c).erase a := (h.memb.proc c).1.mem_erase_iff.2 ⟨haq, hmem⟩
            rw [hnil] at this
            cases this
          | hand k u =>
            rw [hatt'] at hi
            cases k with
            | leaving => cases hi
            | entering =>
              have hr : (v.th u).role.attHand .entering = some a' := (h.memb.hand u .entering a').2 hatt'
              obtain ⟨d, fr, hr⟩ := Role.eq_made hr
              have hd := h.links.target u d fr a' (by rw [hr]; rfl) (by rw [hr]; rfl)
              rw [ha'] at hd
              cases hd
              exact hno u fr (by rw [hr]; rfl)
      · intro t' fr ht'
        rw [hinto t' c fr ht'] at ht'
        exact hno t' fr ht'
  · intro u u' d fr hu hu'
    rw [hinto u d _ hu] at hu
    rw [hinto u' d _ hu'] at hu'
    exact h.links.alone u u' d fr hu hu'
  · intro u u' a a' hu hu' haa
    rw [hcp] at haa
    rcases hempt u a hu with hu | ⟨rfl, rfl, -⟩ <;> rcases hempt u' a' hu' with hu' | ⟨hp, ha', -⟩
    · exact h.links.once u u' a a' hu hu' haa
    · rw [ha', hc] at haa
      exact absurd haa (hnot u a hu)
    · rw [hc] at haa
      exact absurd haa.symm (hnot u' a' hu')
    · exact hp

theorem Inv.freeprocUnlist (h : v.Inv T) (ha : v.At (some p) (.freed q)) (hc : v.contp q = some c) :
    ((v.setProcs c ((v.procList c).erase q)).goto (some p)
      (if (v.procList c).erase q = [] then .emptied q else .unlinked q)).Inv
      { T with att := update T.att q (.hand .leaving (some p)) } := by
  obtain ⟨hatt, hvac⟩ := h.memb.freed _ _ ha.role
  have hna := Place.not_alive hvac
  have hlock : (v.th (some p)).role.plock = some q := by rw [ha.role]; rfl
  obtain ⟨r, hr⟩ : ∃ r, r = if (v.procList c).erase q = [] then Role.emptied q else .unlinked q := ⟨_, rfl⟩
  have hrr : r = .emptied q ∧ (v.procList c).erase q = [] ∨ r = .unlinked q := by
    rw [hr]
    split
    · exact .inl ⟨rfl, ‹_›⟩
    · exact .inr rfl
  rw [← hr]
  refine ⟨h.elem.same rfl ?_ rfl rfl rfl (fun _ _ => rfl) rfl fun _ _ => .rfl,
    h.memb.move (q := q) (m := .hand .leaving (some p)) rfl rfl ?_ ?_ ?_ ?_ (fun _ _ => rfl) ?_ ?_ (fun _ _ => rfl) ?_
      ?_ ?_ ?_,
    h.conts.same rfl ?_ ?_ rfl rfl rfl rfl rfl fun _ _ _ => rfl,
    Links.leave h ha hc rfl hrr rfl rfl rfl,
    h.init.same rfl ⟨?_, by simp⟩ rfl ?_ rfl rfl,
    h.harts.step rfl (.goto h ha ?_ ?_) (fun _ _ => id) fun _ _ => .inl rfl⟩
  · intro k
    rw [h.hand_at ha]
    refine (congrFun (h.hand_goto ha _) k).trans ?_
    rcases hrr with ⟨rfl, -⟩ | rfl <;> cases k <;> rfl
  · simp [hatt]
  · simp
  · intro k hk
    rw [ha.role]
    cases k <;> exact .inl rfl
  · intro k
    rw [ha.role]
    rcases hrr with ⟨rfl, -⟩ | rfl <;> cases k <;> simp [Role.attHand]
  · simp [goto, setTh, setProcs, hc]
  · intro d
    by_cases hd : d = c
    · subst hd
      have := (h.memb.proc d).erase (a := q) (d := (.hand .leaving (some p), some d)) (by simp)
      simp only [goto, setTh, setProcs, Function.update_self]
      refine this.congr fun a => ?_
      by_cases haq : a = q
      · simp [haq]
      · simp [haq]
    · simp only [goto, setTh, setProcs, Function.update_of_ne hd]
      refine (h.memb.proc d).congr fun a => ?_
      by_cases haq : a = q
      · simp [haq, hc, Ne.symm hd]
      · simp [haq]
  · exact fun _ => .inr ⟨_, rfl⟩
  · intro hv
    change (T.place q).vacant = false at hv
    rw [hvac] at hv
    cases hv
  · rcases hrr with ⟨rfl, -⟩ | rfl <;> simp
  · intro u a hu
    constructor
    · rintro rfl
      rw [ha.role] at hu
      cases hu
      rfl
    · rintro rfl
      exact h.holder_unique hlock (by rw [hu]; rfl)
  · rw [ha.role]
    rcases hrr with ⟨rfl, -⟩ | rfl <;> rfl
  · rw [ha.role]
    rcases hrr with ⟨rfl, -⟩ | rfl <;> simp
  · rcases hrr with ⟨rfl, -⟩ | rfl <;> simp
  · intro i hi
    refine ⟨Function.update_of_ne ?_ .., rfl⟩
    rintro rfl
    have := (h.init.init _ hi).2.2.1
    rw [hna] at this
    cases this
  · rcases hrr with ⟨rfl, -⟩ | rfl <;> exact .inr (.inl rfl)
  · rintro _ ⟨⟩
    exact h.running ha

/-- The container that a `freeproc` has emptied goes off `cont_run_list`. -/
private theorem Links.contOff (h : v.Inv T) (ha : v.At (some p) (.emptied q)) (hc : v.contp q = some c)
    (hth : w.th = update v.th (some p) x) (hx : x.role = .contGone q) (hatt : U.att = T.att)
    (hcont : U.cont = update T.cont c (.off (some p))) (hcp : w.contp = v.contp) : w.Links U := by
  obtain ⟨d, hd, -, hin, hno⟩ := h.links.emptied _ _ ha.role
  rw [hc] at hd
  cases hd
  have hinto : ∀ u d fr, (w.th u).role.into = some (d, fr) → w.th u = v.th u := by
    intro u d fr hu
    rcases th_cases hth u with ⟨-, hw⟩ | ⟨-, hw⟩
    · rw [hw, hx] at hu
      cases hu
    · exact hw
  have hempt : ∀ u a, (w.th u).role = .emptied a → u ≠ some p ∧ (v.th u).role = .emptied a := by
    intro u a hu
    rcases th_cases hth u with ⟨rfl, hw⟩ | ⟨hne, hw⟩ <;> rw [hw] at hu
    · rw [hx] at hu
      cases hu
    · exact ⟨hne, hu⟩
  refine ⟨?_, ?_, ?_, ?_, ?_, ?_, ?_, ?_⟩
  · intro a d had hai
    rw [hcp] at had
    rw [hatt] at hai
    have hdc : d ≠ c := by
      rintro rfl
      rw [hin a had] at hai
      cases hai
    rw [hcont, Function.update_of_ne hdc]
    exact h.links.live a d had hai
  · intro u d fr hu
    rw [hinto u d fr hu] at hu
    have hdc : d ≠ c := by
      rintro rfl
      exact hno u fr hu
    rw [hcont, Function.update_of_ne hdc]
    exact h.links.into u d fr hu
  · intro u d hu
    rw [hinto u d _ hu] at hu
    rw [hcp, hatt]
    exact h.links.own u d hu
  · intro u d hu a had hai
    have hw := hinto u d _ hu
    rw [hcp] at had
    rw [hatt] at hai
    rw [hw] at hu ⊢
    exact h.links.fresh u d hu a had hai
  · intro u d fr a hu hua
    have hw := hinto u d _ hu
    rw [hw] at hu hua
    rw [hcp]
    exact h.links.target u d fr a hu hua
  · intro u a hu
    obtain ⟨hne, hu⟩ := hempt u a hu
    obtain ⟨d, h1, h2, h3, h4⟩ := h.links.emptied u a hu
    have hdc : d ≠ c := by
      rintro rfl
      exact hne (h.links.once (some p) u q a ha.role hu (by rw [hc, h1]))
    rw [hcp, hatt, hcont]
    refine ⟨d, h1, by rwa [Function.update_of_ne hdc], h3, ?_⟩
    intro t' fr ht'
    rw [hinto t' d fr ht'] at ht'
    exact h4 t' fr ht'
  · intro u u' d fr hu hu'
    rw [hinto u d _ hu] at hu
    rw [hinto u' d _ hu'] at hu'
    exact h.links.alone u u' d fr hu hu'
  · intro u u' a a' hu hu' haa
    rw [hcp] at haa
    exact h.links.once u u' a a' (hempt u a hu).2 (hempt u' a' hu').2 haa

theorem Inv.freeprocContOff (h : v.Inv T) (ha : v.At (some p) (.emptied q)) (hc : v.contp q = some c) :
    ({ v with contRun := v.contRun.erase c }.goto (some p) (.contGone q)).Inv
      { T with cont := update T.cont c (.off (some p)) } := by
  obtain ⟨d, hd, hlive, hin, -⟩ := h.links.emptied _ _ ha.role
  rw [hc] at hd
  cases hd
  have hroot : contRoot ≠ c := by
    rintro rfl
    cases hi : v.initproc with
    | none => exact h.started ha hi
    | some i =>
      obtain ⟨h1, h2, -⟩ := h.init.init i hi
      have := hin i h2
      rw [h1] at this
      cases this
  refine ⟨h.elem.same rfl ?_ rfl rfl rfl (fun _ _ => rfl) rfl fun _ _ => .rfl,
    h.memb.same rfl ?_ ?_ rfl (fun _ => rfl) rfl rfl,
    h.conts.move (c := c) (m := .off (some p)) rfl rfl (h.conts.unused.keep ?_ nofun) (h.conts.run.erase nofun) ?_ nofun nofun ?_
      ?_ ?_ ?_ ?_ (h.conts.kept_same rfl rfl ?_ nofun) (fun _ _ => rfl) ?_ rfl,
    Links.contOff h ha hc rfl rfl rfl rfl rfl,
    h.init.same rfl ⟨nofun, nofun⟩ rfl (fun _ _ => ⟨rfl, rfl⟩) (Function.update_of_ne hroot ..) rfl,
    h.harts.step rfl (.goto h ha (.inr (.inl rfl)) ?_) (fun _ _ => id) fun _ _ => .inl rfl⟩
  · intro k
    rw [h.hand_at ha]
    refine (congrFun (h.hand_goto ha _) k).trans ?_
    cases k <;> rfl
  · rw [ha.role]
    funext k
    cases k <;> rfl
  · rw [ha.role]
    simp
  · simp [hlive]
  · simp [hlive]
  · intro k
    rw [ha.role]
    cases k <;> simp [Role.contHand]
  · rintro a ⟨⟩
    exact ⟨hc, rfl⟩
  · simp [hlive]
  · rintro u ⟨⟩
    exact ⟨rfl, q, rfl, hc⟩
  · rw [ha.role]
    nofun
  · simp [hlive]
  · have := h.conts.used c
    rw [hlive] at this
    simpa [goto, setTh] using this
  · rintro _ ⟨⟩
    exact h.running ha

theorem Inv.freecont (h : v.Inv T) (ha : v.At (some p) (.contGone q)) (hc : v.contp q = some c) :
    ({ v.setUsed c false with contUnused := v.contUnused ++ [c] }.goto (some p) (.unlinked q)).Inv
      { T with cont := update T.cont c .free } := by
  obtain ⟨d, hd, hoff⟩ := h.conts.gone _ _ ha.role
  rw [hc] at hd
  cases hd
  have hroot : contRoot ≠ c := by
    rintro rfl
    rw [h.init.root] at hoff
    cases hoff
  refine ⟨h.elem.same rfl ?_ rfl rfl rfl (fun _ _ => rfl) rfl fun _ _ => .rfl,
    h.memb.same rfl ?_ ?_ rfl (fun _ => rfl) rfl rfl,
    h.conts.move (c := c) (m := .free) rfl rfl (h.conts.unused.push ?_) (h.conts.run.keep ?_ nofun) ?_ nofun nofun ?_ nofun ?_
      nofun ?_ (h.conts.kept_same rfl rfl ?_ nofun) ?_ ?_ rfl,
    h.links.same rfl (.inl rfl) nofun (fun _ => ⟨rfl, id⟩) ?_ rfl,
    h.init.same rfl ⟨nofun, nofun⟩ rfl (fun _ _ => ⟨rfl, rfl⟩) (Function.update_of_ne hroot ..) rfl,
    h.harts.step rfl (.goto h ha (.inr (.inl rfl)) ?_) (fun _ _ => id) fun _ _ => .inl rfl⟩
  · intro k
    rw [h.hand_at ha]
    refine (congrFun (h.hand_goto ha _) k).trans ?_
    cases k <;> rfl
  · rw [ha.role]
    funext k
    cases k <;> rfl
  · rw [ha.role]
    simp
  · simp [hoff]
  · simp [hoff]
  · simp [hoff]
  · intro k
    rw [ha.role]
    cases k <;> simp [Role.contHand]
  · intro u hu
    rw [hoff] at hu
    cases hu
    rfl
  · intro a har
    rw [ha.role] at har
    cases har
    exact hc
  · simp [hoff]
  · exact fun d hd => Function.update_of_ne hd ..
  · simp [goto, setTh, setUsed]
  · intro d hd
    have hdc : d ≠ c := by
      rintro rfl
      rw [hoff] at hd
      cases hd
    rwa [← Function.update_of_ne hdc .free T.cont] at hd
  · rintro _ ⟨⟩
    exact h.running ha

/-- A slot that nothing depends on loses its container. -/
private theorem Links.unlink (h : v.Links T) (hth : w.th = update v.th t x) (hi : x.role.into = none)
    (he : ∀ a, x.role ≠ .emptied a) (hatt : U.att = update T.att q .out) (hcont : U.cont = T.cont)
    (hc : w.contp = update v.contp q none) (hq : T.att q ≠ .member) (htar : ∀ u, (v.th u).role.target ≠ some q)
    (hemp : ∀ u, (v.th u).role ≠ .emptied q) : w.Links U := by
  have hinto : ∀ u d fr, (w.th u).role.into = some (d, fr) → w.th u = v.th u := by
    intro u d fr hu
    rcases th_cases hth u with ⟨-, hw⟩ | ⟨-, hw⟩
    · rw [hw, hi] at hu
      cases hu
    · exact hw
  have hempt : ∀ u a, (w.th u).role = .emptied a → (v.th u).role = .emptied a ∧ a ≠ q := by
    intro u a hu
    rcases th_cases hth u with ⟨-, hw⟩ | ⟨-, hw⟩ <;> rw [hw] at hu
    · exact absurd hu (he a)
    · refine ⟨hu, ?_⟩
      rintro rfl
      exact hemp u hu
  have hcp : ∀ a d, w.contp a = some d → v.contp a = some d ∧ U.att a = T.att a := by
    intro a d had
    have haq : a ≠ q := by
      rintro rfl
      rw [hc, Function.update_self] at had
      cases had
    rw [hc, Function.update_of_ne haq] at had
    exact ⟨had, by rw [hatt, Function.update_of_ne haq]⟩
  have hne : ∀ a, a ≠ q → w.contp a = v.contp a := fun a ha => by rw [hc, Function.update_of_ne ha]
  refine ⟨?_, ?_, ?_, ?_, ?_, ?_, ?_, ?_⟩
  · intro a d had hai
    obtain ⟨had, haa⟩ := hcp a d had
    rw [haa] at hai
    rw [hcont]
    exact h.live a d had hai
  · intro u d fr hu
    rw [hinto u d fr hu] at hu
    rw [hcont]
    exact h.into u d fr hu
  · intro u d hu
    rw [hinto u d _ hu] at hu
    rcases h.own u d hu with hn | ⟨a, ha, had, ham⟩
    · exact .inl hn
    · have haq : a ≠ q := by
        rintro rfl
        exact hq ham
      exact .inr ⟨a, ha, by rwa [hne a haq], by rwa [hatt, Function.update_of_ne haq]⟩
  · intro u d hu a had hai
    have hw := hinto u d _ hu
    obtain ⟨had, haa⟩ := hcp a d had
    rw [haa] at hai
    rw [hw] at hu ⊢
    exact h.fresh u d hu a had hai
  · intro u d fr a hu hua
    have hw := hinto u d _ hu
    rw [hw] at hu hua
    have haq : a ≠ q := by
      rintro rfl
      exact htar u hua
    rw [hne a haq]
    exact h.target u d fr a hu hua
  · intro u a hu
    obtain ⟨hu, haq⟩ := hempt u a hu
    obtain ⟨d, h1, h2, h3, h4⟩ := h.emptied u a hu
    refine ⟨d, by rwa [hne a haq], by rwa [hcont], ?_, ?_⟩
    · intro a' ha'
      obtain ⟨ha', haa⟩ := hcp a' d ha'
      rw [haa]
      exact h3 a' ha'
    · intro t' fr ht'
      rw [hinto t' d fr ht'] at ht'
      exact h4 t' fr ht'
  · intro u u' d fr hu hu'
    rw [hinto u d _ hu] at hu
    rw [hinto u' d _ hu'] at hu'
    exact h.alone u u' d fr hu hu'
  · intro u u' a a' hu hu' haa
    obtain ⟨hu, haq⟩ := hempt u a hu
    obtain ⟨hu', haq'⟩ := hempt u' a' hu'
    rw [hne a haq, hne a' haq'] at haa
    exact h.once u u' a a' hu hu' haa

theorem Inv.freeprocUnlink (h : v.Inv T) (ha : v.At (some p) (.unlinked q)) :
    ((v.setContp q none).goto (some p) .idle).Inv { T with att := update T.att q .out } := by
  have hatt : T.att q = .hand .leaving (some p) := (h.memb.hand (some p) .leaving q).1 (by
    change (v.th (some p)).role.attHand .leaving = some q
    rw [ha.role]
    rfl)
  have hlock : (v.th (some p)).role.plock = some q := by rw [ha.role]; rfl
  have hvac : (T.place q).vacant := by
    by_contra hne
    have := h.memb.inside q (by simpa using hne)
    rw [hatt] at this
    cases this
  have hown : ∀ u, (v.th u).role.plock = some q → (v.th u).role = .unlinked q := by
    intro u hu
    obtain rfl := h.holder_unique hlock hu
    exact ha.role
  refine ⟨h.elem.same rfl ?_ rfl rfl rfl ?_ rfl fun _ _ => .rfl,
    h.memb.move (q := q) (m := .out) rfl rfl ?_ nofun nofun ?_ ?_ ?_ ?_ (fun _ _ => rfl) (fun _ => .inl rfl) ?_ nofun ?_,
    h.conts.same rfl ?_ ?_ rfl rfl rfl rfl rfl ?_, h.links.unlink (q := q) rfl rfl nofun rfl rfl rfl ?_ ?_ ?_,
    h.init.same rfl ⟨nofun, nofun⟩ rfl ?_ rfl rfl,
    h.harts.step rfl (.goto h ha (.inl rfl) ?_) (fun _ _ => id) fun _ _ => .inl rfl⟩
  · intro k
    rw [h.hand_at ha]
    refine (congrFun (h.hand_goto ha _) k).trans ?_
    cases k <;> rfl
  · intro a haq
    refine Function.update_of_ne ?_ ..
    rintro rfl
    rw [haq] at hvac
    cases hvac
  · simp [hatt]
  · intro k
    rw [ha.role]
    cases k <;> simp [Role.attHand]
  · exact fun a ha => Function.update_of_ne ha ..
  · simp [goto, setTh, setContp]
  · intro d
    refine (h.memb.proc d).congr fun a => ?_
    by_cases haq : a = q
    · simp [haq, hatt]
    · simp [haq, goto, setTh, setContp]
  · intro hv
    change (T.place q).vacant = false at hv
    rw [hvac] at hv
    cases hv
  · intro u a hu
    constructor
    · rintro rfl
      rw [ha.role] at hu
      cases hu
    · rintro rfl
      have := (h.memb.freed u _ hu).1
      rw [hatt] at this
      cases this
  · rw [ha.role]
    rfl
  · rw [ha.role]
    simp
  · intro u a hu
    refine Function.update_of_ne ?_ ..
    rintro rfl
    have := hown u (by rw [hu]; rfl)
    rw [hu] at this
    cases this
  · simp [hatt]
  · intro u hu
    rcases h.target_place hu with hp | hp <;> rw [hp] at hvac <;> cases hvac
  · intro u hu
    have := hown u (by rw [hu]; rfl)
    rw [hu] at this
    cases this
  · intro i hi
    have hiq : i ≠ q := by
      rintro rfl
      have := (h.init.init _ hi).1
      rw [hatt] at this
      cases this
    exact ⟨Function.update_of_ne hiq .., Function.update_of_ne hiq ..⟩
  · rintro _ ⟨⟩
    exact h.running ha

/-! ### `alloccont` and `cfork` -/

theorem Inv.alloccontPop {rest : List ContId} (h : v.Inv T) (ha : v.At (some p) .idle) (hu : v.contUnused = c :: rest) :
    ({ v with contUnused := rest }.goto (some p) (.contTaken c)).Inv
      { T with cont := update T.cont c (.hand .taken (some p)) } := by
  have hfree : T.cont c = .free := (h.conts.unused.2 c).1 (by rw [hu]; exact List.mem_cons_self)
  have hl : OnList (c :: rest) T.cont .free := hu ▸ h.conts.unused
  have hroot : contRoot ≠ c := by
    rintro rfl
    rw [h.init.root] at hfree
    cases hfree
  refine ⟨h.elem.same rfl ?_ rfl rfl rfl (fun _ _ => rfl) rfl fun _ _ => .rfl,
    h.memb.same rfl ?_ ?_ rfl (fun _ => rfl) rfl rfl,
    h.conts.move (c := c) (m := .hand .taken (some p)) rfl rfl (hl.pop nofun) (h.conts.run.keep ?_ nofun) ?_ ?_ ?_ ?_ nofun ?_
      nofun ?_ (h.conts.kept_same rfl rfl ?_ nofun) (fun _ _ => rfl) ?_ rfl,
    h.links.same rfl (.inl rfl) nofun (fun _ => ⟨rfl, id⟩) ?_ rfl,
    h.init.same rfl ⟨nofun, nofun⟩ rfl (fun _ _ => ⟨rfl, rfl⟩) (Function.update_of_ne hroot ..) rfl,
    h.harts.step rfl (.goto h ha (.inl rfl) ?_) (fun _ _ => id) fun _ _ => .inl rfl⟩
  · intro k
    rw [h.hand_at ha]
    refine (congrFun (h.hand_goto ha _) k).trans ?_
    cases k <;> rfl
  · rw [ha.role]
    funext k
    cases k <;> rfl
  · rw [ha.role]
    simp
  · simp [hfree]
  · simp [hfree]
  · simp
  · intro k hk
    rw [ha.role]
    cases k <;> exact .inl rfl
  · intro k
    rw [ha.role]
    cases k <;> simp [Role.contHand]
  · simp [hfree]
  · rw [ha.role]
    nofun
  · simp [hfree]
  · have := h.conts.used c
    rw [hfree] at this
    simpa [goto, setTh] using this
  · intro d hd
    have hdc : d ≠ c := by
      rintro rfl
      rw [hfree] at hd
      cases hd
    rwa [← Function.update_of_ne hdc (.hand .taken (some p)) T.cont] at hd
  · rintro _ ⟨⟩
    exact h.running ha

/-- The lists of a container that is not on `cont_run_list` are empty. -/
theorem Inv.lists_nil (h : v.Inv T) (hc : T.cont c ≠ .live) : v.runList c = [] ∧ v.procList c = [] := by
  constructor
  · refine List.eq_nil_iff_forall_not_mem.2 fun a hm => hc ?_
    have : (T.place a, v.contp a) = (.queued, some c) := ((h.elem.run c).2 a).1 hm
    obtain ⟨h1, h2⟩ := Prod.mk.inj this
    exact h.links.live a c h2 (h.memb.inside a (by rw [h1]; rfl))
  · refine List.eq_nil_iff_forall_not_mem.2 fun a hm => hc ?_
    have : (T.att a, v.contp a) = (.member, some c) := ((h.memb.proc c).2 a).1 hm
    obtain ⟨h1, h2⟩ := Prod.mk.inj this
    exact h.links.live a c h2 (by rw [h1]; rfl)

/-- `alloccont` sets `used` and empties lists that are empty. -/
private theorem Inv.setUsed_lists (h : v.Inv T) (hc : T.cont c ≠ .live) :
    ((v.setUsed c true).setProcs c []).setRun c [] = v.setUsed c true := by
  obtain ⟨h1, h2⟩ := h.lists_nil hc
  have h1' : update v.runList c [] = v.runList := by rw [← h1, Function.update_eq_self]
  have h2' : update v.procList c [] = v.procList := by rw [← h2, Function.update_eq_self]
  simp only [setUsed, setProcs, setRun, h1', h2']

theorem Inv.alloccontInit (h : v.Inv T) (ha : v.At (some p) (.contTaken c)) :
    ((((v.setUsed c true).setProcs c []).setRun c []).goto (some p) (.contNew c)).Inv
      { T with cont := update T.cont c (.hand .made (some p)) } := by
  have htk : T.cont c = .hand .taken (some p) := (h.conts.hand (some p) .taken c).1 (by
    change (v.th (some p)).role.contHand .taken = some c
    rw [ha.role]
    rfl)
  have hroot : contRoot ≠ c := by
    rintro rfl
    rw [h.init.root] at htk
    cases htk
  rw [h.setUsed_lists (by simp [htk])]
  refine ⟨h.elem.same rfl ?_ rfl rfl rfl (fun _ _ => rfl) rfl fun _ _ => .rfl,
    h.memb.same rfl ?_ ?_ rfl (fun _ => rfl) rfl rfl,
    h.conts.move (c := c) (m := .hand .made (some p)) rfl rfl (h.conts.unused.keep ?_ nofun) (h.conts.run.keep ?_ nofun) ?_ ?_
      ?_ ?_ nofun ?_ nofun ?_ (h.conts.kept_same rfl rfl ?_ nofun) ?_ ?_ rfl,
    h.links.same rfl (.inl rfl) nofun (fun _ => ⟨rfl, id⟩) ?_ rfl,
    h.init.same rfl ⟨nofun, nofun⟩ rfl (fun _ _ => ⟨rfl, rfl⟩) (Function.update_of_ne hroot ..) rfl,
    h.harts.step rfl (.goto h ha (.inl rfl) ?_) (fun _ _ => id) fun _ _ => .inl rfl⟩
  · intro k
    rw [h.hand_at ha]
    refine (congrFun (h.hand_goto ha _) k).trans ?_
    cases k <;> rfl
  · rw [ha.role]
    funext k
    cases k <;> rfl
  · rw [ha.role]
    simp
  · simp [htk]
  · simp [htk]
  · simp [htk]
  · simp
  · intro k hk
    rw [ha.role]
    cases hk
    exact .inl rfl
  · intro k
    rw [ha.role]
    cases k <;> simp [Role.contHand]
  · simp [htk]
  · rw [ha.role]
    nofun
  · simp [htk]
  · exact fun d hd => Function.update_of_ne hd ..
  · simp [goto, setTh, setUsed]
  · intro d hd
    have hdc : d ≠ c := by
      rintro rfl
      rw [htk] at hd
      cases hd
    rwa [← Function.update_of_ne hdc (.hand .made (some p)) T.cont] at hd
  · rintro _ ⟨⟩
    exact h.running ha

theorem Inv.failCont (h : v.Inv T) (ha : v.At (some p) (.contTaken c)) :
    ((((v.setUsed c true).setProcs c []).setRun c []).setTh (some p)
      { v.th (some p) with role := .idle, kept := c :: (v.th (some p)).kept }).Inv
      { T with cont := update T.cont c (.kept (some p)) } := by
  have htk : T.cont c = .hand .taken (some p) := (h.conts.hand (some p) .taken c).1 (by
    change (v.th (some p)).role.contHand .taken = some c
    rw [ha.role]
    rfl)
  have hroot : contRoot ≠ c := by
    rintro rfl
    rw [h.init.root] at htk
    cases htk
  obtain ⟨⟨k, hk⟩, hsw, hwk⟩ := ha.run p rfl
  have hrun := h.running ha
  rw [h.setUsed_lists (by simp [htk])]
  refine ⟨h.elem.same rfl ?_ rfl rfl rfl (fun _ _ => rfl) rfl fun _ _ => .rfl,
    h.memb.same rfl ?_ ?_ rfl (fun _ => rfl) rfl rfl,
    h.conts.move (c := c) (m := .kept (some p)) rfl rfl (h.conts.unused.keep ?_ (by simp)) (h.conts.run.keep ?_ (by simp)) ?_ (by simp) (by simp)
      ?_ (by simp) ?_ (by simp) ?_ ?_ ?_ ?_ rfl,
    h.links.same rfl (.inl rfl) (by simp) (fun _ => ⟨rfl, id⟩) ?_ rfl,
    h.init.same rfl ⟨by simp, by simp⟩ rfl (fun _ _ => ⟨rfl, rfl⟩) (Function.update_of_ne hroot ..) rfl,
    h.harts.step rfl ⟨.inl ?_, ?_, ?_, ?_, ?_, ?_, ?_, by simp⟩ (fun _ _ => id) fun _ _ => .inl rfl⟩
  · intro k
    rw [h.hand_at ha]
    cases k <;> simp [ThView.hand, Role.hand, hsw, hwk]
  · rw [ha.role]
    funext k
    cases k <;> rfl
  · rw [ha.role]
    simp
  · simp [htk]
  · simp [htk]
  · simp [htk]
  · intro k
    rw [ha.role]
    cases k <;> simp [Role.contHand]
  · simp [htk]
  · rw [ha.role]
    simp
  · intro u d
    rcases th_cases (v := v) (w := (v.setUsed c true).setTh (some p) { v.th (some p) with
      role := .idle, kept := c :: (v.th (some p)).kept }) rfl u with ⟨rfl, hu⟩ | ⟨hne, hu⟩ <;> rw [hu]
    · by_cases hd : d = c
      · simp [hd]
      · simp [hd, h.conts.kept]
    · rw [h.conts.kept]
      by_cases hd : d = c
      · simp [hd, htk, Ne.symm hne]
      · simp [hd]
  · exact fun d hd => Function.update_of_ne hd ..
  · simp [setTh, setUsed]
  · intro d hd
    have hdc : d ≠ c := by
      rintro rfl
      rw [htk] at hd
      cases hd
    rwa [← Function.update_of_ne hdc (.kept (some p)) T.cont] at hd
  · simp [ThView.plock, ThView.inner, hsw, hwk, Role.plock]
  · exact fun hne => absurd hsw hne
  · exact fun hne => absurd hwk hne
  · rintro k' _ ⟨⟩ -
    exact ⟨fun b => by simp [hsw], fun _ => hrun, by simp [hrun, Place.alive]⟩
  · rintro _ ⟨⟩ hal
    simp [hrun, Place.alive] at hal
  · rintro _ ⟨⟩ hz
    simp [hrun] at hz
  · intro m hm
    rw [hsw] at hm
    cases hm

/-- A `fork` into the container `c` begins. -/
private theorem Links.fork {g : Bool} (h : v.Links T) (hth : w.th = update v.th t x) (hx : x.role = .forking c g)
    (hatt : U.att = T.att) (hcont : ∀ d, T.cont d = .live → U.cont d = .live) (hc : w.contp = v.contp)
    (hlive : U.cont c = .live) (hown : g = false → ∃ p, t = some p ∧ v.contp p = some c ∧ T.att p = .member)
    (hfresh : g = true → ∀ a, v.contp a = some c → (T.att a).inside = false)
    (halone : ∀ u g', u ≠ t → g = true ∨ g' = true → (v.th u).role.into ≠ some (c, g'))
    (hempt : ∀ u a, (v.th u).role = .emptied a → v.contp a ≠ some c) : w.Links U := by
  have hinto : ∀ u d g', (w.th u).role.into = some (d, g') →
      u = t ∧ d = c ∧ g' = g ∨ u ≠ t ∧ w.th u = v.th u ∧ (v.th u).role.into = some (d, g') := by
    intro u d g' hu
    rcases th_cases hth u with ⟨rfl, hw⟩ | ⟨hne, hw⟩
    · rw [hw, hx] at hu
      cases hu
      exact .inl ⟨rfl, rfl, rfl⟩
    · rw [hw] at hu
      exact .inr ⟨hne, hw, hu⟩
  have hemp : ∀ u a, (w.th u).role = .emptied a → (v.th u).role = .emptied a := by
    intro u a hu
    rcases th_cases hth u with ⟨rfl, hw⟩ | ⟨-, hw⟩ <;> rw [hw] at hu
    · rw [hx] at hu
      cases hu
    · exact hu
  refine ⟨?_, ?_, ?_, ?_, ?_, ?_, ?_, ?_⟩
  · intro a d had hai
    rw [hc] at had
    rw [hatt] at hai
    exact hcont d (h.live a d had hai)
  · intro u d g' hu
    rcases hinto u d g' hu with ⟨-, rfl, -⟩ | ⟨-, -, hu⟩
    · exact hlive
    · exact hcont d (h.into u d g' hu)
  · intro u d hu
    rw [hc, hatt]
    rcases hinto u d _ hu with ⟨rfl, rfl, hg⟩ | ⟨-, -, hu⟩
    · exact .inr (hown hg.symm)
    · exact h.own u d hu
  · intro u d hu a had hai
    rw [hc] at had
    rw [hatt] at hai
    rcases hinto u d _ hu with ⟨-, rfl, hg⟩ | ⟨-, hw, hu⟩
    · rw [hfresh hg.symm a had] at hai
      cases hai
    · rw [hw]
      exact h.fresh u d hu a had hai
  · intro u d g' a hu hua
    rw [hc]
    rcases hinto u d g' hu with ⟨rfl, -, -⟩ | ⟨-, hw, hu⟩
    · rw [hth, Function.update_self, hx] at hua
      cases hua
    · rw [hw] at hua
      exact h.target u d g' a hu hua
  · intro u a hu
    replace hu := hemp u a hu
    obtain ⟨d, h1, h2, h3, h4⟩ := h.emptied u a hu
    rw [hc, hatt]
    refine ⟨d, h1, hcont d h2, h3, ?_⟩
    intro t' g' ht'
    rcases hinto t' d g' ht' with ⟨-, rfl, -⟩ | ⟨-, -, ht'⟩
    · exact hempt u a hu h1
    · exact h4 t' g' ht'
  · intro u u' d g' hu hu'
    rcases hinto u d _ hu with ⟨rfl, rfl, hg⟩ | ⟨hne, -, hu⟩ <;>
      rcases hinto u' d g' hu' with ⟨hut, hdc, hg'⟩ | ⟨hne', -, hu'⟩
    · exact hut
    · exact absurd hu' (halone u' g' hne' (.inl hg.symm))
    · exact absurd (hdc ▸ hu) (halone u true hne (.inr rfl))
    · exact h.alone u u' d g' hu hu'
  · intro u u' a a' hu hu' haa
    rw [hc] at haa
    exact h.once u u' a a' (hemp u a hu) (hemp u' a' hu') haa

theorem Inv.cforkPush (h : v.Inv T) (ha : v.At (some p) (.contNew c)) :
    ({ v with contRun := v.contRun ++ [c] }.goto (some p) (.forking c true)).Inv
      { T with cont := update T.cont c .live } := by
  have hmk : T.cont c = .hand .made (some p) := (h.conts.hand (some p) .made c).1 (by
    change (v.th (some p)).role.contHand .made = some c
    rw [ha.role]
    rfl)
  have hroot : contRoot ≠ c := by
    rintro rfl
    rw [h.init.root] at hmk
    cases hmk
  have hnl : T.cont c ≠ .live := by simp [hmk]
  refine ⟨h.elem.same rfl ?_ rfl rfl rfl (fun _ _ => rfl) rfl fun _ _ => .rfl,
    h.memb.same rfl ?_ ?_ rfl (fun _ => rfl) rfl rfl,
    h.conts.move (c := c) (m := .live) rfl rfl (h.conts.unused.keep ?_ nofun) (h.conts.run.push ?_) ?_ nofun nofun
      ?_ nofun ?_ nofun ?_ (h.conts.kept_same rfl rfl ?_ nofun) (fun _ _ => rfl) ?_ rfl,
    h.links.fork (c := c) (g := true) rfl rfl rfl ?_ rfl (Function.update_self ..) nofun ?_ ?_ ?_,
    h.init.same rfl ⟨nofun, nofun⟩ rfl (fun _ _ => ⟨rfl, rfl⟩) (Function.update_of_ne hroot ..) rfl,
    h.harts.step rfl (.goto h ha (.inl rfl) ?_) (fun _ _ => id) fun _ _ => .inl rfl⟩
  · intro k
    rw [h.hand_at ha]
    refine (congrFun (h.hand_goto ha _) k).trans ?_
    cases k <;> rfl
  · rw [ha.role]
    funext k
    cases k <;> rfl
  · rw [ha.role]
    simp
  · simp [hmk]
  · exact hnl
  · simp [hmk]
  · intro k
    rw [ha.role]
    cases k <;> simp [Role.contHand]
  · simp [hmk]
  · rw [ha.role]
    nofun
  · simp [hmk]
  · have := h.conts.used c
    rw [hmk] at this
    simpa [goto, setTh] using this
  · intro d hd
    have hdc : d ≠ c := by
      rintro rfl
      exact hnl hd
    rwa [← Function.update_of_ne hdc .live T.cont] at hd
  · intro _ a hac
    rw [← Bool.not_eq_true]
    exact fun hi => hnl (h.links.live a c hac hi)
  · exact fun u fr' _ _ hu => hnl (h.links.into u c fr' hu)
  · intro u a hu hac
    obtain ⟨d, hd, hdl, -⟩ := h.links.emptied u a hu
    rw [hac] at hd
    cases hd
    exact hnl hdl
  · rintro _ ⟨⟩
    exact h.running ha

theorem Inv.callFork (h : v.Inv T) (ha : v.At (some p) .idle) (hc : v.contp p = some c) :
    (v.goto (some p) (.forking c false)).Inv T := by
  have hrun := h.running ha
  have hm : T.att p = .member := h.member (by rw [hrun]; rfl) fun u _ => by simp [hrun]
  have hin : (T.att p).inside := by rw [hm]; rfl
  refine ⟨h.elem.same rfl ?_ rfl rfl rfl (fun _ _ => rfl) rfl fun _ _ => .rfl,
    h.memb.same rfl ?_ ?_ rfl (fun _ => rfl) rfl rfl,
    h.conts.same rfl ?_ ?_ rfl rfl rfl rfl rfl fun _ _ _ => rfl,
    h.links.fork (c := c) (g := false) rfl rfl rfl (fun _ => id) rfl (h.links.live p c hc hin) (fun _ => ⟨p, rfl, hc, hm⟩) nofun
      ?_ ?_,
    h.init.same rfl ⟨nofun, nofun⟩ rfl (fun _ _ => ⟨rfl, rfl⟩) rfl rfl,
    h.harts.step rfl (.goto h ha (.inl rfl) ?_) (fun _ _ => id) fun _ _ => .inl rfl⟩
  · intro k
    rw [h.hand_at ha]
    refine (congrFun (h.hand_goto ha _) k).trans ?_
    cases k <;> rfl
  · rw [ha.role]
    funext k
    cases k <;> rfl
  · rw [ha.role]
    simp
  · rw [ha.role]
    funext k
    cases k <;> rfl
  · rw [ha.role]
    simp
  · -- in a new container there is nobody who could call `fork`
    intro u fr' _ hfr hu
    obtain rfl : fr' = true := by simpa using hfr
    rcases h.target_place (h.links.fresh u c hu p hc hin) with hp | hp <;> rw [hrun] at hp <;> cases hp
  · intro u a hu hac
    obtain ⟨d, hd, -, hno, -⟩ := h.links.emptied u a hu
    rw [hac] at hd
    cases hd
    rw [hno p hc] at hin
    cases hin
  · rintro _ ⟨⟩
    exact hrun

end View

end Xv6
