import Xv6.ProcInv

/-!
# Every move keeps the invariant
-/

namespace Xv6

open Function (update)

namespace View

variable {v w : View} {T U : Table} {t : Thread} {x : ThView} {p q np : Slot} {b : Place} {c : ContId} {fr : Bool}
  {r r' : Role} {k : Fin NCPU} {rest : List Slot}

/-! ### Changes of role that move nothing -/

private theorem Inv.goto_same (h : v.Inv T) (ha : v.At t r) (hr : RoleLike r r') (hh : ∀ k, r'.hand k = r.hand k)
    (hx : v.InitRole t r')
    (hpl : r'.plock = none ∨ r'.plock = r.plock ∨ ∃ q, r'.plock = some q ∧ v.PFree q) : (v.goto t r').Inv T := by
  obtain ⟨hm, hc, hl⟩ := h.like (w := v.goto t r') (U := T) rfl (by rw [ha.role]; exact hr) rfl rfl rfl (fun _ => rfl)
    ⟨rfl, rfl, rfl, rfl, rfl⟩
  refine ⟨h.elem.same rfl ?_ rfl rfl rfl (fun _ _ => rfl) rfl fun _ _ => .rfl, hm, hc, hl,
    h.init.same rfl hx rfl (fun _ _ => ⟨rfl, rfl⟩) rfl rfl, h.harts.step rfl (.goto h ha hpl ?_) (fun _ _ => id)
      fun _ _ => .inl rfl⟩
  · intro k
    rw [h.hand_at ha, h.hand_goto ha]
    exact hh k
  · rintro p rfl
    exact h.running ha

theorem Inv.callExit (h : v.Inv T) (ha : v.At (some p) .idle) (hi : v.initproc ≠ some p) :
    (v.goto (some p) .exiting).Inv T := by
  refine h.goto_same ha ⟨rfl, by simp, rfl, by simp, .inl rfl, nofun⟩ (fun k => by cases k <;> rfl) ⟨?_, nofun⟩
    (.inl rfl)
  intro p' hp _
  exact Option.some.inj hp ▸ hi

theorem Inv.allocprocNone (h : v.Inv T) (ha : v.At (some p) (.forking c fr)) : (v.goto (some p) .idle).Inv T :=
  h.goto_same ha ⟨rfl, by simp, rfl, by simp, .inl rfl, nofun⟩ (fun k => by cases k <;> rfl) ⟨nofun, nofun⟩ (.inl rfl)

theorem Inv.allocprocLock (h : v.Inv T) (ha : v.At t (.took c fr np)) (hf : v.PFree np) :
    (v.goto t (.locked c fr np)).Inv T :=
  h.goto_same ha ⟨rfl, by simp, rfl, by simp, .inr ⟨rfl, rfl⟩, nofun⟩ (fun k => by cases k <;> rfl)
    ⟨nofun, fun _ => .inr (by rw [ha.role]; rfl)⟩ (.inr (.inr ⟨np, rfl, hf⟩))

theorem Inv.forkCopy (h : v.Inv T) (ha : v.At (some p) (.listed c fr np)) : (v.goto (some p) (.grown c fr np)).Inv T :=
  h.goto_same ha ⟨rfl, by simp, rfl, by simp, .inr ⟨rfl, rfl⟩, nofun⟩ (fun k => by cases k <;> rfl) ⟨nofun, nofun⟩ (.inl rfl)

/-- A process on its hart, with another `waking`. -/
private theorem NewTh.setWaking (hsw : (v.th (some p)).sw = .run)
    (hwk : (v.th (some p)).role = .idle ∨ (v.th (some p)).role = .exiting) {m : Option (Option Slot)}
    (hm : m.join = none ∨ ∃ q, m.join = some q ∧ v.PFree q) (hp : U.place p = .running) :
    NewTh v w U (some p) { v.th (some p) with waking := m } := by
  have hrp : (v.th (some p)).role.plock = none := by rcases hwk with hr | hr <;> rw [hr] <;> rfl
  have hpl : ({ v.th (some p) with waking := m } : ThView).plock (some p) = m.join := by
    rcases m with _ | _ | q <;> simp [ThView.plock, ThView.inner, hsw, hrp]
  constructor
  · rw [hpl]
    exact hm.imp_right .inr
  · exact fun hne => absurd hsw hne
  · exact fun _ => hwk
  · intro k' p' ht _
    cases ht
    exact ⟨fun b => by simp [hsw], fun _ => hp, by rw [hp]; rfl⟩
  · intro p' ht hal
    cases ht
    rw [hp] at hal
    cases hal
  · intro p' ht hz
    cases ht
    rw [hp] at hz
    cases hz
  · intro b hb
    rw [hsw] at hb
    cases hb
  · simp

private theorem InitRole.stay (h : v.Inv T) : v.InitRole t (v.th t).role where
  exiting := by
    rintro p rfl hr
    exact h.init.exiting p hr
  boot _ := .inr rfl

theorem Inv.wakeupCall (h : v.Inv T) (ha : v.At (some p) r) (hr : r = .idle ∨ r = .exiting) :
    (v.setTh (some p) { v.th (some p) with waking := some none }).Inv T := by
  obtain ⟨⟨k, hk⟩, hsw, hwk⟩ := ha.run p rfl
  have hrole : (v.th (some p)).role = .idle ∨ (v.th (some p)).role = .exiting := by rwa [ha.role]
  obtain ⟨hm, hc, hl⟩ := h.like (w := v.setTh (some p) { v.th (some p) with waking := some none }) (U := T) rfl
    .refl rfl rfl rfl (fun _ => rfl) ⟨rfl, rfl, rfl, rfl, rfl⟩
  refine ⟨h.elem.same rfl ?_ rfl rfl rfl (fun _ _ => rfl) rfl fun _ _ => .rfl, hm, hc, hl,
    h.init.same rfl (.stay h) rfl (fun _ _ => ⟨rfl, rfl⟩) rfl rfl,
    h.harts.step rfl (.setWaking hsw hrole (.inl rfl) (h.running ha)) (fun _ _ => id) fun _ _ => .inl rfl⟩
  intro k
  cases k <;> simp [ThView.hand, hwk]

theorem Inv.wakeupEnd (h : v.Inv T) (hw : v.Waking p none) :
    (v.setTh (some p) { v.th (some p) with waking := none }).Inv T := by
  obtain ⟨k, hk⟩ := hw.on
  have hrole := h.harts.waking (some p) (by simp [hw.waking])
  obtain ⟨hm, hc, hl⟩ := h.like (w := v.setTh (some p) { v.th (some p) with waking := none }) (U := T) rfl
    .refl rfl rfl rfl (fun _ => rfl) ⟨rfl, rfl, rfl, rfl, rfl⟩
  refine ⟨h.elem.same rfl ?_ rfl rfl rfl (fun _ _ => rfl) rfl fun _ _ => .rfl, hm, hc, hl,
    h.init.same rfl (.stay h) rfl (fun _ _ => ⟨rfl, rfl⟩) rfl rfl,
    h.harts.step rfl (.setWaking hw.sw hrole (.inl rfl) ((h.harts.onCpu k p hk).2.1 hw.sw)) (fun _ _ => id)
      fun _ _ => .inl rfl⟩
  intro k
  cases k <;> simp [ThView.hand, hw.waking]

/-! ### Moves of one `elem` by a thread -/

private theorem state_eq (h : v.Inv T) (hw : w.state = v.state) (hb : b.state = (T.place q).state) :
    w.state = update v.state q b.state := by
  rw [hw, hb, ← h.elem.state q, Function.update_eq_self]

theorem Inv.allocprocPop (h : v.Inv T) (ha : v.At t (.forking c fr)) (hu : v.unused = np :: rest) :
    ({ v with unused := rest }.goto t (.took c fr np)).Inv { T with place := update T.place np (.hand .taken t) } := by
  have hfree : T.place np = .free := (h.elem.unused.2 np).1 (by rw [hu]; exact List.mem_cons_self)
  have hl : OnList (np :: rest) T.place .free := hu ▸ h.elem.unused
  have hna : (T.place np).alive = false := by rw [hfree]; rfl
  have hpass : v.Passes T t { v.th t with role := .took c fr np } np (.hand .taken t) := by
    refine .goto h ha ?_ ?_ ?_ ?_
    · simp [hfree]
    · simp
    · exact fun k _ => .inl (by cases k <;> rfl)
    · intro k
      cases k <;> simp [Role.hand]
  refine h.move rfl ?_ rfl ⟨rfl, rfl, rfl, rfl, rfl⟩ rfl (h.elem.move rfl rfl hpass (hl.pop (by simp)) rfl (fun _ _ => rfl) ?_ (by simp)
    rfl ?_ (by simp) (state_eq h rfl ?_)) ?_ ⟨by simp, fun _ => .inr (by rw [ha.role]; rfl)⟩ ?_ (fun _ => .inl rfl) (h.harts.step rfl (.goto h ha (.inl rfl) (h.still ha rfl ?_))
      (fun _ _ => id) fun a _ => h.others (b := .hand .taken t) rfl ?_ (by simp) (.inr hna) a)
  · rw [ha.role]
    exact ⟨rfl, by simp, rfl, by simp, .inr ⟨rfl, rfl⟩, by simp⟩
  · simp [hfree]
  · simp [hfree]
  · rw [hfree]
    rfl
  · rw [hfree]
    rfl
  · intro hi
    have := (h.init.init np hi).2.2.1
    rw [hna] at this
    cases this
  · simp [hfree]
  · simp [hfree]

theorem Inv.forkRunnable (h : v.Inv T) (ha : v.At (some p) (.grown c fr np)) :
    ((v.setState np .runnable).goto (some p) (.ready c fr np)).Inv
      { T with place := update T.place np (.hand .start (some p)) } := by
  have hpl : T.place np = .hand .made (some p) := h.place_of_hand ha (k := .made) rfl
  have hpass : v.Passes T (some p) { v.th (some p) with role := .ready c fr np } np (.hand .start (some p)) := by
    refine .goto h ha ?_ ?_ ?_ ?_
    · simp [hpl]
    · simp
    · exact fun k hk => .inl (by cases hk; rfl)
    · intro k
      cases k <;> simp [Role.hand]
  refine h.move rfl ?_ rfl ⟨rfl, rfl, rfl, rfl, rfl⟩ rfl (h.elem.move rfl rfl hpass (h.elem.unused.keep ?_ (by simp)) rfl
    (fun _ _ => rfl) ?_ (by simp) rfl ?_ (by simp) rfl) ?_ ⟨by simp, by simp⟩ (fun _ => ⟨rfl, by simp⟩) (fun hn => absurd hn (h.started ha))
      (h.harts.step rfl (.goto h ha (.inl rfl) (h.still ha rfl ?_)) (fun _ _ => id) fun a _ =>
        h.others (b := .hand .start (some p)) rfl ?_ (by simp) (.inl rfl) a)
  · rw [ha.role]
    exact ⟨rfl, by simp, rfl, by simp, .inr ⟨rfl, rfl⟩, by simp⟩
  · simp [hpl]
  · simp [hpl]
  · simp [hpl]
  · rw [hpl]
    rfl
  · simp [hpl]
  · simp [hpl]

theorem Inv.killHit (h : v.Inv T) (ha : v.At (some p) .idle) (hf : v.PFree q) (hst : v.state q = .sleeping) :
    ((v.setState q .runnable).goto (some p) (.killing q)).Inv
      { T with place := update T.place q (.hand .kill (some p)) } := by
  have hpl : T.place q = .sleeping := place_of_state h (.inl rfl) hst
  have hpass : v.Passes T (some p) { v.th (some p) with role := .killing q } q (.hand .kill (some p)) := by
    refine .goto h ha ?_ ?_ ?_ ?_
    · simp [hpl]
    · simp
    · exact fun k hk => .inl (by cases hk; rfl)
    · intro k
      cases k <;> simp [Role.hand]
  refine h.move rfl ?_ rfl ⟨rfl, rfl, rfl, rfl, rfl⟩ rfl (h.elem.move rfl rfl hpass (h.elem.unused.keep ?_ (by simp)) rfl
    (fun _ _ => rfl) ?_ (by simp) rfl ?_ (by simp) rfl) ?_ ⟨by simp, by simp⟩ (fun _ => ⟨rfl, by simp⟩) (fun hn => absurd hn (h.started ha))
      (h.harts.step rfl (.goto h ha (.inr (.inr ⟨q, rfl, hf⟩)) (h.still ha rfl ?_)) (fun _ _ => id) fun a _ =>
        h.others (b := .hand .kill (some p)) rfl ?_ (by simp) (.inl rfl) a)
  · rw [ha.role]
    exact ⟨rfl, by simp, rfl, by simp, .inl rfl, by simp⟩
  · simp [hpl]
  · simp [hpl]
  · simp [hpl]
  · rw [hpl]
    rfl
  · simp [hpl]
  · simp [hpl]

/-- A thread at `r` that drops `q` on the way to `idle`. -/
private theorem Passes.drop (h : v.Inv T) (ha : v.At t r) {k : Hand} (hq : T.place q = .hand k t)
    (hr : r.hand = update (fun _ => none) k (some q)) :
    v.Passes T t { v.th t with role := .idle } q .queued := by
  refine .goto h ha ?_ nofun nofun ?_
  · intro k' u hk
    rw [hq] at hk
    cases hk
    rfl
  · intro k'
    rw [hr]
    by_cases hk : k' = k
    · subst hk
      cases k' <;> simp [Role.hand]
    · cases k' <;> simp [Role.hand, hk]

theorem Inv.forkPush (h : v.Inv T) (ha : v.At t (.ready c fr np)) :
    ((v.setRun c (v.runList c ++ [np])).goto t .idle).Inv { T with place := update T.place np .queued } := by
  have hpl : T.place np = .hand .start t := h.place_of_hand ha (k := .start) rfl
  have hc : v.contp np = some c := h.links.target t c fr np (by rw [ha.role]; rfl) (by rw [ha.role]; rfl)
  have hn : v.initproc ≠ none := by
    intro hn
    rcases h.init.before hn np with hv | hv <;> rw [hpl] at hv <;> cases hv
  refine h.move rfl ?_ rfl ⟨rfl, rfl, rfl, rfl, rfl⟩ rfl (h.elem.push rfl rfl (Passes.drop h ha hpl ?_) rfl ?_ ?_ hc rfl
    rfl rfl ?_ ?_ rfl) ?_ ⟨nofun, fun _ => .inl rfl⟩ (fun _ => ⟨rfl, nofun⟩) (fun hn' => absurd hn' hn)
      (h.harts.step rfl (.goto h ha (.inl rfl) (h.still ha rfl ?_)) (fun _ _ => id) fun a _ =>
        h.others (b := .queued) rfl ?_ nofun (.inl rfl) a)
  · rw [ha.role]
    exact ⟨rfl, by simp, rfl, by simp, .inl rfl, nofun⟩
  · funext k
    cases k <;> rfl
  · simp [hpl]
  · simp [hpl]
  · simp [hpl]
  · rw [hpl]
    rfl
  · rw [hpl]
    rfl
  · simp [hpl]
  · simp [hpl]

theorem Inv.killPush (h : v.Inv T) (ha : v.At (some p) (.killing q)) (hc : v.contp q = some c) :
    ((v.setRun c (v.runList c ++ [q])).goto (some p) .idle).Inv { T with place := update T.place q .queued } := by
  have hpl : T.place q = .hand .kill (some p) := h.place_of_hand ha (k := .kill) rfl
  refine h.move rfl ?_ rfl ⟨rfl, rfl, rfl, rfl, rfl⟩ rfl (h.elem.push rfl rfl (Passes.drop h ha hpl ?_) rfl ?_ ?_ hc rfl
    rfl rfl ?_ ?_ rfl) ?_ ⟨nofun, nofun⟩ (fun _ => ⟨rfl, nofun⟩) (fun hn => absurd hn (h.started ha))
      (h.harts.step rfl (.goto h ha (.inl rfl) (h.still ha rfl ?_)) (fun _ _ => id) fun a _ =>
        h.others (b := .queued) rfl ?_ nofun (.inl rfl) a)
  · rw [ha.role]
    exact ⟨rfl, by simp, rfl, by simp, .inl rfl, nofun⟩
  · funext k
    cases k <;> rfl
  · simp [hpl]
  · simp [hpl]
  · simp [hpl]
  · rw [hpl]
    rfl
  · rw [hpl]
    rfl
  · simp [hpl]
  · simp [hpl]

theorem Inv.wakeupHit (h : v.Inv T) (hw : v.Waking p none) (hf : v.PFree q) (hst : v.state q = .sleeping) :
    ((v.setState q .runnable).setTh (some p) { v.th (some p) with waking := some (some q) }).Inv
      { T with place := update T.place q (.hand .wakeup (some p)) } := by
  obtain ⟨k, hk⟩ := hw.on
  have hpl : T.place q = .sleeping := place_of_state h (.inl rfl) hst
  have hrun : T.place p = .running := (h.harts.onCpu k p hk).2.1 hw.sw
  have hpq : p ≠ q := by
    rintro rfl
    rw [hrun] at hpl
    cases hpl
  have hrole := h.harts.waking (some p) (by simp [hw.waking])
  have hpass : v.Passes T (some p) { v.th (some p) with waking := some (some q) } q (.hand .wakeup (some p)) := by
    constructor
    · simp [hpl]
    · simp
    · exact fun k hk => .inl (by cases hk; simp [ThView.hand, hw.waking])
    · intro k
      have hnone : k ≠ .wakeup → (v.th (some p)).hand (some p) k = none := by
        intro hk
        rcases hrole with hr | hr <;> cases k <;> simp [ThView.hand, hw.sw, hr, Role.hand] at hk ⊢
      by_cases hk : k = .wakeup
      · subst hk
        simp [ThView.hand]
      · rw [if_neg (by simpa using Ne.symm hk), hnone hk]
        have := hnone hk
        cases k <;> simp_all [ThView.hand]
  refine h.move rfl .refl rfl ⟨rfl, rfl, rfl, rfl, rfl⟩ rfl (h.elem.move rfl rfl hpass (h.elem.unused.keep ?_ (by simp))
    rfl (fun _ _ => rfl) ?_ (by simp) rfl ?_ (by simp) rfl) ?_ (.stay h) (fun _ => ⟨rfl, by simp⟩) ?_ (h.harts.step rfl
      (.setWaking hw.sw hrole (.inr ⟨q, rfl, hf⟩) ?_) (fun _ _ => id) fun a _ =>
        h.others (b := .hand .wakeup (some p)) rfl ?_ (by simp) (.inl rfl) a)
  · simp [hpl]
  · simp [hpl]
  · simp [hpl]
  · rw [hpl]
    rfl
  · intro hn
    rcases h.init.before hn p with hv | hv <;> rw [hrun] at hv <;> cases hv
  · simp [hpq, hrun]
  · simp [hpl]

theorem Inv.wakeupPush (h : v.Inv T) (hw : v.Waking p (some q)) (hc : v.contp q = some c) :
    ((v.setRun c (v.runList c ++ [q])).setTh (some p) { v.th (some p) with waking := some none }).Inv
      { T with place := update T.place q .queued } := by
  obtain ⟨k, hk⟩ := hw.on
  have hpl : T.place q = .hand .wakeup (some p) := by
    refine (h.elem.hand (some p) .wakeup q).1 ?_
    simp [ThView.hand, hw.waking]
  have hrun : T.place p = .running := (h.harts.onCpu k p hk).2.1 hw.sw
  have hpq : p ≠ q := by
    rintro rfl
    rw [hrun] at hpl
    cases hpl
  have hrole := h.harts.waking (some p) (by simp [hw.waking])
  have hpass : v.Passes T (some p) { v.th (some p) with waking := some none } q .queued := by
    constructor
    · simp [hpl]
    · simp
    · simp
    · intro k
      rcases hrole with hr | hr <;> cases k <;> simp [ThView.hand, hw.waking, hw.sw, hr, Role.hand]
  refine h.move rfl .refl rfl ⟨rfl, rfl, rfl, rfl, rfl⟩ rfl (h.elem.push rfl rfl hpass rfl ?_ ?_ hc rfl
    rfl rfl ?_ ?_ rfl) ?_ (.stay h) (fun _ => ⟨rfl, by simp⟩) ?_ (h.harts.step rfl
      (.setWaking hw.sw hrole (.inl rfl) ?_) (fun _ _ => id) fun a _ => h.others (b := .queued) rfl ?_ (by simp) (.inl rfl) a)
  · simp [hpl]
  · simp [hpl]
  · simp [hpl]
  · rw [hpl]
    rfl
  · rw [hpl]
    rfl
  · intro hn
    rcases h.init.before hn p with hv | hv <;> rw [hrun] at hv <;> cases hv
  · simp [hpq, hrun]
  · simp [hpl]

/-! ### A process leaves its hart -/

/-- A process that gives up its hart: it holds its own lock, and is no longer `RUNNING`. -/
private theorem NewTh.leave (hsw : x.sw = .push ∨ ∃ m, x.sw = .sched m)
    (hpl : v.PFree p ∨ (v.th (some p)).plock (some p) = some p) (hin : x.inner = none)
    (hwk : x.waking ≠ none → x.role = .idle ∨ x.role = .exiting) (hal : (U.place p).alive)
    (hz : U.place p = .zombie → x.role = .idle ∧ x.waking = none ∧ x.sw ≠ .push) : NewTh v w U (some p) x := by
  have hown : x.plock (some p) = some p := by
    rcases hsw with hsw | ⟨m, hsw⟩ <;> simp [ThView.plock, hsw]
  have hrun : x.sw ≠ .run ∧ ∀ m, x.sw ≠ .off m := by
    rcases hsw with hsw | ⟨m, hsw⟩ <;> simp [hsw]
  constructor
  · rw [hown]
    exact .inr (hpl.symm.imp Eq.symm fun hf => ⟨p, rfl, hf⟩)
  · exact fun _ => hin
  · exact hwk
  · intro k p' hp _
    cases hp
    exact ⟨hrun.2, fun hr => absurd hr hrun.1, hal⟩
  · intro p' hp ha
    cases hp
    rw [hal] at ha
    cases ha
  · intro p' hp hp'
    cases hp
    obtain ⟨h1, h2, h3⟩ := hz hp'
    exact ⟨h1, h2, hrun.1, h3⟩
  · exact fun m hm => absurd hm (hrun.2 m)
  · simp

/-- Only the acting process moves. -/
private theorem others_self (hT : U.place = update T.place p b) (a : Slot) (ha : some a ≠ some p) :
    U.place a = T.place a := by
  rw [hT, Function.update_of_ne]
  rintro rfl
  exact ha rfl

theorem Inv.yield (h : v.Inv T) (hon : v.cpu k = .running p) (hsw : (v.th (some p)).sw = .run)
    (hi : (v.th (some p)).inner = none) (hf : v.PFree p) :
    ((v.setState p .runnable).setTh (some p) { v.th (some p) with sw := .push }).Inv
      { T with place := update T.place p (.hand .yield (some p)) } := by
  have hrun : T.place p = .running := (h.harts.onCpu k p hon).2.1 hsw
  have hpass : v.Passes T (some p) { v.th (some p) with sw := .push } p (.hand .yield (some p)) := by
    constructor
    · simp [hrun]
    · simp
    · exact fun k hk => .inl (by cases hk; simp [ThView.hand, hsw])
    · intro k
      have hne : (v.th (some p)).hand (some p) k ≠ some p := by
        intro hk
        have := (h.elem.hand (some p) k p).1 hk
        rw [hrun] at this
        cases this
      rw [if_neg hne]
      cases k <;> simp [ThView.hand]
  refine h.move rfl .refl rfl ⟨rfl, rfl, rfl, rfl, rfl⟩ rfl (h.elem.move rfl rfl hpass
    (h.elem.unused.keep ?_ (by simp)) rfl (fun _ _ => rfl) ?_ (by simp) rfl ?_ (by simp) rfl) ?_ (.stay h) (fun _ => ⟨rfl, by simp⟩) ?_
      (h.harts.step rfl (.leave (.inl rfl) (.inl hf) hi (h.harts.waking _) ?_ ?_) (fun _ _ => id)
        fun a ha => .inl (others_self rfl a ha))
  · simp [hrun]
  · simp [hrun]
  · simp [hrun]
  · rw [hrun]
    rfl
  · intro hn
    rcases h.init.before hn p with hv | hv <;> rw [hrun] at hv <;> cases hv
  · simp [Place.alive]
  · simp

theorem Inv.yieldPush (h : v.Inv T) (hsw : (v.th (some p)).sw = .push) (hc : v.contp p = some c) :
    ((v.setRun c (v.runList c ++ [p])).setTh (some p) { v.th (some p) with sw := .sched false }).Inv
      { T with place := update T.place p .queued } := by
  have hpl : T.place p = .hand .yield (some p) := by
    refine (h.elem.hand (some p) .yield p).1 ?_
    simp [ThView.hand, hsw]
  have hi : (v.th (some p)).inner = none := h.harts.inner _ (by simp [hsw])
  have hpass : v.Passes T (some p) { v.th (some p) with sw := .sched false } p .queued := by
    constructor
    · simp [hpl]
    · simp
    · simp
    · intro k
      rw [if_neg (by simp)]
      by_cases hk : k = .yield
      · subst hk
        simp [ThView.hand, hsw]
      · have hne : (v.th (some p)).hand (some p) k ≠ some p := by
          intro hk'
          have := (h.elem.hand (some p) k p).1 hk'
          rw [hpl] at this
          cases this
          exact hk rfl
        rw [if_neg hne]
        cases k <;> simp [ThView.hand] at hk ⊢
  refine h.move rfl .refl rfl ⟨rfl, rfl, rfl, rfl, rfl⟩ rfl (h.elem.push rfl rfl hpass rfl ?_ ?_ hc rfl
    rfl rfl ?_ ?_ rfl) ?_ (.stay h) (fun _ => ⟨rfl, by simp⟩) ?_ (h.harts.step rfl (.leave (.inr ⟨_, rfl⟩) (.inr ?_) hi
      (h.harts.waking _) ?_ ?_) (fun _ _ => id) fun a ha => .inl (others_self rfl a ha))
  · simp [hpl]
  · simp [hpl]
  · simp [hpl]
  · rw [hpl]
    rfl
  · rw [hpl]
    rfl
  · intro hn
    rcases h.init.before hn p with hv | hv <;> rw [hpl] at hv <;> cases hv
  · simp [ThView.plock, hsw]
  · simp [Place.alive]
  · simp

/-- A process at `r`, which has nothing in hand, stops running. -/
private theorem Passes.stop (h : v.Inv T) (ha : v.At (some p) r) (hr : ∀ k, r.hand k = none) {y : Role} {m : Bool}
    (hy : ∀ k, y.hand k = none) (hb : ∀ k u, b ≠ .hand k u) :
    v.Passes T (some p) { v.th (some p) with role := y, sw := .sched m } p b := by
  have hwk := (h.at_run ha).2
  constructor
  · simp [h.running ha]
  · exact fun k u hk => absurd hk (hb k u)
  · exact fun k hk => absurd hk (hb k _)
  · intro k
    rw [if_neg (hb k _), h.hand_at ha, hr, if_neg nofun]
    cases k <;> simp [ThView.hand, hwk, hy]

theorem Inv.sleep (h : v.Inv T) (ha : v.At (some p) .idle) (hf : v.PFree p) :
    ((v.setState p .sleeping).setTh (some p) { v.th (some p) with sw := .sched true }).Inv
      { T with place := update T.place p .sleeping } := by
  have hrun := h.running ha
  obtain ⟨hsw, hwk⟩ := h.at_run ha
  have hth : ({ v.th (some p) with sw := .sched true } : ThView) =
      { v.th (some p) with role := .idle, sw := .sched true } := by rw [← ha.role]
  have hi : ({ v.th (some p) with sw := .sched true } : ThView).inner = none := by
    simp [ThView.inner, hwk, ha.role, Role.plock]
  have hpass := Passes.stop (y := .idle) (m := true) (b := .sleeping) h ha (fun k => by cases k <;> rfl)
    (fun k => by cases k <;> rfl) (by simp)
  rw [← hth] at hpass
  refine h.move rfl .refl rfl ⟨rfl, rfl, rfl, rfl, rfl⟩ rfl (h.elem.move rfl rfl hpass
    (h.elem.unused.keep ?_ (by simp)) rfl (fun _ _ => rfl) ?_ (by simp) rfl ?_ (by simp) rfl) ?_ (.stay h) (fun _ => ⟨rfl, by simp⟩)
      (fun hn => absurd hn (h.started ha)) (h.harts.step rfl (.leave (.inr ⟨_, rfl⟩) (.inl hf) hi (h.harts.waking _) ?_ ?_)
        (fun _ _ => id) fun a ha => .inl (others_self rfl a ha))
  · simp [hrun]
  · simp [hrun]
  · simp [hrun]
  · rw [hrun]
    rfl
  · simp [Place.alive]
  · simp

theorem Inv.exitLast (h : v.Inv T) (ha : v.At (some p) .exiting) (hf : v.PFree p) :
    ((v.setState p .zombie).setTh (some p) { v.th (some p) with role := .idle, sw := .sched false }).Inv
      { T with place := update T.place p .zombie } := by
  have hrun := h.running ha
  obtain ⟨hsw, hwk⟩ := h.at_run ha
  have hi : ({ v.th (some p) with role := .idle, sw := .sched false } : ThView).inner = none := by
    simp [ThView.inner, hwk, Role.plock]
  refine h.move rfl ?_ rfl ⟨rfl, rfl, rfl, rfl, rfl⟩ rfl (h.elem.move rfl rfl
    (Passes.stop h ha (fun k => by cases k <;> rfl) (fun k => by cases k <;> rfl) (by simp)) (h.elem.unused.keep ?_ (by simp)) rfl
      (fun _ _ => rfl) ?_ (by simp) rfl ?_ (by simp) rfl) ?_ ⟨by simp, by simp⟩ (fun hi => absurd hi (h.init.exiting p ha.role))
        (fun hn => absurd hn (h.started ha)) (h.harts.step rfl (.leave (.inr ⟨_, rfl⟩) (.inl hf) hi (fun _ => .inl rfl) ?_
          fun _ => ⟨rfl, hwk, by simp⟩) (fun _ _ => id) fun a ha => .inl (others_self rfl a ha))
  · rw [ha.role]
    exact ⟨rfl, by simp, rfl, by simp, .inl rfl, by simp⟩
  · simp [hrun]
  · simp [hrun]
  · simp [hrun]
  · rw [hrun]
    rfl
  · simp [Place.alive]

theorem Inv.sched (h : v.Inv T) {m : Bool} (hsw : (v.th (some p)).sw = .sched m) (hk : (v.th (some p)).kept = []) :
    ({ v with cpu := fun k => if v.cpu k = Cpu.running p then .idle else v.cpu k }.setTh (some p)
      { v.th (some p) with sw := .off m }).Inv T := by
  have hi : (v.th (some p)).inner = none := h.harts.inner _ (by simp [hsw])
  obtain ⟨hm, hc, hl⟩ := h.like
    (w := { v with cpu := fun k => if v.cpu k = Cpu.running p then .idle else v.cpu k }.setTh (some p)
      { v.th (some p) with sw := .off m }) (U := T) (x := { v.th (some p) with sw := .off m }) rfl .refl rfl rfl rfl
    (fun _ => rfl) ⟨rfl, rfl, rfl, rfl, rfl⟩
  refine ⟨h.elem.same (x := { v.th (some p) with sw := .off m }) rfl ?_ rfl rfl rfl (fun _ _ => rfl) rfl ?_, hm, hc, hl,
    h.init.same rfl (.stay h) rfl (fun _ _ => ⟨rfl, rfl⟩) rfl rfl, h.harts.step rfl ⟨?_, fun _ => hi, h.harts.waking _, ?_,
      ?_, ?_, fun _ _ => hk, by simp⟩ ?_ fun _ _ => .inl rfl⟩
  · intro k
    cases k <;> simp [ThView.hand, hsw]
  · intro k q
    simp only [setTh]
    split
    · simp [*]
    · rfl
  · exact .inl hi
  · intro k p' hp hk
    cases hp
    simp only [setTh] at hk
    split at hk
    · cases hk
    · exact absurd hk ‹_›
  · intro p' hp hal
    cases hp
    obtain ⟨h1, h2, -, h4⟩ := h.harts.clean p hal
    exact ⟨h1, h2, ⟨m, rfl⟩, h4⟩
  · intro p' hp hz
    cases hp
    obtain ⟨h1, h2, -, -⟩ := h.harts.zombie p hz
    exact ⟨h1, h2, by simp, by simp⟩
  · intro k q hk
    simp only [setTh] at hk
    split at hk
    · cases hk
    · exact hk

/-! ### The scheduler -/

/-- `main` has not changed. -/
private theorem NewTh.main (h : v.Inv T) : NewTh v w U none (v.th none) where
  plock := .inr (.inl rfl)
  inner := h.harts.inner none
  waking := h.harts.waking none
  onCpu := nofun
  clean := nofun
  zombie := nofun
  kept := h.harts.kept none
  boot _ := h.harts.boot

theorem Inv.schedulerPop (h : v.Inv T) (hk : v.cpu k = .idle) (hl : v.runList c = p :: rest) :
    ({ v.setRun c rest with cpu := update v.cpu k (.popped p) } : View).Inv
      { T with place := update T.place p (.popped k) } := by
  have hp : T.place p = .queued ∧ v.contp p = some c := by
    have := ((h.elem.run c).2 p).1 (by rw [hl]; exact List.mem_cons_self)
    simpa using this
  have hnk : ∀ q, T.place q ≠ .popped k := by
    intro q hq
    have := (h.elem.popped k q).2 hq
    rw [hk] at this
    cases this
  have hth : v.th = update v.th none (v.th none) := (Function.update_eq_self _ _).symm
  refine h.move (x := v.th none) hth .refl rfl ⟨rfl, rfl, rfl, rfl, rfl⟩ rfl ⟨?_, ?_, ?_, ?_, ?_⟩ ?_ (.stay h)
    (fun _ => ⟨rfl, by simp⟩) ?_
    (h.harts.step (x := v.th none) hth (.main h) ?_ ?_)
  · exact h.elem.unused.keep (by simp [hp.1]) (by simp)
  · intro d
    simp only [setRun]
    by_cases hd : d = c
    · subst hd
      rw [Function.update_self]
      have := (hl ▸ h.elem.run d : OnList (p :: rest) _ _).pop (d := (.popped k, some d)) (by simp)
      refine this.congr fun a => ?_
      by_cases ha : a = p
      · subst ha
        simp
      · simp [ha]
    · rw [Function.update_of_ne hd]
      refine (h.elem.run d).congr fun a => ?_
      by_cases ha : a = p
      · subst ha
        simp [hp.2, Ne.symm hd]
      · simp [ha]
  · exact h.elem.hand.keep (by simp [hp.1]) (by simp)
  · intro k' q
    by_cases hk' : k' = k
    · subst hk'
      change update v.cpu k' (.popped p) k' = _ ↔ update T.place p (.popped k') q = _
      rw [Function.update_self]
      by_cases hq : q = p
      · simp [hq]
      · simp [hq, hnk, Ne.symm hq]
    · change update v.cpu k (.popped p) k' = _ ↔ update T.place p (.popped k) q = _
      rw [Function.update_of_ne hk', h.elem.popped]
      by_cases hq : q = p
      · simp [hq, hp.1, Ne.symm hk']
      · simp [hq]
  · intro q
    by_cases hq : q = p
    · subst hq
      simp [setRun, h.elem.state, hp.1, Place.state]
    · simp [setRun, hq, h.elem.state]
  · rw [hp.1]
    rfl
  · intro hn
    rcases h.init.before hn p with hv | hv <;> rw [hp.1] at hv <;> cases hv
  · intro k' q hk'
    change update v.cpu k (.popped p) k' = .running q at hk'
    by_cases hkk : k' = k
    · rw [hkk, Function.update_self] at hk'
      cases hk'
    · rwa [Function.update_of_ne hkk] at hk'
  · exact fun a _ => h.others (b := .popped k) rfl (by simp [hp.1]) (by simp) (.inl rfl) a

theorem Inv.schedulerRun (h : v.Inv T) (hk : v.cpu k = .popped p) (hf : v.PFree p) :
    ({ v.setState p .running with cpu := update v.cpu k (.running p) }.setTh (some p)
      { v.th (some p) with sw := .run }).Inv { T with place := update T.place p .running } := by
  have hp : T.place p = .popped k := (h.elem.popped k p).1 hk
  have hal : (T.place p).alive := by rw [hp]; rfl
  -- the process is not on another hart: it would be `RUNNING` there, or hold its lock
  have hoff : ∀ k', v.cpu k' ≠ .running p := by
    intro k' hk'
    obtain ⟨h1, h2, -⟩ := h.harts.onCpu k' p hk'
    have hfp := hf (some p)
    cases hsw : (v.th (some p)).sw with
    | run =>
      rw [h2 hsw] at hp
      cases hp
    | push => simp [ThView.plock, hsw] at hfp
    | sched m => simp [ThView.plock, hsw] at hfp
    | off m => exact h1 m hsw
  have hpush : (v.th (some p)).sw ≠ .push := by
    intro hsw
    exact hf (some p) (by simp [ThView.plock, hsw])
  have hown : ({ v.th (some p) with sw := .run } : ThView).plock (some p) = (v.th (some p)).plock (some p) := by
    have hfp := hf (some p)
    cases hsw : (v.th (some p)).sw <;> simp [ThView.plock, ThView.inner, hsw] at hfp ⊢
  have hharts : ({ v.setState p .running with cpu := update v.cpu k .idle }.setTh (some p)
      { v.th (some p) with sw := .run }).Harts { T with place := update T.place p .running } := by
    refine h.harts.step rfl ⟨.inr (.inl hown), by simp, h.harts.waking _, ?_, ?_, ?_, by simp, by simp⟩ ?_ fun a ha =>
      .inl (others_self rfl a ha)
    · intro k' p' hp' hk'
      cases hp'
      change update v.cpu k .idle k' = .running p at hk'
      by_cases hkk : k' = k
      · rw [hkk, Function.update_self] at hk'
        cases hk'
      · rw [Function.update_of_ne hkk] at hk'
        exact absurd hk' (hoff k')
    · rintro p' ⟨⟩ hal'
      simp [Place.alive] at hal'
    · rintro p' ⟨⟩ hz
      simp at hz
    · intro k' q hk'
      change update v.cpu k .idle k' = .running q at hk'
      by_cases hkk : k' = k
      · rw [hkk, Function.update_self] at hk'
        cases hk'
      · rwa [Function.update_of_ne hkk] at hk'
  have hcases : ∀ k' q, update v.cpu k (.running p) k' = .running q → k' = k ∧ q = p ∨ k' ≠ k ∧ v.cpu k' = .running q := by
    intro k' q hk'
    by_cases hkk : k' = k
    · rw [hkk, Function.update_self] at hk'
      exact .inl ⟨hkk, (Cpu.running.inj hk').symm⟩
    · rw [Function.update_of_ne hkk] at hk'
      exact .inr ⟨hkk, hk'⟩
  refine h.move rfl .refl rfl ⟨rfl, rfl, rfl, rfl, rfl⟩ rfl ⟨?_, ?_, ?_, ?_, ?_⟩ ?_ (.stay h) (fun _ => ⟨rfl, by simp⟩) ?_
    ⟨hharts.plock, hharts.inner, hharts.waking, ?_, ?_, hharts.clean, hharts.zombie, hharts.kept, hharts.boot⟩
  · exact h.elem.unused.keep (by simp [hp]) (by simp)
  · intro d
    refine (h.elem.run d).congr fun a => ?_
    by_cases ha : a = p
    · subst ha
      simp [hp]
    · simp [ha, setTh, setState]
  · rw [hand_update (v := v) (x := { v.th (some p) with sw := .run }) rfl]
    refine (h.elem.hand.same fun k => ?_).keep (by simp [hp]) (by simp)
    cases k <;> simp [ThView.hand, hpush]
  · intro k' q
    by_cases hkk : k' = k
    · subst hkk
      change update v.cpu k' (.running p) k' = _ ↔ update T.place p .running q = _
      rw [Function.update_self]
      by_cases hq : q = p
      · simp [hq]
      · have hq' : T.place q ≠ .popped k' := by
          intro hq'
          have := (h.elem.popped k' q).2 hq'
          rw [hk] at this
          exact hq (Cpu.popped.inj this).symm
        simp [hq, hq']
    · change update v.cpu k (.running p) k' = _ ↔ update T.place p .running q = _
      rw [Function.update_of_ne hkk, h.elem.popped]
      by_cases hq : q = p
      · simp [hq, hp, Ne.symm hkk]
      · simp [hq]
  · intro q
    by_cases hq : q = p
    · subst hq
      simp [setState, setTh, Place.state]
    · simp [setState, setTh, hq, h.elem.state]
  · rw [hp]
    rfl
  · intro hn
    rcases h.init.before hn p with hv | hv <;> rw [hp] at hv <;> cases hv
  · intro k1 k2 q h1 h2
    rcases hcases k1 q h1 with ⟨rfl, rfl⟩ | ⟨hne1, h1'⟩ <;> rcases hcases k2 q h2 with ⟨rfl, hq⟩ | ⟨hne2, h2'⟩
    · rfl
    · exact absurd h2' (hoff k2)
    · exact absurd (hq ▸ h1') (hoff k1)
    · exact h.harts.cpu k1 k2 q h1' h2'
  · intro k' q hk'
    rcases hcases k' q hk' with ⟨rfl, rfl⟩ | ⟨hne, hk''⟩
    · simp [setTh, Place.alive]
    · refine hharts.onCpu k' q ?_
      change update v.cpu k .idle k' = _
      rwa [Function.update_of_ne hne]

end View

end Xv6
