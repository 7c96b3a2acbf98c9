import Xv6.ProcTable

/-!
# The links stay in place

Every move of `View.Step` keeps `View.Inv`, for a table that moves at most one link of each kind.
-/

namespace Xv6

open Function (update)

namespace View

variable {v w : View} {T U : Table} {t : Thread} {x : ThView} {q : Slot} {b : Place}

/-! ### One thread changes -/

theorem hand_update (hth : w.th = update v.th t x) :
    (fun u => (w.th u).hand u) = update (fun u => (v.th u).hand u) t (x.hand t) := by
  funext u
  rw [hth]
  by_cases hu : u = t
  · subst hu
    simp
  · simp [hu]

theorem role_update {α : Type} (f : Role → α) (hth : w.th = update v.th t x) :
    (fun u => f (w.th u).role) = update (fun u => f (v.th u).role) t (f x.role) := by
  funext u
  rw [hth]
  by_cases hu : u = t
  · subst hu
    simp
  · simp [hu]

/-- Thread `u` is `t` with its new record, or another one that has not changed. -/
theorem th_cases (hth : w.th = update v.th t x) (u : Thread) : u = t ∧ w.th u = x ∨ u ≠ t ∧ w.th u = v.th u := by
  rw [hth]
  by_cases hu : u = t
  · exact .inl ⟨hu, by simp [hu]⟩
  · exact .inr ⟨hu, by simp [hu]⟩

theorem Elem.same (h : v.Elem T) (hth : w.th = update v.th t x) (hx : ∀ k, x.hand t k = (v.th t).hand t k)
    (hT : U.place = T.place) (hu : w.unused = v.unused) (hr : w.runList = v.runList)
    (hc : ∀ a, T.place a = .queued → w.contp a = v.contp a) (hs : w.state = v.state) (hp : ∀ k q, w.cpu k = .popped q ↔ v.cpu k = .popped q) : w.Elem U where
  unused := by rw [hT, hu]; exact h.unused
  run c := by
    rw [hT, hr]
    refine (h.run c).congr fun a => ?_
    by_cases ha : T.place a = .queued
    · simp [hc a ha]
    · simp [ha]
  hand := by rw [hT, hand_update hth]; exact h.hand.same hx
  popped k q := by rw [hT, hp]; exact h.popped k q
  state q := by rw [hT, hs]; exact h.state q

/-- The `elem` of `q` comes out of the hands of `t` or goes into them. -/
structure Passes (v : View) (T : Table) (t : Thread) (x : ThView) (q : Slot) (b : Place) : Prop where
  fromT : ∀ k u, T.place q = .hand k u → u = t
  toT : ∀ k u, b = .hand k u → u = t
  emptyHand : ∀ k, b = .hand k t → (v.th t).hand t k = none ∨ (v.th t).hand t k = some q
  hand : ∀ k, x.hand t k = if b = .hand k t then some q else if (v.th t).hand t k = some q then none
    else (v.th t).hand t k

theorem Elem.move (h : v.Elem T) (hth : w.th = update v.th t x) (hT : U.place = update T.place q b)
    (hx : v.Passes T t x q b) (hu : OnList w.unused (update T.place q b) .free) (hr : w.runList = v.runList)
    (hc : ∀ a, a ≠ q → w.contp a = v.contp a) (hq : T.place q ≠ .queued) (hb : b ≠ .queued) (hcpu : w.cpu = v.cpu)
    (hqp : ∀ k, T.place q ≠ .popped k) (hbp : ∀ k, b ≠ .popped k) (hs : w.state = update v.state q b.state) :
    w.Elem U where
  unused := by rw [hT]; exact hu
  run c := by
    rw [hT, hr]
    refine (h.run c).congr fun a => ?_
    by_cases ha : a = q
    · subst ha
      simp [hq, hb]
    · simp [ha, hc a ha]
  hand := by
    rw [hT, hand_update hth]
    exact h.hand.move hx.fromT hx.toT hx.emptyHand hx.hand
  popped k a := by
    rw [hT, hcpu, h.popped]
    by_cases ha : a = q
    · subst ha
      simp [hqp, hbp]
    · simp [ha]
  state a := by
    rw [hT, hs]
    by_cases ha : a = q
    · simp [ha]
    · simp [ha, h.state]

/-- Thread `t` pushes `q` to the run list of its container. -/
theorem Elem.push (h : v.Elem T) {c : ContId} (hth : w.th = update v.th t x) (hT : U.place = update T.place q .queued)
    (hx : v.Passes T t x q .queued) (hu : w.unused = v.unused) (hq : T.place q ≠ .queued) (hqf : T.place q ≠ .free)
    (hqc : v.contp q = some c) (hr : w.runList = update v.runList c (v.runList c ++ [q])) (hc : w.contp = v.contp)
    (hcpu : w.cpu = v.cpu) (hqp : ∀ k, T.place q ≠ .popped k) (hqs : (T.place q).state = .runnable)
    (hs : w.state = v.state) : w.Elem U where
  unused := by
    rw [hT, hu]
    exact h.unused.keep hqf (by simp)
  run d := by
    rw [hT, hr, hc]
    by_cases hd : d = c
    · subst hd
      rw [Function.update_self]
      have := (h.run d).push (a := q) (by simp [hq])
      refine this.congr fun a => ?_
      by_cases ha : a = q
      · subst ha
        simp [hqc]
      · simp [ha]
    · rw [Function.update_of_ne hd]
      refine (h.run d).congr fun a => ?_
      by_cases ha : a = q
      · subst ha
        simp [hq, hqc, Ne.symm hd]
      · simp [ha]
  hand := by
    rw [hT, hand_update hth]
    exact h.hand.move hx.fromT hx.toT hx.emptyHand hx.hand
  popped k a := by
    rw [hT, hcpu, h.popped]
    by_cases ha : a = q
    · subst ha
      simp [hqp]
    · simp [ha]
  state a := by
    rw [hT, hs]
    by_cases ha : a = q
    · subst ha
      rw [Function.update_self, h.state, hqs]
      rfl
    · simp [ha, h.state]

theorem Memb.same (h : v.Memb T) (hth : w.th = update v.th t x) (ha : x.role.attHand = (v.th t).role.attHand)
    (hf : ∀ q, x.role = .freed q ↔ (v.th t).role = .freed q) (hT : U.att = T.att)
    (hv : ∀ q, (U.place q).vacant = (T.place q).vacant) (hc : w.contp = v.contp) (hp : w.procList = v.procList) :
    w.Memb U := by
  have hfreed : ∀ u q, (w.th u).role = .freed q ↔ (v.th u).role = .freed q := by
    intro u q
    rcases th_cases hth u with ⟨rfl, hu⟩ | ⟨-, hu⟩
    · rw [hu, hf]
    · rw [hu]
  refine ⟨?_, ?_, ?_, ?_, ?_, ?_⟩
  · rw [hT, hc]
    exact h.out
  · rw [hT, hc, hp]
    exact h.proc
  · rw [hT, role_update Role.attHand hth]
    exact h.hand.same fun k => by rw [ha]
  · simp only [hT, hv, hfreed]
    exact h.vacant
  · simp only [hT, hv, hfreed]
    exact h.freed
  · simp only [hT, hv]
    exact h.inside

theorem Conts.same (h : v.Conts T) (hth : w.th = update v.th t x) (hh : x.role.contHand = (v.th t).role.contHand)
    (hg : ∀ q, x.role = .contGone q ↔ (v.th t).role = .contGone q) (hk : x.kept = (v.th t).kept) (hT : U.cont = T.cont)
    (hcu : w.contUnused = v.contUnused) (hcr : w.contRun = v.contRun) (hus : w.used = v.used)
    (hc : ∀ u q, (v.th u).role = .contGone q → w.contp q = v.contp q) : w.Conts U := by
  have hgone : ∀ u q, (w.th u).role = .contGone q ↔ (v.th u).role = .contGone q := by
    intro u q
    rcases th_cases hth u with ⟨rfl, hu⟩ | ⟨-, hu⟩
    · rw [hu, hg]
    · rw [hu]
  have hkept : ∀ u, (w.th u).kept = (v.th u).kept := by
    intro u
    rcases th_cases hth u with ⟨rfl, hu⟩ | ⟨-, hu⟩
    · rw [hu, hk]
    · rw [hu]
  refine ⟨?_, ?_, ?_, ?_, ?_, ?_, ?_⟩
  · rw [hT, hcu]
    exact h.unused
  · rw [hT, hcr]
    exact h.run
  · rw [hT, role_update Role.contHand hth]
    exact h.hand.same fun k => by rw [hh]
  · intro u q hu
    rw [hgone] at hu
    rw [hT, hc u q hu]
    exact h.gone u q hu
  · intro u d hd
    rw [hT] at hd
    obtain ⟨q, hq, hqd⟩ := h.off u d hd
    exact ⟨q, (hgone u q).2 hq, by rwa [hc u q hq]⟩
  · simp only [hT, hkept]
    exact h.kept
  · simp only [hT, hus]
    exact h.used

theorem Links.same (h : v.Links T) (hth : w.th = update v.th t x)
    (hi : x.role.into = none ∨
      x.role.into = (v.th t).role.into ∧ x.role.target = (v.th t).role.target)
    (he : ∀ q, x.role = .emptied q → (v.th t).role = .emptied q)
    (hatt : ∀ q, (U.att q).inside = (T.att q).inside ∧ (T.att q = .member → U.att q = .member))
    (hcont : ∀ c, T.cont c = .live → U.cont c = .live) (hc : w.contp = v.contp) : w.Links U := by
  have hinto : ∀ u c fr, (w.th u).role.into = some (c, fr) →
      (v.th u).role.into = some (c, fr) ∧ (w.th u).role.target = (v.th u).role.target := by
    intro u c fr hu
    rcases th_cases hth u with ⟨rfl, hw⟩ | ⟨-, hw⟩
    · rw [hw] at hu
      rcases hi with hi | ⟨hi, ht⟩
      · rw [hi] at hu
        cases hu
      · exact ⟨hi ▸ hu, by rw [hw, ht]⟩
    · rw [hw] at hu
      exact ⟨hu, by rw [hw]⟩
  have hempt : ∀ u q, (w.th u).role = .emptied q → (v.th u).role = .emptied q := by
    intro u q hu
    rcases th_cases hth u with ⟨rfl, hw⟩ | ⟨-, hw⟩
    · exact he q (hw ▸ hu)
    · exact hw ▸ hu
  refine ⟨?_, ?_, ?_, ?_, ?_, ?_, ?_, ?_⟩
  · intro q c hq hqa
    rw [hc] at hq
    rw [(hatt q).1] at hqa
    exact hcont c (h.live q c hq hqa)
  · exact fun u c fr hu => hcont c (h.into u c fr (hinto u c fr hu).1)
  · intro u c hu
    rw [hc]
    rcases h.own u c (hinto u c _ hu).1 with h1 | ⟨p, h1, h2, h3⟩
    · exact .inl h1
    · exact .inr ⟨p, h1, h2, (hatt p).2 h3⟩
  · intro u c hu q hq hqa
    rw [(hatt q).1] at hqa
    rw [hc] at hq
    rw [(hinto u c _ hu).2]
    exact h.fresh u c (hinto u c _ hu).1 q hq hqa
  · intro u c fr q hu hq
    rw [(hinto u c _ hu).2] at hq
    rw [hc]
    exact h.target u c fr q (hinto u c _ hu).1 hq
  · intro u q hu
    obtain ⟨c, h1, h2, h3, h4⟩ := h.emptied u q (hempt u q hu)
    rw [hc]
    exact ⟨c, h1, hcont c h2, fun q' hq' => by rw [(hatt q').1]; exact h3 q' hq',
      fun t' fr ht' => h4 t' fr (hinto t' c fr ht').1⟩
  · exact fun u u' c fr hu hu' => h.alone u u' c fr (hinto u c _ hu).1 (hinto u' c fr hu').1
  · intro u u' q q' hu hu' hqq
    rw [hc] at hqq
    exact h.once u u' q q' (hempt u q hu) (hempt u' q' hu') hqq

/-- The role of `t` changes to one that `Init` allows. -/
structure InitRole (v : View) (t : Thread) (r : Role) : Prop where
  exiting : ∀ p, t = some p → r = .exiting → v.initproc ≠ some p
  boot : t = none → r.into = none ∨ r.into = (v.th t).role.into

theorem Init.move (h : v.Init T) (hth : w.th = update v.th t x) (hx : v.InitRole t x.role)
    (hT : U.place = update T.place q b) (hatt : ∀ i, v.initproc = some i → U.att i = T.att i ∧ w.contp i = v.contp i)
    (hcont : U.cont contRoot = T.cont contRoot) (hi : w.initproc = v.initproc)
    (hq : v.initproc = some q → b.alive ∧ b ≠ .zombie) (hn : v.initproc = none → b.vacant ∨ b = .hand .made none) :
    w.Init U := by
  refine ⟨?_, ?_, ?_, ?_, ?_⟩
  · rw [hcont]
    exact h.root
  · intro i hw
    rw [hi] at hw
    obtain ⟨h1, h2, h3, h4⟩ := h.init i hw
    rw [(hatt i hw).1, (hatt i hw).2, hT]
    by_cases hiq : i = q
    · subst hiq
      rw [Function.update_self]
      exact ⟨h1, h2, hq hw⟩
    · rw [Function.update_of_ne hiq]
      exact ⟨h1, h2, h3, h4⟩
  · intro hw a
    rw [hi] at hw
    rw [hT]
    by_cases ha : a = q
    · subst ha
      rw [Function.update_self]
      exact hn hw
    · rw [Function.update_of_ne ha]
      exact h.before hw a
  · intro p hp
    rw [hi]
    rcases th_cases hth (some p) with ⟨ht, hw⟩ | ⟨-, hw⟩ <;> rw [hw] at hp
    · exact hx.exiting p ht.symm hp
    · exact h.exiting p hp
  · intro c fr hp
    rcases th_cases hth none with ⟨ht, hw⟩ | ⟨-, hw⟩ <;> rw [hw] at hp
    · rcases hx.boot ht.symm with hb | hb <;> rw [hb] at hp
      · cases hp
      · exact h.boot c fr (ht ▸ hp)
    · exact h.boot c fr hp

theorem Init.same (h : v.Init T) (hth : w.th = update v.th t x) (hx : v.InitRole t x.role) (hT : U.place = T.place)
    (hatt : ∀ i, v.initproc = some i → U.att i = T.att i ∧ w.contp i = v.contp i)
    (hcont : U.cont contRoot = T.cont contRoot) (hi : w.initproc = v.initproc) : w.Init U := by
  by_cases hs : ∃ q, v.initproc = some q
  · obtain ⟨q, hq⟩ := hs
    refine h.move (q := q) (b := T.place q) hth hx (by rw [hT, Function.update_eq_self]) hatt hcont hi
      (fun _ => (h.init q hq).2.2) (fun hn => ?_)
    rw [hn] at hq
    cases hq
  · have hq : v.initproc = none := by
      cases hv : v.initproc with
      | none => rfl
      | some q => exact absurd ⟨q, hv⟩ hs
    exact h.move (q := ⟨0, by decide⟩) (b := T.place ⟨0, by decide⟩) hth hx (by rw [hT, Function.update_eq_self]) hatt
      hcont hi (fun hi => absurd ⟨_, hi⟩ hs) (fun hn => h.before hn _)

/-- What the new record of thread `t` has to satisfy by itself. -/
structure NewTh (v w : View) (U : Table) (t : Thread) (x : ThView) : Prop where
  plock : x.plock t = none ∨ x.plock t = (v.th t).plock t ∨ ∃ q, x.plock t = some q ∧ v.PFree q
  inner : x.sw ≠ .run → x.inner = none
  waking : x.waking ≠ none → x.role = .idle ∨ x.role = .exiting
  onCpu : ∀ k p, t = some p → w.cpu k = .running p →
    (∀ b, x.sw ≠ .off b) ∧ (x.sw = .run → U.place p = .running) ∧ (U.place p).alive
  clean : ∀ p, t = some p → (U.place p).alive = false → x.Clean
  zombie : ∀ p, t = some p → U.place p = .zombie → x.role = .idle ∧ x.waking = none ∧ x.sw ≠ .run ∧ x.sw ≠ .push
  kept : ∀ b, x.sw = .off b → x.kept = []
  boot : t = none → x.sw = .run ∧ x.waking = none ∧ x.kept = []

theorem Harts.step (h : v.Harts T) (hth : w.th = update v.th t x) (hx : NewTh v w U t x)
    (hcpu : ∀ k p, w.cpu k = .running p → v.cpu k = .running p)
    (hq : ∀ q, some q ≠ t → U.place q = T.place q ∨ (T.place q ≠ .running ∧ U.place q ≠ .zombie ∧
      ((U.place q).alive ∨ (∀ k, v.cpu k ≠ .running q) ∧ (v.th (some q)).Clean))) : w.Harts U := by
  have hpl : ∀ u, u ≠ t → ∀ q, (v.th u).plock u = some q → x.plock t ≠ some q := by
    intro u hu q hq hxq
    rcases hx.plock with hp | hp | ⟨q', hp, hf⟩
    · rw [hp] at hxq
      cases hxq
    · exact hu (h.plock u t q hq (hp ▸ hxq))
    · rw [hp, Option.some.injEq] at hxq
      exact hf u (hxq ▸ hq)
  refine ⟨?_, ?_, ?_, ?_, ?_, ?_, ?_, ?_, ?_⟩
  · intro u u' a hu hu'
    rcases th_cases hth u with ⟨rfl, hw⟩ | ⟨hne, hw⟩ <;> rcases th_cases hth u' with ⟨hut, hw'⟩ | ⟨hne', hw'⟩ <;>
      rw [hw] at hu <;> rw [hw'] at hu'
    · exact hut.symm
    · exact absurd hu (hpl u' hne' a hu')
    · subst hut
      exact absurd hu' (hpl u hne a hu)
    · exact h.plock u u' a hu hu'
  · intro u hu
    rcases th_cases hth u with ⟨rfl, hw⟩ | ⟨-, hw⟩ <;> rw [hw] at hu ⊢
    · exact hx.inner hu
    · exact h.inner u hu
  · intro u hu
    rcases th_cases hth u with ⟨rfl, hw⟩ | ⟨-, hw⟩ <;> rw [hw] at hu ⊢
    · exact hx.waking hu
    · exact h.waking u hu
  · exact fun k k' p hk hk' => h.cpu k k' p (hcpu k p hk) (hcpu k' p hk')
  · intro k p hk
    rcases th_cases hth (some p) with ⟨ht, hw⟩ | ⟨hne, hw⟩ <;> rw [hw]
    · exact hx.onCpu k p ht.symm hk
    · replace hk := hcpu k p hk
      obtain ⟨h1, h2, h3⟩ := h.onCpu k p hk
      rcases hq p hne with hp | ⟨hr, -, ha | ⟨ha, -⟩⟩
      · rw [hp]
        exact ⟨h1, h2, h3⟩
      · exact ⟨h1, fun hsw => absurd (h2 hsw) hr, ha⟩
      · exact absurd hk (ha k)
  · intro p hp
    rcases th_cases hth (some p) with ⟨ht, hw⟩ | ⟨hne, hw⟩ <;> rw [hw]
    · exact hx.clean p ht.symm hp
    · rcases hq p hne with heq | ⟨-, -, ha | ⟨-, ha⟩⟩
      · exact h.clean p (heq ▸ hp)
      · rw [ha] at hp
        cases hp
      · exact ha
  · intro p hp
    rcases th_cases hth (some p) with ⟨ht, hw⟩ | ⟨hne, hw⟩ <;> rw [hw]
    · exact hx.zombie p ht.symm hp
    · rcases hq p hne with heq | ⟨-, hz, -⟩
      · exact h.zombie p (heq ▸ hp)
      · exact absurd hp hz
  · intro u b hu
    rcases th_cases hth u with ⟨rfl, hw⟩ | ⟨-, hw⟩ <;> rw [hw] at hu ⊢
    · exact hx.kept b hu
    · exact h.kept u b hu
  · rcases th_cases hth none with ⟨ht, hw⟩ | ⟨-, hw⟩ <;> rw [hw]
    · exact hx.boot ht.symm
    · exact h.boot

/-! ### The acting thread -/

section

variable {p : Slot} {r r' : Role}

theorem Inv.at_run (h : v.Inv T) (ha : v.At t r) : (v.th t).sw = .run ∧ (v.th t).waking = none := by
  cases t with
  | none => exact ⟨h.harts.boot.1, h.harts.boot.2.1⟩
  | some p => exact (ha.run p rfl).2

theorem Inv.running (h : v.Inv T) (ha : v.At (some p) r) : T.place p = .running := by
  obtain ⟨⟨k, hk⟩, hsw, -⟩ := ha.run p rfl
  exact (h.harts.onCpu k p hk).2.1 hsw

/-- Processes run only after `userinit`. -/
theorem Inv.started (h : v.Inv T) (ha : v.At (some p) r) : v.initproc ≠ none := by
  intro hn
  rcases h.init.before hn p with hv | hv <;> rw [h.running ha] at hv <;> cases hv

theorem NewTh.goto (h : v.Inv T) (ha : v.At t r)
    (hpl : r'.plock = none ∨ r'.plock = r.plock ∨ ∃ q, r'.plock = some q ∧ v.PFree q)
    (hp : ∀ p, t = some p → U.place p = .running) : NewTh v w U t { v.th t with role := r' } := by
  obtain ⟨hsw, hwk⟩ := h.at_run ha
  have hnew : ({ v.th t with role := r' } : ThView).plock t = r'.plock := by simp [ThView.plock, ThView.inner, hsw, hwk]
  have hold : (v.th t).plock t = r.plock := by simp [ThView.plock, ThView.inner, hsw, hwk, ha.role]
  constructor
  · rw [hnew, hold]
    exact hpl
  · exact fun hne => absurd hsw hne
  · exact fun hne => absurd hwk hne
  · intro k p ht _
    exact ⟨fun b => by simp [hsw], fun _ => hp p ht, by rw [hp p ht]; rfl⟩
  · intro p ht ha
    rw [hp p ht] at ha
    cases ha
  · intro p ht hz
    rw [hp p ht] at hz
    cases hz
  · intro b hb
    rw [hsw] at hb
    cases hb
  · rintro rfl
    exact h.harts.boot

/-- The hands of a thread that is in no `wakeup` and no `yield`. -/
theorem hand_of_run (hsw : x.sw = .run) (hwk : x.waking = none) : x.hand t = x.role.hand := by
  funext k
  cases k <;> cases hr : x.role <;> simp [ThView.hand, Role.hand, hsw, hwk, hr]

theorem Inv.hand_at (h : v.Inv T) (ha : v.At t r) : (v.th t).hand t = r.hand := by
  obtain ⟨hsw, hwk⟩ := h.at_run ha
  rw [hand_of_run hsw hwk, ha.role]

theorem Inv.hand_goto (h : v.Inv T) (ha : v.At t r) (r' : Role) :
    ({ v.th t with role := r' } : ThView).hand t = r'.hand := by
  obtain ⟨hsw, hwk⟩ := h.at_run ha
  exact hand_of_run hsw hwk

/-- The acting process is not the one that moves. -/
theorem Inv.still (h : v.Inv T) (ha : v.At t r) (hT : U.place = update T.place q b) (hr : T.place q ≠ .running) :
    ∀ p, t = some p → U.place p = .running := by
  rintro p rfl
  have hp := h.running ha
  have hne : p ≠ q := by
    rintro rfl
    exact hr hp
  rw [hT, Function.update_of_ne hne, hp]

theorem Inv.not_onCpu (h : v.Inv T) (hq : (T.place q).alive = false) (k : Fin NCPU) : v.cpu k ≠ .running q := by
  intro hk
  have := (h.harts.onCpu k q hk).2.2
  rw [hq] at this
  cases this

theorem Inv.others (h : v.Inv T) (hT : U.place = update T.place q b) (hr : T.place q ≠ .running) (hz : b ≠ .zombie)
    (hb : b.alive ∨ (T.place q).alive = false) (a : Slot) :
    U.place a = T.place a ∨ (T.place a ≠ .running ∧ U.place a ≠ .zombie ∧
      ((U.place a).alive ∨ (∀ k, v.cpu k ≠ .running a) ∧ (v.th (some a)).Clean)) := by
  rw [hT]
  by_cases haq : a = q
  · subst haq
    rw [Function.update_self]
    exact .inr ⟨hr, hz, hb.imp_right fun ha => ⟨h.not_onCpu ha, h.harts.clean _ ha⟩⟩
  · exact .inl (Function.update_of_ne haq ..)

theorem Passes.goto (h : v.Inv T) (ha : v.At t r) (hf : ∀ k u, T.place q = .hand k u → u = t)
    (ht : ∀ k u, b = .hand k u → u = t) (he : ∀ k, b = .hand k t → r.hand k = none ∨ r.hand k = some q)
    (hh : ∀ k, r'.hand k = if b = .hand k t then some q else if r.hand k = some q then none else r.hand k) :
    v.Passes T t { v.th t with role := r' } q b where
  fromT := hf
  toT := ht
  emptyHand := by
    rw [h.hand_at ha]
    exact he
  hand := by
    rw [h.hand_at ha, h.hand_goto ha]
    exact hh

/-- The link that a thread has in its hand. -/
theorem Inv.place_of_hand (h : v.Inv T) (ha : v.At t r) {k : Hand} (hk : r.hand k = some q) : T.place q = .hand k t := by
  refine (h.elem.hand t k q).1 ?_
  change (v.th t).hand t k = some q
  rw [h.hand_at ha]
  exact hk

theorem place_of_state (h : v.Inv T) {y : Place} (hy : y = .sleeping ∨ y = .zombie ∨ y = .running)
    (hs : v.state q = y.state) : T.place q = y := by
  rw [h.elem.state] at hs
  cases hq : T.place q with
  | hand k _ =>
    rw [hq] at hs
    cases k <;> rcases hy with rfl | rfl | rfl <;> cases hs
  | _ =>
    rw [hq] at hs
    rcases hy with rfl | rfl | rfl <;> first | rfl | cases hs

theorem vacant_update (hT : U.place = update T.place q b) (hv : b.vacant = (T.place q).vacant) (a : Slot) :
    (U.place a).vacant = (T.place a).vacant := by
  rw [hT]
  by_cases haq : a = q
  · subst haq
    rw [Function.update_self, hv]
  · rw [Function.update_of_ne haq]

end

/-! ### Moves of one `elem` -/

/-- A change of role that concerns neither a `proc_list` nor a container. -/
structure RoleLike (r r' : Role) : Prop where
  att : r'.attHand = r.attHand
  freed : ∀ q, r' = .freed q ↔ r = .freed q
  cont : r'.contHand = r.contHand
  gone : ∀ q, r' = .contGone q ↔ r = .contGone q
  into : r'.into = none ∨ r'.into = r.into ∧ r'.target = r.target
  emptied : ∀ q, r' = .emptied q → r = .emptied q

/-- The `proc_list`s and the containers are left alone. -/
structure SameConts (v w : View) : Prop where
  contp : w.contp = v.contp
  procList : w.procList = v.procList
  contUnused : w.contUnused = v.contUnused
  contRun : w.contRun = v.contRun
  used : w.used = v.used

theorem Inv.like (h : v.Inv T) (hth : w.th = update v.th t x) (hr : RoleLike (v.th t).role x.role)
    (hk : x.kept = (v.th t).kept) (hatt : U.att = T.att) (hcont : U.cont = T.cont)
    (hv : ∀ q, (U.place q).vacant = (T.place q).vacant) (hs : SameConts v w) :
    w.Memb U ∧ w.Conts U ∧ w.Links U :=
  ⟨h.memb.same hth hr.att hr.freed hatt hv hs.contp hs.procList,
    h.conts.same hth hr.cont hr.gone hk hcont hs.contUnused hs.contRun hs.used fun _ _ _ => by rw [hs.contp],
    h.links.same hth hr.into hr.emptied (fun _ => by rw [hatt]; exact ⟨rfl, id⟩)
      (fun _ => by rw [hcont]; exact id) hs.contp⟩

theorem RoleLike.refl {r : Role} : RoleLike r r := ⟨rfl, fun _ => .rfl, rfl, fun _ => .rfl, .inr ⟨rfl, rfl⟩, fun _ => id⟩

/-- One `elem` moves, and one thread changes. -/
theorem Inv.move (h : v.Inv T) (hth : w.th = update v.th t x) (hr : RoleLike (v.th t).role x.role)
    (hk : x.kept = (v.th t).kept) (hs : SameConts v w) (hinit : w.initproc = v.initproc)
    (helem : w.Elem { T with place := update T.place q b }) (hv : b.vacant = (T.place q).vacant)
    (he : v.InitRole t x.role) (hi : v.initproc = some q → b.alive ∧ b ≠ .zombie)
    (hn : v.initproc = none → b.vacant ∨ b = .hand .made none) (hharts : w.Harts { T with place := update T.place q b }) :
    w.Inv { T with place := update T.place q b } := by
  obtain ⟨hm, hc, hl⟩ := h.like (U := { T with place := update T.place q b }) hth hr hk rfl rfl (vacant_update rfl hv) hs
  exact ⟨helem, hm, hc, hl, h.init.move hth he rfl (fun _ _ => ⟨rfl, by rw [hs.contp]⟩) rfl hinit hi hn, hharts⟩

end View

end Xv6
