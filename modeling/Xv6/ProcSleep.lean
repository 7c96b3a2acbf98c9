import Xv6.ProcPids

/-!
# Sleep locks

A sleep lock records its owner by pid.  Pids are allocated per container and overwritten by `reparent`, so the record is
exact only as long as no other live process has the pid of an owner (`Sys.PidSafe`).
-/

namespace Xv6

open Function (update)

variable {L : Type} [DecidableEq L]

/-! ### What a section does to the sleep locks -/

/-- What a section does to the sleep locks and their owners. -/
inductive Sys.LockStep (s : Sys L) : Ev L → Sys L → Prop
  | keeps {e s'} (hl : s'.lock = s.lock) (hh : s'.holder = s.holder) : LockStep s e s'
  | acquire {p l s'} (ha : s.At (some p) (.acquiresleep l)) (hf : (s.lock l).locked = false)
      (hl : s'.lock = update s.lock l ⟨true, (s.proc p).pid⟩) (hh : s'.holder = update s.holder l (some p))
      (hp : s'.proc = s.proc) : LockStep s (.next (some p)) s'
  | release {p l e s'} (hl : s'.lock = update s.lock l ⟨false, 0⟩) (hh : s'.holder = update s.holder l none)
      (hp : s'.proc = s.proc) (ho : s.holder l = some p) : LockStep s e s'

variable {s s' : Sys L} {T : Table} {e : Ev L}

theorem Sect.locks (h : Sect s e s') : s.LockStep e s' := by
  cases h with
  | acquiresleep ha hf hl => exact .acquire ha hl rfl rfl rfl
  | callRelease ha hh hf => exact .release rfl rfl rfl hh
  | _ => exact .keeps rfl rfl

omit [DecidableEq L] in
private theorem exits_setTh {t : Thread} {x : Th L} (h : x.pc.role = .exiting → (s.th t).pc.role = .exiting) (p : Slot)
    (hp : (update s.th t x (some p)).pc.role = .exiting) : (s.th (some p)).pc.role = .exiting := by
  by_cases ht : some p = t
  · subst ht
    rw [Function.update_self] at hp
    exact h hp
  · rwa [Function.update_of_ne ht] at hp

/-- A process that calls `exit` holds no sleep lock. -/
theorem Sect.exits (h : Sect s e s') (p : Slot) (hp : (s'.th (some p)).pc.role = .exiting) :
    (s.th (some p)).pc.role = .exiting ∨ ∀ l, s'.holder l ≠ some p := by
  cases h with
  | @callExit p' status ha hi hl =>
    by_cases hpp : p = p'
    · subst hpp
      exact .inr hl
    · left
      have : (some p : Thread) ≠ some p' := by simpa using hpp
      exact (congrArg (fun x : Th L => x.pc.role) (Function.update_of_ne this _ s.th)).symm.trans hp
  | @allocprocInit t c fr np ha =>
    refine .inl (exits_setTh (x := Sys.forkret) (t := some np) (fun h => by cases h) p ?_)
    exact exits_setTh (s := s.setTh (some np) Sys.forkret) (t := t) (fun h => by cases h) p hp
  | exitCount ha hc => exact .inl (exits_setTh (fun _ => by rw [ha.pc]; rfl) p hp)
  | exitIput ha hc hi => exact .inl (exits_setTh (fun _ => by rw [ha.pc]; rfl) p hp)
  | exitLock ha hf => exact .inl (exits_setTh (fun _ => by rw [ha.pc]; rfl) p hp)
  | reparentMiss ha hi _ => exact .inl (exits_setTh (fun _ => by rw [ha.pc]; rfl) p hp)
  | reparentHit ha hq => exact .inl (exits_setTh (fun _ => by rw [ha.pc]; rfl) p hp)
  | reparentEnd ha hi => exact .inl (exits_setTh (fun _ => by rw [ha.pc]; rfl) p hp)
  | sleep ha hf hpc =>
    refine .inl (exits_setTh ?_ p hp)
    obtain ⟨rfl, rfl, -⟩ | ⟨-, ⟨addr, rfl, -, rfl⟩ | ⟨l, rfl, -, rfl, -⟩⟩ := hpc <;> intro h <;> cases h
  | freeprocUnlist ha hc =>
    refine .inl (exits_setTh ?_ p hp)
    dsimp only
    split <;> intro h <;> cases h
  | schedulerPop hk hl => exact .inl hp
  | _ => first | exact .inl (exits_setTh (by exact id) p hp) | exact .inl (exits_setTh (fun h => by cases h) p hp)

/-! ### Owners -/

namespace Sys

/-- The slot has a process that has not exited. -/
def Live (s : Sys L) (q : Slot) : Prop := (s.proc q).state ≠ .unused ∧ (s.proc q).state ≠ .zombie

instance (s : Sys L) (q : Slot) : Decidable (s.Live q) := inferInstanceAs (Decidable (_ ∧ _))

/-- The point at which the next section of thread `t` starts, outside `wakeup`, `yield` and `sched`. -/
def point (s : Sys L) (t : Thread) : Option (Pc L) :=
  match (s.th t).sw, (s.th t).wake with
  | .run, none => some (s.th t).pc
  | _, _ => none

/-- No sleep lock is held under this pid. -/
def NotOwner (s : Sys L) (pid : Int) : Prop := ∀ l, (s.lock l).locked = true → (s.lock l).pid ≠ pid

instance [Fintype L] (s : Sys L) (pid : Int) : Decidable (s.NotOwner pid) := inferInstanceAs (Decidable (∀ _, _))

/-- The step gives no pid of an owner of a sleep lock to another live process: a process takes a sleep lock only while no
other live process has its pid, `allocproc` does not use a pid under which a lock is held, and `reparent` overwrites
neither the pid of an owner, nor that of a live process while a lock is held under -2. -/
def PidSafe (s : Sys L) : Ev L → Prop
  | .next t =>
    match s.point t with
    | some (.acquiresleep l) =>
      (s.lock l).locked = false → ∀ p q, t = some p → q ≠ p → s.Live q → (s.proc q).pid ≠ (s.proc p).pid
    | some (.locked c _ _) => s.NotOwner (asInt (s.cont c).nextpid)
    | some (.reparent _ i) =>
      ∀ q : Slot, q.val = i → (s.proc q).parent = t → (s.proc q).contp ≠ some contRoot →
        (∀ l, s.holder l ≠ some q) ∧ (s.Live q → s.NotOwner (-2))
    | _ => True
  | _ => True

/-- Every owner of a sleep lock is known by its pid. -/
structure Owned (s : Sys L) : Prop where
  locked : ∀ l, (s.lock l).locked = true ↔ ∃ q, s.holder l = some q
  started : ∀ l q, s.holder l = some q → s.Live q ∧ (s.proc q).state ≠ .used
  pid : ∀ l q, s.holder l = some q → (s.lock l).pid = (s.proc q).pid
  other : ∀ l q p, s.holder l = some q → p ≠ q → s.Live p → (s.proc p).pid ≠ (s.lock l).pid
  exiting : ∀ l p, (s.th (some p)).pc.role = .exiting → s.holder l ≠ some p

omit [DecidableEq L] in
theorem At.point (hI : s.view.Inv T) {t : Thread} {pc : Pc L} (ha : s.At t pc) : s.point t = some pc := by
  have hrun : (s.th t).sw = .run ∧ (s.th t).wake = none := by
    cases t with
    | none =>
      obtain ⟨h1, h2, -⟩ := hI.harts.boot
      exact ⟨h1, by simpa [Sys.view, Th.view] using h2⟩
    | some p => exact (ha.run p rfl).2
  simp [Sys.point, hrun.1, hrun.2, ha.pc]

omit [DecidableEq L] in
/-- The locks stay, and so do the pids of their owners; no other live process has such a pid. -/
private theorem Owned.keeps (h : s.Owned) (hl : s'.lock = s.lock) (hh : s'.holder = s.holder)
    (hx : ∀ p, (s'.th (some p)).pc.role = .exiting → (s.th (some p)).pc.role = .exiting ∨ ∀ l, s'.holder l ≠ some p)
    (ho : ∀ l q, s.holder l = some q → (s'.proc q).pid = (s.proc q).pid ∧ s'.Live q ∧ (s'.proc q).state ≠ .used)
    (hp : ∀ l q p, s.holder l = some q → p ≠ q → s'.Live p → (s'.proc p).pid ≠ (s.lock l).pid) : s'.Owned := by
  refine ⟨?_, ?_, ?_, ?_, ?_⟩
  · rw [hl, hh]
    exact h.locked
  · intro l q hq
    rw [hh] at hq
    exact (ho l q hq).2
  · intro l q hq
    rw [hh] at hq
    rw [hl, (ho l q hq).1]
    exact h.pid l q hq
  · intro l q p hq
    rw [hh] at hq
    rw [hl]
    exact hp l q p hq
  · intro l p hr
    rcases hx p hr with hr | hno
    · rw [hh]
      exact h.exiting l p hr
    · exact hno l

private theorem Owned.acquire (h : s.Owned) {p : Slot} {l : L}
    (hx : ∀ p, (s'.th (some p)).pc.role = .exiting → (s.th (some p)).pc.role = .exiting ∨ ∀ l, s'.holder l ≠ some p)
    (hr : (s.th (some p)).pc.role ≠ .exiting) (hst : s.Live p ∧ (s.proc p).state ≠ .used)
    (hsafe : ∀ q, q ≠ p → s.Live q → (s.proc q).pid ≠ (s.proc p).pid)
    (hl : s'.lock = update s.lock l ⟨true, (s.proc p).pid⟩) (hh : s'.holder = update s.holder l (some p))
    (hp : s'.proc = s.proc) : s'.Owned := by
  have hlive : ∀ q, s'.Live q ↔ s.Live q := fun q => by rw [Live, Live, hp]
  refine ⟨?_, ?_, ?_, ?_, ?_⟩
  · intro k
    rw [hl, hh]
    by_cases hk : k = l
    · simp [hk]
    · simp [hk, h.locked]
  · intro k q hq
    rw [hh] at hq
    rw [hlive, hp]
    by_cases hk : k = l
    · subst hk
      rw [Function.update_self] at hq
      cases hq
      exact hst
    · rw [Function.update_of_ne hk] at hq
      exact h.started k q hq
  · intro k q hq
    rw [hh] at hq
    rw [hl, hp]
    by_cases hk : k = l
    · subst hk
      rw [Function.update_self] at hq ⊢
      cases hq
      rfl
    · rw [Function.update_of_ne hk] at hq ⊢
      exact h.pid k q hq
  · intro k q p' hq hne hp'
    rw [hh] at hq
    rw [hlive] at hp'
    rw [hl, hp]
    by_cases hk : k = l
    · subst hk
      rw [Function.update_self] at hq ⊢
      cases hq
      exact hsafe p' hne hp'
    · rw [Function.update_of_ne hk] at hq ⊢
      exact h.other k q p' hq hne hp'
  · intro k p' hr'
    rcases hx p' hr' with hr' | hno
    · rw [hh]
      by_cases hk : k = l
      · subst hk
        rw [Function.update_self]
        rintro ⟨⟩
        exact hr hr'
      · rw [Function.update_of_ne hk]
        exact h.exiting k p' hr'
    · exact hno k

private theorem Owned.release (h : s.Owned) {l : L}
    (hx : ∀ p, (s'.th (some p)).pc.role = .exiting → (s.th (some p)).pc.role = .exiting ∨ ∀ l, s'.holder l ≠ some p)
    (hl : s'.lock = update s.lock l ⟨false, 0⟩) (hh : s'.holder = update s.holder l none) (hp : s'.proc = s.proc) :
    s'.Owned := by
  have hlive : ∀ q, s'.Live q ↔ s.Live q := fun q => by rw [Live, Live, hp]
  -- the locks that still have an owner are other ones
  have hold : ∀ k q, s'.holder k = some q → s.holder k = some q ∧ s'.lock k = s.lock k := by
    intro k q hq
    rw [hh] at hq
    have hk : k ≠ l := by
      rintro rfl
      rw [Function.update_self] at hq
      cases hq
    rw [Function.update_of_ne hk] at hq
    exact ⟨hq, by rw [hl, Function.update_of_ne hk]⟩
  refine ⟨?_, ?_, ?_, ?_, ?_⟩
  · intro k
    rw [hl, hh]
    by_cases hk : k = l
    · simp [hk]
    · simp [hk, h.locked]
  · intro k q hq
    rw [hlive, hp]
    exact h.started k q (hold k q hq).1
  · intro k q hq
    rw [(hold k q hq).2, hp]
    exact h.pid k q (hold k q hq).1
  · intro k q p hq hne hp'
    rw [hlive] at hp'
    rw [(hold k q hq).2, hp]
    exact h.other k q p (hold k q hq).1 hne hp'
  · intro k p hr hq
    rcases hx p hr with hr | hno
    · exact h.exiting k p hr (hold k p hq).1
    · exact hno k hq

omit [DecidableEq L] in
/-- The locks stay: what a section does to the pids. -/
private theorem Owned.pids (h : s.Owned) (hI : s.view.Inv T) (hc : s.PidSafe e) (hl : s'.lock = s.lock)
    (hh : s'.holder = s.holder)
    (hx : ∀ p, (s'.th (some p)).pc.role = .exiting → (s.th (some p)).pc.role = .exiting ∨ ∀ l, s'.holder l ≠ some p)
    (hs : s.PidStep e s') : s'.Owned := by
  cases hs with
  | keeps hk =>
    have hlive : ∀ p, s'.Live p → s.Live p :=
      fun p hp => ⟨fun hu => hp.1 ((hk.unused p).2 hu), fun hz => hp.2 (hk.zombie p hz)⟩
    refine h.keeps hl hh hx (fun l q hq => ?_) fun l q p hq hne hp => ?_
    · obtain ⟨⟨h1, h2⟩, h3⟩ := h.started l q hq
      refine ⟨hk.pid q, ⟨fun hu => h1 ((hk.unused q).1 hu), fun hz => ?_⟩, fun hu => h3 (hk.used q hu)⟩
      rcases hk.dies q hz with hz | hr
      · exact h2 hz
      · exact h.exiting l q hr hq
    · rw [hk.pid]
      exact h.other l q p hq hne (hlive p hp)
  | @alloc t c fr np _ ha hst hp hn =>
    have hother : ∀ q, q ≠ np → s'.proc q = s.proc q := fun q hq => by rw [hp, Function.update_of_ne hq]
    have hno : s.NotOwner (asInt (s.cont c).nextpid) := by
      unfold PidSafe at hc
      dsimp only at hc
      rw [ha.point hI] at hc
      exact hc
    have hnp : ∀ l q, s.holder l = some q → q ≠ np := by
      rintro l q hq rfl
      exact (h.started l q hq).1.1 hst
    refine h.keeps hl hh hx (fun l q hq => ?_) fun l q p hq hne hp' => ?_
    · rw [Live, hother q (hnp l q hq)]
      exact ⟨rfl, h.started l q hq⟩
    · by_cases hpn : p = np
      · rw [hpn, hp, Function.update_self]
        have := hno l ((h.locked l).2 ⟨q, hq⟩)
        dsimp only
        exact Ne.symm this
      · rw [Live, hother p hpn] at hp'
        rw [hother p hpn]
        exact h.other l q p hq hne hp'
  | @orphan p status q _ ha hpar hp hn =>
    have hother : ∀ a, a ≠ q → s'.proc a = s.proc a := fun a ha => by rw [hp, Function.update_of_ne ha]
    have hq : s'.proc q = s.orphan (s.proc q) := by rw [hp, Function.update_self]
    have hsafe : (s.proc q).contp ≠ some contRoot → (∀ l, s.holder l ≠ some q) ∧ (s.Live q → s.NotOwner (-2)) := by
      have := hc
      simp only [PidSafe, ha.point hI] at this
      exact this q rfl hpar
    have hstate : ∀ a, (s'.proc a).state = (s.proc a).state := by
      intro a
      by_cases haq : a = q
      · rw [haq, hq]
        rfl
      · rw [hother a haq]
    have hlive : ∀ a, s'.Live a ↔ s.Live a := fun a => by rw [Live, Live, hstate]
    have hpid : ∀ a, (s'.proc a).pid = (s.proc a).pid ∨
        a = q ∧ (s.proc q).contp ≠ some contRoot ∧ (s'.proc q).pid = -2 := by
      intro a
      by_cases haq : a = q
      · subst haq
        rw [hq]
        by_cases hroot : (s.proc a).contp = some contRoot
        · exact .inl (by simp [Sys.orphan, hroot])
        · exact .inr ⟨rfl, hroot, by simp [Sys.orphan, hroot]⟩
      · exact .inl (by rw [hother a haq])
    refine h.keeps hl hh hx (fun l a hal => ?_) fun l a b hal hne hb => ?_
    · rw [hlive, hstate]
      refine ⟨?_, h.started l a hal⟩
      rcases hpid a with heq | ⟨rfl, hroot, -⟩
      · exact heq
      · exact absurd hal ((hsafe hroot).1 l)
    · rw [hlive] at hb
      rcases hpid b with heq | ⟨rfl, hroot, heq⟩
      · rw [heq]
        exact h.other l a b hal hne hb
      · rw [heq]
        exact ((hsafe hroot).2 hb l ((h.locked l).2 ⟨a, hal⟩)).symm
  | @reset _ q _ hq hp hn =>
    have hother : ∀ a, a ≠ q → s'.proc a = s.proc a := fun a ha => by rw [hp, Function.update_of_ne ha]
    refine h.keeps hl hh hx (fun l a hal => ?_) fun l a b hal hne hb => ?_
    · have haq : a ≠ q := by
        rintro rfl
        obtain ⟨⟨-, h2⟩, h3⟩ := h.started l a hal
        rcases hq with hq | hq
        · exact h2 hq
        · exact h3 hq
      rw [Live, hother a haq]
      exact ⟨rfl, h.started l a hal⟩
    · have hbq : b ≠ q := by
        rintro rfl
        refine hb.1 ?_
        rw [hp, Function.update_self]
      rw [Live, hother b hbq] at hb
      rw [hother b hbq]
      exact h.other l a b hal hne hb
  | @unlink _ q _ hst hp hn =>
    have hsame : ∀ a, (s'.proc a).pid = (s.proc a).pid ∧ (s'.proc a).state = (s.proc a).state := by
      intro a
      rw [hp]
      by_cases haq : a = q
      · rw [haq, Function.update_self]
        exact ⟨rfl, rfl⟩
      · rw [Function.update_of_ne haq]
        exact ⟨rfl, rfl⟩
    refine h.keeps hl hh hx (fun l a hal => ?_) fun l a b hal hne hb => ?_
    · rw [Live, (hsame a).2]
      exact ⟨(hsame a).1, h.started l a hal⟩
    · rw [Live, (hsame b).2] at hb
      rw [(hsame b).1]
      exact h.other l a b hal hne hb
  | cont _ hp _ _ =>
    refine h.keeps hl hh hx (fun l a hal => ?_) fun l a b hal hne hb => ?_
    · rw [Live, hp]
      exact ⟨rfl, h.started l a hal⟩
    · rw [Live, hp] at hb
      rw [hp]
      exact h.other l a b hal hne hb

theorem Owned.sect (h : s.Owned) (hI : s.view.Inv T) (hc : s.PidSafe e) (hs : Sect s e s') : s'.Owned := by
  have hx := hs.exits
  cases hs.locks with
  | keeps hl hh => exact h.pids hI hc hl hh hx (hs.pids hI)
  | @acquire p l _ ha hf hl hh hp =>
    have hst := ha.running hI
    refine h.acquire hx (by rw [ha.pc]; nofun) ⟨⟨by simp [hst], by simp [hst]⟩, by simp [hst]⟩ ?_ hl hh hp
    have := hc
    simp only [PidSafe, ha.point hI] at this
    exact fun q hne hq => this hf p q rfl hne hq
  | release hl hh hp _ => exact h.release hx hl hh hp

omit [DecidableEq L] in
theorem Owned.holdingsleep (h : s.Owned) {p : Slot} (hp : s.Live p) (l : L) :
    s.holdingsleep p l = true ↔ s.holder l = some p := by
  constructor
  · intro hh
    obtain ⟨hlk, hpid⟩ : (s.lock l).locked = true ∧ (s.lock l).pid = (s.proc p).pid := by
      simpa [Sys.holdingsleep] using hh
    obtain ⟨q, hq⟩ := (h.locked l).1 hlk
    by_contra hne
    have hpq : p ≠ q := by
      rintro rfl
      exact hne hq
    exact h.other l q p hq hpq hp hpid.symm
  · intro hh
    have h1 : (s.lock l).locked = true := (h.locked l).2 ⟨p, hh⟩
    have h2 : (s.lock l).pid = (s.proc p).pid := h.pid l p hh
    simp [Sys.holdingsleep, h1, h2]

end Sys

omit [DecidableEq L] in
theorem procinit_owned : (procinit L).Owned := by
  refine ⟨?_, nofun, nofun, nofun, nofun⟩
  intro l
  simp [procinit]

/-- In a run without clashes of pids, `holdingsleep` says to each live process whether it owns the lock. -/
theorem holdingsleep_exact [Fintype L] (h : ((procLts L).guard Sys.PidSafe).Reachable s) {p : Slot} (hp : s.Live p)
    (l : L) : s.holdingsleep p l = true ↔ s.holder l = some p := by
  have hinv : ∃ T, s.view.Inv T ∧ s.Owned := by
    refine h.invariant (I := fun s => ∃ T, s.view.Inv T ∧ s.Owned) ?_ ?_
    · rintro s rfl
      exact ⟨_, procinit_inv, procinit_owned⟩
    · rintro s e s' ⟨T, hT, ho⟩ ⟨hc, hst⟩
      have hsect := Sys.step_sect hst
      obtain ⟨T', hT'⟩ := hT.sect hsect
      exact ⟨T', hT', ho.sect hT hc hsect⟩
  obtain ⟨T, -, ho⟩ := hinv
  exact ho.holdingsleep hp l

/-- A test for runs in which nobody exits. -/
private def pidSafe (s : Sys Unit) : Ev Unit → Bool
  | .next t =>
    match s.point t with
    | some (.acquiresleep _) => decide (∀ p q, t = some p → q ≠ p → s.Live q → (s.proc q).pid ≠ (s.proc p).pid)
    | some (.locked c _ _) => decide (s.NotOwner (asInt (s.cont c).nextpid))
    | some (.reparent _ _) => false
    | _ => true
  | _ => true

private theorem pidSafe_sound (s : Sys Unit) (e : Ev Unit) (h : pidSafe s e = true) : s.PidSafe e := by
  cases e with
  | next t =>
    unfold pidSafe at h
    unfold Sys.PidSafe
    dsimp only at h ⊢
    split
    · rename_i heq
      rw [heq] at h
      exact fun _ => of_decide_eq_true h
    · rename_i heq
      rw [heq] at h
      exact of_decide_eq_true h
    · rename_i heq
      rw [heq] at h
      cases h
    · trivial
  | _ => exact trivial

/-- The first process takes a sleep lock. -/
def acquireRun : List (Ev Unit) :=
  let first : Slot := ⟨0, NPROC_pos⟩
  List.replicate 6 (.next none) ++ [.pop ⟨0, NCPU_pos⟩ contRoot, .switch ⟨0, NCPU_pos⟩, .call first (.acquiresleep ()),
    .next (some first)]

theorem holdingsleep_exact_acquireRun : ∃ (s : Sys Unit) (p : Slot), s.Live p ∧ s.holder () = some p ∧
    s.holdingsleep p () = true := by
  obtain ⟨s, hr, hs⟩ := Sys.reaches pidSafe pidSafe_sound acquireRun
    (fun s => let p : Slot := ⟨0, by decide⟩; decide (s.Live p ∧ s.holder () = some p)) (by decide +kernel)
  obtain ⟨hl, hh⟩ := of_decide_eq_true hs
  exact ⟨s, _, hl, hh, (holdingsleep_exact hr hl ()).2 hh⟩

/-- A process of a container forks; the child takes a sleep lock, and then its parent exits. -/
def abandonRun : List (Ev Unit) :=
  let first : Slot := ⟨0, NPROC_pos⟩
  let second : Slot := ⟨1, one_lt_NPROC⟩
  let third : Slot := ⟨2, two_lt_NPROC⟩
  List.replicate 6 (.next none) ++
    [.pop ⟨0, NCPU_pos⟩ contRoot, .switch ⟨0, NCPU_pos⟩, .call first (.cfork [0x63] 7)] ++
    List.replicate 11 (.next (some first)) ++
    [.pop ⟨1, one_lt_NCPU⟩ ⟨1, one_lt_NCONT⟩, .switch ⟨1, one_lt_NCPU⟩, .call second .fork] ++
    List.replicate 8 (.next (some second)) ++
    [.pop ⟨2, two_lt_NCPU⟩ ⟨1, one_lt_NCONT⟩, .switch ⟨2, two_lt_NCPU⟩, .call third (.acquiresleep ()), .next (some third),
      .call second (.exit 0)] ++ List.replicate 5 (.next (some second))

/-- `reparent` takes the pid from the owner of a sleep lock: `holdingsleep` then denies that it holds the lock. -/
theorem reparent_disowns : ∃ s : Sys Unit, (procLts Unit).Reachable s ∧
    ∃ q, s.holder () = some q ∧ (s.proc q).state = .running ∧ s.holdingsleep q () = false := by
  obtain ⟨s, hr, hs⟩ := Sys.reaches (C := fun _ _ => True) (fun _ _ => true) (fun _ _ _ => trivial) abandonRun
    (fun s : Sys Unit => let q : Slot := ⟨2, by decide⟩
      decide (s.holder () = some q ∧ (s.proc q).state = .running ∧ s.holdingsleep q () = false)) (by decide +kernel)
  exact ⟨s, hr.of_guard, _, of_decide_eq_true hs⟩

end Xv6
