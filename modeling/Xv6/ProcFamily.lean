import Xv6.ProcPids

/-!
# Parents and children

`wait_lock` protects the parent pointers.  `Sys.Family` says that the holder of the lock is alone, that a parent is a live
process, and that `reparent` has passed on all the children it has seen; `Sys.Waiting` says that a process that sleeps in
`wait` while it has a zombie is about to be woken up by the holder of the lock.  Most sections keep all that these depend
on (`Sys.KeepsFamily`).
-/

namespace Xv6

open Function (update)

/-- The process has started and has not exited. -/
def ProcState.living : ProcState → Bool
  | sleeping | runnable | running => true
  | _ => false

variable {L : Type}

/-- The new process of a `fork` that has not set its parent. -/
def Pc.born : Pc L → Option Slot
  | made _ _ np | listed _ _ np | copied _ _ np => some np
  | _ => none

/-- The slots below are not children of this process: `reparent` has passed them on. -/
def Pc.passed : Pc L → Option Nat
  | reparent _ i => some i
  | exitLast _ => some NPROC
  | _ => none

/-- The slots below are not zombies of this process: `wait` has scanned them. -/
def Pc.scanned : Pc L → Option Nat
  | scan _ i _ => some i
  | waitKilled _ | waitSleep _ => some NPROC
  | _ => none

/-- `exit` has called `wakeup` on the parent. -/
def Pc.last : Pc L → Bool
  | exitLast _ => true
  | _ => false

structure FamTag where
  waits : Bool
  born : Option Slot
  passed : Option Nat
  scanned : Option Nat
  last : Bool

def Pc.fam (pc : Pc L) : FamTag := ⟨pc.waits, pc.born, pc.passed, pc.scanned, pc.last⟩

theorem Pc.waits_of_scanned {pc : Pc L} {i : Nat} (h : pc.scanned = some i) : pc.waits = true := by
  cases pc <;> first | rfl | cases h

theorem Pc.waits_of_last {pc : Pc L} (h : pc.last = true) : pc.waits = true := by
  cases pc <;> first | rfl | cases h

theorem Pc.waits_of_passed {pc : Pc L} {i : Nat} (h : pc.passed = some i) : pc.waits = true := by
  cases pc <;> first | rfl | cases h

theorem Pc.idle_fam {pc : Pc L} (h : pc.role = .idle) : pc.born = none ∧ pc.passed = none := by
  cases pc <;> first | exact ⟨rfl, rfl⟩ | cases h

/-- The thread is in a `wakeup` of the process `p` that has not come to `p` yet. -/
def Th.wakes (x : Th L) (p : Slot) : Prop :=
  match x.wake with
  | none => False
  | some (.loop chan i) => chan = some (.proc p) ∧ i ≤ p.val
  | some (.push chan q) => chan = some (.proc p) ∧ q.val < p.val

theorem Th.not_wakes {x : Th L} (h : x.wake = none) (p : Slot) : ¬ x.wakes p := by
  rw [wakes, h]
  exact id

namespace Sys

/-- The process sleeps in `wait`. -/
def Asleep (s : Sys L) (p : Slot) : Prop := (s.proc p).state = .sleeping ∧ (s.proc p).chan = some (.proc p)

structure Family (s : Sys L) : Prop where
  alone : ∀ t u, (s.th t).waits = true → (s.th u).waits = true → t = u
  runs : ∀ t, (s.th t).waits = true → (s.th t).sw = .run
  living : ∀ q p, (s.proc q).parent = some p → (s.proc p).state.living = true
  child : ∀ q, (s.proc q).state ≠ .unused → s.initproc ≠ some q → (∀ t, (s.th t).pc.born ≠ some q) →
    (s.proc q).parent ≠ none
  passed : ∀ p i, (s.th (some p)).pc.passed = some i → ∀ q : Slot, q.val < i → (s.proc q).parent ≠ some p

structure Waiting (s : Sys L) : Prop where
  scanned : ∀ p i, (s.th (some p)).pc.scanned = some i → ∀ q : Slot, q.val < i → (s.proc q).parent = some p →
    (s.proc q).state ≠ .zombie
  zombie : ∀ p q, s.Asleep p → (s.proc q).parent = some p → (s.proc q).state = .zombie →
    ∃ t, (s.th t).waits = true ∧ (s.th t).wakes p
  last : ∀ x p, (s.th (some x)).pc.last = true → (s.proc x).parent = some p → s.Asleep p → (s.th (some x)).wakes p

/-- A section that does not concern parents and children. -/
structure KeepsFamily (s s' : Sys L) : Prop where
  parent : ∀ q, (s'.proc q).parent = (s.proc q).parent
  living : ∀ q, (s.proc q).state.living = true → (s'.proc q).state.living = true
  used : ∀ q, (s'.proc q).state ≠ .unused → (s.proc q).state ≠ .unused
  zombie : ∀ q, (s'.proc q).state = .zombie → (s.proc q).state = .zombie
  asleep : ∀ q, s'.Asleep q → s.Asleep q
  init : s'.initproc = s.initproc
  fam : ∀ t, (s'.th t).pc.fam = (s.th t).pc.fam
  sw : ∀ t, (s.th t).waits = true → (s'.th t).sw = (s.th t).sw
  wakes : ∀ t p, s'.Asleep p → (s.th t).wakes p → (s'.th t).wakes p

variable {s s' : Sys L} {T : Table}

theorem KeepsFamily.of_th (hp : s'.proc = s.proc) (hi : s'.initproc = s.initproc)
    (hf : ∀ t, (s'.th t).pc.fam = (s.th t).pc.fam) (hs : ∀ t, (s.th t).waits = true → (s'.th t).sw = (s.th t).sw)
    (hw : ∀ t p, s.Asleep p → (s.th t).wakes p → (s'.th t).wakes p) : s.KeepsFamily s' := by
  have ha : ∀ q, s'.Asleep q ↔ s.Asleep q := fun q => by rw [Asleep, Asleep, hp]
  refine ⟨?_, ?_, ?_, ?_, fun q => (ha q).1, hi, hf, hs, fun t p h => hw t p ((ha p).1 h)⟩ <;> intro q <;> rw [hp] <;>
    exact id

theorem KeepsFamily.of_update {q : Slot} {x : Proc L} (hp : s'.proc = update s.proc q x) (hi : s'.initproc = s.initproc)
    (h1 : x.parent = (s.proc q).parent) (h2 : (s.proc q).state.living = true → x.state.living = true)
    (h3 : x.state ≠ .unused → (s.proc q).state ≠ .unused) (h4 : x.state = .zombie → (s.proc q).state = .zombie)
    (h5 : x.state = .sleeping ∧ x.chan = some (.proc q) → s.Asleep q)
    (hf : ∀ t, (s'.th t).pc.fam = (s.th t).pc.fam) (hs : ∀ t, (s.th t).waits = true → (s'.th t).sw = (s.th t).sw)
    (hw : ∀ t p, s'.Asleep p → (s.th t).wakes p → (s'.th t).wakes p) : s.KeepsFamily s' := by
  have hcase : ∀ a, a = q ∧ s'.proc a = x ∨ s'.proc a = s.proc a := by
    intro a
    rw [hp]
    by_cases ha : a = q
    · exact .inl ⟨ha, by rw [ha, Function.update_self]⟩
    · exact .inr (Function.update_of_ne ha ..)
  refine ⟨?_, ?_, ?_, ?_, ?_, hi, hf, hs, hw⟩ <;> intro a <;> rcases hcase a with ⟨rfl, ha⟩ | ha
  · rw [ha, h1]
  · rw [ha]
  · rw [ha]
    exact h2
  · rw [ha]
    exact id
  · rw [ha]
    exact h3
  · rw [ha]
    exact id
  · rw [ha]
    exact h4
  · rw [ha]
    exact id
  · rw [Asleep, ha]
    exact h5
  · rw [Asleep, ha]
    exact id

theorem Family.keeps (h : s.Family) (hk : s.KeepsFamily s') : s'.Family := by
  have hwaits : ∀ t, (s'.th t).waits = (s.th t).waits := fun t => congrArg FamTag.waits (hk.fam t)
  have hborn : ∀ t, (s'.th t).pc.born = (s.th t).pc.born := fun t => congrArg FamTag.born (hk.fam t)
  have hpassed : ∀ t, (s'.th t).pc.passed = (s.th t).pc.passed := fun t => congrArg FamTag.passed (hk.fam t)
  refine ⟨?_, ?_, ?_, ?_, ?_⟩
  · intro t u
    rw [hwaits, hwaits]
    exact h.alone t u
  · intro t ht
    rw [hwaits] at ht
    rw [hk.sw t ht]
    exact h.runs t ht
  · intro q p hp
    rw [hk.parent] at hp
    exact hk.living p (h.living q p hp)
  · intro q hq hi hb
    simp only [hborn] at hb
    rw [hk.init] at hi
    rw [hk.parent]
    exact h.child q (hk.used q hq) hi hb
  · intro p i hp q
    rw [hpassed] at hp
    rw [hk.parent]
    exact h.passed p i hp q

theorem Waiting.keeps (h : s.Waiting) (hk : s.KeepsFamily s') : s'.Waiting := by
  have hwaits : ∀ t, (s'.th t).waits = (s.th t).waits := fun t => congrArg FamTag.waits (hk.fam t)
  have hscan : ∀ t, (s'.th t).pc.scanned = (s.th t).pc.scanned := fun t => congrArg FamTag.scanned (hk.fam t)
  have hlast : ∀ t, (s'.th t).pc.last = (s.th t).pc.last := fun t => congrArg FamTag.last (hk.fam t)
  refine ⟨?_, ?_, ?_⟩
  · intro p i hp q hq hpar hz
    rw [hscan] at hp
    rw [hk.parent] at hpar
    exact h.scanned p i hp q hq hpar (hk.zombie q hz)
  · intro p q ha hpar hz
    rw [hk.parent] at hpar
    obtain ⟨t, hw, ht⟩ := h.zombie p q (hk.asleep p ha) hpar (hk.zombie q hz)
    exact ⟨t, (hwaits t).trans hw, hk.wakes t p ha ht⟩
  · intro x p hx hpar ha
    rw [hlast] at hx
    rw [hk.parent] at hpar
    exact hk.wakes _ p ha (h.last x p hx hpar (hk.asleep p ha))

/-! ### The holder of `wait_lock` moves -/

/-- Thread `t` moves, with the process table as it is. -/
theorem Family.move {t : Thread} {x : Th L} (h : s.Family) (hp : s'.proc = s.proc) (hi : s'.initproc = s.initproc)
    (hth : s'.th = update s.th t x) (hb : x.pc.born = (s.th t).pc.born)
    (hw : x.waits = true → x.sw = .run ∧ ((s.th t).waits = true ∨ s.WaitFree))
    (hx : ∀ p i, t = some p → x.pc.passed = some i → ∀ q : Slot, q.val < i → (s.proc q).parent ≠ some p) : s'.Family := by
  have hcase : ∀ u, u = t ∧ s'.th u = x ∨ u ≠ t ∧ s'.th u = s.th u := by
    intro u
    rw [hth]
    by_cases hu : u = t
    · exact .inl ⟨hu, by rw [hu, Function.update_self]⟩
    · exact .inr ⟨hu, Function.update_of_ne hu ..⟩
  have hother : ∀ u, u ≠ t → (s.th u).waits = true → x.waits = true → False := by
    intro u hu h1 h2
    rcases (hw h2).2 with h3 | h3
    · exact hu (h.alone u t h1 h3)
    · rw [h3 u] at h1
      cases h1
  refine ⟨?_, ?_, by rw [hp]; exact h.living, ?_, ?_⟩
  · intro u v hu hv
    rcases hcase u with ⟨rfl, h1⟩ | ⟨hut, h1⟩ <;> rcases hcase v with ⟨rfl, h2⟩ | ⟨hvt, h2⟩
    · rfl
    · rw [h1] at hu
      rw [h2] at hv
      exact (hother v hvt hv hu).elim
    · rw [h1] at hu
      rw [h2] at hv
      exact (hother u hut hu hv).elim
    · rw [h1] at hu
      rw [h2] at hv
      exact h.alone u v hu hv
  · intro u hu
    rcases hcase u with ⟨rfl, h1⟩ | ⟨-, h1⟩ <;> rw [h1] at hu ⊢
    · exact (hw hu).1
    · exact h.runs u hu
  · intro q hq hiq hbq
    rw [hp] at hq ⊢
    rw [hi] at hiq
    refine h.child q hq hiq fun u => ?_
    rcases hcase u with ⟨rfl, h1⟩ | ⟨-, h1⟩
    · rw [← hb, ← h1]
      exact hbq u
    · rw [← h1]
      exact hbq u
  · intro p i hpi q hq
    rw [hp]
    rcases hcase (some p) with ⟨ht, h1⟩ | ⟨-, h1⟩ <;> rw [h1] at hpi
    · exact hx p i ht.symm hpi q hq
    · exact h.passed p i hpi q hq

theorem Waiting.move {t : Thread} {x : Th L} (h : s.Waiting) (hp : s'.proc = s.proc) (hth : s'.th = update s.th t x)
    (hk : (s.th t).wake = none)
    (hs : ∀ p i, t = some p → x.pc.scanned = some i → ∀ q : Slot, q.val < i → (s.proc q).parent = some p →
      (s.proc q).state ≠ .zombie)
    (hl : ∀ r p, t = some r → x.pc.last = true → (s.proc r).parent = some p → x.wakes p) : s'.Waiting := by
  have hcase : ∀ u, u = t ∧ s'.th u = x ∨ u ≠ t ∧ s'.th u = s.th u := by
    intro u
    rw [hth]
    by_cases hu : u = t
    · exact .inl ⟨hu, by rw [hu, Function.update_self]⟩
    · exact .inr ⟨hu, Function.update_of_ne hu ..⟩
  have ha : ∀ q, s'.Asleep q ↔ s.Asleep q := fun q => by rw [Asleep, Asleep, hp]
  refine ⟨?_, ?_, ?_⟩
  · intro p i hpi
    rw [hp]
    rcases hcase (some p) with ⟨ht, h1⟩ | ⟨-, h1⟩ <;> rw [h1] at hpi
    · exact hs p i ht.symm hpi
    · exact h.scanned p i hpi
  · intro p q hpa hpar hz
    rw [hp] at hpar hz
    obtain ⟨u, hu, huw⟩ := h.zombie p q ((ha p).1 hpa) hpar hz
    rcases hcase u with ⟨rfl, h1⟩ | ⟨-, h1⟩
    · exact absurd huw (Th.not_wakes hk p)
    · exact ⟨u, by rwa [h1], by rwa [h1]⟩
  · intro r p hr hpar hpa
    rw [hp] at hpar
    rcases hcase (some r) with ⟨ht, h1⟩ | ⟨-, h1⟩ <;> rw [h1] at hr ⊢
    · exact hl r p ht.symm hr hpar
    · exact h.last r p hr hpar ((ha p).1 hpa)

/-! ### Sections that change a process -/

/-- What a section makes of process `q`, as far as parents are concerned: it frees the slot, leaves the parent as it is, or
gives it a living parent that has not called `reparent`. -/
def Adopts (s : Sys L) (q : Slot) (x : Proc L) : Prop :=
  (x.parent = none ∧ x.state = .unused) ∨
  (x.parent = (s.proc q).parent ∧ (x.state ≠ .unused → (s.proc q).state ≠ .unused)) ∨
  ∃ r, x.parent = some r ∧ (update s.proc q x r).state.living = true ∧ (s.th (some r)).pc.passed = none

theorem Family.act {t : Thread} {y : Th L} {q : Slot} {x : Proc L} (h : s.Family) (hp : s'.proc = update s.proc q x)
    (hi : s'.initproc = s.initproc) (hth : s'.th = update s.th t y) (hq : s.Adopts q x)
    (hb : ∀ b, (s.th t).pc.born = some b → y.pc.born = some b ∨ b = q ∧ (x.parent ≠ none ∨ x.state = .unused))
    (hw : y.waits = true → y.sw = .run ∧ (s.th t).waits = true)
    (hl : (s.proc q).state.living = true → x.state.living = true ∨ ∀ a, (s.proc a).parent ≠ some q)
    (hy : ∀ p i, t = some p → y.pc.passed = some i → ∀ a : Slot, a.val < i → (update s.proc q x a).parent ≠ some p) :
    s'.Family := by
  have hcase : ∀ u, u = t ∧ s'.th u = y ∨ u ≠ t ∧ s'.th u = s.th u := by
    intro u
    rw [hth]
    by_cases hu : u = t
    · exact .inl ⟨hu, by rw [hu, Function.update_self]⟩
    · exact .inr ⟨hu, Function.update_of_ne hu ..⟩
  have hslot : ∀ a, a = q ∧ s'.proc a = x ∨ a ≠ q ∧ s'.proc a = s.proc a := by
    intro a
    rw [hp]
    by_cases ha : a = q
    · exact .inl ⟨ha, by rw [ha, Function.update_self]⟩
    · exact .inr ⟨ha, Function.update_of_ne ha ..⟩
  -- a process that was a living parent still is one
  have hliv : ∀ a p, (s.proc a).parent = some p → (s'.proc p).state.living = true := by
    intro a p hap
    have hold := h.living a p hap
    rcases hslot p with ⟨rfl, h1⟩ | ⟨-, h1⟩ <;> rw [h1]
    · exact (hl hold).resolve_right fun hno => hno a hap
    · exact hold
  refine ⟨?_, ?_, ?_, ?_, ?_⟩
  · intro u v hu hv
    have hold : ∀ w, (s'.th w).waits = true → (s.th w).waits = true := by
      intro w hw'
      rcases hcase w with ⟨rfl, h1⟩ | ⟨-, h1⟩ <;> rw [h1] at hw'
      · exact (hw hw').2
      · exact hw'
    exact h.alone u v (hold u hu) (hold v hv)
  · intro u hu
    rcases hcase u with ⟨rfl, h1⟩ | ⟨-, h1⟩ <;> rw [h1] at hu ⊢
    · exact (hw hu).1
    · exact h.runs u hu
  · intro a p hap
    rcases hslot a with ⟨rfl, h1⟩ | ⟨-, h1⟩ <;> rw [h1] at hap
    · rcases hq with ⟨hn, -⟩ | ⟨hn, -⟩ | ⟨r, hr, hr', -⟩
      · rw [hn] at hap
        cases hap
      · exact hliv a p (hn ▸ hap)
      · rw [hr] at hap
        cases hap
        rwa [hp]
    · exact hliv a p hap
  · intro a ha hia hba
    rw [hi] at hia
    rcases hslot a with ⟨rfl, h1⟩ | ⟨haq, h1⟩ <;> rw [h1] at ha ⊢
    · rcases hq with ⟨-, hn⟩ | ⟨hn, hu⟩ | ⟨r, hr, -⟩
      · exact absurd hn ha
      · by_cases hbt : (s.th t).pc.born = some a
        · rcases hb a hbt with h2 | ⟨-, h2 | h2⟩
          · refine absurd ?_ (hba t)
            rw [hth, Function.update_self]
            exact h2
          · exact h2
          · exact absurd h2 ha
        · rw [hn]
          refine h.child a (hu ha) hia fun u => ?_
          rcases hcase u with ⟨rfl, h2⟩ | ⟨-, h2⟩
          · exact hbt
          · rw [← h2]
            exact hba u
      · rw [hr]
        nofun
    · refine h.child a ha hia fun u hu => ?_
      rcases hcase u with ⟨rfl, h2⟩ | ⟨-, h2⟩
      · rcases hb a hu with h3 | ⟨h3, -⟩
        · exact hba u (by rw [h2]; exact h3)
        · exact haq h3
      · exact hba u (by rw [h2]; exact hu)
  · intro p i hpi a hai
    rw [hp]
    rcases hcase (some p) with ⟨ht, h1⟩ | ⟨-, h1⟩ <;> rw [h1] at hpi
    · exact hy p i ht.symm hpi a hai
    · by_cases haq : a = q
      · subst haq
        rw [Function.update_self]
        rcases hq with ⟨hn, -⟩ | ⟨hn, -⟩ | ⟨r, hr, -, hr'⟩
        · rw [hn]
          nofun
        · rw [hn]
          exact h.passed p i hpi a hai
        · rw [hr]
          rintro ⟨⟩
          rw [hr'] at hpi
          cases hpi
      · rw [Function.update_of_ne haq]
        exact h.passed p i hpi a hai

/-- A section under `wait_lock` that is not part of the scan of `wait`. -/
theorem Waiting.act {t : Thread} {y : Th L} {q : Slot} {x : Proc L} (hF : s.Family) (h : s.Waiting)
    (hp : s'.proc = update s.proc q x) (hth : s'.th = update s.th t y) (hk : (s.th t).wake = none)
    (hlock : (s.th t).waits = true ∨ s.WaitFree) (hys : y.pc.scanned = none) (hyl : y.pc.last = false)
    (hz : ∀ p, s'.Asleep p → x.parent = some p → x.state = .zombie → y.waits = true ∧ y.wakes p)
    (ho : ∀ p a, s'.Asleep p → a ≠ q → (s.proc a).parent = some p → (s.proc a).state = .zombie → s.Asleep p) :
    s'.Waiting := by
  have honly : ∀ u, (s.th u).waits = true → u = t := by
    intro u hu
    rcases hlock with hl | hl
    · exact hF.alone u t hu hl
    · rw [hl u] at hu
      cases hu
  have hcase : ∀ u, u = t ∧ s'.th u = y ∨ u ≠ t ∧ s'.th u = s.th u := by
    intro u
    rw [hth]
    by_cases hu : u = t
    · exact .inl ⟨hu, by rw [hu, Function.update_self]⟩
    · exact .inr ⟨hu, Function.update_of_ne hu ..⟩
  refine ⟨?_, ?_, ?_⟩
  · intro p i hpi
    rcases hcase (some p) with ⟨-, h1⟩ | ⟨hne, h1⟩ <;> rw [h1] at hpi
    · rw [hys] at hpi
      cases hpi
    · exact absurd (honly _ (Pc.waits_of_scanned hpi)) hne
  · intro p a hpa hap haz
    by_cases haq : a = q
    · subst haq
      rw [hp, Function.update_self] at hap haz
      obtain ⟨h1, h2⟩ := hz p hpa hap haz
      refine ⟨t, ?_, ?_⟩ <;> rw [hth, Function.update_self]
      · exact h1
      · exact h2
    · rw [hp, Function.update_of_ne haq] at hap haz
      obtain ⟨u, hu, huw⟩ := h.zombie p a (ho p a hpa haq hap haz) hap haz
      rw [honly u hu] at huw
      exact absurd huw (Th.not_wakes hk p)
  · intro r p hr
    rcases hcase (some r) with ⟨-, h1⟩ | ⟨hne, h1⟩ <;> rw [h1] at hr
    · rw [hyl] at hr
      cases hr
    · exact absurd (honly _ (Pc.waits_of_last hr)) hne

/-- A slot is freed. -/
theorem Waiting.reset {t : Thread} {y : Th L} {q : Slot} {x : Proc L} (h : s.Waiting)
    (hp : s'.proc = update s.proc q x) (hth : s'.th = update s.th t y) (hk : (s.th t).wake = none)
    (hx : x.parent = none ∧ x.state = .unused) (hys : y.pc.scanned = none) (hyl : y.pc.last = false) : s'.Waiting := by
  have hcase : ∀ u, u = t ∧ s'.th u = y ∨ u ≠ t ∧ s'.th u = s.th u := by
    intro u
    rw [hth]
    by_cases hu : u = t
    · exact .inl ⟨hu, by rw [hu, Function.update_self]⟩
    · exact .inr ⟨hu, Function.update_of_ne hu ..⟩
  have hpar : ∀ a p, (s'.proc a).parent = some p → (s.proc a).parent = some p ∧ (s'.proc a).state = (s.proc a).state := by
    intro a p hap
    rw [hp] at hap ⊢
    by_cases haq : a = q
    · subst haq
      rw [Function.update_self, hx.1] at hap
      cases hap
    · rw [Function.update_of_ne haq] at hap ⊢
      exact ⟨hap, rfl⟩
  have hasl : ∀ p, s'.Asleep p → s.Asleep p := by
    intro p hpa
    rw [Asleep, hp] at hpa
    by_cases hpq : p = q
    · subst hpq
      rw [Function.update_self, hx.2] at hpa
      cases hpa.1
    · rwa [Function.update_of_ne hpq] at hpa
  refine ⟨?_, ?_, ?_⟩
  · intro p i hpi a hai hap
    obtain ⟨h1, h2⟩ := hpar a p hap
    rw [h2]
    rcases hcase (some p) with ⟨-, h3⟩ | ⟨-, h3⟩ <;> rw [h3] at hpi
    · rw [hys] at hpi
      cases hpi
    · exact h.scanned p i hpi a hai h1
  · intro p a hpa hap haz
    obtain ⟨h1, h2⟩ := hpar a p hap
    rw [h2] at haz
    obtain ⟨u, hu, huw⟩ := h.zombie p a (hasl p hpa) h1 haz
    rcases hcase u with ⟨rfl, -⟩ | ⟨-, h3⟩
    · exact absurd huw (Th.not_wakes hk p)
    · exact ⟨u, by rwa [h3], by rwa [h3]⟩
  · intro r p hr hrp hpa
    obtain ⟨h1, -⟩ := hpar r p hrp
    rcases hcase (some r) with ⟨-, h3⟩ | ⟨-, h3⟩ <;> rw [h3] at hr ⊢
    · rw [hyl] at hr
      cases hr
    · exact h.last r p hr h1 (hasl p hpa)

/-! ### New processes -/

section

variable {t : Thread} {y : Th L} {c : ContId} {fr : Bool} {np : Slot} {x : Proc L}

/-- `allocproc` has an `UNUSED` slot. -/
theorem Family.alloc (h : s.Family) (ht : (s.th t).pc = .locked c fr np) (hy : y.pc = .made c fr np)
    (hst : (s.proc np).state = .unused) (hrole : (s.th (some np)).pc.role = .idle)
    (hp : s'.proc = update s.proc np x) (hx : x.parent = (s.proc np).parent) (hi : s'.initproc = s.initproc)
    (hth : s'.th = update (update s.th (some np) forkret) t y) : s'.Family := by
  have hcase : ∀ u, u = t ∧ s'.th u = y ∨ u = some np ∧ s'.th u = forkret ∨ u ≠ t ∧ s'.th u = s.th u := by
    intro u
    rw [hth]
    by_cases hu : u = t
    · exact .inl ⟨hu, by rw [hu, Function.update_self]⟩
    · rw [Function.update_of_ne hu]
      by_cases hun : u = some np
      · exact .inr (.inl ⟨hun, by rw [hun, Function.update_self]⟩)
      · exact .inr (.inr ⟨hu, Function.update_of_ne hun ..⟩)
  have hpar : ∀ a, (s'.proc a).parent = (s.proc a).parent := by
    intro a
    rw [hp]
    by_cases ha : a = np
    · rw [ha, Function.update_self, hx]
    · rw [Function.update_of_ne ha]
  have hwaits : ∀ u, (s'.th u).waits = true → s'.th u = s.th u := by
    intro u hu
    rcases hcase u with ⟨-, h1⟩ | ⟨-, h1⟩ | ⟨-, h1⟩
    · rw [h1, Th.waits, hy] at hu
      cases hu
    · rw [h1] at hu
      cases hu
    · exact h1
  refine ⟨?_, ?_, ?_, ?_, ?_⟩
  · intro u v hu hv
    have h1 := hwaits u hu
    have h2 := hwaits v hv
    rw [h1] at hu
    rw [h2] at hv
    exact h.alone u v hu hv
  · intro u hu
    have h1 := hwaits u hu
    rw [h1] at hu ⊢
    exact h.runs u hu
  · intro a p hap
    rw [hpar] at hap
    have hliv := h.living a p hap
    have hpn : p ≠ np := by
      rintro rfl
      rw [hst] at hliv
      cases hliv
    rw [hp, Function.update_of_ne hpn]
    exact hliv
  · intro a ha hia hba
    have han : a ≠ np := by
      rintro rfl
      refine hba t ?_
      rw [hth, Function.update_self, hy]
      rfl
    rw [hp, Function.update_of_ne han] at ha
    rw [hi] at hia
    rw [hpar]
    refine h.child a ha hia fun u hu => ?_
    rcases hcase u with ⟨rfl, -⟩ | ⟨rfl, -⟩ | ⟨-, h1⟩
    · rw [ht] at hu
      cases hu
    · rw [(Pc.idle_fam hrole).1] at hu
      cases hu
    · exact hba u (by rw [h1]; exact hu)
  · intro p i hpi
    have h1 := hwaits (some p) (Pc.waits_of_passed hpi)
    rw [h1] at hpi
    simp only [hpar]
    exact h.passed p i hpi

theorem Waiting.alloc (hF : s.Family) (h : s.Waiting) (ht : (s.th t).pc = .locked c fr np) (hy : y.pc = .made c fr np)
    (hoff : ∃ b, (s.th (some np)).sw = .off b) (hp : s'.proc = update s.proc np x) (hx : x.parent = (s.proc np).parent)
    (hxs : x.state = .used) (hth : s'.th = update (update s.th (some np) forkret) t y) : s'.Waiting := by
  have hne : ∀ u, (s.th u).waits = true → u ≠ t ∧ u ≠ some np := by
    intro u hu
    constructor
    · rintro rfl
      rw [Th.waits, ht] at hu
      cases hu
    · rintro rfl
      obtain ⟨b, hb⟩ := hoff
      rw [hF.runs _ hu] at hb
      cases hb
  have hold : ∀ u, (s.th u).waits = true → s'.th u = s.th u := by
    intro u hu
    obtain ⟨h1, h2⟩ := hne u hu
    rw [hth, Function.update_of_ne h1, Function.update_of_ne h2]
  have hnew : ∀ u, (s'.th u).waits = true → s'.th u = s.th u := by
    intro u hu
    rw [hth] at hu ⊢
    by_cases hut : u = t
    · rw [hut, Function.update_self, Th.waits, hy] at hu
      cases hu
    · rw [Function.update_of_ne hut] at hu ⊢
      by_cases hun : u = some np
      · rw [hun, Function.update_self] at hu
        cases hu
      · rw [Function.update_of_ne hun]
  have hslot : ∀ a, (s'.proc a).parent = (s.proc a).parent ∧
      ((s'.proc a).state = .zombie → (s.proc a).state = .zombie) ∧ (s'.Asleep a → s.Asleep a) := by
    intro a
    rw [Asleep, hp]
    by_cases ha : a = np
    · rw [ha, Function.update_self, hx, hxs]
      exact ⟨rfl, nofun, fun h => by cases h.1⟩
    · rw [Function.update_of_ne ha]
      exact ⟨rfl, id, id⟩
  refine ⟨?_, ?_, ?_⟩
  · intro p i hpi a hai hap haz
    rw [(hslot a).1] at hap
    rw [hnew _ (Pc.waits_of_scanned hpi)] at hpi
    exact h.scanned p i hpi a hai hap ((hslot a).2.1 haz)
  · intro p a hpa hap haz
    rw [(hslot a).1] at hap
    obtain ⟨u, hu, huw⟩ := h.zombie p a ((hslot p).2.2 hpa) hap ((hslot a).2.1 haz)
    exact ⟨u, by rwa [hold u hu], by rwa [hold u hu]⟩
  · intro r p hr hrp hpa
    rw [(hslot r).1] at hrp
    have hr' := hnew _ (Pc.waits_of_last hr)
    rw [hr'] at hr ⊢
    exact h.last r p hr hrp ((hslot p).2.2 hpa)

/-- `userinit` has made the first process. -/
theorem Family.userinit (h : s.Family) (ht : (s.th none).pc = .listed c fr np) (hy : y.pc = .ready c fr np)
    (hi : s.initproc = none) (hp : s'.proc = update s.proc np x) (hx : x.parent = (s.proc np).parent)
    (hxs : x.state = .runnable) (hi' : s'.initproc = some np) (hth : s'.th = update s.th none y) : s'.Family := by
  have hcase : ∀ u, u = none ∧ s'.th u = y ∨ s'.th u = s.th u := by
    intro u
    rw [hth]
    by_cases hu : u = none
    · exact .inl ⟨hu, by rw [hu, Function.update_self]⟩
    · exact .inr (Function.update_of_ne hu ..)
  have hpar : ∀ a, (s'.proc a).parent = (s.proc a).parent := by
    intro a
    rw [hp]
    by_cases ha : a = np
    · rw [ha, Function.update_self, hx]
    · rw [Function.update_of_ne ha]
  have hwaits : ∀ u, (s'.th u).waits = true → s'.th u = s.th u := by
    intro u hu
    rcases hcase u with ⟨-, h1⟩ | h1
    · rw [h1, Th.waits, hy] at hu
      cases hu
    · exact h1
  refine ⟨?_, ?_, ?_, ?_, ?_⟩
  · intro u v hu hv
    have h1 := hwaits u hu
    have h2 := hwaits v hv
    rw [h1] at hu
    rw [h2] at hv
    exact h.alone u v hu hv
  · intro u hu
    have h1 := hwaits u hu
    rw [h1] at hu ⊢
    exact h.runs u hu
  · intro a p hap
    rw [hpar] at hap
    rw [hp]
    by_cases hpn : p = np
    · rw [hpn, Function.update_self, hxs]
      rfl
    · rw [Function.update_of_ne hpn]
      exact h.living a p hap
  · intro a ha hia hba
    have han : a ≠ np := by
      rintro rfl
      exact hia hi'
    rw [hp, Function.update_of_ne han] at ha
    rw [hpar]
    refine h.child a ha (by rw [hi]; nofun) fun u hu => ?_
    rcases hcase u with ⟨rfl, -⟩ | h1
    · rw [ht] at hu
      exact han (Option.some.inj hu).symm
    · exact hba u (by rw [h1]; exact hu)
  · intro p i hpi
    have h1 := hwaits (some p) (Pc.waits_of_passed hpi)
    rw [h1] at hpi
    simp only [hpar]
    exact h.passed p i hpi

theorem Waiting.userinit (h : s.Waiting) (ht : (s.th none).pc = .listed c fr np)
    (hp : s'.proc = update s.proc np x) (hx : x.parent = (s.proc np).parent)
    (hxs : x.state = .runnable) (hth : s'.th = update s.th none y) : s'.Waiting := by
  have hold : ∀ p, s'.th (some p) = s.th (some p) := fun p => by rw [hth, Function.update_of_ne (by simp)]
  have hslot : ∀ a, (s'.proc a).parent = (s.proc a).parent ∧
      ((s'.proc a).state = .zombie → (s.proc a).state = .zombie) ∧ (s'.Asleep a → s.Asleep a) := by
    intro a
    rw [Asleep, hp]
    by_cases ha : a = np
    · rw [ha, Function.update_self, hx, hxs]
      exact ⟨rfl, nofun, fun h => by cases h.1⟩
    · rw [Function.update_of_ne ha]
      exact ⟨rfl, id, id⟩
  refine ⟨?_, ?_, ?_⟩
  · intro p i hpi a hai hap haz
    rw [(hslot a).1] at hap
    rw [hold] at hpi
    exact h.scanned p i hpi a hai hap ((hslot a).2.1 haz)
  · intro p a hpa hap haz
    rw [(hslot a).1] at hap
    obtain ⟨u, hu, huw⟩ := h.zombie p a ((hslot p).2.2 hpa) hap ((hslot a).2.1 haz)
    cases u with
    | none =>
      rw [Th.waits, ht] at hu
      cases hu
    | some r => exact ⟨some r, by rwa [hold r], by rwa [hold r]⟩
  · intro r p hr hrp hpa
    rw [(hslot r).1] at hrp
    rw [hold] at hr ⊢
    exact h.last r p hr hrp ((hslot p).2.2 hpa)

end

end Sys

end Xv6
