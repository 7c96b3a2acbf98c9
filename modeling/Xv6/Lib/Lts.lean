import Mathlib.Logic.Basic

/-!
# Transition systems with panics

A system is given by its initial states and by a step relation: an event taken in a state either leads to a new
state or stops the machine with a panic message.  `Lts.Trace` collects the events of a run, newest first, so that a
history is a function of the trace and not a field of the state.

* `Lts.Reachable.invariant`: what holds initially and is kept by every step holds in every reachable state.
* `Lts.guard`: the runs of a system all of whose steps meet a condition on the state before the step.
* `Lts.histStep`: a history beside the state.
-/

namespace Xv6

/-- Initial states and steps; the outcome `.error msg` of a step is the panic `msg`. -/
structure Lts (σ ε : Type) where
  init : σ → Prop
  step : σ → ε → Except String σ → Prop

namespace Lts

variable {σ ε : Type}

/-- The system of a step function: `none` says that the event is not enabled. -/
def ofFun (init : σ → Prop) (f : σ → ε → Option (Except String σ)) : Lts σ ε where
  init := init
  step s e r := f s e = some r

/-- `L.Trace tr s`: a run with the events `tr`, newest first, leads to `s`. -/
inductive Trace (L : Lts σ ε) : List ε → σ → Prop
  | init {s : σ} (h : L.init s) : Trace L [] s
  | step {tr : List ε} {s t : σ} {e : ε} (h : Trace L tr s) (hs : L.step s e (.ok t)) : Trace L (e :: tr) t

def Reachable (L : Lts σ ε) (s : σ) : Prop := ∃ tr, L.Trace tr s

/-- Some run ends in the panic `msg`. -/
def Panics (L : Lts σ ε) (msg : String) : Prop := ∃ s e, L.Reachable s ∧ L.step s e (.error msg)

/-- The runs of `L` all of whose steps, the last one included, meet `C`. -/
def guard (L : Lts σ ε) (C : σ → ε → Prop) : Lts σ ε where
  init := L.init
  step s e r := C s e ∧ L.step s e r

theorem Reachable.of_init {L : Lts σ ε} {s : σ} (h : L.init s) : L.Reachable s := ⟨[], .init h⟩

theorem Reachable.step {L : Lts σ ε} {s t : σ} {e : ε} (h : L.Reachable s) (hs : L.step s e (.ok t)) :
    L.Reachable t := by
  obtain ⟨tr, htr⟩ := h
  exact ⟨e :: tr, .step htr hs⟩

/-- An invariant of the pairs of a history and a state. -/
theorem Trace.invariant {L : Lts σ ε} {I : List ε → σ → Prop} (h0 : ∀ s, L.init s → I [] s)
    (hs : ∀ tr s e t, I tr s → L.step s e (.ok t) → I (e :: tr) t) {tr : List ε} {s : σ} (h : L.Trace tr s) :
    I tr s := by
  induction h with
  | init h => exact h0 _ h
  | step _ hst ih => exact hs _ _ _ _ ih hst

/-- What holds initially and is kept by every step holds in every reachable state. -/
theorem Reachable.invariant {L : Lts σ ε} {I : σ → Prop} (h0 : ∀ s, L.init s → I s)
    (hs : ∀ s e t, I s → L.step s e (.ok t) → I t) {s : σ} (h : L.Reachable s) : I s := by
  obtain ⟨tr, htr⟩ := h
  exact Trace.invariant (I := fun _ => I) h0 (fun _ => hs) htr

/-- A weaker condition admits more runs. -/
theorem Reachable.guard_mono {L : Lts σ ε} {C D : σ → ε → Prop} (hCD : ∀ s e, C s e → D s e) {s : σ}
    (h : (L.guard C).Reachable s) : (L.guard D).Reachable s :=
  Reachable.invariant (L := L.guard C) (fun _ h0 => .of_init h0)
    (fun s e _ hr hst => hr.step ⟨hCD s e hst.1, hst.2⟩) h

theorem Reachable.of_guard {L : Lts σ ε} {C : σ → ε → Prop} {s : σ} (h : (L.guard C).Reachable s) : L.Reachable s :=
  Reachable.invariant (L := L.guard C) (fun _ h0 => .of_init h0) (fun _ _ _ hr hst => hr.step hst.2) h

/-- Run a list of events, oldest first, as long as each is enabled and meets the test `c`. -/
def replay (f : σ → ε → Option (Except String σ)) (c : σ → ε → Bool) : σ → List ε → Option σ
  | s, [] => some s
  | s, e :: es =>
    if c s e then
      match f s e with
      | some (.ok t) => replay f c t es
      | _ => none
    else none

theorem Reachable.replay {init : σ → Prop} {f : σ → ε → Option (Except String σ)} {C : σ → ε → Prop}
    {c : σ → ε → Bool} (hc : ∀ s e, c s e = true → C s e) {es : List ε} {s t : σ}
    (hs : ((ofFun init f).guard C).Reachable s) (h : Lts.replay f c s es = some t) :
    ((ofFun init f).guard C).Reachable t := by
  induction es generalizing s with
  | nil =>
    simp only [Lts.replay, Option.some.injEq] at h
    exact h ▸ hs
  | cons e es ih =>
    simp only [Lts.replay] at h
    split at h
    · rename_i hce
      split at h
      · rename_i u hu
        exact ih (hs.step ⟨hc s e hce, hu⟩) h
      · cases h
    · cases h

/-- A run that can be computed reaches a state with a property that can be computed. -/
theorem Reachable.replay_any {I : σ → Prop} {f : σ → ε → Option (Except String σ)} {C : σ → ε → Prop}
    {c : σ → ε → Bool} (hc : ∀ s e, c s e = true → C s e) {l : List ε} {s : σ} (h0 : I s) {P : σ → Bool}
    (h : (Lts.replay f c s l).any P = true) : ∃ t, ((ofFun I f).guard C).Reachable t ∧ P t = true := by
  cases ht : Lts.replay f c s l with
  | none =>
    rw [ht] at h
    cases h
  | some t =>
    rw [ht] at h
    exact ⟨t, Reachable.replay hc (.of_init h0) ht, h⟩

/-! ### History variables -/

/-- A step function with a history `η` beside the state, which `g` extends before each step. -/
def histStep {η : Type} (f : σ → ε → Option (Except String σ)) (g : σ → ε → η → η) (x : σ × η) (e : ε) :
    Option (Except String (σ × η)) :=
  (f x.1 e).map fun r => r.map fun t => (t, g x.1 e x.2)

theorem histStep_ok {η : Type} {f : σ → ε → Option (Except String σ)} {g : σ → ε → η → η} {x y : σ × η} {e : ε}
    (h : histStep f g x e = some (.ok y)) : f x.1 e = some (.ok y.1) ∧ y.2 = g x.1 e x.2 := by
  unfold histStep at h
  cases hf : f x.1 e with
  | none =>
    rw [hf] at h
    cases h
  | some r =>
    rw [hf] at h
    cases r with
    | error msg => cases h
    | ok t =>
      cases h
      exact ⟨rfl, rfl⟩

end Lts

end Xv6
