import Xv6.Lib.Wp

/-!
# Two programs side by side

`rel m m' Q s t` says that where the program `m`, started in `s`, returns, the program `m'`, started in `t`, returns too, and the two
values and states satisfy `Q`.  Nothing is said where `m` stops with an error.
-/

namespace Xv6

variable {ε ε' σ τ α α' β β' : Type}

def rel (m : EStateM ε σ α) (m' : EStateM ε' τ β) (Q : α → σ → β → τ → Prop) (s : σ) (t : τ) : Prop :=
  ∀ a s', m s = .ok a s' → ∃ b t', m' t = .ok b t' ∧ Q a s' b t'

variable {m : EStateM ε σ α} {m' : EStateM ε' τ β} {s : σ} {t : τ}

theorem rel_pure {a : α} {b : β} {Q : α → σ → β → τ → Prop} (h : Q a s b t) :
    rel (pure a : EStateM ε σ α) (pure b : EStateM ε' τ β) Q s t := by
  rintro _ _ ⟨⟩
  exact ⟨b, t, rfl, h⟩

theorem rel_throw {msg : ε} {Q : α → σ → β → τ → Prop} : rel (throw msg : EStateM ε σ α) m' Q s t := nofun

theorem rel_bind {f : α → EStateM ε σ α'} {f' : β → EStateM ε' τ β'} {Q : α' → σ → β' → τ → Prop}
    (h : rel m m' (fun a s' b t' => rel (f a) (f' b) Q s' t') s t) : rel (m >>= f) (m' >>= f') Q s t := by
  intro a s' hm
  simp only [bind, EStateM.bind] at hm ⊢
  cases hs : m s with
  | ok x u =>
    rw [hs] at hm
    obtain ⟨y, v, ht, hf⟩ := h x u hs
    rw [ht]
    exact hf a s' hm
  | error msg u =>
    rw [hs] at hm
    cases hm

theorem rel_get {f : σ → EStateM ε σ α} {f' : τ → EStateM ε' τ β} {Q : α → σ → β → τ → Prop} (h : rel (f s) (f' t) Q s t) :
    rel (get >>= f) (get >>= f') Q s t := rel_bind (rel_pure (a := s) (b := t) h)

theorem rel_modify {g : σ → σ} {g' : τ → τ} {Q : PUnit → σ → PUnit → τ → Prop} (h : Q () (g s) () (g' t)) :
    rel (modify g : EStateM ε σ PUnit) (modify g' : EStateM ε' τ PUnit) Q s t := by
  rintro _ _ ⟨⟩
  exact ⟨(), g' t, rfl, h⟩

theorem rel_set {u : σ} {v : τ} {Q : PUnit → σ → PUnit → τ → Prop} (h : Q () u () v) :
    rel (set u : EStateM ε σ PUnit) (set v : EStateM ε' τ PUnit) Q s t := by
  rintro _ _ ⟨⟩
  exact ⟨(), v, rfl, h⟩

theorem rel_ite {c : Prop} [Decidable c] {n : EStateM ε σ α} {n' : EStateM ε' τ β} {Q : α → σ → β → τ → Prop}
    (h1 : c → rel m m' Q s t) (h2 : ¬c → rel n n' Q s t) : rel (if c then m else n) (if c then m' else n') Q s t := by
  split
  · exact h1 ‹_›
  · exact h2 ‹_›

theorem rel_mono {Q R : α → σ → β → τ → Prop} (h : rel m m' Q s t) (hQ : ∀ a s' b t', Q a s' b t' → R a s' b t') : rel m m' R s t := by
  intro a s' hm
  obtain ⟨b, t', ht, hq⟩ := h a s' hm
  exact ⟨b, t', ht, hQ _ _ _ _ hq⟩

theorem rel_map {g : α → α'} {Q : α' → σ → β → τ → Prop} (h : rel m m' (fun a s' b t' => Q (g a) s' b t') s t) :
    rel (m >>= fun a => pure (g a)) m' Q s t := by
  intro x s' hm
  simp only [bind, EStateM.bind] at hm
  cases hs : m s with
  | ok a u =>
    rw [hs] at hm
    obtain ⟨b, t', ht, hq⟩ := h a u hs
    cases hm
    exact ⟨b, t', ht, hq⟩
  | error msg u =>
    rw [hs] at hm
    cases hm

theorem rel_ran {Q : α → σ → β → τ → Prop} (h : rel m m' Q s t) : rel m m' (fun a s' b t' => Q a s' b t' ∧ m s = .ok a s') s t := by
  intro a s' hm
  obtain ⟨b, t', ht, hq⟩ := h a s' hm
  exact ⟨b, t', ht, hq, hm⟩

/-- What is known of the second program alone. -/
theorem rel_wp {Q : α → σ → β → τ → Prop} {R : β → τ → Prop} {E : ε' → τ → Prop} (h : rel m m' Q s t) (hw : wp m' R E t) :
    rel m m' (fun a s' b t' => Q a s' b t' ∧ R b t') s t := by
  intro a s' hm
  obtain ⟨b, t', ht, hq⟩ := h a s' hm
  unfold wp at hw
  rw [ht] at hw
  exact ⟨b, t', ht, hq, hw⟩

end Xv6
