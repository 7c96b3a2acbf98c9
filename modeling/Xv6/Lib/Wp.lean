import Mathlib.Logic.Basic

/-!
# Preconditions of programs that may stop with an error

`wp m Q E s` says that the program `m`, started in `s`, either returns with a value and a state that satisfy `Q`, or
stops with an error in a state that satisfies `E`.  The state an error leaves behind is kept: what was written before
the error has been written.
-/

namespace Xv6

variable {ε σ α β : Type}

def wp (m : EStateM ε σ α) (Q : α → σ → Prop) (E : ε → σ → Prop) (s : σ) : Prop :=
  match m s with
  | .ok a t => Q a t
  | .error e t => E e t

@[simp] theorem wp_pure (a : α) (Q : α → σ → Prop) (E : ε → σ → Prop) : wp (pure a) Q E = Q a := rfl

@[simp] theorem wp_throw (e : ε) (Q : α → σ → Prop) (E : ε → σ → Prop) : wp (throw e) Q E = E e := rfl

@[simp] theorem wp_get (Q : σ → σ → Prop) (E : ε → σ → Prop) : wp get Q E = fun s => Q s s := rfl

@[simp] theorem wp_modify (f : σ → σ) (Q : PUnit → σ → Prop) (E : ε → σ → Prop) :
    wp (modify f) Q E = fun s => Q () (f s) := rfl

@[simp] theorem wp_bind (m : EStateM ε σ α) (f : α → EStateM ε σ β) (Q : β → σ → Prop) (E : ε → σ → Prop) :
    wp (m >>= f) Q E = wp m (fun a => wp (f a) Q E) E := by
  funext s
  simp only [wp, bind, EStateM.bind]
  cases m s <;> rfl

@[simp] theorem wp_ite (c : Prop) [Decidable c] (m n : EStateM ε σ α) (Q : α → σ → Prop) (E : ε → σ → Prop) :
    wp (if c then m else n) Q E = if c then wp m Q E else wp n Q E := by
  split <;> rfl

/-- A program that does not stop with an error returns. -/
theorem wp_false {m : EStateM ε σ α} {Q : α → σ → Prop} {s : σ} (h : wp m Q (fun _ _ => False) s) :
    ∃ a t, m s = .ok a t ∧ Q a t := by
  simp only [wp] at h
  cases hm : m s with
  | ok a t =>
    rw [hm] at h
    exact ⟨a, t, rfl, h⟩
  | error e t =>
    rw [hm] at h
    exact h.elim

theorem wp_mono {m : EStateM ε σ α} {Q Q' : α → σ → Prop} {E E' : ε → σ → Prop} {s : σ} (h : wp m Q E s)
    (hQ : ∀ a t, Q a t → Q' a t) (hE : ∀ e t, E e t → E' e t) : wp m Q' E' s := by
  simp only [wp] at h ⊢
  cases hm : m s with
  | ok a t =>
    rw [hm] at h
    exact hQ a t h
  | error e t =>
    rw [hm] at h
    exact hE e t h

theorem wp_and {m : EStateM ε σ α} {Q Q' : α → σ → Prop} {E E' : ε → σ → Prop} {s : σ} (h : wp m Q E s) (h' : wp m Q' E' s) :
    wp m (fun a t => Q a t ∧ Q' a t) (fun e t => E e t ∧ E' e t) s := by
  simp only [wp] at h h' ⊢
  cases hm : m s with
  | ok a t =>
    rw [hm] at h h'
    exact ⟨h, h'⟩
  | error e t =>
    rw [hm] at h h'
    exact ⟨h, h'⟩

end Xv6
