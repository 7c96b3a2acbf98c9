import Mathlib.Logic.Basic

/-!
# Code as a tree of operations

A `Code` makes operations, each with an answer from outside, and returns or panics.  What the operations do is not said here,
so that the operations of other threads may come between any two of them.

A `Rule` gives the precondition of each operation over a ghost state of the thread; `Code.wp` extends it to code.  It composes
over `bind` (`Code.wp_bind`), is monotone if the rule is (`Code.wp_mono`), and has a frame rule if the operations have one
(`Code.wp_frame`).  `Code.Only` says which operations and which panics occur in the code at all.
-/

namespace Xv6

inductive Code {Op : Type} (Ans : Op → Type) (α : Type) : Type
  | ret (a : α)
  | panic (msg : String)
  | call (o : Op) (k : Ans o → Code Ans α)

namespace Code

variable {Op : Type} {Ans : Op → Type} {α β γ : Type}

def bind : Code Ans α → (α → Code Ans β) → Code Ans β
  | .ret a, f => f a
  | .panic msg, _ => .panic msg
  | .call o k, f => .call o fun x => (k x).bind f

instance : Monad (Code Ans) where
  pure := .ret
  bind := .bind

@[simp] theorem pure_bind (a : α) (f : α → Code Ans β) : (pure a : Code Ans α) >>= f = f a := rfl

/-- The operation `o` alone. -/
def op (o : Op) : Code Ans (Ans o) := .call o .ret

/-- The precondition of each operation, for a postcondition on its answer and on the ghost state after it. -/
def Rule (Ans : Op → Type) (γ : Type) := (o : Op) → (Ans o → γ → Prop) → γ → Prop

def Rule.Mono (R : Rule Ans γ) : Prop :=
  ∀ o (Q Q' : Ans o → γ → Prop) g, (∀ x h, Q x h → Q' x h) → R o Q g → R o Q' g

/-- The code meets the precondition of each operation that it makes, ends in `Q`, and panics only with a message in `E`. -/
def wp (R : Rule Ans γ) (E : String → Prop) : Code Ans α → (α → γ → Prop) → γ → Prop
  | .ret a, Q, g => Q a g
  | .panic msg, _, _ => E msg
  | .call o k, Q, g => R o (fun x => (k x).wp R E Q) g

variable {R : Rule Ans γ} {E : String → Prop}

@[simp] theorem wp_pure (a : α) (Q : α → γ → Prop) (g : γ) : wp R E (pure a) Q g = Q a g := rfl

@[simp] theorem wp_ret (a : α) (Q : α → γ → Prop) (g : γ) : wp R E (.ret a) Q g = Q a g := rfl

@[simp] theorem wp_panic (msg : String) (Q : α → γ → Prop) (g : γ) : wp R E (.panic msg) Q g = E msg := rfl

@[simp] theorem wp_op (o : Op) (Q : Ans o → γ → Prop) (g : γ) : wp R E (op o) Q g = R o Q g := rfl

@[simp] theorem wp_bind (p : Code Ans α) (f : α → Code Ans β) (Q : β → γ → Prop) (g : γ) :
    wp R E (p >>= f) Q g = wp R E p (fun a => wp R E (f a) Q) g := by
  change wp R E (p.bind f) Q g = _
  induction p generalizing g with
  | ret a => rfl
  | panic msg => rfl
  | call o k ih =>
    have h : (fun x => wp R E ((k x).bind f) Q) = fun x => wp R E (k x) (fun a => wp R E (f a) Q) := by
      funext x g
      exact ih x g
    exact congrFun (congrArg (R o) h) g

theorem wp_mono (hR : R.Mono) {p : Code Ans α} {Q Q' : α → γ → Prop} {g : γ} (h : wp R E p Q g)
    (hQ : ∀ a g, Q a g → Q' a g) : wp R E p Q' g := by
  induction p generalizing g with
  | ret a => exact hQ a g h
  | panic msg => exact h
  | call o k ih => exact hR o _ _ g (fun x g hx => ih x hx) h

/-- What a thread holds besides, `F`, is not touched, if no operation of the rule touches it. -/
theorem wp_frame [Add γ] (hR : R.Mono) {F : γ}
    (hF : ∀ o (Q : Ans o → γ → Prop) g, R o Q g → R o (fun x h => ∃ h', h = h' + F ∧ Q x h') (g + F))
    {p : Code Ans α} {Q : α → γ → Prop} {g : γ} (h : wp R E p Q g) : wp R E p (fun a h => ∃ h', h = h' + F ∧ Q a h') (g + F) := by
  induction p generalizing g with
  | ret a => exact ⟨g, rfl, h⟩
  | panic msg => exact h
  | call o k ih =>
    refine hR o _ _ _ (fun x h' hx => ?_) (hF o _ g h)
    obtain ⟨h'', rfl, hk⟩ := hx
    exact ih x hk

/-- All operations of the code satisfy `P`, and all messages of its panics `E`. -/
def Only (P : Op → Prop) (E : String → Prop) : Code Ans α → Prop
  | .ret _ => True
  | .panic msg => E msg
  | .call o k => P o ∧ ∀ x, (k x).Only P E

variable {P : Op → Prop}

theorem only_pure (a : α) : (pure a : Code Ans α).Only P E := trivial

theorem only_op {o : Op} (h : P o) : (op o : Code Ans (Ans o)).Only P E := ⟨h, fun _ => trivial⟩

theorem only_bind {p : Code Ans α} {f : α → Code Ans β} (hp : p.Only P E) (hf : ∀ a, (f a).Only P E) : (p >>= f).Only P E := by
  change (p.bind f).Only P E
  induction p with
  | ret a => exact hf a
  | panic msg => exact hp
  | call o k ih => exact ⟨hp.1, fun x => ih x (hp.2 x)⟩

theorem only_mono {P' : Op → Prop} {E' : String → Prop} {p : Code Ans α} (h : p.Only P E) (hP : ∀ o, P o → P' o)
    (hE : ∀ msg, E msg → E' msg) : p.Only P' E' := by
  induction p with
  | ret a => trivial
  | panic msg => exact hE msg h
  | call o k ih => exact ⟨hP o h.1, fun x => ih x (h.2 x)⟩

end Code

end Xv6
