import Mathlib.Algebra.BigOperators.Group.Finset.Basic
import Mathlib.Algebra.Order.BigOperators.Group.Finset

/-!
# Totals over threads

A quantity attached to every thread (one unit for each thread inside an operation, the space it still may use) is
summed over all threads.  A step of one thread changes one summand.
-/

namespace Xv6

open Finset

variable {P α : Type} [Fintype P] [DecidableEq P]

omit [Fintype P] in
/-- Updating `f` at `p` exchanges one summand. -/
theorem sum_update_mem {s : Finset P} {p : P} (hp : p ∈ s) (w : α → Nat) (f : P → α) (a : α) :
    ∑ q ∈ s, w (Function.update f p a q) + w (f p) = ∑ q ∈ s, w (f q) + w a := by
  rw [← add_sum_erase s (fun q => w (Function.update f p a q)) hp, ← add_sum_erase s (fun q => w (f q)) hp]
  have h : ∑ q ∈ s.erase p, w (Function.update f p a q) = ∑ q ∈ s.erase p, w (f q) := by
    apply sum_congr rfl
    intro q hq
    rw [Function.update_of_ne (ne_of_mem_erase hq)]
  rw [h, Function.update_self]
  omega

theorem sum_update (w : α → Nat) (f : P → α) (p : P) (a : α) :
    ∑ q, w (Function.update f p a q) + w (f p) = ∑ q, w (f q) + w a :=
  sum_update_mem (mem_univ p) w f a

omit [DecidableEq P] in
theorem le_sum (w : α → Nat) (f : P → α) (p : P) : w (f p) ≤ ∑ q, w (f q) :=
  single_le_sum (f := fun q => w (f q)) (fun _ _ => Nat.zero_le _) (mem_univ p)

end Xv6
