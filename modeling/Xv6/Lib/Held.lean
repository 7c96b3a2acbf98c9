import Mathlib.Data.Multiset.Count
import Xv6.Lib.Sum

/-!
# What threads hold together

Each thread holds a multiset of things.  A step of one thread exchanges some of them, and the number of holders of every thing
follows.
-/

namespace Xv6

open Function (update)

variable {P R : Type} [Fintype P] [DecidableEq P] [DecidableEq R]

/-- How often `r` is held. -/
def heldBy (own : P → Multiset R) (r : R) : Nat := ∑ p, (own p).count r

/-- `p` holds `b` in place of `a`. -/
theorem heldBy_update {own : P → Multiset R} {p : P} {a b g : Multiset R} (h : own p = a + g) (r : R) :
    heldBy (update own p (b + g)) r + a.count r = heldBy own r + b.count r := by
  have := sum_update (fun g => Multiset.count r g) own p (b + g)
  simp only [h, Multiset.count_add] at this
  unfold heldBy
  omega

/-- Only `p` holds something. -/
theorem heldBy_only (p : P) (g : Multiset R) (r : R) : heldBy (update (fun _ => 0) p g) r = g.count r := by
  have := @heldBy_update P R _ _ _ (fun _ => 0) p 0 g 0 (add_zero 0).symm r
  rw [add_zero] at this
  simpa [heldBy] using this

omit [DecidableEq P] in
theorem heldBy_pos {own : P → Multiset R} {p : P} {r : R} (h : r ∈ own p) : 0 < heldBy own r := by
  have h1 := Multiset.count_pos.2 h
  have h2 := le_sum (fun g => Multiset.count r g) own p
  unfold heldBy
  omega

end Xv6
