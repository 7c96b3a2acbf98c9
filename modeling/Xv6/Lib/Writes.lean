import Mathlib.Logic.Function.Basic

/-!
# Lists of writes to a store

A store maps addresses to contents; a run of a program leaves a list of writes, oldest first, and a crash keeps a
prefix of it.
-/

namespace Xv6

variable {β α : Type} [DecidableEq β]

def applyWrites (d : β → α) (ws : List (β × α)) : β → α := ws.foldl (fun d w => Function.update d w.1 w.2) d

@[simp] theorem applyWrites_nil (d : β → α) : applyWrites d [] = d := rfl

@[simp] theorem applyWrites_cons (d : β → α) (w : β × α) (ws : List (β × α)) :
    applyWrites d (w :: ws) = applyWrites (Function.update d w.1 w.2) ws := rfl

@[simp] theorem applyWrites_append (d : β → α) (ws vs : List (β × α)) :
    applyWrites d (ws ++ vs) = applyWrites (applyWrites d ws) vs := List.foldl_append

/-- An address that is not written keeps its contents. -/
theorem applyWrites_of_notMem {ws : List (β × α)} {x : β} (h : ∀ w ∈ ws, w.1 ≠ x) (d : β → α) :
    applyWrites d ws x = d x := by
  induction ws generalizing d with
  | nil => rfl
  | cons w ws ih =>
    rw [applyWrites_cons, ih (fun v hv => h v (List.mem_cons_of_mem _ hv)),
      Function.update_of_ne (Ne.symm (h w List.mem_cons_self))]

/-- If every write to `x` writes `v`, then `x` holds `v` once it has been written. -/
theorem applyWrites_of_mem {ws : List (β × α)} {x : β} {v : α} (h : ∀ w ∈ ws, w.1 = x → w.2 = v)
    (hx : ∃ w ∈ ws, w.1 = x) (d : β → α) : applyWrites d ws x = v := by
  induction ws generalizing d with
  | nil => simp at hx
  | cons w ws ih =>
    rw [applyWrites_cons]
    by_cases hws : ∃ u ∈ ws, u.1 = x
    · exact ih (fun u hu => h u (List.mem_cons_of_mem _ hu)) hws _
    · obtain ⟨u, hu, hux⟩ := hx
      obtain rfl : u = w := (List.mem_cons.1 hu).resolve_right (fun hm => hws ⟨u, hm, hux⟩)
      rw [applyWrites_of_notMem (fun v hv hvx => hws ⟨v, hv, hvx⟩), ← hux, Function.update_self]
      exact h u List.mem_cons_self hux

omit [DecidableEq β] in
/-- A prefix of `xs ++ ys` ends in `xs` or in `ys`. -/
theorem prefix_append_cases {ws xs ys : List β} (h : ws <+: xs ++ ys) :
    ws <+: xs ∨ ∃ vs, ws = xs ++ vs ∧ vs <+: ys := by
  rcases List.prefix_or_prefix_of_prefix h (List.prefix_append xs ys) with h' | ⟨vs, rfl⟩
  · exact .inl h'
  · exact .inr ⟨vs, rfl, (List.prefix_append_right_inj xs).1 h⟩

end Xv6
