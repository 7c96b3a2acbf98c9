import Mathlib.Data.List.Nodup
import Mathlib.Logic.Function.Basic

/-!
# Items, places and their holders

A function `g` says for each item at which place it is.  A place can be a list (`OnList`) or the hand of one of several
holders, each of which has a few named hands (`Held`).  Moving an item `a` to the place `b` is `Function.update g a b`;
the rules say what has to happen to the lists and the hands.
-/

namespace Xv6

variable {α β ι κ : Type}

/-- `l` lists the items at place `b`, each once. -/
def OnList (l : List α) (g : α → β) (b : β) : Prop := l.Nodup ∧ ∀ a, a ∈ l ↔ g a = b

namespace OnList

variable {l : List α} {g : α → β} {b d : β} {a : α}

theorem congr {g' : α → β} (h : OnList l g b) (hg : ∀ a, g' a = b ↔ g a = b) : OnList l g' b :=
  ⟨h.1, fun a => (h.2 a).trans (hg a).symm⟩

variable [DecidableEq α]

/-- An item moves from one other place to another. -/
theorem keep (h : OnList l g b) (ha : g a ≠ b) (hb : d ≠ b) : OnList l (Function.update g a d) b := by
  refine ⟨h.1, fun x => ?_⟩
  by_cases hx : x = a
  · subst hx
    simp [h.2, ha, hb]
  · simp [h.2, hx]

theorem push (h : OnList l g b) (ha : g a ≠ b) : OnList (l ++ [a]) (Function.update g a b) b := by
  have hal : a ∉ l := fun hm => ha ((h.2 a).1 hm)
  refine ⟨List.nodup_append.2 ⟨h.1, by simp, ?_⟩, fun x => ?_⟩
  · intro x hx y hy hxy
    rw [List.mem_singleton.1 hy] at hxy
    exact hal (hxy ▸ hx)
  · by_cases hx : x = a
    · simp [hx]
    · simp [h.2, hx]

theorem erase (h : OnList l g b) (hb : d ≠ b) : OnList (l.erase a) (Function.update g a d) b := by
  refine ⟨h.1.erase a, fun x => ?_⟩
  rw [h.1.mem_erase_iff]
  by_cases hx : x = a
  · simp [hx, hb]
  · simp [h.2, hx]

theorem pop (h : OnList (a :: l) g b) (hb : d ≠ b) : OnList l (Function.update g a d) b := by
  have := h.erase (a := a) hb
  simpa using this

end OnList

/-- Holder `i` has item `a` in its hand `k` just when `a` is at the place `m k i`. -/
def Held (f : ι → κ → Option α) (g : α → β) (m : κ → ι → β) : Prop := ∀ i k a, f i k = some a ↔ g a = m k i

namespace Held

variable {f : ι → κ → Option α} {g : α → β} {m : κ → ι → β} {i : ι} {x : κ → Option α} {a : α} {b : β}

/-- A holder changes, but not what it has in its hands. -/
theorem same [DecidableEq ι] (h : Held f g m) (hx : ∀ k, x k = f i k) : Held (Function.update f i x) g m := by
  intro j k c
  by_cases hj : j = i
  · subst hj
    rw [Function.update_self, hx, h]
  · rw [Function.update_of_ne hj, h]

/-- Item `a` moves between places that are in nobody's hand. -/
theorem keep [DecidableEq α] (h : Held f g m) (ha : ∀ k j, g a ≠ m k j) (hb : ∀ k j, b ≠ m k j) :
    Held f (Function.update g a b) m := by
  intro j k c
  rw [h]
  by_cases hc : c = a
  · subst hc
    simp [ha, hb]
  · simp [hc]

/-- Item `a` comes out of the hands of holder `i`, or into them. -/
theorem move [DecidableEq ι] [DecidableEq α] [DecidableEq β] (h : Held f g m) (ha : ∀ k j, g a = m k j → j = i) (hb : ∀ k j, b = m k j → j = i)
    (hk : ∀ k, b = m k i → f i k = none ∨ f i k = some a)
    (hx : ∀ k, x k = if b = m k i then some a else if f i k = some a then none else f i k) :
    Held (Function.update f i x) (Function.update g a b) m := by
  intro j k c
  by_cases hj : j = i
  · subst hj
    rw [Function.update_self, hx]
    by_cases hc : c = a
    · subst hc
      rw [Function.update_self]
      split
      · simp [*]
      · split <;> simp [*]
    · rw [Function.update_of_ne hc, ← h j k c]
      split
      · rename_i hbk
        rcases hk k hbk with hk | hk
        · simp [hk, Ne.symm hc]
        · simp [hk, Ne.symm hc]
      · split
        · rename_i hf
          simp [hf, Ne.symm hc]
        · rfl
  · rw [Function.update_of_ne hj]
    by_cases hc : c = a
    · subst hc
      rw [Function.update_self, h]
      exact ⟨fun hg => absurd (ha k j hg) hj, fun hbj => absurd (hb k j hbj) hj⟩
    · rw [Function.update_of_ne hc, h]

end Held

end Xv6
