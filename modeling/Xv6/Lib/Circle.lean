import Mathlib.Data.List.Nodup
import Mathlib.Logic.Function.Iterate

/-!
# Lists that are linked in one direction

`Path next l e` says that `next` leads from each element of `l` to the one after it, and from the last one to `e`.  A list is a circle
if its path ends in its own head; a circle can be entered anywhere (`Path.rotate`).
-/

namespace Xv6

variable {A : Type}

def Path (next : A → A) : List A → A → Prop
  | [], _ => True
  | a :: l, e => next a = l.headD e ∧ Path next l e

namespace Path

variable {next next' : A → A} {l m : List A} {a e : A}

theorem append : Path next (l ++ m) e ↔ Path next l (m.headD e) ∧ Path next m e := by
  induction l with
  | nil => simp [Path]
  | cons a l ih =>
    have hhead : (l ++ m).headD e = l.headD (m.headD e) := by cases l <;> rfl
    simp only [List.cons_append, Path, ih, hhead, and_assoc]

theorem congr (h : Path next l e) (hn : ∀ a ∈ l, next' a = next a) : Path next' l e := by
  induction l with
  | nil => trivial
  | cons a l ih =>
    obtain ⟨h1, h2⟩ := h
    exact ⟨(hn a List.mem_cons_self).trans h1, ih h2 fun b hb => hn b (List.mem_cons_of_mem a hb)⟩

/-- The successor of an element. -/
theorem next_eq (h : Path next (l ++ a :: m) e) : next a = m.headD e := (append.1 h).2.1

/-- A circle from another one of its elements on. -/
theorem rotate {a b : A} (h : Path next (a :: l ++ b :: m) a) : Path next (b :: m ++ a :: l) b :=
  append.2 (append.1 h).symm

/-- A circle can be entered at each of its elements. -/
theorem enter (h : Path next (e :: l) e) (ha : a ∈ e :: l) : ∃ m, Path next (a :: m) a ∧ (a :: m).Perm (e :: l) := by
  obtain ⟨l₁, l₂, hl⟩ := List.append_of_mem ha
  cases l₁ with
  | nil =>
    obtain ⟨rfl, rfl⟩ := List.cons.inj hl
    exact ⟨l, h, .refl _⟩
  | cons b l₁ =>
    obtain ⟨rfl, rfl⟩ := List.cons.inj hl
    exact ⟨l₂ ++ e :: l₁, rotate h, show (a :: l₂ ++ e :: l₁).Perm _ from List.perm_append_comm⟩

/-- Going round a circle one meets its elements, and nothing else. -/
theorem iterate_mem (h : Path next (a :: l) a) (k : Nat) : next^[k] a ∈ a :: l := by
  induction k with
  | zero => exact List.mem_cons_self
  | succ k ih =>
    rw [Function.iterate_succ_apply']
    obtain ⟨l₁, l₂, hl⟩ := List.append_of_mem ih
    rw [hl] at h ⊢
    rw [next_eq h]
    cases l₂ with
    | nil =>
      rw [List.headD_nil, ← hl]
      exact List.mem_cons_self
    | cons b l₂ => simp

theorem exists_iterate (h : Path next (a :: l) e) {b : A} (hb : b ∈ a :: l) : ∃ k, next^[k] a = b := by
  induction l generalizing a with
  | nil =>
    obtain rfl := List.mem_singleton.1 hb
    exact ⟨0, rfl⟩
  | cons c l ih =>
    rcases List.mem_cons.1 hb with rfl | hb
    · exact ⟨0, rfl⟩
    · obtain ⟨k, hk⟩ := ih h.2 hb
      refine ⟨k + 1, ?_⟩
      rw [Function.iterate_succ_apply, show next a = c from h.1, hk]

end Path

/-- Follow `next` up to an element at which to stop. -/
def seek (next : A → A) (stop : A → Bool) : Nat → A → Option A
  | 0, _ => none
  | fuel + 1, a => if stop a then some a else seek next stop fuel (next a)

/-- More fuel does not change where the search ends. -/
theorem seek_more {next : A → A} {stop : A → Bool} {fuel : Nat} {a b : A} (h : seek next stop fuel a = some b) (more : Nat) :
    seek next stop (fuel + more) a = some b := by
  induction fuel generalizing a with
  | zero => cases h
  | succ fuel ih =>
    rw [Nat.add_right_comm, seek]
    rw [seek] at h
    split
    · rwa [if_pos ‹_›] at h
    · rw [if_neg ‹_›] at h
      exact ih h

/-- On a path with an element at which to stop the search ends. -/
theorem seek_spec {next : A → A} {stop : A → Bool} {l : List A} {a e : A} (hp : Path next (a :: l) e)
    (hs : ∃ b ∈ a :: l, stop b = true) :
    ∃ b ∈ a :: l, stop b = true ∧ ∀ fuel, seek next stop (fuel + (l.length + 1)) a = some b := by
  induction l generalizing a with
  | nil =>
    obtain ⟨b, hb, hstop⟩ := hs
    obtain rfl := List.mem_singleton.1 hb
    exact ⟨b, hb, hstop, fun fuel => by rw [List.length_nil, seek, if_pos hstop]⟩
  | cons c l ih =>
    obtain ⟨hac, hp⟩ := hp
    by_cases ha : stop a = true
    · exact ⟨a, List.mem_cons_self, ha, fun fuel => by rw [List.length_cons, ← Nat.add_assoc, seek, if_pos ha]⟩
    · obtain ⟨b, hb, hstop, hseek⟩ := ih hp (by
        obtain ⟨b, hb, hstop⟩ := hs
        rcases List.mem_cons.1 hb with rfl | hb
        · exact absurd hstop ha
        · exact ⟨b, hb, hstop⟩)
      refine ⟨b, List.mem_cons_of_mem a hb, hstop, fun fuel => ?_⟩
      rw [List.length_cons, ← Nat.add_assoc, seek, if_neg ha, hac]
      exact hseek fuel

end Xv6
