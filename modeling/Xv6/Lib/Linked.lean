import Mathlib.Data.List.Nodup
import Mathlib.Logic.Function.Basic

/-!
# Rings linked in both directions

The nodes are a head, `none`, and the elements, `some a`.  `Linked.On r l` says that `next` leads from the head through the elements
of `l` back to the head, and that `prev` leads the other way.  It is kept, for another list, when an element is taken out
(`On.unlink`) and when one is put behind the head (`On.push`).
-/

namespace Xv6

open Function (update)

structure Linked (α : Type) where
  next : Option α → Option α
  prev : Option α → Option α

namespace Linked

variable {α : Type}

/-- The elements on the way along `f` from node `a` to the head; `none` if it is not reached after `n` of them. -/
def walk (f : Option α → Option α) : Nat → Option α → Option (List α)
  | 0, a =>
    match f a with
    | none => some []
    | some _ => none
  | n + 1, a =>
    match f a with
    | none => some []
    | some x => (walk f n (some x)).map (x :: ·)

/-- The pairs of neighbours on the way from `a` through the list to `b`. -/
def links : Option α → List α → Option α → List (Option α × Option α)
  | a, [], b => [(a, b)]
  | a, x :: l, b => (a, some x) :: links (some x) l b

structure On (r : Linked α) (l : List α) : Prop where
  nodup : l.Nodup
  link : ∀ a b, (a, b) ∈ links none l none → r.next a = b ∧ r.prev b = a

theorem links_append (a b : Option α) (l : List α) (x : α) (l' : List α) :
    links a (l ++ x :: l') b = links a l (some x) ++ links (some x) l' b := by
  induction l generalizing a with
  | nil => rfl
  | cons y l ih => simp [links, ih]

theorem mem_links_reverse {a b x y : Option α} {l : List α} (h : (a, b) ∈ links x l y) : (b, a) ∈ links y l.reverse x := by
  induction l generalizing x with
  | nil => simpa [links, and_comm] using h
  | cons z l ih =>
    rw [List.reverse_cons, links_append]
    rw [links, List.mem_cons] at h
    rcases h with h | h
    · cases h
      simp [links]
    · exact List.mem_append_left _ (ih h)

theorem links_left {a b x y : Option α} {l : List α} (h : (a, b) ∈ links x l y) : a = x ∨ ∃ c ∈ l, a = some c := by
  induction l generalizing x with
  | nil =>
    rw [links, List.mem_singleton] at h
    cases h
    exact .inl rfl
  | cons z l ih =>
    rw [links, List.mem_cons] at h
    rcases h with h | h
    · cases h
      exact .inl rfl
    · rcases ih h with rfl | ⟨c, hc, rfl⟩
      · exact .inr ⟨z, List.mem_cons_self, rfl⟩
      · exact .inr ⟨c, List.mem_cons_of_mem z hc, rfl⟩

theorem links_right {a b x y : Option α} {l : List α} (h : (a, b) ∈ links x l y) : b = y ∨ ∃ c ∈ l, b = some c := by
  rcases links_left (mem_links_reverse h) with h | ⟨c, hc, h⟩
  · exact .inl h
  · exact .inr ⟨c, List.mem_reverse.1 hc, h⟩

theorem exists_link {x y : Option α} {l : List α} {i : α} (h : i ∈ l) : ∃ b, (some i, b) ∈ links x l y := by
  obtain ⟨l₁, l₂, rfl⟩ := List.append_of_mem h
  rw [links_append]
  cases l₂ with
  | nil => exact ⟨y, by simp [links]⟩
  | cons c l₂ => exact ⟨some c, by simp [links]⟩

/-- The way along `f` that the links describe. -/
theorem walk_of_links {f : Option α → Option α} {l : List α} {x : Option α} (h : ∀ a b, (a, b) ∈ links x l none → f a = b) {n : Nat}
    (hn : l.length ≤ n) : walk f n x = some l := by
  induction l generalizing x n with
  | nil =>
    have hx := h x none (by simp [links])
    cases n <;> simp [walk, hx]
  | cons z l ih =>
    have hx := h x (some z) (by simp [links])
    cases n with
    | zero => cases hn
    | succ n =>
      rw [List.length_cons] at hn
      have hl := ih (fun a b hab => h a b (List.mem_cons_of_mem _ hab)) (Nat.le_of_succ_le_succ hn)
      simp [walk, hx, hl]

namespace On

variable {r : Linked α} {l : List α}

theorem prev_next (h : r.On l) {i : α} (hi : i ∈ l) : r.prev (r.next (some i)) = some i := by
  obtain ⟨b, hb⟩ := exists_link (x := none) (y := none) hi
  obtain ⟨h1, h2⟩ := h.link _ b hb
  rw [h1, h2]

theorem next_prev (h : r.On l) {i : α} (hi : i ∈ l) : r.next (r.prev (some i)) = some i := by
  obtain ⟨a, ha⟩ := exists_link (x := none) (y := none) (List.mem_reverse.2 hi)
  have ha' := mem_links_reverse ha
  rw [List.reverse_reverse] at ha'
  obtain ⟨h1, h2⟩ := h.link a _ ha'
  rw [h2, h1]

theorem walk_next (h : r.On l) {n : Nat} (hn : l.length ≤ n) : walk r.next n none = some l :=
  walk_of_links (fun a b hab => (h.link a b hab).1) hn

theorem walk_prev (h : r.On l) {n : Nat} (hn : l.length ≤ n) : walk r.prev n none = some l.reverse := by
  refine walk_of_links (fun a b hab => (h.link b a ?_).2) (by simpa using hn)
  simpa using mem_links_reverse hab

end On

/-! ### Taking an element out -/

variable [DecidableEq α]

/-- `b->next->prev = b->prev; b->prev->next = b->next`. -/
def unlink (r : Linked α) (b : α) : Linked α :=
  let r := { r with prev := update r.prev (r.next (some b)) (r.prev (some b)) }
  { r with next := update r.next (r.prev (some b)) (r.next (some b)) }

/-- `b->next = head.next; b->prev = &head; head.next->prev = b; head.next = b`. -/
def push (r : Linked α) (b : α) : Linked α :=
  let r := { r with next := update r.next (some b) (r.next none) }
  let r := { r with prev := update r.prev (some b) none }
  let r := { r with prev := update r.prev (r.next none) (some b) }
  { r with next := update r.next none (some b) }

omit [DecidableEq α] in
/-- Neighbours after `i` is gone were neighbours before, or those of `i`. -/
theorem links_drop {x y : Option α} {l l' : List α} {i : α} (hx : x ≠ some i) (hy : y ≠ some i) (hl : i ∉ l) (hl' : i ∉ l')
    {a b : Option α} (h : (a, b) ∈ links x (l ++ l') y) :
    ((a, b) ∈ links x (l ++ i :: l') y ∧ a ≠ some i ∧ b ≠ some i) ∨
      ((a, some i) ∈ links x (l ++ i :: l') y ∧ (some i, b) ∈ links x (l ++ i :: l') y) := by
  induction l generalizing x with
  | nil =>
    cases l' with
    | nil =>
      rw [List.nil_append, links, List.mem_singleton] at h
      cases h
      exact .inr (by simp [links])
    | cons c l' =>
      rw [List.nil_append, links, List.mem_cons] at h
      rcases h with h | h
      · cases h
        exact .inr (by simp [links])
      · refine .inl ⟨by simp [links, h], ?_, ?_⟩
        · rintro rfl
          rcases links_left h with h | ⟨d, hd, h⟩
          · cases h
            exact hl' List.mem_cons_self
          · cases h
            exact hl' (List.mem_cons_of_mem c hd)
        · rintro rfl
          rcases links_right h with h | ⟨d, hd, h⟩
          · exact hy h.symm
          · cases h
            exact hl' (List.mem_cons_of_mem c hd)
  | cons z l ih =>
    have hz : z ≠ i := fun hzi => hl (hzi ▸ List.mem_cons_self)
    rw [List.cons_append, links, List.mem_cons] at h
    rcases h with h | h
    · cases h
      exact .inl ⟨by simp [links], hx, by simpa using hz⟩
    · rcases ih (by simpa using hz) (fun hi => hl (List.mem_cons_of_mem z hi)) h with ⟨h1, h2⟩ | ⟨h1, h2⟩
      · exact .inl ⟨by simp [links, h1], h2⟩
      · exact .inr ⟨by simp [links, h1], by simp [links, h2]⟩

theorem unlink_next (r : Linked α) (b : α) : (r.unlink b).next = update r.next (r.prev (some b)) (r.next (some b)) := by
  have hprev : update r.prev (r.next (some b)) (r.prev (some b)) (some b) = r.prev (some b) := by
    by_cases hb : some b = r.next (some b)
    · rw [← hb, Function.update_self]
    · rw [Function.update_of_ne hb]
  simp only [unlink, hprev]

theorem On.unlink {r : Linked α} {l : List α} (h : r.On l) {i : α} (hi : i ∈ l) : (r.unlink i).On (l.erase i) := by
  refine ⟨h.nodup.erase i, fun a b hab => ?_⟩
  obtain ⟨l₁, l₂, rfl⟩ := List.append_of_mem hi
  have hnodup := h.nodup
  rw [List.nodup_append, List.nodup_cons] at hnodup
  have hl₁ : i ∉ l₁ := fun hm => hnodup.2.2 i hm i List.mem_cons_self rfl
  rw [List.erase_append_right _ hl₁, List.erase_cons_head] at hab
  have hnext := (r.unlink_next i)
  have hprev : (r.unlink i).prev = update r.prev (r.next (some i)) (r.prev (some i)) := rfl
  rcases links_drop (by simp) (by simp) hl₁ hnodup.2.1.1 hab with ⟨hold, ha, hb⟩ | ⟨hai, hib⟩
  · obtain ⟨h1, h2⟩ := h.link a b hold
    have hna : a ≠ r.prev (some i) := by
      rintro rfl
      exact hb (h1.symm.trans (h.next_prev hi))
    have hnb : b ≠ r.next (some i) := by
      rintro rfl
      exact ha (h2.symm.trans (h.prev_next hi))
    rw [hnext, hprev, Function.update_of_ne hna, Function.update_of_ne hnb]
    exact ⟨h1, h2⟩
  · obtain ⟨h1, h2⟩ := h.link a _ hai
    obtain ⟨h3, h4⟩ := h.link _ b hib
    rw [hnext, hprev, h2, h3, Function.update_self, Function.update_self]
    exact ⟨rfl, rfl⟩

/-! ### Putting an element behind the head -/

omit [DecidableEq α] in
/-- The way from another node. -/
theorem links_start {x y a b : Option α} {l : List α} (h : (a, b) ∈ links x l y) (z : Option α) :
    (a = x ∧ (z, b) ∈ links z l y) ∨ ((∃ c ∈ l, a = some c) ∧ (a, b) ∈ links z l y) := by
  cases l with
  | nil =>
    rw [links, List.mem_singleton] at h
    cases h
    exact .inl ⟨rfl, by simp [links]⟩
  | cons c l =>
    rw [links, List.mem_cons] at h
    rcases h with h | h
    · cases h
      exact .inl ⟨rfl, by simp [links]⟩
    · refine .inr ⟨?_, by simp [links, h]⟩
      rcases links_left h with rfl | ⟨d, hd, rfl⟩
      · exact ⟨c, List.mem_cons_self, rfl⟩
      · exact ⟨d, List.mem_cons_of_mem c hd, rfl⟩

theorem On.push {r : Linked α} {l : List α} (h : r.On l) {i : α} (hi : i ∉ l) : (r.push i).On (i :: l) := by
  refine ⟨List.nodup_cons.2 ⟨hi, h.nodup⟩, fun a b hab => ?_⟩
  have hnext : (r.push i).next = update (update r.next (some i) (r.next none)) none (some i) := rfl
  have hprev : (r.push i).prev = update (update r.prev (some i) none) (r.next none) (some i) := by
    simp [Linked.push]
  have hfirst : r.next none ≠ some i ∧ r.prev (r.next none) = none := by
    obtain ⟨b, hb⟩ : ∃ b, (none, b) ∈ links none l none := by
      cases l with
      | nil => exact ⟨none, by simp [links]⟩
      | cons c l => exact ⟨some c, by simp [links]⟩
    obtain ⟨h1, h2⟩ := h.link none b hb
    refine ⟨?_, by rw [h1, h2]⟩
    rw [h1]
    rintro rfl
    rcases links_right hb with hb | ⟨c, hc, hb⟩
    · cases hb
    · cases hb
      exact hi hc
  rw [links, List.mem_cons] at hab
  rcases hab with hab | hab
  · cases hab
    rw [hnext, hprev, Function.update_self, Function.update_of_ne hfirst.1.symm, Function.update_self]
    exact ⟨rfl, rfl⟩
  · rcases links_start hab none with ⟨rfl, hold⟩ | ⟨⟨c, hc, rfl⟩, hold⟩
    · obtain ⟨h1, -⟩ := h.link none b hold
      rw [hnext, hprev, h1, Function.update_self, Function.update_of_ne (by simp), Function.update_self]
      exact ⟨rfl, rfl⟩
    · obtain ⟨h1, h2⟩ := h.link (some c) b hold
      have hci : some c ≠ some i := by
        rintro hci
        cases hci
        exact hi hc
      have hbi : b ≠ some i := by
        rintro rfl
        rcases links_right hold with hb | ⟨d, hd, hb⟩
        · cases hb
        · cases hb
          exact hi hd
      have hbn : b ≠ r.next none := by
        rintro rfl
        rw [hfirst.2] at h2
        cases h2
      rw [hnext, hprev, Function.update_of_ne (by simp), Function.update_of_ne hci, Function.update_of_ne hbn, Function.update_of_ne hbi]
      exact ⟨h1, h2⟩

/-- The ring of the head alone. -/
def empty : Linked α := ⟨fun _ => none, fun _ => none⟩

omit [DecidableEq α] in
theorem On.empty : (Linked.empty : Linked α).On [] := by
  refine ⟨List.nodup_nil, fun a b hab => ?_⟩
  rw [links, List.mem_singleton] at hab
  cases hab
  exact ⟨rfl, rfl⟩

end Linked

end Xv6
