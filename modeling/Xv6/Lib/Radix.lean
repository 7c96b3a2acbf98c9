import Mathlib.Data.Option.Basic
import Mathlib.Logic.Function.Basic

/-!
# Radix trees in memory

A page has an entry for each index, and `next` says which page an entry refers to, if any.  A path is a list of indices, the last
one first; `Radix.node` is the page that it leads to from the root.  In a `Radix.Tree` of depth `d` no page is reached by two paths
of at most `d` indices.  Then a write to a page at depth `d` changes one word of the tree only (`Radix.word_store`), and a new page
hung under a free entry changes no other path (`Radix.node_link`).
-/

namespace Xv6.Radix

open Function (update)

variable {A I W : Type} (next : W → Option A) (m : A → I → W) (root : A)

/-- The page at the end of a path. -/
def node : List I → Option A
  | [] => some root
  | i :: p => (node p).bind fun a => next (m a i)

/-- The entry at the end of a path. -/
def word : List I → Option W
  | [] => none
  | i :: p => (node next m root p).map fun a => m a i

/-- No page is reached twice. -/
def Tree (d : Nat) : Prop :=
  ∀ p q a, p.length ≤ d → q.length ≤ d → node next m root p = some a → node next m root q = some a → p = q

/-- The page `b` is not reached. -/
def Outside (d : Nat) (b : A) : Prop := ∀ p, p.length ≤ d → node next m root p ≠ some b

/-- `m[a][i] = w`. -/
def store [DecidableEq A] [DecidableEq I] (a : A) (i : I) (w : W) : A → I → W := update m a (update (m a) i w)

variable {next m root} {d : Nat} {a b : A} {i j : I} {p q : List I} {w : W}

@[simp] theorem node_nil : node next m root [] = some root := rfl

theorem node_cons (h : node next m root p = some a) : node next m root (i :: p) = next (m a i) := by simp [node, h]

theorem word_cons (h : node next m root p = some a) : word next m root (i :: p) = some (m a i) := by simp [word, h]

/-- The root alone. -/
theorem node_of_empty (h : ∀ i, next (m root i) = none) (ha : node next m root p = some a) : p = [] := by
  induction p generalizing a with
  | nil => rfl
  | cons i p ih =>
    cases hp : node next m root p with
    | none => simp [node, hp] at ha
    | some c =>
      obtain rfl := ih hp
      rw [node_cons (a := root) rfl, h] at ha
      cases ha

theorem tree_of_empty (h : ∀ i, next (m root i) = none) (d : Nat) : Tree next m root d := by
  intro p q a _ _ hp hq
  rw [node_of_empty h hp, node_of_empty h hq]

theorem outside_of_empty (h : ∀ i, next (m root i) = none) (hb : b ≠ root) (d : Nat) : Outside next m root d b := by
  intro p _ hp
  obtain rfl := node_of_empty h hp
  cases hp
  exact hb rfl

section

variable [DecidableEq A]

/-- What is outside may be overwritten. -/
theorem node_fill (hb : Outside next m root d b) (f : I → W) (hq : q.length ≤ d + 1) :
    node next (update m b f) root q = node next m root q := by
  induction q with
  | nil => rfl
  | cons i q ih =>
    have hq : q.length ≤ d := by simpa using hq
    rw [node, ih (by omega), node]
    cases hn : node next m root q with
    | none => rfl
    | some c =>
      have hc : c ≠ b := by
        rintro rfl
        exact hb q hq hn
      simp only [Option.bind_some, Function.update_of_ne hc]

theorem word_fill (hb : Outside next m root d b) (f : I → W) (hq : q.length ≤ d) :
    word next (update m b f) root (i :: q) = word next m root (i :: q) := by
  rw [word, node_fill hb f (by omega), word]
  cases hn : node next m root q with
  | none => rfl
  | some c =>
    have hc : c ≠ b := by
      rintro rfl
      exact hb q hq hn
    simp only [Option.map_some, Function.update_of_ne hc]

theorem tree_fill (h : Tree next m root d) (hb : Outside next m root d b) (f : I → W) : Tree next (update m b f) root d := by
  intro p q a hp hq ha hc
  rw [node_fill hb f (by omega)] at ha hc
  exact h p q a hp hq ha hc

variable [DecidableEq I]

theorem store_self (m : A → I → W) (a : A) (i : I) (w : W) : store m a i w a i = w := by simp [store]

theorem store_of_ne {c : A} {j : I} (h : ¬ (c = a ∧ j = i)) : store m a i w c j = m c j := by
  unfold store
  by_cases hc : c = a
  · subst hc
    have hj : j ≠ i := fun hj => h ⟨rfl, hj⟩
    rw [Function.update_self, Function.update_of_ne hj]
  · rw [Function.update_of_ne hc]

/-! ### A word at the lowest level -/

/-- Only the last page of a path is at depth `d`. -/
theorem node_store (h : Tree next m root d) (ha : node next m root p = some a) (hp : p.length = d) (hq : q.length ≤ d) :
    node next (store m a i w) root q = node next m root q := by
  induction q with
  | nil => rfl
  | cons j q ih =>
    have hq : q.length + 1 ≤ d := by simpa using hq
    rw [node, ih (by omega), node]
    cases hn : node next m root q with
    | none => rfl
    | some c =>
      have hc : c ≠ a := by
        rintro rfl
        have := h p q c (by omega) (by omega) ha hn
        subst this
        omega
      simp only [Option.bind_some, store_of_ne (w := w) (i := i) fun hx => hc hx.1]

theorem tree_store (h : Tree next m root d) (ha : node next m root p = some a) (hp : p.length = d) :
    Tree next (store m a i w) root d := by
  intro r q b hr hq hb hc
  rw [node_store h ha hp (by omega)] at hb hc
  exact h r q b hr hq hb hc

theorem outside_store (h : Tree next m root d) (ha : node next m root p = some a) (hp : p.length = d) (hb : Outside next m root d b) :
    Outside next (store m a i w) root d b := by
  intro q hq
  rw [node_store h ha hp hq]
  exact hb q hq

theorem word_store (h : Tree next m root d) (ha : node next m root p = some a) (hp : p.length = d) (hq : q.length = d) :
    word next (store m a i w) root (j :: q) = if j :: q = i :: p then some w else word next m root (j :: q) := by
  rw [word, node_store h ha hp (by omega), word]
  split
  · rename_i he
    cases he
    simp [ha, store_self]
  · rename_i he
    cases hn : node next m root q with
    | none => rfl
    | some c =>
      rw [Option.map_some, Option.map_some, store_of_ne]
      rintro ⟨rfl, rfl⟩
      exact he (by rw [h p q c (by omega) (by omega) ha hn])

/-! ### A new page -/

section link

variable (h : Tree next m root d) (ha : node next m root p = some a) (hp : p.length < d) (hi : next (m a i) = none)
  (hb : Outside next m root d b) (hw : next w = some b) {z : I → W} (hz : ∀ j, next (z j) = none)

include h ha hp hi hb hw hz

theorem node_link (hq : q.length ≤ d) :
    node next (store (update m b z) a i w) root q = if q = i :: p then some b else node next m root q := by
  have hab : a ≠ b := by
    rintro rfl
    exact hb p (by omega) ha
  induction q with
  | nil => rfl
  | cons j q ih =>
    have hq : q.length + 1 ≤ d := by simpa using hq
    rw [node, ih (by omega), node]
    by_cases hqi : q = i :: p
    · -- below the new page there is nothing
      subst hqi
      have hne : j :: i :: p ≠ i :: p := fun he => by simpa using congrArg List.length he
      rw [if_pos rfl, if_neg hne, node_cons ha, hi, Option.bind_some, store_of_ne fun hx => hab hx.1.symm, Function.update_self, hz]
      rfl
    rw [if_neg hqi]
    cases hn : node next m root q with
    | none =>
      have hne : ¬ (j :: q = i :: p) := by
        rintro he
        cases he
        rw [ha] at hn
        cases hn
      rw [if_neg hne]
      rfl
    | some c =>
      have hcb : c ≠ b := by
        rintro rfl
        exact hb q (by omega) hn
      simp only [Option.bind_some]
      by_cases hc : c = a ∧ j = i
      · obtain ⟨rfl, rfl⟩ := hc
        rw [h p q c (by omega) (by omega) ha hn, if_pos rfl, store_self, hw]
      · have hne : ¬ (j :: q = i :: p) := by
          rintro he
          cases he
          rw [ha] at hn
          cases hn
          exact hc ⟨rfl, rfl⟩
        rw [if_neg hne, store_of_ne hc, Function.update_of_ne hcb]

theorem tree_link : Tree next (store (update m b z) a i w) root d := by
  intro r q c hr hq hrc hqc
  rw [node_link h ha hp hi hb hw hz hr] at hrc
  rw [node_link h ha hp hi hb hw hz hq] at hqc
  by_cases hri : r = i :: p <;> by_cases hqi : q = i :: p
  · rw [hri, hqi]
  · rw [if_pos hri] at hrc
    rw [if_neg hqi] at hqc
    cases hrc
    exact absurd hqc (hb q hq)
  · rw [if_neg hri] at hrc
    rw [if_pos hqi] at hqc
    cases hqc
    exact absurd hrc (hb r hr)
  · rw [if_neg hri] at hrc
    rw [if_neg hqi] at hqc
    exact h r q c hr hq hrc hqc

theorem outside_link {c : A} (hc : Outside next m root d c) (hcb : c ≠ b) : Outside next (store (update m b z) a i w) root d c := by
  intro q hq
  rw [node_link h ha hp hi hb hw hz hq]
  split
  · simpa using hcb.symm
  · exact hc q hq

/-- The words at the lowest level: those of the new page, if it is there, and the old ones. -/
theorem word_link (hq : q.length = d) :
    word next (store (update m b z) a i w) root (j :: q) = if q = i :: p then some (z j) else word next m root (j :: q) := by
  have hab : a ≠ b := by
    rintro rfl
    exact hb p (by omega) ha
  rw [word, node_link h ha hp hi hb hw hz (by omega), word]
  split
  · rw [Option.map_some, store_of_ne fun hx => hab hx.1.symm, Function.update_self]
  · cases hn : node next m root q with
    | none => rfl
    | some c =>
      have hcb : c ≠ b := by
        rintro rfl
        exact hb q (by omega) hn
      have hca : c ≠ a := by
        rintro rfl
        have := h p q c (by omega) (by omega) ha hn
        subst this
        omega
      rw [Option.map_some, Option.map_some, store_of_ne fun hx => hca hx.1, Function.update_of_ne hcb]

end link

end

end Xv6.Radix
