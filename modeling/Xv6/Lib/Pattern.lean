import Mathlib.Computability.Language

/-!
# Patterns that are sequences of atoms

An atom is one letter out of a set, or any number of letters out of a set.  A pattern is a sequence of atoms, which may be bound to the
beginning and to the end of the text.  It accepts a text that has a factor in the product of the languages of its atoms
(`Pattern.Accepts`); backtracking decides this (`Pattern.accepts_iff`).
-/

namespace Xv6

variable {α : Type}

inductive Atom (α : Type)
  | one (s : α → Bool)
  | many (s : α → Bool)

def Atom.language : Atom α → Language α
  | .one s => {w | ∃ x, s x = true ∧ w = [x]}
  | .many s => {w | ∀ x ∈ w, s x = true}

structure Pattern (α : Type) where
  caret : Bool
  atoms : List (Atom α)
  dollar : Bool

namespace Pattern

def language (p : Pattern α) : Language α := (p.atoms.map Atom.language).prod

/-- A factor of the text is in the language; it is at the beginning or at the end if the pattern is bound to it. -/
def Accepts (p : Pattern α) (text : List α) : Prop :=
  ∃ before factor behind, text = before ++ factor ++ behind ∧ factor ∈ p.language ∧ (p.caret = true → before = []) ∧
    (p.dollar = true → behind = [])

/-- Skips letters out of `s` until `k` succeeds. -/
def acceptsStar (s : α → Bool) (k : List α → Bool) : List α → Bool
  | [] => k []
  | x :: text => k (x :: text) || (s x && acceptsStar s k text)

/-- The atoms at the beginning of the text. -/
def acceptsHere (dollar : Bool) : List (Atom α) → List α → Bool
  | [], text => !dollar || text.isEmpty
  | .one _ :: _, [] => false
  | .one s :: atoms, x :: text => s x && acceptsHere dollar atoms text
  | .many s :: atoms, text => acceptsStar s (acceptsHere dollar atoms) text

/-- The atoms at any place. -/
def accepts (p : Pattern α) (text : List α) : Bool :=
  if p.caret then acceptsHere p.dollar p.atoms text
  else acceptsStar (fun _ => true) (acceptsHere p.dollar p.atoms) text

variable {s : α → Bool} {k : List α → Bool} {dollar : Bool} {atoms : List (Atom α)} {text : List α}

theorem acceptsStar_iff :
    acceptsStar s k text = true ↔ ∃ skipped rest, text = skipped ++ rest ∧ (∀ x ∈ skipped, s x = true) ∧ k rest = true := by
  induction text with
  | nil =>
    rw [acceptsStar]
    constructor
    · intro h
      exact ⟨[], [], rfl, by simp, h⟩
    · rintro ⟨skipped, rest, hnil, -, h⟩
      rwa [(List.append_eq_nil_iff.1 hnil.symm).2] at h
  | cons x text ih =>
    rw [acceptsStar, Bool.or_eq_true, Bool.and_eq_true, ih]
    constructor
    · rintro (h | ⟨hx, skipped, rest, rfl, hs, h⟩)
      · exact ⟨[], x :: text, rfl, by simp, h⟩
      · refine ⟨x :: skipped, rest, rfl, fun y hy => ?_, h⟩
        rcases List.mem_cons.1 hy with rfl | hy
        · exact hx
        · exact hs y hy
    · rintro ⟨skipped, rest, htext, hs, h⟩
      cases skipped with
      | nil =>
        left
        rwa [htext]
      | cons y skipped =>
        rw [List.cons_append, List.cons.injEq] at htext
        obtain ⟨rfl, rfl⟩ := htext
        exact .inr ⟨hs x List.mem_cons_self, skipped, rest, rfl, fun y hy => hs y (List.mem_cons_of_mem _ hy), h⟩

theorem acceptsHere_iff : acceptsHere dollar atoms text = true ↔
    ∃ factor behind, text = factor ++ behind ∧ factor ∈ (atoms.map Atom.language).prod ∧ (dollar = true → behind = []) := by
  induction atoms generalizing text with
  | nil =>
    simp only [acceptsHere, List.map_nil, List.prod_nil, Language.mem_one, Bool.or_eq_true, List.isEmpty_iff]
    constructor
    · intro h
      refine ⟨[], text, rfl, rfl, fun hd => ?_⟩
      rcases h with h | h
      · simp [hd] at h
      · exact h
    · rintro ⟨factor, behind, rfl, rfl, hd⟩
      cases dollar with
      | true => exact .inr (hd rfl)
      | false => exact .inl rfl
  | cons atom atoms ih =>
    simp only [List.map_cons, List.prod_cons, Language.mem_mul]
    cases atom with
    | one s =>
      constructor
      · intro h
        cases text with
        | nil => cases h
        | cons x text =>
          rw [acceptsHere, Bool.and_eq_true, ih] at h
          obtain ⟨hx, factor, behind, rfl, hf, hd⟩ := h
          exact ⟨x :: factor, behind, rfl, ⟨[x], ⟨x, hx, rfl⟩, factor, hf, rfl⟩, hd⟩
      · rintro ⟨-, behind, rfl, ⟨-, ⟨x, hx, rfl⟩, factor, hf, rfl⟩, hd⟩
        rw [List.append_assoc, List.singleton_append, acceptsHere, Bool.and_eq_true, ih]
        exact ⟨hx, factor, behind, rfl, hf, hd⟩
    | many s =>
      rw [acceptsHere, acceptsStar_iff]
      constructor
      · rintro ⟨skipped, rest, rfl, hs, h⟩
        obtain ⟨factor, behind, rfl, hf, hd⟩ := ih.1 h
        exact ⟨skipped ++ factor, behind, by simp, ⟨skipped, hs, factor, hf, rfl⟩, hd⟩
      · rintro ⟨-, behind, rfl, ⟨skipped, hs, factor, hf, rfl⟩, hd⟩
        exact ⟨skipped, factor ++ behind, by simp, hs, ih.2 ⟨factor, behind, rfl, hf, hd⟩⟩

theorem accepts_iff (p : Pattern α) : p.accepts text = true ↔ p.Accepts text := by
  unfold accepts Accepts
  cases hc : p.caret with
  | true =>
    rw [if_pos rfl, acceptsHere_iff]
    constructor
    · rintro ⟨factor, behind, htext, hf, hd⟩
      exact ⟨[], factor, behind, htext, hf, fun _ => rfl, hd⟩
    · rintro ⟨before, factor, behind, htext, hf, hb, hd⟩
      rw [hb rfl, List.nil_append] at htext
      exact ⟨factor, behind, htext, hf, hd⟩
  | false =>
    rw [if_neg (by simp), acceptsStar_iff]
    constructor
    · rintro ⟨before, rest, rfl, -, h⟩
      obtain ⟨factor, behind, rfl, hf, hd⟩ := acceptsHere_iff.1 h
      exact ⟨before, factor, behind, by simp, hf, by simp, hd⟩
    · rintro ⟨before, factor, behind, rfl, hf, -, hd⟩
      exact ⟨before, factor ++ behind, by simp, by simp, acceptsHere_iff.2 ⟨factor, behind, rfl, hf, hd⟩⟩

end Pattern

end Xv6
