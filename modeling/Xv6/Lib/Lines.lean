import Mathlib.Data.List.Basic

/-!
# The lines of a stream

`lines sep s` are the pieces of `s` that end with `sep`, without it, and `lastLine sep s` is what comes behind them.
-/

namespace Xv6

def newline : UInt8 := '\n'.toUInt8

variable {α : Type} [BEq α]

def lines (sep : α) (s : List α) : List (List α) := (s.splitOn sep).dropLast

def lastLine (sep : α) (s : List α) : List α := (s.splitOn sep).getLast (List.splitOn_ne_nil sep s)

variable [LawfulBEq α] {sep : α} {a b s : List α}

theorem lines_of_notMem (h : sep ∉ s) : lines sep s = [] := by
  rw [lines, List.splitOn_eq_singleton h, List.dropLast_singleton]

theorem lastLine_of_notMem (h : sep ∉ s) : lastLine sep s = s := by
  simp [lastLine, List.splitOn_eq_singleton h]

theorem lines_append_cons (h : sep ∉ a) : lines sep (a ++ sep :: b) = a :: lines sep b := by
  rw [lines, List.splitOn_append_cons_self_of_not_mem h, List.dropLast_cons_of_ne_nil (List.splitOn_ne_nil sep b), lines]

theorem lastLine_append_cons (h : sep ∉ a) : lastLine sep (a ++ sep :: b) = lastLine sep b := by
  simp [lastLine, List.splitOn_append_cons_self_of_not_mem h, List.getLast_cons (List.splitOn_ne_nil sep b)]

/-- A stream has no line, or it begins with one. -/
theorem lines_induction (sep : α) {P : List α → Prop} (hlast : ∀ s, sep ∉ s → P s) (hline : ∀ a b, sep ∉ a → P b → P (a ++ sep :: b))
    (s : List α) : P s := by
  induction hn : s.length using Nat.strongRecOn generalizing s with
  | ind n ih =>
    by_cases hs : sep ∈ s
    · obtain ⟨a, b, rfl, ha⟩ := List.eq_append_cons_of_mem hs
      apply hline a b ha
      exact ih b.length (by simp at hn; omega) b rfl
    · exact hlast s hs

theorem notMem_lastLine (s : List α) : sep ∉ lastLine sep s := by
  induction s using lines_induction sep with
  | hlast s hs => rwa [lastLine_of_notMem hs]
  | hline a b ha ih => rwa [lastLine_append_cons ha]

theorem lines_append (a b : List α) : lines sep (a ++ b) = lines sep a ++ lines sep (lastLine sep a ++ b) := by
  induction a using lines_induction sep with
  | hlast a ha => rw [lines_of_notMem ha, lastLine_of_notMem ha, List.nil_append]
  | hline c a hc ih =>
    rw [List.append_assoc, List.cons_append, lines_append_cons hc, lines_append_cons hc, lastLine_append_cons hc, ih, List.cons_append]

/-- The lines and the rest make up the stream. -/
theorem lines_flatMap (sep : α) (s : List α) : (lines sep s).flatMap (· ++ [sep]) ++ lastLine sep s = s := by
  induction s using lines_induction sep with
  | hlast s hs => rw [lines_of_notMem hs, lastLine_of_notMem hs, List.flatMap_nil, List.nil_append]
  | hline a b ha ih =>
    rw [lines_append_cons ha, lastLine_append_cons ha, List.flatMap_cons, List.append_assoc, ih, List.append_assoc,
      List.singleton_append]

/-- Nothing comes behind the lines if the stream is empty or ends with the end of one. -/
theorem lastLine_eq_nil_iff : lastLine sep s = [] ↔ s = [] ∨ s.getLast? = some sep := by
  induction s using lines_induction sep with
  | hlast s hs =>
    rw [lastLine_of_notMem hs]
    refine ⟨.inl, fun h => h.resolve_right fun hlast => hs (List.mem_of_getLast? hlast)⟩
  | hline a b ha ih =>
    rw [lastLine_append_cons ha, ih, List.getLast?_append_cons]
    cases b with
    | nil => simp
    | cons c b => simp [List.getLast?_cons_cons]

/-- A line is shorter than the stream. -/
theorem length_lt_of_mem_lines (h : a ∈ lines sep s) : a.length < s.length := by
  induction s using lines_induction sep with
  | hlast s hs => simp [lines_of_notMem hs] at h
  | hline b s hb ih =>
    rw [lines_append_cons hb] at h
    rw [List.length_append, List.length_cons]
    rcases List.mem_cons.1 h with rfl | h
    · omega
    · have := ih h
      omega

end Xv6
