import Mathlib.Data.List.Basic
import Mathlib.Data.List.Destutter
import Mathlib.Data.List.Perm.Basic
import Mathlib.Data.List.TakeWhile

/-!
# Runs and stable merging

Lists under a comparison `less`, which is a strict weak order on their elements (`StrictWeak`).  A list is in order (`InOrder`) if no
element comes before one that is less than it.  A rearrangement (`Rearranged`) keeps all elements, and each pair that was in order in
its order; elements that are equivalent stay in theirs.  Merging two lists that are in order is one (`rearranged_merge`), and gives a
list that is in order (`inOrder_merge`).  `runs` counts the stretches that are in order.
-/

namespace Xv6

variable {α : Type} (less : α → α → Bool)

/-- `less` is a strict weak order on the elements of `l`. -/
structure StrictWeak (l : List α) : Prop where
  irrefl : ∀ a ∈ l, less a a = false
  trans : ∀ a ∈ l, ∀ b ∈ l, ∀ c ∈ l, less a b = true → less b c = true → less a c = true
  incomp : ∀ a ∈ l, ∀ b ∈ l, ∀ c ∈ l, less a b = false → less b a = false → less b c = false → less c b = false →
    less a c = false ∧ less c a = false

/-- No element comes before one that is less than it. -/
def InOrder (l : List α) : Prop := l.Pairwise fun a b => less b a = false

/-- The same elements, where those stay in their order that are in order. -/
structure Rearranged (l l' : List α) : Prop where
  perm : l'.Perm l
  keeps : ∀ a b, less b a = false → [a, b].Sublist l → [a, b].Sublist l'

/-- The number of longest stretches that are in order. -/
def runs : List α → Nat
  | [] => 0
  | [_] => 1
  | a :: b :: l => if less b a then runs (b :: l) + 1 else runs (b :: l)

/-- What comes after `x` in the run that begins with `x`, and what comes after the run. -/
def firstRun : α → List α → List α × List α
  | _, [] => ([], [])
  | x, y :: l => if less y x then ([], y :: l) else (y :: (firstRun y l).1, (firstRun y l).2)

/-- The two lists merged; the elements of the first go before those of the second that are equivalent to them. -/
def merged (l m : List α) : List α := l.merge m fun a b => !less b a

/-- `a` and `b` are not equivalent. -/
def Apart (a b : α) : Prop := less a b = true ∨ less b a = true

instance : DecidableRel (Apart less) := fun a b => inferInstanceAs (Decidable (less a b = true ∨ less b a = true))

variable {less} {l l' l'' m m' : List α} {x y : α}

/-! ### The order -/

theorem StrictWeak.mono (h : StrictWeak less l) (hm : m ⊆ l) : StrictWeak less m :=
  ⟨fun a ha => h.irrefl a (hm ha), fun a ha b hb c hc => h.trans a (hm ha) b (hm hb) c (hm hc),
    fun a ha b hb c hc => h.incomp a (hm ha) b (hm hb) c (hm hc)⟩

/-- Not being less is transitive. -/
theorem StrictWeak.not_trans (h : StrictWeak less l) {a b c : α} (ha : a ∈ l) (hb : b ∈ l) (hc : c ∈ l) (hab : less b a = false)
    (hbc : less c b = false) : less c a = false := by
  by_contra hca
  rw [Bool.not_eq_false] at hca
  have h1 : less a b = false := by
    by_contra hlt
    rw [Bool.not_eq_false] at hlt
    rw [h.trans c hc a ha b hb hca hlt] at hbc
    cases hbc
  have h2 : less b c = false := by
    by_contra hlt
    rw [Bool.not_eq_false] at hlt
    rw [h.trans b hb c hc a ha hlt hca] at hab
    cases hab
  rw [(h.incomp a ha b hb c hc h1 hab h2 hbc).2] at hca
  cases hca

theorem StrictWeak.flip (h : StrictWeak less l) : StrictWeak (fun a b => less b a) l :=
  ⟨h.irrefl, fun a ha b hb c hc hab hbc => h.trans c hc b hb a ha hbc hab,
    fun a ha b hb c hc hab hba hbc hcb => (h.incomp a ha b hb c hc hba hab hcb hbc).symm⟩

theorem InOrder.sublist (h : InOrder less l) (hm : m.Sublist l) : InOrder less m := List.Pairwise.sublist hm h

/-- Neighbours that are in order suffice. -/
theorem inOrder_cons (hw : StrictWeak less (x :: y :: l)) : InOrder less (x :: y :: l) ↔ less y x = false ∧ InOrder less (y :: l) := by
  unfold InOrder
  rw [List.pairwise_cons]
  constructor
  · intro h
    exact ⟨h.1 y List.mem_cons_self, h.2⟩
  · intro h
    refine ⟨fun z hz => ?_, h.2⟩
    rcases List.mem_cons.1 hz with rfl | hz
    · exact h.1
    · apply hw.not_trans (b := y) (by simp) (by simp) (by simp [hz]) h.1
      exact (List.pairwise_cons.1 h.2).1 z hz

/-! ### Rearrangements -/

theorem pair_sublist_append {a b : α} : [a, b].Sublist (l ++ m) ↔ [a, b].Sublist l ∨ (a ∈ l ∧ b ∈ m) ∨ [a, b].Sublist m := by
  rw [List.sublist_append_iff]
  constructor
  · rintro ⟨x, y, hxy, hx, hy⟩
    rcases x with _ | ⟨c, _ | ⟨d, x⟩⟩
    · rw [List.nil_append] at hxy
      exact .inr (.inr (hxy ▸ hy))
    · rw [List.singleton_append, List.cons.injEq] at hxy
      obtain ⟨rfl, rfl⟩ := hxy
      exact .inr (.inl ⟨List.singleton_sublist.1 hx, List.singleton_sublist.1 hy⟩)
    · rw [List.cons_append, List.cons_append, List.cons.injEq, List.cons.injEq] at hxy
      obtain ⟨rfl, rfl, hnil⟩ := hxy
      have hx0 : x = [] := (List.append_eq_nil_iff.1 hnil.symm).1
      exact .inl (hx0 ▸ hx)
  · rintro (h | ⟨ha, hb⟩ | h)
    · exact ⟨[a, b], [], by simp, h, List.nil_sublist m⟩
    · exact ⟨[a], [b], by simp, List.singleton_sublist.2 ha, List.singleton_sublist.2 hb⟩
    · exact ⟨[], [a, b], by simp, List.nil_sublist l, h⟩

namespace Rearranged

theorem refl (l : List α) : Rearranged less l l := ⟨.refl l, fun _ _ _ h => h⟩

theorem trans (h : Rearranged less l l') (h' : Rearranged less l' l'') : Rearranged less l l'' :=
  ⟨h'.perm.trans h.perm, fun a b hab hs => h'.keeps a b hab (h.keeps a b hab hs)⟩

theorem append (hl : Rearranged less l l') (hm : Rearranged less m m') : Rearranged less (l ++ m) (l' ++ m') := by
  refine ⟨hl.perm.append hm.perm, fun a b hab hs => ?_⟩
  rw [pair_sublist_append] at hs ⊢
  rcases hs with hs | ⟨ha, hb⟩ | hs
  · exact .inl (hl.keeps a b hab hs)
  · exact .inr (.inl ⟨hl.perm.mem_iff.2 ha, hm.perm.mem_iff.2 hb⟩)
  · exact .inr (.inr (hm.keeps a b hab hs))

theorem cons (x : α) (h : Rearranged less l l') : Rearranged less (x :: l) (x :: l') := append (refl [x]) h

/-- An element moves to the front of elements that it is less than. -/
theorem front (hy : ∀ a ∈ l, less y a = true) : Rearranged less (l ++ y :: m) (y :: (l ++ m)) := by
  refine ⟨List.perm_middle.symm, fun a b hab hs => ?_⟩
  have hl : l.Sublist (y :: (l ++ m)) := (List.sublist_append_left l m).trans (List.sublist_cons_self y _)
  rw [pair_sublist_append] at hs
  rcases hs with hs | ⟨ha, hb⟩ | hs
  · exact hs.trans hl
  · rcases List.mem_cons.1 hb with rfl | hb
    · rw [hy a ha] at hab
      cases hab
    · exact (pair_sublist_append.2 (.inr (.inl ⟨ha, hb⟩))).trans (List.sublist_cons_self y _)
  · exact hs.trans ((List.sublist_append_right l m).cons_cons y)

end Rearranged

/-! ### There is one way to sort -/

/-- Of two elements one comes first. -/
theorem pair_sublist_or {a b : α} (hab : a ≠ b) (ha : a ∈ l) (hb : b ∈ l) : [a, b].Sublist l ∨ [b, a].Sublist l := by
  obtain ⟨l₁, l₂, rfl⟩ := List.append_of_mem ha
  rw [List.mem_append, List.mem_cons] at hb
  rcases hb with hb | hb | hb
  · exact .inr (pair_sublist_append.2 (.inr (.inl ⟨hb, List.mem_cons_self⟩)))
  · exact absurd hb.symm hab
  · exact .inl ((((List.singleton_sublist.2 hb).cons_cons a)).trans (List.sublist_append_right l₁ _))

theorem pair_sublist_irrefl {a b : α} (hl : l.Nodup) (hab : [a, b].Sublist l) : ¬[b, a].Sublist l := by
  induction l with
  | nil => simp at hab
  | cons x l ih =>
    obtain ⟨hx, hl⟩ := List.nodup_cons.1 hl
    intro hba
    cases hab with
    | cons _ hab =>
      cases hba with
      | cons _ hba => exact ih hl hab hba
      | cons_cons _ hba => exact hx (hab.subset (by simp))
    | cons_cons _ hab =>
      cases hba with
      | cons _ hba => exact hx (hba.subset (by simp))
      | cons_cons _ hba => exact hx (List.singleton_sublist.1 hab)

theorem Rearranged.unique (hl : l.Nodup) (h : Rearranged less l l') (ho : InOrder less l') (h' : Rearranged less l l'')
    (ho' : InOrder less l'') : l' = l'' := by
  -- equivalent elements are in the order of `l`
  have key : ∀ {m : List α}, Rearranged less l m → InOrder less m →
      m.Pairwise fun a b => less b a = false ∧ (less a b = false → [a, b].Sublist l) := by
    intro m hm hom
    apply List.pairwise_of_forall_sublist
    intro a b hab
    refine ⟨hom.forall_sublist hab, fun hlt => ?_⟩
    have hnd := hm.perm.nodup_iff.2 hl
    have hne : a ≠ b := by
      rintro rfl
      exact pair_sublist_irrefl hnd hab hab
    rcases pair_sublist_or hne (hm.perm.mem_iff.1 (hab.subset (by simp))) (hm.perm.mem_iff.1 (hab.subset (by simp))) with hs | hs
    · exact hs
    · exact absurd (hm.keeps b a hlt hs) (pair_sublist_irrefl hnd hab)
  apply List.Perm.eq_of_pairwise _ (key h ho) (key h' ho') (h.perm.trans h'.perm.symm)
  intro a b _ _ hab hba
  exact absurd (hba.2 hab.1) (pair_sublist_irrefl hl (hab.2 hba.1))

/-! ### Merging -/

@[simp] theorem merged_nil_left (m : List α) : merged less [] m = m := by simp [merged]

@[simp] theorem merged_nil_right (l : List α) : merged less l [] = l := by simp [merged]

theorem merged_cons_of_not (h : less y x = false) : merged less (x :: l) (y :: m) = x :: merged less l (y :: m) := by
  simp [merged, h]

theorem merged_cons_of_less (h : less y x = true) : merged less (x :: l) (y :: m) = y :: merged less (x :: l) m := by
  simp [merged, h]

theorem mem_merged {a : α} : a ∈ merged less l m ↔ a ∈ l ∨ a ∈ m := List.mem_merge

/-- The elements of the first list that are left are all greater than the one that is taken from the second. -/
theorem InOrder.less_all (h : InOrder less (x :: l)) (hw : StrictWeak less (y :: x :: l)) (hyx : less y x = true) :
    ∀ a ∈ x :: l, less y a = true := by
  intro a ha
  rcases List.mem_cons.1 ha with rfl | ha
  · exact hyx
  · by_contra hya
    rw [Bool.not_eq_true] at hya
    have hax : less a x = false := (List.pairwise_cons.1 h).1 a ha
    rw [hw.not_trans (a := x) (b := a) (c := y) (by simp) (by simp [ha]) (by simp) hax hya] at hyx
    cases hyx

theorem rearranged_merge (hl : InOrder less l) (hw : StrictWeak less (l ++ m)) : Rearranged less (l ++ m) (merged less l m) := by
  induction l generalizing m with
  | nil =>
    rw [merged_nil_left]
    exact .refl m
  | cons x l ihl =>
    induction m with
    | nil =>
      rw [merged_nil_right, List.append_nil]
      exact .refl (x :: l)
    | cons y m ihm =>
      cases hyx : less y x with
      | false =>
        rw [merged_cons_of_not hyx]
        exact (ihl (hl.sublist (List.sublist_cons_self x l)) (hw.mono (List.subset_cons_self x _))).cons x
      | true =>
        rw [merged_cons_of_less hyx]
        have hall := hl.less_all (hw.mono fun a ha => by simp at ha ⊢; tauto) hyx
        exact (Rearranged.front hall).trans ((ihm (hw.mono fun a ha => by simp at ha ⊢; tauto)).cons y)

theorem inOrder_merge (hl : InOrder less l) (hm : InOrder less m) (hw : StrictWeak less (l ++ m)) : InOrder less (merged less l m) := by
  induction l generalizing m with
  | nil => rwa [merged_nil_left]
  | cons x l ihl =>
    induction m with
    | nil => rwa [merged_nil_right]
    | cons y m ihm =>
      cases hyx : less y x with
      | false =>
        rw [merged_cons_of_not hyx]
        have hrest := ihl (hl.sublist (List.sublist_cons_self x l)) hm (hw.mono (List.subset_cons_self x _))
        refine List.pairwise_cons.2 ⟨fun a ha => ?_, hrest⟩
        rcases mem_merged.1 ha with ha | ha
        · exact (List.pairwise_cons.1 hl).1 a ha
        · rcases List.mem_cons.1 ha with rfl | ha
          · exact hyx
          · exact hw.not_trans (b := y) (by simp) (by simp) (by simp [ha]) hyx ((List.pairwise_cons.1 hm).1 a ha)
      | true =>
        rw [merged_cons_of_less hyx]
        have hrest := ihm (hm.sublist (List.sublist_cons_self y m)) (hw.mono fun a ha => by simp at ha ⊢; tauto)
        have hall := hl.less_all (hw.mono fun a ha => by simp at ha ⊢; tauto) hyx
        refine List.pairwise_cons.2 ⟨fun a ha => ?_, hrest⟩
        rcases mem_merged.1 ha with ha | ha
        · -- what `y` is less than is not less than `y`
          by_contra hay
          rw [Bool.not_eq_false] at hay
          have hyy := hw.trans y (by simp) a (by simp at ha ⊢; tauto) y (by simp) (hall a ha) hay
          rw [hw.irrefl y (by simp)] at hyy
          cases hyy
        · exact (List.pairwise_cons.1 hm).1 a ha

/-! ### Runs -/

section

variable (less)

theorem runs_cons_le (x : α) (l : List α) : runs less (x :: l) ≤ runs less l + 1 := by
  cases l with
  | nil => simp [runs]
  | cons y l =>
    rw [runs]
    split <;> omega

theorem runs_le_length (l : List α) : runs less l ≤ l.length := by
  induction l with
  | nil => simp [runs]
  | cons x l ih =>
    have := runs_cons_le less x l
    rw [List.length_cons]
    omega

theorem runs_append_le (l m : List α) : runs less (l ++ m) ≤ runs less l + runs less m := by
  induction l with
  | nil => simp [runs]
  | cons x l ih =>
    cases l with
    | nil =>
      have := runs_cons_le less x m
      simp only [List.singleton_append, runs]
      omega
    | cons y l =>
      simp only [List.cons_append, runs] at ih ⊢
      split <;> omega

theorem runs_pos (x : α) (l : List α) : 1 ≤ runs less (x :: l) := by
  induction l generalizing x with
  | nil => simp [runs]
  | cons y l ih =>
    have := ih y
    rw [runs]
    split <;> omega

theorem firstRun_append (x : α) (l : List α) : (firstRun less x l).1 ++ (firstRun less x l).2 = l := by
  induction l generalizing x with
  | nil => rfl
  | cons y l ih =>
    rw [firstRun]
    split
    · rfl
    · rw [List.cons_append, ih]

/-- The first run is one run, and the others are left. -/
theorem runs_firstRun (x : α) (l : List α) :
    runs less (x :: (firstRun less x l).1) = 1 ∧ runs less (x :: l) = runs less (firstRun less x l).2 + 1 := by
  induction l generalizing x with
  | nil => exact ⟨rfl, rfl⟩
  | cons y l ih =>
    obtain ⟨h1, h2⟩ := ih y
    rw [firstRun, runs]
    cases hyx : less y x with
    | true => exact ⟨rfl, rfl⟩
    | false =>
      constructor
      · simpa [runs, hyx] using h1
      · simpa [hyx] using h2

end

/-- A list with one run is in order, and the other way round. -/
theorem runs_le_one_iff (hw : StrictWeak less l) : runs less l ≤ 1 ↔ InOrder less l := by
  induction l with
  | nil => simp [runs, InOrder]
  | cons x l ih =>
    cases l with
    | nil => simp [runs, InOrder]
    | cons y l =>
      have hpos := runs_pos less y l
      rw [inOrder_cons hw, ← ih (hw.mono (List.subset_cons_self x _)), runs]
      cases hyx : less y x with
      | true =>
        rw [if_pos rfl]
        constructor
        · intro h
          omega
        · intro h
          cases h.1
      | false => simp

/-! ### Elements that are equivalent to the one before them -/

section

variable [DecidableEq α]

/-- The elements that `destutter` leaves out. -/
theorem dropped_cons_of_apart (h : Apart less x y) (hl : (x :: y :: l).Nodup) :
    (x :: y :: l).filter (· ∉ (y :: l).destutter' (Apart less) x) = (y :: l).filter (· ∉ l.destutter' (Apart less) y) := by
  rw [List.destutter'_cons_pos _ h, List.filter_cons_of_neg (by simp)]
  apply List.filter_congr
  intro z hz
  have hzx : z ≠ x := ne_of_mem_of_not_mem hz (List.nodup_cons.1 hl).1
  simp [hzx]

theorem dropped_cons_of_not (h : ¬Apart less x y) (hl : (x :: y :: l).Nodup) :
    (x :: y :: l).filter (· ∉ (y :: l).destutter' (Apart less) x) = y :: (x :: l).filter (· ∉ l.destutter' (Apart less) x) := by
  have hx : x ∈ l.destutter' (Apart less) x := List.mem_destutter' _ _ x
  have hy : y ∉ l.destutter' (Apart less) x := by
    intro hy
    rcases List.mem_cons.1 ((List.destutter'_sublist _ _ x).subset hy) with rfl | hy
    · exact (List.nodup_cons.1 hl).1 List.mem_cons_self
    · exact (List.nodup_cons.1 (List.nodup_cons.1 hl).2).1 hy
  rw [List.destutter'_cons_neg _ h, List.filter_cons_of_neg (by simpa using hx), List.filter_cons_of_pos (by simpa using hy),
    List.filter_cons_of_neg (by simpa using hx)]

/-- Each element is kept or dropped. -/
theorem kept_append_dropped (hm : m.Sublist l) (hl : l.Nodup) : (m ++ l.filter (· ∉ m)).Perm l := by
  have hkept : (l.filter (· ∈ m)).Perm m := by
    apply (List.perm_ext_iff_of_nodup (hl.filter _) (hl.sublist hm)).2
    intro a
    rw [List.mem_filter, decide_eq_true_iff]
    exact ⟨fun h => h.2, fun h => ⟨hm.subset h, h⟩⟩
  have hparts : (l.filter (· ∈ m) ++ l.filter (· ∉ m)).Perm l := by
    simpa using List.filter_append_perm (fun a => decide (a ∈ m)) l
  exact (hkept.symm.append_right _).trans hparts

end

/-! ### A place for one more element -/

/-- The elements that `x` goes behind, and those that it goes in front of. -/
theorem inOrder_insert (hw : StrictWeak less (x :: l)) (ho : InOrder less l) :
    InOrder less (l.takeWhile (fun a => !less x a) ++ x :: l.dropWhile fun a => !less x a) ∧
      ∀ a ∈ l, less x a = false → a ∈ l.takeWhile fun a => !less x a := by
  have happ := List.takeWhile_append_dropWhile (p := fun a => !less x a) (l := l)
  have hfront : ∀ a ∈ l.takeWhile (fun a => !less x a), less x a = false := fun a ha => by simpa using List.mem_takeWhile_imp ha
  have hback : ∀ a ∈ l.dropWhile (fun a => !less x a), less x a = true := by
    cases hd : l.dropWhile fun a => !less x a with
    | nil => simp
    | cons y s =>
      have hy : less x y = true := by
        have hhead := List.head?_dropWhile_not (fun a => !less x a) l
        simpa [hd] using hhead
      have hs : (y :: s).Sublist l := hd ▸ List.dropWhile_sublist _
      exact (ho.sublist hs).less_all (hw.mono (List.cons_subset_cons x hs.subset)) hy
  generalize l.takeWhile (fun a => !less x a) = p at *
  generalize l.dropWhile (fun a => !less x a) = s at *
  subst happ
  obtain ⟨hp, hs, hps⟩ := List.pairwise_append.1 ho
  constructor
  · refine List.pairwise_append.2 ⟨hp, List.pairwise_cons.2 ⟨fun a ha => ?_, hs⟩, fun a ha b hb => ?_⟩
    · by_contra hax
      rw [Bool.not_eq_false] at hax
      have hxx := hw.trans x (by simp) a (by simp [ha]) x (by simp) (hback a ha) hax
      rw [hw.irrefl x (by simp)] at hxx
      cases hxx
    · rcases List.mem_cons.1 hb with rfl | hb
      · exact hfront a ha
      · exact hps a ha b hb
  · intro a ha hax
    rcases List.mem_append.1 ha with ha | ha
    · exact ha
    · rw [hback a ha] at hax
      cases hax

/-! ### The first of the best elements -/

/-- What comes before the result of a search is worse, and what comes behind it is not better. -/
theorem foldl_best (hw : StrictWeak less l) {p q r : List α} (hl : l = (p ++ x :: q) ++ r) (hp : ∀ a ∈ p, less x a = true)
    (hq : ∀ a ∈ q, less a x = false) :
    ∃ p q, l = p ++ r.foldl (fun x y => if less y x then y else x) x :: q ∧
      (∀ a ∈ p, less (r.foldl (fun x y => if less y x then y else x) x) a = true) ∧
      ∀ a ∈ q, less a (r.foldl (fun x y => if less y x then y else x) x) = false := by
  induction r generalizing x p q with
  | nil => exact ⟨p, q, by simpa using hl, hp, hq⟩
  | cons y r ih =>
    rw [List.foldl_cons]
    cases hyx : less y x with
    | false =>
      apply @ih x p (q ++ [y]) (by simp [hl]) hp
      intro a ha
      rcases List.mem_append.1 ha with ha | ha
      · exact hq a ha
      · rwa [List.mem_singleton.1 ha]
    | true =>
      apply @ih y (p ++ x :: q) [] (by simp [hl])
      · intro a ha
        rw [List.mem_append, List.mem_cons] at ha
        rcases ha with ha | rfl | ha
        · exact hw.trans y (by simp [hl]) x (by simp [hl]) a (by simp [hl, ha]) hyx (hp a ha)
        · exact hyx
        · by_contra hya
          rw [Bool.not_eq_true] at hya
          rw [hw.not_trans (a := x) (b := a) (c := y) (by simp [hl]) (by simp [hl, ha]) (by simp [hl]) (hq a ha) hya] at hyx
          cases hyx
      · simp

end Xv6
