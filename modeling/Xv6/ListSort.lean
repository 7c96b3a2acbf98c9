import Xv6.Lib.Runs
import Xv6.ListOrder

/-!
# `list_sort`

A pass merges the first run with the second, the third with the fourth, and so on; the elements are moved between the nodes that are
around the runs.  The number of runs falls with each pass that has more than one run as its output, so that the passes end, and they
end with one run (`list_sort_sorts`).
-/

namespace Xv6

open Function (update)

namespace ListM

variable {ι : Type} {h : Nodes Ptr} {hdr : ι → Ptr} {seq : ι → List Ptr} {p a b r s l : List Ptr} {k : ι} {x y : Ptr}
  {E : String → Nodes Ptr → Prop} {less : Ptr → Ptr → Bool}

/-! ### Runs -/

theorem isSortedLoop_wp (hs : Lists h hdr seq) (hseq : seq k = p ++ x :: (r ++ s)) (ho : InOrder less (x :: r)) {fuel : Nat}
    (hf : r.length < fuel) {Q : Bool → Nodes Ptr → Prop} (hQ : Q true h) : wp (isSortedLoop less (right hdr k s) fuel x) Q E h := by
  induction r generalizing p x fuel with
  | nil =>
    obtain ⟨fuel, rfl⟩ : ∃ n, fuel = n + 1 := ⟨fuel - 1, by omega⟩
    unfold isSortedLoop
    rw [wp_bind]
    refine next_wp hs hseq ?_
    rw [wp_ite, if_neg (by simp)]
    exact hQ
  | cons y r ih =>
    obtain ⟨fuel, rfl⟩ : ∃ n, fuel = n + 1 := ⟨fuel - 1, by omega⟩
    have hseq' : seq k = (p ++ [x]) ++ (y :: r ++ s) := by simp [hseq]
    have hne : right hdr k (y :: r ++ s) ≠ right hdr k s := mt (right_eq_iff hs hseq').1 (List.cons_ne_nil y r)
    have hyx : less y x = false := (List.pairwise_cons.1 ho).1 y List.mem_cons_self
    unfold isSortedLoop
    rw [wp_bind]
    refine next_wp hs hseq ?_
    rw [wp_ite, if_pos hne, wp_bind]
    refine prev_wp hs hseq' ?_
    rw [List.cons_append, right_cons, hyx, wp_ite, if_neg (by simp)]
    exact ih (p := p ++ [x]) (by simp [hseq]) (List.pairwise_cons.1 ho).2 (by simp at hf; omega)

theorem isSorted_wp (hs : Lists h hdr seq) (hseq : seq k = p ++ (r ++ s)) (ho : InOrder less r) {fuel : Nat}
    (hf : r.length < fuel) {Q : Bool → Nodes Ptr → Prop} (hQ : Q true h) :
    wp (isSorted less fuel (right hdr k (r ++ s)) (right hdr k s)) Q E h := by
  unfold isSorted
  rw [wp_ite]
  cases r with
  | nil =>
    rw [if_neg (by simp)]
    exact hQ
  | cons x r =>
    rw [if_pos (mt (right_eq_iff hs hseq).1 (List.cons_ne_nil x r)), List.cons_append, right_cons]
    exact isSortedLoop_wp hs hseq ho (by simp at hf; omega) hQ

theorem findEndOfRunLoop_wp (hs : Lists h hdr seq) (hseq : seq k = p ++ x :: l) {fuel : Nat} (hf : l.length < fuel)
    {Q : Ptr → Nodes Ptr → Prop} (hQ : Q (right hdr k (firstRun less x l).2) h) :
    wp (findEndOfRunLoop less (tailOf (hdr k)) fuel x) Q E h := by
  induction l generalizing p x fuel with
  | nil =>
    obtain ⟨fuel, rfl⟩ : ∃ n, fuel = n + 1 := ⟨fuel - 1, by omega⟩
    unfold findEndOfRunLoop
    rw [wp_bind]
    refine next_wp hs hseq ?_
    rw [wp_ite, if_neg (by simp [right])]
    exact hQ
  | cons y l ih =>
    obtain ⟨fuel, rfl⟩ : ∃ n, fuel = n + 1 := ⟨fuel - 1, by omega⟩
    have hseq' : seq k = (p ++ [x]) ++ y :: l := by simp [hseq]
    have hne : right hdr k (y :: l) ≠ tailOf (hdr k) := mt (right_eq_tail_iff hs hseq').1 (List.cons_ne_nil y l)
    unfold findEndOfRunLoop
    rw [wp_bind]
    refine next_wp hs hseq ?_
    rw [wp_ite, if_pos hne, wp_bind]
    refine prev_wp hs hseq' ?_
    rw [right_cons, wp_ite]
    rw [firstRun] at hQ
    cases hyx : less y x with
    | true =>
      rw [hyx, if_pos rfl] at hQ
      rw [if_neg (by simp)]
      exact hQ
    | false =>
      rw [hyx, if_neg (by simp)] at hQ
      rw [if_pos (by simp)]
      exact ih hseq' (by simp at hf; omega) hQ

theorem findEndOfRun_wp (hs : Lists h hdr seq) (hseq : seq k = p ++ x :: l) {fuel : Nat} (hf : l.length < fuel)
    {Q : Ptr → Nodes Ptr → Prop} (hQ : Q (right hdr k (firstRun less x l).2) h) :
    wp (findEndOfRun less fuel x (tailOf (hdr k))) Q E h := by
  have hx : x ≠ NULL := ne_null hs (right_mem hseq)
  have htail : tailOf (hdr k) ≠ NULL := ne_null hs (k := k) (right_mem (b := []) (List.append_nil _).symm)
  have hne : x ≠ tailOf (hdr k) := mt (right_eq_tail_iff hs hseq).1 (List.cons_ne_nil x l)
  unfold findEndOfRun
  rw [wp_bind, wp_ASSERT (decide_eq_true hx), wp_bind, wp_ASSERT (decide_eq_true htail), wp_bind, wp_ASSERT (decide_eq_true hne)]
  exact findEndOfRunLoop_wp hs hseq hf hQ

/-! ### Merging -/

variable [DecidableEq ι]

/-- The nodes of a list with its elements in another order, and the changes that are seen from there. -/
theorem Frame.perm {h' h'' : Nodes Ptr} (hl : l.Perm (seq k)) (h1 : Frame h h' (nodes hdr seq k))
    (h2 : Frame h' h'' (nodes hdr (update seq k l) k)) : Frame h h'' (nodes hdr seq k) :=
  fun x hx => (h1 x hx).trans (h2 x (mt (mem_nodes_of_perm hl).1 hx))

/-- The ranges `a` and `b` are merged between what comes before and behind them. -/
theorem mergeLoop_wp (hs : Lists h hdr seq) (hseq : seq k = p ++ (a ++ (b ++ s))) {fuel : Nat} (hf : a.length + b.length < fuel) :
    wp (inplaceMergeLoop less (right hdr k s) fuel (right hdr k (a ++ (b ++ s))) (right hdr k (b ++ s)))
      (fun _ h' => Lists h' hdr (update seq k (p ++ (merged less a b ++ s))) ∧ Frame h h' (nodes hdr seq k)) noError h := by
  induction fuel generalizing h seq p a b with
  | zero => omega
  | succ fuel ih =>
    have hb : right hdr k (b ++ s) = right hdr k s ↔ b = [] := right_eq_iff (k := k) (a := p ++ a) hs (by simp [hseq])
    have ha := right_eq_iff (k := k) hs hseq
    unfold inplaceMergeLoop
    rw [wp_ite]
    cases a with
    | nil =>
      rw [if_neg (fun hc => hc.1 (ha.2 rfl)), merged_nil_left, ← List.nil_append (b ++ s), ← hseq, Function.update_eq_self]
      exact ⟨hs, fun x _ => .refl h x⟩
    | cons x a =>
      cases b with
      | nil =>
        rw [if_neg (fun hc => hc.2 (hb.2 rfl)), merged_nil_right, ← List.nil_append s, ← hseq, Function.update_eq_self]
        exact ⟨hs, fun x _ => .refl h x⟩
      | cons y b =>
        rw [if_pos ⟨mt ha.1 (List.cons_ne_nil x a), mt hb.1 (List.cons_ne_nil y b)⟩]
        rw [List.cons_append, List.cons_append, right_cons, right_cons]
        simp only [List.length_cons] at hf
        cases hyx : less y x with
        | false =>
          have hseq' : seq k = (p ++ [x]) ++ (a ++ (y :: b ++ s)) := by simp [hseq]
          rw [Bool.not_false, wp_ite, if_pos rfl, wp_bind, merged_cons_of_not hyx]
          refine next_wp hs hseq ?_
          have hrest := ih hs hseq' (by simp; omega)
          rwa [List.append_assoc] at hrest
        | true =>
          -- `y` goes in front of `x`
          have hseq' : seq k = (p ++ x :: a) ++ y :: (b ++ s) := by simp [hseq]
          have hmove : seq k = (p ++ x :: a) ++ [y] ++ (b ++ s) := by simp [hseq]
          rw [Bool.not_true, wp_ite, if_neg (by simp), wp_bind, merged_cons_of_less hyx]
          refine next_wp hs hseq' ?_
          rw [wp_bind]
          refine prev_wp hs hmove ?_
          rw [wp_bind]
          refine wp_mono (splice_lists (j := k) (k := k) (c := p) (d := x :: a ++ (b ++ s)) hs hmove (by rw [Function.update_self]; simp)) ?_ fun _ _ h => h
          rintro - h' ⟨hs', hf'⟩
          rw [Function.update_idem] at hs'
          have hperm : (p ++ [y] ++ (x :: a ++ (b ++ s))).Perm (seq k) := by
            have hswap : (y :: (x :: a ++ (b ++ s))).Perm (x :: a ++ y :: (b ++ s)) := List.perm_middle.symm
            rw [hseq', List.append_assoc, List.append_assoc]
            exact hswap.append_left p
          have hrest := ih (p := p ++ [y]) (a := x :: a) (b := b) hs' (by simp) (by simp; omega)
          rw [Function.update_idem, List.append_assoc, List.singleton_append] at hrest
          refine wp_mono hrest (fun _ h'' hpost => ⟨hpost.1, ?_⟩) fun _ _ h => h
          have hframe : Frame h h' (nodes hdr seq k) := fun z hz => hf' z (by simpa using hz)
          exact Frame.perm hperm hframe hpost.2

theorem InOrder.firstRun (hw : StrictWeak less (x :: l)) : InOrder less (x :: (firstRun less x l).1) := by
  have hsub : (x :: (Xv6.firstRun less x l).1) ⊆ x :: l := by
    apply List.cons_subset_cons
    nth_rewrite 2 [← firstRun_append less x l]
    exact List.subset_append_left _ _
  exact (runs_le_one_iff (hw.mono hsub)).1 (Nat.le_of_eq (runs_firstRun less x l).1)

theorem inplaceMerge_wp (hs : Lists h hdr seq) (hseq : seq k = p ++ (a ++ (b ++ s))) (ha : InOrder less a) (hb : InOrder less b)
    {fuel : Nat} (hf : a.length + b.length < fuel) :
    wp (inplaceMerge less fuel (right hdr k (a ++ (b ++ s))) (right hdr k (b ++ s)) (right hdr k s))
      (fun _ h' => Lists h' hdr (update seq k (p ++ (merged less a b ++ s))) ∧ Frame h h' (nodes hdr seq k)) noError h := by
  have hseq' : seq k = (p ++ a) ++ (b ++ s) := by simp [hseq]
  have hseq'' : seq k = (p ++ a ++ b) ++ s := by simp [hseq]
  have h0 : right hdr k (a ++ (b ++ s)) ≠ NULL := ne_null hs (right_mem hseq)
  have h1 : right hdr k (b ++ s) ≠ NULL := ne_null hs (right_mem hseq')
  have h2 : right hdr k s ≠ NULL := ne_null hs (right_mem hseq'')
  unfold inplaceMerge
  rw [wp_bind, wp_ASSERT (decide_eq_true h0), wp_bind, wp_ASSERT (decide_eq_true h1), wp_bind, wp_ASSERT (decide_eq_true h2), wp_bind]
  refine isSorted_wp hs hseq ha (by omega) ?_
  rw [wp_bind, wp_ASSERT rfl, wp_bind]
  refine isSorted_wp hs hseq' hb (by omega) ?_
  rw [wp_bind, wp_ASSERT rfl]
  exact mergeLoop_wp hs hseq hf

/-! ### The passes -/

/-- A pass from a place on: the runs behind it are merged in pairs, and it counts what it makes of them. -/
theorem sortPass_wp (hs : Lists h hdr seq) (hseq : seq k = p ++ l) (hw : StrictWeak less l) {fuel turns : Nat} (hf : l.length < fuel)
    (ht : l.length < turns) (cnt : UInt64) :
    wp (sortPass less fuel (hdr k) turns (right hdr k l) cnt)
      (fun cnt' h' => ∃ l' t, cnt' = cnt + .ofNat t ∧ Lists h' hdr (update seq k (p ++ l')) ∧ Rearranged less l l' ∧
        runs less l' ≤ t ∧ 2 * t ≤ runs less l + 1 ∧ Frame h h' (nodes hdr seq k)) noError h := by
  induction turns generalizing h seq p l cnt with
  | zero => omega
  | succ turns ih =>
    have hend := right_eq_tail_iff (k := k) hs hseq
    unfold sortPass
    rw [wp_bind]
    refine end_wp hs ?_
    rw [wp_ite]
    cases l with
    | nil =>
      rw [if_neg (by simp [right])]
      refine ⟨[], 0, by simp, ?_, .refl [], by simp [runs], by omega, fun x _ => .refl h x⟩
      rwa [← hseq, Function.update_eq_self]
    | cons x l =>
      rw [if_pos (mt hend.1 (List.cons_ne_nil x l)), wp_bind]
      refine end_wp hs ?_
      rw [wp_bind, right_cons]
      refine findEndOfRun_wp hs hseq (by simp at hf; omega) ?_
      have hrun := InOrder.firstRun hw
      obtain ⟨hone, hruns⟩ := runs_firstRun less x l
      have happ := firstRun_append less x l
      generalize (firstRun less x l).1 = r at *
      generalize (firstRun less x l).2 = s at *
      subst happ
      have hseq' : seq k = (p ++ x :: r) ++ s := by simp [hseq]
      rw [wp_bind]
      refine end_wp hs ?_
      rw [wp_ite]
      cases s with
      | nil =>
        -- the last run has none to be merged with
        rw [if_pos (by simp [right]), List.append_nil]
        refine ⟨x :: r, 1, rfl, ?_, .refl _, by omega, by omega, fun z _ => .refl h z⟩
        rw [List.append_nil] at hseq
        rwa [← hseq, Function.update_eq_self]
      | cons y s =>
        have hwy : StrictWeak less (y :: s) := hw.mono fun z hz => by simp at hz ⊢; tauto
        rw [if_neg (mt (right_eq_tail_iff hs hseq').1 (List.cons_ne_nil y s)), wp_bind]
        refine end_wp hs ?_
        rw [wp_bind, right_cons]
        simp only [List.length_append, List.length_cons] at hf ht
        refine findEndOfRun_wp hs hseq' (by omega) ?_
        have hrun' := InOrder.firstRun hwy
        obtain ⟨-, hruns'⟩ := runs_firstRun less y s
        have happ := firstRun_append less y s
        generalize (firstRun less y s).1 = r' at *
        generalize (firstRun less y s).2 = s' at *
        subst happ
        rw [List.length_append] at hf ht
        have hseqm : seq k = p ++ ((x :: r) ++ ((y :: r') ++ s')) := by simp [hseq]
        rw [wp_bind]
        refine wp_mono (inplaceMerge_wp hs hseqm hrun hrun' (by simp; omega)) ?_ fun _ _ h => h
        rintro - h' ⟨hs', hf'⟩
        have hwm : StrictWeak less ((x :: r) ++ (y :: r')) := hw.mono fun z hz => by simp at hz ⊢; tauto
        have hmerge := rearranged_merge hrun hwm
        have hone' : runs less (merged less (x :: r) (y :: r')) ≤ 1 :=
          (runs_le_one_iff (hwm.mono hmerge.perm.subset)).2 (inOrder_merge hrun hrun' hwm)
        have hperm : (p ++ (merged less (x :: r) (y :: r') ++ s')).Perm (seq k) := by
          rw [hseqm, ← List.append_assoc (x :: r)]
          exact (hmerge.perm.append_right s').append_left p
        have hws : StrictWeak less s' := hwy.mono fun z hz => by simp at hz ⊢; tauto
        have hrest := ih (p := p ++ merged less (x :: r) (y :: r')) (l := s') hs' (by simp) hws (by omega) (by omega) (cnt + 1)
        refine wp_mono hrest ?_ fun _ _ h => h
        rintro cnt' h'' ⟨l', t, rfl, hs'', hl', hle, hlt, hf''⟩
        refine ⟨merged less (x :: r) (y :: r') ++ l', t + 1, ?_, ?_, ?_, ?_, by omega, Frame.perm hperm hf' hf''⟩
        · rw [UInt64.ofNat_add, UInt64.add_comm (UInt64.ofNat t), UInt64.add_assoc]
          rfl
        · rwa [Function.update_idem, List.append_assoc] at hs''
        · simpa using hmerge.append hl'
        · have := runs_append_le less (merged less (x :: r) (y :: r')) l'
          omega

theorem listSortLoop_wp (hs : Lists h hdr seq) (hw : StrictWeak less (seq k)) {fuel turns : Nat} (hf : (seq k).length < fuel)
    (ht : runs less (seq k) < turns) :
    wp (listSortLoop less fuel (hdr k) turns)
      (fun _ h' => ∃ l, Lists h' hdr (update seq k l) ∧ Rearranged less (seq k) l ∧ InOrder less l ∧ Frame h h' (nodes hdr seq k))
      noError h := by
  induction turns generalizing h seq with
  | zero => omega
  | succ turns ih =>
    unfold listSortLoop
    rw [wp_bind]
    refine begin_wp hs ?_
    rw [wp_bind]
    refine wp_mono (sortPass_wp (p := []) hs rfl hw hf hf 0) ?_ fun _ _ h => h
    rintro cnt h' ⟨l, t, rfl, hs', hl, hle, hlt, hf'⟩
    have hwl : StrictWeak less l := hw.mono hl.perm.subset
    have hcnt : (0 + UInt64.ofNat t > 1) ↔ 1 < t := by
      have hlen := length_lt (k := k) hs
      have hruns := runs_le_length less (seq k)
      rw [UInt64.zero_add, gt_iff_lt, UInt64.lt_iff_toNat_lt, UInt64.toNat_ofNat', Nat.mod_eq_of_lt (by omega)]
      rfl
    rw [wp_ite]
    by_cases hmore : 1 < t
    · rw [if_pos (hcnt.2 hmore)]
      have hrest := @ih h' (update seq k l) hs' (by rwa [Function.update_self]) (by rwa [Function.update_self, hl.perm.length_eq])
        (by rw [Function.update_self]; omega)
      rw [Function.update_self] at hrest
      refine wp_mono hrest ?_ fun _ _ h => h
      rintro - h'' ⟨l', hs'', hl', ho, hf''⟩
      rw [Function.update_idem] at hs''
      exact ⟨l', hs'', hl.trans hl', ho, Frame.perm hl.perm hf' hf''⟩
    · rw [if_neg (mt hcnt.1 hmore)]
      exact ⟨l, hs', hl, (runs_le_one_iff hwl).1 (by omega), hf'⟩

theorem sort_lists (hs : Lists h hdr seq) (hw : StrictWeak less (seq k)) {fuel : Nat} (hf : (seq k).length < fuel) :
    wp (listSort less fuel (hdr k))
      (fun _ h' => ∃ l, Lists h' hdr (update seq k l) ∧ Rearranged less (seq k) l ∧ InOrder less l ∧ Frame h h' (nodes hdr seq k))
      noError h := by
  unfold listSort
  rw [wp_bind, wp_ASSERT (decide_eq_true (hdr_ne_null hs)), wp_bind]
  refine wp_mono (listSortLoop_wp hs hw hf (by have := runs_le_length less (seq k); omega)) ?_ fun _ _ h => h
  rintro - h' ⟨l, hs', hl, ho, hf'⟩
  rw [wp_bind]
  refine begin_wp (k := k) hs' ?_
  rw [wp_bind]
  refine end_wp hs' ?_
  have hsorted {Q : Bool → Nodes Ptr → Prop} := isSorted_wp (k := k) (p := []) (r := l) (s := []) (E := noError) (Q := Q) hs' (by simp) ho
    (by rwa [hl.perm.length_eq] : l.length < fuel)
  rw [List.append_nil] at hsorted
  rw [wp_bind, Function.update_self]
  refine hsorted ?_
  rw [wp_ASSERT rfl]
  exact ⟨l, hs', hl, ho, hf'⟩

end ListM

open ListM

variable {ι : Type} [DecidableEq ι] {h : Nodes Ptr} {hdr : ι → Ptr} {seq : ι → List Ptr} {less : Ptr → Ptr → Bool}

/-- `list_sort` returns; the list holds its elements in order then, and elements that are equivalent stay in their order.  Nothing has
changed outside of the list. -/
theorem list_sort_sorts (hs : Lists h hdr seq) {k : ι} (hw : StrictWeak less (seq k)) :
    ∃ l h', (∃ n, ∀ fuel ≥ n, listSort less fuel (hdr k) h = .ok () h') ∧ Lists h' hdr (update seq k l) ∧ l.Perm (seq k) ∧
      InOrder less l ∧ (∀ a b, less a b = false → less b a = false → [a, b].Sublist (seq k) → [a, b].Sublist l) ∧
      ∀ x ∉ nodes hdr seq k, Nodes.Agree h h' x := by
  obtain ⟨-, -, -, l, -, hl, ho, -⟩ := wp_false (sort_lists hs hw (Nat.lt_succ_self _))
  have hnd : (seq k).Nodup := (List.nodup_append.1 (List.nodup_cons.1 (hs.nodup k)).2).1
  have hends : ∀ fuel ≥ (seq k).length + 1,
      wp (listSort less fuel (hdr k)) (fun _ h' => Lists h' hdr (update seq k l) ∧ Frame h h' (nodes hdr seq k)) noError h := by
    intro fuel hfuel
    refine wp_mono (sort_lists hs hw (by omega)) ?_ fun _ _ h => h
    rintro - h' ⟨l', hs', hl', ho', hf'⟩
    rw [hl.unique hnd ho hl' ho']
    exact ⟨hs', hf'⟩
  obtain ⟨h', hrun, hs', hf'⟩ := ends_of_wp (fun x hx => ⟨k, (mem_nodes_of_perm hl.perm).2 hx⟩) hends
  exact ⟨l, h', hrun, hs', hl.perm, ho, fun a b _ hba => hl.keeps a b hba, hf'⟩

/-- The elements with the larger addresses first. -/
theorem strictWeak_above (l : List Ptr) : StrictWeak (fun a b : Ptr => decide (b < a)) l := by
  constructor
  · intro a _
    simp
  · intro a _ b _ c _ hba hcb
    rw [decide_eq_true_eq, UInt64.lt_iff_toNat_lt] at *
    omega
  · intro a _ b _ c _ hba hab hcb hbc
    rw [decide_eq_false_iff_not, UInt64.lt_iff_toNat_lt] at *
    rw [decide_eq_false_iff_not, UInt64.lt_iff_toNat_lt]
    omega

/-- Two elements, which change places. -/
theorem list_sort_sorts_twoLists : ∃ l h', (∃ n, ∀ fuel ≥ n, listSort (fun a b => decide (b < a)) fuel 1000 twoLists = .ok () h') ∧
    Lists h' (fun k : Fin 2 => if k = 0 then 1000 else 2000) (update (fun k => if k = 0 then [100, 200] else [300]) 0 l) ∧
    l.Perm [100, 200] ∧ InOrder (fun a b : Ptr => decide (b < a)) l := by
  obtain ⟨l, h', hrun, hs, hperm, ho, -⟩ := list_sort_sorts twoLists_lists (k := 0) (strictWeak_above [100, 200])
  exact ⟨l, h', hrun, hs, hperm, ho⟩

end Xv6
