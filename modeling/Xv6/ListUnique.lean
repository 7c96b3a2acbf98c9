import Xv6.ListSort

/-!
# `list_unique`, `list_insert_ordered`, `list_max` and `list_min`

`list_unique` stands at the element that it kept last, and takes the one behind it out of the list as long as the two are equivalent;
what it takes out goes to the end of another list, if there is one.  `list_insert_ordered` looks for the first element that is greater
than the new one.  `list_max` and `list_min` find the first of the greatest and of the least elements (`list_max_min`).
-/

namespace Xv6

open Function (update)

namespace ListM

variable {ι : Type} {h : Nodes Ptr} {hdr : ι → Ptr} {seq : ι → List Ptr} {p b l : List Ptr} {k : ι} {e y : Ptr}
  {less : Ptr → Ptr → Bool}

theorem next_run (hs : Lists h hdr seq) (hseq : seq k = p ++ e :: l) : listNext e h = .ok (right hdr k l) h := by
  obtain ⟨x, h', hrun, rfl, rfl⟩ := wp_false (next_wp (Q := fun x h' => x = right hdr k l ∧ h' = h) hs hseq ⟨rfl, rfl⟩)
  exact hrun

theorem end_run (hs : Lists h hdr seq) : listEnd (hdr k) h = .ok (tailOf (hdr k)) h := by
  obtain ⟨x, h', hrun, rfl, rfl⟩ := wp_false (end_wp (k := k) (Q := fun x h' => x = tailOf (hdr k) ∧ h' = h) hs ⟨rfl, rfl⟩)
  exact hrun

/-! ### `list_insert_ordered` -/

theorem insertOrderedLoop_wp (hs : Lists h hdr seq) (hseq : seq k = p ++ b) {fuel : Nat} (hf : b.length < fuel)
    {Q : Ptr → Nodes Ptr → Prop} {E : String → Nodes Ptr → Prop} (hQ : Q (right hdr k (b.dropWhile fun a => !less e a)) h) :
    wp (insertOrderedLoop less (hdr k) e fuel (right hdr k b)) Q E h := by
  induction b generalizing p fuel with
  | nil =>
    obtain ⟨fuel, rfl⟩ : ∃ n, fuel = n + 1 := ⟨fuel - 1, by omega⟩
    unfold insertOrderedLoop
    rw [wp_bind]
    refine end_wp hs ?_
    rw [wp_ite, if_neg (by simp [right])]
    exact hQ
  | cons x b ih =>
    obtain ⟨fuel, rfl⟩ : ∃ n, fuel = n + 1 := ⟨fuel - 1, by omega⟩
    unfold insertOrderedLoop
    rw [wp_bind]
    refine end_wp hs ?_
    rw [wp_ite, if_pos (mt (right_eq_tail_iff hs hseq).1 (List.cons_ne_nil x b)), wp_ite, right_cons]
    cases hx : less e x with
    | true =>
      rw [List.dropWhile_cons_of_neg (by simp [hx])] at hQ
      rw [if_pos rfl]
      exact hQ
    | false =>
      rw [List.dropWhile_cons_of_pos (by simp [hx])] at hQ
      rw [if_neg (by simp), wp_bind]
      exact next_wp hs hseq (ih (p := p ++ [x]) (by simp [hseq]) (by simp at hf; omega) hQ)

/-! ### `list_max` and `list_min` -/

theorem bestLoop_wp {better : Ptr → Ptr → Bool} (hs : Lists h hdr seq) (hseq : seq k = p ++ b) {fuel : Nat} (hf : b.length < fuel)
    {Q : Ptr → Nodes Ptr → Prop} {E : String → Nodes Ptr → Prop} (hQ : Q (b.foldl (fun x y => if better y x then y else x) e) h) :
    wp (bestLoop better (hdr k) fuel e (right hdr k b)) Q E h := by
  induction b generalizing p e fuel with
  | nil =>
    obtain ⟨fuel, rfl⟩ : ∃ n, fuel = n + 1 := ⟨fuel - 1, by omega⟩
    unfold bestLoop
    rw [wp_bind]
    refine end_wp hs ?_
    rw [wp_ite, if_neg (by simp [right])]
    exact hQ
  | cons x b ih =>
    obtain ⟨fuel, rfl⟩ : ∃ n, fuel = n + 1 := ⟨fuel - 1, by omega⟩
    unfold bestLoop
    rw [wp_bind]
    refine end_wp hs ?_
    rw [wp_ite, if_pos (mt (right_eq_tail_iff hs hseq).1 (List.cons_ne_nil x b)), right_cons, wp_bind]
    exact next_wp hs hseq (ih (p := p ++ [x]) (by simp [hseq]) (by simp at hf; omega) hQ)

/-- The beginning of both functions. -/
theorem best_run {better : Ptr → Ptr → Bool} (hs : Lists h hdr seq) (hw : StrictWeak better (seq k)) :
    ∃ r, (∀ fuel > (seq k).length, wp (do
        let best ← listBegin (hdr k)
        if best ≠ (← listEnd (hdr k)) then bestLoop better (hdr k) fuel best (← listNext best) else return best)
        (fun x h' => x = r ∧ h' = h) noError h) ∧
      (seq k = [] → r = tailOf (hdr k)) ∧
      (seq k ≠ [] → ∃ p q, seq k = p ++ r :: q ∧ (∀ a ∈ p, better r a = true) ∧ ∀ a ∈ q, better a r = false) := by
  cases hl : seq k with
  | nil =>
    refine ⟨tailOf (hdr k), fun fuel _ => ?_, fun _ => rfl, fun hc => (hc rfl).elim⟩
    rw [wp_bind]
    refine begin_wp (k := k) hs ?_
    rw [wp_bind, hl]
    refine end_wp hs ?_
    rw [wp_ite, if_neg (by simp [right])]
    exact ⟨rfl, rfl⟩
  | cons e l =>
    rw [hl] at hw
    refine ⟨l.foldl (fun x y => if better y x then y else x) e, fun fuel hfuel => ?_, fun hc => (List.cons_ne_nil e l hc).elim,
      fun _ => foldl_best hw (p := []) (q := []) rfl (by simp) (by simp)⟩
    rw [wp_bind]
    refine begin_wp (k := k) hs ?_
    rw [wp_bind, hl]
    refine end_wp hs ?_
    rw [wp_ite, if_pos (mt (right_eq_tail_iff (a := []) hs hl).1 (List.cons_ne_nil e l)), right_cons, wp_bind]
    refine next_wp (a := []) hs hl ?_
    exact bestLoop_wp (p := [e]) hs (by simp [hl]) (by simp at hfuel; omega) ⟨rfl, rfl⟩

variable [DecidableEq ι]

/-! ### Insertion -/

theorem insertOrdered_lists (hs : Lists h hdr seq) (he : Fresh hdr seq e) {fuel : Nat} (hf : (seq k).length < fuel) :
    wp (listInsertOrdered less fuel (hdr k) e)
      (fun _ h' => Lists h' hdr
        (update seq k ((seq k).takeWhile (fun a => !less e a) ++ e :: (seq k).dropWhile fun a => !less e a)) ∧
        Frame h h' (e :: nodes hdr seq k)) noError h := by
  unfold listInsertOrdered
  rw [wp_bind, wp_ASSERT (decide_eq_true (hdr_ne_null hs)), wp_bind, wp_ASSERT (decide_eq_true he.1), wp_bind]
  refine begin_wp hs ?_
  rw [wp_bind]
  exact insertOrderedLoop_wp (p := []) hs rfl hf (insert_lists hs he List.takeWhile_append_dropWhile.symm)

/-! ### `list_unique` -/

/-- The elements `r` go to the end of list `d`, if there is one. -/
def pushed (seq : ι → List Ptr) (dups : Option ι) (r : List Ptr) : ι → List Ptr :=
  match dups with
  | none => seq
  | some d => update seq d (seq d ++ r)

variable {dups : Option ι}

theorem pushed_nil (seq : ι → List Ptr) (dups : Option ι) : pushed seq dups [] = seq := by
  cases dups with
  | none => rfl
  | some d => rw [pushed, List.append_nil, Function.update_eq_self]

theorem pushed_of_ne (hd : ∀ d ∈ dups, d ≠ k) (r : List Ptr) : pushed seq dups r k = seq k := by
  cases dups with
  | none => rfl
  | some d => exact Function.update_of_ne (hd d rfl).symm ..

/-- What is dropped after `r` goes behind `r`. -/
theorem pushed_pushed (hd : ∀ d ∈ dups, d ≠ k) (l l' r r' : List Ptr) :
    pushed (update (pushed (update seq k l) dups r) k l') dups r' = pushed (update seq k l') dups (r ++ r') := by
  cases dups with
  | none => exact Function.update_idem ..
  | some d =>
    have hdk : d ≠ k := hd d rfl
    simp only [pushed, Function.update_of_ne hdk, Function.update_self]
    rw [Function.update_comm hdk, Function.update_idem, Function.update_idem, List.append_assoc]

/-- An element that is not in the lists any more. -/
theorem fresh_of_removed (hs : Lists h hdr seq) (hseq : seq k = p ++ e :: y :: l) : Fresh hdr (update seq k (p ++ e :: l)) y := by
  have hcut := hs.cut (j := k) (a := p ++ [e]) (r := [y]) (b := l) (by simp [hseq])
  rw [List.append_assoc, List.singleton_append] at hcut
  refine ⟨fun hy => hcut.looseNotNull (by simp [hy]), fun i hi => ?_⟩
  exact hcut.looseDisj i hi (List.mem_singleton_self y)

/-- One turn of the loop that takes an element out. -/
theorem drop_run (hs : Lists h hdr seq) (hseq : seq k = p ++ e :: y :: l) (hd : ∀ d ∈ dups, d ≠ k) (hey : ¬Apart less e y) :
    ∃ h', (∀ fuel, listUniqueLoop less (hdr k) (dups.elim NULL hdr) (fuel + 1) e h =
        listUniqueLoop less (hdr k) (dups.elim NULL hdr) fuel e h') ∧
      Lists h' hdr (pushed (update seq k (p ++ e :: l)) dups [y]) ∧
      Frame h h' (nodes hdr seq k ++ dups.elim [] (nodes hdr seq)) := by
  have hseq' : seq k = (p ++ [e]) ++ y :: l := by simp [hseq]
  have hnext := next_run hs hseq
  have hend := end_run (k := k) hs
  have hne : y ≠ tailOf (hdr k) := mt (right_eq_tail_iff hs hseq').1 (List.cons_ne_nil y l)
  obtain ⟨hey, hye⟩ : less e y = false ∧ less y e = false := by simpa [Apart] using hey
  obtain ⟨x, h₁, hremove, rfl, hs₁, hf₁⟩ := wp_false (remove_lists hs hseq')
  rw [List.append_assoc, List.singleton_append] at hs₁
  cases dups with
  | none =>
    refine ⟨h₁, fun fuel => ?_, hs₁, fun z hz => hf₁ z fun hc => hz (List.mem_append_left _ hc)⟩
    rw [listUniqueLoop]
    simp [bind, EStateM.bind, hnext, hend, right_cons, hne, hey, hye, hremove, Option.elim]
  | some d =>
    have hdk : d ≠ k := hd d rfl
    have hd0 : hdr d ≠ NULL := hdr_ne_null hs
    have hfresh := fresh_of_removed hs hseq
    obtain ⟨⟨⟩, h₂, hpush, hs₂, hf₂⟩ := wp_false (pushBack_lists (k := d) hs₁ hfresh)
    refine ⟨h₂, fun fuel => ?_, hs₂, fun z hz => ?_⟩
    · rw [listUniqueLoop]
      simp [bind, EStateM.bind, hnext, hend, right_cons, hne, hey, hye, hremove, Option.elim, hd0, hpush]
    · rw [List.mem_append, not_or] at hz
      refine (hf₁ z hz.1).trans (hf₂ z fun hc => ?_)
      rcases List.mem_cons.1 hc with rfl | hc
      · exact hz.1 (right_mem hseq')
      · rw [nodes, Nodes.Rows.row_update_of_ne _ _ hdk] at hc
        exact hz.2 hc

variable (less) in
/-- The loop at the element `e` that was kept last. -/
theorem uniqueLoop_run (hs : Lists h hdr seq) (hseq : seq k = p ++ e :: l) (hd : ∀ d ∈ dups, d ≠ k) :
    ∃ h', (∀ fuel > l.length, listUniqueLoop less (hdr k) (dups.elim NULL hdr) fuel e h = .ok () h') ∧
      Lists h' hdr (pushed (update seq k (p ++ l.destutter' (Apart less) e)) dups
        ((e :: l).filter (· ∉ l.destutter' (Apart less) e))) ∧
      Frame h h' (nodes hdr seq k ++ dups.elim [] (nodes hdr seq)) := by
  induction l generalizing h seq p e with
  | nil =>
    refine ⟨h, fun fuel hfuel => ?_, ?_, fun z _ => .refl h z⟩
    · obtain ⟨fuel, rfl⟩ : ∃ n, fuel = n + 1 := ⟨fuel - 1, by simp at hfuel; omega⟩
      rw [listUniqueLoop]
      simp [bind, EStateM.bind, next_run hs hseq, end_run (k := k) hs, right]
      rfl
    · rw [List.destutter'_nil, ← hseq, Function.update_eq_self]
      simpa [pushed_nil] using hs
  | cons y l ih =>
    have hnd : (e :: y :: l).Nodup := by
      have := (List.nodup_append.1 (List.nodup_cons.1 (hs.nodup k)).2).1
      rw [hseq] at this
      exact (List.nodup_append.1 this).2.1
    by_cases hey : Apart less e y
    · have hseq' : seq k = (p ++ [e]) ++ y :: l := by simp [hseq]
      have hne : y ≠ tailOf (hdr k) := mt (right_eq_tail_iff hs hseq').1 (List.cons_ne_nil y l)
      obtain ⟨h', hrun, hs', hf'⟩ := ih hs hseq'
      refine ⟨h', fun fuel hfuel => ?_, ?_, hf'⟩
      · obtain ⟨fuel, rfl⟩ : ∃ n, fuel = n + 1 := ⟨fuel - 1, by omega⟩
        have hkeep : ¬(less e y = false ∧ less y e = false) := by
          rcases hey with h | h <;> simp [h]
        rw [listUniqueLoop]
        simp only [bind, EStateM.bind, next_run hs hseq, end_run (k := k) hs, right_cons]
        rw [if_pos hne, if_neg (by simpa using hkeep)]
        exact hrun fuel (by simp at hfuel; omega)
      · rw [dropped_cons_of_apart hey hnd, List.destutter'_cons_pos _ hey]
        simpa using hs'
    · obtain ⟨h₁, hrun₁, hs₁, hf₁⟩ := drop_run hs hseq hd hey
      have hseq₁ : pushed (update seq k (p ++ e :: l)) dups [y] k = p ++ e :: l := by
        rw [pushed_of_ne hd, Function.update_self]
      obtain ⟨h', hrun, hs', hf'⟩ := ih hs₁ hseq₁
      refine ⟨h', fun fuel hfuel => ?_, ?_, fun z hz => (hf₁ z hz).trans (hf' z fun hc => hz ?_)⟩
      · obtain ⟨fuel, rfl⟩ : ∃ n, fuel = n + 1 := ⟨fuel - 1, by omega⟩
        rw [hrun₁]
        exact hrun fuel (by simp at hfuel; omega)
      · rw [dropped_cons_of_not hey hnd, List.destutter'_cons_neg _ hey]
        rwa [pushed_pushed hd] at hs'
      · -- the nodes of the two lists are the same ones
        have hyk : y ∈ nodes hdr seq k := right_mem (a := p ++ [e]) (b := y :: l) (by simp [hseq])
        rw [List.mem_append] at hc ⊢
        rcases hc with hc | hc
        · left
          rw [nodes, Nodes.row, hseq₁] at hc
          rw [nodes, Nodes.row, hseq]
          simp only [List.mem_cons, List.mem_append] at hc ⊢
          tauto
        · cases dups with
          | none => simp at hc
          | some d =>
            have hdk : d ≠ k := hd d rfl
            simp only [Option.elim, nodes, Nodes.row, pushed, Function.update_self, Function.update_of_ne hdk, List.mem_cons,
              List.mem_append, List.not_mem_nil, or_false] at hc ⊢
            rcases hc with hc | (hc | rfl) | hc
            · tauto
            · tauto
            · exact .inl (by simpa [nodes, Nodes.row] using hyk)
            · tauto

variable (less) in
theorem unique_run (hs : Lists h hdr seq) (hd : ∀ d ∈ dups, d ≠ k) :
    ∃ h', (∀ fuel > (seq k).length, listUnique less fuel (hdr k) (dups.elim NULL hdr) h = .ok () h') ∧
      Lists h' hdr (pushed (update seq k ((seq k).destutter (Apart less))) dups
        ((seq k).filter (· ∉ (seq k).destutter (Apart less)))) ∧
      Frame h h' (nodes hdr seq k ++ dups.elim [] (nodes hdr seq)) := by
  have hhdr : hdr k ≠ NULL := hdr_ne_null hs
  obtain ⟨b, h₀, hempty, rfl, rfl⟩ := wp_false (empty_wp (k := k) (Q := fun b h' => b = (seq k).isEmpty ∧ h' = h) hs ⟨rfl, rfl⟩)
  obtain ⟨x, h₀, hbegin, rfl, rfl⟩ :=
    wp_false (begin_wp (k := k) (Q := fun x h' => x = right hdr k (seq k) ∧ h' = h₀) hs ⟨rfl, rfl⟩)
  cases hl : seq k with
  | nil =>
    rw [hl] at hempty
    refine ⟨h₀, fun fuel _ => ?_, ?_, fun z _ => .refl h₀ z⟩
    · simp [listUnique, ASSERT, bind, EStateM.bind, hhdr, hempty, pure, EStateM.pure]
    · rw [List.destutter_nil, List.filter_nil, pushed_nil, ← hl, Function.update_eq_self]
      exact hs
  | cons e l =>
    rw [hl] at hempty hbegin
    obtain ⟨h', hrun, hs', hf'⟩ := uniqueLoop_run less (p := []) hs hl hd
    refine ⟨h', fun fuel hfuel => ?_, hs', hf'⟩
    have hloop := hrun fuel (by simp at hfuel; omega)
    simp [listUnique, ASSERT, bind, EStateM.bind, hhdr, hempty, hbegin, right_cons, pure, EStateM.pure, hloop]

end ListM

open ListM

variable {ι : Type} [DecidableEq ι] {h : Nodes Ptr} {hdr : ι → Ptr} {seq : ι → List Ptr} {k : ι} (less : Ptr → Ptr → Bool)

/-- `list_unique` keeps the first element and each one that is not equivalent to the one that was kept before it.  What it does not
keep goes to the end of the list `dups`, if there is one, in its order.  `list_insert_ordered` keeps a list in order, and puts the new
element behind those that are equivalent to it. -/
theorem list_unique_insertOrdered (hs : Lists h hdr seq) :
    (∀ dups : Option ι, (∀ d ∈ dups, d ≠ k) → ∃ kept dropped h',
      (∃ n, ∀ fuel ≥ n, listUnique less fuel (hdr k) (dups.elim NULL hdr) h = .ok () h') ∧
      Lists h' hdr (pushed (update seq k kept) dups dropped) ∧
      kept = (seq k).destutter (Apart less) ∧ kept.IsChain (Apart less) ∧
      dropped = (seq k).filter (· ∉ kept) ∧ (kept ++ dropped).Perm (seq k) ∧
      ∀ x, x ∉ nodes hdr seq k → (∀ d ∈ dups, x ∉ nodes hdr seq d) → Nodes.Agree h h' x) ∧
    (∀ e, Fresh hdr seq e → StrictWeak less (e :: seq k) → InOrder less (seq k) → ∃ p s h',
      (∃ n, ∀ fuel ≥ n, listInsertOrdered less fuel (hdr k) e h = .ok () h') ∧
      seq k = p ++ s ∧ Lists h' hdr (update seq k (p ++ e :: s)) ∧ InOrder less (p ++ e :: s) ∧
      (∀ x ∈ seq k, less e x = false → less x e = false → x ∈ p) ∧
      ∀ x, x ∉ nodes hdr seq k → x ≠ e → Nodes.Agree h h' x) := by
  have hnd : (seq k).Nodup := (List.nodup_append.1 (List.nodup_cons.1 (hs.nodup k)).2).1
  constructor
  · intro dups hd
    obtain ⟨h', hrun, hs', hf'⟩ := unique_run less hs hd
    refine ⟨_, _, h', ⟨_, fun fuel hfuel => hrun fuel (Nat.lt_of_succ_le hfuel)⟩, hs', rfl, List.isChain_destutter _ _, rfl,
      kept_append_dropped (List.destutter_sublist _ _) hnd, fun x hx hxd => hf' x fun hc => ?_⟩
    rcases List.mem_append.1 hc with hc | hc
    · exact hx hc
    · cases dups with
      | none => simp at hc
      | some d => exact hxd d rfl hc
  · intro e he hw ho
    have hsplit : seq k = (seq k).takeWhile (fun a => !less e a) ++ (seq k).dropWhile fun a => !less e a :=
      List.takeWhile_append_dropWhile.symm
    obtain ⟨hins, hbehind⟩ := inOrder_insert hw ho
    have hnodes : ∀ x ∈ e :: nodes hdr seq k, ∃ i, x ∈ nodes hdr
        (update seq k ((seq k).takeWhile (fun a => !less e a) ++ e :: (seq k).dropWhile fun a => !less e a)) i := by
      intro x hx
      refine ⟨k, ?_⟩
      rw [nodes, Nodes.row, hsplit] at hx
      rw [nodes, Nodes.Rows.row_update]
      simp only [List.mem_cons, List.mem_append] at hx ⊢
      tauto
    obtain ⟨h', hrun, hs', hf'⟩ := ends_of_wp (n := (seq k).length + 1) hnodes fun fuel hfuel =>
      insertOrdered_lists hs he (Nat.lt_of_succ_le hfuel)
    refine ⟨_, _, h', hrun, hsplit, hs', hins, fun x hx hex _ => hbehind x hx hex, fun x hx hxe => hf' x fun hc => ?_⟩
    rcases List.mem_cons.1 hc with hc | hc
    · exact hxe hc
    · exact hx hc

/-- All elements are equivalent: the second one of the first list goes to the other, and a new one goes to the end. -/
theorem list_unique_insertOrdered_twoLists :
    (∃ h', (∃ n, ∀ fuel ≥ n, listUnique (fun _ _ => false) fuel 1000 2000 twoLists = .ok () h') ∧
      Lists h' (fun k : Fin 2 => if k = 0 then 1000 else 2000) fun k => if k = 0 then [100] else [300, 200]) ∧
    ∃ p s, [100, 200] = p ++ s ∧ ∃ h', (∃ n, ∀ fuel ≥ n, listInsertOrdered (fun _ _ => false) fuel 1000 400 twoLists = .ok () h') ∧
      Lists h' (fun k : Fin 2 => if k = 0 then 1000 else 2000)
        (update (fun k => if k = 0 then [100, 200] else [300]) 0 (p ++ 400 :: s)) ∧ 100 ∈ p ∧ 200 ∈ p := by
  obtain ⟨hunique, hinsert⟩ := list_unique_insertOrdered (k := 0) (fun _ _ => false) twoLists_lists
  constructor
  · obtain ⟨kept, dropped, h', hrun, hs, rfl, -, rfl, -⟩ := hunique (some 1) (by decide)
    refine ⟨h', hrun, ?_⟩
    convert hs using 1
    funext k
    revert k
    decide
  · obtain ⟨p, s, h', hrun, hsplit, hs, -, hp, -⟩ := hinsert 400 ⟨by decide, by decide⟩
      ⟨fun _ _ => rfl, fun _ _ _ _ _ _ h => absurd h Bool.false_ne_true, fun _ _ _ _ _ _ _ _ _ _ => ⟨rfl, rfl⟩⟩ (by simp [InOrder])
    exact ⟨p, s, hsplit, h', hrun, hs, hp 100 (by decide) rfl rfl, hp 200 (by decide) rfl rfl⟩

omit [DecidableEq ι] in
/-- Of the elements that no other is better than, `list_max` and `list_min` return the first.  For an empty list it is the tail. -/
theorem list_max_min (hs : Lists h hdr seq) (hw : StrictWeak less (seq k)) : ∃ max min,
    (∃ n, ∀ fuel ≥ n, listMax less fuel (hdr k) h = .ok max h ∧ listMin less fuel (hdr k) h = .ok min h) ∧
    (seq k = [] → max = tailOf (hdr k) ∧ min = tailOf (hdr k)) ∧
    (seq k ≠ [] → (∃ p q, seq k = p ++ max :: q ∧ (∀ a ∈ p, less a max = true) ∧ ∀ a ∈ q, less max a = false) ∧
      ∃ p q, seq k = p ++ min :: q ∧ (∀ a ∈ p, less min a = true) ∧ ∀ a ∈ q, less a min = false) := by
  obtain ⟨max, hmax, htail, hfirst⟩ := best_run hs hw.flip
  obtain ⟨min, hmin, htail', hfirst'⟩ := best_run hs hw
  refine ⟨max, min, ⟨(seq k).length + 1, fun fuel hfuel => ⟨?_, ?_⟩⟩, fun hl => ⟨htail hl, htail' hl⟩,
    fun hl => ⟨hfirst hl, hfirst' hl⟩⟩
  · obtain ⟨x, h', hrun, rfl, rfl⟩ := wp_false (hmax fuel hfuel)
    exact hrun
  · obtain ⟨x, h', hrun, rfl, rfl⟩ := wp_false (hmin fuel hfuel)
    exact hrun

/-- The greater of two elements is the one at the lower address here. -/
theorem list_max_min_twoLists : ∃ max min,
    (∃ n, ∀ fuel ≥ n, listMax (fun a b => decide (b < a)) fuel 1000 twoLists = .ok max twoLists ∧
      listMin (fun a b => decide (b < a)) fuel 1000 twoLists = .ok min twoLists) ∧ max = 100 ∧ min = 200 := by
  obtain ⟨max, min, hrun, -, hne⟩ := list_max_min (k := 0) (fun a b => decide (b < a)) twoLists_lists
    (strictWeak_above [100, 200])
  obtain ⟨⟨p, q, hl, hp, -⟩, p', q', hl', -, hq'⟩ := hne (by simp)
  have hl : [100, 200] = p ++ max :: q := hl
  have hl' : [100, 200] = p' ++ min :: q' := hl'
  refine ⟨max, min, hrun, ?_, ?_⟩
  · rcases p with _ | ⟨a, _ | ⟨b, p⟩⟩
    · exact (List.cons.inj hl).1.symm
    · simp only [List.cons_append, List.nil_append, List.cons.injEq] at hl
      obtain ⟨rfl, rfl, -⟩ := hl
      exact absurd (hp 100 (by simp)) (by decide)
    · simp at hl
  · rcases p' with _ | ⟨a, _ | ⟨b, p'⟩⟩
    · simp only [List.nil_append, List.cons.injEq] at hl'
      obtain ⟨rfl, rfl⟩ := hl'
      exact absurd (hq' 200 (by simp)) (by decide)
    · simp only [List.cons_append, List.nil_append, List.cons.injEq] at hl'
      exact hl'.2.1.symm
    · simp at hl'

end Xv6
