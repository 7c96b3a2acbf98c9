import Xv6.ListOrder

/-!
# `list_reverse`

The loop exchanges the two links of one element after the other and goes on along the `prev` that was the `next`.  Half way the list
is none: its first nodes are linked backwards (`Nodes.flip`), and the neighbours on both sides do not know of each other.  The two
exchanges after the loop turn both ends around (`list_reverse_reverses`).
-/

namespace Xv6

open Function (update)

namespace ListM

variable {h : Nodes Ptr} {E : String → Nodes Ptr → Prop} {x y : Ptr}

theorem wp_listEnd {list : Ptr} (hl : list ≠ NULL) (Q : Ptr → Nodes Ptr → Prop) : wp (listEnd list) Q E h = Q (tailOf list) h := by
  unfold listEnd
  rw [wp_bind, wp_ASSERT (decide_eq_true hl)]
  rfl

theorem wp_swap_prev (hx : x ≠ NULL) (hy : y ≠ NULL) (Q : Unit → Nodes Ptr → Prop) :
    wp (swap (.prev x) (.next y)) Q E h = Q () ⟨update h.next y (h.prev x), update h.prev x (h.next y)⟩ := by
  simp only [swap, LinkField.get, LinkField.set, wp_bind]
  rw [wp_getPrev hx, wp_getNext hy, wp_setPrev hx, wp_setNext hy]

theorem wp_swap_next (hx : x ≠ NULL) (hy : y ≠ NULL) (Q : Unit → Nodes Ptr → Prop) :
    wp (swap (.next x) (.prev y)) Q E h = Q () ⟨update h.next x (h.prev y), update h.prev y (h.next x)⟩ := by
  simp only [swap, LinkField.get, LinkField.set, wp_bind]
  rw [wp_getNext hx, wp_getPrev hy, wp_setNext hx, wp_setPrev hy]

variable {ι : Type} {hdr : ι → Ptr} {seq : ι → List Ptr} {a b : List Ptr} {k : ι}

/-- One more element is turned around. -/
theorem flip_concat (h : Nodes Ptr) {a : List Ptr} {e : Ptr} (he : e ∉ a) :
    (⟨update (h.flip a).next e ((h.flip a).prev e), update (h.flip a).prev e ((h.flip a).next e)⟩ : Nodes Ptr) = h.flip (a ++ [e]) := by
  have hself := Nodes.agree_flip h he
  unfold Nodes.flip at hself ⊢
  rw [hself.1, hself.2]
  congr 1
  · funext x
    by_cases hx : x = e
    · simp [hx]
    · simp [hx]
  · funext x
    by_cases hx : x = e
    · simp [hx]
    · simp [hx]

/-- The loop at the element behind `a`, which is turned around already. -/
theorem reverseLoop_wp (hs : Lists h hdr seq) (hseq : seq k = a ++ b) {fuel : Nat} (hf : b.length < fuel)
    {Q : Unit → Nodes Ptr → Prop} (hQ : Q () (h.flip (seq k))) : wp (listReverseLoop (hdr k) fuel (right hdr k b)) Q E (h.flip a) := by
  induction fuel generalizing a b with
  | zero => omega
  | succ fuel ih =>
    unfold listReverseLoop
    rw [wp_bind, wp_listEnd (hdr_ne_null hs), wp_ite]
    cases b with
    | nil =>
      rw [if_neg (by simp [right])]
      rw [hseq, List.append_nil] at hQ
      exact hQ
    | cons e b =>
      have hseq' : seq k = (a ++ [e]) ++ b := by simp [hseq]
      have htail : right hdr k (e :: b) ≠ tailOf (hdr k) := mt (right_eq_tail_iff hs hseq).1 (List.cons_ne_nil e b)
      have hnd : (a ++ e :: b).Nodup := by
        have := (List.nodup_cons.1 (hs.nodup k)).2
        rw [hseq] at this
        exact (List.nodup_append.1 this).1
      have hea : e ∉ a := fun hea => (List.nodup_append.1 hnd).2.2 e hea e List.mem_cons_self rfl
      have he : e ≠ NULL := ne_null hs (right_mem hseq)
      have hn : h.next e = right hdr k b := by
        have := link_left hs hseq'
        rwa [left_append] at this
      have hprev : (h.flip (a ++ [e])).prev e = right hdr k b := by
        rw [← hn]
        exact if_pos (by simp)
      rw [if_pos htail, right_cons, wp_bind, wp_swap_prev he he, flip_concat h hea, wp_bind, wp_getPrev he, hprev]
      exact ih hseq' (by simp at hf; omega)

/-- The two exchanges after the loop put the reversed elements between the head and the tail. -/
theorem turn_ends {hd tl : Ptr} {l : List Ptr} {f z : Ptr} (hhd : hd ∉ l) (htl : tl ∉ l) (hf : f ∈ l) (hz : z ∈ l) :
    (⟨update (update (h.flip l).next hd z) f tl, update (update (h.flip l).prev tl f) z hd⟩ : Nodes Ptr) =
      (((h.join hd tl).flip l).join hd z).join f tl := by
  have hfh : f ≠ hd := ne_of_mem_of_not_mem hf hhd
  have hzt' : z ≠ tl := ne_of_mem_of_not_mem hz htl
  rw [Nodes.join_join _ hfh.symm]
  congr 1
  · rw [Function.update_comm hfh.symm]
    funext x
    by_cases hx : x = hd
    · simp [hx]
    · by_cases hxf : x = f
      · simp [hxf, hfh]
      · by_cases hxl : x ∈ l
        · have hxt : x ≠ tl := ne_of_mem_of_not_mem hxl htl
          simp [hx, hxf, Nodes.flip, Nodes.join, hxl, hxt]
        · simp [hx, hxf, Nodes.flip, Nodes.join, hxl]
  · rw [Function.update_comm hzt'.symm]
    funext x
    by_cases hx : x = tl
    · simp [hx]
    · by_cases hxz : x = z
      · simp [hxz, hzt']
      · by_cases hxl : x ∈ l
        · have hxh : x ≠ hd := ne_of_mem_of_not_mem hxl hhd
          simp [hx, hxz, Nodes.flip, Nodes.join, hxl, hxh]
        · simp [hx, hxz, Nodes.flip, Nodes.join, hxl]

variable [DecidableEq ι]

theorem reverse_lists (hs : Lists h hdr seq) {fuel : Nat} (hf : (seq k).length < fuel) :
    wp (listReverse fuel (hdr k)) (fun _ h' => Lists h' hdr (update seq k (seq k).reverse) ∧ Frame h h' (nodes hdr seq k))
      noError h := by
  unfold listReverse
  rw [wp_bind]
  refine empty_wp hs ?_
  rw [wp_ite]
  cases hl : seq k with
  | nil =>
    rw [if_neg (by simp), List.reverse_nil, ← hl, Function.update_eq_self]
    exact ⟨hs, fun x _ => .refl h x⟩
  | cons f l₁ =>
    obtain ⟨l₂, z, hz⟩ : ∃ l₂ z, seq k = l₂ ++ [z] :=
      ⟨(seq k).dropLast, (seq k).getLast (by simp [hl]), (List.dropLast_append_getLast _).symm⟩
    rw [← hl, if_pos (by simp [hl])]
    have hnd := hs.nodup k
    rw [Nodes.row] at hnd
    have hhd : headOf (hdr k) ∉ seq k := fun hc => (List.nodup_cons.1 hnd).1 (List.mem_append_left _ hc)
    have htl : tailOf (hdr k) ∉ seq k := fun hc =>
      (List.nodup_append.1 (List.nodup_cons.1 hnd).2).2.2 _ hc _ (List.mem_singleton_self _) rfl
    have hfm : f ∈ seq k := by simp [hl]
    have hzm : z ∈ seq k := by simp [hz]
    have hmem : ∀ e ∈ seq k, e ∈ nodes hdr seq k := fun e he => List.mem_cons_of_mem _ (List.mem_append_left _ he)
    have hhdm : headOf (hdr k) ∈ nodes hdr seq k := List.mem_cons_self
    have htlm : tailOf (hdr k) ∈ nodes hdr seq k := List.mem_cons_of_mem _ (List.mem_append_right _ (List.mem_singleton_self _))
    -- the links at both ends, before the loop and after it
    have hhf : h.next (headOf (hdr k)) = f := by
      have := link_left (a := []) hs (k := k) rfl
      rwa [hl] at this
    have htz : h.prev (tailOf (hdr k)) = z := by
      have := link_right (b := []) hs (hz.trans (List.append_nil _).symm)
      rwa [left_append] at this
    have hfp : h.prev f = headOf (hdr k) := by
      have := link_right (a := []) hs (k := k) rfl
      rwa [hl, right_cons] at this
    have hzn : h.next z = tailOf (hdr k) := by
      have := link_left (b := []) hs (hz.trans (List.append_nil _).symm)
      rwa [left_append] at this
    have hhd0 : headOf (hdr k) ≠ NULL := ne_null hs hhdm
    have htl0 : tailOf (hdr k) ≠ NULL := ne_null hs htlm
    have hf0 : f ≠ NULL := ne_null hs (hmem f hfm)
    have hz0 : z ≠ NULL := ne_null hs (hmem z hzm)
    have hzt : z ≠ tailOf (hdr k) := ne_of_mem_of_not_mem hzm htl
    have hfh : f ≠ headOf (hdr k) := ne_of_mem_of_not_mem hfm hhd
    rw [wp_bind]
    refine begin_wp hs ?_
    rw [wp_bind]
    have hloop {Q : Unit → Nodes Ptr → Prop} := reverseLoop_wp (Q := Q) (E := noError) (a := []) hs rfl hf
    rw [Nodes.flip_nil] at hloop
    refine hloop ?_
    obtain ⟨hhd', -⟩ := Nodes.agree_flip h hhd
    obtain ⟨-, htl'⟩ := Nodes.agree_flip h htl
    have hzp' : (h.flip (seq k)).prev z = tailOf (hdr k) := (if_pos hzm).trans hzn
    have hfn' : (h.flip (seq k)).next f = headOf (hdr k) := (if_pos hfm).trans hfp
    rw [wp_bind, wp_swap_next hhd0 htl0, wp_bind, wp_getNext hhd0, wp_bind, wp_getPrev htl0]
    dsimp only
    rw [hhd', hhf, htl', htz, Function.update_self, Function.update_self, wp_swap_prev hz0 hf0]
    dsimp only
    rw [Function.update_of_ne hzt, Function.update_of_ne hfh, hzp', hfn', turn_ends hhd htl hfm hzm]
    constructor
    · have hcut := (hs.cut (a := []) (r := seq k) (b := []) (j := k) (by simp)).flip
      have hpaste := hcut.paste (a := []) (b := []) (j := k) (f := z) (l := f)
        (show (seq k).reverse = z :: l₂.reverse by simp [hz]) (show (seq k).reverse = l₁.reverse ++ [f] by simp [hl]) (by simp)
      rwa [Function.update_idem, List.nil_append, List.append_nil] at hpaste
    · intro x hx
      have hxs : x ∉ seq k := fun hc => hx (hmem x hc)
      have h1 := frame_join (h := h) hhdm htlm x hx
      have h2 := Nodes.agree_flip (h.join (headOf (hdr k)) (tailOf (hdr k))) hxs
      have h3 := frame_join (h := (h.join (headOf (hdr k)) (tailOf (hdr k))).flip (seq k)) hhdm (hmem z hzm) x hx
      exact ((h1.trans h2).trans h3).trans (frame_join (hmem f hfm) htlm x hx)

end ListM

open ListM

variable {ι : Type} [DecidableEq ι] {h : Nodes Ptr} {hdr : ι → Ptr} {seq : ι → List Ptr}

/-- `list_reverse` ends, with the elements reversed and nothing changed outside of the list. -/
private theorem reverse_ends (hs : Lists h hdr seq) (k : ι) :
    ∃ h', (∃ n, ∀ fuel ≥ n, listReverse fuel (hdr k) h = .ok () h') ∧ Lists h' hdr (update seq k (seq k).reverse) ∧
      Frame h h' (nodes hdr seq k) := by
  apply ends_of_wp (n := (seq k).length + 1)
  · intro x hx
    exact ⟨k, (mem_nodes_of_perm (List.reverse_perm _)).2 hx⟩
  · intro fuel hfuel
    exact reverse_lists hs (by omega)

/-- `list_reverse` returns and reverses the elements; nothing has changed outside of the list.  Called again, it leaves the heap as it
was. -/
theorem list_reverse_reverses (hs : Lists h hdr seq) (k : ι) :
    ∃ h', (∃ n, ∀ fuel ≥ n, listReverse fuel (hdr k) h = .ok () h') ∧ Lists h' hdr (update seq k (seq k).reverse) ∧
      (∀ x ∉ nodes hdr seq k, Nodes.Agree h h' x) ∧ ∃ n, ∀ fuel ≥ n, listReverse fuel (hdr k) h' = .ok () h := by
  obtain ⟨h', hrun, hs', hf⟩ := reverse_ends hs k
  obtain ⟨h'', hrun', hs'', hf'⟩ := reverse_ends hs' k
  rw [Function.update_idem, Function.update_self, List.reverse_reverse, Function.update_eq_self] at hs''
  have hback : h'' = h := by
    apply lists_unique hs hs''
    intro x hx
    exact (hf x (hx k)).trans (hf' x (mt (mem_nodes_of_perm (List.reverse_perm _)).1 (hx k)))
  exact ⟨h', hrun, hs', hf, hback ▸ hrun'⟩

/-- The first of two lists. -/
theorem list_reverse_reverses_twoLists : ∃ h', (∃ n, ∀ fuel ≥ n, listReverse fuel 1000 twoLists = .ok () h') ∧
    Lists h' (fun k : Fin 2 => if k = 0 then 1000 else 2000) (fun k => if k = 0 then [200, 100] else [300]) ∧
    ∃ n, ∀ fuel ≥ n, listReverse fuel 1000 h' = .ok () twoLists := by
  obtain ⟨h', hrun, hs, -, hback⟩ := list_reverse_reverses twoLists_lists 0
  refine ⟨h', hrun, ?_, hback⟩
  convert hs using 1
  funext k
  revert k
  decide

end Xv6
