import Xv6.MemRes

/-!
# What the functions of `vm.c` hold and map

One rule for each function.  It says which pages the tree has afterwards, as what the process holds, and what is mapped, through
`PageTable.get`.  The rules are stated for the rest `F` of what the process holds, which they do not touch.
-/

namespace Xv6

open Res

namespace Mem

variable {α : Type} {F g : Multiset Res}

/-! ### `walk` -/

theorem child_false (t : PtPage (PtPage α)) (i : Fin 512) : child t i false = pure (t.ent i) := by
  unfold child
  cases t.ent i <;> rfl

theorem walk_false (t : PageTable) {va : Nat} (h : va < MAXVA) : walk t va false = pure (t.find va, t) := by
  unfold walk PageTable.find
  rw [if_neg (by omega), child_false, Code.pure_bind]
  cases h1 : t.ent (PX 2 va) with
  | none => rfl
  | some t1 =>
    simp only [child_false, Code.pure_bind, PtPage.set_same h1]
    cases h0 : t1.ent (PX 1 va) with
    | none => rfl
    | some t0 => simp only [PtPage.set_same h0, PtPage.set_same h1]

variable [KernelText]

theorem child_wp {t : PtPage (PtPage α)} {i : Fin 512} {Q : Option (PtPage α) → Multiset Res → Prop}
    (hold : ∀ c, t.ent i = some c → Q (some c) g)
    (hnew : ∀ page, t.ent i = none → Q (some (.empty page)) ({.page page} + g)) (hnone : t.ent i = none → Q none g) :
    wp (child t i true) Q g := by
  unfold child
  cases h : t.ent i with
  | some c => exact pure_wp (hold c h)
  | none =>
    simp only [if_true]
    rw [wp_bind]
    exact kalloc_wp (fun page _ => pure_wp (hnew page h)) (pure_wp (hnone h))

/-- `walk` with `alloc` only adds page-table pages. -/
theorem walk_wp {t : PageTable} {va : Nat} (h : va < MAXVA) {Q : Option (Option Pte) × PageTable → Multiset Res → Prop}
    (hQ : ∀ r (t' : PageTable), (∀ vb, t'.look vb = t.look vb) → (∀ e, r = some e → t'.find va = some e) →
      Q (r, t') (ofPages t'.tables + F)) : wp (walk t va true) Q (ofPages t.tables + F) := by
  have hadd : ∀ (t' : PageTable) {m : Multiset Page}, t'.tables = m + t.tables →
      ofPages t'.tables + F = ofPages m + (ofPages t.tables + F) := by
    intro t' m ht
    rw [ht, ofPages_add, add_assoc]
  unfold walk
  rw [if_neg (by omega), wp_bind]
  apply child_wp
  · intro t1 h1
    rw [wp_bind]
    apply child_wp
    · intro t0 h0
      simp only [PtPage.set_same h0, PtPage.set_same h1, wp_pure]
      refine hQ _ t (fun _ => rfl) fun e he => ?_
      rw [← Option.some.inj he]
      exact PageTable.find_eq_some.2 ⟨t1, t0, h1, h0, rfl⟩
    · intro page h0
      have ht := hadd (t.set (PX 2 va) (some (t1.set (PX 1 va) (some (.empty page))))) (m := {page})
        (PtPage.sum_set_add h1 (by rw [PtPage.sum_set_none h0, PtPage.sum_empty]))
      have hl : ∀ vb, PageTable.look (t.set (PX 2 va) (some (t1.set (PX 1 va) (some (.empty page))))) vb = t.look vb :=
        PageTable.look_set fun vb => by rw [h1, Option.elim_some, PageTable.lookIn_set fun k => by rw [h0]; rfl]
      rw [wp_pure, ← ofPages_singleton, ← ht]
      refine hQ _ _ hl fun e he => ?_
      rw [← Option.some.inj he]
      exact PageTable.find_eq_some.2 ⟨_, _, PtPage.set_self .., PtPage.set_self .., rfl⟩
    · intro h0
      rw [wp_pure, PtPage.set_same h1]
      exact hQ _ t (fun _ => rfl) fun e he => nomatch he
  · intro page h1
    rw [wp_bind]
    apply child_wp
    · intro t0 h0
      cases h0
    · intro page' h0
      have ht := hadd (t.set (PX 2 va) (some ((PtPage.empty page).set (PX 1 va) (some (.empty page')))))
        (m := {page'} + {page}) (by rw [PageTable.tables, PtPage.sum_set_none h1, PtPage.sum_set_none h0]; simp [PageTable.tables])
      have hl : ∀ vb, PageTable.look (t.set (PX 2 va) (some ((PtPage.empty page).set (PX 1 va) (some (.empty page'))))) vb = t.look vb :=
        PageTable.look_set fun vb => by rw [h1, PageTable.lookIn_set fun k => by rw [h0]; rfl]; rfl
      rw [wp_pure, ← add_assoc, ← ofPages_singleton, ← ofPages_singleton, ← ofPages_add, ← ht]
      refine hQ _ _ hl fun e he => ?_
      rw [← Option.some.inj he]
      exact PageTable.find_eq_some.2 ⟨_, _, PtPage.set_self .., PtPage.set_self .., rfl⟩
    · intro h0
      have ht := hadd (t.set (PX 2 va) (some (.empty page))) (m := {page})
        (by rw [PageTable.tables, PtPage.sum_set_none h1, PtPage.sum_empty]; rfl)
      rw [wp_pure, ← ofPages_singleton, ← ht]
      exact hQ _ _ (PageTable.look_set fun vb => by rw [h1]; rfl) fun e he => nomatch he
  · intro h1
    exact pure_wp (hQ none t (fun _ => rfl) fun e he => nomatch he)

/-! ### `mappages` and `uvmunmap` -/

omit [KernelText] in
theorem px_lt {i : Nat} (h : i * PGSIZE < MAXVA) : i < 2 ^ 27 := by
  simp only [PGSIZE, MAXVA] at h
  omega

omit [KernelText] in
theorem mappages_page (t : PageTable) (i : Nat) (pa : Page) (perm : Perm) :
    mappages t (i * PGSIZE) PGSIZE pa perm = mappagesLoop perm 0 (i * PGSIZE) pa t := by
  have h0 : PGROUNDDOWN (i * PGSIZE) = i * PGSIZE := by
    simp only [PGROUNDDOWN, PGSIZE]
    omega
  have h1 : PGROUNDDOWN (i * PGSIZE + PGSIZE - 1) = i * PGSIZE := by
    simp only [PGROUNDDOWN, PGSIZE]
    omega
  rw [mappages, if_neg (by decide), h0, h1, Nat.sub_self]
  rfl

/-- `mappages` of one page that is not mapped. -/
theorem mappages_wp {t : PageTable} {i : Nat} {pa : Page} {perm : Perm} (hi : i * PGSIZE < MAXVA) (hn : t.get i = none)
    {Q : Bool × PageTable → Multiset Res → Prop}
    (hok : ∀ t' : PageTable, (∀ j < 2 ^ 27, t'.get j = if j = i then some ⟨pa, perm⟩ else t.get j) →
      Q (true, t') (ofPages t'.tables + F))
    (hbad : ∀ t' : PageTable, (∀ j, t'.get j = t.get j) → Q (false, t') (ofPages t'.tables + F)) :
    wp (mappages t (i * PGSIZE) PGSIZE pa perm) Q (ofPages t.tables + F) := by
  rw [mappages_page]
  unfold mappagesLoop
  rw [wp_bind]
  apply walk_wp hi
  intro r t' hl hf
  match r with
  | none => exact pure_wp (hbad t' fun j => hl _)
  | some (some e) =>
    have := PageTable.look_of_find (hf _ rfl)
    rw [hl] at this
    exact absurd (hn.symm.trans this) (by simp)
  | some none =>
    have ht := hok (t'.setPte (i * PGSIZE) (some ⟨pa, perm⟩)) fun j hj => by
      rw [PageTable.get_setPte (px_lt hi) (hf _ rfl) _ hj, PageTable.get, hl]
      rfl
    rw [PageTable.tables_setPte] at ht
    exact pure_wp ht

/-- `uvmunmap` of mapped pages. -/
theorem uvmunmapLoop_wp {doFree : Bool} {Q : PageTable → Multiset Res → Prop} {n v : Nat} {t : PageTable}
    (hv : (v + n) * PGSIZE ≤ MAXVA) (hm : ∀ i < n, ∃ e, t.get (v + i) = some e ∧ e.perm ≠ {})
    (hQ : ∀ t' : PageTable, t'.tables = t.tables →
      (∀ j < 2 ^ 27, t'.get j = if v ≤ j ∧ j < v + n then none else t.get j) → Q t' F) :
    wp (uvmunmapLoop doFree n (v * PGSIZE) t) Q ((if doFree then ofPages (t.framesFrom v n) else 0) + F) := by
  induction n generalizing v t with
  | zero =>
    have h0 : ((if doFree then ofPages (t.framesFrom v 0) else 0) + F) = F := by
      cases doFree <;> simp [PageTable.framesFrom]
    rw [h0]
    exact pure_wp (hQ t rfl fun j _ => by rw [if_neg (by omega)])
  | succ n ih =>
    have hlt : v * PGSIZE < MAXVA := by
      rw [Nat.add_mul] at hv
      simp only [PGSIZE] at hv ⊢
      omega
    obtain ⟨e, he, hp⟩ := hm 0 (Nat.succ_pos n)
    have hfind : t.find (v * PGSIZE) = some (some e) := PageTable.find_of_look he
    -- the rest of the loop, on the tree without this page
    have hget : ∀ j < 2 ^ 27, (t.setPte (v * PGSIZE) none).get j = if j = v then none else t.get j := fun j hj =>
      PageTable.get_setPte (px_lt hlt) hfind none hj
    have hb : v + (n + 1) ≤ 2 ^ 27 := by
      simp only [PGSIZE, MAXVA] at hv
      omega
    have hrest : ∀ i < n, (t.setPte (v * PGSIZE) none).get (v + 1 + i) = t.get (v + 1 + i) := fun i hi => by
      rw [hget _ (by omega), if_neg (by omega)]
    have hassoc : ∀ i, v + 1 + i = v + (i + 1) := fun i => by omega
    have hwp := ih (v := v + 1) (t := t.setPte (v * PGSIZE) none) (hassoc n ▸ hv)
      (fun i hi => by
        rw [hrest i hi, hassoc]
        exact hm (i + 1) (by omega))
      (fun t' ht hj => hQ t' (by rw [ht, PageTable.tables_setPte]) fun j hj' => by
        rw [hj j hj', hget j hj']
        grind)
    rw [PageTable.framesFrom_congr hrest] at hwp
    have hfr : t.framesFrom v (n + 1) = {e.page} + t.framesFrom (v + 1) n := by
      rw [Nat.add_comm n 1, PageTable.framesFrom_add, PageTable.framesFrom_one t v he]
    unfold uvmunmapLoop
    rw [wp_bind, walk_false t hlt, wp_pure, hfind]
    simp only [if_neg hp]
    rw [Nat.add_mul, Nat.one_mul] at hwp
    cases doFree with
    | false =>
      simp only [Bool.false_eq_true, if_false] at hwp ⊢
      exact hwp
    | true =>
      simp only [if_true, wp_bind]
      refine kfree_wp (F := ofPages (t.framesFrom (v + 1) n) + F) ?_ hwp
      rw [hfr, ofPages_add, ofPages_singleton, add_assoc]

theorem uvmunmap_wp (doFree : Bool) {Q : PageTable → Multiset Res → Prop} {n v : Nat} {t : PageTable}
    (hv : (v + n) * PGSIZE ≤ MAXVA) (hm : ∀ i < n, ∃ e, t.get (v + i) = some e ∧ e.perm ≠ {})
    (hQ : ∀ t' : PageTable, t'.tables = t.tables →
      (∀ j < 2 ^ 27, t'.get j = if v ≤ j ∧ j < v + n then none else t.get j) → Q t' F) :
    wp (uvmunmap t (v * PGSIZE) n doFree) Q ((if doFree then ofPages (t.framesFrom v n) else 0) + F) := by
  rw [uvmunmap, if_neg (by simp)]
  exact uvmunmapLoop_wp hv hm hQ

/-! ### `freewalk` -/

theorem freewalkLoop_wp {f : α → Mem Unit} {t : PtPage α} {size : α → Multiset Page} {Q : Unit → Multiset Res → Prop}
    (hf : ∀ i c, t.ent i = some c → ∀ (Q : Unit → Multiset Res → Prop) F, Q () F → wp (f c) Q (ofPages (size c) + F))
    (hQ : Q () F) (is : List (Fin 512)) :
    wp (freewalkLoop f t is) Q (ofPages (is.map fun i => (t.ent i).elim 0 size).sum + F) := by
  induction is with
  | nil => simpa [freewalkLoop] using hQ
  | cons i is ih =>
    unfold freewalkLoop
    rw [List.map_cons, List.sum_cons]
    cases h : t.ent i with
    | none => simpa using ih
    | some c =>
      simp only [wp_bind]
      rw [Option.elim_some, ofPages_add, add_assoc]
      exact hf i c h _ _ ih

theorem freewalkPage_wp {f : α → Mem Unit} {t : PtPage α} {size : α → Multiset Page} {Q : Unit → Multiset Res → Prop}
    (hf : ∀ i c, t.ent i = some c → ∀ (Q : Unit → Multiset Res → Prop) F, Q () F → wp (f c) Q (ofPages (size c) + F))
    (hQ : Q () F) : wp (freewalkPage f t) Q (ofPages (t.sum size) + F) := by
  have hg : ofPages (t.sum size) + F =
      ofPages ((List.finRange 512).map fun i => (t.ent i).elim 0 size).sum + ({.page t.page} + F) := by
    rw [PtPage.sum, Fin.sum_univ_def, ofPages_add, ofPages_singleton, add_assoc, add_left_comm]
  unfold freewalkPage
  rw [wp_bind, hg]
  generalize List.finRange 512 = is
  exact freewalkLoop_wp hf (kfree_wp rfl hQ) is

/-- Without mappings the whole tree is freed. -/
theorem freewalk_wp {t : PageTable} {Q : Unit → Multiset Res → Prop} (h : ∀ j < 2 ^ 27, t.get j = none) (hQ : Q () F) :
    wp (freewalk t) Q (ofPages t.tables + F) := by
  rw [freewalk, PageTable.tables]
  apply freewalkPage_wp _ hQ
  intro a t1 h1 Q F hQ
  apply freewalkPage_wp _ hQ
  intro b t0 h0 Q F hQ
  apply freewalkPage_wp _ hQ
  intro c e he
  rw [PageTable.ent_of_get h h1 h0] at he
  cases he

end Mem

end Xv6
