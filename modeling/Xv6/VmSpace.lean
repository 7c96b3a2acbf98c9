import Xv6.VmSpec

/-!
# Address spaces grow, shrink and are copied

Every function that changes an address space keeps its `Shape`: `uvmalloc`, `uvmdealloc`, `uvmcopy`, `uvmclear`, `proc_pagetable`
and `proc_freepagetable`.  A step that fails leaves the shape as it was before the call.
-/

namespace Xv6

open Res

/-! ### Sizes and page numbers -/

theorem pgroundup_eq (sz : Nat) : PGROUNDUP sz = npages sz * PGSIZE := by
  simp only [npages, PGROUNDUP, PGSIZE]
  omega

theorem npages_eq {sz : Nat} (h : sz ≤ NPAGES * PGSIZE) : npages sz = (sz + PGSIZE - 1) / PGSIZE := by
  have hN : NPAGES * PGSIZE = 2 ^ 27 := by decide
  rw [hN] at h
  simp only [npages, PGROUNDUP, PGSIZE]
  omega

theorem npages_mul {n : Nat} (h : n ≤ NPAGES) : npages (n * PGSIZE) = n := by
  rw [npages_eq (Nat.mul_le_mul_right _ h)]
  simp only [PGSIZE]
  omega

theorem npages_le {sz : Nat} (h : sz ≤ NPAGES * PGSIZE) : npages sz ≤ NPAGES := by
  have hN : NPAGES = 32768 := by decide
  rw [npages_eq h]
  rw [hN] at h ⊢
  simp only [PGSIZE] at h ⊢
  omega

theorem npages_mono {m n : Nat} (hmn : m ≤ n) (h : n ≤ NPAGES * PGSIZE) : npages m ≤ npages n := by
  rw [npages_eq h, npages_eq (Nat.le_trans hmn h)]
  simp only [PGSIZE]
  omega

@[simp] theorem npages_zero : npages 0 = 0 := by decide

theorem npages_lt_tfpage {n : Nat} (h : n ≤ NPAGES) : n < TFPAGE := Nat.lt_of_le_of_lt h (by decide)

theorem page_lt_maxva {n : Nat} (h : n ≤ NPAGES) : n * PGSIZE < MAXVA :=
  Nat.lt_of_le_of_lt (Nat.mul_le_mul_right PGSIZE h) (by decide)

/-! ### Shapes -/

/-- What can be read is a leaf. -/
theorem Perm.ne_empty {perm : Perm} (h : perm.r = true) : perm ≠ {} := by
  rintro rfl
  cases h

/-- The pages from `m` to `n` are mapped with `perm`, all others as before. -/
def Grown (t t' : PageTable) (m n : Nat) (perm : Perm) : Prop :=
  ∀ j < 2 ^ 27, (m ≤ j ∧ j < n → ∃ page, t'.get j = some ⟨page, perm⟩) ∧ (¬(m ≤ j ∧ j < n) → t'.get j = t.get j)

namespace Shape

variable {t t' : PageTable} {m n : Nat} {trapframe : Page}

theorem lt_of_le (h : n ≤ NPAGES) {i : Nat} (hi : i < n) : i < 2 ^ 27 ∧ i ≠ TFPAGE ∧ i ≠ TRPAGE := by
  have h1 : NPAGES < TFPAGE := by decide
  have h2 : TFPAGE < TRPAGE := by decide
  have h3 : TRPAGE < 2 ^ 27 := by decide
  omega

variable [KernelText]

theorem congr (h : Shape t n trapframe) (hg : ∀ j < 2 ^ 27, t'.get j = t.get j) : Shape t' n trapframe where
  le := h.le
  user i hi := by
    rw [hg i (lt_of_le h.le hi).1]
    exact h.user i hi
  frame := by rw [hg _ (by decide), h.frame]
  tramp := by rw [hg _ (by decide), h.tramp]
  rest i hi hn hf hr := by rw [hg i hi, h.rest i hi hn hf hr]

theorem grow (h : Shape t m trapframe) {perm : Perm} (hp : perm.r = true) (hn : n ≤ NPAGES) (hmn : m ≤ n) (hg : Grown t t' m n perm) :
    Shape t' n trapframe where
  le := hn
  user i hi := by
    by_cases hm : m ≤ i
    · obtain ⟨page, he⟩ := (hg i (lt_of_le hn hi).1).1 ⟨hm, hi⟩
      exact ⟨_, he, hp⟩
    · rw [(hg i (lt_of_le hn hi).1).2 (by omega)]
      exact h.user i (by omega)
  frame := by
    have : n < TFPAGE := npages_lt_tfpage hn
    rw [(hg _ (by decide)).2 (by omega), h.frame]
  tramp := by
    have : n < TFPAGE := npages_lt_tfpage hn
    have : TFPAGE < TRPAGE := by decide
    rw [(hg _ (by decide)).2 (by omega), h.tramp]
  rest i hi hn hf hr := by rw [(hg i hi).2 (by omega), h.rest i hi (by omega) hf hr]

theorem shrink (h : Shape t m trapframe) (hnm : n ≤ m) (hg : ∀ j < 2 ^ 27, t'.get j = if n ≤ j ∧ j < m then none else t.get j) :
    Shape t' n trapframe where
  le := Nat.le_trans hnm h.le
  user i hi := by
    rw [hg i (lt_of_le h.le (by omega : i < m)).1, if_neg (by omega)]
    exact h.user i (by omega)
  frame := by
    have : m < TFPAGE := npages_lt_tfpage h.le
    rw [hg _ (by decide), if_neg (by omega), h.frame]
  tramp := by
    have : m < TFPAGE := npages_lt_tfpage h.le
    have : TFPAGE < TRPAGE := by decide
    rw [hg _ (by decide), if_neg (by omega), h.tramp]
  rest i hi hn hf hr := by
    rw [hg i hi]
    split
    · rfl
    · exact h.rest i hi (by omega) hf hr

theorem ne_none (h : Shape t n trapframe) {i : Nat} (hi : i < n) : t.get i ≠ none := by
  obtain ⟨e, he, -⟩ := h.user i hi
  rw [he]
  exact Option.some_ne_none e

/-- A user page is a leaf. -/
theorem leaf (h : Shape t n trapframe) {i : Nat} (hi : i < n) : ∃ e, t.get i = some e ∧ e.perm ≠ {} := by
  obtain ⟨e, he, hr⟩ := h.user i hi
  exact ⟨e, he, Perm.ne_empty hr⟩

theorem card_frames (h : Shape t n trapframe) : Multiset.card (t.frames n) = n := by
  refine PageTable.card_framesFrom fun i hi => ?_
  rw [Nat.zero_add]
  exact h.ne_none hi

end Shape

theorem PageTable.frames_congr {t t' : PageTable} {n : Nat} (h : ∀ i < n, t'.get i = t.get i) : t'.frames n = t.frames n :=
  framesFrom_congr fun i hi => by rw [Nat.zero_add, h i hi]

namespace Mem

variable [KernelText] {F : Multiset Res} {t : PageTable} {trapframe : Page}

/-! ### `uvmdealloc` and `uvmalloc` -/

theorem uvmdealloc_wp (oldsz newsz : Nat) (hsz : oldsz ≤ NPAGES * PGSIZE) (hs : Shape t (npages oldsz) trapframe)
    {Q : Nat × PageTable → Multiset Res → Prop}
    (hQ : ∀ t' : PageTable,
      (∀ j < 2 ^ 27, t'.get j = if npages (min newsz oldsz) ≤ j ∧ j < npages oldsz then none else t.get j) →
      Q (min newsz oldsz, t') (t'.space (npages (min newsz oldsz)) + F)) :
    wp (uvmdealloc t oldsz newsz) Q (t.space (npages oldsz) + F) := by
  have hsame : npages (min newsz oldsz) = npages oldsz → Q (min newsz oldsz, t) (t.space (npages oldsz) + F) := fun h => by
    have := hQ t fun j _ => by rw [h, if_neg (by omega)]
    rwa [h] at this
  unfold uvmdealloc
  by_cases hle : newsz ≥ oldsz
  · rw [if_pos hle]
    have := hsame (by rw [Nat.min_eq_right hle])
    rw [Nat.min_eq_right hle] at this
    exact pure_wp this
  · have hmin : min newsz oldsz = newsz := Nat.min_eq_left (by omega)
    rw [hmin] at hQ hsame
    have hmono : npages newsz ≤ npages oldsz := npages_mono (by omega) hsz
    rw [if_neg hle, pgroundup_eq, pgroundup_eq, ← Nat.mul_sub_right_distrib, Nat.mul_div_cancel _ (by decide)]
    by_cases hlt : npages newsz * PGSIZE < npages oldsz * PGSIZE
    · rw [if_pos hlt, wp_bind]
      obtain ⟨d, hd⟩ := Nat.exists_eq_add_of_le hmono
      have hspace : t.space (npages oldsz) + F =
          (if true then ofPages (t.framesFrom (npages newsz) d) else 0) + (t.space (npages newsz) + F) := by
        rw [if_pos rfl, hd, PageTable.space, PageTable.space, PageTable.frames_add, ofPages_add]
        ac_rfl
      rw [hspace, hd, Nat.add_sub_cancel_left]
      refine uvmunmap_wp _ ?_ ?_ ?_
      · rw [← hd]
        exact Nat.le_of_lt (page_lt_maxva hs.le)
      · intro i hi
        exact hs.leaf (by omega)
      · intro t' ht hg
        rw [← hd] at hg
        have := hQ t' hg
        rw [PageTable.space, ht, PageTable.frames_congr fun i hi => ?_] at this
        · exact pure_wp this
        · rw [hg i (Shape.lt_of_le hs.le (by omega : i < npages oldsz)).1, if_neg (by omega)]
    · have : npages newsz = npages oldsz := Nat.le_antisymm hmono (Nat.le_of_mul_le_mul_right (by omega) (by decide : 0 < PGSIZE))
      rw [if_neg hlt]
      exact pure_wp (hsame this)

omit [KernelText] in
/-- What one page more adds to an address space. -/
theorem space_succ {t t' : PageTable} {m : Nat} {page : Page} {perm : Perm} (hm : m < NPAGES)
    (hg : ∀ j < 2 ^ 27, t'.get j = if j = m then some ⟨page, perm⟩ else t.get j) :
    t'.space (m + 1) = ofPages t'.tables + ({.page page} + ofPages (t.frames m)) := by
  have hlt := (Shape.lt_of_le (Nat.le_refl _) hm).1
  have hm' : t'.get m = some ⟨page, perm⟩ := by rw [hg m hlt, if_pos rfl]
  have hfr : t'.frames m = t.frames m := PageTable.frames_congr fun i hi => by
    rw [hg i (by omega), if_neg (by omega)]
  rw [PageTable.space, PageTable.frames_add, PageTable.framesFrom_one _ _ hm', hfr, ofPages_add, ofPages_singleton,
    add_comm (ofPages (t.frames m))]

omit [KernelText] in
theorem space_congr {t t' : PageTable} {m : Nat} (hm : m ≤ NPAGES) (hg : ∀ j < 2 ^ 27, t'.get j = t.get j) :
    t'.space m = ofPages t'.tables + ofPages (t.frames m) := by
  rw [PageTable.space, PageTable.frames_congr fun i hi => hg i (Shape.lt_of_le hm hi).1]

/-- The page that `kalloc` returns is one more than the `m` that are mapped. -/
theorem lt_npages {m : Nat} (hs : Shape t m trapframe) (h : Multiset.card (pages (t.space m + F)) < NPAGES) : m < NPAGES := by
  simp only [PageTable.space, pages_add, pages_ofPages, Multiset.card_add, hs.card_frames] at h
  omega

theorem uvmallocLoop_wp {n newsz : Nat} {xperm : Perm} {Q : Nat × PageTable → Multiset Res → Prop} {cnt m : Nat} (hnm : n ≤ m)
    (hs : Shape t m trapframe)
    (hok : ∀ t', m + cnt ≤ NPAGES → Grown t t' m (m + cnt) { xperm with r := true, u := true } →
      Q (newsz, t') (t'.space (m + cnt) + F))
    (hbad : ∀ t' : PageTable, (∀ j < 2 ^ 27, t'.get j = if n ≤ j ∧ j < m then none else t.get j) → Q (0, t') (t'.space n + F)) :
    wp (uvmallocLoop (n * PGSIZE) newsz xperm cnt (m * PGSIZE) t) Q (t.space m + F) := by
  induction cnt generalizing t m with
  | zero => exact pure_wp (hok t hs.le fun j _ => ⟨fun h => by omega, fun _ => rfl⟩)
  | succ cnt ih =>
    have hmin : min (n * PGSIZE) (m * PGSIZE) = n * PGSIZE := Nat.min_eq_left (Nat.mul_le_mul_right _ hnm)
    -- both failures take away the pages that the loop has added
    have hdealloc : ∀ t' : PageTable, (∀ j < 2 ^ 27, t'.get j = t.get j) →
        wp (uvmdealloc t' (m * PGSIZE) (n * PGSIZE) >>= fun a => pure (0, a.2)) Q (t'.space m + F) := fun t' ht => by
      have hn := npages_mul (Nat.le_trans hnm hs.le)
      have hm := npages_mul hs.le
      have := uvmdealloc_wp (t := t') (F := F) (m * PGSIZE) (n * PGSIZE)
        (Q := fun a g => wp (pure (0, a.2)) Q g) (Nat.mul_le_mul_right _ hs.le) (by rw [hm]; exact hs.congr ht)
        (fun t'' h'' => by
          rw [hmin, hn, hm] at h''
          rw [hmin, hn]
          exact pure_wp (hbad t'' fun j hj => by rw [h'' j hj, ht j hj]))
      rw [hm] at this
      rw [wp_bind]
      exact this
    unfold uvmallocLoop
    rw [wp_bind]
    apply kalloc_wp
    · intro page hcard
      have hlt := lt_npages hs hcard
      have hnone : t.get m = none := hs.rest m (Shape.lt_of_le (Nat.le_refl _) hlt).1 (Nat.le_refl m)
        (Shape.lt_of_le (Nat.le_refl _) hlt).2.1 (Shape.lt_of_le (Nat.le_refl _) hlt).2.2
      have hhave : {.page page} + (t.space m + F) = ofPages t.tables + ({.page page} + ofPages (t.frames m) + F) := by
        rw [PageTable.space]
        ac_rfl
      rw [wp_bind, hhave]
      apply mappages_wp (page_lt_maxva (Nat.le_of_lt hlt)) hnone
      · intro t' hg
        have hgrown : Grown t t' m (m + 1) { xperm with r := true, u := true } := fun j hj => by
          rw [hg j hj]
          exact ⟨fun h => ⟨page, by rw [if_pos (by omega)]⟩, fun h => by rw [if_neg (by omega)]⟩
        have := ih (t := t') (m := m + 1) (by omega) (hs.grow rfl hlt (Nat.le_succ m) hgrown)
          (fun t'' hle hg' => by
            rw [Nat.add_right_comm] at hle hg' ⊢
            refine hok t'' hle fun j hj => ⟨fun h => ?_, fun h => ?_⟩
            · by_cases hjm : j = m
              · exact ⟨page, by rw [(hg' j hj).2 (by omega), hg j hj, if_pos hjm]⟩
              · exact (hg' j hj).1 (by omega)
            · rw [(hg' j hj).2 (by omega), (hgrown j hj).2 (by omega)])
          (fun t'' hg' => hbad t'' fun j hj => by
            rw [hg' j hj, hg j hj]
            by_cases hjm : j = m
            · rw [if_pos (by omega), if_neg (by omega), hjm, hnone]
            · simp only [if_neg hjm]
              congr 1
              simp only [eq_iff_iff, and_congr_right_iff]
              omega)
        rw [space_succ hlt hg] at this
        simp only [if_true]
        rw [← add_assoc]
        convert this using 2
        rw [Nat.add_mul, Nat.one_mul]
      · intro t' hg
        simp only [Bool.false_eq_true, if_false]
        rw [wp_bind]
        refine kfree_wp (F := t'.space m + F) ?_ (hdealloc t' fun j _ => hg j)
        rw [space_congr hs.le fun j _ => hg j]
        ac_rfl
    · exact hdealloc t fun _ _ => rfl

omit [KernelText] in
/-- The pages that `uvmalloc` adds bring the address space to its new size. -/
theorem npages_grown {oldsz newsz : Nat} (hsz : oldsz ≤ NPAGES * PGSIZE) (hle : oldsz ≤ newsz)
    (hn : npages oldsz + (newsz - npages oldsz * PGSIZE + PGSIZE - 1) / PGSIZE ≤ NPAGES) :
    newsz ≤ NPAGES * PGSIZE ∧
      npages newsz = npages oldsz + (newsz - npages oldsz * PGSIZE + PGSIZE - 1) / PGSIZE := by
  have hold := npages_eq hsz
  have hN : NPAGES = 32768 := by decide
  have hnew : newsz ≤ NPAGES * PGSIZE := by
    rw [hN] at hn ⊢
    simp only [PGSIZE] at hn hold ⊢
    omega
  refine ⟨hnew, ?_⟩
  rw [npages_eq hnew, hold]
  simp only [PGSIZE]
  omega

theorem uvmalloc_wp {oldsz newsz : Nat} {xperm : Perm} (hsz : oldsz ≤ NPAGES * PGSIZE) (hs : Shape t (npages oldsz) trapframe)
    {Q : Nat × PageTable → Multiset Res → Prop}
    (hok : ∀ t', max newsz oldsz ≤ NPAGES * PGSIZE →
      Grown t t' (npages oldsz) (npages (max newsz oldsz)) { xperm with r := true, u := true } →
      Q (max newsz oldsz, t') (t'.space (npages (max newsz oldsz)) + F))
    (hbad : ∀ t' : PageTable, (∀ j < 2 ^ 27, t'.get j = t.get j) → Q (0, t') (t'.space (npages oldsz) + F)) :
    wp (uvmalloc t oldsz newsz xperm) Q (t.space (npages oldsz) + F) := by
  unfold uvmalloc
  by_cases hlt : newsz < oldsz
  · rw [if_pos hlt]
    rw [Nat.max_eq_right (Nat.le_of_lt hlt)] at hok
    exact pure_wp (hok t hsz fun j _ => ⟨fun h => by omega, fun _ => rfl⟩)
  · rw [if_neg hlt, pgroundup_eq]
    rw [Nat.max_eq_left (by omega)] at hok
    apply uvmallocLoop_wp (Nat.le_refl _) hs
    · intro t' hn hg
      obtain ⟨hnew, he⟩ := npages_grown hsz (by omega) hn
      rw [← he] at hg ⊢
      exact hok t' hnew hg
    · intro t' hg
      exact hbad t' fun j hj => by rw [hg j hj, if_neg (by omega)]

/-! ### `uvmcopy` and `uvmclear` -/

/-- A copy that fails leaves the new address space empty. -/
theorem uvmcopyLoop_wp {old : PageTable} {N : Nat} {oldframe : Page} (ho : Shape old N oldframe)
    {Q : Bool × PageTable → Multiset Res → Prop} {cnt m : Nat} (hcnt : m + cnt = N) (hs : Shape t m trapframe)
    (hok : ∀ t', Shape t' N trapframe → Q (true, t') (t'.space N + F))
    (hbad : ∀ t', Shape t' 0 trapframe → Q (false, t') (t'.space 0 + F)) :
    wp (uvmcopyLoop old cnt (m * PGSIZE) t) Q (t.space m + F) := by
  induction cnt generalizing t m with
  | zero =>
    obtain rfl : m = N := hcnt
    exact pure_wp (hok t hs)
  | succ cnt ih =>
    have hunmap : ∀ t' : PageTable, (∀ j < 2 ^ 27, t'.get j = t.get j) →
        wp (do
          let new ← uvmunmap t' 0 (m * PGSIZE / PGSIZE) true
          pure (false, new)) Q (t'.space m + F) := fun t' ht => by
      have hs' := hs.congr ht
      have hspace : t'.space m + F = (if true then ofPages (t'.framesFrom 0 m) else 0) + (ofPages t'.tables + F) := by
        rw [if_pos rfl, PageTable.space, PageTable.frames]
        ac_rfl
      rw [wp_bind, Nat.mul_div_cancel _ (by decide), hspace, ← Nat.zero_mul PGSIZE]
      apply uvmunmap_wp _
      · rw [Nat.zero_add]
        exact Nat.le_of_lt (page_lt_maxva hs.le)
      · intro i hi
        rw [Nat.zero_add]
        exact hs'.leaf hi
      · intro t'' htab hg
        rw [Nat.zero_add] at hg
        have := hbad t'' (hs'.shrink (Nat.zero_le m) hg)
        rw [PageTable.space, htab] at this
        refine pure_wp ?_
        simpa [PageTable.frames, PageTable.framesFrom] using this
    have hmN : m < N := by omega
    obtain ⟨e, he, hr⟩ := ho.user m hmN
    unfold uvmcopyLoop
    rw [wp_bind, walk_false _ (page_lt_maxva (Nat.le_trans (Nat.le_of_lt hmN) ho.le)), wp_pure, PageTable.find_of_look he]
    simp only
    rw [wp_bind]
    apply kalloc_wp
    · intro page hcard
      have hlt := lt_npages hs hcard
      have hnone : t.get m = none := hs.rest m (Shape.lt_of_le (Nat.le_refl _) hlt).1 (Nat.le_refl m)
        (Shape.lt_of_le (Nat.le_refl _) hlt).2.1 (Shape.lt_of_le (Nat.le_refl _) hlt).2.2
      have hhave : {.page page} + (t.space m + F) = ofPages t.tables + ({.page page} + ofPages (t.frames m) + F) := by
        rw [PageTable.space]
        ac_rfl
      rw [wp_bind, hhave]
      apply mappages_wp (page_lt_maxva (Nat.le_of_lt hlt)) hnone
      · intro t' hg
        have hgrown : Grown t t' m (m + 1) e.perm := fun j hj => by
          rw [hg j hj]
          exact ⟨fun h => ⟨page, by rw [if_pos (by omega)]⟩, fun h => by rw [if_neg (by omega)]⟩
        have := ih (t := t') (m := m + 1) (by omega) (hs.grow hr hlt (Nat.le_succ m) hgrown)
        rw [space_succ hlt hg] at this
        simp only [if_true]
        rw [← add_assoc]
        convert this using 2
        rw [Nat.add_mul, Nat.one_mul]
      · intro t' hg
        simp only [Bool.false_eq_true, if_false]
        rw [wp_bind]
        refine kfree_wp (F := t'.space m + F) ?_ (hunmap t' fun j _ => hg j)
        rw [space_congr hs.le fun j _ => hg j]
        ac_rfl
    · exact hunmap t fun _ _ => rfl

theorem uvmcopy_wp {old : PageTable} {sz : Nat} {oldframe : Page} (hsz : sz ≤ NPAGES * PGSIZE) (ho : Shape old (npages sz) oldframe)
    (hs : Shape t 0 trapframe) {Q : Bool × PageTable → Multiset Res → Prop}
    (hok : ∀ t', Shape t' (npages sz) trapframe → Q (true, t') (t'.space (npages sz) + F))
    (hbad : ∀ t', Shape t' 0 trapframe → Q (false, t') (t'.space 0 + F)) :
    wp (uvmcopy old t sz) Q (t.space 0 + F) := by
  unfold uvmcopy
  rw [← Nat.zero_mul PGSIZE, ← npages_eq hsz]
  exact uvmcopyLoop_wp ho (Nat.zero_add _) hs hok hbad

theorem uvmclear_wp {n i : Nat} (hs : Shape t n trapframe) (hi : i < n) {Q : PageTable → Multiset Res → Prop}
    (hQ : ∀ t', Shape t' n trapframe → Q t' (t'.space n + F)) : wp (uvmclear t (i * PGSIZE)) Q (t.space n + F) := by
  obtain ⟨e, he, hr⟩ := hs.user i hi
  have hfind := PageTable.find_of_look he
  have hlt := (Shape.lt_of_le hs.le hi)
  have hget : ∀ j < 2 ^ 27, (t.setPte (i * PGSIZE) (some { e with perm.u := false })).get j =
      if j = i then some { e with perm.u := false } else t.get j := fun j hj => PageTable.get_setPte hlt.1 hfind _ hj
  have hs' : Shape (t.setPte (i * PGSIZE) (some { e with perm.u := false })) n trapframe :=
    { le := hs.le
      user j hj := by
        rw [hget j (Shape.lt_of_le hs.le hj).1]
        split
        · exact ⟨_, rfl, hr⟩
        · exact hs.user j hj
      frame := by rw [hget _ (by decide), if_neg hlt.2.1.symm, hs.frame]
      tramp := by rw [hget _ (by decide), if_neg hlt.2.2.symm, hs.tramp]
      rest j hj hn hf hr := by rw [hget j hj, if_neg (by omega), hs.rest j hj hn hf hr] }
  have hfr : (t.setPte (i * PGSIZE) (some { e with perm.u := false })).frames n = t.frames n := by
    unfold PageTable.frames PageTable.framesFrom
    apply Finset.sum_congr rfl
    intro j hj
    rw [Nat.zero_add, hget j (Shape.lt_of_le hs.le (Finset.mem_range.1 hj)).1]
    split
    · rename_i hji
      rw [hji, he]
      rfl
    · rfl
  unfold uvmclear
  rw [wp_bind, walk_false _ (Nat.lt_of_le_of_lt (Nat.mul_le_mul_right _ (Nat.le_of_lt hi)) (page_lt_maxva hs.le)), wp_pure, hfind]
  have := hQ _ hs'
  rw [PageTable.space, PageTable.tables_setPte, hfr] at this
  exact pure_wp this

/-! ### Page tables of processes -/

theorem procFreepagetable_wp {sz : Nat} (hs : Shape t (npages sz) trapframe) {Q : Unit → Multiset Res → Prop} (hQ : Q () F) :
    wp (procFreepagetable t sz) Q (t.space (npages sz) + F) := by
  have hf : TFPAGE * PGSIZE = TRAPFRAME := by decide
  have hr : TRPAGE * PGSIZE = TRAMPOLINE := by decide
  have hle := npages_lt_tfpage hs.le
  have hft : TFPAGE < TRPAGE := by decide
  unfold procFreepagetable
  rw [wp_bind, ← hr, ← zero_add (t.space (npages sz) + F)]
  apply uvmunmap_wp false (by decide)
  · intro i hi
    obtain rfl : i = 0 := by omega
    exact ⟨_, hs.tramp, Perm.ne_empty rfl⟩
  · intro t1 ht1 hg1
    rw [wp_bind, ← hf, ← zero_add (t.space (npages sz) + F)]
    apply uvmunmap_wp false (by decide)
    · intro i hi
      obtain rfl : i = 0 := by omega
      refine ⟨_, by rw [Nat.add_zero, hg1 _ (by decide), if_neg (by omega), hs.frame], ?_⟩
      change ({ r := true, w := true } : Perm) ≠ {}
      decide
    · intro t2 ht2 hg2
      -- the trampoline and the trapframe are gone
      have hg : ∀ j < 2 ^ 27, t2.get j = if j < npages sz then t.get j else none := fun j hj => by
        rw [hg2 j hj]
        by_cases hf : j = TFPAGE
        · rw [if_pos (by omega), if_neg (by omega)]
        · rw [if_neg (by omega), hg1 j hj]
          by_cases hr : j = TRPAGE
          · rw [if_pos (by omega), if_neg (by omega)]
          · rw [if_neg (by omega)]
            split
            · rfl
            · exact hs.rest j hj (by omega) hf hr
      have hfr : t2.frames (npages sz) = t.frames (npages sz) := PageTable.frames_congr fun i hi => by
        rw [hg i (Shape.lt_of_le hs.le hi).1, if_pos hi]
      have hspace : t.space (npages sz) + F = ofPages (t2.framesFrom 0 (npages sz)) + (ofPages t2.tables + F) := by
        rw [PageTable.space, ht2, ht1, ← hfr, PageTable.frames]
        ac_rfl
      unfold uvmfree
      rw [hspace]
      by_cases hsz : sz > 0
      · simp only [if_pos hsz, wp_bind]
        rw [← Nat.zero_mul PGSIZE, show PGROUNDUP sz / PGSIZE = npages sz from rfl]
        apply uvmunmap_wp true
        · rw [Nat.zero_add]
          exact Nat.le_of_lt (page_lt_maxva hs.le)
        · intro i hi
          rw [Nat.zero_add, hg i (Shape.lt_of_le hs.le hi).1, if_pos hi]
          exact hs.leaf hi
        · intro t3 ht3 hg3
          rw [← ht3]
          refine freewalk_wp (fun j hj => ?_) hQ
          rw [hg3 j hj, hg j hj]
          split
          · rfl
          · exact if_neg (by omega)
      · obtain rfl : sz = 0 := by omega
        simp only [if_neg hsz, Code.pure_bind]
        have h0 : ofPages (t2.framesFrom 0 (npages 0)) + (ofPages t2.tables + F) = ofPages t2.tables + F := by
          simp [PageTable.framesFrom]
        rw [h0]
        refine freewalk_wp (fun j hj => ?_) hQ
        rw [hg j hj, if_neg (by simp)]

theorem uvmfree_zero_wp (h : ∀ j < 2 ^ 27, t.get j = none) {Q : Unit → Multiset Res → Prop} (hQ : Q () F) :
    wp (uvmfree t 0) Q (ofPages t.tables + F) := by
  unfold uvmfree
  simp only [gt_iff_lt, Nat.lt_irrefl, if_false, Code.pure_bind]
  exact freewalk_wp h hQ

theorem procPagetable_wp {page : Page} {Q : Option PageTable → Multiset Res → Prop}
    (hok : ∀ t, Shape t 0 page → Q (some t) (t.space 0 + F)) (hbad : Q none F) : wp (procPagetable page) Q F := by
  have hf : TFPAGE * PGSIZE = TRAPFRAME := by decide
  have hr : TRPAGE * PGSIZE = TRAMPOLINE := by decide
  have hft : TFPAGE < TRPAGE := by decide
  unfold procPagetable uvmcreate
  rw [wp_bind, wp_bind]
  apply kalloc_wp
  · intro root _
    refine pure_wp ?_
    have htab : PageTable.tables (.empty root) = {root} := PtPage.sum_empty ..
    have hempty : ∀ j, PageTable.get (.empty root) j = none := fun _ => rfl
    simp only
    rw [wp_bind, ← hr, ← ofPages_singleton, ← htab]
    apply mappages_wp (by decide) (hempty _)
    · intro t1 hg1
      simp only [if_true]
      rw [wp_bind, ← hf]
      apply mappages_wp (by decide) (by rw [hg1 _ (by decide), if_neg (by decide), hempty])
      · intro t2 hg2
        simp only [if_true]
        have hs : Shape t2 0 page :=
          { le := Nat.zero_le _
            user i hi := absurd hi (Nat.not_lt_zero i)
            frame := by rw [hg2 _ (by decide), if_pos rfl]
            tramp := by rw [hg2 _ (by decide), if_neg (by decide), hg1 _ (by decide), if_pos rfl]
            rest i hi _ hf hr := by rw [hg2 i hi, if_neg hf, hg1 i hi, if_neg hr, hempty] }
        have := hok t2 hs
        rw [PageTable.space] at this
        refine pure_wp ?_
        simpa [PageTable.frames, PageTable.framesFrom] using this
      · intro t2 hg2
        simp only [Bool.false_eq_true, if_false]
        rw [wp_bind, ← zero_add (ofPages t2.tables + F)]
        apply uvmunmap_wp false (by decide)
        · intro i hi
          obtain rfl : i = 0 := by omega
          exact ⟨_, by rw [Nat.add_zero, hg2, hg1 _ (by decide), if_pos rfl], Perm.ne_empty rfl⟩
        · intro t3 ht3 hg3
          rw [wp_bind, ← ht3]
          refine uvmfree_zero_wp (fun j hj => ?_) (pure_wp hbad)
          rw [hg3 j hj, hg2, hg1 j hj]
          split
          · rfl
          · rw [if_neg (by omega), hempty]
    · intro t1 hg1
      simp only [Bool.false_eq_true, if_false]
      rw [wp_bind]
      exact uvmfree_zero_wp (fun j _ => by rw [hg1, hempty]) (pure_wp hbad)
  · exact pure_wp (pure_wp hbad)

end Mem

end Xv6
