import Xv6.UvmCopy

/-!
# `growproc` to the byte

`uvmalloc` and `growproc` on physical memory.  Growing adds pages of zeros, all of them or none.  Shrinking takes pages away, but
where the size would be below zero `sz + n` wraps around, `uvmdealloc` has nothing to do, and `growproc` returns 0 all the same:
`Phys.growproc_exact_iff`.
-/

namespace Xv6

namespace PageTable

variable {t : PageTable} {v n : Nat}

theorem mem_framesFrom {i : Nat} (hi : i < n) {e : Pte} (he : t.get (v + i) = some e) : e.page ∈ t.framesFrom v n := by
  rw [framesFrom, Multiset.mem_sum]
  refine ⟨i, Finset.mem_range.2 hi, ?_⟩
  rw [he]
  exact Multiset.mem_singleton_self _

theorem exists_of_mem_framesFrom {page : Page} (h : page ∈ t.framesFrom v n) : ∃ i < n, ∃ e, t.get (v + i) = some e ∧ e.page = page := by
  rw [framesFrom, Multiset.mem_sum] at h
  obtain ⟨i, hi, hp⟩ := h
  refine ⟨i, Finset.mem_range.1 hi, ?_⟩
  cases he : t.get (v + i) with
  | none =>
    rw [he] at hp
    exact absurd hp (Multiset.notMem_zero page)
  | some e =>
    rw [he] at hp
    exact ⟨e, rfl, (Multiset.mem_singleton.1 hp).symm⟩

end PageTable

namespace Phys

/-- The loop of `uvmalloc` at the address `a`, with `n` pages left. -/
def uvmallocLoop (oldsz newsz : Nat) (xperm : Perm) : Nat → Nat → PageTable → PhysM (Nat × PageTable)
  | 0, _, t => pure (newsz, t)
  | n + 1, a, t => do
    match ← kalloc with
    | none => do
      let (_, t) ← run (Mem.uvmdealloc t a oldsz)
      pure (0, t)
    | some mem => do
      memset mem 0
      let (ok, t) ← run (Mem.mappages t a PGSIZE mem { xperm with r := true, u := true })
      if ok then uvmallocLoop oldsz newsz xperm n (a + PGSIZE) t
      else do
        kfree mem
        let (_, t) ← run (Mem.uvmdealloc t a oldsz)
        pure (0, t)

/-- The new size, or 0 on error, and the page table. -/
def uvmalloc (t : PageTable) (oldsz newsz : Nat) (xperm : Perm) : PhysM (Nat × PageTable) :=
  if newsz < oldsz then pure (oldsz, t)
  else
    uvmallocLoop (PGROUNDUP oldsz) newsz xperm ((newsz - PGROUNDUP oldsz + PGSIZE - 1) / PGSIZE) (PGROUNDUP oldsz) t

/-- The answer, and the size and the page table of the process. -/
def growproc (t : PageTable) (sz : Nat) (n : Int) : PhysM (Int × Nat × PageTable) :=
  if n > 0 then do
    let (sz', t) ← uvmalloc t sz (Mem.addInt sz n) { w := true }
    if sz' = 0 then pure (-1, sz, t) else pure (0, sz', t)
  else if n < 0 then do
    let (sz', t) ← run (Mem.uvmdealloc t sz (Mem.addInt sz n))
    pure (0, sz', t)
  else pure (0, sz, t)

variable {t t₀ : PageTable} {s s₀ : Phys} {m k : Nat} {perm : Perm} {trapframe : Page} {E : String → Phys → Prop}

/-! ### `uvmdealloc` -/

/-- The pages from `v` on, `d` of them, are not mapped any more. -/
theorem uvmdealloc_wp {oldsz newsz v d : Nat} (hsz : oldsz ≤ NPAGES * PGSIZE) (hv : npages (min newsz oldsz) = v)
    (hd : npages oldsz = v + d) (hm : ∀ i < d, ∃ e, t.get (v + i) = some e ∧ e.perm ≠ {}) (hs : s.Sound (t.framesFrom v d))
    {Q : Nat × PageTable → Phys → Prop}
    (hQ : ∀ (t' : PageTable) s', t'.tables = t.tables →
      (∀ j < 2 ^ 27, t'.get j = if v ≤ j ∧ j < v + d then none else t.get j) → s.Same (t.framesFrom v d) s' 0 →
      Q (min newsz oldsz, t') s') : wp (run (Mem.uvmdealloc t oldsz newsz)) Q E s := by
  have hsame : d = 0 → Q (min newsz oldsz, t) s := by
    rintro rfl
    exact hQ t s rfl (fun j _ => by rw [if_neg (by omega)]) (Same.refl s _)
  unfold Mem.uvmdealloc
  by_cases hle : newsz ≥ oldsz
  · have hmin : min newsz oldsz = oldsz := Nat.min_eq_right hle
    rw [hmin] at hsame hv
    rw [if_pos hle]
    exact hsame (by omega)
  · have hmin : min newsz oldsz = newsz := Nat.min_eq_left (by omega)
    rw [hmin] at hsame hv hQ
    rw [if_neg hle, pgroundup_eq, pgroundup_eq, hv, hd, ← Nat.mul_sub_right_distrib, Nat.mul_div_cancel _ (by decide),
      Nat.add_sub_cancel_left]
    by_cases hlt : v * PGSIZE < (v + d) * PGSIZE
    · rw [if_pos hlt, run_bind, wp_bind]
      apply uvmunmap_wp _ hm hs
      · intro t' s' ht hg hs'
        exact hQ t' s' ht hg hs'
      · rw [← hd]
        exact Nat.le_of_lt (page_lt_maxva (npages_le hsz))
    · rw [if_neg hlt]
      refine hsame ?_
      by_contra hne
      exact hlt (Nat.mul_lt_mul_of_pos_right (by omega) (by decide))

/-! ### `uvmalloc` -/

/-- `t` has `k` pages of zeros more than `t₀`, from page `m` on. -/
structure Grew (t₀ : PageTable) (s₀ : Phys) (m : Nat) (perm : Perm) (k : Nat) (t : PageTable) (s : Phys) : Prop where
  same : s₀.Same t₀.tables s (t.tables + t.framesFrom m k)
  free : s.free <:+ s₀.free
  keep : ∀ page ∉ s₀.free, s.ram page = s₀.ram page
  zero : ∀ i < k, ∃ page, t.get (m + i) = some ⟨page, perm⟩ ∧ page ∈ s₀.free ∧ s.ram page = fun _ => 0
  rest : ∀ j < 2 ^ 27, ¬(m ≤ j ∧ j < m + k) → t.get j = t₀.get j

theorem grew_zero (t : PageTable) (s : Phys) (m : Nat) (perm : Perm) : Grew t s m perm 0 t s := by
  constructor
  · have : t.tables + t.framesFrom m 0 = t.tables := by simp [PageTable.framesFrom]
    rw [this]
    exact Same.refl s _
  · exact List.suffix_refl _
  · intro page _
    rfl
  · intro i hi
    exact absurd hi (Nat.not_lt_zero i)
  · intro j _ _
    rfl

/-- One page more. -/
theorem Grew.succ {t' : PageTable} {s' : Phys} {mem : Page} (h : Grew t₀ s₀ m perm k t s) (hk : m + k < 2 ^ 27) (hmem : mem ∈ s₀.free)
    (hg : ∀ j < 2 ^ 27, t'.get j = if j = m + k then some ⟨mem, perm⟩ else t.get j)
    (hsame : s₀.Same t₀.tables s' (t'.tables + (t.framesFrom m k + {mem}))) (hfree : s'.free <:+ s₀.free)
    (hkeep : ∀ page ∉ s₀.free, s'.ram page = s₀.ram page) (hframes : ∀ page ∈ t.framesFrom m k, s'.ram page = s.ram page)
    (hzero : s'.ram mem = fun _ => 0) : Grew t₀ s₀ m perm (k + 1) t' s' := by
  have hself : t'.get (m + k) = some ⟨mem, perm⟩ := by rw [hg _ hk, if_pos rfl]
  have hlow : ∀ i < k, t'.get (m + i) = t.get (m + i) := fun i hi => by rw [hg _ (by omega), if_neg (by omega)]
  constructor
  · rw [PageTable.framesFrom_add, PageTable.framesFrom_one _ _ hself, PageTable.framesFrom_congr hlow]
    exact hsame
  · exact hfree
  · exact hkeep
  · intro i hi
    by_cases hik : i = k
    · rw [hik]
      exact ⟨mem, hself, hmem, hzero⟩
    · obtain ⟨page, hget, hpage, hz⟩ := h.zero i (by omega)
      refine ⟨page, by rw [hlow i (by omega), hget], hpage, ?_⟩
      rw [hframes page (PageTable.mem_framesFrom (by omega) hget), hz]
  · intro j hj hjm
    rw [hg j hj, if_neg (by omega), h.rest j hj (by omega)]

/-- The `k` pages are taken away again. -/
theorem dealloc_grew (hm : m + k ≤ NPAGES) (hsound : s₀.Sound t₀.tables) (hsame : s₀.Same t₀.tables s (t.tables + t.framesFrom m k))
    (hfree : ∀ page ∈ s.free, page ∈ s₀.free) (hkeep : ∀ page ∉ s₀.free, s.ram page = s₀.ram page)
    (hleaf : ∀ i < k, ∃ e, t.get (m + i) = some e ∧ e.perm ≠ {} ∧ e.page ∈ s₀.free) (hnone : ∀ i < k, t₀.get (m + i) = none)
    (hrest : ∀ j < 2 ^ 27, ¬(m ≤ j ∧ j < m + k) → t.get j = t₀.get j) {Q : Nat × PageTable → Phys → Prop}
    (hQ : ∀ (t' : PageTable) s', (∀ j < 2 ^ 27, t'.get j = t₀.get j) → s₀.Same t₀.tables s' t'.tables →
      (∀ page ∉ s₀.free, s'.ram page = s₀.ram page) → Q (0, t') s') :
    wp (do
      let (_, t) ← run (Mem.uvmdealloc t ((m + k) * PGSIZE) (m * PGSIZE))
      pure (0, t)) Q E s := by
  have hmin : min (m * PGSIZE) ((m + k) * PGSIZE) = m * PGSIZE := Nat.min_eq_left (Nat.mul_le_mul_right _ (Nat.le_add_right m k))
  rw [wp_bind]
  apply uvmdealloc_wp (v := m) (d := k) (Nat.mul_le_mul_right _ hm) (by rw [hmin, npages_mul (by omega)]) (npages_mul hm)
  · intro i hi
    obtain ⟨e, he, hp, -⟩ := hleaf i hi
    exact ⟨e, he, hp⟩
  · exact (hsame.sound hsound).mono (Multiset.le_add_left ..)
  · intro t' s' ht hg hs'
    have hs'' := hs'.frame t.tables
    rw [zero_add, add_comm _ t.tables, ← ht, ht] at hs''
    refine hQ t' s' (fun j hj => ?_) (ht ▸ hsame.trans hs'') fun page hp => ?_
    · rw [hg j hj]
      split
      · obtain ⟨i, rfl⟩ := Nat.exists_eq_add_of_le (‹m ≤ j ∧ j < m + k›).1
        rw [hnone i (by omega)]
      · exact hrest j hj ‹_›
    · rw [hs'.ram page fun hm => ?_, hkeep page hp]
      rw [Multiset.mem_add] at hm
      apply hm.elim (fun hf => hp (hfree page hf))
      intro hf
      obtain ⟨i, hi, e, he, rfl⟩ := PageTable.exists_of_mem_framesFrom hf
      obtain ⟨e', he', -, hpage⟩ := hleaf i hi
      obtain rfl : e = e' := Option.some.inj (he.symm.trans he')
      exact hp hpage

section Shape

variable [KernelText]

theorem uvmallocLoop_wp {newsz : Nat} {xperm : Perm} {cnt : Nat} (hshape : Shape t₀ m trapframe)
    (hsound : s₀.Sound (t₀.tables + t₀.frames m)) (hk : m + k ≤ NPAGES)
    (h : Grew t₀ s₀ m { xperm with r := true, u := true } k t s) {Q : Nat × PageTable → Phys → Prop}
    (hok : ∀ t' s', m + k + cnt ≤ NPAGES → Grew t₀ s₀ m { xperm with r := true, u := true } (k + cnt) t' s' → Q (newsz, t') s')
    (hbad : ∀ (t' : PageTable) s', (∀ j < 2 ^ 27, t'.get j = t₀.get j) → s₀.Same t₀.tables s' t'.tables →
      (∀ page ∉ s₀.free, s'.ram page = s₀.ram page) → Q (0, t') s') :
    wp (uvmallocLoop (m * PGSIZE) newsz xperm cnt ((m + k) * PGSIZE) t) Q E s := by
  have hleft : t₀.tables ≤ t₀.tables + t₀.frames m := Multiset.le_add_right ..
  induction cnt generalizing t s k with
  | zero => exact hok t s hk h
  | succ cnt ih =>
    have hsame := h.same.frame (t₀.frames m)
    have hleaf : ∀ i < k, ∃ e, t.get (m + i) = some e ∧ e.perm ≠ {} ∧ e.page ∈ s₀.free := by
      intro i hi
      obtain ⟨page, hget, hpage, -⟩ := h.zero i hi
      refine ⟨_, hget, fun hp => ?_, hpage⟩
      have := congrArg Perm.r hp
      cases this
    have hnone : ∀ i, m + i < NPAGES → t₀.get (m + i) = none := fun i hi =>
      hshape.rest _ (Shape.lt_of_le (Nat.le_refl _) hi).1 (Nat.le_add_right m i) (Shape.lt_of_le (Nat.le_refl _) hi).2.1
        (Shape.lt_of_le (Nat.le_refl _) hi).2.2
    unfold uvmallocLoop
    rw [wp_bind]
    apply kalloc_wp (m := t.tables + t.framesFrom m k)
    · intro s1 hs1 hfree1 hram1
      apply dealloc_grew hk (hsound.mono hleft) _ _ _ hleaf (fun i hi => hnone i (by omega)) h.rest hbad
      · exact h.same.trans hs1
      · rw [hfree1]
        exact fun page hp => h.free.subset hp
      · rw [hram1]
        exact h.keep
    · intro mem s1 hmem hs1 hfree1 hram1
      have hmem₀ : mem ∈ s₀.free := h.free.subset hmem
      have hsub1 : s1.free <:+ s₀.free := List.IsSuffix.trans ⟨[mem], hfree1.symm⟩ h.free
      have hlt : m + k < NPAGES := by
        have := (hsame.sound hsound).lt hmem
        rw [Multiset.card_add, Multiset.card_add, hshape.card_frames,
          PageTable.card_framesFrom fun i hi hn => by
            obtain ⟨e, he, -⟩ := hleaf i hi
            rw [he] at hn
            cases hn] at this
        omega
      have hpx := (Shape.lt_of_le (Nat.le_refl _) hlt).1
      have hget : t.get (m + k) = none := by rw [h.rest _ hpx (by omega), hnone k hlt]
      have hs2 := hs1.trans (same_fill (Multiset.mem_add.2 (.inl (Multiset.mem_singleton_self mem))) fun _ => 0)
      have hcomm : {mem} + (t.tables + t.framesFrom m k) = t.tables + (t.framesFrom m k + {mem}) := by
        rw [add_comm, add_assoc]
      rw [hcomm] at hs2
      have hsound2 := (h.same.trans hs2).sound (hsound.mono hleft)
      have hframes2 : ∀ page ∈ t.framesFrom m k, page ≠ mem := by
        rintro page hp rfl
        exact (h.same.sound (hsound.mono hleft)).notMem (Multiset.mem_add.2 (.inr hp)) hmem
      simp only [memset, wp_bind, wp_modify]
      apply mappages_wp (page_lt_maxva (Nat.le_of_lt hlt)) hget (hsound2.mono (Multiset.le_add_right ..))
      · intro t' s3 hg hs3 hfree3 hram3
        have hram : ∀ page ∉ s1.free, page ≠ mem → s3.ram page = s.ram page := by
          intro page hp hne
          rw [hram3 page hp, fill_of_ne hne, hram1 page hne]
        have hnfree : ∀ page ∈ t.framesFrom m k + {mem}, page ∉ s1.free := fun page hp =>
          hsound2.notMem (Multiset.mem_add.2 (.inr hp))
        have hnext := h.succ hpx hmem₀ hg ((h.same.trans hs2).trans (hs3.frame _)) (hfree3.trans hsub1)
          (fun page hp => by
            rw [hram page (fun hf => hp (hsub1.subset hf)) (fun he => hp (he ▸ hmem₀)), h.keep page hp])
          (fun page hp => hram page (hnfree page (Multiset.mem_add.2 (.inl hp))) (hframes2 page hp))
          (by rw [hram3 mem (hnfree mem (by simp)), fill_self])
        rw [if_pos rfl, ← Nat.succ_mul]
        refine ih (k := k + 1) hlt hnext fun t'' s'' hle hgrew => ?_
        have hcnt : k + 1 + cnt = k + (cnt + 1) := by omega
        rw [hcnt] at hgrew
        exact hok t'' s'' (by omega) hgrew
      · intro t' s3 hg hs3 hfree3 hram3
        have hframes : t'.framesFrom m k = t.framesFrom m k := PageTable.framesFrom_congr fun i _ => hg _
        have hs3' := (h.same.trans hs2).trans (hs3.frame _)
        have hcomm' : t'.tables + (t.framesFrom m k + {mem}) = {mem} + (t'.tables + t'.framesFrom m k) := by
          rw [← add_assoc, add_comm, hframes]
        rw [hcomm'] at hs3'
        have hsound3 := hs3'.sound (hsound.mono hleft)
        rw [if_neg Bool.false_ne_true, wp_bind]
        apply kfree_wp (m := 0) (hsound3.mono (Multiset.add_le_add_left (Multiset.zero_le _)))
        intro s4 hs4 hfree4
        have hs4' := hs4.frame (t'.tables + t'.framesFrom m k)
        rw [add_zero, zero_add] at hs4'
        have hsub3 : ∀ page ∈ s3.free, page ∈ s₀.free := fun page hp => hsub1.subset (hfree3.subset hp)
        apply dealloc_grew hk (hsound.mono hleft) (hs3'.trans hs4') _ _ _ (fun i hi => hnone i (by omega)) _ hbad
        · intro page hp
          rw [hfree4] at hp
          exact (List.mem_cons.1 hp).elim (fun he => he ▸ hmem₀) (hsub3 page)
        · intro page hp
          have hne : page ≠ mem := fun he => hp (he ▸ hmem₀)
          rw [hs4.ram page, hram3 page fun hf => hp (hsub1.subset hf), fill_of_ne hne, hram1 page hne, h.keep page hp]
          intro hm
          rw [add_zero, Multiset.mem_add, Multiset.mem_singleton] at hm
          exact hm.elim (fun hf => hp (hsub3 page hf)) hne
        · intro i hi
          rw [hg]
          exact hleaf i hi
        · intro j hj hjm
          rw [hg, h.rest j hj hjm]

theorem uvmalloc_wp {oldsz newsz : Nat} {xperm : Perm} (hsz : oldsz ≤ NPAGES * PGSIZE) (hle : oldsz ≤ newsz)
    (hshape : Shape t (npages oldsz) trapframe) (hsound : s.Sound (t.tables + t.frames (npages oldsz)))
    {Q : Nat × PageTable → Phys → Prop}
    (hok : ∀ t' s' k, newsz ≤ NPAGES * PGSIZE → npages newsz = npages oldsz + k →
      Grew t s (npages oldsz) { xperm with r := true, u := true } k t' s' → Q (newsz, t') s')
    (hbad : ∀ (t' : PageTable) s', (∀ j < 2 ^ 27, t'.get j = t.get j) → s.Same t.tables s' t'.tables →
      (∀ page ∉ s.free, s'.ram page = s.ram page) → Q (0, t') s') : wp (uvmalloc t oldsz newsz xperm) Q E s := by
  unfold uvmalloc
  rw [if_neg (by omega), pgroundup_eq]
  apply uvmallocLoop_wp (k := 0) hshape hsound hshape.le (grew_zero t s _ _) _ hbad
  intro t' s' hn hgrew
  obtain ⟨hnew, he⟩ := Mem.npages_grown hsz hle hn
  rw [Nat.zero_add] at hgrew
  exact hok t' s' _ hnew he hgrew

/-! ### `growproc` -/

/-- Nothing is different after an error.  Without one the size is `n` bytes more, what is below both sizes is as before, and new pages
have zeros. -/
def GrewBy (t : PageTable) (sz : Nat) (n : Int) (s : Phys) (r : Int × Nat × PageTable) (s' : Phys) : Prop :=
  (r.1 = -1 ∧ r.2.1 = sz ∧ (∀ j < 2 ^ 27, r.2.2.get j = t.get j) ∧
    ∀ j < 2 ^ 27, ∀ e, t.get j = some e → s'.ram e.page = s.ram e.page) ∨
  (r.1 = 0 ∧ (r.2.1 : Int) = sz + n ∧
    (∀ j, j < npages sz → j < npages r.2.1 → r.2.2.get j = t.get j ∧ ∀ e, t.get j = some e → s'.ram e.page = s.ram e.page) ∧
    ∀ j < 2 ^ 27, ∀ e, t.get j = none → r.2.2.get j = some e → s'.ram e.page = fun _ => 0)

/-- The pages that a process can read are not free. -/
theorem mapped_notMem {n : Nat} (hshape : Shape t n trapframe) (hs : s.Sound ({trapframe} + t.tables + t.frames n))
    (htramp : (KernelText.trampoline + 1) * PGSIZE ≤ s.kend) {j : Nat} (hj : j < 2 ^ 27) {e : Pte} (he : t.get j = some e) :
    e.page ∉ s.free := by
  rcases hshape.mapped hj he with hn | ⟨-, hp⟩ | ⟨-, hp⟩
  · exact hs.notMem (Multiset.mem_add.2 (.inr (PageTable.mem_frames hn he)))
  · rw [hp]
    exact hs.notMem (by simp)
  · intro hf
    have hr := (hs.range _ (Multiset.mem_add.2 (.inl hf))).1
    rw [hp] at hr
    have hlt : KernelText.trampoline * PGSIZE < (KernelText.trampoline + 1) * PGSIZE :=
      Nat.mul_lt_mul_of_pos_right (Nat.lt_succ_self _) (by decide)
    exact absurd (Nat.le_trans htramp hr) (Nat.not_le.2 hlt)

omit [KernelText] in
theorem addInt_nonneg {sz : Nat} {n : Int} (hsz : sz ≤ NPAGES * PGSIZE) (hn : n < 2 ^ 31) (h : 0 ≤ sz + n) :
    (Mem.addInt sz n : Int) = sz + n := by
  have hN : NPAGES * PGSIZE = 2 ^ 27 := by decide
  rw [hN] at hsz
  unfold Mem.addInt
  omega

omit [KernelText] in
/-- Below zero the sum is larger than any size. -/
theorem addInt_neg {sz : Nat} {n : Int} (hsz : sz ≤ NPAGES * PGSIZE) (hn : -2 ^ 31 ≤ n) (h : sz + n < 0) : sz ≤ Mem.addInt sz n := by
  have hN : NPAGES * PGSIZE = 2 ^ 27 := by decide
  rw [hN] at hsz
  unfold Mem.addInt
  omega

theorem growproc_grow_wp {sz : Nat} {n : Int} (hsz : sz ≤ NPAGES * PGSIZE) (hshape : Shape t (npages sz) trapframe)
    (hsound : s.Sound (t.tables + t.frames (npages sz))) (hkept : ∀ j < 2 ^ 27, ∀ e, t.get j = some e → e.page ∉ s.free)
    (hpos : 0 < n) (hhi : n < 2 ^ 31) : wp (growproc t sz n) (GrewBy t sz n s) E s := by
  have hadd := addInt_nonneg hsz hhi (by omega)
  unfold growproc
  rw [if_pos hpos, wp_bind]
  apply uvmalloc_wp hsz (by omega) hshape hsound
  · intro t' s' k _ hk hgrew
    dsimp only
    rw [if_neg (by omega)]
    refine .inr ⟨rfl, hadd, fun j hj _ => ?_, fun j hj e hn he => ?_⟩
    · have hlt := (Shape.lt_of_le hshape.le hj).1
      exact ⟨hgrew.rest j hlt (by omega), fun e he => hgrew.keep _ (hkept j hlt e he)⟩
    · by_cases hr : npages sz ≤ j ∧ j < npages sz + k
      · obtain ⟨i, rfl⟩ := Nat.exists_eq_add_of_le hr.1
        obtain ⟨page, hget, -, hzero⟩ := hgrew.zero i (by omega)
        obtain rfl := Option.some.inj (he.symm.trans hget)
        exact hzero
      · have hold := hgrew.rest j hj hr
        rw [hn] at hold
        exact absurd (he.symm.trans hold) (by simp)
  · intro t' s' hg _ hkeep
    dsimp only
    rw [if_pos rfl]
    exact .inl ⟨rfl, rfl, hg, fun j hj e he => hkeep _ (hkept j hj e he)⟩

theorem growproc_shrink_wp {sz : Nat} {n : Int} (hsz : sz ≤ NPAGES * PGSIZE) (hshape : Shape t (npages sz) trapframe)
    (hsound : s.Sound (t.tables + t.frames (npages sz))) (hkept : ∀ j < 2 ^ 27, ∀ e, t.get j = some e → e.page ∉ s.free)
    (hneg : n < 0) (hle : 0 ≤ sz + n) : wp (growproc t sz n) (GrewBy t sz n s) E s := by
  have hadd := addInt_nonneg hsz (by omega) hle
  have hmin : min (Mem.addInt sz n) sz = Mem.addInt sz n := Nat.min_eq_left (by omega)
  obtain ⟨d, hd⟩ := Nat.exists_eq_add_of_le (npages_mono (m := Mem.addInt sz n) (by omega) hsz)
  have hframes : t.frames (npages sz) = t.frames (npages (Mem.addInt sz n)) + t.framesFrom (npages (Mem.addInt sz n)) d := by
    rw [hd, PageTable.frames_add]
  rw [hframes, ← add_assoc] at hsound
  unfold growproc
  rw [if_neg (by omega), if_pos hneg, wp_bind]
  apply uvmdealloc_wp hsz (by rw [hmin]) hd
  · intro i hi
    exact hshape.leaf (by omega)
  · exact hsound.mono (Multiset.le_add_left ..)
  · intro t' s' _ hg hs'
    rw [hmin]
    refine .inr ⟨rfl, hadd, fun j hj hlt => ?_, fun j hj e hn he => ?_⟩
    · have hj27 := (Shape.lt_of_le hshape.le hj).1
      refine ⟨by rw [hg j hj27, if_neg (Nat.not_le.2 hlt ·.1)], fun e he => hs'.ram _ fun hm => ?_⟩
      rw [Multiset.mem_add] at hm
      apply hm.elim (hkept j hj27 e he)
      intro hm
      have hkeep : e.page ∈ t.tables + t.frames (npages (Mem.addInt sz n)) :=
        Multiset.mem_add.2 (.inr (PageTable.mem_frames hlt he))
      have hnd := Multiset.nodup_of_le (Multiset.le_add_left ..) hsound.nodup
      exact Multiset.disjoint_left.1 (Multiset.disjoint_of_nodup_add hnd) hkeep hm
    · rw [hg j hj] at he
      split at he
      · cases he
      · rw [hn] at he
        cases he

/-- For every address space and every `int`: `growproc` returns, and it fails without a difference or makes the size `n` more if and
only if the new size is not below zero. -/
theorem growproc_exact_iff {sz : Nat} {n : Int} (hsz : sz ≤ NPAGES * PGSIZE) (hshape : Shape t (npages sz) trapframe)
    (hs : s.Sound ({trapframe} + t.tables + t.frames (npages sz))) (htramp : (KernelText.trampoline + 1) * PGSIZE ≤ s.kend)
    (hlo : -2 ^ 31 ≤ n) (hhi : n < 2 ^ 31) :
    ∃ r s', growproc t sz n s = .ok r s' ∧ (GrewBy t sz n s r s' ↔ 0 ≤ sz + n) := by
  have hkept : ∀ j < 2 ^ 27, ∀ e, t.get j = some e → e.page ∉ s.free := fun j hj e he => mapped_notMem hshape hs htramp hj he
  have hsound : s.Sound (t.tables + t.frames (npages sz)) := by
    rw [add_assoc] at hs
    exact hs.mono (Multiset.le_add_left ..)
  by_cases hle : 0 ≤ sz + n
  · have hwp : wp (growproc t sz n) (GrewBy t sz n s) (fun _ _ => False) s := by
      rcases lt_trichotomy n 0 with hneg | rfl | hpos
      · exact growproc_shrink_wp hsz hshape hsound hkept hneg hle
      · refine .inr ⟨rfl, (add_zero _).symm, fun j _ _ => ⟨rfl, fun _ _ => rfl⟩, fun j _ e hn he => ?_⟩
        exact absurd (he.symm.trans hn) (by simp)
      · exact growproc_grow_wp hsz hshape hsound hkept hpos hhi
    obtain ⟨r, s', hres, hgrew⟩ := wp_false hwp
    exact ⟨r, s', hres, iff_of_true hgrew hle⟩
  · -- the sum has wrapped around
    have hwrap := addInt_neg hsz hlo (by omega)
    refine ⟨(0, sz, t), s, ?_, iff_of_false ?_ hle⟩
    · rw [growproc, if_neg (by omega), if_pos (by omega), Mem.uvmdealloc, if_pos hwrap]
      rfl
    · rintro (⟨h, -⟩ | ⟨-, h, -⟩)
      · cases h
      · have : (sz : Int) = sz + n := h
        omega

end Shape

/-! ### The first process -/

local instance initText : KernelText where
  trampoline := KERNBASE / PGSIZE + 7

/-- The page-table pages of a process with memory below and the trapframe and the trampoline above. -/
def initTree : PageTable :=
  ((PtPage.empty 0x80010).set 0 (some ((PtPage.empty 0x80011).set 0 (some (.empty 0x80012))))).set 255
    (some ((PtPage.empty 0x80013).set 511 (some (.empty 0x80014))))

/-- The address space of the first process, which has one page. -/
def initSpace : PageTable :=
  ((initTree.setPte (0 * PGSIZE) (some ⟨0x80015, { r := true, w := true, x := true, u := true }⟩)).setPte (TFPAGE * PGSIZE)
    (some ⟨0x80016, { r := true, w := true }⟩)).setPte (TRPAGE * PGSIZE) (some ⟨KernelText.trampoline, { r := true, x := true }⟩)

/-- Memory with eight free pages besides. -/
def initPhys : Phys where
  kend := 0x80010 * PGSIZE
  free := List.range' 0x80017 8
  fails := []
  ram _ _ := 0

theorem get_initSpace {j : Nat} (hj : j < 2 ^ 27) : initSpace.get j =
    if j = TRPAGE then some ⟨KernelText.trampoline, { r := true, x := true }⟩
    else if j = TFPAGE then some ⟨0x80016, { r := true, w := true }⟩
    else if j = 0 then some ⟨0x80015, { r := true, w := true, x := true, u := true }⟩ else none := by
  have hbare : initTree.get j = none := by
    have hlow : ∀ va, PageTable.look ((PtPage.empty 0x80010).set 0
        (some ((PtPage.empty 0x80011).set 0 (some (.empty 0x80012))))) va = PageTable.look (.empty 0x80010) va :=
      PageTable.look_set fun va => PageTable.lookIn_set (fun _ => rfl) va
    rw [PageTable.get, initTree, PageTable.look_set fun va => PageTable.lookIn_set (fun _ => rfl) va, hlow]
    rfl
  rw [initSpace, PageTable.get_setPte (c := none) (by decide) rfl _ hj, PageTable.get_setPte (c := none) (by decide) rfl _ hj,
    PageTable.get_setPte (c := none) (by decide) rfl _ hj, hbare]

theorem shape_initSpace : Shape initSpace (npages PGSIZE) 0x80016 where
  le := by decide
  user i hi := by
    obtain rfl : i = 0 := Nat.lt_one_iff.1 hi
    exact ⟨_, get_initSpace (by decide), rfl⟩
  frame := get_initSpace (by decide)
  tramp := get_initSpace (by decide)
  rest i hi hn hf hr := by
    have hpos : i ≠ 0 := Nat.pos_iff_ne_zero.1 hn
    rw [get_initSpace hi, if_neg hr, if_neg hf, if_neg hpos]

theorem sound_initPhys : initPhys.Sound ({0x80016} + initSpace.tables + initSpace.frames (npages PGSIZE)) := by
  have htables : initSpace.tables = {0x80014} + {0x80013} + ({0x80012} + {0x80011} + {0x80010}) := by
    rw [initSpace, PageTable.tables_setPte, PageTable.tables_setPte, PageTable.tables_setPte, PageTable.tables, initTree,
      PtPage.sum_set_none rfl, PtPage.sum_set_none rfl, PtPage.sum_set_none rfl, PtPage.sum_set_none rfl]
    simp only [PtPage.sum_empty]
  have hget := get_initSpace (j := 0) (by decide)
  have hframes : initSpace.frames (npages PGSIZE) = {0x80015} := PageTable.framesFrom_one _ 0 hget
  rw [htables, hframes]
  constructor
  · decide
  · decide
  · decide

theorem growproc_exact_iff_init : ∃ r s', growproc initSpace PGSIZE (-100) initPhys = .ok r s' ∧
    GrewBy initSpace PGSIZE (-100) initPhys r s' := by
  have hsz : PGSIZE ≤ NPAGES * PGSIZE := by decide
  obtain ⟨r, s', hres, hiff⟩ := growproc_exact_iff (n := -100) hsz shape_initSpace sound_initPhys (by decide) (by decide) (by decide)
  exact ⟨r, s', hres, hiff.2 (by decide)⟩

/-- `sbrk` of more than there is, as a negative number. -/
theorem growproc_ignores : Shape initSpace (npages PGSIZE) 0x80016 ∧
    initPhys.Sound ({0x80016} + initSpace.tables + initSpace.frames (npages PGSIZE)) ∧
    ¬∃ r s', growproc initSpace PGSIZE (-5000) initPhys = .ok r s' ∧ GrewBy initSpace PGSIZE (-5000) initPhys r s' := by
  refine ⟨shape_initSpace, sound_initPhys, ?_⟩
  have hres : growproc initSpace PGSIZE (-5000) initPhys = .ok (0, PGSIZE, initSpace) initPhys := by
    rw [growproc, if_neg (by decide), if_pos (by decide), Mem.uvmdealloc, if_pos (by decide)]
    rfl
  rintro ⟨r, s', hr, hgrew⟩
  rw [hres] at hr
  cases hr
  rcases hgrew with ⟨h, -⟩ | ⟨-, h, -⟩
  · cases h
  · revert h
    decide

end Phys

end Xv6
