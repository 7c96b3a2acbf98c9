import Xv6.CopyBytes
import Xv6.Phys
import Xv6.VmSpace

/-!
# `uvmcopy` copies the bytes

`uvmcopy` on physical memory, for any tree of the parent and any of the child.  A copy that succeeds maps each page of the child to a
free page with the flags and the bytes of the parent's (`Phys.uvmcopy_copies`); one that fails, because a call of `kalloc` does, gives
the data pages back.  The parent's entries have a flag besides `PTE_V`, or `uvmunmap` takes their copies for page-table pages.
-/

namespace Xv6

namespace Phys

/-- The loop of `uvmcopy` at the address `i`, with `n` pages left.  The two trees are returned. -/
def uvmcopyLoop : Nat → Nat → PageTable → PageTable → PhysM (Bool × PageTable × PageTable)
  | 0, _, old, new => pure (true, old, new)
  | n + 1, i, old, new => do
    let (pte, old) ← run (Mem.walk old i false)
    match pte with
    | none => throw "uvmcopy: pte should exist"
    | some none => throw "uvmcopy: page not present"
    | some (some e) =>
      match ← kalloc with
      | none => do
        let new ← run (Mem.uvmunmap new 0 (i / PGSIZE) true)
        pure (false, old, new)
      | some mem => do
        memmove mem e.page
        let (ok, new) ← run (Mem.mappages new i PGSIZE mem e.perm)
        if ok then uvmcopyLoop n (i + PGSIZE) old new
        else do
          kfree mem
          let new ← run (Mem.uvmunmap new 0 (i / PGSIZE) true)
          pure (false, old, new)

def uvmcopy (old new : PageTable) (sz : Nat) : PhysM (Bool × PageTable × PageTable) :=
  uvmcopyLoop ((sz + PGSIZE - 1) / PGSIZE) 0 old new

/-! ### Calls of `kalloc` that fail -/

/-- Code that makes no call of `kalloc` after one that has failed; the ghost state says whether one has. -/
def failRule : Code.Rule MemOp.Ans Bool
  | .kalloc, Q, failed => failed = false ∧ (∀ page, Q (some page) false) ∧ Q none true
  | _, _, _ => False

section fails

variable {α : Type} {E : String → Prop}

theorem kalloc_fails {Q : Option Page → Bool → Prop} (h1 : ∀ page, Q (some page) false) (h2 : Q none true) :
    Code.wp failRule E Mem.kalloc Q false := ⟨rfl, h1, h2⟩

theorem child_fails (t : PtPage (PtPage α)) (i : Fin 512) {Q : Option (PtPage α) → Bool → Prop} (h1 : ∀ c, Q (some c) false)
    (h2 : Q none true) : Code.wp failRule E (Mem.child t i true) Q false := by
  unfold Mem.child
  split
  · exact h1 _
  · rw [if_pos rfl, Code.wp_bind]
    exact kalloc_fails (fun page => h1 _) h2

theorem walk_fails (t : PageTable) {va : Nat} (hva : va < MAXVA) {Q : Option (Option Pte) × PageTable → Bool → Prop}
    (h1 : ∀ e t', Q (some e, t') false) (h2 : ∀ t', Q (none, t') true) : Code.wp failRule E (Mem.walk t va true) Q false := by
  unfold Mem.walk
  rw [if_neg (Nat.not_le.2 hva), Code.wp_bind]
  refine child_fails t _ (fun t1 => ?_) (h2 t)
  dsimp only
  rw [Code.wp_bind]
  exact child_fails t1 _ (fun t0 => h1 _ _) (h2 _)

/-- `mappages` of a page fails only after a call of `kalloc` has. -/
theorem mappages_fails (t : PageTable) {i : Nat} (hi : i * PGSIZE < MAXVA) (pa : Page) (perm : Perm) :
    Code.wp failRule (fun _ => True) (Mem.mappages t (i * PGSIZE) PGSIZE pa perm) (fun r failed => failed = !r.1) false := by
  have hdown : ∀ k < PGSIZE, PGROUNDDOWN (i * PGSIZE + k) = i * PGSIZE := by
    intro k hk
    simp only [PGROUNDDOWN, PGSIZE] at hk ⊢
    omega
  have hone : (PGROUNDDOWN (i * PGSIZE + PGSIZE - 1) - PGROUNDDOWN (i * PGSIZE)) / PGSIZE = 0 := by
    have hlast := hdown (PGSIZE - 1) (by decide)
    have hfirst := hdown 0 (by decide)
    rw [Nat.add_zero] at hfirst
    rw [Nat.add_sub_assoc (by decide), hlast, hfirst, Nat.sub_self, Nat.zero_div]
  have hfirst := hdown 0 (by decide)
  rw [Nat.add_zero] at hfirst
  unfold Mem.mappages
  rw [if_neg (by decide), hone, hfirst]
  unfold Mem.mappagesLoop
  rw [Code.wp_bind]
  refine walk_fails t hi (fun e t' => ?_) fun t' => rfl
  cases e with
  | none => rfl
  | some e => trivial

/-- After a call that has failed there is none. -/
theorem run_failed {s : Phys} {p : Mem α} {Q : α → Bool → Prop} (h : Code.wp failRule E p Q true) :
    wp (run p) (fun a u => u = s ∧ Q a true) (fun _ _ => True) s := by
  cases p with
  | ret a => exact ⟨rfl, h⟩
  | panic msg => trivial
  | call o k =>
    cases o with
    | kalloc => exact absurd h.1 (by decide)
    | _ => exact h.elim

/-- On physical memory the calls succeed, or the last one fails. -/
theorem run_fails {s : Phys} {p : Mem α} {Q : α → Bool → Prop} (h : Code.wp failRule E p Q false) :
    wp (run p) (fun a u => (∃ n, s.Took n u ∧ Q a false) ∨ ∃ n, s.FailsAfter n ∧ u.free = s.free.drop n ∧ Q a true)
      (fun _ _ => True) s := by
  induction p generalizing s with
  | ret a => exact .inl ⟨0, Took.refl s, h⟩
  | panic msg => trivial
  | call o k ih =>
    cases o with
    | kalloc =>
      unfold run
      rw [wp_bind]
      apply kalloc_took_wp (m := 0)
      · intro s' _ hfree _ hfail
        refine wp_mono (run_failed h.2.2) ?_ fun _ _ _ => trivial
        rintro a u ⟨rfl, hQ⟩
        exact .inr ⟨0, hfail, hfree, hQ⟩
      · intro page s' _ _ _ _ htook
        refine wp_mono (ih (some page) (h.2.1 page)) ?_ fun _ _ _ => trivial
        rintro a u (⟨n, hn, hQ⟩ | ⟨n, hn, hfree, hQ⟩)
        · exact .inl ⟨1 + n, htook.trans hn, hQ⟩
        · refine .inr ⟨1 + n, htook.fails hn, ?_, hQ⟩
          rw [hfree, htook.free, List.drop_drop]
    | _ => exact h.elim

/-- `mappages` of one page that is not mapped. -/
theorem mappages_took_wp {s : Phys} {t : PageTable} {E : String → Phys → Prop} {i : Nat} {pa : Page} {perm : Perm}
    (hi : i * PGSIZE < MAXVA) (hn : t.get i = none) (hs : s.Sound t.tables) {Q : Bool × PageTable → Phys → Prop}
    (hok : ∀ (t' : PageTable) s', (∀ j < 2 ^ 27, t'.get j = if j = i then some ⟨pa, perm⟩ else t.get j) →
      s.Same t.tables s' t'.tables → (∃ n, s.Took n s') → (∀ p ∉ s.free, s'.ram p = s.ram p) → Q (true, t') s')
    (hbad : ∀ (t' : PageTable) s', (∀ j, t'.get j = t.get j) → s.Same t.tables s' t'.tables →
      (∃ n, s.FailsAfter n ∧ s'.free = s.free.drop n) → Q (false, t') s') :
    wp (run (Mem.mappages t (i * PGSIZE) PGSIZE pa perm)) Q E s := by
  refine wp_mono (wp_and (run_fails (mappages_fails t hi pa perm)) (mappages_wp (E := fun _ _ => False)
    (Q := fun r s' => ((∃ n, s.Took n s') → r.1 = true → Q r s') ∧
      ((∃ n, s.FailsAfter n ∧ s'.free = s.free.drop n) → r.1 = false → Q r s')) hi hn hs
    (fun t' s' hg hsame _ hram => ⟨fun h _ => hok t' s' hg hsame h hram, nofun⟩)
    fun t' s' hg hsame _ _ => ⟨nofun, fun h _ => hbad t' s' hg hsame h⟩)) ?_ fun _ _ h => h.2.elim
  rintro r s' ⟨⟨n, htook, hr⟩ | ⟨n, hfail, hfree, hr⟩, h1, h2⟩
  · exact h1 ⟨n, htook⟩ (by simpa using hr.symm)
  · exact h2 ⟨n, hfail, hfree⟩ (by simpa using hr.symm)

end fails

/-! ### What the loop has copied -/

variable {old new₀ new : PageTable} {s₀ s : Phys} {N i : Nat}

/-- Pages `new` has that `new₀` has not: the first `i`, taken from the free list of `s₀` and with the bytes of the parent. -/
structure Copied (old new₀ : PageTable) (s₀ : Phys) (i : Nat) (new : PageTable) (s : Phys) : Prop where
  same : s₀.Same new₀.tables s (new.tables + new.frames i)
  took : ∃ n, s₀.Took n s
  copy : ∀ j < i, ∃ e page, old.get j = some e ∧ new.get j = some ⟨page, e.perm⟩ ∧ page ∈ s₀.free ∧ s.ram page = s₀.ram e.page
  rest : ∀ j < 2 ^ 27, i ≤ j → new.get j = new₀.get j

/-- The parent's pages and those of the child's tree are not free, and each of the parent's is mapped. -/
structure Parent (old new₀ : PageTable) (s₀ : Phys) (N : Nat) : Prop where
  le : N * PGSIZE ≤ MAXVA
  sound : s₀.Sound new₀.tables
  leaf : ∀ i < N, ∃ e, old.get i = some e ∧ e.perm ≠ {} ∧ e.page ∉ (s₀.free : Multiset Page) + new₀.tables
  none : ∀ i < N, new₀.get i = none

theorem Parent.lt (hp : Parent old new₀ s₀ N) (hi : i < N) : i * PGSIZE < MAXVA := by
  have := hp.le
  simp only [PGSIZE, MAXVA] at this ⊢
  omega

theorem Parent.lt' (hp : Parent old new₀ s₀ N) (hi : i < N) : i < 2 ^ 27 := Mem.px_lt (hp.lt hi)

/-- The first `n` calls of `kalloc` succeed and the next one fails; the `n` pages are page-table pages that `new` has and `new₀` has not,
and at most `N` others. -/
def Starved (new₀ : PageTable) (s₀ : Phys) (N : Nat) (new : PageTable) : Prop :=
  ∃ n k, s₀.FailsAfter n ∧ k ≤ N ∧ n + Multiset.card new₀.tables = k + Multiset.card new.tables

/-- What `uvmcopy` leaves. -/
def UvmCopied (old new₀ : PageTable) (s₀ : Phys) (N : Nat) (r : Bool × PageTable × PageTable) (s : Phys) : Prop :=
  r.2.1 = old ∧ (∀ page ∉ (s₀.free : Multiset Page) + new₀.tables, s.ram page = s₀.ram page) ∧
  (∀ j < 2 ^ 27, N ≤ j → r.2.2.get j = new₀.get j) ∧
  if r.1 then Copied old new₀ s₀ N r.2.2 s
  else (∀ i < N, r.2.2.get i = none) ∧ (s.free : Multiset Page) + r.2.2.tables = s₀.free + new₀.tables ∧ Starved new₀ s₀ N r.2.2

/-- The pages that are missing from the free list are those that are held. -/
theorem starved_of {m : Multiset Page} {n : Nat} (hsame : s₀.Same new₀.tables s (new.tables + m)) (hm : Multiset.card m ≤ N)
    (hfail : s₀.FailsAfter n) (hfree : s.free = s₀.free.drop n) : Starved new₀ s₀ N new := by
  refine ⟨n, Multiset.card m, hfail, hm, ?_⟩
  have hpages := congrArg Multiset.card hsame.pages
  rw [hfree] at hpages
  simp only [Multiset.card_add, Multiset.coe_card, List.length_drop] at hpages
  have := hfail.1
  omega

/-- The first `i` pages are taken away again. -/
theorem unmap_copied {E : String → Phys → Prop} (hp : Parent old new₀ s₀ N) (hi : i < N)
    (hsame : s₀.Same new₀.tables s (new.tables + new.frames i)) (hleaf : ∀ j < i, ∃ e, new.get j = some e ∧ e.perm ≠ {})
    (hrest : ∀ j < 2 ^ 27, i ≤ j → new.get j = new₀.get j) (hfail : Starved new₀ s₀ N new) :
    wp (do
      let new ← run (Mem.uvmunmap new 0 (i * PGSIZE / PGSIZE) true)
      pure (false, old, new)) (UvmCopied old new₀ s₀ N) E s := by
  have hle : (0 + i) * PGSIZE ≤ MAXVA := by
    rw [Nat.zero_add]
    exact Nat.le_of_lt (hp.lt hi)
  rw [wp_bind, Nat.mul_div_cancel _ (by decide), ← Nat.zero_mul PGSIZE]
  apply uvmunmap_wp hle
  · intro j hj
    rw [Nat.zero_add]
    exact hleaf j hj
  · exact (hsame.sound hp.sound).mono (Multiset.le_add_left ..)
  · intro new' s' ht hg hs'
    have hs' := hs'.frame new.tables
    rw [zero_add, add_comm _ new.tables] at hs'
    have hall := hsame.trans hs'
    have hnone : ∀ j < N, new'.get j = none := by
      intro j hj
      rw [hg j (hp.lt' hj)]
      split
      · rfl
      · rw [hrest j (hp.lt' hj) (by omega), hp.none j hj]
    have hfail' : Starved new₀ s₀ N new' := by
      rwa [Starved, ht]
    refine ⟨rfl, hall.ram, fun j hj hN => ?_, hnone, ht ▸ hall.pages, hfail'⟩
    rw [hg j hj, if_neg (by omega), hrest j hj (by omega)]

/-- One page more. -/
theorem Copied.succ {new' : PageTable} {s' : Phys} {e : Pte} {mem : Page} (h : Copied old new₀ s₀ i new s) (hi : i < 2 ^ 27)
    (he : old.get i = some e) (hmem : mem ∈ s₀.free)
    (hg : ∀ j < 2 ^ 27, new'.get j = if j = i then some ⟨mem, e.perm⟩ else new.get j)
    (hsame : s₀.Same new₀.tables s' (new'.tables + ({mem} + new.frames i))) (htook : ∃ n, s₀.Took n s')
    (hram : ∀ page ∈ new.frames i, s'.ram page = s.ram page) (hnew : s'.ram mem = s₀.ram e.page) :
    Copied old new₀ s₀ (i + 1) new' s' := by
  have hself : new'.get i = some ⟨mem, e.perm⟩ := by rw [hg i hi, if_pos rfl]
  have hlow : ∀ j < i, new'.get j = new.get j := fun j hj => by rw [hg j (by omega), if_neg (by omega)]
  have hframes : new'.frames (i + 1) = {mem} + new.frames i := by
    rw [PageTable.frames_add, PageTable.framesFrom_one _ _ hself, PageTable.frames_congr hlow, add_comm]
  constructor
  · rw [hframes]
    exact hsame
  · exact htook
  · intro j hj
    by_cases hji : j = i
    · rw [hji]
      exact ⟨e, mem, he, hself, hmem, hnew⟩
    · obtain ⟨e', page, hold, hget, hpage, hcopy⟩ := h.copy j (by omega)
      refine ⟨e', page, hold, by rw [hlow j (by omega), hget], hpage, ?_⟩
      rw [hram page (PageTable.mem_frames (by omega) hget), hcopy]
  · intro j hj hij
    rw [hg j hj, if_neg (by omega), h.rest j hj (by omega)]

/-- What has been copied are leaves. -/
theorem Copied.leaf (h : Copied old new₀ s₀ i new s) (hp : Parent old new₀ s₀ N) (hi : i < N) :
    ∀ j < i, ∃ e, new.get j = some e ∧ e.perm ≠ {} := by
  intro j hj
  obtain ⟨e, page, hold, hget, -⟩ := h.copy j hj
  obtain ⟨e', he', hperm, -⟩ := hp.leaf j (by omega)
  obtain rfl : e = e' := Option.some.inj (hold.symm.trans he')
  exact ⟨_, hget, hperm⟩

theorem uvmcopyLoop_wp {E : String → Phys → Prop} {n : Nat} (hp : Parent old new₀ s₀ N) (hn : i + n = N)
    (h : Copied old new₀ s₀ i new s) : wp (uvmcopyLoop n (i * PGSIZE) old new) (UvmCopied old new₀ s₀ N) E s := by
  induction n generalizing i new s with
  | zero =>
    obtain rfl : i = N := hn
    exact ⟨rfl, h.same.ram, h.rest, h⟩
  | succ n ih =>
    have hi : i < N := by omega
    obtain ⟨e, he, hperm, hpage⟩ := hp.leaf i hi
    have hsound := h.same.sound hp.sound
    unfold uvmcopyLoop
    rw [Mem.walk_false old (hp.lt hi), PageTable.find_of_look he]
    simp only [run_pure, wp_bind, wp_pure]
    obtain ⟨n₀, htook⟩ := h.took
    have hcard : Multiset.card (new.frames i) = i := PageTable.card_framesFrom fun j hj => by
      obtain ⟨e, he, -⟩ := h.leaf hp hi j hj
      rw [Nat.zero_add, he]
      exact Option.some_ne_none e
    apply kalloc_took_wp (m := new.tables + new.frames i)
    · intro s1 hs1 hfree _ hfail
      refine unmap_copied hp hi (h.same.trans hs1) (h.leaf hp hi) h.rest ?_
      exact starved_of (h.same.trans hs1) (by omega) (htook.fails hfail) (hfree.trans htook.free)
    · intro mem s1 hmem hs1 hfree hram htook1
      have hmem₀ : mem ∈ s₀.free := List.drop_subset _ _ (htook.free ▸ hmem)
      have hne : e.page ≠ mem := by
        rintro rfl
        exact hpage (Multiset.mem_add.2 (.inl hmem₀))
      have hs2 := hs1.trans (same_fill (Multiset.mem_add.2 (.inl (Multiset.mem_singleton_self mem))) (s1.ram e.page))
      have hsound2 := hs2.sound hsound
      have hcomm : {mem} + (new.tables + new.frames i) = new.tables + ({mem} + new.frames i) := add_left_comm ..
      rw [hcomm] at hs2 hsound2
      have htook2 := (htook.trans htook1).fill mem (s1.ram e.page)
      simp only [memmove, wp_bind, wp_modify]
      apply mappages_took_wp (hp.lt hi) (by rw [h.rest i (hp.lt' hi) (Nat.le_refl i), hp.none i hi])
        (hsound2.mono (Multiset.le_add_right ..))
      · intro new' s3 hg hs3 ⟨n₁, htook3⟩ hram3
        have hs3 := hs3.frame ({mem} + new.frames i)
        have hnfree : ∀ page ∈ {mem} + new.frames i, page ∉ s1.free := fun page hm hf => by
          have := Multiset.disjoint_of_nodup_add hsound2.nodup
          exact Multiset.disjoint_left.1 this hf (Multiset.mem_add.2 (.inr hm))
        have hmem3 : s3.ram mem = s₀.ram e.page := by
          rw [hram3 mem (hnfree mem (by simp)), fill_self, hram e.page hne, h.same.ram e.page hpage]
        have hkeep : ∀ page ∈ new.frames i, s3.ram page = s.ram page := fun page hm => by
          have hne : page ≠ mem := by
            rintro rfl
            exact Multiset.disjoint_left.1 (Multiset.disjoint_of_nodup_add hsound.nodup) hmem (Multiset.mem_add.2 (.inr hm))
          rw [hram3 page (hnfree page (Multiset.mem_add.2 (.inr hm))), fill_of_ne hne, hram page hne]
        have hnext := h.succ (hp.lt' hi) he hmem₀ hg (h.same.trans (hs2.trans hs3)) ⟨_, htook2.trans htook3⟩ hkeep hmem3
        rw [if_pos rfl, ← Nat.succ_mul]
        exact ih (by omega) hnext
      · intro new' s3 hg hs3 ⟨n₁, hfail3, hfree3⟩
        have hs3 := hs3.frame ({mem} + new.frames i)
        have hframes : new'.frames i = new.frames i := PageTable.frames_congr fun j _ => hg j
        have hs3' := h.same.trans (hs2.trans hs3)
        rw [← hframes, add_left_comm] at hs3'
        rw [if_neg Bool.false_ne_true, wp_bind]
        apply kfree_wp (hs3'.sound hp.sound)
        intro s4 hs4 _
        refine unmap_copied hp hi (hs3'.trans hs4) (fun j hj => ?_) (fun j hj hij => ?_) ?_
        · rw [hg j]
          exact h.leaf hp hi j hj
        · rw [hg j, h.rest j hj hij]
        · refine starved_of (h.same.trans (hs2.trans hs3)) ?_ (htook2.fails hfail3) ?_
          · rw [Multiset.card_add, Multiset.card_singleton, hcard]
            omega
          · rw [hfree3, htook2.free, List.drop_drop]

theorem copied_zero (old new : PageTable) (s : Phys) : Copied old new s 0 new s := by
  constructor
  · have : new.tables + new.frames 0 = new.tables := by simp [PageTable.frames, PageTable.framesFrom]
    rw [this]
    exact Same.refl s _
  · exact ⟨0, Took.refl s⟩
  · intro j hj
    exact absurd hj (Nat.not_lt_zero j)
  · intro j _ _
    rfl

/-- Two pages of the copy are not the same. -/
theorem Copied.inj (h : Copied old new₀ s₀ N new s) (hp : Parent old new₀ s₀ N) {j : Nat} {e e' : Pte} (hi : i < N) (hj : j < N)
    (he : new.get i = some e) (he' : new.get j = some e') (hpage : e.page = e'.page) : i = j := by
  have hnd : (new.frames N).Nodup :=
    Multiset.nodup_of_le ((Multiset.le_add_left ..).trans (Multiset.le_add_left ..)) (h.same.sound hp.sound).nodup
  exact PageTable.frames_inj (Multiset.nodup_iff_count_le_one.1 hnd) hi hj he he' hpage

theorem npages_maxva {sz : Nat} (h : sz ≤ MAXVA) : (sz + PGSIZE - 1) / PGSIZE = npages sz ∧ npages sz * PGSIZE ≤ MAXVA := by
  simp only [npages, PGROUNDUP, MAXVA, PGSIZE] at h ⊢
  omega

/-- For every tree of a parent whose pages below `sz` are mapped by leaves and every tree of a child where they are not: `uvmcopy`
returns.  The parent's tree, the memory outside the free list and the child's tree, and what the child maps above are as before.
After a success every page is mapped to a page of its own, taken from the free list, with the parent's flags and bytes.  A copy
fails only if a call of `kalloc` does; then none is mapped, and what has been taken and is not a page of the child's tree is free
again. -/
theorem uvmcopy_copies {old new : PageTable} {sz : Nat} {s : Phys} (hsz : sz ≤ MAXVA)
    (hold : ∀ i < npages sz, ∃ e, old.get i = some e ∧ e.perm ≠ {} ∧ e.page ∉ (s.free : Multiset Page) + new.tables)
    (hnew : ∀ i < npages sz, new.get i = none) (hs : s.Sound new.tables) :
    ∃ ok new' s', uvmcopy old new sz s = .ok (ok, old, new') s' ∧
      (∀ page ∉ (s.free : Multiset Page) + new.tables, s'.ram page = s.ram page) ∧
      (∀ j < 2 ^ 27, npages sz ≤ j → new'.get j = new.get j) ∧
      (ok = true →
        (∀ i < npages sz, ∃ e page, old.get i = some e ∧ new'.get i = some ⟨page, e.perm⟩ ∧ page ∈ s.free ∧
          s'.ram page = s.ram e.page) ∧
        (∀ i < npages sz, ∀ j < npages sz, ∀ e e', new'.get i = some e → new'.get j = some e' → e.page = e'.page → i = j) ∧
        (s'.free : Multiset Page) + new'.tables + new'.frames (npages sz) = s.free + new.tables) ∧
      (ok = false → (∀ i < npages sz, new'.get i = none) ∧ (s'.free : Multiset Page) + new'.tables = s.free + new.tables ∧
        Starved new s (npages sz) new') := by
  obtain ⟨hn, hle⟩ := npages_maxva hsz
  have hp : Parent old new s (npages sz) := ⟨hle, hs, hold, hnew⟩
  have hwp := uvmcopyLoop_wp (E := fun _ _ => False) hp (Nat.zero_add _) (copied_zero old new s)
  rw [Nat.zero_mul, ← hn] at hwp
  change wp (uvmcopy old new sz) _ _ s at hwp
  rw [hn] at hwp
  obtain ⟨⟨ok, old', new'⟩, s', hres, rfl, hram, hrest, hend⟩ := wp_false hwp
  refine ⟨ok, new', s', hres, hram, hrest, ?_, ?_⟩
  · rintro rfl
    rw [if_pos rfl] at hend
    refine ⟨hend.copy, fun i hi j hj e e' => hend.inj hp hi hj, ?_⟩
    rw [add_assoc]
    exact hend.same.pages
  · rintro rfl
    rwa [if_neg Bool.false_ne_true] at hend

/-- Four free pages at the start of memory, with a kernel of no pages. -/
def fourFree : Phys where
  kend := KERNBASE
  free := [0x80001, 0x80002, 0x80003, 0x80004]
  fails := []
  ram page _ := UInt8.ofNat page

theorem sound_fourFree : fourFree.Sound (PageTable.tables (.empty 0x80000)) where
  kend := Nat.le_refl _
  nodup := by
    rw [PageTable.tables, PtPage.sum_empty]
    decide
  range := by
    rw [PageTable.tables, PtPage.sum_empty]
    decide

/-- A parent with the pages 5 and 6. -/
def twoPages (perm₀ perm₁ : Perm) : PageTable :=
  (CopyBytes.bareTree.setPte (0 * PGSIZE) (some ⟨5, perm₀⟩)).setPte (1 * PGSIZE) (some ⟨6, perm₁⟩)

theorem get_twoPages (perm₀ perm₁ : Perm) : ∀ i < npages (2 * PGSIZE), ∃ e, (twoPages perm₀ perm₁).get i = some e ∧
    e = (if i = 0 then ⟨5, perm₀⟩ else ⟨6, perm₁⟩) ∧ e.page ∉ (fourFree.free : Multiset Page) + PageTable.tables (.empty 0x80000) := by
  intro i hi
  have hnot : ∀ page : Page, page = 5 ∨ page = 6 → page ∉ (fourFree.free : Multiset Page) + PageTable.tables (.empty 0x80000) := by
    rw [PageTable.tables, PtPage.sum_empty]
    rintro page (rfl | rfl) <;> decide
  obtain rfl | rfl : i = 0 ∨ i = 1 := by
    have hi : i < 2 := hi
    omega
  · exact ⟨_, rfl, rfl, hnot 5 (.inl rfl)⟩
  · exact ⟨_, rfl, rfl, hnot 6 (.inr rfl)⟩

/-- Whether the copy succeeds, or the message of its panic. -/
def outcome : EStateM.Result String Phys (Bool × PageTable × PageTable) → Bool × String
  | .ok r _ => (r.1, "")
  | .error msg _ => (false, msg)

/-- A page and a guard page are copied. -/
theorem uvmcopy_copies_twoPages : ∃ new' s', uvmcopy (twoPages ⟨true, true, false, true⟩ ⟨true, true, false, false⟩) (.empty 0x80000)
      (2 * PGSIZE) fourFree = .ok (true, twoPages ⟨true, true, false, true⟩ ⟨true, true, false, false⟩, new') s' ∧
    ∃ p q, p ≠ q ∧ new'.get 0 = some ⟨p, ⟨true, true, false, true⟩⟩ ∧ new'.get 1 = some ⟨q, ⟨true, true, false, false⟩⟩ ∧
      s'.ram p = fourFree.ram 5 ∧ s'.ram q = fourFree.ram 6 := by
  have hold : ∀ i < npages (2 * PGSIZE), ∃ e, (twoPages ⟨true, true, false, true⟩ ⟨true, true, false, false⟩).get i = some e ∧
      e.perm ≠ {} ∧ e.page ∉ (fourFree.free : Multiset Page) + PageTable.tables (.empty 0x80000) := by
    intro i hi
    obtain ⟨e, he, rfl, hpage⟩ := get_twoPages ⟨true, true, false, true⟩ ⟨true, true, false, false⟩ i hi
    refine ⟨_, he, ?_, hpage⟩
    split <;> decide
  obtain ⟨ok, new', s', hres, -, -, hok, -⟩ := uvmcopy_copies (by decide) hold (fun _ _ => rfl) sound_fourFree
  obtain rfl : ok = true := by
    have hout : (outcome (uvmcopy (twoPages ⟨true, true, false, true⟩ ⟨true, true, false, false⟩) (.empty 0x80000) (2 * PGSIZE)
      fourFree)).1 = true := by decide +kernel
    rwa [hres] at hout
  obtain ⟨hcopy, hinj, -⟩ := hok rfl
  obtain ⟨e, p, he, hp, -, hramp⟩ := hcopy 0 (by decide)
  obtain ⟨e', q, he', hq, -, hramq⟩ := hcopy 1 (by decide)
  obtain rfl : _ = e := Option.some.inj he
  obtain rfl : _ = e' := Option.some.inj he'
  refine ⟨new', s', hres, p, q, ?_, hp, hq, hramp, hramq⟩
  rintro rfl
  exact absurd (hinj 0 (by decide) 1 (by decide) _ _ hp hq rfl) (by decide)

/-- The first page of the parent is mapped without a flag, and there is no memory for the second one: its copy is no leaf for
`uvmunmap`. -/
theorem uvmcopy_not_leaf : ∃ old sz, ∃ s : Phys, sz ≤ MAXVA ∧
    (∀ i < npages sz, ∃ e, old.get i = some e ∧ e.page ∉ (s.free : Multiset Page) + PageTable.tables (.empty 0x80000)) ∧
    s.Sound (PageTable.tables (.empty 0x80000)) ∧ ∃ s', uvmcopy old (.empty 0x80000) sz s = .error "uvmunmap: not a leaf" s' := by
  refine ⟨twoPages {} ⟨true, true, false, true⟩, 2 * PGSIZE, { fourFree with fails := [false, false, false, true] }, by decide,
    fun i hi => ?_, ⟨sound_fourFree.kend, sound_fourFree.nodup, sound_fourFree.range⟩, ?_⟩
  · obtain ⟨e, he, -, hpage⟩ := get_twoPages {} ⟨true, true, false, true⟩ i hi
    exact ⟨e, he, hpage⟩
  · have hout : (outcome (uvmcopy (twoPages {} ⟨true, true, false, true⟩) (.empty 0x80000) (2 * PGSIZE)
      { fourFree with fails := [false, false, false, true] })).2 = "uvmunmap: not a leaf" := by decide +kernel
    cases hres : uvmcopy (twoPages {} ⟨true, true, false, true⟩) (.empty 0x80000) (2 * PGSIZE)
      { fourFree with fails := [false, false, false, true] } with
    | ok r s' =>
      rw [hres] at hout
      exact absurd (show "" = "uvmunmap: not a leaf" from hout) (by decide)
    | error msg s' =>
      rw [hres] at hout
      obtain rfl : msg = _ := hout
      exact ⟨s', rfl⟩

end Phys

end Xv6
