import Xv6.CopyOut
import Xv6.Lib.Wp

/-!
# Physical memory

The pages of the allocator with their bytes.  `Phys.run` makes the operations of the functions of `vm.c` on it, with page tables as
values: the bytes of a page-table page are not looked at.  Any call of `kalloc` may fail.

What a function of `vm.c` takes and gives according to `Mem.wp` it takes from the free list and gives back to it
(`Phys.run_spec`), and it writes no other page.
-/

namespace Xv6

open Function (update)

structure Phys where
  -- the kernel ends here
  kend : Nat
  free : List Page
  -- whether the next calls of `kalloc` fail, though there may be a page
  fails : List Bool
  ram : Ram

abbrev PhysM := EStateM String Phys

namespace Phys

/-- The bytes of a page. -/
def fill (page : Page) (bytes : Nat → UInt8) (s : Phys) : Phys := { s with ram := update s.ram page bytes }

@[simp] theorem fill_self (page : Page) (bytes : Nat → UInt8) (s : Phys) : (s.fill page bytes).ram page = bytes :=
  Function.update_self ..

theorem fill_of_ne {page p : Page} (h : p ≠ page) (bytes : Nat → UInt8) (s : Phys) : (s.fill page bytes).ram p = s.ram p :=
  Function.update_of_ne h ..

/-- `memset` of a whole page. -/
def memset (page : Page) (c : UInt8) : PhysM Unit := modify (fill page fun _ => c)

/-- `memmove` of a whole page. -/
def memmove (dst src : Page) : PhysM Unit := modify fun s => s.fill dst (s.ram src)

/-- The head of the free list, unless the call is to fail. -/
def take (s : Phys) : Option (Page × List Page) :=
  if s.fails.head? = some true then none
  else
    match s.free with
    | [] => none
    | page :: free => some (page, free)

def kalloc : PhysM (Option Page) := do
  let r := take (← get)
  modify fun s => { s with fails := s.fails.tail }
  match r with
  | none => pure none
  | some (page, free) => do
    modify fun s => { s with free }
    memset page 5
    pure (some page)

def kfree (page : Page) : PhysM Unit := do
  if page * PGSIZE < (← get).kend ∨ page * PGSIZE ≥ PHYSTOP then throw "kfree"
  else do
    memset page 1
    modify fun s => { s with free := page :: s.free }

/-- A function of `vm.c` with its operations.  There are no others than `kalloc` and `kfree` in them. -/
def run {α : Type} : Mem α → PhysM α
  | .ret a => pure a
  | .panic msg => throw msg
  | .call .kalloc k => do run (k (← kalloc))
  | .call (.kfree page) k => do
    kfree page
    run (k ())
  | .call _ _ => throw "no operation of vm.c"

@[simp] theorem run_pure {α : Type} (a : α) : run (pure a) = pure a := rfl

theorem run_bind {α β : Type} (p : Mem α) (f : α → Mem β) : run (p >>= f) = run p >>= fun a => run (f a) := by
  change run (p.bind f) = _
  induction p with
  | ret a => rfl
  | panic msg => rfl
  | call o k ih =>
    cases o with
    | kalloc =>
      simp only [run, Code.bind, bind_assoc]
      congr 1
      funext r
      exact ih r
    | kfree page =>
      simp only [run, Code.bind, bind_assoc]
      congr 1
      funext r
      exact ih ()
    | _ => rfl

end Phys

/-- The operations of `vm.c`. -/
def MemOp.Pages : MemOp → Prop
  | kalloc | kfree _ => True
  | _ => False

namespace Mem

/-- The code only allocates and frees pages, and uses no null pointer. -/
abbrev PageCode {α : Type} (p : Mem α) : Prop := p.Only MemOp.Pages fun msg => ¬MemPanic msg

/-- The code only allocates pages. -/
abbrev AllocCode {α : Type} (p : Mem α) : Prop := p.Only (· = .kalloc) fun msg => ¬MemPanic msg

variable {α : Type}

theorem AllocCode.pageCode {p : Mem α} (h : p.AllocCode) : p.PageCode := by
  refine Code.only_mono h (fun o ho => ?_) fun _ => id
  rw [ho]
  trivial

theorem panic_code {P : MemOp → Prop} {msg : String} (h : msg ≠ "kerneltrap") (h' : msg ≠ "init exiting") :
    (panic msg : Mem α).Only P fun msg => ¬MemPanic msg :=
  fun hp => hp.elim h h'

theorem kalloc_code : kalloc.AllocCode := Code.only_op rfl

theorem kfree_code (page : Page) : (kfree page).PageCode := Code.only_op trivial

theorem child_code (t : PtPage (PtPage α)) (i : Fin 512) (alloc : Bool) : (child t i alloc).AllocCode := by
  unfold child
  split
  · trivial
  split
  · apply Code.only_bind kalloc_code
    intro page
    cases page <;> trivial
  · trivial

theorem walk_code (t : PageTable) (va : Nat) (alloc : Bool) : (walk t va alloc).AllocCode := by
  unfold walk
  split
  · exact panic_code (by decide) (by decide)
  · apply Code.only_bind (child_code ..)
    intro t1
    cases t1 with
    | none => trivial
    | some t1 =>
      apply Code.only_bind (child_code ..)
      intro t0
      cases t0 <;> trivial

theorem mappagesLoop_code (perm : Perm) (n a : Nat) (pa : Page) (t : PageTable) : (mappagesLoop perm n a pa t).AllocCode := by
  induction n generalizing a pa t with
  | zero =>
    unfold mappagesLoop
    apply Code.only_bind (walk_code ..)
    rintro ⟨_ | _ | e, t'⟩
    · trivial
    · trivial
    · exact panic_code (by decide) (by decide)
  | succ n ih =>
    unfold mappagesLoop
    apply Code.only_bind (walk_code ..)
    rintro ⟨_ | _ | e, t'⟩
    · trivial
    · exact ih ..
    · exact panic_code (by decide) (by decide)

theorem mappages_code (t : PageTable) (va size : Nat) (pa : Page) (perm : Perm) : (mappages t va size pa perm).AllocCode := by
  unfold mappages
  split
  · exact panic_code (by decide) (by decide)
  · exact mappagesLoop_code ..

theorem uvmunmapLoop_code (doFree : Bool) (n a : Nat) (t : PageTable) : (uvmunmapLoop doFree n a t).PageCode := by
  induction n generalizing a t with
  | zero => trivial
  | succ n ih =>
    unfold uvmunmapLoop
    apply Code.only_bind (walk_code ..).pageCode
    rintro ⟨_ | _ | e, t'⟩
    · exact panic_code (by decide) (by decide)
    · exact panic_code (by decide) (by decide)
    · dsimp only
      split
      · exact panic_code (by decide) (by decide)
      · cases doFree with
        | false => exact ih ..
        | true => exact Code.only_bind (kfree_code _) fun _ => ih ..

theorem uvmunmap_code (t : PageTable) (va npages : Nat) (doFree : Bool) : (uvmunmap t va npages doFree).PageCode := by
  unfold uvmunmap
  split
  · exact panic_code (by decide) (by decide)
  · exact uvmunmapLoop_code ..

end Mem

/-! ### The pages held and the free ones -/

namespace Phys

variable {α : Type} {s : Phys} {m : Multiset Page} {page : Page}

/-- The free pages and those of `m` are distinct pages of the allocator. -/
structure Sound (s : Phys) (m : Multiset Page) : Prop where
  kend : KERNBASE ≤ s.kend
  nodup : ((s.free : Multiset Page) + m).Nodup
  range : ∀ page ∈ (s.free : Multiset Page) + m, s.kend ≤ page * PGSIZE ∧ page * PGSIZE < PHYSTOP

/-- Nothing of the memory is different but the pages of the allocator and of `m`, and these have only changed hands. -/
structure Same (s : Phys) (m : Multiset Page) (s' : Phys) (m' : Multiset Page) : Prop where
  pages : (s'.free : Multiset Page) + m' = s.free + m
  kend : s'.kend = s.kend
  ram : ∀ page ∉ (s.free : Multiset Page) + m, s'.ram page = s.ram page

theorem Same.sound {s' : Phys} {m' : Multiset Page} (h : s.Same m s' m') (hs : s.Sound m) : s'.Sound m' where
  kend := by
    rw [h.kend]
    exact hs.kend
  nodup := by
    rw [h.pages]
    exact hs.nodup
  range page hp := by
    rw [h.pages] at hp
    rw [h.kend]
    exact hs.range page hp

theorem Sound.mono {m' : Multiset Page} (hs : s.Sound m) (h : m' ≤ m) : s.Sound m' where
  kend := hs.kend
  nodup := Multiset.nodup_of_le (Multiset.add_le_add_left h) hs.nodup
  range page hp := hs.range page (Multiset.mem_of_le (Multiset.add_le_add_left h) hp)

/-- What is held is not free. -/
theorem Sound.notMem (hs : s.Sound m) (hp : page ∈ m) : page ∉ s.free := fun hf =>
  Multiset.disjoint_left.1 (Multiset.disjoint_of_nodup_add hs.nodup) hf hp

theorem Same.refl (s : Phys) (m : Multiset Page) : s.Same m s m := ⟨rfl, rfl, fun _ _ => rfl⟩

theorem Same.trans {s' s'' : Phys} {m' m'' : Multiset Page} (h : s.Same m s' m') (h' : s'.Same m' s'' m'') : s.Same m s'' m'' := by
  constructor
  · exact h'.pages.trans h.pages
  · exact h'.kend.trans h.kend
  · intro page hp
    rw [h'.ram page (by rwa [h.pages]), h.ram page hp]

/-- What is held besides stays. -/
theorem Same.frame {s' : Phys} {m' : Multiset Page} (h : s.Same m s' m') (F : Multiset Page) : s.Same (m + F) s' (m' + F) := by
  constructor
  · rw [← add_assoc, h.pages, add_assoc]
  · exact h.kend
  · intro page hp
    rw [← add_assoc, Multiset.mem_add] at hp
    exact h.ram page fun hm => hp (.inl hm)

/-- A page that is held is written. -/
theorem same_fill (hp : page ∈ m) (bytes : Nat → UInt8) : s.Same m (s.fill page bytes) m := by
  refine ⟨rfl, rfl, fun p hn => fill_of_ne ?_ ..⟩
  rintro rfl
  exact hn (Multiset.mem_add.2 (.inr hp))

theorem page_range {q : Nat} (h : KERNBASE ≤ q * PGSIZE) (h' : q * PGSIZE < PHYSTOP) :
    KERNBASE / PGSIZE ≤ q ∧ q < KERNBASE / PGSIZE + NPAGES := by
  have hk : KERNBASE / PGSIZE * PGSIZE = KERNBASE := by decide
  have hp : (KERNBASE / PGSIZE + NPAGES) * PGSIZE = PHYSTOP := by decide
  constructor
  · rw [← hk] at h
    exact Nat.le_of_mul_le_mul_right h (by decide)
  · rw [← hp] at h'
    exact Nat.lt_of_mul_lt_mul_right h'

/-- There is room for one page more than are held, as long as one is free. -/
theorem Sound.lt (hs : s.Sound m) (hp : page ∈ s.free) : Multiset.card m < NPAGES := by
  have hnd : ({page} + m).Nodup := Multiset.nodup_of_le (Multiset.add_le_add_right (Multiset.singleton_le.2 hp)) hs.nodup
  have hcard : Multiset.card ({page} + m) ≤ NPAGES := by
    rw [← Multiset.toFinset_card_of_nodup hnd]
    have hsub : ({page} + m).toFinset ⊆ Finset.Ico (KERNBASE / PGSIZE) (KERNBASE / PGSIZE + NPAGES) := by
      intro q hq
      rw [Multiset.mem_toFinset, Multiset.mem_add, Multiset.mem_singleton] at hq
      have hq' : q ∈ (s.free : Multiset Page) + m := by
        rw [Multiset.mem_add]
        apply hq.imp _ id
        rintro rfl
        exact hp
      have hr := hs.range q hq'
      have hk := hs.kend
      rw [Finset.mem_Ico]
      exact page_range (Nat.le_trans hk hr.1) hr.2
    exact (Finset.card_le_card hsub).trans (by rw [Nat.card_Ico, Nat.add_sub_cancel_left])
  rw [Multiset.card_add, Multiset.card_singleton] at hcard
  omega

/-- `take` gives the first of the free pages. -/
theorem take_some {page : Page} {free : List Page} (h : s.take = some (page, free)) : s.free = page :: free := by
  unfold take at h
  split at h
  · cases h
  · cases hf : s.free with
    | nil =>
      rw [hf] at h
      cases h
    | cons p ps =>
      rw [hf] at h
      cases h
      rfl

/-- From `s` to `s'` there are `n` calls of `kalloc` that succeed. -/
structure Took (s : Phys) (n : Nat) (s' : Phys) : Prop where
  le : n ≤ s.free.length
  answers : ∀ k < n, s.fails[k]? ≠ some true
  free : s'.free = s.free.drop n
  rest : s'.fails = s.fails.drop n

/-- The first `n` calls of `kalloc` succeed, and the next one fails. -/
def FailsAfter (s : Phys) (n : Nat) : Prop :=
  n ≤ s.free.length ∧ (∀ k < n, s.fails[k]? ≠ some true) ∧ (s.fails[n]? = some true ∨ n = s.free.length)

theorem Took.refl (s : Phys) : s.Took 0 s := ⟨Nat.zero_le _, fun k hk => absurd hk (Nat.not_lt_zero k), rfl, rfl⟩

theorem Took.trans {s' s'' : Phys} {n n' : Nat} (h : s.Took n s') (h' : s'.Took n' s'') : s.Took (n + n') s'' := by
  have hle := h'.le
  rw [h.free, List.length_drop] at hle
  refine ⟨?_, fun k hk => ?_, ?_, ?_⟩
  · have := h.le
    omega
  · by_cases hkn : k < n
    · exact h.answers k hkn
    · have := h'.answers (k - n) (by omega)
      rwa [h.rest, List.getElem?_drop, Nat.add_sub_cancel' (Nat.le_of_not_lt hkn)] at this
  · rw [h'.free, h.free, List.drop_drop]
  · rw [h'.rest, h.rest, List.drop_drop]

theorem Took.fill {s' : Phys} {n : Nat} (h : s.Took n s') (page : Page) (bytes : Nat → UInt8) : s.Took n (s'.fill page bytes) :=
  ⟨h.le, h.answers, h.free, h.rest⟩

theorem take_none (h : s.take = none) : s.FailsAfter 0 := by
  refine ⟨Nat.zero_le _, fun k hk => absurd hk (Nat.not_lt_zero k), ?_⟩
  unfold take at h
  split at h
  · left
    rwa [← List.head?_eq_getElem?]
  · cases hf : s.free with
    | nil => exact .inr rfl
    | cons p ps =>
      rw [hf] at h
      cases h

theorem Took.fails {s' : Phys} {n m : Nat} (h : s.Took n s') (h' : s'.FailsAfter m) : s.FailsAfter (n + m) := by
  obtain ⟨hle, hno, hfail⟩ := h'
  have hn := h.le
  rw [h.free, List.length_drop] at hle hfail
  refine ⟨by omega, fun k hk => ?_, hfail.imp (fun hf => ?_) fun he => by omega⟩
  · by_cases hkn : k < n
    · exact h.answers k hkn
    · have := hno (k - n) (by omega)
      rwa [h.rest, List.getElem?_drop, Nat.add_sub_cancel' (Nat.le_of_not_lt hkn)] at this
  · rwa [h.rest, List.getElem?_drop] at hf

theorem kalloc_took_wp {Q : Option Page → Phys → Prop} {E : String → Phys → Prop}
    (hnone : ∀ s', s.Same m s' m → s'.free = s.free → s'.ram = s.ram → s.FailsAfter 0 → Q none s')
    (hsome : ∀ page s', page ∈ s.free → s.Same m s' ({page} + m) → s.free = page :: s'.free →
      (∀ p ≠ page, s'.ram p = s.ram p) → s.Took 1 s' → Q (some page) s') : wp kalloc Q E s := by
  unfold kalloc
  cases h : s.take with
  | none =>
    simp only [wp_bind, wp_get, wp_modify, h, wp_pure]
    exact hnone _ ⟨rfl, rfl, fun _ _ => rfl⟩ rfl rfl (take_none h)
  | some r =>
    obtain ⟨page, free⟩ := r
    have hf := take_some h
    simp only [wp_bind, wp_get, wp_modify, h, wp_pure, memset]
    have hram : ∀ p ≠ page, update s.ram page (fun _ => 5) p = s.ram p := fun p hp => Function.update_of_ne hp ..
    refine hsome page _ (hf ▸ List.mem_cons_self) ⟨?_, rfl, fun p hp => hram p ?_⟩ hf hram ⟨?_, fun k hk hfail => ?_, ?_, ?_⟩
    · rw [hf, ← Multiset.cons_coe, ← Multiset.singleton_add]
      simp only [fill]
      ac_rfl
    · rintro rfl
      rw [hf] at hp
      exact hp (Multiset.mem_add.2 (.inl List.mem_cons_self))
    · rw [hf]
      exact Nat.succ_le_succ (Nat.zero_le _)
    · obtain rfl : k = 0 := by omega
      rw [← List.head?_eq_getElem?] at hfail
      rw [take, if_pos hfail] at h
      cases h
    · rw [hf]
      rfl
    · exact List.drop_one.symm

theorem kalloc_wp {Q : Option Page → Phys → Prop} {E : String → Phys → Prop}
    (hnone : ∀ s', s.Same m s' m → s'.free = s.free → s'.ram = s.ram → Q none s')
    (hsome : ∀ page s', page ∈ s.free → s.Same m s' ({page} + m) → s.free = page :: s'.free →
      (∀ p ≠ page, s'.ram p = s.ram p) → Q (some page) s') : wp kalloc Q E s :=
  kalloc_took_wp (fun s' hsame hf hr _ => hnone s' hsame hf hr) fun page s' hp hsame hf hr _ => hsome page s' hp hsame hf hr

theorem kfree_wp {Q : Unit → Phys → Prop} {E : String → Phys → Prop} (hs : s.Sound ({page} + m))
    (h : ∀ s', s.Same ({page} + m) s' m → s'.free = page :: s.free → Q () s') : wp (kfree page) Q E s := by
  have hr := hs.range page (by simp)
  unfold kfree
  simp only [wp_bind, wp_get, wp_ite, memset, wp_modify]
  rw [if_neg fun h => h.elim (Nat.not_lt.2 hr.1) (Nat.not_le.2 hr.2)]
  refine h _ ⟨?_, rfl, fun p hp => Function.update_of_ne ?_ ..⟩ rfl
  · simp only [fill]
    rw [← Multiset.cons_coe, ← Multiset.singleton_add]
    ac_rfl
  · rintro rfl
    simp at hp

/-! ### The functions of `vm.c` on physical memory -/

theorem ofPages_inj {m m' : Multiset Page} (h : Res.ofPages m = Res.ofPages m') : m = m' := by
  rw [← Res.pages_ofPages m, h, Res.pages_ofPages]

/-- What is freed is a page among those held. -/
theorem ofPages_page {g : Multiset Res} (h : Res.ofPages m = {.page page} + g ∨ Res.ofPages m = {.dead page} + g) :
    ∃ m', m = {page} + m' ∧ Res.ofPages m' = g := by
  cases h with
  | inl h =>
    have hm : m = {page} + Res.pages g := by
      rw [← Res.pages_ofPages m, h, Res.pages_add, Res.pages_page]
    refine ⟨Res.pages g, hm, ?_⟩
    rw [hm, Res.ofPages_add, Res.ofPages_singleton] at h
    exact add_left_cancel h
  | inr h =>
    have hd : Res.dead page ∈ Res.ofPages m := by
      rw [h]
      simp
    obtain ⟨p, -, hp⟩ := Multiset.mem_map.1 hd
    cases hp

/-- What `Mem.wp` says of a function is so for it on physical memory, and it does not panic. -/
theorem run_wp [KernelText] {p : Mem α} (hp : p.PageCode) {Q : α → Multiset Res → Prop} (h : Mem.wp p Q (Res.ofPages m)) (hs : s.Sound m)
    {Q' : α → Phys → Prop} {E : String → Phys → Prop}
    (hQ : ∀ a s' m', Q a (Res.ofPages m') → s.Same m s' m' → Q' a s') : wp (run p) Q' E s := by
  unfold Mem.wp at h
  induction p generalizing s m with
  | ret a => exact hQ a s m h (Same.refl s m)
  | panic msg => exact absurd h hp
  | call o k ih =>
    cases o with
    | kalloc =>
      unfold run
      rw [wp_bind]
      apply kalloc_wp
      · intro s' hsame _ _
        exact ih none (hp.2 none) h.2 (hsame.sound hs) fun a s'' m' ha h' => hQ a s'' m' ha (hsame.trans h')
      · intro page s' hmem hsame _ _
        refine ih (some page) (hp.2 _) (m := {page} + m) ?_ (hsame.sound hs) fun a s'' m' ha h' => hQ a s'' m' ha (hsame.trans h')
        rw [Res.ofPages_add]
        exact h.1 page (by rw [Res.pages_ofPages]; exact hs.lt hmem)
    | kfree page =>
      obtain ⟨g, hg, h⟩ := h
      obtain ⟨m', rfl, hm⟩ := ofPages_page hg
      unfold run
      rw [wp_bind]
      apply kfree_wp hs
      intro s' hsame _
      exact ih () (hp.2 ()) (hm ▸ h) (hsame.sound hs) fun a s'' m' ha h' => hQ a s'' m' ha (hsame.trans h')
    | _ => exact hp.1.elim

/-- Code that only allocates takes pages from the head of the free list, and writes no others. -/
theorem run_alloc {p : Mem α} (hp : p.AllocCode) :
    wp (run p) (fun _ s' => s'.free <:+ s.free ∧ ∀ page ∉ s.free, s'.ram page = s.ram page) (fun _ _ => True) s := by
  induction p generalizing s with
  | ret a => exact ⟨List.suffix_refl _, fun _ _ => rfl⟩
  | panic msg => trivial
  | call o k ih =>
    obtain ⟨rfl, hk⟩ := hp
    unfold run
    rw [wp_bind]
    apply kalloc_wp (m := 0)
    · intro s' _ hf hr
      rw [← hf, ← hr]
      exact ih none (hk none)
    · intro page s' hmem _ hf hr
      refine wp_mono (ih (some page) (hk _)) (fun a s'' h => ⟨?_, fun p hp => ?_⟩) fun _ _ _ => trivial
      · exact h.1.trans ⟨[page], hf.symm⟩
      · rw [h.2 p fun hm => hp (hf ▸ List.mem_cons_of_mem _ hm), hr p]
        rintro rfl
        exact hp hmem

variable {t : PageTable} {E : String → Phys → Prop}

/-- `mappages` of one page that is not mapped. -/
theorem mappages_wp {i : Nat} {pa : Page} {perm : Perm} (hi : i * PGSIZE < MAXVA) (hn : t.get i = none) (hs : s.Sound t.tables)
    {Q : Bool × PageTable → Phys → Prop}
    (hok : ∀ (t' : PageTable) s', (∀ j < 2 ^ 27, t'.get j = if j = i then some ⟨pa, perm⟩ else t.get j) →
      s.Same t.tables s' t'.tables → s'.free <:+ s.free → (∀ p ∉ s.free, s'.ram p = s.ram p) → Q (true, t') s')
    (hbad : ∀ (t' : PageTable) s', (∀ j, t'.get j = t.get j) →
      s.Same t.tables s' t'.tables → s'.free <:+ s.free → (∀ p ∉ s.free, s'.ram p = s.ram p) → Q (false, t') s') :
    wp (run (Mem.mappages t (i * PGSIZE) PGSIZE pa perm)) Q E s := by
  -- the rules of `Mem` are for any trampoline
  let _ : KernelText := ⟨0⟩
  have hcode := Mem.mappages_code t (i * PGSIZE) PGSIZE pa perm
  have h : Mem.wp (Mem.mappages t (i * PGSIZE) PGSIZE pa perm) (fun a g => g = Res.ofPages a.2.tables ∧
      if a.1 then ∀ j < 2 ^ 27, a.2.get j = if j = i then some ⟨pa, perm⟩ else t.get j else ∀ j, a.2.get j = t.get j)
      (Res.ofPages t.tables) := by
    rw [← add_zero (Res.ofPages t.tables)]
    apply Mem.mappages_wp hi hn
    · intro t' hg
      exact ⟨add_zero _, hg⟩
    · intro t' hg
      exact ⟨add_zero _, hg⟩
  have hrun : wp (run (Mem.mappages t (i * PGSIZE) PGSIZE pa perm)) (fun a s' => s.Same t.tables s' a.2.tables ∧
      if a.1 then ∀ j < 2 ^ 27, a.2.get j = if j = i then some ⟨pa, perm⟩ else t.get j else ∀ j, a.2.get j = t.get j) E s :=
    run_wp hcode.pageCode h hs fun a s' m' ha hsame => ⟨ofPages_inj ha.1 ▸ hsame, ha.2⟩
  refine wp_mono (wp_and hrun (run_alloc hcode)) ?_ fun e s' he => he.1
  rintro ⟨ok, t'⟩ s' ⟨⟨hsame, hg⟩, hfree, hram⟩
  cases ok with
  | true => exact hok t' s' hg hsame hfree hram
  | false => exact hbad t' s' hg hsame hfree hram

/-- `uvmunmap` of mapped pages, which it frees. -/
theorem uvmunmap_wp {v n : Nat} (hv : (v + n) * PGSIZE ≤ MAXVA) (hm : ∀ i < n, ∃ e, t.get (v + i) = some e ∧ e.perm ≠ {})
    (hs : s.Sound (t.framesFrom v n)) {Q : PageTable → Phys → Prop}
    (hQ : ∀ (t' : PageTable) s', t'.tables = t.tables →
      (∀ j < 2 ^ 27, t'.get j = if v ≤ j ∧ j < v + n then none else t.get j) → s.Same (t.framesFrom v n) s' 0 → Q t' s') :
    wp (run (Mem.uvmunmap t (v * PGSIZE) n true)) Q E s := by
  let _ : KernelText := ⟨0⟩
  have h : Mem.wp (Mem.uvmunmap t (v * PGSIZE) n true) (fun t' g => g = 0 ∧ t'.tables = t.tables ∧
      ∀ j < 2 ^ 27, t'.get j = if v ≤ j ∧ j < v + n then none else t.get j) (Res.ofPages (t.framesFrom v n)) := by
    rw [← add_zero (Res.ofPages _)]
    apply Mem.uvmunmap_wp true hv hm
    intro t' ht hg
    exact ⟨rfl, ht, hg⟩
  apply run_wp (Mem.uvmunmap_code ..) h hs
  intro t' s' m' ha hsame
  have hzero : m' = 0 := ofPages_inj (ha.1.trans Res.ofPages_zero.symm)
  rw [hzero] at hsame
  exact hQ t' s' ha.2.1 ha.2.2 hsame

end Phys

end Xv6
