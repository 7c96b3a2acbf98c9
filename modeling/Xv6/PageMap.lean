import Mathlib.Data.List.ReduceOption
import Xv6.PageWalk

/-!
# Page tables as maps

The words of a tree of page-table pages stand for a map from virtual page numbers to a physical address and flags (`Kmem.get`).
`walk` changes it in no way, also where it adds pages to the tree; `mappages` maps pages one after the other, and `uvmunmap` removes
them (`Kmem.page_tables_refine`).
-/

namespace Xv6

namespace Kmem

open Function (update)

/-- The page-table page that an entry refers to. -/
def next (pte : BitVec 64) : Option (BitVec 64) := if pte &&& PTE_V = 0 then none else some (PTE2PA pte)

/-- The indices of an address, the lowest level first. -/
def path (va : Nat) : List (Fin 512) := [PX 0 va, PX 1 va, PX 2 va]

def node (s : Kmem) (root : BitVec 64) (p : List (Fin 512)) : Option (BitVec 64) := Radix.node next s.word root p

/-- No page-table page is reached twice. -/
def Tree (s : Kmem) (root : BitVec 64) : Prop := Radix.Tree next s.word root 2

def Outside (s : Kmem) (root pa : BitVec 64) : Prop := Radix.Outside next s.word root 2 pa

/-- The physical address and the flags at an address. -/
def lookup (s : Kmem) (root : BitVec 64) (va : Nat) : Option (BitVec 64 × BitVec 64) :=
  (Radix.word next s.word root (path va)).bind fun pte => if pte &&& PTE_V = 0 then none else some (PTE2PA pte, PTE_FLAGS pte)

/-- The map of a page table. -/
def get (s : Kmem) (root : BitVec 64) (v : Nat) : Option (BitVec 64 × BitVec 64) := s.lookup root (v * PGSIZE)

/-- `kalloc` returns aligned pages that are not in the tree; as a page is in the tree then, it does not return it again. -/
def Fresh (s : Kmem) (root : BitVec 64) : Prop :=
  (∀ pa, some pa ∈ s.answers → pa.toNat % PGSIZE = 0 ∧ s.Outside root pa) ∧ s.answers.reduceOption.Nodup

structure Good (s : Kmem) (root : BitVec 64) : Prop where
  tree : s.Tree root
  fresh : s.Fresh root

variable {s : Kmem} {root : BitVec 64}

theorem next_of_valid {pte : BitVec 64} (h : pte &&& PTE_V ≠ 0) : next pte = some (PTE2PA pte) := if_neg h

theorem next_of_invalid {pte : BitVec 64} (h : pte &&& PTE_V = 0) : next pte = none := if_pos h

theorem lookup_eq {va : Nat} {a : BitVec 64} (h : s.node root [PX 1 va, PX 2 va] = some a) : s.lookup root va =
    if s.load (a, PX 0 va) &&& PTE_V = 0 then none else some (PTE2PA (s.load (a, PX 0 va)), PTE_FLAGS (s.load (a, PX 0 va))) := by
  rw [lookup, path, Radix.word_cons h]
  rfl

theorem lookup_eq_none {va : Nat} (h : s.node root [PX 1 va, PX 2 va] = none) : s.lookup root va = none := by
  unfold node at h
  rw [lookup, path, Radix.word, h]
  rfl

/-! ### Pages that are not in the tree -/

/-- The memory of a page outside changes. -/
theorem Good.fill (h : s.Good root) {pa : BitVec 64} (hpa : s.Outside root pa) (w : BitVec 64) : (s.memset pa w).Good root where
  tree := Radix.tree_fill h.tree hpa _
  fresh := by
    refine ⟨fun pb hb => ⟨(h.fresh.1 pb hb).1, fun q hq => ?_⟩, h.fresh.2⟩
    show Radix.node next (update s.word pa fun _ => w) root q ≠ some pb
    rw [Radix.node_fill hpa _ (by omega)]
    exact (h.fresh.1 pb hb).2 q hq

theorem node_memset {pa : BitVec 64} (hpa : s.Outside root pa) (w : BitVec 64) {q : List (Fin 512)} (hq : q.length ≤ 3) :
    (s.memset pa w).node root q = s.node root q := Radix.node_fill hpa _ hq

theorem lookup_memset {pa : BitVec 64} (hpa : s.Outside root pa) (w : BitVec 64) (va : Nat) :
    (s.memset pa w).lookup root va = s.lookup root va := by
  rw [lookup, path, memset, Radix.word_fill hpa _ (by simp), lookup, path]

/-- What `kalloc` gives. -/
theorem kalloc_spec (h : s.Good root) : (∃ l, s.kalloc = (none, { s with answers := l }) ∧ Good { s with answers := l } root) ∨
    ∃ pa l, s.kalloc = (some pa, { s with answers := l }.memset pa 0x0505050505050505#64) ∧ pa.toNat % PGSIZE = 0 ∧ s.Outside root pa ∧
      Good { s with answers := l } root ∧ some pa ∉ l := by
  obtain ⟨ht, hf, hnd⟩ := h
  unfold kalloc
  cases ha : s.answers with
  | nil =>
    refine .inl ⟨[], by simp only [← ha], ht, ?_⟩
    rw [← ha]
    exact ⟨hf, hnd⟩
  | cons x l =>
    rw [ha] at hf hnd
    cases x with
    | none => exact .inl ⟨l, rfl, ht, fun pa hpa => hf pa (List.mem_cons_of_mem _ hpa), hnd⟩
    | some pa =>
      rw [List.reduceOption_cons_of_some, List.nodup_cons, List.reduceOption_mem_iff] at hnd
      exact .inr ⟨pa, l, rfl, (hf pa (List.mem_cons_self ..)).1, (hf pa (List.mem_cons_self ..)).2,
        ⟨ht, fun pb hpb => hf pb (List.mem_cons_of_mem _ hpb), hnd.2⟩, hnd.1⟩

/-! ### `walk` -/

/-- The new page-table page of one level. -/
theorem link_spec (h : s.Good root) {p : List (Fin 512)} {a : BitVec 64} {i : Fin 512} (ha : s.node root p = some a) (hp : p.length < 2)
    (hi : s.load (a, i) &&& PTE_V = 0) {pa junk : BitVec 64} (hpa : s.Outside root pa) (hal : pa.toNat % PGSIZE = 0)
    (hno : some pa ∉ s.answers) {t : Kmem} (ht : t = ((s.memset pa junk).memset pa 0).put (a, i) (PA2PTE pa ||| PTE_V)) :
    t.Good root ∧ t.node root (i :: p) = some pa ∧ ∀ va, t.lookup root va = s.lookup root va := by
  have hword : t.word = Radix.store (update s.word pa fun _ => 0) a i (PA2PTE pa ||| PTE_V) := by
    rw [ht, put, memset, memset, Function.update_idem]
  have hnext : next (PA2PTE pa ||| PTE_V) = some pa := by rw [next_of_valid (valid_or _), PTE2PA_table hal]
  have hz (j : Fin 512) : next ((fun _ : Fin 512 => (0 : BitVec 64)) j) = none := next_of_invalid (by simp)
  have hin : next (s.word a i) = none := next_of_invalid hi
  refine ⟨⟨?_, fun pb hb => ?_, ?_⟩, ?_, fun va => ?_⟩
  · rw [Tree, hword]
    exact Radix.tree_link h.tree ha hp hin hpa hnext hz
  · have hb : some pb ∈ s.answers := by rwa [ht] at hb
    refine ⟨(h.fresh.1 pb hb).1, ?_⟩
    rw [Outside, hword]
    refine Radix.outside_link h.tree ha hp hin hpa hnext hz (h.fresh.1 pb hb).2 ?_
    rintro rfl
    exact hno hb
  · rw [ht]
    exact h.fresh.2
  · rw [node, hword, Radix.node_link h.tree ha hp hin hpa hnext hz (by simp; omega), if_pos rfl]
  · rw [lookup, hword, path, Radix.word_link h.tree ha hp hin hpa hnext hz rfl, lookup, path]
    split
    · rename_i he
      -- an entry of the new page; before there was none
      have hn : Radix.node next s.word root [PX 1 va, PX 2 va] = none := by rw [he, Radix.node_cons ha, hin]
      rw [Radix.word, hn]
      simp
    · rfl

/-- The indices of the levels below `level`, before those of `p`. -/
def down (va : Nat) : Nat → List (Fin 512) → List (Fin 512)
  | 0, p => p
  | level + 1, p => down va level (PX (level + 1) va :: p)

theorem walkLoop_alloc (va level : Nat) {p : List (Fin 512)} {pagetable : BitVec 64} (h : s.Good root)
    (hpt : s.node root p = some pagetable) (hp : p.length + level = 2) {r : Option (BitVec 64) × Kmem}
    (hr : walkLoop va true level pagetable s = r) :
    r.2.Good root ∧ (∀ vb, r.2.lookup root vb = s.lookup root vb) ∧ ∀ a, r.1 = some a → r.2.node root (down va level p) = some a := by
  induction level generalizing p pagetable s with
  | zero =>
    subst hr
    refine ⟨h, fun _ => rfl, fun a ha => ?_⟩
    cases ha
    exact hpt
  | succ level ih =>
    rw [walkLoop] at hr
    by_cases hv : s.load (pagetable, PX (level + 1) va) &&& PTE_V = 0
    · rw [if_neg (not_not_intro hv), if_pos rfl] at hr
      rcases kalloc_spec h with ⟨l, hk, hg⟩ | ⟨pa, l, hk, hal, hpa, hg, hno⟩
      · rw [hk] at hr
        subst hr
        exact ⟨hg, fun _ => rfl, fun _ ha => nomatch ha⟩
      · rw [hk] at hr
        obtain ⟨hg', hn, hl⟩ := link_spec hg (i := PX (level + 1) va) hpt (by omega) hv hpa hal hno rfl
        obtain ⟨h1, h2, h3⟩ := ih hg' hn (by simp; omega) hr
        exact ⟨h1, fun vb => (h2 vb).trans (hl vb), h3⟩
    · rw [if_pos hv] at hr
      refine ih h ?_ (by simp; omega) hr
      exact (Radix.node_cons hpt).trans (next_of_valid hv)

/-- Without `alloc` nothing changes. -/
theorem walkLoop_find {va level : Nat} {p : List (Fin 512)} {pagetable : BitVec 64} (hpt : s.node root p = some pagetable) :
    walkLoop va false level pagetable s = (s.node root (down va level p), s) := by
  induction level generalizing p pagetable with
  | zero => rw [walkLoop, down, hpt]
  | succ level ih =>
    rw [walkLoop]
    have hn : s.node root (PX (level + 1) va :: p) = next (s.load (pagetable, PX (level + 1) va)) := Radix.node_cons hpt
    by_cases hv : s.load (pagetable, PX (level + 1) va) &&& PTE_V = 0
    · rw [if_neg (not_not_intro hv), if_neg (by decide)]
      rw [next_of_invalid hv] at hn
      have hd (q : List (Fin 512)) (k : Nat) (hq : s.node root q = none) : s.node root (down va k q) = none := by
        induction k generalizing q with
        | zero => exact hq
        | succ k ihk => exact ihk _ (by rw [node, Radix.node, ← node, hq]; rfl)
      rw [down, hd _ _ hn]
    · rw [if_pos hv]
      rw [next_of_valid hv] at hn
      exact ih hn

theorem walk_find {va : Nat} (h : va < MAXVA) :
    s.walk root va false = .ok ((s.node root [PX 1 va, PX 2 va]).map (·, PX 0 va), s) := by
  rw [walk, if_neg (by omega), walkLoop_find (p := []) rfl]
  rfl

theorem walk_alloc {va : Nat} (h : s.Good root) (hva : va < MAXVA) : ∃ pte t, s.walk root va true = .ok (pte, t) ∧ t.Good root ∧
    (∀ vb, t.lookup root vb = s.lookup root vb) ∧ ∀ x, pte = some x → ∃ a, x = (a, PX 0 va) ∧ t.node root [PX 1 va, PX 2 va] = some a := by
  obtain ⟨hg, hl, hn⟩ := walkLoop_alloc va 2 (p := []) h rfl rfl rfl
  rw [walk, if_neg (by omega)]
  refine ⟨_, _, rfl, hg, hl, fun x hx => ?_⟩
  obtain ⟨a, ha, rfl⟩ := Option.map_eq_some_iff.1 hx
  exact ⟨a, rfl, hn a ha⟩

/-! ### One entry -/

theorem path_same {v u : Nat} (hv : v < 2 ^ 27) (hu : u < 2 ^ 27) : path (u * PGSIZE) = path (v * PGSIZE) ↔ u = v := by
  rw [← PageTable.same_page hv hu, path, path, PageTable.Same]
  simp only [List.cons.injEq, and_true]
  exact ⟨fun h => ⟨h.2.2, h.2.1, h.1⟩, fun h => ⟨h.2.2, h.2.1, h.1⟩⟩

/-- An entry of the lowest level is written. -/
theorem put_spec (h : s.Good root) {v : Nat} {a w : BitVec 64} (ha : s.node root [PX 1 (v * PGSIZE), PX 2 (v * PGSIZE)] = some a)
    (hv : v < 2 ^ 27) {t : Kmem} (ht : t = s.put (a, PX 0 (v * PGSIZE)) w) : t.Good root ∧ (∀ q, q.length ≤ 2 → t.node root q = s.node root q) ∧
      ∀ u < 2 ^ 27, t.get root u =
        if u = v then (if w &&& PTE_V = 0 then none else some (PTE2PA w, PTE_FLAGS w)) else s.get root u := by
  subst ht
  refine ⟨⟨Radix.tree_store h.tree ha rfl, fun pb hb => ?_, h.fresh.2⟩, fun q hq => Radix.node_store h.tree ha rfl hq, fun u hu => ?_⟩
  · exact ⟨(h.fresh.1 pb hb).1, Radix.outside_store h.tree ha rfl (h.fresh.1 pb hb).2⟩
  · rw [get, lookup, path, put, Radix.word_store h.tree ha rfl rfl]
    by_cases huv : u = v
    · subst huv
      rw [if_pos rfl, if_pos rfl]
      rfl
    · have hne : ¬ (path (u * PGSIZE) = path (v * PGSIZE)) := fun he => huv ((path_same hv hu).1 he)
      rw [if_neg huv]
      exact congrArg (Option.bind · _) (if_neg hne)

/-! ### `mappages` -/

/-- The `n` pages from number `v` on are mapped to the pages from `pa` on. -/
def setRange (f : Nat → Option (BitVec 64 × BitVec 64)) (v n : Nat) (pa perm : BitVec 64) (u : Nat) : Option (BitVec 64 × BitVec 64) :=
  if v ≤ u ∧ u < v + n then some (pa + BitVec.ofNat 64 ((u - v) * PGSIZE), perm ||| PTE_V) else f u

theorem setRange_zero (f : Nat → Option (BitVec 64 × BitVec 64)) (v : Nat) (pa perm : BitVec 64) (u : Nat) :
    setRange f v 0 pa perm u = f u := if_neg (by omega)

/-- One page more. -/
theorem setRange_succ (f : Nat → Option (BitVec 64 × BitVec 64)) (v n : Nat) (pa perm : BitVec 64) (u : Nat) :
    setRange (fun u => if u = v then some (pa, perm ||| PTE_V) else f u) (v + 1) n (pa + 4096#64) perm u =
      setRange f v (n + 1) pa perm u := by
  unfold setRange
  beta_reduce
  by_cases huv : u = v
  · subst huv
    rw [if_neg (by omega), if_pos rfl, if_pos (by omega), Nat.sub_self, Nat.zero_mul]
    simp
  · by_cases hu : v + 1 ≤ u ∧ u < v + 1 + n
    · have hd : (u - v) * PGSIZE = 4096 + (u - (v + 1)) * PGSIZE := by
        have : u - v = u - (v + 1) + 1 := by omega
        rw [this, Nat.add_mul, Nat.one_mul, Nat.add_comm]
        rfl
      rw [if_pos hu, if_pos (by omega), hd, BitVec.ofNat_add, BitVec.add_assoc]
    · rw [if_neg hu, if_neg huv, if_neg (by omega)]

theorem lt_MAXVA {v : Nat} (h : v < 2 ^ 26) : v * PGSIZE < MAXVA := by
  show v * 4096 < 2 ^ 38
  omega

/-- What `mappages` may return for the `n` pages from number `v` on: all are mapped, or a first part as there is no memory, or one of them
was mapped before. -/
inductive Mapped (s : Kmem) (root : BitVec 64) (v n : Nat) (pa perm : BitVec 64) : Except String (Int × Kmem) → Prop
  | all (t : Kmem) (hg : t.Good root) (hm : ∀ u < 2 ^ 27, t.get root u = setRange (s.get root) v n pa perm u) : Mapped s root v n pa perm (.ok (0, t))
  | part (t : Kmem) (j : Nat) (hj : j < n) (hg : t.Good root) (hm : ∀ u < 2 ^ 27, t.get root u = setRange (s.get root) v j pa perm u) :
    Mapped s root v n pa perm (.ok (-1, t))
  | remap (u : Nat) (hv : v ≤ u) (hu : u < v + n) (hm : s.get root u ≠ none) : Mapped s root v n pa perm (.error "mappages: remap")

theorem mappagesLoop_spec {pa perm : BitVec 64} {v k fuel : Nat} (h : s.Good root) (hv : v + k < 2 ^ 26) (hk : k < fuel)
    (hpa : pa.toNat % PGSIZE = 0) (hp : perm.toNat < 2 ^ 10) :
    Mapped s root v (k + 1) pa perm (mappagesLoop root ((v + k) * PGSIZE) perm fuel (v * PGSIZE) pa s) := by
  induction fuel generalizing s v k pa with
  | zero => omega
  | succ fuel ih =>
    obtain ⟨pte, t, hw, hg, hl, hn⟩ := walk_alloc h (lt_MAXVA (v := v) (by omega))
    have hget (u : Nat) : t.get root u = s.get root u := hl _
    rw [mappagesLoop, hw]
    cases pte with
    | none => exact .part t 0 (by omega) hg fun u _ => (hget u).trans (setRange_zero ..).symm
    | some x =>
      obtain ⟨a, rfl, ha⟩ := hn x rfl
      have hlk := lookup_eq ha
      show Mapped s root v (k + 1) pa perm (if t.load (a, PX 0 (v * PGSIZE)) &&& PTE_V ≠ 0 then _ else _)
      by_cases hval : t.load (a, PX 0 (v * PGSIZE)) &&& PTE_V = 0
      · rw [if_neg (not_not_intro hval)]
        obtain ⟨hg', -, hput⟩ := put_spec hg (w := PA2PTE pa ||| perm ||| PTE_V) ha (by omega) rfl
        have hput' (u : Nat) (hu : u < 2 ^ 27) : (t.put (a, PX 0 (v * PGSIZE)) (PA2PTE pa ||| perm ||| PTE_V)).get root u =
            if u = v then some (pa, perm ||| PTE_V) else s.get root u := by
          rw [hput u hu, if_neg (valid_or _), PTE2PA_PA2PTE hpa hp, PTE_FLAGS_PA2PTE hp, hget]
        cases k with
        | zero =>
          simp only [Nat.add_zero, if_true]
          refine .all _ hg' fun u hu => ?_
          rw [hput' u hu, ← setRange_succ, setRange_zero]
        | succ k =>
          have hne : ¬ v * PGSIZE = (v + (k + 1)) * PGSIZE := by
            show ¬ v * 4096 = (v + (k + 1)) * 4096
            omega
          have hlast : (v + (k + 1)) * PGSIZE = (v + 1 + k) * PGSIZE := by rw [Nat.add_assoc v 1 k, Nat.add_comm 1 k]
          have hnext : v * PGSIZE + PGSIZE = (v + 1) * PGSIZE := by rw [Nat.add_mul, Nat.one_mul]
          have hpa' : (pa + 4096#64).toNat % PGSIZE = 0 := by
            have hP : PGSIZE = 4096 := rfl
            rw [BitVec.toNat_add, hP]
            rw [hP] at hpa
            simp only [BitVec.toNat_ofNat]
            omega
          simp only [if_neg hne]
          rw [hlast, hnext]
          have hrange (j u : Nat) (hu : u < 2 ^ 27) : setRange ((t.put (a, PX 0 (v * PGSIZE)) (PA2PTE pa ||| perm ||| PTE_V)).get root) (v + 1) j
              (pa + 4096#64) perm u = setRange (s.get root) v (j + 1) pa perm u := by
            rw [← setRange_succ]
            unfold setRange
            split
            · rfl
            · exact hput' u hu
          have hih := ih hg' (v := v + 1) (k := k) (by omega) (by omega) hpa'
          generalize mappagesLoop root ((v + 1 + k) * PGSIZE) perm fuel ((v + 1) * PGSIZE) (pa + 4096#64) _ = r at hih ⊢
          cases hih with
          | all t' hg' hm => exact .all t' hg' fun u hu => (hm u hu).trans (hrange _ u hu)
          | part t' j hj hg' hm => exact .part t' (j + 1) (by omega) hg' fun u hu => (hm u hu).trans (hrange _ u hu)
          | remap u hvu hu hm =>
            refine .remap u (by omega) (by omega) ?_
            rwa [hput' u (by omega), if_neg (by omega)] at hm
      · rw [if_pos hval]
        refine .remap v (Nat.le_refl _) (by omega) ?_
        rw [← hget, get, hlk, if_neg hval]
        simp

/-! ### `uvmunmap` -/

/-- The `n` pages from number `v` on are removed. -/
def unsetRange (f : Nat → Option (BitVec 64 × BitVec 64)) (v n u : Nat) : Option (BitVec 64 × BitVec 64) :=
  if v ≤ u ∧ u < v + n then none else f u

/-- What `uvmunmap` takes: a page that is mapped, with flags besides `PTE_V`; to be freed, it is a page of memory that is not a page-table page. -/
def Removable (s : Kmem) (kend : Nat) (root : BitVec 64) (doFree : Bool) (x : BitVec 64 × BitVec 64) : Prop :=
  x.2 ≠ PTE_V ∧ (doFree = true → x.1.toNat % PGSIZE = 0 ∧ kend ≤ x.1.toNat ∧ x.1.toNat < PHYSTOP ∧ s.Outside root x.1)

/-- The page of an entry is freed, if it is to be. -/
theorem free_spec (h : s.Good root) {kend : Nat} {doFree : Bool} {x : BitVec 64 × BitVec 64} (hx : s.Removable kend root doFree x) :
    ∃ t, s.freeIf doFree kend x.1 = .ok t ∧ t.Good root ∧
      (∀ q, q.length ≤ 3 → t.node root q = s.node root q) ∧ ∀ va, t.lookup root va = s.lookup root va := by
  cases doFree with
  | false => exact ⟨s, rfl, h, fun _ _ => rfl, fun _ => rfl⟩
  | true =>
    obtain ⟨-, hx⟩ := hx
    obtain ⟨h1, h2, h3, h4⟩ := hx rfl
    refine ⟨s.memset x.1 0x0101010101010101#64, ?_, h.fill h4 _, fun q hq => node_memset h4 _ hq, lookup_memset h4 _⟩
    rw [freeIf, if_pos rfl, kfree, if_neg (by omega)]

theorem uvmunmapLoop_spec {kend v n fuel : Nat} {doFree : Bool} (h : s.Good root) (hv : v + n ≤ 2 ^ 26) (hn : n < fuel)
    (hm : ∀ u, v ≤ u → u < v + n → ∃ x, s.get root u = some x ∧ s.Removable kend root doFree x) :
    ∃ t, uvmunmapLoop kend root ((v + n) * PGSIZE) doFree fuel (v * PGSIZE) s = .ok t ∧ t.Good root ∧
      ∀ u < 2 ^ 27, t.get root u = unsetRange (s.get root) v n u := by
  induction fuel generalizing s v n with
  | zero => omega
  | succ fuel ih =>
    rw [uvmunmapLoop]
    cases n with
    | zero =>
      refine ⟨s, if_neg (Nat.lt_irrefl _), h, fun u _ => ?_⟩
      rw [unsetRange, if_neg (by omega)]
    | succ n =>
      have hlt : v * PGSIZE < (v + (n + 1)) * PGSIZE := by
        show v * 4096 < (v + (n + 1)) * 4096
        omega
      obtain ⟨x, hx, hr⟩ := hm v (Nat.le_refl _) (by omega)
      rw [if_pos hlt, walk_find (lt_MAXVA (by omega))]
      cases ha : s.node root [PX 1 (v * PGSIZE), PX 2 (v * PGSIZE)] with
      | none =>
        rw [get, lookup_eq_none ha] at hx
        cases hx
      | some a =>
        rw [get, lookup_eq ha] at hx
        by_cases hval : s.load (a, PX 0 (v * PGSIZE)) &&& PTE_V = 0
        · rw [if_pos hval] at hx
          cases hx
        rw [if_neg hval, Option.some.injEq] at hx
        subst hx
        obtain ⟨t, ht, hg, hnode, hl⟩ := free_spec h hr
        have hat : t.node root [PX 1 (v * PGSIZE), PX 2 (v * PGSIZE)] = some a := (hnode _ (by simp)).trans ha
        obtain ⟨hg', hnode', hput⟩ := put_spec hg (w := 0) hat (by omega) rfl
        have hput' (u : Nat) (hu : u < 2 ^ 27) : (t.put (a, PX 0 (v * PGSIZE)) 0).get root u = if u = v then none else s.get root u := by
          have hgt : t.get root u = s.get root u := hl _
          have hz : (0 : BitVec 64) &&& PTE_V = 0 := by simp
          rw [hput u hu, hgt, if_pos hz]
        have hlast : (v + (n + 1)) * PGSIZE = (v + 1 + n) * PGSIZE := by rw [Nat.add_assoc v 1 n, Nat.add_comm 1 n]
        have hnext : v * PGSIZE + PGSIZE = (v + 1) * PGSIZE := by rw [Nat.add_mul, Nat.one_mul]
        have hm' (u : Nat) (hvu : v + 1 ≤ u) (hu : u < v + 1 + n) : ∃ x, (t.put (a, PX 0 (v * PGSIZE)) 0).get root u = some x ∧
            (t.put (a, PX 0 (v * PGSIZE)) 0).Removable kend root doFree x := by
          obtain ⟨x, hx, h1, h2⟩ := hm u (by omega) (by omega)
          refine ⟨x, ?_, h1, fun hd => ?_⟩
          · rw [hput' u (by omega), if_neg (by omega), hx]
          · obtain ⟨h3, h4, h5, h6⟩ := h2 hd
            refine ⟨h3, h4, h5, fun q hq => ?_⟩
            have := h6 q hq
            rwa [← node, ← hnode q (by omega), ← hnode' q hq] at this
        obtain ⟨t', ht', hg'', hget⟩ := ih hg' (v := v + 1) (n := n) (by omega) (by omega) hm'
        refine ⟨t', ?_, hg'', fun u hu => ?_⟩
        · have hflags : ¬ PTE_FLAGS (s.load (a, PX 0 (v * PGSIZE))) = PTE_V := hr.1
          show (if s.load (a, PX 0 (v * PGSIZE)) &&& PTE_V = 0 then _ else if PTE_FLAGS (s.load (a, PX 0 (v * PGSIZE))) = PTE_V then _ else
            s.freeIf doFree kend (PTE2PA (s.load (a, PX 0 (v * PGSIZE)))) >>= fun t =>
              uvmunmapLoop kend root _ doFree fuel _ (t.put (a, PX 0 (v * PGSIZE)) 0)) = _
          rw [if_neg hval, if_neg hflags, ht, hlast, hnext]
          exact ht'
        · rw [hget u hu]
          unfold unsetRange
          by_cases huv : u = v
          · subst huv
            rw [if_neg (by omega), hput' u hu, if_pos rfl, if_pos (by omega)]
          · by_cases hin : v + 1 ≤ u ∧ u < v + 1 + n
            · rw [if_pos hin, if_pos (by omega)]
            · rw [if_neg hin, hput' u hu, if_neg huv, if_neg (by omega)]

/-! ### The map -/

/-- The number of pages from the one of `va` to the one of `va + size - 1`. -/
def npages (va size : Nat) : Nat := (va + size - 1) / PGSIZE - va / PGSIZE + 1

theorem mappages_spec (h : s.Good root) (va size : Nat) (pa perm : BitVec 64) (hsize : 0 < size) (hva : va + size ≤ MAXVA)
    (hpa : pa.toNat % PGSIZE = 0) (hp : perm.toNat < 2 ^ 10) :
    Mapped s root (va / PGSIZE) (npages va size) pa perm (s.mappages root va size pa perm) := by
  have hP : PGSIZE = 4096 := rfl
  have hM : MAXVA = 2 ^ 38 := rfl
  have hle : va / PGSIZE ≤ (va + size - 1) / PGSIZE := Nat.div_le_div_right (by omega)
  have hlast : PGROUNDDOWN ((va + size - 1) % 2 ^ 64) = (va / PGSIZE + ((va + size - 1) / PGSIZE - va / PGSIZE)) * PGSIZE := by
    rw [Nat.mod_eq_of_lt (by omega), PGROUNDDOWN, Nat.add_sub_cancel' hle]
  rw [mappages, if_neg (by omega), hlast]
  refine mappagesLoop_spec h ?_ ?_ hpa hp
  · rw [Nat.add_sub_cancel' hle, hP]
    omega
  · rw [hM, hP]
    omega

theorem uvmunmap_spec (h : s.Good root) {kend v n : Nat} {doFree : Bool} (hv : (v + n) * PGSIZE ≤ MAXVA)
    (hm : ∀ u, v ≤ u → u < v + n → ∃ x, s.get root u = some x ∧ s.Removable kend root doFree x) :
    ∃ t, s.uvmunmap kend root (v * PGSIZE) n doFree = .ok t ∧ t.Good root ∧ ∀ u < 2 ^ 27, t.get root u = unsetRange (s.get root) v n u := by
  have hP : PGSIZE = 4096 := rfl
  have hM : MAXVA = 2 ^ 38 := rfl
  rw [hM, hP] at hv
  have hlast : (v * PGSIZE + n * PGSIZE) % 2 ^ 64 = (v + n) * PGSIZE := by
    rw [← Nat.add_mul, Nat.mod_eq_of_lt (by rw [hP]; omega)]
  rw [uvmunmap, if_neg (by simp), hlast]
  refine uvmunmapLoop_spec h (by omega) ?_ hm
  rw [hM, hP]
  omega

/-- A page table refines a map: `walk` does not change it, `mappages` adds to it, and `uvmunmap` removes from it. -/
theorem page_tables_refine (h : s.Good root) :
    (∀ va < MAXVA, ∃ pte, s.walk root va false = .ok (pte, s)) ∧
    (∀ va < MAXVA, ∃ pte t, s.walk root va true = .ok (pte, t) ∧ t.Good root ∧ ∀ u, t.get root u = s.get root u) ∧
    (∀ va size pa perm, 0 < size → va + size ≤ MAXVA → pa.toNat % PGSIZE = 0 → pa.toNat + npages va size * PGSIZE ≤ 2 ^ 56 →
      perm.toNat < 2 ^ 10 → Mapped s root (va / PGSIZE) (npages va size) pa perm (s.mappages root va size pa perm)) ∧
    ∀ kend v n doFree, (v + n) * PGSIZE ≤ MAXVA →
      (∀ u, v ≤ u → u < v + n → ∃ x, s.get root u = some x ∧ s.Removable kend root doFree x) →
      ∃ t, s.uvmunmap kend root (v * PGSIZE) n doFree = .ok t ∧ t.Good root ∧
        ∀ u < 2 ^ 27, t.get root u = unsetRange (s.get root) v n u := by
  refine ⟨fun va hva => ⟨_, walk_find hva⟩, fun va hva => ?_, fun va size pa perm h0 h1 h2 _ h3 => mappages_spec h va size pa perm h0 h1 h2 h3,
    fun kend v n doFree hv hm => uvmunmap_spec h hv hm⟩
  obtain ⟨pte, t, hw, hg, hl, -⟩ := walk_alloc h hva
  exact ⟨pte, t, hw, hg, fun u => hl _⟩

/-- An empty page table at the page 1 of the memory, with two pages to come. -/
def emptyTable : Kmem := ⟨fun _ _ => 0, [some 0x80002000#64, some 0x80003000#64]⟩

theorem emptyTable_good : emptyTable.Good 0x80001000#64 := by
  have hz (i : Fin 512) : next (emptyTable.word 0x80001000#64 i) = none := next_of_invalid (by simp [emptyTable])
  refine ⟨Radix.tree_of_empty hz 2, fun pa hpa => ?_, by decide⟩
  simp only [emptyTable, List.mem_cons, Option.some.injEq, List.not_mem_nil, or_false] at hpa
  rcases hpa with rfl | rfl <;> exact ⟨by decide, Radix.outside_of_empty hz (by decide) 2⟩

/-- A page is mapped, and removed again. -/
theorem page_tables_refine_emptyTable : ∃ t u : Kmem,
    emptyTable.mappages 0x80001000#64 0 PGSIZE 0x80004000#64 0x16#64 = .ok (0, t) ∧ t.Good 0x80001000#64 ∧
    t.get 0x80001000#64 0 = some (0x80004000#64, 0x17#64) ∧
    t.uvmunmap KERNBASE 0x80001000#64 0 1 false = .ok u ∧ u.Good 0x80001000#64 ∧ u.get 0x80001000#64 0 = none := by
  have hm := (page_tables_refine emptyTable_good).2.2.1 0 PGSIZE 0x80004000#64 0x16#64 (by decide) (by decide) (by decide) (by decide)
    (by decide)
  have h0 : (emptyTable.mappages 0x80001000#64 0 PGSIZE 0x80004000#64 0x16#64).map (·.1) = .ok 0 := by decide +kernel
  generalize emptyTable.mappages 0x80001000#64 0 PGSIZE 0x80004000#64 0x16#64 = r at hm h0 ⊢
  cases hm with
  | all t hg hget =>
    have hpage : t.get 0x80001000#64 0 = some (0x80004000#64, 0x17#64) := hget 0 (by decide)
    obtain ⟨u, hu, hgu, hun⟩ := (page_tables_refine hg).2.2.2 KERNBASE 0 1 false (by decide) fun v _ hv => by
      obtain rfl : v = 0 := by omega
      exact ⟨_, hpage, by decide, fun h => by cases h⟩
    rw [Nat.zero_mul] at hu
    exact ⟨t, u, rfl, hg, hpage, hu, hgu, hun 0 (by decide)⟩
  | part t j hj hg hget => cases h0
  | remap u hv hu hget => cases h0

/-- The pages 0 and 1 are mapped in the empty table; `test` says what is then found. -/
theorem emptyTable_run (pa perm : BitVec 64) (test : Kmem → Bool) (hpa : pa.toNat % PGSIZE = 0) (hp : perm.toNat < 2 ^ 10)
    (hc : (match emptyTable.mappages 0x80001000#64 0 (2 * PGSIZE) pa perm with
      | .ok (r, t) => decide (r = 0) && test t
      | .error _ => false) = true) :
    ∃ t, Good t 0x80001000#64 ∧ (∀ u < 2, t.get 0x80001000#64 u ≠ none) ∧ test t = true := by
  have hm := mappages_spec emptyTable_good 0 (2 * PGSIZE) pa perm (by decide) (by decide) hpa hp
  generalize emptyTable.mappages 0x80001000#64 0 (2 * PGSIZE) pa perm = r at hm hc
  cases hm with
  | all t hg hget =>
    refine ⟨t, hg, fun u hu => ?_, by simpa using hc⟩
    have hin : 0 / PGSIZE ≤ u ∧ u < 0 / PGSIZE + npages 0 (2 * PGSIZE) := ⟨by simp, hu⟩
    rw [hget u (by omega), setRange, if_pos hin]
    simp
  | part t j hj hg hget => cases hc
  | remap u hv hu hget => cases hc

/-- Of two pages that are mapped, the first is not removed if it has no permission, or if it is to be freed and is no page of memory;
and freeing a page-table page removes the second as well. -/
theorem uvmunmap_not_removable :
    (∃ t, Good t 0x80001000#64 ∧ (∀ u < 2, t.get 0x80001000#64 u ≠ none) ∧
      t.uvmunmap KERNBASE 0x80001000#64 0 1 false = .error "uvmunmap: not a leaf") ∧
    (∃ t, Good t 0x80001000#64 ∧ (∀ u < 2, t.get 0x80001000#64 u ≠ none) ∧
      t.uvmunmap KERNBASE 0x80001000#64 0 1 true = .error "kfree") ∧
    ∃ t, Good t 0x80001000#64 ∧ (∀ u < 2, t.get 0x80001000#64 u ≠ none) ∧
      ∃ t', t.uvmunmap KERNBASE 0x80001000#64 0 1 true = .ok t' ∧ t'.get 0x80001000#64 1 = none := by
  have herr {t : Kmem} {doFree : Bool} {msg : String} (h : (match t.uvmunmap KERNBASE 0x80001000#64 0 1 doFree with
      | .error m => decide (m = msg)
      | .ok _ => false) = true) : t.uvmunmap KERNBASE 0x80001000#64 0 1 doFree = .error msg := by
    cases hu : t.uvmunmap KERNBASE 0x80001000#64 0 1 doFree with
    | ok t' =>
      rw [hu] at h
      cases h
    | error m =>
      rw [hu] at h
      rw [of_decide_eq_true h]
  refine ⟨?_, ?_, ?_⟩
  · obtain ⟨t, hg, hm, ht⟩ := emptyTable_run 0x80004000#64 0#64 (fun t => match t.uvmunmap KERNBASE 0x80001000#64 0 1 false with
      | .error m => decide (m = "uvmunmap: not a leaf")
      | .ok _ => false) (by decide) (by decide) (by decide +kernel)
    exact ⟨t, hg, hm, herr ht⟩
  · obtain ⟨t, hg, hm, ht⟩ := emptyTable_run 0#64 0x16#64 (fun t => match t.uvmunmap KERNBASE 0x80001000#64 0 1 true with
      | .error m => decide (m = "kfree")
      | .ok _ => false) (by decide) (by decide) (by decide +kernel)
    exact ⟨t, hg, hm, herr ht⟩
  · obtain ⟨t, hg, hm, ht⟩ := emptyTable_run 0x80001000#64 0x16#64 (fun t => match t.uvmunmap KERNBASE 0x80001000#64 0 1 true with
      | .error _ => false
      | .ok t' => decide (t'.get 0x80001000#64 1 = none)) (by decide) (by decide) (by decide +kernel)
    refine ⟨t, hg, hm, ?_⟩
    cases hu : t.uvmunmap KERNBASE 0x80001000#64 0 1 true with
    | error m =>
      rw [hu] at ht
      cases ht
    | ok t' =>
      rw [hu] at ht
      exact ⟨t', rfl, of_decide_eq_true ht⟩

end Kmem

end Xv6
