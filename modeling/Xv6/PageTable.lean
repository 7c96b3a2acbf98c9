import Mathlib.Algebra.BigOperators.Fin
import Mathlib.Algebra.Order.Group.Multiset
import Mathlib.Tactic.Abel
import Mathlib.Tactic.Ring
import Xv6.Param

/-!
# Page tables

The tree of `vm.c`: a page-table page has 512 entries, and the entries of the lowest level are mappings.  An entry without
`PTE_V` is `none`.  A physical page is given by its number `pa / PGSIZE`, which is what a PTE holds of it.

* `PageTable.find` is what `walk` finds without allocating; `PageTable.look` is the mapping of a virtual address.
* `PageTable.tables` are the pages of the tree, `PageTable.frames` the pages that the lowest virtual pages are mapped to.
-/

namespace Xv6

/-- One beyond the highest possible virtual address. -/
def MAXVA : Nat := 2 ^ (9 + 9 + 9 + 12 - 1)

def TRAMPOLINE : Nat := MAXVA - PGSIZE

def TRAPFRAME : Nat := TRAMPOLINE - PGSIZE

def KERNBASE : Nat := 0x80000000

def PHYSTOP : Nat := KERNBASE + 128 * 1024 * 1024

/-- `PGROUNDUP` on 64 bits. -/
def PGROUNDUP (sz : Nat) : Nat := (sz + PGSIZE - 1) % 2 ^ 64 / PGSIZE * PGSIZE

def PGROUNDDOWN (a : Nat) : Nat := a / PGSIZE * PGSIZE

/-- The 9 bits of `va` that index the page-table page of a level. -/
def PX (level va : Nat) : Fin 512 := Fin.ofNat 512 (va / 2 ^ (12 + 9 * level))

abbrev Page := Nat

structure Perm where
  r : Bool := false
  w : Bool := false
  x : Bool := false
  u : Bool := false
  deriving DecidableEq

structure Pte where
  page : Page
  perm : Perm
  deriving DecidableEq

/-- A page-table page; `α` is what a valid entry refers to. -/
structure PtPage (α : Type) where
  page : Page
  ent : Fin 512 → Option α

abbrev PageTable := PtPage (PtPage (PtPage Pte))

namespace PtPage

variable {α : Type}

/-- A page after `memset(pagetable, 0, PGSIZE)`. -/
def empty (page : Page) : PtPage α := ⟨page, fun _ => none⟩

def set (t : PtPage α) (i : Fin 512) (e : Option α) : PtPage α := { t with ent := Function.update t.ent i e }

/-- The pages of the tree below `t`, of which `f` are those of an entry. -/
def sum (f : α → Multiset Page) (t : PtPage α) : Multiset Page := {t.page} + ∑ i, (t.ent i).elim 0 f

@[simp] theorem empty_ent (page : Page) (i : Fin 512) : (empty page : PtPage α).ent i = none := rfl

@[simp] theorem empty_page (page : Page) : (empty page : PtPage α).page = page := rfl

@[simp] theorem set_page (t : PtPage α) (i : Fin 512) (e : Option α) : (t.set i e).page = t.page := rfl

@[simp] theorem set_self (t : PtPage α) (i : Fin 512) (e : Option α) : (t.set i e).ent i = e := Function.update_self ..

theorem set_of_ne (t : PtPage α) {i j : Fin 512} (h : j ≠ i) (e : Option α) : (t.set i e).ent j = t.ent j :=
  Function.update_of_ne h ..

theorem set_ent (t : PtPage α) (i j : Fin 512) (e : Option α) : (t.set i e).ent j = if j = i then e else t.ent j :=
  Function.update_apply ..

@[simp] theorem set_same {t : PtPage α} {i : Fin 512} {e : Option α} (h : t.ent i = e) : t.set i e = t := by
  simp [set, ← h]

@[simp] theorem sum_empty (f : α → Multiset Page) (page : Page) : (empty page).sum f = {page} := by
  simp [sum]

/-- A new entry brings its pages and takes those of the old one away. -/
theorem sum_set (f : α → Multiset Page) (t : PtPage α) (i : Fin 512) (e : Option α) :
    (t.set i e).sum f + (t.ent i).elim 0 f = t.sum f + e.elim 0 f := by
  unfold sum
  rw [← Finset.add_sum_erase Finset.univ (fun j => ((t.set i e).ent j).elim 0 f) (Finset.mem_univ i),
    ← Finset.add_sum_erase Finset.univ (fun j => (t.ent j).elim 0 f) (Finset.mem_univ i)]
  have h : ∑ j ∈ Finset.univ.erase i, ((t.set i e).ent j).elim 0 f = ∑ j ∈ Finset.univ.erase i, (t.ent j).elim 0 f := by
    apply Finset.sum_congr rfl
    intro j hj
    rw [set_of_ne t (Finset.ne_of_mem_erase hj)]
  rw [h, set_self, set_page]
  abel

/-- The pages of a tree that gets an entry where it had none. -/
theorem sum_set_none {f : α → Multiset Page} {t : PtPage α} {i : Fin 512} (h : t.ent i = none) (c : α) :
    (t.set i (some c)).sum f = f c + t.sum f := by
  have := sum_set f t i (some c)
  rw [h] at this
  simpa [add_comm] using this

/-- Exchanging an entry for one that has the pages `m` more. -/
theorem sum_set_add {f : α → Multiset Page} {t : PtPage α} {i : Fin 512} {c d : α} {m : Multiset Page} (h : t.ent i = some c)
    (hd : f d = m + f c) : (t.set i (some d)).sum f = m + t.sum f := by
  have := sum_set f t i (some d)
  rw [h, Option.elim_some, Option.elim_some, hd, ← add_assoc, add_comm (t.sum f) m] at this
  exact add_right_cancel this

/-- Exchanging an entry for one with the same pages. -/
theorem sum_set_congr (f : α → Multiset Page) {t : PtPage α} {i : Fin 512} {e : Option α} (h : e.elim 0 f = (t.ent i).elim 0 f) :
    (t.set i e).sum f = t.sum f := by
  have := sum_set f t i e
  rw [h] at this
  exact add_right_cancel this

-- the sum over 512 entries is used through these lemmas
attribute [irreducible] sum

end PtPage

namespace PageTable

/-- The entry that `walk(pagetable, va, 0)` points to, or `none` where a page of the tree is missing. -/
def find (t : PageTable) (va : Nat) : Option (Option Pte) :=
  match t.ent (PX 2 va) with
  | none => none
  | some t1 =>
    match t1.ent (PX 1 va) with
    | none => none
    | some t0 => some (t0.ent (PX 0 va))

def look (t : PageTable) (va : Nat) : Option Pte := (t.find va).join

/-- `*pte = e` for the entry `pte` of `va`. -/
def setPte (t : PageTable) (va : Nat) (e : Option Pte) : PageTable :=
  match t.ent (PX 2 va) with
  | none => t
  | some t1 =>
    match t1.ent (PX 1 va) with
    | none => t
    | some t0 => t.set (PX 2 va) (t1.set (PX 1 va) (t0.set (PX 0 va) e))

/-- The pages of the tree. -/
def tables (t : PageTable) : Multiset Page := t.sum (PtPage.sum (PtPage.sum fun _ => 0))

/-- The mapping of the virtual page number `i`. -/
def get (t : PageTable) (i : Nat) : Option Pte := t.look (i * PGSIZE)

/-- The physical pages of the `n` virtual pages from number `v` on. -/
def framesFrom (t : PageTable) (v n : Nat) : Multiset Page :=
  ∑ i ∈ Finset.range n, (t.get (v + i)).elim 0 fun e => {e.page}

def frames (t : PageTable) (n : Nat) : Multiset Page := t.framesFrom 0 n

/-- The addresses `va` and `vb` have one entry. -/
def Same (va vb : Nat) : Prop := PX 2 vb = PX 2 va ∧ PX 1 vb = PX 1 va ∧ PX 0 vb = PX 0 va

instance (va vb : Nat) : Decidable (Same va vb) := inferInstanceAs (Decidable (_ ∧ _ ∧ _))

theorem Same.refl (va : Nat) : Same va va := ⟨rfl, rfl, rfl⟩

theorem px_page (level i : Nat) : (PX level (i * PGSIZE)).val = i / 2 ^ (9 * level) % 512 := by
  have h : i * PGSIZE / 2 ^ (12 + 9 * level) = i / 2 ^ (9 * level) := by
    rw [pow_add, ← Nat.div_div_eq_div_mul]
    change i * 4096 / 4096 / _ = _
    rw [Nat.mul_div_cancel _ (by decide)]
  simp only [PX, Fin.ofNat, h]

/-- The tree has one entry for each of `2 ^ 27` virtual pages. -/
theorem same_page {i j : Nat} (hi : i < 2 ^ 27) (hj : j < 2 ^ 27) : Same (i * PGSIZE) (j * PGSIZE) ↔ j = i := by
  constructor
  · rintro ⟨h2, h1, h0⟩
    have e2 := congrArg Fin.val h2
    have e1 := congrArg Fin.val h1
    have e0 := congrArg Fin.val h0
    simp only [px_page, Nat.reduceMul, Nat.reducePow, pow_zero, Nat.div_one] at e2 e1 e0
    omega
  · rintro rfl
    exact Same.refl _

theorem find_eq_some {t : PageTable} {va : Nat} {e : Option Pte} :
    t.find va = some e ↔ ∃ t1 t0, t.ent (PX 2 va) = some t1 ∧ t1.ent (PX 1 va) = some t0 ∧ t0.ent (PX 0 va) = e := by
  unfold find
  cases h1 : t.ent (PX 2 va) with
  | none => simp
  | some t1 =>
    cases h0 : t1.ent (PX 1 va) with
    | none => simp [h0]
    | some t0 => simp [h0]

theorem look_of_find {t : PageTable} {va : Nat} {e : Option Pte} (h : t.find va = some e) : t.look va = e := by
  simp [look, h]

theorem find_of_look {t : PageTable} {va : Nat} {e : Pte} (h : t.look va = some e) : t.find va = some (some e) := by
  simpa [look, Option.join_eq_some_iff] using h

/-- The mapping of an address below the entry of the highest level. -/
def lookIn (t : PtPage (PtPage Pte)) (va : Nat) : Option Pte := (t.ent (PX 1 va)).elim none fun t0 => t0.ent (PX 0 va)

theorem look_eq (t : PageTable) (va : Nat) : t.look va = (t.ent (PX 2 va)).elim none (lookIn · va) := by
  unfold look find lookIn
  cases t.ent (PX 2 va) with
  | none => rfl
  | some t1 =>
    simp only [Option.elim_some]
    cases t1.ent (PX 1 va) <;> rfl

/-- An entry of the highest level that maps what the old one did. -/
theorem look_set {t : PageTable} {i : Fin 512} {c : PtPage (PtPage Pte)}
    (h : ∀ va, lookIn c va = (t.ent i).elim none (lookIn · va)) (va : Nat) : look (t.set i (some c)) va = t.look va := by
  rw [look_eq, look_eq, PtPage.set_ent]
  split
  · rename_i hi
    rw [Option.elim_some, h, hi]
  · rfl

theorem lookIn_set {t : PtPage (PtPage Pte)} {i : Fin 512} {c : PtPage Pte} (h : ∀ k, c.ent k = (t.ent i).elim none (·.ent k))
    (va : Nat) : lookIn (t.set i (some c)) va = lookIn t va := by
  unfold lookIn
  rw [PtPage.set_ent]
  split
  · rename_i hi
    rw [Option.elim_some, h, hi]
  · rfl

@[simp] theorem lookIn_empty (page : Page) (va : Nat) : lookIn (.empty page) va = none := rfl

theorem look_setPte {t : PageTable} {va : Nat} {c : Option Pte} (h : t.find va = some c) (e : Option Pte) (vb : Nat) :
    (t.setPte va e).look vb = if Same va vb then e else t.look vb := by
  obtain ⟨t1, t0, h1, h0, -⟩ := find_eq_some.1 h
  simp only [look, find, setPte, h1, h0, Same]
  by_cases e2 : PX 2 vb = PX 2 va
  · by_cases e1 : PX 1 vb = PX 1 va
    · by_cases e0 : PX 0 vb = PX 0 va
      · simp [e2, e1, e0]
      · simp [e2, e1, e0, h1, h0, PtPage.set_of_ne _ e0]
    · simp [e2, e1, h1, PtPage.set_of_ne _ e1]
  · simp [e2, PtPage.set_of_ne _ e2]

theorem get_setPte {t : PageTable} {i : Nat} {c : Option Pte} (hi : i < 2 ^ 27) (h : t.find (i * PGSIZE) = some c) (e : Option Pte)
    {j : Nat} (hj : j < 2 ^ 27) : (t.setPte (i * PGSIZE) e).get j = if j = i then e else t.get j := by
  rw [get, look_setPte h]
  simp only [same_page hi hj, get]

/-- A tree without mappings has only page-table pages. -/
theorem ent_of_get {t : PageTable} (h : ∀ j < 2 ^ 27, t.get j = none) {a b c : Fin 512} {t1 : PtPage (PtPage Pte)} {t0 : PtPage Pte}
    (h1 : t.ent a = some t1) (h0 : t1.ent b = some t0) : t0.ent c = none := by
  have hj : (a.val * 2 ^ 18 + b.val * 2 ^ 9 + c.val) < 2 ^ 27 := by omega
  have hpx : ∀ level (d : Fin 512), (a.val * 2 ^ 18 + b.val * 2 ^ 9 + c.val) / 2 ^ (9 * level) % 512 = d.val →
      PX level ((a.val * 2 ^ 18 + b.val * 2 ^ 9 + c.val) * PGSIZE) = d := by
    intro level d hd
    apply Fin.ext
    rw [px_page, hd]
  have e2 := hpx 2 a (by omega)
  have e1 := hpx 1 b (by omega)
  have e0 := hpx 0 c (by omega)
  have hf : t.find ((a.val * 2 ^ 18 + b.val * 2 ^ 9 + c.val) * PGSIZE) = some (t0.ent c) :=
    find_eq_some.2 ⟨t1, t0, by rw [e2, h1], by rw [e1, h0], by rw [e0]⟩
  exact (look_of_find hf).symm.trans (h _ hj)

theorem tables_setPte (t : PageTable) (va : Nat) (e : Option Pte) : (t.setPte va e).tables = t.tables := by
  unfold setPte
  split
  · rfl
  · rename_i t1 h1
    split
    · rfl
    · rename_i t0 h0
      apply PtPage.sum_set_congr
      rw [h1]
      apply PtPage.sum_set_congr
      rw [h0]
      apply PtPage.sum_set_congr
      cases e <;> cases t0.ent (PX 0 va) <;> rfl

theorem framesFrom_congr {t t' : PageTable} {v n : Nat}
    (h : ∀ i < n, t'.get (v + i) = t.get (v + i)) : t'.framesFrom v n = t.framesFrom v n := by
  apply Finset.sum_congr rfl
  intro i hi
  rw [h i (Finset.mem_range.1 hi)]

theorem framesFrom_add (t : PageTable) (v m n : Nat) : t.framesFrom v (m + n) = t.framesFrom v m + t.framesFrom (v + m) n := by
  unfold framesFrom
  rw [Finset.sum_range_add]
  simp only [Nat.add_assoc]

theorem frames_add (t : PageTable) (m n : Nat) : t.frames (m + n) = t.frames m + t.framesFrom m n := by
  rw [frames, framesFrom_add, Nat.zero_add]
  rfl

theorem framesFrom_one (t : PageTable) (v : Nat) {e : Pte} (h : t.get v = some e) : t.framesFrom v 1 = {e.page} := by
  simp [framesFrom, h]

/-- A mapped page counts as one. -/
theorem card_framesFrom {t : PageTable} {v n : Nat} (h : ∀ i < n, t.get (v + i) ≠ none) :
    Multiset.card (t.framesFrom v n) = n := by
  induction n with
  | zero => rfl
  | succ n ih =>
    obtain ⟨e, he⟩ := Option.ne_none_iff_exists'.1 (h n (by omega))
    rw [framesFrom_add, Multiset.card_add, ih (fun i hi => h i (by omega)), framesFrom_one t _ he]
    rfl

end PageTable

end Xv6
