import Mathlib.Data.List.Chain
import Mathlib.Data.List.Nodup
import Mathlib.Logic.Function.Basic

/-!
# Paths of nodes that are linked in both directions

A heap of nodes, each with the links `next` and `prev`.  `Nodes.Path h l` says that the nodes of `l` follow each other: `next` of one
is the next one, and `prev` leads back.  All changes of lists are made of `Nodes.join`, which makes two nodes neighbours: it keeps
the paths that end with the first and begin with the second, and puts them together (`Path.join`).
-/

namespace Xv6

open Function (update)

structure Nodes (A : Type) where
  next : A → A
  prev : A → A

namespace Nodes

variable {A : Type}

def Link (h : Nodes A) (a b : A) : Prop := h.next a = b ∧ h.prev b = a

def Path (h : Nodes A) (l : List A) : Prop := l.IsChain h.Link

/-- The heaps agree on the links of node `a`. -/
def Agree (h h' : Nodes A) (a : A) : Prop := h'.next a = h.next a ∧ h'.prev a = h.prev a

theorem Agree.refl (h : Nodes A) (a : A) : Agree h h a := ⟨rfl, rfl⟩

theorem Agree.trans {h h' h'' : Nodes A} {a : A} (h1 : Agree h h' a) (h2 : Agree h' h'' a) : Agree h h'' a :=
  ⟨h2.1.trans h1.1, h2.2.trans h1.2⟩

variable [DecidableEq A]

/-- `a->next = b; b->prev = a`. -/
def join (h : Nodes A) (a b : A) : Nodes A := ⟨update h.next a b, update h.prev b a⟩

theorem agree_join (h : Nodes A) {a b x : A} (ha : x ≠ a) (hb : x ≠ b) : Agree h (h.join a b) x :=
  ⟨Function.update_of_ne ha .., Function.update_of_ne hb ..⟩

theorem Link.join {h : Nodes A} {a b x y : A} (hl : h.Link x y) (hx : x ≠ a) (hy : y ≠ b) : (h.join a b).Link x y :=
  ⟨(Function.update_of_ne hx ..).trans hl.1, (Function.update_of_ne hy ..).trans hl.2⟩

/-- Two pairs of neighbours, with the links written in another order. -/
theorem join_join (h : Nodes A) {a b c d : A} (hac : a ≠ c) :
    (h.join a b).join c d = ⟨update (update h.next c d) a b, update (update h.prev b a) d c⟩ := by
  rw [join, join, Function.update_comm hac]

namespace Path

variable {h h' : Nodes A} {l m : List A} {a b : A}

omit [DecidableEq A] in
/-- Every stretch of a path is one. -/
theorem stretch (hp : h.Path l) (hm : m <:+: l) : h.Path m :=
  List.IsChain.infix hp hm

omit [DecidableEq A] in
theorem congr (hp : h.Path l) (hl : ∀ x ∈ l, Agree h h' x) : h'.Path l := by
  apply List.IsChain.imp_of_mem_imp _ hp
  rintro x y hx hy ⟨h1, h2⟩
  exact ⟨(hl x hx).1.trans h1, (hl y hy).2.trans h2⟩

/-- A path that ends with `a`, as far as `a` is on it, and one that begins with `b`. -/
private theorem join_left (hp : h.Path (l ++ [a])) (hd : (l ++ [a]).Nodup) (hb : b ∉ l ++ [a]) : (h.join a b).Path (l ++ [a]) := by
  have ha : a ∉ l := fun ha => (List.nodup_append.1 hd).2.2 a ha a List.mem_cons_self rfl
  rw [Path, List.isChain_append] at hp ⊢
  obtain ⟨h1, -, h2⟩ := hp
  refine ⟨h1.imp_of_mem_imp fun x y hx hy hxy => ?_, .singleton a, fun x hx y hy => ?_⟩
  · exact hxy.join (ne_of_mem_of_not_mem hx ha) (ne_of_mem_of_not_mem (List.mem_append_left _ hy) hb)
  · have hxl := List.mem_of_getLast? hx
    have hyl : y ∈ [a] := List.mem_of_head? hy
    have hya := List.mem_append_right l hyl
    exact (h2 x hx y hy).join (ne_of_mem_of_not_mem hxl ha) (ne_of_mem_of_not_mem hya hb)

private theorem join_right (hp : h.Path (b :: m)) (hd : (b :: m).Nodup) (ha : a ∉ b :: m) : (h.join a b).Path (b :: m) := by
  have hb : b ∉ m := (List.nodup_cons.1 hd).1
  apply List.IsChain.imp_of_mem_tail_imp _ hp
  intro x y hx hy hxy
  exact hxy.join (ne_of_mem_of_not_mem hx ha) (ne_of_mem_of_not_mem hy hb)

theorem join (hl : h.Path (l ++ [a])) (hm : h.Path (b :: m)) (hd : (l ++ a :: b :: m).Nodup) : (h.join a b).Path (l ++ a :: b :: m) := by
  have hd' : ((l ++ [a]) ++ b :: m).Nodup := by simpa using hd
  obtain ⟨h1, h2, h3⟩ := List.nodup_append.1 hd'
  apply List.isChain_append_cons_cons.2
  refine ⟨join_left hl h1 fun hb => h3 b hb b List.mem_cons_self rfl, ⟨Function.update_self .., Function.update_self ..⟩,
    join_right hm h2 fun ha => h3 a (by simp) a ha rfl⟩

/-- A path that the new neighbours are not on. -/
theorem join_of_notMem (hp : h.Path l) (ha : a ∉ l) (hb : b ∉ l) : (h.join a b).Path l :=
  hp.congr fun _ hx => agree_join h (ne_of_mem_of_not_mem hx ha) (ne_of_mem_of_not_mem hx hb)

end Path

/-- The links of the nodes in `l` exchanged. -/
def flip (h : Nodes A) (l : List A) : Nodes A where
  next x := if x ∈ l then h.prev x else h.next x
  prev x := if x ∈ l then h.next x else h.prev x

@[simp] theorem flip_nil (h : Nodes A) : h.flip [] = h := by simp [flip]

theorem agree_flip (h : Nodes A) {l : List A} {x : A} (hx : x ∉ l) : Agree h (h.flip l) x := ⟨if_neg hx, if_neg hx⟩

/-- The path is walked the other way. -/
theorem Path.flip {h : Nodes A} {l : List A} (hp : h.Path l) : (h.flip l).Path l.reverse := by
  apply List.isChain_reverse.2
  refine List.IsChain.imp_of_mem_imp (fun x y hx hy hxy => ?_) hp
  constructor
  · show (if y ∈ l then h.prev y else h.next y) = x
    rw [if_pos hy, hxy.2]
  · show (if x ∈ l then h.next x else h.prev x) = y
    rw [if_pos hx, hxy.1]

omit [DecidableEq A] in
theorem exists_getLastD (x : A) (a : List A) : ∃ l, x :: a = l ++ [a.getLastD x] := by
  induction a generalizing x with
  | nil => exact ⟨[], rfl⟩
  | cons y a ih =>
    obtain ⟨l, hl⟩ := ih y
    rw [List.getLastD_cons]
    exact ⟨x :: l, congrArg (x :: ·) hl⟩

omit [DecidableEq A] in
theorem exists_headD (b : List A) (y : A) : ∃ m, b ++ [y] = b.headD y :: m := by
  cases b with
  | nil => exact ⟨[], rfl⟩
  | cons z b => exact ⟨b ++ [y], rfl⟩

/-! ### Any number of lists in one heap -/

variable {ι : Type}

/-- The nodes of list `k`: its head, its elements and its tail. -/
def row (hd tl : ι → A) (seq : ι → List A) (k : ι) : List A := hd k :: (seq k ++ [tl k])

/-- Disjoint lists, and beside them a path `loose` that is in none of them. -/
structure Rows (h : Nodes A) (null : A) (hd tl : ι → A) (seq : ι → List A) (loose : List A) : Prop where
  path : ∀ k, h.Path (row hd tl seq k)
  nodup : ∀ k, (row hd tl seq k).Nodup
  disj : ∀ j k, j ≠ k → (row hd tl seq j).Disjoint (row hd tl seq k)
  first : ∀ k, h.prev (hd k) = null
  last : ∀ k, h.next (tl k) = null
  notNull : ∀ k, null ∉ row hd tl seq k
  loosePath : h.Path loose
  looseNodup : loose.Nodup
  looseDisj : ∀ k, (row hd tl seq k).Disjoint loose
  looseNotNull : null ∉ loose

namespace Rows

variable {h : Nodes A} {null : A} {hd tl : ι → A} {seq : ι → List A} {r a b : List A} {j : ι}

omit [DecidableEq A] in
/-- A node alone is a path. -/
theorem loosen (hs : Rows h null hd tl seq []) {e : A} (he : ∀ k, e ∉ row hd tl seq k) (hn : e ≠ null) : Rows h null hd tl seq [e] :=
  { hs with
    loosePath := .singleton e
    looseNodup := List.nodup_singleton e
    looseDisj := fun k => List.disjoint_singleton.2 (he k)
    looseNotNull := fun hc => hn (List.mem_singleton.1 hc).symm }

omit [DecidableEq A] in
theorem drop (hs : Rows h null hd tl seq r) : Rows h null hd tl seq [] :=
  { hs with
    loosePath := .nil
    looseNodup := List.nodup_nil
    looseDisj := fun _ => List.disjoint_nil_right _
    looseNotNull := List.not_mem_nil }

omit [DecidableEq A] in
/-- The nodes on both sides of a range. -/
theorem row_split (hseq : seq j = a ++ r ++ b) :
    ∃ x y, hd j :: a = x ++ [a.getLastD (hd j)] ∧ b ++ [tl j] = b.headD (tl j) :: y ∧
      row hd tl seq j = x ++ a.getLastD (hd j) :: (r ++ b.headD (tl j) :: y) := by
  obtain ⟨x, hx⟩ := exists_getLastD (hd j) a
  obtain ⟨y, hy⟩ := exists_headD b (tl j)
  refine ⟨x, y, hx, hy, ?_⟩
  calc row hd tl seq j = (hd j :: a) ++ (r ++ (b ++ [tl j])) := by simp [row, hseq]
    _ = x ++ a.getLastD (hd j) :: (r ++ b.headD (tl j) :: y) := by rw [hx, hy]; simp

omit [DecidableEq A] in
theorem getLastD_mem (hseq : seq j = a ++ b) : a.getLastD (hd j) ∈ row hd tl seq j := by
  obtain ⟨x, hx⟩ := exists_getLastD (hd j) a
  rw [row, hseq, List.append_assoc, ← List.cons_append, hx]
  simp

omit [DecidableEq A] in
theorem headD_mem (hseq : seq j = a ++ b) : b.headD (tl j) ∈ row hd tl seq j := by
  obtain ⟨y, hy⟩ := exists_headD b (tl j)
  rw [row, hseq, List.append_assoc, hy]
  simp

omit [DecidableEq A] in
/-- The nodes on both sides of a place in a list are neighbours. -/
theorem link (hs : Rows h null hd tl seq r) (hseq : seq j = a ++ b) : h.Link (a.getLastD (hd j)) (b.headD (tl j)) := by
  obtain ⟨x, y, -, -, hrow⟩ := @row_split _ _ hd tl seq [] a b j (hseq.trans (by rw [List.append_nil]))
  have hp := hs.path j
  rw [hrow] at hp
  exact (List.isChain_append_cons_cons.1 hp).2.1

variable [DecidableEq ι]

omit [DecidableEq A] in
theorem row_update (seq : ι → List A) (j : ι) (l : List A) : row hd tl (update seq j l) j = hd j :: (l ++ [tl j]) := by
  rw [row, Function.update_self]

omit [DecidableEq A] in
theorem row_update_of_ne (seq : ι → List A) (l : List A) {k : ι} (hk : k ≠ j) : row hd tl (update seq j l) k = row hd tl seq k := by
  rw [row, row, Function.update_of_ne hk]

omit [DecidableEq A] [DecidableEq ι] in
theorem hd_notMem (hs : Rows h null hd tl seq r) {e : A} (he : e ∈ seq j ++ [tl j]) (k : ι) : hd k ≠ e := by
  rintro rfl
  by_cases hk : k = j
  · rw [hk] at he
    exact (List.nodup_cons.1 (hs.nodup j)).1 he
  · exact hs.disj k j hk List.mem_cons_self (List.mem_cons_of_mem _ he)

omit [DecidableEq A] [DecidableEq ι] in
theorem tl_notMem (hs : Rows h null hd tl seq r) {e : A} (he : e ∈ hd j :: seq j) (k : ι) : tl k ≠ e := by
  rintro rfl
  by_cases hk : k = j
  · rw [hk] at he
    have hd := hs.nodup j
    rw [row, ← List.cons_append] at hd
    exact (List.nodup_append.1 hd).2.2 _ he _ (List.mem_singleton_self _) rfl
  · exact hs.disj k j hk (List.mem_cons_of_mem _ (List.mem_append_right _ (List.mem_singleton_self _)))
      (by rw [row, ← List.cons_append]; exact List.mem_append_left _ he)

/-- A range of a list is taken out: its neighbours become neighbours. -/
theorem cut (hs : Rows h null hd tl seq []) (hseq : seq j = a ++ r ++ b) :
    Rows (h.join (a.getLastD (hd j)) (b.headD (tl j))) null hd tl (update seq j (a ++ b)) r := by
  obtain ⟨x, y, hx, hy, hrow⟩ := @row_split _ _ hd tl seq r a b j hseq
  have hnew : row hd tl (update seq j (a ++ b)) j = x ++ a.getLastD (hd j) :: b.headD (tl j) :: y := by
    rw [row_update, List.append_assoc, hy, ← List.cons_append, hx]
    simp
  have hpm : a.getLastD (hd j) ∈ hd j :: a := by simp [hx]
  have hqm : b.headD (tl j) ∈ b ++ [tl j] := by simp [hy]
  generalize a.getLastD (hd j) = p at *
  generalize b.headD (tl j) = q at *
  have hp : p ∈ row hd tl seq j := by simp [hrow]
  have hq : q ∈ row hd tl seq j := by simp [hrow]
  have hpath := hs.path j
  have hnd := hs.nodup j
  rw [hrow] at hpath hnd
  have hsub : (row hd tl (update seq j (a ++ b)) j).Sublist (row hd tl seq j) := by
    rw [hnew, hrow]
    exact (List.sublist_append_right r _).cons_cons p |>.append_left x
  have hmem : ∀ k, ∀ e ∈ row hd tl (update seq j (a ++ b)) k, e ∈ row hd tl seq k := by
    intro k e he
    by_cases hk : k = j
    · rw [hk] at he ⊢
      exact hsub.subset he
    · rwa [row_update_of_ne _ _ hk] at he
  have hdisj : (x ++ p :: q :: y).Disjoint r := by
    have hperm : (x ++ p :: (r ++ q :: y)).Perm (x ++ p :: (q :: y ++ r)) := (List.perm_append_comm.cons p).append_left x
    have hnd' : ((x ++ p :: q :: y) ++ r).Nodup := by simpa using hperm.nodup_iff.1 hnd
    exact fun e he hr => (List.nodup_append.1 hnd').2.2 e he e hr rfl
  refine ⟨fun k => ?_, fun k => ?_, fun i k hik e hi hk => hs.disj i k hik (hmem i e hi) (hmem k e hk), fun k => ?_, fun k => ?_,
    fun k hk => hs.notNull k (hmem k _ hk), ?_, ?_, fun k => ?_, ?_⟩
  · by_cases hk : k = j
    · rw [hk, hnew]
      refine Path.join (hpath.stretch ⟨[], r ++ q :: y, by simp⟩) (hpath.stretch ⟨x ++ p :: r, [], by simp⟩) ?_
      rw [← hnew]
      exact (hs.nodup j).sublist hsub
    · rw [row_update_of_ne _ _ hk]
      exact (hs.path k).join_of_notMem (fun h => hs.disj k j hk h hp) fun h => hs.disj k j hk h hq
  · by_cases hk : k = j
    · rw [hk]
      exact (hs.nodup j).sublist hsub
    · rw [row_update_of_ne _ _ hk]
      exact hs.nodup k
  · exact (Function.update_of_ne (hs.hd_notMem (by rw [hseq]; simp at hqm ⊢; tauto) k) ..).trans (hs.first k)
  · exact (Function.update_of_ne (hs.tl_notMem (by rw [hseq]; simp at hpm ⊢; tauto) k) ..).trans (hs.last k)
  · exact Path.join_of_notMem (hpath.stretch ⟨x ++ [p], q :: y, by simp⟩) (fun hr => hdisj (by simp) hr)
      fun hr => hdisj (by simp) hr
  · exact hnd.sublist ((List.sublist_append_left r _).trans ((List.sublist_cons_self p _).trans (List.sublist_append_right x _)))
  · by_cases hk : k = j
    · rw [hk, hnew]
      exact hdisj
    · rw [row_update_of_ne _ _ hk]
      exact fun e he hr => hs.disj k j hk he (by rw [hrow]; simp [hr])
  · exact fun hc => hs.notNull j (by rw [hrow]; simp [hc])

/-- The loose path is put between two neighbours of a list. -/
theorem paste {r₁ r₂ : List A} {f l : A} (hs : Rows h null hd tl seq r) (hf : r = f :: r₁) (hl : r = r₂ ++ [l]) (hseq : seq j = a ++ b) :
    Rows ((h.join (a.getLastD (hd j)) f).join l (b.headD (tl j))) null hd tl (update seq j (a ++ r ++ b)) [] := by
  have hseq' : seq j = a ++ [] ++ b := by rw [hseq, List.append_nil]
  obtain ⟨x, y, hx, hy, hrow⟩ := @row_split _ _ hd tl seq [] a b j hseq'
  have hnew : row hd tl (update seq j (a ++ r ++ b)) j = x ++ a.getLastD (hd j) :: (r ++ b.headD (tl j) :: y) := by
    rw [row_update, List.append_assoc, List.append_assoc, hy, ← List.cons_append, hx]
    simp
  have hpm : a.getLastD (hd j) ∈ hd j :: a := by simp [hx]
  have hqm : b.headD (tl j) ∈ b ++ [tl j] := by simp [hy]
  generalize a.getLastD (hd j) = p at *
  generalize b.headD (tl j) = q at *
  rw [List.nil_append] at hrow
  have hp : p ∈ row hd tl seq j := by simp [hrow]
  have hq : q ∈ row hd tl seq j := by simp [hrow]
  have hfr : f ∈ r := by simp [hf]
  have hlr : l ∈ r := by simp [hl]
  have hpath := hs.path j
  have hnd : (row hd tl (update seq j (a ++ r ++ b)) j).Nodup := by
    have hperm : (x ++ p :: (r ++ q :: y)).Perm ((x ++ p :: q :: y) ++ r) := by
      have hc : (r ++ q :: y).Perm (q :: y ++ r) := List.perm_append_comm
      simpa using (hc.cons p).append_left x
    rw [hnew, hperm.nodup_iff, ← hrow]
    exact List.nodup_append.2 ⟨hs.nodup j, hs.looseNodup, fun e he e' he' hee => hs.looseDisj j he (hee ▸ he')⟩
  rw [hrow] at hpath
  have hmem : ∀ k, ∀ e ∈ row hd tl (update seq j (a ++ r ++ b)) k, e ∈ row hd tl seq k ∨ k = j ∧ e ∈ r := by
    intro k e he
    by_cases hk : k = j
    · rw [hk] at he ⊢
      rw [hnew] at he
      rw [hrow]
      simp only [List.mem_append, List.mem_cons] at he ⊢
      tauto
    · rw [row_update_of_ne _ _ hk] at he
      exact .inl he
  have hout : ∀ k ≠ j, ∀ e ∈ row hd tl seq k, e ≠ p ∧ e ≠ q ∧ e ≠ f ∧ e ≠ l := by
    intro k hk e he
    refine ⟨?_, ?_, ?_, ?_⟩ <;> rintro rfl
    · exact hs.disj k j hk he hp
    · exact hs.disj k j hk he hq
    · exact hs.looseDisj k he hfr
    · exact hs.looseDisj k he hlr
  refine ⟨fun k => ?_, fun k => ?_, fun i k hik e hi hk => ?_, fun k => ?_, fun k => ?_, fun k hk => ?_, .nil, List.nodup_nil,
    fun _ => List.disjoint_nil_right _, List.not_mem_nil⟩
  · by_cases hk : k = j
    · have hpf := hnd
      rw [hnew] at hpf
      have h1 : (h.join p f).Path (x ++ p :: r) := by
        rw [hf]
        refine Path.join (hpath.stretch ⟨[], q :: y, by simp⟩) (hf ▸ hs.loosePath) ?_
        rw [← hf]
        exact hpf.sublist ((List.sublist_append_left r _).cons_cons p |>.append_left x)
      have h2 : (h.join p f).Path (q :: y) := by
        have hnd' := hs.nodup j
        rw [hrow] at hnd'
        exact Path.join_of_notMem (hpath.stretch ⟨x ++ [p], [], by simp⟩) (List.nodup_cons.1 (List.nodup_append.1 hnd').2.1).1
          fun hc => hs.looseDisj j (by rw [hrow]; exact List.mem_append_right _ (List.mem_cons_of_mem _ hc)) hfr
      rw [hk, hnew, hl]
      have h3 := @Path.join _ _ _ (x ++ p :: r₂) y l q (by simpa [hl] using h1) h2 (by simpa [hl] using hpf)
      simpa using h3
    · rw [row_update_of_ne _ _ hk]
      exact (hs.path k).congr fun e he =>
        (agree_join h (hout k hk e he).1 (hout k hk e he).2.2.1).trans (agree_join _ (hout k hk e he).2.2.2 (hout k hk e he).2.1)
  · by_cases hk : k = j
    · rwa [hk]
    · rw [row_update_of_ne _ _ hk]
      exact hs.nodup k
  · rcases hmem i e hi with h1 | ⟨rfl, h1⟩ <;> rcases hmem k e hk with h2 | ⟨rfl, h2⟩
    · exact hs.disj i k hik h1 h2
    · exact hs.looseDisj i h1 h2
    · exact hs.looseDisj k h2 h1
    · exact hik rfl
  · have hq' : hd k ≠ q := hs.hd_notMem (by rw [hseq, List.append_assoc]; exact List.mem_append_right _ hqm) k
    have hf' : hd k ≠ f := fun hc => hs.looseDisj k List.mem_cons_self (hc ▸ hfr)
    exact ((Function.update_of_ne hq' ..).trans (Function.update_of_ne hf' ..)).trans (hs.first k)
  · have hp' : tl k ≠ p := hs.tl_notMem (by rw [hseq, ← List.cons_append]; exact List.mem_append_left _ hpm) k
    have hl' : tl k ≠ l := fun hc => hs.looseDisj k (by simp [row]) (hc ▸ hlr)
    exact ((Function.update_of_ne hl' ..).trans (Function.update_of_ne hp' ..)).trans (hs.last k)
  · rcases hmem k _ hk with h1 | ⟨-, h1⟩
    · exact hs.notNull k h1
    · exact hs.looseNotNull h1

omit [DecidableEq ι] in
theorem flip (hs : Rows h null hd tl seq r) : Rows (h.flip r) null hd tl seq r.reverse := by
  have hout : ∀ k, ∀ e ∈ row hd tl seq k, Agree h (h.flip r) e := fun k e he => agree_flip h fun hr => hs.looseDisj k he hr
  exact {
    path := fun k => (hs.path k).congr (hout k)
    nodup := hs.nodup
    disj := hs.disj
    first := fun k => (hout k _ List.mem_cons_self).2.trans (hs.first k)
    last := fun k => (hout k _ (by simp [row])).1.trans (hs.last k)
    notNull := hs.notNull
    loosePath := hs.loosePath.flip
    looseNodup := List.nodup_reverse.2 hs.looseNodup
    looseDisj := fun k e he hr => hs.looseDisj k he (List.mem_reverse.1 hr)
    looseNotNull := fun hr => hs.looseNotNull (List.mem_reverse.1 hr) }

omit [DecidableEq A] [DecidableEq ι] in
/-- The links of the nodes of a list follow from its elements. -/
theorem agree {h' : Nodes A} (hs : Rows h null hd tl seq r) (hs' : Rows h' null hd tl seq r) {x : A} (hx : x ∈ row hd tl seq j) :
    Agree h h' x := by
  have hnext : ∀ a b, seq j = a ++ b → h'.next (a.getLastD (hd j)) = h.next (a.getLastD (hd j)) := fun a b hab =>
    (hs'.link hab).1.trans (hs.link hab).1.symm
  have hprev : ∀ a b, seq j = a ++ b → h'.prev (b.headD (tl j)) = h.prev (b.headD (tl j)) := fun a b hab =>
    (hs'.link hab).2.trans (hs.link hab).2.symm
  rw [row, List.mem_cons, List.mem_append, List.mem_singleton] at hx
  rcases hx with rfl | hx | rfl
  · exact ⟨hnext [] (seq j) rfl, (hs'.first j).trans (hs.first j).symm⟩
  · obtain ⟨a, b, hab⟩ := List.append_of_mem hx
    have h1 := hnext (a ++ [x]) b (by simp [hab])
    rw [List.getLastD_concat] at h1
    exact ⟨h1, hprev a (x :: b) hab⟩
  · exact ⟨(hs'.last j).trans (hs.last j).symm, hprev (seq j) [] (List.append_nil _).symm⟩

end Rows

end Nodes

end Xv6
