import Mathlib.Data.List.Perm.Basic
import Mathlib.Data.List.Count
import Xv6.DirOwn

/-!
# The tree of directories

`Tree` is what the directories look like in every state, whatever the processes do, as long as no link count overflows: an inode
has at least as many links as entries that name it, a directory is named at most once, and the directories that are named have the
right `.` and `..`.  Each change of the inodes is one or two of five steps (a new inode, an entry more, an entry less, a new link
count, an inode freed), and each step keeps `Tree`.
-/

namespace Xv6

open Function (update)

namespace Node

/-- Neither `.` nor `..`. -/
def Plain (name : Name) : Prop := name ≠ Dir.dot ∧ name ≠ Dir.dotdot

instance (name : Name) : Decidable (Plain name) := inferInstanceAs (Decidable (_ ∧ _))

/-- The inodes that the entries other than `.` and `..` of a directory name. -/
def kids (x : Node) : List Inum :=
  if x.type = .dir then (x.live.filter fun de => Plain de.name).map Dirent.inum else []

theorem mem_kids {x : Node} {i : Inum} : i ∈ x.kids ↔ x.type = .dir ∧ ∃ de ∈ x.live, Plain de.name ∧ de.inum = i := by
  unfold kids
  split
  · rename_i h
    simp only [List.mem_map, List.mem_filter, decide_eq_true_eq, h, true_and]
    constructor
    · rintro ⟨de, ⟨h1, h2⟩, rfl⟩
      exact ⟨de, h1, h2, rfl⟩
    · rintro ⟨de, h1, h2, rfl⟩
      exact ⟨de, ⟨h1, h2⟩, rfl⟩
  · rename_i h
    simp [h]

theorem kids_of_ne {x : Node} (h : x.type ≠ .dir) : x.kids = [] := if_neg h

/-- Only the type and the entries matter. -/
theorem kids_congr {x y : Node} (h1 : y.type = x.type) (h2 : y.ents = x.ents) : y.kids = x.kids := by
  unfold kids live
  rw [h1, h2]

variable {x y : Node} {de : Dirent}

/-- One entry more: the others stay. -/
theorem kids_perm (ht : y.type = x.type) (hd : x.type = .dir) (h : y.live.Perm (de :: x.live)) :
    y.kids.Perm (if Plain de.name then de.inum :: x.kids else x.kids) := by
  have h1 : y.kids.Perm (((de :: x.live).filter fun de => Plain de.name).map Dirent.inum) := by
    unfold kids
    rw [if_pos (ht.trans hd)]
    exact (h.filter _).map _
  refine h1.trans ?_
  unfold kids
  rw [if_pos hd, List.filter_cons]
  by_cases hp : Plain de.name
  · simp [hp]
  · simp [hp]

theorem Added.live_perm {ents : List Dirent} (h : x.Added de ents) (hi : de.inum ≠ 0) :
    ({ x with ents } : Node).live.Perm (de :: x.live) := by
  unfold live
  obtain rfl | ⟨l₁, e, l₂, he, h0, rfl⟩ := h
  · simp only [List.filter_append, List.filter_cons, List.filter_nil, hi, ne_eq, not_false_eq_true, decide_true, if_true]
    exact List.perm_append_singleton ..
  · simp only [he, List.filter_append, List.filter_cons, hi, h0, ne_eq, not_false_eq_true, not_true_eq_false, decide_true, decide_false,
      if_true, Bool.false_eq_true, if_false]
    exact List.perm_middle

theorem removed_live_perm {l₁ l₂ : List Dirent} (h : x.ents = l₁ ++ de :: l₂) (hi : de.inum ≠ 0) :
    x.live.Perm (de :: ({ x with ents := l₁ ++ ⟨0, []⟩ :: l₂ } : Node).live) := by
  unfold live
  simp only [h, List.filter_append, List.filter_cons, hi, ne_eq, not_false_eq_true, not_true_eq_false, decide_true, decide_false,
    if_true, Bool.false_eq_true, if_false]
  exact List.perm_middle

/-- The first two entries, if they are in use, stay when an entry is added. -/
theorem Added.take_two {ents : List Dirent} (h : x.Added de ents) {e₁ e₂ : Dirent} {rest : List Dirent}
    (hx : x.ents = e₁ :: e₂ :: rest) (h1 : e₁.inum ≠ 0) (h2 : e₂.inum ≠ 0) : ∃ rest', ents = e₁ :: e₂ :: rest' := by
  obtain rfl | ⟨l₁, e, l₂, he, h0, rfl⟩ := h
  · exact ⟨rest ++ [de], by rw [hx]; rfl⟩
  · rw [hx] at he
    match l₁ with
    | [] =>
      simp only [List.nil_append, List.cons.injEq] at he
      exact absurd h0 (he.1 ▸ h1)
    | [a] =>
      simp only [List.cons_append, List.nil_append, List.cons.injEq] at he
      exact absurd h0 (he.2.1 ▸ h2)
    | a :: b :: l =>
      simp only [List.cons_append, List.cons.injEq] at he
      exact ⟨l ++ de :: l₂, by rw [he.1, he.2.1]; rfl⟩

/-- The first two entries stay when another one is removed. -/
theorem removed_take_two {l₁ l₂ rest : List Dirent} {e₁ e₂ : Dirent} (h : l₁ ++ de :: l₂ = e₁ :: e₂ :: rest) (h1 : de ≠ e₁)
    (h2 : de ≠ e₂) : ∃ rest', l₁ ++ ⟨0, []⟩ :: l₂ = e₁ :: e₂ :: rest' := by
  match l₁ with
  | [] =>
    simp only [List.nil_append, List.cons.injEq] at h
    exact absurd h.1 h1
  | [a] =>
    simp only [List.cons_append, List.nil_append, List.cons.injEq] at h
    exact absurd h.2.1 h2
  | a :: b :: l =>
    simp only [List.cons_append, List.cons.injEq] at h
    exact ⟨l ++ ⟨0, []⟩ :: l₂, by rw [h.1, h.2.1]; rfl⟩

end Node

/-- Edges to a node without edges make no cycle. -/
theorem acyclic_of_sink {α : Type} {r r' : α → α → Prop} {x : α} (h : ∀ a b, r' a b → r a b ∨ b = x) (hx : ∀ b, ¬r' x b)
    (hr : ∀ a, ¬Relation.TransGen r a a) (a : α) : ¬Relation.TransGen r' a a := by
  have hstep : ∀ {a b}, Relation.TransGen r' a b → Relation.TransGen r a b ∨ b = x := by
    intro a b hab
    induction hab with
    | single hab => exact (h _ _ hab).imp_left .single
    | tail _ hbc ih =>
      obtain ih | rfl := ih
      · exact (h _ _ hbc).imp_left ih.tail
      · exact absurd hbc (hx _)
  intro hcy
  obtain hcy' | rfl := hstep hcy
  · exact hr a hcy'
  · obtain ⟨b, hb, -⟩ := Relation.TransGen.head'_iff.1 hcy
    exact hx b hb

section tree

variable {N : Nat} {nd nd' : Inum → Node} {L L' : Links} {i d dp : Inum} {x : Node}

/-- The number of entries other than `.` and `..` that name `i`. -/
def named (N : Nat) (nd : Inum → Node) (i : Inum) : Nat := ∑ d ∈ Finset.range N, (nd d).kids.count i

/-- The number of subdirectories. -/
def dirKids (nd : Inum → Node) (d : Inum) : Nat := (nd d).kids.countP fun x => (nd x).type = .dir

/-- The links that `i` must have; `L` says how many are counted without an entry. -/
def needed (N : Nat) (nd : Inum → Node) (L : Links) (i : Inum) : Int :=
  (named N nd i + dirKids nd i + L i : Nat) + if i = ROOTINO then 1 else 0

/-- The root, or named by an entry. -/
def Attached (N : Nat) (nd : Inum → Node) (d : Inum) : Prop := d = ROOTINO ∨ 0 < named N nd d

/-- The first two entries are `.` and `..`, and `..` names the directory that names `d`. -/
def Dots (nd : Inum → Node) (d : Inum) : Prop :=
  ∃ p rest, (nd d).ents = ⟨d, Dir.dot⟩ :: ⟨p, Dir.dotdot⟩ :: rest ∧ if d = ROOTINO then p = ROOTINO else d ∈ (nd p).kids

/-- An entry of `a` other than `.` and `..` names `b`. -/
def Child (nd : Inum → Node) (a b : Inum) : Prop := b ∈ (nd a).kids

structure Tree (N : Nat) (nd : Inum → Node) (L : Links) : Prop where
  range : ∀ i, (nd i).type ≠ .free → i ≠ 0 ∧ i < N
  root : (nd ROOTINO).type = .dir
  unnamed : named N nd ROOTINO = 0
  free : ∀ i, (nd i).type = .free → named N nd i = 0 ∧ L i = 0
  once : ∀ i, (nd i).type = .dir → named N nd i ≤ 1
  nlink : ∀ i, (nd i).type ≠ .free → needed N nd L i ≤ (nd i).nlink
  small : ∀ i, (nd i).nlink < 2 ^ 15
  dots : ∀ d, (nd d).type = .dir → Attached N nd d → Dots nd d
  names : ∀ d, (nd d).type = .dir → ((nd d).live.map Dirent.name).Nodup
  acyclic : ∀ d, ¬Relation.TransGen (Child nd) d d

theorem named_update (h : d < N) (x : Node) (i : Inum) :
    named N (update nd d x) i + (nd d).kids.count i = named N nd i + x.kids.count i :=
  sum_update_mem (Finset.mem_range.2 h) (fun y : Node => y.kids.count i) nd x

theorem named_congr (h : ∀ d, (nd' d).kids = (nd d).kids) : named N nd' i = named N nd i := by
  unfold named
  simp only [h]

theorem dirKids_congr (h : (nd' d).kids = (nd d).kids) (ht : ∀ x ∈ (nd d).kids, (nd' x).type = .dir ↔ (nd x).type = .dir) :
    dirKids nd' d = dirKids nd d := by
  unfold dirKids
  rw [h]
  exact List.countP_congr fun x hx => by simpa using ht x hx

theorem dirKids_eq_zero : dirKids nd d = 0 ↔ ∀ x ∈ (nd d).kids, (nd x).type ≠ .dir := by
  unfold dirKids
  simp [List.countP_eq_zero]

theorem needed_mono (h : named N nd' i + dirKids nd' i + L' i ≤ named N nd i + dirKids nd i + L i) :
    needed N nd' L' i ≤ needed N nd L i := by
  unfold needed
  omega

section entry

variable {y : Node} {de : Dirent}

theorem type_update (ht : y.type = (nd d).type) (j : Inum) : (update nd d y j).type = (nd j).type := by
  by_cases hj : j = d
  · rw [hj, Function.update_self, ht]
  · rw [Function.update_of_ne hj]

/-- With one entry more, one inode has one name more. -/
theorem named_entry (hN : d < N) (hd : (nd d).type = .dir) (ht : y.type = (nd d).type) (hl : y.live.Perm (de :: (nd d).live)) (j : Inum) :
    named N (update nd d y) j = named N nd j + if Node.Plain de.name ∧ de.inum = j then 1 else 0 := by
  have hkids := Node.kids_perm ht hd hl
  have h1 := @named_update N nd d hN y j
  rw [hkids.count_eq] at h1
  by_cases hp : Node.Plain de.name
  · rw [if_pos hp] at h1
    by_cases hij : de.inum = j
    · rw [hij, List.count_cons_self] at h1
      rw [if_pos ⟨hp, hij⟩]
      omega
    · rw [List.count_cons_of_ne hij] at h1
      rw [if_neg fun hc => hij hc.2]
      omega
  · rw [if_neg hp] at h1
    rw [if_neg fun hc => hp hc.1]
    omega

theorem mem_kids_entry (hd : (nd d).type = .dir) (ht : y.type = (nd d).type) (hl : y.live.Perm (de :: (nd d).live)) (a b : Inum) :
    b ∈ (update nd d y a).kids ↔ b ∈ (nd a).kids ∨ a = d ∧ Node.Plain de.name ∧ b = de.inum := by
  by_cases had : a = d
  · subst had
    rw [Function.update_self, (Node.kids_perm ht hd hl).mem_iff]
    by_cases hp : Node.Plain de.name
    · simp [hp, or_comm]
    · simp [hp]
  · rw [Function.update_of_ne had]
    simp [had]

theorem dirKids_entry (hd : (nd d).type = .dir) (ht : y.type = (nd d).type) (hl : y.live.Perm (de :: (nd d).live)) (a : Inum) :
    dirKids (update nd d y) a = dirKids nd a + if a = d ∧ Node.Plain de.name ∧ (nd de.inum).type = .dir then 1 else 0 := by
  by_cases had : a = d
  · subst had
    unfold dirKids
    simp only [type_update ht]
    rw [Function.update_self, (Node.kids_perm ht hd hl).countP_eq]
    by_cases hp : Node.Plain de.name
    · rw [if_pos hp, List.countP_cons]
      simp [hp]
    · simp [hp]
  · rw [dirKids_congr (by rw [Function.update_of_ne had]) fun x _ => by rw [type_update ht]]
    simp [had]

section removed

variable (hd : (nd d).type = .dir) (ht : y.type = (nd d).type) (hl : (nd d).live.Perm (de :: y.live))

include hd ht hl

/-- With an entry less: the same read the other way. -/
theorem named_removed (hN : d < N) (j : Inum) :
    named N (update nd d y) j + (if Node.Plain de.name ∧ de.inum = j then 1 else 0) = named N nd j := by
  have h := @named_entry N (update nd d y) d (nd d) de hN (by rwa [Function.update_self, ht]) (by rw [Function.update_self, ht])
    (by rwa [Function.update_self]) j
  rwa [Function.update_idem, Function.update_eq_self, eq_comm] at h

theorem mem_kids_removed (a b : Inum) :
    b ∈ (nd a).kids ↔ b ∈ (update nd d y a).kids ∨ a = d ∧ Node.Plain de.name ∧ b = de.inum := by
  have h := @mem_kids_entry (update nd d y) d (nd d) de (by rwa [Function.update_self, ht]) (by rw [Function.update_self, ht])
    (by rwa [Function.update_self]) a b
  rwa [Function.update_idem, Function.update_eq_self] at h

theorem dirKids_removed (a : Inum) :
    dirKids (update nd d y) a + (if a = d ∧ Node.Plain de.name ∧ (nd de.inum).type = .dir then 1 else 0) = dirKids nd a := by
  have h := @dirKids_entry (update nd d y) d (nd d) de (by rwa [Function.update_self, ht]) (by rw [Function.update_self, ht])
    (by rwa [Function.update_self]) a
  rwa [Function.update_idem, Function.update_eq_self, type_update ht, eq_comm] at h

end removed

end entry

namespace Tree

theorem lt_of_mem (h : Tree N nd L) (hi : i ∈ (nd d).kids) : d < N := by
  refine (h.range d ?_).2
  rw [(Node.mem_kids.1 hi).1]
  decide

theorem count_le (h : Tree N nd L) (d i : Inum) : (nd d).kids.count i ≤ named N nd i := by
  by_cases hi : i ∈ (nd d).kids
  · exact Finset.single_le_sum (f := fun d => (nd d).kids.count i) (fun _ _ => Nat.zero_le _) (Finset.mem_range.2 (h.lt_of_mem hi))
  · rw [List.count_eq_zero.2 hi]
    exact Nat.zero_le _

theorem named_pos (h : Tree N nd L) (hi : i ∈ (nd d).kids) : 0 < named N nd i :=
  Nat.lt_of_lt_of_le (List.count_pos_iff.2 hi) (h.count_le d i)

theorem not_mem (h : Tree N nd L) (hi : named N nd i = 0) (d : Inum) : i ∉ (nd d).kids := fun hm => by
  have := h.named_pos hm
  omega

theorem kid_ne_free (h : Tree N nd L) (hi : i ∈ (nd d).kids) : (nd i).type ≠ .free := fun hf => h.not_mem (h.free i hf).1 d hi

/-- At most one directory names a directory. -/
theorem parent_unique (h : Tree N nd L) {e : Inum} (hi : (nd i).type = .dir) (hd : i ∈ (nd d).kids) (he : i ∈ (nd e).kids) : d = e := by
  by_contra hne
  have h1 := h.once i hi
  have h2 : ({d, e} : Finset Inum) ⊆ Finset.range N := by
    intro j hj
    obtain rfl | rfl : j = d ∨ j = e := by simpa using hj
    · exact Finset.mem_range.2 (h.lt_of_mem hd)
    · exact Finset.mem_range.2 (h.lt_of_mem he)
  have h3 : (nd d).kids.count i + (nd e).kids.count i ≤ named N nd i := by
    rw [← Finset.sum_pair (f := fun d => (nd d).kids.count i) hne]
    exact Finset.sum_le_sum_of_subset h2
  have h4 := List.count_pos_iff.2 hd
  have h5 := List.count_pos_iff.2 he
  omega

theorem named_le_nlink (h : Tree N nd L) (hi : (nd i).type ≠ .free) : (named N nd i + dirKids nd i + L i : Nat) ≤ (nd i).nlink := by
  have := h.nlink i hi
  unfold needed at this
  split at this <;> omega

/-- An inode without links is not named and has no subdirectory. -/
theorem of_nlink_zero (h : Tree N nd L) (hi : (nd i).type ≠ .free) (hn : (nd i).nlink = 0) :
    named N nd i = 0 ∧ dirKids nd i = 0 ∧ L i = 0 ∧ i ≠ ROOTINO := by
  have h1 := h.nlink i hi
  unfold needed at h1
  split at h1
  · omega
  · exact ⟨by omega, by omega, by omega, ‹_›⟩

/-- Nothing but link counts and what does not matter changes. -/
theorem of_same (h : Tree N nd L) (ht : ∀ i, (nd' i).type = (nd i).type) (he : ∀ i, (nd i).type = .dir → (nd' i).ents = (nd i).ents)
    (hf : ∀ i, (nd i).type = .free → L' i = 0) (hn : ∀ i, (nd i).type ≠ .free → needed N nd L' i ≤ (nd' i).nlink)
    (hs : ∀ i, (nd' i).nlink < 2 ^ 15) : Tree N nd' L' := by
  have hk : ∀ d, (nd' d).kids = (nd d).kids := by
    intro d
    by_cases hd : (nd d).type = .dir
    · exact Node.kids_congr (ht d) (he d hd)
    · rw [Node.kids_of_ne hd, Node.kids_of_ne (by rwa [ht])]
  have hc : ∀ i, named N nd' i = named N nd i := fun i => named_congr hk
  have hd : ∀ d, dirKids nd' d = dirKids nd d := fun d => dirKids_congr (hk d) fun x _ => by rw [ht]
  refine ⟨fun i hi => h.range i (by rwa [ht] at hi), by rw [ht, h.root], by rw [hc, h.unnamed], fun i hi => ?_, fun i hi => ?_,
    fun i hi => ?_, hs, fun d hdir ha => ?_, fun d hdir => ?_, fun d hcy => h.acyclic d ?_⟩
  · rw [ht] at hi
    exact ⟨by rw [hc]; exact (h.free i hi).1, hf i hi⟩
  · rw [hc]
    exact h.once i (by rwa [ht] at hi)
  · unfold needed
    rw [hc, hd]
    exact hn i (by rwa [ht] at hi)
  · rw [ht] at hdir
    unfold Attached at ha
    rw [hc] at ha
    obtain ⟨p, rest, h1, h2⟩ := h.dots d hdir ha
    refine ⟨p, rest, by rw [he d hdir, h1], ?_⟩
    rwa [hk]
  · rw [ht] at hdir
    unfold Node.live
    rw [he d hdir]
    exact h.names d hdir
  · refine hcy.lift id fun a b hab => ?_
    unfold Child at hab
    rwa [hk] at hab

/-- An inode without links is freed. -/
theorem freed (h : Tree N nd L) (hn : (nd i).nlink = 0) : Tree N (update nd i (Dir.freed (nd i))) L := by
  by_cases hf : (nd i).type = .free
  · refine h.of_same (fun j => ?_) (fun j hj => ?_) (fun j hj => (h.free j hj).2) (fun j hj => ?_) fun j => ?_
    · by_cases hji : j = i
      · rw [hji, Function.update_self, hf]
        rfl
      · rw [Function.update_of_ne hji]
    · have hji : j ≠ i := by
        rintro rfl
        rw [hf] at hj
        cases hj
      rw [Function.update_of_ne hji]
    · have hji : j ≠ i := fun hji => hj (hji ▸ hf)
      rw [Function.update_of_ne hji]
      exact h.nlink j hj
    · by_cases hji : j = i
      · rw [hji, Function.update_self]
        exact h.small i
      · rw [Function.update_of_ne hji]
        exact h.small j
  obtain ⟨h0, hd0, hL0, hroot⟩ := h.of_nlink_zero hf hn
  have hN := (h.range i hf).2
  have hkids : (Dir.freed (nd i)).kids = [] := Node.kids_of_ne (by simp [Dir.freed])
  -- the directory had no subdirectories, so only files lose an entry
  have hle : ∀ j, named N (update nd i (Dir.freed (nd i))) j ≤ named N nd j := by
    intro j
    have := @named_update N nd i hN (Dir.freed (nd i)) j
    rw [hkids, List.count_nil] at this
    omega
  have heq : ∀ j, (nd j).type = .dir → named N (update nd i (Dir.freed (nd i))) j = named N nd j := by
    intro j hj
    have h1 := @named_update N nd i hN (Dir.freed (nd i)) j
    have h2 : (nd i).kids.count j = 0 := List.count_eq_zero.2 fun hm => dirKids_eq_zero.1 hd0 j hm hj
    rw [hkids, List.count_nil] at h1
    omega
  have hdk : ∀ d ≠ i, dirKids (update nd i (Dir.freed (nd i))) d = dirKids nd d := by
    intro d hd
    refine dirKids_congr (by rw [Function.update_of_ne hd]) fun x hx => ?_
    rw [Function.update_of_ne]
    rintro rfl
    exact h.not_mem h0 d hx
  have hty : ∀ j, (update nd i (Dir.freed (nd i)) j).type ≠ .free → j ≠ i := by
    rintro j hj rfl
    rw [Function.update_self] at hj
    exact hj rfl
  have hdir : ∀ j, (update nd i (Dir.freed (nd i)) j).type = .dir → j ≠ i := fun j hj => hty j (by rw [hj]; decide)
  refine ⟨fun j hj => ?_, ?_, ?_, fun j hj => ?_, fun j hj => ?_, fun j hj => ?_, fun j => ?_, fun d hd ha => ?_, fun d hd => ?_,
    fun d hcy => h.acyclic d ?_⟩
  · rw [Function.update_of_ne (hty j hj)] at hj
    exact h.range j hj
  · rw [Function.update_of_ne (Ne.symm hroot), h.root]
  · have := hle ROOTINO
    have := h.unnamed
    omega
  · have h1 := hle j
    by_cases hji : j = i
    · subst hji
      exact ⟨by omega, hL0⟩
    · rw [Function.update_of_ne hji] at hj
      have := h.free j hj
      exact ⟨by omega, this.2⟩
  · have h1 := hle j
    rw [Function.update_of_ne (hdir j hj)] at hj
    have := h.once j hj
    omega
  · have hji := hty j hj
    rw [Function.update_of_ne hji] at hj ⊢
    have h2 := hle j
    have h3 := hdk j hji
    exact (needed_mono (by omega)).trans (h.nlink j hj)
  · by_cases hji : j = i
    · rw [hji, Function.update_self]
      exact h.small i
    · rw [Function.update_of_ne hji]
      exact h.small j
  · have hdi := hdir d hd
    rw [Function.update_of_ne hdi] at hd
    unfold Attached at ha
    rw [heq d hd] at ha
    obtain ⟨p, rest, h1, h2⟩ := h.dots d hd ha
    refine ⟨p, rest, by rw [Function.update_of_ne hdi, h1], ?_⟩
    by_cases hdr : d = ROOTINO
    · rwa [if_pos hdr] at h2 ⊢
    · rw [if_neg hdr] at h2 ⊢
      have hpi : p ≠ i := by
        rintro rfl
        exact dirKids_eq_zero.1 hd0 d h2 hd
      rwa [Function.update_of_ne hpi]
  · have hdi := hdir d hd
    rw [Function.update_of_ne hdi] at hd ⊢
    exact h.names d hd
  · refine hcy.lift id fun a b hab => ?_
    unfold Child at hab
    have hai : a ≠ i := by
      rintro rfl
      rw [Function.update_self, hkids] at hab
      cases hab
    rwa [Function.update_of_ne hai] at hab

/-- A free inode is allocated, with no entries but `.` and `..`. -/
theorem alloc (h : Tree N nd L) (hf : (nd i).type = .free) (hi : i ≠ 0) (hN : i < N) (hk : x.kids = []) (hn : (L' i : Int) ≤ x.nlink)
    (hs : x.nlink < 2 ^ 15) (hnm : (x.live.map Dirent.name).Nodup) (hx : x.type ≠ .free) (hL : ∀ j ≠ i, L' j = L j) :
    Tree N (update nd i x) L' := by
  have h0 := (h.free i hf).1
  have hroot : i ≠ ROOTINO := by
    rintro rfl
    rw [h.root] at hf
    cases hf
  have hkids : ∀ d, (update nd i x d).kids = (nd d).kids := by
    intro d
    by_cases hd : d = i
    · rw [hd, Function.update_self, hk, Node.kids_of_ne (by rw [hf]; decide)]
    · rw [Function.update_of_ne hd]
  have hc : ∀ j, named N (update nd i x) j = named N nd j := fun j => named_congr hkids
  have hdk : ∀ d, dirKids (update nd i x) d = dirKids nd d := by
    refine fun d => dirKids_congr (hkids d) fun y hy => ?_
    rw [Function.update_of_ne]
    rintro rfl
    exact h.not_mem h0 d hy
  refine ⟨fun j hj => ?_, ?_, by rw [hc, h.unnamed], fun j hj => ?_, fun j hj => ?_, fun j hj => ?_, fun j => ?_, fun d hd ha => ?_,
    fun d hd => ?_, fun d hcy => h.acyclic d ?_⟩
  · by_cases hji : j = i
    · exact hji ▸ ⟨hi, hN⟩
    · rw [Function.update_of_ne hji] at hj
      exact h.range j hj
  · rw [Function.update_of_ne (Ne.symm hroot), h.root]
  · have hji : j ≠ i := by
      rintro rfl
      rw [Function.update_self] at hj
      exact hx hj
    rw [Function.update_of_ne hji] at hj
    rw [hc, hL j hji]
    exact h.free j hj
  · rw [hc]
    by_cases hji : j = i
    · rw [hji, h0]
      exact Nat.zero_le _
    · rw [Function.update_of_ne hji] at hj
      exact h.once j hj
  · by_cases hji : j = i
    · subst hji
      have h1 : dirKids nd j = 0 := by
        unfold dirKids
        rw [Node.kids_of_ne (by rw [hf]; decide)]
        rfl
      unfold needed
      rw [hc, hdk, h0, h1, if_neg hroot, Function.update_self]
      simpa using hn
    · rw [Function.update_of_ne hji] at hj ⊢
      refine (needed_mono ?_).trans (h.nlink j hj)
      rw [hc, hdk, hL j hji]
  · by_cases hji : j = i
    · rwa [hji, Function.update_self]
    · rw [Function.update_of_ne hji]
      exact h.small j
  · unfold Attached at ha
    rw [hc] at ha
    have hdi : d ≠ i := by
      rintro rfl
      obtain ha | ha := ha
      · exact hroot ha
      · omega
    rw [Function.update_of_ne hdi] at hd
    obtain ⟨p, rest, h1, h2⟩ := h.dots d hd ha
    refine ⟨p, rest, by rw [Function.update_of_ne hdi, h1], ?_⟩
    rwa [hkids]
  · by_cases hdi : d = i
    · rwa [hdi, Function.update_self]
    · rw [Function.update_of_ne hdi] at hd ⊢
      exact h.names d hd
  · refine hcy.lift id fun a b hab => ?_
    unfold Child at hab
    rwa [hkids] at hab

/-- An entry is added to a directory: one of the counted links to a file, or the only name of a new directory. -/
theorem add (h : Tree N nd L) {name : Name} {ents : List Dirent} {n : Int} (hd : (nd dp).type = .dir)
    (ha : (nd dp).Added ⟨i, name⟩ ents) (hno : (nd dp).NoName name) (hi : (nd i).type ≠ .free) (hne : i ≠ dp) (hl : 0 < L i)
    (hn : (nd dp).nlink + (if Node.Plain name ∧ (nd i).type = .dir then 1 else 0) ≤ n) (hs : n < 2 ^ 15)
    (hdir : (nd i).type = .dir → Node.Plain name →
      named N nd i = 0 ∧ (nd i).kids = [] ∧ ∃ rest, (nd i).ents = ⟨i, Dir.dot⟩ :: ⟨dp, Dir.dotdot⟩ :: rest) :
    Tree N (update nd dp { nd dp with ents, nlink := n }) (update L i (L i - 1)) := by
  have hi0 := (h.range i hi).1
  have hN := (h.range dp (by rw [hd]; decide)).2
  have hlive := ha.live_perm hi0
  have hroot : (nd i).type = .dir → Node.Plain name → i ≠ ROOTINO := by
    rintro h1 h2 rfl
    obtain ⟨-, hk, rest, he⟩ := hdir h1 h2
    obtain ⟨p, rest', he', hp⟩ := h.dots ROOTINO h.root (.inl rfl)
    rw [he] at he'
    simp only [List.cons.injEq, Dirent.mk.injEq, and_true, true_and] at he'
    rw [if_pos rfl] at hp
    exact hne (hp.symm.trans he'.1.symm)
  have hty0 : ({ nd dp with ents, nlink := n } : Node).type = (nd dp).type := rfl
  have hty : ∀ j, (update nd dp { nd dp with ents, nlink := n } j).type = (nd j).type := type_update hty0
  have hnamed : ∀ j, named N (update nd dp { nd dp with ents, nlink := n }) j =
      named N nd j + if Node.Plain name ∧ i = j then 1 else 0 := named_entry hN hd hty0 hlive
  have hmem : ∀ a b, b ∈ (update nd dp { nd dp with ents, nlink := n } a).kids ↔ b ∈ (nd a).kids ∨ a = dp ∧ Node.Plain name ∧ b = i :=
    mem_kids_entry hd hty0 hlive
  have hdk : ∀ d, dirKids (update nd dp { nd dp with ents, nlink := n }) d =
      dirKids nd d + if d = dp ∧ Node.Plain name ∧ (nd i).type = .dir then 1 else 0 := dirKids_entry hd hty0 hlive
  refine ⟨fun j hj => h.range j (by rwa [hty] at hj), by rw [hty, h.root], ?_, fun j hj => ?_, fun j hj => ?_, fun j hj => ?_,
    fun j => ?_, fun d hdd hat => ?_, fun d hdd => ?_, ?_⟩
  · rw [hnamed, h.unnamed, if_neg]
    rintro ⟨hp, hir⟩
    have hti : (nd i).type = .dir := hir ▸ h.root
    exact hroot hti hp hir
  · rw [hty] at hj
    have hji : j ≠ i := fun hji => hi (hji ▸ hj)
    rw [hnamed, Function.update_of_ne hji, if_neg fun hc => hji hc.2.symm]
    exact h.free j hj
  · rw [hty] at hj
    rw [hnamed]
    have h1 := h.once j hj
    split
    · rename_i hc
      obtain ⟨hp, rfl⟩ := hc
      have := (hdir hj hp).1
      omega
    · omega
  · rw [hty] at hj
    by_cases hji : j = i
    · subst hji
      rw [Function.update_of_ne hne]
      refine (needed_mono ?_).trans (h.nlink j hj)
      have h1 := hnamed j
      have h2 := hdk j
      rw [if_neg fun hc => hne hc.1] at h2
      rw [Function.update_self]
      split at h1 <;> omega
    · have h1 := hnamed j
      rw [if_neg fun hc => hji hc.2.symm] at h1
      by_cases hjdp : j = dp
      · subst hjdp
        have h2 := hdk j
        have h3 := h.nlink j hj
        simp only [true_and] at h2
        rw [Function.update_self]
        unfold needed at h3 ⊢
        rw [h1, Function.update_of_ne hji]
        dsimp only
        by_cases hc : Node.Plain name ∧ (nd i).type = .dir
        · rw [if_pos hc] at hn h2
          omega
        · rw [if_neg hc] at hn h2
          omega
      · have h2 := hdk j
        rw [if_neg fun hc => hjdp hc.1] at h2
        rw [Function.update_of_ne hjdp]
        refine (needed_mono ?_).trans (h.nlink j hj)
        rw [Function.update_of_ne hji]
        omega
  · by_cases hjdp : j = dp
    · rwa [hjdp, Function.update_self]
    · rw [Function.update_of_ne hjdp]
      exact h.small j
  · rw [hty] at hdd
    by_cases hold : Attached N nd d
    · obtain ⟨p, rest, h1, h2⟩ := h.dots d hdd hold
      have hp : if d = ROOTINO then p = ROOTINO else d ∈ (update nd dp { nd dp with ents, nlink := n } p).kids := by
        split at h2
        · rwa [if_pos ‹_›]
        · rw [if_neg ‹_›]
          exact (hmem p d).2 (.inl h2)
      by_cases hddp : d = dp
      · subst hddp
        have hd0 := (h.range d (by rw [hdd]; decide)).1
        have hp0 : p ≠ 0 := by
          split at h2
          · rw [h2]
            decide
          · exact (h.range p (by rw [(Node.mem_kids.1 h2).1]; decide)).1
        obtain ⟨rest', hr⟩ := ha.take_two h1 hd0 hp0
        exact ⟨p, rest', by rw [Function.update_self]; exact hr, hp⟩
      · exact ⟨p, rest, by rw [Function.update_of_ne hddp, h1], hp⟩
    · -- the directory is the new one
      unfold Attached at hat hold
      rw [hnamed] at hat
      have hnew : Node.Plain name ∧ i = d := by
        by_contra hc
        rw [if_neg hc] at hat
        exact hold hat
      obtain ⟨hp, rfl⟩ := hnew
      obtain ⟨-, -, rest, he⟩ := hdir hdd hp
      refine ⟨dp, rest, by rw [Function.update_of_ne hne, he], ?_⟩
      rw [if_neg (hroot hdd hp)]
      exact (hmem dp i).2 (.inr ⟨rfl, hp, rfl⟩)
  · rw [hty] at hdd
    by_cases hddp : d = dp
    · subst hddp
      rw [Function.update_self]
      have h1 : (Node.live { nd d with ents, nlink := n }).map Dirent.name = (Node.live { nd d with ents }).map Dirent.name := rfl
      rw [h1, (hlive.map Dirent.name).nodup_iff, List.map_cons, List.nodup_cons]
      refine ⟨fun hm => ?_, h.names d hdd⟩
      obtain ⟨de, hde, hname⟩ := List.mem_map.1 hm
      exact hno de hde hname
    · rw [Function.update_of_ne hddp]
      exact h.names d hdd
  · refine fun d hcy => ?_
    by_cases hp : Node.Plain name
    · refine acyclic_of_sink (r := Child nd) (x := i) (fun a b hab => ?_) (fun b hb => ?_) h.acyclic d hcy
      · obtain hab | ⟨-, -, hb⟩ := (hmem a b).1 hab
        · exact .inl hab
        · exact .inr hb
      · obtain hb | ⟨hidp, -⟩ := (hmem i b).1 hb
        · by_cases hti : (nd i).type = .dir
          · rw [(hdir hti hp).2.1] at hb
            cases hb
          · rw [Node.kids_of_ne hti] at hb
            cases hb
        · exact hne hidp
    · refine h.acyclic d (hcy.lift id fun a b hab => ?_)
      obtain hab | ⟨-, hp', -⟩ := (hmem a b).1 hab
      · exact hab
      · exact absurd hp' hp

/-- An entry other than `.` and `..` is removed from a directory; the link is still counted. -/
theorem remove (h : Tree N nd L) {name : Name} {l₁ l₂ : List Dirent} {n : Int} (hd : (nd dp).type = .dir)
    (he : (nd dp).ents = l₁ ++ ⟨i, name⟩ :: l₂) (hp : Node.Plain name) (hi0 : i ≠ 0)
    (hn : (nd dp).nlink ≤ n + if (nd i).type = .dir then 1 else 0) (hs : n < 2 ^ 15) :
    Tree N (update nd dp { nd dp with ents := l₁ ++ ⟨0, []⟩ :: l₂, nlink := n }) (update L i (L i + 1)) := by
  let y : Node := { nd dp with ents := l₁ ++ ⟨0, []⟩ :: l₂, nlink := n }
  have hy : y.ents = l₁ ++ ⟨0, []⟩ :: l₂ ∧ y.nlink = n ∧ y.type = (nd dp).type := ⟨rfl, rfl, rfl⟩
  have hlive : (nd dp).live.Perm (⟨i, name⟩ :: y.live) := Node.removed_live_perm he hi0
  have hN := (h.range dp (by rw [hd]; decide)).2
  have hik : i ∈ (nd dp).kids := Node.mem_kids.2 ⟨hd, _, hlive.mem_iff.2 List.mem_cons_self, hp, rfl⟩
  have hfree := h.kid_ne_free hik
  change Tree N (update nd dp y) (update L i (L i + 1))
  clear_value y
  have hty : ∀ j, (update nd dp y j).type = (nd j).type := type_update hy.2.2
  have hnamed : ∀ j, named N (update nd dp y) j + (if i = j then 1 else 0) = named N nd j := fun j => by
    simpa [hp] using named_removed hd hy.2.2 hlive hN j
  have hmem : ∀ a b, b ∈ (nd a).kids ↔ b ∈ (update nd dp y a).kids ∨ a = dp ∧ b = i := fun a b => by
    simpa [hp] using mem_kids_removed hd hy.2.2 hlive a b
  have hdk : ∀ d, dirKids (update nd dp y) d + (if d = dp ∧ (nd i).type = .dir then 1 else 0) = dirKids nd d := fun d => by
    simpa [hp] using dirKids_removed hd hy.2.2 hlive d
  refine ⟨fun j hj => h.range j (by rwa [hty] at hj), by rw [hty, h.root], ?_, fun j hj => ?_, fun j hj => ?_, fun j hj => ?_,
    fun j => ?_, fun d hdd hat => ?_, fun d hdd => ?_, fun d hcy => h.acyclic d ?_⟩
  · have h1 := hnamed ROOTINO
    have h2 := h.unnamed
    omega
  · rw [hty] at hj
    have hji : j ≠ i := fun hji => hfree (hji ▸ hj)
    have h1 := hnamed j
    have h2 := h.free j hj
    rw [Function.update_of_ne hji]
    exact ⟨by omega, h2.2⟩
  · rw [hty] at hj
    have h1 := hnamed j
    have h2 := h.once j hj
    omega
  · rw [hty] at hj
    have h1 := hnamed j
    have h2 := hdk j
    have h3 := h.nlink j hj
    have h4 : update L i (L i + 1) j = L j + if i = j then 1 else 0 := by
      by_cases hji : i = j
      · subst hji
        rw [Function.update_self, if_pos rfl]
      · rw [Function.update_of_ne (Ne.symm hji), if_neg hji, add_zero]
    by_cases hjdp : j = dp
    · subst hjdp
      rw [Function.update_self, hy.2.1]
      unfold needed at h3 ⊢
      rw [h4]
      by_cases hti : (nd i).type = .dir
      · rw [if_pos ⟨rfl, hti⟩] at h2
        rw [if_pos hti] at hn
        omega
      · rw [if_neg fun hc => hti hc.2] at h2
        rw [if_neg hti] at hn
        omega
    · rw [Function.update_of_ne hjdp]
      refine (needed_mono ?_).trans h3
      omega
  · by_cases hjdp : j = dp
    · rw [hjdp, Function.update_self, hy.2.1]
      exact hs
    · rw [Function.update_of_ne hjdp]
      exact h.small j
  · rw [hty] at hdd
    have hold : Attached N nd d := by
      refine hat.imp_right fun hpos => ?_
      have := hnamed d
      omega
    obtain ⟨p, rest, h1, h2⟩ := h.dots d hdd hold
    have hpar : if d = ROOTINO then p = ROOTINO else d ∈ (update nd dp y p).kids := by
      split at h2
      · rwa [if_pos ‹_›]
      · rename_i hroot
        rw [if_neg hroot]
        obtain hk | ⟨-, rfl⟩ := (hmem p d).1 h2
        · exact hk
        · -- the entry that is removed was the only one to name `d`
          have h3 := h.once d hdd
          have h4 := hnamed d
          have h5 : 0 < named N (update nd dp y) d := hat.resolve_left hroot
          rw [if_pos rfl] at h4
          omega
    by_cases hddp : d = dp
    · subst hddp
      rw [he] at h1
      obtain ⟨rest', hr⟩ := Node.removed_take_two h1 (fun hc => hp.1 (congrArg Dirent.name hc)) (fun hc => hp.2 (congrArg Dirent.name hc))
      exact ⟨p, rest', by rw [Function.update_self, hy.1, hr], hpar⟩
    · exact ⟨p, rest, by rw [Function.update_of_ne hddp, h1], hpar⟩
  · rw [hty] at hdd
    by_cases hddp : d = dp
    · subst hddp
      rw [Function.update_self]
      have h1 := h.names d hdd
      rw [(hlive.map Dirent.name).nodup_iff, List.map_cons, List.nodup_cons] at h1
      exact h1.2
    · rw [Function.update_of_ne hddp]
      exact h.names d hdd
  · exact hcy.lift id fun a b hab => (hmem a b).2 (.inl hab)

/-- A link count changes with the counted links. -/
theorem setLink (h : Tree N nd L) {n : Int} {m : Nat} (hf : (nd i).type ≠ .free) (hn : (nd i).nlink + m ≤ n + L i) (hs : n < 2 ^ 15) :
    Tree N (update nd i { nd i with nlink := n }) (update L i m) := by
  refine h.of_same (fun j => ?_) (fun j _ => ?_) (fun j hj => ?_) (fun j hj => ?_) fun j => ?_
  · by_cases hji : j = i
    · rw [hji, Function.update_self]
    · rw [Function.update_of_ne hji]
  · by_cases hji : j = i
    · rw [hji, Function.update_self]
    · rw [Function.update_of_ne hji]
  · have hji : j ≠ i := by
      rintro rfl
      exact hf hj
    rw [Function.update_of_ne hji]
    exact (h.free j hj).2
  · have h1 := h.nlink j hj
    by_cases hji : j = i
    · subst hji
      rw [Function.update_self]
      unfold needed at h1 ⊢
      rw [Function.update_self]
      change _ ≤ n
      omega
    · rw [Function.update_of_ne hji]
      exact (needed_mono (by rw [Function.update_of_ne hji])).trans h1
  · by_cases hji : j = i
    · rwa [hji, Function.update_self]
    · rw [Function.update_of_ne hji]
      exact h.small j

end Tree

end tree

end Xv6
