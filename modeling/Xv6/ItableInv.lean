import Xv6.Itable

/-!
# The invariant of the inode table

What holds of an entry depends on few things: its fields, the inode in its block, who has its lock (`Stage`), how many variables and
how many unfinished calls of `iput` point to it, and whether a process waits for its lock.  `EntryInv` is stated of these, a step
changes them for one entry only (`Frame`), and `Inv` adds what holds between entries.
-/

namespace Xv6

open Function (update)

/-- The entry that a call is about. -/
def ItableCall.about : ItableCall → Option (Fin NINODE)
  | .wait i | .fill i | .iput i _ => some i
  | _ => none

theorem ItableCall.put?_iput (i : Fin NINODE) (x : IputAt) : (ItableCall.iput i x).put? = some i := rfl

namespace Itable

variable {P V : Type} {s t u : Itable P V}

/-- What the lock of an entry says about the copy of the inode: nobody has it; a process has it that may yet have to read the inode;
a process that uses the inode has it; an `iput` that frees the inode has it. -/
inductive Stage
  | unlocked | fill | held
  | freeing (x : IputAt)
  deriving DecidableEq

/-- The stage of entry `i` while a process is in the call `c` and has the lock. -/
def Stage.of (i : Fin NINODE) : ItableCall → Stage
  | .fill j => if j = i then .fill else .held
  | .iput j x => if j = i then .freeing x else .held
  | _ => .held

def stage (s : Itable P V) (i : Fin NINODE) : Stage :=
  match s.lock i with
  | none => .unlocked
  | some p => .of i (s.call p)

/-- The inode is not free in its block yet. -/
def Stage.Early : Stage → Prop
  | .freeing .itrunc | .freeing .update | .freeing .type | .freeing .iupdate => True
  | _ => False

/-- The copy in the table and the inode `d` in its block. -/
def EntryOk (e : ItableEntry) (d : Dinode) : Stage → Prop
  | .unlocked | .fill => e.valid = true → e.ino = d ∧ d.type ≠ 0
  | .held => e.valid = true ∧ e.ino.type = d.type
  | .freeing .itrunc | .freeing .type => e.valid = true ∧ e.ino = d ∧ d.type ≠ 0 ∧ d.nlink = 0
  | .freeing .update => e.valid = true ∧ e.ino.type = d.type ∧ e.ino.nlink = 0 ∧ d.type ≠ 0 ∧ d.nlink = 0
  | .freeing .iupdate => e.valid = true ∧ e.ino.type = 0 ∧ e.ino.nlink = 0 ∧ d.type ≠ 0 ∧ d.nlink = 0
  | .freeing .valid => e.valid = true
  | .freeing .releasesleep => e.valid = false
  | .freeing .ref => False

structure EntryInv (e : ItableEntry) (d : Dinode) (st : Stage) (points puts : Nat) (waits : Prop) : Prop where
  refs : e.ref = points + puts
  uses : waits ∨ st = .fill ∨ st = .held → 0 < points
  ok : 0 < e.ref → EntryOk e d st
  alone : st.Early → points = 0
  live : 0 < points → d.type ≠ 0

/-- The variables that point to the entry. -/
def points [Fintype V] (s : Itable P V) (i : Fin NINODE) : Nat := ∑ v, if s.var v = some i then 1 else 0

/-- The unfinished calls of `iput` with a pointer to the entry. -/
def puts [Fintype P] (s : Itable P V) (i : Fin NINODE) : Nat := ∑ p, if (s.call p).put? = some i then 1 else 0

/-- A process waits for the lock of the entry. -/
def Waits (s : Itable P V) (i : Fin NINODE) : Prop := ∃ q, s.call q = .wait i

/-- Which locks a process has, by where it is. -/
def CallOk (lock : Fin NINODE → Option P) (p : P) : ItableCall → Prop
  | .fill i => lock i = some p
  | .iput i x => lock i = some p ↔ x ≠ .ref
  | .scan _ type _ => type ≠ 0
  | _ => True

/-- An inode that `ialloc` has marked and for which it has not called `iget` yet: only an `iput` that has freed it points to it. -/
structure Taken [Fintype V] (s : Itable P V) (p : P) (dev n : UInt32) : Prop where
  type : (s.disk (dev, n)).type ≠ 0
  nlink : (s.disk (dev, n)).nlink = 0
  only : ∀ q, s.call q = .taken dev n → q = p
  gone : ∀ i, 0 < (s.entry i).ref → (s.entry i).key = (dev, n) → s.points i = 0 ∧ ¬(s.stage i).Early

/-! ### Counting pointers -/

theorem points_pos [Fintype V] {i : Fin NINODE} : 0 < s.points i ↔ ∃ v, s.var v = some i := by
  constructor
  · intro h
    obtain ⟨v, -, hv⟩ := Finset.exists_ne_zero_of_sum_ne_zero (Nat.ne_of_gt h)
    by_contra hn
    exact hv (if_neg fun hv => hn ⟨v, hv⟩)
  · rintro ⟨v, hv⟩
    have := le_sum (fun x => if x = some i then 1 else 0) s.var v
    rw [hv, if_pos rfl] at this
    exact this

theorem points_setVar [DecidableEq V] [Fintype V] {v : V} {x : Option (Fin NINODE)} (i : Fin NINODE) :
    (s.setVar v x).points i + (if s.var v = some i then 1 else 0) = s.points i + if x = some i then 1 else 0 :=
  sum_update (fun x => if x = some i then 1 else 0) s.var v x

/-- Two variables point to the entry. -/
theorem points_two [DecidableEq V] [Fintype V] {v w : V} {i : Fin NINODE} (hvw : w ≠ v) (hv : s.var v = some i)
    (hw : s.var w = some i) : 1 < s.points i := by
  have hset := points_setVar (s := s) (v := v) (x := none) i
  rw [if_pos hv, if_neg (Option.some_ne_none i ∘ Eq.symm)] at hset
  have : 0 < (s.setVar v none).points i := points_pos.2 ⟨w, by simp [setVar, Function.update_of_ne hvw, hw]⟩
  omega

theorem puts_goto [DecidableEq P] [Fintype P] {p : P} {c : ItableCall} (i : Fin NINODE) :
    (s.goto p c).puts i + (if (s.call p).put? = some i then 1 else 0) = s.puts i + if c.put? = some i then 1 else 0 :=
  sum_update (fun c => if ItableCall.put? c = some i then 1 else 0) s.call p c

theorem puts_goto_eq [DecidableEq P] [Fintype P] {p : P} {c : ItableCall} (h : c.put? = (s.call p).put?) (i : Fin NINODE) :
    (s.goto p c).puts i = s.puts i := by
  have := puts_goto (s := s) (p := p) (c := c) i
  rw [h] at this
  omega

/-! ### Looking up an inode -/

theorem find_some {k : UInt32 × UInt32} {i : Fin NINODE} (h : s.find k = some i) : 0 < (s.entry i).ref ∧ (s.entry i).key = k := by
  have := List.find?_some h
  simpa [has] using this

theorem find_none {k : UInt32 × UInt32} (h : s.find k = none) (i : Fin NINODE) (hr : 0 < (s.entry i).ref) : (s.entry i).key ≠ k := by
  have := List.find?_eq_none.1 h i (List.mem_finRange i)
  intro hk
  exact this (by simp [has, hr, hk])

/-- What `iget` can do. -/
theorem get_cases {k : UInt32 × UInt32} {r : Except String (Fin NINODE × ItableEntry)} (h : s.get k = r) :
    (∃ i, 0 < (s.entry i).ref ∧ (s.entry i).key = k ∧ r = .ok (i, (s.entry i).inc)) ∨
      (∀ j, 0 < (s.entry j).ref → (s.entry j).key ≠ k) ∧
        ((∃ i, (s.entry i).ref = 0 ∧ r = .ok (i, (s.entry i).recycle k)) ∨
          (∀ i, 0 < (s.entry i).ref) ∧ r = .error "iget: no inodes") := by
  subst h
  unfold Itable.get
  cases hf : s.find k with
  | some i =>
    obtain ⟨hr, hk⟩ := find_some hf
    exact .inl ⟨i, hr, hk, rfl⟩
  | none =>
    refine .inr ⟨find_none hf, ?_⟩
    cases he : (List.finRange NINODE).find? fun i => (s.entry i).ref = 0 with
    | some i => exact .inl ⟨i, by simpa using List.find?_some he, rfl⟩
    | none => exact .inr ⟨fun i => Nat.pos_of_ne_zero (by simpa using List.find?_eq_none.1 he i (List.mem_finRange i)), rfl⟩

/-! ### Where the processes are -/

theorem stage_none {i : Fin NINODE} (h : s.lock i = none) : s.stage i = .unlocked := by
  rw [stage, h]

theorem stage_some {i : Fin NINODE} {p : P} (h : s.lock i = some p) : s.stage i = .of i (s.call p) := by
  rw [stage, h]

theorem stage_goto [DecidableEq P] {i : Fin NINODE} {p : P} {c : ItableCall} (h : Stage.of i c = Stage.of i (s.call p)) :
    (s.goto p c).stage i = s.stage i := by
  simp only [stage, goto]
  cases s.lock i with
  | none => rfl
  | some q =>
    by_cases hq : q = p
    · subst hq
      simp only [Function.update_self, h]
    · simp only [Function.update_of_ne hq]

theorem stage_goto_some [DecidableEq P] {i : Fin NINODE} {p : P} {c : ItableCall} (h : s.lock i = some p) :
    (s.goto p c).stage i = .of i c := by
  rw [stage_some (show (s.goto p c).lock i = some p from h)]
  exact congrArg _ (Function.update_self ..)

theorem stage_held {p : P} {i : Fin NINODE} (hl : s.lock i = some p) (hp : s.call p = .out) : s.stage i = .held := by
  rw [stage_some hl, hp]
  rfl

/-- Whoever has a lock uses the inode, or is in `iput`. -/
theorem stage_cases (s : Itable P V) (i : Fin NINODE) :
    s.stage i = .unlocked ∧ s.lock i = none ∨ (s.stage i = .fill ∨ s.stage i = .held) ∧ (∃ p, s.Uses p i) ∨
      ∃ p x, s.stage i = .freeing x ∧ s.lock i = some p ∧ s.call p = .iput i x := by
  cases hl : s.lock i with
  | none => exact .inl ⟨stage_none hl, rfl⟩
  | some p =>
    have hst := stage_some hl
    cases hc : s.call p with
    | iput j x =>
      by_cases hj : j = i
      · subst hj
        exact .inr (.inr ⟨p, x, by rw [hst, hc]; exact if_pos rfl, rfl, hc⟩)
      · exact .inr (.inl ⟨.inr (by rw [hst, hc]; exact if_neg hj), p, .inr ⟨hl, by rw [hc]; exact fun h => hj (Option.some.inj h)⟩⟩)
    | fill j =>
      refine .inr (.inl ⟨?_, p, .inr ⟨hl, by rw [hc]; exact Option.some_ne_none i ∘ Eq.symm⟩⟩)
      rw [hst, hc, Stage.of]
      split
      · exact .inl rfl
      · exact .inr rfl
    | _ => exact .inr (.inl ⟨.inr (by rw [hst, hc]; rfl), p, .inr ⟨hl, by rw [hc]; exact Option.some_ne_none i ∘ Eq.symm⟩⟩)

theorem call_goto [DecidableEq P] {p : P} {c : ItableCall} (hc : ∀ dev n, c ≠ .taken dev n) (q : P) (dev n : UInt32)
    (h : update s.call p c q = .taken dev n) : s.call q = .taken dev n := by
  by_cases hq : q = p
  · subst hq
    rw [Function.update_self] at h
    exact absurd h (hc dev n)
  · rwa [Function.update_of_ne hq] at h

theorem waits_goto [DecidableEq P] {i : Fin NINODE} {p : P} {c : ItableCall} (hc : c ≠ .wait i)
    (h : (s.goto p c).Waits i) : s.Waits i := by
  obtain ⟨q, hq⟩ := h
  by_cases hqp : q = p
  · subst hqp
    exact absurd ((Function.update_self ..).symm.trans hq) hc
  · exact ⟨q, by simpa only [goto, Function.update_of_ne hqp] using hq⟩

/-! ### The inodes behind the table -/

theorem wiped_iff {i : Fin NINODE} : s.wiped i = true ↔ s.stage i = .freeing .valid := by
  unfold wiped stage
  cases s.lock i with
  | none => simp
  | some p =>
    simp only [decide_eq_true_eq]
    cases s.call p with
    | fill j =>
      rw [Stage.of]
      split <;> simp
    | iput j x =>
      rw [Stage.of]
      split
      · rename_i hj
        subst hj
        simp
      · rename_i hj
        simp [hj]
    | _ => simp [Stage.of]

theorem view_congr (he : t.entry = s.entry) (hd : t.disk = s.disk) (hst : ∀ i, t.stage i = s.stage i) : t.view = s.view := by
  have hw : t.wiped = s.wiped := by
    funext i
    rw [Bool.eq_iff_iff, wiped_iff, wiped_iff, hst]
  funext k
  simp only [view, find, he, hd, hw]

theorem view_none {k : UInt32 × UInt32} (h : ∀ i, 0 < (s.entry i).ref → (s.entry i).key ≠ k) : s.view k = s.disk k := by
  rw [view]
  cases hf : s.find k with
  | none => rfl
  | some i => exact absurd (find_some hf).2 (h i (find_some hf).1)

/-! ### The invariant -/

variable [Fintype P] [Fintype V]

structure Inv (s : Itable P V) : Prop where
  unique : ∀ i j, 0 < (s.entry i).ref → 0 < (s.entry j).ref → (s.entry i).key = (s.entry j).key → i = j
  calls : ∀ p, CallOk s.lock p (s.call p)
  entries : ∀ i, EntryInv (s.entry i) (s.disk (s.entry i).key) (s.stage i) (s.points i) (s.puts i) (s.Waits i)
  taken : ∀ p dev n, s.call p = .taken dev n → s.Taken p dev n

/-! ### Steps that are about one entry -/

/-- `t` differs from `s` at entry `i` only, and by the inode of this entry. -/
structure Frame (s t : Itable P V) (i : Fin NINODE) : Prop where
  entry : ∀ j, j ≠ i → t.entry j = s.entry j
  stage : ∀ j, j ≠ i → t.stage j = s.stage j
  points : ∀ j, j ≠ i → t.points j = s.points j
  puts : ∀ j, j ≠ i → t.puts j = s.puts j
  waits : ∀ j, j ≠ i → (t.Waits j ↔ s.Waits j)
  disk : ∀ k, k ≠ (s.entry i).key → t.disk k = s.disk k

theorem Frame.setEntry (i : Fin NINODE) (e : ItableEntry) : s.Frame (s.setEntry i e) i :=
  ⟨fun _ hj => Function.update_of_ne hj _ _, fun _ _ => rfl, fun _ _ => rfl, fun _ _ => rfl, fun _ _ => .rfl, fun _ _ => rfl⟩

theorem Frame.setLock (i : Fin NINODE) (l : Option P) : s.Frame (s.setLock i l) i := by
  refine ⟨fun _ _ => rfl, fun j hj => ?_, fun _ _ => rfl, fun _ _ => rfl, fun _ _ => .rfl, fun _ _ => rfl⟩
  simp only [Itable.stage, Itable.setLock, Function.update_of_ne hj]

theorem Frame.setDisk (i : Fin NINODE) (d : Dinode) : s.Frame (s.setDisk (s.entry i).key d) i :=
  ⟨fun _ _ => rfl, fun _ _ => rfl, fun _ _ => rfl, fun _ _ => rfl, fun _ _ => .rfl, fun _ hk => Function.update_of_ne hk _ _⟩

theorem Frame.setVar [DecidableEq V] {i : Fin NINODE} {v : V} {x : Option (Fin NINODE)} (h : s.var v = none ∨ s.var v = some i)
    (hx : x = none ∨ x = some i) : s.Frame (s.setVar v x) i := by
  refine ⟨fun _ _ => rfl, fun _ _ => rfl, fun j hj => ?_, fun _ _ => rfl, fun _ _ => .rfl, fun _ _ => rfl⟩
  have hp := points_setVar (s := s) (v := v) (x := x) j
  have hij := Ne.symm hj
  rw [if_neg (by rcases h with h | h <;> simp [h, hij]), if_neg (by rcases hx with h | h <;> simp [h, hij])] at hp
  exact hp

theorem Stage.of_ne {i : Fin NINODE} {c : ItableCall} (h : c.about ≠ some i) : Stage.of i c = .held := by
  cases c with
  | fill j => exact if_neg fun hj => h (congrArg some hj)
  | iput j x => exact if_neg fun hj => h (congrArg some hj)
  | _ => rfl

theorem Stage.of_none (i : Fin NINODE) {c : ItableCall} (h : c.about = none) : Stage.of i c = .held := Stage.of_ne (by simp [h])

theorem put?_ne {i : Fin NINODE} {c : ItableCall} (h : c.about ≠ some i) : c.put? ≠ some i := by
  cases c with
  | iput j x => exact h
  | _ => exact Option.some_ne_none i ∘ Eq.symm

theorem Frame.goto [DecidableEq P] {i : Fin NINODE} {p : P} {c : ItableCall} (h : ∀ j, (s.call p).about = some j → j = i)
    (hc : ∀ j, c.about = some j → j = i) : s.Frame (s.goto p c) i := by
  refine ⟨fun _ _ => rfl, fun j hj => ?_, fun _ _ => rfl, fun j hj => ?_, fun j hj => ?_, fun _ _ => rfl⟩
  · simp only [Itable.stage, Itable.goto]
    cases s.lock j with
    | none => rfl
    | some q =>
      by_cases hq : q = p
      · subst hq
        simp only [Function.update_self, Stage.of_ne fun he => hj (h j he), Stage.of_ne fun he => hj (hc j he)]
      · simp only [Function.update_of_ne hq]
  · have hp := puts_goto (s := s) (p := p) (c := c) j
    rw [if_neg (put?_ne fun he => hj (h j he)), if_neg (put?_ne fun he => hj (hc j he))] at hp
    exact hp
  · constructor
    · rintro ⟨q, hq⟩
      by_cases hqp : q = p
      · subst hqp
        simp only [Itable.goto, Function.update_self] at hq
        exact absurd (hc j (by rw [hq]; rfl)) hj
      · exact ⟨q, by simpa only [Itable.goto, Function.update_of_ne hqp] using hq⟩
    · rintro ⟨q, hq⟩
      have hqp : q ≠ p := by
        rintro rfl
        exact hj (h j (by rw [hq]; rfl))
      exact ⟨q, by simpa only [Itable.goto, Function.update_of_ne hqp] using hq⟩

theorem Frame.trans {i : Fin NINODE} (h : s.Frame t i) (h' : t.Frame u i) (hk : (t.entry i).key = (s.entry i).key) : s.Frame u i where
  entry j hj := (h'.entry j hj).trans (h.entry j hj)
  stage j hj := (h'.stage j hj).trans (h.stage j hj)
  points j hj := (h'.points j hj).trans (h.points j hj)
  puts j hj := (h'.puts j hj).trans (h.puts j hj)
  waits j hj := (h'.waits j hj).trans (h.waits j hj)
  disk k hne := (h'.disk k (hk ▸ hne)).trans (h.disk k hne)

/-- What an entry without pointers needs does not depend on its inode. -/
theorem EntryInv.unused {e : ItableEntry} {d d' : Dinode} {st : Stage} {points puts : Nat} {waits : Prop} (h0 : e.ref = 0)
    (h : EntryInv e d st points puts waits) : EntryInv e d' st points puts waits :=
  ⟨h.refs, h.uses, fun hr => absurd hr (by omega), h.alone, fun hp => absurd hp (by have := h.refs; omega)⟩

theorem EntryInv.mono {e : ItableEntry} {d : Dinode} {st : Stage} {points puts : Nat} {waits waits' : Prop} (hw : waits' → waits)
    (h : EntryInv e d st points puts waits) : EntryInv e d st points puts waits' :=
  ⟨h.refs, fun hu => h.uses (hu.imp_left hw), h.ok, h.alone, h.live⟩

/-- The invariant after a step that is about entry `i`, which keeps its inode. -/
theorem Inv.frame (h : s.Inv) {i : Fin NINODE} (hf : s.Frame t i) (hkey : (t.entry i).key = (s.entry i).key)
    (hpos : 0 < (t.entry i).ref → 0 < (s.entry i).ref) (hdisk : 0 < (s.entry i).ref ∨ t.disk = s.disk)
    (hi : EntryInv (t.entry i) (t.disk (t.entry i).key) (t.stage i) (t.points i) (t.puts i) (t.Waits i))
    (hcalls : ∀ p, CallOk t.lock p (t.call p)) (htaken : ∀ p dev n, t.call p = .taken dev n → t.Taken p dev n) : t.Inv := by
  have hof : ∀ j, 0 < (t.entry j).ref → 0 < (s.entry j).ref ∧ (t.entry j).key = (s.entry j).key := by
    intro j hj
    by_cases hji : j = i
    · subst hji
      exact ⟨hpos hj, hkey⟩
    · rw [hf.entry j hji] at hj ⊢
      exact ⟨hj, rfl⟩
  refine ⟨fun j l hj hl he => ?_, hcalls, fun j => ?_, htaken⟩
  · rw [(hof j hj).2, (hof l hl).2] at he
    exact h.unique j l (hof j hj).1 (hof l hl).1 he
  · by_cases hji : j = i
    · exact hji ▸ hi
    · have hj := h.entries j
      rw [hf.entry j hji, hf.stage j hji, hf.points j hji, hf.puts j hji]
      refine EntryInv.mono (hf.waits j hji).1 ?_
      by_cases hk : (s.entry j).key = (s.entry i).key
      · by_cases h0 : (s.entry j).ref = 0
        · exact hj.unused h0
        · rcases hdisk with hr | hd
          · exact absurd (h.unique j i (by omega) hr hk) hji
          · rw [hd]
            exact hj
      · rw [hf.disk _ hk]
        exact hj

/-! ### What the next user finds -/

/-- The inode as the entry and the block have it. -/
def Stage.inode (st : Stage) (e : ItableEntry) (d : Dinode) : Dinode :=
  if 0 < e.ref ∧ e.valid = true ∧ st ≠ .freeing .valid then e.ino else d

theorem inode_congr {st st' : Stage} {e e' : ItableEntry} {d : Dinode} (hv : e'.valid = e.valid) (hi : e'.ino = e.ino)
    (hr' : 0 < e'.ref) (hr : 0 < e.ref) (hst : st' = .freeing .valid ↔ st = .freeing .valid) : st'.inode e' d = st.inode e d := by
  simp only [Stage.inode, hv, hi, hr, hr', true_and, ne_eq, hst]

/-- The copy is the inode. -/
theorem inode_copy {st : Stage} {e : ItableEntry} {d : Dinode} (hr : 0 < e.ref) (hv : e.valid = true) (hst : st ≠ .freeing .valid) :
    st.inode e d = e.ino := if_pos ⟨hr, hv, hst⟩

/-- The block has the inode. -/
theorem inode_disk {st : Stage} {e : ItableEntry} {d : Dinode} (h : e.valid = true → st ≠ .freeing .valid → e.ino = d) :
    st.inode e d = d := by
  rw [Stage.inode]
  split
  · rename_i hx
    exact h hx.2.1 hx.2.2
  · rfl

theorem Inv.find_eq (h : s.Inv) {i : Fin NINODE} (hr : 0 < (s.entry i).ref) : s.find (s.entry i).key = some i := by
  cases hf : s.find (s.entry i).key with
  | none => exact absurd rfl (find_none hf i hr)
  | some j =>
    obtain ⟨hj, hk⟩ := find_some hf
    rw [h.unique j i hj hr hk]

theorem Inv.view_entry (h : s.Inv) {i : Fin NINODE} (hr : 0 < (s.entry i).ref) :
    s.view (s.entry i).key = (s.stage i).inode (s.entry i) (s.disk (s.entry i).key) := by
  rw [view, h.find_eq hr]
  simp only [Stage.inode]
  congr 1
  simp [← wiped_iff, hr]

/-- The inodes after a step that is about entry `i`. -/
theorem Inv.view_frame (h : s.Inv) (ht : t.Inv) {i : Fin NINODE} (hf : s.Frame t i) (hr : 0 < (s.entry i).ref)
    (hkey : (t.entry i).key = (s.entry i).key) :
    t.view = update s.view (s.entry i).key ((t.stage i).inode (t.entry i) (t.disk (s.entry i).key)) := by
  funext k
  by_cases hk : k = (s.entry i).key
  · subst hk
    rw [Function.update_self]
    by_cases hr' : 0 < (t.entry i).ref
    · rw [← hkey, ht.view_entry hr']
    · rw [Stage.inode, if_neg fun hx => hr' hx.1]
      refine view_none fun j hj hkj => ?_
      by_cases hji : j = i
      · exact hr' (hji ▸ hj)
      · rw [hf.entry j hji] at hj hkj
        exact hji (h.unique j i hj hr hkj)
  · rw [Function.update_of_ne hk]
    by_cases hex : ∃ j, 0 < (s.entry j).ref ∧ (s.entry j).key = k
    · obtain ⟨j, hj, rfl⟩ := hex
      have hji : j ≠ i := fun hji => hk (congrArg (fun i => (s.entry i).key) hji)
      have hje := hf.entry j hji
      have hview := ht.view_entry (hje ▸ hj)
      rw [hje, hf.stage j hji, hf.disk _ hk] at hview
      rw [hview, h.view_entry hj]
    · rw [view_none fun j hj hkj => hex ⟨j, hj, hkj⟩, view_none, hf.disk k hk]
      intro j hj hkj
      by_cases hji : j = i
      · subst hji
        exact hk (hkey ▸ hkj.symm)
      · rw [hf.entry j hji] at hj hkj
        exact hex ⟨j, hj, hkj⟩

theorem Inv.view_same (h : s.Inv) {i : Fin NINODE} {x : Dinode} (hr : 0 < (s.entry i).ref)
    (hx : x = (s.stage i).inode (s.entry i) (s.disk (s.entry i).key)) : update s.view (s.entry i).key x = s.view :=
  Function.update_eq_self_iff.2 (hx.trans (h.view_entry hr).symm)

/-! ### Marked inodes -/

theorem Taken.frame {p : P} {dev n : UInt32} (h : s.Taken p dev n) {i : Fin NINODE} (hf : s.Frame t i)
    (hcall : ∀ q, t.call q = .taken dev n → s.call q = .taken dev n) (hd : t.disk (dev, n) = s.disk (dev, n))
    (hi : 0 < (t.entry i).ref → (t.entry i).key = (dev, n) → t.points i = 0 ∧ ¬(t.stage i).Early) : t.Taken p dev n := by
  refine ⟨hd ▸ h.type, hd ▸ h.nlink, fun q hq => h.only q (hcall q hq), fun j hj hk => ?_⟩
  by_cases hji : j = i
  · subst hji
    exact hi hj hk
  · rw [hf.entry j hji] at hj hk
    rw [hf.points j hji, hf.stage j hji]
    exact h.gone j hj hk

/-- An inode that is in use, or is not free yet, is not one that `ialloc` has marked. -/
theorem Inv.not_taken (h : s.Inv) {i : Fin NINODE} (hr : 0 < (s.entry i).ref) (hi : 0 < s.points i ∨ (s.stage i).Early) {p : P}
    {dev n : UInt32} (hp : s.call p = .taken dev n) : (s.entry i).key ≠ (dev, n) := by
  intro hk
  obtain ⟨h0, he⟩ := (h.taken p dev n hp).gone i hr hk
  rcases hi with hi | hi
  · omega
  · exact he hi

/-- A step on an inode that is in use or is not free yet. -/
theorem Inv.use (h : s.Inv) {i : Fin NINODE} {e : ItableEntry} {d : Dinode} {st : Stage} {m n : Nat} (hf : s.Frame t i)
    (hu : 0 < s.points i ∨ (s.stage i).Early) (he : t.entry i = e) (hkey : e.key = (s.entry i).key)
    (hd : t.disk (s.entry i).key = d) (hst : t.stage i = st) (hm : t.points i = m) (hn : t.puts i = n)
    (hi : EntryInv e d st m n (t.Waits i)) (hr : 0 < (s.entry i).ref)
    (hcalls : ∀ p, CallOk t.lock p (t.call p)) (hcall : ∀ q dev n, t.call q = .taken dev n → s.call q = .taken dev n) :
    t.Inv ∧ t.view = update s.view (s.entry i).key (st.inode e d) := by
  subst he hd hst hm hn
  suffices ht : t.Inv from ⟨ht, h.view_frame ht hf hr hkey⟩
  refine h.frame hf hkey (fun _ => hr) (.inl hr) (hkey ▸ hi) hcalls fun p dev n hp => ?_
  have hne := h.not_taken hr hu (hcall p dev n hp)
  refine (h.taken p dev n (hcall p dev n hp)).frame hf (fun q => hcall q dev n) (hf.disk _ (Ne.symm hne)) fun _ hk => ?_
  exact absurd (hkey ▸ hk) hne

/-- A step after which the next user finds the inode as it was. -/
theorem Inv.use_same (h : s.Inv) {i : Fin NINODE} {e : ItableEntry} {d : Dinode} {st : Stage} {m n : Nat} (hf : s.Frame t i)
    (hu : 0 < s.points i ∨ (s.stage i).Early) (he : t.entry i = e) (hkey : e.key = (s.entry i).key)
    (hd : t.disk (s.entry i).key = d) (hst : t.stage i = st) (hm : t.points i = m) (hn : t.puts i = n)
    (hi : EntryInv e d st m n (t.Waits i)) (hr : 0 < (s.entry i).ref)
    (hcalls : ∀ p, CallOk t.lock p (t.call p)) (hcall : ∀ q dev n, t.call q = .taken dev n → s.call q = .taken dev n)
    (hx : st.inode e d = (s.stage i).inode (s.entry i) (s.disk (s.entry i).key)) : t.Inv ∧ t.view = s.view := by
  obtain ⟨ht, hview⟩ := h.use hf hu he hkey hd hst hm hn hi hr hcalls hcall
  exact ⟨ht, hview.trans (h.view_same hr hx)⟩

/-- A step that leaves the blocks and the variables alone, on an inode that may be one that `ialloc` has marked. -/
theorem Inv.keep (h : s.Inv) {i : Fin NINODE} {e : ItableEntry} {st : Stage} {n : Nat} (hf : s.Frame t i) (he : t.entry i = e)
    (hkey : e.key = (s.entry i).key) (hd : t.disk = s.disk) (hst : t.stage i = st) (hm : t.points i = s.points i) (hn : t.puts i = n)
    (hi : EntryInv e (s.disk (s.entry i).key) st (s.points i) n (t.Waits i)) (hr : 0 < (s.entry i).ref)
    (hearly : st.Early → (s.stage i).Early) (hcalls : ∀ p, CallOk t.lock p (t.call p))
    (hcall : ∀ q dev n, t.call q = .taken dev n → s.call q = .taken dev n) :
    t.Inv ∧ t.view = update s.view (s.entry i).key (st.inode e (s.disk (s.entry i).key)) := by
  subst he hst hn
  suffices ht : t.Inv from ⟨ht, by rw [h.view_frame ht hf hr hkey, hd]⟩
  refine h.frame hf hkey (fun _ => hr) (.inl hr) (by rwa [hm, hd, hkey]) hcalls fun p dev n hp => ?_
  have ht := h.taken p dev n (hcall p dev n hp)
  refine ht.frame hf (fun q => hcall q dev n) (congrFun hd _) fun _ hk => ?_
  obtain ⟨h0, he⟩ := ht.gone i hr (hkey ▸ hk)
  exact ⟨hm.trans h0, fun ht => he (hearly ht)⟩

/-! ### The calls of a process -/

/-- The lock of `i` passes between nobody and `p`. -/
theorem Inv.calls_lock [DecidableEq P] (h : s.Inv) {i : Fin NINODE} {p : P} {l : Option P} {c : ItableCall}
    (hl : s.lock i = none ∨ s.lock i = some p)
    (hl' : l = none ∨ l = some p) (hc : CallOk (update s.lock i l) p c) (q : P) :
    CallOk (update s.lock i l) q (update s.call p c q) := by
  by_cases hq : q = p
  · subst hq
    rwa [Function.update_self]
  · have hcall := h.calls q
    have hiff : ∀ j, (update s.lock i l j = some q ↔ s.lock j = some q) := by
      intro j
      by_cases hj : j = i
      · subst hj
        rw [Function.update_self]
        rcases hl with hl | hl <;> rcases hl' with hl' | hl' <;> simp [hl, hl', Ne.symm hq]
      · rw [Function.update_of_ne hj]
    rw [Function.update_of_ne hq]
    cases hs : s.call q with
    | fill j =>
      rw [hs] at hcall
      exact (hiff j).2 hcall
    | iput j x =>
      rw [hs] at hcall
      exact (hiff j).trans hcall
    | scan dev type n =>
      rw [hs] at hcall
      exact hcall
    | _ => trivial

theorem Inv.calls_goto [DecidableEq P] (h : s.Inv) {p : P} {c : ItableCall} (hc : CallOk s.lock p c) (q : P) :
    CallOk s.lock q (update s.call p c q) := by
  by_cases hq : q = p
  · subst hq
    rwa [Function.update_self]
  · rw [Function.update_of_ne hq]
    exact h.calls q

theorem Inv.waits_pos [DecidableEq P] (h : s.Inv) {u : Itable P V} {i : Fin NINODE} {p : P} {c : ItableCall} {st : Stage}
    (hu : u.call = s.call) (hc : c ≠ .wait i) (hst : st ≠ .fill ∧ st ≠ .held)
    (hw : (u.goto p c).Waits i ∨ st = .fill ∨ st = .held) : 0 < s.points i := by
  rcases hw with hw | hs | hs
  · obtain ⟨q, hq⟩ := waits_goto hc hw
    exact (h.entries i).uses (.inl ⟨q, hu ▸ hq⟩)
  · exact absurd hs hst.1
  · exact absurd hs hst.2

theorem Inv.stage_fill (h : s.Inv) {p : P} {i : Fin NINODE} (hp : s.call p = .fill i) : s.stage i = .fill := by
  have hl := h.calls p
  rw [hp] at hl
  rw [stage_some hl, hp]
  exact if_pos rfl

theorem Inv.stage_iput (h : s.Inv) {p : P} {i : Fin NINODE} {x : IputAt} (hp : s.call p = .iput i x) (hx : x ≠ .ref) :
    s.lock i = some p ∧ s.stage i = .freeing x := by
  have hl := h.calls p
  rw [hp] at hl
  have hl := hl.2 hx
  refine ⟨hl, ?_⟩
  rw [stage_some hl, hp]
  exact if_pos rfl

theorem Inv.pos_of_var (h : s.Inv) {v : V} {i : Fin NINODE} (hv : s.var v = some i) : 0 < s.points i ∧ 0 < (s.entry i).ref := by
  have hp : 0 < s.points i := points_pos.2 ⟨v, hv⟩
  have := (h.entries i).refs
  exact ⟨hp, by omega⟩

theorem Inv.pos_of_put (h : s.Inv) {p : P} {i : Fin NINODE} {x : IputAt} (hp : s.call p = .iput i x) :
    0 < s.puts i ∧ 0 < (s.entry i).ref := by
  have hle := le_sum (fun c => if ItableCall.put? c = some i then 1 else 0) s.call p
  rw [hp, ItableCall.put?_iput, if_pos rfl] at hle
  have hput : 0 < s.puts i := hle
  have := (h.entries i).refs
  exact ⟨hput, by omega⟩

/-! ### The steps -/

theorem Inv.idup [DecidableEq V] (h : s.Inv) {v w : V} {i : Fin NINODE} (hv : s.var v = some i) (hw : s.var w = none) :
    ((s.setEntry i (s.entry i).inc).setVar w (some i)).Inv ∧ ((s.setEntry i (s.entry i).inc).setVar w (some i)).view = s.view := by
  obtain ⟨hp, hr⟩ := h.pos_of_var hv
  have hi := h.entries i
  have hpts := points_setVar (s := s.setEntry i (s.entry i).inc) (v := w) (x := some i) i
  rw [if_neg (by simp [setEntry, hw]), if_pos rfl] at hpts
  refine h.use_same (e := (s.entry i).inc) ((Frame.setEntry i _).trans (Frame.setVar (.inl hw) (.inr rfl))
    (by simp [setEntry, ItableEntry.key, ItableEntry.inc])) (.inl hp) (Function.update_self ..) rfl rfl rfl hpts rfl
    ⟨?_, fun _ => Nat.succ_pos _, fun _ => hi.ok hr, fun he => ?_, fun _ => hi.live hp⟩ hr h.calls (fun _ _ _ hq => hq) ?_
  · have := hi.refs
    change (s.entry i).ref + 1 = s.points i + 1 + s.puts i
    omega
  · have := hi.alone he
    omega
  · exact inode_congr rfl rfl (Nat.succ_pos _) hr .rfl

theorem Inv.wait [DecidableEq P] (h : s.Inv) {p : P} {v : V} {i : Fin NINODE} (hp : s.call p = .out) (hv : s.var v = some i) :
    (s.goto p (.wait i)).Inv ∧ (s.goto p (.wait i)).view = s.view := by
  obtain ⟨hpos, hr⟩ := h.pos_of_var hv
  have hi := h.entries i
  exact h.use_same (Frame.goto (by simp [hp, ItableCall.about]) (by simp [ItableCall.about])) (.inl hpos) rfl rfl rfl
    (stage_goto (by rw [hp]; rfl)) rfl (puts_goto_eq (by rw [hp]; rfl) i) ⟨hi.refs, fun _ => hpos, hi.ok, hi.alone, hi.live⟩ hr
    (h.calls_goto trivial) (call_goto (by simp)) rfl

theorem Inv.acquiresleep [DecidableEq P] (h : s.Inv) {p : P} {i : Fin NINODE} (hp : s.call p = .wait i) (hl : s.lock i = none) :
    ((s.setLock i (some p)).goto p (.fill i)).Inv ∧ ((s.setLock i (some p)).goto p (.fill i)).view = s.view := by
  have hi := h.entries i
  have hpos : 0 < s.points i := hi.uses (.inl ⟨p, hp⟩)
  have hr : 0 < (s.entry i).ref := by
    have := hi.refs
    omega
  have hok := hi.ok hr
  rw [stage_none hl] at hok
  exact h.use_same ((Frame.setLock i _).trans (Frame.goto (by simp [setLock, hp, ItableCall.about]) (by simp [ItableCall.about])) rfl)
    (.inl hpos) rfl rfl rfl ((stage_goto_some (Function.update_self ..)).trans (if_pos rfl)) rfl
    (puts_goto_eq (by rw [show (s.setLock i (some p)).call p = s.call p from rfl, hp]; rfl) i)
    ⟨hi.refs, fun _ => hpos, fun _ => hok, fun he => False.elim he, hi.live⟩ hr
    (h.calls_lock (.inl hl) (.inr rfl) (Function.update_self ..)) (call_goto (by simp)) (inode_congr rfl rfl hr hr (by simp [stage_none hl]))

/-- The rest of `ilock` does not find a free inode. -/
theorem Inv.fill [DecidableEq P] (h : s.Inv) {p : P} {i : Fin NINODE} (hp : s.call p = .fill i) :
    ∃ t, s.ilockFill p i = .ok t ∧ t.Inv ∧ t.view = s.view := by
  have hi := h.entries i
  have hst := h.stage_fill hp
  have hlock := h.calls p
  rw [hp] at hlock
  have hpos : 0 < s.points i := hi.uses (.inr (.inl hst))
  have hr : 0 < (s.entry i).ref := by
    have := hi.refs
    omega
  have hok := hi.ok hr
  rw [hst] at hok
  have hlive := hi.live hpos
  have hgoto : ∀ u : Itable P V, u.call = s.call → u.Frame (u.goto p .out) i := fun u hu =>
    Frame.goto (by simp [hu, hp, ItableCall.about]) (by simp [ItableCall.about])
  by_cases hv : (s.entry i).valid = true
  · refine ⟨_, if_pos hv, h.use_same (hgoto s rfl) (.inl hpos) rfl rfl rfl (stage_goto_some hlock) rfl (puts_goto_eq (by rw [hp]; rfl) i)
      ⟨hi.refs, fun _ => hpos, fun _ => ⟨hv, congrArg Dinode.type (hok hv).1⟩, fun he => False.elim he, hi.live⟩ hr
      (h.calls_goto trivial) (call_goto (by simp)) (inode_congr rfl rfl hr hr (by simp [hst, Stage.of]))⟩
  · have hread : s.ilockFill p i = .ok (((s.setIno i (s.disk (s.entry i).key)).setValid i true).goto p .out) := by
      rw [ilockFill, if_neg hv]
      exact if_neg hlive
    refine ⟨_, hread, h.use_same (((Frame.setEntry i _).trans (Frame.setEntry i _) (by simp [setEntry, ItableEntry.key])).trans
      (hgoto _ rfl) (by simp [setIno, setEntry, ItableEntry.key])) (.inl hpos)
      (e := { s.entry i with ino := s.disk (s.entry i).key, valid := true }) ?_ rfl rfl (stage_goto_some hlock) rfl
      (puts_goto_eq (by rw [show ((s.setIno i _).setValid i true).call p = s.call p from rfl, hp]; rfl) i)
      ⟨hi.refs, fun _ => hpos, fun _ => ⟨rfl, rfl⟩, fun he => False.elim he, hi.live⟩ hr (h.calls_goto trivial)
      (call_goto (by simp)) ?_⟩
    · simp [setIno, setValid, setEntry, goto]
    · rw [show (s.stage i).inode (s.entry i) _ = _ from inode_disk fun hx => absurd hx hv]
      exact inode_disk fun _ _ => rfl

/-- The process that has locked an inode and is outside these functions. -/
theorem Inv.held (h : s.Inv) {p : P} {v : V} {i : Fin NINODE} (hv : s.var v = some i) (hl : s.lock i = some p) (hp : s.call p = .out) :
    0 < s.points i ∧ 0 < (s.entry i).ref ∧ (s.entry i).valid = true ∧ (s.entry i).ino.type = (s.disk (s.entry i).key).type ∧
      (s.disk (s.entry i).key).type ≠ 0 := by
  obtain ⟨hpos, hr⟩ := h.pos_of_var hv
  have hok := (h.entries i).ok hr
  rw [stage_held hl hp] at hok
  exact ⟨hpos, hr, hok.1, hok.2, (h.entries i).live hpos⟩

theorem Inv.modify (h : s.Inv) {p : P} {v : V} {i : Fin NINODE} {d : Dinode} (hv : s.var v = some i) (hl : s.lock i = some p)
    (hp : s.call p = .out) (hd : d.type = (s.entry i).ino.type) : (s.setIno i d).Inv ∧ (s.setIno i d).view = update s.view (s.entry i).key d := by
  obtain ⟨hpos, hr, hvalid, htype, -⟩ := h.held hv hl hp
  have hi := h.entries i
  obtain ⟨hinv, hview⟩ := h.use (t := s.setIno i d) (Frame.setEntry i _) (.inl hpos) (Function.update_self ..) rfl rfl
    (stage_held (s := s.setIno i d) hl hp) rfl rfl ⟨hi.refs, fun _ => hpos, fun _ => ⟨hvalid, hd.trans htype⟩, fun he => False.elim he,
      hi.live⟩ hr h.calls fun _ _ _ hq => hq
  exact ⟨hinv, hview.trans (congrArg _ (inode_copy hr hvalid Stage.noConfusion))⟩

theorem Inv.flush (h : s.Inv) {p : P} {v : V} {i : Fin NINODE} (hv : s.var v = some i) (hl : s.lock i = some p)
    (hp : s.call p = .out) : (s.flush i).Inv ∧ (s.flush i).view = s.view := by
  obtain ⟨hpos, hr, hvalid, htype, hne⟩ := h.held hv hl hp
  have hi := h.entries i
  refine h.use_same (Frame.setDisk i _) (.inl hpos) rfl rfl (Function.update_self ..) (stage_held (s := s.flush i) hl hp) rfl rfl
    ⟨hi.refs, fun _ => hpos, fun _ => ⟨hvalid, rfl⟩, fun he => False.elim he, fun _ => htype ▸ hne⟩ hr h.calls
      (fun _ _ _ hq => hq) ?_
  rw [stage_held hl hp]
  exact (inode_copy hr hvalid Stage.noConfusion).trans (inode_copy hr hvalid Stage.noConfusion).symm

theorem Inv.iunlock [DecidableEq P] (h : s.Inv) {p : P} {v : V} {i : Fin NINODE} (hv : s.var v = some i) (hl : s.lock i = some p)
    (hp : s.call p = .out) (hd : (s.entry i).ino = s.disk (s.entry i).key) : (s.setLock i none).Inv ∧ (s.setLock i none).view = s.view := by
  obtain ⟨hpos, hr, hvalid, htype, hne⟩ := h.held hv hl hp
  have hi := h.entries i
  have hcalls := h.calls_lock (c := .out) (.inr hl) (.inl rfl) trivial
  rw [show update s.call p .out = s.call from Function.update_eq_self_iff.2 hp.symm] at hcalls
  exact h.use_same (Frame.setLock i _) (.inl hpos) rfl rfl rfl (stage_none (Function.update_self ..)) rfl rfl
    ⟨hi.refs, fun _ => hpos, fun _ _ => ⟨hd, hne⟩, fun he => False.elim he, hi.live⟩ hr hcalls
      (fun _ _ _ hq => hq) (inode_congr rfl rfl hr hr (by simp [stage_held hl hp]))

/-- A variable may be given to `iput`. -/
theorem Inv.iput [DecidableEq P] [DecidableEq V] (h : s.Inv) {p : P} {v : V} {i : Fin NINODE} (hp : s.call p = .out) (hv : s.var v = some i)
    (hk : (∃ q, s.Uses q i) → ∃ w, w ≠ v ∧ s.var w = some i) : ∃ t, s.iput p v i = .ok t ∧ t.Inv ∧ t.view = s.view := by
  obtain ⟨hpos, hr⟩ := h.pos_of_var hv
  have hi := h.entries i
  have hrefs := hi.refs
  have huse : (∃ q, s.Uses q i) → 1 < s.points i := by
    intro hq
    obtain ⟨w, hwv, hw⟩ := hk hq
    exact points_two hwv hv hw
  have hdrop : ∀ u : Itable P V, u.var = s.var → (u.setVar v none).points i + 1 = s.points i := by
    intro u hu
    have hset := points_setVar (s := u) (v := v) (x := none) i
    rw [hu, if_pos hv, if_neg (Option.some_ne_none i ∘ Eq.symm), show u.points i = s.points i by simp only [points, hu]] at hset
    omega
  by_cases hfree : (s.entry i).ref = 1 ∧ (s.entry i).valid = true ∧ (s.entry i).ino.nlink = 0
  · obtain ⟨h1, hvalid, hnlink⟩ := hfree
    -- nobody else has a pointer, so nobody has the lock
    have hunlocked : s.stage i = .unlocked ∧ s.lock i = none := by
      rcases stage_cases s i with hs | ⟨-, hs⟩ | ⟨q, x, -, -, hs⟩
      · exact hs
      · have := huse hs
        omega
      · have := (h.pos_of_put hs).1
        omega
    have hone : s.points i = 1 ∧ s.puts i = 0 := by omega
    have hok := hi.ok hr
    rw [hunlocked.1] at hok
    obtain ⟨hino, htype⟩ := hok hvalid
    have hlock : update s.lock i (some p) i = some p := Function.update_self ..
    refine ⟨_, (if_pos ⟨h1, hvalid, hnlink⟩).trans (if_pos hunlocked.2), h.use_same (((Frame.setLock i (some p)).trans
      (Frame.setVar (v := v) (x := none) (.inr hv) (.inl rfl)) rfl).trans
      (Frame.goto (p := p) (c := .iput i .itrunc) (by simp [setLock, setVar, hp, ItableCall.about]) (by simp [ItableCall.about])) rfl)
      (.inl hpos) (n := 1) rfl rfl rfl ((stage_goto_some hlock).trans (if_pos rfl))
      (Nat.eq_sub_of_add_eq (hdrop (s.setLock i (some p)) rfl)) ?_
      ⟨?_, ?_, fun _ => ⟨hvalid, hino, htype, hino ▸ hnlink⟩, fun _ => Nat.sub_eq_zero_of_le (Nat.le_of_eq hone.1), fun _ => htype⟩ hr
      (h.calls_lock (.inl hunlocked.2) (.inr rfl) ⟨fun _ => IputAt.noConfusion, fun _ => hlock⟩) (call_goto (by simp))
      (inode_congr rfl rfl hr hr (by simp [hunlocked.1]))⟩
    · have hputs := puts_goto (s := (s.setLock i (some p)).setVar v none) (p := p) (c := .iput i .itrunc) i
      rw [if_neg (by simp [setLock, setVar, hp, ItableCall.put?]), ItableCall.put?_iput, if_pos rfl] at hputs
      exact hputs.trans (congrArg (· + 1) hone.2)
    · change (s.entry i).ref = s.points i - 1 + 1
      omega
    · rintro (⟨q, hq⟩ | hs | hs)
      · have hqp : q ≠ p := by
          rintro rfl
          simp [goto] at hq
        have := huse ⟨q, .inl (by simpa only [goto, setVar, setLock, Function.update_of_ne hqp] using hq)⟩
        omega
      · cases hs
      · cases hs
  · refine ⟨_, if_neg hfree, h.use_same ((Frame.setEntry i _).trans (Frame.setVar (v := v) (x := none) (.inr hv) (.inl rfl))
      (by simp [setEntry, ItableEntry.key])) (.inl hpos) (Function.update_self ..) rfl rfl rfl (Nat.eq_sub_of_add_eq (hdrop (s.dec i) rfl)) rfl
      ⟨?_, fun hu => ?_, fun _ => hi.ok hr, fun he => ?_, fun _ => hi.live hpos⟩ hr h.calls
      (fun _ _ _ hq => hq) ?_⟩
    · change (s.entry i).ref - 1 = s.points i - 1 + s.puts i
      omega
    · have : ∃ q, s.Uses q i := by
        rcases hu with ⟨q, hq⟩ | hs
        · exact ⟨q, .inl hq⟩
        · rcases stage_cases s i with ⟨h0, -⟩ | ⟨-, hq⟩ | ⟨q, x, h0, -, -⟩
          · change s.stage i = _ ∨ s.stage i = _ at hs
            rw [h0] at hs
            rcases hs with hs | hs <;> cases hs
          · exact hq
          · change s.stage i = _ ∨ s.stage i = _ at hs
            rw [h0] at hs
            rcases hs with hs | hs <;> cases hs
      have := huse this
      omega
    · have := hi.alone he
      omega
    · change (s.stage i).inode { s.entry i with ref := (s.entry i).ref - 1 } _ = _
      by_cases hr' : 0 < (s.entry i).ref - 1
      · exact inode_congr rfl rfl hr' hr .rfl
      · -- nobody has the lock, so the copy is the inode in the block
        have hunlocked : s.stage i = .unlocked := by
          rcases stage_cases s i with hs | ⟨-, hs⟩ | ⟨q, x, -, -, hs⟩
          · exact hs.1
          · have := huse hs
            omega
          · have := (h.pos_of_put hs).1
            omega
        have hok := hi.ok hr
        rw [hunlocked] at hok ⊢
        rw [inode_disk fun hv _ => (hok hv).1]
        exact if_neg fun hx => hr' hx.1

/-- A step of `iput` before the inode is free in its block. -/
theorem Inv.free_early [DecidableEq P] (h : s.Inv) {p : P} {i : Fin NINODE} {x y : IputAt} (hp : s.call p = .iput i x)
    (hx : (Stage.freeing x).Early)
    (hy : y ≠ .ref) {e : ItableEntry} {d : Dinode} (hu : s.Frame u i) (hlock : u.lock = s.lock) (hcall : u.call = s.call)
    (hvar : u.var = s.var) (he : u.entry i = e) (hkey : e.key = (s.entry i).key) (href : e.ref = (s.entry i).ref)
    (hd : u.disk (s.entry i).key = d) (hok : EntryOk e d (.freeing y)) :
    (u.goto p (.iput i y)).Inv ∧ (u.goto p (.iput i y)).view = update s.view (s.entry i).key ((Stage.freeing y).inode e d) := by
  obtain ⟨-, hr⟩ := h.pos_of_put hp
  obtain ⟨hl, hst⟩ := h.stage_iput hp (x := x) (by rintro rfl; exact hx)
  have hi := h.entries i
  rw [← hst] at hx
  have h0 := hi.alone hx
  have hcall' : u.call p = .iput i x := (congrFun hcall p).trans hp
  refine h.use (hu.trans (Frame.goto (by simp [hcall', ItableCall.about, eq_comm]) (by simp [ItableCall.about, eq_comm])) (by rw [he, hkey]))
    (.inr hx) he hkey hd ((stage_goto_some ((congrFun hlock i).trans hl)).trans (if_pos rfl)) (m := s.points i)
    (by simp only [points, goto, hvar]) (n := s.puts i) ?_
    ⟨href.trans hi.refs, h.waits_pos hcall ItableCall.noConfusion (by simp), fun _ => hok, fun _ => h0, fun hpos => by omega⟩ hr ?_ ?_
  · rw [puts_goto_eq (by rw [hcall']; rfl) i]
    simp only [puts, hcall]
  · simp only [goto, hlock, hcall]
    exact h.calls_goto ⟨fun _ => hy, fun _ => hl⟩
  · simp only [goto, hcall]
    exact call_goto (by simp)

theorem Inv.free [DecidableEq P] (h : s.Inv) {p : P} {i : Fin NINODE} {x : IputAt} (hp : s.call p = .iput i x) : (s.free p i x).Inv ∧
    (s.free p i x).view = match x with
      | .itrunc => update s.view (s.entry i).key (s.entry i).ino.emptied
      | .type => update s.view (s.entry i).key { (s.entry i).ino with type := 0 }
      | _ => s.view := by
  obtain ⟨hput, hr⟩ := h.pos_of_put hp
  have hi := h.entries i
  have hok := hi.ok hr
  have hstage := h.stage_iput hp
  cases x with
  | itrunc =>
    rw [(hstage (by simp)).2] at hok
    obtain ⟨hv, hino, ht, hn⟩ := hok
    obtain ⟨hinv, hview⟩ := h.free_early (u := s.setIno i (s.entry i).ino.emptied) hp trivial (y := .update) (by simp) (Frame.setEntry i _)
      rfl rfl rfl (Function.update_self ..) rfl rfl rfl
      ⟨hv, show (s.entry i).ino.type = _ from congrArg Dinode.type hino, show (s.entry i).ino.nlink = 0 from hino ▸ hn, ht, hn⟩
    exact ⟨hinv, hview.trans (congrArg _ (inode_copy hr hv (by simp)))⟩
  | update =>
    rw [(hstage (by simp)).2] at hok
    obtain ⟨hv, htype, hn, ht, -⟩ := hok
    obtain ⟨hinv, hview⟩ := h.free_early (u := s.flush i) hp trivial (y := .type) (by simp) (Frame.setDisk i _) rfl rfl rfl rfl rfl rfl
      (Function.update_self ..) ⟨hv, rfl, htype ▸ ht, hn⟩
    refine ⟨hinv, hview.trans (h.view_same hr ?_)⟩
    rw [(hstage (by simp)).2]
    exact (inode_copy hr hv (by simp)).trans (inode_copy hr hv (by simp)).symm
  | type =>
    rw [(hstage (by simp)).2] at hok
    obtain ⟨hv, hino, ht, hn⟩ := hok
    obtain ⟨hinv, hview⟩ := h.free_early (u := s.setIno i { (s.entry i).ino with type := 0 }) hp trivial (y := .iupdate) (by simp)
      (Frame.setEntry i _) rfl rfl rfl (Function.update_self ..) rfl rfl rfl ⟨hv, rfl, hino ▸ hn, ht, hn⟩
    exact ⟨hinv, hview.trans (congrArg _ (inode_copy hr hv (by simp)))⟩
  | iupdate =>
    rw [(hstage (by simp)).2] at hok
    obtain ⟨hinv, hview⟩ := h.free_early (u := s.flush i) hp trivial (y := .valid) (by simp) (Frame.setDisk i _) rfl rfl rfl rfl rfl rfl
      (Function.update_self ..) hok.1
    refine ⟨hinv, hview.trans (h.view_same hr ?_)⟩
    rw [(hstage (by simp)).2]
    exact (inode_disk fun _ hx => absurd rfl hx).trans (inode_copy hr hok.1 (by simp)).symm
  | valid =>
    obtain ⟨hl, hst⟩ := hstage (by simp)
    obtain ⟨hinv, hview⟩ := h.keep (t := (s.setValid i false).goto p (.iput i .releasesleep)) ((Frame.setEntry i _).trans
      (Frame.goto (by simp [setEntry, hp, ItableCall.about, eq_comm]) (by simp [ItableCall.about, eq_comm]))
      (by simp [setEntry, ItableEntry.key])) (Function.update_self ..) rfl rfl ((stage_goto_some hl).trans (if_pos rfl)) rfl
      (puts_goto_eq (by rw [show (s.setValid i false).call p = s.call p from rfl, hp]; rfl) i)
      ⟨hi.refs, h.waits_pos rfl ItableCall.noConfusion (by simp), fun _ => rfl, fun he => False.elim he, hi.live⟩ hr (fun he => False.elim he)
      (h.calls_goto ⟨fun _ => IputAt.noConfusion, fun _ => hl⟩) (call_goto (by simp))
    refine ⟨hinv, hview.trans (h.view_same hr ?_)⟩
    rw [inode_disk fun hx => Bool.noConfusion hx, hst, inode_disk fun _ hx => absurd rfl hx]
  | releasesleep =>
    obtain ⟨hl, hst⟩ := hstage (by simp)
    rw [hst] at hok
    have hunlock : update s.lock i none i = none := Function.update_self ..
    obtain ⟨hinv, hview⟩ := h.keep (t := (s.setLock i none).goto p (.iput i .ref)) ((Frame.setLock i none).trans
      (Frame.goto (by simp [setLock, hp, ItableCall.about, eq_comm]) (by simp [ItableCall.about, eq_comm])) rfl) rfl rfl rfl
      (stage_none hunlock) rfl (puts_goto_eq (by rw [show (s.setLock i none).call p = s.call p from rfl, hp]; rfl) i)
      ⟨hi.refs, h.waits_pos rfl ItableCall.noConfusion (by simp), fun _ hv => absurd hv (Bool.eq_false_iff.1 hok),
        fun he => False.elim he, hi.live⟩
      hr (fun he => False.elim he)
      (h.calls_lock (.inr hl) (.inl rfl) ⟨fun hs => absurd (hunlock.symm.trans hs) (by simp), fun hs => absurd rfl hs⟩)
      (call_goto (by simp))
    refine ⟨hinv, hview.trans (h.view_same hr ?_)⟩
    exact (inode_disk fun hx => absurd hx (Bool.eq_false_iff.1 hok)).trans
      (inode_disk fun hx => absurd hx (Bool.eq_false_iff.1 hok)).symm
  | ref =>
    have hl : s.lock i ≠ some p := by
      have hcall := h.calls p
      rw [hp] at hcall
      exact fun hl => hcall.1 hl rfl
    have hst : ((s.dec i).goto p .out).stage i = s.stage i := by
      simp only [stage, goto, dec, setEntry]
      cases hq : s.lock i with
      | none => rfl
      | some q => simp only [Function.update_of_ne (show q ≠ p from fun hqp => hl (hqp ▸ hq))]
    have hputs := puts_goto (s := s.dec i) (p := p) (c := .out) i
    rw [show (s.dec i).call p = s.call p from rfl, hp, ItableCall.put?_iput, if_pos rfl, if_neg (by simp [ItableCall.put?])] at hputs
    have hrefs : (s.entry i).ref - 1 = s.points i + (s.puts i + 0 - 1) := by
      have := hi.refs
      omega
    obtain ⟨hinv, hview⟩ := h.keep (t := (s.dec i).goto p .out) ((Frame.setEntry i _).trans
      (Frame.goto (by simp [setEntry, hp, ItableCall.about, eq_comm]) (by simp [ItableCall.about])) (by simp [setEntry, ItableEntry.key]))
      (Function.update_self ..) rfl rfl hst rfl (Nat.eq_sub_of_add_eq hputs)
      ⟨hrefs, fun hu => hi.uses (hu.imp_left (waits_goto ItableCall.noConfusion)), fun _ => hok, hi.alone, hi.live⟩ hr id
      (h.calls_goto trivial) (call_goto (by simp))
    refine ⟨hinv, hview.trans (h.view_same hr ?_)⟩
    by_cases hr' : 0 < (s.entry i).ref - 1
    · exact inode_congr rfl rfl hr' hr .rfl
    · -- this was the last pointer, so nobody has the lock
      have hunlocked : s.stage i = .unlocked := by
        have ht := (hinv.entries i).refs
        rw [show (((s.dec i).goto p .out).entry i).ref = (s.entry i).ref - 1 by simp [dec, goto, setEntry]] at ht
        rcases stage_cases ((s.dec i).goto p .out) i with hs | ⟨hs, -⟩ | ⟨q, x, -, -, hs⟩
        · exact hst.symm.trans hs.1
        · have := (hinv.entries i).uses (.inr hs)
          omega
        · have := (hinv.pos_of_put hs).1
          omega
      rw [hunlocked] at hok ⊢
      rw [inode_disk fun hv _ => (hok hv).1]
      exact if_neg fun hx => hr' hx.1

theorem put?_none {c : ItableCall} (h : c.about = none) : c.put? = none := by
  cases c with
  | iput i x => cases h
  | _ => rfl

/-- A process goes on in `ialloc`, or out of it. -/
theorem Inv.move [DecidableEq P] (h : s.Inv) {p : P} {c : ItableCall} (hp : (s.call p).about = none) (hc : c.about = none)
    (hcall : CallOk s.lock p c) (htaken : ∀ dev n, c ≠ .taken dev n) : (s.goto p c).Inv ∧ (s.goto p c).view = s.view := by
  have hstage : ∀ i, (s.goto p c).stage i = s.stage i := fun i =>
    stage_goto ((Stage.of_none i hc).trans (Stage.of_none i hp).symm)
  refine ⟨⟨h.unique, h.calls_goto hcall, fun i => ?_, fun q dev n hq => ?_⟩, view_congr rfl rfl hstage⟩
  · rw [hstage, puts_goto_eq ((put?_none hc).trans (put?_none hp).symm)]
    exact (h.entries i).mono (waits_goto fun he => by rw [he] at hc; cases hc)
  · have ht := h.taken q dev n (call_goto htaken q dev n hq)
    refine ⟨ht.type, ht.nlink, fun r hr => ht.only r (call_goto htaken r dev n hr), fun i hr hk => ?_⟩
    rw [hstage]
    exact ht.gone i hr hk

/-- An inode that is free in its block: only an `iput` that has freed it points to it. -/
theorem EntryInv.free {e : ItableEntry} {d : Dinode} {st : Stage} {points puts : Nat} {waits : Prop} (h0 : d.type = 0) (hr : 0 < e.ref)
    (h : EntryInv e d st points puts waits) (d' : Dinode) :
    EntryInv e d' st points puts waits ∧ points = 0 ∧ ¬st.Early ∧ st.inode e d' = d' := by
  have hpts : ¬0 < points := fun hpos => h.live hpos h0
  have hok := h.ok hr
  have hrest : EntryOk e d' st ∧ ¬st.Early ∧ (e.valid = true → st ≠ .freeing .valid → e.ino = d') := by
    cases st with
    | unlocked => exact ⟨fun hv => absurd h0 (hok hv).2, id, fun hv => absurd h0 (hok hv).2⟩
    | fill => exact absurd (h.uses (.inr (.inl rfl))) hpts
    | held => exact absurd (h.uses (.inr (.inr rfl))) hpts
    | freeing x =>
      cases x with
      | itrunc | type => exact absurd h0 hok.2.2.1
      | update | iupdate => exact absurd h0 hok.2.2.2.1
      | valid => exact ⟨hok, id, fun _ hx => absurd rfl hx⟩
      | releasesleep => exact ⟨hok, id, fun hv => absurd hv (Bool.eq_false_iff.1 hok)⟩
      | ref => exact hok.elim
  exact ⟨⟨h.refs, h.uses, fun _ => hrest.1, fun he => absurd he hrest.2.1, fun hpos => absurd hpos hpts⟩, by omega, hrest.2.1,
    inode_disk hrest.2.2⟩

/-- `ialloc` marks a free inode. -/
theorem Inv.mark [DecidableEq P] (h : s.Inv) {p : P} {dev : UInt32} {type : UInt16} {m : Nat} {n : UInt32} (hp : s.call p = .scan dev type m)
    (h0 : (s.disk (dev, n)).type = 0) : ((s.setDisk (dev, n) (.fresh type)).goto p (.taken dev n)).Inv ∧
      ((s.setDisk (dev, n) (.fresh type)).goto p (.taken dev n)).view = update s.view (dev, n) (.fresh type) ∧
      (s.view (dev, n)).type = 0 := by
  have htype : type ≠ 0 := by
    have hcall := h.calls p
    rwa [hp] at hcall
  have hstage : ∀ i, ((s.setDisk (dev, n) (.fresh type)).goto p (.taken dev n)).stage i = s.stage i := fun i =>
    stage_goto ((Stage.of_none i rfl).trans
      (Stage.of_none i (by rw [show (s.setDisk (dev, n) (.fresh type)).call p = s.call p from rfl, hp]; rfl)).symm)
  have hfree : ∀ i, 0 < (s.entry i).ref → (s.entry i).key = (dev, n) → ∀ d, EntryInv (s.entry i) d (s.stage i) (s.points i) (s.puts i)
      (s.Waits i) ∧ s.points i = 0 ∧ ¬(s.stage i).Early ∧ (s.stage i).inode (s.entry i) d = d := by
    intro i hr hk d
    have hi := h.entries i
    rw [hk] at hi
    exact hi.free h0 hr d
  suffices ht : ((s.setDisk (dev, n) (.fresh type)).goto p (.taken dev n)).Inv by
    refine ⟨ht, ?_, ?_⟩
    · funext k
      by_cases hk : k = (dev, n)
      · subst hk
        rw [Function.update_self]
        by_cases hex : ∃ i, 0 < (s.entry i).ref ∧ (s.entry i).key = (dev, n)
        · obtain ⟨i, hr, hk⟩ := hex
          have hview := ht.view_entry (i := i) hr
          rw [show (((s.setDisk (dev, n) (.fresh type)).goto p (.taken dev n)).entry i).key = (dev, n) from hk, hstage] at hview
          exact hview.trans (((hfree i hr hk _).2.2.2).trans (Function.update_self ..))
        · exact (view_none (s := (s.setDisk (dev, n) (.fresh type)).goto p (.taken dev n)) fun i hr hk => hex ⟨i, hr, hk⟩).trans
            (Function.update_self ..)
      · rw [Function.update_of_ne hk]
        have hdisk : update s.disk (dev, n) (.fresh type) k = s.disk k := Function.update_of_ne hk _ _
        by_cases hex : ∃ i, 0 < (s.entry i).ref ∧ (s.entry i).key = k
        · obtain ⟨i, hr, rfl⟩ := hex
          have hview := ht.view_entry (i := i) hr
          rw [hstage] at hview
          exact hview.trans ((congrArg _ hdisk).trans (h.view_entry hr).symm)
        · have hno : ∀ i, 0 < (s.entry i).ref → (s.entry i).key ≠ k := fun i hr hk => hex ⟨i, hr, hk⟩
          exact (view_none (s := (s.setDisk (dev, n) (.fresh type)).goto p (.taken dev n)) hno).trans (hdisk.trans (view_none hno).symm)
    · by_cases hex : ∃ i, 0 < (s.entry i).ref ∧ (s.entry i).key = (dev, n)
      · obtain ⟨i, hr, hk⟩ := hex
        rw [← hk, h.view_entry hr, hk, (hfree i hr hk _).2.2.2]
        exact h0
      · rw [view_none fun i hr hk => hex ⟨i, hr, hk⟩]
        exact h0
  refine ⟨h.unique, h.calls_goto trivial, fun i => ?_, fun q dev' n' hq => ?_⟩
  · rw [hstage, puts_goto_eq (by rw [show (s.setDisk (dev, n) (.fresh type)).call p = s.call p from rfl, hp]; rfl)]
    refine EntryInv.mono (waits_goto ItableCall.noConfusion) ?_
    by_cases hk : (s.entry i).key = (dev, n)
    · by_cases hr : 0 < (s.entry i).ref
      · exact (hfree i hr hk _).1
      · exact (h.entries i).unused (Nat.eq_zero_of_not_pos hr)
    · simp only [goto, setDisk, Function.update_of_ne hk]
      exact h.entries i
  · by_cases hqp : q = p
    · subst hqp
      simp only [goto, Function.update_self, ItableCall.taken.injEq] at hq
      obtain ⟨rfl, rfl⟩ := hq
      refine ⟨?_, ?_, fun r hr => ?_, fun i hr hk => ?_⟩
      · simpa [goto, setDisk, Dinode.fresh] using htype
      · simp [goto, setDisk, Dinode.fresh]
      · by_contra hrq
        simp only [goto, setDisk, Function.update_of_ne hrq] at hr
        exact (h.taken r dev n hr).type h0
      · rw [hstage]
        exact ⟨(hfree i hr hk (.fresh type)).2.1, (hfree i hr hk (.fresh type)).2.2.1⟩
    · have hq : s.call q = .taken dev' n' := by simpa only [goto, setDisk, Function.update_of_ne hqp] using hq
      have ht := h.taken q dev' n' hq
      have hne : (dev', n') ≠ (dev, n) := fun he => ht.type (he ▸ h0)
      refine ⟨?_, ?_, fun r hr => ?_, fun i hr hk => ?_⟩
      · simpa only [goto, setDisk, Function.update_of_ne hne] using ht.type
      · simpa only [goto, setDisk, Function.update_of_ne hne] using ht.nlink
      · by_cases hrp : r = p
        · subst hrp
          simp only [goto, Function.update_self, ItableCall.taken.injEq] at hr
          exact absurd (Prod.ext hr.1.symm hr.2.symm) hne
        · exact ht.only r (by simpa only [goto, setDisk, Function.update_of_ne hrp] using hr)
      · rw [hstage]
        exact ht.gone i hr hk

/-! ### Looking up an inode -/

/-- `iget` of an inode that is not free, nor about to be freed, and that no process has marked. -/
theorem Inv.iget [DecidableEq V] (h : s.Inv) {v : V} {k : UInt32 × UInt32} (hv : s.var v = none) (htype : (s.disk k).type ≠ 0)
    (hnone : ∀ q, s.call q ≠ .taken k.1 k.2) (hearly : ∀ i, 0 < (s.entry i).ref → (s.entry i).key = k → ¬(s.stage i).Early)
    (ht : s.iget v k = .ok t) : t.Inv ∧ t.view = s.view := by
  have hpts : ∀ (u : Itable P V) (i : Fin NINODE), u.var = s.var → (u.setVar v (some i)).points i = s.points i + 1 := by
    intro u i hu
    have hset := points_setVar (s := u) (v := v) (x := some i) i
    rw [hu, if_neg (by simp [hv]), if_pos rfl, show u.points i = s.points i by simp only [points, hu]] at hset
    exact hset
  rcases get_cases (s := s) (k := k) rfl with ⟨i, hr, hk, hget⟩ | ⟨hfind, ⟨i, h0, hget⟩ | ⟨-, hget⟩⟩
  · simp only [Itable.iget, hget, Except.map, Except.ok.injEq] at ht
    subst ht
    have hi := h.entries i
    have he : ((s.setEntry i (s.entry i).inc).setVar v (some i)).entry i = (s.entry i).inc := Function.update_self ..
    have hkey : (((s.setEntry i (s.entry i).inc).setVar v (some i)).entry i).key =
        (s.entry i).key := (congrArg ItableEntry.key he).trans rfl
    have hf := (Frame.setEntry (s := s) i (s.entry i).inc).trans (Frame.setVar (.inl hv) (.inr rfl)) hkey
    suffices ht : ((s.setEntry i (s.entry i).inc).setVar v (some i)).Inv by
      refine ⟨ht, (h.view_frame ht hf hr hkey).trans (h.view_same hr ?_)⟩
      rw [he]
      exact inode_congr rfl rfl (Nat.succ_pos _) hr .rfl
    refine h.frame hf hkey (fun _ => hr) (.inl hr) ?_ h.calls fun p dev n hp => ?_
    · rw [hkey, hpts (s.setEntry i (s.entry i).inc) i rfl, he]
      refine ⟨?_, fun _ => Nat.succ_pos _, fun _ => hi.ok hr, fun he => absurd he (hearly i hr hk), fun _ => hk ▸ htype⟩
      have := hi.refs
      change (s.entry i).ref + 1 = s.points i + 1 + s.puts i
      omega
    · refine (h.taken p dev n hp).frame hf (fun _ hq => hq) rfl fun _ hki => ?_
      rw [hkey, hk] at hki
      subst hki
      exact absurd hp (hnone p)
  · simp only [Itable.iget, hget, Except.map, Except.ok.injEq] at ht
    subst ht
    have hi := h.entries i
    have hrefs := hi.refs
    have hunlocked : s.stage i = .unlocked := by
      rcases stage_cases s i with hs | ⟨hs, -⟩ | ⟨q, x, -, -, hs⟩
      · exact hs.1
      · have := hi.uses (.inr hs)
        omega
      · have := (h.pos_of_put hs).2
        omega
    have hother : ∀ j, j ≠ i → ((s.setEntry i ((s.entry i).recycle k)).setVar v (some i)).entry j = s.entry j := fun j hj =>
      Function.update_of_ne hj _ _
    have hself : ((s.setEntry i ((s.entry i).recycle k)).setVar v (some i)).entry i = (s.entry i).recycle k := Function.update_self ..
    have hpoints : ∀ j, j ≠ i → ((s.setEntry i ((s.entry i).recycle k)).setVar v (some i)).points j = s.points j :=
      (Frame.setVar (s := s.setEntry i ((s.entry i).recycle k)) (.inl hv) (.inr rfl)).points
    suffices ht : ((s.setEntry i ((s.entry i).recycle k)).setVar v (some i)).Inv by
      refine ⟨ht, ?_⟩
      funext k'
      by_cases hex : ∃ j, 0 < (s.entry j).ref ∧ (s.entry j).key = k'
      · obtain ⟨j, hj, rfl⟩ := hex
        have hji : j ≠ i := by
          rintro rfl
          omega
        have hview := ht.view_entry (i := j) (by rwa [hother j hji])
        rw [hother j hji] at hview
        exact hview.trans (h.view_entry hj).symm
      · have hno : ∀ j, 0 < (s.entry j).ref → (s.entry j).key ≠ k' := fun j hj hk => hex ⟨j, hj, hk⟩
        rw [view_none hno]
        by_cases hk : k = k'
        · subst hk
          have hview := ht.view_entry (i := i) (by rw [hself]; exact Nat.one_pos)
          rw [hself] at hview
          exact hview.trans (inode_disk fun hv => Bool.noConfusion hv)
        · refine view_none (s := (s.setEntry i ((s.entry i).recycle k)).setVar v (some i)) fun j hj hkj => ?_
          by_cases hji : j = i
          · rw [hji, hself] at hkj
            exact hk hkj
          · rw [hother j hji] at hj hkj
            exact hno j hj hkj
    refine ⟨fun j l hj hl he => ?_, h.calls, fun j => ?_, fun p dev n hp => ?_⟩
    · by_cases hji : j = i
      · by_cases hli : l = i
        · rw [hji, hli]
        · rw [hji, hself, hother l hli] at he
          rw [hother l hli] at hl
          exact absurd he.symm (hfind l hl)
      · rw [hother j hji] at he hj
        by_cases hli : l = i
        · rw [hli, hself] at he
          exact absurd he (hfind j hj)
        · rw [hother l hli] at he hl
          exact h.unique j l hj hl he
    · by_cases hji : j = i
      · subst hji
        rw [hself, hpts (s.setEntry j ((s.entry j).recycle k)) j rfl]
        refine ⟨?_, fun _ => Nat.succ_pos _, fun _ => ?_, fun he => ?_, fun _ => htype⟩
        · change 1 = s.points j + 1 + s.puts j
          omega
        · change EntryOk _ _ (s.stage j)
          rw [hunlocked]
          exact fun hvalid => absurd hvalid Bool.false_ne_true
        · change (s.stage j).Early at he
          rw [hunlocked] at he
          exact he.elim
      · rw [hother j hji, hpoints j hji]
        exact h.entries j
    · have ht := h.taken p dev n hp
      refine ⟨ht.type, ht.nlink, ht.only, fun j hj hk => ?_⟩
      by_cases hji : j = i
      · rw [hji, hself] at hk
        have hk : k = (dev, n) := hk
        subst hk
        exact absurd hp (hnone p)
      · rw [hother j hji] at hj hk
        rw [hpoints j hji]
        exact ht.gone j hj hk
  · simp [Itable.iget, hget, Except.map] at ht

/-- An inode that has a name, or is in use, is neither free nor about to be, and `ialloc` has not just marked it. -/
theorem Inv.named (h : s.Inv) {k : UInt32 × UInt32}
    (hk : (s.view k).type ≠ 0 ∧ (s.view k).nlink ≠ 0 ∨ ∃ i, (∃ w, s.var w = some i) ∧ (s.entry i).key = k) :
    (s.disk k).type ≠ 0 ∧ (∀ q, s.call q ≠ .taken k.1 k.2) ∧ ∀ i, 0 < (s.entry i).ref → (s.entry i).key = k → ¬(s.stage i).Early := by
  rcases hk with ⟨htype, hnlink⟩ | ⟨i, ⟨w, hw⟩, rfl⟩
  · by_cases hex : ∃ i, 0 < (s.entry i).ref ∧ (s.entry i).key = k
    · obtain ⟨i, hr, rfl⟩ := hex
      have hi := h.entries i
      have hok := hi.ok hr
      rw [h.view_entry hr] at htype hnlink
      have hgone : ∀ q, s.call q = .taken (s.entry i).key.1 (s.entry i).key.2 →
          s.points i = 0 ∧ (s.disk (s.entry i).key).nlink = 0 := fun q hq =>
        ⟨((h.taken q _ _ hq).gone i hr rfl).1, (h.taken q _ _ hq).nlink⟩
      have hmain : (s.disk (s.entry i).key).type ≠ 0 ∧ (0 < s.points i ∨ (s.disk (s.entry i).key).nlink ≠ 0) ∧ ¬(s.stage i).Early := by
        cases hst : s.stage i with
        | unlocked | fill =>
          rw [hst] at htype hnlink hok
          by_cases hv : (s.entry i).valid = true
          · rw [inode_copy hr hv Stage.noConfusion, (hok hv).1] at htype hnlink
            exact ⟨htype, .inr hnlink, id⟩
          · rw [inode_disk fun hx => absurd hx hv] at htype hnlink
            exact ⟨htype, .inr hnlink, id⟩
        | held =>
          have hpos := hi.uses (.inr (.inr hst))
          exact ⟨hi.live hpos, .inl hpos, id⟩
        | freeing x =>
          rw [hst] at htype hnlink hok
          cases x with
          | itrunc | type =>
            rw [inode_copy hr hok.1 (by simp), hok.2.1] at hnlink
            exact absurd hok.2.2.2 hnlink
          | update | iupdate =>
            rw [inode_copy hr hok.1 (by simp)] at hnlink
            exact absurd hok.2.2.1 hnlink
          | valid =>
            rw [inode_disk fun _ hx => absurd rfl hx] at htype hnlink
            exact ⟨htype, .inr hnlink, id⟩
          | releasesleep =>
            rw [inode_disk fun hx => absurd hx (Bool.eq_false_iff.1 hok)] at htype hnlink
            exact ⟨htype, .inr hnlink, id⟩
          | ref => exact hok.elim
      refine ⟨hmain.1, fun q hq => ?_, fun j hj hkj => ?_⟩
      · obtain ⟨h0, hn⟩ := hgone q hq
        rcases hmain.2.1 with hpos | hne
        · omega
        · exact hne hn
      · rw [h.unique j i hj hr hkj]
        exact hmain.2.2
    · have hno : ∀ i, 0 < (s.entry i).ref → (s.entry i).key ≠ k := fun i hr hk => hex ⟨i, hr, hk⟩
      rw [view_none hno] at htype hnlink
      exact ⟨htype, fun q hq => hnlink (h.taken q _ _ hq).nlink, fun i hr hk => absurd hk (hno i hr)⟩
  · obtain ⟨hpos, hr⟩ := h.pos_of_var hw
    refine ⟨(h.entries i).live hpos, fun q hq => ?_, fun j hj hk he => ?_⟩
    · have := ((h.taken q _ _ hq).gone i hr rfl).1
      omega
    · rw [h.unique j i hj hr hk] at he
      have := (h.entries i).alone he
      omega

end Itable

end Xv6
