import Xv6.DirUse
import Xv6.Lib.Rel

/-!
# `iput` in steps

An `iput` that frees an inode gives `itable.lock` up before it drops its reference.  Here the two are different steps.  Every run is one
of `dirLts`, where `iput` is one step, but for a race: an `iput` gives up what is the last reference to an inode without links, but for
that of another `iput`, which has freed the inode before it got its new user.  `put_refines` has the condition.
-/

namespace Xv6

open Function (update)

namespace Dir

variable (N : Nat)

/-- `create` in the directory, up to `ip->ref--` of an `iput` that frees the new inode. -/
def createStart (dp : Inum) (name : Name) (type : Ftype) (major minor : Int) (grow : Bool × Bool) : DirM (Create × Option Inum) := do
  match ← createTry N dp name type major minor grow with
  | .ok r => return (r, none)
  | .error i =>
    let r ← iputStart i
    return (.failed, r)

end Dir

namespace DirK

/-- One operation, up to `ip->ref--` of an `iput` that frees an inode, which is in the answer then. -/
def start (N : Nat) (env : DirEnv) (k : DirK) : (o : DirOp) → Except String ((o.Ans × Option Inum) × DirK)
  | .iput i => k.lift do
    let r ← Dir.iputStart i
    return ((), r)
  | .createIn dp name type major minor => k.lift (Dir.createStart N dp name type major minor env.grow)
  | o => (k.exec N env o).map fun r => ((r.1, none), r.2)

/-- The inode that the operation gives to `iput`, and the state then. -/
def given (N : Nat) (env : DirEnv) (k : DirK) : DirOp → Option (Inum × Dirs)
  | .iput i => some (i, k.d)
  | .createIn dp name type major minor =>
    match Dir.createTry N dp name type major minor env.grow k.d with
    | .ok (.error i) d => some (i, d)
    | _ => none
  | _ => none

end DirK

/-- The processes, and for each the inode that its `iput` has freed, as long as it has not dropped its reference. -/
structure PutSys where
  sys : DirSys
  put : Fin NPROC → Option Inum

namespace PutSys

variable (x : PutSys)

/-- The references to inode `i` that are still to be dropped. -/
def puts (i : Inum) : Nat := ∑ p, if x.put p = some i then 1 else 0

def setD (d : Dirs) : PutSys := { x with sys := { x.sys with k := { x.sys.k with d } } }

/-- `ip->ref--` of an `iput` that has freed the inode. -/
def drop (p : Fin NPROC) (i : Inum) : PutSys :=
  { x.setD (x.sys.k.d.setRef i (x.sys.k.d.ref i - 1)) with put := update x.put p none }

def step (N : Nat) : DirEv → Option (Except String PutSys)
  | .next p env =>
    match x.put p with
    | some i => some (.ok (x.drop p i))
    | none =>
      match x.sys.th p with
      | some (.call o f) =>
        some ((x.sys.k.start N env o).map fun r => ⟨⟨r.2, update x.sys.th p (some (f r.1.1))⟩, update x.put p r.1.2⟩)
      | some (.panic msg) => some (.error msg)
      | _ => none
  | .call p c => (x.sys.step N (.call p c)).map (·.map fun s => ⟨s, x.put⟩)
  | .done p => if x.put p = none then (x.sys.step N (.done p)).map (·.map fun s => ⟨s, x.put⟩) else none

/-- An `iput` that gives up the last reference to an inode without links, but for those that are still to be dropped, does so when none
is. -/
def Settled (N : Nat) (x : PutSys) : DirEv → Prop
  | .next p env => x.put p = none → ∀ o f i d, x.sys.th p = some (.call o f) → x.sys.k.given N env o = some (i, d) →
      (d.node i).nlink = 0 → d.ref i = x.puts i + 1 → x.puts i = 0
  | _ => True

end PutSys

/-- The runs with `iput` in steps. -/
def putLts (N : Nat) (I : (Inum → Node) → Prop) : Lts PutSys DirEv :=
  .ofFun (fun x => I x.sys.k.d.node ∧ x.sys.Booted ∧ x.put = fun _ => none) fun x e => x.step N e

/-! ### Inodes in use -/

namespace Dirs

variable {N : Nat} {s t : Dirs} {i : Inum}

theorem inUse_succ (s : Dirs) (N : Nat) : s.inUse (N + 1) = s.inUse N + if 0 < s.ref N then 1 else 0 := by
  unfold inUse
  rw [List.range_succ, List.countP_append, List.countP_singleton]
  simp

theorem inUse_mono (h : ∀ j, 0 < s.ref j → 0 < t.ref j) : s.inUse N ≤ t.inUse N :=
  List.countP_mono_left fun j _ hj => by simpa using h j (by simpa using hj)

theorem inUse_lt (h : ∀ j, 0 < s.ref j → 0 < t.ref j) (hi : i < N) (h0 : s.ref i = 0) (h1 : 0 < t.ref i) : s.inUse N < t.inUse N := by
  induction N with
  | zero => exact absurd hi (Nat.not_lt_zero i)
  | succ N ih =>
    rw [inUse_succ, inUse_succ]
    obtain hlt | rfl := Nat.lt_succ_iff_lt_or_eq.1 hi
    · have h2 := ih hlt
      have h3 := h N
      split <;> split <;> omega
    · have h2 := inUse_mono (N := i) h
      rw [if_neg (by omega), if_pos h1]
      omega

theorem inUse_setRef_le (s : Dirs) (i : Inum) (n : Nat) : (s.setRef i n).inUse N ≤ s.inUse N + 1 := by
  have hother : ∀ M, M ≤ i → (s.setRef i n).inUse M = s.inUse M := by
    intro M hM
    refine List.countP_congr fun j hj => ?_
    rw [setRef_ref, Function.update_of_ne (Nat.ne_of_lt (Nat.lt_of_lt_of_le (List.mem_range.1 hj) hM))]
  induction N with
  | zero => exact Nat.zero_le 1
  | succ N ih =>
    rw [inUse_succ, inUse_succ, setRef_ref]
    by_cases hN : N = i
    · subst hN
      rw [hother N (Nat.le_refl N)]
      split <;> omega
    · rw [Function.update_of_ne hN]
      omega

theorem ref_pos_of_dec {j : Inum} (h : 0 < (s.setRef i (s.ref i - 1)).ref j) : 0 < s.ref j := by
  rw [setRef_ref] at h
  by_cases hji : j = i
  · rw [hji, Function.update_self] at h
    rw [hji]
    omega
  · rwa [Function.update_of_ne hji] at h

theorem got_of_zero (h : s.ref i = 0) : s.got i = (s.setRef i 1).setValid i false := by
  rw [got, if_neg (by omega), h]
  rfl

theorem valid_of_unread {j : Inum} (h : (s.setValid i false).valid j = true) : j ≠ i ∧ s.valid j = true := by
  rw [setValid_valid] at h
  by_cases hji : j = i
  · rw [hji, Function.update_self] at h
    cases h
  · rw [Function.update_of_ne hji] at h
    exact ⟨hji, h⟩

end Dirs

/-! ### The two counts -/

/-- `d` counts the references with iput in steps, `e` with `iput` in one step; `c` are those that are still to be dropped. -/
structure Sim (N : Nat) (c : Inum → Nat) (d e : Dirs) : Prop where
  node : e.node = d.node
  file : e.file = d.file
  ref : ∀ i, d.ref i = e.ref i + c i
  -- an inode that would have been given up and taken again has still been read
  valid : ∀ i, e.valid i = true → d.valid i = true
  read : ∀ i, 0 < d.ref i → d.valid i = true → (d.node i).type ≠ .free
  range : ∀ i, (d.node i).type ≠ .free → i < N
  puts : ∀ i, 0 < c i → i < N
  room : d.inUse N ≤ NINODE

namespace Sim

variable {N : Nat} {c : Inum → Nat} {d e : Dirs} {i dp : Inum} {x : Node}

theorem ref_le (h : Sim N c d e) (i : Inum) : e.ref i ≤ d.ref i := by
  rw [h.ref i]
  exact Nat.le_add_right ..

theorem setFile (h : Sim N c d e) (f : Fin NFILE) (y : OpenFile) : Sim N c (d.setFile f y) (e.setFile f y) where
  node := h.node
  file := by
    unfold Dirs.setFile
    rw [h.file]
  ref := h.ref
  valid := h.valid
  read := h.read
  range := h.range
  puts := h.puts
  room := h.room

/-- An inode that is in use stays so. -/
theorem setNode (h : Sim N c d e) (h1 : (d.node i).type ≠ .free → x.type ≠ .free) (h2 : x.type ≠ .free → i < N) :
    Sim N c (d.setNode i x) (e.setNode i x) where
  node := by rw [Dirs.setNode_node, Dirs.setNode_node, h.node]
  file := h.file
  ref := h.ref
  valid := h.valid
  read j hr hv := by
    have ht := h.read j hr hv
    rw [Dirs.setNode_node]
    by_cases hji : j = i
    · subst hji
      rw [Function.update_self]
      exact h1 ht
    · rwa [Function.update_of_ne hji]
  range j ht := by
    rw [Dirs.setNode_node] at ht
    by_cases hji : j = i
    · subst hji
      rw [Function.update_self] at ht
      exact h2 ht
    · rw [Function.update_of_ne hji] at ht
      exact h.range j ht
  puts := h.puts
  room := h.room

/-- The type of an inode stays. -/
theorem setNode_same (h : Sim N c d e) (hx : x.type = (d.node i).type) : Sim N c (d.setNode i x) (e.setNode i x) :=
  h.setNode (fun ht => by rwa [hx]) fun ht => h.range i (by rwa [← hx])

theorem lock (h : Sim N c d e) (ht : (d.node i).type ≠ .free) : Sim N c (d.lock i) (e.lock i) where
  node := h.node
  file := h.file
  ref := h.ref
  valid j hv := by
    rw [Dirs.lock_valid] at hv ⊢
    by_cases hji : j = i
    · rw [hji, Function.update_self]
    · rw [Function.update_of_ne hji] at hv ⊢
      exact h.valid j hv
  read j hr hv := by
    by_cases hji : j = i
    · rwa [hji]
    · rw [Dirs.lock_valid, Function.update_of_ne hji] at hv
      exact h.read j hr hv
  range := h.range
  puts := h.puts
  room := h.room

/-- References are taken or given up. -/
theorem setRefs {c' : Inum → Nat} {d' e' : Dirs} (h : Sim N c d e) (hd : d'.node = d.node) (he : e'.node = e.node) (hf : d'.file = d.file)
    (hg : e'.file = e.file) (href : ∀ j, d'.ref j = e'.ref j + c' j) (hv : ∀ j, e'.valid j = true → d'.valid j = true)
    (hr : ∀ j, 0 < d'.ref j → d'.valid j = true → 0 < d.ref j ∧ d.valid j = true) (hp : ∀ j, 0 < c' j → j < N)
    (hroom : d'.inUse N ≤ NINODE) : Sim N c' d' e' where
  node := by rw [he, hd, h.node]
  file := by rw [hg, hf, h.file]
  ref := href
  valid := hv
  read j hj hvj := by
    rw [hd]
    obtain ⟨h1, h2⟩ := hr j hj hvj
    exact h.read j h1 h2
  range j hj := h.range j (by rwa [← hd])
  puts := hp
  room := hroom

/-- `e` has room for an inode that `d` has in use, and `e` has not. -/
theorem room_left (h : Sim N c d e) (hd : 0 < d.ref i) (he : e.ref i = 0) : e.inUse N < NINODE := by
  have hc := h.ref i
  have hmono : ∀ j, 0 < e.ref j → 0 < d.ref j := fun j hj => Nat.lt_of_lt_of_le hj (h.ref_le j)
  exact Nat.lt_of_lt_of_le (Dirs.inUse_lt hmono (h.puts i (by omega)) he hd) h.room

theorem got (h : Sim N c d e) (hroom : d.ref i = 0 → d.inUse N < NINODE) : Sim N c (d.got i) (e.got i) := by
  have href := h.ref i
  refine h.setRefs (Dirs.got_node ..) (Dirs.got_node ..) (Dirs.got_file ..) (Dirs.got_file ..) (fun j => ?_) (fun j hv => ?_)
    (fun j hr hv => ?_) h.puts ?_
  · rw [Dirs.got_ref, Dirs.got_ref]
    by_cases hji : j = i
    · subst hji
      rw [Function.update_self, Function.update_self]
      omega
    · rw [Function.update_of_ne hji, Function.update_of_ne hji]
      exact h.ref j
  · by_cases hji : j = i
    · subst hji
      rw [Dirs.got_valid] at hv ⊢
      by_cases he : 0 < e.ref j
      · rw [if_pos he] at hv
        rw [if_pos (by omega)]
        exact h.valid j hv
      · rw [if_neg he, Function.update_self] at hv
        cases hv
    · rw [Dirs.got_valid_of_ne _ hji] at hv ⊢
      exact h.valid j hv
  · by_cases hji : j = i
    · subst hji
      rw [Dirs.got_valid] at hv
      by_cases hd : 0 < d.ref j
      · rw [if_pos hd] at hv
        exact ⟨hd, hv⟩
      · rw [if_neg hd, Function.update_self] at hv
        cases hv
    · rw [Dirs.got_ref, Function.update_of_ne hji] at hr
      rw [Dirs.got_valid_of_ne _ hji] at hv
      exact ⟨hr, hv⟩
  · by_cases hd : d.ref i = 0
    · have h1 := hroom hd
      have h2 := Dirs.inUse_setRef_le (N := N) (if 0 < d.ref i then d else d.setValid i false) i (d.ref i + 1)
      rw [if_neg (by omega)] at h2
      unfold Dirs.got
      rw [if_neg (by omega)]
      exact Nat.le_trans h2 h1
    · refine Nat.le_trans (Dirs.inUse_mono fun j hj => ?_) h.room
      by_cases hji : j = i
      · rw [hji]
        exact Nat.pos_of_ne_zero hd
      · rwa [Dirs.got_ref, Function.update_of_ne hji] at hj

/-- One more reference to an inode that is in use. -/
theorem dup (h : Sim N c d e) (hi : 0 < e.ref i) : Sim N c (d.setRef i (d.ref i + 1)) (e.setRef i (e.ref i + 1)) := by
  have hd := Nat.lt_of_lt_of_le hi (h.ref_le i)
  have hgot := h.got (i := i) fun h0 => by omega
  unfold Dirs.got at hgot
  rwa [if_pos hi, if_pos hd] at hgot

/-- A reference is given up, which is not the last to an inode without links. -/
theorem dec (h : Sim N c d e) (hi : 0 < e.ref i) : Sim N c (d.setRef i (d.ref i - 1)) (e.setRef i (e.ref i - 1)) := by
  refine h.setRefs rfl rfl rfl rfl (fun j => ?_) h.valid (fun j hr hv => ⟨Dirs.ref_pos_of_dec hr, hv⟩) h.puts
    (Nat.le_trans (Dirs.inUse_mono fun j => Dirs.ref_pos_of_dec) h.room)
  rw [Dirs.setRef_ref, Dirs.setRef_ref]
  by_cases hji : j = i
  · subst hji
    have := h.ref j
    rw [Function.update_self, Function.update_self]
    omega
  · rw [Function.update_of_ne hji, Function.update_of_ne hji]
    exact h.ref j

/-- A reference that was still to be dropped is dropped. -/
theorem drop (h : Sim N c d e) (hi : 0 < c i) : Sim N (update c i (c i - 1)) (d.setRef i (d.ref i - 1)) e := by
  refine h.setRefs rfl rfl rfl rfl (fun j => ?_) h.valid (fun j hr hv => ⟨Dirs.ref_pos_of_dec hr, hv⟩) (fun j hj => ?_)
    (Nat.le_trans (Dirs.inUse_mono fun j => Dirs.ref_pos_of_dec) h.room)
  · rw [Dirs.setRef_ref]
    by_cases hji : j = i
    · subst hji
      have := h.ref j
      rw [Function.update_self, Function.update_self]
      omega
    · rw [Function.update_of_ne hji, Function.update_of_ne hji]
      exact h.ref j
  · by_cases hji : j = i
    · rw [hji]
      exact h.puts i hi
    · rw [Function.update_of_ne hji] at hj
      exact h.puts j hj

/-- An inode is looked up, and given up at once. -/
theorem touch (h : Sim N c d e) : Sim N c ((d.got i).put i) ((e.got i).put i) := by
  have href := h.ref i
  rw [Dirs.put_got, Dirs.put_got]
  by_cases hd : 0 < d.ref i
  · rw [if_pos hd]
    by_cases he : 0 < e.ref i
    · rwa [if_pos he]
    · rw [if_neg he]
      exact h.setRefs rfl rfl rfl rfl h.ref (fun j hv => h.valid j (Dirs.valid_of_unread hv).2) (fun j hr hv => ⟨hr, hv⟩) h.puts h.room
  · rw [if_neg hd, if_neg (by omega)]
    refine h.setRefs rfl rfl rfl rfl h.ref (fun j hv => ?_) (fun j hr hv => ⟨hr, (Dirs.valid_of_unread hv).2⟩) h.puts h.room
    obtain ⟨hji, hv⟩ := Dirs.valid_of_unread hv
    rw [Dirs.setValid_valid, Function.update_of_ne hji]
    exact h.valid j hv

/-- The references to be dropped, with that of an `iput` that has freed its inode. -/
def withPut (c : Inum → Nat) (r : Option Inum) (i : Inum) : Nat := c i + if r = some i then 1 else 0

theorem withPut_none (c : Inum → Nat) : withPut c none = c := by
  funext i
  simp [withPut]

/-- The inode is freed. -/
theorem free (h : Sim N c d e) (hd : d.Last i) (he : e.Last i) :
    Sim N (withPut c (some i)) ((d.setNode i (Dir.freed (d.node i))).setValid i false) (e.put i) := by
  have href := h.ref i
  have hlt := h.range i (h.read i (by have := hd.1; omega) hd.2.1)
  refine ⟨?_, ?_, fun j => ?_, fun j hv => ?_, fun j hr hv => ?_, fun j ht => ?_, fun j hj => ?_, h.room⟩
  · rw [Dirs.put_node, if_pos he, Dirs.setValid_node, Dirs.setNode_node, h.node]
  · rw [Dirs.put_file]
    exact h.file
  · rw [Dirs.put_ref, Dirs.setValid_ref, Dirs.setNode_ref]
    by_cases hji : j = i
    · subst hji
      have h1 := hd.1
      have h2 := he.1
      simp only [withPut, Function.update_self, if_true]
      omega
    · rw [Function.update_of_ne hji, withPut, if_neg (by simpa using Ne.symm hji)]
      exact h.ref j
  · rw [Dirs.put_valid, if_pos he] at hv
    obtain ⟨hji, hv⟩ := Dirs.valid_of_unread (s := e) hv
    rw [Dirs.setValid_valid, Function.update_of_ne hji]
    exact h.valid j hv
  · obtain ⟨hji, hv⟩ := Dirs.valid_of_unread hv
    rw [Dirs.setValid_node, Dirs.setNode_node, Function.update_of_ne hji]
    exact h.read j hr hv
  · rw [Dirs.setValid_node, Dirs.setNode_node] at ht
    by_cases hji : j = i
    · rwa [hji]
    · rw [Function.update_of_ne hji] at ht
      exact h.range j ht
  · by_cases hji : j = i
    · rwa [hji]
    · rw [withPut, if_neg (by simpa using Ne.symm hji)] at hj
      exact h.puts j hj

end Sim

/-! ### Sections -/

/-- The section `m` answers the same from both counts, and leaves `P`. -/
abbrev Twin {α : Type} (m : DirM α) (P : α → Dirs → Dirs → Prop) (d e : Dirs) : Prop :=
  rel m m (fun a s b t => b = a ∧ P a s t) d e

namespace Dir

variable {N : Nat} {c : Inum → Nat} {d e : Dirs} {i dp : Inum} {name : Name} {f : Fin NFILE} {α β γ : Type}

theorem twin_bind {m : DirM α} {P : α → Dirs → Dirs → Prop} {g : α → DirM β} {g' : α → DirM γ} {Q : β → Dirs → γ → Dirs → Prop}
    (h : Twin m P d e) (hg : ∀ a s t, P a s t → rel (g a) (g' a) Q s t) : rel (m >>= g) (m >>= g') Q d e := by
  refine rel_bind (rel_mono h fun a s b t hp => ?_)
  obtain ⟨rfl, hp⟩ := hp
  exact hg b s t hp

theorem twin_pure {a : α} {P : α → Dirs → Dirs → Prop} (h : P a d e) : Twin (pure a) P d e := rel_pure ⟨rfl, h⟩

theorem iget_twin (h : Sim N c d e) (i : Inum) : Twin (iget N i) (fun _ s t => Sim N c s t ∧ s = d.got i ∧ t = e.got i) d e := by
  have href := h.ref_le i
  refine rel_get ?_
  by_cases hd : 0 < d.ref i
  · have hs : d.setRef i (d.ref i + 1) = d.got i := by rw [Dirs.got, if_pos hd]
    rw [if_pos hd, hs]
    have hgot := h.got (i := i) fun h0 => by omega
    by_cases he : 0 < e.ref i
    · rw [if_pos he]
      have ht : e.setRef i (e.ref i + 1) = e.got i := by rw [Dirs.got, if_pos he]
      rw [ht]
      exact rel_set ⟨rfl, hgot, rfl, rfl⟩
    · have h0 : e.ref i = 0 := by omega
      rw [if_neg he, if_neg (Nat.not_le.2 (h.room_left hd h0))]
      rw [← Dirs.got_of_zero h0]
      exact rel_set ⟨rfl, hgot, rfl, rfl⟩
  · have h0 : d.ref i = 0 := by omega
    have h1 : e.ref i = 0 := by omega
    rw [if_neg hd, if_neg (show ¬0 < e.ref i by omega)]
    by_cases hroom : NINODE ≤ d.inUse N
    · rw [if_pos hroom]
      exact rel_throw
    · have hle : e.inUse N ≤ d.inUse N := Dirs.inUse_mono fun j hj => Nat.lt_of_lt_of_le hj (h.ref_le j)
      rw [if_neg hroom, if_neg (show ¬NINODE ≤ e.inUse N by omega), ← Dirs.got_of_zero h0, ← Dirs.got_of_zero h1]
      exact rel_set ⟨rfl, h.got (fun _ => by omega), rfl, rfl⟩

theorem ilock_twin (h : Sim N c d e) (hi : 0 < e.ref i) :
    Twin (ilock i) (fun _ s t => Sim N c s t ∧ (d.node i).type ≠ .free ∧ s = d.lock i ∧ t = e.lock i) d e := by
  have hd := Nat.lt_of_lt_of_le hi (h.ref_le i)
  have hsame : ∀ s : Dirs, s.valid i = true → s.lock i = s := fun s hs => by
    rw [Dirs.lock, Dirs.setValid, ← hs, Function.update_eq_self]
  refine rel_get ?_
  rw [if_neg (show ¬d.ref i < 1 by omega), if_neg (show ¬e.ref i < 1 by omega), h.node]
  by_cases hv : d.valid i = true
  · have ht := h.read i hd hv
    rw [if_pos hv]
    by_cases hw : e.valid i = true
    · rw [if_pos hw]
      exact twin_pure ⟨h, ht, (hsame d hv).symm, (hsame e hw).symm⟩
    · rw [if_neg hw, if_neg ht]
      rintro _ _ ⟨⟩
      have hlock := h.lock ht
      rw [hsame d hv] at hlock
      exact ⟨(), e.lock i, rfl, rfl, hlock, ht, (hsame d hv).symm, rfl⟩
  · have hw : ¬e.valid i = true := fun hw => hv (h.valid i hw)
    rw [if_neg hv, if_neg hw]
    by_cases ht : (d.node i).type = .free
    · rw [if_pos ht]
      exact rel_throw
    · rw [if_neg ht, if_neg ht]
      exact rel_set ⟨rfl, h.lock ht, ht, rfl, rfl⟩

theorem dirlookup_twin (h : Sim N c d e) (dp : Inum) (name : Name) :
    Twin (dirlookup N dp name)
      (fun r s t => Sim N c s t ∧ match r with
        | none => s = d ∧ t = e
        | some (_, i) => s = d.got i ∧ t = e.got i) d e := by
  refine rel_get ?_
  rw [h.node]
  refine rel_ite (fun _ => rel_throw) fun _ => ?_
  cases (d.node dp).findEnt name with
  | none => exact twin_pure ⟨h, rfl, rfl⟩
  | some k => exact twin_bind (iget_twin h _) fun _ _ _ hs => twin_pure hs

theorem putEnt_twin (h : Sim N c d e) (dp : Inum) (k : Nat) (de : Dirent) (grow : Bool) :
    Twin (putEnt dp k de grow) (fun _ => Sim N c) d e := by
  refine rel_get ?_
  simp only [h.node]
  refine rel_ite (fun _ => rel_bind (rel_set (twin_pure (h.setNode_same rfl)))) fun _ => ?_
  refine rel_ite (fun _ => twin_pure h) fun _ => ?_
  exact rel_ite (fun _ => twin_pure h) fun _ => rel_bind (rel_set (twin_pure (h.setNode_same rfl)))

/-- The reference that `dirlink` takes is given up at once. -/
theorem dirlink_twin (h : Sim N c d e) (dp : Inum) (name : Name) (inum : Inum) (grow : Bool) :
    Twin (dirlink N dp name inum grow)
      (fun _ => Sim N c) d e := by
  refine twin_bind (dirlookup_twin h dp name) fun r s t hs => ?_
  obtain ⟨hsim, hr⟩ := hs
  cases r with
  | none =>
    obtain ⟨rfl, rfl⟩ := hr
    refine rel_get ?_
    rw [h.node]
    exact putEnt_twin h dp _ _ grow
  | some r =>
    obtain ⟨k, i⟩ := r
    obtain ⟨rfl, rfl⟩ := hr
    simp only [iput_eq]
    exact rel_bind (rel_modify (twin_pure h.touch))

theorem addLink_twin (h : Sim N c d e) (i : Inum) (n : Int) :
    Twin (addLink i n) (fun _ => Sim N c) d e := by
  refine rel_modify ⟨rfl, ?_⟩
  rw [h.node]
  exact h.setNode_same rfl

theorem lookup_twin (h : Sim N c d e) (hi : 0 < e.ref dp) (name : Name) :
    Twin (lookup N dp name) (fun _ => Sim N c) d e := by
  refine twin_bind (ilock_twin h hi) fun _ s t hs => rel_get ?_
  obtain ⟨hs, -⟩ := hs
  rw [hs.node]
  refine rel_ite (fun _ => twin_pure hs) fun _ => twin_bind (dirlookup_twin hs dp name) fun r s t hs => ?_
  cases r with
  | none => exact twin_pure hs.1
  | some r => exact twin_pure hs.1

theorem stat_twin (h : Sim N c d e) (hi : 0 < e.ref i) : Twin (stat i) (fun _ => Sim N c) d e := by
  refine twin_bind (ilock_twin h hi) fun _ s t hs => rel_get ?_
  obtain ⟨hs, -⟩ := hs
  rw [hs.node]
  exact twin_pure hs

theorem linkUp_twin (h : Sim N c d e) (hi : 0 < e.ref i) : Twin (linkUp i) (fun _ => Sim N c) d e := by
  refine twin_bind (ilock_twin h hi) fun _ s t hs => rel_get ?_
  obtain ⟨hs, -⟩ := hs
  rw [hs.node]
  exact rel_ite (fun _ => twin_pure hs) fun _ => twin_bind (addLink_twin hs i 1) fun _ _ _ hs => twin_pure hs

theorem linkDown_twin (h : Sim N c d e) (hi : 0 < e.ref i) : Twin (linkDown i) (fun _ => Sim N c) d e :=
  twin_bind (ilock_twin h hi) fun _ _ _ hs => addLink_twin hs.1 i (-1)

theorem linkIn_twin (h : Sim N c d e) (hi : 0 < e.ref dp) (name : Name) (i : Inum) (grow : Bool) :
    Twin (linkIn N dp name i grow) (fun _ => Sim N c) d e :=
  twin_bind (ilock_twin h hi) fun _ _ _ hs => dirlink_twin hs.1 dp name i grow

theorem unlinkIn_twin (h : Sim N c d e) (hi : 0 < e.ref dp) (name : Name) :
    Twin (unlinkIn N dp name) (fun _ => Sim N c) d e := by
  refine twin_bind (ilock_twin h hi) fun _ s t hs => ?_
  obtain ⟨hs, -⟩ := hs
  refine rel_ite (fun _ => twin_pure hs) fun _ => twin_bind (dirlookup_twin hs dp name) fun r u v hu => ?_
  cases r with
  | none => exact twin_pure hu.1
  | some r =>
    obtain ⟨k, i⟩ := r
    obtain ⟨hu, -, rfl⟩ := hu
    refine twin_bind (ilock_twin hu (by simp)) fun _ u v hu => rel_get ?_
    obtain ⟨hu, -⟩ := hu
    rw [hu.node]
    refine rel_ite (fun _ => rel_throw) fun _ => rel_ite (fun _ => twin_pure hu) fun _ => ?_
    refine twin_bind (putEnt_twin hu dp k ⟨0, []⟩ true) fun ok u' v' hu' => rel_ite (fun _ => rel_throw) fun _ => ?_
    have hdone : ∀ (_ : Unit) u' v', Sim N c u' v' → Twin (do addLink i (-1); return Unlink.done i) (fun _ => Sim N c) u' v' :=
      fun _ u' v' hu' => twin_bind (addLink_twin hu' i (-1)) fun _ _ _ hq => twin_pure hq
    exact rel_ite (fun _ => twin_bind (addLink_twin hu' dp (-1)) hdone) fun _ => hdone () u' v' hu'

theorem ialloc_twin (h : Sim N c d e) {type : Ftype} (ht : type ≠ .free) :
    Twin (ialloc N type) (fun r s t => Sim N c s t ∧ ∀ i, r = some i → 0 < t.ref i) d e := by
  refine rel_get ?_
  rw [h.node]
  cases hf : (List.range N).find? fun i => i ≠ 0 && (d.node i).type = .free with
  | none => exact twin_pure ⟨h, nofun⟩
  | some i =>
    have hi : i < N := List.mem_range.1 (List.mem_of_find?_eq_some hf)
    have hset := h.setNode (i := i) (x := { type }) (fun _ => ht) fun _ => hi
    refine rel_bind (rel_set (twin_bind (iget_twin hset i) fun _ s t hs => twin_pure ⟨hs.1, fun j hj => ?_⟩))
    cases hj
    rw [hs.2.2, Dirs.got_ref, Function.update_self]
    exact Nat.succ_pos _

theorem createTry_twin (h : Sim N c d e) (hi : 0 < e.ref dp) {type : Ftype} (ht : type ≠ .free) (major minor : Int)
    (grow : Bool × Bool) :
    Twin (createTry N dp name type major minor grow) (fun _ => Sim N c) d e := by
  refine twin_bind (ilock_twin h hi) fun _ s t hs => ?_
  obtain ⟨hs, -⟩ := hs
  refine twin_bind (dirlookup_twin hs dp name) fun r u v hu => ?_
  obtain ⟨hu, hr⟩ := hu
  cases r with
  | some r => exact twin_pure hu
  | none =>
    refine twin_bind (ialloc_twin hu ht) fun r u v hu => ?_
    obtain ⟨hu, hr⟩ := hu
    cases r with
    | none => exact twin_pure hu
    | some i =>
      -- the label `fail`
      have hfail : ∀ u v, Sim N c u v →
          Twin (do modify fun s => s.setNode i { s.node i with nlink := 0 }; return (Except.error i : Except Inum Create))
            (fun _ => Sim N c) u v := by
        intro u v hu
        refine rel_bind (rel_modify (twin_pure ?_))
        rw [hu.node]
        exact hu.setNode_same rfl
      have hlink : ∀ u v, Sim N c u v →
          Twin (do
            if ← dirlink N dp name i grow.2 then
              if type = .dir then addLink dp 1
              return Except.ok (Create.made i)
            else
              modify fun s => s.setNode i { s.node i with nlink := 0 }
              return (Except.error i : Except Inum Create)) (fun _ => Sim N c) u v := by
        refine fun u v hu => twin_bind (dirlink_twin hu dp name i grow.2) fun ok u v hu => ?_
        refine rel_ite (fun _ => ?_) fun _ => hfail u v hu
        exact rel_ite (fun _ => twin_bind (addLink_twin hu dp 1) fun _ _ _ hq => twin_pure hq) fun _ => twin_pure hu
      refine twin_bind (ilock_twin hu (hr i rfl)) fun _ u v hu => ?_
      obtain ⟨hu, -⟩ := hu
      refine rel_bind (rel_modify ?_)
      rw [hu.node]
      have hnew := hu.setNode_same (i := i)
        (x := { u.node i with major := short major, minor := short minor, nlink := 1 }) rfl
      refine rel_ite (fun _ => ?_) fun _ => hlink _ _ hnew
      refine twin_bind (dirlink_twin hnew i dot i grow.1) fun ok u v hu => rel_ite (fun _ => ?_) fun _ => hfail u v hu
      exact twin_bind (dirlink_twin hu i dotdot dp grow.1) fun ok u v hu =>
        rel_ite (fun _ => hlink u v hu) fun _ => hfail u v hu

theorem idup_twin (h : Sim N c d e) (hi : 0 < e.ref i) : Twin (idup i) (fun _ => Sim N c) d e := rel_modify ⟨rfl, h.dup hi⟩

theorem fileLock_twin (h : Sim N c d e) (hi : ∀ i, (d.file f).ip = some i → 0 < e.ref i) (g : List UInt8 → List UInt8) :
    Twin (fileLock f g) (fun _ => Sim N c) d e := by
  refine rel_get ?_
  rw [h.file]
  cases hf : (d.file f).ip with
  | none => exact rel_throw
  | some i =>
    refine twin_bind (ilock_twin h (hi i hf)) fun _ s t hs => rel_modify ⟨rfl, ?_⟩
    rw [hs.1.node]
    exact hs.1.setNode_same rfl

theorem filealloc_twin (h : Sim N c d e) : Twin filealloc (fun _ => Sim N c) d e := by
  refine rel_get ?_
  rw [h.file]
  cases (List.finRange NFILE).find? fun f => (d.file f).ref = 0 with
  | none => exact twin_pure h
  | some f => exact rel_bind (rel_set (twin_pure (h.setFile f _)))

theorem filedup_twin (h : Sim N c d e) (f : Fin NFILE) : Twin (filedup f) (fun _ => Sim N c) d e := by
  refine rel_get ?_
  rw [h.file]
  exact rel_ite (fun _ => rel_throw) fun _ => rel_set ⟨rfl, h.setFile f _⟩

theorem fileput_twin (h : Sim N c d e) (f : Fin NFILE) : Twin (fileput f) (fun _ => Sim N c) d e := by
  refine rel_get ?_
  rw [h.file]
  refine rel_ite (fun _ => rel_throw) fun _ => rel_ite (fun _ => ?_) fun _ => ?_
  · exact rel_bind (rel_set (twin_pure (h.setFile f _)))
  · exact rel_bind (rel_set (twin_pure (h.setFile f _)))

theorem fileset_twin (h : Sim N c d e) (f : Fin NFILE) (i : Inum) (device readable writable : Bool) :
    Twin (fileset f i device readable writable) (fun _ => Sim N c) d e := by
  refine rel_modify ⟨rfl, ?_⟩
  rw [h.file]
  exact h.setFile f _

theorem getFile_twin (h : Sim N c d e) (f : Fin NFILE) : Twin (getFile f) (fun _ => Sim N c) d e := by
  refine rel_get ?_
  rw [h.file]
  exact twin_pure h

/-- The last reference to an inode without links is given up when no other reference to it is still to be dropped: the inode is freed
at once, or not at all. -/
theorem iputStart_rel (h : Sim N c d e) (hi : 0 < e.ref i)
    (hv : (d.node i).type ≠ .free → (d.node i).nlink = 0 → e.valid i = true)
    (hs : (d.node i).nlink = 0 → d.ref i = c i + 1 → c i = 0) :
    rel (iputStart i) (iput i) (fun r s _ t => Sim N (Sim.withPut c r) s t) d e := by
  have href := h.ref i
  have hput : iput i = do let s ← get; set (s.put i); return () := iput_eq i
  rw [hput]
  refine rel_get ?_
  by_cases hd : d.Last i
  · have h1 := hd.1
    have ht := h.read i (by omega) hd.2.1
    have hc : c i = 0 := hs hd.2.2 (by omega)
    have he : e.Last i := ⟨by omega, hv ht hd.2.2, by rw [h.node]; exact hd.2.2⟩
    rw [if_pos (show d.ref i = 1 ∧ _ from hd)]
    exact rel_bind (rel_set (rel_pure (h.free hd he)))
  · have he : ¬e.Last i := by
      rintro ⟨h1, h2, h3⟩
      rw [h.node] at h3
      have hc := hs h3 (by omega)
      exact hd ⟨by omega, h.valid i h2, h3⟩
    rw [if_neg (show ¬(d.ref i = 1 ∧ _) from hd), Dirs.put, if_neg he]
    refine rel_bind (rel_set (rel_pure ?_))
    rw [Sim.withPut_none]
    exact h.dec hi

theorem createStart_rel (h : Sim N c d e) (hi : 0 < e.ref dp) {type : Ftype} (ht : type ≠ .free) {major minor : Int}
    {grow : Bool × Bool} (hs : ∀ i s, createTry N dp name type major minor grow d = .ok (.error i) s →
      (s.node i).nlink = 0 → s.ref i = c i + 1 → c i = 0) :
    rel (createStart N dp name type major minor grow) (createIn N dp name type major minor grow)
      (fun r s b t => b = r.1 ∧ Sim N (Sim.withPut c r.2) s t) d e := by
  refine rel_bind (rel_mono (rel_wp (rel_ran (createTry_twin h hi ht major minor grow))
    (createTry_spec dp name ht major minor grow)) fun r s b t hrun => ?_)
  obtain ⟨⟨⟨rfl, hst⟩, hrun⟩, -, -, htry⟩ := hrun
  cases b with
  | ok r =>
    refine rel_pure ⟨rfl, ?_⟩
    rwa [Sim.withPut_none]
  | error i =>
    obtain ⟨x, -, -, -, -, rfl⟩ := htry
    have href : 0 < (born e dp i x).ref i := by simp [born]
    have hvalid : (born e dp i x).valid i = true := by simp [born]
    exact rel_bind (rel_mono (iputStart_rel hst href (fun _ _ => hvalid) (hs i s hrun)) fun r s _ t hq => rel_pure ⟨rfl, hq⟩)

end Dir

namespace DirK

variable {N : Nat} {c : Inum → Nat} {k k' : DirK} {e : Dirs} {env : DirEnv} {own : Fin NPROC → Multiset Hold} {p : Fin NPROC}

theorem lift_rel {α β : Type} {m : DirM α} {m' : DirM β} {Q : α → Dirs → β → Dirs → Prop} {a : α} (h : rel m m' Q k.d e)
    (hm : k.lift m = .ok (a, k')) :
    ∃ b t, ({ k with d := e } : DirK).lift m' = .ok (b, { k' with d := t }) ∧ Q a k'.d b t := by
  unfold lift at hm ⊢
  cases hk : m k.d with
  | ok x s =>
    rw [hk] at hm
    cases hm
    obtain ⟨b, t, ht, hq⟩ := h a s hk
    exact ⟨b, t, by rw [ht], hq⟩
  | error msg s =>
    rw [hk] at hm
    cases hm

theorem lift_twin {α : Type} {m : DirM α} {a : α} (h : Twin m (fun _ => Sim N c) k.d e) (hm : k.lift m = .ok (a, k')) :
    ∃ t, ({ k with d := e } : DirK).lift m = .ok (a, { k' with d := t }) ∧ Sim N c k'.d t := by
  obtain ⟨b, t, ht, rfl, hq⟩ := lift_rel h hm
  exact ⟨t, ht, hq⟩

/-- An operation other than `iput` and `create`. -/
theorem exec_sim {o : DirOp} {Q : o.Ans → Multiset Hold → Prop} {x : o.Ans} (h : Sim N c k.d e)
    (hacc : DAcc { k with d := e } (heldBy own)) (hr : dirRule o Q (own p)) (hput : ∀ i, o ≠ .iput i)
    (hcreate : ∀ dp name type major minor, o ≠ .createIn dp name type major minor) (he : k.exec N env o = .ok (x, k')) :
    ∃ t, ({ k with d := e } : DirK).exec N env o = .ok (x, { k' with d := t }) ∧ Sim N c k'.d t := by
  have href : ∀ {i}, .ref i ∈ own p → 0 < e.ref i := fun hi => hacc.ref_pos (heldBy_pos hi)
  have hfile : ∀ f i, (k.d.file f).ip = some i → 0 < e.ref i := by
    intro f i hi
    have hrefs := hacc.refs i
    have hon : 0 < e.onFiles i := by
      unfold Dirs.onFiles
      rw [h.file]
      exact Finset.sum_pos' (fun _ _ => Nat.zero_le _) ⟨f, Finset.mem_univ f, by rw [if_pos hi]; exact Nat.one_pos⟩
    change e.ref i = _ + _ + e.onFiles i at hrefs
    omega
  cases o with
  | beginOp =>
    cases he
    exact ⟨e, rfl, h⟩
  | endOp =>
    cases he
    refine ⟨e, ?_, ?_⟩
    · unfold exec
      dsimp only
      split
      · rw [h.node]
      · rfl
    · dsimp only
      split <;> exact h
  | iget i => exact lift_twin (rel_mono (Dir.iget_twin h i) fun _ _ _ _ hq => ⟨hq.1, hq.2.1⟩) he
  | idup i => exact lift_twin (m := Dir.idup i) (Dir.idup_twin h (href hr.1)) he
  | iput i => exact absurd rfl (hput i)
  | lookup dp name => exact lift_twin (Dir.lookup_twin h (href hr.1) name) he
  | stat i => exact lift_twin (Dir.stat_twin h (href hr.1)) he
  | linkUp i => exact lift_twin (Dir.linkUp_twin h (href hr.2.1)) he
  | linkDown i => exact lift_twin (Dir.linkDown_twin h (href hr.1)) he
  | linkIn dp name i => exact lift_twin (Dir.linkIn_twin h (href hr.1) name i env.grow.2) he
  | unlinkIn dp name => exact lift_twin (Dir.unlinkIn_twin h (href hr.2.1) name) he
  | createIn dp name type major minor => exact absurd rfl (hcreate dp name type major minor)
  | trunc f => exact lift_twin (Dir.fileLock_twin h (hfile f) _) he
  | readFile f => exact lift_twin (Dir.fileLock_twin h (hfile f) _) he
  | write f =>
    rw [exec_write] at he ⊢
    cases hk : k.lift (Dir.fileLock f fun _ => env.data) with
    | ok r =>
      rw [hk] at he
      cases he
      obtain ⟨t, ht, hq⟩ := lift_twin (Dir.fileLock_twin h (hfile f) _) hk
      exact ⟨t, by rw [ht]; rfl, hq⟩
    | error msg =>
      rw [hk] at he
      cases he
  | filealloc => exact lift_twin (Dir.filealloc_twin h) he
  | filedup f => exact lift_twin (Dir.filedup_twin h f) he
  | fileput f => exact lift_twin (Dir.fileput_twin h f) he
  | fileset f i device readable writable =>
    exact lift_twin (m := Dir.fileset f i device readable writable) (Dir.fileset_twin h f i device readable writable) he
  | getFile f => exact lift_twin (m := Dir.getFile f) (Dir.getFile_twin h f) he
  | slotalloc =>
    rw [exec_slotalloc] at he ⊢
    cases hq : (List.finRange NPROC).find? fun q => (k.slot q).st = .unused with
    | none =>
      rw [hq] at he
      cases he
      exact ⟨e, by simp, h⟩
    | some q =>
      rw [hq] at he
      cases he
      exact ⟨e, by simp [setSlot], h⟩
  | slotfree q =>
    cases he
    exact ⟨e, rfl, h⟩
  | publish q l =>
    cases he
    exact ⟨e, rfl, h⟩

theorem start_sim {o : DirOp} {Q : o.Ans → Multiset Hold → Prop} {x : o.Ans} {r : Option Inum} (h : Sim N c k.d e)
    (hacc : DAcc { k with d := e } (heldBy own)) (hr : dirRule o Q (own p)) (hu : e.InUse)
    (hs : ∀ i s, k.given N env o = some (i, s) → (s.node i).nlink = 0 → s.ref i = c i + 1 → c i = 0)
    (he : k.start N env o = .ok ((x, r), k')) :
    ∃ t, ({ k with d := e } : DirK).exec N env o = .ok (x, { k' with d := t }) ∧ Sim N (Sim.withPut c r) k'.d t := by
  have href : ∀ {i}, .ref i ∈ own p → 0 < e.ref i := fun hi => hacc.ref_pos (heldBy_pos hi)
  by_cases hput : ∃ i, o = .iput i
  · obtain ⟨i, rfl⟩ := hput
    obtain ⟨g, hg, -, -⟩ := hr
    have hi : 0 < e.ref i := href (by rw [hg]; exact SysFile.mem_left _ _)
    have hv : (k.d.node i).type ≠ .free → (k.d.node i).nlink = 0 → e.valid i = true := by
      intro ht hn
      rw [← h.node] at ht hn
      exact (hu i ht hn).2
    obtain ⟨b, t, ht, hq⟩ := lift_rel (Q := fun r u _ t => Sim N (Sim.withPut c r.2) u t)
      (rel_map (Dir.iputStart_rel h hi hv (hs i k.d rfl))) he
    exact ⟨t, ht, hq⟩
  by_cases hcreate : ∃ dp name type major minor, o = .createIn dp name type major minor
  · obtain ⟨dp, name, type, major, minor, rfl⟩ := hcreate
    have hs : ∀ i s, Dir.createTry N dp name type major minor env.grow k.d = .ok (.error i) s →
        (s.node i).nlink = 0 → s.ref i = c i + 1 → c i = 0 := by
      intro i s hrun
      exact hs i s (by simp only [given, hrun])
    obtain ⟨b, t, ht, rfl, hq⟩ := lift_rel (Dir.createStart_rel h (href hr.2.1) hr.2.2.1 hs) he
    exact ⟨t, ht, hq⟩
  have hput : ∀ i, o ≠ .iput i := fun i hi => hput ⟨i, hi⟩
  have hcreate : ∀ dp name type major minor, o ≠ .createIn dp name type major minor :=
    fun dp name type major minor hc => hcreate ⟨dp, name, type, major, minor, hc⟩
  have hstart : k.start N env o = (k.exec N env o).map fun r => ((r.1, none), r.2) := by
    cases o with
    | iput i => exact absurd rfl (hput i)
    | createIn dp name type major minor => exact absurd rfl (hcreate dp name type major minor)
    | _ => rfl
  rw [hstart] at he
  cases hk : k.exec N env o with
  | ok y =>
    rw [hk] at he
    cases he
    rw [Sim.withPut_none]
    exact exec_sim h hacc hr hput hcreate hk
  | error msg =>
    rw [hk] at he
    cases he

end DirK

/-! ### Runs -/

namespace PutSys

variable {N : Nat} {x y : PutSys} {d e : Dirs} {ev : DirEv}

/-- The state with other counts, of references that no `iput` has to drop. -/
def flat (x : PutSys) (e : Dirs) : DirSys := ⟨{ x.sys.k with d := e }, x.sys.th⟩

theorem puts_update (x : PutSys) (p : Fin NPROC) (r : Option Inum) (i : Inum) :
    PutSys.puts { x with put := update x.put p r } i + (if x.put p = some i then 1 else 0) = x.puts i + if r = some i then 1 else 0 :=
  sum_update (fun r : Option Inum => if r = some i then 1 else 0) x.put p r

/-- One reference less is still to be dropped. -/
theorem puts_drop {p : Fin NPROC} {i : Inum} (hp : x.put p = some i) :
    0 < x.puts i ∧ (x.drop p i).puts = update x.puts i (x.puts i - 1) := by
  have hputs := puts_update x p none
  have hpos : 0 < x.puts i := by
    have := hputs i
    rw [hp, if_pos rfl, if_neg (Option.some_ne_none i).symm] at this
    omega
  refine ⟨hpos, ?_⟩
  funext j
  have hj := hputs j
  rw [hp] at hj
  change PutSys.puts { x with put := update x.put p none } j = _
  by_cases hji : j = i
  · subst hji
    rw [Function.update_self]
    simp at hj
    omega
  · rw [Function.update_of_ne hji]
    simpa [Ne.symm hji] using hj

/-- An operation of a process without such a reference may leave one. -/
theorem puts_start {p : Fin NPROC} (hp : x.put p = none) (s : DirSys) (r : Option Inum) :
    PutSys.puts ⟨s, update x.put p r⟩ = Sim.withPut x.puts r := by
  funext i
  have hi := puts_update x p r i
  rw [hp] at hi
  change PutSys.puts { x with put := update x.put p r } i = _
  simpa [Sim.withPut] using hi

/-- Every step is one with `iput` in one step, or drops a reference. -/
theorem step_sim (h : Sim N x.puts x.sys.k.d e) {own : Fin NPROC → Multiset Hold} (hinv : (x.flat e).InvAt own) (hu : e.InUse)
    (hs : x.Settled N ev) (hst : x.step N ev = some (.ok y)) :
    ∃ t, Sim N y.puts y.sys.k.d t ∧ (y.flat t = x.flat e ∨ (x.flat e).step N ev = some (.ok (y.flat t))) := by
  cases ev with
  | call p c =>
    refine ⟨e, ?_⟩
    simp only [step, DirSys.step] at hst ⊢
    split at hst
    · rename_i hc
      cases hst
      exact ⟨h, .inr (if_pos hc)⟩
    · cases hst
  | done p =>
    refine ⟨e, ?_⟩
    simp only [step, DirSys.step] at hst ⊢
    split at hst
    · cases hth : x.sys.th p with
      | none =>
        rw [hth] at hst
        cases hst
      | some code =>
        rw [hth] at hst
        cases code with
        | ret r =>
          cases hst
          refine ⟨h, .inr ?_⟩
          rw [show (x.flat e).th p = _ from hth]
          rfl
        | panic msg => cases hst
        | call o f => cases hst
    · cases hst
  | next p env =>
    simp only [step] at hst
    cases hp : x.put p with
    | some i =>
      rw [hp] at hst
      cases hst
      obtain ⟨hpos, hc⟩ := puts_drop hp
      refine ⟨e, ?_, .inl rfl⟩
      rw [hc]
      exact h.drop hpos
    | none =>
      rw [hp] at hst
      cases hth : x.sys.th p with
      | none =>
        rw [hth] at hst
        cases hst
      | some code =>
        rw [hth] at hst
        cases code with
        | ret r => cases hst
        | panic msg => cases hst
        | call o f =>
          change some (Except.map _ (x.sys.k.start N env o)) = _ at hst
          cases hk : x.sys.k.start N env o with
          | error msg =>
            rw [hk] at hst
            cases hst
          | ok z =>
            rw [hk] at hst
            cases hst
            obtain ⟨⟨a, r⟩, k'⟩ := z
            obtain ⟨t, ht, hq⟩ := DirK.start_sim h hinv.acc (hinv.run p _ hth).2 hu (fun i s => hs hp o f i s hth) hk
            refine ⟨t, ?_, .inr ?_⟩
            · rw [puts_start hp]
              exact hq
            · simp only [DirSys.step]
              rw [show (x.flat e).th p = _ from hth]
              simp only [DirSys.next]
              rw [show (x.flat e).k.exec N env o = _ from ht]
              rfl

end PutSys

/-- An image with a root directory, in which each allocated inode has a number below `N` and a link. -/
structure LinkedImage (N : Nat) (node : Inum → Node) : Prop where
  root : (node ROOTINO).type = .dir
  range : ∀ i, (node i).type ≠ .free → i < N
  linked : NoOrphan node

theorem Sim.boot {N : Nat} {s : DirSys} (hI : LinkedImage N s.k.d.node) (hb : s.Booted) : Sim N (fun _ => 0) s.k.d s.k.d where
  node := rfl
  file := rfl
  ref _ := rfl
  valid _ hv := hv
  read i hi _ := by
    rw [hb.eq_root hi, hI.root]
    decide
  range := hI.range
  puts _ hi := absurd hi (Nat.lt_irrefl 0)
  room := by
    have h1 := Dirs.inUse_setRef_le (N := N) (s.k.d.setRef ROOTINO 0) ROOTINO 1
    have h2 : ((s.k.d.setRef ROOTINO 0).setRef ROOTINO 1).inUse N = s.k.d.inUse N := by
      unfold Dirs.inUse
      simp only [Dirs.setRef_ref, Function.update_idem, hb.ref]
    have h3 : (s.k.d.setRef ROOTINO 0).inUse N = 0 := by
      unfold Dirs.inUse
      rw [List.countP_eq_zero]
      intro i _
      simp [hb.ref, Function.update_apply]
    have h4 : 1 ≤ NINODE := by decide
    omega

/-- Without the race each state is one of a run with `iput` in one step, but for the references that are still to be dropped. -/
theorem put_refines {N : Nat} {x : PutSys} (h : ((putLts N (LinkedImage N)).guard (PutSys.Settled N)).Reachable x) :
    ∃ e, (dirLts N (LinkedImage N)).Reachable (x.flat e) ∧ Sim N x.puts x.sys.k.d e := by
  refine Lts.Reachable.invariant (L := (putLts N (LinkedImage N)).guard (PutSys.Settled N))
    (I := fun x => ∃ e, (dirLts N (LinkedImage N)).Reachable (x.flat e) ∧ Sim N x.puts x.sys.k.d e)
    (fun x hx => ?_) (fun x ev y ih hst => ?_) h
  · obtain ⟨hI, hb, hput⟩ := hx
    refine ⟨x.sys.k.d, .of_init ⟨hI, hb⟩, ?_⟩
    rw [show x.puts = fun _ => 0 by funext i; simp [PutSys.puts, hput]]
    exact .boot hI hb
  · obtain ⟨e, hreach, hsim⟩ := ih
    obtain ⟨⟨own, hinv⟩, hu⟩ := dir_any (fun nd hI => hI.linked) hreach
    obtain ⟨t, ht, hstep⟩ := PutSys.step_sim hsim hinv hu hst.1 hst.2
    refine ⟨t, ?_, ht⟩
    obtain heq | hstep := hstep
    · rwa [heq]
    · exact hreach.step hstep

end Xv6
