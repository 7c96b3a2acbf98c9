import Xv6.DirSys

/-!
# What the sections do

Each section of `Dir` is a sequence of the changes below: an inode is locked, a reference is taken or dropped, a directory gets or
loses an entry.  One specification for each section says which, and that `ilock` finds no type only if a free inode is named or
referred to.
-/

namespace Xv6

open Function (update)

namespace Node

/-- The entries that are in use. -/
def live (x : Node) : List Dirent := x.ents.filter fun de => de.inum ≠ 0

theorem mem_live {x : Node} {de : Dirent} : de ∈ x.live ↔ de ∈ x.ents ∧ de.inum ≠ 0 := by simp [live]

/-- `ents` are the entries of `x`, and `de` in an empty one or at the end. -/
def Added (x : Node) (de : Dirent) (ents : List Dirent) : Prop :=
  ents = x.ents ++ [de] ∨ ∃ l₁ e l₂, x.ents = l₁ ++ e :: l₂ ∧ e.inum = 0 ∧ ents = l₁ ++ de :: l₂

/-- No entry has this name. -/
def NoName (x : Node) (name : Name) : Prop := ∀ de ∈ x.live, de.name ≠ name

end Node

namespace Dirs

variable (s : Dirs)

/-- After `ilock`. -/
def lock (i : Inum) : Dirs := s.setValid i true

/-- After `iget`. -/
def got (i : Inum) : Dirs := (if 0 < s.ref i then s else s.setValid i false).setRef i (s.ref i + 1)

/-- The last reference to an inode without links. -/
def Last (i : Inum) : Prop := s.ref i = 1 ∧ s.valid i ∧ (s.node i).nlink = 0

instance (i : Inum) : Decidable (s.Last i) := inferInstanceAs (Decidable (_ ∧ _ ∧ _))

/-- After `iput`. -/
def put (i : Inum) : Dirs :=
  (if s.Last i then (s.setNode i (Dir.freed (s.node i))).setValid i false else s).setRef i (s.ref i - 1)

def addLink (i : Inum) (n : Int) : Dirs := s.setNode i { s.node i with nlink := short ((s.node i).nlink + n) }

def setEnts (dp : Inum) (ents : List Dirent) : Dirs := s.setNode dp { s.node dp with ents }

/-- `ilock` does not panic. -/
def Lockable (i : Inum) : Prop := 0 < s.ref i ∧ (s.valid i = true ∨ (s.node i).type ≠ .free)

/-- A free inode that is referred to or named. -/
def Dangling : Prop :=
  ∃ i, (s.node i).type = .free ∧ (0 < s.ref i ∨ ∃ d, (s.node d).type = .dir ∧ ∃ de ∈ (s.node d).live, de.inum = i)

variable (i j : Inum) (x : Node)

@[simp] theorem setNode_node : (s.setNode i x).node = update s.node i x := rfl
@[simp] theorem setNode_ref : (s.setNode i x).ref = s.ref := rfl
@[simp] theorem setNode_valid : (s.setNode i x).valid = s.valid := rfl
@[simp] theorem setNode_file : (s.setNode i x).file = s.file := rfl
@[simp] theorem setRef_node (n : Nat) : (s.setRef i n).node = s.node := rfl
@[simp] theorem setRef_ref (n : Nat) : (s.setRef i n).ref = update s.ref i n := rfl
@[simp] theorem setRef_valid (n : Nat) : (s.setRef i n).valid = s.valid := rfl
@[simp] theorem setRef_file (n : Nat) : (s.setRef i n).file = s.file := rfl
@[simp] theorem setValid_node (b : Bool) : (s.setValid i b).node = s.node := rfl
@[simp] theorem setValid_ref (b : Bool) : (s.setValid i b).ref = s.ref := rfl
@[simp] theorem setValid_valid (b : Bool) : (s.setValid i b).valid = update s.valid i b := rfl
@[simp] theorem setValid_file (b : Bool) : (s.setValid i b).file = s.file := rfl
@[simp] theorem lock_node : (s.lock i).node = s.node := rfl
@[simp] theorem lock_ref : (s.lock i).ref = s.ref := rfl
@[simp] theorem lock_valid : (s.lock i).valid = update s.valid i true := rfl
@[simp] theorem lock_file : (s.lock i).file = s.file := rfl
@[simp] theorem addLink_ref (n : Int) : (s.addLink i n).ref = s.ref := rfl
@[simp] theorem addLink_valid (n : Int) : (s.addLink i n).valid = s.valid := rfl
@[simp] theorem addLink_file (n : Int) : (s.addLink i n).file = s.file := rfl
@[simp] theorem setEnts_ref (l : List Dirent) : (s.setEnts i l).ref = s.ref := rfl
@[simp] theorem setEnts_valid (l : List Dirent) : (s.setEnts i l).valid = s.valid := rfl
@[simp] theorem setEnts_file (l : List Dirent) : (s.setEnts i l).file = s.file := rfl

@[simp] theorem got_node : (s.got i).node = s.node := by
  unfold got
  split <;> rfl

@[simp] theorem got_ref : (s.got i).ref = update s.ref i (s.ref i + 1) := by
  unfold got
  split <;> rfl

@[simp] theorem got_file : (s.got i).file = s.file := by
  unfold got
  split <;> rfl

theorem got_valid : (s.got i).valid = if 0 < s.ref i then s.valid else update s.valid i false := by
  unfold got
  split <;> rfl

theorem got_valid_of_ne {i j : Inum} (h : j ≠ i) : (s.got i).valid j = s.valid j := by
  rw [got_valid]
  split
  · rfl
  · rw [Function.update_of_ne h]

@[simp] theorem put_ref : (s.put i).ref = update s.ref i (s.ref i - 1) := by
  unfold put
  split <;> rfl

@[simp] theorem put_file : (s.put i).file = s.file := by
  unfold put
  split <;> rfl

theorem put_node : (s.put i).node = if s.Last i then update s.node i (Dir.freed (s.node i)) else s.node := by
  unfold put
  split <;> rfl

theorem put_valid : (s.put i).valid = if s.Last i then update s.valid i false else s.valid := by
  unfold put
  split <;> rfl

/-- `iget` and `iput`: an inode that nobody refers to has to be read again. -/
theorem put_got : (s.got i).put i = if 0 < s.ref i then s else s.setValid i false := by
  have hlast : ¬(s.got i).Last i := by
    rintro ⟨h1, h2, -⟩
    rw [got_ref, Function.update_self] at h1
    rw [got_valid, if_neg (by omega), Function.update_self] at h2
    cases h2
  rw [put, if_neg hlast, got_ref, Function.update_self, Nat.add_sub_cancel]
  unfold got
  split
  · simp [setRef]
  · simp [setRef, setValid]

end Dirs

namespace Dir

variable {N : Nat} {s : Dirs}

/-- A panic of `ilock`, in a state where it can happen. -/
def NoType (s : Dirs) (msg : String) (_ : Dirs) : Prop := msg = "ilock: no type" → s.Dangling

/-- Another panic. -/
def Other (msg : String) (_ : Dirs) : Prop := msg ≠ "ilock: no type"

theorem other {msg : String} (h : msg ≠ "ilock: no type") (t : Dirs) : Other msg t := h

theorem Other.noType {msg : String} {t : Dirs} (h : Other msg t) : NoType s msg t := fun e => absurd e h

theorem NoType.mono {s' : Dirs} (h : s'.Dangling → s.Dangling) {msg : String} {t : Dirs} (hn : NoType s' msg t) : NoType s msg t :=
  fun e => h (hn e)

theorem iget_spec (i : Inum) : wp (iget N i) (fun _ t => t = s.got i) Other s := by
  unfold iget
  simp only [wp_bind, wp_get, wp_ite]
  split
  · rename_i h
    change _ = _
    rw [Dirs.got, if_pos h]
  · rename_i h
    split
    · exact other (by decide) s
    · change _ = _
      rw [Dirs.got, if_neg h, Nat.eq_zero_of_not_pos h]
      rfl

theorem ilock_spec (i : Inum) : wp (ilock i) (fun _ t => s.Lockable i ∧ t = s.lock i) (NoType s) s := by
  unfold ilock
  simp only [wp_bind, wp_get, wp_ite]
  split
  · exact (other (by decide) s).noType
  · rename_i hr
    split
    · rename_i hv
      refine ⟨⟨by omega, .inl hv⟩, ?_⟩
      rw [Dirs.lock, Dirs.setValid, ← hv, Function.update_eq_self]
    · rename_i hv
      split
      · rename_i hf
        exact fun _ => ⟨i, hf, .inl (by omega)⟩
      · exact ⟨⟨by omega, .inr ‹_›⟩, rfl⟩

theorem ilock_typed {i : Inum} (h : (s.node i).type ≠ .free) :
    wp (ilock i) (fun _ t => s.Lockable i ∧ t = s.lock i) Other s := by
  unfold ilock
  simp only [wp_bind, wp_get, wp_ite, if_neg h]
  split
  · exact other (by decide) s
  · rename_i hr
    split
    · rename_i hv
      refine ⟨⟨by omega, .inl hv⟩, ?_⟩
      rw [Dirs.lock, Dirs.setValid, ← hv, Function.update_eq_self]
    · exact ⟨⟨by omega, .inr h⟩, rfl⟩

theorem iput_eq (i : Inum) : iput i = modify fun s => s.put i := by
  unfold iput
  congr 1
  funext s
  unfold Dirs.put
  by_cases hl : s.Last i
  · rw [if_pos hl, if_pos (show s.ref i = 1 ∧ _ from hl)]
    rfl
  · rw [if_neg hl, if_neg (show ¬(s.ref i = 1 ∧ _) from hl)]

theorem iput_spec (i : Inum) {Q : Unit → Dirs → Prop} {E : String → Dirs → Prop} (h : Q () (s.put i)) : wp (iput i) Q E s := by
  rw [iput_eq]
  exact h

theorem iput_put (i : Inum) : wp (iput i) (fun _ t => t = s.put i) (NoType s) s := iput_spec i rfl

theorem idup_spec (i : Inum) : wp (idup i) (fun _ t => t = s.setRef i (s.ref i + 1)) (NoType s) s := rfl

theorem findEnt_none {x : Node} {name : Name} (h : x.findEnt name = none) : x.NoName name := by
  intro de hde hn
  obtain ⟨hde, hi⟩ := Node.mem_live.1 hde
  have := List.findIdx?_eq_none_iff.1 h de hde
  simp [hn, hi] at this

theorem findEnt_some {x : Node} {name : Name} {k : Nat} (h : x.findEnt name = some k) :
    ∃ l₁ i l₂, x.ents = l₁ ++ ⟨i, name⟩ :: l₂ ∧ l₁.length = k ∧ i ≠ 0 := by
  obtain ⟨hk, hp, -⟩ := List.findIdx?_eq_some_iff_getElem.1 h
  simp only [ne_eq, decide_not, Bool.and_eq_true, Bool.not_eq_true', decide_eq_false_iff_not, decide_eq_true_eq] at hp
  refine ⟨x.ents.take k, x.ents[k].inum, x.ents.drop (k + 1), ?_, ?_, hp.1⟩
  · rw [← hp.2]
    exact (List.take_append_drop k x.ents).symm.trans (by rw [List.drop_eq_getElem_cons hk])
  · rw [List.length_take]
    omega

/-- The entry ⟨i, name⟩ is in use, after the entries `l₁`. -/
def Found (x : Node) (name : Name) (k : Nat) (i : Inum) : Prop := ∃ l₁ l₂, x.ents = l₁ ++ ⟨i, name⟩ :: l₂ ∧ l₁.length = k ∧ i ≠ 0

theorem Found.mem {x : Node} {name : Name} {k : Nat} {i : Inum} (h : Found x name k i) : ⟨i, name⟩ ∈ x.live := by
  obtain ⟨l₁, l₂, he, -, hi⟩ := h
  exact Node.mem_live.2 ⟨by simp [he], hi⟩

theorem dirlookup_spec (dp : Inum) (name : Name) :
    wp (dirlookup N dp name)
      (fun r t => (s.node dp).type = .dir ∧ match r with
        | none => t = s ∧ (s.node dp).NoName name
        | some (k, i) => t = s.got i ∧ Found (s.node dp) name k i)
      Other s := by
  unfold dirlookup
  simp only [wp_bind, wp_get, wp_ite]
  split
  · exact other (by decide) s
  · rename_i hd
    have hd : (s.node dp).type = .dir := by simpa using hd
    cases hf : (s.node dp).findEnt name with
    | none => exact ⟨hd, rfl, findEnt_none hf⟩
    | some k =>
      obtain ⟨l₁, i, l₂, he, hk, hi⟩ := findEnt_some hf
      have hget : ((s.node dp).ents.getD k ⟨0, []⟩).inum = i := by simp [he, ← hk]
      simp only [hget, wp_bind]
      exact wp_mono (iget_spec i) (fun _ t ht => ⟨hd, ht, l₁, l₂, he, hk, hi⟩) fun _ _ h => h

theorem putEnt_spec {dp : Inum} {de : Dirent} {grow : Bool} :
    wp (putEnt dp (s.node dp).emptyEnt de grow)
      (fun r t => if r then ∃ ents, (s.node dp).Added de ents ∧ t = s.setEnts dp ents else t = s) Other s := by
  unfold putEnt
  simp only [wp_bind, wp_get, wp_ite]
  split
  · rename_i hk
    have he : ((s.node dp).ents[(s.node dp).emptyEnt]).inum = 0 := of_decide_eq_true (List.findIdx_getElem (w := hk))
    refine ⟨_, .inr ⟨(s.node dp).ents.take (s.node dp).emptyEnt, _, (s.node dp).ents.drop ((s.node dp).emptyEnt + 1), ?_, he, rfl⟩, ?_⟩
    · exact (List.take_append_drop _ _).symm.trans (by rw [List.drop_eq_getElem_cons hk])
    · rw [Dirs.setEnts, List.set_eq_take_append_cons_drop, if_pos hk]
  · split
    · rfl
    · split
      · rfl
      · exact ⟨_, .inl rfl, rfl⟩

theorem putEnt_found {dp : Inum} {l₁ l₂ : List Dirent} {e de : Dirent} (h : (s.node dp).ents = l₁ ++ e :: l₂)
    {E : String → Dirs → Prop} :
    wp (putEnt dp l₁.length de true) (fun r t => r = true ∧ t = s.setEnts dp (l₁ ++ de :: l₂)) E s := by
  unfold putEnt
  simp only [wp_bind, wp_get, wp_ite]
  rw [if_pos (by simp [h])]
  refine ⟨rfl, ?_⟩
  simp [Dirs.setEnts, h]

/-- Nothing but whether an inode without references has been read. -/
def Touched (s t : Dirs) : Prop := t = s ∨ ∃ j, s.ref j = 0 ∧ t = s.setValid j false

theorem Touched.node {s t : Dirs} (h : Touched s t) : t.node = s.node := by
  obtain rfl | ⟨j, -, rfl⟩ := h <;> rfl

theorem Touched.ref {s t : Dirs} (h : Touched s t) : t.ref = s.ref := by
  obtain rfl | ⟨j, -, rfl⟩ := h <;> rfl

theorem Touched.file {s t : Dirs} (h : Touched s t) : t.file = s.file := by
  obtain rfl | ⟨j, -, rfl⟩ := h <;> rfl

theorem touched_got (s : Dirs) (i : Inum) : Touched s ((s.got i).put i) := by
  rw [Dirs.put_got]
  split
  · exact .inl rfl
  · exact .inr ⟨i, by omega, rfl⟩

theorem dirlink_spec (dp : Inum) (name : Name) (inum : Inum) (grow : Bool) :
    wp (dirlink N dp name inum grow)
      (fun r t => (s.node dp).type = .dir ∧
        if r then (s.node dp).NoName name ∧ ∃ ents, (s.node dp).Added ⟨inum, name⟩ ents ∧ t = s.setEnts dp ents
        else Touched s t ∧ ((s.node dp).NoName name → t = s)) Other s := by
  unfold dirlink
  rw [wp_bind]
  refine wp_mono (dirlookup_spec dp name) (fun r t ht => ?_) fun _ _ h => h
  obtain ⟨hd, ht⟩ := ht
  cases r with
  | none =>
    obtain ⟨rfl, hn⟩ := ht
    rw [wp_bind, wp_get]
    refine wp_mono putEnt_spec (fun r t ht => ⟨hd, ?_⟩) fun _ _ h => h
    cases r with
    | false => exact ⟨.inl ht, fun _ => ht⟩
    | true => exact ⟨hn, ht⟩
  | some p =>
    obtain ⟨k, i⟩ := p
    obtain ⟨rfl, hf⟩ := ht
    rw [wp_bind]
    refine iput_spec i ⟨hd, touched_got s i, fun hn => absurd rfl (hn _ hf.mem)⟩

theorem lookup_spec (dp : Inum) (name : Name) :
    wp (lookup N dp name)
      (fun r t => s.Lockable dp ∧ match r with
        | .found i => t = (s.lock dp).got i ∧ (s.node dp).type = .dir ∧ ∃ de ∈ (s.node dp).live, de.inum = i
        | _ => t = s.lock dp) (NoType s) s := by
  unfold lookup
  rw [wp_bind]
  refine wp_mono (ilock_spec dp) (fun _ t ht => ?_) fun _ _ h => h
  obtain ⟨hl, rfl⟩ := ht
  simp only [wp_bind, wp_get, wp_ite]
  split
  · exact ⟨hl, rfl⟩
  · refine wp_mono (dirlookup_spec dp name) (fun r t ht => ?_) fun _ _ => Other.noType
    obtain ⟨hd, ht⟩ := ht
    cases r with
    | none => exact ⟨hl, ht.1⟩
    | some p => exact ⟨hl, ht.1, hd, _, ht.2.mem, rfl⟩

theorem stat_spec (i : Inum) :
    wp (stat i) (fun r t => s.Lockable i ∧ t = s.lock i ∧ r = ((s.node i).type, (s.node i).major)) (NoType s) s := by
  unfold stat
  rw [wp_bind]
  refine wp_mono (ilock_spec i) (fun _ t ht => ?_) fun _ _ h => h
  obtain ⟨hl, rfl⟩ := ht
  exact ⟨hl, rfl, rfl⟩

theorem linkUp_spec (i : Inum) :
    wp (linkUp i)
      (fun r t => s.Lockable i ∧
        if r then (s.node i).type ≠ .dir ∧ t = (s.lock i).addLink i 1 else (s.node i).type = .dir ∧ t = s.lock i)
      (NoType s) s := by
  unfold linkUp
  rw [wp_bind]
  refine wp_mono (ilock_spec i) (fun _ t ht => ?_) fun _ _ h => h
  obtain ⟨hl, rfl⟩ := ht
  simp only [wp_bind, wp_get, wp_ite]
  split
  · exact ⟨hl, ‹_›, rfl⟩
  · exact ⟨hl, ‹_›, rfl⟩

theorem linkDown_spec (i : Inum) :
    wp (linkDown i) (fun _ t => s.Lockable i ∧ t = (s.lock i).addLink i (-1)) (NoType s) s := by
  unfold linkDown
  rw [wp_bind]
  refine wp_mono (ilock_spec i) (fun _ t ht => ?_) fun _ _ h => h
  obtain ⟨hl, rfl⟩ := ht
  exact ⟨hl, rfl⟩

theorem linkIn_spec (dp : Inum) (name : Name) (i : Inum) (grow : Bool) :
    wp (linkIn N dp name i grow)
      (fun r t => s.Lockable dp ∧ (s.node dp).type = .dir ∧
        if r then (s.node dp).NoName name ∧ ∃ ents, (s.node dp).Added ⟨i, name⟩ ents ∧ t = (s.lock dp).setEnts dp ents
        else Touched (s.lock dp) t) (NoType s) s := by
  unfold linkIn
  rw [wp_bind]
  refine wp_mono (ilock_spec dp) (fun _ t ht => ?_) fun _ _ h => h
  obtain ⟨hl, rfl⟩ := ht
  refine wp_mono (dirlink_spec dp name i grow) (fun r t ht => ⟨hl, ht.1, ?_⟩) fun _ _ => Other.noType
  cases r with
  | false => exact ht.2.1
  | true => exact ht.2

/-- What `unlinkIn` leaves after it has removed the entry of `i`. -/
def unlinked (s : Dirs) (dp i : Inum) (ents : List Dirent) : Dirs :=
  let u := (((s.lock dp).got i).lock i).setEnts dp ents
  (if (s.node i).type = .dir then u.addLink dp (-1) else u).addLink i (-1)

@[simp] theorem unlinked_file (s : Dirs) (dp i : Inum) (ents : List Dirent) : (unlinked s dp i ents).file = s.file := by
  unfold unlinked
  dsimp only
  split <;> simp

@[simp] theorem unlinked_ref (s : Dirs) (dp i : Inum) (ents : List Dirent) :
    (unlinked s dp i ents).ref = update s.ref i (s.ref i + 1) := by
  unfold unlinked
  dsimp only
  split <;> simp

theorem unlinked_node {s : Dirs} {dp i : Inum} (h : i ≠ dp) (ents : List Dirent) :
    (unlinked s dp i ents).node =
      update (update s.node dp { s.node dp with
        ents, nlink := if (s.node i).type = .dir then short ((s.node dp).nlink - 1) else (s.node dp).nlink })
        i { s.node i with nlink := short ((s.node i).nlink - 1) } := by
  unfold unlinked
  dsimp only
  split <;> simp [Dirs.addLink, Dirs.setEnts, Function.update_of_ne h, sub_eq_add_neg]

theorem unlinkIn_spec (dp : Inum) (name : Name) :
    wp (unlinkIn N dp name)
      (fun r t => s.Lockable dp ∧ match r with
        | .bad => t = s.lock dp
        | .busy i => t = ((s.lock dp).got i).lock i ∧ (s.node dp).type = .dir ∧ (∃ de ∈ (s.node dp).live, de.inum = i) ∧
          ((s.lock dp).got i).Lockable i
        | .done i => (s.node dp).type = .dir ∧ name ≠ dot ∧ name ≠ dotdot ∧ 1 ≤ (s.node i).nlink ∧
          ((s.node i).type = .dir → (s.node i).isEmpty) ∧ i ≠ 0 ∧ ((s.lock dp).got i).Lockable i ∧
          ∃ l₁ l₂, (s.node dp).ents = l₁ ++ ⟨i, name⟩ :: l₂ ∧ t = unlinked s dp i (l₁ ++ ⟨0, []⟩ :: l₂)) (NoType s) s := by
  unfold unlinkIn
  rw [wp_bind]
  refine wp_mono (ilock_spec dp) (fun _ t ht => ?_) fun _ _ h => h
  obtain ⟨hl, rfl⟩ := ht
  rw [wp_ite]
  split
  · exact ⟨hl, rfl⟩
  rename_i hname
  rw [wp_bind]
  refine wp_mono (dirlookup_spec dp name) (fun r t ht => ?_) fun _ _ => Other.noType
  obtain ⟨hd, ht⟩ := ht
  cases r with
  | none => exact ⟨hl, ht.1⟩
  | some p =>
    obtain ⟨k, i⟩ := p
    obtain ⟨rfl, hf⟩ := ht
    rw [wp_bind]
    refine wp_mono (ilock_spec i) (fun _ t ht => ?_) fun msg t h => ?_
    · obtain ⟨hli, rfl⟩ := ht
      simp only [wp_bind, wp_get, wp_ite, Dirs.lock_node, Dirs.got_node]
      split
      · exact (other (by decide) s).noType
      rename_i hnl
      split
      · exact ⟨hl, rfl, hd, ⟨_, hf.mem, rfl⟩, hli⟩
      rename_i hemp
      obtain ⟨l₁, l₂, he, rfl, hi⟩ := hf
      have he' : ((((s.lock dp).got i).lock i).node dp).ents = l₁ ++ ⟨i, name⟩ :: l₂ := by simpa using he
      refine wp_mono (putEnt_found he') (fun r t ht => ?_) fun _ _ h => h
      obtain ⟨rfl, rfl⟩ := ht
      have hspec : ∀ t, t = unlinked s dp i (l₁ ++ ⟨0, []⟩ :: l₂) → s.Lockable dp ∧ (s.node dp).type = .dir ∧ name ≠ dot ∧
          name ≠ dotdot ∧ 1 ≤ (s.node i).nlink ∧ ((s.node i).type = .dir → (s.node i).isEmpty) ∧ i ≠ 0 ∧
          ((s.lock dp).got i).Lockable i ∧ ∃ l₁ l₂, (s.node dp).ents = l₁ ++ ⟨i, name⟩ :: l₂ ∧
            t = unlinked s dp i (l₁ ++ ⟨0, []⟩ :: l₂) := by
        intro t ht
        refine ⟨hl, hd, fun h => hname (.inl h), fun h => hname (.inr h), by omega, fun hty => ?_, hi, hli, l₁, l₂, he, ht⟩
        simpa [hty] using hemp
      simp only [Bool.not_true, Bool.false_eq_true, if_false, wp_pure]
      split
      · rename_i hty
        refine hspec _ ?_
        rw [unlinked, if_pos hty]
        rfl
      · rename_i hty
        refine hspec _ ?_
        rw [unlinked, if_neg hty]
        rfl
    · refine NoType.mono (fun hdang => ?_) h
      obtain ⟨j, hj, hr⟩ := hdang
      simp only [Dirs.got_node, Dirs.lock_node, Dirs.got_ref, Dirs.lock_ref] at hj hr
      refine ⟨j, hj, ?_⟩
      by_cases hji : j = i
      · subst hji
        exact .inr ⟨dp, hd, _, hf.mem, rfl⟩
      · rwa [Function.update_of_ne hji] at hr

theorem ialloc_spec (type : Ftype) :
    wp (ialloc N type)
      (fun r t => match r with
        | none => t = s
        | some i => (s.node i).type = .free ∧ i ≠ 0 ∧ i < N ∧ t = (s.setNode i { type }).got i) Other s := by
  unfold ialloc
  rw [wp_bind, wp_get]
  cases hf : (List.range N).find? fun i => i ≠ 0 && (s.node i).type = .free with
  | none =>
    rw [hf]
    rfl
  | some i =>
    have hi := List.find?_some hf
    have hm := List.mem_of_find?_eq_some hf
    simp only [ne_eq, decide_not, Bool.and_eq_true, Bool.not_eq_true', decide_eq_false_iff_not, decide_eq_true_eq] at hi
    rw [hf]
    change wp (do iget N i; pure (some i)) _ _ (s.setNode i { type })
    rw [wp_bind]
    exact wp_mono (iget_spec i) (fun _ t ht => ⟨hi.2, hi.1, List.mem_range.1 hm, ht⟩) fun _ _ h => h

/-- `create` has made the inode `i`, with contents `x`. -/
def born (s : Dirs) (dp i : Inum) (x : Node) : Dirs := (((s.lock dp).setNode i x).setRef i (s.ref i + 1)).lock i

/-- An inode that `create` makes in `dp`. -/
def newNode (dp i : Inum) (type : Ftype) (major minor : Int) : Node :=
  { type, major := short major, minor := short minor, nlink := 1, ents := if type = .dir then [⟨i, dot⟩, ⟨dp, dotdot⟩] else [] }

/-- What `createIn` leaves after it has made `i`. -/
def made (s : Dirs) (dp i : Inum) (x : Node) (ents : List Dirent) : Dirs :=
  if x.type = .dir then ((born s dp i x).setEnts dp ents).addLink dp 1 else (born s dp i x).setEnts dp ents

/-- What `createIn` has put into `i` when it fails. -/
structure Scrapped (dp i : Inum) (type : Ftype) (x : Node) : Prop where
  type : x.type = type
  nlink : x.nlink = 0
  ents : x.ents <+: [⟨i, dot⟩, ⟨dp, dotdot⟩]

theorem born_setNode {s : Dirs} {dp i : Inum} {x : Node} (y : Node) : (born s dp i x).setNode i y = born s dp i y := by
  simp [born, Dirs.setNode, Dirs.setRef, Dirs.lock, Dirs.setValid]

theorem lock_got {s : Dirs} {dp i : Inum} {x : Node} : ((((s.lock dp).setNode i x).got i).lock i) = born s dp i x := by
  unfold Dirs.got born
  split
  · rfl
  · simp [Dirs.setNode, Dirs.setRef, Dirs.lock, Dirs.setValid]

@[simp] theorem born_node {s : Dirs} {dp i : Inum} {x : Node} : (born s dp i x).node = update s.node i x := rfl

@[simp] theorem made_file (s : Dirs) (dp i : Inum) (x : Node) (ents : List Dirent) : (made s dp i x ents).file = s.file := by
  unfold made
  split <;> rfl

@[simp] theorem made_ref (s : Dirs) (dp i : Inum) (x : Node) (ents : List Dirent) :
    (made s dp i x ents).ref = update s.ref i (s.ref i + 1) := by
  unfold made
  split <;> rfl

theorem made_node {s : Dirs} {dp i : Inum} (h : i ≠ dp) (x : Node) (ents : List Dirent) :
    (made s dp i x ents).node =
      update (update s.node i x) dp { s.node dp with
        ents, nlink := if x.type = .dir then short ((s.node dp).nlink + 1) else (s.node dp).nlink } := by
  unfold made
  split <;> simp [Dirs.addLink, Dirs.setEnts, Function.update_of_ne h.symm]

theorem added_nil {x : Node} {de : Dirent} {ents : List Dirent} (hx : ∀ e ∈ x.ents, e.inum ≠ 0) (h : x.Added de ents) :
    ents = x.ents ++ [de] := by
  obtain h | ⟨l₁, e, l₂, he, hi, -⟩ := h
  · exact h
  · exact absurd hi (hx e (by simp [he]))

/-- What `createIn` leaves. -/
def Created (N : Nat) (s : Dirs) (dp : Inum) (name : Name) (type : Ftype) (major minor : Int) : Create → Dirs → Prop
  | .old i, t => t = (s.lock dp).got i ∧ ∃ de ∈ (s.node dp).live, de.inum = i
  | .failed, t => t = s.lock dp ∨
    ∃ i x, (s.node i).type = .free ∧ i ≠ 0 ∧ i < N ∧ Scrapped dp i type x ∧ t = (born s dp i x).put i
  | .made i, t => (s.node i).type = .free ∧ i ≠ 0 ∧ i < N ∧ (s.node dp).NoName name ∧
    ∃ ents, (s.node dp).Added ⟨i, name⟩ ents ∧ t = made s dp i (newNode dp i type major minor) ents

/-- What `createTry` leaves. -/
def Tried (N : Nat) (s : Dirs) (dp : Inum) (name : Name) (type : Ftype) (major minor : Int) : Except Inum Create → Dirs → Prop
  | .ok r, t => Created N s dp name type major minor r t
  | .error i, t => ∃ x, (s.node i).type = .free ∧ i ≠ 0 ∧ i < N ∧ Scrapped dp i type x ∧ t = born s dp i x

theorem createTry_spec (dp : Inum) (name : Name) {type : Ftype} (hty : type ≠ .free) (major minor : Int) (grow : Bool × Bool) :
    wp (createTry N dp name type major minor grow)
      (fun r t => s.Lockable dp ∧ (s.node dp).type = .dir ∧ Tried N s dp name type major minor r t) (NoType s) s := by
  unfold createTry
  rw [wp_bind]
  refine wp_mono (ilock_spec dp) (fun _ t ht => ?_) fun _ _ h => h
  obtain ⟨hl, rfl⟩ := ht
  rw [wp_bind]
  refine wp_mono (dirlookup_spec dp name) (fun r t ht => ?_) fun _ _ => Other.noType
  obtain ⟨hd, ht⟩ := ht
  refine wp_mono (Q := Tried N s dp name type major minor) (E := NoType s) ?_ (fun _ _ h => ⟨hl, hd, h⟩) fun _ _ h => h
  cases r with
  | some p => exact ⟨ht.1, _, ht.2.mem, rfl⟩
  | none =>
    obtain ⟨rfl, hn⟩ := ht
    simp only [wp_bind]
    refine wp_mono (ialloc_spec type) (fun r t ht => ?_) fun _ _ => Other.noType
    cases r with
    | none => exact .inl ht
    | some i =>
      obtain ⟨hfree, hi, hiN, rfl⟩ := ht
      have hdi : dp ≠ i := by
        rintro rfl
        rw [hfree] at hd
        cases hd
      -- the label `fail`
      have hfail : ∀ x : Node, x.type = type → x.ents <+: [⟨i, dot⟩, ⟨dp, dotdot⟩] →
          wp (do modify fun s => s.setNode i { s.node i with nlink := 0 }; return Except.error i)
            (Tried N s dp name type major minor) (NoType s) (born s dp i x) := by
        intro x h1 h2
        rw [wp_bind, wp_modify]
        simp only [born_setNode, born_node, Function.update_self]
        exact ⟨{ x with nlink := 0 }, hfree, hi, hiN, ⟨h1, rfl, h2⟩, rfl⟩
      have hlink : wp (do
            if ← dirlink N dp name i grow.2 then
              if type = .dir then addLink dp 1
              return Except.ok (Create.made i)
            else
              modify fun s => s.setNode i { s.node i with nlink := 0 }
              return Except.error i)
          (Tried N s dp name type major minor) (NoType s) (born s dp i (newNode dp i type major minor)) := by
        rw [wp_bind]
        refine wp_mono (dirlink_spec dp name i grow.2) (fun ok t ht => ?_) fun _ _ => Other.noType
        simp only [born_node, Function.update_of_ne hdi] at ht
        obtain ⟨-, ht⟩ := ht
        cases ok with
        | false =>
          obtain rfl := ht.2 hn
          refine hfail _ rfl ?_
          unfold newNode
          split
          · exact List.prefix_rfl
          · exact List.nil_prefix
        | true =>
          obtain ⟨-, ents, hadd, rfl⟩ := ht
          simp only [if_true, wp_bind, wp_pure, wp_ite]
          split
          · refine ⟨hfree, hi, hiN, hn, ents, hadd, ?_⟩
            rw [made, if_pos ‹_›]
            rfl
          · refine ⟨hfree, hi, hiN, hn, ents, hadd, ?_⟩
            rw [made, if_neg ‹_›]
      simp only [wp_bind]
      refine wp_mono (ilock_typed (by simpa using hty)) (fun _ t ht => ?_) fun _ _ => Other.noType
      obtain ⟨-, rfl⟩ := ht
      rw [wp_modify]
      simp only [lock_got, born_setNode, born_node, Function.update_self]
      by_cases hdir : type = .dir
      · rw [if_pos hdir, wp_bind]
        refine wp_mono (dirlink_spec i dot i grow.1) (fun r t ht => ?_) fun _ _ => Other.noType
        simp only [born_node, Function.update_self] at ht
        obtain ⟨-, ht⟩ := ht
        cases r with
        | false =>
          obtain rfl := ht.2 (by simp [Node.NoName, Node.live])
          exact hfail _ rfl List.nil_prefix
        | true =>
          obtain ⟨-, ents, hadd, rfl⟩ := ht
          rw [added_nil (by simp) hadd, Dirs.setEnts, born_setNode]
          simp only [born_node, Function.update_self, List.nil_append, if_true, wp_bind]
          refine wp_mono (dirlink_spec i dotdot dp grow.1) (fun r t ht => ?_) fun _ _ => Other.noType
          simp only [born_node, Function.update_self] at ht
          obtain ⟨-, ht⟩ := ht
          cases r with
          | false =>
            obtain rfl := ht.2 (by simp [Node.NoName, Node.live, hi, dot, dotdot])
            exact hfail _ rfl ⟨[⟨dp, dotdot⟩], rfl⟩
          | true =>
            obtain ⟨-, ents, hadd, rfl⟩ := ht
            rw [added_nil (by simp [hi]) hadd, Dirs.setEnts, born_setNode]
            have hnew : newNode dp i type major minor =
                { type, major := short major, minor := short minor, nlink := 1, ents := [⟨i, dot⟩, ⟨dp, dotdot⟩] } := by
              rw [newNode, if_pos hdir]
            rw [hnew] at hlink
            simp only [born_node, Function.update_self, if_true]
            exact hlink
      · rw [if_neg hdir]
        have hnew : newNode dp i type major minor = { type, major := short major, minor := short minor, nlink := 1 } := by
          rw [newNode, if_neg hdir]
        rw [hnew] at hlink
        exact hlink

theorem createIn_spec (dp : Inum) (name : Name) {type : Ftype} (hty : type ≠ .free) (major minor : Int) (grow : Bool × Bool) :
    wp (createIn N dp name type major minor grow)
      (fun r t => s.Lockable dp ∧ (s.node dp).type = .dir ∧ Created N s dp name type major minor r t) (NoType s) s := by
  unfold createIn
  rw [wp_bind]
  refine wp_mono (createTry_spec dp name hty major minor grow) (fun r t ht => ?_) fun _ _ h => h
  obtain ⟨hl, hd, ht⟩ := ht
  cases r with
  | ok r => exact ⟨hl, hd, ht⟩
  | error i =>
    obtain ⟨x, hf, hi, hN, hx, rfl⟩ := ht
    rw [wp_bind]
    exact iput_spec i ⟨hl, hd, .inr ⟨i, x, hf, hi, hN, hx, rfl⟩⟩

/-- The inode of an open file is locked, and its data changes. -/
theorem fileLock_spec (f : Fin NFILE) (g : List UInt8 → List UInt8) :
    wp (fileLock f g)
      (fun _ t => ∃ i, (s.file f).ip = some i ∧ s.Lockable i ∧
        t = (s.lock i).setNode i { s.node i with data := g (s.node i).data }) (NoType s) s := by
  unfold fileLock
  rw [wp_bind, wp_get]
  cases hf : (s.file f).ip with
  | none =>
    simp only [hf]
    exact (other (by decide) s).noType
  | some i =>
    simp only [hf, wp_bind]
    refine wp_mono (ilock_spec i) (fun _ t ht => ?_) fun _ _ h => h
    obtain ⟨hl, rfl⟩ := ht
    exact ⟨i, rfl, hl, rfl⟩

theorem filealloc_spec {E : String → Dirs → Prop} :
    wp filealloc
      (fun r t => match r with
        | none => t = s
        | some f => (s.file f).ref = 0 ∧ t = s.setFile f { s.file f with ref := 1 }) E s := by
  unfold filealloc
  rw [wp_bind, wp_get]
  cases hf : (List.finRange NFILE).find? fun f => (s.file f).ref = 0 with
  | none =>
    rw [hf]
    rfl
  | some f =>
    rw [hf]
    have := List.find?_some hf
    exact ⟨by simpa using this, rfl⟩

theorem filedup_spec (f : Fin NFILE) :
    wp (filedup f) (fun _ t => 1 ≤ (s.file f).ref ∧ t = s.setFile f { s.file f with ref := (s.file f).ref + 1 }) Other s := by
  unfold filedup
  simp only [wp_bind, wp_get, wp_ite]
  split
  · exact other (by decide) s
  · exact ⟨by omega, rfl⟩

theorem fileput_spec (f : Fin NFILE) :
    wp (fileput f)
      (fun r t => (1 < (s.file f).ref ∧ r = none ∧ t = s.setFile f { s.file f with ref := (s.file f).ref - 1 }) ∨
        ((s.file f).ref = 1 ∧ r = (s.file f).ip ∧ t = s.setFile f {})) Other s := by
  unfold fileput
  simp only [wp_bind, wp_get, wp_ite]
  split
  · exact other (by decide) s
  · split
    · exact .inl ⟨by omega, rfl, rfl⟩
    · exact .inr ⟨by omega, rfl, rfl⟩

end Dir

end Xv6
