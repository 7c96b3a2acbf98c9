import Xv6.DirShape

/-!
# Entries of free inodes

An entry names an allocated inode, as long as a directory that another one has as `..` keeps a link.  A removed directory that is still
in use has its parent as `..`, but does not count as a link of it; when the parent is removed too, its inode is freed.
-/

namespace Xv6

open Function (update)

/-- Every entry of a directory names an allocated inode. -/
def NoDangling (nd : Inum → Node) : Prop := ∀ d, (nd d).type = .dir → ∀ de ∈ (nd d).live, (nd de.inum).type ≠ .free

/-- The first two entries of `d` are `.` and `..`, and `..` names `p`. -/
def Up (x : Node) (d p : Inum) : Prop := ∃ rest, x.ents = ⟨d, Dir.dot⟩ :: ⟨p, Dir.dotdot⟩ :: rest

/-- Every directory has a directory with a link as `..`. -/
def Parents (nd : Inum → Node) : Prop :=
  ∀ d, (nd d).type = .dir → ∃ p, Up (nd d) d p ∧ (nd p).type = .dir ∧ 0 < (nd p).nlink

/-- No link count overflows; and an empty directory is removed only if the directory that it was in keeps a link, and no other directory
has it as `..`. -/
def keepsParents : DirCond := fun nd o => noOverflow nd o ∧
  match o with
  | .unlinkIn dp name => Node.Plain name → ∀ i, ⟨i, name⟩ ∈ (nd dp).live → (nd i).type = .dir → (nd i).isEmpty →
    1 < (nd dp).nlink ∧ ∀ e ≠ i, (nd e).type = .dir → ⟨i, Dir.dotdot⟩ ∉ (nd e).live
  | _ => True

section dangle

variable {N : Nat} {nd nd' : Inum → Node} {L : Links} {i d dp p : Inum} {x : Node}

/-- The names are different, so there is no other `.` or `..`. -/
theorem Up.entry (h : Up x d p) (hd : d ≠ 0) (hp : p ≠ 0) (hn : (x.live.map Dirent.name).Nodup) {de : Dirent} (hde : de ∈ x.live) :
    Node.Plain de.name ∨ de = ⟨d, Dir.dot⟩ ∨ de = ⟨p, Dir.dotdot⟩ := by
  obtain ⟨rest, he⟩ := h
  have hlive : x.live = ⟨d, Dir.dot⟩ :: ⟨p, Dir.dotdot⟩ :: rest.filter fun de => de.inum ≠ 0 := by
    unfold Node.live
    simp [he, hd, hp]
  rw [hlive, List.map_cons, List.map_cons, List.nodup_cons, List.nodup_cons] at hn
  rw [hlive] at hde
  obtain rfl | hde := List.mem_cons.1 hde
  · exact .inr (.inl rfl)
  obtain rfl | hde := List.mem_cons.1 hde
  · exact .inr (.inr rfl)
  have hm := List.mem_map_of_mem (f := Dirent.name) hde
  refine .inl ⟨fun hc => hn.1 ?_, fun hc => hn.2.1 ?_⟩
  · rw [← hc]
    exact List.mem_cons_of_mem _ hm
  · rwa [← hc]

theorem Tree.noDangling (h : Tree N nd L) (hp : Parents nd) : NoDangling nd := by
  intro d hd de hde
  obtain ⟨p, hu, hpt, -⟩ := hp d hd
  have hd0 := (h.range d (by rw [hd]; decide)).1
  have hp0 := (h.range p (by rw [hpt]; decide)).1
  obtain hpl | rfl | rfl := hu.entry hd0 hp0 (h.names d hd) hde
  · exact h.kid_ne_free (Node.mem_kids.2 ⟨hd, de, hde, hpl, rfl⟩)
  · rw [hd]
    decide
  · rw [hpt]
    decide

namespace Parents

/-- Directories keep `.` and `..`, and what `..` names keeps a link. -/
theorem of_le (h : Parents nd)
    (hd : ∀ d, (nd' d).type = .dir → (nd d).type = .dir ∧ ∀ p, (nd p).type = .dir → 0 < (nd p).nlink → Up (nd d) d p →
      Up (nd' d) d p ∧ (nd' p).type = .dir ∧ 0 < (nd' p).nlink) : Parents nd' := by
  intro d hdd
  obtain ⟨p, hu, h1, h2⟩ := h d (hd d hdd).1
  exact ⟨p, (hd d hdd).2 p h1 h2 hu⟩

/-- No directory has `i` as `..`. -/
theorem setNode (h : Parents nd) (hx : x.type = .dir → (nd i).type = .dir ∧ x.ents = (nd i).ents)
    (hi : ∀ d p, (nd d).type = .dir → (nd p).type = .dir → 0 < (nd p).nlink → Up (nd d) d p → p ≠ i) : Parents (update nd i x) := by
  refine h.of_le fun d hd => ?_
  by_cases hdi : d = i
  · subst hdi
    rw [Function.update_self] at hd ⊢
    obtain ⟨h1, h2⟩ := hx hd
    refine ⟨h1, fun p hp hn hu => ?_⟩
    rw [Function.update_of_ne (hi d p h1 hp hn hu)]
    exact ⟨⟨hu.choose, h2.trans hu.choose_spec⟩, hp, hn⟩
  · rw [Function.update_of_ne hdi] at hd ⊢
    refine ⟨hd, fun p hp hn hu => ?_⟩
    rw [Function.update_of_ne (hi d p hd hp hn hu)]
    exact ⟨hu, hp, hn⟩

theorem freed (h : Parents nd) (hn : (nd i).nlink = 0 ∨ (nd i).type = .free) (x : Node) : Parents (update nd i (Dir.freed x)) := by
  refine h.setNode (fun hd => by cases hd) fun d p _ h1 h2 _ => ?_
  rintro rfl
  obtain hn | hn := hn
  · omega
  · rw [h1] at hn
    cases hn

/-- An inode that is not a directory changes. -/
theorem setFile (h : Parents nd) (hi : (nd i).type ≠ .dir) (hx : x.type ≠ .dir) : Parents (update nd i x) := by
  refine h.setNode (fun hd => absurd hd hx) fun d p _ h1 _ _ => ?_
  rintro rfl
  exact hi h1

/-- A directory changes, but not its first two entries, and keeps a link. -/
theorem setDir (h : Parents nd) (hd : (nd dp).type = .dir) (hx : x.type = .dir)
    (hu : ∀ p, (nd p).type = .dir → Up (nd dp) dp p → Up x dp p) (hn : 0 < (nd dp).nlink → 0 < x.nlink) : Parents (update nd dp x) := by
  refine h.of_le fun d hdd => ?_
  have hkeep : ∀ p, (nd p).type = .dir → 0 < (nd p).nlink → (update nd dp x p).type = .dir ∧ 0 < (update nd dp x p).nlink := by
    intro p hp h2
    by_cases hpd : p = dp
    · subst hpd
      rw [Function.update_self]
      exact ⟨hx, hn h2⟩
    · rw [Function.update_of_ne hpd]
      exact ⟨hp, h2⟩
  by_cases hddp : d = dp
  · subst hddp
    rw [Function.update_self]
    exact ⟨hd, fun p hp h2 hup => ⟨hu p hp hup, hkeep p hp h2⟩⟩
  · rw [Function.update_of_ne hddp] at hdd ⊢
    exact ⟨hdd, fun p hp h2 hup => ⟨hup, hkeep p hp h2⟩⟩

/-- What does not matter changes. -/
theorem of_same (h : Parents nd) (heq : ∀ j, (nd' j).type = (nd j).type ∧ (nd' j).ents = (nd j).ents ∧ (nd' j).nlink = (nd j).nlink) :
    Parents nd' := by
  refine h.of_le fun d hd => ⟨by rwa [(heq d).1] at hd, fun p hp hn hu => ⟨⟨hu.choose, (heq d).2.1.trans hu.choose_spec⟩, ?_, ?_⟩⟩
  · rwa [(heq p).1]
  · rwa [(heq p).2.2]

/-- A new inode. -/
theorem alloc (h : Parents nd) (hf : (nd i).type = .free) (hp : (nd p).type = .dir) (hn : 0 < (nd p).nlink)
    (hx : x.type = .dir → Up x i p) : Parents (update nd i x) := by
  have hother : ∀ j, (nd j).type = .dir → update nd i x j = nd j := by
    intro j hj
    refine Function.update_of_ne ?_ _ _
    rintro rfl
    rw [hf] at hj
    cases hj
  intro d hd
  by_cases hdi : d = i
  · subst hdi
    rw [Function.update_self] at hd ⊢
    exact ⟨p, hx hd, by rw [hother p hp]; exact ⟨hp, hn⟩⟩
  · rw [Function.update_of_ne hdi] at hd ⊢
    obtain ⟨q, hu, h1, h2⟩ := h d hd
    exact ⟨q, hu, by rw [hother q h1]; exact ⟨h1, h2⟩⟩

end Parents

theorem Up.added (h : Up (nd d) d p) {de : Dirent} {ents : List Dirent} (ha : (nd d).Added de ents) (hd : d ≠ 0) (hp : p ≠ 0)
    (he : x.ents = ents) : Up x d p := by
  obtain ⟨rest, hr⟩ := h
  obtain ⟨rest', hr'⟩ := ha.take_two hr hd hp
  exact ⟨rest', he.trans hr'⟩

theorem Up.removed (h : Up (nd d) d p) {de : Dirent} {l₁ l₂ : List Dirent} (he : (nd d).ents = l₁ ++ de :: l₂) (hn : Node.Plain de.name)
    (hx : x.ents = l₁ ++ ⟨0, []⟩ :: l₂) : Up x d p := by
  obtain ⟨rest, hr⟩ := h
  obtain ⟨rest', hr'⟩ := Node.removed_take_two (he.symm.trans hr) (fun hc => hn.1 (congrArg Dirent.name hc))
    fun hc => hn.2 (congrArg Dirent.name hc)
  exact ⟨rest', hx.trans hr'⟩

/-- An inode that is in use is allocated. -/
def Dirs.Held (d : Dirs) : Prop := ∀ i, 0 < d.ref i → (d.node i).type ≠ .free

/-- Nothing dangles, neither an entry nor a reference. -/
structure Sound (N : Nat) (d : Dirs) (L : Links) : Prop where
  links : TreeLinks N d L
  parents : Parents d.node
  held : d.Held

namespace Sound

variable {d d' : Dirs} {m : Nat}

theorem read (h : Sound N d L) : d.Read := fun i hi _ => h.held i hi

theorem ne_zero (h : Sound N d L) (hi : (d.node i).type = .dir) : i ≠ 0 := (h.links.tree.range i (by rw [hi]; decide)).1

theorem put_parents (h : Sound N d L) (i : Inum) : Parents (d.put i).node := by
  rw [Dirs.put_node]
  split
  · rename_i hl
    exact h.parents.freed (.inl hl.2.2) _
  · exact h.parents

theorem link_parents (h : Sound N d L) {name : Name} {ents : List Dirent} (hd : (d.node dp).type = .dir)
    (ha : (d.node dp).Added ⟨i, name⟩ ents) : Parents ((d.lock dp).setEnts dp ents).node :=
  h.parents.setDir hd hd (fun _ hp hu => hu.added ha (h.ne_zero hd) (h.ne_zero hp) rfl) fun hn => hn

theorem unlink_parents (h : Sound N d L) {name : Name} {l₁ l₂ : List Dirent} (hd : (d.node dp).type = .dir) (h1 : name ≠ Dir.dot)
    (h2 : name ≠ Dir.dotdot) (hi : i ≠ 0) (he : (d.node dp).ents = l₁ ++ ⟨i, name⟩ :: l₂)
    (hG : (d.node i).type = .dir → 1 < (d.node dp).nlink ∧ ∀ e ≠ i, (d.node e).type = .dir → ⟨i, Dir.dotdot⟩ ∉ (d.node e).live) :
    Parents (Dir.unlinked d dp i (l₁ ++ ⟨0, []⟩ :: l₂)).node := by
  have hk : i ∈ (d.node dp).kids :=
    Node.mem_kids.2 ⟨hd, ⟨i, name⟩, Node.mem_live.2 ⟨by simp [he], hi⟩, ⟨h1, h2⟩, rfl⟩
  have hne : i ≠ dp := by
    rintro rfl
    exact h.links.tree.acyclic i (.single hk)
  rw [Dir.unlinked_node hne]
  have hsmall := h.links.tree.small dp
  have hself : ∀ y, update d.node dp y i = d.node i := fun y => Function.update_of_ne hne _ _
  have hdir := h.parents.setDir (x := { d.node dp with
      ents := l₁ ++ ⟨0, []⟩ :: l₂,
      nlink := if (d.node i).type = .dir then short ((d.node dp).nlink - 1) else (d.node dp).nlink }) hd hd
    (fun _ _ hu => hu.removed he ⟨h1, h2⟩ rfl) fun hn => by
      dsimp only
      split
      · have := (hG ‹_›).1
        rw [short_of_lt (by omega) (by omega)]
        omega
      · exact hn
  by_cases hti : (d.node i).type = .dir
  · refine hdir.setNode (fun _ => ⟨by rw [hself, hti], by rw [hself]⟩) fun e p hde _ _ hu => ?_
    rintro rfl
    by_cases hep : e = p
    · -- `i` itself has the directory that names it as `..`
      subst hep
      rw [hself] at hu
      obtain ⟨q, rest, h3, h4⟩ := h.links.tree.dots e hti (.inr (h.links.tree.named_pos hk))
      obtain ⟨rest', h5⟩ := hu
      rw [h3] at h5
      simp only [List.cons.injEq, Dirent.mk.injEq, and_true, true_and] at h5
      split at h4
      · exact h.links.tree.not_mem (‹e = ROOTINO› ▸ h.links.tree.unnamed) dp hk
      · rw [h5.1] at h4
        exact h.links.tree.acyclic e (.single h4)
    · have hm : ⟨p, Dir.dotdot⟩ ∈ (d.node e).ents := by
        obtain ⟨rest, hr⟩ := hu
        by_cases hedp : e = dp
        · subst hedp
          rw [Function.update_self] at hr
          have hmem : ⟨p, Dir.dotdot⟩ ∈ l₁ ++ ⟨0, []⟩ :: l₂ := by
            rw [show l₁ ++ ⟨0, []⟩ :: l₂ = _ from hr]
            simp
          rw [he]
          simp only [List.mem_append, List.mem_cons, Dirent.mk.injEq] at hmem ⊢
          obtain hm | ⟨h0, -⟩ | hm := hmem
          · exact .inl hm
          · exact absurd h0 hi
          · exact .inr (.inr hm)
        · rw [Function.update_of_ne hedp] at hr
          rw [hr]
          simp
      refine (hG hti).2 e hep ?_ (Node.mem_live.2 ⟨hm, hi⟩)
      rwa [type_setEnts] at hde
  · exact hdir.setFile (by rwa [hself]) hti

theorem scrap_parents (h : Sound N d L) (hf : (d.node i).type = .free) (hn : x.nlink = 0) : Parents ((Dir.born d dp i x).put i).node := by
  have hr : d.ref i = 0 := by
    by_contra hr
    exact h.held i (by omega) hf
  have hlast : (Dir.born d dp i x).Last i := by simp [Dirs.Last, Dir.born, hr, hn]
  rw [Dirs.put_node, if_pos hlast, Dir.born_node, Function.update_idem, Function.update_self]
  exact h.parents.freed (.inr hf) x

theorem made_parents (h : Sound N d L) {name : Name} {ents : List Dirent} {type : Ftype} {major minor : Int}
    (hd : (d.node dp).type = .dir) (hf : (d.node i).type = .free) (ha : (d.node dp).Added ⟨i, name⟩ ents)
    (hs : type = .dir → (d.node dp).nlink < 2 ^ 15 - 1) : Parents (Dir.made d dp i (Dir.newNode dp i type major minor) ents).node := by
  have hne : i ≠ dp := by
    rintro rfl
    rw [hf] at hd
    cases hd
  rw [Dir.made_node hne, Function.update_comm hne]
  have hn0 := h.links.tree.named_le_nlink (i := dp) (by rw [hd]; decide)
  have hself : ∀ y, update d.node dp y i = d.node i := fun y => Function.update_of_ne hne _ _
  have hdir := h.parents.setDir (x := { d.node dp with
      ents, nlink := if (Dir.newNode dp i type major minor).type = .dir then short ((d.node dp).nlink + 1) else (d.node dp).nlink }) hd hd
    (fun _ hp hu => hu.added ha (h.ne_zero hd) (h.ne_zero hp) rfl) fun hn => by
      dsimp only
      split
      · have := hs ‹_›
        rw [short_of_lt (by omega) (by omega)]
        omega
      · exact hn
  by_cases htype : type = .dir
  · have hpos : 0 < short ((d.node dp).nlink + 1) := by
      have := hs htype
      rw [short_of_lt (by omega) (by omega)]
      omega
    refine hdir.alloc (p := dp) (by rwa [hself]) (by rwa [Function.update_self]) ?_ fun _ => ⟨[], by simp [Dir.newNode, htype]⟩
    rw [Function.update_self]
    dsimp only
    rwa [if_pos (show (Dir.newNode dp i type major minor).type = .dir from htype)]
  · exact hdir.setFile (by rw [hself, hf]; decide) htype

theorem of_node (h : Sound N d L) (hl : TreeLinks N d' L') (hn : d'.node = d.node)
    (hr : ∀ i, 0 < d'.ref i → 0 < d.ref i ∨ (d.node i).type ≠ .free) : Sound N d' L' where
  links := hl
  parents := by
    rw [hn]
    exact h.parents
  held i hi := by
    rw [hn]
    exact (hr i hi).elim (h.held i) id

/-- The types of the inodes that are in use stay. -/
theorem of_type (h : Sound N d L) (hl : TreeLinks N d' L') (hp : Parents d'.node)
    (ht : ∀ i, 0 < d'.ref i → (d.node i).type ≠ .free → (d'.node i).type ≠ .free)
    (hr : ∀ i, 0 < d'.ref i → 0 < d.ref i ∨ (d.node i).type ≠ .free ∨ (d'.node i).type ≠ .free) : Sound N d' L' where
  links := hl
  parents := hp
  held i hi := by
    obtain h1 | h1 | h1 := hr i hi
    · exact ht i hi (h.held i h1)
    · exact ht i hi h1
    · exact h1

theorem put (h : Sound N d L) (i : Inum) : Sound N (d.put i) L := by
  refine h.of_type (h.links.put i) (h.put_parents i) (fun j hj ht => ?_) fun j hj => ?_
  · rw [Dirs.put_ref] at hj
    rw [Dirs.put_node]
    split
    · rename_i hl
      by_cases hji : j = i
      · rw [hji, Function.update_self, hl.1] at hj
        omega
      · rwa [Function.update_of_ne hji]
    · exact ht
  · rw [Dirs.put_ref] at hj
    by_cases hji : j = i
    · rw [hji, Function.update_self] at hj
      rw [hji]
      exact .inl (by omega)
    · rw [Function.update_of_ne hji] at hj
      exact .inl hj

/-- One more reference to an inode that is allocated. -/
theorem of_ref {r : Nat} (hr : d'.ref = update d.ref i r) (hi : (d.node i).type ≠ .free) (j : Inum) (hj : 0 < d'.ref j) :
    0 < d.ref j ∨ (d.node j).type ≠ .free := by
  by_cases hji : j = i
  · rw [hji]
    exact .inr hi
  · rw [hr, Function.update_of_ne hji] at hj
    exact .inl hj

theorem change {G : DirCond} (hG : ∀ nd o, G nd o → keepsParents nd o) {x y : Dirs × Links} (h : Sound N x.1 x.2) (hc : Change N G x y) :
    Sound N y.1 y.2 := by
  have hl := h.links.change (fun nd o hg => (hG nd o hg).1) h.read hc
  cases hc with
  | same hn hr _ => exact h.of_node hl hn fun i hi => .inl (by rwa [← hr])
  | @got d L i hi =>
    refine h.of_node hl (Dirs.got_node ..) (of_ref (Dirs.got_ref ..) ?_)
    obtain rfl | ⟨dp, hd, de, hde, rfl⟩ := hi
    · rw [h.links.tree.root]
      decide
    · exact h.links.tree.noDangling h.parents dp hd de hde
  | @dup d L i hi => exact h.of_node hl rfl (of_ref rfl (h.held i hi))
  | put i => exact h.put i
  | lock _ => exact h.of_node hl rfl fun i hi => .inl hi
  | touch ht => exact h.of_node hl ht.node fun i hi => .inl (by rwa [← ht.ref])
  | @data d L i hl' x =>
    have heq := setData_same d.node i x
    exact h.of_type hl (h.parents.of_same heq) (fun j _ ht => by rwa [← (heq j).1] at ht) fun j hj => .inl hj
  | @up d L i hg hl' ht =>
    refine h.of_type hl (h.parents.setFile ht ht) (fun j _ hj => ?_) fun j hj => .inl hj
    rwa [addLink_type]
  | @down d L i hl' hp =>
    have ht := h.links.file i hp
    refine h.of_type hl (h.parents.setFile ht ht) (fun j _ hj => ?_) fun j hj => .inl hj
    rwa [addLink_type]
  | @link d L dp i name ents hg hl' ht hp hn ha =>
    refine h.of_type hl (h.link_parents ht ha) (fun j _ hj => ?_) fun j hj => .inl hj
    rwa [setEnts_type]
  | @unlink d L dp i name l₁ l₂ hg hl' ht h1 h2 hn he hi hli hents =>
    have hk : i ∈ (d.node dp).kids :=
      Node.mem_kids.2 ⟨ht, ⟨i, name⟩, Node.mem_live.2 ⟨by simp [hents], hi⟩, ⟨h1, h2⟩, rfl⟩
    have hne : i ≠ dp := by
      rintro rfl
      exact h.links.tree.acyclic i (.single hk)
    have hG' := (hG _ _ hg).2 ⟨h1, h2⟩ i (Node.mem_live.2 ⟨by simp [hents], hi⟩)
    refine h.of_type hl (h.unlink_parents ht h1 h2 hi hents fun hti => hG' hti (he hti)) (fun j _ hj => ?_) fun j hj => ?_
    · rwa [unlinked_type hne]
    · exact (of_ref (Dir.unlinked_ref ..) (h.links.tree.kid_ne_free hk) j hj).imp_right .inl
  | @scrap d L dp i name type major minor x hg hl' ht hty hf hi hN hx =>
    have href : ∀ j, 0 < ((Dir.born d dp i x).put i).ref j → j ≠ i ∧ 0 < d.ref j := by
      intro j hj
      have hr : d.ref i = 0 := by
        by_contra hr
        exact h.held i (by dsimp only; omega) hf
      by_cases hji : j = i
      · subst hji
        simp [Dir.born, hr] at hj
      · simp only [Dirs.put_ref, Dir.born, Dirs.lock_ref, Dirs.setRef_ref, Dirs.setNode_ref, Function.update_of_ne hji] at hj
        exact ⟨hji, hj⟩
    refine h.of_type hl (h.scrap_parents hf hx.nlink) (fun j hj ht => ?_) fun j hj => .inl (href j hj).2
    have hji := (href j hj).1
    rw [Dirs.put_node]
    split <;> simpa [Function.update_of_ne hji] using ht
  | @made d L dp i name type major minor ents hg hl' ht hty hf hi hN hn ha =>
    have hne : i ≠ dp := by
      rintro rfl
      exact absurd (hf.symm.trans ht) (by simp)
    refine h.of_type hl (h.made_parents ht hf ha ?_) (fun j _ hj => ?_) fun j hj => ?_
    · rintro rfl
      exact (hG _ _ hg).1 hn
    · rw [made_type hne]
      split
      · exact hty
      · exact hj
    · by_cases hji : j = i
      · refine .inr (.inr ?_)
        rw [made_type hne, if_pos hji]
        exact hty
      · rw [Dir.made_ref, Function.update_of_ne hji] at hj
        exact .inl hj

end Sound

/-- A free inode is neither named nor referred to. -/
theorem Sound.not_dangling {d : Dirs} (h : Sound N d L) : ¬d.Dangling := by
  rintro ⟨i, hi, hr | ⟨dp, hd, de, hde, rfl⟩⟩
  · exact h.held i hr hi
  · exact h.links.tree.noDangling h.parents dp hd de hde hi

end dangle

/-- `ilock` panics only in a state where something dangles. -/
theorem DirK.lift_noType {α : Type} {k : DirK} {m : DirM α} {Q : α → Dirs → Prop} (he : k.lift m = .error "ilock: no type")
    (hw : wp m Q (Dir.NoType k.d) k.d) : k.d.Dangling := by
  unfold DirK.lift at he
  unfold wp at hw
  cases hm : m k.d with
  | ok a d' =>
    rw [hm] at he
    cases he
  | error msg d' =>
    rw [hm] at he hw
    cases he
    exact hw rfl

theorem DirK.lift_other {α : Type} {k : DirK} {m : DirM α} {Q : α → Dirs → Prop} (he : k.lift m = .error "ilock: no type")
    (hw : wp m Q Dir.Other k.d) : k.d.Dangling :=
  DirK.lift_noType he (wp_mono hw (fun _ _ h => h) fun _ _ h => h.noType)

theorem DirK.exec_noType {N : Nat} {env : DirEnv} {k : DirK} {o : DirOp} {Q : o.Ans → Multiset Hold → Prop} {g : Multiset Hold}
    (hr : dirRule o Q g) (he : k.exec N env o = .error "ilock: no type") : k.d.Dangling := by
  cases o with
  | beginOp => cases he
  | endOp => cases he
  | iget i => exact DirK.lift_other he (Dir.iget_spec i)
  | idup i => exact DirK.lift_noType (m := Dir.idup i) he (Dir.idup_spec i)
  | iput i => exact DirK.lift_noType (m := Dir.iput i) he (Dir.iput_put i)
  | lookup dp name => exact DirK.lift_noType he (Dir.lookup_spec dp name)
  | stat i => exact DirK.lift_noType he (Dir.stat_spec i)
  | linkUp i => exact DirK.lift_noType he (Dir.linkUp_spec i)
  | linkDown i => exact DirK.lift_noType he (Dir.linkDown_spec i)
  | linkIn dp name i => exact DirK.lift_noType he (Dir.linkIn_spec dp name i env.grow.2)
  | unlinkIn dp name => exact DirK.lift_noType he (Dir.unlinkIn_spec dp name)
  | createIn dp name type major minor => exact DirK.lift_noType he (Dir.createIn_spec dp name hr.2.2.1 major minor env.grow)
  | trunc f => exact DirK.lift_noType he (Dir.fileLock_spec f _)
  | readFile f => exact DirK.lift_noType he (Dir.fileLock_spec f _)
  | write f =>
    rw [exec_write] at he
    cases hk : k.lift (Dir.fileLock f fun _ => env.data) with
    | ok r =>
      rw [hk] at he
      cases he
    | error msg =>
      rw [hk] at he
      cases he
      exact DirK.lift_noType hk (Dir.fileLock_spec f _)
  | filealloc => exact DirK.lift_other he Dir.filealloc_spec
  | filedup f => exact DirK.lift_other he (Dir.filedup_spec f)
  | fileput f => exact DirK.lift_other he (Dir.fileput_spec f)
  | fileset f i device readable writable => cases he
  | getFile f => cases he
  | slotalloc =>
    rw [exec_slotalloc] at he
    cases he
  | slotfree q => cases he
  | publish q l => cases he

/-- A consistent image. -/
structure SoundImage (N : Nat) (nd : Inum → Node) : Prop where
  tree : Tree N nd fun _ => 0
  parents : Parents nd

theorem SoundImage.sound {N : Nat} {s : DirSys} (h : SoundImage N s.k.d.node) (hb : s.Booted) : Sound N s.k.d fun _ => 0 where
  links := ⟨h.tree, nofun⟩
  parents := h.parents
  held i hi := by
    rw [hb.eq_root hi, h.tree.root]
    decide

/-- No entry dangles, and no path lookup finds an inode without a type. -/
theorem reachable_noDangling {N : Nat} {s : DirSys} (h : ((dirLts N (SoundImage N)).guard (DirSys.Meets keepsParents)).Reachable s) :
    NoDangling s.k.d.node ∧ ∀ p o f, s.th p = some (.call o f) → ∀ env, s.k.exec N env o ≠ .error "ilock: no type" := by
  obtain ⟨own, hinv, hJ⟩ := dir_invariant (J := Sound N) (fun _ hI hb => hI.sound hb)
    (fun _ _ hx hc => hx.change (fun _ _ hg => hg) hc) h
  refine ⟨hJ.links.tree.noDangling hJ.parents, fun p o f hth env he => ?_⟩
  exact hJ.not_dangling (DirK.exec_noType (hinv.run p _ hth).2 he)

theorem emptyImage_parents : Parents emptyImage := by
  intro d hd
  have hroot : d = ROOTINO := by
    by_contra hne
    unfold emptyImage at hd
    rw [Function.update_of_ne hne] at hd
    cases hd
  subst hroot
  exact ⟨ROOTINO, ⟨[], by decide⟩, by decide, by decide⟩

theorem emptyImage_sound {N : Nat} (hN : ROOTINO < N) : SoundImage N emptyImage := ⟨emptyImage_tree hN, emptyImage_parents⟩

/-- No link count is near the limit, and only files are removed. -/
def keepsParentsCheck (nd : Inum → Node) (o : DirOp) : Bool :=
  noOverflowCheck nd o &&
    match o with
    | .unlinkIn dp name => (nd dp).live.all fun de => de.name ≠ name || (nd de.inum).type ≠ .dir
    | _ => true

theorem keepsParents_of_check (nd : Inum → Node) (o : DirOp) (h : keepsParentsCheck nd o = true) : keepsParents nd o := by
  unfold keepsParentsCheck at h
  rw [Bool.and_eq_true] at h
  refine ⟨noOverflow_of_check nd o h.1, ?_⟩
  cases o with
  | unlinkIn dp name =>
    intro _ i hi hti _
    have := List.all_eq_true.1 h.2 _ hi
    simp [hti] at this
  | _ => trivial

/-- A directory is made, and a file in it, which is removed. -/
def removeRun : List DirEv :=
  DirCall.alone (.mkdir (some [97])) ⟨0, NPROC_pos⟩ ⟨(true, true), [], true⟩ 7 ++
    DirCall.alone (.mknod (some [97, 47, 98]) 1 1) ⟨0, NPROC_pos⟩ ⟨(true, true), [], true⟩ 9 ++
    DirCall.alone (.unlink (some [97, 47, 98])) ⟨0, NPROC_pos⟩ ⟨(true, true), [], true⟩ 9

theorem reachable_noDangling_removeRun :
    ∃ s, ((dirLts 10 (SoundImage 10)).guard (DirSys.Meets keepsParents)).Reachable s ∧ (s.k.d.node 2).type = .dir ∧
      (s.k.d.node 2).ents.length = 3 ∧ NoDangling s.k.d.node := by
  have hany : (Lts.replay (fun s e => DirSys.step s 10 e) (DirSys.check keepsParentsCheck) (DirSys.boot emptyImage) removeRun).any
      (fun s => (s.k.d.node 2).type = .dir ∧ (s.k.d.node 2).ents.length = 3) = true := by decide +kernel
  obtain ⟨s, hs, hp⟩ := Lts.Reachable.replay_any (I := fun s => SoundImage 10 s.k.d.node ∧ s.Booted)
    (DirSys.meets_of_check keepsParents_of_check) ⟨emptyImage_sound (by decide), DirSys.boot_booted _⟩ hany
  have hp := of_decide_eq_true hp
  exact ⟨s, hs, hp.1, hp.2, (reachable_noDangling hs).1⟩

theorem emptyImage_noDangling : NoDangling emptyImage :=
  (emptyImage_tree (N := 10) (by decide)).noDangling emptyImage_parents

/-- A directory that is the current one is removed, and then its parent. -/
def removeParentRun : List DirEv :=
  DirCall.alone (.mkdir (some [97])) ⟨0, NPROC_pos⟩ ⟨(true, true), [], true⟩ 7 ++
    DirCall.alone (.mkdir (some [97, 47, 98])) ⟨0, NPROC_pos⟩ ⟨(true, true), [], true⟩ 9 ++
    DirCall.alone (.chdir (some [97, 47, 98])) ⟨0, NPROC_pos⟩ ⟨(true, true), [], true⟩ 9 ++
    DirCall.alone (.unlink (some [47, 97, 47, 98])) ⟨0, NPROC_pos⟩ ⟨(true, true), [], true⟩ 9 ++
    DirCall.alone (.unlink (some [47, 97])) ⟨0, NPROC_pos⟩ ⟨(true, true), [], true⟩ 7

/-- Then the process goes to `..`. -/
def dotdotRun : List DirEv :=
  removeParentRun ++ .call ⟨0, NPROC_pos⟩ (.chdir (some Dir.dotdot)) ::
    List.replicate 4 (.next ⟨0, NPROC_pos⟩ ⟨(true, true), [], true⟩)

/-- The first process panics with `msg` at its next step. -/
private def panicsNext (s : DirSys) (msg : String) : Bool :=
  match s.step 10 (.next ⟨0, NPROC_pos⟩ ⟨(true, true), [], true⟩) with
  | some (.error m) => m = msg
  | _ => false

private theorem panicsNext_eq {s : DirSys} {msg : String} (h : panicsNext s msg = true) :
    s.step 10 (.next ⟨0, NPROC_pos⟩ ⟨(true, true), [], true⟩) = some (.error msg) := by
  unfold panicsNext at h
  split at h
  · rename_i m hst
    rw [hst, of_decide_eq_true h]
  · cases h

/-- The entry `..` dangles, and the lookup panics. -/
theorem removeParentRun_dangling :
    (∃ s, (dirLts 10 NoDangling).Reachable s ∧ s.Quiet ∧ ¬NoDangling s.k.d.node) ∧
      ∃ s, (dirLts 10 NoDangling).Reachable s ∧ ∃ p env, s.step 10 (.next p env) = some (.error "ilock: no type") := by
  constructor
  · have hany : (Lts.replay (fun s e => DirSys.step s 10 e) (fun _ _ => true) (DirSys.boot emptyImage) removeParentRun).any
        (fun s => (s.k.d.node 3).type = .dir ∧ ⟨2, Dir.dotdot⟩ ∈ (s.k.d.node 3).live ∧ (s.k.d.node 2).type = .free ∧
          ∀ p, (s.th p).isNone = true) = true := by decide +kernel
    obtain ⟨s, hs, hp⟩ := Lts.Reachable.replay_any (I := fun s => NoDangling s.k.d.node ∧ s.Booted) (C := fun _ _ => True)
      (fun _ _ _ => trivial) ⟨emptyImage_noDangling, DirSys.boot_booted _⟩ hany
    obtain ⟨hd, hl, hf, hq⟩ := of_decide_eq_true hp
    exact ⟨s, hs.of_guard, fun p => Option.isNone_iff_eq_none.1 (hq p), fun hno => hno 3 hd _ hl hf⟩
  · have hany : (Lts.replay (fun s e => DirSys.step s 10 e) (fun _ _ => true) (DirSys.boot emptyImage) dotdotRun).any
        (fun s => panicsNext s "ilock: no type") = true := by decide +kernel
    obtain ⟨s, hs, hp⟩ := Lts.Reachable.replay_any (I := fun s => NoDangling s.k.d.node ∧ s.Booted) (C := fun _ _ => True)
      (fun _ _ _ => trivial) ⟨emptyImage_noDangling, DirSys.boot_booted _⟩ hany
    exact ⟨s, hs.of_guard, ⟨0, by decide⟩, ⟨(true, true), [], true⟩, panicsNext_eq hp⟩

end Xv6
