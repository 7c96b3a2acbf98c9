import Xv6.DirTree

/-!
# Link counts

What the operations do to the tree, as sequences of its steps.  `sys_link` counts a link before it makes the entry, so that a file may
have links without an entry in between.
-/

namespace Xv6

open Function (update)

section tree

variable {N : Nat} {nd nd' : Inum → Node} {L L' : Links} {i d dp : Inum} {x : Node}

namespace Dirs

/-- An inode that is in use and has been read is allocated. -/
def Read (d : Dirs) : Prop := ∀ i, 0 < d.ref i → d.valid i = true → (d.node i).type ≠ .free

variable {d : Dirs}

theorem Read.ne_free (h : d.Read) (hl : d.Lockable i) : (d.node i).type ≠ .free := hl.2.elim (h i hl.1) id

theorem Read.lock (h : d.Read) (hl : d.Lockable i) : (d.lock i).Read := by
  intro j hr hj
  by_cases hji : j = i
  · subst hji
    exact h.ne_free hl
  · rw [lock_valid, Function.update_of_ne hji] at hj
    exact h j hr hj

theorem Read.unread (h : d.Read) (i : Inum) : (d.setValid i false).Read := by
  intro j hr hj
  by_cases hji : j = i
  · rw [hji, setValid_valid, Function.update_self] at hj
    cases hj
  · rw [setValid_valid, Function.update_of_ne hji] at hj
    exact h j hr hj

theorem Read.setRef (h : d.Read) {n : Nat} (hi : 0 < d.ref i ∨ d.valid i = false) : (d.setRef i n).Read := by
  intro j hr hj
  by_cases hji : j = i
  · subst hji
    obtain hi | hi := hi
    · exact h j hi hj
    · exact absurd (hi.symm.trans hj) nofun
  · rw [setRef_ref, Function.update_of_ne hji] at hr
    exact h j hr hj

theorem Read.got (h : d.Read) (i : Inum) : (d.got i).Read := by
  unfold Dirs.got
  split
  · exact h.setRef (.inl ‹_›)
  · exact Read.setRef (h.unread i) (.inr (Function.update_self ..))

/-- The type of an inode stays. -/
theorem Read.setNode (h : d.Read) (i : Inum) {x : Node} (hx : x.type = (d.node i).type) : (d.setNode i x).Read := by
  intro j hr hj
  by_cases hji : j = i
  · subst hji
    rw [setNode_node, Function.update_self, hx]
    exact h j hr hj
  · rw [setNode_node, Function.update_of_ne hji]
    exact h j hr hj

theorem Read.put (h : d.Read) (i : Inum) : (d.put i).Read := by
  intro j hr hj
  have hr' : 0 < d.ref j := by
    rw [put_ref] at hr
    by_cases hji : j = i
    · rw [hji, Function.update_self] at hr
      rw [hji]
      omega
    · rwa [Function.update_of_ne hji] at hr
  rw [put_valid] at hj
  rw [put_node]
  by_cases hl : d.Last i
  · rw [if_pos hl] at hj ⊢
    by_cases hji : j = i
    · rw [hji, Function.update_self] at hj
      cases hj
    · rw [Function.update_of_ne hji] at hj ⊢
      exact h j hr' hj
  · rw [if_neg hl] at hj ⊢
    exact h j hr' hj

theorem Read.born (h : d.Read) (hl : d.Lockable dp) (hx : x.type ≠ .free) : (Dir.born d dp i x).Read := by
  intro j hr hj
  by_cases hji : j = i
  · subst hji
    rwa [Dir.born_node, Function.update_self]
  · rw [Dir.born_node, Function.update_of_ne hji]
    simp only [Dir.born, lock_valid, lock_ref, setRef_ref, setRef_valid, setNode_ref, setNode_valid, Function.update_of_ne hji] at hr hj
    exact h.lock hl j hr hj

theorem Read.unlinked (h : d.Read) (hl : d.Lockable dp) (hli : ((d.lock dp).got i).Lockable i) (ents : List Dirent) :
    (Dir.unlinked d dp i ents).Read := by
  have h1 : ((((d.lock dp).got i).lock i).setEnts dp ents).Read := Read.setNode (((h.lock hl).got i).lock hli) dp rfl
  unfold Dir.unlinked
  dsimp only
  split
  · have h2 : (((((d.lock dp).got i).lock i).setEnts dp ents).addLink dp (-1)).Read := h1.setNode dp rfl
    exact h2.setNode i rfl
  · exact h1.setNode i rfl

theorem Read.made (h : d.Read) (hl : d.Lockable dp) (hx : x.type ≠ .free) (ents : List Dirent) : (Dir.made d dp i x ents).Read := by
  have h1 : ((Dir.born d dp i x).setEnts dp ents).Read := (h.born hl hx).setNode dp rfl
  unfold Dir.made
  split
  · exact h1.setNode dp rfl
  · exact h1

theorem Read.change {G : DirCond} {x y : Dirs × Links} (h : x.1.Read) (hc : Change N G x y) : y.1.Read := by
  cases hc with
  | same hn hr hv =>
    intro i hi hj
    rw [hr] at hi
    rw [hv] at hj
    rw [hn]
    exact h i hi hj
  | got _ => exact h.got _
  | dup hr => exact h.setRef (.inl hr)
  | put i => exact h.put i
  | lock hl => exact h.lock hl
  | touch ht =>
    obtain rfl | ⟨j, -, rfl⟩ := ht
    · exact h
    · exact h.unread j
  | data hl x => exact (h.lock hl).setNode _ rfl
  | up _ hl _ => exact (h.lock hl).setNode _ rfl
  | down hl _ => exact (h.lock hl).setNode _ rfl
  | link _ hl _ _ _ _ => exact (h.lock hl).setNode _ rfl
  | unlink _ hl _ _ _ _ _ _ hli _ => exact h.unlinked hl hli _
  | scrap _ hl _ hty _ _ _ hx => exact (h.born hl (by rwa [hx.type])).put _
  | made _ hl _ hty _ _ _ _ _ => exact h.made hl hty _

end Dirs

theorem type_setNlink (nd : Inum → Node) (i : Inum) (n : Int) (j : Inum) : (update nd i { nd i with nlink := n } j).type = (nd j).type :=
  type_update (by rfl) j

theorem type_setEnts (nd : Inum → Node) (i : Inum) (ents : List Dirent) (n : Int) (j : Inum) :
    (update nd i { nd i with ents, nlink := n } j).type = (nd j).type :=
  type_update (by rfl) j

/-- The data of an inode does not matter. -/
theorem setData_same (nd : Inum → Node) (i : Inum) (l : List UInt8) (j : Inum) :
    (update nd i { nd i with data := l } j).type = (nd j).type ∧ (update nd i { nd i with data := l } j).ents = (nd j).ents ∧
      (update nd i { nd i with data := l } j).nlink = (nd j).nlink := by
  by_cases hj : j = i
  · subst hj
    rw [Function.update_self]
    exact ⟨rfl, rfl, rfl⟩
  · rw [Function.update_of_ne hj]
    exact ⟨rfl, rfl, rfl⟩

theorem addLink_type {d : Dirs} (i : Inum) (n : Int) (j : Inum) : ((d.addLink i n).node j).type = (d.node j).type :=
  type_setNlink d.node i _ j

theorem setEnts_type {d : Dirs} (i : Inum) (ents : List Dirent) (j : Inum) : ((d.setEnts i ents).node j).type = (d.node j).type :=
  type_setEnts d.node i ents (d.node i).nlink j

theorem unlinked_type {d : Dirs} (h : i ≠ dp) (ents : List Dirent) (j : Inum) :
    ((Dir.unlinked d dp i ents).node j).type = (d.node j).type := by
  rw [Dir.unlinked_node h]
  by_cases hj : j = i
  · rw [hj, Function.update_self]
  · rw [Function.update_of_ne hj, type_setEnts]

theorem made_type {d : Dirs} (h : i ≠ dp) (x : Node) (ents : List Dirent) (j : Inum) :
    ((Dir.made d dp i x ents).node j).type = if j = i then x.type else (d.node j).type := by
  rw [Dir.made_node h]
  by_cases hj : j = dp
  · rw [hj, Function.update_self, if_neg (Ne.symm h)]
  · rw [Function.update_of_ne hj]
    by_cases hji : j = i
    · rw [hji, Function.update_self, if_pos rfl]
    · rw [Function.update_of_ne hji, if_neg hji]

theorem short_of_lt {n : Int} (h0 : 0 ≤ n) (h : n < 2 ^ 15) : short n = n := by
  unfold short
  omega

/-- `.` and `..` are not counted. -/
theorem kids_of_dots {p : Inum} (he : x.ents <+: [⟨i, Dir.dot⟩, ⟨p, Dir.dotdot⟩]) : x.kids = [] := by
  refine List.eq_nil_iff_forall_not_mem.2 fun j hj => ?_
  obtain ⟨-, de, hde, hpl, -⟩ := Node.mem_kids.1 hj
  have := he.subset (Node.mem_live.1 hde).1
  simp only [List.mem_cons, List.not_mem_nil, or_false] at this
  obtain rfl | rfl := this
  · exact hpl.1 rfl
  · exact hpl.2 rfl

/-- The tree, and no counted links to directories. -/
structure TreeLinks (N : Nat) (d : Dirs) (L : Links) : Prop where
  tree : Tree N d.node L
  file : ∀ i, 0 < L i → (d.node i).type ≠ .dir

/-- No link count goes beyond `short`; `sys_link` counts no link of a directory, and `mkdir` counts one if it makes an entry. -/
def noOverflow : DirCond := fun nd o =>
  match o with
  | .linkUp i => (nd i).type ≠ .dir → (nd i).nlink < 2 ^ 15 - 1
  | .createIn dp name .dir .. => (nd dp).NoName name → (nd dp).nlink < 2 ^ 15 - 1
  | _ => True

namespace TreeLinks

variable {d d' : Dirs} {m : Nat}

theorem of_node (h : TreeLinks N d L) (hn : d'.node = d.node) : TreeLinks N d' L := by
  refine ⟨?_, ?_⟩ <;> rw [hn]
  · exact h.tree
  · exact h.file

theorem ne_free (h : TreeLinks N d L) (hi : 0 < L i) : (d.node i).type ≠ .free := fun hf => by
  have := (h.tree.free i hf).2
  omega

theorem put (h : TreeLinks N d L) (i : Inum) : TreeLinks N (d.put i) L := by
  by_cases hl : d.Last i
  · refine ⟨?_, fun j hj => ?_⟩
    · rw [Dirs.put_node, if_pos hl]
      exact h.tree.freed hl.2.2
    · rw [Dirs.put_node, if_pos hl]
      by_cases hji : j = i
      · rw [hji, Function.update_self]
        exact nofun
      · rw [Function.update_of_ne hji]
        exact h.file j hj
  · refine h.of_node ?_
    rw [Dirs.put_node, if_neg hl]

theorem data (h : TreeLinks N d L) (i : Inum) (l : List UInt8) (hd : d'.node = update d.node i { d.node i with data := l }) :
    TreeLinks N d' L := by
  have heq := setData_same d.node i l
  rw [← hd] at heq
  refine ⟨h.tree.of_same (fun j => (heq j).1) (fun j _ => (heq j).2.1) (fun j hj => (h.tree.free j hj).2) (fun j hj => ?_) fun j => ?_,
    fun j hj => ?_⟩
  · rw [(heq j).2.2]
    exact h.tree.nlink j hj
  · rw [(heq j).2.2]
    exact h.tree.small j
  · rw [(heq j).1]
    exact h.file j hj

/-- `sys_link` counts a link, or takes it back. -/
theorem setLink (h : TreeLinks N d L) {n : Int} {m : Nat} (ht : (d.node i).type ≠ .dir) (hf : (d.node i).type ≠ .free)
    (hn : (d.node i).nlink + m ≤ n + L i) (hs : n < 2 ^ 15) (hd : d'.node = update d.node i { d.node i with nlink := n }) :
    TreeLinks N d' (update L i m) := by
  refine ⟨by rw [hd]; exact h.tree.setLink hf hn hs, fun j hj => ?_⟩
  rw [hd, type_setNlink]
  by_cases hji : j = i
  · rwa [hji]
  · rw [Function.update_of_ne hji] at hj
    exact h.file j hj

/-- `sys_link` makes the entry. -/
theorem link (h : TreeLinks N d L) {name : Name} {ents : List Dirent} (hd : (d.node dp).type = .dir) (hl : 0 < L i)
    (hno : (d.node dp).NoName name) (ha : (d.node dp).Added ⟨i, name⟩ ents) :
    TreeLinks N ((d.lock dp).setEnts dp ents) (update L i (L i - 1)) := by
  have hi := h.file i hl
  have hne : i ≠ dp := by
    rintro rfl
    exact hi hd
  refine ⟨h.tree.add (n := (d.node dp).nlink) hd ha hno (h.ne_free hl) hne hl ?_ (h.tree.small dp) fun hc => absurd hc hi,
    fun j hj => ?_⟩
  · rw [if_neg fun hc => hi hc.2, add_zero]
  · rw [setEnts_type, Dirs.lock_node]
    by_cases hji : j = i
    · rwa [hji]
    · rw [Function.update_of_ne hji] at hj
      exact h.file j hj

section unlink

variable {name : Name} {l₁ l₂ : List Dirent} (hd : (d.node dp).type = .dir) (h1 : name ≠ Dir.dot) (h2 : name ≠ Dir.dotdot) (hi : i ≠ 0)
  (he : (d.node dp).ents = l₁ ++ ⟨i, name⟩ :: l₂)

include hd h1 h2 hi he

/-- The entry names another inode than the directory. -/
theorem mem_kids : i ∈ (d.node dp).kids := Node.mem_kids.2 ⟨hd, ⟨i, name⟩, Node.mem_live.2 ⟨by simp [he], hi⟩, ⟨h1, h2⟩, rfl⟩

theorem ne_dir (h : TreeLinks N d L) : i ≠ dp := by
  rintro rfl
  exact h.tree.acyclic i (.single (mem_kids hd h1 h2 hi he))

/-- The link counts do not wrap. -/
theorem unlinked_node (h : TreeLinks N d L) (hn : 1 ≤ (d.node i).nlink) :
    ∃ n, n < 2 ^ 15 ∧ ((d.node dp).nlink = n + if (d.node i).type = .dir then 1 else 0) ∧
      (Dir.unlinked d dp i (l₁ ++ ⟨0, []⟩ :: l₂)).node =
        update (update d.node dp { d.node dp with ents := l₁ ++ ⟨0, []⟩ :: l₂, nlink := n }) i
          { d.node i with nlink := (d.node i).nlink - 1 } := by
  have hdp := h.tree.named_le_nlink (i := dp) (by rw [hd]; decide)
  have hsub : (d.node i).type = .dir → 0 < dirKids d.node dp := by
    intro ht
    by_contra hz
    exact dirKids_eq_zero.1 (Nat.eq_zero_of_not_pos hz) i (mem_kids hd h1 h2 hi he) ht
  have hsmall := h.tree.small dp
  have hsmalli := h.tree.small i
  refine ⟨if (d.node i).type = .dir then short ((d.node dp).nlink - 1) else (d.node dp).nlink, ?_, ?_, ?_⟩
  · split
    · have := hsub ‹_›
      rw [short_of_lt (by omega) (by omega)]
      omega
    · exact hsmall
  · split
    · have := hsub ‹_›
      rw [short_of_lt (by omega) (by omega)]
      omega
    · rw [add_zero]
  · have hs : short ((d.node i).nlink - 1) = (d.node i).nlink - 1 := short_of_lt (by omega) (by omega)
    rw [Dir.unlinked_node (ne_dir hd h1 h2 hi he h), hs]

/-- `sys_unlink` removes the entry of `i` and counts one link less. -/
theorem unlink (h : TreeLinks N d L) (hn : 1 ≤ (d.node i).nlink) : TreeLinks N (Dir.unlinked d dp i (l₁ ++ ⟨0, []⟩ :: l₂)) L := by
  have hne := ne_dir hd h1 h2 hi he h
  have hf := h.tree.kid_ne_free (mem_kids hd h1 h2 hi he)
  obtain ⟨n, hns, hn', hnode⟩ := unlinked_node hd h1 h2 hi he h hn
  have h3 := h.tree.remove (n := n) hd he ⟨h1, h2⟩ hi (le_of_eq hn') hns
  have hself : update d.node dp { d.node dp with ents := l₁ ++ ⟨0, []⟩ :: l₂, nlink := n } i = d.node i := Function.update_of_ne hne _ _
  have h4 := h3.setLink (i := i) (n := (d.node i).nlink - 1) (m := L i) (by rwa [hself]) (by
    rw [hself, Function.update_self]
    omega) (by
    have := h.tree.small i
    omega)
  have hL : update (update L i (L i + 1)) i (L i) = L := by simp
  rw [hself, hL] at h4
  refine ⟨by rwa [hnode], fun j hj => ?_⟩
  rw [unlinked_type hne]
  exact h.file j hj

end unlink

/-- A new inode, which is named next. -/
theorem born (h : TreeLinks N d L) (hf : (d.node i).type = .free) (hi : i ≠ 0) (hN : i < N) {x : Node} (hx : x.type ≠ .free)
    (hn : (update L i m i : Int) ≤ x.nlink) (hs : x.nlink < 2 ^ 15) (he : x.ents <+: [⟨i, Dir.dot⟩, ⟨dp, Dir.dotdot⟩]) :
    Tree N (update d.node i x) (update L i m) := by
  have hsub : x.live.Sublist [⟨i, Dir.dot⟩, ⟨dp, Dir.dotdot⟩] := List.filter_sublist.trans he.sublist
  refine h.tree.alloc hf hi hN (kids_of_dots he) hn hs ?_ hx fun j hj => Function.update_of_ne hj _ _
  exact (hsub.map Dirent.name).nodup (by simp [Dir.dot, Dir.dotdot])

/-- A new inode that `create` gives up. -/
theorem scrapped (h : TreeLinks N d L) {type : Ftype} {x : Node} (hty : type ≠ .free) (hf : (d.node i).type = .free) (hi : i ≠ 0)
    (hN : i < N) (hx : Dir.Scrapped dp i type x) : TreeLinks N (Dir.born d dp i x) L := by
  have hL := (h.tree.free i hf).2
  have hself : update L i 0 = L := by rw [← hL, Function.update_eq_self]
  have hb := h.born (m := 0) hf hi hN (by rwa [hx.type]) (by simp [hx.nlink]) (by simp [hx.nlink]) hx.ents
  rw [hself] at hb
  refine ⟨hb, fun j hj => ?_⟩
  have hji : j ≠ i := by
    rintro rfl
    omega
  rw [Dir.born_node, Function.update_of_ne hji]
  exact h.file j hj

theorem newNode_ents (dp i : Inum) (type : Ftype) (major minor : Int) :
    (Dir.newNode dp i type major minor).ents <+: [⟨i, Dir.dot⟩, ⟨dp, Dir.dotdot⟩] := by
  unfold Dir.newNode
  split
  · exact List.prefix_rfl
  · exact List.nil_prefix

section made

variable {name : Name} {ents : List Dirent} {type : Ftype} {major minor : Int} (hd : (d.node dp).type = .dir)
  (hf : (d.node i).type = .free)

include hd hf

theorem ne_new : i ≠ dp := by
  rintro rfl
  exact absurd (hf.symm.trans hd) nofun

theorem made_node (h : TreeLinks N d L) (ents : List Dirent) (major minor : Int) (hs : type = .dir → (d.node dp).nlink < 2 ^ 15 - 1) :
    ∃ n, n < 2 ^ 15 ∧ (n = (d.node dp).nlink + if type = .dir then 1 else 0) ∧
      (Dir.made d dp i (Dir.newNode dp i type major minor) ents).node =
        update (update d.node i (Dir.newNode dp i type major minor)) dp { d.node dp with ents, nlink := n } := by
  have hn0 := h.tree.named_le_nlink (i := dp) (by rw [hd]; decide)
  have hsmall := h.tree.small dp
  refine ⟨if type = .dir then short ((d.node dp).nlink + 1) else (d.node dp).nlink, ?_, ?_, Dir.made_node (ne_new hd hf) ..⟩
  · split
    · have := hs ‹_›
      rw [short_of_lt (by omega) (by omega)]
      omega
    · exact hsmall
  · split
    · have := hs ‹_›
      exact short_of_lt (by omega) (by omega)
    · rw [add_zero]

/-- `create` makes an inode. -/
theorem made (h : TreeLinks N d L) (hty : type ≠ .free) (hi : i ≠ 0) (hN : i < N) (hno : (d.node dp).NoName name)
    (ha : (d.node dp).Added ⟨i, name⟩ ents) (hs : type = .dir → (d.node dp).nlink < 2 ^ 15 - 1) :
    TreeLinks N (Dir.made d dp i (Dir.newNode dp i type major minor) ents) L := by
  have hne := ne_new hd hf
  obtain ⟨n, hns, hn, hnode⟩ := made_node hd hf h ents major minor hs
  let x := Dir.newNode dp i type major minor
  have hx : x.type = type ∧ x.nlink = 1 ∧ x.ents = if type = .dir then [⟨i, Dir.dot⟩, ⟨dp, Dir.dotdot⟩] else [] := ⟨rfl, rfl, rfl⟩
  have hpre : x.ents <+: [⟨i, Dir.dot⟩, ⟨dp, Dir.dotdot⟩] := newNode_ents dp i type major minor
  change (Dir.made d dp i x ents).node = update (update d.node i x) dp _ at hnode
  change TreeLinks N (Dir.made d dp i x ents) L
  clear_value x
  obtain ⟨hxt, hxn, hxe⟩ := hx
  have hL := (h.tree.free i hf).2
  have hb := h.born (m := 1) hf hi hN (by rwa [hxt]) (by simp [hxn]) (by simp [hxn]) hpre
  have hdp : update d.node i x dp = d.node dp := Function.update_of_ne hne.symm _ _
  have hself : update d.node i x i = x := Function.update_self _ _ _
  have hnamed : named N (update d.node i x) i = 0 := by
    refine (named_congr fun e => ?_).trans (h.tree.free i hf).1
    by_cases he : e = i
    · rw [he, hself, kids_of_dots hpre, Node.kids_of_ne (by rw [hf]; decide)]
    · rw [Function.update_of_ne he]
  have h1 := @Tree.add _ _ _ i dp hb name ents n (by rwa [hdp]) (by rwa [hdp]) (by rwa [hdp])
    (by rwa [hself, hxt]) hne (by simp) (by
      rw [hdp, hself, hxt, hn]
      have : (if Node.Plain name ∧ type = .dir then 1 else 0 : Int) ≤ if type = .dir then 1 else 0 := by
        by_cases ht : type = .dir
        · rw [if_pos ht]
          split <;> omega
        · rw [if_neg ht, if_neg fun hc => ht hc.2]
      omega) hns fun ht _ => ⟨hnamed, by rw [hself, kids_of_dots hpre], by
        rw [hself, hxt] at ht
        exact ⟨[], by rw [hself, hxe, if_pos ht]⟩⟩
  rw [hdp] at h1
  have hL1 : update (update L i 1) i (update L i 1 i - 1) = L := by simp [← hL]
  rw [hL1] at h1
  refine ⟨by rwa [hnode], fun j hj => ?_⟩
  have hji : j ≠ i := by
    rintro rfl
    omega
  rw [made_type hne, if_neg hji]
  exact h.file j hj

end made

theorem change {G : DirCond} (hG : ∀ nd o, G nd o → noOverflow nd o) {x y : Dirs × Links} (h : TreeLinks N x.1 x.2) (hr : x.1.Read)
    (hc : Change N G x y) : TreeLinks N y.1 y.2 := by
  cases hc with
  | same hn _ _ => exact h.of_node hn
  | got _ => exact h.of_node (Dirs.got_node ..)
  | dup _ => exact h.of_node rfl
  | put i => exact h.put i
  | lock _ => exact h.of_node rfl
  | touch ht => exact h.of_node ht.node
  | @data d L i hl x => exact h.data i x rfl
  | @up d L i hg hl ht =>
    have ho : (d.node i).nlink < 2 ^ 15 - 1 := hG _ _ hg ht
    have hf : (d.node i).type ≠ .free := hr.ne_free hl
    have hle : ((named N d.node i + dirKids d.node i + L i : Nat) : Int) ≤ (d.node i).nlink := h.tree.named_le_nlink hf
    have hs : short ((d.node i).nlink + 1) = (d.node i).nlink + 1 := short_of_lt (by omega) (by omega)
    refine h.setLink ht hf ?_ (n := (d.node i).nlink + 1) (by omega) ?_
    · push_cast
      omega
    · simp [Dirs.addLink, hs]
  | @down d L i hl hp =>
    have hf : (d.node i).type ≠ .free := hr.ne_free hl
    have hle : ((named N d.node i + dirKids d.node i + L i : Nat) : Int) ≤ (d.node i).nlink := h.tree.named_le_nlink hf
    have hsm : (d.node i).nlink < 2 ^ 15 := h.tree.small i
    have hs : short ((d.node i).nlink - 1) = (d.node i).nlink - 1 := short_of_lt (by omega) (by omega)
    refine h.setLink (h.file i hp) hf ?_ (n := (d.node i).nlink - 1) (by omega) ?_
    · dsimp only
      omega
    · simp [Dirs.addLink, ← sub_eq_add_neg, hs]
  | link _ _ ht hp hn ha => exact h.link ht hp hn ha
  | unlink _ _ ht h1 h2 hn _ hi _ he => exact unlink ht h1 h2 hi he h hn
  | scrap _ _ _ hty hf hi hN hx => exact (h.scrapped hty hf hi hN hx).put _
  | @made d L dp i name type major minor ents hg _ ht hty hf hi hN hn ha =>
    refine made ht hf h hty hi hN hn ha fun hdir => ?_
    subst hdir
    exact hG _ _ hg hn

end TreeLinks

theorem emptyImage_type (h : (emptyImage i).type ≠ .free) : i = ROOTINO := by
  by_contra hne
  unfold emptyImage at h
  rw [Function.update_of_ne hne] at h
  exact h rfl

theorem emptyImage_kids (i : Inum) : (emptyImage i).kids = [] := by
  by_cases hi : i = ROOTINO
  · rw [hi]
    decide
  · exact Node.kids_of_ne fun hd => hi (emptyImage_type (by rw [hd]; decide))

theorem emptyImage_named : named N emptyImage i = 0 := by
  unfold named
  simp [emptyImage_kids]

theorem emptyImage_needed : needed N emptyImage (fun _ => 0) ROOTINO = 1 := by
  have hdk : dirKids emptyImage ROOTINO = 0 := by
    unfold dirKids
    rw [emptyImage_kids]
    rfl
  unfold needed
  rw [emptyImage_named, hdk, if_pos rfl]
  rfl

/-- The empty root directory is a tree. -/
theorem emptyImage_tree (hN : ROOTINO < N) : Tree N emptyImage fun _ => 0 := by
  refine ⟨fun i hi => ?_, by decide, emptyImage_named, fun i _ => ⟨emptyImage_named, rfl⟩, fun i _ => ?_, fun i hi => ?_,
    fun i => ?_, fun d hd _ => ?_, fun d hd => ?_, fun d hcy => ?_⟩
  · rw [emptyImage_type hi]
    exact ⟨by decide, hN⟩
  · rw [emptyImage_named]
    omega
  · obtain rfl := emptyImage_type hi
    rw [emptyImage_needed]
    decide
  · by_cases hi : i = ROOTINO
    · rw [hi]
      decide
    · unfold emptyImage
      rw [Function.update_of_ne hi]
      decide
  · obtain rfl := emptyImage_type (i := d) (by rw [hd]; decide)
    exact ⟨ROOTINO, [], by decide, by rw [if_pos rfl]⟩
  · obtain rfl := emptyImage_type (i := d) (by rw [hd]; decide)
    decide
  · obtain ⟨b, hb, -⟩ := Relation.TransGen.head'_iff.1 hcy
    unfold Child at hb
    rw [emptyImage_kids] at hb
    cases hb

/-- With link counts that do not overflow, the directories stay a tree. -/
theorem dir_tree {G : DirCond} (hG : ∀ nd o, G nd o → noOverflow nd o) {s : DirSys}
    (h : ((dirLts N fun nd => Tree N nd fun _ => 0).guard (DirSys.Meets G)).Reachable s) :
    ∃ own, s.InvAt own ∧ TreeLinks N s.k.d (links own) ∧ s.k.d.Read := by
  refine dir_invariant (J := fun d L => TreeLinks N d L ∧ d.Read) (fun s hI hb => ⟨⟨hI, nofun⟩, fun i hi _ => ?_⟩)
    (fun x y hx hc => ⟨hx.1.change hG hx.2 hc, hx.2.change hc⟩) h
  rw [hb.eq_root hi, hI.root]
  exact nofun

end tree

end Xv6
