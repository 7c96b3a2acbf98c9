import Xv6.DirShape

/-!
# Link counts and entries

As long as nothing is entered into a directory without links, the link count of an inode is the number of the entries that name it.  A
removed directory that is still in use is empty; an entry in it would be a link that nothing counts.
-/

namespace Xv6

open Function (update)

/-- The entries other than `.` that name `i`, in directories with a link. -/
def entriesOf (N : Nat) (nd : Inum → Node) (i : Inum) : Nat :=
  ∑ d ∈ Finset.range N, if (nd d).type = .dir ∧ 0 < (nd d).nlink then (nd d).live.countP fun de => de.name ≠ Dir.dot ∧ de.inum = i else 0

def LinksCounted (N : Nat) (nd : Inum → Node) : Prop := ∀ i, (nd i).type ≠ .free → (nd i).nlink = entriesOf N nd i

/-- No link count overflows, and nothing is entered into a directory without links. -/
def intoLinked : DirCond := fun nd o => noOverflow nd o ∧
  match o with
  | .linkIn dp name _ | .createIn dp name .. => (nd dp).NoName name → 0 < (nd dp).nlink
  | _ => True

section count

variable {N : Nat} {nd nd' : Inum → Node} {L L' : Links} {i d dp p : Inum} {x y : Node} {name : Name}

/-- The link counts are exact, and a directory that is not named is empty. -/
structure Exact (N : Nat) (nd : Inum → Node) (L : Links) : Prop where
  nlink : ∀ i, (nd i).type ≠ .free → (nd i).nlink = needed N nd L i
  lone : ∀ d, (nd d).type = .dir → ¬Attached N nd d → (nd d).kids = []

theorem attached_congr (h : ∀ i, named N nd' i = named N nd i) : Attached N nd' d ↔ Attached N nd d := by
  unfold Attached
  rw [h]

namespace Exact

/-- A directory with a link is the root or named. -/
theorem attached (h : Exact N nd L) (hd : (nd d).type = .dir) (hL : L d = 0) (hn : 0 < (nd d).nlink) : Attached N nd d := by
  by_contra ha
  have hk := h.lone d hd ha
  have h1 := h.nlink d (by rw [hd]; decide)
  have h2 : dirKids nd d = 0 := dirKids_eq_zero.2 fun x hx => by simp [hk] at hx
  obtain ⟨hroot, h0⟩ := not_or.1 ha
  unfold needed at h1
  rw [if_neg hroot] at h1
  omega

/-- Nothing but link counts and what does not matter changes. -/
theorem of_same (h : Exact N nd L) (ht : ∀ i, (nd' i).type = (nd i).type) (he : ∀ i, (nd i).type = .dir → (nd' i).ents = (nd i).ents)
    (hn : ∀ i, (nd i).type ≠ .free → (nd i).nlink + L' i = (nd' i).nlink + L i) : Exact N nd' L' := by
  have hk : ∀ d, (nd' d).kids = (nd d).kids := by
    intro d
    by_cases hd : (nd d).type = .dir
    · exact Node.kids_congr (ht d) (he d hd)
    · rw [Node.kids_of_ne hd, Node.kids_of_ne (by rwa [ht])]
  have hc : ∀ i, named N nd' i = named N nd i := fun i => named_congr hk
  have hd : ∀ d, dirKids nd' d = dirKids nd d := fun d => dirKids_congr (hk d) fun x _ => by rw [ht]
  refine ⟨fun i hi => ?_, fun d hdir ha => ?_⟩
  · rw [ht] at hi
    have h1 := h.nlink i hi
    have h2 := hn i hi
    unfold needed at h1 ⊢
    rw [hc, hd]
    omega
  · rw [hk]
    rw [ht] at hdir
    rw [attached_congr hc] at ha
    exact h.lone d hdir ha

/-- A link count changes with the counted links. -/
theorem setLink (h : Exact N nd L) {n : Int} {m : Nat} (hn : (nd i).nlink + m = n + L i) :
    Exact N (update nd i { nd i with nlink := n }) (update L i m) := by
  refine h.of_same (type_setNlink nd i n) (fun j _ => ?_) fun j _ => ?_
  · by_cases hji : j = i
    · rw [hji, Function.update_self]
    · rw [Function.update_of_ne hji]
  · by_cases hji : j = i
    · subst hji
      rw [Function.update_self, Function.update_self]
      exact hn
    · rw [Function.update_of_ne hji, Function.update_of_ne hji]

/-- An inode that is not named and names nothing changes. -/
theorem setNode (h : Exact N nd L) (h0 : ∀ d, i ∉ (nd d).kids) (hk : (nd i).kids = []) (hx : x.kids = [])
    (hn : x.type ≠ .free → x.nlink = L' i + if i = ROOTINO then 1 else 0) (hL : ∀ j ≠ i, L' j = L j) : Exact N (update nd i x) L' := by
  have hkids : ∀ d, (update nd i x d).kids = (nd d).kids := by
    intro d
    by_cases hd : d = i
    · rw [hd, Function.update_self, hk, hx]
    · rw [Function.update_of_ne hd]
  have hc : ∀ j, named N (update nd i x) j = named N nd j := fun j => named_congr hkids
  have hdk : ∀ d, dirKids (update nd i x) d = dirKids nd d := by
    refine fun d => dirKids_congr (hkids d) fun y hy => ?_
    rw [Function.update_of_ne]
    rintro rfl
    exact h0 d hy
  refine ⟨fun j hj => ?_, fun d hd ha => ?_⟩
  · by_cases hji : j = i
    · subst hji
      rw [Function.update_self] at hj ⊢
      have h1 : named N nd j = 0 := by
        unfold named
        simp [List.count_eq_zero.2 (h0 _)]
      have h2 : dirKids nd j = 0 := by
        unfold dirKids
        rw [hk]
        rfl
      unfold needed
      rw [hc, hdk, h1, h2, hn hj]
      simp
    · rw [Function.update_of_ne hji] at hj ⊢
      have := h.nlink j hj
      unfold needed at this ⊢
      rwa [hc, hdk, hL j hji]
  · rw [hkids]
    rw [attached_congr hc] at ha
    by_cases hdi : d = i
    · rw [hdi, hk]
    · rw [Function.update_of_ne hdi] at hd
      exact h.lone d hd ha

/-- An entry more. -/
theorem add (h : Exact N nd L) (hN : dp < N) (hd : (nd dp).type = .dir) (hy : y.type = (nd dp).type)
    (hl : y.live.Perm (⟨i, name⟩ :: (nd dp).live)) (hp : Node.Plain name) (hne : i ≠ dp) (hL : 0 < L i) (ha : Attached N nd dp)
    (hn : y.nlink = (nd dp).nlink + if (nd i).type = .dir then 1 else 0) : Exact N (update nd dp y) (update L i (L i - 1)) := by
  have hty := type_update hy
  have hnamed := named_entry hN hd hy hl
  have hdk := dirKids_entry hd hy hl
  simp only [hp, true_and] at hnamed hdk
  refine ⟨fun j hj => ?_, fun d hdd hat => ?_⟩
  · rw [hty] at hj
    have h1 := h.nlink j hj
    have h2 := hnamed j
    have h3 := hdk j
    unfold needed at h1 ⊢
    by_cases hji : j = i
    · subst hji
      rw [Function.update_of_ne hne, Function.update_self]
      rw [if_pos rfl] at h2
      rw [if_neg fun hc => hne hc.1] at h3
      omega
    · rw [if_neg (Ne.symm hji)] at h2
      rw [Function.update_of_ne hji]
      by_cases hjdp : j = dp
      · subst hjdp
        rw [Function.update_self, hn]
        simp only [true_and] at h3
        rw [h3, h2, h1]
        split <;> push_cast <;> omega
      · rw [if_neg fun hc => hjdp hc.1] at h3
        rw [Function.update_of_ne hjdp, h1, h2, h3]
        simp
  · rw [hty] at hdd
    have hnot : ¬Attached N nd d := by
      refine fun hc => hat (hc.imp_right fun hpos => ?_)
      rw [hnamed]
      omega
    have hddp : d ≠ dp := by
      rintro rfl
      exact hnot ha
    rw [Function.update_of_ne hddp]
    exact h.lone d hdd hnot

/-- An entry less. -/
theorem remove (h : Exact N nd L) (hN : dp < N) (hd : (nd dp).type = .dir) (hy : y.type = (nd dp).type)
    (hl : (nd dp).live.Perm (⟨i, name⟩ :: y.live)) (hp : Node.Plain name) (hne : i ≠ dp)
    (hi : (nd i).type = .dir → (nd i).kids = []) (hn : (nd dp).nlink = y.nlink + if (nd i).type = .dir then 1 else 0) :
    Exact N (update nd dp y) (update L i (L i + 1)) := by
  have hty := type_update hy
  have hnamed := named_removed hd hy hl hN
  have hdk := dirKids_removed hd hy hl
  simp only [hp, true_and] at hnamed hdk
  refine ⟨fun j hj => ?_, fun d hdd hat => ?_⟩
  · rw [hty] at hj
    have h1 := h.nlink j hj
    have h2 := hnamed j
    have h3 := hdk j
    unfold needed at h1 ⊢
    by_cases hji : j = i
    · subst hji
      rw [Function.update_of_ne hne, Function.update_self]
      rw [if_pos rfl] at h2
      rw [if_neg fun hc => hne hc.1] at h3
      omega
    · rw [if_neg (Ne.symm hji)] at h2
      rw [Function.update_of_ne hji]
      by_cases hjdp : j = dp
      · subst hjdp
        rw [Function.update_self]
        simp only [true_and] at h3
        split at h3 <;> split at hn <;> first | contradiction | omega
      · rw [if_neg fun hc => hjdp hc.1] at h3
        rw [Function.update_of_ne hjdp]
        omega
  · rw [hty] at hdd
    by_cases hdi : d = i
    · subst hdi
      rw [Function.update_of_ne hne]
      exact hi hdd
    have hnot : ¬Attached N nd d := by
      refine fun hc => hat (hc.imp_right fun hpos => ?_)
      have := hnamed d
      rw [if_neg (Ne.symm hdi)] at this
      omega
    have hddp : d ≠ dp := by
      rintro rfl
      -- it names `i`, so it is not empty
      have hik : i ∈ (nd d).kids := Node.mem_kids.2 ⟨hd, _, hl.mem_iff.2 List.mem_cons_self, hp, rfl⟩
      rw [h.lone d hdd hnot] at hik
      cases hik
    rw [Function.update_of_ne hddp]
    exact h.lone d hdd hnot

end Exact

/-- An empty directory names nothing but itself and its parent. -/
theorem Dots.kids_of_isEmpty (h : Dots nd d) (he : (nd d).isEmpty) : (nd d).kids = [] := by
  obtain ⟨p, rest, hr, -⟩ := h
  refine List.eq_nil_iff_forall_not_mem.2 fun j hj => ?_
  obtain ⟨-, de, hde, hpl, -⟩ := Node.mem_kids.1 hj
  obtain ⟨hm, hi⟩ := Node.mem_live.1 hde
  have hall := List.all_eq_true.1 he
  rw [hr] at hm hall
  obtain rfl | hm := List.mem_cons.1 hm
  · exact hpl.1 rfl
  obtain rfl | hm := List.mem_cons.1 hm
  · exact hpl.2 rfl
  exact hi (of_decide_eq_true (hall de hm))

/-- A directory with `.` and `..` gets no other entry with such a name. -/
theorem Dots.plain (h : Dots nd d) (hd : (nd d).type = .dir) (hr : ∀ i, (nd i).type = .dir → i ≠ 0) (hno : (nd d).NoName name) :
    Node.Plain name := by
  obtain ⟨p, rest, he, hp⟩ := h
  have hp0 : p ≠ 0 := by
    split at hp
    · rw [hp]
      decide
    · exact hr p (Node.mem_kids.1 hp).1
  refine ⟨?_, ?_⟩
  · rintro rfl
    exact hno ⟨d, Dir.dot⟩ (Node.mem_live.2 ⟨by simp [he], hr d hd⟩) rfl
  · rintro rfl
    exact hno ⟨p, Dir.dotdot⟩ (Node.mem_live.2 ⟨by simp [he], hp0⟩) rfl

structure Counted (N : Nat) (d : Dirs) (L : Links) : Prop where
  links : TreeLinks N d L
  read : d.Read
  exact : Exact N d.node L

namespace Counted

variable {d d' : Dirs} {m : Nat}

theorem ne_zero (h : Counted N d L) (i : Inum) (hi : (d.node i).type = .dir) : i ≠ 0 := (h.links.tree.range i (by rw [hi]; decide)).1

theorem links_dir (h : Counted N d L) (hi : (d.node i).type = .dir) : L i = 0 := by
  by_contra hL
  exact h.links.file i (by omega) hi

/-- A directory with a link has `.` and `..`. -/
theorem attached (h : Counted N d L) (hd : (d.node dp).type = .dir) (hn : 0 < (d.node dp).nlink) : Attached N d.node dp :=
  h.exact.attached hd (h.links_dir hd) hn

/-- What has no links is not named and names nothing. -/
theorem kids_of_nlink_zero (h : Counted N d L) (hn : (d.node i).nlink = 0) : (∀ d', i ∉ (d.node d').kids) ∧ (d.node i).kids = [] := by
  by_cases hf : (d.node i).type = .free
  · exact ⟨h.links.tree.not_mem (h.links.tree.free i hf).1, Node.kids_of_ne (by rw [hf]; decide)⟩
  obtain ⟨h0, -, -, hroot⟩ := h.links.tree.of_nlink_zero hf hn
  refine ⟨h.links.tree.not_mem h0, ?_⟩
  by_cases hd : (d.node i).type = .dir
  · exact h.exact.lone i hd (not_or.2 ⟨hroot, by omega⟩)
  · exact Node.kids_of_ne hd

theorem put_exact (h : Counted N d L) (i : Inum) : Exact N (d.put i).node L := by
  rw [Dirs.put_node]
  split
  · rename_i hl
    obtain ⟨h0, hk⟩ := h.kids_of_nlink_zero hl.2.2
    exact h.exact.setNode h0 hk (Node.kids_of_ne (by simp [Dir.freed])) (fun hc => absurd rfl hc) fun _ _ => rfl
  · exact h.exact

theorem plain (h : Counted N d L) (hd : (d.node dp).type = .dir) (hn : 0 < (d.node dp).nlink) (hno : (d.node dp).NoName name) :
    Node.Plain name :=
  (h.links.tree.dots dp hd (h.attached hd hn)).plain hd h.ne_zero hno

theorem link_exact (h : Counted N d L) {ents : List Dirent} (hd : (d.node dp).type = .dir) (hl : 0 < L i) (hno : (d.node dp).NoName name)
    (ha : (d.node dp).Added ⟨i, name⟩ ents) (hn : 0 < (d.node dp).nlink) :
    Exact N ((d.lock dp).setEnts dp ents).node (update L i (L i - 1)) := by
  have hi := h.links.file i hl
  have hi0 := (h.links.tree.range i (h.links.ne_free hl)).1
  have hne : i ≠ dp := by
    rintro rfl
    exact hi hd
  refine h.exact.add (h.links.tree.range dp (by rw [hd]; decide)).2 hd rfl (ha.live_perm hi0) (h.plain hd hn hno) hne hl
    (h.attached hd hn) ?_
  rw [if_neg hi, add_zero]
  rfl

theorem unlink_exact (h : Counted N d L) {l₁ l₂ : List Dirent} (hd : (d.node dp).type = .dir) (h1 : name ≠ Dir.dot)
    (h2 : name ≠ Dir.dotdot) (hi : i ≠ 0) (he : (d.node dp).ents = l₁ ++ ⟨i, name⟩ :: l₂) (hn : 1 ≤ (d.node i).nlink)
    (hemp : (d.node i).type = .dir → (d.node i).isEmpty) : Exact N (Dir.unlinked d dp i (l₁ ++ ⟨0, []⟩ :: l₂)).node L := by
  have hne := TreeLinks.ne_dir hd h1 h2 hi he h.links
  have hk := TreeLinks.mem_kids hd h1 h2 hi he
  obtain ⟨n, -, hn', hnode⟩ := TreeLinks.unlinked_node hd h1 h2 hi he h.links hn
  have hN := (h.links.tree.range dp (by rw [hd]; decide)).2
  have h3 := h.exact.remove (y := { d.node dp with ents := l₁ ++ ⟨0, []⟩ :: l₂, nlink := n }) hN hd rfl
    (Node.removed_live_perm he hi) ⟨h1, h2⟩ hne
    (fun ht => (h.links.tree.dots i ht (.inr (h.links.tree.named_pos hk))).kids_of_isEmpty (hemp ht)) hn'
  have hself : update d.node dp { d.node dp with ents := l₁ ++ ⟨0, []⟩ :: l₂, nlink := n } i = d.node i := Function.update_of_ne hne _ _
  have h4 := h3.setLink (i := i) (n := (d.node i).nlink - 1) (m := L i) (by
    rw [hself, Function.update_self]
    omega)
  have hL : update (update L i (L i + 1)) i (L i) = L := by simp
  rw [hself, hL] at h4
  rwa [hnode]

/-- A free inode is made. -/
theorem born_exact (h : Counted N d L) (hf : (d.node i).type = .free) (he : x.ents <+: [⟨i, Dir.dot⟩, ⟨p, Dir.dotdot⟩])
    (hn : x.nlink = m) : Exact N (update d.node i x) (update L i m) := by
  have hroot : i ≠ ROOTINO := by
    rintro rfl
    exact absurd (hf.symm.trans h.links.tree.root) nofun
  refine h.exact.setNode (h.links.tree.not_mem (h.links.tree.free i hf).1) (Node.kids_of_ne (by rw [hf]; decide)) (kids_of_dots he)
    (fun _ => ?_) fun j hj => Function.update_of_ne hj _ _
  rw [Function.update_self, if_neg hroot, add_zero, hn]

theorem scrap_exact (h : Counted N d L) {type : Ftype} (hl : d.Lockable dp) (hty : type ≠ .free) (hf : (d.node i).type = .free)
    (hi : i ≠ 0) (hN : i < N) (hx : Dir.Scrapped dp i type x) : Exact N ((Dir.born d dp i x).put i).node L := by
  have hself : update L i 0 = L := by rw [← (h.links.tree.free i hf).2, Function.update_eq_self]
  have hb := h.born_exact (m := 0) hf hx.ents hx.nlink
  rw [hself] at hb
  exact put_exact ⟨h.links.scrapped hty hf hi hN hx, h.read.born hl (by rwa [hx.type]), hb⟩ i

theorem made_exact (h : Counted N d L) {ents : List Dirent} {type : Ftype} {major minor : Int} (hd : (d.node dp).type = .dir)
    (hf : (d.node i).type = .free) (hi : i ≠ 0) (hno : (d.node dp).NoName name) (ha : (d.node dp).Added ⟨i, name⟩ ents)
    (hs : type = .dir → (d.node dp).nlink < 2 ^ 15 - 1) (hn : 0 < (d.node dp).nlink) :
    Exact N (Dir.made d dp i (Dir.newNode dp i type major minor) ents).node L := by
  have hne := TreeLinks.ne_new hd hf
  obtain ⟨n, -, hn', hnode⟩ := TreeLinks.made_node hd hf h.links ents major minor hs
  have hb := h.born_exact (m := 1) (x := Dir.newNode dp i type major minor) hf (TreeLinks.newNode_ents ..) rfl
  have hdp : update d.node i (Dir.newNode dp i type major minor) dp = d.node dp := Function.update_of_ne hne.symm _ _
  have hself : update d.node i (Dir.newNode dp i type major minor) i = Dir.newNode dp i type major minor := Function.update_self _ _ _
  have h1 := hb.add (y := { d.node dp with ents, nlink := n }) (h.links.tree.range dp (by rw [hd]; decide)).2 (by rwa [hdp])
    (by rw [hdp]) (by rw [hdp]; exact ha.live_perm hi) (h.plain hd hn hno) hne (by simp) ?_ ?_
  · have hL1 : update (update L i 1) i (update L i 1 i - 1) = L := by simp [← (h.links.tree.free i hf).2]
    rw [hL1] at h1
    rwa [hnode]
  · refine (attached_congr fun j => named_congr fun e => ?_).2 (h.attached hd hn)
    by_cases he : e = i
    · rw [he, hself, kids_of_dots (TreeLinks.newNode_ents ..), Node.kids_of_ne (by rw [hf]; decide)]
    · rw [Function.update_of_ne he]
  · rw [hdp, hself]
    exact hn'

theorem change {G : DirCond} (hG : ∀ nd o, G nd o → intoLinked nd o) {x y : Dirs × Links} (h : Counted N x.1 x.2)
    (hc : Change N G x y) : Counted N y.1 y.2 := by
  refine ⟨h.links.change (fun nd o hg => (hG nd o hg).1) h.read hc, h.read.change hc, ?_⟩
  have he := h.exact
  cases hc with
  | same hn _ _ => rwa [hn]
  | got _ => rwa [Dirs.got_node]
  | dup _ => exact he
  | put i => exact h.put_exact i
  | lock _ => exact he
  | touch ht => rwa [ht.node]
  | @data d L i hl x =>
    have heq := setData_same d.node i x
    refine he.of_same (fun j => (heq j).1) (fun j _ => (heq j).2.1) fun j _ => ?_
    change _ = (update d.node i _ j).nlink + _
    rw [(heq j).2.2]
  | @up d L i hg hl ht =>
    have ho : (d.node i).nlink < 2 ^ 15 - 1 := (hG _ _ hg).1 ht
    have hle : _ ≤ (d.node i).nlink := h.links.tree.named_le_nlink (h.read.ne_free hl)
    have hs : short ((d.node i).nlink + 1) = (d.node i).nlink + 1 := short_of_lt (by omega) (by omega)
    have := he.setLink (i := i) (n := (d.node i).nlink + 1) (m := L i + 1) (by push_cast; omega)
    simpa [Dirs.addLink, hs] using this
  | @down d L i hl hp =>
    have hle : ((named N d.node i + dirKids d.node i + L i : Nat) : Int) ≤ (d.node i).nlink :=
      h.links.tree.named_le_nlink (h.read.ne_free hl)
    have hsm : (d.node i).nlink < 2 ^ 15 := h.links.tree.small i
    have hs : short ((d.node i).nlink - 1) = (d.node i).nlink - 1 := short_of_lt (by omega) (by omega)
    have := he.setLink (i := i) (n := (d.node i).nlink - 1) (m := L i - 1) (by dsimp only; omega)
    simpa [Dirs.addLink, ← sub_eq_add_neg, hs] using this
  | link hg _ ht hp hn ha => exact h.link_exact ht hp hn ha ((hG _ _ hg).2 hn)
  | unlink _ _ ht h1 h2 hn hemp hi _ hents => exact h.unlink_exact ht h1 h2 hi hents hn hemp
  | scrap _ hl _ hty hf hi hN hx => exact h.scrap_exact hl hty hf hi hN hx
  | @made d L dp i name type major minor ents hg _ ht _ hf hi _ hn ha =>
    refine h.made_exact ht hf hi hn ha (fun hdir => ?_) ((hG _ _ hg).2 hn)
    subst hdir
    exact (hG _ _ hg).1 hn

end Counted

/-! ### The sum -/

/-- A directory with `.` and `..`: each other entry is named, and `..` is one more. -/
theorem countP_entries {rest : List Dirent} (hd : x.type = .dir) (he : x.ents = ⟨d, Dir.dot⟩ :: ⟨p, Dir.dotdot⟩ :: rest) (hd0 : d ≠ 0)
    (hp0 : p ≠ 0) (hn : (x.live.map Dirent.name).Nodup) (i : Inum) :
    (x.live.countP fun de => de.name ≠ Dir.dot ∧ de.inum = i) = x.kids.count i + if p = i then 1 else 0 := by
  let r := rest.filter fun de => de.inum ≠ 0
  have hlive : x.live = ⟨d, Dir.dot⟩ :: ⟨p, Dir.dotdot⟩ :: r := by
    unfold Node.live
    simp [he, hd0, hp0, r]
  rw [hlive, List.map_cons, List.map_cons, List.nodup_cons, List.nodup_cons] at hn
  have hplain : ∀ de ∈ r, Node.Plain de.name := by
    intro de hde
    have hm := List.mem_map_of_mem (f := Dirent.name) hde
    refine ⟨fun hc => hn.1 ?_, fun hc => hn.2.1 ?_⟩
    · rw [← hc]
      exact List.mem_cons_of_mem _ hm
    · rwa [← hc]
  have hkids : x.kids = r.map Dirent.inum := by
    unfold Node.kids
    rw [if_pos hd, hlive, List.filter_cons, List.filter_cons, List.filter_eq_self.2 fun de hde => decide_eq_true (hplain de hde)]
    simp [Node.Plain]
  have hcount : (r.countP fun de => de.name ≠ Dir.dot ∧ de.inum = i) = r.countP fun de => de.inum = i := by
    refine List.countP_congr fun de hde => ?_
    simp [(hplain de hde).1]
  have hmap : (r.map Dirent.inum).count i = r.countP fun de => de.inum = i := by
    unfold List.count
    rw [List.countP_map]
    exact List.countP_congr fun de _ => by simp
  rw [hlive, List.countP_cons, List.countP_cons, hkids, hmap, hcount]
  simp [Dir.dot, Dir.dotdot]

/-- The inode that `..` names. -/
def parentOf (x : Node) : Inum := (x.ents.getD 1 ⟨0, []⟩).inum

/-- A list as a sum over the numbers that are in it. -/
theorem countP_eq_sum {P : Inum → Prop} [DecidablePred P] {l : List Inum} (h : ∀ x ∈ l, x < N) :
    (l.countP fun x => P x) = ∑ d ∈ Finset.range N, if P d then l.count d else 0 := by
  induction l with
  | nil => simp
  | cons x l ih =>
    have hx : x ∈ Finset.range N := Finset.mem_range.2 (h x List.mem_cons_self)
    have hsum : (∑ d ∈ Finset.range N, if P d then (x :: l).count d else 0) =
        (∑ d ∈ Finset.range N, if P d then l.count d else 0) + ∑ d ∈ Finset.range N, if d = x then (if P d then 1 else 0) else 0 := by
      rw [← Finset.sum_add_distrib]
      refine Finset.sum_congr rfl fun d _ => ?_
      rw [List.count_cons]
      by_cases hdx : d = x
      · subst hdx
        split <;> simp
      · simp [hdx, Ne.symm hdx]
    rw [hsum, ← ih fun y hy => h y (List.mem_cons_of_mem _ hy), Finset.sum_ite_eq' , if_pos hx, List.countP_cons]
    simp

/-- Without counted links, the directories that have a link are the root and those that are named. -/
theorem Exact.attached_iff (he : Exact N nd L) (hL : L d = 0) (hd : (nd d).type = .dir) : 0 < (nd d).nlink ↔ Attached N nd d := by
  refine ⟨he.attached hd hL, fun ha => ?_⟩
  have h1 := he.nlink d (by rw [hd]; decide)
  unfold needed at h1
  obtain rfl | hpos := ha
  · rw [if_pos rfl] at h1
    omega
  · split at h1 <;> omega

namespace Tree

variable (h : Tree N nd L) (he : Exact N nd L) (hL : ∀ i, L i = 0)

include h he hL

/-- A directory with a link has its parent as `..`; the root has no other parent than itself. -/
theorem parent_iff (hd : (nd d).type = .dir) (i : Inum) :
    (if ((nd d).type = .dir ∧ 0 < (nd d).nlink) ∧ parentOf (nd d) = i then 1 else 0) =
      (nd i).kids.count d + if d = ROOTINO then (if i = ROOTINO then 1 else 0) else 0 := by
  have hlink := he.attached_iff (hL d) hd
  by_cases hr : d = ROOTINO
  · subst hr
    obtain ⟨p, rest, hents, hp⟩ := h.dots ROOTINO hd (.inl rfl)
    rw [if_pos rfl] at hp
    have hpar : parentOf (nd ROOTINO) = ROOTINO := by
      unfold parentOf
      simp [hents, hp]
    rw [if_pos rfl, hpar, List.count_eq_zero.2 (h.not_mem h.unnamed i), zero_add]
    have hn := hlink.2 (.inl rfl)
    simp only [hd, hn, and_self, true_and, eq_comm]
  rw [if_neg hr, add_zero]
  by_cases hk : d ∈ (nd i).kids
  · have ha : Attached N nd d := .inr (h.named_pos hk)
    obtain ⟨p, rest, hents, hp⟩ := h.dots d hd ha
    rw [if_neg hr] at hp
    have hpar : parentOf (nd d) = i := by
      unfold parentOf
      rw [hents]
      exact h.parent_unique hd hp hk
    have h1 := h.count_le i d
    have h2 := h.once d hd
    have h3 := List.count_pos_iff.2 hk
    rw [if_pos ⟨⟨hd, hlink.2 ha⟩, hpar⟩]
    omega
  · rw [List.count_eq_zero.2 hk, if_neg]
    rintro ⟨⟨-, hn⟩, hpar⟩
    obtain ⟨p, rest, hents, hp⟩ := h.dots d hd (hlink.1 hn)
    rw [if_neg hr] at hp
    have : p = i := by
      rw [← hpar]
      unfold parentOf
      rw [hents]
      rfl
    exact hk (this ▸ hp)

/-- Each subdirectory names its parent as `..`. -/
theorem sum_parents (i : Inum) :
    (∑ d ∈ Finset.range N, if ((nd d).type = .dir ∧ 0 < (nd d).nlink) ∧ parentOf (nd d) = i then 1 else 0) =
      dirKids nd i + if i = ROOTINO then 1 else 0 := by
  have hroot : ROOTINO ∈ Finset.range N := Finset.mem_range.2 (h.range ROOTINO (by rw [h.root]; decide)).2
  have hterm : ∀ d, (if ((nd d).type = .dir ∧ 0 < (nd d).nlink) ∧ parentOf (nd d) = i then 1 else 0) =
      (if (nd d).type = .dir then (nd i).kids.count d else 0) + if d = ROOTINO then (if i = ROOTINO then 1 else 0) else 0 := by
    intro d
    by_cases hd : (nd d).type = .dir
    · rw [if_pos hd]
      exact h.parent_iff he hL hd i
    · have hr : d ≠ ROOTINO := by
        rintro rfl
        exact hd h.root
      rw [if_neg hd, if_neg hr, if_neg fun hc => hd hc.1.1]
  have hlt : ∀ x ∈ (nd i).kids, x < N := fun x hx => (h.range x (h.kid_ne_free hx)).2
  rw [Finset.sum_congr rfl fun d _ => hterm d, Finset.sum_add_distrib, Finset.sum_ite_eq', if_pos hroot]
  unfold dirKids
  rw [countP_eq_sum (P := fun x => (nd x).type = .dir) hlt]

/-- The link counts are the numbers of entries. -/
theorem linksCounted : LinksCounted N nd := by
  intro i hi
  have hterm : ∀ d, (if (nd d).type = .dir ∧ 0 < (nd d).nlink then (nd d).live.countP fun de => de.name ≠ Dir.dot ∧ de.inum = i else 0) =
      (nd d).kids.count i + if ((nd d).type = .dir ∧ 0 < (nd d).nlink) ∧ parentOf (nd d) = i then 1 else 0 := by
    intro d
    by_cases hd : (nd d).type = .dir
    · by_cases ha : Attached N nd d
      · have hn := (he.attached_iff (hL d) hd).2 ha
        obtain ⟨p, rest, hents, hp⟩ := h.dots d hd ha
        have hd0 := (h.range d (by rw [hd]; decide)).1
        have hp0 : p ≠ 0 := by
          split at hp
          · rw [hp]
            decide
          · exact (h.range p (by rw [(Node.mem_kids.1 hp).1]; decide)).1
        have hpar : parentOf (nd d) = p := by
          unfold parentOf
          rw [hents]
          rfl
        rw [if_pos ⟨hd, hn⟩, countP_entries hd hents hd0 hp0 (h.names d hd), hpar]
        simp [hd, hn]
      · -- a directory that is not named is empty
        have hn : ¬0 < (nd d).nlink := fun hn => ha ((he.attached_iff (hL d) hd).1 hn)
        rw [if_neg fun hc => hn hc.2, if_neg fun hc => hn hc.1.2, he.lone d hd ha]
        rfl
    · rw [if_neg fun hc => hd hc.1, if_neg fun hc => hd hc.1.1, Node.kids_of_ne hd]
      rfl
  have hsum : entriesOf N nd i = named N nd i + (dirKids nd i + if i = ROOTINO then 1 else 0) := by
    unfold entriesOf
    rw [Finset.sum_congr rfl fun d _ => hterm d, Finset.sum_add_distrib, h.sum_parents he hL i]
    rfl
  rw [he.nlink i hi, hsum]
  unfold needed
  rw [hL]
  push_cast
  omega

end Tree

end count

/-- Between calls, no counted link waits for its entry. -/
theorem DirSys.InvAt.links_quiet {s : DirSys} {own : Fin NPROC → Multiset Hold} (h : s.InvAt own) (hq : s.Quiet) (i : Inum) :
    links own i = 0 := by
  unfold links heldBy
  refine Finset.sum_eq_zero fun p _ => ?_
  rw [(h.idle p (hq p)).2]
  exact DirSys.res_count_link _ i

/-- A tree whose link counts are the numbers of entries, without lost directories that are not empty. -/
structure CountedImage (N : Nat) (nd : Inum → Node) : Prop where
  tree : Tree N nd fun _ => 0
  exact : Exact N nd fun _ => 0

/-- In such an image the link counts are the numbers of entries. -/
theorem CountedImage.linksCounted {N : Nat} {nd : Inum → Node} (h : CountedImage N nd) : LinksCounted N nd :=
  h.tree.linksCounted h.exact fun _ => rfl

theorem CountedImage.counted {N : Nat} {s : DirSys} (h : CountedImage N s.k.d.node) (hb : s.Booted) : Counted N s.k.d fun _ => 0 where
  links := ⟨h.tree, nofun⟩
  read i hi _ := by
    rw [hb.eq_root hi, h.tree.root]
    decide
  exact := h.exact

theorem reachable_linksCounted {N : Nat} {s : DirSys}
    (h : ((dirLts N (CountedImage N)).guard (DirSys.Meets intoLinked)).Reachable s) (hq : s.Quiet) : LinksCounted N s.k.d.node := by
  obtain ⟨own, hinv, hJ⟩ := dir_invariant (J := Counted N) (fun _ hI hb => hI.counted hb)
    (fun _ _ hx hc => hx.change (fun _ _ hg => hg) hc) h
  exact hJ.links.tree.linksCounted hJ.exact (hinv.links_quiet hq)

theorem emptyImage_counted {N : Nat} (hN : ROOTINO < N) : CountedImage N emptyImage := by
  refine ⟨emptyImage_tree hN, fun i hi => ?_, fun d hd _ => emptyImage_kids d⟩
  obtain rfl := emptyImage_type hi
  rw [emptyImage_needed]
  decide

/-- `intoLinked`, computed. -/
def intoLinkedCheck (nd : Inum → Node) (o : DirOp) : Bool :=
  noOverflowCheck nd o &&
    match o with
    | .linkIn dp .. | .createIn dp .. => 0 < (nd dp).nlink
    | _ => true

theorem intoLinked_of_check (nd : Inum → Node) (o : DirOp) (h : intoLinkedCheck nd o = true) : intoLinked nd o := by
  unfold intoLinkedCheck at h
  rw [Bool.and_eq_true] at h
  refine ⟨noOverflow_of_check nd o h.1, ?_⟩
  cases o with
  | linkIn dp name i => exact fun _ => of_decide_eq_true h.2
  | createIn dp name type major minor => exact fun _ => of_decide_eq_true h.2
  | _ => trivial

/-- A file gets a second name, and a directory is removed. -/
def linkRun : List DirEv :=
  DirCall.alone (.mkdir (some [97])) ⟨0, NPROC_pos⟩ ⟨(true, true), [], true⟩ 7 ++
    DirCall.alone (.mknod (some [98]) 1 1) ⟨0, NPROC_pos⟩ ⟨(true, true), [], true⟩ 7 ++
    DirCall.alone (.link (some [98]) (some [99])) ⟨0, NPROC_pos⟩ ⟨(true, true), [], true⟩ 11 ++
    DirCall.alone (.unlink (some [97])) ⟨0, NPROC_pos⟩ ⟨(true, true), [], true⟩ 7

theorem reachable_linksCounted_linkRun :
    ∃ s, ((dirLts 10 (CountedImage 10)).guard (DirSys.Meets intoLinked)).Reachable s ∧ (s.k.d.node 3).nlink = 2 ∧
      LinksCounted 10 s.k.d.node := by
  have hany : (Lts.replay (fun s e => DirSys.step s 10 e) (DirSys.check intoLinkedCheck) (DirSys.boot emptyImage) linkRun).any
      (fun s => (s.k.d.node 3).nlink = 2 ∧ ∀ p, (s.th p).isNone = true) = true := by decide +kernel
  obtain ⟨s, hs, hp⟩ := Lts.Reachable.replay_any (I := fun s => CountedImage 10 s.k.d.node ∧ s.Booted)
    (DirSys.meets_of_check intoLinked_of_check) ⟨emptyImage_counted (by decide), DirSys.boot_booted _⟩ hany
  obtain ⟨hn, hq⟩ := of_decide_eq_true hp
  exact ⟨s, hs, hn, reachable_linksCounted hs fun p => Option.isNone_iff_eq_none.1 (hq p)⟩

/-- A device is made in the current directory, which has been removed. -/
def removedDirRun : List DirEv :=
  DirCall.alone (.mkdir (some [97])) ⟨0, NPROC_pos⟩ ⟨(true, true), [], true⟩ 7 ++
    DirCall.alone (.chdir (some [97])) ⟨0, NPROC_pos⟩ ⟨(true, true), [], true⟩ 7 ++
    DirCall.alone (.unlink (some [47, 97])) ⟨0, NPROC_pos⟩ ⟨(true, true), [], true⟩ 7 ++
    DirCall.alone (.mknod (some [98]) 1 1) ⟨0, NPROC_pos⟩ ⟨(true, true), [], true⟩ 7

/-- Its link is not counted. -/
theorem removedDirRun_uncounted : ∃ s, (dirLts 10 (LinksCounted 10)).Reachable s ∧ s.Quiet ∧ ¬LinksCounted 10 s.k.d.node := by
  have hany : (Lts.replay (fun s e => DirSys.step s 10 e) (fun _ _ => true) (DirSys.boot emptyImage) removedDirRun).any
      (fun s => (s.k.d.node 3).type ≠ .free ∧ (s.k.d.node 3).nlink ≠ (entriesOf 10 s.k.d.node 3 : Int) ∧ ∀ p, (s.th p).isNone = true) = true := by
    decide +kernel
  obtain ⟨s, hs, hp⟩ := Lts.Reachable.replay_any (I := fun s => LinksCounted 10 s.k.d.node ∧ s.Booted) (C := fun _ _ => True)
    (fun _ _ _ => trivial) ⟨(emptyImage_counted (by decide)).linksCounted, DirSys.boot_booted _⟩ hany
  obtain ⟨hf, hn, hq⟩ := of_decide_eq_true hp
  exact ⟨s, hs.of_guard, fun p => Option.isNone_iff_eq_none.1 (hq p), fun h => hn (h 3 hf)⟩

end Xv6
