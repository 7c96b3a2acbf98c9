import Xv6.DirLinks

/-!
# A tree of maps

The directories that can be reached from the root make a tree, and the names in each of them are different.  The kernel relies on the
link counts for it: an image with a link count that is too small has a run that gives a directory two names.
-/

namespace Xv6

open Function (update)

/-- A directory that can be reached from the root. -/
def InTree (nd : Inum → Node) (d : Inum) : Prop := Relation.ReflTransGen (Child nd) ROOTINO d ∧ (nd d).type = .dir

/-- Each directory that can be reached has `.` and `..`, its entries have different names, and one entry names it. -/
structure TreeOfMaps (N : Nat) (nd : Inum → Node) : Prop where
  dots : ∀ d, InTree nd d → ∃ p rest, (nd d).ents = ⟨d, Dir.dot⟩ :: ⟨p, Dir.dotdot⟩ :: rest ∧
    if d = ROOTINO then p = ROOTINO else InTree nd p ∧ d ∈ (nd p).kids
  names : ∀ d, InTree nd d → ((nd d).live.map Dirent.name).Nodup
  once : ∀ d, InTree nd d → d ≠ ROOTINO → named N nd d = 1
  acyclic : ∀ d, ¬Relation.TransGen (Child nd) d d

variable {N : Nat} {nd : Inum → Node} {L : Links} {d : Inum}

/-- A directory that can be reached is the root, or named by one. -/
theorem InTree.parent (h : InTree nd d) : d = ROOTINO ∨ ∃ p, InTree nd p ∧ d ∈ (nd p).kids := by
  obtain ⟨hr, hd⟩ := h
  obtain rfl | ⟨p, hp, hc⟩ := Relation.ReflTransGen.cases_tail hr
  · exact .inl rfl
  · exact .inr ⟨p, ⟨hp, (Node.mem_kids.1 hc).1⟩, hc⟩

theorem Tree.treeOfMaps (h : Tree N nd L) : TreeOfMaps N nd where
  dots d hd := by
    obtain rfl | ⟨p, hp, hk⟩ := hd.parent
    · exact h.dots ROOTINO h.root (.inl rfl)
    · obtain ⟨q, rest, he, hq⟩ := h.dots d hd.2 (.inr (h.named_pos hk))
      refine ⟨q, rest, he, ?_⟩
      split at hq
      · rwa [if_pos ‹_›]
      · rw [if_neg ‹_›]
        obtain rfl := h.parent_unique hd.2 hk hq
        exact ⟨hp, hq⟩
  names d hd := h.names d hd.2
  once d hd hne := by
    obtain rfl | ⟨p, -, hk⟩ := hd.parent
    · exact absurd rfl hne
    · have h1 := h.once d hd.2
      have h2 := h.named_pos hk
      omega
  acyclic := h.acyclic

theorem reachable_treeOfMaps {s : DirSys}
    (h : ((dirLts N fun nd => Tree N nd fun _ => 0).guard (DirSys.Meets noOverflow)).Reachable s) : TreeOfMaps N s.k.d.node := by
  obtain ⟨own, -, hJ, -⟩ := dir_tree (fun _ _ hg => hg) h
  exact hJ.tree.treeOfMaps

/-- `noOverflow`, computed. -/
def noOverflowCheck (nd : Inum → Node) : DirOp → Bool
  | .linkUp i => (nd i).type = .dir || (nd i).nlink < 2 ^ 15 - 1
  | .createIn dp .. => (nd dp).nlink < 2 ^ 15 - 1
  | _ => true

theorem noOverflow_of_check (nd : Inum → Node) (o : DirOp) (h : noOverflowCheck nd o = true) : noOverflow nd o := by
  cases o with
  | linkUp i =>
    intro ht
    simpa [noOverflowCheck, ht] using h
  | createIn dp name type major minor =>
    cases type with
    | dir => exact fun _ => of_decide_eq_true h
    | _ => trivial
  | _ => trivial

/-- A directory and another one in it. -/
def mkdirRun : List DirEv :=
  DirCall.alone (.mkdir (some [97])) ⟨0, NPROC_pos⟩ ⟨(true, true), [], true⟩ 7 ++
    DirCall.alone (.mkdir (some [97, 47, 98])) ⟨0, NPROC_pos⟩ ⟨(true, true), [], true⟩ 9

theorem reachable_treeOfMaps_mkdirRun : ∃ s, ((dirLts 10 fun nd => Tree 10 nd fun _ => 0).guard (DirSys.Meets noOverflow)).Reachable s ∧
    (s.k.d.node 3).type = .dir ∧ TreeOfMaps 10 s.k.d.node := by
  have hany : (Lts.replay (fun s e => DirSys.step s 10 e) (DirSys.check noOverflowCheck) (DirSys.boot emptyImage) mkdirRun).any
      (fun s => (s.k.d.node 3).type = .dir) = true := by decide +kernel
  obtain ⟨s, hs, hp⟩ := Lts.Reachable.replay_any (I := fun s => Tree 10 s.k.d.node (fun _ => 0) ∧ s.Booted)
    (DirSys.meets_of_check noOverflow_of_check) ⟨emptyImage_tree (by decide), DirSys.boot_booted _⟩ hany
  exact ⟨s, hs, of_decide_eq_true hp, reachable_treeOfMaps hs⟩

/-- A file with two names, and one link. -/
def twoNamesImage : Inum → Node :=
  update (update (fun _ => {}) ROOTINO
    { type := .dir, nlink := 1, ents := [⟨ROOTINO, Dir.dot⟩, ⟨ROOTINO, Dir.dotdot⟩, ⟨2, [97]⟩, ⟨2, [98]⟩] })
    2 { type := .file, nlink := 1 }

/-- One of the names is removed, and the inode becomes a directory. -/
def twoNamesRun : List DirEv :=
  DirCall.alone (.unlink (some [97])) ⟨0, NPROC_pos⟩ ⟨(true, true), [], true⟩ 7 ++
    DirCall.alone (.mkdir (some [99])) ⟨0, NPROC_pos⟩ ⟨(true, true), [], true⟩ 7

theorem twoNamesImage_treeOfMaps : TreeOfMaps 10 twoNamesImage := by
  have hroot : twoNamesImage ROOTINO =
      { type := .dir, nlink := 1, ents := [⟨ROOTINO, Dir.dot⟩, ⟨ROOTINO, Dir.dotdot⟩, ⟨2, [97]⟩, ⟨2, [98]⟩] } := by decide
  have hkids : ∀ d i, i ∈ (twoNamesImage d).kids → d = ROOTINO ∧ i = 2 := by
    intro d i hi
    by_cases h1 : d = ROOTINO
    · subst h1
      rw [hroot] at hi
      simpa [Node.kids, Node.live, Node.Plain, Dir.dot, Dir.dotdot] using hi
    · have hd := (Node.mem_kids.1 hi).1
      unfold twoNamesImage at hd
      by_cases h2 : d = 2
      · rw [h2, Function.update_self] at hd
        cases hd
      · rw [Function.update_of_ne h2, Function.update_of_ne h1] at hd
        cases hd
  have htree : ∀ d, InTree twoNamesImage d → d = ROOTINO := by
    intro d hd
    obtain rfl | ⟨p, -, hk⟩ := hd.parent
    · rfl
    · have h2 := hd.2
      rw [(hkids p d hk).2] at h2
      exact absurd h2 (by decide)
  refine ⟨fun d hd => ?_, fun d hd => ?_, fun d hd hne => absurd (htree d hd) hne, fun d hcy => ?_⟩
  · rw [htree d hd]
    exact ⟨ROOTINO, [⟨2, [97]⟩, ⟨2, [98]⟩], by rw [hroot], by rw [if_pos rfl]⟩
  · rw [htree d hd]
    decide
  · obtain ⟨b, hb, -⟩ := Relation.TransGen.head'_iff.1 hcy
    obtain ⟨c, -, hc⟩ := Relation.TransGen.tail'_iff.1 hcy
    have h1 := (hkids d b hb).1
    have h2 := (hkids c d hc).2
    rw [h1] at h2
    cases h2

/-- The directory has two names. -/
theorem twoNamesRun_twice : ∃ s, (dirLts 10 (TreeOfMaps 10)).Reachable s ∧ s.Quiet ∧ ¬TreeOfMaps 10 s.k.d.node := by
  have hany : (Lts.replay (fun s e => DirSys.step s 10 e) (fun _ _ => true) (DirSys.boot twoNamesImage) twoNamesRun).any
      (fun s => (s.k.d.node 2).type = .dir ∧ 2 ∈ (s.k.d.node ROOTINO).kids ∧ named 10 s.k.d.node 2 = 2 ∧
        ∀ p, (s.th p).isNone = true) = true := by decide +kernel
  obtain ⟨s, hs, hp⟩ := Lts.Reachable.replay_any (I := fun s => TreeOfMaps 10 s.k.d.node ∧ s.Booted) (C := fun _ _ => True)
    (fun _ _ _ => trivial) ⟨twoNamesImage_treeOfMaps, DirSys.boot_booted _⟩ hany
  obtain ⟨htype, hk, hnamed, hq⟩ := of_decide_eq_true hp
  refine ⟨s, hs.of_guard, fun p => Option.isNone_iff_eq_none.1 (hq p), fun ht => ?_⟩
  have := ht.once 2 ⟨.single hk, htype⟩ (by decide)
  omega

end Xv6
