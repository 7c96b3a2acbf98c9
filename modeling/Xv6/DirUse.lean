import Xv6.DirOwn

/-!
# Inodes without links

An inode that is allocated and has no links is referred to in memory, and has been read: the last `iput` frees it.
-/

namespace Xv6

open Function (update)

namespace Dirs

/-- An allocated inode without links is in use and has been read. -/
def InUse (d : Dirs) : Prop := ∀ i, (d.node i).type ≠ .free → (d.node i).nlink = 0 → 0 < d.ref i ∧ d.valid i = true

variable {d d' : Dirs} {i : Inum}

theorem InUse.lock (h : d.InUse) (i : Inum) : (d.lock i).InUse := by
  intro j ht hn
  obtain ⟨hr, hv⟩ := h j ht hn
  refine ⟨hr, ?_⟩
  rw [lock_valid]
  by_cases hj : j = i
  · rw [hj, Function.update_self]
  · rwa [Function.update_of_ne hj]

theorem InUse.setNode (h : d.InUse) (hr : 0 < d.ref i) (hv : d.valid i = true) (x : Node) : (d.setNode i x).InUse := by
  intro j ht hn
  by_cases hj : j = i
  · subst hj
    exact ⟨hr, hv⟩
  · rw [setNode_node, Function.update_of_ne hj] at ht hn
    exact h j ht hn

/-- A locked inode is changed. -/
theorem InUse.lock_setNode (h : d.InUse) (hl : d.Lockable i) (x : Node) : ((d.lock i).setNode i x).InUse :=
  (h.lock i).setNode hl.1 (Function.update_self ..) x

theorem InUse.unread (h : d.InUse) (hr : d.ref i = 0) : (d.setValid i false).InUse := by
  intro j ht hn
  obtain ⟨hr', hv⟩ := h j ht hn
  have hj : j ≠ i := by
    rintro rfl
    omega
  exact ⟨hr', by rwa [setValid_valid, Function.update_of_ne hj]⟩

theorem InUse.setRef (h : d.InUse) {n : Nat} (hn : 0 < d.ref i → 0 < n) : (d.setRef i n).InUse := by
  intro j ht hnl
  obtain ⟨hr, hv⟩ := h j ht hnl
  refine ⟨?_, hv⟩
  by_cases hj : j = i
  · subst hj
    rw [setRef_ref, Function.update_self]
    exact hn hr
  · rwa [setRef_ref, Function.update_of_ne hj]

theorem InUse.got (h : d.InUse) (i : Inum) : (d.got i).InUse := by
  unfold Dirs.got
  split
  · exact h.setRef fun _ => Nat.succ_pos _
  · exact InUse.setRef (h.unread (by omega)) fun _ => Nat.succ_pos _

theorem InUse.put (h : d.InUse) (i : Inum) : (d.put i).InUse := by
  intro j ht hn
  rw [put_node] at ht hn
  rw [put_ref, put_valid]
  by_cases hl : d.Last i
  · rw [if_pos hl] at ht hn ⊢
    by_cases hj : j = i
    · subst hj
      simp [Dir.freed] at ht
    · rw [Function.update_of_ne hj] at ht hn ⊢
      rw [Function.update_of_ne hj]
      exact h j ht hn
  · rw [if_neg hl] at ht hn ⊢
    obtain ⟨hr, hv⟩ := h j ht hn
    by_cases hj : j = i
    · subst hj
      have hne : d.ref j ≠ 1 := fun h1 => hl ⟨h1, hv, hn⟩
      rw [Function.update_self]
      exact ⟨by omega, hv⟩
    · rw [Function.update_of_ne hj]
      exact ⟨hr, hv⟩

/-- A new inode is in use and counts as read. -/
theorem InUse.born (h : d.InUse) (dp i : Inum) (x : Node) : (Dir.born d dp i x).InUse := by
  intro j ht hn
  by_cases hj : j = i
  · subst hj
    simp [Dir.born]
  · rw [Dir.born_node, Function.update_of_ne hj] at ht hn
    obtain ⟨hr, hv⟩ := h.lock dp j ht hn
    rw [lock_valid] at hv
    simp only [Dir.born, lock_ref, setRef_ref, setNode_ref, lock_valid, setRef_valid, setNode_valid, Function.update_of_ne hj]
    exact ⟨hr, hv⟩

theorem InUse.unlinked (h : d.InUse) {dp i : Inum} (hl : d.Lockable dp) (ents : List Dirent) : (Dir.unlinked d dp i ents).InUse := by
  have h1 : (((d.lock dp).got i).lock i).InUse := ((h.lock dp).got i).lock i
  have hi : 0 < (((d.lock dp).got i).lock i).ref i ∧ (((d.lock dp).got i).lock i).valid i = true := by simp
  have hdp : 0 < (((d.lock dp).got i).lock i).ref dp ∧ (((d.lock dp).got i).lock i).valid dp = true := by
    by_cases hj : dp = i
    · subst hj
      exact hi
    · rw [lock_ref, got_ref, lock_valid, Function.update_of_ne hj, Function.update_of_ne hj, got_valid_of_ne _ hj, lock_valid]
      exact ⟨hl.1, Function.update_self ..⟩
  have h2 := h1.setNode hdp.1 hdp.2 { (((d.lock dp).got i).lock i).node dp with ents }
  unfold Dir.unlinked
  dsimp only
  split
  · exact (h2.setNode hdp.1 hdp.2 _).setNode hi.1 hi.2 _
  · exact h2.setNode hi.1 hi.2 _

theorem InUse.made (h : d.InUse) {dp i : Inum} (hl : d.Lockable dp) (x : Node) (ents : List Dirent) : (Dir.made d dp i x ents).InUse := by
  have h1 := h.born dp i x
  have hdp : 0 < (Dir.born d dp i x).ref dp ∧ (Dir.born d dp i x).valid dp = true := by
    by_cases hj : dp = i
    · subst hj
      simp [Dir.born]
    · simpa [Dir.born, Function.update_of_ne hj] using hl.1
  have h2 := h1.setNode hdp.1 hdp.2 { (Dir.born d dp i x).node dp with ents }
  unfold Dir.made
  split
  · exact h2.setNode hdp.1 hdp.2 _
  · exact h2

theorem InUse.change {N : Nat} {G : DirCond} {x y : Dirs × Links} (h : x.1.InUse) (hc : Change N G x y) : y.1.InUse := by
  cases hc with
  | same hn hr hv =>
    intro j ht hl
    rw [hn] at ht hl
    rw [hr, hv]
    exact h j ht hl
  | got _ => exact h.got _
  | dup _ => exact h.setRef fun _ => Nat.succ_pos _
  | put i => exact h.put i
  | lock _ => exact h.lock _
  | touch ht =>
    obtain rfl | ⟨j, hj, rfl⟩ := ht
    · exact h
    · exact h.unread hj
  | data hl x => exact h.lock_setNode hl _
  | up _ hl _ => exact h.lock_setNode hl _
  | down hl _ => exact h.lock_setNode hl _
  | link _ hl _ _ _ _ => exact h.lock_setNode hl _
  | unlink _ hl _ _ _ _ _ _ _ _ => exact h.unlinked hl _
  | scrap _ _ _ _ _ _ _ _ => exact (h.born _ _ _).put _
  | made _ hl _ _ _ _ _ _ _ => exact h.made hl _ _

end Dirs

/-- Every allocated inode has a link. -/
def NoOrphan (node : Inum → Node) : Prop := ∀ i, (node i).type ≠ .free → 1 ≤ (node i).nlink

/-- No condition. -/
def anyCond : DirCond := fun _ _ => True

theorem dir_any {N : Nat} {I : (Inum → Node) → Prop} (hI : ∀ nd, I nd → NoOrphan nd) {s : DirSys} (h : (dirLts N I).Reachable s) :
    (∃ own, s.InvAt own) ∧ s.k.d.InUse := by
  have hg : ((dirLts N I).guard (DirSys.Meets anyCond)).Reachable s :=
    Lts.Reachable.invariant (L := dirLts N I) (fun _ h0 => .of_init h0)
      (fun _ _ _ hr hst => hr.step ⟨fun _ _ _ => trivial, hst⟩) h
  have h0 : ∀ s : DirSys, I s.k.d.node → s.Booted → s.k.d.InUse := by
    intro s hs _ i ht hn
    have := hI _ hs i ht
    omega
  obtain ⟨own, hinv, hJ⟩ := dir_invariant (J := fun d _ => d.InUse) h0 (fun _ _ hx hc => hx.change hc) hg
  exact ⟨⟨own, hinv⟩, hJ⟩

end Xv6
