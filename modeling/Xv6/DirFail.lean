import Xv6.DirSeq

/-!
# Calls that fail

A call that returns -1 leaves the inodes, the files and the references as they were: what it has taken or counted on the way it gives back.
The exception is `open`, which leaves the file that it has made if there is no free file or descriptor.
-/

namespace Xv6

open Function (update)

/-- The same type, and the same contents unless it is free. -/
def SameTree (nd nd' : Inum → Node) : Prop := ∀ i, (nd' i).type = (nd i).type ∧ ((nd i).type ≠ .free → nd' i = nd i)

/-- The same reference counts, and the same contents if a file is in use. -/
structure SameFiles (fl fl' : Fin NFILE → OpenFile) : Prop where
  ref : ∀ f, (fl' f).ref = (fl f).ref
  file : ∀ f, 0 < (fl f).ref → fl' f = fl f
  closed : ∀ f, (fl' f).ref = 0 → (fl' f).ip = none

/-- `d` is `b` with more references `H` to inodes. -/
structure At (b : Dirs) (H : Multiset Inum) (d : Dirs) : Prop where
  node : SameTree b.node d.node
  ref : ∀ i, d.ref i = b.ref i + H.count i
  file : SameFiles b.file d.file

/-- One more reference to `i` can be taken and dropped. -/
def Safe (b : Dirs) (i : Inum) : Prop := 0 < b.ref i ∨ (b.node i).type ≠ .free ∧ (b.node i).nlink ≠ 0

/-- What a directory names can be looked up. -/
def SafeBelow (b : Dirs) : Prop := ∀ d, (b.node d).type = .dir → Safe b d → ∀ de ∈ (b.node d).live, Safe b de.inum

section restored

variable {N : Nat} {b d d' : Dirs} {H : Multiset Inum} {i dp : Inum}

theorem SameTree.eq_of_dir (h : SameTree b.node d.node) (hd : (b.node i).type = .dir) : d.node i = b.node i :=
  (h i).2 (by rw [hd]; decide)

namespace At

theorem of_eq (h : At b H d) (hn : d'.node = d.node) (hr : d'.ref = d.ref) (hf : d'.file = d.file) : At b H d' where
  node := by rw [hn]; exact h.node
  ref := by rw [hr]; exact h.ref
  file := by rw [hf]; exact h.file

theorem lock (h : At b H d) (i : Inum) : At b H (d.lock i) := h.of_eq rfl rfl rfl

theorem touched (h : At b H d) (ht : Dir.Touched d d') : At b H d' := h.of_eq ht.node ht.ref ht.file

theorem add_ref (h : At b H d) (hr : d'.ref = update d.ref i (d.ref i + 1)) (hn : d'.node = d.node) (hf : d'.file = d.file) :
    At b ({i} + H) d' where
  node := by rw [hn]; exact h.node
  ref j := by
    rw [hr, Multiset.count_add, Multiset.count_singleton]
    by_cases hj : j = i
    · subst hj
      rw [Function.update_self, h.ref, if_pos rfl]
      omega
    · rw [Function.update_of_ne hj, h.ref, if_neg hj]
      omega
  file := by rw [hf]; exact h.file

theorem got (h : At b H d) (i : Inum) : At b ({i} + H) (d.got i) := h.add_ref (Dirs.got_ref ..) (Dirs.got_node ..) (Dirs.got_file ..)

/-- A file is taken and closed. -/
theorem closed {f : Fin NFILE} {x : OpenFile} (h : At b H d) (hf : (d.file f).ref = 0) (hd : d' = (d.setFile f x).setFile f {}) : At b H d' := by
  have hfile : ∀ f', d'.file f' = if f' = f then {} else d.file f' := by
    intro f'
    rw [hd]
    by_cases hff : f' = f
    · rw [if_pos hff, hff]
      exact Function.update_self ..
    · rw [if_neg hff]
      exact (Function.update_of_ne hff _ _).trans (Function.update_of_ne hff _ _)
  refine ⟨by rw [hd]; exact h.node, by rw [hd]; exact h.ref, fun f' => ?_, fun f' hp => ?_, fun f' hz => ?_⟩
  · rw [hfile]
    split
    · rename_i hff
      rw [← h.file.ref, hff, hf]
    · exact h.file.ref f'
  · rw [hfile, if_neg]
    · exact h.file.file f' hp
    · rintro rfl
      rw [← h.file.ref] at hp
      omega
  · rw [hfile] at hz ⊢
    split
    · rfl
    · rename_i hff
      rw [if_neg hff] at hz
      exact h.file.closed f' hz

/-- The last reference is not dropped. -/
theorem put (h : At b ({i} + H) d) (hs : Safe b i) : At b H (d.put i) := by
  have hi := h.ref i
  rw [Multiset.count_add, Multiset.count_singleton_self] at hi
  have hlast : ¬d.Last i := by
    rintro ⟨h1, -, h3⟩
    obtain hs | ⟨ht, hn⟩ := hs
    · omega
    · rw [(h.node i).2 ht] at h3
      exact hn h3
  refine ⟨by rw [Dirs.put_node, if_neg hlast]; exact h.node, fun j => ?_, by rw [Dirs.put_file]; exact h.file⟩
  have hj := h.ref j
  rw [Multiset.count_add, Multiset.count_singleton] at hj
  rw [Dirs.put_ref]
  by_cases hji : j = i
  · subst hji
    rw [Function.update_self]
    omega
  · rw [Function.update_of_ne hji]
    rw [if_neg hji] at hj
    omega

end At

/-- In a sound state, what a directory names is allocated and has links. -/
theorem Sound.safeBelow {L : Links} (h : Sound N b L) : SafeBelow b := by
  intro d hd hs de hde
  obtain ⟨p, hu, hpt, hpn⟩ := h.parents d hd
  obtain hpl | rfl | rfl := hu.entry (h.ne_zero hd) (h.ne_zero hpt) (h.links.tree.names d hd) hde
  · have hk : de.inum ∈ (b.node d).kids := Node.mem_kids.2 ⟨hd, de, hde, hpl, rfl⟩
    have hf := h.links.tree.kid_ne_free hk
    have h1 := h.links.tree.named_le_nlink hf
    have h2 := h.links.tree.named_pos hk
    exact .inr ⟨hf, by omega⟩
  · exact hs
  · exact .inr ⟨by rw [hpt]; decide, by dsimp only; omega⟩

theorem Sound.safe_root {L : Links} (h : Sound N b L) : Safe b ROOTINO := by
  have hf : (b.node ROOTINO).type ≠ .free := by
    rw [h.links.tree.root]
    decide
  have h1 := h.links.tree.nlink ROOTINO hf
  unfold needed at h1
  rw [if_pos rfl] at h1
  exact .inr ⟨hf, by omega⟩

/-! ### Operations -/

variable {env : DirEnv} {k : DirK} {name : Name}

/-- The inode that the entry with this name names. -/
def Node.find (x : Node) (name : Name) : Option Inum := (x.findEnt name).map fun k => (x.ents.getD k ⟨0, []⟩).inum

/-- No condition on a panic. -/
def anyError (_ : String) (_ : Dirs) : Prop := True

theorem dirlookup_result (dp : Inum) (name : Name) (s : Dirs) :
    wp (Dir.dirlookup N dp name) (fun r t => r.map Prod.snd = (s.node dp).find name ∧ t.node = s.node) anyError s := by
  unfold Dir.dirlookup
  simp only [wp_bind, wp_get, wp_ite]
  split
  · trivial
  · unfold Node.find
    cases (s.node dp).findEnt name with
    | none => exact ⟨rfl, rfl⟩
    | some k =>
      simp only [wp_bind]
      refine wp_mono (Dir.iget_spec _) (fun _ t ht => ?_) fun _ _ _ => trivial
      rw [ht]
      exact ⟨rfl, Dirs.got_node ..⟩

/-- What `lookup` finds. -/
def Node.Finds (x : Node) (name : Name) : Dir.Lookup → Prop
  | .notdir => x.type ≠ .dir
  | .missing => x.type = .dir ∧ x.find name = none
  | .found i => x.type = .dir ∧ x.find name = some i

theorem lookup_result (dp : Inum) (name : Name) (s : Dirs) :
    wp (Dir.lookup N dp name) (fun r _ => (s.node dp).Finds name r) anyError s := by
  unfold Dir.lookup
  rw [wp_bind]
  refine wp_mono (Dir.ilock_spec dp) (fun _ t ht => ?_) fun _ _ _ => trivial
  obtain ⟨-, rfl⟩ := ht
  simp only [wp_bind, wp_get, wp_ite]
  split
  · assumption
  · rename_i hd
    have hd : (s.node dp).type = .dir := by simpa using hd
    refine wp_mono (dirlookup_result dp name _) (fun r t ht => ?_) fun _ _ h => h
    obtain ⟨ht, -⟩ := ht
    cases r with
    | none => exact ⟨hd, ht.symm⟩
    | some x => exact ⟨hd, ht.symm⟩

theorem lookup_seq {Q : Dir.Lookup → DirK → Prop} (h : At b H k.d) (hb : SafeBelow b) (hs : Safe b dp)
    (h1 : (b.node dp).type ≠ .dir → ∀ k', At b H k'.d → Q .notdir k')
    (h2 : (b.node dp).type = .dir → (b.node dp).find name = none → ∀ k', At b H k'.d → Q .missing k')
    (h3 : ∀ i, (b.node dp).type = .dir → (b.node dp).find name = some i → Safe b i → ∀ k', At b ({i} + H) k'.d → Q (.found i) k') :
    seqWp N env (SysFile.lookup dp name) Q k := by
  refine seqWp_lift (o := .lookup dp name) (fun _ => rfl) (wp_and (Dir.lookup_spec dp name) (lookup_result dp name k.d))
    fun r d hd => ?_
  obtain ⟨⟨-, hd⟩, hr⟩ := hd
  cases r with
  | notdir =>
    rw [hd]
    exact h1 (by rwa [← (h.node dp).1]) _ (h.lock dp)
  | missing =>
    obtain ⟨ht, hf⟩ := hr
    rw [(h.node dp).1] at ht
    rw [hd]
    exact h2 ht (by rwa [← h.node.eq_of_dir ht]) _ (h.lock dp)
  | found i =>
    obtain ⟨ht, hf⟩ := hr
    obtain ⟨hd, -, de, hde, rfl⟩ := hd
    rw [(h.node dp).1] at ht
    rw [h.node.eq_of_dir ht] at hf hde
    rw [hd]
    exact h3 _ ht hf (hb dp ht hs de hde) _ ((h.lock dp).got _)

theorem stat_seq {Q : Ftype × Int → DirK → Prop} (h : At b H k.d)
    (hQ : ∀ x, x.1 = (b.node i).type → ∀ k', k'.d = k.d.lock i → Q x k') : seqWp N env (SysFile.stat i) Q k := by
  refine seqWp_lift (o := .stat i) (fun _ => rfl) (Dir.stat_spec i) fun r d hd => ?_
  obtain ⟨-, rfl, rfl⟩ := hd
  exact hQ _ (h.node i).1 _ rfl

theorem iput_seq {Q : Unit → DirK → Prop} (h : At b ({i} + H) k.d) (hs : Safe b i) (hQ : ∀ k', At b H k'.d → Q () k') :
    seqWp N env (SysFile.iput i) Q k := by
  refine seqWp_lift (o := .iput i) (m := Dir.iput i) (fun _ => rfl) (Dir.iput_put i) fun r d hd => ?_
  rw [hd]
  exact hQ _ (h.put hs)

theorem beginOp_seq {Q : Unit → DirK → Prop} (hQ : ∀ k', k'.d = k.d → Q () k') : seqWp N env SysFile.beginOp Q k := by
  intro x k' he
  cases he
  exact hQ _ rfl

theorem endOp_seq {Q : Unit → DirK → Prop} (hQ : ∀ k', k'.d = k.d → Q () k') : seqWp N env SysFile.endOp Q k := by
  intro x k' he
  cases he
  refine hQ _ ?_
  dsimp only
  split <;> rfl

/-! ### Paths -/

/-- Where the loop of `namex` ends. -/
def walk (nd : Inum → Node) (parent : Bool) : Inum → Name → List Name → Option (Inum × Name)
  | ip, name, [] => if parent then none else some (ip, name)
  | ip, _, name :: path =>
    if (nd ip).type ≠ .dir then none
    else if parent && path = [] then some (ip, name)
    else
      match (nd ip).find name with
      | none => none
      | some next => walk nd parent next name path

theorem namexFrom_seq {parent : Bool} {path : List Name} {ip : Inum} {Q : Option (Inum × Name) → DirK → Prop} (h : At b ({ip} + H) k.d)
    (hb : SafeBelow b) (hs : Safe b ip) (hn : walk b.node parent ip name path = none → ∀ k', At b H k'.d → Q none k')
    (hQ : ∀ i n, walk b.node parent ip name path = some (i, n) → Safe b i → ∀ k', At b ({i} + H) k'.d → Q (some (i, n)) k') :
    seqWp N env (SysFile.namexFrom parent ip name path) Q k := by
  have hput : ∀ {ip : Inum} {k : DirK}, At b ({ip} + H) k.d → Safe b ip → (∀ k', At b H k'.d → Q none k') →
      seqWp N env (do SysFile.iput ip; pure none) Q k := by
    intro ip k h hs hQ
    rw [seqWp_bind]
    exact iput_seq h hs fun k' hk' => hQ k' hk'
  induction path generalizing ip name k with
  | nil =>
    unfold SysFile.namexFrom
    unfold walk at hn hQ
    cases parent with
    | true => exact hput h hs (hn rfl)
    | false => exact hQ ip name rfl hs k h
  | cons elem path ih =>
    unfold SysFile.namexFrom
    unfold walk at hn hQ
    split
    · rename_i hp
      rw [seqWp_bind]
      refine stat_seq h fun x hx k' hk' => ?_
      have hk : At b ({ip} + H) k'.d := hk' ▸ h.lock ip
      rw [if_pos hp] at hn hQ
      split
      · rename_i ht
        exact hput hk hs (hn (if_pos (hx ▸ ht)))
      · rename_i ht
        refine hQ ip elem ?_ hs k' hk
        rw [if_neg (hx ▸ ht)]
    · rename_i hp
      rw [if_neg hp] at hn hQ
      rw [seqWp_bind]
      refine lookup_seq h hb hs (fun ht k' hk' => ?_) (fun ht hf k' hk' => ?_) fun i ht hf hsi k' hk' => ?_
      · exact hput hk' hs (hn (if_pos ht))
      · refine hput hk' hs (hn ?_)
        rw [if_neg (not_not.2 ht), hf]
      · rw [if_neg (not_not.2 ht), hf] at hn hQ
        rw [add_left_comm] at hk'
        simp only [seqWp_bind]
        exact iput_seq hk' hs fun k'' hk'' => ih hk'' hsi hn hQ

/-- Where a path leads. -/
def walkPath (nd : Inum → Node) (cwd : Inum) (path : List UInt8) (parent : Bool) : Option (Inum × Name) :=
  walk nd parent (if path.head? = some SysFile.slash then ROOTINO else cwd) [] (SysFile.elems path.length path)

variable {l : Local} {path : List UInt8} {parent : Bool}

/-- What a call starts from: the references of the caller, and those in the directories, are safe. -/
structure Start (b : Dirs) (cwd : Inum) : Prop where
  below : SafeBelow b
  root : Safe b ROOTINO
  cwd : 0 < b.ref cwd

theorem namex_seq {Q : Option (Inum × Name) → DirK → Prop} (h : At b H k.d) (hb : Start b l.cwd)
    (hn : walkPath b.node l.cwd path parent = none → ∀ k', At b H k'.d → Q none k')
    (hQ : ∀ i n, walkPath b.node l.cwd path parent = some (i, n) → Safe b i → ∀ k', At b ({i} + H) k'.d → Q (some (i, n)) k') :
    seqWp N env (SysFile.namex l path parent) Q k := by
  unfold SysFile.namex
  unfold walkPath at hn hQ
  split
  · rename_i hp
    rw [if_pos hp] at hn hQ
    rw [seqWp_bind]
    refine seqWp_lift (o := .iget ROOTINO) (fun _ => rfl) (Dir.iget_spec ROOTINO) fun r d hd => ?_
    rw [hd]
    exact namexFrom_seq (h.got ROOTINO) hb.below hb.root hn hQ
  · rename_i hp
    rw [if_neg hp] at hn hQ
    rw [seqWp_bind]
    refine seqWp_lift (o := .idup l.cwd) (m := Dir.idup l.cwd) (fun _ => rfl) (Dir.idup_spec l.cwd) fun r d hd => ?_
    rw [hd]
    exact namexFrom_seq (h.add_ref rfl rfl rfl) hb.below (.inl hb.cwd) hn hQ

theorem namei_seq {Q : Option Inum → DirK → Prop} (h : At b H k.d) (hb : Start b l.cwd) (hn : ∀ k', At b H k'.d → Q none k')
    (hQ : ∀ i, Safe b i → ∀ k', At b ({i} + H) k'.d → Q (some i) k') : seqWp N env (SysFile.namei l path) Q k := by
  unfold SysFile.namei
  rw [seqWp_bind]
  exact namex_seq h hb (fun _ => hn) fun i _ _ => hQ i

theorem nameiparent_seq {Q : Option (Inum × Name) → DirK → Prop} (h : At b H k.d) (hb : Start b l.cwd)
    (hn : walkPath b.node l.cwd path true = none → ∀ k', At b H k'.d → Q none k')
    (hQ : ∀ i n, walkPath b.node l.cwd path true = some (i, n) → Safe b i → ∀ k', At b ({i} + H) k'.d → Q (some (i, n)) k') :
    seqWp N env (SysFile.nameiparent l path) Q k := namex_seq h hb hn hQ

/-- Code that leads to nothing that matters. -/
theorem seqWp_any {α : Type} {c : DirCode α} {Q : α → DirK → Prop} (hQ : ∀ a k, Q a k) : seqWp N env c Q k := by
  induction c generalizing k with
  | ret a => exact hQ a k
  | panic msg => trivial
  | call o f ih => exact fun x k' _ => ih x

/-! ### Calls -/

/-- If the call fails, nothing has changed. -/
def Restored (b : Dirs) (l : Local) (r : DirOut) (k : DirK) : Prop := r.ret = -1 → At b 0 k.d ∧ r.loc = l

theorem end_seq (h : At b 0 k.d) : seqWp N env (do SysFile.endOp; pure (SysFile.failed l)) (Restored b l) k := by
  rw [seqWp_bind]
  exact endOp_seq fun k' hk' _ => ⟨hk' ▸ h, rfl⟩

theorem putEnd_seq (h : At b ({i} + 0) k.d) (hs : Safe b i) :
    seqWp N env (do SysFile.iput i; SysFile.endOp; pure (SysFile.failed l)) (Restored b l) k := by
  rw [seqWp_bind]
  exact iput_seq h hs fun k' hk' => end_seq hk'

theorem sysChdir_seq {path : Option (List UInt8)} (h : At b 0 k.d) (hb : Start b l.cwd) :
    seqWp N env (SysFile.sysChdir l path) (Restored b l) k := by
  unfold SysFile.sysChdir
  rw [seqWp_bind]
  refine beginOp_seq fun k' hk' => ?_
  have h' : At b 0 k'.d := hk' ▸ h
  cases path with
  | none => exact end_seq h'
  | some path =>
    simp only [seqWp_bind]
    refine namei_seq h' hb (fun k' hk' => end_seq hk') fun i hi k' hk' => ?_
    simp only [seqWp_bind]
    refine stat_seq hk' fun x _ k'' hk'' => ?_
    split
    · exact putEnd_seq (hk'' ▸ hk'.lock i) hi
    · simp only [seqWp_bind]
      refine seqWp_any fun _ _ => seqWp_any fun _ _ => ?_
      exact fun hc : (0 : Int) = -1 => absurd hc (by decide)

theorem sysUnlink_seq {path : Option (List UInt8)} (h : At b 0 k.d) (hb : Start b l.cwd) :
    seqWp N env (SysFile.sysUnlink l path) (Restored b l) k := by
  unfold SysFile.sysUnlink
  cases path with
  | none => exact fun _ => ⟨h, rfl⟩
  | some path =>
    simp only [seqWp_bind]
    refine beginOp_seq fun k' hk' => ?_
    have h' : At b 0 k'.d := hk' ▸ h
    refine nameiparent_seq h' hb (fun _ k' hk' => end_seq hk') fun dp name _ hdp k' hk' => ?_
    simp only [seqWp_bind]
    refine seqWp_lift (o := .unlinkIn dp name) (fun _ => rfl) (Dir.unlinkIn_spec dp name) fun r d hd => ?_
    obtain ⟨-, hd⟩ := hd
    cases r with
    | bad =>
      rw [hd]
      exact putEnd_seq (hk'.lock dp) hdp
    | busy i =>
      obtain ⟨hd, ht, ⟨de, hde, rfl⟩, -⟩ := hd
      rw [(hk'.node dp).1] at ht
      rw [hk'.node.eq_of_dir ht] at hde
      rw [hd]
      simp only [seqWp_bind]
      exact iput_seq (((hk'.lock dp).got _).lock _) (hb.below dp ht hdp de hde) fun k'' hk'' => putEnd_seq hk'' hdp
    | done i =>
      simp only [seqWp_bind]
      refine seqWp_any fun _ _ => seqWp_any fun _ _ => seqWp_any fun _ _ => ?_
      exact fun hc : (0 : Int) = -1 => absurd hc (by decide)

/-! ### `sys_link` -/

/-- A link of `i` is counted, and `i` is referred to. -/
def Dirs.linked (b : Dirs) (i : Inum) : Dirs :=
  (b.setNode i { b.node i with nlink := short ((b.node i).nlink + 1) }).setRef i (b.ref i + 1)

theorem linked_node (b : Dirs) (i : Inum) : (b.linked i).node = update b.node i { b.node i with nlink := short ((b.node i).nlink + 1) } := rfl

theorem At.linked (h : At b ({i} + H) d) : At (b.linked i) H ((d.lock i).addLink i 1) where
  node j := by
    change (update d.node i _ j).type = (update b.node i _ j).type ∧ ((update b.node i _ j).type ≠ .free → update d.node i _ j = update b.node i _ j)
    by_cases hj : j = i
    · subst hj
      rw [Function.update_self, Function.update_self]
      refine ⟨(h.node j).1, fun hf => ?_⟩
      rw [Dirs.lock_node, (h.node j).2 hf]
    · rw [Function.update_of_ne hj, Function.update_of_ne hj]
      exact h.node j
  ref j := by
    have hj := h.ref j
    rw [Multiset.count_add, Multiset.count_singleton] at hj
    change d.ref j = update b.ref i (b.ref i + 1) j + _
    by_cases hji : j = i
    · subst hji
      rw [Function.update_self]
      rw [if_pos rfl] at hj
      omega
    · rw [Function.update_of_ne hji]
      rw [if_neg hji] at hj
      omega
  file := h.file

/-- The link is taken back. -/
theorem At.unlinked (h : At (b.linked i) H d) (h0 : (b.node i).type ≠ .free → 0 ≤ (b.node i).nlink) (h1 : (b.node i).nlink < 2 ^ 15) :
    At b ({i} + H) ((d.lock i).addLink i (-1)) where
  node j := by
    have hj := h.node j
    rw [linked_node] at hj
    change (update d.node i _ j).type = _ ∧ (_ → update d.node i _ j = _)
    by_cases hji : j = i
    · subst hji
      rw [Function.update_self] at hj ⊢
      refine ⟨hj.1, fun hf => ?_⟩
      have hs : short (short ((b.node j).nlink + 1) + -1) = (b.node j).nlink := by
        have := h0 hf
        unfold short
        omega
      rw [Dirs.lock_node, hj.2 hf]
      dsimp only
      rw [hs]
    · rw [Function.update_of_ne hji] at hj ⊢
      exact hj
  ref j := by
    have hj := h.ref j
    change d.ref j = update b.ref i (b.ref i + 1) j + _ at hj
    rw [Multiset.count_add, Multiset.count_singleton]
    change d.ref j = _
    by_cases hji : j = i
    · subst hji
      rw [Function.update_self] at hj
      rw [if_pos rfl]
      omega
    · rw [Function.update_of_ne hji] at hj
      rw [if_neg hji]
      omega
  file := h.file

theorem Safe.linked {j : Inum} (h : Safe b j) (i : Inum) : Safe (b.linked i) j := by
  by_cases hj : j = i
  · refine .inl ?_
    change 0 < update b.ref i (b.ref i + 1) j
    rw [hj, Function.update_self]
    exact Nat.succ_pos _
  · obtain h | h := h
    · refine .inl ?_
      change 0 < update b.ref i (b.ref i + 1) j
      rwa [Function.update_of_ne hj]
    · refine .inr ?_
      rwa [linked_node, Function.update_of_ne hj]

theorem Safe.of_linked {j : Inum} (h : Safe (b.linked i) j) (hj : j ≠ i) : Safe b j := by
  unfold Safe at h ⊢
  rw [linked_node, Function.update_of_ne hj] at h
  change 0 < update b.ref i (b.ref i + 1) j ∨ _ at h
  rwa [Function.update_of_ne hj] at h

theorem Start.linked {cwd : Inum} (h : Start b cwd) (hi : (b.node i).type ≠ .dir) : Start (b.linked i) cwd where
  below d hd hs de hde := by
    have hdi : d ≠ i := by
      rintro rfl
      rw [linked_node, Function.update_self] at hd
      exact hi hd
    rw [linked_node, Function.update_of_ne hdi] at hd hde
    exact (h.below d hd (hs.of_linked hdi) de hde).linked i
  root := h.root.linked i
  cwd := by
    change 0 < update b.ref i (b.ref i + 1) cwd
    by_cases hc : cwd = i
    · rw [hc, Function.update_self]
      exact Nat.succ_pos _
    · rw [Function.update_of_ne hc]
      exact h.cwd

theorem linkBad_seq (h : At (b.linked i) 0 k.d) (hs : Safe b i) (h0 : (b.node i).type ≠ .free → 0 ≤ (b.node i).nlink)
    (h1 : (b.node i).nlink < 2 ^ 15) : seqWp N env (SysFile.linkBad l i) (Restored b l) k := by
  unfold SysFile.linkBad
  simp only [seqWp_bind]
  refine seqWp_lift (o := .linkDown i) (fun _ => rfl) (Dir.linkDown_spec i) fun r d hd => ?_
  obtain ⟨-, rfl⟩ := hd
  simpa using putEnd_seq (h.unlinked h0 h1) hs

theorem sysLink_seq {old new : Option (List UInt8)} (h : At b 0 k.d) (hb : Start b l.cwd)
    (h0 : ∀ i, (b.node i).type ≠ .free → 0 ≤ (b.node i).nlink) (h1 : ∀ i, (b.node i).nlink < 2 ^ 15) :
    seqWp N env (SysFile.sysLink l old new) (Restored b l) k := by
  unfold SysFile.sysLink
  split
  · rename_i old new
    simp only [seqWp_bind]
    refine beginOp_seq fun k' hk' => ?_
    have h' : At b 0 k'.d := hk' ▸ h
    refine namei_seq h' hb (fun k' hk' => end_seq hk') fun i hi k' hk' => ?_
    simp only [seqWp_bind]
    refine seqWp_lift (o := .linkUp i) (fun _ => rfl) (Dir.linkUp_spec i) fun r d hd => ?_
    obtain ⟨-, hd⟩ := hd
    cases r with
    | false =>
      rw [if_neg (by decide)] at hd ⊢
      rw [hd.2]
      exact putEnd_seq (hk'.lock i) hi
    | true =>
      rw [if_pos rfl] at hd ⊢
      obtain ⟨ht, rfl⟩ := hd
      rw [(hk'.node i).1] at ht
      simp only [seqWp_bind]
      refine nameiparent_seq hk'.linked (hb.linked ht) (fun _ k'' hk'' => linkBad_seq hk'' hi (h0 i) (h1 i))
        fun dp name _ hdp k'' hk'' => ?_
      simp only [seqWp_bind]
      refine seqWp_lift (o := .linkIn dp name i) (fun _ => rfl) (Dir.linkIn_spec dp name i env.grow.2) fun r d hd => ?_
      obtain ⟨-, -, hd⟩ := hd
      cases r with
      | false =>
        rw [if_neg (by decide)] at hd ⊢
        simp only [seqWp_bind]
        exact iput_seq ((hk''.lock dp).touched hd) hdp fun k3 hk3 => linkBad_seq hk3 hi (h0 i) (h1 i)
      | true =>
        rw [if_pos rfl]
        simp only [seqWp_bind]
        refine seqWp_any fun _ _ => seqWp_any fun _ _ => seqWp_any fun _ _ => ?_
        exact fun hc : (0 : Int) = -1 => absurd hc (by decide)
  · exact fun _ => ⟨h, rfl⟩

/-! ### `create` -/

/-- There is room for an entry. -/
def Room (x : Node) (grow : Bool) : Prop :=
  x.emptyEnt < x.ents.length ∨ DIRENT * (x.emptyEnt + 1) ≤ MAXSIZE ∧ (DIRENT * x.emptyEnt % BSIZE = 0 → grow = true)

def FreeInode (N : Nat) (nd : Inum → Node) : Prop := ∃ i, i ≠ 0 ∧ i < N ∧ (nd i).type = .free

/-- `create` of a file or device makes it. -/
def Makes (N : Nat) (nd : Inum → Node) (cwd : Inum) (path : List UInt8) (grow : Bool) : Prop :=
  ∃ dp name, walkPath nd cwd path true = some (dp, name) ∧ (nd dp).find name = none ∧ FreeInode N nd ∧ Room (nd dp) grow

theorem putEnt_result {s : Dirs} {de : Dirent} {grow : Bool} {E : String → Dirs → Prop} :
    wp (Dir.putEnt dp (s.node dp).emptyEnt de grow) (fun r _ => r = true ↔ Room (s.node dp) grow) E s := by
  unfold Dir.putEnt Room
  simp only [wp_bind, wp_get, wp_ite]
  split
  · exact iff_of_true rfl (.inl ‹_›)
  · split
    · exact iff_of_false (by simp) fun hc => hc.elim ‹_› fun hc => by omega
    · split
      · rename_i hg
        refine iff_of_false (by simp) fun hc => hc.elim ‹_› fun hc => ?_
        rw [hc.2 hg.1] at hg
        simp at hg
      · rename_i h1 hg
        refine iff_of_true rfl (.inr ⟨by omega, fun hm => ?_⟩)
        by_contra hgrow
        exact hg ⟨hm, by simpa using hgrow⟩

theorem dirlink_result {s : Dirs} {grow : Bool} (hf : (s.node dp).find name = none) :
    wp (Dir.dirlink N dp name i grow) (fun r _ => r = true ↔ Room (s.node dp) grow) anyError s := by
  unfold Dir.dirlink
  rw [wp_bind]
  refine wp_mono (dirlookup_result dp name s) (fun r t ht => ?_) fun _ _ h => h
  rw [hf] at ht
  obtain ⟨hr, ht⟩ := ht
  cases r with
  | some x => cases hr
  | none =>
    rw [wp_bind, wp_get]
    have hput := @putEnt_result dp t ⟨i, name⟩ grow anyError
    refine wp_mono hput (fun r _ hr => ?_) fun _ _ h => h
    rwa [ht] at hr

/-- What `createIn` of a file or device finds. -/
def Node.Creates (x : Node) (N : Nat) (nd : Inum → Node) (name : Name) (grow : Bool) : Dir.Create → Prop
  | .old _ => x.find name ≠ none
  | .failed => x.find name = none ∧ ¬(FreeInode N nd ∧ Room x grow)
  | .made _ => x.find name = none ∧ FreeInode N nd ∧ Room x grow

theorem ialloc_result {s : Dirs} (type : Ftype) :
    wp (Dir.ialloc N type) (fun r _ => r = none → ¬FreeInode N s.node) anyError s := by
  unfold Dir.ialloc
  rw [wp_bind, wp_get]
  cases hf : (List.range N).find? fun i => i ≠ 0 && (s.node i).type = .free with
  | none =>
    rw [hf]
    rintro - ⟨i, hi, hN, ht⟩
    have := List.find?_eq_none.1 hf i (List.mem_range.2 hN)
    simp [hi, ht] at this
  | some i =>
    rw [hf]
    change wp (do Dir.iget N i; pure (some i)) _ _ (s.setNode i { type })
    rw [wp_bind]
    exact wp_mono (Dir.iget_spec i) (fun _ _ _ => nofun) fun _ _ _ => trivial

theorem createTry_result {s : Dirs} {type : Ftype} {major minor : Int} {grow : Bool × Bool} (h1 : type ≠ .dir) :
    wp (Dir.createTry N dp name type major minor grow)
      (fun r _ => (s.node dp).Creates N s.node name grow.2 (r.toOption.getD .failed)) anyError s := by
  unfold Dir.createTry
  rw [wp_bind]
  refine wp_mono (Dir.ilock_spec dp) (fun _ t ht => ?_) fun _ _ _ => trivial
  obtain ⟨-, rfl⟩ := ht
  rw [wp_bind]
  refine wp_mono (wp_and (dirlookup_result dp name _) (Dir.dirlookup_spec dp name)) (fun r t ht => ?_) fun _ _ _ => trivial
  obtain ⟨⟨hr, -⟩, hd, ht⟩ := ht
  rw [Dirs.lock_node] at hr hd
  cases r with
  | some x =>
    refine fun hc => ?_
    rw [hc] at hr
    cases hr
  | none =>
    obtain ⟨rfl, -⟩ := ht
    simp only [wp_bind]
    refine wp_mono (wp_and (Dir.ialloc_spec type) (ialloc_result type)) (fun r t ht => ?_) fun _ _ _ => trivial
    obtain ⟨ht, hfree⟩ := ht
    cases r with
    | none => exact ⟨hr.symm, fun hc => hfree rfl hc.1⟩
    | some i =>
      obtain ⟨hf, hi, hN, rfl⟩ := ht
      rw [Dirs.lock_node] at hf
      have hne : dp ≠ i := by
        rintro rfl
        exact absurd (hf.symm.trans hd) nofun
      simp only [wp_bind]
      refine wp_mono (Dir.ilock_spec i) (fun _ t ht => ?_) fun _ _ _ => trivial
      obtain ⟨-, rfl⟩ := ht
      simp only [wp_modify, if_neg h1, wp_bind, wp_pure, if_true]
      have hfind : ∀ x, ((((((s.lock dp).setNode i { type }).got i).lock i).setNode i x).node dp) = s.node dp := by
        intro x
        simp [Function.update_of_ne hne]
      refine wp_mono (dirlink_result (by rw [hfind _]; exact hr.symm)) (fun ok t hok => ?_) fun _ _ _ => trivial
      rw [hfind] at hok
      cases ok with
      | true =>
        rw [if_pos rfl]
        exact ⟨hr.symm, ⟨i, hi, hN, hf⟩, hok.1 rfl⟩
      | false =>
        rw [if_neg (by decide)]
        simp only [wp_bind, wp_modify]
        exact ⟨hr.symm, fun hc => absurd (hok.2 hc.2) (by decide)⟩

theorem createIn_result {s : Dirs} {type : Ftype} {major minor : Int} {grow : Bool × Bool} (h1 : type ≠ .dir) :
    wp (Dir.createIn N dp name type major minor grow) (fun r _ => (s.node dp).Creates N s.node name grow.2 r) anyError s := by
  unfold Dir.createIn
  rw [wp_bind]
  refine wp_mono (createTry_result h1) (fun r t hr => ?_) fun _ _ h => h
  cases r with
  | ok r => exact hr
  | error i =>
    rw [wp_bind]
    exact Dir.iput_spec i hr

theorem makes_iff {cwd : Inum} {grow : Bool} {nd : Inum → Node} (hw : walkPath nd cwd path true = some (dp, name)) :
    Makes N nd cwd path grow ↔ (nd dp).find name = none ∧ FreeInode N nd ∧ Room (nd dp) grow := by
  constructor
  · rintro ⟨dp', name', hw', h⟩
    rw [hw] at hw'
    cases hw'
    exact h
  · exact fun h => ⟨dp, name, hw, h⟩

theorem SameTree.freeInode_iff {nd nd' : Inum → Node} (h : SameTree nd nd') : FreeInode N nd' ↔ FreeInode N nd := by
  unfold FreeInode
  simp only [(h _).1]

/-- What a call relies on. -/
structure Calm (b : Dirs) (cwd : Inum) : Prop extends Start b cwd where
  held : b.Held
  nonneg : ∀ i, (b.node i).type ≠ .free → 0 ≤ (b.node i).nlink
  small : ∀ i, (b.node i).nlink < 2 ^ 15

/-- An inode that was free and is new. -/
structure NewFile (b b' : Dirs) (i : Inum) (type : Ftype) : Prop where
  free : (b.node i).type = .free
  type : (b'.node i).type = type
  safe : Safe b' i
  file : b'.file = b.file

/-- `create` gives its inode up. -/
theorem At.scrapped {x : Node} (h : At b ({dp} + 0) d) (hh : b.Held) (hd : (b.node dp).type = .dir) (hf : (b.node i).type = .free)
    (hn : x.nlink = 0) : At b ({dp} + 0) ((Dir.born d dp i x).put i) := by
  have hne : i ≠ dp := by
    rintro rfl
    exact absurd (hf.symm.trans hd) nofun
  have hr : d.ref i = 0 := by
    have h1 := h.ref i
    have h2 : b.ref i = 0 := by
      by_contra hc
      exact hh i (by omega) hf
    rw [h1, h2]
    simp [hne]
  have hlast : (Dir.born d dp i x).Last i := by simp [Dirs.Last, Dir.born, hr, hn]
  refine ⟨fun j => ?_, fun j => ?_, by rw [Dirs.put_file]; exact h.file⟩
  · rw [Dirs.put_node, if_pos hlast, Dir.born_node, Function.update_idem, Function.update_self]
    by_cases hj : j = i
    · subst hj
      rw [Function.update_self]
      exact ⟨hf.symm, fun hc => absurd hf hc⟩
    · rw [Function.update_of_ne hj]
      exact h.node j
  · rw [← h.ref j, Dirs.put_ref]
    by_cases hj : j = i
    · subst hj
      simp [Dir.born]
    · rw [Function.update_of_ne hj]
      simp [Dir.born, Function.update_of_ne hj]

/-- `create` keeps its inode. -/
theorem At.made {x : Node} {ents : List Dirent} (h : At b ({dp} + 0) d) :
    At { Dir.made d dp i x ents with ref := b.ref, file := b.file } ({dp} + ({i} + 0)) (Dir.made d dp i x ents) where
  node j := ⟨rfl, fun _ => rfl⟩
  ref j := by
    have hj := h.ref j
    rw [Dir.made_ref]
    simp only [Multiset.count_add, Multiset.count_singleton, Multiset.count_zero] at hj ⊢
    by_cases hji : j = i
    · subst hji
      rw [Function.update_self, hj, if_pos rfl]
      omega
    · rw [Function.update_of_ne hji, hj, if_neg hji]
  file := by
    rw [Dir.made_file]
    exact h.file

theorem create_seq {type : Ftype} {major minor : Int} {Q : Option Inum → DirK → Prop} (ht : type ≠ .free) (h : At b 0 k.d)
    (hb : Calm b l.cwd)
    (hn : (type ≠ .dir → ¬Makes N b.node l.cwd path env.grow.2) → ∀ k', At b 0 k'.d → Q none k')
    (ho : ∀ i, type = .file → ¬Makes N b.node l.cwd path env.grow.2 → Safe b i → ∀ k', At b ({i} + 0) k'.d → Q (some i) k')
    (hm : ∀ i b', (type ≠ .dir → Makes N b.node l.cwd path env.grow.2) → NewFile b b' i type → ∀ k', At b' ({i} + 0) k'.d → Q (some i) k') :
    seqWp N env (SysFile.create l path type major minor) Q k := by
  unfold SysFile.create
  simp only [seqWp_bind]
  refine nameiparent_seq h hb.toStart (fun hw k' hk' => hn (fun _ hc => ?_) k' hk') fun dp name hw hdp k' hk' => ?_
  · obtain ⟨dp, name, hw', -⟩ := hc
    rw [hw] at hw'
    cases hw'
  simp only [seqWp_bind]
  have hres : wp (Dir.createIn N dp name type major minor env.grow)
      (fun r _ => type ≠ .dir → (k'.d.node dp).Creates N k'.d.node name env.grow.2 r) anyError k'.d := by
    by_cases hdir : type = .dir
    · refine wp_mono (Dir.createIn_spec dp name ht major minor env.grow) (fun _ _ _ hc => absurd hdir hc) fun _ _ _ => trivial
    · exact wp_mono (createIn_result hdir) (fun _ _ h _ => h) fun _ _ h => h
  refine seqWp_lift (o := .createIn dp name type major minor) (fun _ => rfl)
    (wp_and (Dir.createIn_spec dp name ht major minor env.grow) hres) fun r d hd => ?_
  obtain ⟨⟨-, hdir, hd⟩, hr⟩ := hd
  rw [(hk'.node dp).1] at hdir
  rw [hk'.node.eq_of_dir hdir] at hr
  have hmakes : Makes N b.node l.cwd path env.grow.2 ↔
      (b.node dp).find name = none ∧ FreeInode N k'.d.node ∧ Room (b.node dp) env.grow.2 := by
    rw [hk'.node.freeInode_iff]
    exact makes_iff hw
  cases r with
  | old i =>
    obtain ⟨rfl, de, hde, rfl⟩ := hd
    rw [hk'.node.eq_of_dir hdir] at hde
    have hsi := hb.below dp hdir hdp de hde
    have hat := (hk'.lock dp).got de.inum
    rw [add_left_comm] at hat
    have hnot : type ≠ .dir → ¬Makes N b.node l.cwd path env.grow.2 := fun hc hmk => hr hc (hmakes.1 hmk).1
    simp only [seqWp_bind]
    refine iput_seq hat hdp fun k'' hk'' => stat_seq hk'' fun x _ k3 hk3 => ?_
    have h3 : At b ({de.inum} + 0) k3.d := hk3 ▸ hk''.lock _
    split
    · rename_i hc
      exact ho _ hc.1 (hnot (by rw [hc.1]; decide)) hsi k3 h3
    · simp only [seqWp_bind]
      exact iput_seq h3 hsi fun k4 hk4 => hn hnot k4 hk4
  | failed =>
    have hat : At b ({dp} + 0) d := by
      obtain rfl | ⟨i, x, hf, -, -, hx, rfl⟩ := hd
      · exact hk'.lock dp
      · rw [(hk'.node i).1] at hf
        exact hk'.scrapped hb.held hdir hf hx.nlink
    simp only [seqWp_bind]
    exact iput_seq hat hdp fun k'' hk'' => hn (fun hc hmk => (hr hc).2 (hmakes.1 hmk).2) k'' hk''
  | made i =>
    obtain ⟨hf, hi, hN, -, ents, -, rfl⟩ := hd
    rw [(hk'.node i).1] at hf
    have hne : i ≠ dp := by
      rintro rfl
      exact absurd (hf.symm.trans hdir) nofun
    have hself : ∀ f, ({ Dir.made k'.d dp i (Dir.newNode dp i type major minor) ents with ref := b.ref, file := f } : Dirs).node i =
        Dir.newNode dp i type major minor := by
      intro f
      change (Dir.made _ _ _ _ _).node i = _
      rw [Dir.made_node hne, Function.update_of_ne hne, Function.update_self]
    have hnew : NewFile b { Dir.made k'.d dp i (Dir.newNode dp i type major minor) ents with ref := b.ref, file := b.file } i type := by
      refine ⟨hf, by rw [hself]; rfl, .inr ?_, rfl⟩
      rw [hself]
      exact ⟨ht, by simp [Dir.newNode]⟩
    have hsdp : Safe { Dir.made k'.d dp i (Dir.newNode dp i type major minor) ents with ref := b.ref, file := b.file } dp := by
      refine hdp.imp_right fun hc => ?_
      change ((Dir.made _ _ _ _ _).node dp).type ≠ .free ∧ ((Dir.made _ _ _ _ _).node dp).nlink ≠ 0
      rw [Dir.made_node hne, Function.update_self]
      dsimp only
      rw [hk'.node.eq_of_dir hdir]
      have h1 := hb.nonneg dp hc.1
      have h2 := hb.small dp
      refine ⟨hc.1, ?_⟩
      split
      · unfold short
        omega
      · exact hc.2
    simp only [seqWp_bind]
    exact iput_seq hk'.made hsdp fun k'' hk'' => hm i _ (fun hc => hmakes.2 (hr hc)) hnew k'' hk''

/-! ### `sys_open`, `sys_mkdir` and `sys_mknod` -/

theorem sysMake_seq {type : Ftype} {major minor : Int} {path : Option (List UInt8)} (ht : type ≠ .free) (hf : type ≠ .file)
    (h : At b 0 k.d) (hb : Calm b l.cwd) : seqWp N env (SysFile.sysMake l path type major minor) (Restored b l) k := by
  unfold SysFile.sysMake
  simp only [seqWp_bind]
  refine beginOp_seq fun k' hk' => ?_
  have h' : At b 0 k'.d := hk' ▸ h
  cases path with
  | none => exact end_seq h'
  | some path =>
    simp only [seqWp_bind]
    refine create_seq ht h' hb (fun _ k' hk' => end_seq hk') (fun _ hc => absurd hc hf) fun i b' _ _ k' _ => ?_
    simp only [seqWp_bind]
    refine seqWp_any fun _ _ => seqWp_any fun _ _ => ?_
    exact fun hc : (0 : Int) = -1 => absurd hc (by decide)

/-- No free file, or no free descriptor. -/
def Full (b : Dirs) (l : Local) : Prop := (∀ f, (b.file f).ref ≠ 0) ∨ Mem.fdalloc l.ofile = none

theorem filealloc_result {s : Dirs} : wp Dir.filealloc (fun r _ => r = none → ∀ f, (s.file f).ref ≠ 0) anyError s := by
  unfold Dir.filealloc
  rw [wp_bind, wp_get]
  cases hf : (List.finRange NFILE).find? fun f => (s.file f).ref = 0 with
  | none =>
    rw [hf]
    intro _ f
    have := List.find?_eq_none.1 hf f (List.mem_finRange f)
    simpa using this
  | some f =>
    rw [hf]
    exact nofun

theorem openInode_seq {omode : Nat} {Q : DirOut → DirK → Prop} (h : At b ({i} + 0) k.d) (hs : Safe b i)
    (hQ : (b.node i).type = .device ∨ Full b l → ∀ k', At b 0 k'.d → Q (SysFile.failed l) k') (hok : ∀ r k', r.ret ≠ -1 → Q r k') :
    seqWp N env (SysFile.openInode l omode i) Q k := by
  have hfail : ∀ {k : DirK}, (b.node i).type = .device ∨ Full b l → At b ({i} + 0) k.d →
      seqWp N env (do SysFile.iput i; SysFile.endOp; pure (SysFile.failed l)) Q k := by
    intro k hc hk
    simp only [seqWp_bind]
    exact iput_seq hk hs fun k' hk' => endOp_seq fun k'' hk'' => hQ hc k'' (hk'' ▸ hk')
  unfold SysFile.openInode
  simp only [seqWp_bind]
  refine stat_seq h fun x hx k' hk' => ?_
  have h' : At b ({i} + 0) k'.d := hk' ▸ h.lock i
  split
  · rename_i hc
    exact hfail (.inl (hx ▸ hc.1)) h'
  · simp only [seqWp_bind]
    refine seqWp_lift (o := .filealloc) (fun _ => rfl) (wp_and (Dir.filealloc_spec (E := anyError)) filealloc_result) fun r d hd => ?_
    obtain ⟨hd, hr⟩ := hd
    cases r with
    | none =>
      obtain rfl := hd
      exact hfail (.inr (.inl fun f => by rw [← h'.file.ref]; exact hr rfl f)) h'
    | some f =>
      obtain ⟨hf, rfl⟩ := hd
      cases hfd : Mem.fdalloc l.ofile with
      | none =>
        simp only [SysFile.fileclose, seqWp_bind]
        refine seqWp_lift (o := .fileput f) (fun _ => rfl) (Dir.fileput_spec f) fun r d hd => ?_
        have hip := h'.file.closed f hf
        obtain ⟨hc, -⟩ | ⟨-, hr, hd⟩ := hd
        · simp [Dirs.setFile] at hc
        obtain rfl : r = none := hr.trans (by simpa [Dirs.setFile] using hip)
        have hat : At b ({i} + 0) d := h'.closed hf hd
        simpa using hfail (k := { k' with d }) (.inr (.inr hfd)) hat
      | some fd =>
        simp only [seqWp_bind]
        refine seqWp_any fun _ _ => ?_
        have hne : ((fd.val : Nat) : Int) ≠ -1 := by omega
        split
        · simp only [seqWp_bind]
          exact seqWp_any fun _ _ => seqWp_any fun _ _ => hok _ _ hne
        · simp only [seqWp_bind]
          exact seqWp_any fun _ _ => hok _ _ hne

/-- The file that `open` leaves behind when it fails. -/
def Leaves (N : Nat) (b : Dirs) (l : Local) (grow : Bool) : DirCall → Prop
  | .open (some path) omode => omode &&& SysFile.O_CREATE ≠ 0 ∧ Full b l ∧ Makes N b.node l.cwd path grow
  | _ => False

/-- A failed `open` leaves everything as it was, or a new file. -/
def OpenPost (N : Nat) (b : Dirs) (l : Local) (grow : Bool) (c : DirCall) (r : DirOut) (k : DirK) : Prop :=
  r.ret = -1 → r.loc = l ∧
    ((¬Leaves N b l grow c ∧ At b 0 k.d) ∨ (Leaves N b l grow c ∧ ∃ i b', NewFile b b' i .file ∧ At b' 0 k.d))

theorem sysOpen_seq {path : Option (List UInt8)} {omode : Nat} (h : At b 0 k.d) (hb : Calm b l.cwd) :
    seqWp N env (SysFile.sysOpen l path omode) (OpenPost N b l env.grow.2 (.open path omode)) k := by
  unfold SysFile.sysOpen
  cases path with
  | none => exact fun _ => ⟨rfl, .inl ⟨id, h⟩⟩
  | some path =>
    have hend : ∀ {k : DirK}, ¬Leaves N b l env.grow.2 (.open (some path) omode) → At b 0 k.d →
        seqWp N env (do SysFile.endOp; pure (SysFile.failed l)) (OpenPost N b l env.grow.2 (.open (some path) omode)) k := by
      intro k hc hk
      simp only [seqWp_bind]
      exact endOp_seq fun k' hk' _ => ⟨rfl, .inl ⟨hc, hk' ▸ hk⟩⟩
    have hok : ∀ r k', r.ret ≠ -1 → OpenPost N b l env.grow.2 (.open (some path) omode) r k' := fun r k' hr hc => absurd hc hr
    simp only [seqWp_bind]
    refine beginOp_seq fun k' hk' => ?_
    have h' : At b 0 k'.d := hk' ▸ h
    split
    · rename_i hcr
      simp only [seqWp_bind]
      refine create_seq (by decide) h' hb (fun hmk k'' hk'' => ?_) (fun i _ hmk hi k'' hk'' => ?_) fun i b' hmk hnew k'' hk'' => ?_
      · exact hend (fun hc => hmk (by decide) hc.2.2) hk''
      · exact openInode_seq hk'' hi (fun _ k3 hk3 _ => ⟨rfl, .inl ⟨fun hc => hmk hc.2.2, hk3⟩⟩) hok
      · refine openInode_seq hk'' hnew.safe (fun hc k3 hk3 _ => ⟨rfl, .inr ⟨⟨hcr, ?_, hmk (by decide)⟩, i, b', hnew, hk3⟩⟩) hok
        obtain hc | hc := hc
        · rw [hnew.type] at hc
          cases hc
        · unfold Full at hc ⊢
          rwa [hnew.file] at hc
    · rename_i hcr
      have hnot : ¬Leaves N b l env.grow.2 (.open (some path) omode) := fun hc => hcr hc.1
      simp only [seqWp_bind]
      refine namei_seq h' hb.toStart (fun k'' hk'' => hend hnot hk'') fun i hi k'' hk'' => ?_
      simp only [seqWp_bind]
      refine stat_seq hk'' fun x hx k3 hk3 => ?_
      have h3 : At b ({i} + 0) k3.d := hk3 ▸ hk''.lock i
      split
      · simp only [seqWp_bind]
        exact iput_seq h3 hi fun k4 hk4 => by simpa using hend hnot hk4
      · exact openInode_seq h3 hi (fun _ k4 hk4 _ => ⟨rfl, .inl ⟨hnot, hk4⟩⟩) hok

end restored

/-- The calls of `sysfile.c` that take paths. -/
def DirCall.takesPath : DirCall → Bool
  | .open .. | .link .. | .unlink _ | .mkdir _ | .mknod .. | .chdir _ => true
  | _ => false

theorem call_seq {N : Nat} {env : DirEnv} {b : Dirs} {l : Local} {k : DirK} {c : DirCall} {init : Bool} (hc : c.takesPath = true)
    (h : At b 0 k.d) (hb : Calm b l.cwd) : seqWp N env (c.code init l) (OpenPost N b l env.grow.2 c) k := by
  have hpost : ∀ {c : DirCall}, (∀ grow, ¬Leaves N b l grow c) → ∀ r k, Restored b l r k → OpenPost N b l env.grow.2 c r k :=
    fun hc r k hr he => ⟨(hr he).2, .inl ⟨hc _, (hr he).1⟩⟩
  cases c with
  | «open» path omode => exact sysOpen_seq h hb
  | link old new => exact seqWp_mono (sysLink_seq h hb.toStart hb.nonneg hb.small) (hpost fun _ => id)
  | unlink path => exact seqWp_mono (sysUnlink_seq h hb.toStart) (hpost fun _ => id)
  | mkdir path => exact seqWp_mono (sysMake_seq (by decide) (by decide) h hb) (hpost fun _ => id)
  | mknod path major minor => exact seqWp_mono (sysMake_seq (by decide) (by decide) h hb) (hpost fun _ => id)
  | chdir path => exact seqWp_mono (sysChdir_seq h hb.toStart) (hpost fun _ => id)
  | _ => cases hc

/-- The inodes, the files, the references and the fields of the caller are as before. -/
structure Unchanged (s : DirSys) (p : Fin NPROC) (r : DirOut) (t : DirSys) : Prop where
  tree : SameTree s.k.d.node t.k.d.node
  ref : ∀ i, t.k.d.ref i = s.k.d.ref i
  fileRef : ∀ f, (t.k.d.file f).ref = (s.k.d.file f).ref
  file : ∀ f, 0 < (s.k.d.file f).ref → t.k.d.file f = s.k.d.file f
  loc : r.loc = (s.k.slot p).loc

theorem DirSys.InvAt.calm {N : Nat} {s : DirSys} {own : Fin NPROC → Multiset Hold} (h : s.InvAt own) (hs : Sound N s.k.d (links own))
    {p : Fin NPROC} (hp : (s.k.slot p).st = .live) : Calm s.k.d (s.k.slot p).loc.cwd where
  below := hs.safeBelow
  root := hs.safe_root
  cwd := by
    have hth : s.th p = none := by
      cases hth : s.th p with
      | none => rfl
      | some c =>
        have := (h.run p c hth).1
        rw [hp] at this
        cases this
    refine h.acc.ref_pos (heldBy_pos (p := p) ?_)
    rw [(h.idle p hth).2, DirSlot.res, hp]
    exact SysFile.cwd_mem _
  held := hs.held
  nonneg i hi := by
    have := hs.links.tree.named_le_nlink hi
    omega
  small := hs.links.tree.small

theorem failed_unchanged_iff {N : Nat} {s t : DirSys} {p : Fin NPROC} {env : DirEnv} {c : DirCall} {r : DirOut}
    (h : ((dirLts N (SoundImage N)).guard (DirSys.Meets keepsParents)).Reachable s) (hc : c.takesPath = true)
    (ha : DirSys.Alone N env s p c r t) (hr : r.ret = -1) :
    Unchanged s p r t ↔ ¬Leaves N s.k.d (s.k.slot p).loc env.grow.2 c := by
  obtain ⟨own, hinv, hs⟩ := dir_invariant (J := Sound N) (fun _ hI hb => hI.sound hb)
    (fun _ _ hx hc => hx.change (fun _ _ hg => hg) hc) h
  obtain ⟨k, hk, hp, hrun⟩ := ha.run
  have h0 : At s.k.d 0 k.d := by
    rw [hk]
    exact ⟨fun i => ⟨rfl, fun _ => rfl⟩, fun i => rfl, ⟨fun f => rfl, fun f _ => rfl, hinv.acc.closed⟩⟩
  obtain ⟨hloc, hpost⟩ := seqWp_run (call_seq hc h0 (hinv.calm hs hp)) hrun hr
  obtain ⟨hl, hat⟩ | ⟨hl, i, b', hnew, hat⟩ := hpost
  · refine iff_of_true ⟨hat.node, fun i => ?_, hat.file.ref, hat.file.file, hloc⟩ hl
    rw [hat.ref i, Multiset.count_zero, add_zero]
  · refine iff_of_false (fun hu => ?_) (not_not.2 hl)
    have h1 := (hu.tree i).1
    rw [(hat.node i).1, hnew.type, hnew.free] at h1
    cases h1

/-- The first process calls `c` and returns after `n` steps, with an outcome that `P` accepts. -/
private def returnsAfter (n : Nat) (c : DirCall) (P : DirSys → DirOut → Bool) (s : DirSys) : Bool :=
  match Lts.replay (fun s e => DirSys.step s 10 e) (fun _ _ => true) s
      (.call ⟨0, NPROC_pos⟩ c :: List.replicate n (.next ⟨0, NPROC_pos⟩ ⟨(true, true), [], true⟩)) with
  | some t =>
    match t.th ⟨0, NPROC_pos⟩ with
    | some (.ret r) => P t r
    | _ => false
  | none => false

private theorem returnsAfter_eq {n : Nat} {c : DirCall} {P : DirSys → DirOut → Bool} {s : DirSys} (h : returnsAfter n c P s = true) :
    ∃ t r, DirSys.Alone 10 ⟨(true, true), [], true⟩ s ⟨0, NPROC_pos⟩ c r t ∧ P t r = true := by
  unfold returnsAfter at h
  split at h
  · rename_i t ht
    split at h
    · rename_i r hr
      exact ⟨t, r, ⟨n, ht, hr⟩, h⟩
    · cases h
  · cases h

/-- A directory cannot be made twice. -/
theorem failed_unchanged_iff_mkdirRun : ∃ s t r, ((dirLts 10 (SoundImage 10)).guard (DirSys.Meets keepsParents)).Reachable s ∧
    DirSys.Alone 10 ⟨(true, true), [], true⟩ s ⟨0, by decide⟩ (.mkdir (some [97])) r t ∧ r.ret = -1 ∧ Unchanged s ⟨0, by decide⟩ r t := by
  have hany : (Lts.replay (fun s e => DirSys.step s 10 e) (DirSys.check keepsParentsCheck) (DirSys.boot emptyImage) mkdirRun).any
      (returnsAfter 8 (.mkdir (some [97])) fun _ r => r.ret = -1) = true := by decide +kernel
  obtain ⟨s, hs, hp⟩ := Lts.Reachable.replay_any (I := fun s => SoundImage 10 s.k.d.node ∧ s.Booted)
    (DirSys.meets_of_check keepsParents_of_check) ⟨emptyImage_sound (by decide), DirSys.boot_booted _⟩ hany
  obtain ⟨t, r, ha, hr⟩ := returnsAfter_eq hp
  have hret : r.ret = -1 := of_decide_eq_true hr
  exact ⟨s, t, r, hs, ha, hret, (failed_unchanged_iff hs rfl ha hret).2 id⟩

/-- A process opens a file and duplicates the descriptor until it has no free one. -/
def fullRun : List DirEv :=
  DirCall.alone (.open (some [97]) SysFile.O_CREATE) ⟨0, NPROC_pos⟩ ⟨(true, true), [], true⟩ 9 ++
    (List.replicate 15 (DirCall.alone (.dup 0) ⟨0, NPROC_pos⟩ ⟨(true, true), [], true⟩ 1)).flatten

/-- Then it fails to open another file, which is left behind. -/
theorem fullRun_leaves : ∃ s t r, (dirLts 10 (SoundImage 10)).Reachable s ∧
    DirSys.Alone 10 ⟨(true, true), [], true⟩ s ⟨0, by decide⟩ (.open (some [98]) SysFile.O_CREATE) r t ∧ r.ret = -1 ∧
      ¬Unchanged s ⟨0, by decide⟩ r t := by
  have hany : (Lts.replay (fun s e => DirSys.step s 10 e) (fun _ _ => true) (DirSys.boot emptyImage) fullRun).any
      (fun s => returnsAfter 10 (.open (some [98]) SysFile.O_CREATE)
        (fun t r => r.ret = -1 ∧ (t.k.d.node 3).type ≠ (s.k.d.node 3).type) s) = true := by decide +kernel
  obtain ⟨s, hs, hp⟩ := Lts.Reachable.replay_any (I := fun s => SoundImage 10 s.k.d.node ∧ s.Booted) (C := fun _ _ => True)
    (fun _ _ _ => trivial) ⟨emptyImage_sound (by decide), DirSys.boot_booted _⟩ hany
  obtain ⟨t, r, ha, hr⟩ := returnsAfter_eq hp
  obtain ⟨hret, hty⟩ := of_decide_eq_true hr
  exact ⟨s, t, r, hs.of_guard, ha, hret, fun hu => hty (hu.tree 3).1⟩

end Xv6
