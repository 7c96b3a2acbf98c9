import Xv6.DirFail

/-!
# Path lookup

The path `e₁/e₂/../eₖ` leads where `dirlookup` of `e₁`, `e₂`, .., `eₖ` in turn leads (`namei_follows`).  Lookup that runs alone takes no
more than two entries of the inode table besides those in use, and leaves one more reference to its result and no other.
-/

namespace Xv6

open SysFile (slash skipelem elems)

/-! ### The elements of a path -/

/-- The parts between the slashes that are not empty, each cut to `DIRSIZ` bytes. -/
def pathElems (path : List UInt8) : List Name := ((path.splitOnP (· = slash)).filter (· ≠ [])).map (·.take DIRSIZ)

theorem pathElems_slash (path : List UInt8) : pathElems (slash :: path) = pathElems path := by
  rw [pathElems, List.splitOnP_cons_eq_if_modifyHead, if_pos (by simp)]
  rfl

theorem pathElems_dropWhile (path : List UInt8) : pathElems (path.dropWhile (· = slash)) = pathElems path := by
  induction path with
  | nil => rfl
  | cons c path ih =>
    rw [List.dropWhile_cons]
    split
    · rename_i hc
      rw [ih, of_decide_eq_true hc, pathElems_slash]
    · rfl

/-- The first element, and the others. -/
theorem pathElems_cons {path : List UInt8} {c : UInt8} (hc : c ≠ slash) :
    pathElems (c :: path) = ((c :: path).takeWhile (· ≠ slash)).take DIRSIZ :: pathElems ((c :: path).dropWhile (· ≠ slash)) := by
  have hno : ∀ x ∈ (c :: path).takeWhile (· ≠ slash), decide (x = slash) = false := by
    intro x hx
    have := List.all_eq_true.1 List.all_takeWhile x hx
    simpa using this
  have hne : (c :: path).takeWhile (· ≠ slash) ≠ [] := by
    rw [List.takeWhile_cons, if_pos (by simpa using hc)]
    simp
  have hsplit := List.takeWhile_append_dropWhile (p := (· ≠ slash)) (l := c :: path)
  generalize (c :: path).takeWhile (· ≠ slash) = pre at hno hne hsplit
  generalize hrest : (c :: path).dropWhile (· ≠ slash) = rest at hsplit
  rw [← hsplit]
  cases rest with
  | nil => simp [pathElems, List.splitOnP_eq_singleton hno, hne]
  | cons d rest =>
    have hd : d = slash := by
      have := List.head?_dropWhile_not (p := (· ≠ slash)) (l := c :: path)
      rw [hrest] at this
      simpa using this
    rw [hd, pathElems_slash, pathElems, List.splitOnP_append_cons_of_forall_mem hno slash (by simp), List.filter_cons,
      if_pos (by simpa using hne)]
    rfl

theorem elems_eq {n : Nat} {path : List UInt8} (h : path.length ≤ n) : elems n path = pathElems path := by
  induction n generalizing path with
  | zero =>
    obtain rfl := List.eq_nil_of_length_eq_zero (Nat.le_zero.1 h)
    rfl
  | succ n ih =>
    have hlen : (path.dropWhile (· = slash)).length ≤ path.length := (List.dropWhile_suffix _).length_le
    have hhead := List.head?_dropWhile_not (p := (· = slash)) (l := path)
    rw [← pathElems_dropWhile path, elems, skipelem]
    generalize path.dropWhile (· = slash) = rest at hlen hhead
    cases rest with
    | nil => rfl
    | cons c rest =>
      have hc : c ≠ slash := by simpa using hhead
      have htail : ((c :: rest).dropWhile (· ≠ slash)).length ≤ n := by
        rw [List.dropWhile_cons, if_pos (by simpa using hc)]
        have := (List.dropWhile_suffix (l := rest) (· ≠ slash)).length_le
        simp only [List.length_cons] at hlen
        omega
      rw [if_neg (by simp), pathElems_cons hc]
      dsimp only
      rw [ih, pathElems_dropWhile]
      exact Nat.le_trans (List.dropWhile_suffix _).length_le htail

/-! ### The walk -/

/-- The inode that a directory names. -/
def enter (nd : Inum → Node) (dp : Inum) (name : Name) : Option Inum := if (nd dp).type = .dir then (nd dp).find name else none

/-- The inode of a path. -/
def follow (nd : Inum → Node) (start : Inum) (path : List Name) : Option Inum := path.foldlM (enter nd) start

/-- The directory of the last element, and this element. -/
def followParent (nd : Inum → Node) (start : Inum) (path : List Name) : Option (Inum × Name) :=
  path.getLast?.bind fun name => (follow nd start path.dropLast).bind fun dp => if (nd dp).type = .dir then some (dp, name) else none

theorem follow_cons (nd : Inum → Node) (ip : Inum) (name : Name) (path : List Name) :
    follow nd ip (name :: path) = (enter nd ip name).bind fun next => follow nd next path := List.foldlM_cons

theorem walk_follow (nd : Inum → Node) (ip : Inum) (name : Name) (path : List Name) :
    (walk nd false ip name path).map Prod.fst = follow nd ip path := by
  induction path generalizing ip name with
  | nil => rfl
  | cons elem path ih =>
    rw [follow_cons, walk, enter]
    by_cases hd : (nd ip).type = .dir
    · rw [if_neg (not_not.2 hd), if_neg (by simp), if_pos hd]
      cases (nd ip).find elem with
      | none => rfl
      | some next => exact ih next elem
    · rw [if_pos hd, if_neg hd]
      rfl

theorem walk_followParent (nd : Inum → Node) (ip : Inum) (name : Name) (path : List Name) :
    walk nd true ip name path = followParent nd ip path := by
  induction path generalizing ip name with
  | nil => rfl
  | cons elem path ih =>
    rw [walk]
    cases path with
    | nil =>
      by_cases hd : (nd ip).type = .dir
      · rw [if_neg (not_not.2 hd), if_pos (by simp)]
        exact (if_pos hd).symm
      · rw [if_pos hd]
        exact (if_neg hd).symm
    | cons elem' path =>
      have hparent : followParent nd ip (elem :: elem' :: path) = (enter nd ip elem).bind fun next => followParent nd next (elem' :: path) := by
        rw [followParent, List.getLast?_cons_cons, List.dropLast_cons_cons, follow_cons]
        unfold followParent
        cases (elem' :: path).getLast? with
        | none => cases enter nd ip elem <;> rfl
        | some last => cases enter nd ip elem <;> rfl
      rw [hparent, enter]
      by_cases hd : (nd ip).type = .dir
      · rw [if_neg (not_not.2 hd), if_neg (by simp), if_pos hd]
        cases (nd ip).find elem with
        | none => rfl
        | some next => exact ih next elem
      · rw [if_pos hd, if_neg hd]
        rfl

/-! ### Code that returns -/

section

variable {α β : Type} {N : Nat} {env : DirEnv} {k : DirK}

/-- The code comes to its end, in `Q`. -/
def Returns (N : Nat) (env : DirEnv) (c : DirCode α) (Q : α → DirK → Prop) (k : DirK) : Prop :=
  ∃ a k', k.run N env c = .ok (a, k') ∧ Q a k'

theorem returns_bind {c : DirCode α} {f : α → DirCode β} {Q : β → DirK → Prop}
    (h : Returns N env c (fun a k => Returns N env (f a) Q k) k) : Returns N env (c >>= f) Q k := by
  obtain ⟨a, k', hrun, b, k'', hrun', hQ⟩ := h
  refine ⟨b, k'', ?_, hQ⟩
  change k.run N env (c.bind f) = _
  induction c generalizing k with
  | ret a' =>
    cases hrun
    exact hrun'
  | panic msg => cases hrun
  | call o g ih =>
    unfold DirK.run at hrun
    simp only [Code.bind]
    unfold DirK.run
    split at hrun
    · cases hrun
    · exact ih _ hrun

/-- A section of `Dir` that does not panic. -/
theorem returns_lift {o : DirOp} {m : DirM o.Ans} {P : o.Ans → Dirs → Prop} {Q : o.Ans → DirK → Prop}
    (ho : ∀ k : DirK, k.exec N env o = k.lift m) (hw : wp m P (fun _ _ => False) k.d) (hQ : ∀ x d, P x d → Q x { k with d }) :
    Returns N env (Code.op o) Q k := by
  obtain ⟨a, d, hm, hP⟩ := wp_false hw
  refine ⟨a, { k with d }, ?_, hQ a d hP⟩
  have he : k.exec N env o = .ok (a, { k with d }) := by rw [ho, DirK.lift, hm]
  show k.run N env (.call o .ret) = _
  unfold DirK.run
  rw [he]
  rfl

end

/-! ### Lookups that return -/

section

variable {N : Nat} {env : DirEnv} {b d : Dirs} {k : DirK} {i ip dp : Inum} {name : Name}

theorem ilock_returns (h : d.Lockable i) : wp (Dir.ilock i) (fun _ t => t = d.lock i) (fun _ _ => False) d := by
  obtain ⟨hr, ht⟩ := h
  unfold Dir.ilock
  simp only [wp_bind, wp_get, wp_ite]
  rw [if_neg (by omega)]
  split
  · rename_i hv
    show d = d.lock i
    rw [Dirs.lock, Dirs.setValid, ← hv, Function.update_eq_self]
  · rename_i hv
    rw [if_neg (ht.resolve_left hv)]
    rfl

theorem stat_returns (h : d.Lockable i) : wp (Dir.stat i) (fun x t => x.1 = (d.node i).type ∧ t = d.lock i) (fun _ _ => False) d := by
  unfold Dir.stat
  rw [wp_bind]
  refine wp_mono (ilock_returns h) (fun _ t ht => ?_) fun _ _ => id
  rw [ht]
  exact ⟨rfl, rfl⟩

theorem iget_returns (h : d.inUse N < NINODE) (i : Inum) : wp (Dir.iget N i) (fun _ t => t = d.got i) (fun _ _ => False) d := by
  unfold Dir.iget
  simp only [wp_bind, wp_get, wp_ite]
  split
  · rename_i hr
    show d.setRef i _ = _
    rw [Dirs.got, if_pos hr]
  · rename_i hr
    rw [if_neg (by omega)]
    show (d.setRef i 1).setValid i false = _
    have h0 : d.ref i = 0 := by omega
    rw [Dirs.got, if_neg hr, h0]
    rfl

theorem lookup_returns (h : d.Lockable dp) (hN : d.inUse N < NINODE) (name : Name) :
    wp (Dir.lookup N dp name) (fun _ _ => True) (fun _ _ => False) d := by
  unfold Dir.lookup
  rw [wp_bind]
  refine wp_mono (ilock_returns h) (fun _ t ht => ?_) fun _ _ => id
  subst ht
  simp only [wp_bind, wp_get, wp_ite]
  split
  · trivial
  · rename_i hd
    unfold Dir.dirlookup
    simp only [wp_bind, wp_get, wp_ite]
    rw [if_neg hd]
    cases ((d.lock dp).node dp).findEnt name with
    | none => trivial
    | some j =>
      simp only [wp_bind]
      exact wp_mono (iget_returns (d := d.lock dp) hN _) (fun _ _ _ => trivial) fun _ _ => id

/-- One more reference takes one more entry of the table at most. -/
theorem At.inUse (h : At b ({i} + 0) d) : d.inUse N ≤ b.inUse N + 1 := by
  have hcount : ∀ j, decide (0 < d.ref j) = true → (decide (0 < b.ref j) || decide (j = i)) = true := by
    intro j hj
    have hr := h.ref j
    rw [add_zero, Multiset.count_singleton] at hr
    by_cases hji : j = i
    · simp [hji]
    · rw [if_neg hji] at hr
      simpa [hji, hr] using hj
  have hone : (List.range N).countP (fun j => decide (j = i)) ≤ 1 := by
    have := List.nodup_iff_count_le_one.1 (List.nodup_range (n := N)) i
    simpa [List.count_eq_countP, beq_eq_decide] using this
  have hor : ∀ l : List Nat, l.countP (fun j => decide (0 < b.ref j) || decide (j = i)) ≤
      l.countP (fun j => decide (0 < b.ref j)) + l.countP (fun j => decide (j = i)) := by
    intro l
    induction l with
    | nil => exact Nat.le_refl _
    | cons j l ih =>
      simp only [List.countP_cons]
      by_cases h1 : 0 < b.ref j <;> by_cases h2 : j = i <;> simp only [h1, h2, decide_true, decide_false, Bool.or_true, Bool.or_false,
        if_true, Bool.false_eq_true, if_false] <;> omega
  calc d.inUse N ≤ (List.range N).countP (fun j => decide (0 < b.ref j) || decide (j = i)) := List.countP_mono_left fun j _ => hcount j
    _ ≤ b.inUse N + (List.range N).countP (fun j => decide (j = i)) := hor _
    _ ≤ b.inUse N + 1 := Nat.add_le_add_left hone _

theorem At.lockable (h : At b ({i} + 0) d) (hs : Safe b i) (hh : b.Held) : d.Lockable i := by
  have hr := h.ref i
  rw [add_zero, Multiset.count_singleton_self] at hr
  refine ⟨by omega, .inr ?_⟩
  rw [(h.node i).1]
  exact hs.elim (hh i) And.left

/-- The loop of `namex` returns where the walk ends. -/
theorem namexFrom_returns {parent : Bool} {path : List Name} {Q : Option (Inum × Name) → DirK → Prop} (h : At b ({ip} + 0) k.d)
    (hb : SafeBelow b) (hs : Safe b ip) (hh : b.Held) (hN : b.inUse N + 2 ≤ NINODE)
    (hn : walk b.node parent ip name path = none → ∀ k', At b 0 k'.d → Q none k')
    (hQ : ∀ i n, walk b.node parent ip name path = some (i, n) → ∀ k', At b ({i} + 0) k'.d → Q (some (i, n)) k') :
    Returns N env (SysFile.namexFrom parent ip name path) Q k := by
  have hiput : ∀ {ip : Inum} {H : Multiset Inum} {k : DirK} {Q : Unit → DirK → Prop}, At b ({ip} + H) k.d → Safe b ip →
      (∀ k', At b H k'.d → Q () k') → Returns N env (SysFile.iput ip) Q k := by
    intro ip H k Q h hs hQ
    refine returns_lift (o := .iput ip) (m := Dir.iput ip) (P := fun _ t => t = k.d.put ip) (fun _ => rfl) ?_ fun x d hd => ?_
    · exact Dir.iput_put ip
    · rw [hd]
      exact hQ _ (h.put hs)
  have hput : ∀ {ip : Inum} {k : DirK}, At b ({ip} + 0) k.d → Safe b ip → (∀ k', At b 0 k'.d → Q none k') →
      Returns N env (do SysFile.iput ip; pure none) Q k := by
    intro ip k h hs hQ
    exact returns_bind (hiput h hs fun k' hk' => ⟨none, k', rfl, hQ k' hk'⟩)
  induction path generalizing ip name k with
  | nil =>
    unfold SysFile.namexFrom
    unfold walk at hn hQ
    cases parent with
    | true => exact hput h hs (hn rfl)
    | false => exact ⟨_, k, rfl, hQ ip name rfl k h⟩
  | cons elem path ih =>
    unfold SysFile.namexFrom
    unfold walk at hn hQ
    have hlock := h.lockable hs hh
    split
    · rename_i hp
      rw [if_pos hp] at hn hQ
      refine returns_bind (returns_lift (o := .stat ip) (m := Dir.stat ip) (fun _ => rfl) (stat_returns hlock) fun x d hd => ?_)
      obtain ⟨hx, rfl⟩ := hd
      rw [(h.node ip).1] at hx
      have hk : At b ({ip} + 0) (k.d.lock ip) := h.lock ip
      split
      · rename_i ht
        exact hput (k := { k with d := k.d.lock ip }) hk hs (hn (if_pos (hx ▸ ht)))
      · rename_i ht
        refine ⟨_, _, rfl, hQ ip elem ?_ _ hk⟩
        rw [if_neg (hx ▸ ht)]
    · rename_i hp
      rw [if_neg hp] at hn hQ
      have hfull : k.d.inUse N < NINODE := by
        have := h.inUse (N := N)
        omega
      have hw := wp_and (Dir.lookup_spec (N := N) (s := k.d) ip elem) (wp_and (lookup_result ip elem k.d) (lookup_returns hlock hfull elem))
      refine returns_bind (returns_lift (o := .lookup ip elem) (fun _ => rfl) (wp_mono hw (fun _ _ => id) fun _ _ he => he.2.2)
        fun r d hd => ?_)
      obtain ⟨⟨-, hd⟩, hr, -⟩ := hd
      cases r with
      | notdir =>
        rw [hd]
        refine hput (k := { k with d := k.d.lock ip }) (h.lock ip) hs (hn (if_pos ?_))
        rw [← (h.node ip).1]
        exact hr
      | missing =>
        obtain ⟨ht, hf⟩ := hr
        rw [(h.node ip).1] at ht
        rw [h.node.eq_of_dir ht] at hf
        rw [hd]
        refine hput (k := { k with d := k.d.lock ip }) (h.lock ip) hs (hn ?_)
        rw [if_neg (not_not.2 ht), hf]
      | found i =>
        obtain ⟨ht, hf⟩ := hr
        obtain ⟨hd, -, de, hde, rfl⟩ := hd
        rw [(h.node ip).1] at ht
        rw [h.node.eq_of_dir ht] at hf hde
        rw [if_neg (not_not.2 ht), hf] at hn hQ
        rw [hd]
        have hgot : At b ({ip} + ({de.inum} + 0)) ((k.d.lock ip).got de.inum) := by
          rw [add_left_comm]
          exact (h.lock ip).got _
        refine returns_bind (hiput (k := { k with d := (k.d.lock ip).got de.inum }) hgot hs fun k' hk' => ?_)
        exact ih hk' (hb ip ht hs de hde) hn hQ

/-- A lookup has left one more reference to its result, and no other. -/
structure Looked (b : Dirs) (r : Option Inum) (d : Dirs) : Prop where
  tree : SameTree b.node d.node
  ref : ∀ i, d.ref i = b.ref i + if r = some i then 1 else 0

theorem At.looked_none (h : At b 0 d) : Looked b none d := by
  refine ⟨h.node, fun i => ?_⟩
  rw [h.ref i, Multiset.count_zero, if_neg (by simp)]

theorem At.looked (h : At b ({i} + 0) d) : Looked b (some i) d := by
  refine ⟨h.node, fun j => ?_⟩
  rw [h.ref j, add_zero, Multiset.count_singleton]
  simp only [Option.some.injEq, eq_comm]

theorem namex_returns {l : Local} (h : At b 0 k.d) (hb : Start b l.cwd) (hh : b.Held) (hN : b.inUse N + 2 ≤ NINODE)
    (env : DirEnv) (path : List UInt8) (parent : Bool) : Returns N env (SysFile.namex l path parent)
      (fun r k' => r = walkPath b.node l.cwd path parent ∧ Looked b (r.map Prod.fst) k'.d) k := by
  have hloop : ∀ {ip : Inum} {k : DirK}, At b ({ip} + 0) k.d → Safe b ip → Returns N env (SysFile.namexFrom parent ip [] (elems path.length path))
      (fun r k' => r = walk b.node parent ip [] (elems path.length path) ∧ Looked b (r.map Prod.fst) k'.d) k := by
    intro ip k h hs
    exact namexFrom_returns h hb.below hs hh hN (fun hw k' hk' => ⟨hw.symm, hk'.looked_none⟩) fun i n hw k' hk' => ⟨hw.symm, hk'.looked⟩
  unfold SysFile.namex walkPath
  split
  · have hin : k.d.inUse N < NINODE := by
      have hr : k.d.ref = b.ref := by
        funext i
        rw [h.ref i, Multiset.count_zero, add_zero]
      rw [Dirs.inUse, hr]
      exact Nat.lt_of_lt_of_le (Nat.lt_add_of_pos_right (by decide)) hN
    refine returns_bind (returns_lift (o := .iget ROOTINO) (m := Dir.iget N ROOTINO) (fun _ => rfl) (iget_returns hin ROOTINO) fun x d hd => ?_)
    rw [hd]
    exact hloop (h.got ROOTINO) hb.root
  · refine returns_bind (returns_lift (o := .idup l.cwd) (m := Dir.idup l.cwd) (P := fun _ t => t = k.d.setRef l.cwd (k.d.ref l.cwd + 1))
      (fun _ => rfl) (Dir.idup_spec l.cwd) fun x d hd => ?_)
    rw [hd]
    exact hloop (h.add_ref rfl rfl rfl) (.inl hb.cwd)

/-- Where a path of process `p` starts. -/
def DirSys.start (s : DirSys) (p : Fin NPROC) (path : List UInt8) : Inum :=
  if path.head? = some slash then ROOTINO else (s.k.slot p).loc.cwd

/-- In every state, a lookup by a process between its calls returns, unless the inode table is full but for one entry: `namei` with the
inode that the elements of the path lead to, and `nameiparent` with the directory of the last one. -/
theorem namei_follows {s : DirSys} {p : Fin NPROC} (h : ((dirLts N (SoundImage N)).guard (DirSys.Meets keepsParents)).Reachable s)
    (hp : (s.k.slot p).st = .live) (hN : s.k.d.inUse N + 2 ≤ NINODE) (env : DirEnv) (path : List UInt8) :
    Returns N env (SysFile.namei (s.k.slot p).loc path)
      (fun r k => r = follow s.k.d.node (s.start p path) (pathElems path) ∧ Looked s.k.d r k.d) s.k ∧
    Returns N env (SysFile.nameiparent (s.k.slot p).loc path)
      (fun r k => r = followParent s.k.d.node (s.start p path) (pathElems path) ∧ Looked s.k.d (r.map Prod.fst) k.d) s.k := by
  obtain ⟨own, hinv, hs⟩ := dir_invariant (J := Sound N) (fun _ hI hb => hI.sound hb)
    (fun _ _ hx hc => hx.change (fun _ _ hg => hg) hc) h
  have hcalm := hinv.calm hs hp
  have h0 : At s.k.d 0 s.k.d := ⟨fun i => ⟨rfl, fun _ => rfl⟩, fun i => rfl, ⟨fun f => rfl, fun f _ => rfl, hinv.acc.closed⟩⟩
  constructor
  · obtain ⟨r, k', hrun, hr, hl⟩ := namex_returns h0 hcalm.toStart hcalm.held hN env path false
    refine returns_bind ⟨r, k', hrun, r.map Prod.fst, k', rfl, ?_, hl⟩
    rw [hr, walkPath, walk_follow, elems_eq (Nat.le_refl _)]
    rfl
  · obtain ⟨r, k', hrun, hr, hl⟩ := namex_returns h0 hcalm.toStart hcalm.held hN env path true
    refine ⟨r, k', hrun, ?_, hl⟩
    rw [hr, walkPath, walk_followParent, elems_eq (Nat.le_refl _)]
    rfl

end

/-- After `mkdir a` the path `//a/` leads to the new directory. -/
theorem namei_follows_mkdirRun : ∃ s : DirSys, ((dirLts 10 (SoundImage 10)).guard (DirSys.Meets keepsParents)).Reachable s ∧
    follow s.k.d.node (s.start ⟨0, NPROC_pos⟩ [47, 47, 97, 47]) (pathElems [47, 47, 97, 47]) = some 2 ∧
    Returns 10 ⟨(true, true), [], true⟩ (SysFile.namei (s.k.slot ⟨0, NPROC_pos⟩).loc [47, 47, 97, 47])
      (fun r k => r = follow s.k.d.node (s.start ⟨0, NPROC_pos⟩ [47, 47, 97, 47]) (pathElems [47, 47, 97, 47]) ∧ Looked s.k.d r k.d) s.k := by
  have hany : (Lts.replay (fun s e => DirSys.step s 10 e) (DirSys.check keepsParentsCheck) (DirSys.boot emptyImage) mkdirRun).any
      (fun s => (s.k.slot ⟨0, NPROC_pos⟩).st = .live ∧ s.k.d.inUse 10 + 2 ≤ NINODE ∧ enter s.k.d.node ROOTINO [97] = some 2) = true := by
    decide +kernel
  obtain ⟨s, hs, hq⟩ := Lts.Reachable.replay_any (I := fun s => SoundImage 10 s.k.d.node ∧ s.Booted)
    (DirSys.meets_of_check keepsParents_of_check) ⟨emptyImage_sound (by decide), DirSys.boot_booted _⟩ hany
  obtain ⟨hp, hN, he⟩ := of_decide_eq_true hq
  refine ⟨s, hs, ?_, (namei_follows hs hp hN _ _).1⟩
  have helems : pathElems [47, 47, 97, 47] = [[97]] := (elems_eq (n := 4) (by decide)).symm.trans (by decide)
  rw [helems, follow_cons]
  exact (congrArg (Option.bind · _) he).trans rfl

end Xv6
