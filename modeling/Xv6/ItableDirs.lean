import Xv6.ItableBlocks
import Xv6.ItableLost

/-!
# The references of the inode table by inode

`Dirs` counts the references to each inode and says nothing of table entries.  `dirs_refine`: its `iget`, `idup`, `ilock` and `iput` do
to the counts what those of the table do to the entries.
-/

namespace Xv6

open Function (update)

namespace Itable

variable {P V : Type} [DecidableEq P] [DecidableEq V] {s t : Itable P V} {N n : Nat} {dev : UInt32} {d d' : Dirs}

/-- The inode numbers of `Dirs` below `N`, on a device. -/
def num (dev : UInt32) (n : Nat) : UInt32 × UInt32 := (dev, .ofNat n)

theorem num_inj (hN : N ≤ 2 ^ 32) {m : Nat} (hm : m < N) (hn : n < N) (h : num dev m = num dev n) : m = n := by
  have h' := congrArg UInt32.toNat (Prod.ext_iff.1 h).2
  simp only [num] at h'
  rwa [UInt32.toNat_ofNat_of_lt' (show m < 2 ^ 32 by omega), UInt32.toNat_ofNat_of_lt' (show n < 2 ^ 32 by omega)] at h'

omit [DecidableEq P] [DecidableEq V] in
theorem toNat_inum (hN : N ≤ 2 ^ 32) (hn : n < N) {i : Fin NINODE} (hk : (s.entry i).key = num dev n) : (s.entry i).inum.toNat = n := by
  have h := congrArg UInt32.toNat (Prod.ext_iff.1 hk).2
  exact h.trans (UInt32.toNat_ofNat_of_lt' (show n < 2 ^ 32 by omega))

/-- `d` has the references and the valid copies of the table, and the types and link counts of the inodes. -/
structure Counted (N : Nat) (dev : UInt32) (s : Itable P V) (d : Dirs) : Prop where
  only : ∀ i, 0 < (s.entry i).ref → ∃ n < N, (s.entry i).key = num dev n
  entry : ∀ i n, n < N → 0 < (s.entry i).ref → (s.entry i).key = num dev n →
    d.ref n = (s.entry i).ref ∧ d.valid n = (s.entry i).valid
  used : ∀ n < N, 0 < d.ref n → ∃ i, 0 < (s.entry i).ref ∧ (s.entry i).key = num dev n
  type : ∀ n < N, (d.node n).type = .free ↔ (s.view (num dev n)).type = 0
  nlink : ∀ n < N, (d.node n).nlink = 0 ↔ (s.view (num dev n)).nlink = 0

omit [DecidableEq P] [DecidableEq V] in
/-- Entry `i` is that of inode `n` before, or is not in use, and that of inode `n` after. -/
theorem Counted.update (hN : N ≤ 2 ^ 32) (h : s.Counted N dev d) {i : Fin NINODE} (hn : n < N)
    (hi : 0 < (s.entry i).ref → (s.entry i).key = num dev n)
    (hfree : ∀ j, j ≠ i → 0 < (s.entry j).ref → (s.entry j).key ≠ num dev n)
    (hother : ∀ j, j ≠ i → t.entry j = s.entry j) (hkey : (t.entry i).key = num dev n)
    (href : d'.ref = update d.ref n (t.entry i).ref) (hvalid : d'.valid = update d.valid n (t.entry i).valid)
    (htype : ∀ m < N, (d'.node m).type = .free ↔ (t.view (num dev m)).type = 0)
    (hnlink : ∀ m < N, (d'.node m).nlink = 0 ↔ (t.view (num dev m)).nlink = 0) : t.Counted N dev d' := by
  refine ⟨fun j hr => ?_, fun j m hm hr hk => ?_, fun m hm hr => ?_, htype, hnlink⟩
  · by_cases hj : j = i
    · exact ⟨n, hn, hj ▸ hkey⟩
    · rw [hother j hj] at hr ⊢
      exact h.only j hr
  · by_cases hj : j = i
    · subst hj
      obtain rfl := num_inj hN hn hm (hkey.symm.trans hk)
      rw [href, hvalid, Function.update_self, Function.update_self]
      exact ⟨rfl, rfl⟩
    · rw [hother j hj] at hr hk ⊢
      have hmn : m ≠ n := by
        rintro rfl
        exact hfree j hj hr hk
      rw [href, hvalid, Function.update_of_ne hmn, Function.update_of_ne hmn]
      exact h.entry j m hm hr hk
  · rw [href] at hr
    by_cases hmn : m = n
    · subst hmn
      rw [Function.update_self] at hr
      exact ⟨i, hr, hkey⟩
    · rw [Function.update_of_ne hmn] at hr
      obtain ⟨j, hj, hk⟩ := h.used m hm hr
      have hji : j ≠ i := by
        rintro rfl
        exact hmn (num_inj hN hm hn (hk.symm.trans (hi hj)))
      exact ⟨j, by rwa [hother j hji], by rwa [hother j hji]⟩

variable [Fintype P] [Fintype V]

omit [DecidableEq P] [DecidableEq V] in
/-- All entries are in use when `Dirs` says so. -/
theorem Counted.full (hN : N ≤ 2 ^ 32) (h : s.Counted N dev d) (hs : s.Inv) : NINODE ≤ d.inUse N ↔ ∀ i, 0 < (s.entry i).ref := by
  have hcard : d.inUse N = (Finset.univ.filter fun i => 0 < (s.entry i).ref).card := by
    have hlist : d.inUse N = ((Finset.range N).filter fun n => 0 < d.ref n).card := by
      rw [Dirs.inUse, List.countP_eq_length_filter, ← List.toFinset_card_of_nodup (List.nodup_range.filter _), List.toFinset_filter,
        List.toFinset_range]
      simp
    rw [hlist]
    symm
    refine Finset.card_bij (fun i _ => (s.entry i).inum.toNat) (fun i hi => ?_) (fun i hi j hj hij => ?_) fun n hn => ?_
    · obtain ⟨n, hn, hk⟩ := h.only i (Finset.mem_filter.1 hi).2
      rw [toNat_inum hN hn hk, Finset.mem_filter, Finset.mem_range, (h.entry i n hn (Finset.mem_filter.1 hi).2 hk).1]
      exact ⟨hn, (Finset.mem_filter.1 hi).2⟩
    · obtain ⟨n, hn, hk⟩ := h.only i (Finset.mem_filter.1 hi).2
      obtain ⟨m, hm, hl⟩ := h.only j (Finset.mem_filter.1 hj).2
      rw [toNat_inum hN hn hk, toNat_inum hN hm hl] at hij
      exact hs.unique i j (Finset.mem_filter.1 hi).2 (Finset.mem_filter.1 hj).2 (by rw [hk, hl, hij])
    · obtain ⟨hn, hr⟩ := Finset.mem_filter.1 hn
      obtain ⟨i, hi, hk⟩ := h.used n (Finset.mem_range.1 hn) hr
      exact ⟨i, Finset.mem_filter.2 ⟨Finset.mem_univ i, hi⟩, toNat_inum hN (Finset.mem_range.1 hn) hk⟩
  rw [hcard]
  constructor
  · intro hfull i
    have hle := Finset.card_le_univ (Finset.univ.filter fun i => 0 < (s.entry i).ref)
    have huniv := Finset.eq_univ_of_card _ (Nat.le_antisymm hle (by rwa [Fintype.card_fin]))
    have hi : i ∈ Finset.univ.filter fun i => 0 < (s.entry i).ref := by
      rw [huniv]
      exact Finset.mem_univ i
    exact (Finset.mem_filter.1 hi).2
  · intro hall
    rw [Finset.filter_true_of_mem fun i _ => hall i, Finset.card_univ, Fintype.card_fin]

theorem iget_run (N n : Nat) (d : Dirs) : Dir.iget N n d =
    if 0 < d.ref n then .ok () (d.setRef n (d.ref n + 1))
    else if NINODE ≤ d.inUse N then .error "iget: no inodes" d else .ok () ((d.setRef n 1).setValid n false) := by
  change (if 0 < d.ref n then set (d.setRef n (d.ref n + 1))
    else if NINODE ≤ d.inUse N then throw "iget: no inodes" else set ((d.setRef n 1).setValid n false) : DirM Unit) d = _
  split
  · rfl
  · split <;> rfl

omit [DecidableEq P] [DecidableEq V] [Fintype P] [Fintype V] in
theorem Counted.of_view {x : Dirs} (h : s.Counted N dev d) (hview : t.view = s.view) (hnode : x.node = d.node) :
    (∀ m < N, (x.node m).type = .free ↔ (t.view (num dev m)).type = 0) ∧
      ∀ m < N, (x.node m).nlink = 0 ↔ (t.view (num dev m)).nlink = 0 := by
  rw [hview, hnode]
  exact ⟨h.type, h.nlink⟩

omit [DecidableEq P] [DecidableEq V] [Fintype P] [Fintype V] in
theorem Counted.congr (h : s.Counted N dev d) (he : t.entry = s.entry) (hview : t.view = s.view) : t.Counted N dev d := by
  refine ⟨?_, ?_, ?_, ?_, ?_⟩
  · rw [he]
    exact h.only
  · rw [he]
    exact h.entry
  · rw [he]
    exact h.used
  · rw [hview]
    exact h.type
  · rw [hview]
    exact h.nlink

omit [DecidableEq P] [DecidableEq V] in
/-- Other entries do not have the inode. -/
theorem Inv.alone (hs : s.Inv) {i : Fin NINODE} (hr : 0 < (s.entry i).ref) (j : Fin NINODE) (hji : j ≠ i) (hj : 0 < (s.entry j).ref) :
    (s.entry j).key ≠ (s.entry i).key := fun hk => hji (hs.unique j i hj hr hk)

omit [DecidableEq P] in
theorem Counted.iget (hN : N ≤ 2 ^ 32) (h : s.Counted N dev d) (hs : s.Inv) (hn : n < N) {p : P} {v : V}
    (hk : s.Keeps (.iget p v dev (.ofNat n))) :
    (∀ t, s.iget v (num dev n) = .ok t → ∃ d', Dir.iget N n d = .ok () d' ∧ t.Counted N dev d') ∧
      ∀ msg, s.iget v (num dev n) = .error msg → Dir.iget N n d = .error msg d := by
  obtain ⟨htype, hnone, hearly⟩ := hs.named hk.2
  have hview : ∀ t, s.iget v (num dev n) = .ok t → t.view = s.view := fun t ht => (hs.iget hk.1 htype hnone hearly ht).2
  have hfree : (∀ j, 0 < (s.entry j).ref → (s.entry j).key ≠ num dev n) → ¬0 < d.ref n := by
    intro hno hr
    obtain ⟨j, hj, hkj⟩ := h.used n hn hr
    exact hno j hj hkj
  rw [iget_run]
  rcases get_cases (s := s) (k := num dev n) rfl with ⟨i, hr, hki, hget⟩ | ⟨hno, ⟨i, h0, hget⟩ | ⟨hfull, hget⟩⟩
  · have href := (h.entry i n hn hr hki).1
    have hvalid := (h.entry i n hn hr hki).2
    rw [if_pos (by omega)]
    refine ⟨fun t ht => ⟨_, rfl, ?_⟩, fun msg ht => by simp [Itable.iget, hget, Except.map] at ht⟩
    have hv := hview t ht
    simp only [Itable.iget, hget, Except.map, Except.ok.injEq] at ht
    subst ht
    obtain ⟨ht, hl⟩ := h.of_view (x := d.setRef n (d.ref n + 1)) hv rfl
    refine h.update hN hn (fun _ => hki) (fun j hj hrj => hki ▸ hs.alone hr j hj hrj) (fun j hj => Function.update_of_ne hj _ _)
      ?_ ?_ ?_ ht hl
    · simpa [setEntry, setVar] using (show (s.entry i).inc.key = num dev n from hki)
    · simp [setEntry, setVar, Dirs.setRef, ItableEntry.inc, href]
    · simp [setEntry, setVar, Dirs.setRef, ItableEntry.inc, ← hvalid]
  · have hnfull : ¬NINODE ≤ d.inUse N := fun hle => by
      have := (h.full hN hs).1 hle i
      omega
    rw [if_neg (hfree hno), if_neg hnfull]
    refine ⟨fun t ht => ⟨_, rfl, ?_⟩, fun msg ht => by simp [Itable.iget, hget, Except.map] at ht⟩
    have hv := hview t ht
    simp only [Itable.iget, hget, Except.map, Except.ok.injEq] at ht
    subst ht
    obtain ⟨ht, hl⟩ := h.of_view (x := (d.setRef n 1).setValid n false) hv rfl
    refine h.update hN hn (fun hr => absurd hr (by omega)) (fun j _ hrj => hno j hrj) (fun j hj => Function.update_of_ne hj _ _)
      ?_ ?_ ?_ ht hl
    · simp [setEntry, setVar, ItableEntry.recycle, ItableEntry.key]
    · simp [setEntry, setVar, Dirs.setRef, Dirs.setValid, ItableEntry.recycle]
    · simp [setEntry, setVar, Dirs.setRef, Dirs.setValid, ItableEntry.recycle]
  · rw [if_neg (hfree hno), if_pos ((h.full hN hs).2 hfull)]
    refine ⟨fun t ht => by simp [Itable.iget, hget, Except.map] at ht, fun msg ht => ?_⟩
    simp only [Itable.iget, hget, Except.map, Except.error.injEq] at ht
    rw [ht]

omit [DecidableEq P] [DecidableEq V] in
/-- A step on an entry that is in use. -/
theorem Counted.use (hN : N ≤ 2 ^ 32) (h : s.Counted N dev d) (hs : s.Inv) {i : Fin NINODE} (hn : n < N) (hr : 0 < (s.entry i).ref)
    (hk : (s.entry i).key = num dev n) (hother : ∀ j, j ≠ i → t.entry j = s.entry j) (hkey : (t.entry i).key = num dev n)
    (href : d'.ref = Function.update d.ref n (t.entry i).ref) (hvalid : d'.valid = Function.update d.valid n (t.entry i).valid)
    (hview : t.view = s.view) (hnode : d'.node = d.node) : t.Counted N dev d' :=
  h.update hN hn (fun _ => hk) (fun j hj hrj => hk ▸ hs.alone hr j hj hrj) hother hkey href hvalid (h.of_view hview hnode).1
    (h.of_view hview hnode).2

omit [DecidableEq P] in
theorem Counted.idup (hN : N ≤ 2 ^ 32) (h : s.Counted N dev d) (hs : s.Inv) (hn : n < N) {i : Fin NINODE} {v w : V}
    (hk : (s.entry i).key = num dev n) (hv : s.var v = some i) (hw : s.var w = none) : ∃ d', Dir.idup n d = .ok () d' ∧
      ((s.setEntry i (s.entry i).inc).setVar w (some i)).Counted N dev d' := by
  have hr := (hs.pos_of_var hv).2
  obtain ⟨href, hvalid⟩ := h.entry i n hn hr hk
  refine ⟨_, rfl, h.use hN hs hn hr hk (fun j hj => Function.update_of_ne hj _ _) ?_ ?_ ?_ (hs.idup hv hw).2 rfl⟩
  · simpa [setEntry, setVar] using (show (s.entry i).inc.key = num dev n from hk)
  · simp [setEntry, setVar, Dirs.setRef, ItableEntry.inc, href]
  · simp [setEntry, setVar, Dirs.setRef, ItableEntry.inc, ← hvalid]

omit [DecidableEq V] in
theorem Counted.ilock (hN : N ≤ 2 ^ 32) (h : s.Counted N dev d) (hs : s.Inv) (hn : n < N) {i : Fin NINODE} {p : P}
    (hk : (s.entry i).key = num dev n) (hp : s.call p = .fill i) :
    ∃ t d', s.ilockFill p i = .ok t ∧ Dir.ilock n d = .ok () d' ∧ t.Counted N dev d' := by
  obtain ⟨v, hv⟩ := points_pos.1 ((hs.entries i).uses (.inr (.inl (hs.stage_fill hp))))
  have hr := (hs.pos_of_var hv).2
  obtain ⟨href, hvalid⟩ := h.entry i n hn hr hk
  have hfree : (d.node n).type ≠ .free := fun hf => hs.view_live hv (hk ▸ (h.type n hn).1 hf)
  have hrun : Dir.ilock n d = if d.valid n then .ok () d else .ok () (d.setValid n true) := by
    change (if d.ref n < 1 then throw "ilock" else if d.valid n then pure ()
      else if (d.node n).type = .free then throw "ilock: no type" else set (d.setValid n true) : DirM Unit) d = _
    rw [if_neg (by omega), if_neg hfree]
    split <;> rfl
  obtain ⟨t, ht, -, hview⟩ := hs.fill hp
  have hmove := ht
  unfold ilockFill at hmove
  dsimp only at hmove
  by_cases hx : (s.entry i).valid = true
  · rw [if_pos hx] at hmove
    cases hmove
    exact ⟨_, d, ht, by rw [hrun, hvalid, if_pos hx], h.congr rfl hview⟩
  · rw [if_neg hx] at hmove
    split at hmove
    · cases hmove
    · cases hmove
      refine ⟨_, d.setValid n true, ht, by rw [hrun, hvalid, if_neg hx], h.use hN hs hn hr hk (fun j hj => ?_) ?_ ?_ ?_ hview rfl⟩
      · simp only [Itable.goto, setValid, setIno, setEntry, Function.update_of_ne hj]
      · exact ((key_setValid i _ i).trans (key_setIno i _ i)).trans hk
      · simp [Itable.goto, setValid, setIno, setEntry, Dirs.setValid, ← href]
      · simp [Itable.goto, setValid, setIno, setEntry, Dirs.setValid]

omit [Fintype P] [Fintype V] in
theorem replay_free {p : P} {i : Fin NINODE} {x : IputAt} (hp : s.call p = .iput i x) (es : List (ItableEv P V)) :
    s.replay N (.free p :: es) = (s.free p i x).replay N es := by
  simp only [replay, Lts.replay, step, hp, if_true]

/-- An `iput` that frees the inode, to its end. -/
theorem Inv.free_all (h : s.Inv) {p : P} {i : Fin NINODE} (hp : s.call p = .iput i .itrunc) :
    ∃ u x, s.replay N (List.replicate 7 (.free p)) = some u ∧ (∀ j, j ≠ i → u.entry j = s.entry j) ∧
      (u.entry i).key = (s.entry i).key ∧ (u.entry i).ref = (s.entry i).ref - 1 ∧ (u.entry i).valid = false ∧
      u.view = update s.view (s.entry i).key x ∧ x.type = 0 ∧ x.nlink = (s.entry i).ino.nlink := by
  have hnext : ∀ {r : Itable P V} {y : IputAt}, (r.goto p (.iput i y)).call p = .iput i y := Function.update_self ..
  obtain ⟨h1, v1⟩ := h.free hp
  obtain ⟨h2, v2⟩ := h1.free (p := p) (i := i) (x := .update) hnext
  obtain ⟨h3, v3⟩ := h2.free (p := p) (i := i) (x := .type) hnext
  obtain ⟨h4, v4⟩ := h3.free (p := p) (i := i) (x := .iupdate) hnext
  obtain ⟨h5, v5⟩ := h4.free (p := p) (i := i) (x := .valid) hnext
  obtain ⟨h6, v6⟩ := h5.free (p := p) (i := i) (x := .releasesleep) hnext
  obtain ⟨-, v7⟩ := h6.free (p := p) (i := i) (x := .ref) hnext
  have hview : ((s.free p i .itrunc).free p i .update).view = update s.view (s.entry i).key (s.entry i).ino.emptied := v2.trans v1
  refine ⟨((((((s.free p i .itrunc).free p i .update).free p i .type).free p i .iupdate).free p i .valid).free p i
    .releasesleep).free p i .ref, { (s.entry i).ino.emptied with type := 0 }, ?_, fun j hj => ?_, ?_, ?_, ?_, ?_, rfl, rfl⟩
  · refine (replay_free hp _).trans ((replay_free (x := .update) hnext _).trans ((replay_free (x := .type) hnext _).trans ?_))
    refine (replay_free (x := .iupdate) hnext _).trans ((replay_free (x := .valid) hnext _).trans ?_)
    exact (replay_free (x := .releasesleep) hnext _).trans (replay_free (x := .ref) hnext [])
  · simp [Itable.free, dec, Itable.flush, setLock, setDisk, setValid, setIno, setEntry, Itable.goto, hj]
  · simp [Itable.free, dec, Itable.flush, setLock, setDisk, setValid, setIno, setEntry, Itable.goto, ItableEntry.key]
  · simp [Itable.free, dec, Itable.flush, setLock, setDisk, setValid, setIno, setEntry, Itable.goto]
  · simp [Itable.free, dec, Itable.flush, setLock, setDisk, setValid, setIno, setEntry, Itable.goto]
  · refine v7.trans (v6.trans (v5.trans (v4.trans (v3.trans ?_))))
    rw [hview]
    simp [Itable.free, Itable.flush, setDisk, setIno, setEntry, Itable.goto, ItableEntry.key]

theorem Counted.iput (hN : N ≤ 2 ^ 32) (h : s.Counted N dev d) (hs : s.Inv) (hn : n < N) {i : Fin NINODE} {p : P} {v : V} {M : Nat}
    (hk : (s.entry i).key = num dev n) (hp : s.call p = .out) (hv : s.var v = some i) (hkeep : s.Keeps (.iput p v)) :
    ∃ t k u d', s.iput p v i = .ok t ∧ t.replay M (List.replicate k (.free p)) = some u ∧ Dir.iput n d = .ok () d' ∧
      u.Counted N dev d' := by
  obtain ⟨hpos, hr⟩ := hs.pos_of_var hv
  obtain ⟨href, hvalid⟩ := h.entry i n hn hr hk
  obtain ⟨t, ht, hinv, hview⟩ := hs.iput hp hv (hkeep i hv)
  have hlast : (d.ref n = 1 ∧ d.valid n = true ∧ (d.node n).nlink = 0) ↔
      (s.entry i).ref = 1 ∧ (s.entry i).valid = true ∧ (s.entry i).ino.nlink = 0 := by
    rw [href, hvalid]
    refine and_congr_right fun h1 => and_congr_right fun hx => ?_
    have hrefs := (hs.entries i).refs
    rw [h.nlink n hn, ← hk, hs.view_alone hr hx (by omega)]
  obtain ⟨d₁, hrun, hfreed, hkept⟩ : ∃ d₁ : Dirs, Dir.iput n d = .ok () (d₁.setRef n (d₁.ref n - 1)) ∧
      ((d.ref n = 1 ∧ d.valid n = true ∧ (d.node n).nlink = 0) → d₁ = (d.setNode n (Dir.freed (d.node n))).setValid n false) ∧
      (¬(d.ref n = 1 ∧ d.valid n = true ∧ (d.node n).nlink = 0) → d₁ = d) :=
    ⟨_, rfl, fun hx => if_pos hx, fun hx => if_neg hx⟩
  have hmove := ht
  unfold Itable.iput at hmove
  rw [hrun]
  split at hmove
  · rename_i hx
    split at hmove
    · cases hmove
      obtain ⟨u, x, hu, hother, hkey, hur, huv, hview', hx0, hxn⟩ := hinv.free_all (N := M) (p := p) (i := i) (Function.update_self ..)
      rw [hfreed (hlast.2 hx)]
      refine ⟨_, 7, u, _, ht, hu, rfl, h.update hN hn (fun _ => hk) (fun j hj hrj => hk ▸ hs.alone hr j hj hrj) hother (hkey.trans hk)
        ?_ ?_ (fun m hm => ?_) fun m hm => ?_⟩
      · rw [hur]
        change Function.update d.ref n (d.ref n - 1) = Function.update d.ref n ((s.entry i).ref - 1)
        rw [href]
      · rw [huv]
        rfl
      · rw [hview', hview]
        change (Function.update d.node n (Dir.freed (d.node n)) m).type = .free ↔
          (Function.update s.view (s.entry i).key x (num dev m)).type = 0
        by_cases hmn : m = n
        · subst hmn
          rw [hk, Function.update_self, Function.update_self]
          exact iff_of_true rfl hx0
        · rw [hk, Function.update_of_ne hmn, Function.update_of_ne fun he => hmn (num_inj hN hm hn he)]
          exact h.type m hm
      · rw [hview', hview]
        change (Function.update d.node n (Dir.freed (d.node n)) m).nlink = 0 ↔
          (Function.update s.view (s.entry i).key x (num dev m)).nlink = 0
        by_cases hmn : m = n
        · subst hmn
          rw [hk, Function.update_self, Function.update_self]
          exact iff_of_true (hlast.2 hx).2.2 (hxn.trans hx.2.2)
        · rw [hk, Function.update_of_ne hmn, Function.update_of_ne fun he => hmn (num_inj hN hm hn he)]
          exact h.nlink m hm
    · cases hmove
  · rename_i hx
    cases hmove
    rw [hkept fun hd => hx (hlast.1 hd)]
    refine ⟨_, 0, _, _, ht, rfl, rfl, h.use hN hs hn hr hk (fun j hj => Function.update_of_ne hj _ _) ((key_dec i i).trans hk)
      ?_ ?_ hview rfl⟩
    · simp [dec, setEntry, setVar, Dirs.setRef, href]
    · simp [dec, setEntry, setVar, Dirs.setRef, ← hvalid]

/-- `iget`, `idup`, `ilock` and `iput` of `Dirs` are those of the table, as seen by inode; the two panic together. -/
theorem dirs_refine {M : Nat} (h : (itableLts P V M).Reachable s) (hN : N ≤ 2 ^ 32) (hc : s.Counted N dev d) (hn : n < N) :
    (∀ p v, s.Keeps (.iget p v dev (.ofNat n)) →
      (∀ t, s.iget v (num dev n) = .ok t → ∃ d', Dir.iget N n d = .ok () d' ∧ t.Counted N dev d') ∧
      ∀ msg, s.iget v (num dev n) = .error msg → Dir.iget N n d = .error msg d) ∧
    ∀ i, (s.entry i).key = num dev n →
      (∀ v w, s.var v = some i → s.var w = none → ∃ d', Dir.idup n d = .ok () d' ∧
        ((s.setEntry i (s.entry i).inc).setVar w (some i)).Counted N dev d') ∧
      (∀ p, s.call p = .fill i → ∃ t d', s.ilockFill p i = .ok t ∧ Dir.ilock n d = .ok () d' ∧ t.Counted N dev d') ∧
      ∀ p v, s.call p = .out → s.var v = some i → s.Keeps (.iput p v) → ∃ t k u d', s.iput p v i = .ok t ∧
        t.replay M (List.replicate k (.free p)) = some u ∧ Dir.iput n d = .ok () d' ∧ u.Counted N dev d' := by
  have hs := Inv.reachable h
  exact ⟨fun p v hk => hc.iget hN hs hn hk, fun i hk => ⟨fun v w hv hw => hc.idup hN hs hn hk hv hw, fun p hp => hc.ilock hN hs hn hk hp,
    fun p v hp hv hkeep => hc.iput hN hs hn hk hp hv hkeep⟩⟩

/-- `false` has allocated inode 1, locked it and unlocked it. -/
def allocRun : List (ItableEv Bool Bool) := reallocRun.take 9

/-- The counts then. -/
def allocDirs : Dirs :=
  ⟨update (fun _ => {}) 1 { type := .file }, update (fun _ => 0) 1 1, update (fun _ => false) 1 true, fun _ => {}⟩

/-- The inode, which has no links, is freed. -/
theorem dirs_refine_iput : ∃ (s t u : Itable Bool Bool) (k : Nat) (d' : Dirs), (itableLts Bool Bool 3).Reachable s ∧
    s.Counted 3 1 allocDirs ∧ s.iput false false firstEntry = .ok t ∧ t.replay 3 (List.replicate k (.free false)) = some u ∧
    Dir.iput 1 allocDirs = .ok () d' ∧ (d'.node 1).type = .free ∧ d'.ref 1 = 0 ∧ u.Counted 3 1 d' := by
  have hany : (Lts.replay (fun s e => s.step 3 e) (fun s e => decide (s.Keeps e)) (iinit fun _ => .fresh 0) allocRun).any
      (fun s => (∀ i, 0 < (s.entry i).ref → ∃ n < 3, (s.entry i).key = num 1 n) ∧
        (∀ i, ∀ n < 3, 0 < (s.entry i).ref → (s.entry i).key = num 1 n →
          allocDirs.ref n = (s.entry i).ref ∧ allocDirs.valid n = (s.entry i).valid) ∧
        (∀ n < 3, 0 < allocDirs.ref n → ∃ i, 0 < (s.entry i).ref ∧ (s.entry i).key = num 1 n) ∧
        (∀ n < 3, (allocDirs.node n).type = .free ↔ (s.view (num 1 n)).type = 0) ∧
        (∀ n < 3, (allocDirs.node n).nlink = 0 ↔ (s.view (num 1 n)).nlink = 0) ∧
        (s.entry firstEntry).key = num 1 1 ∧ s.call false = .out ∧ s.var false = some firstEntry ∧ s.Keeps (.iput false false)) = true := by
    decide +kernel
  obtain ⟨s, hs, hq⟩ := Lts.Reachable.replay_any (I := fun s => ∃ disk, s = iinit disk) (fun _ _ => of_decide_eq_true) ⟨_, rfl⟩ hany
  obtain ⟨h1, h2, h3, h4, h5, hk, hp, hv, hkeep⟩ := of_decide_eq_true hq
  have hc : s.Counted 3 1 allocDirs := ⟨h1, h2, h3, h4, h5⟩
  obtain ⟨-, -, hput⟩ := (dirs_refine hs (by decide) hc (by decide)).2 firstEntry hk
  obtain ⟨t, k, u, d', ht, hu, hd, hc'⟩ := hput false false hp hv hkeep
  refine ⟨s, t, u, k, d', hs, hc, ht, hu, hd, ?_, ?_, hc'⟩ <;> cases hd <;> decide

end Itable

end Xv6
