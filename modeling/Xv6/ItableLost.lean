import Xv6.ItableStep

/-!
# Inodes without a name

An inode in use that has no name should go when the last pointer to it does.  `inodes_kept` says exactly which calls of `iput` see to
that.  One that does not is `iput` of an inode that `ialloc` has returned and nobody has locked since.  The other is a race: an `iput`
that frees an inode has not returned, another process allocates the same inode and has the same entry, and gives it up before that
`iput` drops its reference.  `ref` is 2 then, and neither of the two frees the inode.
-/

namespace Xv6

open Function (update)

namespace Itable

variable {P V : Type} [DecidableEq P] [DecidableEq V] {s t : Itable P V} {N : Nat} {e : ItableEv P V} {k : UInt32 × UInt32}

/-- A variable points to the inode, or an `iput` is about to free it, or `ialloc` to return it. -/
def Pointed (s : Itable P V) (k : UInt32 × UInt32) : Prop :=
  (∃ i, (s.entry i).key = k ∧ ((∃ v, s.var v = some i) ∨ (s.stage i).Early)) ∨ ∃ p, s.call p = .taken k.1 k.2

/-- No inode is lost. -/
def Kept (s : Itable P V) : Prop := ∀ k, (s.view k).type ≠ 0 → (s.view k).nlink = 0 → s.Pointed k

/-- The last pointer to an inode without a name is given to `iput` after the inode has been locked, and while no other `iput` of it
is unfinished. -/
def Settled (s : Itable P V) : ItableEv P V → Prop
  | .iput _ v => ∀ i, s.var v = some i → (∀ w, s.var w = some i → w = v) → (s.view (s.entry i).key).nlink = 0 →
      (s.entry i).valid = true ∧ ∀ q, (s.call q).put? ≠ some i
  | _ => True

variable [Fintype P] [Fintype V]

omit [DecidableEq P] [DecidableEq V] [Fintype P] [Fintype V] in
theorem early_iff {i : Fin NINODE} :
    (s.stage i).Early ↔ ∃ q x, s.lock i = some q ∧ s.call q = .iput i x ∧ (Stage.freeing x).Early := by
  constructor
  · intro h
    rcases s.stage_cases i with ⟨hst, -⟩ | ⟨hst | hst, -⟩ | ⟨q, x, hst, hl, hq⟩
    · exact (hst ▸ h : Stage.unlocked.Early).elim
    · exact (hst ▸ h : Stage.fill.Early).elim
    · exact (hst ▸ h : Stage.held.Early).elim
    · exact ⟨q, x, hl, hq, hst ▸ h⟩
  · rintro ⟨q, x, hl, hq, hx⟩
    rw [stage_some hl, hq, Stage.of, if_pos rfl]
    exact hx

section

omit [DecidableEq P] [DecidableEq V] [Fintype P] [Fintype V]

theorem key_setEntry {i : Fin NINODE} {x : ItableEntry} (hx : x.key = (s.entry i).key) (j : Fin NINODE) :
    ((s.setEntry i x).entry j).key = (s.entry j).key := by
  by_cases hj : j = i
  · subst hj
    simpa [setEntry] using hx
  · simp only [setEntry, Function.update_of_ne hj]

theorem key_setIno (i : Fin NINODE) (d : Dinode) (j : Fin NINODE) : ((s.setIno i d).entry j).key = (s.entry j).key :=
  key_setEntry (by rfl) j

theorem key_setValid (i : Fin NINODE) (b : Bool) (j : Fin NINODE) : ((s.setValid i b).entry j).key = (s.entry j).key :=
  key_setEntry (by rfl) j

theorem key_dec (i j : Fin NINODE) : ((s.dec i).entry j).key = (s.entry j).key := key_setEntry (by rfl) j

end

omit [DecidableEq V] in
/-- What a step of process `p` has to leave alone. -/
theorem Inv.pointed (h : s.Inv) {p : P} (hk : s.Pointed k) (hkey : ∀ i, 0 < (s.entry i).ref → (t.entry i).key = (s.entry i).key)
    (hvar : ∀ v i, s.var v = some i → (s.entry i).key = k → t.var v = some i)
    (hlock : ∀ i q, q ≠ p → s.lock i = some q → t.lock i = some q) (hcall : ∀ q, q ≠ p → t.call q = s.call q)
    (hput : ∀ i x, s.call p = .iput i x → (s.entry i).key = k → (Stage.freeing x).Early → (t.stage i).Early)
    (htaken : s.call p ≠ .taken k.1 k.2) : t.Pointed k := by
  rcases hk with ⟨i, rfl, ⟨v, hv⟩ | hi⟩ | ⟨q, hq⟩
  · exact .inl ⟨i, hkey i (h.pos_of_var hv).2, .inl ⟨v, hvar v i hv rfl⟩⟩
  · obtain ⟨q, x, hl, hq, hx⟩ := early_iff.1 hi
    refine .inl ⟨i, hkey i (h.pos_of_put hq).2, .inr ?_⟩
    by_cases hqp : q = p
    · subst hqp
      exact hput i x hq rfl hx
    · exact early_iff.2 ⟨q, x, hlock i q hqp hl, (hcall q hqp).trans hq, hx⟩
  · have hqp : q ≠ p := by
      rintro rfl
      exact htaken hq
    exact .inr ⟨q, (hcall q hqp).trans hq⟩

omit [DecidableEq P] [DecidableEq V] [Fintype P] [Fintype V] in
theorem Kept.of_view (h : s.Kept) (hview : t.view = s.view) (hp : ∀ k, (s.view k).type ≠ 0 → s.Pointed k → t.Pointed k) : t.Kept := by
  intro k htype hn
  rw [hview] at htype hn
  exact hp k htype (h k htype hn)

omit [DecidableEq P] [DecidableEq V] [Fintype P] [Fintype V] in
/-- A step that writes the inode `k`. -/
theorem Kept.of_update (h : s.Kept) {d : Dinode} (hview : t.view = update s.view k d) (hk : d.type ≠ 0 → d.nlink = 0 → t.Pointed k)
    (hp : ∀ l, l ≠ k → s.Pointed l → t.Pointed l) : t.Kept := by
  intro l htype hn
  by_cases hl : l = k
  · subst hl
    rw [hview, Function.update_self] at htype hn
    exact hk htype hn
  · rw [hview, Function.update_of_ne hl] at htype hn
    exact hp l hl (h l htype hn)

omit [DecidableEq V] in
/-- A step of a process that is not about to free an inode or to return a new one. -/
theorem Inv.pointed_of (h : s.Inv) {p : P} (hp : (s.call p).put? = none) (ht : s.call p ≠ .taken k.1 k.2) (hk : s.Pointed k)
    (hkey : ∀ i, 0 < (s.entry i).ref → (t.entry i).key = (s.entry i).key)
    (hvar : ∀ v i, s.var v = some i → (s.entry i).key = k → t.var v = some i)
    (hlock : ∀ i q, q ≠ p → s.lock i = some q → t.lock i = some q) (hcall : ∀ q, q ≠ p → t.call q = s.call q) : t.Pointed k :=
  h.pointed hk hkey hvar hlock hcall (fun i x hi => by simp [hi, ItableCall.put?] at hp) ht

omit [DecidableEq V] in
theorem Inv.pointed_goto (h : s.Inv) {p : P} {c : ItableCall} (hp : (s.call p).put? = none) (ht : s.call p ≠ .taken k.1 k.2)
    (hk : s.Pointed k) : (s.goto p c).Pointed k :=
  h.pointed_of hp ht hk (fun _ _ => rfl) (fun _ _ hv _ => hv) (fun _ _ _ hl => hl) fun _ hq => Function.update_of_ne hq _ _

omit [DecidableEq P] in
theorem Inv.pointed_iget (h : s.Inv) {v : V} {l : UInt32 × UInt32} (hv : s.var v = none) (ht : s.iget v l = .ok t) :
    (s.Pointed k → t.Pointed k) ∧ t.Pointed l := by
  have hmove : ∀ {j : Fin NINODE} {x : ItableEntry}, (0 < (s.entry j).ref → x.key = (s.entry j).key) → x.key = l →
      s.get l = .ok (j, x) → (s.Pointed k → t.Pointed k) ∧ t.Pointed l := by
    intro j x hx hl hget
    simp only [Itable.iget, hget, Except.map, Except.ok.injEq] at ht
    subst ht
    refine ⟨fun hk => ?_, .inl ⟨j, by simpa [setEntry, setVar] using hl, .inl ⟨v, Function.update_self ..⟩⟩⟩
    rcases hk with ⟨i, rfl, hi⟩ | hk
    · have hr : 0 < (s.entry i).ref := by
        rcases hi with ⟨w, hw⟩ | hi
        · exact (h.pos_of_var hw).2
        · obtain ⟨q, y, -, hq, -⟩ := early_iff.1 hi
          exact (h.pos_of_put hq).2
      refine .inl ⟨i, ?_, hi.imp_left ?_⟩
      · by_cases hij : i = j
        · subst hij
          simpa [setEntry, setVar] using hx hr
        · simp only [setVar, setEntry, Function.update_of_ne hij]
      · rintro ⟨w, hw⟩
        refine ⟨w, (Function.update_of_ne ?_ _ _).trans hw⟩
        rintro rfl
        rw [hv] at hw
        cases hw
    · exact .inr hk
  rcases get_cases (s := s) (k := l) rfl with ⟨j, hr, hj, hget⟩ | ⟨-, ⟨j, h0, hget⟩ | ⟨-, hget⟩⟩
  · exact hmove (x := (s.entry j).inc) (fun _ => rfl) hj hget
  · exact hmove (fun hr => absurd hr (by omega)) rfl hget
  · simp [Itable.iget, hget, Except.map] at ht

omit [DecidableEq P] [DecidableEq V] [Fintype V] in
theorem puts_zero {i : Fin NINODE} (hq : ∀ q, (s.call q).put? ≠ some i) : s.puts i = 0 :=
  Finset.sum_eq_zero fun q _ => if_neg (hq q)

omit [DecidableEq P] in
/-- The inodes without a name that stay pointed to when `iput` has dropped the pointer `v` to entry `i`. -/
theorem Inv.kept_drop (h : s.Inv) (hkept : s.Kept) {v : V} {i : Fin NINODE} (hv : s.var v = some i)
    (hview : ((s.dec i).setVar v none).view = s.view) :
    ((s.dec i).setVar v none).Kept ↔ ((∀ w, s.var w = some i → w = v) → (s.view (s.entry i).key).nlink ≠ 0) := by
  obtain ⟨hpos, hr⟩ := h.pos_of_var hv
  have hkey : ∀ j, (((s.dec i).setVar v none).entry j).key = (s.entry j).key := key_dec i
  constructor
  · intro hk hlast hn
    rcases hk (s.entry i).key (hview ▸ h.view_live hv) (hview ▸ hn) with ⟨j, hj, ⟨w, hw⟩ | he⟩ | ⟨q, hq⟩
    · have hwv : w ≠ v := by
        rintro rfl
        simp [setVar] at hw
      have hw' : s.var w = some j := (Function.update_of_ne hwv _ _).symm.trans hw
      obtain rfl := h.unique j i (h.pos_of_var hw').2 hr ((hkey j).symm.trans hj)
      exact hwv (hlast w hw')
    · obtain ⟨q, x, -, hq, -⟩ := early_iff.1 he
      obtain rfl := h.unique j i (h.pos_of_put hq).2 hr ((hkey j).symm.trans hj)
      have := (h.entries j).alone he
      omega
    · exact h.not_taken hr (.inl hpos) hq rfl
  · intro hlast k htype hn
    rw [hview] at htype hn
    rcases hkept k htype hn with ⟨j, rfl, ⟨w, hw⟩ | he⟩ | hq
    · by_cases hwv : w = v
      · subst hwv
        obtain rfl := Option.some.inj (hv.symm.trans hw)
        by_contra hno
        refine hlast (fun w' hw' => ?_) hn
        by_contra hne
        exact hno (.inl ⟨i, hkey i, .inl ⟨w', (Function.update_of_ne hne _ _).trans hw'⟩⟩)
      · exact .inl ⟨j, hkey j, .inl ⟨w, (Function.update_of_ne hwv _ _).trans hw⟩⟩
    · exact .inl ⟨j, hkey j, .inr he⟩
    · exact .inr hq

/-- The first section of `iput`. -/
theorem Inv.kept_iput (h : s.Inv) (hkept : s.Kept) {p : P} {v : V} {i : Fin NINODE} (hp : s.call p = .out) (hv : s.var v = some i)
    (ht : s.iput p v i = .ok t) (hview : t.view = s.view) : t.Kept ↔ s.Settled (.iput p v) := by
  obtain ⟨hpos, hr⟩ := h.pos_of_var hv
  have hrefs := (h.entries i).refs
  have hset : s.Settled (.iput p v) ↔ ((∀ w, s.var w = some i → w = v) → (s.view (s.entry i).key).nlink = 0 →
      (s.entry i).valid = true ∧ ∀ q, (s.call q).put? ≠ some i) := by
    refine ⟨fun hs => hs i hv, fun hs j hj => ?_⟩
    obtain rfl := Option.some.inj (hv.symm.trans hj)
    exact hs
  rw [hset]
  unfold Itable.iput at ht
  split at ht
  · rename_i hlast
    split at ht
    · rename_i hl
      cases ht
      refine iff_of_true (hkept.of_view hview fun k _ hk => ?_) fun _ _ => ⟨hlast.2.1, fun q hq => ?_⟩
      · by_cases hki : (s.entry i).key = k
        · refine .inl ⟨i, hki, .inr (early_iff.2 ⟨p, .itrunc, ?_, ?_, trivial⟩)⟩
          · simp [setLock, setVar, Itable.goto]
          · simp [Itable.goto]
        · refine h.pointed_of (by rw [hp]; rfl) (by simp [hp]) hk (fun _ _ => rfl) (fun w j hw hj => (Function.update_of_ne ?_ _ _).trans hw)
            (fun j q hq hj => (Function.update_of_ne ?_ _ _).trans hj) fun q hq => Function.update_of_ne hq _ _
          · rintro rfl
            obtain rfl := Option.some.inj (hv.symm.trans hw)
            exact hki hj
          · rintro rfl
            rw [hl] at hj
            cases hj
      · cases hc : s.call q with
        | iput j x =>
          rw [hc] at hq
          obtain rfl := Option.some.inj hq
          have := (h.pos_of_put hc).1
          omega
        | _ =>
          rw [hc] at hq
          cases hq
    · cases ht
  · rename_i hmore
    cases ht
    rw [h.kept_drop hkept hv hview]
    refine forall_congr' fun hlast => ⟨fun hn h0 => absurd h0 hn, fun hs h0 => ?_⟩
    obtain ⟨hvalid, hq⟩ := hs h0
    have hputs := puts_zero hq
    have hpoints : s.points i = 1 := by
      have hset := points_setVar (s := s) (v := v) (x := none) i
      have hno : ¬0 < (s.setVar v none).points i := by
        rw [points_pos]
        rintro ⟨w, hw⟩
        by_cases hwv : w = v
        · subst hwv
          simp [setVar] at hw
        · exact hwv (hlast w ((Function.update_of_ne hwv _ _).symm.trans hw))
      rw [if_pos hv, if_neg (by simp)] at hset
      omega
    rw [h.view_alone hr hvalid hputs] at h0
    exact hmore ⟨by omega, hvalid, h0⟩

omit [DecidableEq V] in
/-- A statement of an `iput` that frees the inode of entry `i`. -/
theorem Inv.pointed_free (h : s.Inv) {p : P} {i : Fin NINODE} {x : IputAt} (hp : s.call p = .iput i x) (hk : s.Pointed k)
    (hi : (s.entry i).key = k → (Stage.freeing x).Early → ((s.free p i x).stage i).Early) : (s.free p i x).Pointed k := by
  have hcall : ∀ q, q ≠ p → (s.free p i x).call q = s.call q := by
    intro q hq
    cases x <;> exact Function.update_of_ne hq _ _
  refine h.pointed hk (fun j _ => ?_) (fun w j hw _ => ?_) (fun j q hq hj => ?_) hcall (fun j y hy hj hx => ?_) (by simp [hp])
  · cases x with
    | update | iupdate | releasesleep => rfl
    | itrunc | type => exact key_setIno i _ j
    | valid => exact key_setValid i _ j
    | ref => exact key_dec i j
  · cases x <;> exact hw
  · cases x with
    | releasesleep =>
      refine (Function.update_of_ne ?_ _ _).trans hj
      rintro rfl
      have hl := (h.stage_iput hp (by simp)).1
      exact hq (Option.some.inj (hj.symm.trans hl))
    | _ => exact hj
  · rw [hp] at hy
    cases hy
    exact hi hj hx

omit [DecidableEq V] in
theorem Inv.kept_free (h : s.Inv) (hkept : s.Kept) {p : P} {i : Fin NINODE} {x : IputAt} (hp : s.call p = .iput i x) :
    (s.free p i x).Kept := by
  have hview := (h.free hp).2
  obtain ⟨-, hr⟩ := h.pos_of_put hp
  have hok := (h.entries i).ok hr
  have hstage := h.stage_iput hp
  have hgoto : ∀ {u : Itable P V} {y : IputAt}, u.lock i = some p → (Stage.freeing y).Early → ((u.goto p (.iput i y)).stage i).Early :=
    fun hl hy => early_iff.2 ⟨p, _, hl, Function.update_self .., hy⟩
  cases x with
  | itrunc =>
    have hearly : ((s.free p i .itrunc).stage i).Early := hgoto (hstage (by simp)).1 trivial
    exact hkept.of_update hview (fun _ _ => .inl ⟨i, key_setIno i _ i, .inr hearly⟩) fun l _ hl => h.pointed_free hp hl fun _ _ => hearly
  | update =>
    have hearly : ((s.free p i .update).stage i).Early := hgoto (hstage (by simp)).1 trivial
    exact hkept.of_view hview fun k _ hk => h.pointed_free hp hk fun _ _ => hearly
  | type =>
    exact hkept.of_update hview (fun h0 => absurd rfl h0) fun l hl hk => h.pointed_free hp hk fun hi => absurd hi.symm hl
  | iupdate =>
    -- the copy says already that the inode is free
    have hfree : (s.view (s.entry i).key).type = 0 := by
      rw [(hstage (by simp)).2] at hok
      rw [h.view_entry hr, (hstage (by simp)).2, inode_copy hr hok.1 (by simp)]
      exact hok.2.1
    exact hkept.of_view hview fun k h0 hk => h.pointed_free hp hk fun hi => absurd (hi ▸ hfree) h0
  | valid | releasesleep | ref => exact hkept.of_view hview fun k _ hk => h.pointed_free hp hk fun _ hx => hx.elim

/-- A step loses an inode just when it is an `iput` that is not `Settled`. -/
theorem Inv.kept (h : s.Inv) (hkept : s.Kept) (hk : s.Keeps e) (hs : s.step N e = some (.ok t)) : t.Kept ↔ s.Settled e := by
  have hm := h.moves hk hs
  have hshow := (h.step_ok hk hs).2
  generalize hrt : Except.ok t = r at hm
  cases hm with
  | iget hp => exact iff_of_true (hkept.of_view hshow fun k _ hl => (h.pointed_iget hk.1 hrt.symm).1 hl) trivial
  | @idup p v w i hp hv =>
    cases hrt
    refine iff_of_true (hkept.of_view hshow fun k _ hl => h.pointed_of (by rw [hp]; rfl) (by simp [hp]) hl
      (fun j _ => key_setEntry (by rfl) j) (fun x j hx _ => (Function.update_of_ne ?_ _ _).trans hx) (fun _ _ _ hl => hl) fun _ _ => rfl) trivial
    rintro rfl
    rw [hk.2] at hx
    cases hx
  | wait hp hv =>
    cases hrt
    exact iff_of_true (hkept.of_view hshow fun k _ hl => h.pointed_goto (by rw [hp]; rfl) (by simp [hp]) hl) trivial
  | @acquiresleep p i hp hfree =>
    cases hrt
    refine iff_of_true (hkept.of_view hshow fun k _ hl => h.pointed_of (by rw [hp]; rfl) (by simp [hp]) hl (fun _ _ => rfl)
      (fun _ _ hv _ => hv) (fun j q _ hj => (Function.update_of_ne ?_ _ _).trans hj) fun _ hq => Function.update_of_ne hq _ _) trivial
    rintro rfl
    rw [hfree] at hj
    cases hj
  | @fill p i hp =>
    refine iff_of_true (hkept.of_view hshow fun k _ hl => ?_) trivial
    unfold ilockFill at hrt
    dsimp only at hrt
    split at hrt
    · cases hrt
      exact h.pointed_goto (by rw [hp]; rfl) (by simp [hp]) hl
    · split at hrt
      · cases hrt
      · cases hrt
        exact h.pointed_of (by rw [hp]; rfl) (by simp [hp]) hl (fun j _ => (key_setValid i _ j).trans (key_setIno i _ j)) (fun _ _ hv _ => hv)
          (fun _ _ _ hj => hj) fun _ hq => Function.update_of_ne hq _ _
  | @modify p v i d hp hv hlock =>
    cases hrt
    have hold : (s.setIno i d).Pointed (s.entry i).key := .inl ⟨i, key_setIno i _ i, .inl ⟨v, hv⟩⟩
    refine iff_of_true (hkept.of_update (h.modify hv hlock hp ?_).2 (fun _ _ => hold) fun l _ hl =>
      h.pointed_of (by rw [hp]; rfl) (by simp [hp]) hl (fun j _ => key_setIno i _ j) (fun _ _ hv _ => hv) (fun _ _ _ hj => hj)
        fun _ _ => rfl) trivial
    obtain ⟨i', hv', -, hd⟩ := hk
    obtain rfl := Option.some.inj (hv.symm.trans hv')
    exact hd
  | iupdate hp hv hlock =>
    cases hrt
    exact iff_of_true (hkept.of_view hshow fun k _ hl => h.pointed_of (by rw [hp]; rfl) (by simp [hp]) hl (fun _ _ => rfl)
      (fun _ _ hv _ => hv) (fun _ _ _ hj => hj) fun _ _ => rfl) trivial
  | @iunlock p v i hp hv hlock =>
    cases hrt
    refine iff_of_true (hkept.of_view hshow fun k _ hl => h.pointed_of (by rw [hp]; rfl) (by simp [hp]) hl (fun _ _ => rfl)
      (fun _ _ hv _ => hv) (fun j q hq hj => (Function.update_of_ne ?_ _ _).trans hj) fun _ _ => rfl) trivial
    rintro rfl
    exact hq (Option.some.inj (hj.symm.trans hlock))
  | iput hp hv => exact h.kept_iput hkept hp hv hrt.symm hshow
  | free hp =>
    cases hrt
    exact iff_of_true (h.kept_free hkept hp) trivial
  | ialloc hp =>
    cases hrt
    exact iff_of_true (hkept.of_view hshow fun k _ hl => h.pointed_goto (by rw [hp]; rfl) (by simp [hp]) hl) trivial
  | mark hp hn h0 =>
    cases hrt
    refine iff_of_true (hkept.of_update (h.mark hp h0).2.1 (fun _ _ => .inr ⟨_, Function.update_self ..⟩) fun l _ hl => ?_) trivial
    exact h.pointed_of (by rw [hp]; rfl) (by simp [hp]) hl (fun _ _ => rfl) (fun _ _ hv _ => hv) (fun _ _ _ hj => hj)
      fun _ hq => Function.update_of_ne hq _ _
  | next hp hn h0 =>
    cases hrt
    simp only [Shows, effect, hp, hn, h0, and_false, if_false] at hshow
    exact iff_of_true (hkept.of_view hshow fun k _ hl => h.pointed_goto (by rw [hp]; rfl) (by simp [hp]) hl) trivial
  | stop hp hn =>
    cases hrt
    simp only [Shows, effect, hp, hn, false_and, if_false] at hshow
    exact iff_of_true (hkept.of_view hshow fun k _ hl => h.pointed_goto (by rw [hp]; rfl) (by simp [hp]) hl) trivial
  | @taken p v dev inum hp =>
    have hinv := (h.move (c := .out) (by rw [hp]; rfl) rfl trivial (by simp)).1
    rw [← iget_goto] at hrt
    refine iff_of_true (hkept.of_view hshow fun k _ hl => ?_) trivial
    obtain ⟨hold, hnew⟩ := hinv.pointed_iget (k := k) hk hrt.symm
    by_cases hkn : k = (dev, inum)
    · exact hkn ▸ hnew
    · refine hold (h.pointed_goto (by rw [hp]; rfl) ?_ hl)
      rw [hp]
      rintro ⟨⟩
      exact hkn rfl

end Itable

/-- The runs from a disk on which every inode in use has a name, with the pointers given up as `Itable.Settled` says. -/
def tidyLts (P V : Type) [DecidableEq P] [DecidableEq V] (ninodes : Nat) : Lts (Itable P V) (ItableEv P V) :=
  (Lts.ofFun (fun s => ∃ disk, (∀ k, (disk k).type ≠ 0 → (disk k).nlink ≠ 0) ∧ s = Itable.iinit disk) fun s e => s.step ninodes e).guard
    fun s e => s.Keeps e ∧ s.Settled e

namespace Itable

variable {P V : Type} [DecidableEq P] [DecidableEq V] [Fintype P] [Fintype V] {s : Itable P V} {N : Nat}

instance (s : Itable P V) : (e : ItableEv P V) → Decidable (s.Settled e)
  | .iput _ v => inferInstanceAs (Decidable (∀ i, s.var v = some i → (∀ w, s.var w = some i → w = v) →
      (s.view (s.entry i).key).nlink = 0 → (s.entry i).valid = true ∧ ∀ q, (s.call q).put? ≠ some i))
  | .iget .. | .idup .. | .ilock .. | .acquiresleep _ | .fill _ | .modify .. | .iupdate .. | .iunlock .. | .free _ | .ialloc .. | .scan _
  | .taken .. => inferInstanceAs (Decidable True)

/-- The inode that `true` has from `ialloc`, and has locked once, is in the entry of an `iput` of `false` that has not returned. -/
def lostRun : List (ItableEv Bool Bool) :=
  reallocRun ++ [.free false, .free false, .acquiresleep true, .fill true, .iunlock true true]

omit [DecidableEq P] [DecidableEq V] [Fintype P] [Fintype V] in
theorem kept_iinit {disk : UInt32 × UInt32 → Dinode} (h : ∀ k, (disk k).type ≠ 0 → (disk k).nlink ≠ 0) :
    (iinit disk : Itable P V).Kept := by
  intro k htype hn
  rw [view_none fun i hi => absurd hi (Nat.lt_irrefl 0)] at htype hn
  exact absurd hn (h k htype)

/-- No inode in use is without a name and a pointer, as long as the pointers to those without a name are given up as they should be;
and a call of `iput` that is not `Settled` loses an inode. -/
theorem inodes_kept (h : (tidyLts P V N).Reachable s) :
    s.Kept ∧ ∀ e t, s.Keeps e → s.step N e = some (.ok t) → (t.Kept ↔ s.Settled e) := by
  have hinv : s.Inv ∧ s.Kept := by
    refine Lts.Reachable.invariant (I := fun s : Itable P V => s.Inv ∧ s.Kept) ?_ (fun s e t hs hst => ?_) h
    · rintro _ ⟨disk, hdisk, rfl⟩
      exact ⟨.init disk, kept_iinit hdisk⟩
    · obtain ⟨⟨hk, hset⟩, hst⟩ := hst
      exact ⟨(hs.1.step_ok hk hst).1, (hs.1.kept hs.2 hk hst).2 hset⟩
  exact ⟨hinv.2, fun e t hk hs => hinv.1.kept hinv.2 hk hs⟩

/-- The race. -/
theorem inodes_kept_lost : ∃ s t : Itable Bool Bool, (tidyLts Bool Bool 3).Reachable s ∧ s.Kept ∧
    (s.entry firstEntry).valid = true ∧ s.step 3 (.iput true true) = some (.ok t) ∧ ¬t.Kept := by
  have hany : (Lts.replay (fun s e => s.step 3 e) (fun s e => decide (s.Keeps e ∧ s.Settled e)) (iinit fun _ => .fresh 0) lostRun).any
      (fun s => (s.entry firstEntry).valid = true ∧ s.enabled 3 (.iput true true) = true ∧ ¬s.Settled (.iput true true)) = true := by
    decide +kernel
  obtain ⟨s, hs, hq⟩ := Lts.Reachable.replay_any
    (I := fun s => ∃ disk, (∀ k, (disk k).type ≠ 0 → (disk k).nlink ≠ 0) ∧ s = iinit disk) (fun _ _ => of_decide_eq_true)
    ⟨_, fun _ h => absurd rfl h, rfl⟩ hany
  obtain ⟨hv, he, hset⟩ := of_decide_eq_true hq
  obtain ⟨hk, t, ht⟩ := enabled_iff.1 he
  obtain ⟨hkept, hlost⟩ := inodes_kept hs
  exact ⟨s, t, hs, hkept, hv, ht, fun h => hset ((hlost _ t hk ht).1 h)⟩

end Itable

end Xv6
