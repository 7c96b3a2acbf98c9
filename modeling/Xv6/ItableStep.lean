import Xv6.ItableInv

/-!
# The inodes of concurrent processes

What every run of the inode table keeps.  `itable_sound`: no inode is in two entries, the counts are the numbers of pointers, an
inode is not freed while a variable points to it, and no function panics but `iget` of a full table.  `inodes_refine`: the table and
the blocks together are one inode for each number, as if there were no table, and a process that has locked an inode is the only one
that changes it.
-/

namespace Xv6

open Function (update)

theorem NINODE_pos : 0 < NINODE := by decide

/-- What may become of an inode in one step: a process that has locked it writes its fields, it is freed when it has no name, and a
free inode is allocated. -/
inductive Dinode.Step : Dinode → Dinode → Prop
  | write {x y : Dinode} (h : x.type ≠ 0) (hy : y.type = x.type) : Step x y
  | free {x : Dinode} (h : x.type ≠ 0) (hn : x.nlink = 0) : Step x { x with type := 0 }
  | alloc {x : Dinode} {type : UInt16} (h : x.type = 0) (ht : type ≠ 0) : Step x (.fresh type)

namespace Itable

variable {P V : Type} [DecidableEq P] [DecidableEq V] {s t : Itable P V} {N : Nat} {e : ItableEv P V}

/-- The steps that processes take that call the functions as they should. -/
inductive Moves (N : Nat) (s : Itable P V) : ItableEv P V → Except String (Itable P V) → Prop
  | iget {p : P} {v : V} {dev inum : UInt32} (hp : s.call p = .out) : Moves N s (.iget p v dev inum) (s.iget v (dev, inum))
  | idup {p : P} {v w : V} {i : Fin NINODE} (hp : s.call p = .out) (hv : s.var v = some i) :
      Moves N s (.idup p v w) (.ok ((s.setEntry i (s.entry i).inc).setVar w (some i)))
  | wait {p : P} {v : V} {i : Fin NINODE} (hp : s.call p = .out) (hv : s.var v = some i) : Moves N s (.ilock p v) (.ok (s.goto p (.wait i)))
  | acquiresleep {p : P} {i : Fin NINODE} (hp : s.call p = .wait i) (hl : s.lock i = none) :
      Moves N s (.acquiresleep p) (.ok ((s.setLock i (some p)).goto p (.fill i)))
  | fill {p : P} {i : Fin NINODE} (hp : s.call p = .fill i) : Moves N s (.fill p) (s.ilockFill p i)
  | modify {p : P} {v : V} {i : Fin NINODE} {d : Dinode} (hp : s.call p = .out) (hv : s.var v = some i) (hl : s.lock i = some p) :
      Moves N s (.modify p v d) (.ok (s.setIno i d))
  | iupdate {p : P} {v : V} {i : Fin NINODE} (hp : s.call p = .out) (hv : s.var v = some i) (hl : s.lock i = some p) :
      Moves N s (.iupdate p v) (.ok (s.flush i))
  | iunlock {p : P} {v : V} {i : Fin NINODE} (hp : s.call p = .out) (hv : s.var v = some i) (hl : s.lock i = some p) :
      Moves N s (.iunlock p v) (.ok (s.setLock i none))
  | iput {p : P} {v : V} {i : Fin NINODE} (hp : s.call p = .out) (hv : s.var v = some i) : Moves N s (.iput p v) (s.iput p v i)
  | free {p : P} {i : Fin NINODE} {x : IputAt} (hp : s.call p = .iput i x) : Moves N s (.free p) (.ok (s.free p i x))
  | ialloc {p : P} {dev : UInt32} {type : UInt16} (hp : s.call p = .out) : Moves N s (.ialloc p dev type) (.ok (s.goto p (.scan dev type 1)))
  | mark {p : P} {dev : UInt32} {type : UInt16} {n : Nat} (hp : s.call p = .scan dev type n) (hn : n < N)
      (h0 : (s.disk (dev, .ofNat n)).type = 0) :
      Moves N s (.scan p) (.ok ((s.setDisk (dev, .ofNat n) (.fresh type)).goto p (.taken dev (.ofNat n))))
  | next {p : P} {dev : UInt32} {type : UInt16} {n : Nat} (hp : s.call p = .scan dev type n) (hn : n < N)
      (h0 : (s.disk (dev, .ofNat n)).type ≠ 0) : Moves N s (.scan p) (.ok (s.goto p (.scan dev type (n + 1))))
  | stop {p : P} {dev : UInt32} {type : UInt16} {n : Nat} (hp : s.call p = .scan dev type n) (hn : ¬n < N) :
      Moves N s (.scan p) (.ok (s.goto p .out))
  | taken {p : P} {v : V} {dev inum : UInt32} (hp : s.call p = .taken dev inum) :
      Moves N s (.taken p v) ((s.iget v (dev, inum)).map fun t => t.goto p .out)

variable [Fintype P] [Fintype V]

theorem Inv.moves (h : s.Inv) (hk : s.Keeps e) {r : Except String (Itable P V)} (hs : s.step N e = some r) : s.Moves N e r := by
  cases e with
  | iget p v dev inum =>
    simp only [step] at hs
    split at hs
    · cases hs
      exact .iget ‹_›
    · cases hs
  | idup p v w =>
    obtain ⟨⟨i, hv⟩, -⟩ := hk
    simp only [step, hv] at hs
    split at hs
    · cases hs
      exact .idup ‹_› hv
    · cases hs
  | ilock p v =>
    obtain ⟨i, hv⟩ := hk
    have hr := (h.pos_of_var hv).2
    simp only [step, hv, if_neg (Nat.not_lt.2 hr)] at hs
    split at hs
    · cases hs
      exact .wait ‹_› hv
    · cases hs
  | acquiresleep p =>
    simp only [step] at hs
    split at hs
    · split at hs
      · cases hs
        exact .acquiresleep ‹_› ‹_›
      · cases hs
    · cases hs
  | fill p =>
    simp only [step] at hs
    split at hs
    · cases hs
      exact .fill ‹_›
    · cases hs
  | modify p v d =>
    obtain ⟨i, hv, hl, -⟩ := hk
    simp only [step, hv] at hs
    split at hs
    · cases hs
      exact .modify ‹_› hv hl
    · cases hs
  | iupdate p v =>
    obtain ⟨i, hv, hl⟩ := hk
    simp only [step, hv] at hs
    split at hs
    · cases hs
      exact .iupdate ‹_› hv hl
    · cases hs
  | iunlock p v =>
    obtain ⟨i, hv, hl, -⟩ := hk
    have hr := (h.pos_of_var hv).2
    simp only [step, hv, hl, ne_eq, not_true_eq_false, false_or, if_neg (Nat.not_lt.2 hr)] at hs
    split at hs
    · cases hs
      exact .iunlock ‹_› hv hl
    · cases hs
  | iput p v =>
    simp only [step] at hs
    split at hs
    · split at hs
      · cases hs
        exact .iput ‹_› ‹_›
      · cases hs
    · cases hs
  | free p =>
    simp only [step] at hs
    split at hs
    · cases hs
      exact .free ‹_›
    · cases hs
  | ialloc p dev type =>
    simp only [step] at hs
    split at hs
    · cases hs
      exact .ialloc ‹_›
    · cases hs
  | scan p =>
    simp only [step] at hs
    split at hs
    · split at hs
      · split at hs
        · cases hs
          exact .mark ‹_› ‹_› ‹_›
        · cases hs
          exact .next ‹_› ‹_› ‹_›
      · cases hs
        exact .stop ‹_› ‹_›
    · cases hs
  | taken p v =>
    simp only [step] at hs
    split at hs
    · cases hs
      exact .taken ‹_›
    · cases hs

/-- The step `e` from `s` to `t` does to the inodes what it should. -/
def Shows (N : Nat) (s : Itable P V) (e : ItableEv P V) (t : Itable P V) : Prop :=
  match s.effect N e with
  | none => t.view = s.view
  | some (k, d) => t.view = update s.view k d ∧ Dinode.Step (s.view k) d

omit [Fintype P] [Fintype V] in
theorem iget_goto {p : P} {c : ItableCall} {v : V} {k : UInt32 × UInt32} :
    (s.goto p c).iget v k = (s.iget v k).map fun t => t.goto p c := by
  have hget : (s.goto p c).get k = s.get k := rfl
  unfold Itable.iget
  rw [hget]
  cases s.get k with
  | ok x => rfl
  | error msg => rfl

omit [DecidableEq P] in
theorem Inv.iget_ok (h : s.Inv) {v : V} {k : UInt32 × UInt32} (hv : s.var v = none) (htype : (s.disk k).type ≠ 0)
    (hnone : ∀ q, s.call q ≠ .taken k.1 k.2) (hearly : ∀ i, 0 < (s.entry i).ref → (s.entry i).key = k → ¬(s.stage i).Early) :
    (∃ t, s.iget v k = .ok t ∧ t.Inv ∧ t.view = s.view) ∨ s.iget v k = .error "iget: no inodes" ∧ ∀ i, 0 < (s.entry i).ref := by
  cases ht : s.iget v k with
  | ok t => exact .inl ⟨t, rfl, h.iget hv htype hnone hearly ht⟩
  | error msg =>
    rcases get_cases (s := s) (k := k) rfl with ⟨i, -, -, hget⟩ | ⟨-, ⟨i, -, hget⟩ | ⟨hfull, hget⟩⟩
    · simp [Itable.iget, hget, Except.map] at ht
    · simp [Itable.iget, hget, Except.map] at ht
    · simp only [Itable.iget, hget, Except.map, Except.error.injEq] at ht
      exact .inr ⟨by rw [ht], hfull⟩

theorem Inv.step (h : s.Inv) (hk : s.Keeps e) {r : Except String (Itable P V)} (hs : s.step N e = some r) :
    (∃ t, r = .ok t ∧ t.Inv ∧ s.Shows N e t) ∨ r = .error "iget: no inodes" ∧ ∀ i, 0 < (s.entry i).ref := by
  cases h.moves hk hs with
  | @iget p v dev inum hp =>
    obtain ⟨hv, hn⟩ := hk
    obtain ⟨htype, hnone, hearly⟩ := h.named hn
    exact h.iget_ok hv htype hnone hearly
  | idup hp hv => exact .inl ⟨_, rfl, h.idup hv hk.2⟩
  | wait hp hv => exact .inl ⟨_, rfl, h.wait hp hv⟩
  | acquiresleep hp hl => exact .inl ⟨_, rfl, h.acquiresleep hp hl⟩
  | fill hp => exact .inl (h.fill hp)
  | @modify p v i d hp hv hl =>
    obtain ⟨i', hv', -, hd⟩ := hk
    obtain rfl := Option.some.inj (hv.symm.trans hv')
    obtain ⟨hpos, hr, hvalid, htype, hne⟩ := h.held hv hl hp
    obtain ⟨hinv, hview⟩ := h.modify hv hl hp hd
    have hold : s.view (s.entry i).key = (s.entry i).ino := by
      rw [h.view_entry hr, stage_held hl hp]
      exact inode_copy hr hvalid Stage.noConfusion
    refine .inl ⟨_, rfl, hinv, ?_⟩
    simp only [Shows, effect, hv, Option.map_some]
    exact ⟨hview, .write (by rw [hold, htype]; exact hne) (by rw [hold]; exact hd)⟩
  | iupdate hp hv hl => exact .inl ⟨_, rfl, h.flush hv hl hp⟩
  | iunlock hp hv hl =>
    obtain ⟨i, hv', -, hd⟩ := hk
    obtain rfl := Option.some.inj (hv.symm.trans hv')
    exact .inl ⟨_, rfl, h.iunlock hv hl hp hd⟩
  | iput hp hv => exact .inl (h.iput hp hv (hk _ hv))
  | @free p i x hp =>
    obtain ⟨hinv, hview⟩ := h.free hp
    refine .inl ⟨_, rfl, hinv, ?_⟩
    have hr := (h.pos_of_put hp).2
    have hok := (h.entries i).ok hr
    have hseen := h.view_entry hr
    cases x with
    | itrunc =>
      rw [(h.stage_iput hp (by simp)).2] at hok hseen
      rw [inode_copy hr hok.1 (by simp)] at hseen
      simp only [Shows, effect, hp]
      exact ⟨hview, .write (by rw [hseen, hok.2.1]; exact hok.2.2.1) (by rw [hseen]; rfl)⟩
    | type =>
      rw [(h.stage_iput hp (by simp)).2] at hok hseen
      rw [inode_copy hr hok.1 (by simp)] at hseen
      simp only [Shows, effect, hp]
      refine ⟨hview, ?_⟩
      rw [hseen]
      exact .free (by rw [hok.2.1]; exact hok.2.2.1) (by rw [hok.2.1]; exact hok.2.2.2)
    | _ =>
      simp only [Shows, effect, hp]
      exact hview
  | ialloc hp => exact .inl ⟨_, rfl, h.move (by rw [hp]; rfl) rfl hk (by simp)⟩
  | @mark p dev type n hp hn h0 =>
    have hcall := h.calls p
    rw [hp] at hcall
    obtain ⟨hinv, hview, htype⟩ := h.mark hp h0
    refine .inl ⟨_, rfl, hinv, ?_⟩
    simp only [Shows, effect, hp, hn, h0, and_self, if_true]
    exact ⟨hview, .alloc htype hcall⟩
  | @next p dev type n hp hn h0 =>
    have hcall := h.calls p
    rw [hp] at hcall
    obtain ⟨hinv, hview⟩ := h.move (c := .scan dev type (n + 1)) (by rw [hp]; rfl) rfl hcall (by simp)
    refine .inl ⟨_, rfl, hinv, ?_⟩
    simp only [Shows, effect, hp, hn, h0, and_false, if_false]
    exact hview
  | @stop p dev type n hp hn =>
    obtain ⟨hinv, hview⟩ := h.move (c := .out) (by rw [hp]; rfl) rfl trivial (by simp)
    refine .inl ⟨_, rfl, hinv, ?_⟩
    simp only [Shows, effect, hp, hn, false_and, if_false]
    exact hview
  | @taken p v dev inum hp =>
    have ht := h.taken p dev inum hp
    obtain ⟨hinv, hview⟩ := h.move (c := .out) (by rw [hp]; rfl) rfl trivial (by simp)
    rw [← iget_goto]
    have hstage : ∀ i, (s.goto p .out).stage i = s.stage i := fun i =>
      stage_goto ((Stage.of_none i rfl).trans (Stage.of_none i (by rw [hp]; rfl)).symm)
    refine (hinv.iget_ok hk ht.type (fun q hq => ?_) fun i hr hki => ?_).imp_left ?_
    · have hqp : q = p := ht.only q (call_goto (by simp) q dev inum hq)
      subst hqp
      simp [goto] at hq
    · rw [hstage]
      exact (ht.gone i hr hki).2
    · rintro ⟨t, ht, hinv, hv⟩
      exact ⟨t, ht, hinv, hv.trans hview⟩

theorem Inv.step_ok (h : s.Inv) (hk : s.Keeps e) (hs : s.step N e = some (.ok t)) : t.Inv ∧ s.Shows N e t := by
  rcases h.step hk hs with ⟨u, hu, ht⟩ | ⟨hu, -⟩
  · cases hu
    exact ht
  · cases hu

/-! ### Who changes an inode -/

/-- `t` has the lock and the copy of entry `i`, and the call of `p`, as `s` has them. -/
def SameFor (p : P) (i : Fin NINODE) (s t : Itable P V) : Prop :=
  t.lock i = s.lock i ∧ t.call p = s.call p ∧ (t.entry i).key = (s.entry i).key ∧ (t.entry i).ino = (s.entry i).ino

section

omit [DecidableEq P] [DecidableEq V] [Fintype P] [Fintype V]

theorem sameFor_setEntry {p : P} {i j : Fin NINODE} {x : ItableEntry} (hk : j = i → x.key = (s.entry j).key)
    (hi : j = i → x.ino = (s.entry j).ino) : SameFor p i s (s.setEntry j x) := by
  by_cases hij : i = j
  · subst hij
    exact ⟨rfl, rfl, by simpa [setEntry] using hk rfl, by simpa [setEntry] using hi rfl⟩
  · refine ⟨rfl, rfl, ?_, ?_⟩ <;> simp only [setEntry, Function.update_of_ne hij]

theorem sameFor_setLock {p : P} {i j : Fin NINODE} {l : Option P} (hij : i ≠ j) : SameFor p i s (s.setLock j l) :=
  ⟨Function.update_of_ne hij _ _, rfl, rfl, rfl⟩

theorem SameFor.setVar [DecidableEq V] {p : P} {i : Fin NINODE} {v : V} {x : Option (Fin NINODE)} (h : SameFor p i s t) : SameFor p i s (t.setVar v x) := h

theorem SameFor.setDisk {p : P} {i : Fin NINODE} {k : UInt32 × UInt32} {d : Dinode} (h : SameFor p i s t) :
    SameFor p i s (t.setDisk k d) := h

theorem SameFor.goto [DecidableEq P] {p q : P} {i : Fin NINODE} {c : ItableCall} (hpq : p ≠ q) (h : SameFor p i s t) : SameFor p i s (t.goto q c) :=
  ⟨h.1, (Function.update_of_ne hpq _ _).trans h.2.1, h.2.2⟩

theorem sameFor_refl (s : Itable P V) (p : P) (i : Fin NINODE) : SameFor p i s s := ⟨rfl, rfl, rfl, rfl⟩

theorem sameFor_inc (s : Itable P V) (p : P) (i j : Fin NINODE) : SameFor p i s (s.setEntry j (s.entry j).inc) :=
  sameFor_setEntry (fun _ => rfl) fun _ => rfl

theorem sameFor_dec (s : Itable P V) (p : P) (i j : Fin NINODE) : SameFor p i s (s.dec j) :=
  sameFor_setEntry (fun _ => rfl) fun _ => rfl

end

omit [DecidableEq P] [Fintype P] [Fintype V] in
theorem sameFor_iget {p : P} {i : Fin NINODE} (hr : 0 < (s.entry i).ref) {v : V} {k : UInt32 × UInt32} (ht : s.iget v k = .ok t) :
    SameFor p i s t := by
  rcases get_cases (s := s) (k := k) rfl with ⟨j, -, -, hget⟩ | ⟨-, ⟨j, h0, hget⟩ | ⟨-, hget⟩⟩
  · simp only [Itable.iget, hget, Except.map, Except.ok.injEq] at ht
    exact ht ▸ (sameFor_inc s p i j).setVar
  · simp only [Itable.iget, hget, Except.map, Except.ok.injEq] at ht
    have hji : j ≠ i := by
      rintro rfl
      omega
    exact ht ▸ (sameFor_setEntry (fun h => absurd h hji) fun h => absurd h hji).setVar
  · simp [Itable.iget, hget, Except.map] at ht

/-- While a process has locked an inode, the others leave it alone. -/
theorem Inv.others (h : s.Inv) {i : Fin NINODE} {p : P} (hl : s.lock i = some p) (hr : 0 < (s.entry i).ref) (hp : p ≠ e.proc)
    (hm : s.Moves N e (.ok t)) : SameFor p i s t := by
  have hne : ∀ {q : P} {j : Fin NINODE}, p ≠ q → s.lock j = some q → i ≠ j := by
    rintro q j hpq hj rfl
    exact hpq (Option.some.inj (hl.symm.trans hj))
  generalize hrt : Except.ok t = r at hm
  cases hm with
  | iget hq => exact sameFor_iget hr hrt.symm
  | @idup q v w j hq hv =>
    cases hrt
    exact (sameFor_inc s p i j).setVar
  | wait hq hv =>
    cases hrt
    exact (sameFor_refl s p i).goto hp
  | @acquiresleep q j hq hj =>
    cases hrt
    have hij : i ≠ j := by
      rintro rfl
      rw [hl] at hj
      cases hj
    exact (sameFor_setLock hij).goto hp
  | @fill q j hq =>
    have hj := h.calls q
    rw [hq] at hj
    have hij := hne hp hj
    unfold ilockFill at hrt
    dsimp only at hrt
    split at hrt
    · cases hrt
      exact (sameFor_refl s p i).goto hp
    · split at hrt
      · cases hrt
      · cases hrt
        refine SameFor.goto hp ⟨rfl, rfl, ?_, ?_⟩ <;> simp only [setValid, setIno, setEntry, Function.update_of_ne hij]
  | modify hq hv hj =>
    cases hrt
    exact sameFor_setEntry (fun hji => absurd hji.symm (hne hp hj)) fun hji => absurd hji.symm (hne hp hj)
  | iupdate hq hv hj =>
    cases hrt
    exact (sameFor_refl s p i).setDisk
  | iunlock hq hv hj =>
    cases hrt
    exact sameFor_setLock (hne hp hj)
  | @iput q v j hq hv =>
    unfold Itable.iput at hrt
    split at hrt
    · split at hrt
      · rename_i hj
        cases hrt
        have hij : i ≠ j := by
          rintro rfl
          rw [hl] at hj
          cases hj
        exact ((sameFor_setLock hij).setVar).goto hp
      · cases hrt
    · cases hrt
      exact (sameFor_dec s p i j).setVar
  | @free q j x hq =>
    cases hrt
    have hj : x ≠ .ref → i ≠ j := fun hx => hne hp (h.stage_iput hq hx).1
    cases x with
    | itrunc | type | valid =>
      exact (sameFor_setEntry (fun hji => absurd hji.symm (hj (by simp))) fun hji => absurd hji.symm (hj (by simp))).goto hp
    | update | iupdate => exact ((sameFor_refl s p i).setDisk).goto hp
    | releasesleep => exact (sameFor_setLock (hj (by simp))).goto hp
    | ref => exact (sameFor_dec s p i j).goto hp
  | ialloc hq =>
    cases hrt
    exact (sameFor_refl s p i).goto hp
  | mark hq hn h0 =>
    cases hrt
    exact ((sameFor_refl s p i).setDisk).goto hp
  | next hq hn h0 =>
    cases hrt
    exact (sameFor_refl s p i).goto hp
  | stop hq hn =>
    cases hrt
    exact (sameFor_refl s p i).goto hp
  | @taken q v dev inum hq =>
    cases hg : s.iget v (dev, inum) with
    | error msg =>
      rw [hg] at hrt
      cases hrt
    | ok u =>
      rw [hg] at hrt
      cases hrt
      exact (sameFor_iget hr hg).goto hp

omit [DecidableEq P] [DecidableEq V] in
/-- The copy is the inode while no `iput` frees it. -/
theorem Inv.view_alone (h : s.Inv) {i : Fin NINODE} (hr : 0 < (s.entry i).ref) (hv : (s.entry i).valid = true) (h0 : s.puts i = 0) :
    s.view (s.entry i).key = (s.entry i).ino := by
  rw [h.view_entry hr]
  refine inode_copy hr hv fun hst => ?_
  rcases s.stage_cases i with ⟨he, -⟩ | ⟨he | he, -⟩ | ⟨p, x, -, -, hp⟩
  · rw [he] at hst
    cases hst
  · rw [he] at hst
    cases hst
  · rw [he] at hst
    cases hst
  · have := (h.pos_of_put hp).1
    omega

omit [DecidableEq P] [DecidableEq V] in
/-- A process that has locked an inode, and is outside these functions, has the inode. -/
theorem Inv.view_held (h : s.Inv) {i : Fin NINODE} {p : P} (hl : s.lock i = some p) (hp : s.call p = .out) :
    0 < (s.entry i).ref ∧ (s.entry i).valid = true ∧ s.view (s.entry i).key = (s.entry i).ino := by
  have hst := stage_held hl hp
  have hi := h.entries i
  have hr : 0 < (s.entry i).ref := by
    have := hi.uses (.inr (.inr hst))
    have := hi.refs
    omega
  have hok := hi.ok hr
  rw [hst] at hok
  refine ⟨hr, hok.1, ?_⟩
  rw [h.view_entry hr, hst]
  exact inode_copy hr hok.1 Stage.noConfusion

omit [DecidableEq P] [DecidableEq V] in
theorem Inv.init (disk : UInt32 × UInt32 → Dinode) : (iinit disk : Itable P V).Inv := by
  have h0 : ∀ i, (iinit disk : Itable P V).points i = 0 := by
    intro i
    simp [points, iinit]
  have h1 : ∀ i, (iinit disk : Itable P V).puts i = 0 := by
    intro i
    simp [puts, iinit, ItableCall.put?]
  refine ⟨fun i j hi => absurd hi (Nat.lt_irrefl 0), fun _ => trivial, fun i => ?_, fun p dev n hp => by cases hp⟩
  rw [h0, h1]
  refine ⟨rfl, ?_, fun hr => absurd hr (Nat.lt_irrefl 0), fun _ => rfl, fun hp => absurd hp (Nat.lt_irrefl 0)⟩
  rintro (⟨q, hq⟩ | hs | hs)
  · cases hq
  · cases hs
  · cases hs

theorem Inv.reachable (h : (itableLts P V N).Reachable s) : s.Inv := by
  refine Lts.Reachable.invariant ?_ (fun s e t hinv hs => ?_) h
  · rintro _ ⟨disk, rfl⟩
    exact .init disk
  · exact (hinv.step_ok hs.1 hs.2).1

omit [DecidableEq P] [DecidableEq V] in
theorem Inv.view_live (h : s.Inv) {v : V} {i : Fin NINODE} (hv : s.var v = some i) : (s.view (s.entry i).key).type ≠ 0 := by
  obtain ⟨hpos, hr⟩ := h.pos_of_var hv
  have hi := h.entries i
  have hok := hi.ok hr
  have hlive := hi.live hpos
  rw [h.view_entry hr, Stage.inode]
  split
  · rename_i hx
    cases hst : s.stage i with
    | unlocked | fill =>
      rw [hst] at hok
      rw [(hok hx.2.1).1]
      exact hlive
    | held =>
      rw [hst] at hok
      rw [hok.2]
      exact hlive
    | freeing x =>
      rw [hst] at hok hx
      have halone := hi.alone
      rw [hst] at halone
      cases x with
      | itrunc | type | update | iupdate =>
        have := halone trivial
        omega
      | valid => exact absurd rfl hx.2.2
      | releasesleep => exact absurd hx.2.1 (Bool.eq_false_iff.1 hok)
      | ref => exact hok.elim
  · exact hlive

/-! ### A run -/

theorem dinode_eq_iff {x y : Dinode} : x.type = y.type ∧ x.major = y.major ∧ x.minor = y.minor ∧ x.nlink = y.nlink ∧ x.size = y.size ∧
    x.addrs = y.addrs ↔ x = y := by
  cases x
  cases y
  simp

instance : DecidableEq Dinode := fun _ _ => decidable_of_iff _ dinode_eq_iff

instance (s : Itable P V) : (e : ItableEv P V) → Decidable (s.Keeps e)
  | .iget _ v dev inum => inferInstanceAs (Decidable (s.var v = none ∧ (((s.view (dev, inum)).type ≠ 0 ∧ (s.view (dev, inum)).nlink ≠ 0) ∨
      ∃ i, (∃ w, s.var w = some i) ∧ (s.entry i).key = (dev, inum))))
  | .idup _ v w => inferInstanceAs (Decidable ((∃ i, s.var v = some i) ∧ s.var w = none))
  | .ilock _ v => inferInstanceAs (Decidable (∃ i, s.var v = some i))
  | .modify p v d => inferInstanceAs (Decidable (∃ i, s.var v = some i ∧ s.lock i = some p ∧ d.type = (s.entry i).ino.type))
  | .iupdate p v => inferInstanceAs (Decidable (∃ i, s.var v = some i ∧ s.lock i = some p))
  | .iunlock p v => inferInstanceAs (Decidable (∃ i, s.var v = some i ∧ s.lock i = some p ∧ (s.entry i).ino = s.disk (s.entry i).key))
  | .iput _ v => inferInstanceAs (Decidable (∀ i, s.var v = some i → (∃ q, s.Uses q i) → ∃ w, w ≠ v ∧ s.var w = some i))
  | .ialloc _ _ type => inferInstanceAs (Decidable (type ≠ 0))
  | .taken _ v => inferInstanceAs (Decidable (s.var v = none))
  | .acquiresleep _ | .fill _ | .free _ | .scan _ => inferInstanceAs (Decidable True)

/-- The event is a step that a process may take. -/
def enabled (s : Itable P V) (N : Nat) (e : ItableEv P V) : Bool :=
  match s.step N e with
  | some (.ok _) => s.Keeps e
  | _ => false

theorem enabled_iff : s.enabled N e = true ↔ s.Keeps e ∧ ∃ t, s.step N e = some (.ok t) := by
  unfold enabled
  split
  · rename_i u hu
    rw [decide_eq_true_iff]
    exact ⟨fun hk => ⟨hk, u, hu⟩, And.left⟩
  · rename_i hno
    exact ⟨fun h => Bool.noConfusion h, fun h => absurd h.2.choose_spec (hno _)⟩

def firstEntry : Fin NINODE := ⟨0, NINODE_pos⟩

/-- `false` allocates an inode, fills in its size and frees it; when it is free in its block, `true` allocates it again. -/
def reallocRun : List (ItableEv Bool Bool) :=
  [.ialloc false 1 2, .scan false, .taken false false, .ilock false false, .acquiresleep false, .fill false,
    .modify false false ⟨2, 0, 0, 0, 7, fun _ => 0⟩, .iupdate false false, .iunlock false false, .iput false false,
    .free false, .free false, .free false, .free false, .ialloc true 1 3, .scan true, .taken true true, .ilock true true]

/-- `false` returns from `iput`, and `true` has the inode. -/
def relockRun : List (ItableEv Bool Bool) := reallocRun ++ [.free false, .free false, .free false, .acquiresleep true, .fill true]

/-- The table and the blocks together are a store of inodes: every step of a process leaves all inodes as they are, or is one step of
one inode.  A process that has locked an inode has this inode in its entry, and no other process changes it. -/
theorem inodes_refine (h : (itableLts P V N).Reachable s) (hk : s.Keeps e) (hs : s.step N e = some (.ok t)) :
    s.Shows N e t ∧ ∀ i p, s.lock i = some p → s.call p = .out → (s.entry i).valid = true ∧ s.view (s.entry i).key = (s.entry i).ino ∧
      (p ≠ e.proc → t.lock i = some p ∧ (t.entry i).key = (s.entry i).key ∧ t.view (s.entry i).key = s.view (s.entry i).key) := by
  have hinv := Inv.reachable h
  have ht := hinv.step_ok hk hs
  refine ⟨ht.2, fun i p hl hp => ?_⟩
  obtain ⟨hr, hv, hview⟩ := hinv.view_held hl hp
  refine ⟨hv, hview, fun hne => ?_⟩
  obtain ⟨hl', hp', hkey, hino⟩ := hinv.others hl hr hne (hinv.moves hk hs)
  have hview' := (ht.1.view_held (hl'.trans hl) (hp'.trans hp)).2.2
  rw [hkey, hino] at hview'
  exact ⟨hl'.trans hl, hkey, hview'.trans hview.symm⟩

/-- While `true` has locked the first inode, `false` allocates the second one; then `true` writes the fields of the first. -/
theorem inodes_refine_relock : ∃ s t u : Itable Bool Bool, (itableLts Bool Bool 3).Reachable s ∧ s.lock firstEntry = some true ∧
    s.step 3 (.scan false) = some (.ok t) ∧ t.view = update s.view (1, 2) (.fresh 4) ∧ Dinode.Step (s.view (1, 2)) (.fresh 4) ∧
    t.lock firstEntry = some true ∧ t.view (1, 1) = s.view (1, 1) ∧
    s.step 3 (.modify true true ⟨3, 0, 0, 1, 9, fun _ => 0⟩) = some (.ok u) ∧
    u.view = update s.view (1, 1) ⟨3, 0, 0, 1, 9, fun _ => 0⟩ := by
  have hany : (Lts.replay (fun s e => s.step 3 e) (fun s e => decide (s.Keeps e)) (iinit fun _ => .fresh 0)
      (relockRun ++ [.ialloc false 1 4, .scan false])).any (fun s => (s.lock firstEntry = some true ∧ s.call true = .out ∧
        s.call false = .scan 1 4 2 ∧ (s.disk (1, 2)).type = 0 ∧ (s.entry firstEntry).key = (1, 1) ∧ s.var true = some firstEntry) ∧
        s.enabled 3 (.scan false) = true ∧ s.enabled 3 (.modify true true ⟨3, 0, 0, 1, 9, fun _ => 0⟩) = true) = true := by
    decide +kernel
  obtain ⟨s, hs, hq⟩ := Lts.Reachable.replay_any (I := fun s => ∃ disk, s = iinit disk) (fun _ _ => of_decide_eq_true) ⟨_, rfl⟩ hany
  obtain ⟨⟨hlock, hout, hscan, hfree, hkey, hvar⟩, hs', hm⟩ := of_decide_eq_true hq
  obtain ⟨hk, t, ht⟩ := enabled_iff.1 hs'
  obtain ⟨hk', u, hu⟩ := enabled_iff.1 hm
  obtain ⟨hshows, hheld⟩ := inodes_refine hs hk ht
  obtain ⟨hshows', -⟩ := inodes_refine hs hk' hu
  have heff : s.effect 3 (.scan false) = some ((1, 2), .fresh 4) := by
    simp [effect, hscan, hfree]
  have heff' : s.effect 3 (.modify true true ⟨3, 0, 0, 1, 9, fun _ => 0⟩) = some ((1, 1), ⟨3, 0, 0, 1, 9, fun _ => 0⟩) := by
    rw [effect, hvar, Option.map_some, hkey]
  rw [Shows, heff] at hshows
  rw [Shows, heff'] at hshows'
  obtain ⟨hl, -, hview⟩ := (hheld firstEntry true hlock hout).2.2 (by simp [ItableEv.proc])
  rw [hkey] at hview
  exact ⟨s, t, u, hs, hlock, ht, hshows.1, hshows.2, hl, hview, hu, hshows'.1⟩

end Itable

end Xv6
