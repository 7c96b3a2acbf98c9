import Xv6.FsStore
import Xv6.ItableStep

/-!
# The inodes in their blocks

The table says of a block that has inodes only what the inodes become.  `blocks_refine` compares this with the code that reads and
writes the block: `iupdate`, the reading of an inode in `ilock`, the loop of `ialloc`, and `itrunc`, which gives the blocks of the
file back before its `iupdate`.
-/

namespace Xv6

open Function (update)

namespace Itable

open Fs

variable {P V : Type} [DecidableEq P] [DecidableEq V] {s t : Itable P V} {sb : Superblock} {L : sb.Layout} {dev n : UInt32} {q : Seq}

/-- The blocks `v` of device `dev` have the inodes below the table. -/
def Stored (sb : Superblock) (dev : UInt32) (s : Itable P V) (v : UInt32 → Block) : Prop :=
  ∀ n : UInt32, n.toNat < sb.ninodes.toNat → s.disk (dev, n) = dinode sb v n

omit [DecidableEq P] [DecidableEq V] in
/-- One inode is written. -/
theorem Stored.setDisk (L : sb.Layout) {v : UInt32 → Block} (h : s.Stored sb dev v) (hn : n.toNat < sb.ninodes.toNat) (x : Dinode) :
    (s.setDisk (dev, n) x).Stored sb dev (updView sb v n x) := by
  intro m hm
  rw [dinode_upd L hn hm]
  by_cases hmn : m = n
  · subst hmn
    simp only [Itable.setDisk, Function.update_self]
  · rw [Function.update_of_ne hmn, ← h m hm]
    exact Function.update_of_ne (by simpa using hmn) _ _

omit [DecidableEq P] [DecidableEq V] in
theorem Stored.iupdate (L : sb.Layout) (h : s.Stored sb dev q.view) (hidle : q.Idle sb) {i : Fin NINODE} (hk : (s.entry i).key = (dev, n))
    (hn : n.toNat < sb.ninodes.toNat) : (Fs.iupdate sb ⟨(s.entry i).ino, n⟩).swp (fun _ u => (s.flush i).Stored sb dev u.view) q := by
  refine iupdate_swp L hidle hn ?_
  unfold flush
  rw [hk]
  exact h.setDisk L hn _

omit [DecidableEq V] in
theorem Stored.ilock (h : s.Stored sb dev q.view) (hidle : q.Idle sb) {p : P} {i : Fin NINODE} (hk : (s.entry i).key = (dev, n))
    (hn : n.toNat < sb.ninodes.toNat) (hv : (s.entry i).valid = false) (ht : (s.disk (dev, n)).type ≠ 0) :
    (Fs.ilock sb n).swp (fun ip u => u = q ∧ s.ilockFill p i = .ok (((s.setIno i ip.toDinode).setValid i true).goto p .out)) q := by
  refine ilock_swp hidle (h n hn ▸ ht) ⟨rfl, ?_⟩
  unfold ilockFill
  rw [if_neg (by simp [hv]), hk]
  dsimp only
  rw [if_neg ht, h n hn]

omit [DecidableEq V] in
/-- `itrunc` is two steps of the table. -/
theorem Stored.itrunc (h : s.Stored sb dev q.view) (hidle : q.Idle sb) (hg : Good L q.view) {p : P} {i : Fin NINODE}
    (hk : (s.entry i).key = (dev, n)) (hn : n.toNat < sb.ninodes.toNat) (hd : (s.entry i).ino = s.disk (dev, n)) :
    (Fs.itrunc sb ⟨(s.entry i).ino, n⟩).swp (fun ip u => ip.toDinode = (s.entry i).ino.emptied ∧ Good L u.view ∧
      ((s.free p i .itrunc).free p i .update).Stored sb dev u.view) q := by
  refine Prog.swp_mono (itrunc_swp hidle hg ((h n hn).symm.trans hd.symm) hn) fun ip u hu => ?_
  have hip : ip.toDinode = (s.entry i).ino.emptied := by rw [hu.inode]; rfl
  refine ⟨hip, hu.good, fun m hm => ?_⟩
  have hdisk : ((s.free p i .itrunc).free p i .update).disk = update s.disk (dev, n) (s.entry i).ino.emptied := by
    simp [free, flush, Itable.setDisk, Itable.goto, setIno, setEntry, ← hk, ItableEntry.key]
  rw [hdisk]
  by_cases hmn : m = n
  · subst hmn
    rw [Function.update_self, hu.disk, hip]
  · rw [Function.update_of_ne (by simpa using hmn), h m hm, (hu.others m hm hmn).1]

/-- The steps of one process. -/
def replay (N : Nat) (s : Itable P V) (es : List (ItableEv P V)) : Option (Itable P V) :=
  Lts.replay (fun s e => s.step N e) (fun _ _ => true) s es

/-- The rounds of `ialloc` before the first free inode. -/
theorem replay_scan {N : Nat} {p : P} {type : UInt16} (k : Nat) {m : Nat} (hp : s.call p = .scan dev type m)
    (hk : ∀ j, m ≤ j → j < m + k → j < N ∧ (s.disk (dev, .ofNat j)).type ≠ 0) (es : List (ItableEv P V)) :
    s.replay N (List.replicate k (.scan p) ++ es) = (s.goto p (.scan dev type (m + k))).replay N es := by
  induction k generalizing s m with
  | zero =>
    have hs : s.goto p (.scan dev type m) = s := by
      rw [← hp]
      simp only [Itable.goto, Function.update_eq_self]
    rw [Nat.add_zero, hs]
    rfl
  | succ k ih =>
    obtain ⟨hm, h0⟩ := hk m (Nat.le_refl m) (by omega)
    have hstep : s.step N (.scan p) = some (.ok (s.goto p (.scan dev type (m + 1)))) := by
      simp only [step, hp, if_pos hm, if_neg h0]
    have hnext := ih (s := s.goto p (.scan dev type (m + 1))) (m := m + 1) (Function.update_self ..)
      fun j hj hjk => hk j (by omega) (by omega)
    have hgoto : (s.goto p (.scan dev type (m + 1))).goto p (.scan dev type (m + 1 + k)) = s.goto p (.scan dev type (m + (k + 1))) := by
      simp only [Itable.goto, Function.update_idem, Nat.add_assoc, Nat.add_comm 1 k]
    rw [hgoto] at hnext
    rw [← hnext, List.replicate_succ, List.cons_append]
    simp only [replay, Lts.replay, if_true, hstep]

/-- `ialloc` is the rounds of its loop. -/
theorem Stored.ialloc (L : sb.Layout) (h : s.Stored sb dev q.view) (hidle : q.Idle sb) {p : P} {type : UInt16}
    (hp : s.call p = .scan dev type 1) :
    (Fs.ialloc sb type).swp (fun r u => ∃ k t, s.replay sb.ninodes.toNat (List.replicate k (.scan p)) = some t ∧ t.Stored sb dev u.view ∧
      t.call p = r.elim .out (.taken dev)) q := by
  have hlt := sb.ninodes.toNat_lt
  have hnat : ∀ j, j < sb.ninodes.toNat → (UInt32.ofNat j).toNat = j := fun j hj =>
    UInt32.toNat_ofNat_of_lt' (show j < 2 ^ 32 by omega)
  refine ialloc_swp L hidle (fun hall => ?_) fun n h1 hn h0 hfirst => ?_
  · have hrounds := replay_scan (N := sb.ninodes.toNat) (sb.ninodes.toNat - 1) hp (fun j hj hjk => ?_) [.scan p]
    · refine ⟨sb.ninodes.toNat - 1 + 1, s.goto p .out, ?_, h, Function.update_self ..⟩
      rw [List.replicate_succ', hrounds]
      have hend : ¬1 + (sb.ninodes.toNat - 1) < sb.ninodes.toNat := by omega
      simp only [replay, Lts.replay, if_true, step, Itable.goto, Function.update_self, if_neg hend, Function.update_idem]
    · have hj' : j < sb.ninodes.toNat := by omega
      refine ⟨hj', ?_⟩
      rw [h _ (by rwa [hnat j hj'])]
      exact hall _ (by rwa [hnat j hj']) (by rwa [hnat j hj'])
  · have hrounds := replay_scan (N := sb.ninodes.toNat) (n.toNat - 1) hp (fun j hj hjk => ?_) [.scan p]
    · refine ⟨n.toNat - 1 + 1, (s.setDisk (dev, n) (.fresh type)).goto p (.taken dev n), ?_, h.setDisk L hn _, Function.update_self ..⟩
      rw [List.replicate_succ', hrounds, show 1 + (n.toNat - 1) = n.toNat by omega]
      have hfree : (s.disk (dev, n)).type = 0 := by rw [h n hn, h0]
      simp only [replay, Lts.replay, if_true, step, Itable.goto, Function.update_self, if_pos hn, UInt32.ofNat_toNat, hfree,
        Itable.setDisk, Function.update_idem]
    · have hj' : j < sb.ninodes.toNat := by omega
      refine ⟨hj', ?_⟩
      rw [h _ (by rwa [hnat j hj'])]
      exact hfirst _ (by rwa [hnat j hj']) (by rw [hnat j hj']; omega)

variable [Fintype P] [Fintype V]

/-- What the steps of the table do to the inodes on a disk, the code of `fs.c` does to its blocks, without one of its panics (the room of
the log and of the buffer cache apart). -/
theorem blocks_refine (h : (itableLts P V sb.ninodes.toNat).Reachable s) (hidle : q.Idle sb) (hg : Good L q.view)
    (hd : s.Stored sb dev q.view) :
    (∀ i n, (s.entry i).key = (dev, n) → n.toNat < sb.ninodes.toNat →
      (Fs.iupdate sb ⟨(s.entry i).ino, n⟩).swp (fun _ u => (s.flush i).Stored sb dev u.view) q ∧
      (∀ p, s.call p = .fill i → (s.entry i).valid = false →
        (Fs.ilock sb n).swp (fun ip u => u = q ∧ s.ilockFill p i = .ok (((s.setIno i ip.toDinode).setValid i true).goto p .out)) q) ∧
      ∀ p, s.call p = .iput i .itrunc → (Fs.itrunc sb ⟨(s.entry i).ino, n⟩).swp (fun ip u => ip.toDinode = (s.entry i).ino.emptied ∧
        Good L u.view ∧ ((s.free p i .itrunc).free p i .update).Stored sb dev u.view) q) ∧
    ∀ p type, s.call p = .scan dev type 1 → (Fs.ialloc sb type).swp (fun r u => ∃ k t,
      s.replay sb.ninodes.toNat (List.replicate k (.scan p)) = some t ∧ t.Stored sb dev u.view ∧
      t.call p = r.elim .out (.taken dev)) q := by
  have hinv := Inv.reachable h
  refine ⟨fun i n hk hn => ⟨hd.iupdate L hidle hk hn, fun p hp hv => hd.ilock hidle hk hn hv ?_, fun p hp => hd.itrunc hidle hg hk hn ?_⟩,
    fun p type hp => hd.ialloc L hidle hp⟩
  · obtain ⟨t, ht, -⟩ := hinv.fill hp
    unfold ilockFill at ht
    rw [if_neg (by simp [hv]), hk] at ht
    dsimp only at ht
    split at ht
    · cases ht
    · assumption
  · have hok := (hinv.entries i).ok (hinv.pos_of_put hp).2
    rw [(hinv.stage_iput hp (by simp)).2, hk] at hok
    exact hok.2.1

/-- The blocks of the small disk, in which a process is about to look for a free inode. -/
theorem blocks_refine_small : ∃ s : Itable Bool Bool, (itableLts Bool Bool smallSb.ninodes.toNat).Reachable s ∧
    (Fs.ialloc smallSb 2).swp (fun r u => ∃ k t, s.replay smallSb.ninodes.toNat (List.replicate k (.scan false)) = some t ∧
      t.Stored smallSb 1 u.view ∧ t.call false = r.elim .out (.taken 1)) ⟨smallDisk, fun _ => none, [], smallSb.inodestart.toNat⟩ := by
  have hreach : (itableLts Bool Bool smallSb.ninodes.toNat).Reachable
      ((iinit fun k => dinode smallSb smallDisk k.2).goto false (.scan 1 2 1)) := by
    refine Lts.Reachable.step (e := .ialloc false 1 2) (.of_init ⟨_, rfl⟩) ⟨?_, rfl⟩
    show (2 : UInt16) ≠ 0
    decide
  refine ⟨_, hreach, ?_⟩
  exact (blocks_refine hreach (idle_start ..) smallDisk_good fun n _ => rfl).2 false 2 rfl

end Itable

end Xv6
