import Xv6.DirPut

/-!
# Inodes without links after a crash

An inode that is allocated and has no links is in use, and the last `iput` frees it.  A crash before that `iput` leaves it on the disk:
what recovery finds is the file system at the last commit, with the inodes that were in use then.  If an `iput` loses an inode in the race
of `put_refines`, it stays on the disk and nobody refers to it.
-/

namespace Xv6

open Function (update)

namespace DirK

variable {N : Nat} {env : DirEnv} {k k' : DirK}

theorem lift_disk {α : Type} {m : DirM α} {a : α} (h : k.lift m = .ok (a, k')) : k'.disk = k.disk := by
  unfold lift at h
  split at h
  · cases h
    rfl
  · cases h

/-- Only `end_op` writes the disk. -/
theorem disk_exec {o : DirOp} {x : o.Ans} (h : k.exec N env o = .ok (x, k')) (ho : o ≠ .endOp) : k'.disk = k.disk := by
  cases o with
  | endOp => exact absurd rfl ho
  | write f =>
    rw [exec_write] at h
    cases hk : k.lift (Dir.fileLock f fun _ => env.data) with
    | ok r =>
      rw [hk] at h
      cases h
      exact lift_disk hk
    | error msg =>
      rw [hk] at h
      cases h
  | slotalloc =>
    rw [exec_slotalloc] at h
    cases hq : (List.finRange NPROC).find? fun q => (k.slot q).st = .unused with
    | none =>
      rw [hq] at h
      cases h
      rfl
    | some q =>
      rw [hq] at h
      cases h
      rfl
  | idup i => exact lift_disk (m := Dir.idup i) h
  | iput i => exact lift_disk (m := Dir.iput i) h
  | fileset f i dev rd wr => exact lift_disk (m := Dir.fileset f i dev rd wr) h
  | getFile f => exact lift_disk (m := Dir.getFile f) h
  | beginOp =>
    cases h
    rfl
  | slotfree q =>
    cases h
    rfl
  | publish q l =>
    cases h
    rfl
  | _ => exact lift_disk h

theorem disk_start {o : DirOp} {x : o.Ans × Option Inum} (h : k.start N env o = .ok (x, k')) (ho : o ≠ .endOp) : k'.disk = k.disk := by
  have hexec : (k.exec N env o).map (fun r => ((r.1, (none : Option Inum)), r.2)) = .ok (x, k') → k'.disk = k.disk := by
    intro h
    cases hk : k.exec N env o with
    | ok y =>
      rw [hk] at h
      cases h
      exact disk_exec hk ho
    | error msg =>
      rw [hk] at h
      cases h
  cases o with
  | iput i => exact lift_disk (k := k) h
  | createIn dp name type major minor => exact lift_disk (k := k) h
  | _ => exact hexec h

end DirK

namespace PutSys

variable {N : Nat} {x y : PutSys} {e : DirEv}

/-- The last running operation ends, and is committed with the others. -/
def commits (x : PutSys) : DirEv → Bool
  | .next p _ =>
    match x.sys.th p with
    | some (.call .endOp _) => x.put p = none && x.sys.k.outstanding - 1 = 0
    | _ => false
  | _ => false

theorem outstanding_commits (h : x.commits e = true) : x.sys.k.outstanding ≤ 1 := by
  unfold commits at h
  split at h
  · split at h
    · simp only [Bool.and_eq_true, decide_eq_true_eq] at h
      omega
    · cases h
  · cases h

/-- The state in which the last commit was made. -/
def lastCommit (x : PutSys) (e : DirEv) (y : PutSys) : PutSys := if x.commits e then x else y

/-- The disk changes with a commit, and is then the file system in memory. -/
theorem disk_step (h : x.step N e = some (.ok y)) : y.sys.k.disk = if x.commits e then x.sys.k.d.node else x.sys.k.disk := by
  cases e with
  | call p c =>
    simp only [step, DirSys.step] at h
    split at h
    · cases h
      rfl
    · cases h
  | done p =>
    simp only [step, DirSys.step] at h
    split at h
    · split at h
      · cases h
        rfl
      · cases h
    · cases h
  | next p env =>
    simp only [step] at h
    cases hp : x.put p with
    | some i =>
      have hno : x.commits (.next p env) = false := by
        unfold commits
        dsimp only
        split <;> simp [hp]
      rw [hp] at h
      cases h
      rw [hno]
      rfl
    | none =>
      rw [hp] at h
      cases hth : x.sys.th p with
      | none =>
        rw [hth] at h
        cases h
      | some code =>
        rw [hth] at h
        cases code with
        | ret r => cases h
        | panic msg => cases h
        | call o f =>
          change some (Except.map _ (x.sys.k.start N env o)) = _ at h
          cases hk : x.sys.k.start N env o with
          | error msg =>
            rw [hk] at h
            cases h
          | ok z =>
            rw [hk] at h
            obtain ⟨a, k'⟩ := z
            cases h
            by_cases ho : o = .endOp
            · subst ho
              have hc : x.commits (.next p env) = (x.sys.k.outstanding - 1 = 0 : Bool) := by simp [commits, hth, hp]
              rw [hc]
              cases hk
              by_cases h0 : x.sys.k.outstanding - 1 = 0
              · simp [h0]
              · simp [h0]
            · have hc : x.commits (.next p env) = false := by
                unfold commits
                simp only [hth]
                split
                · rename_i heq
                  simp only [Option.some.injEq, Code.call.injEq] at heq
                  exact absurd heq.1 ho
                · rfl
              rw [hc]
              exact DirK.disk_start hk ho

end PutSys

/-- The runs with `iput` in steps and without the race, each with the state in which the last commit was made. -/
def crashLts (N : Nat) : Lts (PutSys × PutSys) DirEv :=
  (Lts.ofFun (fun x => (putLts N (LinkedImage N)).init x.1 ∧ x.2 = x.1)
    (Lts.histStep (fun x e => x.step N e) PutSys.lastCommit)).guard fun x e => x.1.Settled N e

/-- What a crash leaves is the file system at the last commit, when only the operation that ended was running; an allocated inode
without links in it was referred to then, and not only by calls of `iput` that were about to drop their references. -/
theorem crash_orphans_referenced {N : Nat} {x y : PutSys} (h : (crashLts N).Reachable (x, y)) :
    x.sys.k.disk = y.sys.k.d.node ∧ y.sys.k.outstanding ≤ 1 ∧
      ∀ i, (x.sys.k.disk i).type ≠ .free → (x.sys.k.disk i).nlink = 0 → y.puts i < y.sys.k.d.ref i := by
  have hinv := Lts.Reachable.invariant (L := crashLts N)
    (I := fun z => ((putLts N (LinkedImage N)).guard (PutSys.Settled N)).Reachable z.1 ∧
      ((putLts N (LinkedImage N)).guard (PutSys.Settled N)).Reachable z.2 ∧
      z.1.sys.k.disk = z.2.sys.k.d.node ∧ z.2.sys.k.outstanding ≤ 1)
    (fun z hz => ?_) (fun z e w ih hst => ?_) h
  · obtain ⟨-, hy, hdisk, hout⟩ := hinv
    refine ⟨hdisk, hout, fun i ht hn => ?_⟩
    obtain ⟨e, hreach, hsim⟩ := put_refines hy
    rw [show x.sys.k.disk = e.node from hdisk.trans hsim.node.symm] at ht hn
    have hpos := ((dir_any (fun nd hI => hI.linked) hreach).2 i ht hn).1
    have href : y.sys.k.d.ref i = e.ref i + y.puts i := hsim.ref i
    change 0 < e.ref i at hpos
    change y.puts i < y.sys.k.d.ref i
    omega
  · obtain ⟨hinit, heq⟩ := hz
    have hr : ((putLts N (LinkedImage N)).guard (PutSys.Settled N)).Reachable z.1 := .of_init hinit
    rw [heq]
    exact ⟨hr, hr, hinit.2.1.disk, by rw [hinit.2.1.outstanding]; exact Nat.zero_le 1⟩
  · obtain ⟨hx, hy, hdisk, hout⟩ := ih
    obtain ⟨hset, hst⟩ := hst
    obtain ⟨hst, hlast⟩ := Lts.histStep_ok hst
    refine ⟨hx.step ⟨hset, hst⟩, ?_⟩
    rw [hlast, PutSys.disk_step hst, PutSys.lastCommit]
    by_cases hc : z.1.commits e = true
    · rw [if_pos hc, if_pos hc]
      exact ⟨hx, rfl, PutSys.outstanding_commits hc⟩
    · rw [if_neg hc, if_neg hc]
      exact ⟨hy, hdisk, hout⟩

/-- The condition of a step, computed. -/
def PutSys.settledCheck (N : Nat) (x : PutSys) : DirEv → Bool
  | .next p env =>
    match x.sys.th p with
    | some (.call o _) => (x.sys.k.given N env o).all fun r => (r.2.node r.1).nlink ≠ 0 || r.2.ref r.1 ≠ x.puts r.1 + 1 || x.puts r.1 = 0
    | _ => true
  | _ => true

theorem PutSys.settled_of_check {N : Nat} (x : PutSys) (e : DirEv) (h : x.settledCheck N e = true) : x.Settled N e := by
  cases e with
  | next p env =>
    intro _ o f i d hth hgiven hn href
    simp only [settledCheck, hth, hgiven, Option.all_some] at h
    simpa [hn, href] using h
  | call p c => trivial
  | done p => trivial

theorem emptyImage_linked {N : Nat} (hN : ROOTINO < N) : LinkedImage N emptyImage where
  root := rfl
  range i hi := by
    by_cases h : i = ROOTINO
    · rwa [h]
    · unfold emptyImage at hi
      rw [Function.update_of_ne h] at hi
      exact absurd rfl hi
  linked i hi := by
    unfold emptyImage at hi ⊢
    by_cases h : i = ROOTINO
    · rw [h, Function.update_self]
    · rw [Function.update_of_ne h] at hi
      exact absurd rfl hi

/-- After the boot, before any `iput`. -/
def PutSys.boot (node : Inum → Node) : PutSys := ⟨DirSys.boot node, fun _ => none⟩

theorem PutSys.boot_init {N : Nat} (hN : ROOTINO < N) : (putLts N (LinkedImage N)).init (PutSys.boot emptyImage) :=
  ⟨emptyImage_linked hN, DirSys.boot_booted _, rfl⟩

/-- A file that is removed while it is open. -/
def unlinkOpenRun : List DirEv :=
  DirCall.alone (.open (some [97]) (SysFile.O_CREATE ||| SysFile.O_RDWR)) ⟨0, NPROC_pos⟩ ⟨(true, true), [], true⟩ 9 ++
    DirCall.alone (.unlink (some [97])) ⟨0, NPROC_pos⟩ ⟨(true, true), [], true⟩ 7

/-- The process has a child.  It closes the file, and is in `iput` when the child makes a file, which has the same inode, and removes and
closes it; then it goes on. -/
def lostInodeRun : List DirEv :=
  DirCall.alone (.fork true) ⟨0, NPROC_pos⟩ ⟨(true, true), [], true⟩ 3 ++ unlinkOpenRun ++
    .call ⟨0, NPROC_pos⟩ (.close 0) :: List.replicate 3 (.next ⟨0, NPROC_pos⟩ ⟨(true, true), [], true⟩) ++
    DirCall.alone (.open (some [98]) (SysFile.O_CREATE ||| SysFile.O_RDWR)) ⟨1, by decide⟩ ⟨(true, true), [], true⟩ 9 ++
    DirCall.alone (.unlink (some [98])) ⟨1, by decide⟩ ⟨(true, true), [], true⟩ 7 ++
    DirCall.alone (.close 0) ⟨1, by decide⟩ ⟨(true, true), [], true⟩ 4 ++
    List.replicate 2 (.next ⟨0, NPROC_pos⟩ ⟨(true, true), [], true⟩) ++ [.done ⟨0, NPROC_pos⟩]

/-- The file is on the disk, without links; and after the race there is one that nobody refers to. -/
theorem unlinkOpenRun_orphan : (∃ x, (putLts 10 (LinkedImage 10)).Reachable x ∧ ¬NoOrphan x.sys.k.disk) ∧
    ∃ x, (putLts 10 (LinkedImage 10)).Reachable x ∧ x.sys.Quiet ∧ (x.sys.k.disk 2).type = .file ∧ (x.sys.k.disk 2).nlink = 0 ∧
      x.sys.k.d.ref 2 = 0 := by
  have hrun : ∀ (es : List DirEv) (P : PutSys → Bool),
      (Lts.replay (fun x e => PutSys.step x 10 e) (fun _ _ => true) (PutSys.boot emptyImage) es).any P = true →
      ∃ x, (putLts 10 (LinkedImage 10)).Reachable x ∧ P x = true := by
    intro es P hany
    obtain ⟨x, hx, hp⟩ := Lts.Reachable.replay_any
      (I := fun x : PutSys => LinkedImage 10 x.sys.k.d.node ∧ x.sys.Booted ∧ x.put = fun _ => none) (C := fun _ _ => True)
      (fun _ _ _ => trivial) (PutSys.boot_init (by decide)) hany
    exact ⟨x, hx.of_guard, hp⟩
  constructor
  · obtain ⟨x, hx, hp⟩ := hrun unlinkOpenRun (fun x => (x.sys.k.disk 2).type = .file ∧ (x.sys.k.disk 2).nlink = 0) (by decide +kernel)
    have hp : (x.sys.k.disk 2).type = .file ∧ (x.sys.k.disk 2).nlink = 0 := of_decide_eq_true hp
    refine ⟨x, hx, fun hno => ?_⟩
    have := hno 2 (by rw [hp.1]; decide)
    omega
  · obtain ⟨x, hx, hp⟩ := hrun lostInodeRun (fun x => (∀ p, (x.sys.th p).isNone = true) ∧ (x.sys.k.disk 2).type = .file ∧
      (x.sys.k.disk 2).nlink = 0 ∧ x.sys.k.d.ref 2 = 0) (by decide +kernel)
    obtain ⟨hq, hp⟩ := of_decide_eq_true hp
    exact ⟨x, hx, fun p => Option.isNone_iff_eq_none.1 (hq p), hp⟩

/-- The file is on the disk, and was open at the last commit. -/
theorem crash_orphans_referenced_unlinkOpenRun : ∃ x y, (crashLts 10).Reachable (x, y) ∧ (x.sys.k.disk 2).type = .file ∧
    (x.sys.k.disk 2).nlink = 0 ∧ x.sys.k.disk = y.sys.k.d.node ∧ y.puts 2 < y.sys.k.d.ref 2 := by
  have hany : (Lts.replay (Lts.histStep (fun x e => PutSys.step x 10 e) PutSys.lastCommit) (fun z e => z.1.settledCheck 10 e)
      (PutSys.boot emptyImage, PutSys.boot emptyImage) unlinkOpenRun).any
      (fun z => (z.1.sys.k.disk 2).type = .file ∧ (z.1.sys.k.disk 2).nlink = 0) = true := by decide +kernel
  obtain ⟨⟨x, y⟩, hz, hp⟩ := Lts.Reachable.replay_any
    (I := fun z : PutSys × PutSys => (putLts 10 (LinkedImage 10)).init z.1 ∧ z.2 = z.1) (C := fun z e => z.1.Settled 10 e)
    (fun z e h => PutSys.settled_of_check z.1 e h) ⟨PutSys.boot_init (by decide), rfl⟩ hany
  have hp : (x.sys.k.disk 2).type = .file ∧ (x.sys.k.disk 2).nlink = 0 := of_decide_eq_true hp
  obtain ⟨hdisk, -, href⟩ := crash_orphans_referenced hz
  exact ⟨x, y, hz, hp.1, hp.2, hdisk, href 2 (by rw [hp.1]; decide) hp.2⟩

end Xv6
