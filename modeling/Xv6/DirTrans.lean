import Xv6.DirOwn
import Xv6.Fs

/-!
# Transactions

Every process alternates `begin_op` and `end_op`, starting with `begin_op`, and calls what may write to the log only in between;
outside, it only locks inodes and reads them, which writes nothing if the file has no holes.
-/

namespace Xv6

open Function (update)

/-! ### Reading does not write -/

/-- The code stores nothing and writes nothing to the log, whatever buffers it gets, if the blocks have the contents `c`; `bl` says
which block a buffer holds. -/
def Prog.Silent {α : Type} (c : UInt32 → Block) : (Fin NBUF → UInt32) → Prog α → Prop
  | _, .pure _ | _, .panic _ => True
  | bl, .bread b k => ∀ i, (k i).Silent c (update bl i b)
  | bl, .data i k => (k (c (bl i))).Silent c bl
  | bl, .copyout _ _ _ k => ∀ ok, (k ok).Silent c bl
  | bl, .brelse _ k => k.Silent c bl
  | _, .store .. | _, .copyin .. | _, .logWrite .. | _, .bwrite .. | _, .bunpin .. | _, .readLog _ | _, .clearHead _ => False

/-- The address of block `bn` of a file. -/
def Inode.addrOf (ip : Inode) (c : UInt32 → Block) (bn : Nat) : UInt32 :=
  if h : bn < NDIRECT then ip.addrs ⟨bn, Nat.lt_succ_of_lt h⟩
  else if ip.addrs Fs.indirect = 0 then 0
  else getWord (c (ip.addrs Fs.indirect)) (bn - NDIRECT)

/-- Every block below the size has an address. -/
def Inode.NoHoles (ip : Inode) (c : UInt32 → Block) : Prop := ∀ bn, bn * BSIZE < ip.size.toNat → ip.addrOf c bn ≠ 0

namespace Fs

variable {α β : Type} {c : UInt32 → Block} {bl : Fin NBUF → UInt32} {sb : Superblock} {ip : Inode}

/-- A block with an address is found and nothing is allocated. -/
theorem bmap_bind {bn : Nat} (h : ip.addrOf c bn ≠ 0) {f : Inode × UInt32 → Prog β}
    (hf : ∀ bl, (f (ip, ip.addrOf c bn)).Silent c bl) : ((bmap sb ip bn).bind f).Silent c bl := by
  unfold bmap
  unfold Inode.addrOf at h hf
  by_cases hd : bn < NDIRECT
  · rw [dif_pos hd] at h
    simp only [dif_pos hd] at hf ⊢
    unfold addrAt
    rw [if_pos h]
    exact hf bl
  · simp only [dif_neg hd] at h hf ⊢
    by_cases hi : bn - NDIRECT < NINDIRECT
    · rw [if_pos hi]
      have ha : ip.addrs indirect ≠ 0 := by
        intro ha
        rw [if_pos ha] at h
        exact h rfl
      rw [if_neg ha] at h
      simp only [if_neg ha] at hf
      unfold addrAt
      rw [if_pos ha]
      change (Prog.bind (if ip.addrs indirect = 0 then pure (ip, 0) else _) f).Silent c bl
      rw [if_neg ha]
      intro i
      change Prog.Silent c _ (Prog.bind (if getWord (c (update bl i (ip.addrs indirect) i)) (bn - NDIRECT) ≠ 0 then _ else _) f)
      rw [Function.update_self, if_pos h]
      exact hf _
    · rw [if_neg hi]
      trivial

theorem readiLoop_silent (fuel : Nat) {off n : Nat} {tot : Int} (h : ip.NoHoles c) (hn : off + n ≤ ip.size.toNat) :
    (readiLoop sb fuel ip off n tot).Silent c bl := by
  induction fuel generalizing off n tot bl with
  | zero => trivial
  | succ fuel ih =>
    unfold readiLoop
    split
    · trivial
    · have hpos : off / BSIZE * BSIZE < ip.size.toNat := by
        have := Nat.div_mul_le_self off BSIZE
        omega
      refine bmap_bind (h _ hpos) fun bl => ?_
      change Prog.Silent c bl (if ip.addrOf c (off / BSIZE) = 0 then pure (ip, tot) else _)
      rw [if_neg (h _ hpos)]
      intro i ok
      cases ok with
      | false => trivial
      | true => exact ih (by omega)

/-- Reading a file without holes writes nothing to the log. -/
theorem readi_silent (h : ip.NoHoles c) (off n : UInt32) : (readi sb ip off n).Silent c bl := by
  unfold readi
  split
  · trivial
  · rename_i hoff
    rw [not_or] at hoff
    refine readiLoop_silent _ h ?_
    have h1 : off.toNat ≤ ip.size.toNat := UInt32.not_lt.1 hoff.1
    have h2 : off.toNat ≤ (off + n).toNat := UInt32.not_lt.1 hoff.2
    have h3 := UInt32.toNat_add off n
    have h4 := off.toNat_lt
    have h5 := n.toNat_lt
    split
    · rw [UInt32.toNat_sub_of_le _ _ (UInt32.le_iff_toNat_le.2 h1)]
      omega
    · rename_i hle
      have h6 : (off + n).toNat ≤ ip.size.toNat := UInt32.not_lt.1 hle
      omega

/-- Locking an inode writes nothing to the log. -/
theorem ilock_silent (inum : UInt32) : (ilock sb inum).Silent c bl := by
  unfold ilock
  intro i
  change Prog.Silent c _ (if _ then _ else _)
  split <;> trivial

end Fs

/-! ### `begin_op` and `end_op` -/

/-- Outside an operation, in one, or after a call in the wrong place. -/
inductive OpSt
  | out | inOp | bad
  deriving DecidableEq

def OpSt.after : OpSt → DirOp → OpSt
  | out, .beginOp => inOp
  | inOp, .endOp => out
  | inOp, .beginOp | out, .endOp | bad, _ => bad
  | inOp, _ => inOp
  | out, o => if o.logs then bad else out

/-- What the operations of each process have been. -/
def DirSys.opHist (s : DirSys) (e : DirEv) (m : Fin NPROC → OpSt) : Fin NPROC → OpSt := fun q =>
  match s.opOf e q with
  | some o => (m q).after o
  | none => m q

/-- The runs, with a history of the operations. -/
def opLts (N : Nat) (I : (Inum → Node) → Prop) : Lts (DirSys × (Fin NPROC → OpSt)) DirEv :=
  .ofFun (fun x => (I x.1.k.d.node ∧ x.1.Booted) ∧ x.2 = fun _ => .out) (Lts.histStep (fun s e => s.step N e) DirSys.opHist)

/-- The history of a process that holds `g`. -/
def OpSt.Of (m : OpSt) (g : Multiset Hold) : Prop := m = .out ∧ g.count .op = 0 ∨ m = .inOp ∧ g.count .op = 1

theorem OpSt.Of.after {m : OpSt} {g g' : Multiset Hold} {o : DirOp} (h : m.Of g) (ho : o.opMove g g') : (m.after o).Of g' := by
  have hrest : (g'.count .op = g.count .op ∧ (o.logs = true → 0 < g.count .op)) → o ≠ .beginOp → o ≠ .endOp → (m.after o).Of g' := by
    rintro ⟨h1, h2⟩ hb he
    obtain ⟨rfl, hg⟩ | ⟨rfl, hg⟩ := h
    · have hl : o.logs = false := by
        cases hl : o.logs with
        | false => rfl
        | true =>
          have := h2 hl
          omega
      have hafter : OpSt.out.after o = if o.logs then .bad else .out := by
        cases o <;> first | rfl | contradiction
      rw [hafter, hl]
      exact .inl ⟨rfl, by omega⟩
    · have hafter : OpSt.inOp.after o = .inOp := by
        cases o <;> first | rfl | contradiction
      rw [hafter]
      exact .inr ⟨rfl, by omega⟩
  cases o with
  | beginOp =>
    obtain ⟨h1, h2⟩ : g.count .op = 0 ∧ g'.count .op = 1 := ho
    obtain ⟨rfl, hg⟩ | ⟨rfl, hg⟩ := h
    · exact .inr ⟨rfl, h2⟩
    · omega
  | endOp =>
    have h1 : g.count .op = g'.count .op + 1 := ho
    obtain ⟨rfl, hg⟩ | ⟨rfl, hg⟩ := h
    · omega
    · exact .inl ⟨rfl, by omega⟩
  | _ => exact hrest ho nofun nofun

theorem op_invariant {N : Nat} {I : (Inum → Node) → Prop} {x : DirSys × (Fin NPROC → OpSt)} (h : (opLts N I).Reachable x) :
    ∃ own, x.1.InvAt own ∧ ∀ p, (x.2 p).Of (own p) := by
  refine Lts.Reachable.invariant (L := opLts N I) (I := fun x => ∃ own, x.1.InvAt own ∧ ∀ p, (x.2 p).Of (own p))
    (fun x hx => ?_) (fun x e y ih hst => ?_) h
  · refine ⟨_, hx.1.2.invAt, fun p => .inl ⟨by rw [hx.2], ?_⟩⟩
    by_cases hp : p = x.1.k.initproc
    · rw [hp, Function.update_self]
      rfl
    · rw [Function.update_of_ne hp]
      rfl
  · obtain ⟨own, hinv, hm⟩ := ih
    obtain ⟨hf, hy⟩ := Lts.histStep_ok hst
    obtain ⟨own', ht⟩ := hinv.step (G := fun _ _ => True) (fun _ _ _ => trivial) hf
    refine ⟨own', ht.inv, fun p => ?_⟩
    have hop := ht.op p
    rw [hy]
    unfold DirSys.opHist
    cases ho : x.1.opOf e p with
    | none =>
      rw [ho] at hop
      simp only at hop ⊢
      unfold OpSt.Of
      rw [hop]
      exact hm p
    | some o =>
      rw [ho] at hop
      exact (hm p).after hop

/-- Operations are never nested, never left open at the end of a call, and every call that may write to the log is made in one;
locking an inode and reading a file without holes writes nothing to the log. -/
theorem transactions_balanced :
    (∀ (N : Nat) (I : (Inum → Node) → Prop) (x : DirSys × (Fin NPROC → OpSt)), (opLts N I).Reachable x →
      ∀ p, x.2 p ≠ .bad ∧ ((∀ o f, x.1.th p ≠ some (.call o f)) → (∀ msg, x.1.th p ≠ some (.panic msg)) → x.2 p = .out)) ∧
    ∀ (sb : Superblock) (c : UInt32 → Block) (bl : Fin NBUF → UInt32), (∀ inum, (Fs.ilock sb inum).Silent c bl) ∧
      ∀ ip : Inode, ip.NoHoles c → ∀ off n, (Fs.readi sb ip off n).Silent c bl := by
  refine ⟨fun N I x hx p => ?_, fun sb c bl => ⟨Fs.ilock_silent, fun ip hip off n => Fs.readi_silent hip off n⟩⟩
  obtain ⟨own, hinv, hm⟩ := op_invariant hx
  refine ⟨fun hbad => ?_, fun hcall hpanic => ?_⟩
  · obtain ⟨h, -⟩ | ⟨h, -⟩ := hm p <;> rw [h] at hbad <;> cases hbad
  · have hz : (own p).count .op = 0 := by
      cases hth : x.1.th p with
      | none =>
        rw [(hinv.idle p hth).2]
        exact DirSys.res_count_op _
      | some c =>
        cases c with
        | call o f => exact absurd hth (hcall o f)
        | panic msg => exact absurd hth (hpanic msg)
        | ret r =>
          have hpost : own p = (if r.exited then 0 else r.loc.res) + contRes r.cont := (hinv.run p _ hth).2
          rw [hpost, Multiset.count_add, DirSys.contRes_count (by simp)]
          split
          · rfl
          · exact Multiset.count_eq_zero.2 r.loc.op_not_mem
    obtain ⟨h, -⟩ | ⟨-, h⟩ := hm p
    · exact h
    · omega

/-- The first process creates a file, and is about to leave the operation. -/
def openRun : List DirEv :=
  .call ⟨0, NPROC_pos⟩ (.open (some [97]) (SysFile.O_CREATE ||| SysFile.O_RDWR)) ::
    List.replicate 8 (.next ⟨0, NPROC_pos⟩ ⟨(true, true), [], true⟩)

/-- A file of one block. -/
def oneBlock : Inode := ⟨⟨2, 0, 0, 1, 16, fun _ => 40⟩, 2⟩

theorem transactions_balanced_openRun :
    (∃ x, (opLts 10 fun node => node = emptyImage).Reachable x ∧ x.2 ⟨0, by decide⟩ = .inOp ∧ x.2 ⟨0, by decide⟩ ≠ .bad) ∧
      (Fs.readi ⟨2000, 200, 32, 45⟩ oneBlock 0 16).Silent (fun _ _ => 0) fun _ => 0 := by
  have hany : (Lts.replay (Lts.histStep (fun s e => DirSys.step s 10 e) DirSys.opHist) (fun _ _ => true)
      (DirSys.boot emptyImage, fun _ => .out) openRun).any (fun x => x.2 ⟨0, by decide⟩ = .inOp) = true := by decide +kernel
  obtain ⟨x, hx, hp⟩ := Lts.Reachable.replay_any
    (I := fun x : DirSys × (Fin NPROC → OpSt) => (x.1.k.d.node = emptyImage ∧ x.1.Booted) ∧ x.2 = fun _ => .out) (C := fun _ _ => True)
    (fun _ _ _ => trivial) ⟨⟨rfl, DirSys.boot_booted _⟩, rfl⟩ hany
  have hx : (opLts 10 fun node => node = emptyImage).Reachable x := hx.of_guard
  refine ⟨⟨x, hx, of_decide_eq_true hp, (transactions_balanced.1 _ _ _ hx _).1⟩, ?_⟩
  refine (transactions_balanced.2 _ _ _).2 oneBlock (fun bn hbn => ?_) 0 16
  have hsz : oneBlock.size.toNat = 16 := rfl
  have hb : BSIZE = 1024 := rfl
  obtain rfl : bn = 0 := by
    rw [hsz, hb] at hbn
    omega
  decide

end Xv6
