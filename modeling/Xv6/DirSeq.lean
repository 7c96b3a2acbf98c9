import Xv6.DirDangle

/-!
# A call alone

A call that runs while the other processes stand still is a run of its code over the kernel.  `seqWp` says what holds at its end.  The
inodes and files are compared with those before the call: `At b H d` says that `d` is `b` and the references `H` to inodes.
-/

namespace Xv6

open Function (update)

section run

variable {α β : Type} (N : Nat) (env : DirEnv)

/-- The code, run to its end. -/
def DirK.run : DirCode α → DirK → Except String (α × DirK)
  | .ret a, k => .ok (a, k)
  | .panic msg, _ => .error msg
  | .call o f, k =>
    match k.exec N env o with
    | .error msg => .error msg
    | .ok (x, k) => run (f x) k

/-- An operation that succeeds ends in the postcondition. -/
def seqRule : Code.Rule DirOp.Ans DirK := fun o Q k => ∀ x k', k.exec N env o = .ok (x, k') → Q x k'

/-- If the code comes to an end, it ends in `Q`. -/
def seqWp (c : DirCode α) (Q : α → DirK → Prop) (k : DirK) : Prop := Code.wp (seqRule N env) (fun _ => True) c Q k

variable {N env} {k k' : DirK}

theorem seqWp_run {c : DirCode α} {Q : α → DirK → Prop} {a : α} (h : seqWp N env c Q k) (hr : k.run N env c = .ok (a, k')) : Q a k' := by
  induction c generalizing k with
  | ret a' =>
    cases hr
    exact h
  | panic msg => cases hr
  | call o f ih =>
    unfold DirK.run at hr
    split at hr
    · cases hr
    · exact ih _ (h _ _ ‹_›) hr

@[simp] theorem seqWp_pure (a : α) (Q : α → DirK → Prop) : seqWp N env (pure a) Q = Q a := rfl

@[simp] theorem seqWp_bind (c : DirCode α) (f : α → DirCode β) (Q : β → DirK → Prop) :
    seqWp N env (c >>= f) Q = seqWp N env c (fun a => seqWp N env (f a) Q) := funext fun _ => Code.wp_bind ..

theorem seqRule_mono : (seqRule N env).Mono := fun _ _ _ _ hQ h x k' he => hQ x k' (h x k' he)

theorem seqWp_mono {c : DirCode α} {Q Q' : α → DirK → Prop} (h : seqWp N env c Q k) (hQ : ∀ a k, Q a k → Q' a k) :
    seqWp N env c Q' k :=
  Code.wp_mono seqRule_mono h hQ

/-- A section of `Dir`. -/
theorem seqWp_lift {o : DirOp} {m : DirM o.Ans} {P : o.Ans → Dirs → Prop} {E : String → Dirs → Prop} {Q : o.Ans → DirK → Prop}
    (ho : ∀ k : DirK, k.exec N env o = k.lift m) (hw : wp m P E k.d) (hQ : ∀ x d, P x d → Q x { k with d }) :
    seqWp N env (Code.op o) Q k := by
  intro x k' he
  rw [ho] at he
  obtain ⟨d, hd, rfl⟩ := lift_ok he hw
  exact hQ x d hd

end run

namespace DirSys

variable {N : Nat} {env : DirEnv} {s t : DirSys} {p : Fin NPROC} {c : DirCall} {r : DirOut}

/-- `p` makes the call `c` and comes to its end with `r`, while the others stand still. -/
def Alone (N : Nat) (env : DirEnv) (s : DirSys) (p : Fin NPROC) (c : DirCall) (r : DirOut) (t : DirSys) : Prop :=
  ∃ n, Lts.replay (fun s e => DirSys.step s N e) (fun _ _ => true) s (.call p c :: List.replicate n (.next p env)) = some t ∧
    t.th p = some (.ret r)

theorem run_of_replay {n : Nat} {s : DirSys} {code : DirCode DirOut} (hth : s.th p = some code)
    (h : Lts.replay (fun s e => DirSys.step s N e) (fun _ _ => true) s (List.replicate n (.next p env)) = some t)
    (hr : t.th p = some (.ret r)) : s.k.run N env code = .ok (r, t.k) := by
  induction n generalizing s code with
  | zero =>
    simp only [List.replicate_zero, Lts.replay, Option.some.injEq] at h
    subst h
    rw [hth] at hr
    cases hr
    rfl
  | succ n ih =>
    simp only [List.replicate_succ, Lts.replay, if_true] at h
    have hstep : s.step N (.next p env) = s.next N p env code := by simp only [DirSys.step, hth]
    rw [hstep] at h
    cases code with
    | ret a => simp [DirSys.next] at h
    | panic msg => simp [DirSys.next] at h
    | call o f =>
      simp only [DirSys.next] at h
      unfold DirK.run
      cases he : s.k.exec N env o with
      | error msg => simp [he] at h
      | ok xk =>
        simp only [he] at h
        exact ih (by simp) h

/-- It is a run of the code of the call. -/
theorem Alone.run (h : Alone N env s p c r t) :
    ∃ k : DirK, k.d = s.k.d ∧ (s.k.slot p).st = .live ∧ k.run N env (c.code (p = s.k.initproc) (s.k.slot p).loc) = .ok (r, t.k) := by
  obtain ⟨n, hrep, hr⟩ := h
  simp only [Lts.replay, if_true] at hrep
  split at hrep
  · rename_i u hu
    simp only [DirSys.step] at hu
    split at hu
    · rename_i hc
      cases hu
      exact ⟨_, by rfl, hc.1, run_of_replay (Function.update_self ..) hrep hr⟩
    · cases hu
  · cases hrep

end DirSys

end Xv6
