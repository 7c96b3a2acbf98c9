import Xv6.Lib.Sum
import Xv6.LogOps

/-!
# A commit never contains part of an operation

The invariant behind the design comment of `log.c`: `outstanding` counts the processes inside an operation,
`committing` is set exactly while one process is inside `commit`, and then `outstanding` is `0`.  Since `begin_op`
waits for `committing` and `log_write` is called inside operations only, nobody else touches the header during a
commit, and what is committed was logged by operations that have ended.
-/

namespace Xv6

open Finset

/-! ### The header list -/

theorem absorb_of_mem {l : List UInt32} {b : UInt32} (h : b ∈ l) : absorb l b = l := by
  induction l with
  | nil => simp at h
  | cons x xs ih =>
    unfold absorb
    split
    · simp_all
    · rename_i hx
      rw [ih ((List.mem_cons.1 h).resolve_left (Ne.symm hx))]

theorem absorb_of_notMem {l : List UInt32} {b : UInt32} (h : b ∉ l) : absorb l b = l ++ [b] := by
  induction l with
  | nil => rfl
  | cons x xs ih =>
    simp only [List.mem_cons, not_or] at h
    simp [absorb, Ne.symm h.1, ih h.2]

theorem mem_absorb {l : List UInt32} {b c : UInt32} : c ∈ absorb l b ↔ c = b ∨ c ∈ l := by
  by_cases h : b ∈ l
  · rw [absorb_of_mem h]
    exact ⟨Or.inr, fun hc => hc.elim (· ▸ h) id⟩
  · rw [absorb_of_notMem h]
    simp [or_comm]

theorem nodup_absorb {l : List UInt32} (h : l.Nodup) (b : UInt32) : (absorb l b).Nodup := by
  by_cases hb : b ∈ l
  · rwa [absorb_of_mem hb]
  · rw [absorb_of_notMem hb]
    refine List.nodup_append.2 ⟨h, List.nodup_singleton b, ?_⟩
    rintro x hx y hy rfl
    exact hb (List.mem_singleton.1 hy ▸ hx)

/-! ### What a step can do -/

variable {P : Type} [DecidableEq P]

theorem LogSys.beginOp_ok {s t : LogSys P} {p : P} (h : s.step (.beginOp p) = some (.ok t)) :
    (s.pc p = .out ∨ s.pc p = .beginOp) ∧
      (t = s.setPc p .beginOp ∨
        (s.log.committing = false ∧ (s.log.lh.length : Int) + (s.log.outstanding + 1) * MAXOPBLOCKS ≤ LOGSIZE ∧
          t = { s with log := { s.log with outstanding := s.log.outstanding + 1 } }.setPc p (.inOp []))) := by
  simp only [step, Log.beginOp] at h
  split at h
  case h_3 => cases h
  all_goals
    rename_i hpc
    refine ⟨by simp [hpc], ?_⟩
    split at h
    · simp only [Option.some.injEq, Except.ok.injEq] at h
      exact .inl h.symm
    · rename_i lg hlg
      simp only [Option.some.injEq, Except.ok.injEq] at h
      split at hlg
      · cases hlg
      · split at hlg
        · cases hlg
        · rename_i hc hn
          simp only [Option.some.injEq] at hlg
          exact .inr ⟨by simpa using hc, by omega, by rw [← h, ← hlg]⟩

theorem LogSys.logWrite_ok {s t : LogSys P} {p : P} {b : UInt32} (h : s.step (.logWrite p b) = some (.ok t)) :
    ∃ wrote, s.pc p = .inOp wrote ∧ (s.log.lh.length : Int) < LOGSIZE ∧
      t = { s with log := { s.log with lh := absorb s.log.lh b } }.setPc p (.inOp (b :: wrote)) := by
  simp only [step, Log.logWrite] at h
  split at h
  · rename_i wrote hpc
    refine ⟨wrote, hpc, ?_⟩
    split at h
    · simp [Except.map] at h
    · split at h
      · simp [Except.map] at h
      · rename_i hn ho
        simp only [Except.map, Option.some.injEq, Except.ok.injEq] at h
        exact ⟨by omega, h.symm⟩
  · cases h

theorem LogSys.endOp_ok {s t : LogSys P} {p : P} (h : s.step (.endOp p) = some (.ok t)) :
    ∃ wrote, s.pc p = .inOp wrote ∧ s.log.committing = false ∧
      ((s.log.outstanding = 1 ∧
          t = { s with log := { s.log with outstanding := s.log.outstanding - 1, committing := true } }.setPc p
            (.inCommit .test)) ∨
        (s.log.outstanding ≠ 1 ∧
          t = { s with log := { s.log with outstanding := s.log.outstanding - 1 } }.setPc p .out)) := by
  simp only [step, Log.endOp] at h
  split at h
  · rename_i wrote hpc
    refine ⟨wrote, hpc, ?_⟩
    split at h
    · simp [Except.map] at h
    · rename_i hc
      refine ⟨by simpa using hc, ?_⟩
      split at h
      · simp only [Except.map, ↓reduceIte, Option.some.injEq, Except.ok.injEq] at h
        exact .inl ⟨by omega, h.symm⟩
      · simp only [Except.map, Bool.false_eq_true, ↓reduceIte, Option.some.injEq, Except.ok.injEq] at h
        exact .inr ⟨by omega, h.symm⟩
  · cases h

/-- Past `log.lh.n = 0`, or at the end of a commit that had nothing to write. -/
def CommitPc.Cleared : CommitPc → Prop
  | .eraseHead | .finish => True
  | _ => False

/-- A step of `commit` keeps everything but the header, its copy on disk and the position of the process. -/
theorem LogSys.commit_ok {s t : LogSys P} {p : P} (h : s.step (.commit p) = some (.ok t)) :
    ∃ c c' lh head, s.pc p = .inCommit c ∧ (lh = s.log.lh ∨ c'.Cleared ∧ lh = []) ∧
      (c.Cleared ↔ c = .eraseHead) ∧ (c'.Cleared → c.Cleared ∨ lh = []) ∧ (c.Cleared → c'.Cleared) ∧
      (c = .writeHead → head = s.log.lh) ∧
      t = { s with log := { s.log with lh := lh }, head := head }.setPc p (.inCommit c') := by
  simp only [step] at h
  split at h
  · rename_i c hpc
    refine ⟨c, ?_⟩
    cases c <;> simp only [commitStep, Option.map_some, Option.map_none, Option.some.injEq, Except.ok.injEq,
      reduceCtorEq] at h
    case test =>
      refine ⟨_, _, _, hpc, .inl rfl, by simp [CommitPc.Cleared], ?_, nofun, nofun, h.symm⟩
      split
      · exact fun hc => hc.elim
      · exact fun _ => .inr (List.length_eq_zero_iff.1 (by omega))
    case clear =>
      exact ⟨.eraseHead, _, _, hpc, .inr ⟨trivial, rfl⟩, by simp [CommitPc.Cleared], fun _ => .inr rfl, nofun, nofun,
        h.symm⟩
    case eraseHead =>
      exact ⟨.finish, _, _, hpc, .inl rfl, by simp [CommitPc.Cleared], fun _ => .inl trivial, fun _ => trivial, nofun,
        h.symm⟩
    case writeHead =>
      exact ⟨.installTrans 0, _, _, hpc, .inl rfl, by simp [CommitPc.Cleared], nofun, nofun, fun _ => rfl, h.symm⟩
    all_goals
      refine ⟨_, _, _, hpc, .inl rfl, by simp [CommitPc.Cleared], ?_, nofun, nofun, h.symm⟩
      split <;> exact fun hc => hc.elim
  · cases h

theorem LogSys.finish_ok {s t : LogSys P} {p : P} (h : s.step (.finish p) = some (.ok t)) :
    s.pc p = .inCommit .finish ∧ t = { s with log := { s.log with committing := false } }.setPc p .out := by
  simp only [step] at h
  split at h
  · rename_i hpc
    simp only [Option.some.injEq, Except.ok.injEq] at h
    exact ⟨hpc, h.symm⟩
  · cases h

/-- The three panics. -/
theorem LogSys.panic_cases {s : LogSys P} {e : LogEv P} {msg : String} (hs : s.step e = some (.error msg)) :
    (msg = "log.committing" ∧ s.log.committing = true ∧ ∃ p w, s.pc p = .inOp w) ∨
    (msg = "log_write outside of trans" ∧ s.log.outstanding < 1 ∧ ∃ p w, s.pc p = .inOp w) ∨
    (msg = "too big a transaction" ∧ ∃ p b w, e = .logWrite p b ∧ s.pc p = .inOp w) := by
  cases e with
  | beginOp p =>
    simp only [step] at hs
    split at hs
    case h_3 => cases hs
    all_goals split at hs <;> simp at hs
  | logWrite p b =>
    simp only [step, Log.logWrite] at hs
    split at hs
    · rename_i w hp
      split at hs
      · simp only [Except.map, Option.some.injEq, Except.error.injEq] at hs
        exact .inr (.inr ⟨hs.symm, p, b, w, rfl, hp⟩)
      · split at hs
        · rename_i ho
          simp only [Except.map, Option.some.injEq, Except.error.injEq] at hs
          exact .inr (.inl ⟨hs.symm, ho, p, w, hp⟩)
        · simp [Except.map] at hs
    · cases hs
  | endOp p =>
    simp only [step, Log.endOp] at hs
    split at hs
    · rename_i w hp
      split at hs
      · rename_i hc
        simp only [Except.map, Option.some.injEq, Except.error.injEq] at hs
        exact .inl ⟨hs.symm, hc, p, w, hp⟩
      · split at hs <;> simp [Except.map] at hs
    · cases hs
  | commit p =>
    simp only [step] at hs
    split at hs
    · rename_i c hp
      cases h : s.commitStep p c <;> simp [h] at hs
    · cases hs
  | finish p =>
    simp only [step] at hs
    split at hs <;> simp at hs

/-! ### The history of a run -/

/-- The calls of `log_write` since the previous commit finished. -/
def loggedSince : List (LogEv P) → List (P × UInt32)
  | [] => []
  | .finish _ :: _ => []
  | .logWrite p b :: tr => (p, b) :: loggedSince tr
  | .beginOp _ :: tr | .endOp _ :: tr | .commit _ :: tr => loggedSince tr

/-- The header against the history, outside the last steps of a commit, which have cleared it. -/
structure LogSys.Hist (tr : List (LogEv P)) (s : LogSys P) : Prop where
  logged : (∀ p c, s.pc p = .inCommit c → ¬ c.Cleared) → ∀ b, b ∈ s.log.lh ↔ ∃ q, (q, b) ∈ loggedSince tr
  cleared : ∀ p c, s.pc p = .inCommit c → c.Cleared → s.log.lh = []
  nodup : s.log.lh.Nodup
  ended : ∀ tr₁ q b tr₂, tr = tr₁ ++ .logWrite q b :: tr₂ → .endOp q ∈ tr₁ ∨ ∃ wrote, s.pc q = .inOp wrote

/-- A process leaves an operation by `end_op` only. -/
private theorem LogSys.inOp_step {s t : LogSys P} {e : LogEv P} (hs : s.step e = some (.ok t)) {q : P}
    {wrote : List UInt32} (hq : s.pc q = .inOp wrote) : e = .endOp q ∨ ∃ wrote', t.pc q = .inOp wrote' := by
  have key : ∀ {p c}, t.pc = Function.update s.pc p c → (q = p → ∃ wrote', c = .inOp wrote') →
      ∃ wrote', t.pc q = .inOp wrote' := by
    intro p c hpc hc
    rw [hpc]
    by_cases hqp : q = p
    · obtain ⟨w', rfl⟩ := hc hqp
      exact ⟨w', by rw [hqp, Function.update_self]⟩
    · exact ⟨wrote, by rw [Function.update_of_ne hqp, hq]⟩
  cases e with
  | beginOp p =>
    obtain ⟨hp, h⟩ := beginOp_ok hs
    have hqp : q ≠ p := by
      rintro rfl
      simp [hq] at hp
    rcases h with rfl | ⟨-, -, rfl⟩ <;> exact .inr (key rfl (fun h => absurd h hqp))
  | logWrite p b =>
    obtain ⟨w, hp, -, rfl⟩ := logWrite_ok hs
    exact .inr (key rfl (fun _ => ⟨_, rfl⟩))
  | endOp p =>
    obtain ⟨w, hp, -, h⟩ := endOp_ok hs
    by_cases hqp : q = p
    · exact .inl (by rw [hqp])
    · rcases h with ⟨-, rfl⟩ | ⟨-, rfl⟩ <;> exact .inr (key rfl (fun h => absurd h hqp))
  | commit p =>
    obtain ⟨c, c', lh, head, hp, -, -, -, -, -, rfl⟩ := commit_ok hs
    exact .inr (key rfl (fun h => by simp [← h, hq] at hp))
  | finish p =>
    obtain ⟨hp, rfl⟩ := finish_ok hs
    exact .inr (key rfl (fun h => by simp [← h, hq] at hp))

private theorem LogSys.ended_step {s t : LogSys P} {e : LogEv P} {tr : List (LogEv P)} (h : s.Hist tr)
    (hs : s.step e = some (.ok t)) (tr₁ : List (LogEv P)) (q : P) (b : UInt32) (tr₂ : List (LogEv P))
    (htr : e :: tr = tr₁ ++ .logWrite q b :: tr₂) : .endOp q ∈ tr₁ ∨ ∃ wrote, t.pc q = .inOp wrote := by
  cases tr₁ with
  | nil =>
    simp only [List.nil_append, List.cons.injEq] at htr
    obtain ⟨rfl, -⟩ := htr
    obtain ⟨w, -, -, rfl⟩ := logWrite_ok hs
    exact .inr ⟨_, Function.update_self ..⟩
  | cons x tr₁ =>
    simp only [List.cons_append, List.cons.injEq] at htr
    obtain ⟨rfl, htr⟩ := htr
    rcases h.ended tr₁ q b tr₂ htr with hm | ⟨w, hq⟩
    · exact .inl (List.mem_cons_of_mem _ hm)
    · rcases inOp_step hs hq with rfl | hq'
      · exact .inl List.mem_cons_self
      · exact .inr hq'

/-! ### Who is inside an operation, and who commits -/

/-- One unit for a process between `begin_op` and `end_op`. -/
def OpPc.ops : OpPc → Nat
  | .inOp _ => 1
  | _ => 0

theorem OpPc.ops_eq_zero {c : OpPc} (h : c.ops = 0) (wrote : List UInt32) : c ≠ .inOp wrote := by
  rintro rfl
  cases h

variable [Fintype P]

/-- The invariant of the log operations. -/
structure LogSys.Inv (s : LogSys P) : Prop where
  outstanding : s.log.outstanding = ∑ p, (s.pc p).ops
  idle : s.log.committing = true → s.log.outstanding = 0
  committing : ∀ p c, s.pc p = .inCommit c → s.log.committing = true
  alone : ∀ p q c d, s.pc p = .inCommit c → s.pc q = .inCommit d → p = q

omit [DecidableEq P] in
theorem LogSys.Inv.init {nlog : Int} {s : LogSys P} (h : s.Init nlog) : s.Inv where
  outstanding := by simp [h.2.1, h.2.2.2.2.2, OpPc.ops]
  idle := by simp [h.2.2.1]
  committing p c hp := by simp [h.2.2.2.2.2 p] at hp
  alone p q c d hp := by simp [h.2.2.2.2.2 p] at hp

omit [DecidableEq P] in
/-- During a commit no process is inside an operation. -/
theorem LogSys.Inv.no_op {s : LogSys P} (h : s.Inv) (hc : s.log.committing = true) (p : P) (wrote : List UInt32) :
    s.pc p ≠ .inOp wrote := by
  have h0 := h.outstanding
  rw [h.idle hc] at h0
  have := le_sum OpPc.ops s.pc p
  exact OpPc.ops_eq_zero (by omega) wrote

/-- A step that keeps `committing` and leaves nobody new inside `commit`. -/
private theorem LogSys.Inv.keep {s t : LogSys P} {p : P} {c : OpPc} (h : s.Inv) (hpc : t.pc = Function.update s.pc p c)
    (hout : t.log.outstanding + (s.pc p).ops = s.log.outstanding + c.ops) (hcom : t.log.committing = s.log.committing)
    (hidle : s.log.committing = true → c.ops = (s.pc p).ops)
    (hc : ∀ d, c = .inCommit d → ∃ d', s.pc p = .inCommit d') : t.Inv where
  outstanding := by
    have := sum_update OpPc.ops s.pc p c
    have := h.outstanding
    rw [hpc]
    omega
  idle ht := by
    have := h.idle (hcom ▸ ht)
    have := hidle (hcom ▸ ht)
    omega
  committing q d hq := by
    rw [hcom]
    rw [hpc] at hq
    by_cases hqp : q = p
    · subst hqp
      rw [Function.update_self] at hq
      obtain ⟨d', hd'⟩ := hc d hq
      exact h.committing _ _ hd'
    · rw [Function.update_of_ne hqp] at hq
      exact h.committing _ _ hq
  alone q r d e hq hr := by
    -- whoever is inside `commit` afterwards was inside it before
    have before : ∀ x f, t.pc x = .inCommit f → ∃ f', s.pc x = .inCommit f' := by
      intro x f hx
      rw [hpc] at hx
      by_cases hxp : x = p
      · subst hxp
        rw [Function.update_self] at hx
        exact hc f hx
      · rw [Function.update_of_ne hxp] at hx
        exact ⟨f, hx⟩
    obtain ⟨d', hd'⟩ := before q d hq
    obtain ⟨e', he'⟩ := before r e hr
    exact h.alone _ _ _ _ hd' he'

theorem LogSys.Inv.step {s t : LogSys P} {e : LogEv P} (h : s.Inv) (hs : s.step e = some (.ok t)) : t.Inv := by
  cases e with
  | beginOp p =>
    obtain ⟨hp, rfl | ⟨hcom, -, rfl⟩⟩ := beginOp_ok hs
    · refine h.keep rfl ?_ rfl ?_ nofun <;> rcases hp with hp | hp <;> simp [hp, setPc, OpPc.ops]
    · refine h.keep rfl ?_ rfl ?_ nofun <;> rcases hp with hp | hp <;> simp [hp, setPc, OpPc.ops, hcom]
  | logWrite p b =>
    obtain ⟨w, hp, -, rfl⟩ := logWrite_ok hs
    refine h.keep rfl ?_ rfl ?_ nofun <;> simp [hp, setPc, OpPc.ops]
  | endOp p =>
    obtain ⟨w, hp, hcom, ⟨ho, rfl⟩ | ⟨-, rfl⟩⟩ := endOp_ok hs
    · -- the last operation: nobody was inside `commit`, and now `p` is
      have hsum := sum_update OpPc.ops s.pc p (.inCommit .test)
      have hout := h.outstanding
      rw [hp] at hsum
      change _ + 1 = _ + 0 at hsum
      have alone : ∀ q d, Function.update s.pc p (.inCommit .test) q = .inCommit d → q = p := by
        intro q d hq
        by_contra hqp
        rw [Function.update_of_ne hqp] at hq
        simp [h.committing _ _ hq] at hcom
      exact ⟨by simp only [setPc]; omega, fun _ => by simp [setPc, ho], fun _ _ _ => rfl,
        fun q r d e hq hr => (alone q d hq).trans (alone r e hr).symm⟩
    · refine h.keep rfl ?_ rfl ?_ nofun <;> simp [hp, setPc, OpPc.ops, hcom]
  | commit p =>
    obtain ⟨c, c', lh, head, hp, -, -, -, -, -, rfl⟩ := commit_ok hs
    refine h.keep rfl ?_ rfl ?_ (fun _ _ => ⟨c, hp⟩) <;> simp [hp, setPc, OpPc.ops]
  | finish p =>
    obtain ⟨hp, rfl⟩ := finish_ok hs
    have hsum := sum_update OpPc.ops s.pc p .out
    have hout := h.outstanding
    rw [hp] at hsum
    change _ + 0 = _ + 0 at hsum
    have none : ∀ q d, Function.update s.pc p .out q ≠ .inCommit d := by
      intro q d hq
      by_cases hqp : q = p
      · subst hqp
        simp at hq
      · rw [Function.update_of_ne hqp] at hq
        exact hqp (h.alone _ _ _ _ hq hp)
    exact ⟨by simp only [setPc]; omega, nofun, fun q d hq => absurd hq (none q d),
      fun q _ d _ hq => absurd hq (none q d)⟩

theorem LogSys.Inv.of_reachable {nlog : Int} {s : LogSys P} (h : (logLts P nlog).Reachable s) : s.Inv :=
  h.invariant (fun _ => Inv.init) (fun _ _ _ hi hs => hi.step hs)

omit [DecidableEq P] in
/-- Nobody is inside `commit` while `committing` is `0`. -/
private theorem LogSys.Inv.no_commit {s : LogSys P} (h : s.Inv) (hc : s.log.committing = false) (p : P)
    (c : CommitPc) : s.pc p ≠ .inCommit c := by
  intro hp
  simp [h.committing p c hp] at hc

omit [DecidableEq P] in
private theorem LogSys.Inv.not_committing {s : LogSys P} (h : s.Inv) {p : P} {wrote : List UInt32}
    (hp : s.pc p = .inOp wrote) : s.log.committing = false := by
  by_contra hc
  exact h.no_op (by simpa using hc) p wrote hp

theorem LogSys.Hist.step {s t : LogSys P} {e : LogEv P} {tr : List (LogEv P)} (hi : s.Inv) (h : s.Hist tr)
    (hs : s.step e = some (.ok t)) : t.Hist (e :: tr) := by
  have hended := ended_step h hs
  -- a step that puts `p` at `c`, outside the last steps of a commit
  have pcs : ∀ {p : P} {c : OpPc}, t.pc = Function.update s.pc p c → (∀ d, c = .inCommit d → ¬ d.Cleared) →
      (∀ q d, s.pc q = .inCommit d → d.Cleared → q = p) → ∀ q d, t.pc q = .inCommit d → ¬ d.Cleared := by
    intro p c hpc hc hp q d hq hd
    rw [hpc] at hq
    by_cases hqp : q = p
    · subst hqp
      rw [Function.update_self] at hq
      exact hc d hq hd
    · rw [Function.update_of_ne hqp] at hq
      exact hqp (hp q d hq hd)
  cases e with
  | beginOp p =>
    obtain ⟨hp, ht⟩ := beginOp_ok hs
    have hlh : t.log.lh = s.log.lh := by rcases ht with rfl | ⟨-, -, rfl⟩ <;> rfl
    have hpc : ∀ q d, t.pc q = .inCommit d ↔ s.pc q = .inCommit d := by
      intro q d
      by_cases hqp : q = p
      · subst hqp
        rcases hp with hp | hp <;> rcases ht with rfl | ⟨-, -, rfl⟩ <;> simp [setPc, hp]
      · rcases ht with rfl | ⟨-, -, rfl⟩ <;> simp [setPc, hqp]
    refine ⟨fun hn b => ?_, fun q d hq hd => ?_, hlh ▸ h.nodup, hended⟩
    · rw [hlh]
      exact h.logged (fun q d hq => hn q d ((hpc q d).2 hq)) b
    · rw [hlh]
      exact h.cleared q d ((hpc q d).1 hq) hd
  | logWrite p b =>
    obtain ⟨w, hp, -, rfl⟩ := logWrite_ok hs
    have none := hi.no_commit (hi.not_committing hp)
    have none' := pcs rfl nofun (fun q d hq => absurd hq (none q d))
    refine ⟨fun _ c => ?_, fun q d hq hd => absurd hd (none' q d hq), nodup_absorb h.nodup b, hended⟩
    change c ∈ absorb s.log.lh b ↔ ∃ q, (q, c) ∈ (p, b) :: loggedSince tr
    rw [mem_absorb, h.logged (fun q d hq => absurd hq (none q d)) c]
    simp only [List.mem_cons, Prod.mk.injEq, exists_or, exists_eq_left]
  | endOp p =>
    obtain ⟨w, hp, hcom, ht⟩ := endOp_ok hs
    have none := hi.no_commit hcom
    have hlh : t.log.lh = s.log.lh := by rcases ht with ⟨-, rfl⟩ | ⟨-, rfl⟩ <;> rfl
    have none' : ∀ q d, t.pc q = .inCommit d → ¬ d.Cleared := by
      rcases ht with ⟨-, rfl⟩ | ⟨-, rfl⟩
      · refine pcs rfl ?_ (fun q d hq => absurd hq (none q d))
        rintro d ⟨⟩ ⟨⟩
      · exact pcs rfl nofun (fun q d hq => absurd hq (none q d))
    refine ⟨fun _ b => ?_, fun q d hq hd => absurd hd (none' q d hq), hlh ▸ h.nodup, hended⟩
    rw [hlh]
    exact h.logged (fun q d hq => absurd hq (none q d)) b
  | commit p =>
    obtain ⟨c, c', lh, head, hp, hlh, hce, hcc, hcc', -, rfl⟩ := commit_ok hs
    have alone : ∀ q d, s.pc q = .inCommit d → q = p := fun q d hq => hi.alone q p d c hq hp
    refine ⟨fun hn b => ?_, fun q d hq hd => ?_, ?_, hended⟩
    · have hc' : ¬ c'.Cleared := hn p c' (Function.update_self ..)
      have hl : lh = s.log.lh := hlh.resolve_right (fun hx => hc' hx.1)
      subst hl
      refine h.logged (fun q d hq hd => ?_) b
      rw [alone q d hq, hp] at hq
      cases hq
      exact hc' (hcc' hd)
    · -- the process at a cleared position is `p`
      have hqp : q = p := by
        by_contra hqp
        simp only [setPc, Function.update_of_ne hqp] at hq
        exact hqp (alone q d hq)
      subst hqp
      simp only [setPc, Function.update_self, OpPc.inCommit.injEq] at hq
      subst hq
      rcases hcc hd with hc | hl
      · have hs0 := h.cleared _ _ hp hc
        rcases hlh with rfl | ⟨-, rfl⟩
        · exact hs0
        · rfl
      · exact hl
    · rcases hlh with rfl | ⟨-, rfl⟩
      · exact h.nodup
      · exact List.nodup_nil
  | finish p =>
    obtain ⟨hp, rfl⟩ := finish_ok hs
    have h0 : s.log.lh = [] := h.cleared _ _ hp trivial
    have alone : ∀ q d, s.pc q = .inCommit d → d.Cleared → q = p := fun q d hq _ => hi.alone q p d _ hq hp
    refine ⟨fun _ b => ?_, fun q d hq hd => absurd hd (pcs rfl nofun alone q d hq), h.nodup, hended⟩
    simp [setPc, h0, loggedSince]

theorem LogSys.Hist.of_trace {nlog : Int} {tr : List (LogEv P)} {s : LogSys P} (h : (logLts P nlog).Trace tr s) :
    s.Inv ∧ s.Hist tr := by
  refine Lts.Trace.invariant (I := fun tr s => s.Inv ∧ s.Hist tr) ?_ ?_ h
  · intro s h0
    obtain ⟨-, -, -, hlh, -, hpc⟩ := id h0
    exact ⟨Inv.init h0, fun _ b => by simp [hlh, loggedSince], fun p c hp => by simp [hpc p] at hp, by simp [hlh],
      fun tr₁ q b tr₂ h => by simp at h⟩
  · intro tr s e t ⟨hi, hh⟩ hs
    exact ⟨hi.step hs, hh.step hi hs⟩

/-! ### The theorem -/

private theorem LogSys.lh_step {s t : LogSys P} {e : LogEv P} (hi : s.Inv) (hc : s.log.committing = true)
    (hs : s.step e = some (.ok t)) (hne : t.log.lh ≠ s.log.lh) : ∃ p c, e = .commit p ∧ s.pc p = .inCommit c := by
  cases e with
  | beginOp p =>
    obtain ⟨-, rfl | ⟨-, -, rfl⟩⟩ := beginOp_ok hs <;> exact absurd rfl hne
  | logWrite p b =>
    obtain ⟨w, hp, -⟩ := logWrite_ok hs
    exact absurd hp (hi.no_op hc p w)
  | endOp p =>
    obtain ⟨w, hp, -⟩ := endOp_ok hs
    exact absurd hp (hi.no_op hc p w)
  | commit p =>
    obtain ⟨c, -, -, -, hp, -⟩ := commit_ok hs
    exact ⟨p, c, rfl, hp⟩
  | finish p =>
    obtain ⟨-, rfl⟩ := finish_ok hs
    exact absurd rfl hne

/-- In every run of any number of processes: while `committing` is set, `outstanding` is `0` and only the committing
process changes the header; at most one process is inside `commit`; the header that `write_head` commits holds,
without repetition, exactly the blocks logged since the previous commit finished, and every operation that ever
called `log_write` has called `end_op` since; and neither the panic of `end_op` nor the second panic of `log_write`
is reachable. -/
theorem commit_never_partial (nlog : Int) :
    (∀ tr s, (logLts P nlog).Trace tr s →
      (s.log.committing = true → s.log.outstanding = 0 ∧
        ∀ e t, s.step e = some (.ok t) → t.log.lh ≠ s.log.lh → ∃ p c, e = .commit p ∧ s.pc p = .inCommit c) ∧
      (∀ p q c d, s.pc p = .inCommit c → s.pc q = .inCommit d → p = q) ∧
      (∀ p t, s.pc p = .inCommit .writeHead → s.step (.commit p) = some (.ok t) →
        t.head.Nodup ∧ (∀ b, b ∈ t.head ↔ ∃ q, (q, b) ∈ loggedSince tr) ∧
        ∀ tr₁ q b tr₂, tr = tr₁ ++ .logWrite q b :: tr₂ → .endOp q ∈ tr₁)) ∧
    ¬ (logLts P nlog).Panics "log.committing" ∧ ¬ (logLts P nlog).Panics "log_write outside of trans" := by
  refine ⟨fun tr s htr => ?_, ?_, ?_⟩
  · obtain ⟨hi, hh⟩ := LogSys.Hist.of_trace htr
    refine ⟨fun hc => ⟨hi.idle hc, fun e t => LogSys.lh_step hi hc⟩, hi.alone, fun p t hp hs => ?_⟩
    obtain ⟨c, c', lh, head, hp', -, -, -, -, hhead, rfl⟩ := LogSys.commit_ok hs
    obtain rfl : c = .writeHead := by
      rw [hp] at hp'
      cases hp'
      rfl
    simp only [LogSys.setPc, hhead rfl]
    refine ⟨hh.nodup, hh.logged (fun q d hq hd => ?_), fun tr₁ q b tr₂ htr => ?_⟩
    · rw [hi.alone q p d _ hq hp, hp] at hq
      cases hq
      exact hd
    · exact (hh.ended tr₁ q b tr₂ htr).resolve_right
        (fun ⟨w, hq⟩ => hi.no_op (hi.committing p _ hp) q w hq)
  · rintro ⟨s, e, hr, hs⟩
    have hi := LogSys.Inv.of_reachable hr
    rcases LogSys.panic_cases hs with ⟨-, hc, p, w, hp⟩ | ⟨h, -⟩ | ⟨h, -⟩
    · exact hi.no_op hc p w hp
    · simp at h
    · simp at h
  · rintro ⟨s, e, hr, hs⟩
    have hi := LogSys.Inv.of_reachable hr
    rcases LogSys.panic_cases hs with ⟨h, -⟩ | ⟨-, ho, p, w, hp⟩ | ⟨h, -⟩
    · simp at h
    · have h1 := le_sum OpPc.ops s.pc p
      rw [hp] at h1
      change 1 ≤ _ at h1
      have := hi.outstanding
      omega
    · simp at h

end Xv6
